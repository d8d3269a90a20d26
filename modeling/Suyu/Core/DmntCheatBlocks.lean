import Mathlib
import Suyu.Core.DmntCheatVm
import Suyu.Lib.PartialRuns

/-
  `DmntCheatVm` runs conditionals and loops as structured blocks.

  1. **Specification (`Exec`)** - a program is a tree (`Code`): instructions, blocks with or without an
     `else`, and loops.  A condition selects one body; a loop runs its body, counts down, and runs it
     again unless the counter is zero.  `Layout` says how the tree lies in the words of a program.

  2. **The crux (`skip_code`)** - a skip over a whole piece of code, whatever is nested in it, decodes
     it from its first word to its last and leaves the depth as it was.

  3. **Both directions** - every structured run is one of the interpreter (`passes_of_exec`), and a run
     of the interpreter that halts is a structured one (`exec_of_halts`): by induction on the code, and
     at a loop on its rounds, or on the number of steps that are left.
-/

namespace Suyu.Core.DmntCheatVm

open Function (update update_self update_of_ne)

open Lib.PartialRuns

/-! ## The specification -/

/-- An instruction that neither begins nor ends anything. -/
def CheatVmOpcode.isPlain : CheatVmOpcode → Bool
  | .beginConditional .. | .beginKeypressConditional .. | .beginRegisterConditional ..
  | .endConditional .. | .controlLoop .. => false
  | _ => true

/-- Properly nested blocks. -/
inductive Code where
  | done
  | plain (opcode : CheatVmOpcode) (rest : Code)
  | block (opcode : CheatVmOpcode) (body rest : Code)
  | blockElse (opcode : CheatVmOpcode) (body other rest : Code)
  | loop (reg : Nybble) (numIters : Word) (body rest : Code)

/-- The registers of all loops of the code. -/
def Code.loopRegisters : Code → List Nybble
  | .done => []
  | .plain _ rest => rest.loopRegisters
  | .block _ body rest => body.loopRegisters ++ rest.loopRegisters
  | .blockElse _ body other rest =>
    body.loopRegisters ++ (other.loopRegisters ++ rest.loopRegisters)
  | .loop reg _ body rest => reg :: (body.loopRegisters ++ rest.loopRegisters)

/-- No loop uses the register of a loop around it. -/
def Code.Distinct : Code → Prop
  | .done => True
  | .plain _ rest => rest.Distinct
  | .block _ body rest => body.Distinct ∧ rest.Distinct
  | .blockElse _ body other rest => body.Distinct ∧ other.Distinct ∧ rest.Distinct
  | .loop reg _ body rest => reg ∉ body.loopRegisters ∧ body.Distinct ∧ rest.Distinct

/-- The words from `ip` to `ip'` decode to the code. -/
inductive Layout (program : List Word) : Nat → Code → Nat → Prop where
  | done (ip : Nat) : Layout program ip .done ip
  | plain {ip ip₁ ip' : Nat} {opcode : CheatVmOpcode} {rest : Code}
      (hop : (decode program).run ip = some (opcode, ip₁)) (hplain : opcode.isPlain = true)
      (hrest : Layout program ip₁ rest ip') : Layout program ip (.plain opcode rest) ip'
  | block {ip ip₁ ip₂ ip₃ ip' : Nat} {opcode : CheatVmOpcode} {body rest : Code}
      (hop : (decode program).run ip = some (opcode, ip₁))
      (hbegin : opcode.beginConditionalBlock = true) (hbody : Layout program ip₁ body ip₂)
      (hend : (decode program).run ip₂ = some (.endConditional false, ip₃))
      (hrest : Layout program ip₃ rest ip') : Layout program ip (.block opcode body rest) ip'
  | blockElse {ip ip₁ ip₂ ip₃ ip₄ ip₅ ip' : Nat} {opcode : CheatVmOpcode} {body other rest : Code}
      (hop : (decode program).run ip = some (opcode, ip₁))
      (hbegin : opcode.beginConditionalBlock = true) (hbody : Layout program ip₁ body ip₂)
      (helse : (decode program).run ip₂ = some (.endConditional true, ip₃))
      (hother : Layout program ip₃ other ip₄)
      (hend : (decode program).run ip₄ = some (.endConditional false, ip₅))
      (hrest : Layout program ip₅ rest ip') :
      Layout program ip (.blockElse opcode body other rest) ip'
  | loop {ip ip₁ ip₂ ip₃ ip' : Nat} {reg : Nybble} {numIters ignored : Word} {body rest : Code}
      (hop : (decode program).run ip = some (.controlLoop true reg numIters, ip₁))
      (hbody : Layout program ip₁ body ip₂)
      (hend : (decode program).run ip₂ = some (.controlLoop false reg ignored, ip₃))
      (hrest : Layout program ip₃ rest ip') : Layout program ip (.loop reg numIters body rest) ip'

/-- The rounds of a loop whose body does `round`: at least one, and the last one ends at zero. -/
inductive Iterates (round : Store → Store → Prop) (reg : Nybble) : Store → Store → Prop where
  | last {s s₁ : Store} (hround : round s s₁) (hzero : (countDown reg s₁).registers reg = 0) :
      Iterates round reg s (countDown reg s₁)
  | again {s s₁ s' : Store} (hround : round s s₁)
      (hcount : (countDown reg s₁).registers reg ≠ 0)
      (hrest : Iterates round reg (countDown reg s₁) s') : Iterates round reg s s'

/-- The structured semantics: what the code makes of a store. -/
def Exec (callbacks : Callbacks) (metadata : CheatProcessMetadata) : Code → Store → Store → Prop
  | .done, s, s' => s' = s
  | .plain opcode rest, s, s' =>
    Exec callbacks metadata rest (perform callbacks metadata opcode s) s'
  | .block opcode body rest, s, s' =>
    let (condMet, s₁) := condition callbacks metadata opcode s
    ∃ s₂, (if condMet then Exec callbacks metadata body s₁ s₂ else s₂ = s₁) ∧
      Exec callbacks metadata rest s₂ s'
  | .blockElse opcode body other rest, s, s' =>
    let (condMet, s₁) := condition callbacks metadata opcode s
    ∃ s₂, (if condMet then Exec callbacks metadata body s₁ s₂
        else Exec callbacks metadata other s₁ s₂) ∧
      Exec callbacks metadata rest s₂ s'
  | .loop reg numIters body rest, s, s' =>
    ∃ s₁, Iterates (Exec callbacks metadata body) reg
        (s.setRegister reg (numIters.zeroExtend 64)) s₁ ∧
      Exec callbacks metadata rest s₁ s'

section Rules

variable {callbacks : Callbacks} {metadata : CheatProcessMetadata} {opcode : CheatVmOpcode}
variable {body other rest : Code} {s s₁ s₂ s' : Store} {condMet : Bool}

theorem exec_block (hcond : condition callbacks metadata opcode s = (condMet, s₁))
    (hbody : if condMet then Exec callbacks metadata body s₁ s₂ else s₂ = s₁)
    (hrest : Exec callbacks metadata rest s₂ s') :
    Exec callbacks metadata (.block opcode body rest) s s' := by
  rw [Exec, hcond]; exact ⟨s₂, hbody, hrest⟩

theorem exec_blockElse (hcond : condition callbacks metadata opcode s = (condMet, s₁))
    (hbody : if condMet then Exec callbacks metadata body s₁ s₂
      else Exec callbacks metadata other s₁ s₂) (hrest : Exec callbacks metadata rest s₂ s') :
    Exec callbacks metadata (.blockElse opcode body other rest) s s' := by
  rw [Exec, hcond]; exact ⟨s₂, hbody, hrest⟩

end Rules

/-! ## Decoding goes forwards -/

section Decoding

variable {α β : Type}

/-- A decoder does not go back, and stays in the program. -/
def Forward (program : List Word) (d : Decoder α) : Prop :=
  ∀ ip r, d.run ip = some r → ip ≤ r.2 ∧ (ip ≤ program.length → r.2 ≤ program.length)

variable {program : List Word}

theorem forward_pure (a : α) : Forward program (pure a : Decoder α) := by
  intro ip r h
  cases h
  exact ⟨Nat.le_refl _, id⟩

theorem forward_bind {d : Decoder α} {f : α → Decoder β} (hd : Forward program d)
    (hf : ∀ a, Forward program (f a)) : Forward program (d >>= f) := by
  intro ip r h
  rw [StateT.run_bind] at h
  obtain ⟨r₁, h₁, h₂⟩ := Option.bind_eq_some_iff.mp h
  obtain ⟨hle, hin⟩ := hd ip r₁ h₁
  obtain ⟨hle', hin'⟩ := hf r₁.1 r₁.2 r h₂
  exact ⟨Nat.le_trans hle hle', fun hip => hin' (hin hip)⟩

theorem run_getNextDword {ip : Nat} {r : Word × Nat}
    (h : (getNextDword program).run ip = some r) : r.2 = ip + 1 ∧ ip < program.length := by
  obtain ⟨word, hword, rfl⟩ := Option.map_eq_some_iff.mp h
  exact ⟨rfl, (List.getElem?_eq_some_iff.mp hword).1⟩

theorem forward_getNextDword : Forward program (getNextDword program) := by
  intro ip r h
  obtain ⟨hnext, hlt⟩ := run_getNextDword h
  omega

theorem forward_getNextVmInt (bitWidth : Nybble) : Forward program (getNextVmInt program bitWidth) := by
  apply forward_bind forward_getNextDword
  intro first
  split
  · exact forward_pure _
  · exact forward_pure _
  · exact forward_pure _
  · exact forward_bind forward_getNextDword fun _ => forward_pure _
  · exact forward_pure _

theorem forward_getNextTwoDwords : Forward program (getNextTwoDwords program) :=
  forward_bind forward_getNextDword fun _ => forward_bind forward_getNextDword fun _ => forward_pure _

theorem forward_getNextAddress (first mask : Word) :
    Forward program (getNextAddress program first mask) :=
  forward_bind forward_getNextDword fun _ => forward_pure _

variable (first : Word)

theorem forward_decodeStoreRegisterToAddress :
    Forward program (decodeStoreRegisterToAddress program first) := by
  unfold decodeStoreRegisterToAddress
  dsimp only
  split
  · exact forward_pure _
  · exact forward_pure _
  · exact forward_bind (forward_getNextAddress _ _) fun _ => forward_pure _
  · exact forward_pure _
  · exact forward_bind (forward_getNextAddress _ _) fun _ => forward_pure _
  · exact forward_bind (forward_getNextAddress _ _) fun _ => forward_pure _

theorem forward_decodeBeginRegisterConditional :
    Forward program (decodeBeginRegisterConditional program first) := by
  unfold decodeBeginRegisterConditional
  dsimp only
  split
  · exact forward_bind (forward_getNextVmInt _) fun _ => forward_pure _
  · exact forward_pure _
  · exact forward_bind (forward_getNextAddress _ _) fun _ => forward_pure _
  · exact forward_pure _
  · exact forward_bind (forward_getNextAddress _ _) fun _ => forward_pure _
  · exact forward_pure _
  · exact forward_pure _

theorem forward_decodeDebugLog : Forward program (decodeDebugLog program first) := by
  unfold decodeDebugLog
  dsimp only
  split
  · exact forward_pure _
  · exact forward_bind (forward_getNextAddress _ _) fun _ => forward_pure _
  · exact forward_pure _
  · exact forward_bind (forward_getNextAddress _ _) fun _ => forward_pure _
  · exact forward_pure _
  · exact forward_pure _

theorem forward_decodeOperands (type : CheatVmOpcodeType) :
    Forward program (decodeOperands program first type) := by
  cases type with
  | storeStatic | beginConditionalBlock =>
    exact forward_bind (forward_getNextAddress _ _) fun _ =>
      forward_bind (forward_getNextVmInt _) fun _ => forward_pure _
  | controlLoop =>
    rw [decodeOperands]
    split
    · exact forward_bind forward_getNextDword fun _ => forward_pure _
    · exact forward_pure _
  | loadRegisterStatic | storeStaticToAddress =>
    exact forward_bind forward_getNextTwoDwords fun _ => forward_pure _
  | loadRegisterMemory =>
    exact forward_bind (forward_getNextAddress _ _) fun _ => forward_pure _
  | performArithmeticStatic => exact forward_bind forward_getNextDword fun _ => forward_pure _
  | performArithmeticRegister =>
    rw [decodeOperands]
    split
    · exact forward_pure _
    · exact forward_bind (forward_getNextVmInt _) fun _ => forward_pure _
  | storeRegisterToAddress => exact forward_decodeStoreRegisterToAddress first
  | beginRegisterConditionalBlock => exact forward_decodeBeginRegisterConditional first
  | debugLog => exact forward_decodeDebugLog first
  | endConditionalBlock | beginKeypressConditionalBlock | saveRestoreRegister
  | saveRestoreRegisterMask | readWriteStaticRegister | pauseProcess | resumeProcess =>
    exact forward_pure _

theorem decode_lt {ip ip' : Nat} {opcode : CheatVmOpcode}
    (h : (decode program).run ip = some (opcode, ip')) : ip < ip' ∧ ip' ≤ program.length := by
  unfold decode at h
  rw [StateT.run_bind] at h
  obtain ⟨r, hfirst, hrest⟩ := Option.bind_eq_some_iff.mp h
  obtain ⟨hnext, hlt⟩ := run_getNextDword hfirst
  cases htype : opcodeType r.1 with
  | none =>
    rw [htype] at hrest; cases hrest
  | some type =>
    rw [htype] at hrest
    obtain ⟨hle, hin⟩ := forward_decodeOperands r.1 type r.2 _ hrest
    exact ⟨by dsimp only at hle; omega, hin (by omega)⟩

theorem decode_end : (decode program).run program.length = none := by
  unfold decode
  rw [StateT.run_bind]
  have hnone : (getNextDword program).run program.length = none := by
    show (program[program.length]?).map _ = none
    rw [List.getElem?_eq_none (Nat.le_refl _)]; rfl
  rw [hnone]
  rfl

end Decoding

/-! ## Skipping -/

section Skipping

variable {program : List Word} {isIf : Bool} {desired : Nat}

theorem decodeNextOpcode_eq {ip ip' d : Nat} {opcode : CheatVmOpcode} {s : Store}
    {tops : Nybble → Nat} (h : (decode program).run ip = some (opcode, ip')) :
    decodeNextOpcode program ⟨s, ip, d, true, tops⟩ = some (opcode, ⟨s, ip', d, true, tops⟩) := by
  unfold decodeNextOpcode
  rw [if_pos rfl, h]
  rfl

section Round

variable {ip ip' d fuel : Nat} {s : Store} {tops : Nybble → Nat}

theorem skipLoop_stop (h : d ≤ desired) :
    skipLoop program isIf desired fuel ⟨s, ip, d, true, tops⟩ = ⟨s, ip, d, true, tops⟩ := by
  cases fuel with
  | zero => rfl
  | succ fuel =>
    rw [skipLoop, if_neg (Nat.not_lt.mpr h)]

theorem skipLoop_over {opcode : CheatVmOpcode} (hdepth : desired < d)
    (hop : (decode program).run ip = some (opcode, ip'))
    (hbegin : opcode.beginConditionalBlock = false) (hend : ∀ b, opcode ≠ .endConditional b) :
    skipLoop program isIf desired (fuel + 1) ⟨s, ip, d, true, tops⟩ =
      skipLoop program isIf desired fuel ⟨s, ip', d, true, tops⟩ := by
  rw [skipLoop, if_pos hdepth, decodeNextOpcode_eq hop]
  dsimp only
  rw [hbegin, if_neg (by decide)]
  cases opcode with
  | endConditional b => exact absurd rfl (hend b)
  | _ => rfl

theorem skipLoop_begin {opcode : CheatVmOpcode} (hdepth : desired < d)
    (hop : (decode program).run ip = some (opcode, ip'))
    (hbegin : opcode.beginConditionalBlock = true) :
    skipLoop program isIf desired (fuel + 1) ⟨s, ip, d, true, tops⟩ =
      skipLoop program isIf desired fuel ⟨s, ip', d + 1, true, tops⟩ := by
  rw [skipLoop, if_pos hdepth, decodeNextOpcode_eq hop]
  dsimp only
  rw [hbegin, if_pos rfl]

theorem skipLoop_end (hdepth : desired < d)
    (hop : (decode program).run ip = some (.endConditional false, ip')) :
    skipLoop program isIf desired (fuel + 1) ⟨s, ip, d, true, tops⟩ =
      skipLoop program isIf desired fuel ⟨s, ip', d - 1, true, tops⟩ := by
  rw [skipLoop, if_pos hdepth, decodeNextOpcode_eq hop]; rfl

theorem skipLoop_else (hdepth : desired < d)
    (hop : (decode program).run ip = some (.endConditional true, ip')) :
    skipLoop program isIf desired (fuel + 1) ⟨s, ip, d, true, tops⟩ =
      if isIf ∧ d - 1 = desired then ⟨s, ip', d, true, tops⟩
      else skipLoop program isIf desired fuel ⟨s, ip', d, true, tops⟩ := by
  rw [skipLoop, if_pos hdepth, decodeNextOpcode_eq hop]; rfl

end Round

theorem plain_no_delimiter {opcode : CheatVmOpcode} (h : opcode.isPlain = true) :
    opcode.beginConditionalBlock = false ∧ ∀ b, opcode ≠ .endConditional b := by
  cases opcode <;> first
    | exact absurd h Bool.false_ne_true
    | exact ⟨rfl, fun _ h => by cases h⟩

theorem Layout.le {ip ip' : Nat} {code : Code} (h : Layout program ip code ip') : ip ≤ ip' := by
  induction h with
  | done ip => exact Nat.le_refl _
  | plain hop _ _ ih =>
    have := (decode_lt hop).1
    omega
  | block hop _ _ hend _ ihbody ihrest =>
    have := (decode_lt hop).1
    have := (decode_lt hend).1
    omega
  | blockElse hop _ _ helse _ hend _ ihbody ihother ihrest =>
    have := (decode_lt hop).1
    have := (decode_lt helse).1
    have := (decode_lt hend).1
    omega
  | loop hop _ hend _ ihbody ihrest =>
    have := (decode_lt hop).1
    have := (decode_lt hend).1
    omega

/-- **A skip passes over a piece of code**, from its first word to its last. -/
theorem skip_code (isIf : Bool) {ip ip' : Nat} {code : Code} (h : Layout program ip code ip') (s : Store)
    (tops : Nybble → Nat) : ∀ d, desired < d → ∃ k, k ≤ ip' - ip ∧ ∀ fuel,
      skipLoop program isIf desired (k + fuel) ⟨s, ip, d, true, tops⟩ =
        skipLoop program isIf desired fuel ⟨s, ip', d, true, tops⟩ := by
  induction h with
  | done ip =>
    intro d _
    refine ⟨0, Nat.zero_le _, fun fuel => ?_⟩
    rw [Nat.zero_add]
  | @plain ip ip₁ ip' opcode rest hop hplain hrest ih =>
    intro d hd
    obtain ⟨k, hk, hskip⟩ := ih d hd
    obtain ⟨hbegin, hend⟩ := plain_no_delimiter hplain
    have hlt := (decode_lt hop).1
    have hle := hrest.le
    refine ⟨k + 1, by omega, fun fuel => ?_⟩
    rw [Nat.add_right_comm, skipLoop_over hd hop hbegin hend, hskip]
  | @block ip ip₁ ip₂ ip₃ ip' opcode body rest hop hbegin hbody hend hrest ihbody ihrest =>
    intro d hd
    have hd' : desired < d + 1 := Nat.lt_succ_of_lt hd
    obtain ⟨k, hk, hskip⟩ := ihbody (d + 1) hd'
    obtain ⟨k', hk', hskip'⟩ := ihrest d hd
    have hlt := (decode_lt hop).1
    have hlt' := (decode_lt hend).1
    have hle := hbody.le
    have hle' := hrest.le
    refine ⟨k + (k' + 1) + 1, by omega, fun fuel => ?_⟩
    rw [Nat.add_right_comm, skipLoop_begin hd hop hbegin, Nat.add_assoc, hskip,
      Nat.add_right_comm, skipLoop_end hd' hend, Nat.add_sub_cancel, hskip']
  | @blockElse ip ip₁ ip₂ ip₃ ip₄ ip₅ ip' opcode body other rest hop hbegin hbody helse hother hend
      hrest ihbody ihother ihrest =>
    intro d hd
    have hd' : desired < d + 1 := Nat.lt_succ_of_lt hd
    obtain ⟨k, hk, hskip⟩ := ihbody (d + 1) hd'
    obtain ⟨k₁, hk₁, hskip₁⟩ := ihother (d + 1) hd'
    obtain ⟨k₂, hk₂, hskip₂⟩ := ihrest d hd
    have hlt := (decode_lt hop).1
    have hlt₁ := (decode_lt helse).1
    have hlt₂ := (decode_lt hend).1
    have hle := hbody.le
    have hle₁ := hother.le
    have hle₂ := hrest.le
    refine ⟨k + (k₁ + (k₂ + 1) + 1) + 1, by omega, fun fuel => ?_⟩
    -- The `else` of the inner block is not at the depth that ends the skip.
    have helse' : ¬ (isIf = true ∧ d + 1 - 1 = desired) := fun h => by omega
    rw [Nat.add_right_comm, skipLoop_begin hd hop hbegin, Nat.add_assoc, hskip,
      Nat.add_right_comm, skipLoop_else hd' helse, if_neg helse',
      Nat.add_assoc, hskip₁, Nat.add_right_comm, skipLoop_end hd' hend,
      Nat.add_sub_cancel, hskip₂]
  | @loop ip ip₁ ip₂ ip₃ ip' reg numIters ignored body rest hop hbody hend hrest ihbody ihrest =>
    intro d hd
    obtain ⟨k, hk, hskip⟩ := ihbody d hd
    obtain ⟨k', hk', hskip'⟩ := ihrest d hd
    have hlt := (decode_lt hop).1
    have hlt' := (decode_lt hend).1
    have hle := hbody.le
    have hle' := hrest.le
    refine ⟨k + (k' + 1) + 1, by omega, fun fuel => ?_⟩
    rw [Nat.add_right_comm, skipLoop_over hd hop rfl (fun _ h => by cases h), Nat.add_assoc, hskip,
      Nat.add_right_comm, skipLoop_over hd hend rfl (fun _ h => by cases h), hskip']

theorem skip_to_end {ip ip₁ ip₂ d : Nat} {code : Code} (h : Layout program ip code ip₁)
    (hend : (decode program).run ip₁ = some (.endConditional false, ip₂)) (s : Store)
    (tops : Nybble → Nat) :
    skipConditionalBlock program isIf ⟨s, ip, d + 1, true, tops⟩ = ⟨s, ip₂, d, true, tops⟩ := by
  have hd : d < d + 1 := Nat.lt_succ_self d
  obtain ⟨k, hk, hskip⟩ := skip_code isIf h s tops (d + 1) hd
  obtain ⟨hlt, hin⟩ := decode_lt hend
  unfold skipConditionalBlock
  rw [if_pos (Nat.succ_pos d), Nat.add_sub_cancel,
    show program.length = k + ((program.length - k - 1) + 1) by omega, hskip,
    skipLoop_end hd hend, Nat.add_sub_cancel, skipLoop_stop (Nat.le_refl d)]

theorem skip_to_else {ip ip₁ ip₂ d : Nat} {code : Code} (h : Layout program ip code ip₁)
    (helse : (decode program).run ip₁ = some (.endConditional true, ip₂)) (s : Store)
    (tops : Nybble → Nat) :
    skipConditionalBlock program true ⟨s, ip, d + 1, true, tops⟩ = ⟨s, ip₂, d + 1, true, tops⟩ := by
  have hd : d < d + 1 := Nat.lt_succ_self d
  obtain ⟨k, hk, hskip⟩ := skip_code true h s tops (d + 1) hd
  obtain ⟨hlt, hin⟩ := decode_lt helse
  unfold skipConditionalBlock
  rw [if_pos (Nat.succ_pos d), Nat.add_sub_cancel,
    show program.length = k + ((program.length - k - 1) + 1) by omega, hskip,
    skipLoop_else hd helse, if_pos ⟨rfl, Nat.add_sub_cancel ..⟩]

end Skipping

/-! ## One step -/

section Step

variable {callbacks : Callbacks} {metadata : CheatProcessMetadata} {program : List Word}
variable {ip ip' ip₁ ip₂ ip₃ d : Nat} {s s₁ : Store} {tops : Nybble → Nat} {opcode : CheatVmOpcode}

section

variable (hop : (decode program).run ip = some (opcode, ip₁))
include hop

theorem step_eq : step callbacks metadata program ⟨s, ip, d, true, tops⟩ =
      some (dispatch callbacks metadata program opcode ⟨s, ip₁, d, true, tops⟩) := by
  unfold step
  rw [decodeNextOpcode_eq hop]
  rfl

theorem step_plain (hplain : opcode.isPlain = true) :
    step callbacks metadata program ⟨s, ip, d, true, tops⟩ =
      some ⟨perform callbacks metadata opcode s, ip₁, d, true, tops⟩ := by
  rw [step_eq hop]
  cases opcode <;> first
    | exact absurd hplain Bool.false_ne_true
    | rfl

theorem step_met (hbegin : opcode.beginConditionalBlock = true)
    (hcond : condition callbacks metadata opcode s = (true, s₁)) :
    step callbacks metadata program ⟨s, ip, d, true, tops⟩ = some ⟨s₁, ip₁, d + 1, true, tops⟩ := by
  rw [step_eq hop]
  unfold dispatch
  rw [if_pos hbegin]
  dsimp only
  rw [hcond]
  rfl

theorem step_not_met (hbegin : opcode.beginConditionalBlock = true)
    (hcond : condition callbacks metadata opcode s = (false, s₁)) :
    step callbacks metadata program ⟨s, ip, d, true, tops⟩ =
      some (skipConditionalBlock program true ⟨s₁, ip₁, d + 1, true, tops⟩) := by
  rw [step_eq hop]
  unfold dispatch
  rw [if_pos hbegin]
  dsimp only
  rw [hcond]
  rfl

end

theorem step_end (hop : (decode program).run ip = some (.endConditional false, ip₁)) :
    step callbacks metadata program ⟨s, ip, d + 1, true, tops⟩ = some ⟨s, ip₁, d, true, tops⟩ := by
  rw [step_eq hop]; rfl

theorem step_else {other : Code} (hop : (decode program).run ip = some (.endConditional true, ip₁))
    (hother : Layout program ip₁ other ip₂)
    (hend : (decode program).run ip₂ = some (.endConditional false, ip₃)) :
    step callbacks metadata program ⟨s, ip, d + 1, true, tops⟩ = some ⟨s, ip₃, d, true, tops⟩ := by
  rw [step_eq hop]
  show some (skipConditionalBlock program false ⟨s, ip₁, d + 1, true, tops⟩) = _
  rw [skip_to_end hother hend]

theorem step_loopStart {reg : Nybble} {numIters : Word}
    (hop : (decode program).run ip = some (.controlLoop true reg numIters, ip₁)) :
    step callbacks metadata program ⟨s, ip, d, true, tops⟩ =
      some ⟨s.setRegister reg (numIters.zeroExtend 64), ip₁, d, true,
        update tops reg ip₁⟩ := by
  rw [step_eq hop]; rfl

theorem step_loopEnd {reg : Nybble} {ignored : Word}
    (hop : (decode program).run ip = some (.controlLoop false reg ignored, ip₁)) :
    step callbacks metadata program ⟨s, ip, d, true, tops⟩ =
      some ⟨countDown reg s, if (countDown reg s).registers reg ≠ 0 then tops reg else ip₁, d, true,
        tops⟩ := by
  rw [step_eq hop]
  show some (if (countDown reg s).registers reg ≠ 0 then
    (⟨countDown reg s, tops reg, d, true, tops⟩ : Vm) else ⟨countDown reg s, ip₁, d, true, tops⟩) = _
  by_cases hzero : (countDown reg s).registers reg ≠ 0
  · rw [if_pos hzero, if_pos hzero]
  · rw [if_neg hzero, if_neg hzero]

theorem step_stop : step callbacks metadata program ⟨s, program.length, d, true, tops⟩ = none := by
  unfold step decodeNextOpcode
  rw [if_pos rfl]
  dsimp only
  rw [decode_end]
  rfl

end Step

/-! ## From the structured run to the interpreter -/

section Runs

variable {callbacks : Callbacks} {metadata : CheatProcessMetadata} {program : List Word}

/-- The tops of the loops that are not in the code are kept. -/
def KeepsTops (registers : List Nybble) (tops tops' : Nybble → Nat) : Prop :=
  ∀ r, r ∉ registers → tops' r = tops r

theorem KeepsTops.refl (registers : List Nybble) (tops : Nybble → Nat) :
    KeepsTops registers tops tops := fun _ _ => rfl

theorem KeepsTops.trans {registers registers' all : List Nybble} {tops tops' tops'' : Nybble → Nat}
    (h : KeepsTops registers tops tops') (h' : KeepsTops registers' tops' tops'')
    (hsub : ∀ r ∈ registers, r ∈ all) (hsub' : ∀ r ∈ registers', r ∈ all) :
    KeepsTops all tops tops'' := by
  intro r hr
  rw [h' r (fun hmem => hr (hsub' r hmem)), h r (fun hmem => hr (hsub r hmem))]

variable {registers : List Nybble} {ip' : Nat}

theorem KeepsTops.mono {all : List Nybble} {tops tops' : Nybble → Nat}
    (h : KeepsTops registers tops tops') (hsub : ∀ r ∈ registers, r ∈ all) :
    KeepsTops all tops tops' :=
  fun r hr => h r fun hmem => hr (hsub r hmem)

/-- The interpreter goes from `ip` to `ip'`, at one depth, and from one store to the other. -/
def Passes (callbacks : Callbacks) (metadata : CheatProcessMetadata) (program : List Word)
    (registers : List Nybble) (ip ip' : Nat) (s s' : Store) (tops : Nybble → Nat) : Prop :=
  ∀ d, ∃ n tops', steps (step callbacks metadata program) n ⟨s, ip, d, true, tops⟩ =
    some ⟨s', ip', d, true, tops'⟩ ∧ KeepsTops registers tops tops'

theorem passes_of_iterates {round : Store → Store → Prop} {reg : Nybble} {ip ip₁ : Nat} {ignored : Word}
    (hround : ∀ s s₁ tops, round s s₁ →
      Passes callbacks metadata program registers ip ip₁ s s₁ tops)
    (hend : (decode program).run ip₁ = some (.controlLoop false reg ignored, ip'))
    (hreg : reg ∉ registers) {s s' : Store} (h : Iterates round reg s s') :
    ∀ tops : Nybble → Nat, tops reg = ip →
      Passes callbacks metadata program registers ip ip' s s' tops := by
  induction h with
  | last hbody hzero =>
    intro tops htop d
    obtain ⟨n, tops₁, hsteps, hkeeps⟩ := hround _ _ tops hbody d
    refine ⟨n + 1, tops₁, steps_trans hsteps (steps_one ?_), hkeeps⟩
    rw [step_loopEnd hend, if_neg (not_not.mpr hzero)]
  | again hbody hcount hrest ih =>
    intro tops htop d
    obtain ⟨n, tops₁, hsteps, hkeeps⟩ := hround _ _ tops hbody d
    -- The body leaves the top of the loop alone.
    have htop₁ : tops₁ reg = ip := (hkeeps reg hreg).trans htop
    obtain ⟨n', tops', hsteps', hkeeps'⟩ := ih tops₁ htop₁ d
    refine ⟨n + 1 + n', tops', steps_trans (steps_trans hsteps (steps_one ?_)) hsteps',
      hkeeps.trans hkeeps' (fun _ h => h) (fun _ h => h)⟩
    rw [step_loopEnd hend, if_pos hcount, htop₁]

/-- **Every structured run is one of the interpreter.** -/
theorem passes_of_exec {code : Code} {ip : Nat} (hlayout : Layout program ip code ip') :
    code.Distinct → ∀ (s s' : Store) (tops : Nybble → Nat), Exec callbacks metadata code s s' →
      Passes callbacks metadata program code.loopRegisters ip ip' s s' tops := by
  induction hlayout with
  | done ip =>
    rintro - s s' tops rfl d; exact ⟨0, tops, rfl, KeepsTops.refl _ _⟩
  | plain hop hplain hrest ih =>
    intro hdistinct s s' tops h d
    obtain ⟨n, tops', hsteps, hkeeps⟩ := ih hdistinct _ s' tops h d
    exact ⟨1 + n, tops', steps_trans (steps_one (step_plain hop hplain)) hsteps, hkeeps⟩
  | @block ip ip₁ ip₂ ip₃ ip' opcode body rest hop hbegin hbody hend hrest ihbody ihrest =>
    rintro ⟨hdistinct, hdistinct'⟩ s s' tops h d
    rw [Exec] at h
    cases hcond : condition callbacks metadata opcode s with | mk met s₁ =>
    rw [hcond] at h
    obtain ⟨s₂, hinner, hrest'⟩ := h
    cases met with
    | true =>
      obtain ⟨n, tops₁, hsteps, hkeeps⟩ := ihbody hdistinct s₁ s₂ tops hinner (d + 1)
      obtain ⟨n', tops', hsteps', hkeeps'⟩ := ihrest hdistinct' s₂ s' tops₁ hrest' d
      refine ⟨1 + n + (1 + n'), tops', ?_, hkeeps.trans hkeeps' (fun _ h => List.mem_append_left _ h)
        (fun _ h => List.mem_append_right _ h)⟩
      exact steps_trans (steps_trans (steps_one (step_met hop hbegin hcond)) hsteps)
        (steps_trans (steps_one (step_end hend)) hsteps')
    | false =>
      obtain rfl : s₂ = s₁ := hinner
      obtain ⟨n, tops', hsteps, hkeeps⟩ := ihrest hdistinct' s₂ s' tops hrest' d
      refine ⟨1 + n, tops', steps_trans (steps_one ?_) hsteps,
        hkeeps.mono fun _ h => List.mem_append_right _ h⟩
      rw [step_not_met hop hbegin hcond, skip_to_end hbody hend]
  | @blockElse ip ip₁ ip₂ ip₃ ip₄ ip₅ ip' opcode body other rest hop hbegin hbody helse hother hend
      hrest ihbody ihother ihrest =>
    rintro ⟨hdistinct, hdistinct₁, hdistinct₂⟩ s s' tops h d
    rw [Exec] at h
    cases hcond : condition callbacks metadata opcode s with | mk met s₁ =>
    rw [hcond] at h
    obtain ⟨s₂, hinner, hrest'⟩ := h
    cases met with
    | true =>
      obtain ⟨n, tops₁, hsteps, hkeeps⟩ := ihbody hdistinct s₁ s₂ tops hinner (d + 1)
      obtain ⟨n', tops', hsteps', hkeeps'⟩ := ihrest hdistinct₂ s₂ s' tops₁ hrest' d
      refine ⟨1 + n + (1 + n'), tops', ?_, hkeeps.trans hkeeps' (fun _ h => List.mem_append_left _ h)
        (fun _ h => List.mem_append_right _ (List.mem_append_right _ h))⟩
      exact steps_trans (steps_trans (steps_one (step_met hop hbegin hcond)) hsteps)
        (steps_trans (steps_one (step_else helse hother hend)) hsteps')
    | false =>
      obtain ⟨n, tops₁, hsteps, hkeeps⟩ := ihother hdistinct₁ s₁ s₂ tops hinner (d + 1)
      obtain ⟨n', tops', hsteps', hkeeps'⟩ := ihrest hdistinct₂ s₂ s' tops₁ hrest' d
      refine ⟨1 + n + (1 + n'), tops', ?_, hkeeps.trans hkeeps'
        (fun _ h => List.mem_append_right _ (List.mem_append_left _ h))
        (fun _ h => List.mem_append_right _ (List.mem_append_right _ h))⟩
      refine steps_trans (steps_trans (steps_one ?_) hsteps)
        (steps_trans (steps_one (step_end hend)) hsteps')
      rw [step_not_met hop hbegin hcond, skip_to_else hbody helse]
  | @loop ip ip₁ ip₂ ip₃ ip' reg numIters ignored body rest hop hbody hend hrest ihbody ihrest =>
    rintro ⟨hreg, hdistinct, hdistinct'⟩ s s' tops ⟨s₁, hrounds, hrest'⟩ d
    obtain ⟨n, tops₁, hsteps, hkeeps⟩ := passes_of_iterates (ihbody hdistinct) hend hreg hrounds
      (update tops reg ip₁) (update_self ..) d
    obtain ⟨n', tops', hsteps', hkeeps'⟩ := ihrest hdistinct' s₁ s' tops₁ hrest' d
    refine ⟨1 + n + n', tops', ?_, ?_⟩
    · exact steps_trans (steps_trans (steps_one (step_loopStart hop)) hsteps) hsteps'
    · intro r hr
      rw [Code.loopRegisters, List.mem_cons, List.mem_append, not_or, not_or] at hr
      rw [hkeeps' r hr.2.2, hkeeps r hr.2.1, update_of_ne hr.1]

/-! ## From the interpreter to the structured run -/

theorem halts_after {ip d n : Nat} {s s' : Store} {tops : Nybble → Nat} {final : Vm}
    (hpasses : Passes callbacks metadata program registers ip ip' s s' tops)
    (h : Halts (step callbacks metadata program) n ⟨s, ip, d, true, tops⟩ final) :
    ∃ k tops', k ≤ n ∧ KeepsTops registers tops tops' ∧
      Halts (step callbacks metadata program) k ⟨s', ip', d, true, tops'⟩ final := by
  obtain ⟨m, tops', hsteps, hkeeps⟩ := hpasses d
  obtain ⟨hle, hrest⟩ := h.after hsteps
  exact ⟨n - m, tops', Nat.sub_le _ _, hkeeps, hrest⟩

theorem iterates_of_halts {round : Store → Store → Prop} {reg : Nybble} {ip ip₁ d : Nat}
    {ignored : Word} {final : Vm} (hpasses : ∀ s s₁ tops, round s s₁ →
      Passes callbacks metadata program registers ip ip₁ s s₁ tops)
    (hround : ∀ n s tops, Halts (step callbacks metadata program) n ⟨s, ip, d, true, tops⟩ final →
      ∃ s₁, round s s₁) (hend : (decode program).run ip₁ = some (.controlLoop false reg ignored, ip'))
    (hreg : reg ∉ registers) : ∀ n s (tops : Nybble → Nat), tops reg = ip →
      Halts (step callbacks metadata program) n ⟨s, ip, d, true, tops⟩ final →
      ∃ s', Iterates round reg s s' := by
  intro n
  induction n using Nat.strong_induction_on with
  | _ n ih =>
    intro s tops htop h
    obtain ⟨s₁, hbody⟩ := hround n s tops h
    obtain ⟨k, tops₁, hle, hkeeps, hrest⟩ := halts_after (hpasses s s₁ tops hbody) h
    obtain ⟨k', rfl, hrest'⟩ := hrest.tail (step_loopEnd hend)
    by_cases hzero : (countDown reg s₁).registers reg = 0
    · exact ⟨_, Iterates.last hbody hzero⟩
    · have htop₁ : tops₁ reg = ip := (hkeeps reg hreg).trans htop
      rw [if_pos hzero, htop₁] at hrest'
      obtain ⟨s', hs'⟩ := ih k' (by omega) (countDown reg s₁) tops₁ htop₁ hrest'
      exact ⟨s', Iterates.again hbody hzero hs'⟩

/-- **A run that halts is a structured one.** -/
theorem exec_of_halts {code : Code} {ip : Nat} (hlayout : Layout program ip code ip') :
    code.Distinct → ∀ (n d : Nat) (s : Store) (tops : Nybble → Nat) (final : Vm),
      Halts (step callbacks metadata program) n ⟨s, ip, d, true, tops⟩ final →
      ∃ s', Exec callbacks metadata code s s' := by
  induction hlayout with
  | done ip => exact fun _ n d s tops final _ => ⟨s, rfl⟩
  | plain hop hplain hrest ih =>
    intro hdistinct n d s tops final h
    obtain ⟨k, rfl, hnext⟩ := h.tail (step_plain hop hplain)
    exact ih hdistinct k d _ tops final hnext
  | @block ip ip₁ ip₂ ip₃ ip' opcode body rest hop hbegin hbody hend hrest ihbody ihrest =>
    rintro ⟨hdistinct, hdistinct'⟩ n d s tops final h
    cases hcond : condition callbacks metadata opcode s with | mk met s₁ =>
    cases met with
    | true =>
      obtain ⟨k, rfl, hnext⟩ := h.tail (step_met hop hbegin hcond)
      obtain ⟨s₂, hs₂⟩ := ihbody hdistinct k (d + 1) s₁ tops final hnext
      obtain ⟨k₁, tops₁, -, -, hbehind⟩ :=
        halts_after (passes_of_exec hbody hdistinct s₁ s₂ tops hs₂) hnext
      obtain ⟨k₂, rfl, hbehind'⟩ := hbehind.tail (step_end hend)
      obtain ⟨s', hs'⟩ := ihrest hdistinct' k₂ d s₂ tops₁ final hbehind'
      exact ⟨s', exec_block hcond hs₂ hs'⟩
    | false =>
      obtain ⟨k, rfl, hnext⟩ := h.tail (step_not_met hop hbegin hcond)
      rw [skip_to_end hbody hend] at hnext
      obtain ⟨s', hs'⟩ := ihrest hdistinct' k d s₁ tops final hnext
      exact ⟨s', exec_block hcond rfl hs'⟩
  | @blockElse ip ip₁ ip₂ ip₃ ip₄ ip₅ ip' opcode body other rest hop hbegin hbody helse hother hend
      hrest ihbody ihother ihrest =>
    rintro ⟨hdistinct, hdistinct₁, hdistinct₂⟩ n d s tops final h
    cases hcond : condition callbacks metadata opcode s with | mk met s₁ =>
    cases met with
    | true =>
      obtain ⟨k, rfl, hnext⟩ := h.tail (step_met hop hbegin hcond)
      obtain ⟨s₂, hs₂⟩ := ihbody hdistinct k (d + 1) s₁ tops final hnext
      obtain ⟨k₁, tops₁, -, -, hbehind⟩ :=
        halts_after (passes_of_exec hbody hdistinct s₁ s₂ tops hs₂) hnext
      obtain ⟨k₂, rfl, hbehind'⟩ := hbehind.tail (step_else helse hother hend)
      obtain ⟨s', hs'⟩ := ihrest hdistinct₂ k₂ d s₂ tops₁ final hbehind'
      exact ⟨s', exec_blockElse hcond hs₂ hs'⟩
    | false =>
      obtain ⟨k, rfl, hnext⟩ := h.tail (step_not_met hop hbegin hcond)
      rw [skip_to_else hbody helse] at hnext
      obtain ⟨s₂, hs₂⟩ := ihother hdistinct₁ k (d + 1) s₁ tops final hnext
      obtain ⟨k₁, tops₁, -, -, hbehind⟩ :=
        halts_after (passes_of_exec hother hdistinct₁ s₁ s₂ tops hs₂) hnext
      obtain ⟨k₂, rfl, hbehind'⟩ := hbehind.tail (step_end hend)
      obtain ⟨s', hs'⟩ := ihrest hdistinct₂ k₂ d s₂ tops₁ final hbehind'
      exact ⟨s', exec_blockElse hcond hs₂ hs'⟩
  | @loop ip ip₁ ip₂ ip₃ ip' reg numIters ignored body rest hop hbody hend hrest ihbody ihrest =>
    rintro ⟨hreg, hdistinct, hdistinct'⟩ n d s tops final h
    obtain ⟨k, rfl, hnext⟩ := h.tail (step_loopStart hop)
    have hpasses : ∀ s s₁ tops, Exec callbacks metadata body s s₁ →
        Passes callbacks metadata program body.loopRegisters ip₁ ip₂ s s₁ tops :=
      passes_of_exec hbody hdistinct
    obtain ⟨s₁, hs₁⟩ := iterates_of_halts hpasses
      (fun n s tops hn => ihbody hdistinct n d s tops final hn) hend hreg k _
      (update tops reg ip₁) (update_self ..) hnext
    obtain ⟨k₁, tops₁, -, -, hbehind⟩ := halts_after
      (passes_of_iterates hpasses hend hreg hs₁ (update tops reg ip₁) (update_self ..)) hnext
    obtain ⟨s', hs'⟩ := ihrest hdistinct' k₁ d s₁ tops₁ final hbehind
    exact ⟨s', s₁, hs₁, hs'⟩

end Runs

/-! ## The result -/

/-- **Conditionals and loops are structured blocks.**  Where the words of a program decode to properly
    nested code, `Execute` ends in a store, with its calls in their order, exactly when the structured
    semantics does; and a run that ends, from wherever it comes upon a part of that shape, passes
    behind the part with the depth that it had before and the store that the semantics gives. -/
theorem execute_structured (callbacks : Callbacks) (metadata : CheatProcessMetadata)
    (program : List Word) (code : Code) (hlayout : Layout program 0 code program.length)
    (hdistinct : code.Distinct) (staticRegisters : Fin 256 → Value) :
    (∀ s', (∃ n final, Halts (step callbacks metadata program) n (resetState staticRegisters) final ∧
        final.store = s') ↔
      Exec callbacks metadata code (resetState staticRegisters).store s') ∧
    ∀ ip ip' part, Layout program ip part ip' → part.Distinct → ∀ n vm final,
      vm.instructionPtr = ip → vm.decodeSuccess = true →
      Halts (step callbacks metadata program) n vm final →
      ∃ m vm', m ≤ n ∧ steps (step callbacks metadata program) m vm = some vm' ∧
        vm'.instructionPtr = ip' ∧ vm'.conditionDepth = vm.conditionDepth ∧
        Exec callbacks metadata part vm.store vm'.store := by
  constructor
  · intro s'
    constructor
    · rintro ⟨n, final, hhalts, rfl⟩
      obtain ⟨s', hs'⟩ := exec_of_halts hlayout hdistinct n 0 _ _ final hhalts
      obtain ⟨k, tops', -, -, hrest⟩ :=
        halts_after (passes_of_exec hlayout hdistinct _ s' _ hs') hhalts
      -- Behind the last word the run is over.
      have hdone : Halts (step callbacks metadata program) 0
          ⟨s', program.length, 0, true, tops'⟩ ⟨s', program.length, 0, true, tops'⟩ :=
        ⟨rfl, step_stop⟩
      rw [← (hdone.unique hrest).2]
      exact hs'
    · intro h
      obtain ⟨n, tops', hsteps, -⟩ := passes_of_exec hlayout hdistinct _ s' (fun _ => 0) h 0
      exact ⟨n, ⟨s', program.length, 0, true, tops'⟩, ⟨hsteps, step_stop⟩, rfl⟩
  · rintro ip ip' part hpart hdistinct' n ⟨s, ipNow, d, success, tops⟩ final rfl rfl hhalts
    obtain ⟨s', hs'⟩ := exec_of_halts hpart hdistinct' n d s tops final hhalts
    obtain ⟨m, tops', hsteps, -⟩ := passes_of_exec hpart hdistinct' s s' tops hs' d
    exact ⟨m, _, (hhalts.after hsteps).1, hsteps, rfl, rfl, hs'⟩

/-- A block with an `else` whose second body is a loop; the immediates 0x21000000 and 0x20000000 look
    like its delimiters. -/
theorem execute_structured_immediates :
    let program : List Word := [0x80000001, 0x04000000, 0x10, 0x21000000, 0x21000000, 0x30100000, 2,
      0x40020000, 0, 0x20000000, 0x31100000, 0x20000000]
    let code : Code := .blockElse (.beginKeypressConditional 1)
      (.plain (.storeStatic 4 .mainNso 0 0x10 0x21000000) .done)
      (.loop 1 2 (.plain (.loadRegisterStatic 2 0x20000000) .done) .done) .done
    let callbacks : Callbacks := ⟨fun _ _ _ => 0, 1⟩
    ∀ s', (∃ n final, Halts (step callbacks ⟨0, 0, 0, 0⟩ program) n (resetState fun _ => 0) final ∧
        final.store = s') ↔
      Exec callbacks ⟨0, 0, 0, 0⟩ code (resetState fun _ => 0).store s' := by
  intro program code callbacks
  have hbody : Layout program 1 (.plain (.storeStatic 4 .mainNso 0 0x10 0x21000000) .done) 4 :=
    .plain rfl rfl (.done 4)
  have hround : Layout program 7 (.plain (.loadRegisterStatic 2 0x20000000) .done) 10 :=
    .plain rfl rfl (.done 10)
  have hother : Layout program 5
      (.loop 1 2 (.plain (.loadRegisterStatic 2 0x20000000) .done) .done) 11 :=
    .loop rfl hround rfl (.done 11)
  have hlayout : Layout program 0 code program.length :=
    .blockElse rfl rfl hbody rfl hother rfl (.done 12)
  have hdistinct : code.Distinct := ⟨trivial, ⟨by simp [Code.loopRegisters], trivial, trivial⟩, trivial⟩
  exact (execute_structured callbacks ⟨0, 0, 0, 0⟩ program code hlayout hdistinct fun _ => 0).1

end Suyu.Core.DmntCheatVm
