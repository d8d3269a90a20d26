import Mathlib
import Suyu.Core.DmntCheatBlocks
import Suyu.Lib.PartialRuns

/-
  Which accesses the interpreter of cheat programs makes, and which of them go wrong.

  1. **Program** - `accesses`: for a round of the loop of `Execute`, the indices into the arrays of the VM
     and the amounts of its shifts, in the order in which the source computes them.

  2. **Specification (`Access.Ok`)** - an index is below the size of its array, a static register that is
     written is one of the upper half, an amount is below 64; the branch for an invalid depth is never fine.

  3. **The crux (`skipReads_ok`, `operandAccesses_ok_iff`)** - a skip reads words of the program and nothing
     else; of the accesses of an instruction only its shift depends on more than its fields.

  4. **When it goes wrong (`Regular`)** - an `else` at depth ZERO takes the branch that is thought to be
     unreachable; a shift takes its amount from the program or a register as it is.
-/

namespace Suyu.Core.DmntCheatVm

/-! ## Accesses -/

def maximumProgramOpcodeCount : Nat := 0x400

/-- `NumRegisters`, the size of `registers`, `saved_values` and `loop_tops`. -/
def numRegisters : Nat := 0x10

def numReadableStaticRegisters : Nat := 0x80

def numStaticRegisters : Nat := 0x100

/-- An index into an array, the amount of a shift, or `UNREACHABLE`. -/
inductive Access where
  | program (index : Nat)
  | register (index : Nat)
  | savedValue (index : Nat)
  | staticRead (index : Nat)
  | staticWrite (index : Nat)
  | loopTop (index : Nat)
  | shift (amount : Nat)
  | invalidDepth
deriving DecidableEq

def Access.Ok : Access → Prop
  | .program index => index < maximumProgramOpcodeCount
  | .register index => index < numRegisters
  | .savedValue index => index < numRegisters
  | .staticRead index => index < numStaticRegisters
  | .staticWrite index => numReadableStaticRegisters ≤ index ∧ index < numStaticRegisters
  | .loopTop index => index < numRegisters
  | .shift amount => amount < 64
  | .invalidDepth => False

/-- The words that `DecodeNextOpcode` reads at an instruction pointer: those of the instruction. A decoding
    that fails reads words from the pointer on, none of them behind the last. -/
def decodeReads (program : List Word) (ip : Nat) : List Access :=
  match (decode program).run ip with
  | some (_, ip') => (List.range' ip (ip' - ip)).map .program
  | none => (List.range' ip (program.length - ip)).map .program

/-- The amount by which an arithmetic instruction shifts. -/
def CheatVmOpcode.shiftAmount (opcode : CheatVmOpcode) (s : Store) : Option Nat :=
  match opcode with
  | .performArithmeticStatic _ _ (some .leftShift) value
  | .performArithmeticStatic _ _ (some .rightShift) value => some (value.zeroExtend 64).toNat
  | .performArithmeticRegister bitWidth (some .leftShift) _ _ src2 hasImmediate value
  | .performArithmeticRegister bitWidth (some .rightShift) _ _ src2 hasImmediate value =>
    some (if hasImmediate then getVmInt value bitWidth else s.registers src2).toNat
  | _ => none

/-- The accesses of `SaveRestoreRegister`, on one register. -/
def saveRestoreAccesses (opType : SaveRestoreRegisterOpType) (dst src : Nybble) : List Access :=
  match opType with
  | .clearRegs => [.register dst.val]
  | .clearSaved => [.savedValue dst.val]
  | .save => [.register src.val, .savedValue dst.val]
  | .restore => [.savedValue src.val, .register dst.val]

/-- The registers that the address of a condition or of `DebugLog` is computed from. -/
def compareAccesses (compType : Option CompareRegisterValueType) (addrReg otherReg ofsReg : Nybble) :
    List Access :=
  match compType with
  | some .otherRegister => [.register otherReg.val]
  | some .memoryOfsReg => [.register ofsReg.val]
  | some .registerRelAddr => [.register addrReg.val]
  | some .registerOfsReg => [.register addrReg.val, .register ofsReg.val]
  | _ => []

def debugLogAccesses (valType : Option DebugLogValueType) (addrReg valReg ofsReg : Nybble) : List Access :=
  match valType with
  | some .registerValue => [.register valReg.val]
  | some .memoryOfsReg => [.register ofsReg.val]
  | some .registerRelAddr => [.register addrReg.val]
  | some .registerOfsReg => [.register addrReg.val, .register ofsReg.val]
  | _ => []

/-- The accesses to the arrays that an instruction names by its fields, but for its shift. -/
def CheatVmOpcode.fieldAccesses (opcode : CheatVmOpcode) (s : Store) : List Access :=
  match opcode with
  | .storeStatic _ _ offsetRegister _ _ => [.register offsetRegister.val]
  | .beginConditional .. | .beginKeypressConditional .. | .endConditional .. => []
  | .controlLoop true reg _ => [.register reg.val, .loopTop reg.val]
  | .controlLoop false reg _ =>
    .register reg.val :: if s.registers reg - 1 ≠ 0 then [.loopTop reg.val] else []
  | .loadRegisterStatic reg _ => [.register reg.val]
  | .loadRegisterMemory _ _ reg _ _ => [.register reg.val]
  | .storeStaticToAddress _ reg _ addOffsetReg offsetReg _ =>
    .register reg.val :: if addOffsetReg then [.register offsetReg.val] else []
  | .performArithmeticStatic _ reg _ _ => [.register reg.val]
  | .performArithmeticRegister _ _ dst src1 src2 hasImmediate _ =>
    .register src1.val :: (if hasImmediate then [] else [.register src2.val]) ++ [.register dst.val]
  | .storeRegisterToAddress _ strReg addrReg _ ofsType _ ofsReg _ =>
    [.register strReg.val, .register addrReg.val] ++ if ofsType = .reg then [.register ofsReg.val] else []
  | .beginRegisterConditional _ _ valReg compType _ addrReg otherReg ofsReg _ _ =>
    .register valReg.val :: compareAccesses compType addrReg otherReg ofsReg
  | .saveRestoreRegister dst src opType => saveRestoreAccesses opType dst src
  | .saveRestoreRegisterMask opType shouldOperate =>
    ((List.finRange 16).filter fun i => shouldOperate i).flatMap fun i => saveRestoreAccesses opType i i
  | .readWriteStaticRegister staticIdx idx =>
    .register idx.val :: if staticIdx.val < numReadableStaticRegisters then [.staticRead staticIdx.val]
      else [.staticWrite staticIdx.val]
  | .pauseProcess | .resumeProcess => []
  | .debugLog _ _ valType _ addrReg valReg ofsReg _ => debugLogAccesses valType addrReg valReg ofsReg

/-- All accesses of an instruction. -/
def operandAccesses (opcode : CheatVmOpcode) (s : Store) : List Access :=
  opcode.fieldAccesses s ++ ((opcode.shiftAmount s).map Access.shift).toList

/-- The accesses of the loop of `SkipConditionalBlock`. -/
def skipReads (program : List Word) (isIf : Bool) (desiredDepth : Nat) : Nat → Vm → List Access
  | 0, _ => []
  | fuel + 1, vm =>
    if desiredDepth < vm.conditionDepth then
      decodeReads program vm.instructionPtr ++
        match decodeNextOpcode program vm with
        | none => []
        | some (opcode, vm) =>
          if opcode.beginConditionalBlock then
            skipReads program isIf desiredDepth fuel { vm with conditionDepth := vm.conditionDepth + 1 }
          else
            match opcode with
            | .endConditional false =>
              skipReads program isIf desiredDepth fuel { vm with conditionDepth := vm.conditionDepth - 1 }
            | .endConditional true =>
              if isIf ∧ vm.conditionDepth - 1 = desiredDepth then []
              else skipReads program isIf desiredDepth fuel vm
            | _ => skipReads program isIf desiredDepth fuel vm
    else []

/-- The accesses of `SkipConditionalBlock`. -/
def skipAccesses (program : List Word) (isIf : Bool) (vm : Vm) : List Access :=
  if vm.conditionDepth > 0 then skipReads program isIf (vm.conditionDepth - 1) program.length vm
  else [.invalidDepth]

section Execute

variable (callbacks : Callbacks) (metadata : CheatProcessMetadata) (program : List Word)

/-- The accesses of the body of the loop of `Execute`, behind the decoder. -/
def dispatchAccesses (opcode : CheatVmOpcode) (vm : Vm) : List Access :=
  operandAccesses opcode vm.store ++
    if opcode.beginConditionalBlock then
      let (condMet, store) := condition callbacks metadata opcode vm.store
      if condMet then []
      else skipAccesses program true { vm with store := store, conditionDepth := vm.conditionDepth + 1 }
    else
      match opcode with
      | .endConditional true => skipAccesses program false vm
      | _ => []

/-- The accesses of a round of the loop of `Execute`. -/
def accesses (vm : Vm) : List Access :=
  decodeReads program vm.instructionPtr ++
    match decodeNextOpcode program vm with
    | none => []
    | some (opcode, vm) => dispatchAccesses callbacks metadata program opcode vm

/-- The round meets neither an `else` at depth zero nor a shift by 64 or more. -/
def Regular (vm : Vm) : Prop :=
  ∀ opcode vm', decodeNextOpcode program vm = some (opcode, vm') →
    (opcode = .endConditional true → 0 < vm'.conditionDepth) ∧
      ∀ amount, opcode.shiftAmount vm'.store = some amount → amount < 64

end Execute

/-! ## Reads of the program -/

theorem decodeReads_ok {program : List Word} (hsize : program.length ≤ maximumProgramOpcodeCount)
    (ip : Nat) : ∀ a ∈ decodeReads program ip, a.Ok := by
  intro a ha
  rw [decodeReads] at ha
  split at ha
  case h_1 opcode ip' hdecode =>
    have hlt := decode_lt hdecode
    obtain ⟨i, hi, rfl⟩ := List.mem_map.mp ha
    obtain ⟨hle, hlt'⟩ := List.mem_range'_1.mp hi
    show i < maximumProgramOpcodeCount
    omega
  case h_2 =>
    obtain ⟨i, hi, rfl⟩ := List.mem_map.mp ha
    obtain ⟨hle, hlt'⟩ := List.mem_range'_1.mp hi
    show i < maximumProgramOpcodeCount
    omega

theorem skipReads_ok {program : List Word} (hsize : program.length ≤ maximumProgramOpcodeCount)
    (isIf : Bool) (desiredDepth fuel : Nat) (vm : Vm) :
    ∀ a ∈ skipReads program isIf desiredDepth fuel vm, a.Ok := by
  induction fuel generalizing vm with
  | zero => exact fun a ha => nomatch ha
  | succ fuel ih =>
    rw [skipReads]
    split
    case isFalse => exact fun a ha => nomatch ha
    case isTrue =>
      intro a ha
      obtain hread | hrest := List.mem_append.mp ha
      · exact decodeReads_ok hsize _ a hread
      split at hrest
      case h_1 => cases hrest
      case h_2 opcode vm' _ =>
        split at hrest
        · exact ih _ a hrest
        · split at hrest
          · exact ih _ a hrest
          · split at hrest
            · cases hrest
            · exact ih _ a hrest
          · exact ih _ a hrest

theorem skipAccesses_ok_iff {program : List Word} (hsize : program.length ≤ maximumProgramOpcodeCount)
    (isIf : Bool) (vm : Vm) :
    (∀ a ∈ skipAccesses program isIf vm, a.Ok) ↔ 0 < vm.conditionDepth := by
  rw [skipAccesses]
  split
  case isTrue hdepth => exact iff_of_true (skipReads_ok hsize isIf _ _ vm) hdepth
  case isFalse hdepth => exact iff_of_false (fun h => h _ (List.mem_singleton_self _)) hdepth

/-! ## Accesses of an instruction -/

theorem saveRestoreAccesses_ok (opType : SaveRestoreRegisterOpType) (dst src : Nybble) :
    ∀ a ∈ saveRestoreAccesses opType dst src, a.Ok := by
  have hdst : dst.val < numRegisters := dst.isLt
  have hsrc : src.val < numRegisters := src.isLt
  cases opType <;> simp [saveRestoreAccesses, Access.Ok, hdst, hsrc]

/-- THE FIELDS ARE INDICES INTO THEIR ARRAYS: sixteen registers for four bits, and a static register that is
    written is one of the upper half. -/
theorem fieldAccesses_ok (opcode : CheatVmOpcode) (s : Store) : ∀ a ∈ opcode.fieldAccesses s, a.Ok := by
  have hreg : ∀ i : Nybble, (Access.register i.val).Ok := fun i => i.isLt
  have htop : ∀ i : Nybble, (Access.loopTop i.val).Ok := fun i => i.isLt
  cases opcode with
  | controlLoop startLoop reg numIters =>
    cases startLoop with
    | true => simp [CheatVmOpcode.fieldAccesses, hreg, htop]
    | false =>
      simp only [CheatVmOpcode.fieldAccesses, List.forall_mem_cons]
      refine ⟨hreg reg, ?_⟩
      split <;> simp [htop]
  | storeStaticToAddress bitWidth reg incrementReg addOffsetReg offsetReg value =>
    simp only [CheatVmOpcode.fieldAccesses, List.forall_mem_cons]
    refine ⟨hreg reg, ?_⟩
    split <;> simp [hreg]
  | performArithmeticRegister bitWidth mathType dst src1 src2 hasImmediate value =>
    cases hasImmediate <;> simp [CheatVmOpcode.fieldAccesses, hreg]
  | storeRegisterToAddress bitWidth strReg addrReg incrementReg ofsType memType ofsReg relAddress =>
    cases ofsType <;> simp [CheatVmOpcode.fieldAccesses, hreg]
  | beginRegisterConditional bitWidth condType valReg compType memType addrReg otherReg ofsReg relAddress value =>
    simp only [CheatVmOpcode.fieldAccesses, List.forall_mem_cons]
    refine ⟨hreg valReg, ?_⟩
    cases compType with
    | none => exact fun a ha => nomatch ha
    | some compType => cases compType <;> simp [compareAccesses, hreg]
  | saveRestoreRegister dst src opType => exact saveRestoreAccesses_ok opType dst src
  | saveRestoreRegisterMask opType shouldOperate =>
    intro a ha
    obtain ⟨i, -, hi⟩ := List.mem_flatMap.mp ha
    exact saveRestoreAccesses_ok opType i i a hi
  | readWriteStaticRegister staticIdx idx =>
    have hidx : staticIdx.val < numStaticRegisters := staticIdx.isLt
    simp only [CheatVmOpcode.fieldAccesses, List.forall_mem_cons]
    refine ⟨hreg idx, ?_⟩
    split
    · simpa [Access.Ok] using hidx
    · rename_i hwrite; simpa [Access.Ok] using ⟨Nat.not_lt.mp hwrite, hidx⟩
  | debugLog bitWidth logId valType memType addrReg valReg ofsReg relAddress =>
    cases valType with
    | none => exact fun a ha => nomatch ha
    | some valType => cases valType <;> simp [CheatVmOpcode.fieldAccesses, debugLogAccesses, hreg]
  | _ => simp [CheatVmOpcode.fieldAccesses, hreg]

theorem operandAccesses_ok_iff (opcode : CheatVmOpcode) (s : Store) :
    (∀ a ∈ operandAccesses opcode s, a.Ok) ↔ ∀ amount, opcode.shiftAmount s = some amount → amount < 64 := by
  rw [operandAccesses, List.forall_mem_append, and_iff_right (fieldAccesses_ok opcode s)]
  cases opcode.shiftAmount s with
  | none => simp
  | some amount => simp [Access.Ok]

section Execute

variable {callbacks : Callbacks} {metadata : CheatProcessMetadata} {program : List Word}

/-- ONE ROUND: what begins a block has made the depth positive, so that only an `else` can be at depth
    zero. -/
theorem accesses_ok_iff (hsize : program.length ≤ maximumProgramOpcodeCount) (vm : Vm) :
    (∀ a ∈ accesses callbacks metadata program vm, a.Ok) ↔ Regular program vm := by
  rw [accesses, List.forall_mem_append, and_iff_right (decodeReads_ok hsize _), Regular]
  cases hdecode : decodeNextOpcode program vm with
  | none => exact iff_of_true (fun a ha => nomatch ha) fun opcode vm' h => nomatch h
  | some r =>
    obtain ⟨opcode, vm'⟩ := r
    have hreduce : (∀ op vm'', some (opcode, vm') = some (op, vm'') →
        (op = .endConditional true → 0 < vm''.conditionDepth) ∧
          ∀ amount, op.shiftAmount vm''.store = some amount → amount < 64) ↔
        (opcode = .endConditional true → 0 < vm'.conditionDepth) ∧
          ∀ amount, opcode.shiftAmount vm'.store = some amount → amount < 64 := by
      constructor
      · exact fun h => h opcode vm' rfl
      · rintro h op vm'' heq
        obtain ⟨rfl, rfl⟩ := Prod.mk.inj (Option.some.inj heq); exact h
    rw [hreduce]
    show (∀ a ∈ dispatchAccesses callbacks metadata program opcode vm', a.Ok) ↔ _
    rw [dispatchAccesses.eq_def, List.forall_mem_append, operandAccesses_ok_iff, and_comm]
    refine and_congr_left fun _ => ?_
    by_cases hbegin : opcode.beginConditionalBlock = true
    · have hne : opcode ≠ .endConditional true := by
        rintro rfl; exact absurd hbegin (by decide)
      rw [if_pos hbegin]
      refine iff_of_true ?_ fun h => absurd h hne
      dsimp only
      split
      · exact fun a ha => nomatch ha
      · exact (skipAccesses_ok_iff hsize true _).mpr (Nat.succ_pos _)
    · rw [if_neg hbegin]
      split
      · rw [skipAccesses_ok_iff hsize]
        exact ⟨fun h _ => h, fun h => h rfl⟩
      · rename_i hother; exact iff_of_true (fun a ha => nomatch ha) fun h => absurd h hother

end Execute

/-! ## The result -/

/-- The states of a run of `Execute`, after any number of rounds. -/
def Reached (callbacks : Callbacks) (metadata : CheatProcessMetadata) (program : List Word)
    (staticRegisters : Fin 256 → Value) (vm : Vm) : Prop :=
  ∃ rounds, Lib.PartialRuns.steps (step callbacks metadata program) rounds (resetState staticRegisters) =
    some vm

/-- NO PROGRAM MAKES THE VM MISBEHAVE, BUT BY AN `else` AT DEPTH ZERO OR A SHIFT BY 64 OR MORE. -/
theorem cheat_vm_safe_exact (callbacks : Callbacks) (metadata : CheatProcessMetadata) (program : List Word)
    (staticRegisters : Fin 256 → Value) (hsize : program.length ≤ maximumProgramOpcodeCount) :
    (∀ vm, Reached callbacks metadata program staticRegisters vm →
        ∀ a ∈ accesses callbacks metadata program vm, a.Ok) ↔
      ∀ vm, Reached callbacks metadata program staticRegisters vm → Regular program vm :=
  forall₂_congr fun vm _ => accesses_ok_iff hsize vm

/-- A process whose memory is zero and where no key is down. -/
def idleProcess : Callbacks := ⟨fun _ _ _ => 0, 0⟩

/-- A process whose regions all start at zero. -/
def zeroBases : CheatProcessMetadata := ⟨0, 0, 0, 0⟩

/-- A single `else` takes the branch for an invalid depth, and a register can be shifted by 64. -/
theorem not_cheat_vm_safe :
    (∃ vm, Reached idleProcess zeroBases [0x21000000#32] (fun _ => 0) vm ∧
      ∃ a ∈ accesses idleProcess zeroBases [0x21000000#32] vm, a = .invalidDepth ∧ ¬ a.Ok) ∧
    (∃ vm, Reached idleProcess zeroBases [0x78003000#32, 64#32] (fun _ => 0) vm ∧
      ∃ a ∈ accesses idleProcess zeroBases [0x78003000#32, 64#32] vm, a = .shift 64 ∧ ¬ a.Ok) := by
  constructor
  · exact ⟨_, ⟨0, rfl⟩, .invalidDepth, by decide +kernel, rfl, id⟩
  · exact ⟨_, ⟨0, rfl⟩, .shift 64, by decide +kernel, rfl, Nat.lt_irrefl 64⟩

/-- The result for the program of a single `else`. -/
theorem cheat_vm_safe_exact_else :
    (∀ vm, Reached idleProcess zeroBases [0x21000000#32] (fun _ => 0) vm →
        ∀ a ∈ accesses idleProcess zeroBases [0x21000000#32] vm, a.Ok) ↔
      ∀ vm, Reached idleProcess zeroBases [0x21000000#32] (fun _ => 0) vm → Regular [0x21000000#32] vm :=
  cheat_vm_safe_exact idleProcess zeroBases [0x21000000#32] (fun _ => 0) (by decide)

end Suyu.Core.DmntCheatVm
