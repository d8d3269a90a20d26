import Suyu.FileSys.IpsPatch
import Suyu.FileSys.VfsWindows

/-
  What `PatchIPS` gets right.

  1. **Program** - `patchLoop` on a patch file with any content.

  2. **Specification (`Patch.apply`)** - the records of the patch, written in order and clipped to the
     input; nothing when the patch breaks off or a record starts past the end.

  3. **The crux (`clipped_iff`)** - the clipping tests a sum of 32 bits: it is right below 2^32, and above
     nothing is clipped at all.

  4. **When it goes wrong (`Handled`)** - a LITERAL record that reaches past the end of the input: fewer
     bytes are read than its size says, and the patch is refused; a patch that breaks off inside of an
     offset whose first bytes, with the last ones of the offset in FRONT of it, are the marker: it is
     taken as complete; and a sum that wraps.
-/

namespace Suyu.FileSys.Ips

open Vfs (VfsFile View slice overwrite)

/-! ## Numbers -/

theorem bigEndian_two (a b : UInt8) : bigEndian [a, b] = 256 * a.toNat + b.toNat := by
  simp [bigEndian]

theorem bigEndian_three (a b c : UInt8) :
    bigEndian [a, b, c] = 2 ^ 16 * a.toNat + 2 ^ 8 * b.toNat + c.toNat := by
  simp only [bigEndian, List.foldl_cons, List.foldl_nil]; omega

theorem bigEndian_four (a b c d : UInt8) :
    bigEndian [a, b, c, d] = 2 ^ 24 * a.toNat + 2 ^ 16 * b.toNat + 2 ^ 8 * c.toNat + d.toNat := by
  simp only [bigEndian, List.foldl_cons, List.foldl_nil]; omega

theorem shiftLeft_or {n : Nat} (k m : Nat) (hm : m < 2 ^ k) : n <<< k ||| m = 2 ^ k * n + m := by
  rw [← Nat.shiftLeft_add_eq_or_of_lt hm, Nat.shiftLeft_eq, Nat.mul_comm]

theorem swap16_u16Of (a b : UInt8) : swap16 (u16Of [a, b]) = bigEndian [a, b] := by
  have ha := a.toNat_lt
  have hb := b.toNat_lt
  have hvalue : u16Of [a, b] = 2 ^ 8 * b.toNat + a.toNat := by
    show a.toNat ||| b.toNat <<< 8 = _
    rw [Nat.or_comm, shiftLeft_or 8 _ ha]
  have hlow : (2 ^ 8 * b.toNat + a.toNat) >>> 8 = b.toNat := by
    rw [Nat.shiftRight_eq_div_pow]; omega
  have hhigh : ((2 ^ 8 * b.toNat + a.toNat) <<< 8) % 2 ^ 16 = a.toNat <<< 8 := by
    rw [Nat.shiftLeft_eq, Nat.shiftLeft_eq]; omega
  rw [swap16, hvalue, hlow, hhigh, Nat.or_comm, shiftLeft_or 8 _ hb]
  exact (bigEndian_two a b).symm

theorem realOffset_eq {type : IPSFileType} {temp : List UInt8} (htype : type ≠ .error)
    (hlen : temp.length = tempSize type) : realOffset type temp = bigEndian temp := by
  cases type with
  | error => exact absurd rfl htype
  | ips =>
    obtain ⟨a, b, c, rfl⟩ := List.length_eq_three.mp hlen
    have hb := b.toNat_lt
    have hc := c.toNat_lt
    show a.toNat <<< 16 ||| b.toNat <<< 8 ||| c.toNat = _
    rw [Nat.or_assoc, shiftLeft_or 8 _ hc, shiftLeft_or 16 _ (by omega), bigEndian_three]
    omega
  | ips32 =>
    match temp, hlen with
    | [a, b, c, d], _ =>
      have hb := b.toNat_lt
      have hc := c.toNat_lt
      have hd := d.toNat_lt
      show a.toNat <<< 24 ||| b.toNat <<< 16 ||| c.toNat <<< 8 ||| d.toNat = _
      rw [Nat.or_assoc, Nat.or_assoc, shiftLeft_or 8 _ hd, shiftLeft_or 16 _ (by omega),
        shiftLeft_or 24 _ (by omega), bigEndian_four]
      omega

theorem bigEndian_lt {type : IPSFileType} {temp : List UInt8} (htype : type ≠ .error)
    (hlen : temp.length = tempSize type) : bigEndian temp < 2 ^ 32 := by
  cases type with
  | error => exact absurd rfl htype
  | ips =>
    obtain ⟨a, b, c, rfl⟩ := List.length_eq_three.mp hlen
    have ha := a.toNat_lt
    have hb := b.toNat_lt
    have hc := c.toNat_lt
    rw [bigEndian_three]; omega
  | ips32 =>
    match temp, hlen with
    | [a, b, c, d], _ =>
      have ha := a.toNat_lt
      have hb := b.toNat_lt
      have hc := c.toNat_lt
      have hd := d.toNat_lt
      rw [bigEndian_four]; omega

theorem bigEndian_two_lt {bytes : List UInt8} (hlen : bytes.length = 2) : bigEndian bytes < 2 ^ 16 := by
  obtain ⟨a, b, rfl⟩ := List.length_eq_two.mp hlen
  have ha := a.toNat_lt
  have hb := b.toNat_lt
  rw [bigEndian_two]
  omega

theorem swap16_eq {bytes : List UInt8} (hlen : bytes.length = 2) :
    swap16 (u16Of bytes) = bigEndian bytes := by
  obtain ⟨a, b, rfl⟩ := List.length_eq_two.mp hlen; exact swap16_u16Of a b

theorem isEOF_iff {type : IPSFileType} {data : List UInt8} (htype : type ≠ .error) :
    isEOF type data = true ↔ data = markerOf type := by
  cases type with
  | error => exact absurd rfl htype
  | ips => exact beq_iff_eq
  | ips32 => exact beq_iff_eq

/-! ## Writing a record -/

variable {inData : List UInt8} {offset : Nat}

theorem length_applyRecord (content : Content) (h : offset ≤ inData.length) :
    (applyRecord inData offset content).length = inData.length := by
  refine Vfs.length_overwrite ?_
  rw [List.length_take]
  omega

theorem clipped_iff {n len : Nat} (hoffset : offset ≤ len) (hlt : offset < 2 ^ 32) (hn : n < 2 ^ 16) :
    (offset + n) % 2 ^ 32 > len ↔ len < offset + n ∧ offset + n < 2 ^ 32 := by
  omega

theorem put_run {n : Nat} (value : UInt8) (hoffset : offset ≤ inData.length) (hlt : offset < 2 ^ 32)
    (hn : n < 2 ^ 16) :
    put inData offset (List.replicate (if (offset + n) % 2 ^ 32 > inData.length then
        (inData.length - offset) % 2 ^ 16 else n) value) =
      if offset + n ≤ inData.length ∨ offset + n < 2 ^ 32 then
        .ok (applyRecord inData offset (.run n value)) else .error .outOfRange := by
  have hclip := clipped_iff hoffset hlt hn
  by_cases hpast : (offset + n) % 2 ^ 32 > inData.length
  · obtain ⟨hlt', hsum⟩ := hclip.mp hpast
    rw [if_pos hpast, if_pos (Or.inr hsum), Nat.mod_eq_of_lt (by omega), put, List.length_replicate,
      if_pos (by omega), applyRecord, Content.bytes, List.take_replicate,
      Nat.min_eq_left (by omega : inData.length - offset ≤ n)]
  · rw [if_neg hpast, put, List.length_replicate]
    by_cases hin : offset + n ≤ inData.length
    · rw [if_pos hin, if_pos (Or.inl hin), applyRecord, Content.bytes, List.take_replicate,
        Nat.min_eq_right (by omega : n ≤ inData.length - offset)]
    · rw [if_neg hin, if_neg (by omega)]

/-! ## The patch as it is read -/

theorem readPatch_inside {ips : VfsFile} {c : List UInt8} (h : View ips c) {length : Nat}
    (hle : offset ≤ c.length) : readPatch ips length offset = .ok ((c.drop offset).take length) := by
  have hread : ips.read length offset = some (slice c length offset) := h.reads.inside length offset hle
  rw [readPatch, hread, slice]

/-- The patch is complete, and all its records start inside of an input of this size. -/
def Patch.Complete (size : Nat) : Patch → Prop
  | .marker => True
  | .short _ => False
  | .cut _ _ _ => False
  | .record offset _ next => bigEndian offset ≤ size ∧ next.Complete size

theorem Patch.apply_eq_none {patch : Patch} :
    patch.apply inData = none ↔ ¬ patch.Complete inData.length := by
  induction patch generalizing inData with
  | marker => exact iff_of_false (fun h => nomatch h) (not_not.mpr trivial)
  | short tail => exact iff_of_true rfl id
  | cut offset n data => exact iff_of_true rfl id
  | record offset content next ih =>
    rw [Patch.apply, Patch.Complete]
    by_cases hpast : inData.length < bigEndian offset
    · rw [if_pos hpast]
      exact iff_of_true rfl fun h => absurd h.1 (by omega)
    · rw [if_neg hpast, ih, length_applyRecord content (by omega), not_and]
      exact ⟨fun h _ => h, fun h => h (by omega)⟩

theorem Patch.apply_length {patch : Patch} {out : List UInt8} (h : patch.apply inData = some out) :
    out.length = inData.length := by
  induction patch generalizing inData with
  | marker => exact congrArg List.length (Option.some.inj h).symm
  | short tail => cases h
  | cut offset n data => cases h
  | record offset content next ih =>
    rw [Patch.apply] at h
    obtain ⟨hin, hnext⟩ := Option.ite_none_left_eq_some.mp h
    rw [ih hnext, length_applyRecord content (by omega)]

/-- WHERE `PatchIPS` DOES WHAT THE PATCH SAYS, behind the bytes `prev` of the offset in front. Up to the
    first record that starts past the end: a run, and a literal of a patch that breaks off, may reach
    past the end where the sum does not wrap; a literal of a patch that is to be applied may not. -/
def Handled (type : IPSFileType) (size : Nat) : List UInt8 → Patch → Prop
  | _, .marker => True
  | prev, .short tail => tail ++ prev.drop tail.length ≠ markerOf type
  | _, .cut offset n data =>
    size < bigEndian offset ∨ bigEndian offset + data.length ≤ size ∨ bigEndian offset + n < 2 ^ 32
  | _, .record offset (.run n _) next =>
    size < bigEndian offset ∨
      (bigEndian offset + n ≤ size ∨ bigEndian offset + n < 2 ^ 32) ∧ Handled type size offset next
  | _, .record offset (.literal data) next =>
    size < bigEndian offset ∨
      (bigEndian offset + data.length ≤ size ∧ Handled type size offset next) ∨
      (size < bigEndian offset + data.length ∧ bigEndian offset + data.length < 2 ^ 32 ∧
        ¬ next.Complete size)

/-! ## The two kinds of records -/

section Records

variable {ips : VfsFile} {c inData : List UInt8} {real offset : Nat}

theorem runRecord_short (h : View ips c) (hle : offset ≤ c.length) (hshort : (c.drop offset).length < 3) :
    runRecord ips real offset inData = .ok none := by
  rw [runRecord, readPatch_inside h hle]
  show (if ((c.drop offset).take 2).length ≠ 2 then _ else _) = _
  by_cases htwo : (c.drop offset).length < 2
  · rw [if_pos (by rw [List.length_take]; omega)]
  · rw [List.length_drop] at hshort htwo
    have hempty : (c.drop (offset + 2)).take 1 = [] := by
      rw [List.drop_of_length_le (by omega), List.take_nil]
    rw [if_neg (by rw [List.length_take, List.length_drop]; omega),
      readPatch_inside h (by omega : offset + 2 ≤ c.length), hempty]
    rfl

theorem runRecord_full (h : View ips c) {high low value : UInt8} {rest : List UInt8}
    (hrest : c.drop offset = high :: low :: value :: rest) (hreal : real ≤ inData.length)
    (hlt : real < 2 ^ 32) :
    runRecord ips real offset inData =
      if real + bigEndian [high, low] ≤ inData.length ∨ real + bigEndian [high, low] < 2 ^ 32 then
        .ok (some (offset + 3, applyRecord inData real (.run (bigEndian [high, low]) value)))
      else .error .outOfRange := by
  have hlen := congrArg List.length hrest
  simp only [List.length_drop, List.length_cons] at hlen
  have hvalue : (c.drop (offset + 2)).take 1 = [value] := by
    rw [← List.drop_drop, hrest]; rfl
  rw [runRecord, readPatch_inside h (by omega), hrest]
  show (readPatch ips 1 (offset + 2)).bind _ = _
  rw [readPatch_inside h (by omega : offset + 2 ≤ c.length), hvalue]
  show (put inData real
      (List.replicate (if (real + swap16 (u16Of [high, low])) % 2 ^ 32 > inData.length then
    (inData.length - real) % 2 ^ 16 else swap16 (u16Of [high, low])) value)).map _ = _
  rw [swap16_u16Of, put_run value hreal hlt (bigEndian_two_lt rfl)]
  split <;> rfl

/-- A literal of `n` bytes: REFUSED where it would be clipped. -/
theorem literalRecord_eq (h : View ips c) {n : Nat} (hle : offset ≤ c.length)
    (hreal : real ≤ inData.length) (hlt : real < 2 ^ 32) (hn : n < 2 ^ 16) :
    literalRecord ips real n offset inData =
      if inData.length < real + n ∧ real + n < 2 ^ 32 then .ok none
      else if inData.length < real + ((c.drop offset).take n).length then .error .outOfRange
      else if (c.drop offset).length < n then .ok none
      else .ok (some (offset + n, applyRecord inData real (.literal ((c.drop offset).take n)))) := by
  have hclip := clipped_iff hreal hlt hn
  rw [literalRecord, readPatch_inside h hle]
  by_cases hpast : (real + n) % 2 ^ 32 > inData.length
  · rw [if_pos hpast, if_pos (hclip.mp hpast), Nat.mod_eq_of_lt (by omega)]
    have hshort : ((c.drop offset).take (inData.length - real)).length ≠ n := by
      rw [List.length_take]; omega
    show (put inData real _).map _ = _
    rw [put, if_pos (by rw [List.length_take]; omega)]
    exact congrArg Except.ok (if_pos hshort)
  · rw [if_neg hpast, if_neg (fun h => hpast (hclip.mpr h))]
    show (put inData real ((c.drop offset).take n)).map _ = _
    by_cases hout : inData.length < real + ((c.drop offset).take n).length
    · rw [if_pos hout, put, if_neg (by omega)]; rfl
    rw [if_neg hout, put, if_pos (by omega)]
    by_cases hshort : (c.drop offset).length < n
    · rw [if_pos hshort]; exact congrArg Except.ok (if_pos (by rw [List.length_take]; omega))
    have hfull : ((c.drop offset).take n).length = n := by
      rw [List.length_take]; omega
    have hbytes : ((c.drop offset).take n).take (inData.length - real) = (c.drop offset).take n :=
      List.take_of_length_le (by omega)
    rw [if_neg hshort, applyRecord, Content.bytes, hbytes]
    exact congrArg Except.ok (if_neg (not_not.mpr hfull))

end Records

/-! ## The loop -/

section Loop

variable {type : IPSFileType} {ips : VfsFile} {c : List UInt8}

theorem parseRecord_past (type : IPSFileType) (temp : List UInt8) {next : List UInt8 → Patch}
    {off bytes inData : List UInt8} (hpast : inData.length < bigEndian off) :
    (parseRecord next off bytes).apply inData = none ∧
      Handled type inData.length temp (parseRecord next off bytes) := by
  have hrecord : ∀ content rest, (Patch.record off content rest).apply inData = none ∧
      Handled type inData.length temp (.record off content rest) := by
    intro content rest
    refine ⟨if_pos hpast, ?_⟩
    cases content with
    | run n value => exact Or.inl hpast
    | literal data => exact Or.inl hpast
  have hcut : ∀ n data, (Patch.cut off n data).apply inData = none ∧
      Handled type inData.length temp (.cut off n data) := fun n data => ⟨rfl, Or.inl hpast⟩
  rw [parseRecord]
  dsimp only
  split
  · exact hcut _ _
  split
  · split
    · exact hrecord _ _
    · exact hcut _ _
  split
  · exact hcut _ _
  · exact hrecord _ _

theorem record_exact (htype : type ≠ .error) (h : View ips c) {next : List UInt8 → Patch}
    {loop : Nat → List UInt8 → Except Fault (Option VfsFile)} {off temp inData : List UInt8}
    {offset : Nat} (hoff : off.length = tempSize type) (hle : offset ≤ c.length)
    (hloop : ∀ o d, offset < o → o ≤ c.length →
      (loop o d = .ok (((next (c.drop o)).apply d).map .vector) ↔
          Handled type d.length off (next (c.drop o)))) :
    ((readRecord type ips off offset inData).bind fun
        | none => .ok none
        | some (o, d) => loop o d) =
        .ok (((parseRecord next off (c.drop offset)).apply inData).map .vector) ↔
      Handled type inData.length temp (parseRecord next off (c.drop offset)) := by
  have hreal := realOffset_eq htype hoff
  have hlt := bigEndian_lt htype hoff
  rw [readRecord, hreal]
  by_cases hpast : inData.length < bigEndian off
  · obtain ⟨happly, hhandled⟩ := parseRecord_past type temp hpast
    rw [if_pos hpast, happly]; exact iff_of_true rfl hhandled
  have hin : bigEndian off ≤ inData.length := by omega
  rw [if_neg hpast, readPatch_inside h hle, parseRecord]
  show ((if ((c.drop offset).take 2).length ≠ 2 then _
      else _ : Except Fault (Option (Nat × List UInt8))).bind _)
    = _ ↔ _
  have hlen : (c.drop offset).length = c.length - offset := List.length_drop
  by_cases hshort : (c.drop offset).length < 2
  · rw [if_pos (by rw [List.length_take]; omega), if_pos hshort]
    exact iff_of_true rfl (Or.inr (Or.inl hin))
  have htwo : ((c.drop offset).take 2).length = 2 := by
    rw [List.length_take]; omega
  have hdrop : (c.drop offset).drop 2 = c.drop (offset + 2) := List.drop_drop
  have hsize := bigEndian_two_lt htwo
  rw [if_neg (not_not.mpr htwo), if_neg hshort, swap16_eq htwo, hdrop]
  dsimp only
  by_cases hzero : bigEndian ((c.drop offset).take 2) = 0
  · -- a run
    rw [if_pos hzero, if_pos hzero]
    match hrest : c.drop (offset + 2) with
    | [] | [_] | [_, _] =>
      rw [runRecord_short h (by omega) (by rw [hrest]; simp)]
      exact iff_of_true rfl (Or.inr (Or.inl hin))
    | high :: low :: value :: rest =>
      rw [runRecord_full h hrest hin hlt]
      have hlen' := congrArg List.length hrest
      simp only [List.length_drop, List.length_cons] at hlen'
      have hdrop' : c.drop (offset + 2 + 3) = rest := by
        rw [← List.drop_drop, hrest]; rfl
      have hnext := hloop (offset + 2 + 3) (applyRecord inData (bigEndian off)
        (.run (bigEndian [high, low]) value)) (by omega) (by omega)
      rw [hdrop', length_applyRecord _ hin] at hnext
      show _ = Except.ok ((if inData.length < bigEndian off then _ else _ : Option (List UInt8)).map _) ↔
        _ ∨ (_ ∧ Handled type inData.length off (next rest))
      rw [if_neg hpast, or_iff_right hpast]
      by_cases hfits : bigEndian off + bigEndian [high, low] ≤ inData.length ∨
          bigEndian off + bigEndian [high, low] < 2 ^ 32
      · rw [if_pos hfits, and_iff_right hfits]
        exact hnext
      · rw [if_neg hfits]; exact iff_of_false (fun h => nomatch h) fun h => hfits h.1
  · -- a literal
    rw [if_neg hzero, if_neg hzero, literalRecord_eq h (by omega) hin hlt hsize]
    generalize hn : bigEndian ((c.drop offset).take 2) = n at hzero hsize
    have hlen' : (c.drop (offset + 2)).length = c.length - (offset + 2) := List.length_drop
    by_cases hcut : (c.drop (offset + 2)).length < n
    · -- of which not all bytes are there
      have htake : (c.drop (offset + 2)).take n = c.drop (offset + 2) := List.take_of_length_le (by omega)
      rw [if_pos hcut, if_pos hcut, htake]
      show _ ↔ inData.length < bigEndian off ∨
        bigEndian off + (c.drop (offset + 2)).length ≤ inData.length ∨ bigEndian off + n < 2 ^ 32
      by_cases hclip : inData.length < bigEndian off + n ∧ bigEndian off + n < 2 ^ 32
      · rw [if_pos hclip]; exact iff_of_true rfl (Or.inr (Or.inr hclip.2))
      rw [if_neg hclip]
      by_cases hout : inData.length < bigEndian off + (c.drop (offset + 2)).length
      · rw [if_pos hout]
        exact iff_of_false (fun h => nomatch h) (by omega)
      · rw [if_neg hout]; exact iff_of_true rfl (Or.inr (Or.inl (by omega)))
    · have hfull : ((c.drop (offset + 2)).take n).length = n := by
        rw [List.length_take]; omega
      have hdrop' : (c.drop (offset + 2)).drop n = c.drop (offset + 2 + n) := List.drop_drop
      have hnext := hloop (offset + 2 + n) (applyRecord inData (bigEndian off)
        (.literal ((c.drop (offset + 2)).take n))) (by omega) (by omega)
      rw [length_applyRecord _ hin] at hnext
      rw [if_neg hcut, if_neg hcut, hdrop', hfull]
      show _ = Except.ok ((if inData.length < bigEndian off then none
          else (next (c.drop (offset + 2 + n))).apply _ : Option (List UInt8)).map _) ↔
        _ ∨ (bigEndian off + ((c.drop (offset + 2)).take n).length ≤ _ ∧
            Handled type inData.length off _) ∨
          (_ < bigEndian off + ((c.drop (offset + 2)).take n).length ∧
            bigEndian off + ((c.drop (offset + 2)).take n).length < _ ∧ _)
      rw [if_neg hpast, or_iff_right hpast, hfull]
      by_cases hclip : inData.length < bigEndian off + n ∧ bigEndian off + n < 2 ^ 32
      · -- it reaches past the end, and is refused
        rw [if_pos hclip, or_iff_right (by omega), and_iff_right hclip.1, and_iff_right hclip.2,
          ← length_applyRecord (.literal ((c.drop (offset + 2)).take n)) hin, ← Patch.apply_eq_none]
        show (.ok none : Except Fault (Option VfsFile)) = .ok _ ↔ _
        rw [Except.ok.injEq, eq_comm, Option.map_eq_none_iff]
      rw [if_neg hclip, or_iff_left (fun h => hclip ⟨h.1, h.2.1⟩)]
      by_cases hout : inData.length < bigEndian off + n
      · rw [if_pos hout]
        exact iff_of_false (fun h => nomatch h) fun h => absurd h.1 (by omega)
      · rw [if_neg hout, and_iff_right (by omega)]; exact hnext

/-- THE LOOP IS RIGHT EXACTLY WHERE THE PATCH IS `Handled`, by induction on the records. -/
theorem patchLoop_exact (htype : type ≠ .error) (h : View ips c) (rounds : Nat) (temp : List UInt8)
    (offset : Nat) (inData : List UInt8) (htemp : temp.length = tempSize type) (hle : offset ≤ c.length)
    (hrounds : (c.drop offset).length < rounds) :
    patchLoop type ips rounds temp offset inData =
        .ok (((parse type rounds (c.drop offset)).apply inData).map .vector) ↔
      Handled type inData.length temp (parse type rounds (c.drop offset)) := by
  induction rounds generalizing temp offset inData with
  | zero => omega
  | succ rounds ih =>
    have hdropLen : (c.drop offset).length = c.length - offset := List.length_drop
    rw [patchLoop, readPatch_inside h hle, htemp, parse]
    show (if ((c.drop offset).take (tempSize type)).length ≠ tempSize type then _ else _) = _ ↔ _
    by_cases hshort : (c.drop offset).length < tempSize type
    · -- the patch breaks off at an offset: what is left of `temp` decides
      have hall : (c.drop offset).take (tempSize type) = c.drop offset :=
        List.take_of_length_le (by omega)
      have heof : isEOF type _ = true ↔
          c.drop offset ++ temp.drop (c.drop offset).length = markerOf type :=
        isEOF_iff htype
      rw [if_pos hshort, hall, if_pos (by omega)]
      show finish type _ inData = .ok none ↔ ¬ (c.drop offset ++ temp.drop (c.drop offset).length = _)
      rw [finish, ← heof]
      cases isEOF type (c.drop offset ++ temp.drop (c.drop offset).length) <;> simp
    have hlen : ((c.drop offset).take (tempSize type)).length = tempSize type := by
      rw [List.length_take]; omega
    have htemp' : (c.drop offset).take (tempSize type) ++
        temp.drop ((c.drop offset).take (tempSize type)).length
            = (c.drop offset).take (tempSize type) := by
      rw [hlen, ← htemp, List.drop_length, List.append_nil]
    have heof : isEOF type _ = true ↔ (c.drop offset).take (tempSize type) = markerOf type :=
      isEOF_iff htype
    rw [if_neg hshort, if_neg (not_not.mpr hlen), htemp']
    by_cases hmarker : (c.drop offset).take (tempSize type) = markerOf type
    · rw [if_pos hmarker, if_pos (heof.mpr hmarker)]
      refine iff_of_true ?_ trivial
      rw [finish, if_pos (heof.mpr hmarker)]; rfl
    rw [if_neg hmarker, if_neg (fun h => hmarker (heof.mp h)), List.drop_drop]
    have hpos : 0 < tempSize type := by
      cases type <;> decide
    refine record_exact htype h hlen (by omega) fun o d hlt hle' => ?_
    exact ih _ o d hlen hle' (by rw [List.length_drop]; omega)

/-! ## The end of the loop -/

/-- A record that was read ends further back in the patch, and not behind its end. -/
def Advances (c : List UInt8) (offset : Nat) : Except Fault (Option (Nat × List UInt8)) → Prop
  | .ok (some (o, _)) => offset < o ∧ o ≤ c.length
  | .ok none => True
  | .error fault => fault = .outOfRange

theorem readRecord_advances (htype : type ≠ .error) (h : View ips c) {off : List UInt8} {offset : Nat}
    (inData : List UInt8) (hoff : off.length = tempSize type) (hle : offset ≤ c.length) :
    Advances c offset (readRecord type ips off offset inData) := by
  have hlt := bigEndian_lt htype hoff
  rw [readRecord, realOffset_eq htype hoff]
  by_cases hpast : inData.length < bigEndian off
  · rw [if_pos hpast]; trivial
  have hin : bigEndian off ≤ inData.length := by omega
  rw [if_neg hpast, readPatch_inside h hle]
  show Advances c offset (if ((c.drop offset).take 2).length ≠ 2 then _ else _)
  have hlen : (c.drop offset).length = c.length - offset := List.length_drop
  by_cases hshort : (c.drop offset).length < 2
  · rw [if_pos (by rw [List.length_take]; omega)]; trivial
  have htwo : ((c.drop offset).take 2).length = 2 := by
    rw [List.length_take]; omega
  rw [if_neg (not_not.mpr htwo), swap16_eq htwo]
  by_cases hzero : bigEndian ((c.drop offset).take 2) = 0
  · rw [if_pos hzero]
    match hrest : c.drop (offset + 2) with
    | [] | [_] | [_, _] =>
      rw [runRecord_short h (by omega) (by rw [hrest]; simp)]; trivial
    | high :: low :: value :: rest =>
      have hlen' := congrArg List.length hrest
      simp only [List.length_drop, List.length_cons] at hlen'
      rw [runRecord_full h hrest hin hlt]
      split
      · exact ⟨by omega, by omega⟩
      · rfl
  · rw [if_neg hzero, literalRecord_eq h (by omega) hin hlt (bigEndian_two_lt htwo)]
    have hlen' : (c.drop (offset + 2)).length = c.length - (offset + 2) := List.length_drop
    split
    · trivial
    split
    · rfl
    split
    · trivial
    · exact ⟨by omega, by omega⟩

/-- THE LOOP ENDS: every round but the last one reads a record. -/
theorem patchLoop_ends (htype : type ≠ .error) (h : View ips c) (rounds : Nat) (temp : List UInt8)
    (offset : Nat) (inData : List UInt8) (htemp : temp.length = tempSize type) (hle : offset ≤ c.length)
    (hrounds : c.length - offset < rounds) :
    patchLoop type ips rounds temp offset inData ≠ .error .unfinished := by
  induction rounds generalizing temp offset inData with
  | zero => omega
  | succ rounds ih =>
    rw [patchLoop, readPatch_inside h hle, htemp]
    show (if ((c.drop offset).take (tempSize type)).length ≠ tempSize type then _ else _) ≠ _
    by_cases hshort : ((c.drop offset).take (tempSize type)).length ≠ tempSize type
    · rw [if_pos hshort]; exact fun h => nomatch h
    have hlen : ((c.drop offset).take (tempSize type)).length = tempSize type := not_not.mp hshort
    have hfit := List.length_take (i := tempSize type) (l := c.drop offset)
    rw [List.length_drop, hlen] at hfit
    have htemp' : (c.drop offset).take (tempSize type) ++
        temp.drop ((c.drop offset).take (tempSize type)).length
            = (c.drop offset).take (tempSize type) := by
      rw [hlen, ← htemp, List.drop_length, List.append_nil]
    rw [if_neg hshort, htemp']
    split
    · exact fun h => nomatch h
    have hstep := readRecord_advances htype h inData hlen
      (by omega : offset + tempSize type ≤ c.length)
    cases hrecord : readRecord type ips ((c.drop offset).take (tempSize type)) (offset + tempSize type)
      inData with
    | error fault =>
      rw [hrecord] at hstep
      obtain rfl : fault = .outOfRange := hstep; exact fun h => nomatch h
    | ok result =>
      rw [hrecord] at hstep
      match result, hstep with
      | none, _ => exact fun h => nomatch h
      | some (o, d), ⟨hlt, hle'⟩ => exact ih _ o d hlen hle' (by omega)

end Loop

/-! ## The result -/

/-- The patch in the bytes of a patch file, behind the magic. -/
def patchOf (type : IPSFileType) (patch : List UInt8) : Patch :=
  parse type (patch.length + 1) (patch.drop 5)

/-- EXACTLY WHICH PATCHES ARE APPLIED AS THEY SAY: for an input that is not empty and a patch file with
    one of the two magics. What is returned then has the size of the input; the loop ends in any
    case. -/
theorem patchIPS_exact (input ips : VfsFile) (inData patch : List UInt8) (type : IPSFileType)
    (hinput : View input inData) (hips : View ips patch) (hne : inData ≠ [])
    (hmagic : identifyMagic (patch.take 5) = type) (htype : type ≠ .error) :
    (patchIPS (some input) (some ips) = .ok (((patchOf type patch).apply inData).map .vector) ↔
        Handled type inData.length (List.replicate (tempSize type) 0) (patchOf type patch)) ∧
      (∀ out, (patchOf type patch).apply inData = some out → out.length = inData.length) ∧
      patchIPS (some input) (some ips) ≠ .error .unfinished := by
  have hsize : input.getSize = inData.length := hinput.reads.getSize
  have hrounds : ips.getSize = patch.length := hips.reads.getSize
  have hfive : 5 ≤ patch.length := by
    by_contra hshort
    rw [identifyMagic, if_pos (by rw [List.length_take]; omega)] at hmagic
    exact htype hmagic.symm
  have hzeros : (List.replicate (tempSize type) (0 : UInt8)).length = tempSize type :=
    List.length_replicate
  have hloop : patchIPS (some input) (some ips) =
      patchLoop type ips (patch.length + 1) (List.replicate (tempSize type) 0) 5 inData := by
    rw [patchIPS, readPatch_inside hips (Nat.zero_le _), List.drop_zero]
    show (if identifyMagic (patch.take 5) = .error then _ else _) = _
    rw [hmagic, if_neg htype, readPatch_inside hinput (Nat.zero_le _), hsize, List.drop_zero,
        List.take_length]
    show (if inData.length = 0 then _ else _) = _
    rw [if_neg (fun h => hne (List.length_eq_zero_iff.mp h)), hrounds]
  rw [hloop]
  refine ⟨?_, fun out hout => Patch.apply_length hout, ?_⟩
  · exact patchLoop_exact htype hips _ _ 5 inData hzeros hfive (by rw [List.length_drop]; omega)
  · exact patchLoop_ends htype hips _ _ 5 inData hzeros hfive (by omega)

/-- An input of four bytes and a patch with one record: three bytes at offset two. -/
def straddling : List UInt8 := [0x50, 0x41, 0x54, 0x43, 0x48, 0, 0, 2, 0, 3, 7, 8, 9, 0x45, 0x4F, 0x46]

/-- The complete patch writes two bytes and clips the third one; `PatchIPS` returns a null pointer. -/
theorem not_patchIPS : (patchOf .ips straddling).apply [1, 2, 3, 4] = some [1, 2, 7, 8] ∧
    patchIPS (some (.vector [1, 2, 3, 4])) (some (.vector straddling)) = .ok none := by
  constructor
  · decide +kernel
  · rfl

/-- The result for the patch above. -/
theorem patchIPS_exact_straddling :
    (patchIPS (some (.vector [1, 2, 3, 4])) (some (.vector straddling)) =
        .ok (((patchOf .ips straddling).apply [1, 2, 3, 4]).map .vector) ↔
      Handled .ips 4 [0, 0, 0] (patchOf .ips straddling)) ∧
      (∀ out, (patchOf .ips straddling).apply [1, 2, 3, 4] = some out → out.length = 4) ∧
      patchIPS (some (.vector [1, 2, 3, 4])) (some (.vector straddling)) ≠ .error .unfinished :=
  patchIPS_exact (.vector [1, 2, 3, 4]) (.vector straddling) [1, 2, 3, 4] straddling .ips
    (View.vector _ (by decide)) (View.vector _ (by decide)) (by decide) (by decide) (by decide)

end Suyu.FileSys.Ips
