import Mathlib
import Suyu.Core.DmntCheatVm

/-
  The encodings of cheat instructions, as the comments of `DecodeNextOpcode` write them.

  1. **Specification (`Encodes`)** - a word is written as eight nibbles, the uppermost first; a value of
     one, two or four bytes is one more word, one of eight bytes two.  A field that a layout has no room
     for is out of range.

  2. **The crux (`Takes`)** - a decoder takes a number of words that depends on the FIRST word alone,
     and fails exactly where so many are not left.

  3. **When it goes wrong (`CheatVmOpcode.decoded`)** - `300R0000` and `310R0000`: the decoder looks for
     the register of a loop one nibble further up than its comment.
-/

namespace Suyu.Core.DmntCheatVm

-- one name for what every numeral below needs of 16
local instance neZero_nybbles : NeZero 16 := ⟨Nat.succ_ne_zero 15⟩

/-! ## Words and nibbles -/

/-- A word of eight nibbles, the uppermost first. -/
def word (n7 n6 n5 n4 n3 n2 n1 n0 : Nybble) : Word :=
  BitVec.ofNat 32 (n7.val * 16 ^ 7 + n6.val * 16 ^ 6 + n5.val * 16 ^ 5 + n4.val * 16 ^ 4 + n3.val *
      16 ^ 3 +
    n2.val * 16 ^ 2 + n1.val * 16 + n0.val)

/-- The upper word of a value. -/
def upper (value : Value) : Word := BitVec.ofNat 32 (value.toNat / 2 ^ 32)

/-- The lower word of a value. -/
def lower (value : Value) : Word := BitVec.ofNat 32 value.toNat

section Nibbles

variable (n7 n6 n5 n4 n3 n2 n1 n0 : Nybble)

theorem word_toNat : (word n7 n6 n5 n4 n3 n2 n1 n0).toNat = n7.val * 16 ^ 7 + n6.val * 16 ^ 6 +
    n5.val * 16 ^ 5 + n4.val * 16 ^ 4 + n3.val * 16 ^ 3 + n2.val * 16 ^ 2 + n1.val * 16 + n0.val := by
  have h7 := n7.isLt
  have h6 := n6.isLt
  have h5 := n5.isLt
  have h4 := n4.isLt
  have h3 := n3.isLt
  have h2 := n2.isLt
  have h1 := n1.isLt
  have h0 := n0.isLt
  rw [word, BitVec.toNat_ofNat, Nat.mod_eq_of_lt]
  omega

theorem nybble_eq_of_toNat {w : Word} {shift q : Nat} {n : Nybble}
    (h : w.toNat / 2 ^ shift = q * 16 + n.val) : nybble w shift = n := by
  have hn := n.isLt
  apply Fin.ext
  show (w >>> shift).toNat % 16 = n.val
  rw [BitVec.toNat_ushiftRight, Nat.shiftRight_eq_div_pow, h]
  omega

@[simp] theorem nybble_word_28 : nybble (word n7 n6 n5 n4 n3 n2 n1 n0) 28 = n7 := by
  refine nybble_eq_of_toNat (q := 0) ?_
  rw [word_toNat]
  omega

@[simp] theorem nybble_word_24 : nybble (word n7 n6 n5 n4 n3 n2 n1 n0) 24 = n6 := by
  refine nybble_eq_of_toNat (q := n7.val) ?_
  rw [word_toNat]
  omega

@[simp] theorem nybble_word_20 : nybble (word n7 n6 n5 n4 n3 n2 n1 n0) 20 = n5 := by
  refine nybble_eq_of_toNat (q := n7.val * 16 + n6.val) ?_
  rw [word_toNat]
  omega

@[simp] theorem nybble_word_16 : nybble (word n7 n6 n5 n4 n3 n2 n1 n0) 16 = n4 := by
  refine nybble_eq_of_toNat (q := (n7.val * 16 + n6.val) * 16 + n5.val) ?_
  rw [word_toNat]
  omega

@[simp] theorem nybble_word_12 : nybble (word n7 n6 n5 n4 n3 n2 n1 n0) 12 = n3 := by
  refine nybble_eq_of_toNat (q := ((n7.val * 16 + n6.val) * 16 + n5.val) * 16 + n4.val) ?_
  rw [word_toNat]
  omega

@[simp] theorem nybble_word_8 : nybble (word n7 n6 n5 n4 n3 n2 n1 n0) 8 = n2 := by
  refine nybble_eq_of_toNat
    (q := (((n7.val * 16 + n6.val) * 16 + n5.val) * 16 + n4.val) * 16 + n3.val) ?_
  rw [word_toNat]
  omega

@[simp] theorem nybble_word_4 : nybble (word n7 n6 n5 n4 n3 n2 n1 n0) 4 = n1 := by
  refine nybble_eq_of_toNat
    (q := ((((n7.val * 16 + n6.val) * 16 + n5.val) * 16 + n4.val) * 16 + n3.val) * 16 + n2.val) ?_
  rw [word_toNat]
  omega

@[simp] theorem nybble_word_0 : nybble (word n7 n6 n5 n4 n3 n2 n1 n0) 0 = n0 := by
  refine nybble_eq_of_toNat
    (q := (((((n7.val * 16 + n6.val) * 16 + n5.val) * 16 + n4.val) * 16 + n3.val) * 16 + n2.val)
    * 16 + n1.val)
    ?_
  rw [word_toNat]
  omega

theorem word_and_mask_toNat (k : Nat) (mask : Word) (hmask : mask.toNat = 2 ^ k - 1) :
    (word n7 n6 n5 n4 n3 n2 n1 n0 &&& mask).toNat = (n7.val * 16 ^ 7 + n6.val * 16 ^ 6 + n5.val * 16 ^ 5 +
      n4.val * 16 ^ 4 + n3.val * 16 ^ 3 + n2.val * 16 ^ 2 + n1.val * 16 + n0.val) % 2 ^ k := by
  rw [BitVec.toNat_and, hmask, Nat.and_two_pow_sub_one_eq_mod, word_toNat]

end Nibbles

theorem upper_toNat (value : Value) : (upper value).toNat = value.toNat / 2 ^ 32 := by
  have h := value.isLt
  rw [upper, BitVec.toNat_ofNat, Nat.mod_eq_of_lt]
  omega

theorem lower_toNat (value : Value) : (lower value).toNat = value.toNat % 2 ^ 32 := by
  rw [lower, BitVec.toNat_ofNat]

theorem join_toNat (first second : Word) :
    (first.zeroExtend 64 <<< 32 ||| second.zeroExtend 64).toNat
    = first.toNat * 2 ^ 32 + second.toNat := by
  have hfirst := first.isLt
  have hsecond := second.isLt
  have hleft : (first.zeroExtend 64 <<< 32).toNat = first.toNat <<< 32 := by
    rw [BitVec.toNat_shiftLeft, BitVec.toNat_setWidth, Nat.mod_eq_of_lt (a := first.toNat) (by omega),
      Nat.mod_eq_of_lt]
    rw [Nat.shiftLeft_eq]; omega
  have hright : (second.zeroExtend 64).toNat = second.toNat := by
    rw [BitVec.toNat_setWidth, Nat.mod_eq_of_lt (by omega)]
  rw [BitVec.toNat_or, hleft, hright, ← Nat.shiftLeft_add_eq_or_of_lt hsecond, Nat.shiftLeft_eq]

theorem join_eq {first : Word} {value : Value} (h : first.toNat = value.toNat / 2 ^ 32) :
    first.zeroExtend 64 <<< 32 ||| (lower value).zeroExtend 64 = value := by
  apply BitVec.eq_of_toNat_eq
  rw [join_toNat, h, lower_toNat]
  omega

/-! ## Layouts -/

/-- A digit of a value in base sixteen. -/
def digit (value : Value) (k : Nat) : Nybble := ⟨value.toNat / 16 ^ k % 16, Nat.mod_lt _ (by decide)⟩

/-- `1` or `0`. -/
def flag (b : Bool) : Nybble := if b then 1 else 0

def MemoryAccessType.field : MemoryAccessType → Nybble
  | .mainNso => 0
  | .heap => 1
  | .alias => 2
  | .aslr => 3

def ConditionalComparisonType.field : ConditionalComparisonType → Nybble
  | .gt => 1
  | .ge => 2
  | .lt => 3
  | .le => 4
  | .eq => 5
  | .ne => 6

def RegisterArithmeticType.field : RegisterArithmeticType → Nybble
  | .addition => 0
  | .subtraction => 1
  | .multiplication => 2
  | .leftShift => 3
  | .rightShift => 4
  | .logicalAnd => 5
  | .logicalOr => 6
  | .logicalNot => 7
  | .logicalXor => 8
  | .none => 9

def SaveRestoreRegisterOpType.field : SaveRestoreRegisterOpType → Nybble
  | .restore => 0
  | .save => 1
  | .clearSaved => 2
  | .clearRegs => 3

@[simp] theorem MemoryAccessType.ofField_field (t : MemoryAccessType) : .ofField t.field = t := by
  cases t <;> rfl

@[simp] theorem ConditionalComparisonType.ofField_field (t : ConditionalComparisonType) :
    ConditionalComparisonType.ofField t.field = some t := by
  cases t <;> rfl

@[simp] theorem RegisterArithmeticType.ofField_field (t : RegisterArithmeticType) :
    RegisterArithmeticType.ofField t.field = some t := by
  cases t <;> rfl

@[simp] theorem SaveRestoreRegisterOpType.ofField_field (t : SaveRestoreRegisterOpType) :
    .ofField t.field = t := by
  cases t <;> rfl

/-- `YYYYYYYY (YYYYYYYY)`: the second word is for eight bytes. -/
def vmInt (bitWidth : Nybble) (value : Value) : List Word :=
  if bitWidth = 8 then [upper value, lower value] else [lower value]

/-- The values a bit width has room for; other bit widths have no value. -/
def VmIntInRange (bitWidth : Nybble) (value : Value) : Prop :=
  match bitWidth.val with
  | 1 => value.toNat < 2 ^ 8
  | 2 => value.toNat < 2 ^ 16
  | 4 => value.toNat < 2 ^ 32
  | 8 => True
  | _ => value = 0

/-- The encodings, a constructor for each layout of the comments; a field that a layout does not have is
    zero. `x` of a store with a memory region is the region, and the field of the offset register holds
    its number. -/
inductive Encodes : CheatVmOpcode → List Word → Prop
  /-- `0TMR00AA AAAAAAAA YYYYYYYY (YYYYYYYY)` -/
  | storeStatic (T R : Nybble) (M : MemoryAccessType) (A Y : Value) :
      A.toNat < 2 ^ 40 → VmIntInRange T Y →
      Encodes (.storeStatic T M R A Y)
        (word 0 T M.field R 0 0 (digit A 9) (digit A 8) :: lower A :: vmInt T Y)
  /-- `1TMC00AA AAAAAAAA YYYYYYYY (YYYYYYYY)` -/
  | beginConditional (T : Nybble) (M : MemoryAccessType) (C : ConditionalComparisonType) (A Y : Value) :
      A.toNat < 2 ^ 40 → VmIntInRange T Y →
      Encodes (.beginConditional T M (some C) A Y)
        (word 1 T M.field C.field 0 0 (digit A 9) (digit A 8) :: lower A :: vmInt T Y)
  /-- `20000000`, and `21000000` for an else -/
  | endConditional (isElse : Bool) : Encodes (.endConditional isElse) [word 2 (flag isElse) 0 0 0 0 0 0]
  /-- `300R0000 VVVVVVVV` -/
  | loopStart (R : Nybble) (V : Word) : Encodes (.controlLoop true R V) [word 3 0 0 R 0 0 0 0, V]
  /-- `310R0000` -/
  | loopEnd (R : Nybble) : Encodes (.controlLoop false R 0) [word 3 1 0 R 0 0 0 0]
  /-- `400R0000 VVVVVVVV VVVVVVVV` -/
  | loadRegisterStatic (R : Nybble) (V : Value) :
      Encodes (.loadRegisterStatic R V) [word 4 0 0 R 0 0 0 0, upper V, lower V]
  /-- `5TMRI0AA AAAAAAAA` -/
  | loadRegisterMemory (T R : Nybble) (M : MemoryAccessType) (I : Bool) (A : Value) : A.toNat < 2 ^ 40 →
      Encodes (.loadRegisterMemory T M R I A)
        [word 5 T M.field R (flag I) 0 (digit A 9) (digit A 8), lower A]
  /-- `6T0RIor0 VVVVVVVV VVVVVVVV` -/
  | storeStaticToAddress (T R r : Nybble) (I o : Bool) (V : Value) :
      Encodes (.storeStaticToAddress T R I o r V) [word 6 T 0 R (flag I) (flag o) r 0, upper V, lower V]
  /-- `7T0RC000 VVVVVVVV` -/
  | performArithmeticStatic (T R : Nybble) (C : RegisterArithmeticType) (V : Word) :
      Encodes (.performArithmeticStatic T R (some C) V) [word 7 T 0 R C.field 0 0 0, V]
  /-- `8kkkkkkk` -/
  | beginKeypressConditional (k6 k5 k4 k3 k2 k1 k0 : Nybble) :
      Encodes (.beginKeypressConditional (word 0 k6 k5 k4 k3 k2 k1 k0)) [word 8 k6 k5 k4 k3 k2 k1 k0]
  /-- `9TCRS0s0` -/
  | arithmeticRegister (T R S s : Nybble) (C : RegisterArithmeticType) :
      Encodes (.performArithmeticRegister T (some C) R S s false 0) [word 9 T C.field R S 0 s 0]
  /-- `9TCRS100 VVVVVVVV (VVVVVVVV)` -/
  | arithmeticImmediate (T R S : Nybble) (C : RegisterArithmeticType) (V : Value) : VmIntInRange T V →
      Encodes (.performArithmeticRegister T (some C) R S 0 true V)
          (word 9 T C.field R S 1 0 0 :: vmInt T V)
  /-- `ATSRI0x0` -/
  | storeNone (T S R x : Nybble) (I : Bool) :
      Encodes (.storeRegisterToAddress T S R I .none .mainNso x 0) [word 10 T S R (flag I) 0 x 0]
  /-- `ATSRI1x0` -/
  | storeReg (T S R x : Nybble) (I : Bool) :
      Encodes (.storeRegisterToAddress T S R I .reg .mainNso x 0) [word 10 T S R (flag I) 1 x 0]
  /-- `ATSRI2xa aaaaaaaa` -/
  | storeImm (T S R x : Nybble) (I : Bool) (a : Value) : a.toNat < 2 ^ 36 →
      Encodes (.storeRegisterToAddress T S R I .imm .mainNso x a)
        [word 10 T S R (flag I) 2 x (digit a 8), lower a]
  /-- `ATSRI3x0` -/
  | storeMemReg (T S R : Nybble) (I : Bool) (x : MemoryAccessType) :
      Encodes (.storeRegisterToAddress T S R I .memReg x x.field 0) [word 10 T S R (flag I) 3 x.field 0]
  /-- `ATSRI4xa aaaaaaaa` -/
  | storeMemImm (T S R : Nybble) (I : Bool) (x : MemoryAccessType) (a : Value) : a.toNat < 2 ^ 36 →
      Encodes (.storeRegisterToAddress T S R I .memImm x x.field a)
        [word 10 T S R (flag I) 4 x.field (digit a 8), lower a]
  /-- `ATSRI5xa aaaaaaaa` -/
  | storeMemImmReg (T S R : Nybble) (I : Bool) (x : MemoryAccessType) (a : Value) : a.toNat < 2 ^ 36 →
      Encodes (.storeRegisterToAddress T S R I .memImmReg x x.field a)
        [word 10 T S R (flag I) 5 x.field (digit a 8), lower a]
  /-- `C0TcS0Ma aaaaaaaa` -/
  | compareMemoryRelAddr (T S : Nybble) (c : ConditionalComparisonType) (M : MemoryAccessType)
      (a : Value) :
      a.toNat < 2 ^ 36 →
      Encodes (.beginRegisterConditional T (some c) S (some .memoryRelAddr) M 0 0 0 a 0)
        [word 12 0 T c.field S 0 M.field (digit a 8), lower a]
  /-- `C0TcS1Mr` -/
  | compareMemoryOfsReg (T S r : Nybble) (c : ConditionalComparisonType) (M : MemoryAccessType) :
      Encodes (.beginRegisterConditional T (some c) S (some .memoryOfsReg) M 0 0 r 0 0)
        [word 12 0 T c.field S 1 M.field r]
  /-- `C0TcS2Ra aaaaaaaa` -/
  | compareRegisterRelAddr (T S R : Nybble) (c : ConditionalComparisonType) (a : Value) :
      a.toNat < 2 ^ 36 →
      Encodes (.beginRegisterConditional T (some c) S (some .registerRelAddr) .mainNso R 0 0 a 0)
        [word 12 0 T c.field S 2 R (digit a 8), lower a]
  /-- `C0TcS3Rr` -/
  | compareRegisterOfsReg (T S R r : Nybble) (c : ConditionalComparisonType) :
      Encodes (.beginRegisterConditional T (some c) S (some .registerOfsReg) .mainNso R 0 r 0 0)
        [word 12 0 T c.field S 3 R r]
  /-- `C0TcS400 VVVVVVVV (VVVVVVVV)` -/
  | compareStaticValue (T S : Nybble) (c : ConditionalComparisonType) (V : Value) : VmIntInRange T V →
      Encodes (.beginRegisterConditional T (some c) S (some .staticValue) .mainNso 0 0 0 0 V)
        (word 12 0 T c.field S 4 0 0 :: vmInt T V)
  /-- `C0TcS5X0` -/
  | compareOtherRegister (T S X : Nybble) (c : ConditionalComparisonType) :
      Encodes (.beginRegisterConditional T (some c) S (some .otherRegister) .mainNso 0 X 0 0 0)
        [word 12 0 T c.field S 5 X 0]
  /-- `C10D0Sx0` -/
  | saveRestoreRegister (D S : Nybble) (x : SaveRestoreRegisterOpType) :
      Encodes (.saveRestoreRegister D S x) [word 12 1 0 D 0 S x.field 0]
  /-- `C2x0XXXX`, bit i for register i -/
  | saveRestoreRegisterMask (x : SaveRestoreRegisterOpType) (X3 X2 X1 X0 : Nybble) :
      Encodes (.saveRestoreRegisterMask x fun i => (word 0 0 0 0 X3 X2 X1 X0).getLsbD i.val)
        [word 12 2 x.field 0 X3 X2 X1 X0]
  /-- `C3000XXx` -/
  | readWriteStaticRegister (X1 X0 x : Nybble) :
      Encodes (.readWriteStaticRegister ⟨X1.val * 16 + X0.val, by omega⟩ x) [word 12 3 0 0 0 X1 X0 x]
  /-- `FF0?????` -/
  | pauseProcess (q4 q3 q2 q1 q0 : Nybble) : Encodes .pauseProcess [word 15 15 0 q4 q3 q2 q1 q0]
  /-- `FF1?????` -/
  | resumeProcess (q4 q3 q2 q1 q0 : Nybble) : Encodes .resumeProcess [word 15 15 1 q4 q3 q2 q1 q0]
  /-- `FFFTI0Ma aaaaaaaa` -/
  | logMemoryRelAddr (T I : Nybble) (M : MemoryAccessType) (a : Value) : a.toNat < 2 ^ 36 →
      Encodes (.debugLog T I (some .memoryRelAddr) M 0 0 0 a)
        [word 15 15 15 T I 0 M.field (digit a 8), lower a]
  /-- `FFFTI1Mr` -/
  | logMemoryOfsReg (T I r : Nybble) (M : MemoryAccessType) :
      Encodes (.debugLog T I (some .memoryOfsReg) M 0 0 r 0) [word 15 15 15 T I 1 M.field r]
  /-- `FFFTI2Ra aaaaaaaa` -/
  | logRegisterRelAddr (T I R : Nybble) (a : Value) : a.toNat < 2 ^ 36 →
      Encodes (.debugLog T I (some .registerRelAddr) .mainNso R 0 0 a)
        [word 15 15 15 T I 2 R (digit a 8), lower a]
  /-- `FFFTI3Rr` -/
  | logRegisterOfsReg (T I R r : Nybble) :
      Encodes (.debugLog T I (some .registerOfsReg) .mainNso R 0 r 0) [word 15 15 15 T I 3 R r]
  /-- `FFFTI4X0` -/
  | logRegisterValue (T I X : Nybble) :
      Encodes (.debugLog T I (some .registerValue) .mainNso 0 X 0 0) [word 15 15 15 T I 4 X 0]

/-! ## Reading the words -/

/-- The words lie in the program from the instruction pointer on. -/
def Holds (program : List Word) (ip : Nat) : List Word → Prop
  | [] => True
  | w :: ws => program[ip]? = some w ∧ Holds program (ip + 1) ws

theorem holds_append (pre ws post : List Word) : Holds (pre ++ ws ++ post) pre.length ws := by
  induction ws generalizing pre with
  | nil => trivial
  | cons w ws ih =>
    refine ⟨?_, ?_⟩
    · rw [List.append_assoc, List.getElem?_append_right (Nat.le_refl _), Nat.sub_self]
      rfl
    · have h := ih (pre ++ [w])
      rw [List.append_assoc pre, List.length_append] at h; exact h

section Run

variable {program : List Word} {ip : Nat}

theorem run_dword {w : Word} (h : program[ip]? = some w) :
    (getNextDword program).run ip = some (w, ip + 1) := by
  show (program[ip]?).map _ = _
  rw [h]
  rfl

theorem run_address {first mask : Word} {A : Value} (hfirst : (first &&& mask).toNat = A.toNat / 2 ^ 32)
    (h : program[ip]? = some (lower A)) :
    (getNextAddress program first mask).run ip = some (A, ip + 1) := by
  rw [getNextAddress, StateT.run_bind, run_dword h]
  show some (_, ip + 1) = _
  rw [join_eq hfirst]

theorem run_two {V : Value} (h : program[ip]? = some (upper V)) (h' : program[ip + 1]? = some (lower V)) :
    (getNextTwoDwords program).run ip = some (V, ip + 2) := by
  have hsecond : (getNextDword program).run (ip + 1) = some (lower V, ip + 2) := run_dword h'
  simp only [getNextTwoDwords, StateT.run_bind, run_dword h, hsecond, Option.bind_eq_bind,
      Option.bind_some]
  show some (_, ip + 2) = _
  rw [join_eq (upper_toNat V)]

theorem masked_lower {V : Value} {k : Nat} {mask : Word} (hmask : mask.toNat = 2 ^ k - 1) (hk : k ≤ 32)
    (hV : V.toNat < 2 ^ k) : (lower V &&& mask).zeroExtend 64 = V := by
  have hpow : 2 ^ k ≤ 2 ^ 32 := Nat.pow_le_pow_right (by decide) hk
  apply BitVec.eq_of_toNat_eq
  rw [BitVec.toNat_setWidth, BitVec.toNat_and, hmask, Nat.and_two_pow_sub_one_eq_mod, lower_toNat,
    Nat.mod_eq_of_lt (a := V.toNat) (by omega), Nat.mod_eq_of_lt hV, Nat.mod_eq_of_lt (by omega)]

theorem run_vmInt {T : Nybble} {V : Value} (hV : VmIntInRange T V) (h : Holds program ip (vmInt T V)) :
    (getNextVmInt program T).run ip = some (V, ip + (vmInt T V).length) := by
  have hcases : ∀ T : Nybble, T = 1 ∨ T = 2 ∨ T = 4 ∨ T = 8 ∨ (T ≠ 1 ∧ T ≠ 2 ∧ T ≠ 4 ∧ T ≠ 8) := by decide
  rw [getNextVmInt, StateT.run_bind]
  obtain rfl | rfl | rfl | rfl | ⟨h1, h2, h4, h8⟩ := hcases T
  · rw [run_dword h.1]
    exact congrArg (fun v => some (v, ip + 1)) (masked_lower (k := 8) rfl (by decide) hV)
  · rw [run_dword h.1]
    exact congrArg (fun v => some (v, ip + 1)) (masked_lower (k := 16) rfl (by decide) hV)
  · rw [run_dword h.1]
    have hmasked : (lower V &&& BitVec.allOnes 32).zeroExtend 64 = V :=
      masked_lower (k := 32) rfl (by decide) hV
    rw [BitVec.and_allOnes] at hmasked
    exact congrArg (fun v => some (v, ip + 1)) hmasked
  · have hsecond : (getNextDword program).run (ip + 1) = some (lower V, ip + 2) := run_dword h.2.1
    rw [run_dword h.1]
    show StateT.run (getNextDword program >>= fun second : Word =>
      pure ((upper V).zeroExtend 64 <<< 32 ||| second.zeroExtend 64)) (ip + 1) = _
    rw [StateT.run_bind, hsecond]
    exact congrArg (fun v => some (v, ip + 2)) (join_eq (upper_toNat V))
  · have hword : vmInt T V = [lower V] := if_neg h8
    rw [hword] at h ⊢
    rw [run_dword h.1]
    have hne : ∀ n : Nybble, T ≠ n → T.val ≠ n.val := fun n hn he => hn (Fin.ext he)
    have hzero : V = 0 := by
      unfold VmIntInRange at hV
      split at hV
      · exact absurd ‹_› (hne 1 h1)
      · exact absurd ‹_› (hne 2 h2)
      · exact absurd ‹_› (hne 4 h4)
      · exact absurd ‹_› (hne 8 h8)
      · exact hV
    subst hzero
    show (match T.val with
      | 1 => _
      | 2 => _
      | 4 => _
      | 8 => _
      | _ => pure 0 : Decoder Value).run (ip + 1) = _
    split
    · exact absurd ‹_› (hne 1 h1)
    · exact absurd ‹_› (hne 2 h2)
    · exact absurd ‹_› (hne 4 h4)
    · exact absurd ‹_› (hne 8 h8)
    · rfl

theorem run_bind_eq {α β : Type} {d : Decoder α} {f : α → Decoder β} {a : α} {ip' : Nat}
    (h : d.run ip = some (a, ip')) : (d >>= f).run ip = (f a).run ip' := by
  rw [StateT.run_bind, h]; rfl

theorem run_decode {first : Word} (type : CheatVmOpcodeType) (h : program[ip]? = some first)
    (htype : opcodeType first = some type) :
    (decode program).run ip = (decodeOperands program first type).run (ip + 1) := by
  rw [decode, run_bind_eq (run_dword h), htype]

end Run

/-! ## Fields that are not a nibble -/

section Fields

variable (n7 n6 n5 n4 n3 n2 n1 n0 : Nybble)

theorem address_FF {A : Value} (hA : A.toNat < 2 ^ 40) :
    (word n7 n6 n5 n4 n3 n2 (digit A 9) (digit A 8) &&& 0xFF).toNat = A.toNat / 2 ^ 32 := by
  rw [word_and_mask_toNat n7 n6 n5 n4 n3 n2 _ _ 8 _ rfl]
  show (_ + A.toNat / 16 ^ 9 % 16 * 16 + A.toNat / 16 ^ 8 % 16) % 2 ^ 8 = A.toNat / 2 ^ 32
  omega

theorem address_F {A : Value} (hA : A.toNat < 2 ^ 36) :
    (word n7 n6 n5 n4 n3 n2 n1 (digit A 8) &&& 0xF).toNat = A.toNat / 2 ^ 32 := by
  rw [word_and_mask_toNat n7 n6 n5 n4 n3 n2 n1 _ 4 _ rfl]
  show (_ + A.toNat / 16 ^ 8 % 16) % 2 ^ 4 = A.toNat / 2 ^ 32
  omega

theorem key_mask :
    word n7 n6 n5 n4 n3 n2 n1 n0 &&& 0x0FFFFFFF#32 = word 0 n6 n5 n4 n3 n2 n1 n0 := by
  apply BitVec.eq_of_toNat_eq
  rw [word_and_mask_toNat n7 n6 n5 n4 n3 n2 n1 n0 28 _ rfl, word_toNat]
  show _ = 0 * 16 ^ 7 + _ + _ + _ + _ + _ + _ + _
  omega

theorem register_mask (i : Nybble) :
    (word n7 n6 n5 n4 n3 n2 n1 n0).getLsbD i.val = (word 0 0 0 0 n3 n2 n1 n0).getLsbD i.val := by
  have hlow : (word n7 n6 n5 n4 n3 n2 n1 n0).toNat % 2 ^ 16
      = (word 0 0 0 0 n3 n2 n1 n0).toNat % 2 ^ 16 := by
    rw [word_toNat, word_toNat]; omega
  have hbit : ∀ w : Word, w.getLsbD i.val = (w.toNat % 2 ^ 16).testBit i.val := by
    intro w
    rw [Nat.testBit_mod_two_pow, decide_eq_true i.isLt, Bool.true_and]; rfl
  rw [hbit, hbit, hlow]

theorem static_index : (word n7 n6 n5 n4 n3 n2 n1 n0 >>> 4).toNat % 256 = n2.val * 16 + n1.val := by
  rw [BitVec.toNat_ushiftRight, Nat.shiftRight_eq_div_pow, word_toNat]; omega

theorem flag_ne_zero (b : Bool) : (flag b != 0) = b := by
  cases b <;> rfl

end Fields

theorem opcodeType_FFF (n4 n3 n2 n1 n0 : Nybble) :
    opcodeType (word 15 15 15 n4 n3 n2 n1 n0) = some .debugLog := by
  rw [opcodeType, nybble_word_28, nybble_word_24, nybble_word_20]; rfl

/-! ## Encodings are decoded -/

/-- What is decoded for an instruction: a loop loses its register. -/
def CheatVmOpcode.decoded : CheatVmOpcode → CheatVmOpcode
  | .controlLoop start _ numIters => .controlLoop start 0 numIters
  | opcode => opcode

theorem decode_encode {opcode : CheatVmOpcode} {ws : List Word} (henc : Encodes opcode ws)
    {program : List Word} {ip : Nat} (hw : Holds program ip ws) :
    (decode program).run ip = some (opcode.decoded, ip + ws.length) := by
  cases henc with
  | storeStatic T R M A Y hA hY =>
    obtain ⟨hfirst, hsecond, hvalue⟩ := hw
    have hadr := run_address (address_FF 0 T M.field R 0 0 hA) hsecond
    rw [run_decode .storeStatic hfirst (by simp [opcodeType]), decodeOperands, run_bind_eq hadr,
        nybble_word_24,
      run_bind_eq (run_vmInt hY hvalue)]
    simp [CheatVmOpcode.decoded]; omega
  | beginConditional T M C A Y hA hY =>
    obtain ⟨hfirst, hsecond, hvalue⟩ := hw
    have hadr := run_address (address_FF 1 T M.field C.field 0 0 hA) hsecond
    rw [run_decode .beginConditionalBlock hfirst (by simp [opcodeType]), decodeOperands, run_bind_eq hadr,
      nybble_word_24, run_bind_eq (run_vmInt hY hvalue)]
    simp [CheatVmOpcode.decoded]; omega
  | endConditional isElse =>
    rw [run_decode .endConditionalBlock hw.1 (by simp [opcodeType])]
    cases isElse <;> simp [decodeOperands, CheatVmOpcode.decoded, flag]
  | loopStart R V =>
    rw [run_decode .controlLoop hw.1 (by simp [opcodeType]), decodeOperands, nybble_word_24, if_pos rfl,
      run_bind_eq (run_dword hw.2.1)]
    simp [CheatVmOpcode.decoded]
  | loopEnd R =>
    rw [run_decode .controlLoop hw.1 (by simp [opcodeType]), decodeOperands, nybble_word_24,
      if_neg (by decide)]
    simp [CheatVmOpcode.decoded]
  | loadRegisterStatic R V =>
    rw [run_decode .loadRegisterStatic hw.1 (by simp [opcodeType]), decodeOperands,
      run_bind_eq (run_two hw.2.1 hw.2.2.1)]
    simp [CheatVmOpcode.decoded]
  | loadRegisterMemory T R M I A hA =>
    have hadr := run_address (address_FF 5 T M.field R (flag I) 0 hA) hw.2.1
    rw [run_decode .loadRegisterMemory hw.1 (by simp [opcodeType]), decodeOperands, run_bind_eq hadr]
    simp [CheatVmOpcode.decoded, flag_ne_zero]
  | storeStaticToAddress T R r I o V =>
    rw [run_decode .storeStaticToAddress hw.1 (by simp [opcodeType]), decodeOperands,
      run_bind_eq (run_two hw.2.1 hw.2.2.1)]
    simp [CheatVmOpcode.decoded, flag_ne_zero]
  | performArithmeticStatic T R C V =>
    rw [run_decode .performArithmeticStatic hw.1 (by simp [opcodeType]), decodeOperands,
      run_bind_eq (run_dword hw.2.1)]
    simp [CheatVmOpcode.decoded]
  | beginKeypressConditional k6 k5 k4 k3 k2 k1 k0 =>
    rw [run_decode .beginKeypressConditionalBlock hw.1 (by simp [opcodeType]), decodeOperands, key_mask]
    rfl
  | arithmeticRegister T R S s C =>
    rw [run_decode .performArithmeticRegister hw.1 (by simp [opcodeType])]
    simp [decodeOperands, CheatVmOpcode.decoded]
  | arithmeticImmediate T R S C V hV =>
    rw [run_decode .performArithmeticRegister hw.1 (by simp [opcodeType]), decodeOperands, nybble_word_8,
      if_neg (by decide), nybble_word_24, run_bind_eq (run_vmInt hV hw.2)]
    simp [CheatVmOpcode.decoded]; omega
  | storeNone T S R x I =>
    rw [run_decode .storeRegisterToAddress hw.1 (by simp [opcodeType]), decodeOperands,
      decodeStoreRegisterToAddress, nybble_word_24, nybble_word_20, nybble_word_16, nybble_word_12,
      nybble_word_8, nybble_word_4, flag_ne_zero]
    rfl
  | storeReg T S R x I =>
    rw [run_decode .storeRegisterToAddress hw.1 (by simp [opcodeType]), decodeOperands,
      decodeStoreRegisterToAddress, nybble_word_24, nybble_word_20, nybble_word_16, nybble_word_12,
      nybble_word_8, nybble_word_4, flag_ne_zero]
    rfl
  | storeImm T S R x I a ha =>
    have hadr := run_address (address_F 10 T S R (flag I) 2 x ha) hw.2.1
    rw [run_decode .storeRegisterToAddress hw.1 (by simp [opcodeType]), decodeOperands,
      decodeStoreRegisterToAddress, nybble_word_24, nybble_word_20, nybble_word_16, nybble_word_12,
      nybble_word_8, nybble_word_4, flag_ne_zero]
    exact (run_bind_eq hadr).trans rfl
  | storeMemReg T S R I x =>
    rw [run_decode .storeRegisterToAddress hw.1 (by simp [opcodeType]), decodeOperands,
      decodeStoreRegisterToAddress, nybble_word_24, nybble_word_20, nybble_word_16, nybble_word_12,
      nybble_word_8, nybble_word_4, flag_ne_zero, MemoryAccessType.ofField_field]
    rfl
  | storeMemImm T S R I x a ha =>
    have hadr := run_address (address_F 10 T S R (flag I) 4 x.field ha) hw.2.1
    rw [run_decode .storeRegisterToAddress hw.1 (by simp [opcodeType]), decodeOperands,
      decodeStoreRegisterToAddress, nybble_word_24, nybble_word_20, nybble_word_16, nybble_word_12,
      nybble_word_8, nybble_word_4, flag_ne_zero, MemoryAccessType.ofField_field]
    exact (run_bind_eq hadr).trans rfl
  | storeMemImmReg T S R I x a ha =>
    have hadr := run_address (address_F 10 T S R (flag I) 5 x.field ha) hw.2.1
    rw [run_decode .storeRegisterToAddress hw.1 (by simp [opcodeType]), decodeOperands,
      decodeStoreRegisterToAddress, nybble_word_24, nybble_word_20, nybble_word_16, nybble_word_12,
      nybble_word_8, nybble_word_4, flag_ne_zero, MemoryAccessType.ofField_field]
    exact (run_bind_eq hadr).trans rfl
  | compareMemoryRelAddr T S c M a ha =>
    have hadr := run_address (address_F 12 0 T c.field S 0 M.field ha) hw.2.1
    rw [run_decode .beginRegisterConditionalBlock hw.1 (by simp [opcodeType]), decodeOperands,
      decodeBeginRegisterConditional, nybble_word_20, nybble_word_16, nybble_word_12, nybble_word_8,
      nybble_word_4, ConditionalComparisonType.ofField_field, MemoryAccessType.ofField_field]
    exact (run_bind_eq hadr).trans rfl
  | compareMemoryOfsReg T S r c M =>
    rw [run_decode .beginRegisterConditionalBlock hw.1 (by simp [opcodeType]), decodeOperands,
      decodeBeginRegisterConditional, nybble_word_20, nybble_word_16, nybble_word_12, nybble_word_8,
      nybble_word_4, nybble_word_0, ConditionalComparisonType.ofField_field,
          MemoryAccessType.ofField_field]
    rfl
  | compareRegisterRelAddr T S R c a ha =>
    have hadr := run_address (address_F 12 0 T c.field S 2 R ha) hw.2.1
    rw [run_decode .beginRegisterConditionalBlock hw.1 (by simp [opcodeType]), decodeOperands,
      decodeBeginRegisterConditional, nybble_word_20, nybble_word_16, nybble_word_12, nybble_word_8,
      nybble_word_4, ConditionalComparisonType.ofField_field]
    exact (run_bind_eq hadr).trans rfl
  | compareRegisterOfsReg T S R r c =>
    rw [run_decode .beginRegisterConditionalBlock hw.1 (by simp [opcodeType]), decodeOperands,
      decodeBeginRegisterConditional, nybble_word_20, nybble_word_16, nybble_word_12, nybble_word_8,
      nybble_word_4, nybble_word_0, ConditionalComparisonType.ofField_field]
    rfl
  | compareStaticValue T S c V hV =>
    rw [run_decode .beginRegisterConditionalBlock hw.1 (by simp [opcodeType]), decodeOperands,
      decodeBeginRegisterConditional, nybble_word_20, nybble_word_16, nybble_word_12, nybble_word_8,
      nybble_word_4, ConditionalComparisonType.ofField_field]
    refine (run_bind_eq (run_vmInt hV hw.2)).trans ?_
    rw [List.length_cons, Nat.add_comm (vmInt T V).length, ← Nat.add_assoc]; rfl
  | compareOtherRegister T S X c =>
    rw [run_decode .beginRegisterConditionalBlock hw.1 (by simp [opcodeType]), decodeOperands,
      decodeBeginRegisterConditional, nybble_word_20, nybble_word_16, nybble_word_12, nybble_word_8,
      nybble_word_4, ConditionalComparisonType.ofField_field]
    rfl
  | saveRestoreRegister D S x =>
    rw [run_decode .saveRestoreRegister hw.1 (by simp [opcodeType])]
    simp [decodeOperands, CheatVmOpcode.decoded]
  | saveRestoreRegisterMask x X3 X2 X1 X0 =>
    rw [run_decode .saveRestoreRegisterMask hw.1 (by simp [opcodeType]), decodeOperands, nybble_word_20,
      SaveRestoreRegisterOpType.ofField_field]
    simp only [register_mask 12 2 x.field 0 X3 X2 X1 X0]; rfl
  | readWriteStaticRegister X1 X0 x =>
    have hindex : (⟨(word 12 3 0 0 0 X1 X0 x >>> 4).toNat % 256, Nat.mod_lt _ (by decide)⟩ : Fin 256) =
        ⟨X1.val * 16 + X0.val, by omega⟩ := Fin.ext (static_index 12 3 0 0 0 X1 X0 x)
    rw [run_decode .readWriteStaticRegister hw.1 (by simp [opcodeType]), decodeOperands, hindex,
        nybble_word_0]
    rfl
  | pauseProcess q4 q3 q2 q1 q0 =>
    rw [run_decode .pauseProcess hw.1 (by simp [opcodeType]), decodeOperands]; rfl
  | resumeProcess q4 q3 q2 q1 q0 =>
    rw [run_decode .resumeProcess hw.1 (by simp [opcodeType]), decodeOperands]; rfl
  | logMemoryRelAddr T I M a ha =>
    have hadr := run_address (address_F 15 15 15 T I 0 M.field ha) hw.2.1
    rw [run_decode .debugLog hw.1 (opcodeType_FFF ..), decodeOperands, decodeDebugLog, nybble_word_16,
      nybble_word_12, nybble_word_8, nybble_word_4, MemoryAccessType.ofField_field]
    exact (run_bind_eq hadr).trans rfl
  | logMemoryOfsReg T I r M =>
    rw [run_decode .debugLog hw.1 (opcodeType_FFF ..), decodeOperands, decodeDebugLog, nybble_word_16,
      nybble_word_12, nybble_word_8, nybble_word_4, nybble_word_0, MemoryAccessType.ofField_field]
    rfl
  | logRegisterRelAddr T I R a ha =>
    have hadr := run_address (address_F 15 15 15 T I 2 R ha) hw.2.1
    rw [run_decode .debugLog hw.1 (opcodeType_FFF ..), decodeOperands, decodeDebugLog, nybble_word_16,
      nybble_word_12, nybble_word_8, nybble_word_4]
    exact (run_bind_eq hadr).trans rfl
  | logRegisterOfsReg T I R r =>
    rw [run_decode .debugLog hw.1 (opcodeType_FFF ..), decodeOperands, decodeDebugLog, nybble_word_16,
      nybble_word_12, nybble_word_8, nybble_word_4, nybble_word_0]
    rfl
  | logRegisterValue T I X =>
    rw [run_decode .debugLog hw.1 (opcodeType_FFF ..), decodeOperands, decodeDebugLog, nybble_word_16,
      nybble_word_12, nybble_word_8, nybble_word_4]
    rfl

/-! ## Numbers and lengths -/

/-- The number of an instruction: one nibble, from `C` on two, from `F0` on three. -/
def opcodeNumber (first : Word) : Nat :=
  let one := (nybble first 28).val
  let two := one * 16 + (nybble first 24).val
  let three := two * 16 + (nybble first 20).val
  if one < 0xC then one else if two < 0xF0 then two else three

/-- The values of `CheatVmOpcodeType`. -/
def CheatVmOpcodeType.number : CheatVmOpcodeType → Nat
  | .storeStatic => 0
  | .beginConditionalBlock => 1
  | .endConditionalBlock => 2
  | .controlLoop => 3
  | .loadRegisterStatic => 4
  | .loadRegisterMemory => 5
  | .storeStaticToAddress => 6
  | .performArithmeticStatic => 7
  | .beginKeypressConditionalBlock => 8
  | .performArithmeticRegister => 9
  | .storeRegisterToAddress => 10
  | .beginRegisterConditionalBlock => 0xC0
  | .saveRestoreRegister => 0xC1
  | .saveRestoreRegisterMask => 0xC2
  | .readWriteStaticRegister => 0xC3
  | .pauseProcess => 0xFF0
  | .resumeProcess => 0xFF1
  | .debugLog => 0xFFF

/-- The words of a value of the bit width. -/
def vmIntWords (bitWidth : Nybble) : Nat := if bitWidth = 8 then 2 else 1

/-- The words of the layout behind the first one. -/
def CheatVmOpcodeType.operandWords (first : Word) : CheatVmOpcodeType → Nat
  | .storeStatic | .beginConditionalBlock => 1 + vmIntWords (nybble first 24)
  | .controlLoop => if nybble first 24 = 0 then 1 else 0
  | .loadRegisterStatic | .storeStaticToAddress => 2
  | .loadRegisterMemory | .performArithmeticStatic => 1
  | .performArithmeticRegister => if nybble first 8 = 0 then 0 else vmIntWords (nybble first 24)
  | .storeRegisterToAddress =>
    match (nybble first 8).val with
    | 2 | 4 | 5 => 1
    | _ => 0
  | .beginRegisterConditionalBlock =>
    match (nybble first 8).val with
    | 0 | 2 => 1
    | 4 => vmIntWords (nybble first 20)
    | _ => 0
  | .debugLog =>
    match (nybble first 8).val with
    | 0 | 2 => 1
    | _ => 0
  | .endConditionalBlock | .beginKeypressConditionalBlock | .saveRestoreRegister |
      .saveRestoreRegisterMask
  | .readWriteStaticRegister | .pauseProcess | .resumeProcess => 0

theorem CheatVmOpcodeType.number_injective : Function.Injective CheatVmOpcodeType.number := by
  intro type type' h; cases type <;> cases type' <;> first | rfl | cases h

/-- The numbers of `CheatVmOpcodeType`. -/
def knownNumber (n : Nat) : Bool :=
  n.ble 10 || (Nat.ble 0xC0 n && n.ble 0xC3) || n.beq 0xFF0 || n.beq 0xFF1 || n.beq 0xFFF

theorem opcodeType_eq_some_iff (first : Word) (type : CheatVmOpcodeType) :
    opcodeType first = some type ↔ opcodeNumber first = type.number := by
  have hall : ∀ type : CheatVmOpcodeType, knownNumber type.number = true := by
    intro type; cases type <;> rfl
  have hnumber : (opcodeType first).map CheatVmOpcodeType.number =
      if knownNumber (opcodeNumber first) then some (opcodeNumber first) else none := by
    rw [opcodeType, opcodeNumber]
    generalize nybble first 28 = n7
    generalize nybble first 24 = n6
    generalize nybble first 20 = n5
    revert n7 n6 n5
    decide +kernel
  constructor
  · intro h
    rw [h, Option.map_some] at hnumber
    split at hnumber
    · exact (Option.some.inj hnumber).symm
    · cases hnumber
  · intro h
    rw [if_pos (by rw [h]; exact hall type), h] at hnumber
    obtain ⟨type', htype, heq⟩ := Option.map_eq_some_iff.mp hnumber
    rw [htype, CheatVmOpcodeType.number_injective heq]

/-- A decoder takes `n` words, or fails where they are not there. -/
def Takes {α : Type} (program : List Word) (d : Decoder α) (n : Nat) : Prop :=
  ∀ ip ≤ program.length,
    (ip + n ≤ program.length → ∃ a, d.run ip = some (a, ip + n)) ∧
    (program.length < ip + n → d.run ip = none)

section Lengths

variable {program : List Word}

theorem takes_pure {α : Type} (a : α) : Takes program (pure a : Decoder α) 0 :=
  fun ip _ => ⟨fun _ => ⟨a, rfl⟩, fun h => by omega⟩

theorem takes_getNextDword : Takes program (getNextDword program) 1 := by
  intro ip _
  constructor
  · intro h
    exact ⟨program[ip], run_dword (List.getElem?_eq_getElem h)⟩
  · intro h
    show (program[ip]?).map _ = none
    rw [List.getElem?_eq_none (by omega)]; rfl

theorem takes_bind {α β : Type} {d : Decoder α} {f : α → Decoder β} {m n : Nat} (hd : Takes program d m)
    (hf : ∀ a, Takes program (f a) n) : Takes program (d >>= f) (m + n) := by
  intro ip hip
  obtain ⟨hfits, hcut⟩ := hd ip hip
  by_cases hm : ip + m ≤ program.length
  · obtain ⟨a, ha⟩ := hfits hm
    have hrest := hf a (ip + m) hm
    rwa [Nat.add_assoc, ← run_bind_eq ha] at hrest
  · refine ⟨fun h => absurd h (by omega), fun _ => ?_⟩
    rw [StateT.run_bind, hcut (by omega)]; rfl

theorem takes_getNextAddress (first mask : Word) : Takes program (getNextAddress program first mask) 1 :=
  takes_bind takes_getNextDword fun _ => takes_pure _

theorem takes_getNextTwoDwords : Takes program (getNextTwoDwords program) 2 :=
  takes_bind takes_getNextDword fun _ => takes_bind takes_getNextDword fun _ => takes_pure _

theorem takes_getNextVmInt (bitWidth : Nybble) :
    Takes program (getNextVmInt program bitWidth) (vmIntWords bitWidth) := by
  by_cases h8 : bitWidth = 8
  · subst h8
    exact takes_bind takes_getNextDword fun _ => takes_bind takes_getNextDword fun _ => takes_pure _
  · have hval : bitWidth.val ≠ 8 := fun h => h8 (Fin.ext h)
    rw [vmIntWords, if_neg h8, getNextVmInt, ← Nat.add_zero 1]
    refine takes_bind takes_getNextDword fun first => ?_
    split
    · exact takes_pure _
    · exact takes_pure _
    · exact takes_pure _
    · exact absurd ‹_› hval
    · exact takes_pure _

theorem takes_decodeStoreRegisterToAddress (first : Word) :
    Takes program (decodeStoreRegisterToAddress program first)
      (CheatVmOpcodeType.storeRegisterToAddress.operandWords first) := by
  have hwords : CheatVmOpcodeType.storeRegisterToAddress.operandWords first =
      match StoreRegisterOffsetType.ofField (nybble first 8) with
      | .imm | .memImm | .memImmReg => 1
      | .none | .reg | .memReg => 0 := by
    rw [CheatVmOpcodeType.operandWords]
    generalize nybble first 8 = n2
    revert n2
    decide
  rw [hwords, decodeStoreRegisterToAddress]
  cases StoreRegisterOffsetType.ofField (nybble first 8) with
  | none | reg | memReg => exact takes_pure _
  | imm | memImm | memImmReg => exact takes_bind (takes_getNextAddress first _) fun _ => takes_pure _

def CompareRegisterValueType.operandWords (bitWidth : Nybble) : Option CompareRegisterValueType → Nat
  | some .memoryRelAddr | some .registerRelAddr => 1
  | some .staticValue => vmIntWords bitWidth
  | _ => 0

theorem takes_decodeBeginRegisterConditional (first : Word) :
    Takes program (decodeBeginRegisterConditional program first)
      (CheatVmOpcodeType.beginRegisterConditionalBlock.operandWords first) := by
  have hwords : CheatVmOpcodeType.beginRegisterConditionalBlock.operandWords first =
      CompareRegisterValueType.operandWords (nybble first 20)
        (CompareRegisterValueType.ofField (nybble first 8)) := by
    rw [CheatVmOpcodeType.operandWords]
    generalize nybble first 8 = n2
    fin_cases n2 <;> rfl
  rw [hwords, decodeBeginRegisterConditional]
  cases CompareRegisterValueType.ofField (nybble first 8) with
  | none => exact takes_pure _
  | some compType =>
    cases compType with
    | memoryRelAddr | registerRelAddr =>
      exact takes_bind (takes_getNextAddress first _) fun _ => takes_pure _
    | staticValue => exact takes_bind (takes_getNextVmInt _) fun _ => takes_pure _
    | memoryOfsReg | registerOfsReg | otherRegister => exact takes_pure _

def DebugLogValueType.operandWords : Option DebugLogValueType → Nat
  | some .memoryRelAddr | some .registerRelAddr => 1
  | _ => 0

theorem takes_decodeDebugLog (first : Word) :
    Takes program (decodeDebugLog program first) (CheatVmOpcodeType.debugLog.operandWords first) := by
  have hwords : CheatVmOpcodeType.debugLog.operandWords first =
      DebugLogValueType.operandWords (DebugLogValueType.ofField (nybble first 8)) := by
    rw [CheatVmOpcodeType.operandWords]
    generalize nybble first 8 = n2
    revert n2
    decide
  rw [hwords, decodeDebugLog]
  cases DebugLogValueType.ofField (nybble first 8) with
  | none => exact takes_pure _
  | some valType =>
    cases valType with
    | memoryRelAddr | registerRelAddr =>
      exact takes_bind (takes_getNextAddress first _) fun _ => takes_pure _
    | memoryOfsReg | registerOfsReg | registerValue => exact takes_pure _

theorem takes_decodeOperands (first : Word) (type : CheatVmOpcodeType) :
    Takes program (decodeOperands program first type) (type.operandWords first) := by
  cases type with
  | storeStatic | beginConditionalBlock =>
    exact takes_bind (takes_getNextAddress first _) fun _ =>
      takes_bind (takes_getNextVmInt _) fun _ => takes_pure _
  | controlLoop =>
    rw [decodeOperands, CheatVmOpcodeType.operandWords]
    split
    · exact takes_bind takes_getNextDword fun _ => takes_pure _
    · exact takes_pure _
  | loadRegisterStatic | storeStaticToAddress =>
    exact takes_bind takes_getNextTwoDwords fun _ => takes_pure _
  | loadRegisterMemory => exact takes_bind (takes_getNextAddress first _) fun _ => takes_pure _
  | performArithmeticStatic => exact takes_bind takes_getNextDword fun _ => takes_pure _
  | performArithmeticRegister =>
    rw [decodeOperands, CheatVmOpcodeType.operandWords]
    split
    · exact takes_pure _
    · exact takes_bind (takes_getNextVmInt _) fun _ => takes_pure _
  | storeRegisterToAddress => exact takes_decodeStoreRegisterToAddress first
  | beginRegisterConditionalBlock => exact takes_decodeBeginRegisterConditional first
  | debugLog => exact takes_decodeDebugLog first
  | endConditionalBlock | beginKeypressConditionalBlock | saveRestoreRegister | saveRestoreRegisterMask
  | readWriteStaticRegister | pauseProcess | resumeProcess => exact takes_pure _

end Lengths

/-! ## Result -/

/-- `DecodeNextOpcode(out)`: the guard of the scope sets `out` where the decoding is valid. -/
def decodeNextOpcodeOut (program : List Word) (vm : Vm) (out : CheatVmOpcode) : Bool × CheatVmOpcode :=
  match decodeNextOpcode program vm with
  | some (opcode, _) => (true, opcode)
  | none => (false, out)

/-- The number is unknown, or the program ends inside the instruction. -/
def Undecodable (program : List Word) (ip : Nat) : Prop :=
  match program[ip]? with
  | none => True
  | some first =>
    (∀ type : CheatVmOpcodeType, opcodeNumber first ≠ type.number) ∨
      ∃ type : CheatVmOpcodeType, opcodeNumber first = type.number ∧
        program.length < ip + 1 + type.operandWords first

/-- **Decoding fails** for an unknown number and at the end of the program, and nowhere else. -/
theorem decode_eq_none_iff (program : List Word) (ip : Nat) :
    (decode program).run ip = none ↔ Undecodable program ip := by
  rw [Undecodable]
  cases hfirst : program[ip]? with
  | none =>
    refine iff_of_true ?_ trivial
    rw [decode, StateT.run_bind]
    have hnone : (getNextDword program).run ip = none := by
      show (program[ip]?).map _ = none
      rw [hfirst]; rfl
    rw [hnone]; rfl
  | some first =>
    have hlt : ip < program.length := (List.getElem?_eq_some_iff.mp hfirst).1
    cases htype : opcodeType first with
    | none =>
      have hunknown : ∀ type : CheatVmOpcodeType, opcodeNumber first ≠ type.number := by
        intro type h
        rw [← opcodeType_eq_some_iff, htype] at h; cases h
      refine iff_of_true ?_ (Or.inl hunknown)
      rw [decode, run_bind_eq (run_dword hfirst), htype]; rfl
    | some type =>
      have hnumber : opcodeNumber first = type.number := (opcodeType_eq_some_iff first type).mp htype
      have htakes : Takes program (decodeOperands program first type) (type.operandWords first) :=
        takes_decodeOperands first type
      obtain ⟨hfits, hcut⟩ := htakes (ip + 1) hlt
      rw [run_decode type hfirst htype]
      constructor
      · intro hnone
        refine Or.inr ⟨type, hnumber, Nat.lt_of_not_le fun hle => ?_⟩
        obtain ⟨opcode, hsome⟩ := hfits hle
        rw [hsome] at hnone
        cases hnone
      · rintro (hunknown | ⟨type', hnumber', hend⟩)
        · exact absurd hnumber (hunknown type)
        · obtain rfl := CheatVmOpcodeType.number_injective (hnumber'.symm.trans hnumber)
          exact hcut hend

theorem decode_append {opcode : CheatVmOpcode} {ws : List Word} (henc : Encodes opcode ws)
    (pre post : List Word) :
    (decode (pre ++ ws ++ post)).run pre.length = some (opcode.decoded, pre.length + ws.length) :=
  decode_encode henc (holds_append pre ws post)

theorem decoded_eq_iff (opcode : CheatVmOpcode) :
    opcode.decoded = opcode ↔ ∀ start R n, opcode = .controlLoop start R n → R = 0 := by
  constructor
  · rintro h start R n rfl
    injection h with _ hR
    exact hR.symm
  · intro h
    cases opcode with
    | controlLoop start R n => rw [h start R n rfl, CheatVmOpcode.decoded]
    | _ => rfl

/-- **Instructions are decoded from their encodings**, wherever in a program they are, except for a loop
    over a register that is not the first; and a running interpreter fails to decode, and leaves `out`,
    exactly for unknown numbers and at the end of the program. -/
theorem decode_encode_exact (opcode out : CheatVmOpcode) (ws pre post program : List Word) (vm : Vm) :
    (Encodes opcode ws →
      ((decode (pre ++ ws ++ post)).run pre.length = some (opcode, pre.length + ws.length) ↔
        ∀ start R n, opcode = .controlLoop start R n → R = 0)) ∧
    (vm.decodeSuccess = true →
      (Undecodable program vm.instructionPtr → decodeNextOpcodeOut program vm out = (false, out)) ∧
      (¬ Undecodable program vm.instructionPtr → ∃ opcode,
        decodeNextOpcodeOut program vm out = (true, opcode))) := by
  refine ⟨fun henc => ?_, fun hrunning => ⟨fun h => ?_, fun h => ?_⟩⟩
  · rw [decode_append henc, ← decoded_eq_iff]
    constructor
    · intro h
      exact congrArg Prod.fst (Option.some.inj h)
    · intro h
      rw [h]
  · rw [← decode_eq_none_iff] at h
    rw [decodeNextOpcodeOut, decodeNextOpcode, if_pos hrunning, h]
    rfl
  · rw [← decode_eq_none_iff] at h
    obtain ⟨r, hr⟩ := Option.ne_none_iff_exists'.mp h
    exact ⟨r.1, by rw [decodeNextOpcodeOut, decodeNextOpcode, if_pos hrunning, hr]; rfl⟩

/-- `64030000 00000000 00000007`: a store of 7 behind another word. -/
theorem decode_encode_exact_store :
    (decode ([0x20000000] ++ [word 6 4 0 3 0 0 0 0, 0, 7] ++ [])).run 1 =
      some (.storeStaticToAddress 4 3 false false 0 7, 4) :=
  ((decode_encode_exact (.storeStaticToAddress 4 3 false false 0 7) (.controlLoop true 0 2)
    [word 6 4 0 3 0 0 0 0, 0, 7] [0x20000000] [] [] (resetState fun _ => 0)).1
    (.storeStaticToAddress 4 3 0 false false 7)).mpr fun _ _ _ h => by cases h

/-- `30010000 00000002`: a loop over the second register becomes one over the first. -/
theorem not_decode_encode : Encodes (.controlLoop true 1 2) [word 3 0 0 1 0 0 0 0, 2] ∧
    (decode [word 3 0 0 1 0 0 0 0, 2]).run 0 = some (.controlLoop true 0 2, 2) ∧
    (decode [word 3 0 0 1 0 0 0 0, 2]).run 0 ≠ some (.controlLoop true 1 2, 2) := by
  have hrun : (decode [word 3 0 0 1 0 0 0 0, 2]).run 0 = some (.controlLoop true 0 2, 2) :=
    decode_append (.loopStart 1 2) [] []
  refine ⟨.loopStart 1 2, hrun, ?_⟩
  rw [hrun]
  intro h
  cases h

end Suyu.Core.DmntCheatVm
