import Mathlib

/-
  BitString - numbers as strings of bits, the highest bit first.

  `bitsOf n v` are the `n` low bits of `v`; a string splits where the number does (`bitsOf_add`), and
  reading back `n` bits from the front gives the number and the rest of the string (`read_append`).
-/

namespace Lib.BitString

/-- The `n` low bits of a number. -/
def bitsOf : Nat → Nat → List Bool
  | 0, _ => []
  | n + 1, v => v.testBit n :: bitsOf n v

/-- The number that a string stands for. -/
def ofBits (bits : List Bool) : Nat := bits.foldl (fun value bit => 2 * value + bit.toNat) 0

/-- The number that the next `n` bits stand for, and the rest. -/
def read (n : Nat) (bits : List Bool) : Option (Nat × List Bool) :=
  if n ≤ bits.length then some (ofBits (bits.take n), bits.drop n) else none

/-- The bits of a list of bytes. -/
def bitsOfBytes (bytes : List (BitVec 8)) : List Bool := bytes.flatMap fun byte => bitsOf 8 byte.toNat

@[simp] theorem bitsOf_zero (v : Nat) : bitsOf 0 v = [] := rfl

@[simp] theorem length_bitsOf (n v : Nat) : (bitsOf n v).length = n := by
  induction n with
  | zero => rfl
  | succ n ih => rw [bitsOf, List.length_cons, ih]

theorem bitsOf_congr {n v w : Nat} (h : ∀ k < n, v.testBit k = w.testBit k) :
    bitsOf n v = bitsOf n w := by
  induction n with
  | zero => rfl
  | succ n ih => rw [bitsOf, bitsOf, h n (Nat.lt_succ_self n), ih fun k hk => h k (by omega)]

theorem bitsOf_mod (n v : Nat) : bitsOf n (v % 2 ^ n) = bitsOf n v := by
  apply bitsOf_congr
  intro k hk
  rw [Nat.testBit_mod_two_pow, decide_eq_true hk, Bool.true_and]

theorem bitsOf_add (m n v : Nat) : bitsOf (m + n) v = bitsOf m (v >>> n) ++ bitsOf n v := by
  induction m with
  | zero => rw [Nat.zero_add, bitsOf_zero, List.nil_append]
  | succ m ih =>
    have hindex : m + 1 + n = m + n + 1 := by omega
    rw [hindex, bitsOf, bitsOf, Nat.testBit_shiftRight, ih, Nat.add_comm n m, List.cons_append]

theorem bitsOf_of_lt {n v : Nat} (m : Nat) (h : v < 2 ^ n) :
    bitsOf (m + n) v = List.replicate m false ++ bitsOf n v := by
  have hzeros : ∀ m, bitsOf m 0 = List.replicate m false := by
    intro m
    induction m with
    | zero => rfl
    | succ m ih => rw [bitsOf, Nat.zero_testBit, ih, List.replicate_succ]
  rw [bitsOf_add, Nat.shiftRight_eq_div_pow, Nat.div_eq_of_lt h, hzeros]

theorem ofBits_append (a b : List Bool) : ofBits (a ++ b) = ofBits a * 2 ^ b.length + ofBits b := by
  have hfold : ∀ (b : List Bool) (start : Nat), b.foldl (fun value bit => 2 * value + bit.toNat) start =
      start * 2 ^ b.length + b.foldl (fun value bit => 2 * value + bit.toNat) 0 := by
    intro b
    induction b with
    | nil =>
      intro start; simp
    | cons bit b ih =>
      intro start
      rw [List.foldl_cons, List.foldl_cons, ih, ih (2 * 0 + bit.toNat), List.length_cons, Nat.pow_succ]
      ring
  rw [ofBits, List.foldl_append, hfold]
  rfl

theorem ofBits_bitsOf (n v : Nat) : ofBits (bitsOf n v) = v % 2 ^ n := by
  induction n with
  | zero =>
    rw [Nat.pow_zero, Nat.mod_one]; rfl
  | succ n ih =>
    have hcons : bitsOf (n + 1) v = [v.testBit n] ++ bitsOf n v := rfl
    have hone : ofBits [v.testBit n] = (v.testBit n).toNat := by simp [ofBits]
    rw [hcons, ofBits_append, length_bitsOf, ih, hone, Nat.toNat_testBit, Nat.pow_succ, Nat.mod_mul]
    ring

theorem read_append (n v : Nat) (rest : List Bool) :
    read n (bitsOf n v ++ rest) = some (v % 2 ^ n, rest) := by
  have htake : (bitsOf n v ++ rest).take n = bitsOf n v := List.take_left' (length_bitsOf n v)
  have hdrop : (bitsOf n v ++ rest).drop n = rest := List.drop_left' (length_bitsOf n v)
  rw [read, if_pos (by simp), htake, hdrop, ofBits_bitsOf]

theorem read_of_lt {n v : Nat} (h : v < 2 ^ n) (rest : List Bool) :
    read n (bitsOf n v ++ rest) = some (v, rest) := by
  rw [read_append, Nat.mod_eq_of_lt h]

theorem bitsOfBytes_append (a b : List (BitVec 8)) :
    bitsOfBytes (a ++ b) = bitsOfBytes a ++ bitsOfBytes b :=
  List.flatMap_append

theorem bitsOfBytes_length (bytes : List (BitVec 8)) : (bitsOfBytes bytes).length = 8 * bytes.length := by
  induction bytes with
  | nil => rfl
  | cons byte bytes ih =>
    rw [bitsOfBytes, List.flatMap_cons, List.length_append, length_bitsOf, List.length_cons]
    rw [bitsOfBytes] at ih; omega

end Lib.BitString
