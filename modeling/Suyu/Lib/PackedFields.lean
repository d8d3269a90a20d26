/-
  PACKED FIELDS: an array of small fields kept several to a 64-bit word.

  Field `i` of width `w` sits in word `i / n`, at bit `w * (i % n)`.  It is read by shifting down and
  masking, and written by clearing its bits and putting the new ones in.

  * `get_set_self`, `get_set_of_ne` — writing one field changes that field and no other.
-/
import Mathlib

namespace Lib.PackedFields

variable {n w : Nat}

/-- The bits of one field, in place. -/
def mask (w : Nat) : BitVec 64 := BitVec.ofNat 64 (2 ^ w - 1)

def get (n w : Nat) (words : Nat → BitVec 64) (i : Nat) : BitVec 64 :=
  (words (i / n) >>> (w * (i % n))) &&& mask w

def set (n w : Nat) (words : Nat → BitVec 64) (i : Nat) (v : BitVec 64) : Nat → BitVec 64 :=
  Function.update words (i / n)
    ((~~~(mask w <<< (w * (i % n))) &&& words (i / n)) ||| (v <<< (w * (i % n))))

theorem getLsbD_mask (k : Nat) : (mask w).getLsbD k = (decide (k < 64) && decide (k < w)) := by
  unfold mask
  rw [BitVec.getLsbD_ofNat, Nat.testBit_two_pow_sub_one]

theorem field_le {i j : Nat} (h : i < j) : w * i + w ≤ w * j := by
  calc w * i + w = w * (i + 1) := by rw [Nat.mul_add, Nat.mul_one]
    _ ≤ w * j := Nat.mul_le_mul_left w h

theorem get_set_self (words : Nat → BitVec 64) {i : Nat} {v : BitVec 64} (hn : 0 < n)
    (hw : n * w ≤ 64) (hv : v &&& mask w = v) : get n w (set n w words i v) i = v := by
  have hfit : w * (i % n) + w ≤ 64 :=
    Nat.le_trans (field_le (Nat.mod_lt i hn)) (Nat.mul_comm n w ▸ hw)
  unfold get set
  rw [Function.update_self]
  apply BitVec.eq_of_getLsbD_eq
  intro k hk
  have hvk : (v.getLsbD k && (decide (k < 64) && decide (k < w))) = v.getLsbD k := by
    rw [← getLsbD_mask, ← BitVec.getLsbD_and, hv]
  simp only [BitVec.getLsbD_and, BitVec.getLsbD_ushiftRight, BitVec.getLsbD_or,
    BitVec.getLsbD_not, BitVec.getLsbD_shiftLeft, getLsbD_mask]
  by_cases hkw : k < w
  · have h1 : w * (i % n) + k < 64 := by omega
    have h2 : ¬ w * (i % n) + k < w * (i % n) := by omega
    have h3 : w * (i % n) + k - w * (i % n) = k := by omega
    simp [h1, h2, h3, hk, hkw]
  · rw [← hvk]; simp [hkw]

theorem get_set_of_ne (words : Nat → BitVec 64) {i j : Nat} {v : BitVec 64} (hn : 0 < n)
    (hw : n * w ≤ 64) (hv : v &&& mask w = v) (hij : i ≠ j) :
    get n w (set n w words i v) j = get n w words j := by
  unfold get set
  by_cases hword : j / n = i / n
  · rw [hword, Function.update_self]
    -- another field of the same word: the two do not overlap
    have hne : i % n ≠ j % n := by
      intro hmod
      apply hij
      rw [← Nat.div_add_mod i n, ← Nat.div_add_mod j n, hmod, hword]
    have hfit : w * (j % n) + w ≤ 64 :=
      Nat.le_trans (field_le (Nat.mod_lt j hn)) (Nat.mul_comm n w ▸ hw)
    have hapart : w * (i % n) + w ≤ w * (j % n) ∨ w * (j % n) + w ≤ w * (i % n) := by
      rcases Nat.lt_or_gt_of_ne hne with h | h
      · exact Or.inl (field_le h)
      · exact Or.inr (field_le h)
    apply BitVec.eq_of_getLsbD_eq
    intro k hk
    simp only [BitVec.getLsbD_and, BitVec.getLsbD_ushiftRight, BitVec.getLsbD_or,
      BitVec.getLsbD_not, BitVec.getLsbD_shiftLeft, getLsbD_mask]
    by_cases hkw : k < w
    · have hin : w * (j % n) + k < 64 := by omega
      rcases hapart with h | h
      · -- the written field lies below: its bits have run out
        have h1 : ¬ w * (j % n) + k < w * (i % n) := by omega
        have h2 : ¬ w * (j % n) + k - w * (i % n) < w := by omega
        have hvz : v.getLsbD (w * (j % n) + k - w * (i % n)) = false := by
          rw [← hv, BitVec.getLsbD_and, getLsbD_mask]; simp [h2]
        simp [hin, h1, h2, hvz, hk, hkw]
      · have h1 : w * (j % n) + k < w * (i % n) := by omega
        simp [hin, h1, hk, hkw]
    · simp [hkw]
  · rw [Function.update_of_ne hword]

end Lib.PackedFields
