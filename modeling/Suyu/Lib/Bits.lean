/-
  BIT MASKS: the identities a flag word obeys when some of its bits are masked in or out.

  Each is read off bit by bit (`BitVec` extensionality), then used as a rewrite so that no later
  proof has to look inside a word.
-/
import Mathlib.Tactic.Common

namespace Lib.Bits

variable {w : Nat} {x y a m : BitVec w}

theorem or_and_mask_eq_self (h : x ||| m = a ||| m) (ha : a &&& m = 0) : a ||| (x &&& m) = x := by
  ext i hi
  have h1 := congrArg (·.getLsbD i) h
  have h2 := congrArg (·.getLsbD i) ha
  simp only [BitVec.getLsbD_or, BitVec.getLsbD_and, BitVec.ofNat_eq_ofNat, BitVec.getLsbD_zero]
    at h1 h2
  simp only [← BitVec.getLsbD_eq_getElem, BitVec.getLsbD_or, BitVec.getLsbD_and]
  grind

theorem and_not_or_eq_self (h : x &&& m = a) : (x &&& ~~~m) ||| a = x := by
  subst h
  ext i hi
  simp only [BitVec.getElem_or, BitVec.getElem_and, BitVec.getElem_not]
  grind

theorem or_and_of_and_eq_zero (h : y &&& m = 0) : (x ||| y) &&& m = x &&& m := by
  rw [BitVec.and_or_distrib_right, h, BitVec.ofNat_eq_ofNat, BitVec.or_zero]

theorem or_and_of_and_eq_zero' (h : x &&& m = 0) : (x ||| y) &&& m = y &&& m := by
  rw [BitVec.and_or_distrib_right, h, BitVec.ofNat_eq_ofNat, BitVec.zero_or]

theorem and_and_self_right : x &&& m &&& m = x &&& m := by
  rw [BitVec.and_assoc, BitVec.and_self]

theorem or_and_self_right : (x ||| m) &&& m = m := by
  ext i hi
  simp only [BitVec.getElem_or, BitVec.getElem_and]
  grind

theorem and_not_eq_self (h : x &&& m = 0) : x &&& ~~~m = x := by
  have hx := and_not_or_eq_self h
  rw [BitVec.ofNat_eq_ofNat, BitVec.or_zero] at hx
  exact hx

theorem getLsbD_not_allOnes_shiftLeft {n j : Nat} :
    (~~~(BitVec.allOnes w <<< n)).getLsbD j = (decide (j < w) && decide (j < n)) := by
  rw [BitVec.getLsbD_not, BitVec.getLsbD_shiftLeft, BitVec.getLsbD_allOnes]
  by_cases hw : j < w
  · have hsub : j - n < w := by omega
    simp [hw, hsub]
  · simp [hw]

theorem getLsbD_one_shiftLeft {n j : Nat} (hn : n < w) : (1#w <<< n).getLsbD j = decide (j = n) := by
  rw [BitVec.getLsbD_shiftLeft, BitVec.getLsbD_one]
  by_cases hj : j = n
  · subst hj
    simp [hn]
    omega
  · rcases Nat.lt_or_ge j n with h | h
    · simp [h, hj]
    · have : j - n ≠ 0 := by omega
      simp [hj, this]

theorem getLsbD_one_shiftLeft_sub_one {n j : Nat} (hn : n < w) :
    ((1#w <<< n) - 1#w).getLsbD j = decide (j < n) := by
  have hpow : 2 ^ n < 2 ^ w := Nat.pow_lt_pow_right (by omega) hn
  have hone : 1 ≤ 2 ^ n := Nat.one_le_two_pow
  have hw : 1 < 2 ^ w := by omega
  have hmask : ((1#w <<< n) - 1#w).toNat = 2 ^ n - 1 := by
    rw [BitVec.toNat_sub, BitVec.toNat_shiftLeft, BitVec.toNat_ofNat, Nat.mod_eq_of_lt hw,
      Nat.shiftLeft_eq, Nat.one_mul, Nat.mod_eq_of_lt hpow]
    have hsum : 2 ^ w - 1 + 2 ^ n = 2 ^ n - 1 + 2 ^ w := by omega
    rw [hsum, Nat.add_mod_right, Nat.mod_eq_of_lt (by omega)]
  rw [BitVec.getLsbD, hmask, Nat.testBit_two_pow_sub_one]

theorem getLsbD_range_mask {n shift j : Nat} (hn : n < w) (hw : shift + n ≤ w) :
    (((1#w <<< n) - 1#w) <<< shift).getLsbD j = decide (shift ≤ j ∧ j < shift + n) := by
  rw [BitVec.getLsbD_shiftLeft, getLsbD_one_shiftLeft_sub_one hn, Bool.eq_iff_iff]
  simp only [Bool.and_eq_true, Bool.not_eq_true', decide_eq_true_eq, decide_eq_false_iff_not]
  omega

end Lib.Bits
