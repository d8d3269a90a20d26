/-
  Common::impl::BitSet<Storage, N> — a set of small numbers, lowest number in the HIGHEST bit.

  1. **Program** — `bit_set.h`, for every width `w` of `Storage` and every `N`.  Both searches are
     the same scan over the words: it stops at the first word with a bit and counts the zeros above.
  2. **Spec** — `test s i` reads element `i`.  `SetBit`/`ClearBit` change one element;
     `CountLeadingZero` is the least element.
  3. **When it goes wrong** — the mask of `GetNextSet` belongs to the word of `n`, but its condition
     does not depend on the word: LATER words lose the elements at or before `n`'s place too.
  4. **Result** — `getNextSet_isFirst_iff` has the exact condition; a set of ONE word, which is how
     the kernel's ready queue uses it, always meets it (`getNextSet_isFirst`).
-/
import Mathlib.Logic.Function.Basic
import Mathlib.Tactic.Common
import Mathlib.Data.Nat.Basic

namespace Suyu.Common

/-! ## The program -/

structure BitSet (w n : Nat) where
  words : Nat → BitVec w

namespace BitSet

variable {w n : Nat}

/-- `AlignUp(N, FlagsPerWord) / FlagsPerWord`. -/
def numWords (w n : Nat) : Nat := (n + w - 1) / w

def empty : BitSet w n := ⟨fun _ => 0⟩

def getBitMask (w bit : Nat) : BitVec w := 1#w <<< (w - 1 - bit)

def setBit (s : BitSet w n) (i : Nat) : BitSet w n :=
  ⟨Function.update s.words (i / w) (s.words (i / w) ||| getBitMask w (i % w))⟩

def clearBit (s : BitSet w n) (i : Nat) : BitSet w n :=
  ⟨Function.update s.words (i / w) (s.words (i / w) &&& ~~~getBitMask w (i % w))⟩

/-- `countl_zero` of the word widened to 64 bits, less the bits of the widening. -/
def countLeadingZeroImpl (word : BitVec w) : Nat := word.clz.toNat

/-- The loop of both searches, over the word indices still to be visited. -/
def scan (word : Nat → BitVec w) (total : Nat) : List Nat → Nat
  | [] => total
  | i :: is => if word i ≠ 0 then w * i + countLeadingZeroImpl (word i) else scan word total is

def countLeadingZero (s : BitSet w n) : Nat :=
  scan s.words (w * numWords w n) (List.range (numWords w n))

/-- The mask is applied to EVERY word of the loop, not only to the first. -/
def getNextSet (s : BitSet w n) (k : Nat) : Nat :=
  scan (fun i => if (k + 1) % w ≠ 0 then s.words i &&& (getBitMask w (k % w) - 1) else s.words i)
    (w * numWords w n) (List.range' ((k + 1) / w) (numWords w n - (k + 1) / w))

/-! ## Reading elements -/

def test (s : BitSet w n) (i : Nat) : Bool := (s.words (i / w)).getMsbD (i % w)

@[simp] theorem test_empty (i : Nat) : (empty : BitSet w n).test i = false := by
  simp [test, empty]

theorem getMsbD_getBitMask {bit j : Nat} (hb : bit < w) (hj : j < w) :
    (getBitMask w bit).getMsbD j = decide (j = bit) := by
  simp only [getBitMask, BitVec.getMsbD, BitVec.getLsbD_shiftLeft, BitVec.getLsbD_one]
  by_cases h : j = bit
  · subst h
    simp [hj]
    omega
  · have h' : w - 1 - j < w - 1 - bit ∨ ¬ (w - 1 - j - (w - 1 - bit) = 0) := by omega
    rcases h' with h' | h' <;> simp [h, h', hj]

variable {s : BitSet w n} {i j : Nat}

theorem test_setBit (hw : 0 < w) : (s.setBit i).test j = (decide (j = i) || s.test j) := by
  have hi := Nat.mod_lt i hw
  have hj := Nat.mod_lt j hw
  simp only [test, setBit]
  by_cases hd : j / w = i / w
  · have hm : j % w = i % w ↔ j = i := by
      constructor
      · intro h
        rw [← Nat.div_add_mod j w, ← Nat.div_add_mod i w, hd, h]
      · rintro rfl; rfl
    rw [hd, Function.update_self, BitVec.getMsbD_or, getMsbD_getBitMask hi hj, Bool.or_comm,
      decide_eq_decide.2 hm]
  · have hne : j ≠ i := by
      rintro rfl; exact hd rfl
    simp [Function.update_of_ne hd, hne]

theorem test_clearBit (hw : 0 < w) : (s.clearBit i).test j = (decide (j ≠ i) && s.test j) := by
  have hi := Nat.mod_lt i hw
  have hj := Nat.mod_lt j hw
  simp only [test, clearBit]
  by_cases hd : j / w = i / w
  · have hm : j % w = i % w ↔ j = i := by
      constructor
      · intro h
        rw [← Nat.div_add_mod j w, ← Nat.div_add_mod i w, hd, h]
      · rintro rfl; rfl
    rw [hd, Function.update_self, BitVec.getMsbD_and, BitVec.getMsbD_not,
      getMsbD_getBitMask hi hj, Bool.and_comm]
    simp [hj, hm]
  · have hne : j ≠ i := by
      rintro rfl; exact hd rfl
    simp [Function.update_of_ne hd, hne]

/-! ## The searches -/

section Word

variable {word : BitVec w}

theorem countLeadingZeroImpl_lt (hne : word ≠ 0) : countLeadingZeroImpl word < w := by
  have h := BitVec.clz_lt_iff_ne_zero.2 hne
  rw [BitVec.lt_def] at h
  have hw : (BitVec.ofNat w w).toNat ≤ w := by
    rw [BitVec.toNat_ofNat]; exact Nat.mod_le _ _
  exact lt_of_lt_of_le h hw

theorem getMsbD_countLeadingZeroImpl (hne : word ≠ 0) :
    word.getMsbD (countLeadingZeroImpl word) = true := by
  have hlt := countLeadingZeroImpl_lt hne
  have h := BitVec.getLsbD_true_clz_of_ne_zero (by omega) hne
  simp only [BitVec.getMsbD, countLeadingZeroImpl] at hlt ⊢
  simp [hlt, h]

theorem getMsbD_of_lt_countLeadingZeroImpl (h : j < countLeadingZeroImpl word) :
    word.getMsbD j = false := by
  have hlt := BitVec.toNat_lt_two_pow_sub_clz (x := word)
  rw [BitVec.getMsbD]
  simp only [Bool.and_eq_false_imp, decide_eq_true_eq]
  intro hj
  refine Nat.testBit_lt_two_pow (lt_of_lt_of_le hlt (Nat.pow_le_pow_right (by omega) ?_))
  unfold countLeadingZeroImpl at h
  omega

end Word

/-- What a search among the elements `lo ≤ j < hi` returns: the least one, or `total`. -/
structure IsFirst (p : Nat → Bool) (lo hi total r : Nat) : Prop where
  ge : r = total ∨ (lo ≤ r ∧ r < hi ∧ p r = true)
  before : ∀ j, lo ≤ j → j < hi → j < r → p j = false
  last : r = total → ∀ j, lo ≤ j → j < hi → p j = false

theorem scan_isFirst (word : Nat → BitVec w) (total k a : Nat) (ht : w * (a + k) ≤ total) :
    IsFirst (fun j => (word (j / w)).getMsbD (j % w)) (w * a) (w * (a + k)) total
      (scan word total (List.range' a k)) := by
  induction k generalizing a with
  | zero =>
    rw [Nat.add_zero]
    refine ⟨.inl rfl, ?_, ?_⟩ <;> intros <;> omega
  | succ k ih =>
    rw [List.range'_succ, scan]
    have hsplit : ∀ j, w * a ≤ j → j < w * (a + 1) → j / w = a ∧ j % w = j - w * a := by
      intro j h1 h2
      have hdiv : j / w = a := by
        rw [Nat.div_eq_iff (by by_contra h0; simp at h0; subst h0; omega)]
        rw [Nat.mul_add, Nat.mul_one] at h2
        rw [Nat.mul_comm a w]; omega
      exact ⟨hdiv, by rw [Nat.mod_def, hdiv]⟩
    have hle : w * (a + 1) ≤ w * (a + (k + 1)) := Nat.mul_le_mul_left _ (by omega)
    split
    · rename_i hne
      have hlt := countLeadingZeroImpl_lt hne
      have hr := hsplit (w * a + countLeadingZeroImpl (word a)) (by omega)
        (by rw [Nat.mul_add]; omega)
      rw [Nat.mul_add w a 1] at hle
      refine ⟨.inr ⟨by omega, by omega, ?_⟩, ?_, fun h => by omega⟩
      · show (word _).getMsbD _ = true
        rw [hr.1, hr.2, Nat.add_sub_cancel_left]
        exact getMsbD_countLeadingZeroImpl hne
      · intro j h1 h2 h3
        obtain ⟨hd, hm⟩ := hsplit j h1 (by rw [Nat.mul_add]; omega)
        show (word _).getMsbD _ = false
        rw [hd, hm]; exact getMsbD_of_lt_countLeadingZeroImpl (by omega)
    · rename_i hzero
      have hz : word a = 0 := by simpa using hzero
      have hzero : ∀ j, w * a ≤ j → j < w * (a + 1) → (word (j / w)).getMsbD (j % w) = false := by
        intro j h1 h2
        rw [(hsplit j h1 h2).1, hz]; simp
      have hs : a + 1 + k = a + (k + 1) := by omega
      have hrec := ih (a + 1) (by rw [hs]; exact ht)
      rw [hs] at hrec
      have hmono : w * a ≤ w * (a + 1) := Nat.mul_le_mul_left _ (by omega)
      refine ⟨hrec.ge.imp id fun h => ⟨by omega, h.2⟩, ?_, ?_⟩
      · intro j h1 h2 h3
        rcases Nat.lt_or_ge j (w * (a + 1)) with h | h
        · exact hzero j h1 h
        · exact hrec.before j h h2 h3
      · intro heq j h1 h2
        rcases Nat.lt_or_ge j (w * (a + 1)) with h | h
        · exact hzero j h1 h
        · exact hrec.last heq j h h2

theorem countLeadingZero_isFirst (s : BitSet w n) :
    IsFirst s.test 0 (w * numWords w n) (w * numWords w n) s.countLeadingZero := by
  have h := scan_isFirst s.words (w * numWords w n) (numWords w n) 0 (by rw [Nat.zero_add])
  rw [Nat.zero_add, Nat.mul_zero, ← List.range_eq_range'] at h
  exact h

theorem getMsbD_and_getBitMask_sub_one {word : BitVec w} {k : Nat} (hk : k < w) (hj : j < w) :
    (word &&& (getBitMask w k - 1)).getMsbD j = (word.getMsbD j && decide (k < j)) := by
  have hone : getBitMask w k = BitVec.twoPow w (w - 1 - k) := by
    rw [getBitMask, BitVec.twoPow_eq]
  have hbit : (getBitMask w k - 1).toNat = 2 ^ (w - 1 - k) - 1 := by
    have hp : 2 ^ (w - 1 - k) < 2 ^ w := Nat.pow_lt_pow_right (by omega) (by omega)
    have hpos := Nat.two_pow_pos (w - 1 - k)
    have hle : (1 : BitVec w) ≤ getBitMask w k := by
      rw [hone, BitVec.le_def, BitVec.toNat_twoPow, Nat.mod_eq_of_lt hp]
      have : (1 : BitVec w).toNat ≤ 1 := Nat.mod_le _ _
      omega
    rw [BitVec.toNat_sub_of_le hle, hone, BitVec.toNat_twoPow, Nat.mod_eq_of_lt hp]
    congr 1; exact Nat.mod_eq_of_lt (Nat.one_lt_two_pow (by omega))
  rw [BitVec.getMsbD_and]
  congr 1
  rw [BitVec.getMsbD, BitVec.getLsbD, hbit, Nat.testBit_two_pow_sub_one]
  simp only [hj, decide_true, Bool.true_and, decide_eq_decide]
  omega

theorem getNextSet_seen (s : BitSet w n) {k : Nat} (hw : 0 < w) (hk : k < w * numWords w n) :
    IsFirst (fun j => s.test j && decide ((k + 1) % w = 0 ∨ k % w < j % w)) (w * ((k + 1) / w))
      (w * numWords w n) (w * numWords w n) (s.getNextSet k) := by
  have hle : (k + 1) / w ≤ numWords w n := Nat.div_le_of_le_mul (by omega)
  have hstop : (k + 1) / w + (numWords w n - (k + 1) / w) = numWords w n := by omega
  have h := scan_isFirst
    (fun i => if (k + 1) % w ≠ 0 then s.words i &&& (getBitMask w (k % w) - 1) else s.words i)
    (w * numWords w n) (numWords w n - (k + 1) / w) ((k + 1) / w) (by rw [hstop])
  rw [hstop] at h
  have hmask : ∀ j, (if (k + 1) % w ≠ 0 then s.words (j / w) &&& (getBitMask w (k % w) - 1)
      else s.words (j / w)).getMsbD (j % w) =
      (s.test j && decide ((k + 1) % w = 0 ∨ k % w < j % w)) := by
    intro j
    split
    · next hne =>
      rw [getMsbD_and_getBitMask_sub_one (Nat.mod_lt _ hw) (Nat.mod_lt _ hw)]
      simp [test, hne]
    · next heq =>
      rw [not_not] at heq; simp [test, heq]
  simp only [hmask] at h
  exact h

/-- The next element above `k` is in the word of `k`, or behind `k`'s place in its own word. -/
def NextVisible (s : BitSet w n) (k : Nat) : Prop :=
  (k + 1) % w = 0 ∨ ∀ m < w * numWords w n, s.test m = true → k < m → m / w ≠ k / w → m % w ≤ k % w →
    ∃ l, s.test l = true ∧ k < l ∧ l < m

theorem lt_of_place_lt (hw : 0 < w) {k r : Nat} (hlo : w * (k / w) ≤ r) (h : k % w < r % w) : k < r := by
  have hdiv : k / w ≤ r / w := (Nat.le_div_iff_mul_le hw).2 (by rwa [Nat.mul_comm] at hlo)
  have hmul : w * (k / w) ≤ w * (r / w) := Nat.mul_le_mul_left w hdiv
  have hk := Nat.div_add_mod k w
  have hr := Nat.div_add_mod r w
  omega

theorem NextVisible.seen {k : Nat} (h : s.NextVisible k) (haligned : (k + 1) % w ≠ 0) :
    ∀ m < w * numWords w n, s.test m = true → k < m →
      ∃ l, s.test l = true ∧ k < l ∧ l ≤ m ∧ k % w < l % w := by
  intro m
  induction m using Nat.strong_induction_on with
  | _ m ih =>
    intro hm hmem hkm
    by_cases hplace : k % w < m % w
    · exact ⟨m, hmem, hkm, le_rfl, hplace⟩
    · have hd : m / w ≠ k / w := by
        intro hd
        have h₁ := Nat.div_add_mod m w
        have h₂ := Nat.div_add_mod k w
        rw [hd] at h₁; omega
      obtain ⟨l, hl, hkl, hlm⟩ := h.resolve_left haligned m hm hmem hkm hd (by omega)
      obtain ⟨i, hi, hki, hil, hiplace⟩ := ih l hlm (by omega) hl hkl
      exact ⟨i, hi, hki, by omega, hiplace⟩

/-- **`GetNextSet` finds the next element exactly where it is visible.** -/
theorem getNextSet_isFirst_iff (s : BitSet w n) {k : Nat} (hw : 0 < w) (hk : k < w * numWords w n) :
    IsFirst s.test (k + 1) (w * numWords w n) (w * numWords w n) (s.getNextSet k) ↔ s.NextVisible k := by
  have hseen := getNextSet_seen s hw hk
  by_cases haligned : (k + 1) % w = 0
  · have hlo : w * ((k + 1) / w) = k + 1 := Nat.mul_div_cancel' (Nat.dvd_of_mod_eq_zero haligned)
    simp only [haligned, true_or, decide_true, Bool.and_true, hlo] at hseen
    exact iff_of_true hseen (Or.inl haligned)
  · have hword : (k + 1) / w = k / w := by
      rw [Nat.succ_div, if_neg fun h => haligned (Nat.mod_eq_zero_of_dvd h), Nat.add_zero]
    have hstart : w * (k / w) ≤ k := Nat.mul_div_le k w
    simp only [haligned, false_or, hword] at hseen
    constructor
    · intro hfirst
      refine Or.inr fun m hm hmem hkm _ hplace => ?_
      rcases hseen.ge with hend | ⟨hlo, hhi, hp⟩
      · exact absurd hmem (Bool.not_eq_true _ ▸ hfirst.last hend m hkm hm)
      · -- the element found is a place behind `k`, and `m` is not
        rw [Bool.and_eq_true, decide_eq_true_eq] at hp
        refine ⟨_, hp.1, lt_of_place_lt hw hlo hp.2, ?_⟩
        by_contra hge
        rcases Nat.lt_or_eq_of_le (Nat.not_lt.1 hge) with hlt | heq
        · exact absurd hmem (Bool.not_eq_true _ ▸ hfirst.before m hkm hm hlt)
        · rw [← heq] at hp; omega
    · intro hvisible
      refine ⟨?_, ?_, ?_⟩
      · rcases hseen.ge with hend | ⟨hlo, hhi, hp⟩
        · exact Or.inl hend
        · rw [Bool.and_eq_true, decide_eq_true_eq] at hp
          exact Or.inr ⟨lt_of_place_lt hw hlo hp.2, hhi, hp.1⟩
      · intro j hlo hhi hj
        by_contra hmem
        obtain ⟨l, hl, hkl, hlj, hplace⟩ := hvisible.seen haligned j hhi (by simpa using hmem) hlo
        have := hseen.before l (by omega) (by omega) (by omega)
        simp [hl, hplace] at this
      · intro hend j hlo hhi
        by_contra hmem
        obtain ⟨l, hl, hkl, hlj, hplace⟩ := hvisible.seen haligned j hhi (by simpa using hmem) hlo
        have := hseen.last hend l (by omega) (by omega)
        simp [hl, hplace] at this

theorem getNextSet_isFirst (s : BitSet w n) {k : Nat} (hn : numWords w n = 1) (hk : k < w) :
    IsFirst s.test (k + 1) w w (s.getNextSet k) := by
  have h := getNextSet_isFirst_iff s (k := k) (by omega) (by rwa [hn, Nat.mul_one])
  rw [hn, Nat.mul_one] at h
  refine h.2 (Or.inr fun m hm _ _ hd _ => ?_)
  rw [hn, Nat.mul_one] at hm
  rw [Nat.div_eq_of_lt hm, Nat.div_eq_of_lt hk] at hd
  exact absurd rfl hd

/-! ## Both searches -/

theorem le_mul_numWords (hw : 0 < w) (n : Nat) : n ≤ w * numWords w n := by
  have h := Nat.div_add_mod (n + w - 1) w
  have hlt := Nat.mod_lt (n + w - 1) hw
  rw [numWords]
  omega

/-- The source counts in the word widened to 64 bits and takes the widening off again. -/
theorem countLeadingZeroImpl_widened (hw : w ≤ 64) {word : BitVec w} (hne : word ≠ 0) :
    countLeadingZeroImpl word = (word.setWidth 64).clz.toNat - (64 - w) := by
  have hvalue : (word.setWidth 64).toNat = word.toNat := BitVec.toNat_setWidth_of_le hw
  have hwide : word.setWidth 64 ≠ 0 := by
    intro h
    refine hne (BitVec.eq_of_toNat_eq ?_)
    rw [← hvalue, h]; rfl
  have hlt : word.clz.toNat < w := countLeadingZeroImpl_lt hne
  have hlt' : (word.setWidth 64).clz.toNat < 64 := countLeadingZeroImpl_lt hwide
  have hlow := BitVec.two_pow_sub_clz_le_toNat_of_ne_zero (by omega) hne
  have hlow' := BitVec.two_pow_sub_clz_le_toNat_of_ne_zero (by omega) hwide
  have hhigh := BitVec.toNat_lt_two_pow_sub_clz (x := word)
  have hhigh' := BitVec.toNat_lt_two_pow_sub_clz (x := word.setWidth 64)
  rw [hvalue] at hlow' hhigh'
  -- one value lies between only one power of two and the next
  have h := (Nat.pow_lt_pow_iff_right Nat.one_lt_two).mp (Nat.lt_of_le_of_lt hlow hhigh')
  have h' := (Nat.pow_lt_pow_iff_right Nat.one_lt_two).mp (Nat.lt_of_le_of_lt hlow' hhigh)
  rw [countLeadingZeroImpl]
  omega

/-- **The two searches** over the elements that were set: `CountLeadingZero` finds the least, and
    `GetNextSet` the next one exactly where it is visible. -/
theorem searches_first_iff (hw : 0 < w) (s : BitSet w n) :
    (∀ i j, (s.setBit i).test j = (decide (j = i) || s.test j)) ∧
    IsFirst s.test 0 (w * numWords w n) (w * numWords w n) s.countLeadingZero ∧
    ∀ k < n, IsFirst s.test (k + 1) (w * numWords w n) (w * numWords w n) (s.getNextSet k) ↔
      s.NextVisible k :=
  ⟨fun _ _ => test_setBit hw, countLeadingZero_isFirst s,
    fun _ hk => getNextSet_isFirst_iff s hw (lt_of_lt_of_le hk (le_mul_numWords hw n))⟩

/-- Elements 5 and 70 of 128. -/
def twoElements : BitSet 64 128 := (empty.setBit 5).setBit 70

theorem searches_first_iff_twoElements : twoElements.NextVisible 5 :=
  ((searches_first_iff (by decide) twoElements).2.2 5 (by decide)).1
    { ge := Or.inr (by decide +kernel)
      before := fun j hlo _ hj => (by decide +kernel : ∀ j < 70, 6 ≤ j → twoElements.test j = false) j
        (lt_of_lt_of_eq hj (by decide +kernel)) hlo
      last := fun h => absurd h (by decide +kernel) }

/-- Above 6 the search does not see 67, at place 3 of the second word. -/
theorem not_getNextSet_isFirst : ¬ ∀ (w n : Nat) (s : BitSet w n), 0 < w → w ≤ 64 → ∀ k < n,
    IsFirst s.test (k + 1) (w * numWords w n) (w * numWords w n) (s.getNextSet k) := by
  intro h
  have hfirst := h 64 128 (empty.setBit 67) (by decide) (by decide) 6 (by decide)
  exact absurd (hfirst.last (by decide +kernel) 67 (by decide) (by decide)) (by decide +kernel)

end BitSet

end Suyu.Common
