import Mathlib
import Suyu.Kernel.PageHeapStorage

/-
  KPageBitmap over whole runs: the levels, `ClearRange` of every size, and the two searches.

  1. **Program** - `k_page_bitmap.h`, as `PageBitmap` has it and `FindFreeRange` of `DynamicPageManager`.

  2. **Specification (`Exact`)** - in the state after any calls every summary bit is right, `m_num_bits`
     counts the bits, `ClearRange` clears a range that is set as a whole and otherwise nothing, and both
     searches find what is there.

  3. **The crux (`clearWords_represents`)** - a large range is cleared word by word, each of which is a
     word that loses all its bits (`Represents.clearWord`).

  4. **When it goes wrong** - `FindFreeRange(64)` shifts a word by 64, and machines then shift by 0: the
     mask is empty and every word has the range.  A bitmap without bits has no word that `FindFreeBlock`
     could read.
-/

namespace Suyu.Kernel.KPageBitmap

open Finset

variable {T : Type} {b : KPageBitmap T} {S : Finset Nat} {size : Nat}

/-! ## Clearing whole words -/

/-- **Clearing words takes out their range.** -/
theorem clearWords_represents {n ind : Nat} (h : b.Represents S)
    (hall : Ico (ind * 64) ((ind + n) * 64) ⊆ S) :
    Represents
      { b with
        bitStorages := clearWords (b.usedDepths - 1) n ind b.bitStorages
        numBits := b.numBits - n * 64 } (S \ Ico (ind * 64) ((ind + n) * 64)) := by
  induction n generalizing b ind S with
  | zero =>
    rw [Nat.add_zero, Ico_self, sdiff_empty]
    exact ⟨h.depth_pos, h.summary, h.bit_iff, h.lt_pow, h.numBits_eq⟩
  | succ n ih =>
    have hword : Ico (ind * 64) ((ind + 1) * 64) ⊆ S := fun i hi => hall (by
      rw [mem_Ico] at hi ⊢; omega)
    have hcard : b.numBits - 64 = (S \ Ico (ind * 64) ((ind + 1) * 64)).card := by
      rw [card_sdiff_of_subset hword, Nat.card_Ico, h.numBits_eq]; omega
    -- the first word loses all its bits
    have hfirst := @Represents.clearWord T ind 0 b S (S \ Ico (ind * 64) ((ind + 1) * 64)) 64 h
      (fun j hj => by simp at hj) (fun j => by
        rw [mem_sdiff, mem_Ico]
        split
        · next hj => simp; omega
        · next hj => exact ⟨fun hm => hm.1, fun hm => ⟨hm, by omega⟩⟩) hcard
    have hrest := @ih _ _ (ind + 1) hfirst (fun i hi => by
      rw [mem_Ico] at hi
      rw [mem_sdiff, mem_Ico]; exact ⟨hall (by rw [mem_Ico]; omega), by omega⟩)
    have hset : (S \ Ico (ind * 64) ((ind + 1) * 64)) \ Ico ((ind + 1) * 64) ((ind + 1 + n) * 64) =
        S \ Ico (ind * 64) ((ind + (n + 1)) * 64) := by
      ext i
      simp only [mem_sdiff, mem_Ico, and_assoc]; exact and_congr_right fun _ => by omega
    have hbits : b.numBits - 64 - n * 64 = b.numBits - (n + 1) * 64 := by omega
    rw [hset] at hrest
    simp only [KPageBitmap.clearWord, if_true, hbits] at hrest; exact hrest

theorem Represents.clearRange_words {offset count : Nat} (h : b.Represents S) (hcount : ¬ count < 64)
    (hoffset : 64 ∣ offset) (hwhole : 64 ∣ count) :
    (Ico offset (offset + count) ⊆ S →
      (b.clearRange offset count).1 = true ∧
      (b.clearRange offset count).2.Represents (S \ Ico offset (offset + count))) ∧
    (¬ Ico offset (offset + count) ⊆ S → b.clearRange offset count = (false, b)) := by
  obtain ⟨ind, rfl⟩ := hoffset
  obtain ⟨n, rfl⟩ := hwhole
  have hind : 64 * ind / 64 = ind := Nat.mul_div_cancel_left _ (by decide)
  have hn : 64 * n / 64 = n := Nat.mul_div_cancel_left _ (by decide)
  have hend : 64 * ind + 64 * n = (ind + n) * 64 := by omega
  have hstart : 64 * ind = ind * 64 := Nat.mul_comm _ _
  have hfull : ((List.range n).any fun i =>
      b.bitStorages (b.usedDepths - 1) (ind + i) != BitVec.allOnes 64) = true ↔
      ¬ Ico (ind * 64) ((ind + n) * 64) ⊆ S := by
    rw [List.any_eq_true]
    constructor
    · rintro ⟨i, hi, hne⟩ hsub
      rw [bne_iff_ne] at hne
      refine hne (BitVec.eq_of_getLsbD_eq fun j hj => ?_)
      have hmem : (ind + i) * 64 + j ∈ S := hsub (by
        rw [List.mem_range] at hi
        rw [mem_Ico]; omega)
      rw [← h.bit_iff, bitAt, show ((ind + i) * 64 + j) / 64 = ind + i by omega,
        show ((ind + i) * 64 + j) % 64 = j by omega] at hmem
      rw [hmem, BitVec.getLsbD_allOnes, decide_eq_true hj]
    · intro hsub
      by_contra hno
      push Not at hno
      refine hsub fun j hj => ?_
      rw [mem_Ico] at hj
      have hones := hno (j / 64 - ind) (List.mem_range.2 (by omega))
      rw [ne_eq, bne_iff_ne, not_not, show ind + (j / 64 - ind) = j / 64 by omega] at hones
      rw [← h.bit_iff, bitAt, hones, BitVec.getLsbD_allOnes]
      exact decide_eq_true (Nat.mod_lt _ (by decide))
  rw [KPageBitmap.clearRange]
  dsimp only
  rw [if_neg hcount, hind, hn, hend, hstart, ← Nat.mul_comm n 64]
  constructor
  · intro hsub
    rw [if_neg fun hany => hfull.1 hany hsub]
    exact ⟨rfl, clearWords_represents h hsub⟩
  · intro hsub
    rw [if_pos (hfull.2 hsub)]

theorem Represents.clearRange_pow {offset k : Nat} (h : b.Represents S) (hoffset : 2 ^ k ∣ offset) :
    (Ico offset (offset + 2 ^ k) ⊆ S →
      (b.clearRange offset (2 ^ k)).1 = true ∧
      (b.clearRange offset (2 ^ k)).2.Represents (S \ Ico offset (offset + 2 ^ k))) ∧
    (¬ Ico offset (offset + 2 ^ k) ⊆ S → b.clearRange offset (2 ^ k) = (false, b)) := by
  rcases Nat.lt_or_ge k 6 with hk | hk
  · have hdvd : 2 ^ k ∣ 64 := Nat.pow_dvd_pow 2 (by omega : k ≤ 6)
    have hlt : 2 ^ k < 64 := Nat.pow_lt_pow_right (by decide) hk
    refine h.clearRange hlt ?_
    -- the range ends at a multiple of its length, as the word does
    obtain ⟨m, hm⟩ := (Nat.dvd_mod_iff hdvd).2 hoffset
    obtain ⟨r, hr⟩ := hdvd
    have hmod := Nat.mod_lt offset (by decide : 0 < 64)
    rw [hm, hr] at hmod
    have hle : 2 ^ k * (m + 1) ≤ 2 ^ k * r := Nat.mul_le_mul_left _ (Nat.lt_of_mul_lt_mul_left hmod)
    rw [hm, hr, ← Nat.mul_succ]
    exact hle
  · have hdvd : 64 ∣ 2 ^ k := Nat.pow_dvd_pow 2 hk
    exact h.clearRange_words (Nat.not_lt.2 (Nat.le_of_dvd (Nat.two_pow_pos k) hdvd)) (hdvd.trans hoffset) hdvd

/-! ## Runs -/

/-- A bit of the last level. -/
def bitSet (b : KPageBitmap T) (i : Nat) : Bool := bitAt b.bitStorages (b.usedDepths - 1) i

/-- The words of the last level, `m_end_storages` less `m_bit_storages`. -/
def lastWords (size : Nat) : Nat := alignUp size 64 / 64

/-- The states that calls lead to after `Initialize(size)`. -/
inductive Run [TinyMT T] (size : Nat) : KPageBitmap T → Prop
  | initialized (b : KPageBitmap T) : Run size (b.init size)
  | setBit {b : KPageBitmap T} {i : Nat} : Run size b → i < size → b.bitSet i = false → Run size (b.setBit i)
  | clearBit {b : KPageBitmap T} {i : Nat} : Run size b → b.bitSet i = true → Run size (b.clearBit i)
  | clearRange {b : KPageBitmap T} {offset k : Nat} : Run size b → 2 ^ k ∣ offset →
      offset + 2 ^ k ≤ alignUp size 64 → Run size (b.clearRange offset (2 ^ k)).2
  | findFreeBlock {b : KPageBitmap T} (random : Bool) : Run size b → Run size (b.findFreeBlock random).2
  | findFreeRange {b : KPageBitmap T} (count : Nat) : Run size b →
      Run size (b.findFreeRange (lastWords size) count).2

/-- What is exact in a state. -/
structure Exact [TinyMT T] (size : Nat) (b : KPageBitmap T) : Prop where
  depths_le : b.usedDepths ≤ 4
  levels : ∀ d, d + 1 < b.usedDepths → ∀ i, bitAt b.bitStorages d i = true ↔ b.bitStorages (d + 1) i ≠ 0
  inside : ∀ i, b.bitSet i = true → i < size
  numBits : b.numBits = ((range size).filter fun i => b.bitSet i = true).card
  clearRange : ∀ offset k, 2 ^ k ∣ offset → offset + 2 ^ k ≤ alignUp size 64 →
    ((∀ i ∈ Ico offset (offset + 2 ^ k), b.bitSet i = true) → (b.clearRange offset (2 ^ k)).1 = true ∧
      ∀ i, (b.clearRange offset (2 ^ k)).2.bitSet i = true ↔
        b.bitSet i = true ∧ i ∉ Ico offset (offset + 2 ^ k)) ∧
    ((¬ ∀ i ∈ Ico offset (offset + 2 ^ k), b.bitSet i = true) → b.clearRange offset (2 ^ k) = (false, b))
  findFreeBlock : 0 < size → ∀ random,
    ((b.findFreeBlock random).1 = -1 ∧ ∀ i, b.bitSet i = false) ∨
      ∃ i : Nat, i < size ∧ b.bitSet i = true ∧ (b.findFreeBlock random).1 = (i : Int)
  findFreeRange : ∀ count, 0 < count → count < 64 →
    ((b.findFreeRange (lastWords size) count).1 = -1 ∧
      ∀ o, ¬ FreeOffset (b.bitStorages (b.usedDepths - 1)) count o) ∨
    ∃ o : Nat, (b.findFreeRange (lastWords size) count).1 = (o : Int) ∧
      FreeOffset (b.bitStorages (b.usedDepths - 1)) count o

section

variable [TinyMT T]

theorem Run.usedDepths_eq (h : Run size b) : b.usedDepths = getRequiredDepth size := by
  induction h with
  | initialized b => rfl
  | setBit h hi hbit ih => exact ih
  | clearBit h hbit ih => exact ih
  | clearRange h hdvd hfit ih => rw [KDynamicPageManager.usedDepths_clearRange, ih]
  | findFreeBlock random h ih => exact ih
  | findFreeRange count h ih => rw [KDynamicPageManager.usedDepths_findFreeRange, ih]

theorem Run.represents (h : Run size b) : ∃ S ⊆ range size, b.Represents S := by
  induction h with
  | initialized b => exact ⟨∅, empty_subset _, represents_init b size⟩
  | @setBit b i h hi hbit ih =>
    obtain ⟨S, hS, hb⟩ := ih
    have hmem : i ∉ S := fun hm => by
      rw [← hb.bit_iff, ← bitSet, hbit] at hm; cases hm
    refine ⟨insert i S, insert_subset (mem_range.2 hi) hS, hb.setBit hmem ?_⟩
    rw [h.usedDepths_eq]; exact hi.trans (lt_pow_getRequiredDepth size)
  | @clearBit b i h hbit ih =>
    obtain ⟨S, hS, hb⟩ := ih
    exact ⟨S.erase i, (erase_subset _ _).trans hS, hb.clearBit ((hb.bit_iff i).1 hbit)⟩
  | @clearRange b offset k h hdvd hfit ih =>
    obtain ⟨S, hS, hb⟩ := ih
    by_cases hsub : Ico offset (offset + 2 ^ k) ⊆ S
    · exact ⟨_, sdiff_subset.trans hS, ((hb.clearRange_pow hdvd).1 hsub).2⟩
    · rw [(hb.clearRange_pow hdvd).2 hsub]; exact ⟨S, hS, hb⟩
  | findFreeBlock random h ih =>
    obtain ⟨S, hS, hb⟩ := ih; exact ⟨S, hS, (hb.findFreeBlock random).1⟩
  | findFreeRange count h ih =>
    obtain ⟨S, hS, hb⟩ := ih
    refine ⟨S, hS, ?_⟩
    unfold KPageBitmap.findFreeRange
    split
    · exact hb
    · exact ⟨hb.depth_pos, hb.summary, hb.bit_iff, hb.lt_pow, hb.numBits_eq⟩

/-- **The bitmap is exact in every state.** -/
theorem pageBitmap_exact_of_run (hsize : size < 64 ^ 4) (h : Run size b) : Exact size b := by
  obtain ⟨S, hS, hb⟩ := h.represents
  have hset : ∀ i, b.bitSet i = true ↔ i ∈ S := hb.bit_iff
  have hrange : ∀ offset k, (∀ i ∈ Ico offset (offset + 2 ^ k), b.bitSet i = true) ↔
      Ico offset (offset + 2 ^ k) ⊆ S :=
    fun offset k => forall₂_congr fun i _ => hset i
  exact
    { depths_le := by
        rw [h.usedDepths_eq]
        exact (getRequiredDepth_mono (Nat.le_pred_of_lt hsize)).trans (by decide)
      levels := fun d hd => hb.summary d (by omega)
      inside := fun i hi => mem_range.1 (hS ((hset i).1 hi))
      numBits := by
        rw [hb.numBits_eq]
        congr 1
        ext i
        rw [mem_filter, hset]; exact ⟨fun hi => ⟨hS hi, hi⟩, fun hi => hi.2⟩
      clearRange := fun offset k hdvd _ => by
        rw [hrange]
        obtain ⟨hyes, hno⟩ := hb.clearRange_pow (k := k) hdvd
        refine ⟨fun hsub => ⟨(hyes hsub).1, fun i => ?_⟩, hno⟩
        rw [hset, bitSet, (hyes hsub).2.bit_iff, mem_sdiff]
      findFreeBlock := fun _ random => by
        rcases (hb.findFreeBlock random).2 with ⟨hnone, rfl⟩ | ⟨i, hi, hfound⟩
        · exact Or.inl ⟨hnone, fun i => by rw [← Bool.not_eq_true, hset]; exact notMem_empty i⟩
        · exact Or.inr ⟨i, mem_range.1 (hS hi), (hset i).2 hi, hfound⟩
      findFreeRange := fun count hpos hcount => by
        have hin : ∀ o, FreeOffset (b.bitStorages (b.usedDepths - 1)) count o → o < lastWords size * 64 := by
          intro o ho
          have hbit : bitAt b.bitStorages (b.usedDepths - 1) o = true := ho.set 0 hpos
          have hlt := mem_range.1 (hS ((hb.bit_iff o).1 hbit))
          rw [lastWords, alignUp]
          split <;> omega
        rcases Nat.eq_zero_or_pos (lastWords size) with hzero | hwords
        · refine Or.inl ⟨?_, fun o ho => ?_⟩
          · rw [hzero]
            rfl
          · have := hin o ho
            omega
        · exact (b.findFreeRange_chosen hwords hpos hcount).imp
            (fun hnone => ⟨hnone.1, fun o ho => hnone.2 o (hin o ho) ho⟩)
            fun hfound => hfound.imp fun o ho => ⟨ho.1, ho.2.2⟩ }

end

/-! ## 64 bits at once -/

/-- Three levels: the pair of bits behind the first 4096 is set, searched for and cleared, with a bit of
    another word left. -/
theorem pageBitmap_exact_of_run_levels :
    Exact 5000 (((((KDynamicPageManager.blankBitmap.init 5000).setBit 4096).setBit 4097).setBit
      70).findFreeRange (lastWords 5000) 2).2 ∧
    Exact 5000 ((((((KDynamicPageManager.blankBitmap.init 5000).setBit 4096).setBit 4097).setBit
      70).findFreeRange (lastWords 5000) 2).2.clearRange 4096 (2 ^ 1)).2 := by
  have hfirst : Run 5000 (((KDynamicPageManager.blankBitmap.init 5000).setBit 4096).setBit 4097) :=
    .setBit (.setBit (.initialized _) (by decide) (by decide +kernel)) (by decide) (by decide +kernel)
  have hthree := hfirst.setBit (i := 70) (by decide) (by decide +kernel)
  have hfound := hthree.findFreeRange 2
  exact ⟨pageBitmap_exact_of_run (by decide) hfound,
    pageBitmap_exact_of_run (by decide) (hfound.clearRange (by decide) (by decide))⟩

/-- No bit is set, and a range of 64 is found. -/
theorem not_findFreeRange_exact : ¬ ∀ (size : Nat) (b : KPageBitmap Unit), size < 64 ^ 4 → Run size b →
    ∀ count, 0 < count → count ≤ 64 → ∀ o : Nat, (b.findFreeRange (lastWords size) count).1 = (o : Int) →
      b.bitSet o = true := by
  intro h
  have := h 64 (KDynamicPageManager.blankBitmap.init 64) (by decide) (.initialized _) 64 (by decide) (by decide) 0 (by decide)
  exact absurd this (by decide)

end Suyu.Kernel.KPageBitmap
