/-
  KPageHeap over whole RUNS: no page is handed out twice and none is lost.

  1. **Program** — `Reachable`: a heap is initialized over a page range, its pages are given to it
     with `Free`, and then blocks and aligned ranges are allocated and freed in any order, whole or
     in pieces, with any random generator.
  2. **Spec** — the pages denoted by the set bits are the pages given to the heap less the ones
     handed out; each is denoted by ONE level; no group of blocks is left uncoalesced.
  3. **The crux** — `Sound lo hi h P` carries all of it for one set `P` of free pages, and every
     function of the heap is described by what it does to `P`: `free` adds a range of pages, an
     allocation removes one.

  `AllocateAligned` indexes `m_blocks` with whatever `GetAlignedBlockIndex` returns.  For more than
  1 GiB that is `-1`, and no caller looks at it: the runs here are those without such a request.
-/
import Mathlib
import Suyu.Kernel.PageHeap

namespace Suyu.Kernel.KPageHeap

open Function (update update_eq_self update_self update_of_ne)

open Set

/-! ## The block sizes, in pages -/

theorem pageShift_succ {i : Nat} (hi : i < 6) :
    ∃ r, 0 < r ∧ r < 6 ∧ pageShift (i + 1) = pageShift i + r := by
  refine ⟨pageShift (i + 1) - pageShift i, ?_⟩
  interval_cases i <;> decide

theorem pageShift_of_le {i : Nat} (hi : 7 ≤ i) : pageShift i = 0x1E := by
  have hnone : memoryBlockPageShifts[i]? = none := List.getElem?_eq_none hi
  rw [pageShift, List.getD_eq_getElem?_getD, hnone]
  rfl

theorem le_pageShift (i : Nat) : 12 ≤ pageShift i := by
  rcases Nat.lt_or_ge i 7 with hi | hi
  · interval_cases i <;> decide
  · rw [pageShift_of_le hi]; decide

theorem pageShift_le_succ (i : Nat) : pageShift i ≤ pageShift (i + 1) := by
  rcases Nat.lt_or_ge i 7 with hi | hi
  · interval_cases i <;> decide
  · rw [pageShift_of_le hi, pageShift_of_le (by omega)]

/-- Pages to a block, level by level. -/
def levels : Lib.BlockSizes where
  size i := 2 ^ (pageShift i - 12)
  size_pos _ := Nat.two_pow_pos _
  size_dvd i := Nat.pow_dvd_pow 2 (Nat.sub_le_sub_right (pageShift_le_succ i) 12)

theorem two_pow_pageShift (i : Nat) : 2 ^ pageShift i = levels.size i * PageSize := by
  have h := le_pageShift i
  rw [levels, show PageSize = 2 ^ 12 from rfl, ← Nat.pow_add]
  congr 1
  omega

theorem levels_ratio {i r : Nat} (h : pageShift (i + 1) = pageShift i + r) :
    levels.ratio i = 2 ^ r := by
  have hle := le_pageShift i
  show 2 ^ (pageShift (i + 1) - 12) / 2 ^ (pageShift i - 12) = 2 ^ r
  rw [h, Nat.pow_div (by omega) (by omega)]
  congr 1
  omega

theorem size_zero : levels.size 0 = 1 := rfl

/-! ## The shape of a heap over the pages `lo ≤ p < hi` -/

variable {T : Type} {lo hi i j k p n : Nat} {h : KPageHeap T} {F : Nat → Finset Nat} {P : Set Nat}

/-- What never changes at level `i`. -/
structure LevelShape (lo hi i : Nat) (b : Block T) : Prop where
  shift_eq : b.blockShift = pageShift i
  next_eq : b.nextBlockShift = if i ≠ 6 then pageShift (i + 1) else 0
  base_le : ∀ k, lo ≤ k * levels.size i → b.base ≤ k
  ratio_dvd : i < 6 → levels.ratio i ∣ b.base
  depth : ∀ k, (k + 1) * levels.size i ≤ hi → k - b.base < 64 ^ b.bitmap.usedDepths
  heapAddress_eq : b.heapAddress = blockStart (lo * PageSize) (pageShift i) (nextShift i)
  usedDepths_eq : b.bitmap.usedDepths =
    KPageBitmap.getRequiredDepth (coveredBlocks (lo * PageSize) ((hi - lo) * PageSize) i)

structure Shaped (lo hi : Nat) (h : KPageHeap T) : Prop where
  lo_pos : 0 < lo
  numBlocks_eq : h.numBlocks = 7
  level : ∀ i < 7, LevelShape lo hi i (h.blocks i)

/-- The heap is sound and `P` is its set of free pages. -/
structure Sound (lo hi : Nat) (h : KPageHeap T) (P : Set Nat) : Prop where
  shaped : Shaped lo hi h
  within : P ⊆ Ico lo hi
  exact : ∃ F, (∀ i < 7, (h.blocks i).Holds (F i)) ∧ levels.Packed 6 F ∧ levels.free 6 F = P

/-- Two blocks that differ in the contents of their bitmaps only. -/
structure SameShape (b b' : Block T) : Prop where
  address_eq : b'.heapAddress = b.heapAddress
  shift_eq : b'.blockShift = b.blockShift
  next_eq : b'.nextBlockShift = b.nextBlockShift
  depths_eq : b'.bitmap.usedDepths = b.bitmap.usedDepths

theorem SameShape.level {b b' : Block T} (hsame : SameShape b b') (hb : LevelShape lo hi i b) :
    LevelShape lo hi i b' := by
  have hbase : b'.base = b.base := by
    rw [Block.base, Block.base, Block.getSize, Block.getSize, hsame.address_eq, hsame.shift_eq]
  refine ⟨hsame.shift_eq.trans hb.shift_eq, hsame.next_eq.trans hb.next_eq, ?_, ?_, ?_,
    hsame.address_eq.trans hb.heapAddress_eq, hsame.depths_eq.trans hb.usedDepths_eq⟩
  · rw [hbase]
    exact hb.base_le
  · rw [hbase]
    exact hb.ratio_dvd
  · rw [hbase, hsame.depths_eq]; exact hb.depth

theorem clearRange_usedDepths (b : KPageBitmap T) (offset count : Nat) :
    (b.clearRange offset count).2.usedDepths = b.usedDepths := by
  rw [KPageBitmap.clearRange]
  dsimp only
  split <;> split <;> rfl

theorem pushBlock_sameShape (b : Block T) (address : Nat) :
    SameShape b (b.pushBlock address).2 := by
  rw [Block.pushBlock]
  dsimp only
  split
  · split <;> exact ⟨rfl, rfl, rfl, clearRange_usedDepths _ _ _⟩
  · exact ⟨rfl, rfl, rfl, rfl⟩

theorem popBlock_sameShape [TinyMT T] (b : Block T) (random : Bool) :
    SameShape b (b.popBlock random).2 := by
  rw [Block.popBlock]
  dsimp only
  split <;> exact ⟨rfl, rfl, rfl, rfl⟩

theorem Shaped.setBlock {b : Block T} (hs : Shaped lo hi h) (hsame : SameShape (h.blocks i) b) :
    Shaped lo hi (h.setBlock i b) := by
  refine ⟨hs.lo_pos, hs.numBlocks_eq, fun j hj => ?_⟩
  rw [KPageHeap.setBlock]
  dsimp only
  by_cases hji : j = i
  · subst hji
    rw [update_self]
    exact hsame.level (hs.level j hj)
  · rw [update_of_ne hji]; exact hs.level j hj

theorem holds_setBlock {b : Block T} {S : Finset Nat} (hF : ∀ j < 7, (h.blocks j).Holds (F j))
    (hb : b.Holds S) : ∀ j < 7, ((h.setBlock i b).blocks j).Holds (update F i S j) := by
  intro j hj
  rw [KPageHeap.setBlock]
  dsimp only
  by_cases hji : j = i
  · subst hji
    rw [update_self, update_self]
    exact hb
  · rw [update_of_ne hji, update_of_ne hji]; exact hF j hj

theorem Shaped.getSize (hs : Shaped lo hi h) (hi7 : i < 7) :
    (h.blocks i).getSize = levels.size i * PageSize := by
  rw [Block.getSize, (hs.level i hi7).shift_eq, two_pow_pageShift]

/-! ## Freeing one block -/

theorem Shaped.pushBlock (hs : Shaped lo hi h) (hi7 : i < 7) (hF : (h.blocks i).Holds (F i))
    (hk : k ∉ F i) (hlo : lo ≤ k * levels.size i) (hhi : (k + 1) * levels.size i ≤ hi) :
    let r := (h.blocks i).pushBlock (k * 2 ^ pageShift i)
    (i < 6 ∧ levels.group i (k / levels.ratio i) ⊆ insert k (F i) ∧
        r.1 = k / levels.ratio i * 2 ^ pageShift (i + 1) ∧
        r.2.Holds (insert k (F i) \ levels.group i (k / levels.ratio i))) ∨
      ((i < 6 → ¬ levels.group i (k / levels.ratio i) ⊆ insert k (F i)) ∧ r.1 = 0 ∧
        r.2.Holds (insert k (F i))) := by
  intro r
  have hl := hs.level i hi7
  have hsize : (h.blocks i).getSize = 2 ^ pageShift i := by rw [Block.getSize, hl.shift_eq]
  have hr : r = (h.blocks i).pushBlock (k * (h.blocks i).getSize) := by rw [hsize]
  rw [hr]
  rcases Nat.lt_or_ge i 6 with hi6 | hi6
  · obtain ⟨q, hq0, hq6, hq⟩ := pageShift_succ hi6
    have hnext : (h.blocks i).nextBlockShift = pageShift (i + 1) := by
      rw [hl.next_eq, if_pos (by omega)]
    have hdvd := hl.ratio_dvd hi6
    rw [levels_ratio hq] at hdvd
    obtain ⟨hyes, hno⟩ := hF.pushBlock hk (hl.base_le k hlo) (hl.depth k hhi)
      (by rw [hnext, hl.shift_eq, hq]) hq0 hq6 hdvd
    rw [Lib.BlockSizes.group, levels_ratio hq]
    by_cases hfull : Finset.Ico (k / 2 ^ q * 2 ^ q) ((k / 2 ^ q + 1) * 2 ^ q) ⊆ insert k (F i)
    · obtain ⟨haddr, hholds⟩ := hyes hfull
      rw [hnext] at haddr
      exact Or.inl ⟨hi6, hfull, haddr, hholds⟩
    · exact Or.inr ⟨fun _ => hfull, hno hfull⟩
  · obtain rfl : i = 6 := by omega
    exact Or.inr ⟨fun h6 => absurd h6 (by omega),
      hF.pushBlock_last hk (hl.base_le k hlo) (hl.depth k hhi) (by rw [hl.next_eq]; rfl)⟩

theorem points_subset_Ico (i k : Nat) :
    (levels.points i k : Set Nat) ⊆ Ico lo hi ↔
      lo ≤ k * levels.size i ∧ (k + 1) * levels.size i ≤ hi := by
  have hsize := levels.size_pos i
  have hmul : (k + 1) * levels.size i = k * levels.size i + levels.size i := by
    rw [Nat.add_mul, Nat.one_mul]
  rw [Lib.BlockSizes.points, Finset.coe_Ico]
  exact Ico_subset_Ico_iff (by omega)

/-- **`FreeBlock` is `push`**: the walk up the bitmaps, while groups become full. -/
theorem freeBlockLoop_holds (hn : i + n = 6) (hs : Shaped lo hi h)
    (hF : ∀ j < 7, (h.blocks j).Holds (F j)) (hp : levels.Packed 6 F)
    (hnew : ∀ x, x / levels.size i = k → x ∉ levels.free 6 F)
    (hin : levels.free 6 F ∪ levels.points i k ⊆ Ico lo hi) :
    Shaped lo hi (KPageHeap.freeBlockLoop (n + 1) h (k * 2 ^ pageShift i) i) ∧
      ∀ j < 7, ((KPageHeap.freeBlockLoop (n + 1) h (k * 2 ^ pageShift i) i).blocks j).Holds
        (levels.push n F i k j) := by
  induction n generalizing i k F h with
  | zero =>
    obtain ⟨hlo, hhi⟩ := (points_subset_Ico i k).1 (subset_union_right.trans hin)
    rcases hs.pushBlock (by omega) (hF i (by omega)) (levels.notMem_of_notMem_free (by omega) hnew)
      hlo hhi with ⟨hi6, -⟩ | ⟨-, -, hholds⟩
    · omega
    · rw [KPageHeap.freeBlockLoop, Lib.BlockSizes.push]
      simp only [KPageHeap.freeBlockLoop, ite_self]
      exact ⟨hs.setBlock (pushBlock_sameShape _ _), holds_setBlock hF hholds⟩
  | succ n ih =>
    obtain ⟨hlo, hhi⟩ := (points_subset_Ico i k).1 (subset_union_right.trans hin)
    rw [KPageHeap.freeBlockLoop, Lib.BlockSizes.push]
    rcases hs.pushBlock (by omega) (hF i (by omega)) (levels.notMem_of_notMem_free (by omega) hnew)
      hlo hhi with ⟨hi6, hfull, haddr, hholds⟩ | ⟨hnot, haddr, hholds⟩
    · -- The group moved up: its block is new at the next level, where the walk goes on.
      obtain ⟨hp', hnew', hfree⟩ := hp.removeGroup levels hi6 hnew hfull
      have hin' := hin
      rw [← hfree] at hin'
      have hpos : k / levels.ratio i ≠ 0 := by
        intro hzero
        have hle := ((points_subset_Ico _ _).1 (subset_union_right.trans hin')).1
        rw [hzero, Nat.zero_mul] at hle; exact absurd hs.lo_pos (by omega)
      have hne : k / levels.ratio i * 2 ^ pageShift (i + 1) ≠ 0 :=
        Nat.mul_ne_zero hpos (Nat.two_pow_pos _).ne'
      rw [if_pos hfull]
      simp only [haddr, hne, ne_eq, not_false_iff, if_true]
      exact ih (by omega) (hs.setBlock (pushBlock_sameShape _ _)) (holds_setBlock hF hholds) hp'
        hnew' hin'
    · rw [if_neg (hnot (by omega))]
      simp only [haddr, ne_eq, not_true_eq_false, if_false]
      exact ⟨hs.setBlock (pushBlock_sameShape _ _), holds_setBlock hF hholds⟩

theorem Sound.freeBlock (hs : Sound lo hi h P) (hi7 : i < 7) (hlo : lo ≤ k * levels.size i)
    (hhi : (k + 1) * levels.size i ≤ hi)
    (hnew : Disjoint P (Ico (k * levels.size i) ((k + 1) * levels.size i))) :
    Sound lo hi (h.freeBlock (k * 2 ^ pageShift i) i)
      (P ∪ Ico (k * levels.size i) ((k + 1) * levels.size i)) := by
  obtain ⟨F, hF, hp, rfl⟩ := hs.exact
  have hpoints : Ico (k * levels.size i) ((k + 1) * levels.size i) = levels.points i k := by
    rw [Lib.BlockSizes.points, Finset.coe_Ico]
  rw [hpoints] at hnew ⊢
  have hnew' : ∀ x, x / levels.size i = k → x ∉ levels.free 6 F := by
    intro x hx hxF; exact disjoint_left.1 hnew hxF (Finset.mem_coe.2 (levels.mem_points.2 hx))
  have hin := union_subset hs.within ((points_subset_Ico i k).2 ⟨hlo, hhi⟩)
  have hrounds : h.numBlocks - i = 6 - i + 1 := by
    rw [hs.shaped.numBlocks_eq]; omega
  obtain ⟨hshape, hholds⟩ := freeBlockLoop_holds (by omega : i + (6 - i) = 6) hs.shaped hF hp hnew' hin
  obtain ⟨hp', hfree⟩ := levels.push_spec (by omega : i + (6 - i) = 6) hp hnew'
  rw [KPageHeap.freeBlock, hrounds]
  exact ⟨hshape, hin, _, hholds, hp', hfree⟩

/-! ## Freeing a range -/

section Ranges

variable {a b c m : Nat}

theorem rounds_eq (a b size : Nat) :
    (b * PageSize - a * PageSize) / (size * PageSize) = (b - a) / size := by
  rw [← Nat.sub_mul, Nat.mul_div_mul_right _ _ (by decide)]

theorem union_Ico_left (hab : a ≤ b) (hbc : b ≤ c) (hnew : Disjoint P (Ico a c)) :
    Disjoint P (Ico a b) ∧ Disjoint (P ∪ Ico a b) (Ico b c) ∧
      P ∪ Ico a b ∪ Ico b c = P ∪ Ico a c := by
  refine ⟨hnew.mono_right (Ico_subset_Ico_right hbc), ?_, ?_⟩
  · exact disjoint_union_left.2 ⟨hnew.mono_right (Ico_subset_Ico_left hab), Ico_disjoint_Ico_same⟩
  · rw [union_assoc, Ico_union_Ico_eq_Ico hab hbc]

theorem union_Ico_right (hab : a ≤ b) (hbc : b ≤ c) (hnew : Disjoint P (Ico a c)) :
    Disjoint P (Ico b c) ∧ Disjoint (P ∪ Ico b c) (Ico a b) ∧
      P ∪ Ico b c ∪ Ico a b = P ∪ Ico a c := by
  refine ⟨hnew.mono_right (Ico_subset_Ico_left hab), ?_, ?_⟩
  · exact disjoint_union_left.2
      ⟨hnew.mono_right (Ico_subset_Ico_right hbc), Ico_disjoint_Ico_same.symm⟩
  · rw [union_assoc, union_comm (Ico b c), Ico_union_Ico_eq_Ico hab hbc]

section

variable (hs : Sound lo hi h P)
include hs

theorem Sound.freeBlock_page (hi7 : i < 7) (hdvd : levels.size i ∣ a) (hlo : lo ≤ a)
    (hhi : a + levels.size i ≤ hi) (hnew : Disjoint P (Ico a (a + levels.size i))) :
    Sound lo hi (h.freeBlock (a * PageSize) i) (P ∪ Ico a (a + levels.size i)) := by
  obtain ⟨k, rfl⟩ := hdvd
  have hstart : levels.size i * k = k * levels.size i := Nat.mul_comm _ _
  have hstop : k * levels.size i + levels.size i = (k + 1) * levels.size i := by
    rw [Nat.add_mul, Nat.one_mul]
  rw [hstart, hstop] at hnew hhi
  rw [hstart] at hlo
  have haddr : levels.size i * k * PageSize = k * 2 ^ pageShift i := by
    rw [two_pow_pageShift, hstart, Nat.mul_assoc]
  rw [haddr, hstart, hstop]
  exact hs.freeBlock hi7 hlo hhi hnew

theorem Sound.freeBigBlocks (hi7 : i < 7) (hdvd : levels.size i ∣ a) (hlo : lo ≤ a)
    (hhi : a + m * levels.size i ≤ hi) (hnew : Disjoint P (Ico a (a + m * levels.size i))) :
    Sound lo hi
      (KPageHeap.freeBigBlocks i (levels.size i * PageSize) ((a + m * levels.size i) * PageSize) m h
        (a * PageSize)) (P ∪ Ico a (a + m * levels.size i)) := by
  induction m generalizing h P a with
  | zero =>
    rw [Nat.zero_mul, Nat.add_zero, Ico_self, union_empty]; exact hs
  | succ m ih =>
    have hsize := levels.size_pos i
    have hsum : a + (m + 1) * levels.size i = a + levels.size i + m * levels.size i := by
      rw [Nat.add_mul]; omega
    rw [hsum] at hhi hnew ⊢
    have hlt : a * PageSize < (a + levels.size i + m * levels.size i) * PageSize :=
      Nat.mul_lt_mul_of_pos_right (by omega) (by decide)
    obtain ⟨h1, h2, h3⟩ := union_Ico_left (b := a + levels.size i) (by omega) (by omega) hnew
    rw [KPageHeap.freeBigBlocks, if_pos hlt, ← Nat.add_mul, ← h3]
    exact ih (hs.freeBlock_page hi7 hdvd hlo (by omega) h1) (Nat.dvd_add hdvd (dvd_refl _))
      (by omega) hhi h2

theorem Sound.freeBeforeAt (hi7 : i < 7) (hdvd : levels.size i ∣ b) (hlo : lo ≤ a)
    (hm : a + m * levels.size i ≤ b) (hhi : b ≤ hi) (hnew : Disjoint P (Ico (b - m * levels.size i) b)) :
    ∃ h', KPageHeap.freeBeforeAt i (levels.size i * PageSize) (a * PageSize) m h (b * PageSize) =
        (h', (b - m * levels.size i) * PageSize) ∧
      Sound lo hi h' (P ∪ Ico (b - m * levels.size i) b) := by
  induction m generalizing h P b with
  | zero =>
    rw [Nat.zero_mul, Nat.sub_zero, Ico_self, union_empty]; exact ⟨h, rfl, hs⟩
  | succ m ih =>
    have hsum : (m + 1) * levels.size i = levels.size i + m * levels.size i := by
      rw [Nat.add_mul]; omega
    rw [hsum, ← Nat.sub_sub] at hnew ⊢
    rw [hsum] at hm
    have hle : a * PageSize + levels.size i * PageSize ≤ b * PageSize := by
      rw [← Nat.add_mul]; exact Nat.mul_le_mul_right _ (by omega)
    have hback : b - levels.size i + levels.size i = b := by omega
    obtain ⟨h1, h2, h3⟩ := union_Ico_right (b := b - levels.size i) (by omega) (by omega) hnew
    have hstep := hs.freeBlock_page (a := b - levels.size i) hi7 (Nat.dvd_sub hdvd (dvd_refl _))
      (by omega) (by omega) (by rwa [hback])
    rw [hback] at hstep
    rw [KPageHeap.freeBeforeAt, if_pos hle, ← Nat.sub_mul, ← h3]
    exact ih hstep (Nat.dvd_sub hdvd (dvd_refl _)) (by omega) (by omega) h2

theorem Sound.freeBefore (hn7 : n < 7) (hdvd : levels.size n ∣ b) (hlo : lo ≤ a) (hab : a ≤ b)
    (hgap : b < a + levels.size n) (hhi : b ≤ hi) (hnew : Disjoint P (Ico a b)) :
    Sound lo hi (KPageHeap.freeBefore (a * PageSize) n h (b * PageSize)) (P ∪ Ico a b) := by
  induction n generalizing h P b with
  | zero =>
    rw [size_zero] at hgap
    obtain rfl : a = b := by omega
    rw [Ico_self, union_empty]; exact hs
  | succ n ih =>
    have hsize := levels.size_pos n
    have hdvd' : levels.size n ∣ b := (levels.size_dvd n).trans hdvd
    have hdiv := Nat.div_add_mod' (b - a) (levels.size n)
    have hmod := Nat.mod_lt (b - a) hsize
    obtain ⟨h1, h2, h3⟩ := union_Ico_right (b := b - (b - a) / levels.size n * levels.size n)
      (by omega) (by omega) hnew
    obtain ⟨h', heq, hs'⟩ := hs.freeBeforeAt (m := (b - a) / levels.size n) (by omega) hdvd' hlo
      (by omega) hhi h1
    rw [KPageHeap.freeBefore, hs.shaped.getSize (by omega), rounds_eq]
    rw [heq, ← h3]
    exact ih hs' (by omega) (Nat.dvd_sub hdvd' (Dvd.intro_left _ rfl)) (by omega) (by omega)
      (by omega) h2

theorem Sound.freeAfterAt (hi7 : i < 7) (hdvd : levels.size i ∣ a) (hlo : lo ≤ a)
    (hm : a + m * levels.size i ≤ b) (hhi : b ≤ hi) (hnew : Disjoint P (Ico a (a + m * levels.size i))) :
    ∃ h', KPageHeap.freeAfterAt i (levels.size i * PageSize) (b * PageSize) m h (a * PageSize) =
        (h', (a + m * levels.size i) * PageSize) ∧
      Sound lo hi h' (P ∪ Ico a (a + m * levels.size i)) := by
  induction m generalizing h P a with
  | zero =>
    rw [Nat.zero_mul, Nat.add_zero, Ico_self, union_empty]; exact ⟨h, rfl, hs⟩
  | succ m ih =>
    have hsum : a + (m + 1) * levels.size i = a + levels.size i + m * levels.size i := by
      rw [Nat.add_mul]; omega
    rw [hsum] at hm hnew ⊢
    have hle : a * PageSize + levels.size i * PageSize ≤ b * PageSize := by
      rw [← Nat.add_mul]; exact Nat.mul_le_mul_right _ (by omega)
    obtain ⟨h1, h2, h3⟩ := union_Ico_left (b := a + levels.size i) (by omega) (by omega) hnew
    rw [KPageHeap.freeAfterAt, if_pos hle, ← Nat.add_mul, ← h3]
    exact ih (hs.freeBlock_page hi7 hdvd hlo (by omega) h1) (Nat.dvd_add hdvd (dvd_refl _))
      (by omega) hm h2

theorem Sound.freeAfter (hn7 : n < 7) (hdvd : levels.size n ∣ a) (hlo : lo ≤ a) (hab : a ≤ b)
    (hgap : b < a + levels.size n) (hhi : b ≤ hi) (hnew : Disjoint P (Ico a b)) :
    Sound lo hi (KPageHeap.freeAfter (b * PageSize) n h (a * PageSize)) (P ∪ Ico a b) := by
  induction n generalizing h P a with
  | zero =>
    rw [size_zero] at hgap
    obtain rfl : a = b := by omega
    rw [Ico_self, union_empty]; exact hs
  | succ n ih =>
    have hsize := levels.size_pos n
    have hdvd' : levels.size n ∣ a := (levels.size_dvd n).trans hdvd
    have hdiv := Nat.div_add_mod' (b - a) (levels.size n)
    have hmod := Nat.mod_lt (b - a) hsize
    obtain ⟨h1, h2, h3⟩ := union_Ico_left (b := a + (b - a) / levels.size n * levels.size n)
      (by omega) (by omega) hnew
    obtain ⟨h', heq, hs'⟩ := hs.freeAfterAt (m := (b - a) / levels.size n) (by omega) hdvd' hlo
      (by omega) hhi h1
    rw [KPageHeap.freeAfter, hs.shaped.getSize (by omega), rounds_eq]
    rw [heq, ← h3]
    exact ih hs' (by omega) (Nat.dvd_add hdvd' (Dvd.intro_left _ rfl)) (by omega) (by omega)
      (by omega) h2

end

theorem alignUp_mul_right (value size : Nat) :
    alignUp (value * PageSize) (size * PageSize) = alignUp value size * PageSize := by
  have hzero : value % size * PageSize = 0 ↔ value % size = 0 := by
    rw [Nat.mul_eq_zero, or_iff_left (by decide)]
  rw [alignUp, alignUp, Nat.mul_mod_mul_right, ← Nat.sub_mul, ← Nat.add_mul]
  split
  · next hc => rw [if_pos (hzero.1 hc)]
  · next hc => rw [if_neg fun hc' => hc (hzero.2 hc')]

theorem alignDown_mul_right (value size : Nat) :
    alignDown (value * PageSize) (size * PageSize) = alignDown value size * PageSize := by
  rw [alignDown, alignDown, Nat.mul_mod_mul_right, ← Nat.sub_mul]

theorem Sound.freeBigBlocks_range (hs : Sound lo hi h P) (hm : m < 7) (ha : levels.size m ∣ a)
    (hb : levels.size m ∣ b) (hlo : lo ≤ a) (hab : a ≤ b) (hhi : b ≤ hi)
    (hnew : Disjoint P (Ico a b)) :
    Sound lo hi
      (KPageHeap.freeBigBlocks m (levels.size m * PageSize) (b * PageSize)
        ((b * PageSize - a * PageSize) / (levels.size m * PageSize)) h (a * PageSize))
      (P ∪ Ico a b) := by
  have hb' : b = a + (b - a) / levels.size m * levels.size m := by
    rw [Nat.div_mul_cancel (Nat.dvd_sub hb ha)]; omega
  rw [rounds_eq]
  generalize (b - a) / levels.size m = q at hb' ⊢
  subst hb'
  exact hs.freeBigBlocks hm ha hlo hhi hnew

theorem Sound.freeBig (hs : Sound lo hi h P) (hm : m < 7) (hlo : lo ≤ a) (hab : a < b)
    (hhi : b ≤ hi) (hnew : Disjoint P (Ico a b)) :
    ∃ h' i a' b', KPageHeap.freeBig h (a * PageSize) (b * PageSize) (m + 1) =
        (h', i, a' * PageSize, b' * PageSize) ∧
      i < 7 ∧ levels.size i ∣ a' ∧ levels.size i ∣ b' ∧ a ≤ a' ∧ a' < a + levels.size i ∧
      a' ≤ b' ∧ b' ≤ b ∧ b < b' + levels.size i ∧ Sound lo hi h' (P ∪ Ico a' b') := by
  have hpage : 0 < PageSize := by decide
  induction m with
  | zero =>
    -- At level 0 every page is a block: the search cannot go below it.
    have hdvd : ∀ x, levels.size 0 ∣ x := fun x => one_dvd x
    refine ⟨_, 0, a, b, ?_, by omega, hdvd a, hdvd b, le_refl a, ?_, hab.le, le_refl b, ?_,
      hs.freeBigBlocks_range hm (hdvd a) (hdvd b) hlo hab.le hhi hnew⟩
    · have hmod : ∀ x, x % levels.size 0 = 0 := fun x => Nat.mod_one x
      rw [KPageHeap.freeBig, hs.shaped.getSize hm, alignUp_mul_right, alignDown_mul_right, alignUp,
        alignDown, hmod, hmod, if_pos rfl]
      exact if_pos (Nat.mul_lt_mul_of_pos_right hab hpage)
    · rw [size_zero]
      omega
    · rw [size_zero]; omega
  | succ m ih =>
    have hsize := levels.size_pos (m + 1)
    have hup := le_alignUp a hsize
    have hdown := alignDown_le b (levels.size (m + 1))
    rw [KPageHeap.freeBig, hs.shaped.getSize hm, alignUp_mul_right, alignDown_mul_right]
    by_cases hlt : alignUp a (levels.size (m + 1)) < alignDown b (levels.size (m + 1))
    · have hdvd : levels.size (m + 1) ∣ alignDown b (levels.size (m + 1)) := by
        rw [alignDown_eq]; exact Dvd.intro_left _ rfl
      have hmod := Nat.mod_lt b hsize
      refine ⟨_, m + 1, alignUp a (levels.size (m + 1)), alignDown b (levels.size (m + 1)), ?_,
        hm, dvd_alignUp _ _, hdvd, hup, alignUp_lt hsize, hlt.le, hdown, ?_,
        hs.freeBigBlocks_range hm (dvd_alignUp _ _) hdvd (by omega) hlt.le (by omega)
          (hnew.mono_right (Ico_subset_Ico hup hdown))⟩
      · exact if_pos (Nat.mul_lt_mul_of_pos_right hlt hpage)
      · rw [alignDown]; omega
    · have hnot : ¬ alignUp a (levels.size (m + 1)) * PageSize <
          alignDown b (levels.size (m + 1)) * PageSize :=
        fun hc => hlt (Nat.lt_of_mul_lt_mul_right hc)
      rw [if_neg hnot]; exact ih (by omega)

theorem Sound.free (hs : Sound lo hi h P) (hlo : lo ≤ p) (hhi : p + n ≤ hi)
    (hnew : Disjoint P (Ico p (p + n))) :
    Sound lo hi (h.free (p * PageSize) n) (P ∪ Ico p (p + n)) := by
  rw [KPageHeap.free]
  split
  · next hn =>
    subst hn
    rw [Nat.add_zero, Ico_self, union_empty]
    exact hs
  · next hn =>
    obtain ⟨h', i, a, b, heq, hi7, hda, hdb, hpa, hgapa, hab, hbq, hgapb, hs'⟩ :=
      hs.freeBig (a := p) (b := p + n) (by omega : 6 < 7) hlo (by omega) hhi hnew
    have hstop : p * PageSize + n * PageSize = (p + n) * PageSize := by rw [Nat.add_mul]
    rw [hs.shaped.numBlocks_eq, hstop]
    dsimp only
    rw [heq]
    -- The three parts of the range, in the order in which they are freed.
    obtain ⟨-, h2, h3⟩ := union_Ico_right (P := P) hpa hab
      (hnew.mono_right (Ico_subset_Ico_right hbq))
    obtain ⟨-, h5, h6⟩ := union_Ico_left (P := P) (hpa.trans hab) hbq hnew
    have hbefore := hs'.freeBefore hi7 hda hlo hpa hgapa (by omega) h2
    rw [h3] at hbefore
    have hafter := hbefore.freeAfter hi7 hdb (by omega) hbq hgapb hhi h5
    rw [h6] at hafter; exact hafter

end Ranges

/-! ## Allocating -/

section Allocate

variable [TinyMT T] {index numPages alignPages : Nat}

/-- An allocation of `numPages` pages at a multiple of `alignPages`: it fails and changes nothing, or
    exactly its range leaves the free pages. -/
def Takes (lo hi : Nat) (P : Set Nat) (numPages alignPages : Nat) (r : Nat × KPageHeap T) : Prop :=
  (r.1 = 0 ∧ Sound lo hi r.2 P) ∨
    ∃ p, 0 < p ∧ r.1 = p * PageSize ∧ alignPages ∣ p ∧ Ico p (p + numPages) ⊆ P ∧
      Sound lo hi r.2 (P \ Ico p (p + numPages))

omit [TinyMT T] in
theorem Sound.setRng (hs : Sound lo hi h P) (g : RandomBitGenerator T) :
    Sound lo hi { h with rng := g } P :=
  ⟨⟨hs.shaped.lo_pos, hs.shaped.numBlocks_eq, hs.shaped.level⟩, hs.within, hs.exact⟩

theorem Sound.popBlock (hs : Sound lo hi h P) (hi7 : i < 7) (random : Bool) :
    let r := (h.blocks i).popBlock random
    (r.1 = 0 ∧ Sound lo hi (h.setBlock i r.2) P) ∨
      ∃ k, 0 < k ∧ r.1 = k * levels.size i * PageSize ∧
        Ico (k * levels.size i) (k * levels.size i + levels.size i) ⊆ P ∧
        Sound lo hi (h.setBlock i r.2)
          (P \ Ico (k * levels.size i) (k * levels.size i + levels.size i)) := by
  intro r
  obtain ⟨F, hF, hp, rfl⟩ := hs.exact
  have hshape := hs.shaped.setBlock (popBlock_sameShape (h.blocks i) random)
  rcases (hF i hi7).popBlock random with ⟨hzero, hholds⟩ | ⟨k, hk, haddr, hholds⟩
  · have hupd := holds_setBlock (i := i) hF hholds
    rw [update_eq_self] at hupd
    exact Or.inl ⟨hzero, hshape, hs.within, F, hupd, hp, rfl⟩
  · have hpoints : Ico (k * levels.size i) (k * levels.size i + levels.size i) =
        levels.points i k := by
      rw [Lib.BlockSizes.points, Finset.coe_Ico, Nat.add_mul, Nat.one_mul]
    have hsub := levels.points_subset_free (by omega : i ≤ 6) hk
    have hpos : k ≠ 0 := by
      rintro rfl
      have hle := ((points_subset_Ico i 0).1 (hsub.trans hs.within)).1
      rw [Nat.zero_mul] at hle; exact absurd hs.shaped.lo_pos (by omega)
    rw [hs.shaped.getSize hi7, ← Nat.mul_assoc] at haddr
    refine Or.inr ⟨k, by omega, haddr, ?_, hshape, ?_, _, holds_setBlock hF hholds, hp.pop levels,
      ?_⟩
    · rw [hpoints]
      exact hsub
    · exact sdiff_subset.trans hs.within
    · rw [hpoints]; exact levels.free_pop hp (by omega) hk

theorem sdiff_union_Ico {a b c d : Nat} (hab : a ≤ b) (hbc : b ≤ c) (hcd : c ≤ d)
    (hP : Ico a d ⊆ P) : P \ Ico a d ∪ Ico a b ∪ Ico c d = P \ Ico b c := by
  ext x
  have hx := @hP x
  simp only [mem_union, mem_sdiff, mem_Ico] at hx ⊢
  by_cases hxP : x ∈ P
  · simp only [hxP, true_and]
    omega
  · have hnot : ¬ (a ≤ x ∧ x < d) := fun hc => hxP (hx hc)
    simp only [hxP, false_and, false_or, iff_false]; omega

theorem levels_size_le {j : Nat} (hij : i ≤ j) : levels.size i ≤ levels.size j :=
  Nat.le_of_dvd (levels.size_pos j) (levels.size_dvd_size hij)

theorem allocateByLinearSearchLoop_takes {rounds : Nat} (hs : Sound lo hi h P)
    (hrounds : i + rounds = 7) (hidx : index ≤ i) :
    Takes lo hi P (levels.size index) (levels.size index)
      (KPageHeap.allocateByLinearSearchLoop (levels.size index * PageSize) rounds h i) := by
  induction rounds generalizing h i with
  | zero => exact Or.inl ⟨rfl, hs⟩
  | succ rounds ih =>
    have hi7 : i < 7 := by omega
    have hle := levels_size_le hidx
    have hsize := levels.size_pos i
    rw [KPageHeap.allocateByLinearSearchLoop]
    rcases hs.popBlock hi7 false with ⟨hzero, hs'⟩ | ⟨k, hk, haddr, hsub, hs'⟩
    · rw [if_neg (not_not.2 hzero)]; exact ih hs' (by omega) (by omega)
    have hpos : 0 < k * levels.size i := Nat.mul_pos hk hsize
    have hne : ((h.blocks i).popBlock false).1 ≠ 0 := by
      rw [haddr]; exact Nat.mul_ne_zero hpos.ne' (by decide)
    have hin := (Ico_subset_Ico_iff (by omega)).1 (hsub.trans hs.within)
    have hdvd : levels.size index ∣ k * levels.size i :=
      (levels.size_dvd_size hidx).trans (Dvd.intro_left _ rfl)
    -- The block is kept up to the needed size; the rest of it goes back.
    have hrest := sdiff_union_Ico (P := P) (le_refl (k * levels.size i))
      (Nat.le_add_right _ (levels.size index)) (Nat.add_le_add_left hle _) hsub
    rw [Ico_self, union_empty] at hrest
    have hfree := hs'.free (p := k * levels.size i + levels.size index)
      (n := levels.size i - levels.size index) (by omega) (by omega)
      (disjoint_sdiff_left.mono_right (Ico_subset_Ico (by omega) (by omega)))
    have hstop : k * levels.size i + levels.size index + (levels.size i - levels.size index) =
        k * levels.size i + levels.size i := by omega
    rw [hstop, hrest] at hfree
    rw [if_pos hne, hs'.shaped.getSize hi7, haddr]
    refine Or.inr ⟨k * levels.size i, hpos, ?_, hdvd, ?_, ?_⟩
    · dsimp only
      split <;> rfl
    · exact (Ico_subset_Ico_right (by omega)).trans hsub
    · dsimp only
      split
      · rw [← Nat.add_mul, ← Nat.sub_mul, Nat.mul_div_cancel _ (by decide)]; exact hfree
      rename_i hnot
      have heq : levels.size index = levels.size i := by
        refine le_antisymm hle (Nat.le_of_mul_le_mul_right (Nat.le_of_not_lt hnot) (by decide))
      rw [heq]; exact hs'

theorem Sound.allocateByLinearSearch (hs : Sound lo hi h P) (hi7 : index < 7) :
    Takes lo hi P (levels.size index) (levels.size index) (h.allocateByLinearSearch index) := by
  rw [KPageHeap.allocateByLinearSearch, hs.shaped.getSize hi7, hs.shaped.numBlocks_eq]
  exact allocateByLinearSearchLoop_takes hs (by omega) (le_refl index)

omit [TinyMT T] in
theorem countAlignments_le {rounds : Nat} (neededSize alignShift possible : Nat)
    (hrounds : i + rounds = h.numBlocks) :
    (h.countAlignments neededSize alignShift rounds i possible).2 ≤ h.numBlocks := by
  induction rounds generalizing i possible with
  | zero => exact le_refl _
  | succ rounds ih =>
    rw [KPageHeap.countAlignments]
    split
    · show i + 1 ≤ h.numBlocks
      omega
    · exact ih _ (by omega)

omit [TinyMT T] in
theorem chooseBlock_mem {rounds : Nat} (neededSize alignShift rnd possible : Nat)
    (hidx : index < 7) (hle : index ≤ i) (hrounds : i + rounds ≤ 7) :
    index ≤ h.chooseBlock neededSize alignShift rnd index rounds i possible ∧
      h.chooseBlock neededSize alignShift rnd index rounds i possible < 7 := by
  induction rounds generalizing i possible with
  | zero => exact ⟨le_refl _, hidx⟩
  | succ rounds ih =>
    rw [KPageHeap.chooseBlock]
    split
    · exact ⟨hle, by omega⟩
    · exact ih _ (by omega) (by omega)

theorem Sound.selectBlock (hs : Sound lo hi h P) (hidx : index < 7) (neededSize alignShift : Nat) :
    let s := h.selectBlock index neededSize alignShift
    index ≤ s.1 ∧ s.1 < 7 ∧ Sound lo hi s.2 P := by
  intro s
  have hnum := hs.shaped.numBlocks_eq
  have hmax := countAlignments_le neededSize alignShift 0
    (by omega : index + (h.numBlocks - index) = h.numBlocks)
  have hs' : s = h.selectBlock index neededSize alignShift := rfl
  rw [KPageHeap.selectBlock] at hs'
  dsimp only at hs'
  rw [hs']
  split
  · next hc =>
    have hroom : index +
        ((h.countAlignments neededSize alignShift (h.numBlocks - index) index 0).2 - index) ≤ 7 := by
      omega
    obtain ⟨h1, h2⟩ := chooseBlock_mem (h := h) neededSize alignShift (h.rng.generateRandom
      (h.countAlignments neededSize alignShift (h.numBlocks - index) index 0).1).1 0 hidx
      (le_refl index) hroom
    exact ⟨h1, h2, hs.setRng _⟩
  · exact ⟨le_refl _, hidx, hs⟩

theorem ctz_two_pow {e : Nat} (he : e < 64) : (BitVec.ofNat 64 (2 ^ e)).ctz.toNat = e := by
  have hlt : 2 ^ e < 2 ^ 64 := Nat.pow_lt_pow_right (by omega) he
  have hbit : ∀ j, (BitVec.ofNat 64 (2 ^ e)).getLsbD j = true → j = e := by
    intro j hj
    rw [BitVec.getLsbD_ofNat, Nat.testBit_two_pow, Bool.and_eq_true] at hj
    exact (of_decide_eq_true hj.2).symm
  refine hbit _ (BitVec.getLsbD_true_ctz_of_ne_zero fun hzero => ?_)
  have hnat := congrArg BitVec.toNat hzero
  rw [BitVec.toNat_ofNat, Nat.mod_eq_of_lt hlt, BitVec.toNat_ofNat, Nat.zero_mod] at hnat
  exact absurd hnat (Nat.two_pow_pos e).ne'

omit [TinyMT T] in
theorem Sound.free_ite {c : Prop} [Decidable c] (hs : Sound lo hi h P) (hc : ¬ c → n = 0)
    (hlo : lo ≤ p) (hhi : p + n ≤ hi) (hnew : Disjoint P (Ico p (p + n))) :
    Sound lo hi (if c then h.free (p * PageSize) n else h) (P ∪ Ico p (p + n)) := by
  split
  · exact hs.free hlo hhi hnew
  · next hno =>
    rw [hc hno, Nat.add_zero, Ico_self, union_empty]; exact hs

omit [TinyMT T] in
theorem Sound.keepBack {a o size : Nat} (hs : Sound lo hi h (P \ Ico a (a + size)))
    (hsub : Ico a (a + size) ⊆ P) (hlo : lo ≤ a) (hhi : a + size ≤ hi) (ho : o + numPages ≤ size) :
    let h' := if o * PageSize ≠ 0 then h.free (a * PageSize) (o * PageSize / PageSize) else h
    Sound lo hi
      (if o * PageSize ≠ (size - numPages) * PageSize then
        h'.free (a * PageSize + o * PageSize + numPages * PageSize)
          (((size - numPages) * PageSize - o * PageSize) / PageSize)
      else h') (P \ Ico (a + o) (a + o + numPages)) := by
  intro h'
  have hpage : 0 < PageSize := by decide
  have hdisj : ∀ {x y}, a ≤ x → y ≤ a + size → Disjoint (P \ Ico a (a + size)) (Ico x y) :=
    fun hx hy => disjoint_sdiff_left.mono_right (Ico_subset_Ico hx hy)
  have hbefore : Sound lo hi h' (P \ Ico a (a + size) ∪ Ico a (a + o)) := by
    show Sound lo hi (if _ then h.free _ (o * PageSize / PageSize) else h) _
    rw [Nat.mul_div_cancel _ hpage]
    refine hs.free_ite (fun hc => ?_) hlo (by omega) (hdisj (le_refl a) (by omega))
    exact (Nat.mul_eq_zero.1 (not_not.1 hc)).resolve_right hpage.ne'
  have hstop : a + o + numPages + (size - numPages - o) = a + size := by omega
  have hafter := hbefore.free_ite (c := o * PageSize ≠ (size - numPages) * PageSize)
    (p := a + o + numPages) (n := size - numPages - o)
    (fun hc => by
      have := Nat.eq_of_mul_eq_mul_right hpage (not_not.1 hc)
      omega)
    (by omega) (by omega)
    (disjoint_union_left.2 ⟨hdisj (by omega) (by omega),
      Ico_disjoint_Ico_same.mono_right (Ico_subset_Ico_left (by omega))⟩)
  rw [hstop, sdiff_union_Ico (by omega) (by omega) (by omega) hsub] at hafter
  rw [← Nat.add_mul, ← Nat.add_mul, ← Nat.sub_mul, Nat.mul_div_cancel _ hpage]
  exact hafter

theorem Sound.allocateByRandom {e : Nat} (hs : Sound lo hi h P) (hidx : index < 7)
    (hpages : numPages ≤ levels.size index) (halign : 2 ^ e ∣ levels.size index) :
    Takes lo hi P numPages (2 ^ e) (h.allocateByRandom index numPages (2 ^ e)) := by
  have hpage : 0 < PageSize := by decide
  have hpow : PageSize = 2 ^ 12 := rfl
  have hshift : (BitVec.ofNat 64 (2 ^ e * PageSize)).ctz.toNat = e + 12 := by
    rw [hpow, ← Nat.pow_add]
    refine ctz_two_pow ?_
    have hle : 2 ^ e ≤ 2 ^ 18 :=
      (Nat.le_of_dvd (levels.size_pos _) halign).trans (levels_size_le (by omega : index ≤ 6))
    have := (Nat.pow_le_pow_iff_right (by omega : 1 < 2)).1 hle
    omega
  rw [KPageHeap.allocateByRandom, hshift]
  obtain ⟨hle, h7, hsel⟩ :=
    hs.selectBlock hidx (numPages * PageSize) (e + 12)
  generalize h.selectBlock index (numPages * PageSize) (e + 12) = s at hle h7 hsel ⊢
  obtain ⟨i, h⟩ := s
  dsimp only at hle h7 hsel ⊢
  have hsize := levels_size_le hle
  have halign' : 2 ^ e ∣ levels.size i := halign.trans (levels.size_dvd_size hle)
  rcases hsel.popBlock h7 true with ⟨hzero, hs'⟩ | ⟨k, hk, haddr, hsub, hs'⟩
  · rw [if_neg (not_not.2 hzero)]
    exact Or.inl ⟨rfl, hs'⟩
  · have hpos : 0 < k * levels.size i := Nat.mul_pos hk (levels.size_pos i)
    have hin := (Ico_subset_Ico_iff (Nat.lt_add_of_pos_right (levels.size_pos i))).1
      (hsub.trans hs.within)
    rw [hs'.shaped.getSize h7, haddr, if_pos (Nat.mul_ne_zero hpos.ne' hpage.ne'), ← Nat.sub_mul]
    split
    · -- The random offset is a multiple of the alignment that leaves room for the pages.
      have hdiv : ((levels.size i - numPages) * PageSize) >>> (e + 12) =
          (levels.size i - numPages) / 2 ^ e := by
        rw [Nat.shiftRight_eq_div_pow, Nat.pow_add, ← hpow, Nat.mul_div_mul_right _ _ hpage]
      rw [hdiv]
      have hrnd := (h.setBlock i ((h.blocks i).popBlock true).2).rng.generateRandom_lt
        (Nat.add_pos_left Nat.one_pos ((levels.size i - numPages) / 2 ^ e))
      generalize (h.setBlock i ((h.blocks i).popBlock true).2).rng.generateRandom
        (1 + (levels.size i - numPages) / 2 ^ e) = rnd at hrnd ⊢
      have hoff : rnd.1 <<< (e + 12) = rnd.1 * 2 ^ e * PageSize := by
        rw [Nat.shiftLeft_eq, Nat.pow_add, ← hpow, Nat.mul_assoc]
      have hroom : rnd.1 * 2 ^ e ≤ levels.size i - numPages :=
        (Nat.le_div_iff_mul_le (Nat.two_pow_pos e)).1 (Nat.lt_one_add_iff.1 hrnd)
      rw [hoff]
      refine Or.inr ⟨k * levels.size i + rnd.1 * 2 ^ e, by omega, (Nat.add_mul _ _ _).symm, ?_, ?_,
        ?_⟩
      · exact Nat.dvd_add (halign'.trans (Dvd.intro_left _ rfl)) (Dvd.intro_left _ rfl)
      · exact (Ico_subset_Ico (by omega) (by omega)).trans hsub
      · exact (hs'.setRng rnd.2).keepBack hsub hin.1 hin.2 (by omega)
    · next hnot =>
      have heq : numPages = levels.size i := by
        have := (Nat.mul_eq_zero.1 (Nat.eq_zero_of_not_pos hnot)).resolve_right hpage.ne'
        omega
      rw [heq]
      exact Or.inr ⟨k * levels.size i, hpos, rfl, halign'.trans (Dvd.intro_left _ rfl), hsub, hs'⟩

theorem getAlignedBlockIndexFrom_spec (target : Nat) {rounds : Nat} (hrounds : i + rounds = 7) :
    (∃ j : Nat, j < 7 ∧ KPageHeap.getAlignedBlockIndexFrom target rounds i = (j : Int) ∧
        target ≤ levels.size j) ∨
      (KPageHeap.getAlignedBlockIndexFrom target rounds i = -1 ∧
        ∀ j, i ≤ j → j < 7 → levels.size j < target) := by
  induction rounds generalizing i with
  | zero => exact Or.inr ⟨rfl, fun j h1 h2 => by omega⟩
  | succ rounds ih =>
    rw [KPageHeap.getAlignedBlockIndexFrom, two_pow_pageShift, Nat.mul_div_cancel _ (by decide)]
    split
    · next hle => exact Or.inl ⟨i, by omega, rfl, hle⟩
    rename_i hlt
    rcases ih (by omega : i + 1 + rounds = 7) with hfound | ⟨hnone, hall⟩
    · exact Or.inl hfound
    refine Or.inr ⟨hnone, fun j h1 h2 => ?_⟩
    rcases Nat.lt_or_eq_of_le h1 with h1 | rfl
    · exact hall j h1 h2
    · omega

/-- The request fits into a block of the largest size. -/
def FitsBlock (numPages alignPages : Nat) : Prop := max numPages alignPages ≤ 2 ^ 18

instance {numPages alignPages : Nat} : Decidable (FitsBlock numPages alignPages) :=
  inferInstanceAs (Decidable (_ ≤ _))

theorem getAlignedBlockIndex_of_fits (hfit : FitsBlock numPages alignPages) :
    ∃ j : Nat, j < 7 ∧ KPageHeap.getAlignedBlockIndex numPages alignPages = (j : Int) ∧
      max numPages alignPages ≤ levels.size j := by
  rcases getAlignedBlockIndexFrom_spec (max numPages alignPages)
    (rfl : 0 + numMemoryBlockPageShifts = 7) with hfound | ⟨-, hall⟩
  · exact hfound
  · exact absurd hfit (Nat.not_le_of_lt (hall 6 (by omega) (by omega)))

theorem getAlignedBlockIndex_of_not_fits (hfit : ¬ FitsBlock numPages alignPages) :
    KPageHeap.getAlignedBlockIndex numPages alignPages = -1 := by
  rcases getAlignedBlockIndexFrom_spec (max numPages alignPages)
    (rfl : 0 + numMemoryBlockPageShifts = 7) with ⟨j, hj, -, hle⟩ | ⟨hnone, -⟩
  · exact absurd (hle.trans (levels_size_le (by omega : j ≤ 6))) hfit
  · exact hnone

theorem two_pow_dvd_size {e : Nat} (hle : 2 ^ e ≤ levels.size i) : 2 ^ e ∣ levels.size i :=
  Nat.pow_dvd_pow 2 ((Nat.pow_le_pow_iff_right (by omega : 1 < 2)).1 hle)

theorem Sound.allocateAligned {e : Nat} (hs : Sound lo hi h P) (hfit : FitsBlock numPages (2 ^ e)) :
    ∃ r, h.allocateAligned (KPageHeap.getAlignedBlockIndex numPages (2 ^ e)) numPages (2 ^ e) =
      some r ∧ Takes lo hi P numPages (2 ^ e) r := by
  obtain ⟨j, hj, hindex, hle⟩ := getAlignedBlockIndex_of_fits hfit
  refine ⟨h.allocateByRandom j numPages (2 ^ e), ?_, ?_⟩
  · rw [KPageHeap.allocateAligned, hindex, hs.shaped.numBlocks_eq, if_pos (by omega),
      Int.toNat_natCast]
  · exact hs.allocateByRandom hj ((le_max_left _ _).trans hle)
      (two_pow_dvd_size ((le_max_right _ _).trans hle))

theorem Sound.allocateBlock (hs : Sound lo hi h P) (hidx : index < 7) (random : Bool) :
    ∃ r, h.allocateBlock index random = some r ∧
      Takes lo hi P (levels.size index) (levels.size index) r := by
  have hcond : (0 : Int) ≤ index ∧ (index : Int) < h.numBlocks := by
    rw [hs.shaped.numBlocks_eq]; omega
  cases random with
  | false =>
    refine ⟨h.allocateByLinearSearch index, ?_, hs.allocateByLinearSearch hidx⟩
    rw [KPageHeap.allocateBlock, if_pos hcond]; rfl
  | true =>
    refine ⟨h.allocateByRandom index (levels.size index) (levels.size index), ?_,
      hs.allocateByRandom (e := pageShift index - 12) hidx (le_refl _) (dvd_refl _)⟩
    have hpages : (h.blocks index).getNumPages = levels.size index := by
      rw [Block.getNumPages, hs.shaped.getSize hidx, Nat.mul_div_cancel _ (by decide)]
    rw [KPageHeap.allocateBlock, if_pos hcond, ← hpages]; rfl

end Allocate

/-! ## The initial heap -/

section Init

variable {h₀ : KPageHeap T}

/-- The rounding of a level, in pages: to blocks of the next size, or of its own at the end. -/
def alignPagesOf (i : Nat) : Nat := if i ≠ 6 then levels.size (i + 1) else levels.size i

theorem size_dvd_alignPagesOf (i : Nat) : levels.size i ∣ alignPagesOf i := by
  rw [alignPagesOf]
  split
  · exact levels.size_dvd i
  · exact dvd_refl _

theorem alignPagesOf_pos (i : Nat) : 0 < alignPagesOf i := by
  rw [alignPagesOf]
  split <;> exact levels.size_pos _

theorem blocks_init (hle : lo ≤ hi) (hi7 : i < 7) :
    (h₀.init (lo * PageSize) ((hi - lo) * PageSize)).blocks i =
      { bitmap := (h₀.blocks i).bitmap.init
          ((alignUp hi (alignPagesOf i) - alignDown lo (alignPagesOf i)) / levels.size i)
        heapAddress := alignDown lo (alignPagesOf i) * PageSize
        blockShift := pageShift i
        nextBlockShift := if i ≠ 6 then pageShift (i + 1) else 0 } := by
  have hstop : lo * PageSize + (hi - lo) * PageSize = hi * PageSize := by
    rw [← Nat.add_mul]
    congr 1; omega
  have halign : (if (if i ≠ 6 then pageShift (i + 1) else 0) ≠ 0 then
      2 ^ (if i ≠ 6 then pageShift (i + 1) else 0) else 2 ^ pageShift i) =
      alignPagesOf i * PageSize := by
    have h12 := le_pageShift (i + 1)
    rw [alignPagesOf]
    by_cases h6 : i = 6
    · subst h6
      rfl
    · have hne : pageShift (i + 1) ≠ 0 := by omega
      simp [h6, hne, two_pow_pageShift]
  have hlast : numMemoryBlockPageShifts - 1 = 6 := rfl
  rw [KPageHeap.init]
  dsimp only
  rw [if_pos (show i < numMemoryBlockPageShifts from hi7), Block.init, hstop, hlast,
    halign, alignDown_mul_right, alignUp_mul_right, ← Nat.sub_mul, two_pow_pageShift,
    Nat.mul_div_mul_right _ _ (by decide)]

theorem base_init (hle : lo ≤ hi) (hi7 : i < 7) :
    ((h₀.init (lo * PageSize) ((hi - lo) * PageSize)).blocks i).base =
      alignDown lo (alignPagesOf i) / levels.size i := by
  rw [blocks_init hle hi7, Block.base, Block.getSize]
  dsimp only
  rw [two_pow_pageShift, Nat.mul_div_mul_right _ _ (by decide)]

theorem blocks_init_eq (address size : Nat) (hi7 : i < 7) :
    (h₀.init address size).blocks i = (h₀.blocks i).init address size (pageShift i) (nextShift i) :=
  if_pos hi7

theorem level_init (hle : lo ≤ hi) (hi7 : i < 7) :
    LevelShape lo hi i ((h₀.init (lo * PageSize) ((hi - lo) * PageSize)).blocks i) := by
  have hsize := levels.size_pos i
  have hdvd := size_dvd_alignPagesOf i
  have hdown : levels.size i ∣ alignDown lo (alignPagesOf i) := by
    rw [alignDown_eq]; exact hdvd.trans (Dvd.intro_left _ rfl)
  have hle_lo := alignDown_le lo (alignPagesOf i)
  have hle_hi := le_alignUp hi (alignPagesOf_pos i)
  refine ⟨?_, ?_, ?_, ?_, ?_, ?_, ?_⟩
  · rw [blocks_init hle hi7]
  · rw [blocks_init hle hi7]
  · intro k hk
    rw [base_init hle hi7]
    exact Nat.div_le_of_le_mul (by rw [Nat.mul_comm]; omega)
  · intro h6
    rw [base_init hle hi7, alignDown_eq, alignPagesOf, if_pos (by omega), levels.size_succ,
      Nat.mul_comm (levels.size i), ← Nat.mul_assoc, Nat.mul_div_cancel _ hsize]
    exact Dvd.intro_left _ rfl
  · intro k hk
    rw [base_init hle hi7, blocks_init hle hi7]
    refine lt_of_le_of_lt ?_ (KPageBitmap.lt_pow_getRequiredDepth _)
    rw [Nat.le_div_iff_mul_le hsize, Nat.sub_mul, Nat.div_mul_cancel hdown]
    rw [Nat.add_mul] at hk
    omega
  · rw [blocks_init_eq _ _ hi7]
    rfl
  · rw [blocks_init_eq _ _ hi7]; rfl

theorem sound_init (hpos : 0 < lo) (hle : lo ≤ hi) :
    Sound lo hi (h₀.init (lo * PageSize) ((hi - lo) * PageSize)) ∅ := by
  refine ⟨⟨hpos, rfl, fun i hi7 => level_init hle hi7⟩, empty_subset _, fun _ => ∅, ?_, ?_, ?_⟩
  · intro i hi7
    refine ⟨?_, ∅, ?_, fun k => ?_⟩
    · rw [base_init hle hi7, Block.getSize, blocks_init hle hi7]
      dsimp only
      rw [two_pow_pageShift, ← Nat.mul_assoc, Nat.div_mul_cancel]
      rw [alignDown_eq]
      exact (size_dvd_alignPagesOf i).trans (Dvd.intro_left _ rfl)
    · rw [blocks_init hle hi7]
      exact KPageBitmap.represents_init _ _
    · simp
  · exact levels.packed_empty
  · exact levels.free_empty

end Init

/-! ## The pages that the bits denote -/

/-- The bit of the level-`i` block around page `p` is set. -/
def Denotes (h : KPageHeap T) (i p : Nat) : Prop :=
  i < h.numBlocks ∧ (h.blocks i).heapAddress ≤ p * PageSize ∧
    KPageBitmap.bitAt (h.blocks i).bitmap.bitStorages ((h.blocks i).bitmap.usedDepths - 1)
      ((p * PageSize - (h.blocks i).heapAddress) >>> (h.blocks i).blockShift) = true

/-- The set bits denote exactly the pages of `P`, each at one level, and nothing that could be a
    larger block is left in pieces. -/
structure Exact (h : KPageHeap T) (P : Set Nat) : Prop where
  denotes_iff : ∀ p, (∃ i, h.Denotes i p) ↔ p ∈ P
  one_level : ∀ i j p, h.Denotes i p → h.Denotes j p → i = j
  numFreePages_eq : h.getNumFreePages = P.ncard
  coalesced : ∀ i, i + 1 < h.numBlocks → ∀ q, ∃ p,
    p / (h.blocks (i + 1)).getNumPages = q ∧ ¬ h.Denotes i p

theorem denotes_iff_mem (hs : Shaped lo hi h) (hF : ∀ i < 7, (h.blocks i).Holds (F i)) :
    h.Denotes i p ↔ i ≤ 6 ∧ p / levels.size i ∈ F i := by
  rw [KPageHeap.Denotes, hs.numBlocks_eq, Nat.lt_succ_iff]
  refine and_congr_right fun hi6 => ?_
  have hpage : 0 < PageSize := by decide
  have hsize := levels.size_pos i
  have hholds := hF i (by omega)
  obtain ⟨S, hS, hmem⟩ := hholds.bits
  have haddr : (h.blocks i).heapAddress = (h.blocks i).base * levels.size i * PageSize := by
    rw [← hholds.aligned, hs.getSize (by omega), Nat.mul_assoc]
  have hoffset : (p * PageSize - (h.blocks i).heapAddress) >>> (h.blocks i).blockShift =
      p / levels.size i - (h.blocks i).base := by
    rw [haddr, (hs.level i (by omega)).shift_eq, Nat.shiftRight_eq_div_pow, two_pow_pageShift,
      ← Nat.sub_mul, Nat.mul_div_mul_right _ _ hpage, Nat.mul_comm, Nat.sub_mul_div]
  rw [hoffset, hS.bit_iff, hmem, haddr, Nat.mul_le_mul_right_iff hpage,
    Nat.le_div_iff_mul_le hsize]

theorem Sound.toExact (hs : Sound lo hi h P) : h.Exact P := by
  obtain ⟨F, hF, hp, rfl⟩ := hs.exact
  have hden : ∀ {i p}, h.Denotes i p ↔ i ≤ 6 ∧ p / levels.size i ∈ F i :=
    denotes_iff_mem hs.shaped hF
  have hpages : ∀ i < 7, (h.blocks i).getNumPages = levels.size i := by
    intro i hi7
    rw [Block.getNumPages, hs.shaped.getSize hi7, Nat.mul_div_cancel _ (by decide)]
  refine ⟨fun p => ?_, fun i j p hpi hpj => ?_, ?_, fun i hi7 q => ?_⟩
  · rw [Lib.BlockSizes.mem_free]
    exact exists_congr fun i => hden
  · exact hp.unique (hden.1 hpi).1 (hden.1 hpj).1 (hden.1 hpi).2 (hden.1 hpj).2
  · rw [← levels.sum_card_mul_size hp, KPageHeap.getNumFreePages, hs.shaped.numBlocks_eq]
    have hsum : ∀ f : Nat → Nat, ((List.range 7).map f).sum = ∑ i ∈ Finset.range (6 + 1), f i :=
      fun f => rfl
    rw [hsum]
    refine Finset.sum_congr rfl fun i hi => ?_
    rw [Finset.mem_range] at hi
    rw [Block.getNumFreePages, (hF i hi).getNumFreeBlocks, hpages i hi]
  · rw [hs.shaped.numBlocks_eq] at hi7
    rw [hpages (i + 1) hi7]
    by_contra hall
    refine hp.noFull (by omega : i < 6) q fun k hk => ?_
    -- The first page of a block of the group is denoted, so the block is free.
    have hfirst : k * levels.size i / levels.size i = k :=
      Nat.mul_div_cancel _ (levels.size_pos i)
    by_contra hkF
    refine hall ⟨k * levels.size i, ?_, fun hc => hkF ?_⟩
    · rw [levels.div_size_succ, hfirst]
      exact levels.mem_group.1 hk
    · have hmem := (hden.1 hc).2
      rwa [hfirst] at hmem

/-! ## Nothing is overlooked -/

section Search

variable {index : Nat}

theorem Sound.numFreeBlocks_eq_zero [TinyMT T] (hs : Sound lo hi h P) (hi7 : i < 7) {random : Bool}
    (hzero : ((h.blocks i).popBlock random).1 = 0) : (h.blocks i).getNumFreeBlocks = 0 := by
  obtain ⟨F, hF, hp, rfl⟩ := hs.exact
  have hnot : 0 ∉ F i := by
    intro hmem
    have hsub := levels.points_subset_free (by omega : i ≤ 6) hmem
    have hle := ((points_subset_Ico i 0).1 (hsub.trans hs.within)).1
    rw [Nat.zero_mul] at hle; exact absurd hs.shaped.lo_pos (by omega)
  rw [(hF i hi7).getNumFreeBlocks, (hF i hi7).popBlock_eq_zero hnot hzero, Finset.card_empty]

theorem Sound.eq_empty (hs : Sound lo hi h P)
    (hnone : ∀ i < 7, (h.blocks i).getNumFreeBlocks = 0) : P = ∅ := by
  have hcard := hs.toExact.numFreePages_eq
  have hsum : h.getNumFreePages = 0 := by
    rw [getNumFreePages, hs.shaped.numBlocks_eq]
    refine List.sum_eq_zero fun x hx => ?_
    obtain ⟨i, hi, rfl⟩ := List.mem_map.1 hx
    rw [Block.getNumFreePages, hnone i (List.mem_range.1 hi), Nat.zero_mul]
  rw [hsum] at hcard
  exact (Set.ncard_eq_zero ((Set.finite_Ico lo hi).subset hs.within)).1 hcard.symm

theorem allocateByLinearSearchLoop_eq_zero [TinyMT T] {rounds needed : Nat} (hs : Sound lo hi h P)
    (hrounds : i + rounds = 7)
    (hzero : (KPageHeap.allocateByLinearSearchLoop needed rounds h i).1 = 0) :
    ∀ j, i ≤ j → j < 7 → (h.blocks j).getNumFreeBlocks = 0 := by
  induction rounds generalizing h i with
  | zero => exact fun j h1 h2 => by omega
  | succ rounds ih =>
    have hi7 : i < 7 := by omega
    intro j hij hj
    rw [KPageHeap.allocateByLinearSearchLoop] at hzero
    rcases hs.popBlock hi7 false with ⟨hpop, hs'⟩ | ⟨k, hk, haddr, -, -⟩
    · rw [if_neg (not_not.2 hpop)] at hzero
      rcases Nat.lt_or_eq_of_le hij with hlt | rfl
      · have hlater := ih hs' (by omega) hzero j hlt hj
        have hsame : (h.setBlock i ((h.blocks i).popBlock false).2).blocks j = h.blocks j :=
          update_of_ne (by omega) _ _
        rwa [hsame] at hlater
      · exact hs.numFreeBlocks_eq_zero hi7 hpop
    · have hne : ((h.blocks i).popBlock false).1 ≠ 0 := by
        rw [haddr]; exact Nat.mul_ne_zero (Nat.mul_pos hk (levels.size_pos i)).ne' (by decide)
      rw [if_pos hne] at hzero
      dsimp only at hzero
      split at hzero <;> exact absurd hzero hne

theorem possibleAlignmentsAt_eq_zero {neededSize alignShift : Nat}
    (hzero : h.possibleAlignmentsAt neededSize alignShift i = 0) :
    (h.blocks i).getNumFreeBlocks = 0 :=
  (Nat.mul_eq_zero.1 hzero).resolve_left (by
    rw [Nat.add_comm]; exact Nat.succ_ne_zero _)

theorem countAlignments_eq_sum {rounds : Nat} (neededSize alignShift possible : Nat)
    (hrounds : i + rounds = h.numBlocks) :
    let c := h.countAlignments neededSize alignShift rounds i possible
    c.1 = possible + ∑ k ∈ Finset.Ico i c.2, h.possibleAlignmentsAt neededSize alignShift k ∧
      i ≤ c.2 ∧ (c.2 = i → rounds = 0) ∧ (c.1 = 0 → c.2 = h.numBlocks) := by
  induction rounds generalizing i possible with
  | zero =>
    have hi : i = h.numBlocks := by omega
    subst hi; simp [countAlignments]
  | succ rounds ih =>
    rw [countAlignments]
    dsimp only
    split
    · next hmany =>
      refine ⟨?_, Nat.le_succ i, fun hc => absurd hc (Nat.succ_ne_self i), fun hc => ?_⟩
      · simp
      · dsimp only at hc; omega
    · obtain ⟨hsum, hle, -, hall⟩ := ih (possible + h.possibleAlignmentsAt neededSize alignShift i)
        (by omega : i + 1 + rounds = h.numBlocks)
      refine ⟨?_, by omega, fun hc => by omega, hall⟩
      rw [hsum, Finset.sum_eq_sum_Ico_succ_bot hle, Nat.add_assoc]

theorem chooseBlock_pos {rounds rnd : Nat} (neededSize alignShift possible : Nat)
    (hle : possible ≤ rnd) (hlt : rnd < possible +
      ∑ k ∈ Finset.Ico i (i + rounds), h.possibleAlignmentsAt neededSize alignShift k) :
    0 < h.possibleAlignmentsAt neededSize alignShift
      (h.chooseBlock neededSize alignShift rnd index rounds i possible) := by
  induction rounds generalizing i possible with
  | zero =>
    rw [Nat.add_zero, Finset.Ico_self, Finset.sum_empty] at hlt; omega
  | succ rounds ih =>
    rw [chooseBlock]
    split
    · omega
    · next hnot =>
      refine ih _ (by omega) ?_
      rw [Finset.sum_eq_sum_Ico_succ_bot (by omega), ← Nat.add_assoc] at hlt
      have hstop : i + 1 + rounds = i + (rounds + 1) := by omega
      rwa [hstop]

theorem Sound.selectBlock_eq_zero [TinyMT T] (hs : Sound lo hi h P) (hidx : index < 7)
    (neededSize alignShift : Nat)
    (hnone : (h.blocks (h.selectBlock index neededSize alignShift).1).getNumFreeBlocks = 0) :
    ∀ j, index ≤ j → j < 7 → (h.blocks j).getNumFreeBlocks = 0 := by
  have hnum := hs.shaped.numBlocks_eq
  obtain ⟨hsum, hle, hpos, hall⟩ := countAlignments_eq_sum (h := h) (i := index)
    neededSize alignShift 0 (by omega : index + (h.numBlocks - index) = h.numBlocks)
  rw [KPageHeap.selectBlock] at hnone
  dsimp only at hnone
  generalize h.countAlignments neededSize alignShift (h.numBlocks - index) index 0 = c
    at hsum hle hpos hall hnone
  rw [Nat.zero_add] at hsum
  have hlt : index < c.2 := Nat.lt_of_le_of_ne hle fun hc => by
    have := hpos hc.symm
    omega
  have hnoneAt : ∀ k, (h.blocks k).getNumFreeBlocks = 0 →
      h.possibleAlignmentsAt neededSize alignShift k = 0 := by
    intro k hk
    rw [possibleAlignmentsAt, hk, Nat.mul_zero]
  have hzero : c.1 = 0 := by
    by_contra hne
    by_cases hmore : index + 1 < c.2
    · rw [if_pos ⟨by omega, hmore⟩] at hnone
      have hrnd := h.rng.generateRandom_lt (by omega : 0 < c.1)
      have hstop : index + (c.2 - index) = c.2 := by omega
      have htotal : (h.rng.generateRandom c.1).1 < 0 + ∑ k ∈ Finset.Ico index
          (index + (c.2 - index)), h.possibleAlignmentsAt neededSize alignShift k := by
        rwa [Nat.zero_add, hstop, ← hsum]
      exact (chooseBlock_pos neededSize alignShift 0 (Nat.zero_le _) htotal).ne' (hnoneAt _ hnone)
    · rw [if_neg fun hc => hmore hc.2] at hnone
      have hone : c.2 = index + 1 := by omega
      rw [hone, Nat.Ico_succ_singleton, Finset.sum_singleton, hnoneAt _ hnone] at hsum
      exact hne hsum
  intro j hij hj
  rw [hzero] at hsum
  refine possibleAlignmentsAt_eq_zero (Finset.sum_eq_zero_iff.1 hsum.symm j ?_)
  rw [Finset.mem_Ico, hall hzero, hnum]
  exact ⟨hij, hj⟩

theorem selectBlock_blocks [TinyMT T] (h : KPageHeap T) (index neededSize alignShift : Nat) :
    (h.selectBlock index neededSize alignShift).2.blocks = h.blocks := by
  rw [KPageHeap.selectBlock]
  dsimp only
  split <;> rfl

theorem Sound.allocateByRandom_eq_zero [TinyMT T] {numPages alignPages : Nat} (hs : Sound lo hi h P)
    (hidx : index < 7) (hzero : (h.allocateByRandom index numPages alignPages).1 = 0) :
    ∀ j, index ≤ j → j < 7 → (h.blocks j).getNumFreeBlocks = 0 := by
  have hblocks := h.selectBlock_blocks index (numPages * PageSize)
    (BitVec.ofNat 64 (alignPages * PageSize)).ctz.toNat
  obtain ⟨-, h7, hsel⟩ := hs.selectBlock hidx (numPages * PageSize)
    (BitVec.ofNat 64 (alignPages * PageSize)).ctz.toNat
  refine hs.selectBlock_eq_zero hidx (numPages * PageSize)
    (BitVec.ofNat 64 (alignPages * PageSize)).ctz.toNat ?_
  rw [← hblocks]
  suffices hpop : (((h.selectBlock index (numPages * PageSize)
      (BitVec.ofNat 64 (alignPages * PageSize)).ctz.toNat).2.blocks _).popBlock true).1 = 0 from
    hsel.numFreeBlocks_eq_zero h7 hpop
  rw [KPageHeap.allocateByRandom] at hzero
  dsimp only at hzero
  split at hzero
  · split at hzero
    · exact Nat.eq_zero_of_add_eq_zero_right hzero
    · exact hzero
  · next hpop => exact not_not.1 hpop

theorem Sound.allocateBlock_eq_zero [TinyMT T] {h' : KPageHeap T} {random : Bool}
    (hs : Sound lo hi h P) (hres : h.allocateBlock 0 random = some (0, h')) : P = ∅ := by
  have hcond : (0 : Int) ≤ 0 ∧ (0 : Int) < h.numBlocks := by
    rw [hs.shaped.numBlocks_eq]; decide
  refine hs.eq_empty fun i hi7 => ?_
  rw [KPageHeap.allocateBlock, if_pos hcond] at hres
  cases random with
  | false =>
    have hfirst := congrArg Prod.fst (Option.some.inj hres)
    rw [KPageHeap.allocateByLinearSearch, hs.shaped.numBlocks_eq] at hfirst
    exact allocateByLinearSearchLoop_eq_zero hs rfl hfirst i (Nat.zero_le i) hi7
  | true =>
    exact hs.allocateByRandom_eq_zero (by decide) (congrArg Prod.fst (Option.some.inj hres)) i
      (Nat.zero_le i) hi7

end Search

/-! ## Runs -/

section Runs

variable [TinyMT T] {address size : Nat} {I O : Set Nat}

/-- The pages of a range that `AllocateBlock` or `AllocateAligned` returned. -/
def allocatedPages (addr numPages : Nat) : Set Nat :=
  {p | addr ≠ 0 ∧ addr / PageSize ≤ p ∧ p < addr / PageSize + numPages}

def heapPages (address size : Nat) : Set Nat :=
  Ico (address / PageSize) ((address + size) / PageSize)

/-- A range that `Initialize` can take: the `MaxDepth = 4` storages are enough for each bitmap (an assertion
    that only logs), and the range, rounded to the largest blocks, ends inside the address space. -/
structure Representable (address size : Nat) : Prop where
  depth : ∀ i < 7, KPageBitmap.getRequiredDepth (coveredBlocks address size i) ≤ 4
  stop : alignUp (address + size) (2 ^ pageShift 6) < 2 ^ 64

/-- A bitmap stays inside its storages, and what it covers inside the address space. -/
structure InSource (address size i : Nat) (b : Block T) : Prop where
  depths : b.bitmap.usedDepths ≤ 4
  stop : b.heapAddress + coveredBlocks address size i * 2 ^ pageShift i < 2 ^ 64

/-- A heap, the pages `I` given to it so far, and the pages `O` of them that are handed out. -/
inductive Reachable (address size : Nat) : KPageHeap T → Set Nat → Set Nat → Prop
  | init (h : KPageHeap T) : Reachable address size (h.init address size) ∅ ∅
  | give {h : KPageHeap T} {I O : Set Nat} {p n : Nat} : Reachable address size h I O →
      Ico p (p + n) ⊆ heapPages address size \ I →
      Reachable address size (h.free (p * PageSize) n) (I ∪ Ico p (p + n)) O
  | free {h : KPageHeap T} {I O : Set Nat} {p n : Nat} : Reachable address size h I O →
      Ico p (p + n) ⊆ O →
      Reachable address size (h.free (p * PageSize) n) I (O \ Ico p (p + n))
  | allocateBlock {h h' : KPageHeap T} {I O : Set Nat} {index addr : Nat} {random : Bool} :
      Reachable address size h I O → index < 7 →
      h.allocateBlock index random = some (addr, h') →
      Reachable address size h' I (O ∪ allocatedPages addr (levels.size index))
  | allocateAligned {h h' : KPageHeap T} {I O : Set Nat} {numPages e addr : Nat} :
      Reachable address size h I O → FitsBlock numPages (2 ^ e) →
      h.allocateAligned (getAlignedBlockIndex numPages (2 ^ e)) numPages (2 ^ e) = some (addr, h') →
      Reachable address size h' I (O ∪ allocatedPages addr numPages)

/-- A returned range: inside the heap, not handed out already, and aligned. -/
structure Fresh (address size : Nat) (O : Set Nat) (numPages alignPages addr : Nat) : Prop where
  inside : allocatedPages addr numPages ⊆ heapPages address size
  disjoint : Disjoint (allocatedPages addr numPages) O
  aligned : alignPages * PageSize ∣ addr

/-- `Sound` for the pages given and not handed out. -/
structure RunInv (lo hi : Nat) (h : KPageHeap T) (I O : Set Nat) : Prop where
  outstanding : O ⊆ I
  given : I ⊆ Ico lo hi
  sound : Sound lo hi h (I \ O)

omit [TinyMT T] in
theorem Sound.free_subset (hs : Sound lo hi h P) (hin : Ico p (p + n) ⊆ Ico lo hi)
    (hnew : Disjoint P (Ico p (p + n))) :
    Sound lo hi (h.free (p * PageSize) n) (P ∪ Ico p (p + n)) := by
  rcases Nat.eq_zero_or_pos n with rfl | hn
  · rw [KPageHeap.free, if_pos rfl, Nat.add_zero, Ico_self, union_empty]
    exact hs
  · obtain ⟨hlo, hhi⟩ := (Ico_subset_Ico_iff (by omega)).1 hin; exact hs.free hlo hhi hnew

theorem allocatedPages_zero (n : Nat) : allocatedPages 0 n = ∅ := by
  ext x
  simp [allocatedPages]

theorem allocatedPages_page (hp : 0 < p) : allocatedPages (p * PageSize) n = Ico p (p + n) := by
  have hne : p * PageSize ≠ 0 := Nat.mul_ne_zero hp.ne' (by decide)
  ext x
  simp [allocatedPages, hne, Nat.mul_div_cancel _ (show 0 < PageSize by decide), mem_Ico]

omit [TinyMT T] in
theorem RunInv.takes {a addr : Nat} {h' : KPageHeap T} (hr : RunInv lo hi h I O)
    (ht : Takes lo hi (I \ O) n a (addr, h')) :
    RunInv lo hi h' I (O ∪ allocatedPages addr n) ∧
      (addr ≠ 0 → allocatedPages addr n ⊆ Ico lo hi ∧ Disjoint (allocatedPages addr n) O ∧
        a * PageSize ∣ addr) := by
  rcases ht with ⟨hzero, hs⟩ | ⟨p, hp, haddr, hdvd, hsub, hs⟩
  · dsimp only at hzero hs
    subst hzero
    rw [allocatedPages_zero, union_empty]
    exact ⟨⟨hr.outstanding, hr.given, hs⟩, fun hc => absurd rfl hc⟩
  · dsimp only at haddr hs
    subst haddr
    rw [allocatedPages_page hp]
    refine ⟨⟨?_, hr.given, ?_⟩, fun _ => ⟨?_, ?_, Nat.mul_dvd_mul_right hdvd _⟩⟩
    · exact union_subset hr.outstanding (hsub.trans sdiff_subset)
    · rw [← sdiff_sdiff]
      exact hs
    · exact hsub.trans (sdiff_subset.trans hr.given)
    · exact disjoint_sdiff_left.mono_left hsub

theorem heapPages_eq (hle : lo ≤ hi) :
    heapPages (lo * PageSize) ((hi - lo) * PageSize) = Ico lo hi := by
  have hpage : 0 < PageSize := by decide
  have hstop : lo + (hi - lo) = hi := by omega
  rw [heapPages, ← Nat.add_mul, hstop, Nat.mul_div_cancel _ hpage, Nat.mul_div_cancel _ hpage]

theorem runInv_of_reachable (hpos : 0 < lo) (hle : lo ≤ hi)
    (hr : Reachable (lo * PageSize) ((hi - lo) * PageSize) h I O) : RunInv lo hi h I O := by
  induction hr with
  | init h₀ =>
    refine ⟨empty_subset _, empty_subset _, ?_⟩
    rw [sdiff_empty]; exact sound_init hpos hle
  | @give h I O p n _ hin ih =>
    rw [heapPages_eq hle] at hin
    have hnew : Disjoint I (Ico p (p + n)) := disjoint_sdiff_right.mono_right hin
    have hout : Disjoint O (Ico p (p + n)) := hnew.mono_left ih.outstanding
    refine ⟨ih.outstanding.trans subset_union_left, ?_, ?_⟩
    · exact union_subset ih.given (hin.trans sdiff_subset)
    · rw [union_sdiff_distrib, hout.symm.sdiff_eq_left]
      exact ih.sound.free_subset (hin.trans sdiff_subset) (hnew.mono_left sdiff_subset)
  | @free h I O p n _ hin ih =>
    have hgiven := hin.trans ih.outstanding
    refine ⟨sdiff_subset.trans ih.outstanding, ih.given, ?_⟩
    rw [sdiff_sdiff_eq_sdiff_union hgiven]
    exact ih.sound.free_subset (hgiven.trans ih.given) (disjoint_sdiff_left.mono_right hin)
  | @allocateBlock h h' I O index addr random _ hidx hres ih =>
    obtain ⟨r, hr, ht⟩ := ih.sound.allocateBlock hidx random
    obtain rfl := Option.some.inj (hres.symm.trans hr); exact (ih.takes ht).1
  | @allocateAligned h h' I O numPages e addr _ hfit hres ih =>
    obtain ⟨r, hr, ht⟩ := ih.sound.allocateAligned hfit
    obtain rfl := Option.some.inj (hres.symm.trans hr); exact (ih.takes ht).1

theorem blockAlign_dvd_last (hi7 : i < 7) : blockAlign (pageShift i) (nextShift i) ∣ 2 ^ pageShift 6 := by
  interval_cases i <;> decide

omit [TinyMT T] in
theorem Representable.inSource (hs : Shaped lo hi h)
    (hrep : Representable (lo * PageSize) ((hi - lo) * PageSize)) (hi7 : i < 7) :
    InSource (lo * PageSize) ((hi - lo) * PageSize) i (h.blocks i) := by
  have hlevel := hs.level i hi7
  refine ⟨hlevel.usedDepths_eq.trans_le (hrep.depth i hi7), ?_⟩
  have hround := alignUp_le_of_dvd (Nat.two_pow_pos _) (blockAlign_dvd_last hi7)
    (lo * PageSize + (hi - lo) * PageSize)
  have hcovered := Nat.div_mul_le_self (alignUp (lo * PageSize + (hi - lo) * PageSize)
    (blockAlign (pageShift i) (nextShift i)) - blockStart (lo * PageSize) (pageShift i) (nextShift i))
    (2 ^ pageShift i)
  have hstart := alignDown_le (lo * PageSize) (blockAlign (pageShift i) (nextShift i))
  have hstop := hrep.stop
  have hup := le_alignUp (lo * PageSize + (hi - lo) * PageSize) (Nat.two_pow_pos (pageShift 6))
  rw [hlevel.heapAddress_eq]
  show blockStart (lo * PageSize) (pageShift i) (nextShift i) + _ < _
  rw [blockStart] at hcovered ⊢
  rw [coveredBlocks, blockStart]
  omega

omit [TinyMT T] in
theorem allocateAligned_of_not_fits [TinyMT T] {numPages alignPages : Nat}
    (hfit : ¬ FitsBlock numPages alignPages) :
    h.allocateAligned (getAlignedBlockIndex numPages alignPages) numPages alignPages = none := by
  rw [getAlignedBlockIndex_of_not_fits hfit]; exact if_neg fun hc => absurd hc.1 (by decide)

/-- **No page is handed out twice and none is lost.**  In every state of every run the bits denote
    exactly the pages given to the heap and not handed out, in the storages and addresses of the source.
    Every block size can be asked for, an aligned request has a result exactly if it fits a block, and what
    is returned is fresh. -/
theorem pages_of_reachable (haddress : PageSize ∣ address) (hsize : PageSize ∣ size)
    (hpos : 0 < address) (hrep : Representable address size) (hr : Reachable address size h I O) :
    (∀ i < 7, InSource address size i (h.blocks i)) ∧ O ⊆ I ∧ I ⊆ heapPages address size ∧ h.Exact (I \ O) ∧
      (∀ index < 7, ∀ random, ∃ addr h', h.allocateBlock (index : Nat) random = some (addr, h') ∧
        (addr ≠ 0 → Fresh address size O (levels.size index) (levels.size index) addr)) ∧
      ∀ numPages e, FitsBlock numPages (2 ^ e) ↔ ∃ addr h',
        h.allocateAligned (getAlignedBlockIndex numPages (2 ^ e)) numPages (2 ^ e) =
          some (addr, h') ∧ (addr ≠ 0 → Fresh address size O numPages (2 ^ e) addr) := by
  obtain ⟨lo, hlo⟩ := haddress
  obtain ⟨m, hm⟩ := hsize
  obtain rfl : address = lo * PageSize := by rw [hlo, Nat.mul_comm]
  obtain rfl : size = (lo + m - lo) * PageSize := by rw [hm, Nat.mul_comm, Nat.add_sub_cancel_left]
  have hlo_pos : 0 < lo := Nat.pos_of_mul_pos_right hpos
  have hle : lo ≤ lo + m := Nat.le_add_right lo m
  have hinv := runInv_of_reachable hlo_pos hle hr
  -- What an allocation that succeeds says about its range.
  have hfresh : ∀ {n a addr : Nat} {h' : KPageHeap T},
      Takes lo (lo + m) (I \ O) n a (addr, h') → addr ≠ 0 →
      Fresh (lo * PageSize) ((lo + m - lo) * PageSize) O n a addr := by
    intro n a addr h' ht hne
    obtain ⟨hin, hdisj, hdvd⟩ := (hinv.takes ht).2 hne
    exact ⟨by rwa [heapPages_eq hle], hdisj, hdvd⟩
  refine ⟨fun i hi7 => hrep.inSource hinv.sound.shaped hi7, hinv.outstanding, ?_, hinv.sound.toExact,
    fun index hidx random => ?_, fun numPages e => ⟨fun hfit => ?_, ?_⟩⟩
  · rw [heapPages_eq hle]
    exact hinv.given
  · obtain ⟨⟨addr, h'⟩, hres, ht⟩ := hinv.sound.allocateBlock hidx random
    exact ⟨addr, h', hres, hfresh ht⟩
  · obtain ⟨⟨addr, h'⟩, hres, ht⟩ := hinv.sound.allocateAligned hfit
    exact ⟨addr, h', hres, hfresh ht⟩
  · rintro ⟨addr, h', hres, -⟩
    by_contra hfit
    rw [allocateAligned_of_not_fits hfit] at hres; cases hres

/-- A generator that only yields zeros. -/
instance zeroGenerator : TinyMT Unit := ⟨fun _ => (0#32, ())⟩

/-- A heap of four pages at `0x80000000`, all of them given to it. -/
def fourPageHeap : KPageHeap Unit :=
  let g : RandomBitGenerator Unit := ⟨(), 0#32, 0⟩
  (init ⟨0, 0, 0, fun _ => ⟨⟨fun _ _ => 0, 0, 0, g⟩, 0, 0, 0⟩, g⟩ 0x80000000 0x4000).free
    (0x80000 * PageSize) 4

theorem reachable_fourPageHeap :
    Reachable 0x80000000 0x4000 fourPageHeap (∅ ∪ Ico 0x80000 (0x80000 + 4)) ∅ := by
  refine Reachable.give (Reachable.init _) ?_
  rw [sdiff_empty]
  exact subset_refl _

theorem representable_fourPageHeap : Representable 0x80000000 0x4000 := by
  refine ⟨fun i hi7 => ?_, by decide⟩
  interval_cases i <;> decide

theorem pages_of_fourPageHeap :
    fourPageHeap.getNumFreePages = 4 ∧ ∃ addr h',
      fourPageHeap.allocateAligned (getAlignedBlockIndex 1 (2 ^ 0)) 1 (2 ^ 0) = some (addr, h') ∧
        addr ≠ 0 ∧ Fresh 0x80000000 0x4000 ∅ 1 (2 ^ 0) addr := by
  have hrun := pages_of_reachable (by decide) (by decide) (by decide) representable_fourPageHeap
    reachable_fourPageHeap
  obtain ⟨addr, h', hres, hfresh⟩ := (hrun.2.2.2.2.2 1 0).1 (by decide)
  have haddr : (fourPageHeap.allocateAligned (getAlignedBlockIndex 1 (2 ^ 0)) 1 (2 ^ 0)).map
      Prod.fst = some 0x80000000 := by decide +kernel
  have hne : addr ≠ 0 := by
    rintro rfl
    rw [hres] at haddr
    have hzero : 0 = 0x80000000 := Option.some.inj haddr
    omega
  exact ⟨by decide +kernel, addr, h', hres, hne, hfresh hne⟩

/-- A request for more than 1 GiB has no defined result, in a state that a run reaches. -/
theorem allocateAligned_undefined :
    Reachable 0x80000000 0x4000 fourPageHeap (∅ ∪ Ico 0x80000 (0x80000 + 4)) ∅ ∧
      fourPageHeap.allocateAligned (getAlignedBlockIndex (2 ^ 18 + 1) 1) (2 ^ 18 + 1) 1 = none :=
  ⟨reachable_fourPageHeap, rfl⟩

end Runs

end Suyu.Kernel.KPageHeap
