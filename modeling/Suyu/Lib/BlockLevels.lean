/-
  BLOCK LEVELS: a set of points kept as aligned blocks of several sizes (a buddy system).

  Level `i` cuts the numbers into blocks of `size i` points, and every size divides the next, so a
  block of one level is a GROUP of blocks of the level below.  A state gives the free blocks of each
  level; a point is free when the block around it is, at some level.

  `Packed` is what an allocator keeps: no point is free at two levels, and no group is free as a
  whole one level too low.  `push` adds a block and coalesces upwards; `pop` takes one away.
  The induction is on the levels ABOVE the block: coalescing removes a whole group and leaves the
  same problem one level up.
-/
import Mathlib.Algebra.BigOperators.Group.Finset.Basic
import Mathlib.Data.Set.Card
import Mathlib.Order.Interval.Finset.Nat
import Mathlib.Tactic.Common

namespace Lib

open Function (update update_self update_of_ne)

/-- The number of points in a block of each level. -/
structure BlockSizes where
  size : ℕ → ℕ
  size_pos : ∀ i, 0 < size i
  size_dvd : ∀ i, size i ∣ size (i + 1)

namespace BlockSizes

variable (L : BlockSizes) {i j k g x top : ℕ} {F : ℕ → Finset ℕ}

/-- How many blocks of level `i` make one of level `i + 1`. -/
def ratio (i : ℕ) : ℕ := L.size (i + 1) / L.size i

/-- The points of block `k` of level `i`. -/
def points (i k : ℕ) : Finset ℕ := Finset.Ico (k * L.size i) ((k + 1) * L.size i)

/-- The blocks of level `i` that make block `g` of level `i + 1`. -/
def group (i g : ℕ) : Finset ℕ := Finset.Ico (g * L.ratio i) ((g + 1) * L.ratio i)

/-- The points free at some level up to `top`. -/
def free (top : ℕ) (F : ℕ → Finset ℕ) : Set ℕ := {x | ∃ i ≤ top, x / L.size i ∈ F i}

structure Packed (top : ℕ) (F : ℕ → Finset ℕ) : Prop where
  unique : ∀ {i j x}, i ≤ top → j ≤ top → x / L.size i ∈ F i → x / L.size j ∈ F j → i = j
  noFull : ∀ {i}, i < top → ∀ g, ¬ L.group i g ⊆ F i

/-- Add block `k` of level `i`, with `n` levels above it; a group that becomes full moves up. -/
def push : ℕ → (ℕ → Finset ℕ) → ℕ → ℕ → (ℕ → Finset ℕ)
  | 0, F, i, k => update F i (insert k (F i))
  | n + 1, F, i, k =>
    if L.group i (k / L.ratio i) ⊆ insert k (F i) then
      push n (update F i (insert k (F i) \ L.group i (k / L.ratio i))) (i + 1) (k / L.ratio i)
    else update F i (insert k (F i))

def pop (F : ℕ → Finset ℕ) (i k : ℕ) : ℕ → Finset ℕ := update F i ((F i).erase k)

/-! ## Blocks, groups and points -/

theorem size_succ (i : ℕ) : L.size (i + 1) = L.size i * L.ratio i :=
  (Nat.mul_div_cancel' (L.size_dvd i)).symm

theorem ratio_pos (i : ℕ) : 0 < L.ratio i :=
  Nat.div_pos (Nat.le_of_dvd (L.size_pos _) (L.size_dvd i)) (L.size_pos i)

theorem div_size_succ (i x : ℕ) : x / L.size (i + 1) = x / L.size i / L.ratio i := by
  rw [L.size_succ, Nat.div_div_eq_div_mul]

theorem mem_Ico_mul_iff {a n : ℕ} (hn : 0 < n) :
    x ∈ Finset.Ico (a * n) ((a + 1) * n) ↔ x / n = a := by
  rw [Finset.mem_Ico, ← Nat.le_div_iff_mul_le hn, ← Nat.div_lt_iff_lt_mul hn]; omega

@[simp] theorem mem_points : x ∈ L.points i k ↔ x / L.size i = k := mem_Ico_mul_iff (L.size_pos i)

@[simp] theorem mem_group : k ∈ L.group i g ↔ k / L.ratio i = g := mem_Ico_mul_iff (L.ratio_pos i)

theorem card_points (i k : ℕ) : (L.points i k).card = L.size i := by
  rw [points, Nat.card_Ico, Nat.add_mul, Nat.one_mul, Nat.add_sub_cancel_left]

theorem size_dvd_size (h : i ≤ j) : L.size i ∣ L.size j := by
  induction j, h using Nat.le_induction with
  | base => exact dvd_refl _
  | succ j _ ih => exact ih.trans (L.size_dvd j)

theorem mem_free : x ∈ L.free top F ↔ ∃ i ≤ top, x / L.size i ∈ F i := Iff.rfl

theorem points_subset_free (hi : i ≤ top) (hk : k ∈ F i) :
    (L.points i k : Set ℕ) ⊆ L.free top F := by
  intro x hx
  rw [Finset.mem_coe, mem_points] at hx
  exact ⟨i, hi, by rwa [hx]⟩

theorem notMem_of_notMem_free (hi : i ≤ top) (hnew : ∀ x, x / L.size i = k → x ∉ L.free top F) :
    k ∉ F i := by
  intro hk
  have hdiv : k * L.size i / L.size i = k := Nat.mul_div_cancel _ (L.size_pos i)
  exact hnew (k * L.size i) hdiv ⟨i, hi, by rwa [hdiv]⟩

theorem mul_mem_group (i g : ℕ) : g * L.ratio i ∈ L.group i g := by
  rw [mem_group, Nat.mul_div_cancel _ (L.ratio_pos i)]

theorem packed_empty : L.Packed top fun _ => ∅ :=
  ⟨fun _ _ hx => absurd hx (Finset.notMem_empty _),
    fun _ g hg => absurd (hg (L.mul_mem_group _ g)) (Finset.notMem_empty _)⟩

theorem free_empty : L.free top (fun _ => ∅) = ∅ := by
  ext x
  simp [mem_free]

/-! ## Taking blocks away -/

theorem Packed.mono {S : Finset ℕ} (h : L.Packed top F) (hS : S ⊆ F i) :
    L.Packed top (update F i S) := by
  have hsub : ∀ j, update F i S j ⊆ F j := by
    intro j
    by_cases hj : j = i
    · subst hj
      rw [update_self]
      exact hS
    · rw [update_of_ne hj]
  refine ⟨fun hi hj hx hy => h.unique hi hj (hsub _ hx) (hsub _ hy), fun hi g hg => ?_⟩
  exact h.noFull hi g (hg.trans (hsub _))

/-- Without the blocks of a set `D` of level `i`, exactly their points stop being free. -/
theorem free_update_sdiff {D : Finset ℕ} (h : L.Packed top F) (hi : i ≤ top) (hD : D ⊆ F i) :
    L.free top (update F i (F i \ D)) = L.free top F \ {x | x / L.size i ∈ D} := by
  ext x
  simp only [Set.mem_sdiff, mem_free, Set.mem_ofPred_eq]
  constructor
  · rintro ⟨j, hj, hx⟩
    by_cases hji : j = i
    · subst hji
      rw [update_self, Finset.mem_sdiff] at hx
      exact ⟨⟨j, hj, hx.1⟩, hx.2⟩
    · rw [update_of_ne hji] at hx; exact ⟨⟨j, hj, hx⟩, fun hxD => hji (h.unique hj hi hx (hD hxD))⟩
  · rintro ⟨⟨j, hj, hx⟩, hxD⟩
    refine ⟨j, hj, ?_⟩
    by_cases hji : j = i
    · subst hji
      rw [update_self, Finset.mem_sdiff]
      exact ⟨hx, hxD⟩
    · rwa [update_of_ne hji]

theorem Packed.pop (h : L.Packed top F) : L.Packed top (pop F i k) :=
  h.mono L (Finset.erase_subset _ _)

theorem free_pop (h : L.Packed top F) (hi : i ≤ top) (hk : k ∈ F i) :
    L.free top (pop F i k) = L.free top F \ L.points i k := by
  rw [BlockSizes.pop, Finset.erase_eq, L.free_update_sdiff h hi (Finset.singleton_subset_iff.2 hk)]
  congr 1
  ext x
  simp

/-! ## Adding blocks -/

theorem free_update_insert (hi : i ≤ top) :
    L.free top (update F i (insert k (F i))) = L.free top F ∪ L.points i k := by
  ext x
  simp only [Set.mem_union, mem_free, Finset.mem_coe, mem_points]
  constructor
  · rintro ⟨j, hj, hx⟩
    by_cases hji : j = i
    · subst hji
      rw [update_self, Finset.mem_insert] at hx
      exact hx.elim Or.inr fun hx => Or.inl ⟨j, hj, hx⟩
    · rw [update_of_ne hji] at hx; exact Or.inl ⟨j, hj, hx⟩
  · rintro (⟨j, hj, hx⟩ | hx)
    · refine ⟨j, hj, ?_⟩
      by_cases hji : j = i
      · subst hji
        rw [update_self]
        exact Finset.mem_insert_of_mem hx
      · rwa [update_of_ne hji]
    · refine ⟨i, hi, ?_⟩
      rw [update_self, hx]; exact Finset.mem_insert_self _ _

/-- A block whose points are not free may be added where it does not fill a group. -/
theorem Packed.add (h : L.Packed top F) (hi : i ≤ top)
    (hnew : ∀ x, x / L.size i = k → x ∉ L.free top F)
    (hnot : i < top → ¬ L.group i (k / L.ratio i) ⊆ insert k (F i)) :
    L.Packed top (update F i (insert k (F i))) := by
  -- A point of the new block is free at no other level.
  have hcase : ∀ {j x}, j ≤ top → x / L.size j ∈ update F i (insert k (F i)) j →
      x / L.size j ∈ F j ∧ x ∈ L.free top F ∨ j = i ∧ x / L.size i = k := by
    intro j x hj hx
    by_cases hji : j = i
    · subst hji
      rw [update_self, Finset.mem_insert] at hx
      exact hx.elim (fun hx => Or.inr ⟨rfl, hx⟩) fun hx => Or.inl ⟨hx, j, hj, hx⟩
    · rw [update_of_ne hji] at hx; exact Or.inl ⟨hx, j, hj, hx⟩
  constructor
  · intro j j' x hj hj' hx hx'
    rcases hcase hj hx with ⟨h1, hf⟩ | ⟨rfl, h1⟩ <;> rcases hcase hj' hx' with ⟨h2, hf'⟩ | ⟨rfl, h2⟩
    · exact h.unique hj hj' h1 h2
    · exact absurd hf (hnew x h2)
    · exact absurd hf' (hnew x h1)
    · rfl
  · intro j hj g hg
    by_cases hji : j = i
    · subst hji
      rw [update_self] at hg
      by_cases hgk : k / L.ratio j = g
      · subst hgk
        exact hnot hj hg
      · refine h.noFull hj g fun y hy => ?_
        refine (Finset.mem_insert.1 (hg hy)).resolve_left ?_
        rintro rfl; exact hgk ((L.mem_group).1 hy)
    · rw [update_of_ne hji] at hg; exact h.noFull hj g hg

/-- A full group leaves its level: what is left is packed, and the group's points are not free. -/
theorem Packed.removeGroup (h : L.Packed top F) (hi : i < top)
    (hnew : ∀ x, x / L.size i = k → x ∉ L.free top F)
    (hfull : L.group i (k / L.ratio i) ⊆ insert k (F i)) :
    let F' := update F i (insert k (F i) \ L.group i (k / L.ratio i))
    L.Packed top F' ∧
      (∀ x, x / L.size (i + 1) = k / L.ratio i → x ∉ L.free top F') ∧
      L.free top F' ∪ L.points (i + 1) (k / L.ratio i) = L.free top F ∪ L.points i k := by
  intro F'
  have hk : k ∈ L.group i (k / L.ratio i) := (L.mem_group).2 rfl
  have hF' : F' = update F i (F i \ (L.group i (k / L.ratio i)).erase k) := by
    have hkF : k ∉ F i := L.notMem_of_notMem_free hi.le hnew
    have hset : insert k (F i) \ L.group i (k / L.ratio i) =
        F i \ (L.group i (k / L.ratio i)).erase k := by
      ext y
      simp only [Finset.mem_sdiff, Finset.mem_insert, Finset.mem_erase]
      constructor
      · rintro ⟨rfl | hy, hyg⟩
        · exact absurd hk hyg
        · exact ⟨hy, fun hg => hyg hg.2⟩
      · rintro ⟨hy, hyg⟩
        refine ⟨Or.inr hy, fun hg => hyg ⟨?_, hg⟩⟩
        rintro rfl; exact hkF hy
    show update F i (insert k (F i) \ L.group i (k / L.ratio i)) = _
    rw [hset]
  have hsub : (L.group i (k / L.ratio i)).erase k ⊆ F i := by
    intro y hy
    rw [Finset.mem_erase] at hy
    exact (Finset.mem_insert.1 (hfull hy.2)).resolve_left hy.1
  have hfree := L.free_update_sdiff h hi.le hsub
  rw [← hF'] at hfree
  have hgroup : ∀ x, x / L.size (i + 1) = k / L.ratio i ↔
      x / L.size i ∈ L.group i (k / L.ratio i) := by
    intro x
    rw [L.div_size_succ, mem_group]
  refine ⟨?_, fun x hx => ?_, ?_⟩
  · rw [hF']
    exact h.mono L Finset.sdiff_subset
  · rw [hfree]
    rintro ⟨hxF, hxD⟩
    rw [Set.mem_ofPred_eq, Finset.mem_erase] at hxD
    by_cases hxk : x / L.size i = k
    · exact hnew x hxk hxF
    · exact hxD ⟨hxk, (hgroup x).1 hx⟩
  · ext x
    rw [hfree]
    simp only [Set.mem_union, Set.mem_sdiff, Set.mem_ofPred_eq, Finset.mem_coe, mem_points, hgroup,
      Finset.mem_erase]
    constructor
    · rintro (⟨hx, -⟩ | hx)
      · exact Or.inl hx
      · rcases Finset.mem_insert.1 (hfull hx) with hxk | hxF
        · exact Or.inr hxk
        · exact Or.inl ⟨i, hi.le, hxF⟩
    · rintro (hx | hxk)
      · by_cases hxg : x / L.size i ∈ L.group i (k / L.ratio i)
        · exact Or.inr hxg
        · exact Or.inl ⟨hx, fun hD => hxg hD.2⟩
      · exact Or.inr (by rwa [hxk])

theorem push_spec {n : ℕ} (hn : i + n = top) (h : L.Packed top F)
    (hnew : ∀ x, x / L.size i = k → x ∉ L.free top F) :
    L.Packed top (L.push n F i k) ∧ L.free top (L.push n F i k) = L.free top F ∪ L.points i k := by
  induction n generalizing F i k with
  | zero => exact ⟨h.add L (by omega) hnew (by omega), L.free_update_insert (by omega)⟩
  | succ n ih =>
    rw [push]
    split
    · next hfull =>
      obtain ⟨hp, hnew', hfree⟩ := h.removeGroup L (by omega) hnew hfull
      rw [← hfree]
      exact ih (by omega) hp hnew'
    · next hnot => exact ⟨h.add L (by omega) hnew fun _ => hnot, L.free_update_insert (by omega)⟩

/-! ## Counting -/

/-- The blocks of all levels, counted with their sizes, count the free points. -/
theorem sum_card_mul_size (h : L.Packed top F) :
    ∑ i ∈ Finset.range (top + 1), (F i).card * L.size i = (L.free top F).ncard := by
  have hset : L.free top F =
      ((Finset.range (top + 1)).biUnion fun i => (F i).biUnion (L.points i) : Finset ℕ) := by
    ext x
    simp only [mem_free, Finset.coe_biUnion, Set.mem_iUnion, Finset.mem_coe, Finset.mem_range,
      mem_points, exists_prop, Nat.lt_succ_iff]
    refine exists_congr fun i => and_congr_right fun _ => ?_
    constructor
    · intro hx
      exact ⟨_, hx, rfl⟩
    · rintro ⟨k, hk, rfl⟩; exact hk
  rw [hset, Set.ncard_coe_finset, Finset.card_biUnion]
  · refine Finset.sum_congr rfl fun i _ => ?_
    rw [Finset.card_biUnion, Finset.sum_congr rfl fun k _ => L.card_points i k, Finset.sum_const,
      Nat.nsmul_eq_mul]
    intro k _ k' _ hkk'
    refine Finset.disjoint_left.2 fun x hx hx' => hkk' ?_
    rw [mem_points] at hx hx'
    rw [← hx, ← hx']
  · intro i hi j hj hij
    refine Finset.disjoint_left.2 fun x hx hx' => hij ?_
    simp only [Finset.mem_biUnion, mem_points] at hx hx'
    obtain ⟨k, hk, rfl⟩ := hx
    obtain ⟨k', hk', rfl⟩ := hx'
    rw [Finset.mem_coe, Finset.mem_range, Nat.lt_succ_iff] at hi hj
    exact h.unique hi hj hk hk'

end BlockSizes

end Lib
