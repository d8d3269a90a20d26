/-
  FlatAllocator when it FAILS — `Allocate` gives back zero exactly when it has changed nothing.

  1. **Program** — the model in `FlatAllocator`: three calls with any arguments at all, so that a
     run may map what is mapped already, free what was never allocated, and use address zero.
  2. **Specification** — `AnyRun`, the runs in which every call returns, and "a failed `Allocate`
     leaves the allocator as it was".
  3. **The crux** — zero is also an ADDRESS: were there an unmapped block at zero behind the first
     one, the search would hand it out, map it and report a failure.  `UnmappedPositive` says that
     there is none, and no call can build one: `MapLocked` puts its unmapped block at a range's end,
     and `UnmapLocked` at zero runs out of the vector.
-/
import Mathlib
import Suyu.Common.FlatAllocator

namespace Suyu.Common

/-! ## Unmapped blocks behind the first one -/

/-- Every unmapped block of the list starts above zero. -/
def Positive (blocks : List AllocBlock) : Prop :=
  ∀ b ∈ blocks, b.unmapped allocatorConfig = true → 0 < b.virt

namespace FlatAllocator

/-- No unmapped block behind the first one starts at zero. -/
def UnmappedPositive (a : FlatAllocator) : Prop := Positive a.blocks.tail

end FlatAllocator

section Lists

variable {pre ins front back blocks blocks' : List AllocBlock} {b c : AllocBlock} {virt : Nat}

theorem positive_append : Positive (pre ++ ins) ↔ Positive pre ∧ Positive ins := by
  unfold Positive
  simp only [List.mem_append]
  constructor
  · intro h
    exact ⟨fun b hb => h b (Or.inl hb), fun b hb => h b (Or.inr hb)⟩
  · rintro ⟨hp, hi⟩ b (hb | hb)
    · exact hp b hb
    · exact hi b hb

theorem positive_cons : Positive (b :: back) ↔
    (b.unmapped allocatorConfig = true → 0 < b.virt) ∧ Positive back := by
  unfold Positive; simp [forall_eq_or_imp]

theorem positive_tail_append (hne : pre ≠ []) :
    Positive (pre ++ ins).tail ↔ Positive pre.tail ∧ Positive ins := by
  rw [List.tail_append_of_ne_nil hne]; exact positive_append

theorem mapped_block (virt : Nat) : ¬ (Block.mk virt true () : AllocBlock).unmapped allocatorConfig := by
  unfold Block.unmapped allocatorConfig; simp

theorem ne_nil_of_getLast? (h : pre.getLast? = some b) : pre ≠ [] := by
  rintro rfl; cases h

/-- The cut at the end of a range: the blocks in front of it start lower, so it is not at zero. -/
theorem positive_lowerBound (virt : Nat) (h : Positive blocks.tail) :
    ∃ front back, lowerBound blocks virt = (front, back) ∧ blocks = front ++ back ∧
      ∀ pred ∈ front.getLast?, 0 < virt ∧ Positive front.tail ∧ Positive front.dropLast.tail ∧
        Positive back ∧ ∀ rest, Positive rest → Positive (front ++ rest).tail := by
  have hspan := List.span_eq_takeWhile_dropWhile (p := fun b => decide (b.virt < virt)) (l := blocks)
  refine ⟨_, _, hspan, List.takeWhile_append_dropWhile.symm, fun pred hpred => ?_⟩
  have hne := ne_nil_of_getLast? hpred
  have hlt := List.mem_takeWhile_imp (List.mem_of_getLast? hpred)
  rw [← List.takeWhile_append_dropWhile (p := fun b => decide (b.virt < virt)) (l := blocks)] at h
  obtain ⟨hfront, hback⟩ := (positive_tail_append hne).1 h
  refine ⟨Nat.zero_lt_of_lt (of_decide_eq_true hlt), hfront, fun b hb => ?_, hback,
    fun rest hrest => (positive_tail_append hne).2 ⟨hfront, hrest⟩⟩
  rw [List.tail_dropLast] at hb
  exact hfront b (List.dropLast_subset _ hb)

/-- The walk back from there to the start of the range. -/
theorem positive_walkBack (virt : Nat) (hf : Positive front.tail) :
    ∃ pre ins, walkBack front virt = (pre, ins) ∧ front = pre ++ ins ∧
      ∀ p ∈ pre.getLast?, 0 < virt ∧ Positive ins ∧
        ∀ rest, Positive rest → Positive (pre ++ rest).tail := by
  have hjoin := List.rdropWhile_append_rtakeWhile (p := fun b : AllocBlock => decide (virt ≤ b.virt))
    (l := front)
  refine ⟨_, _, rfl, hjoin.symm, fun p hp => ?_⟩
  have hne := ne_nil_of_getLast? hp
  have hlast := List.rdropWhile_last_not (fun b : AllocBlock => decide (virt ≤ b.virt)) front hne
  have hpos : 0 < virt := by
    rw [decide_eq_true_eq] at hlast; omega
  rw [← hjoin] at hf
  obtain ⟨hpre, hins⟩ := (positive_tail_append hne).1 hf
  exact ⟨hpos, hins, fun rest hrest => (positive_tail_append hne).2 ⟨hpre, hrest⟩⟩

theorem positive_mapStart {virtEnd : Nat} (hf : Positive front.tail) (hb : Positive back)
    (hm : mapStart front back virt virtEnd true () = some blocks') : Positive blocks'.tail := by
  obtain ⟨pre, ins, hcut, rfl, hspec⟩ := positive_walkBack virt hf
  unfold mapStart at hm
  rw [hcut] at hm
  dsimp only at hm
  cases hpre : pre.getLast? with
  | none =>
    rw [hpre] at hm; cases hm
  | some p =>
    obtain ⟨-, hi, hjoin⟩ := hspec p hpre
    have hnew : ∀ rest : List AllocBlock, Positive rest → Positive (⟨virt, true, ()⟩ :: rest) :=
      fun rest hrest => positive_cons.2 ⟨fun hu => absurd hu (mapped_block virt), hrest⟩
    rw [hpre] at hm
    cases ins with
    | nil =>
      cases back with
      | nil => cases hm
      | cons succ back =>
        dsimp only at hm
        split at hm
        · obtain rfl := Option.some.inj hm
          rw [List.append_nil]
          exact hjoin _ hb
        · obtain ⟨-, ⟨⟩⟩ := Option.ite_none_right_eq_some.mp hm; exact hjoin _ (hnew _ hb)
    | cons succ ins =>
      have hib := positive_append.2 ⟨hi, hb⟩
      dsimp only at hm
      split at hm
      · obtain rfl := Option.some.inj hm
        rw [List.append_assoc]
        exact hjoin _ hib
      · split at hm
        · obtain rfl := Option.some.inj hm
          rw [List.append_assoc]
          exact hjoin _ (hnew _ hib)
        · obtain rfl := Option.some.inj hm; exact hjoin _ (hnew _ hb)

theorem positive_mapLocked {size : Nat} (h : Positive blocks.tail)
    (hm : mapLocked allocatorConfig blocks virt true size () = some blocks') :
    Positive blocks'.tail := by
  obtain ⟨front, back, hcut, rfl, hspec⟩ := positive_lowerBound (virt + size) h
  unfold mapLocked at hm
  dsimp only at hm
  rw [hcut] at hm
  dsimp only at hm
  cases hlast : front.getLast? with
  | none =>
    rw [hlast] at hm; cases hm
  | some pred =>
    obtain ⟨hpos, hfront, hdrop, hback, hjoin⟩ := hspec pred hlast
    have hend : ∀ b : AllocBlock, b.virt = virt + size → Positive (b :: back) :=
      fun b hb => positive_cons.2 ⟨fun _ => hb ▸ hpos, hback⟩
    rw [hlast] at hm
    cases back with
    | nil =>
      dsimp only at hm
      split at hm
      · exact positive_mapStart hdrop (hend _ rfl) hm
      · obtain rfl := Option.some.inj hm
        exact hjoin _ (positive_cons.2 ⟨fun hu => absurd hu (mapped_block virt), hend _ rfl⟩)
    | cons succ back =>
      dsimp only at hm
      split at hm
      · split at hm
        · exact positive_mapStart hdrop (hend _ rfl) hm
        · obtain rfl := Option.some.inj hm
          exact hjoin _ (positive_cons.2 ⟨fun hu => absurd hu (mapped_block virt), hend _ rfl⟩)
      · exact positive_mapStart hfront hback hm

theorem positive_eraseBlocks (unmappedEnd : AllocBlock) (hf : Positive front.tail)
    (hb : Positive back)
    (hm : eraseBlocksWithEndUnmapped allocatorConfig front unmappedEnd back virt = some blocks') :
    Positive blocks'.tail := by
  obtain ⟨pre, ins, hcut, rfl, hspec⟩ := positive_walkBack virt hf
  unfold eraseBlocksWithEndUnmapped at hm
  rw [hcut] at hm
  dsimp only at hm
  cases hpre : pre.getLast? with
  | none =>
    rw [hpre] at hm; cases hm
  | some p =>
    obtain ⟨hpos, -, hjoin⟩ := hspec p hpre
    rw [hpre] at hm
    dsimp only at hm
    split at hm
    · obtain rfl := Option.some.inj hm
      exact hjoin _ hb
    · obtain rfl := Option.some.inj hm; exact hjoin _ (positive_cons.2 ⟨fun _ => hpos, hb⟩)

theorem positive_unmapStart {virtEnd : Nat} (hf : Positive front.tail) (hb : Positive back)
    (hm : unmapStart allocatorConfig front back virt virtEnd = some blocks') :
    Positive blocks'.tail := by
  obtain ⟨pre, ins, hcut, rfl, hspec⟩ := positive_walkBack virt hf
  unfold unmapStart at hm
  rw [hcut] at hm
  dsimp only at hm
  cases hpre : pre.getLast? with
  | none =>
    rw [hpre] at hm; cases hm
  | some p =>
    obtain ⟨hpos, hi, hjoin⟩ := hspec p hpre
    have hnew : ∀ rest : List AllocBlock, Positive rest →
        Positive (⟨virt, allocatorConfig.unmappedPa, default⟩ :: rest) :=
      fun rest hrest => positive_cons.2 ⟨fun _ => hpos, hrest⟩
    rw [hpre] at hm
    cases ins with
    | nil =>
      cases back with
      | nil => cases hm
      | cons succ back =>
        dsimp only at hm
        have hsame : Positive (pre ++ [] ++ succ :: back).tail := by
          rw [List.append_nil]; exact hjoin _ hb
        split at hm
        · exact Option.some.inj hm ▸ hsame
        · obtain ⟨-, hm⟩ := Option.ite_none_right_eq_some.mp hm
          split at hm
          · obtain rfl := Option.some.inj hm
            exact hjoin _ (hnew _ hb)
          · exact Option.some.inj hm ▸ hsame
    | cons succ ins =>
      dsimp only at hm
      have hib := positive_append.2 ⟨hi, hb⟩
      have hsame : Positive (pre ++ succ :: ins ++ back).tail := by
        rw [List.append_assoc]; exact hjoin _ hib
      split at hm
      · exact Option.some.inj hm ▸ hsame
      · split at hm
        · split at hm
          · obtain rfl := Option.some.inj hm
            rw [List.append_assoc]
            exact hjoin _ (hnew _ hib)
          · exact Option.some.inj hm ▸ hsame
        · split at hm
          · obtain rfl := Option.some.inj hm
            exact hjoin _ (positive_cons.2 ⟨hi _ (List.getLast_mem _), hb⟩)
          · obtain rfl := Option.some.inj hm; exact hjoin _ (hnew _ hb)

theorem positive_unmapLocked {size : Nat} (h : Positive blocks.tail)
    (hm : unmapLocked allocatorConfig blocks virt size = some blocks') : Positive blocks'.tail := by
  obtain ⟨front, back, hcut, rfl, hspec⟩ := positive_lowerBound (virt + size) h
  unfold unmapLocked at hm
  dsimp only at hm
  rw [hcut] at hm
  dsimp only at hm
  cases hlast : front.getLast? with
  | none =>
    rw [hlast] at hm; cases hm
  | some pred =>
    obtain ⟨hpos, hfront, hdrop, hback, hjoin⟩ := hspec pred hlast
    rw [hlast] at hm
    dsimp only at hm
    split at hm
    · split at hm
      · exact positive_eraseBlocks pred hdrop hback hm
      · obtain rfl := Option.some.inj hm; exact h
    · cases back with
      | nil => cases hm
      | cons succ back =>
        have hend : ∀ b : AllocBlock, b.virt = virt + size → Positive (b :: succ :: back) :=
          fun b hb => positive_cons.2 ⟨fun _ => hb ▸ hpos, hback⟩
        dsimp only at hm
        split at hm
        · exact positive_eraseBlocks succ hfront (positive_cons.1 hback).2 hm
        · split at hm
          · split at hm
            · exact positive_unmapStart hdrop (hend _ rfl) hm
            · rename_i hge
              obtain rfl := Option.some.inj hm
              have hvirt : 0 < virt := Nat.zero_lt_of_lt (Nat.lt_of_not_ge hge)
              exact hjoin _ (positive_cons.2 ⟨fun _ => hvirt, hend _ rfl⟩)
          · exact positive_unmapStart hfront hback hm

end Lists

/-! ## Runs -/

namespace FlatAllocator

variable {vaBits virtStart vaLimit virt size r : Nat} {a a' : FlatAllocator}

theorem unmappedPositive_init (virtStart vaLimit : Nat) :
    (init virtStart vaLimit).UnmappedPositive := by
  intro b hb; cases hb

theorem mapRange_spec_of_some {start : Nat} (hm : mapRange vaBits a start size = some (r, a')) :
    r = start ∧ ∃ blocks, a' = { a with blocks := blocks } ∧
      mapLocked allocatorConfig a.blocks start true size () = some blocks := by
  unfold mapRange at hm
  rw [Option.ite_none_right_eq_some, Option.map_eq_some_iff] at hm
  obtain ⟨-, blocks, hblocks, heq⟩ := hm
  obtain ⟨rfl, rfl⟩ := Prod.mk.inj heq
  exact ⟨rfl, blocks, rfl, hblocks⟩

theorem allocate_cases (ha : a.allocate vaBits size = some (r, a')) :
    (r ≠ UnmappedVa ∧ ∃ blocks,
      a' = { a with currentLinearAllocEnd := (r + size) % 2 ^ vaBits, blocks := blocks } ∧
      mapLocked allocatorConfig a.blocks r true size () = some blocks) ∨
    (∃ first pred rest blocks, a.blocks = first :: pred :: rest ∧
      searchGap size pred rest = some r ∧ a' = { a with blocks := blocks } ∧
      mapLocked allocatorConfig a.blocks r true size () = some blocks) ∨
    (r = 0 ∧ a' = a) := by
  unfold allocate at ha
  cases hl : linearStart vaBits a size with
  | none =>
    rw [hl] at ha; cases ha
  | some start =>
    rw [hl] at ha
    dsimp only at ha
    by_cases hstart : start ≠ UnmappedVa
    · rw [if_pos hstart] at ha
      obtain ⟨rfl, blocks, rfl, hm⟩ := mapRange_spec_of_some ha
      exact Or.inl ⟨hstart, blocks, rfl, hm⟩
    · rw [if_neg hstart] at ha
      split at ha
      · rename_i first pred rest hblocks
        split at ha
        · rename_i gap hgap
          obtain ⟨rfl, blocks, rfl, hm⟩ := mapRange_spec_of_some ha
          exact Or.inr (Or.inl ⟨first, pred, rest, blocks, hblocks, hgap, rfl, hm⟩)
        · obtain ⟨rfl, rfl⟩ := Prod.mk.inj (Option.some.inj ha); exact Or.inr (Or.inr ⟨rfl, rfl⟩)
      · cases ha

namespace UnmappedPositive

theorem allocate (h : a.UnmappedPositive) (ha : a.allocate vaBits size = some (r, a')) :
    a'.UnmappedPositive := by
  rcases allocate_cases ha with ⟨-, blocks, rfl, hm⟩ | ⟨_, _, _, blocks, -, -, rfl, hm⟩ | ⟨-, rfl⟩
  · exact positive_mapLocked h hm
  · exact positive_mapLocked h hm
  · exact h

theorem allocateFixed (h : a.UnmappedPositive) (ha : a.allocateFixed virt size = some a') :
    a'.UnmappedPositive := by
  obtain ⟨blocks, hm, rfl⟩ := Option.map_eq_some_iff.1 ha; exact positive_mapLocked h hm

theorem free (h : a.UnmappedPositive) (ha : a.free virt size = some a') : a'.UnmappedPositive := by
  obtain ⟨blocks, hm, rfl⟩ := Option.map_eq_some_iff.1 ha; exact positive_unmapLocked h hm

theorem searchGap_ne_zero (h : a.UnmappedPositive) {first pred : AllocBlock}
    {rest : List AllocBlock} (hb : a.blocks = first :: pred :: rest)
    (hg : searchGap size pred rest = some r) : r ≠ 0 := by
  obtain ⟨⟨b, c⟩, hp, hu, -, rfl⟩ := searchGap_eq_some hg
  obtain ⟨pre, post, hl⟩ := mem_zip_tail.1 hp
  refine Nat.pos_iff_ne_zero.1 (h b ?_ hu)
  rw [hb, List.tail_cons, hl]
  exact List.mem_append_right _ List.mem_cons_self

theorem eq_of_allocate_zero (h : a.UnmappedPositive)
    (ha : a.allocate vaBits size = some (0, a')) : a' = a := by
  rcases allocate_cases ha with ⟨hne, -⟩ | ⟨_, _, _, _, hb, hg, -⟩ | ⟨-, rfl⟩
  · exact absurd rfl hne
  · exact absurd rfl (h.searchGap_ne_zero hb hg)
  · rfl

end UnmappedPositive

end FlatAllocator

end Suyu.Common
