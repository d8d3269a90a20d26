import Mathlib
import Suyu.Kernel.MemoryBlockRuns
import Suyu.Kernel.PageHeap

/-
  `KMemoryBlockManager::FindFreeArea`: a place for some pages in a region.

  1. **Program** - the blocks are walked from the one that holds the start of the region on.  In a FREE
     block there is one candidate: the first address with the right remainder behind the guard pages.

  2. **Specification (`Fits`)** - the pages and the guard pages on both sides lie inside the region and
     inside one free block.

  3. **The crux (`candidate_ge`, `candidate_mod`, `candidate_least`)** - the candidate is the LEAST address
     with the right remainder; if it does not fit its block, nothing fits there.  Blocks come in order, so
     the first block in which it fits has the lowest fit of all (`findFreeAreaLoop_spec`).

  The numbers do not wrap at 2^64.
-/

namespace Suyu.Kernel.KMemoryBlockManager

open Lib.Tiling

/-! ## The program -/

/-- The address in a block that the loop tries. -/
def candidate (regionStart alignment offset guardPages : Nat) (it : KMemoryBlock) : Nat :=
  let area := if it.address ≤ regionStart then regionStart else it.address
  let area := area + guardPages * PageSize
  let offsetArea := alignDown area alignment + offset
  if area ≤ offsetArea then offsetArea else offsetArea + alignment

/-- The loop of `FindFreeArea`, from the iterator on. -/
def findFreeAreaLoop (regionStart regionLast numPages alignment offset guardPages : Nat) :
    List KMemoryBlock → Nat
  | [] => 0
  | it :: rest =>
      if regionLast < it.address then 0
      else if it.memoryState ≠ KMemoryState.Free then
        findFreeAreaLoop regionStart regionLast numPages alignment offset guardPages rest
      else
        let area := candidate regionStart alignment offset guardPages it
        let areaEnd := area + numPages * PageSize + guardPages * PageSize
        let areaLast := areaEnd - 1
        if it.address ≤ area ∧ area < areaLast ∧ areaLast ≤ regionLast ∧
            areaLast ≤ it.lastAddress then
          area
        else findFreeAreaLoop regionStart regionLast numPages alignment offset guardPages rest

def findFreeArea (m : KMemoryBlockManager)
    (regionStart regionNumPages numPages alignment offset guardPages : Nat) : Nat :=
  if numPages > 0 then
    let regionEnd := regionStart + regionNumPages * PageSize
    let regionLast := regionEnd - 1
    findFreeAreaLoop regionStart regionLast numPages alignment offset guardPages
      (findIterator m.memoryBlockTree regionStart).2
  else 0

/-! ## Specification -/

/-- What is asked for. -/
structure AreaRequest where
  regionStart : Nat
  regionNumPages : Nat
  numPages : Nat
  alignment : Nat
  offset : Nat
  guardPages : Nat

namespace AreaRequest

/-- The region ends here. -/
def regionEnd (q : AreaRequest) : Nat := q.regionStart + q.regionNumPages * PageSize

/-- `r` has the right remainder, and what it needs with its guard pages is inside the region. -/
structure InRegion (q : AreaRequest) (r : Nat) : Prop where
  remainder : r % q.alignment = q.offset
  start : q.regionStart + q.guardPages * PageSize ≤ r
  stop : r + (q.numPages + q.guardPages) * PageSize ≤ q.regionEnd

/-- It is inside a free block of the list. -/
def InFree (q : AreaRequest) (blocks : List KMemoryBlock) (r : Nat) : Prop :=
  ∃ b ∈ blocks, b.memoryState = KMemoryState.Free ∧ b.address + q.guardPages * PageSize ≤ r ∧
    r + (q.numPages + q.guardPages) * PageSize ≤ b.endAddress

/-- The pages fit at `r`. -/
def Fits (q : AreaRequest) (blocks : List KMemoryBlock) (r : Nat) : Prop :=
  q.InRegion r ∧ q.InFree blocks r

/-- A request for some pages; the offset is a remainder. -/
structure Valid (q : AreaRequest) : Prop where
  pages : 0 < q.numPages
  offset : q.offset < q.alignment

/-- The pages asked for fill one at least, in `PageSize`s and in bytes. -/
theorem Valid.sizes {q : AreaRequest} (hq : q.Valid) :
    PageSize ≤ q.numPages * PageSize ∧ PageSize = 0x1000 ∧ (q.numPages + q.guardPages) * PageSize =
      q.numPages * PageSize + q.guardPages * PageSize :=
  ⟨Nat.le_mul_of_pos_left PageSize hq.pages, rfl, Nat.add_mul _ _ _⟩

end AreaRequest

/-! ## The candidate of a block -/

section Candidate

variable {q : AreaRequest} {b : KMemoryBlock} {r : Nat}

/-- Where the pages may begin in a block. -/
def areaStart (q : AreaRequest) (b : KMemoryBlock) : Nat :=
  max q.regionStart b.address + q.guardPages * PageSize

theorem candidate_eq (q : AreaRequest) (b : KMemoryBlock) :
    candidate q.regionStart q.alignment q.offset q.guardPages b =
      if areaStart q b ≤ alignDown (areaStart q b) q.alignment + q.offset then
        alignDown (areaStart q b) q.alignment + q.offset
      else alignDown (areaStart q b) q.alignment + q.offset + q.alignment := by
  have hmax : (if b.address ≤ q.regionStart then q.regionStart else b.address) =
      max q.regionStart b.address := by
    split
    · omega
    · omega
  unfold candidate areaStart
  rw [hmax]

theorem alignDown_eq_mul (value size : Nat) : alignDown value size = size * (value / size) := by
  have hdiv := Nat.div_add_mod value size
  unfold alignDown
  omega

theorem candidate_ge (hq : q.Valid) :
    areaStart q b ≤ candidate q.regionStart q.alignment q.offset q.guardPages b := by
  rw [candidate_eq]
  split
  · assumption
  · have hmod : areaStart q b % q.alignment < q.alignment :=
      Nat.mod_lt _ (Nat.lt_of_le_of_lt (Nat.zero_le _) hq.offset)
    unfold alignDown; omega

theorem candidate_mod (hq : q.Valid) :
    candidate q.regionStart q.alignment q.offset q.guardPages b % q.alignment = q.offset := by
  rw [candidate_eq, alignDown_eq_mul]
  split
  · rw [Nat.mul_add_mod, Nat.mod_eq_of_lt hq.offset]
  · rw [Nat.add_mod_right, Nat.mul_add_mod, Nat.mod_eq_of_lt hq.offset]

theorem candidate_least (hmod : r % q.alignment = q.offset) (hr : areaStart q b ≤ r) :
    candidate q.regionStart q.alignment q.offset q.guardPages b ≤ r := by
  have hdiv := Nat.div_add_mod r q.alignment
  have hbase : q.alignment * (areaStart q b / q.alignment) ≤ areaStart q b :=
    Nat.mul_div_le _ _
  rw [hmod] at hdiv
  rw [candidate_eq, alignDown_eq_mul]
  split
  · -- The quotient of `r` is not smaller.
    have hquot : areaStart q b / q.alignment ≤ r / q.alignment := Nat.div_le_div_right hr
    have hmul := Nat.mul_le_mul_left q.alignment hquot
    omega
  next hgt =>
    -- It is even bigger, since the remainder alone does not reach the start.
    have hlt : areaStart q b / q.alignment < r / q.alignment := by
      by_contra hnot
      have hmul := Nat.mul_le_mul_left q.alignment (Nat.le_of_not_lt hnot)
      omega
    have hmul := Nat.mul_le_mul_left q.alignment (Nat.succ_le_of_lt hlt)
    rw [Nat.mul_succ] at hmul; omega

end Candidate

/-! ## The loop -/

section Loop

variable {q : AreaRequest} {b : KMemoryBlock} {l : List KMemoryBlock} {a e r : Nat}

theorem candidate_test_iff (hq : q.Valid) (hb : b.address < b.endAddress)
    (hcand : r = candidate q.regionStart q.alignment q.offset q.guardPages b) :
    (b.address ≤ r ∧ r < r + q.numPages * PageSize + q.guardPages * PageSize - 1 ∧
      r + q.numPages * PageSize + q.guardPages * PageSize - 1 ≤ q.regionEnd - 1 ∧
      r + q.numPages * PageSize + q.guardPages * PageSize - 1 ≤ b.lastAddress) ↔
    (q.InRegion r ∧ b.address + q.guardPages * PageSize ≤ r ∧
      r + (q.numPages + q.guardPages) * PageSize ≤ b.endAddress) := by
  have hge := @candidate_ge q b hq
  have hmod := @candidate_mod q b hq
  rw [← hcand] at hge hmod
  obtain ⟨hpages, hsize, hsplit⟩ := hq.sizes
  have hlast : b.lastAddress = b.endAddress - 1 := rfl
  have hstart : q.regionStart + q.guardPages * PageSize ≤ areaStart q b ∧
      b.address + q.guardPages * PageSize ≤ areaStart q b := by
    unfold areaStart; omega
  rw [hlast, hsplit]
  constructor
  · rintro ⟨-, -, hin, hend⟩
    refine ⟨⟨hmod, by omega, ?_⟩, by omega, by omega⟩
    rw [hsplit]
    omega
  · rintro ⟨⟨-, -, hin⟩, -, hend⟩
    rw [hsplit] at hin
    refine ⟨by omega, by omega, by omega, by omega⟩

theorem candidate_fits (hq : q.Valid) (hr : q.InRegion r)
    (hlow : b.address + q.guardPages * PageSize ≤ r)
    (hhigh : r + (q.numPages + q.guardPages) * PageSize ≤ b.endAddress) :
    candidate q.regionStart q.alignment q.offset q.guardPages b ≤ r ∧
    q.InRegion (candidate q.regionStart q.alignment q.offset q.guardPages b) ∧
    b.address + q.guardPages * PageSize ≤
      candidate q.regionStart q.alignment q.offset q.guardPages b ∧
    candidate q.regionStart q.alignment q.offset q.guardPages b +
      (q.numPages + q.guardPages) * PageSize ≤ b.endAddress := by
  have hregion := hr.start
  have hstop := hr.stop
  have hareaStart : areaStart q b ≤ r := by
    unfold areaStart; omega
  have hle := candidate_least hr.remainder hareaStart
  have hge := @candidate_ge q b hq
  have hparts : q.regionStart + q.guardPages * PageSize ≤ areaStart q b ∧
      b.address + q.guardPages * PageSize ≤ areaStart q b := by
    unfold areaStart; omega
  exact ⟨hle, ⟨candidate_mod hq, by omega, by omega⟩, by omega, by omega⟩

/-- THE LOOP finds the lowest fit of the blocks that are left, or there is none. -/
theorem findFreeAreaLoop_spec (hq : q.Valid) (hl : BlocksTile a e l) :
    (q.Fits l (findFreeAreaLoop q.regionStart (q.regionEnd - 1) q.numPages q.alignment q.offset
        q.guardPages l) ∧
      ∀ r, q.Fits l r → findFreeAreaLoop q.regionStart (q.regionEnd - 1) q.numPages q.alignment
        q.offset q.guardPages l ≤ r) ∨
    (findFreeAreaLoop q.regionStart (q.regionEnd - 1) q.numPages q.alignment q.offset q.guardPages l
        = 0 ∧
      ∀ r, ¬ q.Fits l r) := by
  induction l generalizing a with
  | nil =>
    refine Or.inr ⟨rfl, fun r hr => ?_⟩
    obtain ⟨-, b, hb, -⟩ := hr; exact absurd hb List.not_mem_nil
  | cons b l ih =>
    obtain ⟨hlo, hlt, hrest⟩ := hl
    obtain ⟨hpages, hsize, hsplit⟩ := hq.sizes
    have htail := ih hrest
    rw [findFreeAreaLoop]
    -- If nothing fits the first block, the loop is right as far as it is right on the others.
    have hskip : ∀ x, (∀ r, q.Fits [b] r → False) →
        ((q.Fits l x ∧ ∀ r, q.Fits l r → x ≤ r) ∨ (x = 0 ∧ ∀ r, ¬ q.Fits l r)) →
        ((q.Fits (b :: l) x ∧ ∀ r, q.Fits (b :: l) r → x ≤ r) ∨
          (x = 0 ∧ ∀ r, ¬ q.Fits (b :: l) r)) := by
      intro x hnone hx
      have hcons : ∀ r, q.Fits (b :: l) r ↔ q.Fits l r := by
        intro r
        constructor
        · rintro ⟨hin, c, hc, hfree⟩
          rcases List.mem_cons.mp hc with rfl | hc
          · exact absurd ⟨hin, c, List.mem_singleton_self c, hfree⟩ (hnone r)
          · exact ⟨hin, c, hc, hfree⟩
        · rintro ⟨hin, c, hc, hfree⟩; exact ⟨hin, c, List.mem_cons_of_mem b hc, hfree⟩
      simp only [hcons]; exact hx
    split
    next hbehind =>
      -- The region ends before this block.
      refine Or.inr ⟨rfl, fun r hr => ?_⟩
      obtain ⟨hin, c, hc, -, hlow, hhigh⟩ := hr
      have hstop := hin.stop
      have hbounds : b.address ≤ c.address := by
        rcases List.mem_cons.mp hc with rfl | hc
        · exact le_refl _
        · have hc' := (hrest.bounds hc).1
          omega
      omega
    next hregion =>
      split
      next hstate =>
        refine hskip _ (fun r hr => ?_) htail
        obtain ⟨-, c, hc, hfree, -⟩ := hr
        rw [List.mem_singleton.mp hc] at hfree; exact hstate hfree
      next hstate =>
        rw [not_not] at hstate
        have htest := candidate_test_iff hq (hlo.symm ▸ hlt) (Eq.refl
          (candidate q.regionStart q.alignment q.offset q.guardPages b))
        dsimp only
        split
        next hfits =>
          -- The candidate fits; the blocks behind this one have only bigger fits.
          obtain ⟨hin, hlow, hhigh⟩ := htest.mp hfits
          refine Or.inl ⟨⟨hin, b, List.mem_cons_self, hstate, hlow, hhigh⟩, fun r hr => ?_⟩
          obtain ⟨hin', c, hc, -, hlow', hhigh'⟩ := hr
          rcases List.mem_cons.mp hc with rfl | hc
          · exact (candidate_fits hq hin' hlow' hhigh').1
          · have hc' := (hrest.bounds hc).1
            omega
        next hfits =>
          refine hskip _ (fun r hr => ?_) htail
          obtain ⟨hin, c, hc, -, hlow, hhigh⟩ := hr
          rw [List.mem_singleton.mp hc] at hlow hhigh
          exact hfits (htest.mpr (candidate_fits hq hin hlow hhigh).2)

end Loop

/-! ## The search -/

section Search

variable {m : KMemoryBlockManager} {q : AreaRequest}

/-- The region is inside the managed space. -/
structure AreaRequest.Managed (q : AreaRequest) (m : KMemoryBlockManager) : Prop where
  start : m.startAddress ≤ q.regionStart
  stop : q.regionEnd ≤ m.endAddress

theorem fits_after {pre post : List KMemoryBlock} {a : Nat} (hq : q.Valid)
    (hpre : BlocksTile m.startAddress a pre) (ha : a ≤ q.regionStart) (r : Nat) :
    q.Fits (pre ++ post) r ↔ q.Fits post r := by
  obtain ⟨hpages, hsize, hsplit⟩ := hq.sizes
  constructor
  · rintro ⟨hin, b, hb, hfree, hlow, hhigh⟩
    rcases List.mem_append.mp hb with hb | hb
    · have hend := (hpre.bounds hb).2.2
      have hstart := hin.start
      omega
    · exact ⟨hin, b, hb, hfree, hlow, hhigh⟩
  · rintro ⟨hin, b, hb, hfree, hlow, hhigh⟩
    exact ⟨hin, b, List.mem_append_right pre hb, hfree, hlow, hhigh⟩

theorem findFreeArea_spec (hm : m.Tiled) (hq : q.Valid) (hmanaged : q.Managed m) :
    (q.Fits m.memoryBlockTree (m.findFreeArea q.regionStart q.regionNumPages q.numPages q.alignment
        q.offset q.guardPages) ∧
      ∀ r, q.Fits m.memoryBlockTree r → m.findFreeArea q.regionStart q.regionNumPages q.numPages
        q.alignment q.offset q.guardPages ≤ r) ∨
    (m.findFreeArea q.regionStart q.regionNumPages q.numPages q.alignment q.offset q.guardPages = 0 ∧
      ∀ r, ¬ q.Fits m.memoryBlockTree r) := by
  obtain ⟨hpages, hsize, hsplit⟩ := hq.sizes
  have hstop := hmanaged.stop
  have heq : m.findFreeArea q.regionStart q.regionNumPages q.numPages q.alignment q.offset
      q.guardPages = findFreeAreaLoop q.regionStart (q.regionEnd - 1) q.numPages q.alignment q.offset
        q.guardPages (findIterator m.memoryBlockTree q.regionStart).2 := if_pos hq.pages
  rw [heq]
  rcases Nat.lt_or_ge q.regionStart m.endAddress with hlt | hge
  · obtain ⟨pre, it, post, hspan, htree, hlo, -⟩ := hm.tiles.span_lookup hmanaged.start hlt
    obtain ⟨a, hpre, hpost⟩ := (tiles_append_iff pre).1 (htree ▸ hm.tiles)
    have ha : a ≤ q.regionStart := hpost.1 ▸ hlo
    have hfind : (findIterator m.memoryBlockTree q.regionStart).2 = it :: post := by
      unfold findIterator
      rw [hspan]
    have hspec := findFreeAreaLoop_spec hq hpost
    rw [hfind, htree]
    simp only [fits_after hq hpre ha]
    exact hspec
  · -- The region is empty and begins at the end of the space.
    have hnone : ∀ r, ¬ q.Fits m.memoryBlockTree r := by
      rintro r ⟨hin, -⟩
      have hin' := hin.start
      have hout := hin.stop
      omega
    have hfind : (findIterator m.memoryBlockTree q.regionStart).2 = [] := by
      unfold findIterator
      rw [List.span_eq_takeWhile_dropWhile]
      refine List.dropWhile_eq_nil_iff.mpr fun b hb => ?_
      have hend := (hm.tiles.bounds hb).2.2
      simp only [Bool.not_eq_true', decide_eq_false_iff_not, not_and, not_lt]
      intro _; omega
    rw [hfind]; exact Or.inr ⟨rfl, hnone⟩

/-- THE LOWEST FIT: an answer that is not 0 is the lowest fit; the answer is 0 exactly if nothing fits
    or the pages fit at the address 0. -/
theorem findFreeArea_lowest (hm : m.Tiled) (hq : q.Valid) (hmanaged : q.Managed m) :
    (m.findFreeArea q.regionStart q.regionNumPages q.numPages q.alignment q.offset q.guardPages ≠ 0 →
      IsLeast { r | q.Fits m.memoryBlockTree r } (m.findFreeArea q.regionStart q.regionNumPages
        q.numPages q.alignment q.offset q.guardPages)) ∧
    (m.findFreeArea q.regionStart q.regionNumPages q.numPages q.alignment q.offset q.guardPages = 0 ↔
      (∀ r, ¬ q.Fits m.memoryBlockTree r) ∨ q.Fits m.memoryBlockTree 0) := by
  rcases findFreeArea_spec hm hq hmanaged with ⟨hfits, hleast⟩ | ⟨hzero, hnone⟩
  · refine ⟨fun _ => ⟨hfits, fun r hr => hleast r hr⟩, fun hzero => ?_, ?_⟩
    · rw [hzero] at hfits
      exact Or.inr hfits
    · rintro (hnone | hfits0)
      · exact absurd hfits (hnone _)
      · exact Nat.le_zero.mp (hleast 0 hfits0)
  · exact ⟨fun hne => absurd hzero hne, fun _ => Or.inl hnone, fun _ => hzero⟩

/-- Two pages with four guard pages on each side, in a fresh space. -/
theorem findFreeArea_lowest_guarded :
    IsLeast
      { r | AreaRequest.Fits ⟨0x200000, 0x200, 2, 0x10000, 0x1000, 4⟩
        (init 0x200000 0x400000 slabBlock).memoryBlockTree r } 0x211000 := by
  have hm : (init 0x200000 0x400000 slabBlock).Tiled :=
    init_tiled (by decide) (by decide) (by decide) slabBlock
  have harea : (init 0x200000 0x400000 slabBlock).findFreeArea 0x200000 0x200 2 0x10000 0x1000 4 =
      0x211000 := by decide
  have hlowest := (@findFreeArea_lowest _ ⟨0x200000, 0x200, 2, 0x10000, 0x1000, 4⟩ hm
    ⟨by decide, by decide⟩ ⟨by decide, by decide⟩).1
  rw [harea] at hlowest
  exact hlowest (by decide)

/-- A space that begins at 0: the page at 0 fits, but the answer says that nothing does. -/
theorem findFreeArea_zero :
    (init 0 0x10000 slabBlock).Tiled ∧
    AreaRequest.Valid ⟨0, 16, 1, 0x1000, 0, 0⟩ ∧
    AreaRequest.Managed ⟨0, 16, 1, 0x1000, 0, 0⟩ (init 0 0x10000 slabBlock) ∧
    (init 0 0x10000 slabBlock).findFreeArea 0 16 1 0x1000 0 0 = 0 ∧
    AreaRequest.Fits ⟨0, 16, 1, 0x1000, 0, 0⟩ (init 0 0x10000 slabBlock).memoryBlockTree 0 := by
  refine ⟨init_tiled (by decide) (by decide) (by decide) slabBlock, ⟨by decide, by decide⟩,
    ⟨by decide, by decide⟩, by decide, ⟨rfl, by decide, by decide⟩, ?_⟩
  exact ⟨slabBlock.init 0 0x10 KMemoryState.Free KMemoryPermission.None KMemoryAttribute.None,
    List.mem_singleton_self _, rfl, by decide, by decide⟩

end Search

end Suyu.Kernel.KMemoryBlockManager
