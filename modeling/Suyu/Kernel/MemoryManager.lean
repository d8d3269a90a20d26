import Mathlib
import Suyu.Kernel.PageHeapRuns

/-
  KMemoryManager - page groups out of the heaps of a pool.

  1. **Program** - `AllocatePageGroupImpl` takes blocks of ever smaller sizes, for each size from manager
     after manager.  `KPageGroup::AddBlock` appends a block to the last node of the group if it begins
     where the node ends (`TryConcatenate`), and asks for a block info otherwise.  A failure frees node
     after node, and CUTS a node at the end of the manager it begins in.

  2. **Specification (`AllocatesGroup`)** - the pages of the group are different free pages of the pool, as
     many as asked for, and exactly they left the heaps; a failure leaves every heap as it was and the
     group empty; and the pool runs out of memory only if it has too few pages.

  3. **The crux (`GroupInv`)** - the pages of the nodes, in order, are the pages taken so far: a
     concatenation does not change this LIST, only where it is cut into nodes.

  4. **When it goes wrong** - a node that two managers share is freed in the first one only
     (`allocatesGroup_iff`).  And a request for no page at all is out of memory.

  The block infos are a number: as many as can be had before one is refused.  `GetManager` looks the
  address up in the ranges of the managers.
-/

namespace Suyu.Kernel

open Function (update update_eq_self update_self update_of_ne)

open Set
open KPageHeap (levels)

/-! ## Page groups -/

structure KBlockInfo where
  pageIndex : Nat
  numPages : Nat
  deriving DecidableEq

namespace KBlockInfo

def getAddress (b : KBlockInfo) : Nat := b.pageIndex * PageSize

def getEndAddress (b : KBlockInfo) : Nat := (b.pageIndex + b.numPages) * PageSize

def tryConcatenate (b : KBlockInfo) (addr np : Nat) : Option KBlockInfo :=
  if addr ≠ 0 ∧ addr = b.getEndAddress then some { b with numPages := b.numPages + np } else none

end KBlockInfo

/-- The nodes of a group, the first one first. -/
abbrev KPageGroup := List KBlockInfo

/-- `Allocate a new block.` and append it; `none` is `ResultOutOfResource`. -/
def KPageGroup.appendBlock (group : KPageGroup) (infos addr numPages : Nat) :
    Option (KPageGroup × Nat) :=
  if infos = 0 then none else some (group ++ [⟨addr / PageSize, numPages⟩], infos - 1)

/-- `AddBlock`, with the number of block infos that can still be had. -/
def KPageGroup.addBlock (group : KPageGroup) (infos addr numPages : Nat) :
    Option (KPageGroup × Nat) :=
  if numPages = 0 then some (group, infos)
  else
    match group.getLast? with
    | none => group.appendBlock infos addr numPages
    | some lastBlock =>
      match lastBlock.tryConcatenate addr numPages with
      | some lastBlock => some (group.dropLast ++ [lastBlock], infos)
      | none => group.appendBlock infos addr numPages

namespace KPageHeap

/-- The loop of `GetBlockIndex`, from index `n - 1` down. -/
def getBlockIndexFrom (numPages : Nat) : Nat → Int
  | 0 => -1
  | n + 1 => if numPages ≥ 2 ^ pageShift n / PageSize then n else getBlockIndexFrom numPages n

def getBlockIndex (numPages : Nat) : Int := getBlockIndexFrom numPages numMemoryBlockPageShifts

def getBlockNumPages (index : Nat) : Nat := 2 ^ pageShift index / PageSize

end KPageHeap

/-! ## Managers -/

namespace KMemoryManager

/-- The managers and the pages each one was made for: some, not page 0, and no page twice.  A block info has
    32 bits for a page, and a heap must have room for its bits (fewer than `64^4` pages). -/
structure Layout where
  numManagers : Nat
  startPage : Nat → Nat
  endPage : Nat → Nat
  start_pos : ∀ i < numManagers, 0 < startPage i
  start_lt_end : ∀ i < numManagers, startPage i < endPage i
  disjoint : ∀ i < numManagers, ∀ j < numManagers, i ≠ j →
    endPage i ≤ startPage j ∨ endPage j ≤ startPage i
  end_le : ∀ i < numManagers, endPage i ≤ 2 ^ 32
  representable : ∀ i < numManagers,
    KPageHeap.Representable (startPage i * PageSize) ((endPage i - startPage i) * PageSize)

inductive Direction where
  | fromFront
  | fromBack
  deriving DecidableEq

/-- The managers of a pool, as they are linked from `m_pool_managers_head`. -/
structure Pool (L : Layout) where
  managers : List Nat
  lt : ∀ i ∈ managers, i < L.numManagers
  nodup : managers.Nodup

/-- `GetFirstManager` and `GetNextManager`, for one direction. -/
def Pool.order {L : Layout} (pool : Pool L) : Direction → List Nat
  | .fromFront => pool.managers
  | .fromBack => pool.managers.reverse

/-- A manager: its heap and its optimize map. -/
structure Impl (T : Type) where
  heap : KPageHeap T
  optimizeMap : Nat → BitVec 64

variable {T : Type} {L : Layout}

/-- A bit of the optimize map. -/
def Impl.bit (m : Impl T) (offset : Nat) : Bool :=
  KPageBitmap.bitAt (fun _ => m.optimizeMap) 0 offset

abbrev Managers (T : Type) := Nat → Impl T

def getManager (L : Layout) (address : Nat) : Nat :=
  ((List.range L.numManagers).find? fun i =>
    decide (L.startPage i * PageSize ≤ address ∧ address < L.endPage i * PageSize)).getD 0

/-- `GetPageOffset` of manager `i`. -/
def getPageOffset (L : Layout) (i address : Nat) : Nat :=
  (address - L.startPage i * PageSize) / PageSize

/-- `GetPageOffsetToEnd` of manager `i`. -/
def getPageOffsetToEnd (L : Layout) (i address : Nat) : Nat :=
  (L.endPage i * PageSize - address) / PageSize

def setHeap (managers : Managers T) (i : Nat) (heap : KPageHeap T) : Managers T :=
  update managers i { managers i with heap := heap }

/-- The loop of `TrackUnoptimizedAllocation`, for `n` pages. -/
def clearTracked : Nat → Nat → (Nat → BitVec 64) → (Nat → BitVec 64)
  | 0, _, map => map
  | n + 1, offset, map =>
      clearTracked n (offset + 1)
        (update map (offset / 64) (map (offset / 64) &&& ~~~(1#64 <<< (offset % 64))))

def trackUnoptimizedAllocation (L : Layout) (managers : Managers T) (i block numPages : Nat) :
    Managers T :=
  update managers i { managers i with
    optimizeMap := clearTracked numPages (getPageOffset L i block) (managers i).optimizeMap }

/-! ## Allocating a group -/

inductive AllocError where
  | outOfMemory
  | outOfResource
  deriving DecidableEq

structure GroupState (T : Type) where
  managers : Managers T
  group : KPageGroup
  infos : Nat
  numPages : Nat

section Program

variable [TinyMT T]

/-- `while (num_pages >= pages_per_alloc)`, for one manager and one size; every round takes a page.  An
    error comes with the state behind the inner guard, which has freed the block. -/
def takeBlocks (L : Layout) (i index : Nat) (unoptimized random : Bool) :
    Nat → GroupState T → Except (AllocError × GroupState T) (GroupState T)
  | 0, s => .ok s
  | fuel + 1, s =>
      let pagesPerAlloc := KPageHeap.getBlockNumPages index
      if s.numPages ≥ pagesPerAlloc then
        match (s.managers i).heap.allocateBlock index random with
        | none => .ok s
        | some (allocatedBlock, heap) =>
            if allocatedBlock = 0 then .ok { s with managers := setHeap s.managers i heap }
            else
              match s.group.addBlock s.infos allocatedBlock pagesPerAlloc with
              | none => .error (.outOfResource,
                  { s with managers := setHeap s.managers i (heap.free allocatedBlock pagesPerAlloc) })
              | some (group, infos) =>
                  let managers := setHeap s.managers i heap
                  takeBlocks L i index unoptimized random fuel
                    { managers :=
                        if unoptimized then
                          trackUnoptimizedAllocation L managers i allocatedBlock pagesPerAlloc
                        else managers
                      group := group
                      infos := infos
                      numPages := s.numPages - pagesPerAlloc }
      else .ok s

/-- The managers of the pool, in the order of the direction. -/
def takeFromManagers (L : Layout) (index : Nat) (unoptimized random : Bool) :
    List Nat → GroupState T → Except (AllocError × GroupState T) (GroupState T)
  | [], s => .ok s
  | i :: order, s =>
      (takeBlocks L i index unoptimized random s.numPages s).bind
        (takeFromManagers L index unoptimized random order)

/-- The sizes with an index below `n`, from the largest down. -/
def takeSizes (L : Layout) (order : List Nat) (unoptimized random : Bool) :
    Nat → GroupState T → Except (AllocError × GroupState T) (GroupState T)
  | 0, s => .ok s
  | n + 1, s =>
      if s.numPages > 0 then
        (takeFromManagers L n unoptimized random order s).bind
          (takeSizes L order unoptimized random n)
      else .ok s

/-- What is done before a failure is cleaned up. -/
def fillGroup (L : Layout) (order : List Nat) (unoptimized random : Bool) (index : Nat)
    (s : GroupState T) : Except (AllocError × GroupState T) (GroupState T) :=
  (takeSizes L order unoptimized random (index + 1) s).bind fun s =>
    if s.numPages = 0 then .ok s else .error (.outOfMemory, s)

omit [TinyMT T] in
/-- `Ensure that we don't leave anything un-freed.`, for one node. -/
def freeNode (L : Layout) (managers : Managers T) (it : KBlockInfo) : Managers T :=
  let i := getManager L it.getAddress
  let nodeNumPages := min it.numPages ((L.endPage i * PageSize - it.getAddress) / PageSize)
  setHeap managers i ((managers i).heap.free it.getAddress nodeNumPages)

/-- The managers and the group after the call; `error = none` is success. -/
structure GroupResult (T : Type) where
  managers : Managers T
  group : KPageGroup
  error : Option AllocError

/-- `AllocatePageGroupImpl`, for a group that is still empty. -/
def allocatePageGroupImpl (L : Layout) (pool : Pool L) (dir : Direction) (managers : Managers T)
    (infos numPages : Nat) (unoptimized random : Bool) : GroupResult T :=
  let heapIndex := KPageHeap.getBlockIndex numPages
  if ¬ 0 ≤ heapIndex then ⟨managers, [], some .outOfMemory⟩
  else
    match fillGroup L (pool.order dir) unoptimized random heapIndex.toNat
      ⟨managers, [], infos, numPages⟩ with
    | .ok s => ⟨s.managers, s.group, none⟩
    | .error (error, s) => ⟨s.group.foldl (freeNode L) s.managers, [], some error⟩

end Program

/-! ## Specification -/

/-- The pages of a group, node after node. -/
def pages (group : KPageGroup) : List Nat :=
  group.flatMap fun b => List.range' b.pageIndex b.numPages

/-- Heap `i` is sound and `free i` are its free pages. -/
def HeapsSound (L : Layout) (managers : Managers T) (free : Nat → Set Nat) : Prop :=
  ∀ i < L.numManagers,
    KPageHeap.Sound (L.startPage i) (L.endPage i) (managers i).heap (free i)

/-- What a call should do to heaps with the free pages `free`. -/
structure AllocatesGroup (L : Layout) (pool : Pool L) (free : Nat → Set Nat) (numPages : Nat)
    (result : GroupResult T) : Prop where
  success : result.error = none →
    (pages result.group).Nodup ∧ (pages result.group).length = numPages ∧
      (∀ p ∈ pages result.group, ∃ i ∈ pool.managers, p ∈ free i) ∧
      HeapsSound L result.managers fun i => free i \ {p | p ∈ pages result.group}
  failure : result.error ≠ none → result.group = [] ∧ HeapsSound L result.managers free
  outOfMemory : result.error = some .outOfMemory →
    {p | ∃ i ∈ pool.managers, p ∈ free i}.ncard < numPages

/-! ## Page groups -/

theorem pages_append (group group' : KPageGroup) : pages (group ++ group') = pages group ++ pages group' :=
  List.flatMap_append

theorem pages_singleton (b : KBlockInfo) : pages [b] = List.range' b.pageIndex b.numPages :=
  List.flatMap_singleton _ _

theorem mem_range'_iff_Ico {p a n : Nat} : p ∈ List.range' a n ↔ p ∈ Ico a (a + n) := by
  rw [List.mem_range'_1, mem_Ico]

theorem getAddress_eq_iff {a b : Nat} : a * PageSize = b * PageSize ↔ a = b :=
  Nat.mul_left_inj (by decide)

theorem pages_addBlock {group group' : KPageGroup} {infos infos' p n : Nat}
    (hadd : group.addBlock infos (p * PageSize) n = some (group', infos')) :
    pages group' = pages group ++ List.range' p n := by
  have happend : ∀ {infos : Nat}, group.appendBlock infos (p * PageSize) n = some (group', infos') →
      pages group' = pages group ++ List.range' p n := by
    intro infos h
    rw [KPageGroup.appendBlock] at h
    split at h
    · cases h
    · obtain ⟨rfl, -⟩ := Prod.mk.inj (Option.some.inj h)
      rw [pages_append, pages_singleton, Nat.mul_div_cancel _ (by decide)]
  rw [KPageGroup.addBlock] at hadd
  split at hadd
  · next hn =>
    obtain ⟨rfl, -⟩ := Prod.mk.inj (Option.some.inj hadd)
    rw [hn, List.range'_zero, List.append_nil]
  · split at hadd
    · exact happend hadd
    · next last hlast =>
      split at hadd
      · next last' hcat =>
        obtain ⟨rfl, -⟩ := Prod.mk.inj (Option.some.inj hadd)
        rw [KBlockInfo.tryConcatenate] at hcat
        split at hcat
        · next hend =>
          -- The block begins at the end of the last node: one range becomes longer.
          obtain rfl := Option.some.inj hcat
          have hp : p = last.pageIndex + last.numPages := getAddress_eq_iff.1 hend.2
          have hgroup : group.dropLast ++ [last] = group := List.dropLast_append_getLast? _ hlast
          conv_rhs => rw [← hgroup]
          rw [pages_append, pages_append, pages_singleton, pages_singleton, List.append_assoc, hp,
            List.range'_append_1]
        · cases hcat
      · exact happend hadd

theorem addBlock_nonempty {group group' : KPageGroup} {infos infos' addr n : Nat} (hn : 0 < n)
    (hgroup : ∀ b ∈ group, 0 < b.numPages)
    (hadd : group.addBlock infos addr n = some (group', infos')) : ∀ b ∈ group', 0 < b.numPages := by
  have happend : ∀ {infos : Nat}, group.appendBlock infos addr n = some (group', infos') →
      ∀ b ∈ group', 0 < b.numPages := by
    intro infos h
    rw [KPageGroup.appendBlock] at h
    split at h
    · cases h
    · obtain ⟨rfl, -⟩ := Prod.mk.inj (Option.some.inj h)
      intro b hb
      rcases List.mem_append.1 hb with hb | hb
      · exact hgroup b hb
      · rw [List.mem_singleton.1 hb]; exact hn
  rw [KPageGroup.addBlock, if_neg hn.ne'] at hadd
  split at hadd
  · exact happend hadd
  · split at hadd
    · next last' hcat =>
      obtain ⟨rfl, -⟩ := Prod.mk.inj (Option.some.inj hadd)
      rw [KBlockInfo.tryConcatenate] at hcat
      split at hcat
      · obtain rfl := Option.some.inj hcat
        intro b hb
        rcases List.mem_append.1 hb with hb | hb
        · exact hgroup b (List.dropLast_subset _ hb)
        · rw [List.mem_singleton.1 hb]; exact Nat.add_pos_right _ hn
      · cases hcat
    · exact happend hadd

/-! ## One heap of many -/

theorem getBlockNumPages_eq (index : Nat) : KPageHeap.getBlockNumPages index = levels.size index := by
  rw [KPageHeap.getBlockNumPages, KPageHeap.two_pow_pageShift, Nat.mul_div_cancel _ (by decide)]

variable {managers : Managers T} {free : Nat → Set Nat} {i j : Nat} {P : Set Nat}

theorem HeapsSound.setHeap {heap : KPageHeap T} (hs : HeapsSound L managers free)
    (hheap : KPageHeap.Sound (L.startPage i) (L.endPage i) heap P) :
    HeapsSound L (setHeap managers i heap) (update free i P) := by
  intro k hk
  by_cases hki : k = i
  · subst hki
    rw [KMemoryManager.setHeap, update_self, update_self]
    exact hheap
  · rw [KMemoryManager.setHeap, update_of_ne hki, update_of_ne hki]; exact hs k hk

theorem HeapsSound.setHeap_same {heap : KPageHeap T} (hs : HeapsSound L managers free)
    (hheap : KPageHeap.Sound (L.startPage i) (L.endPage i) heap (free i)) :
    HeapsSound L (KMemoryManager.setHeap managers i heap) free := by
  have hset := hs.setHeap hheap
  rwa [update_eq_self] at hset

theorem HeapsSound.track {c : Bool} {block n : Nat} (hs : HeapsSound L managers free) :
    HeapsSound L
      (if c then trackUnoptimizedAllocation L managers i block n else managers) free := by
  intro k hk
  cases c with
  | false => exact hs k hk
  | true =>
    rw [if_pos rfl, trackUnoptimizedAllocation]
    by_cases hki : k = i
    · subst hki
      rw [update_self]
      exact hs k hk
    · rw [update_of_ne hki]; exact hs k hk

theorem setHeap_optimizeMap (managers : Managers T) (i k : Nat) (heap : KPageHeap T) :
    (setHeap managers i heap k).optimizeMap = (managers k).optimizeMap := by
  rw [setHeap]
  by_cases hki : k = i
  · subst hki
    rw [update_self]
  · rw [update_of_ne hki]

theorem bitAt_clearTracked (n offset j : Nat) (map : Nat → BitVec 64) :
    KPageBitmap.bitAt (fun _ => clearTracked n offset map) 0 j =
      (KPageBitmap.bitAt (fun _ => map) 0 j && !decide (offset ≤ j ∧ j < offset + n)) := by
  induction n generalizing offset map with
  | zero =>
    have hnone : ¬ (offset ≤ j ∧ j < offset + 0) := by omega
    rw [clearTracked, decide_eq_false hnone, Bool.not_false, Bool.and_true]
  | succ n ih =>
    have hone : KPageBitmap.bitAt (fun _ => update map (offset / 64)
        (map (offset / 64) &&& ~~~(1#64 <<< (offset % 64)))) 0 j =
          (decide (j ≠ offset) && KPageBitmap.bitAt (fun _ => map) 0 j) :=
      KPageBitmap.bitAt_clearMask rfl
    rw [clearTracked, ih, hone]
    by_cases hj : j = offset
    · subst hj
      simp
    · have hiff : (offset + 1 ≤ j ∧ j < offset + 1 + n) ↔ (offset ≤ j ∧ j < offset + (n + 1)) := by
        omega
      rw [decide_eq_true hj, Bool.true_and, decide_eq_decide.2 hiff]

theorem bit_track {p n : Nat} (c : Bool) (hp : L.startPage i ≤ p) (k offset : Nat) :
    Impl.bit ((if c then trackUnoptimizedAllocation L managers i (p * PageSize) n else managers) k)
        offset =
      ((managers k).bit offset && !(c && decide (k = i ∧ p ≤ L.startPage i + offset ∧
        L.startPage i + offset < p + n))) := by
  cases c with
  | false => rw [if_neg Bool.false_ne_true, Bool.false_and, Bool.not_false, Bool.and_true]
  | true =>
    rw [if_pos rfl, Bool.true_and, trackUnoptimizedAllocation]
    by_cases hki : k = i
    · subst hki
      have hoffset : getPageOffset L k (p * PageSize) = p - L.startPage k := by
        rw [getPageOffset, ← Nat.sub_mul, Nat.mul_div_cancel _ (by decide)]
      have hiff : (p - L.startPage k ≤ offset ∧ offset < p - L.startPage k + n) ↔
          (k = k ∧ p ≤ L.startPage k + offset ∧ L.startPage k + offset < p + n) := by
        omega
      rw [update_self, hoffset, Impl.bit, bitAt_clearTracked, decide_eq_decide.2 hiff]
      rfl
    · rw [update_of_ne hki, decide_eq_false fun hc => hki hc.1, Bool.not_false,
        Bool.and_true]

theorem Layout.eq_of_mem (L : Layout) {p : Nat} (hi : i < L.numManagers) (hj : j < L.numManagers)
    (hpi : p ∈ Ico (L.startPage i) (L.endPage i)) (hpj : p ∈ Ico (L.startPage j) (L.endPage j)) :
    i = j := by
  by_contra hne
  rw [mem_Ico] at hpi hpj
  rcases L.disjoint i hi j hj hne with h | h <;> omega

theorem getManager_eq {p : Nat} (hi : i < L.numManagers)
    (hp : p ∈ Ico (L.startPage i) (L.endPage i)) : getManager L (p * PageSize) = i := by
  have hpage : 0 < PageSize := by decide
  have hiff : ∀ k, (L.startPage k * PageSize ≤ p * PageSize ∧ p * PageSize < L.endPage k * PageSize) ↔
      p ∈ Ico (L.startPage k) (L.endPage k) := by
    intro k
    rw [Nat.mul_le_mul_right_iff hpage, Nat.mul_lt_mul_right hpage, mem_Ico]
  rw [getManager]
  cases hfind : (List.range L.numManagers).find? _ with
  | none =>
    have hnone := List.find?_eq_none.1 hfind i (List.mem_range.2 hi)
    exact absurd (decide_eq_true ((hiff i).2 hp)) hnone
  | some k =>
    have hk := List.mem_range.1 (List.mem_of_find?_eq_some hfind)
    have hpk := List.find?_some hfind
    exact L.eq_of_mem hk hi ((hiff k).1 (of_decide_eq_true hpk)) hp

/-! ## Taking blocks -/

section Take

variable [TinyMT T] {index fuel numPages : Nat} {unoptimized random : Bool} {s s' : GroupState T}
  {order : List Nat} {managers₀ : Managers T}

/-- What one round does: the request is smaller than the size, the manager has no such block, there is
    no block info for the block, or the block is taken. -/
inductive Round (L : Layout) (i index : Nat) (unoptimized random : Bool) (fuel : Nat)
    (free : Nat → Set Nat) (s : GroupState T) :
    Except (AllocError × GroupState T) (GroupState T) → Prop
  | small : s.numPages < levels.size index → Round L i index unoptimized random fuel free s (.ok s)
  | none (managers : Managers T) : HeapsSound L managers free → (index = 0 → free i = ∅) →
      (∀ k, (managers k).optimizeMap = (s.managers k).optimizeMap) →
      Round L i index unoptimized random fuel free s (.ok { s with managers := managers })
  | refused (p : Nat) (managers : Managers T) : levels.size index ≤ s.numPages →
      Ico p (p + levels.size index) ⊆ free i → HeapsSound L managers free →
      s.group.addBlock s.infos (p * PageSize) (levels.size index) = none →
      (∀ k, (managers k).optimizeMap = (s.managers k).optimizeMap) →
      Round L i index unoptimized random fuel free s
        (.error (.outOfResource, { s with managers := managers }))
  | taken (p : Nat) (managers : Managers T) (group : KPageGroup) (infos : Nat) :
      levels.size index ≤ s.numPages → Ico p (p + levels.size index) ⊆ free i →
      HeapsSound L managers (update free i (free i \ Ico p (p + levels.size index))) →
      s.group.addBlock s.infos (p * PageSize) (levels.size index) = some (group, infos) →
      (∀ k offset, (managers k).bit offset = ((s.managers k).bit offset &&
        !(unoptimized && decide (k = i ∧ p ≤ L.startPage i + offset ∧
          L.startPage i + offset < p + levels.size index)))) →
      Round L i index unoptimized random fuel free s
        (takeBlocks L i index unoptimized random fuel
          ⟨managers, group, infos, s.numPages - levels.size index⟩)

theorem takeBlocks_round (hs : HeapsSound L s.managers free) (hi : i < L.numManagers)
    (hidx : index < 7) :
    Round L i index unoptimized random fuel free s
      (takeBlocks L i index unoptimized random (fuel + 1) s) := by
  rw [takeBlocks]
  dsimp only
  rw [getBlockNumPages_eq]
  split
  · next hge =>
    obtain ⟨⟨addr, heap⟩, hres, htakes⟩ := (hs i hi).allocateBlock hidx random
    rw [hres]
    dsimp only
    rcases htakes with ⟨hzero, hsame⟩ | ⟨p, hpos, haddr, -, hsub, hless⟩
    · dsimp only at hzero hsame
      subst hzero
      rw [if_pos rfl]
      refine .none _ (hs.setHeap_same hsame) ?_ fun k => setHeap_optimizeMap _ i k _
      rintro rfl
      exact (hs i hi).allocateBlock_eq_zero hres
    · dsimp only at haddr hless
      subst haddr
      rw [if_neg (Nat.mul_ne_zero hpos.ne' (by decide))]
      have hin := (Ico_subset_Ico_iff (Nat.lt_add_of_pos_right (levels.size_pos index))).1
        (hsub.trans (hs i hi).within)
      cases hadd : s.group.addBlock s.infos (p * PageSize) (levels.size index) with
      | none =>
        -- The inner guard gives the block back.
        have hback := hless.free hin.1 hin.2 disjoint_sdiff_left
        rw [sdiff_union_of_subset hsub] at hback
        exact .refused p _ hge hsub (hs.setHeap_same hback) hadd fun k => setHeap_optimizeMap _ i k _
      | some r =>
        refine .taken p _ r.1 r.2 hge hsub (hs.setHeap hless).track hadd fun k offset => ?_
        rw [bit_track unoptimized hin.1, Impl.bit, setHeap_optimizeMap]; rfl
  · next hlt => exact .small (by omega)

/-- The pages taken so far, of heaps that had the free pages `free`; and if the allocation is for no
    optimized process, then exactly their bits are clear now. -/
structure GroupInv (L : Layout) (order : List Nat) (free : Nat → Set Nat) (numPages : Nat)
    (unoptimized : Bool) (managers₀ : Managers T) (s : GroupState T) : Prop where
  sound : HeapsSound L s.managers fun i => free i \ {p | p ∈ pages s.group}
  nodup : (pages s.group).Nodup
  mem : ∀ p ∈ pages s.group, ∃ i ∈ order, p ∈ free i
  total : (pages s.group).length + s.numPages = numPages
  nonempty : ∀ b ∈ s.group, 0 < b.numPages
  bits : ∀ k < L.numManagers, ∀ offset, L.startPage k + offset < L.endPage k →
    (s.managers k).bit offset = ((managers₀ k).bit offset &&
      !(unoptimized && decide (L.startPage k + offset ∈ pages s.group)))

/-- What a loop of the allocation comes to, when `done` holds at its end. -/
def Fills (L : Layout) (order : List Nat) (free : Nat → Set Nat) (numPages : Nat)
    (unoptimized : Bool) (managers₀ : Managers T) (done : GroupState T → Prop) (s : GroupState T) :
    Except (AllocError × GroupState T) (GroupState T) → Prop
  | .ok s' => GroupInv L order free numPages unoptimized managers₀ s' ∧
      pages s.group <+: pages s'.group ∧ done s'
  | .error (error, s') =>
      error = .outOfResource ∧ GroupInv L order free numPages unoptimized managers₀ s' ∧ 0 < s'.numPages

omit [TinyMT T] in
theorem Fills.bind {done done' : GroupState T → Prop}
    {f : GroupState T → Except (AllocError × GroupState T) (GroupState T)}
    {r : Except (AllocError × GroupState T) (GroupState T)}
    (hr : Fills L order free numPages unoptimized managers₀ done s r)
    (hf : ∀ s', GroupInv L order free numPages unoptimized managers₀ s' → done s' →
      Fills L order free numPages unoptimized managers₀ done' s' (f s')) :
    Fills L order free numPages unoptimized managers₀ done' s (r.bind f) := by
  cases r with
  | error e => exact hr
  | ok s' =>
    obtain ⟨hinv, hprefix, hdone⟩ := hr
    have hnext := hf s' hinv hdone
    show Fills L order free numPages unoptimized managers₀ done' s (f s')
    cases hfs : f s' with
    | error e =>
      rw [hfs] at hnext; exact hnext
    | ok s'' =>
      rw [hfs] at hnext; exact ⟨hnext.1, hprefix.trans hnext.2.1, hnext.2.2⟩

omit [TinyMT T] in
theorem GroupInv.taken {p n infos : Nat} {managers : Managers T} {group : KPageGroup}
    (hinv : GroupInv L order free numPages unoptimized managers₀ s)
    (hfree : ∀ k < L.numManagers, free k ⊆ Ico (L.startPage k) (L.endPage k))
    (horder : ∀ k ∈ order, k < L.numManagers) (hi : i ∈ order) (hn : 0 < n) (hle : n ≤ s.numPages)
    (hsub : Ico p (p + n) ⊆ free i \ {p | p ∈ pages s.group})
    (hs : HeapsSound L managers (update (fun k => free k \ {p | p ∈ pages s.group}) i
      ((free i \ {p | p ∈ pages s.group}) \ Ico p (p + n))))
    (hadd : s.group.addBlock s.infos (p * PageSize) n = some (group, infos))
    (hbits : ∀ k offset, (managers k).bit offset = ((s.managers k).bit offset &&
      !(unoptimized && decide (k = i ∧ p ≤ L.startPage i + offset ∧
        L.startPage i + offset < p + n)))) :
    GroupInv L order free numPages unoptimized managers₀ ⟨managers, group, infos, s.numPages - n⟩ := by
  have hpages := pages_addBlock hadd
  have hset : {x | x ∈ pages group} = {x | x ∈ pages s.group} ∪ Ico p (p + n) := by
    ext x
    rw [hpages, mem_union, mem_ofPred_eq, List.mem_append, mem_range'_iff_Ico]; rfl
  have hmgr : ∀ k < L.numManagers, ∀ x ∈ Ico (L.startPage k) (L.endPage k), x ∈ Ico p (p + n) →
      k = i :=
    fun k hk x hx hxp => L.eq_of_mem hk (horder i hi) hx (hfree i (horder i hi) (hsub hxp).1)
  refine ⟨fun k hk => ?_, ?_, ?_, ?_, addBlock_nonempty hn hinv.nonempty hadd,
    fun k hk offset hlt => ?_⟩
  · have hk' := hs k hk
    show KPageHeap.Sound _ _ (managers k).heap (free k \ {x | x ∈ pages group})
    rw [hset, ← sdiff_sdiff]
    by_cases hki : k = i
    · subst hki
      rwa [update_self] at hk'
    · -- Another manager has none of these pages.
      rw [update_of_ne hki] at hk'
      have hother : (free k \ {x | x ∈ pages s.group}) \ Ico p (p + n) =
          free k \ {x | x ∈ pages s.group} := by
        refine sdiff_eq_left.2 (disjoint_left.2 fun x hx hxp => hki ?_)
        exact hmgr k hk x (hfree k hk hx.1) hxp
      rwa [hother]
  · rw [hpages]
    refine hinv.nodup.append (List.nodup_range') fun x hx hxp => ?_
    exact (hsub (mem_range'_iff_Ico.1 hxp)).2 hx
  · intro x hx
    rw [hpages] at hx
    rcases List.mem_append.1 hx with hx | hx
    · exact hinv.mem x hx
    · exact ⟨i, hi, (hsub (mem_range'_iff_Ico.1 hx)).1⟩
  · have htotal := hinv.total
    show (pages group).length + (s.numPages - n) = numPages
    rw [hpages, List.length_append, List.length_range']
    omega
  · -- A page of manager `k` is new only if `k` is the manager of the block.
    have hiff : (k = i ∧ p ≤ L.startPage i + offset ∧ L.startPage i + offset < p + n) ↔
        L.startPage k + offset ∈ List.range' p n := by
      rw [mem_range'_iff_Ico]
      constructor
      · rintro ⟨rfl, h1, h2⟩
        exact ⟨h1, h2⟩
      · intro hx
        obtain rfl := hmgr k hk _ ⟨Nat.le_add_right _ _, hlt⟩ hx
        exact ⟨rfl, hx.1, hx.2⟩
    rw [hbits, hinv.bits k hk offset hlt, decide_eq_decide.2 hiff, hpages]
    rw [decide_eq_decide.2 (List.mem_append (s := pages s.group)), Bool.decide_or,
      Bool.and_or_distrib_left, Bool.not_or, Bool.and_assoc]

omit [TinyMT T] in
theorem GroupInv.setManagers {managers : Managers T}
    (hinv : GroupInv L order free numPages unoptimized managers₀ s)
    (hs : HeapsSound L managers fun i => free i \ {p | p ∈ pages s.group})
    (hmaps : ∀ k, (managers k).optimizeMap = (s.managers k).optimizeMap) :
    GroupInv L order free numPages unoptimized managers₀ { s with managers := managers } :=
  ⟨hs, hinv.nodup, hinv.mem, hinv.total, hinv.nonempty, fun k hk offset hlt => by
    rw [← hinv.bits k hk offset hlt, Impl.bit, hmaps]; rfl⟩

theorem takeBlocks_fills (hinv : GroupInv L order free numPages unoptimized managers₀ s)
    (hfree : ∀ k < L.numManagers, free k ⊆ Ico (L.startPage k) (L.endPage k))
    (horder : ∀ k ∈ order, k < L.numManagers) (hi : i ∈ order) (hidx : index < 7)
    (hfuel : s.numPages ≤ fuel) :
    Fills L order free numPages unoptimized managers₀
      (fun s' => index = 0 → s'.numPages = 0 ∨ free i ⊆ {p | p ∈ pages s'.group}) s
      (takeBlocks L i index unoptimized random fuel s) := by
  have hsize := levels.size_pos index
  induction fuel generalizing s with
  | zero => exact ⟨hinv, List.prefix_refl _, fun _ => Or.inl (by omega)⟩
  | succ fuel ih =>
    have hround : Round L i index unoptimized random fuel _ s _ :=
      takeBlocks_round hinv.sound (horder i hi) hidx
    generalize takeBlocks L i index unoptimized random (fuel + 1) s = r at hround ⊢
    cases hround with
    | small hlt =>
      refine ⟨hinv, List.prefix_refl _, fun h0 => Or.inl ?_⟩
      rw [h0, KPageHeap.size_zero] at hlt; omega
    | none managers hs hempty hmaps =>
      refine ⟨hinv.setManagers hs hmaps, List.prefix_refl _, fun h0 => Or.inr ?_⟩
      exact sdiff_eq_empty.1 (hempty h0)
    | refused p managers hle _ hs _ hmaps =>
      exact ⟨rfl, hinv.setManagers hs hmaps, by dsimp only; omega⟩
    | taken p managers group infos hle hsub hs hadd hbits =>
      have hnext := ih (hinv.taken hfree horder hi hsize hle hsub hs hadd hbits) (by dsimp only; omega)
      have hprefix : pages s.group <+: pages group := by
        rw [pages_addBlock hadd]; exact List.prefix_append _ _
      generalize takeBlocks L i index unoptimized random fuel
        (⟨managers, group, infos, s.numPages - levels.size index⟩ : GroupState T) = r at hnext ⊢
      cases r with
      | error e => exact hnext
      | ok s' => exact ⟨hnext.1, hprefix.trans hnext.2.1, hnext.2.2⟩

theorem takeFromManagers_fills (hinv : GroupInv L order free numPages unoptimized managers₀ s)
    (hfree : ∀ k < L.numManagers, free k ⊆ Ico (L.startPage k) (L.endPage k))
    (horder : ∀ k ∈ order, k < L.numManagers) (hidx : index < 7) {rest : List Nat}
    (hrest : rest ⊆ order) :
    Fills L order free numPages unoptimized managers₀
      (fun s' => index = 0 → s'.numPages = 0 ∨ ∀ i ∈ rest, free i ⊆ {p | p ∈ pages s'.group}) s
      (takeFromManagers L index unoptimized random rest s) := by
  induction rest generalizing s with
  | nil => exact ⟨hinv, List.prefix_refl _, fun _ => Or.inr fun i hi => absurd hi List.not_mem_nil⟩
  | cons i rest ih =>
    obtain ⟨hi, hrest'⟩ := List.cons_subset.1 hrest
    refine (takeBlocks_fills hinv hfree horder hi hidx (le_refl _)).bind fun s' hinv' hdone => ?_
    have hnext := ih hinv' hrest'
    generalize takeFromManagers L index unoptimized random rest s' = r at hnext ⊢
    cases r with
    | error e => exact hnext
    | ok s'' =>
      obtain ⟨hinv'', hprefix, hdone''⟩ := hnext
      refine ⟨hinv'', hprefix, fun h0 => ?_⟩
      rcases hdone'' h0 with hzero | hall
      · exact Or.inl hzero
      · rcases hdone h0 with hzero | hsub
        · have hlen := hprefix.length_le
          have h1 := hinv'.total
          have h2 := hinv''.total
          exact Or.inl (by omega)
        · refine Or.inr fun k hk => ?_
          rcases List.mem_cons.1 hk with rfl | hk
          · exact hsub.trans fun p hp => hprefix.subset hp
          · exact hall k hk

theorem takeSizes_fills {n : Nat} (unoptimized random : Bool)
    (hinv : GroupInv L order free numPages unoptimized managers₀ s)
    (hfree : ∀ k < L.numManagers, free k ⊆ Ico (L.startPage k) (L.endPage k))
    (horder : ∀ k ∈ order, k < L.numManagers) (hn : n < 7) :
    Fills L order free numPages unoptimized managers₀
      (fun s' => s'.numPages = 0 ∨ ∀ i ∈ order, free i ⊆ {p | p ∈ pages s'.group}) s
      (takeSizes L order unoptimized random (n + 1) s) := by
  induction n generalizing s with
  | zero =>
    rw [takeSizes]
    split
    · refine (takeFromManagers_fills hinv hfree horder hn (List.Subset.refl _)).bind
        fun s' hinv' hdone => ?_
      exact ⟨hinv', List.prefix_refl _, hdone rfl⟩
    · exact ⟨hinv, List.prefix_refl _, Or.inl (by omega)⟩
  | succ n ih =>
    rw [takeSizes]
    split
    · refine (takeFromManagers_fills hinv hfree horder hn (List.Subset.refl _)).bind
        fun s' hinv' _ => ?_
      exact ih hinv' (by omega)
    · exact ⟨hinv, List.prefix_refl _, Or.inl (by omega)⟩

end Take

/-! ## Cleaning up -/

section CleanUp

variable {b : KBlockInfo} {O : Set Nat} {numPages : Nat} {order : List Nat} {s : GroupState T}
  {unoptimized : Bool} {managers₀ : Managers T}

/-- The end of the manager in which a node begins. -/
def nodeEnd (L : Layout) (b : KBlockInfo) : Nat := L.endPage (getManager L b.getAddress)

/-- The pages of a node that a failure gives back. -/
def freedPages (L : Layout) (b : KBlockInfo) : Set Nat :=
  Ico b.pageIndex (b.pageIndex + min b.numPages (nodeEnd L b - b.pageIndex))

theorem nodeEnd_eq (hi : i < L.numManagers)
    (hb : b.pageIndex ∈ Ico (L.startPage i) (L.endPage i)) : nodeEnd L b = L.endPage i := by
  rw [nodeEnd, KBlockInfo.getAddress, getManager_eq hi hb]

theorem HeapsSound.freeNode (hs : HeapsSound L managers fun k => free k \ O)
    (hfree : ∀ k < L.numManagers, free k ⊆ Ico (L.startPage k) (L.endPage k))
    (hmem : ∀ p ∈ List.range' b.pageIndex b.numPages, p ∈ O ∧ ∃ k < L.numManagers, p ∈ free k)
    (hpos : 0 < b.numPages) :
    HeapsSound L (freeNode L managers b) fun k => free k \ (O \ freedPages L b) := by
  obtain ⟨i, hi, hfirst⟩ := (hmem b.pageIndex (List.mem_range'_1.2 ⟨le_refl _, by omega⟩)).2
  have hmgr : getManager L (b.pageIndex * PageSize) = i := getManager_eq hi (hfree i hi hfirst)
  have hend := nodeEnd_eq hi (hfree i hi hfirst)
  have hbounds := mem_Ico.1 (hfree i hi hfirst)
  have hpages : (L.endPage i * PageSize - b.pageIndex * PageSize) / PageSize =
      L.endPage i - b.pageIndex := by
    rw [← Nat.sub_mul, Nat.mul_div_cancel _ (by decide)]
  -- These pages are in the range of manager `i`, so they are its own.
  have hown : freedPages L b ⊆ free i ∩ O := by
    intro p hp
    rw [freedPages, hend, mem_Ico] at hp
    obtain ⟨hO, k, hk, hpk⟩ := hmem p (List.mem_range'_1.2 ⟨hp.1, by omega⟩)
    have hki := L.eq_of_mem hk hi (hfree k hk hpk) (mem_Ico.2 ⟨by omega, by omega⟩)
    exact ⟨hki ▸ hpk, hO⟩
  have hnew : KPageHeap.Sound (L.startPage i) (L.endPage i)
      ((managers i).heap.free (b.pageIndex * PageSize)
        (min b.numPages (L.endPage i - b.pageIndex))) (free i \ O ∪ freedPages L b) := by
    rw [freedPages, hend]
    refine (hs i hi).free hbounds.1 (by omega) ?_
    refine disjoint_left.2 fun p hp hpb => hp.2 ?_
    rw [← hend, ← freedPages] at hpb; exact (hown hpb).2
  rw [KMemoryManager.freeNode, KBlockInfo.getAddress, hmgr, hpages]
  intro k hk
  have hset := hs.setHeap hnew k hk
  by_cases hki : k = i
  · subst hki
    rw [update_self] at hset
    have heq : free k \ O ∪ freedPages L b = free k \ (O \ freedPages L b) := by
      rw [sdiff_sdiff_right, inter_eq_right.2 (hown.trans inter_subset_left)]
    rwa [heq] at hset
  · rw [update_of_ne hki] at hset
    have heq : free k \ O = free k \ (O \ freedPages L b) := by
      have hdisj : free k ∩ freedPages L b = ∅ := by
        refine eq_empty_of_forall_notMem fun p hp => hki ?_
        exact L.eq_of_mem hk hi (hfree k hk hp.1) (hfree i hi (hown hp.2).1)
      rw [sdiff_sdiff_right, hdisj, union_empty]
    rwa [heq] at hset

theorem HeapsSound.freeNodes {group : KPageGroup} (hs : HeapsSound L managers fun k => free k \ O)
    (hfree : ∀ k < L.numManagers, free k ⊆ Ico (L.startPage k) (L.endPage k))
    (hmem : ∀ p ∈ pages group, p ∈ O ∧ ∃ k < L.numManagers, p ∈ free k)
    (hpos : ∀ b ∈ group, 0 < b.numPages) (hnodup : (pages group).Nodup) :
    HeapsSound L (group.foldl (KMemoryManager.freeNode L) managers)
      fun k => free k \ (O \ {p | ∃ b ∈ group, p ∈ freedPages L b}) := by
  induction group generalizing managers O with
  | nil =>
    have hempty : {p | ∃ b ∈ ([] : KPageGroup), p ∈ freedPages L b} = ∅ := by
      simp
    rw [hempty, sdiff_empty]; exact hs
  | cons b group ih =>
    have hsplit : pages (b :: group) = List.range' b.pageIndex b.numPages ++ pages group := rfl
    rw [hsplit] at hmem hnodup
    obtain ⟨-, hnodup', hdisj⟩ := List.nodup_append'.1 hnodup
    have hsub : freedPages L b ⊆ {p | p ∈ List.range' b.pageIndex b.numPages} := by
      intro p hp
      rw [freedPages, mem_Ico] at hp; exact List.mem_range'_1.2 ⟨hp.1, by omega⟩
    have hstep := hs.freeNode hfree (fun p hp => hmem p (List.mem_append_left _ hp))
      (hpos b List.mem_cons_self)
    have hrest := ih hstep (fun p hp => ?_) (fun b hb => hpos b (List.mem_cons_of_mem _ hb)) hnodup'
    · have heq : O \ {p | ∃ b' ∈ b :: group, p ∈ freedPages L b'} =
          (O \ freedPages L b) \ {p | ∃ b' ∈ group, p ∈ freedPages L b'} := by
        rw [sdiff_sdiff]
        congr 1
        ext p
        simp
      rw [heq]
      exact hrest
    · have hp' := hmem p (List.mem_append_right _ hp)
      exact ⟨⟨hp'.1, fun hc => hdisj (hsub hc) hp⟩, hp'.2⟩

/-- A node passes the end of the manager it begins in. -/
def Cut (L : Layout) (group : KPageGroup) : Prop :=
  ∃ b ∈ group, nodeEnd L b < b.pageIndex + b.numPages

theorem node_eq_of_mem {group : KPageGroup} {b b' : KBlockInfo} {p : Nat}
    (hnodup : (pages group).Nodup) (hb : b ∈ group) (hb' : b' ∈ group)
    (hp : p ∈ List.range' b.pageIndex b.numPages) (hp' : p ∈ List.range' b'.pageIndex b'.numPages) :
    b = b' := by
  by_contra hne
  have hsymm : Std.Symm (Function.onFun List.Disjoint
      fun b : KBlockInfo => List.range' b.pageIndex b.numPages) :=
    ⟨fun _ _ h => List.disjoint_symm h⟩
  exact (List.nodup_flatMap.1 hnodup).2.forall hb hb' hne hp hp'

/-- **A failure restores the heaps exactly if it cuts no node.** -/
theorem GroupInv.restored_iff (hinv : GroupInv L order free numPages unoptimized managers₀ s)
    (hfree : ∀ k < L.numManagers, free k ⊆ Ico (L.startPage k) (L.endPage k))
    (horder : ∀ k ∈ order, k < L.numManagers) :
    HeapsSound L (s.group.foldl (KMemoryManager.freeNode L) s.managers) free ↔ ¬ Cut L s.group := by
  have hmem : ∀ p ∈ pages s.group, ∃ k < L.numManagers, p ∈ free k := by
    intro p hp
    obtain ⟨k, hk, hpk⟩ := hinv.mem p hp; exact ⟨k, horder k hk, hpk⟩
  have hall := hinv.sound.freeNodes hfree (fun p hp => ⟨hp, hmem p hp⟩) hinv.nonempty hinv.nodup
  constructor
  · rintro hback ⟨b, hb, hcut⟩
    -- The page at the end of the manager is in the node and no node gives it back.
    have hbpos := hinv.nonempty b hb
    have hnode : ∀ p ∈ List.range' b.pageIndex b.numPages, p ∈ pages s.group :=
      fun p hp => List.mem_flatMap.2 ⟨b, hb, hp⟩
    obtain ⟨i, hi, hfirst⟩ := hmem b.pageIndex (hnode _ (List.mem_range'_1.2 ⟨le_refl _, by omega⟩))
    have hend := nodeEnd_eq hi (hfree i hi hfirst)
    have hbounds := mem_Ico.1 (hfree i hi hfirst)
    have hlast : nodeEnd L b ∈ List.range' b.pageIndex b.numPages :=
      List.mem_range'_1.2 ⟨by omega, hcut⟩
    obtain ⟨k, hk, hlastk⟩ := hmem _ (hnode _ hlast)
    have hlost : nodeEnd L b ∈ {p | p ∈ pages s.group} \ {p | ∃ b ∈ s.group, p ∈ freedPages L b} := by
      refine ⟨hnode _ hlast, ?_⟩
      rintro ⟨b', hb', hfreed⟩
      rw [freedPages, mem_Ico] at hfreed
      obtain rfl := node_eq_of_mem hinv.nodup hb' hb (List.mem_range'_1.2 ⟨hfreed.1, by omega⟩) hlast
      omega
    have hgone := ((hall k hk).toExact.denotes_iff (nodeEnd L b)).1
      (((hback k hk).toExact.denotes_iff (nodeEnd L b)).2 hlastk)
    exact hgone.2 hlost
  · intro hcut k hk
    have hnone : {p | p ∈ pages s.group} \ {p | ∃ b ∈ s.group, p ∈ freedPages L b} = ∅ := by
      refine sdiff_eq_empty.2 fun p hp => ?_
      obtain ⟨b, hb, hpb⟩ := List.mem_flatMap.1 hp
      have hle : b.pageIndex + b.numPages ≤ nodeEnd L b :=
        Nat.le_of_not_lt fun hc => hcut ⟨b, hb, hc⟩
      rw [List.mem_range'_1] at hpb; exact ⟨b, hb, mem_Ico.2 ⟨hpb.1, by omega⟩⟩
    have hk' := hall k hk
    dsimp only at hk'
    rwa [hnone, sdiff_empty] at hk'

theorem GroupInv.adjacent_of_cut (hinv : GroupInv L order free numPages unoptimized managers₀ s)
    (hfree : ∀ k < L.numManagers, free k ⊆ Ico (L.startPage k) (L.endPage k))
    (horder : ∀ k ∈ order, k < L.numManagers) (hcut : Cut L s.group) :
    1 < (pages s.group).length ∧ ∃ i ∈ order, ∃ j ∈ order, L.endPage i = L.startPage j := by
  obtain ⟨b, hb, hcut⟩ := hcut
  have hbpos := hinv.nonempty b hb
  have hnode : ∀ p ∈ List.range' b.pageIndex b.numPages, p ∈ pages s.group :=
    fun p hp => List.mem_flatMap.2 ⟨b, hb, hp⟩
  obtain ⟨i, hi, hfirst⟩ := hinv.mem b.pageIndex (hnode _ (List.mem_range'_1.2 ⟨le_refl _, by omega⟩))
  have hin := hfree i (horder i hi) hfirst
  have hend := nodeEnd_eq (horder i hi) hin
  rw [mem_Ico] at hin
  obtain ⟨j, hj, hlast⟩ := hinv.mem (L.endPage i)
    (hnode _ (List.mem_range'_1.2 ⟨by omega, by omega⟩))
  have hjn := mem_Ico.1 (hfree j (horder j hj) hlast)
  refine ⟨?_, i, hi, j, hj, ?_⟩
  · have hlen : b.numPages ≤ (pages s.group).length := by
      have hsub := List.Nodup.subperm (List.nodup_range' (s := b.pageIndex) (n := b.numPages)) hnode
      have hle := hsub.length_le
      rwa [List.length_range'] at hle
    omega
  · -- If manager `j` began earlier, it would have the last page of manager `i`.
    by_contra hne
    have hsame := L.eq_of_mem (p := L.endPage i - 1) (horder i hi) (horder j hj)
      (mem_Ico.2 ⟨by omega, by omega⟩) (mem_Ico.2 ⟨by omega, by omega⟩)
    rw [hsame] at hjn; omega

end CleanUp

/-! ## The whole call -/

section Call

variable [TinyMT T] {pool : Pool L} {dir : Direction} {infos numPages : Nat}
  {unoptimized random : Bool}

theorem getBlockIndexFrom_of_pos {n : Nat} (hpos : 0 < numPages) :
    ∃ j : Nat, KPageHeap.getBlockIndexFrom numPages (n + 1) = j ∧ j ≤ n := by
  induction n with
  | zero =>
    refine ⟨0, ?_, le_refl 0⟩
    exact if_pos hpos
  | succ n ih =>
    rw [KPageHeap.getBlockIndexFrom]
    split
    · exact ⟨n + 1, rfl, le_refl _⟩
    · obtain ⟨j, hj, hle⟩ := ih; exact ⟨j, hj, by omega⟩

theorem getBlockIndex_of_pos (hpos : 0 < numPages) :
    ∃ j < 7, KPageHeap.getBlockIndex numPages = (j : Nat) := by
  obtain ⟨j, hj, hle⟩ := getBlockIndexFrom_of_pos (n := 6) hpos; exact ⟨j, by omega, hj⟩

theorem Pool.mem_order {i : Nat} : i ∈ pool.order dir ↔ i ∈ pool.managers := by
  cases dir with
  | fromFront => exact Iff.rfl
  | fromBack => exact List.mem_reverse

omit [TinyMT T] in
theorem groupInv_init (hs : HeapsSound L managers free) (order : List Nat) (infos numPages : Nat)
    (unoptimized : Bool) :
    GroupInv L order free numPages unoptimized managers ⟨managers, [], infos, numPages⟩ := by
  refine ⟨fun i hi => ?_, List.nodup_nil, fun p hp => absurd hp List.not_mem_nil, ?_,
    fun b hb => absurd hb List.not_mem_nil, fun k _ offset _ => ?_⟩
  · have hempty : {p | p ∈ pages []} = (∅ : Set Nat) :=
      eq_empty_of_forall_notMem fun p hp => absurd hp List.not_mem_nil
    show KPageHeap.Sound _ _ _ (free i \ {p | p ∈ pages []})
    rw [hempty, sdiff_empty]
    exact hs i hi
  · exact Nat.zero_add numPages
  · have hnone : L.startPage k + offset ∉ pages [] := List.not_mem_nil
    show _ = (_ && !(unoptimized && decide (L.startPage k + offset ∈ pages [])))
    rw [decide_eq_false hnone, Bool.and_false, Bool.not_false, Bool.and_true]

theorem fillGroup_spec {index : Nat} (pool : Pool L) (dir : Direction) (infos numPages : Nat)
    (unoptimized random : Bool) (hs : HeapsSound L managers free) (hidx : index < 7) :
    (∃ s, fillGroup L (pool.order dir) unoptimized random index ⟨managers, [], infos, numPages⟩ =
        .ok s ∧ GroupInv L (pool.order dir) free numPages unoptimized managers s ∧ s.numPages = 0) ∨
      ∃ error s, fillGroup L (pool.order dir) unoptimized random index
          ⟨managers, [], infos, numPages⟩ = .error (error, s) ∧
        GroupInv L (pool.order dir) free numPages unoptimized managers s ∧ 0 < s.numPages ∧
        (error = .outOfMemory → ∀ i ∈ pool.order dir, free i ⊆ {p | p ∈ pages s.group}) := by
  have hfills := takeSizes_fills unoptimized random
    (groupInv_init hs (pool.order dir) infos numPages unoptimized)
    (fun k hk => (hs k hk).within) (fun k hk => pool.lt k (Pool.mem_order.1 hk)) hidx
  rw [fillGroup]
  generalize takeSizes L (pool.order dir) unoptimized random (index + 1)
    (⟨managers, [], infos, numPages⟩ : GroupState T) = r at hfills ⊢
  cases r with
  | error e =>
    obtain ⟨herror, hinv, hpos⟩ := hfills
    refine Or.inr ⟨e.1, e.2, rfl, hinv, hpos, fun hc => ?_⟩
    rw [herror] at hc; cases hc
  | ok s =>
    obtain ⟨hinv, -, hdone⟩ := hfills
    by_cases hzero : s.numPages = 0
    · exact Or.inl ⟨s, if_pos hzero, hinv, hzero⟩
    · exact Or.inr ⟨.outOfMemory, s, if_neg hzero, hinv, by omega, fun _ => hdone.resolve_left hzero⟩

/-- The loops fail with a node that passes the end of the manager it begins in. -/
def CutsNode (L : Layout) (pool : Pool L) (dir : Direction) (managers : Managers T)
    (infos numPages : Nat) (unoptimized random : Bool) : Prop :=
  ∃ error s, fillGroup L (pool.order dir) unoptimized random
    (KPageHeap.getBlockIndex numPages).toNat ⟨managers, [], infos, numPages⟩ = .error (error, s) ∧
      Cut L s.group

/-- **One call**, on heaps with any free pages. -/
theorem allocatesGroup_iff (hs : HeapsSound L managers free) :
    AllocatesGroup L pool free numPages
        (allocatePageGroupImpl L pool dir managers infos numPages unoptimized random) ↔
      0 < numPages ∧ ¬ CutsNode L pool dir managers infos numPages unoptimized random := by
  have hfree : ∀ k < L.numManagers, free k ⊆ Ico (L.startPage k) (L.endPage k) :=
    fun k hk => (hs k hk).within
  have horder : ∀ k ∈ pool.order dir, k < L.numManagers :=
    fun k hk => pool.lt k (Pool.mem_order.1 hk)
  rcases Nat.eq_zero_or_pos numPages with rfl | hpos
  · -- The index of the block size is -1.
    refine ⟨fun h => ?_, fun h => absurd h.1 (by omega)⟩
    exact absurd (h.outOfMemory rfl) (by omega)
  · obtain ⟨index, hidx, hindex⟩ := getBlockIndex_of_pos hpos
    have hnonneg : ¬ ¬ (0 : Int) ≤ (index : Int) := by omega
    rw [and_iff_right hpos, CutsNode, allocatePageGroupImpl, hindex]
    rw [if_neg hnonneg, Int.toNat_natCast]
    rcases fillGroup_spec pool dir infos numPages unoptimized random hs hidx with
      ⟨s, hok, hinv, hzero⟩ | ⟨error, s, herr, hinv, hmissing, hnone⟩
    · rw [hok]
      refine iff_of_true ⟨fun _ => ⟨hinv.nodup, ?_, ?_, hinv.sound⟩, ?_, ?_⟩ ?_
      · have htotal := hinv.total
        rw [hzero] at htotal
        exact htotal
      · intro p hp
        obtain ⟨i, hi, hpi⟩ := hinv.mem p hp
        exact ⟨i, Pool.mem_order.1 hi, hpi⟩
      · exact fun hc => absurd rfl hc
      · intro hc
        cases hc
      · rintro ⟨error, s', hc, -⟩; cases hc
    · rw [herr]
      have hcuts : (∃ error' s', (Except.error (error, s) :
          Except (AllocError × GroupState T) (GroupState T)) = .error (error', s') ∧
          Cut L s'.group) ↔ Cut L s.group := by
        constructor
        · rintro ⟨error', s', hc, hcut⟩
          cases hc
          exact hcut
        · exact fun hcut => ⟨error, s, rfl, hcut⟩
      rw [hcuts, ← hinv.restored_iff hfree horder]
      constructor
      · exact fun h => (h.failure (Option.some_ne_none error)).2
      · intro hback
        refine ⟨fun hc => ?_, fun _ => ⟨rfl, hback⟩, fun hc => ?_⟩
        · cases hc
        · -- All free pages of the pool are in the group, and the group is too small.
          have hall := hnone (Option.some.inj hc)
          have hsub : {p | ∃ i ∈ pool.managers, p ∈ free i} ⊆ ↑(pages s.group).toFinset := by
            rintro p ⟨i, hi, hpi⟩; exact List.mem_toFinset.2 (hall i (Pool.mem_order.2 hi) hpi)
          have hcard := Set.ncard_le_ncard hsub (Finset.finite_toSet _)
          rw [Set.ncard_coe_finset] at hcard
          have hlen := (pages s.group).toFinset_card_le
          have htotal := hinv.total
          omega

end Call

/-! ## Two managers that touch -/

section Touching

variable [TinyMT T] {index fuel : Nat} {s : GroupState T} {order : List Nat}
  (unoptimized random : Bool)

/-- A round of the loops that finds nothing changes nothing but generators. -/
structure Idle (L : Layout) (free : Nat → Set Nat) (s s' : GroupState T) : Prop where
  sound : HeapsSound L s'.managers free
  group_eq : s'.group = s.group
  infos_eq : s'.infos = s.infos
  numPages_eq : s'.numPages = s.numPages

/-- No block of the size is free. -/
def NoBlock (index : Nat) (P : Set Nat) : Prop :=
  ∀ p, ¬ Ico p (p + levels.size index) ⊆ P

theorem noBlock_empty (index : Nat) : NoBlock index ∅ := by
  intro p hsub
  have hsize := levels.size_pos index
  exact hsub (mem_Ico.2 ⟨le_refl p, by omega⟩)

theorem noBlock_singleton (p : Nat) (hidx : 0 < index) : NoBlock index {p} := by
  intro q hsub
  have hsize : levels.size 1 ≤ levels.size index := KPageHeap.levels_size_le hidx
  have hone : levels.size 1 = 16 := by decide
  have h1 : q = p := hsub (mem_Ico.2 ⟨le_refl q, by omega⟩)
  have h2 : q + 1 = p := hsub (mem_Ico.2 ⟨by omega, by omega⟩)
  omega

theorem takeBlocks_idle (fuel : Nat) (hs : HeapsSound L s.managers free) (hi : i < L.numManagers)
    (hidx : index < 7) (hnone : NoBlock index (free i)) :
    ∃ s', takeBlocks L i index unoptimized random fuel s = .ok s' ∧ Idle L free s s' := by
  cases fuel with
  | zero => exact ⟨s, rfl, hs, rfl, rfl, rfl⟩
  | succ fuel =>
    have hround : Round L i index unoptimized random fuel free s _ := takeBlocks_round hs hi hidx
    generalize takeBlocks L i index unoptimized random (fuel + 1) s = r at hround ⊢
    cases hround with
    | small _ => exact ⟨s, rfl, hs, rfl, rfl, rfl⟩
    | none managers hs' _ _ => exact ⟨_, rfl, hs', rfl, rfl, rfl⟩
    | refused p _ _ hsub _ _ _ => exact absurd hsub (hnone p)
    | taken p _ _ _ _ hsub _ _ _ => exact absurd hsub (hnone p)

theorem takeFromManagers_idle (hs : HeapsSound L s.managers free)
    (horder : ∀ k ∈ order, k < L.numManagers) (hidx : index < 7)
    (hnone : ∀ k ∈ order, NoBlock index (free k)) :
    ∃ s', takeFromManagers L index unoptimized random order s = .ok s' ∧ Idle L free s s' := by
  induction order generalizing s with
  | nil => exact ⟨s, rfl, hs, rfl, rfl, rfl⟩
  | cons i order ih =>
    obtain ⟨s₁, heq₁, h₁⟩ := takeBlocks_idle unoptimized random s.numPages hs
      (horder i List.mem_cons_self) hidx (hnone i List.mem_cons_self)
    obtain ⟨s₂, heq₂, h₂⟩ := ih h₁.sound (fun k hk => horder k (List.mem_cons_of_mem _ hk))
      (fun k hk => hnone k (List.mem_cons_of_mem _ hk))
    refine ⟨s₂, ?_, h₂.sound, h₂.group_eq.trans h₁.group_eq, h₂.infos_eq.trans h₁.infos_eq,
      h₂.numPages_eq.trans h₁.numPages_eq⟩
    rw [takeFromManagers, heq₁]; exact heq₂

theorem takeBlocks_single {p infos : Nat} {group : KPageGroup} (hs : HeapsSound L s.managers free)
    (hi : i < L.numManagers) (hfree : free i = {p}) (hfuel : s.numPages ≤ fuel)
    (hpos : 0 < s.numPages)
    (hadd : s.group.addBlock s.infos (p * PageSize) 1 = some (group, infos)) :
    ∃ s', takeBlocks L i 0 unoptimized random fuel s = .ok s' ∧
      HeapsSound L s'.managers (update free i ∅) ∧ s'.group = group ∧ s'.infos = infos ∧
      s'.numPages = s.numPages - 1 := by
  obtain ⟨fuel, rfl⟩ : ∃ n, fuel = n + 1 := ⟨fuel - 1, by omega⟩
  have hround : Round L i 0 unoptimized random fuel free s _ :=
    takeBlocks_round hs hi (by decide)
  have hpage : ∀ q, Ico q (q + levels.size 0) ⊆ free i → q = p := by
    intro q hsub
    rw [hfree] at hsub; exact hsub (mem_Ico.2 ⟨le_refl q, Nat.lt_succ_self q⟩)
  generalize takeBlocks L i 0 unoptimized random (fuel + 1) s = r at hround ⊢
  cases hround with
  | small hlt =>
    rw [KPageHeap.size_zero] at hlt; omega
  | none managers hs' hempty _ =>
    rw [hfree] at hempty; exact absurd (hempty rfl) (singleton_ne_empty p)
  | refused q _ _ hsub _ hnone _ =>
    obtain rfl := hpage q hsub
    rw [KPageHeap.size_zero, hadd] at hnone; cases hnone
  | taken q managers group' infos' _ hsub hs' hadd' _ =>
    obtain rfl := hpage q hsub
    rw [KPageHeap.size_zero, hadd] at hadd'
    obtain ⟨rfl, rfl⟩ := Prod.mk.inj (Option.some.inj hadd')
    have hempty : free i \ Ico q (q + levels.size 0) = ∅ := by
      rw [hfree, KPageHeap.size_zero, sdiff_eq_empty, singleton_subset_iff, mem_Ico]
      exact ⟨le_refl q, Nat.lt_succ_self q⟩
    rw [hempty] at hs'
    obtain ⟨s', heq, hidle⟩ := takeBlocks_idle unoptimized random fuel
      (s := ⟨managers, group, infos, s.numPages - levels.size 0⟩) hs' hi
      (by decide : 0 < 7) (by rw [update_self]; exact noBlock_empty 0)
    exact ⟨s', heq, hidle.sound, hidle.group_eq, hidle.infos_eq, hidle.numPages_eq⟩

theorem takeFromManagers_single {p infos : Nat} {group : KPageGroup} {before after : List Nat}
    (hs : HeapsSound L s.managers free) (horder : ∀ k ∈ before ++ i :: after, k < L.numManagers)
    (hbefore : ∀ k ∈ before, free k = ∅) (hfree : free i = {p}) (hpos : 0 < s.numPages)
    (hadd : s.group.addBlock s.infos (p * PageSize) 1 = some (group, infos)) :
    ∃ s', takeFromManagers L 0 unoptimized random (before ++ i :: after) s =
        takeFromManagers L 0 unoptimized random after s' ∧
      HeapsSound L s'.managers (update free i ∅) ∧ s'.group = group ∧ s'.infos = infos ∧
      s'.numPages = s.numPages - 1 := by
  induction before generalizing s with
  | nil =>
    obtain ⟨s', heq, hs'⟩ := takeBlocks_single unoptimized random hs
      (horder i List.mem_cons_self) hfree (le_refl _) hpos hadd
    refine ⟨s', ?_, hs'⟩
    rw [List.nil_append, takeFromManagers, heq]; rfl
  | cons k before ih =>
    obtain ⟨s₁, heq₁, h₁⟩ := takeBlocks_idle unoptimized random s.numPages hs
      (horder k List.mem_cons_self) (by decide : 0 < 7)
      (by rw [hbefore k List.mem_cons_self]; exact noBlock_empty 0)
    obtain ⟨s', heq, hs', hgroup, hinfos, hpages⟩ := ih (s := s₁) h₁.sound
      (fun k hk => horder k (List.mem_cons_of_mem _ hk))
      (fun k hk => hbefore k (List.mem_cons_of_mem _ hk)) (by rw [h₁.numPages_eq]; exact hpos)
      (by rw [h₁.group_eq, h₁.infos_eq]; exact hadd)
    rw [h₁.numPages_eq] at hpages
    refine ⟨s', ?_, hs', hgroup, hinfos, hpages⟩
    rw [List.cons_append, takeFromManagers, heq₁]; exact heq

/-- The last page of manager `i` and the first one of manager `j`, and no other page. -/
def borderPages (L : Layout) (i j : Nat) : Nat → Set Nat := fun k =>
  if k = i then {L.endPage i - 1} else if k = j then {L.startPage j} else ∅

theorem borderPages_left (L : Layout) (i j : Nat) : borderPages L i j i = {L.endPage i - 1} := if_pos rfl

theorem borderPages_right (L : Layout) (hne : j ≠ i) : borderPages L i j j = {L.startPage j} := by
  rw [borderPages, if_neg hne, if_pos rfl]

theorem borderPages_of_ne {k : Nat} (hi : k ≠ i) (hj : k ≠ j) : borderPages L i j k = ∅ := by
  rw [borderPages, if_neg hi, if_neg hj]

theorem noBlock_borderPages (k : Nat) (hidx : 0 < index) : NoBlock index (borderPages L i j k) := by
  rw [borderPages]
  split
  · exact noBlock_singleton _ hidx
  · split
    · exact noBlock_singleton _ hidx
    · exact noBlock_empty index

theorem addBlock_first {p infos : Nat} (hinfos : 0 < infos) :
    KPageGroup.addBlock [] infos (p * PageSize) 1 = some ([⟨p, 1⟩], infos - 1) := by
  show KPageGroup.appendBlock [] infos (p * PageSize) 1 = _
  rw [KPageGroup.appendBlock, if_neg hinfos.ne', Nat.mul_div_cancel _ (by decide)]
  rfl

theorem addBlock_next (p infos : Nat) :
    KPageGroup.addBlock [⟨p, 1⟩] infos ((p + 1) * PageSize) 1 = some ([⟨p, 2⟩], infos) := by
  have hcat : KBlockInfo.tryConcatenate ⟨p, 1⟩ ((p + 1) * PageSize) 1 = some ⟨p, 2⟩ :=
    if_pos ⟨Nat.mul_ne_zero (Nat.succ_ne_zero p) (by decide), rfl⟩
  rw [KPageGroup.addBlock, if_neg Nat.one_ne_zero]
  simp [hcat]

/-- Two managers that touch: the two pages become ONE node. -/
theorem takeFromManagers_border {before between after : List Nat}
    (hs : HeapsSound L s.managers (borderPages L i j))
    (hnodup : (before ++ i :: (between ++ j :: after)).Nodup)
    (horder : ∀ k ∈ before ++ i :: (between ++ j :: after), k < L.numManagers)
    (htouch : L.endPage i = L.startPage j)
    (hgroup : s.group = []) (hinfos : 0 < s.infos) (hpages : 1 < s.numPages) :
    ∃ s', takeFromManagers L 0 unoptimized random (before ++ i :: (between ++ j :: after)) s = .ok s' ∧
      s'.group = [⟨L.endPage i - 1, 2⟩] ∧ s'.numPages = s.numPages - 2 := by
  obtain ⟨-, hrest, hapart⟩ := List.nodup_append'.1 hnodup
  obtain ⟨hi, hrest'⟩ := List.nodup_cons.1 hrest
  obtain ⟨-, hrest'', hapart'⟩ := List.nodup_append'.1 hrest'
  obtain ⟨hj, -⟩ := List.nodup_cons.1 hrest''
  have hend := L.start_lt_end i (horder i (List.mem_append_right _ List.mem_cons_self))
  have hji : j ≠ i := fun hc => hi (hc ▸ List.mem_append_right _ List.mem_cons_self)
  have hother : ∀ k, k ≠ i → update (borderPages L i j) i ∅ k = borderPages L i j k :=
    fun k hk => update_of_ne hk _ _
  -- The last page of manager `i` is the first node.
  have hadd₁ : s.group.addBlock s.infos ((L.endPage i - 1) * PageSize) 1 =
      some ([⟨L.endPage i - 1, 1⟩], s.infos - 1) := by
    rw [hgroup]; exact addBlock_first hinfos
  obtain ⟨s₁, heq₁, hs₁, hgroup₁, hinfos₁, hpages₁⟩ := takeFromManagers_single unoptimized random hs
    horder
    (fun k hk => borderPages_of_ne (fun hc => hapart hk (hc ▸ List.mem_cons_self))
      fun hc => hapart hk (hc ▸ List.mem_cons_of_mem _ (List.mem_append_right _ List.mem_cons_self)))
    (borderPages_left L i j) (by omega) hadd₁
  -- The first page of manager `j` begins where the node ends.
  have hadd₂ : s₁.group.addBlock s₁.infos (L.startPage j * PageSize) 1 =
      some ([⟨L.endPage i - 1, 2⟩], s₁.infos) := by
    have hstart : L.startPage j = L.endPage i - 1 + 1 := by omega
    rw [hgroup₁, hstart]; exact addBlock_next _ _
  obtain ⟨s₂, heq₂, hs₂, hgroup₂, -, hpages₂⟩ := takeFromManagers_single unoptimized random
    (s := s₁) hs₁ (fun k hk => horder k (List.mem_append_right _ (List.mem_cons_of_mem _ hk)))
    (fun k hk => by
      have hki : k ≠ i := fun hc => hi (hc ▸ List.mem_append_left _ hk)
      rw [hother k hki]
      exact borderPages_of_ne hki fun hc => hapart' hk (hc ▸ List.mem_cons_self))
    (by rw [hother j hji, borderPages_right L hji]) (by omega) hadd₂
  -- Nobody else has a page.
  obtain ⟨s₃, heq₃, h₃⟩ := takeFromManagers_idle unoptimized random (s := s₂) hs₂
    (fun k hk => horder k (List.mem_append_right _ (List.mem_cons_of_mem _
      (List.mem_append_right _ (List.mem_cons_of_mem _ hk))))) (by decide : 0 < 7)
    (fun k hk => by
      have hki : k ≠ i := fun hc =>
        hi (hc ▸ List.mem_append_right _ (List.mem_cons_of_mem _ hk))
      have hkj : k ≠ j := fun hc => hj (hc ▸ hk)
      rw [update_of_ne hkj, hother k hki, borderPages_of_ne hki hkj]
      exact noBlock_empty 0)
  refine ⟨s₃, ?_, h₃.group_eq.trans hgroup₂, ?_⟩
  · rw [heq₁, heq₂, heq₃]
  · rw [h₃.numPages_eq, hpages₂, hpages₁, Nat.sub_sub]

theorem takeSizes_border {n : Nat} {before between after : List Nat}
    (hs : HeapsSound L s.managers (borderPages L i j))
    (horder : order = before ++ i :: (between ++ j :: after)) (hnodup : order.Nodup)
    (hlt : ∀ k ∈ order, k < L.numManagers) (htouch : L.endPage i = L.startPage j) (hn : n < 7)
    (hgroup : s.group = []) (hinfos : 0 < s.infos) (hpages : 1 < s.numPages) :
    ∃ s', takeSizes L order unoptimized random (n + 1) s = .ok s' ∧
      s'.group = [⟨L.endPage i - 1, 2⟩] ∧ s'.numPages = s.numPages - 2 := by
  induction n generalizing s with
  | zero =>
    subst horder
    obtain ⟨s', heq, hs'⟩ := takeFromManagers_border unoptimized random hs hnodup hlt htouch hgroup
      hinfos hpages
    refine ⟨s', ?_, hs'⟩
    rw [takeSizes, if_pos (by omega), heq]; rfl
  | succ n ih =>
    obtain ⟨s₁, heq₁, h₁⟩ := takeFromManagers_idle unoptimized random hs hlt hn
      fun k _ => noBlock_borderPages k n.succ_pos
    obtain ⟨s', heq, hs'⟩ := ih h₁.sound (by omega) (h₁.group_eq.trans hgroup)
      (by rw [h₁.infos_eq]; exact hinfos) (by rw [h₁.numPages_eq]; exact hpages)
    rw [h₁.numPages_eq] at hs'
    refine ⟨s', ?_, hs'⟩
    rw [takeSizes, if_pos (by omega), heq₁]; exact heq

end Touching

/-! ## Result -/

section Result

variable [TinyMT T]

/-- A heap nothing was done with. -/
def rawHeap (T : Type) [Inhabited T] : KPageHeap T :=
  let g : RandomBitGenerator T := ⟨default, 0#32, 0⟩
  ⟨0, 0, 0, fun _ => ⟨⟨fun _ _ => 0, 0, 0, g⟩, 0, 0, 0⟩, g⟩

omit [TinyMT T] in
theorem exists_sound [Inhabited T] {lo hi : Nat} (hlo : 0 < lo) (hle : lo ≤ hi) {P : Set Nat}
    (hP : P ⊆ Ico lo hi) : ∃ heap : KPageHeap T, KPageHeap.Sound lo hi heap P := by
  have hfinite : P.Finite := (Set.finite_Ico lo hi).subset hP
  induction P, hfinite using Set.Finite.induction_on with
  | empty =>
    have hinit : KPageHeap.Sound lo hi ((rawHeap T).init (lo * PageSize) ((hi - lo) * PageSize)) ∅ :=
      KPageHeap.sound_init hlo hle
    exact ⟨_, hinit⟩
  | @insert p P hp _ ih =>
    obtain ⟨hpin, hPin⟩ := insert_subset_iff.1 hP
    obtain ⟨heap, hs⟩ := ih hPin
    rw [mem_Ico] at hpin
    have hone : Ico p (p + 1) = {p} := by
      ext x
      rw [mem_Ico, mem_singleton_iff]; omega
    have hfree := hs.free (p := p) (n := 1) hpin.1 (by omega)
      (by rw [hone]; exact disjoint_singleton_right.2 hp)
    rw [hone, union_singleton] at hfree; exact ⟨_, hfree⟩

omit [TinyMT T] in
theorem exists_heapsSound [Inhabited T] (free : Nat → Set Nat) (optimizeMap : Nat → Nat → BitVec 64)
    (hfree : ∀ k < L.numManagers, free k ⊆ Ico (L.startPage k) (L.endPage k)) :
    ∃ managers : Managers T, HeapsSound L managers free ∧
      ∀ k, (managers k).optimizeMap = optimizeMap k := by
  have hheap : ∀ k, ∃ heap : KPageHeap T, k < L.numManagers →
      KPageHeap.Sound (L.startPage k) (L.endPage k) heap (free k) := by
    intro k
    by_cases hk : k < L.numManagers
    · obtain ⟨heap, hs⟩ := exists_sound (T := T) (L.start_pos k hk) (L.start_lt_end k hk).le
        (hfree k hk)
      exact ⟨heap, fun _ => hs⟩
    · exact ⟨rawHeap T, fun hc => absurd hc hk⟩
  choose heap hsound using hheap
  exact ⟨fun k => ⟨heap k, optimizeMap k⟩, hsound, fun _ => rfl⟩

theorem borderPages_subset (hi : i < L.numManagers) (hj : j < L.numManagers) :
    ∀ k < L.numManagers, borderPages L i j k ⊆ Ico (L.startPage k) (L.endPage k) := by
  intro k hk
  have hik := L.start_lt_end i hi
  have hjk := L.start_lt_end j hj
  rw [borderPages]
  split
  · next hki =>
    rw [hki, singleton_subset_iff, mem_Ico]
    omega
  · split
    · next hkj =>
      rw [hkj, singleton_subset_iff, mem_Ico]
      omega
    · exact empty_subset _

theorem Pool.exists_order (pool : Pool L) (hi : i ∈ pool.managers) (hj : j ∈ pool.managers)
    (hne : i ≠ j) :
    ∃ dir before between after, pool.order dir = before ++ i :: (between ++ j :: after) := by
  obtain ⟨left, right, hsplit⟩ := List.append_of_mem hi
  rw [hsplit, List.mem_append, List.mem_cons] at hj
  rcases hj with hj | hj | hj
  · obtain ⟨left, between, rfl⟩ := List.append_of_mem hj
    refine ⟨.fromBack, right.reverse, between.reverse, left.reverse, ?_⟩
    rw [Pool.order, hsplit]
    simp
  · exact absurd hj.symm hne
  · obtain ⟨between, right, rfl⟩ := List.append_of_mem hj
    exact ⟨.fromFront, left, between, right, hsplit⟩

theorem Pool.nodup_order (pool : Pool L) (dir : Direction) : (pool.order dir).Nodup := by
  cases dir with
  | fromFront => exact pool.nodup
  | fromBack => exact List.nodup_reverse.2 pool.nodup

/-- No manager of the pool begins where another one ends. -/
def Pool.Apart (pool : Pool L) : Prop :=
  ∀ i ∈ pool.managers, ∀ j ∈ pool.managers, L.endPage i ≠ L.startPage j

instance {pool : Pool L} : Decidable pool.Apart :=
  inferInstanceAs (Decidable (∀ i ∈ _, _))

theorem exists_cutsNode [Inhabited T] {numPages : Nat} {pool : Pool L} (hpages : 2 < numPages)
    (hi : i ∈ pool.managers) (hj : j ∈ pool.managers) (htouch : L.endPage i = L.startPage j) :
    ∃ dir, ∃ managers : Managers T, HeapsSound L managers (borderPages L i j) ∧
      CutsNode L pool dir managers 1 numPages false false := by
  have hin := pool.lt i hi
  have hend := L.start_lt_end i hin
  have hne : i ≠ j := by
    rintro rfl; omega
  obtain ⟨dir, before, between, after, horder⟩ := pool.exists_order hi hj hne
  obtain ⟨managers, hs, -⟩ := exists_heapsSound (T := T) _ (fun _ _ => 0)
    (borderPages_subset hin (pool.lt j hj))
  obtain ⟨index, hidx, hindex⟩ := getBlockIndex_of_pos (by omega : 0 < numPages)
  obtain ⟨s, heq, hgroup, hleft⟩ := takeSizes_border false false
    (s := ⟨managers, [], 1, numPages⟩) hs horder (pool.nodup_order dir)
    (fun k hk => pool.lt k (Pool.mem_order.1 hk)) htouch hidx rfl Nat.one_pos
    (by dsimp only; omega)
  refine ⟨dir, managers, hs, .outOfMemory, s, ?_, ⟨L.endPage i - 1, 2⟩, ?_, ?_⟩
  · rw [hindex, Int.toNat_natCast, fillGroup, heq]
    dsimp only at hleft
    exact if_neg (by omega)
  · rw [hgroup]
    exact List.mem_singleton_self _
  · have hlast : L.endPage i - 1 ∈ Ico (L.startPage i) (L.endPage i) := mem_Ico.2 ⟨by omega, by omega⟩
    rw [nodeEnd_eq (b := ⟨L.endPage i - 1, 2⟩) hin hlast]
    dsimp only; omega

/-- **`AllocatePageGroupImpl` is atomic and exact, for all heaps of a pool**, exactly if it is asked for
    pages and either for one or two of them or no manager of the pool begins where another one ends. -/
theorem allocatePageGroupImpl_exact [Inhabited T] (L : Layout) (pool : Pool L) (numPages : Nat) :
    (∀ (dir : Direction) (managers : Managers T) (free : Nat → Set Nat) (infos : Nat)
        (unoptimized random : Bool), HeapsSound L managers free →
      AllocatesGroup L pool free numPages
        (allocatePageGroupImpl L pool dir managers infos numPages unoptimized random)) ↔
      0 < numPages ∧ (2 < numPages → pool.Apart) := by
  constructor
  · intro hall
    obtain ⟨managers, hs, -⟩ := exists_heapsSound (T := T) (L := L) (fun _ => ∅)
      (fun _ _ => 0) (fun k _ => empty_subset _)
    have hpos := ((allocatesGroup_iff hs).1 (hall .fromFront managers _ 0 false false hs)).1
    refine ⟨hpos, fun hpages i hi j hj htouch => ?_⟩
    obtain ⟨dir, managers, hs, hcut⟩ := exists_cutsNode (T := T) hpages hi hj htouch
    exact ((allocatesGroup_iff hs).1 (hall dir managers _ 1 false false hs)).2 hcut
  · rintro ⟨hpos, hapart⟩ dir managers free infos unoptimized random hs
    refine (allocatesGroup_iff hs).2 ⟨hpos, ?_⟩
    rintro ⟨error, s, herr, hcut⟩
    obtain ⟨index, hidx, hindex⟩ := getBlockIndex_of_pos hpos
    rw [hindex, Int.toNat_natCast] at herr
    rcases fillGroup_spec pool dir infos numPages unoptimized random hs hidx with
      ⟨s', hok, -⟩ | ⟨error', s', herr', hinv, hmissing, -⟩
    · rw [herr] at hok
      cases hok
    · rw [herr] at herr'
      cases herr'
      obtain ⟨hlen, i, hi, j, hj, htouch⟩ := hinv.adjacent_of_cut (fun k hk => (hs k hk).within)
        (fun k hk => pool.lt k (Pool.mem_order.1 hk)) hcut
      have htotal := hinv.total
      exact hapart (by omega) i (Pool.mem_order.1 hi) j (Pool.mem_order.1 hj) htouch

end Result

/-! ## A page that is lost -/

/-- Managers whose pages are all free. -/
def fullManagers (L : Layout) : Managers Unit := fun i =>
  ⟨((rawHeap Unit).init (L.startPage i * PageSize) ((L.endPage i - L.startPage i) * PageSize)).free
    (L.startPage i * PageSize) (L.endPage i - L.startPage i), fun _ => 0⟩

def fullPages (L : Layout) (i : Nat) : Set Nat := Ico (L.startPage i) (L.endPage i)

theorem fullManagers_sound (L : Layout) : HeapsSound L (fullManagers L) (fullPages L) := by
  intro i hi
  have hlt := L.start_lt_end i hi
  have hstop : L.startPage i + (L.endPage i - L.startPage i) = L.endPage i := by omega
  have hinit : KPageHeap.Sound (L.startPage i) (L.endPage i)
      ((rawHeap Unit).init (L.startPage i * PageSize) ((L.endPage i - L.startPage i) * PageSize)) ∅ :=
    KPageHeap.sound_init (L.start_pos i hi) hlt.le
  have hfree := hinit.free (le_refl (L.startPage i)) hstop.le (empty_disjoint _)
  rw [empty_union, hstop] at hfree
  exact hfree

/-- Two managers of two pages each, the second one right behind the first. -/
def touchingLayout : Layout where
  numManagers := 2
  startPage i := 0x80000 + 2 * i
  endPage i := 0x80000 + 2 * i + 2
  start_pos i _ := by omega
  start_lt_end i _ := by omega
  disjoint i _ j _ hne := by omega
  end_le i hi := by omega
  representable i hi := by
    refine ⟨fun k hk => ?_, ?_⟩ <;> interval_cases i
    · interval_cases k <;> decide
    · interval_cases k <;> decide
    · decide
    · decide

def touchingPool : Pool touchingLayout := ⟨[0, 1], by decide, by decide⟩

/-- Five pages of the four: the failure frees the pages of the first manager only. -/
theorem allocatePageGroupImpl_leaks :
    HeapsSound touchingLayout (fullManagers touchingLayout) (fullPages touchingLayout) ∧
      ¬ AllocatesGroup touchingLayout touchingPool (fullPages touchingLayout) 5
        (allocatePageGroupImpl touchingLayout touchingPool .fromFront (fullManagers touchingLayout) 1 5
          false false) := by
  refine ⟨fullManagers_sound _, fun hgood => ?_⟩
  have hcount : ((allocatePageGroupImpl touchingLayout touchingPool .fromFront
      (fullManagers touchingLayout) 1 5 false false).managers 1).heap.getNumFreePages = 0 := by
    decide +kernel
  have herror : (allocatePageGroupImpl touchingLayout touchingPool .fromFront
      (fullManagers touchingLayout) 1 5 false false).error = some .outOfMemory := by
    decide +kernel
  have hback := (hgood.failure (by rw [herror]; exact Option.some_ne_none _)).2 1 (by decide)
  have hfree := hback.toExact.numFreePages_eq
  rw [hcount, fullPages, Set.ncard_eq_toFinset_card', Set.toFinset_Ico, Nat.card_Ico] at hfree
  exact absurd hfree (by decide)

end KMemoryManager

end Suyu.Kernel
