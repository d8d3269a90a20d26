import Mathlib
import Suyu.Kernel.MemoryManager

/-
  KMemoryManager - the optimize map: which pages the optimized process has had before.

  1. **Program** - `AllocateForProcess`.  For the optimized process every node of the group is processed
     manager by manager: pages with a clear bit are filled (`ProcessOptimizedAllocation`), and if there is
     a new page the bits of the whole node are set (`TrackOptimizedAllocation`).  For any other process
     the allocation itself clears the bits (`TrackUnoptimizedAllocation`).

  2. **Specification (`TracksAllocation`)** - after an allocation of the optimized process its pages have
     their bits set, the ones that had not are filled, and no page that had is written; after an allocation
     of another process its pages have their bits clear.

  3. **The crux (`processBlocks_spec`)** - a node that lies in ONE manager is one slice, and then `any_new`
     says what its name says.

  4. **When it goes wrong** - `any_new = manager.ProcessOptimizedAllocation(..)` forgets the slices before
     the last one: a node with new pages in its first manager and none in its last is not tracked.

  Memory is a function from addresses to bytes; `memset` of a page and `ClearBackingRegion` write it.
-/

namespace Suyu.Kernel.KMemoryManager

open Function (update update_self update_of_ne)

open Set

variable {T : Type} {L : Layout}

/-! ## Program -/

abbrev Memory := Nat → BitVec 8

/-- `memset(ptr, fill_pattern, PageSize)` at a page. -/
def fillPage (memory : Memory) (page : Nat) (fillPattern : BitVec 8) : Memory :=
  fun address => if address / PageSize = page then fillPattern else memory address

/-- The loop of `ProcessOptimizedAllocation`, for `n` pages; `heapPage` is the first page of the heap. -/
def processPages (map : Nat → BitVec 64) (heapPage : Nat) (fillPattern : BitVec 8) :
    Nat → Nat → Bool × Memory → Bool × Memory
  | 0, _, r => r
  | n + 1, offset, r =>
      processPages map heapPage fillPattern n (offset + 1)
        (if map (offset / 64) &&& (1#64 <<< (offset % 64)) = 0 then
          (true, fillPage r.2 (heapPage + offset) fillPattern)
        else r)

def processOptimizedAllocation (L : Layout) (managers : Managers T) (i block numPages : Nat)
    (fillPattern : BitVec 8) (memory : Memory) : Bool × Memory :=
  processPages (managers i).optimizeMap (L.startPage i) fillPattern numPages
    (getPageOffset L i block) (false, memory)

/-- The loop of `TrackOptimizedAllocation`, for `n` pages. -/
def setTracked : Nat → Nat → (Nat → BitVec 64) → (Nat → BitVec 64)
  | 0, _, map => map
  | n + 1, offset, map =>
      setTracked n (offset + 1)
        (update map (offset / 64) (map (offset / 64) ||| 1#64 <<< (offset % 64)))

def trackOptimizedAllocation (L : Layout) (managers : Managers T) (i block numPages : Nat) :
    Managers T :=
  update managers i { managers i with
    optimizeMap := setTracked numPages (getPageOffset L i block) (managers i).optimizeMap }

/-- `Fill all the pages that we need to fill.`, slice by slice; `any_new` is OVERWRITTEN. -/
def processSlices (L : Layout) (managers : Managers T) (fillPattern : BitVec 8) :
    Nat → Nat → Nat → Bool × Memory → Bool × Memory
  | 0, _, _, r => r
  | fuel + 1, curAddress, remainingPages, r =>
      if remainingPages > 0 then
        let i := getManager L curAddress
        let curPages := min remainingPages (getPageOffsetToEnd L i curAddress)
        processSlices L managers fillPattern fuel (curAddress + curPages * PageSize)
          (remainingPages - curPages)
          (processOptimizedAllocation L managers i curAddress curPages fillPattern r.2)
      else r

/-- `Update tracking for the allocation.`, slice by slice. -/
def trackSlices (L : Layout) : Nat → Nat → Nat → Managers T → Managers T
  | 0, _, _, managers => managers
  | fuel + 1, curAddress, remainingPages, managers =>
      if remainingPages > 0 then
        let i := getManager L curAddress
        let curPages := min remainingPages (getPageOffsetToEnd L i curAddress)
        trackSlices L fuel (curAddress + curPages * PageSize) (remainingPages - curPages)
          (trackOptimizedAllocation L managers i curAddress curPages)
      else managers

/-- One node of the group; a slice has at least one page. -/
def processBlock (L : Layout) (fillPattern : BitVec 8) (state : Managers T × Memory)
    (block : KBlockInfo) : Managers T × Memory :=
  if block.numPages = 0 then state
  else
    let r := processSlices L state.1 fillPattern block.numPages block.getAddress block.numPages
      (false, state.2)
    if r.1 then (trackSlices L block.numPages block.getAddress block.numPages state.1, r.2)
    else (state.1, r.2)

/-- `ClearBackingRegion` of one node. -/
def clearBackingRegion (fillPattern : BitVec 8) (memory : Memory) (block : KBlockInfo) : Memory :=
  fun address =>
    if block.getAddress ≤ address ∧ address < block.getAddress + block.numPages * PageSize then
      fillPattern
    else memory address

structure ProcessResult (T : Type) where
  managers : Managers T
  group : KPageGroup
  error : Option AllocError
  memory : Memory

/-- `m_has_optimized_process` and `m_optimized_process_ids` of the pool. -/
structure OptimizedProcess where
  has : Bool
  id : BitVec 64

def allocateForProcess [TinyMT T] (L : Layout) (pool : Pool L) (dir : Direction)
    (managers : Managers T) (infos numPages : Nat) (optimizedProcess : OptimizedProcess)
    (processId : BitVec 64) (fillPattern : BitVec 8) (memory : Memory) : ProcessResult T :=
  let hasOptimized := optimizedProcess.has
  let isOptimized := optimizedProcess.id == processId
  let r := allocatePageGroupImpl L pool dir managers infos numPages (hasOptimized && !isOptimized)
    false
  match r.error with
  | some error => ⟨r.managers, r.group, some error, memory⟩
  | none =>
      if hasOptimized && isOptimized then
        let state := r.group.foldl (processBlock L fillPattern) (r.managers, memory)
        ⟨state.1, r.group, none, state.2⟩
      else ⟨r.managers, r.group, none, r.group.foldl (clearBackingRegion fillPattern) memory⟩

/-! ## Specification -/

/-- The bit of a page in the optimize map of its manager is set. -/
def Tracked (L : Layout) (managers : Managers T) (p : Nat) : Prop :=
  ∃ i < L.numManagers, p ∈ Ico (L.startPage i) (L.endPage i) ∧
    (managers i).bit (p - L.startPage i) = true

/-- What an allocation should do to the optimize maps and to memory. -/
structure TracksAllocation (L : Layout) (managers : Managers T) (memory : Memory)
    (optimizedProcess : OptimizedProcess) (processId : BitVec 64) (fillPattern : BitVec 8)
    (result : ProcessResult T) : Prop where
  tracked : result.error = none → optimizedProcess.has = true → optimizedProcess.id = processId →
    ∀ p ∈ pages result.group, Tracked L result.managers p
  filled : result.error = none → optimizedProcess.has = true → optimizedProcess.id = processId →
    ∀ p ∈ pages result.group, ¬ Tracked L managers p →
      ∀ address, address / PageSize = p → result.memory address = fillPattern
  kept : result.error = none → optimizedProcess.has = true → optimizedProcess.id = processId →
    ∀ p, Tracked L managers p →
      ∀ address, address / PageSize = p → result.memory address = memory address
  untracked : result.error = none → optimizedProcess.has = true → optimizedProcess.id ≠ processId →
    ∀ p ∈ pages result.group, ¬ Tracked L result.managers p

/-! ## Pages and bits -/

theorem tracked_iff {managers : Managers T} {i p : Nat} (hi : i < L.numManagers)
    (hp : p ∈ Ico (L.startPage i) (L.endPage i)) :
    Tracked L managers p ↔ (managers i).bit (p - L.startPage i) = true := by
  constructor
  · rintro ⟨k, hk, hpk, hbit⟩
    obtain rfl := L.eq_of_mem hk hi hpk hp
    exact hbit
  · exact fun hbit => ⟨i, hi, hp, hbit⟩

theorem mask_eq_zero_iff (map : Nat → BitVec 64) (offset : Nat) :
    map (offset / 64) &&& (1#64 <<< (offset % 64)) = 0 ↔
      KPageBitmap.bitAt (fun _ => map) 0 offset = false := by
  have hlt : offset % 64 < 64 := Nat.mod_lt _ (by decide)
  have hbit : ∀ j, (map (offset / 64) &&& (1#64 <<< (offset % 64))).getLsbD j =
      ((map (offset / 64)).getLsbD j && decide (j = offset % 64)) := by
    intro j
    rw [BitVec.getLsbD_and, KPageBitmap.getLsbD_one_shiftLeft hlt]
  rw [KPageBitmap.bitAt]
  constructor
  · intro hzero
    have hat := hbit (offset % 64)
    rw [hzero, decide_eq_true rfl, Bool.and_true] at hat
    rw [← hat]
    exact BitVec.getLsbD_zero
  · intro hclear
    refine BitVec.eq_of_getLsbD_eq fun j hj => ?_
    rw [hbit]
    by_cases hjo : j = offset % 64
    · rw [hjo, hclear, Bool.false_and]
      exact BitVec.getLsbD_zero.symm
    · rw [decide_eq_false hjo, Bool.and_false]; exact BitVec.getLsbD_zero.symm

/-- A page with a clear bit, among `n` pages from an offset on. -/
def NewPage (map : Nat → BitVec 64) (heapPage offset n page : Nat) : Prop :=
  ∃ k, offset ≤ k ∧ k < offset + n ∧ page = heapPage + k ∧
    KPageBitmap.bitAt (fun _ => map) 0 k = false

theorem newPage_succ {map : Nat → BitVec 64} {heapPage offset n page : Nat} :
    NewPage map heapPage offset (n + 1) page ↔
      (page = heapPage + offset ∧ KPageBitmap.bitAt (fun _ => map) 0 offset = false) ∨
        NewPage map heapPage (offset + 1) n page := by
  constructor
  · rintro ⟨k, h1, h2, hpage, hbit⟩
    rcases Nat.lt_or_eq_of_le h1 with hlt | rfl
    · exact Or.inr ⟨k, hlt, by omega, hpage, hbit⟩
    · exact Or.inl ⟨hpage, hbit⟩
  · rintro (⟨hpage, hbit⟩ | ⟨k, h1, h2, hpage, hbit⟩)
    · exact ⟨offset, le_refl _, by omega, hpage, hbit⟩
    · exact ⟨k, by omega, by omega, hpage, hbit⟩

theorem processPages_fst {map : Nat → BitVec 64} {heapPage n offset : Nat} {fillPattern : BitVec 8}
    {r : Bool × Memory} :
    (processPages map heapPage fillPattern n offset r).1 = true ↔
      r.1 = true ∨ ∃ page, NewPage map heapPage offset n page := by
  induction n generalizing offset r with
  | zero =>
    refine ⟨Or.inl, ?_⟩
    rintro (h | ⟨page, k, h1, h2, -⟩)
    · exact h
    · omega
  | succ n ih =>
    rw [processPages, ih]
    simp only [newPage_succ, exists_or, mask_eq_zero_iff]
    by_cases hbit : KPageBitmap.bitAt (fun _ => map) 0 offset = false
    · simp [hbit]
    · simp [hbit]

/-- The pages with `new` are filled and nothing else is written. -/
def FillsNew (fillPattern : BitVec 8) (new : Nat → Prop) (memory memory' : Memory) : Prop :=
  ∀ address, (new (address / PageSize) ∧ memory' address = fillPattern) ∨
    (¬ new (address / PageSize) ∧ memory' address = memory address)

theorem processPages_snd (map : Nat → BitVec 64) (heapPage n offset : Nat) (fillPattern : BitVec 8)
    (r : Bool × Memory) :
    FillsNew fillPattern (NewPage map heapPage offset n) r.2
      (processPages map heapPage fillPattern n offset r).2 := by
  intro address
  induction n generalizing offset r with
  | zero =>
    refine Or.inr ⟨?_, rfl⟩
    rintro ⟨k, h1, h2, -⟩; omega
  | succ n ih =>
    rw [processPages, newPage_succ]
    rcases ih (offset + 1) (if map (offset / 64) &&& (1#64 <<< (offset % 64)) = 0 then
        (true, fillPage r.2 (heapPage + offset) fillPattern) else r) with
      ⟨hnew, heq⟩ | ⟨hnew, heq⟩
    · exact Or.inl ⟨Or.inr hnew, heq⟩
    · rw [heq]
      split
      · next hzero =>
        by_cases hpage : address / PageSize = heapPage + offset
        · exact Or.inl ⟨Or.inl ⟨hpage, (mask_eq_zero_iff map offset).1 hzero⟩, if_pos hpage⟩
        · refine Or.inr ⟨?_, if_neg hpage⟩
          rintro (h | h)
          · exact hpage h.1
          · exact hnew h
      · next hset =>
        refine Or.inr ⟨?_, rfl⟩
        rintro (h | h)
        · exact hset ((mask_eq_zero_iff map offset).2 h.2)
        · exact hnew h

theorem bitAt_setTracked (n offset j : Nat) (map : Nat → BitVec 64) :
    KPageBitmap.bitAt (fun _ => setTracked n offset map) 0 j =
      (decide (offset ≤ j ∧ j < offset + n) || KPageBitmap.bitAt (fun _ => map) 0 j) := by
  induction n generalizing offset map with
  | zero =>
    have hnone : ¬ (offset ≤ j ∧ j < offset + 0) := by omega
    rw [setTracked, decide_eq_false hnone, Bool.false_or]
  | succ n ih =>
    have hone : KPageBitmap.bitAt (fun _ => update map (offset / 64)
        (map (offset / 64) ||| 1#64 <<< (offset % 64))) 0 j =
          (decide (j = offset) || KPageBitmap.bitAt (fun _ => map) 0 j) :=
      KPageBitmap.bitAt_setMask rfl
    have hiff : (offset ≤ j ∧ j < offset + (n + 1)) ↔
        (offset + 1 ≤ j ∧ j < offset + 1 + n) ∨ j = offset := by
      omega
    rw [setTracked, ih, hone, ← Bool.or_assoc, ← Bool.decide_or, decide_eq_decide.2 hiff]

/-! ## Nodes in one manager -/

/-- The node lies in manager `i`. -/
structure Inside (L : Layout) (i : Nat) (b : KBlockInfo) : Prop where
  lt : i < L.numManagers
  start_le : L.startPage i ≤ b.pageIndex
  pos : 0 < b.numPages
  le_end : b.pageIndex + b.numPages ≤ L.endPage i

section Inside

variable {i : Nat} {b : KBlockInfo} {managers : Managers T} {memory : Memory}
  {fillPattern : BitVec 8}

theorem Inside.mem_Ico {p : Nat} (h : Inside L i b) (hp : p ∈ List.range' b.pageIndex b.numPages) :
    p ∈ Ico (L.startPage i) (L.endPage i) := by
  have h1 := h.start_le
  have h2 := h.le_end
  rw [List.mem_range'_1] at hp
  exact Set.mem_Ico.2 ⟨by omega, by omega⟩

theorem Inside.getManager_eq (h : Inside L i b) : getManager L b.getAddress = i :=
  KMemoryManager.getManager_eq h.lt (h.mem_Ico (List.mem_range'_1.2 ⟨le_refl _, by
    have := h.pos
    omega⟩))

theorem Inside.curPages_eq (h : Inside L i b) :
    min b.numPages (getPageOffsetToEnd L i b.getAddress) = b.numPages := by
  have hle := h.le_end
  rw [getPageOffsetToEnd, KBlockInfo.getAddress, ← Nat.sub_mul, Nat.mul_div_cancel _ (by decide)]
  omega

theorem getPageOffset_eq (L : Layout) (i : Nat) (b : KBlockInfo) :
    getPageOffset L i b.getAddress = b.pageIndex - L.startPage i := by
  rw [getPageOffset, KBlockInfo.getAddress, ← Nat.sub_mul, Nat.mul_div_cancel _ (by decide)]

theorem processSlices_zero (fuel address : Nat) (r : Bool × Memory) :
    processSlices L managers fillPattern fuel address 0 r = r := by
  cases fuel with
  | zero => rfl
  | succ fuel => exact if_neg (Nat.lt_irrefl 0)

theorem trackSlices_zero (fuel address : Nat) : trackSlices L fuel address 0 managers = managers := by
  cases fuel with
  | zero => rfl
  | succ fuel => exact if_neg (Nat.lt_irrefl 0)

theorem Inside.processSlices_eq (h : Inside L i b) :
    processSlices L managers fillPattern b.numPages b.getAddress b.numPages (false, memory) =
      processPages (managers i).optimizeMap (L.startPage i) fillPattern b.numPages
        (b.pageIndex - L.startPage i) (false, memory) := by
  obtain ⟨n, hn⟩ : ∃ n, b.numPages = n + 1 := ⟨b.numPages - 1, by have := h.pos; omega⟩
  have hfuel : ∀ r, processSlices L managers fillPattern b.numPages b.getAddress b.numPages r =
      processSlices L managers fillPattern (n + 1) b.getAddress b.numPages r := by
    intro r
    rw [hn]
  rw [hfuel, processSlices, if_pos h.pos]
  dsimp only
  rw [h.getManager_eq, h.curPages_eq, Nat.sub_self, processSlices_zero, processOptimizedAllocation,
    getPageOffset_eq]

theorem Inside.trackSlices_eq (h : Inside L i b) :
    trackSlices L b.numPages b.getAddress b.numPages managers =
      trackOptimizedAllocation L managers i b.getAddress b.numPages := by
  obtain ⟨n, hn⟩ : ∃ n, b.numPages = n + 1 := ⟨b.numPages - 1, by have := h.pos; omega⟩
  have hfuel : trackSlices L b.numPages b.getAddress b.numPages managers =
      trackSlices L (n + 1) b.getAddress b.numPages managers := by
    rw [hn]
  rw [hfuel, trackSlices, if_pos h.pos]
  dsimp only
  rw [h.getManager_eq, h.curPages_eq, Nat.sub_self, trackSlices_zero]

theorem Inside.newPage_iff {p : Nat} (h : Inside L i b) :
    NewPage (managers i).optimizeMap (L.startPage i) (b.pageIndex - L.startPage i) b.numPages p ↔
      p ∈ List.range' b.pageIndex b.numPages ∧ ¬ Tracked L managers p := by
  have hstart := h.start_le
  constructor
  · rintro ⟨k, h1, h2, rfl, hbit⟩
    have hmem : L.startPage i + k ∈ List.range' b.pageIndex b.numPages :=
      List.mem_range'_1.2 ⟨by omega, by omega⟩
    refine ⟨hmem, fun hc => ?_⟩
    have hset := (tracked_iff h.lt (h.mem_Ico hmem)).1 hc
    rw [Nat.add_sub_cancel_left, Impl.bit, hbit] at hset
    cases hset
  · rintro ⟨hmem, hclear⟩
    rw [tracked_iff h.lt (h.mem_Ico hmem), Bool.not_eq_true] at hclear
    rw [List.mem_range'_1] at hmem
    exact ⟨p - L.startPage i, by omega, by omega, by omega, hclear⟩

theorem Inside.tracked_track {p : Nat} (h : Inside L i b) :
    Tracked L (trackOptimizedAllocation L managers i b.getAddress b.numPages) p ↔
      Tracked L managers p ∨ p ∈ List.range' b.pageIndex b.numPages := by
  have hstart := h.start_le
  have hbit : ∀ k offset, (trackOptimizedAllocation L managers i b.getAddress b.numPages k).bit offset =
      (decide (k = i ∧ b.pageIndex - L.startPage i ≤ offset ∧
        offset < b.pageIndex - L.startPage i + b.numPages) || (managers k).bit offset) := by
    intro k offset
    rw [trackOptimizedAllocation, getPageOffset_eq]
    by_cases hk : k = i
    · subst hk
      rw [update_self, Impl.bit, bitAt_setTracked]
      simp only [true_and]
      rfl
    · rw [update_of_ne hk, decide_eq_false fun hc => hk hc.1, Bool.false_or]
  constructor
  · rintro ⟨k, hk, hpk, hset⟩
    rw [hbit, Bool.or_eq_true, decide_eq_true_iff] at hset
    rcases hset with ⟨rfl, h1, h2⟩ | hset
    · rw [Set.mem_Ico] at hpk
      exact Or.inr (List.mem_range'_1.2 ⟨by omega, by omega⟩)
    · exact Or.inl ⟨k, hk, hpk, hset⟩
  · rintro (⟨k, hk, hpk, hset⟩ | hmem)
    · exact ⟨k, hk, hpk, by rw [hbit, hset, Bool.or_true]⟩
    · refine ⟨i, h.lt, h.mem_Ico hmem, ?_⟩
      rw [List.mem_range'_1] at hmem
      rw [hbit, Bool.or_eq_true, decide_eq_true_iff]
      exact Or.inl ⟨rfl, by omega, by omega⟩

theorem Inside.processBlock (h : Inside L i b) (managers : Managers T) (memory : Memory)
    (fillPattern : BitVec 8) :
    (∀ p, Tracked L (processBlock L fillPattern (managers, memory) b).1 p ↔
        Tracked L managers p ∨ p ∈ List.range' b.pageIndex b.numPages) ∧
      FillsNew fillPattern
        (fun p => p ∈ List.range' b.pageIndex b.numPages ∧ ¬ Tracked L managers p) memory
        (processBlock L fillPattern (managers, memory) b).2 := by
  rw [KMemoryManager.processBlock, if_neg h.pos.ne']
  dsimp only
  rw [h.processSlices_eq, h.trackSlices_eq]
  have hfills := processPages_snd (managers i).optimizeMap (L.startPage i) b.numPages
    (b.pageIndex - L.startPage i) fillPattern (false, memory)
  rw [show NewPage _ _ _ _ = _ from funext fun p => propext (h.newPage_iff (p := p))] at hfills
  split
  · exact ⟨fun p => h.tracked_track, hfills⟩
  · next hnone =>
    -- There is no new page: the pages of the node are tracked already.
    refine ⟨fun p => ⟨Or.inl, ?_⟩, hfills⟩
    rintro (hp | hp)
    · exact hp
    · by_contra hclear
      exact hnone (processPages_fst.2 (Or.inr ⟨p, h.newPage_iff.2 ⟨hp, hclear⟩⟩))

/-- **All nodes**, each in one manager. -/
theorem processBlocks_spec {group : KPageGroup} (hin : ∀ b ∈ group, ∃ i, Inside L i b)
    (hnodup : (pages group).Nodup) (managers : Managers T) (memory : Memory)
    (fillPattern : BitVec 8) :
    (∀ p, Tracked L (group.foldl (KMemoryManager.processBlock L fillPattern) (managers, memory)).1 p ↔
        Tracked L managers p ∨ p ∈ pages group) ∧
      FillsNew fillPattern (fun p => p ∈ pages group ∧ ¬ Tracked L managers p) memory
        (group.foldl (KMemoryManager.processBlock L fillPattern) (managers, memory)).2 := by
  induction group generalizing managers memory with
  | nil =>
    refine ⟨fun p => ⟨Or.inl, ?_⟩, fun address => Or.inr ⟨fun hc => ?_, rfl⟩⟩
    · rintro (hp | hp)
      · exact hp
      · exact absurd hp List.not_mem_nil
    · exact absurd hc.1 List.not_mem_nil
  | cons b group ih =>
    obtain ⟨i, hb⟩ := hin b List.mem_cons_self
    have hsplit : pages (b :: group) = List.range' b.pageIndex b.numPages ++ pages group := rfl
    rw [hsplit] at hnodup ⊢
    obtain ⟨-, hnodup', hapart⟩ := List.nodup_append'.1 hnodup
    obtain ⟨htracked, hmemory⟩ := hb.processBlock managers memory fillPattern
    rw [List.foldl_cons]
    generalize KMemoryManager.processBlock L fillPattern (managers, memory) b = state
      at htracked hmemory ⊢
    obtain ⟨htracked', hmemory'⟩ := ih (fun b hb => hin b (List.mem_cons_of_mem _ hb)) hnodup'
      state.1 state.2
    refine ⟨fun p => ?_, fun address => ?_⟩
    · rw [htracked', htracked, List.mem_append, or_assoc]
    · -- A page of a later node is tracked now exactly if it was before.
      have hlater : address / PageSize ∈ pages group →
          (Tracked L state.1 (address / PageSize) ↔ Tracked L managers (address / PageSize)) := by
        intro hp
        rw [htracked]; exact ⟨fun h => h.resolve_right fun hc => hapart hc hp, Or.inl⟩
      dsimp only
      rw [List.mem_append]
      rcases hmemory' address with ⟨⟨hp, hnew⟩, heq⟩ | ⟨hold, heq⟩
      · rw [hlater hp] at hnew; exact Or.inl ⟨⟨Or.inr hp, hnew⟩, heq⟩
      rw [heq]
      rcases hmemory address with ⟨⟨hp, hnew⟩, heq'⟩ | ⟨hold', heq'⟩
      · exact Or.inl ⟨⟨Or.inl hp, hnew⟩, heq'⟩
      refine Or.inr ⟨?_, heq'⟩
      rintro ⟨hp | hp, hnew⟩
      · exact hold' ⟨hp, hnew⟩
      · exact hold ⟨hp, by rwa [hlater hp]⟩

end Inside

/-! ## Calls -/

section Call

variable [TinyMT T] {pool : Pool L} {dir : Direction} {managers : Managers T} {free : Nat → Set Nat}
  {infos numPages : Nat} {order : List Nat} {unoptimized random : Bool} {managers₀ : Managers T}
  {s : GroupState T}

theorem allocatePageGroupImpl_success (hs : HeapsSound L managers free)
    (hok : (allocatePageGroupImpl L pool dir managers infos numPages unoptimized random).error = none) :
    ∃ s, GroupInv L (pool.order dir) free numPages unoptimized managers s ∧
      allocatePageGroupImpl L pool dir managers infos numPages unoptimized random =
        ⟨s.managers, s.group, none⟩ := by
  rw [allocatePageGroupImpl] at hok ⊢
  split at hok
  · cases hok
  · next hindex =>
    rw [if_neg hindex]
    have hpos : 0 < numPages := by
      rcases Nat.eq_zero_or_pos numPages with rfl | hpos
      · exact absurd (by decide) hindex
      · exact hpos
    obtain ⟨index, hidx, heq⟩ := getBlockIndex_of_pos hpos
    rw [heq, Int.toNat_natCast] at hok ⊢
    rcases fillGroup_spec pool dir infos numPages unoptimized random hs hidx with
      ⟨s, hfill, hinv, -⟩ | ⟨error, s, hfill, -⟩
    · rw [hfill]
      exact ⟨s, hinv, rfl⟩
    · rw [hfill] at hok; cases hok

omit [TinyMT T] in
theorem GroupInv.tracked_iff {p : Nat}
    (hinv : GroupInv L order free numPages unoptimized managers₀ s) :
    Tracked L s.managers p ↔ Tracked L managers₀ p ∧ ¬ (unoptimized = true ∧ p ∈ pages s.group) := by
  have hbit : ∀ k < L.numManagers, p ∈ Ico (L.startPage k) (L.endPage k) →
      ((s.managers k).bit (p - L.startPage k) = true ↔
        (managers₀ k).bit (p - L.startPage k) = true ∧ ¬ (unoptimized = true ∧ p ∈ pages s.group)) := by
    intro k hk hp
    rw [Set.mem_Ico] at hp
    have hpage : L.startPage k + (p - L.startPage k) = p := by omega
    rw [hinv.bits k hk _ (by omega), hpage]
    simp only [Bool.and_eq_true, Bool.not_eq_true', Bool.and_eq_false_iff, decide_eq_false_iff_not,
      not_and, imp_iff_not_or, Bool.not_eq_true]
  constructor
  · rintro ⟨k, hk, hp, hset⟩
    obtain ⟨h1, h2⟩ := (hbit k hk hp).1 hset
    exact ⟨⟨k, hk, hp, h1⟩, h2⟩
  · rintro ⟨⟨k, hk, hp, hset⟩, hno⟩; exact ⟨k, hk, hp, (hbit k hk hp).2 ⟨hset, hno⟩⟩

omit [TinyMT T] in
theorem GroupInv.inside (hinv : GroupInv L order free numPages unoptimized managers₀ s)
    (hfree : ∀ k < L.numManagers, free k ⊆ Ico (L.startPage k) (L.endPage k))
    (horder : ∀ k ∈ order, k < L.numManagers) (hcut : ¬ Cut L s.group) :
    ∀ b ∈ s.group, ∃ i, Inside L i b := by
  intro b hb
  have hpos := hinv.nonempty b hb
  obtain ⟨i, hi, hfirst⟩ := hinv.mem b.pageIndex
    (List.mem_flatMap.2 ⟨b, hb, List.mem_range'_1.2 ⟨le_refl _, by omega⟩⟩)
  have hin := hfree i (horder i hi) hfirst
  refine ⟨i, horder i hi, (Set.mem_Ico.1 hin).1, hpos, Nat.le_of_not_lt fun hlt => hcut ⟨b, hb, ?_⟩⟩
  rw [nodeEnd_eq (horder i hi) hin]
  exact hlt

theorem tracksAllocation_of_apart (hs : HeapsSound L managers free) (hapart : pool.Apart)
    (optimizedProcess : OptimizedProcess) (processId : BitVec 64) (fillPattern : BitVec 8)
    (memory : Memory) :
    TracksAllocation L managers memory optimizedProcess processId fillPattern
      (allocateForProcess L pool dir managers infos numPages optimizedProcess processId fillPattern
        memory) := by
  have hfree : ∀ k < L.numManagers, free k ⊆ Ico (L.startPage k) (L.endPage k) :=
    fun k hk => (hs k hk).within
  have horder : ∀ k ∈ pool.order dir, k < L.numManagers :=
    fun k hk => pool.lt k (Pool.mem_order.1 hk)
  rw [allocateForProcess]
  dsimp only
  cases hres : (allocatePageGroupImpl L pool dir managers infos numPages
      (optimizedProcess.has && !(optimizedProcess.id == processId)) false).error with
  | some error =>
    have hfail : ∀ {α : Prop}, (some error = none) → α := fun h => by cases h
    exact ⟨hfail, hfail, hfail, hfail⟩
  | none =>
    obtain ⟨s, hinv, heq⟩ := allocatePageGroupImpl_success hs hres
    rw [heq]
    dsimp only
    have hcut : ¬ Cut L s.group := by
      intro hc
      obtain ⟨-, i, hi, j, hj, htouch⟩ := hinv.adjacent_of_cut hfree horder hc
      exact hapart i (Pool.mem_order.1 hi) j (Pool.mem_order.1 hj) htouch
    by_cases hid : optimizedProcess.id = processId
    · have heq : (optimizedProcess.id == processId) = true := beq_iff_eq.2 hid
      rw [heq, Bool.and_true]
      rw [heq, Bool.not_true, Bool.and_false] at hinv
      have hsame : ∀ p, Tracked L s.managers p ↔ Tracked L managers p := by
        intro p
        rw [hinv.tracked_iff]; simp
      cases hhas : optimizedProcess.has with
      | false =>
        have hno : ∀ {α : Prop}, optimizedProcess.has = true → α := fun h => by
          cases hhas.symm.trans h
        exact ⟨fun _ => hno, fun _ => hno, fun _ => hno, fun _ => hno⟩
      | true =>
        obtain ⟨htracked, hmemory⟩ := processBlocks_spec
          (hinv.inside hfree horder hcut) hinv.nodup s.managers memory fillPattern
        rw [if_pos rfl]
        refine ⟨fun _ _ _ p hp => (htracked p).2 (Or.inr hp), fun _ _ _ p hp hnew address haddr => ?_,
          fun _ _ _ p hold address haddr => ?_, fun _ _ hne => absurd hid hne⟩
        · subst haddr
          rcases hmemory address with ⟨-, hfill⟩ | ⟨hnot, -⟩
          · exact hfill
          · exact absurd ⟨hp, fun hc => hnew ((hsame _).1 hc)⟩ hnot
        · subst haddr
          rcases hmemory address with ⟨hnew, -⟩ | ⟨-, hkeep⟩
          · exact absurd ((hsame _).2 hold) hnew.2
          · exact hkeep
    · have heq : (optimizedProcess.id == processId) = false := beq_eq_false_iff_ne.2 hid
      rw [heq, Bool.and_false, if_neg Bool.false_ne_true]
      rw [heq, Bool.not_false, Bool.and_true] at hinv
      refine ⟨fun _ _ h => absurd h hid, fun _ _ h => absurd h hid, fun _ _ h => absurd h hid,
        fun _ hhas _ p hp hc => ?_⟩
      exact (hinv.tracked_iff.1 hc).2 ⟨hhas, hp⟩

end Call

/-! ## Runs -/

section Runs

variable [TinyMT T]

/-- Everything that changes the optimize maps of a pool while it has its optimized process: they are
    cleared at first, pages are allocated for processes and for the kernel, and pages are freed. -/
inductive OptimizedRun (L : Layout) (pool : Pool L) (optimizedProcess : OptimizedProcess) :
    Managers T → (Nat → Set Nat) → Prop
  | init {managers : Managers T} {free : Nat → Set Nat} : HeapsSound L managers free →
      (∀ i ∈ pool.managers, (managers i).optimizeMap = fun _ => 0) →
      OptimizedRun L pool optimizedProcess managers free
  | free {managers managers' : Managers T} {free free' : Nat → Set Nat} :
      OptimizedRun L pool optimizedProcess managers free → HeapsSound L managers' free' →
      (∀ i, free i ⊆ free' i) → (∀ i, (managers' i).optimizeMap = (managers i).optimizeMap) →
      OptimizedRun L pool optimizedProcess managers' free'
  | allocateForProcess {managers : Managers T} {free free' : Nat → Set Nat} (dir : Direction)
      (infos numPages : Nat) (processId : BitVec 64) (fillPattern : BitVec 8) (memory : Memory) :
      OptimizedRun L pool optimizedProcess managers free →
      HeapsSound L (allocateForProcess L pool dir managers infos numPages optimizedProcess processId
        fillPattern memory).managers free' →
      OptimizedRun L pool optimizedProcess (allocateForProcess L pool dir managers infos numPages
        optimizedProcess processId fillPattern memory).managers free'
  | allocateAndOpen {managers : Managers T} {free free' : Nat → Set Nat} (dir : Direction)
      (infos numPages : Nat) : OptimizedRun L pool optimizedProcess managers free →
      HeapsSound L (allocatePageGroupImpl L pool dir managers infos numPages optimizedProcess.has
        true).managers free' →
      OptimizedRun L pool optimizedProcess (allocatePageGroupImpl L pool dir managers infos numPages
        optimizedProcess.has true).managers free'

variable {pool : Pool L}

theorem OptimizedRun.sound {optimizedProcess : OptimizedProcess} {managers : Managers T}
    {free : Nat → Set Nat} (hrun : OptimizedRun L pool optimizedProcess managers free) :
    HeapsSound L managers free := by
  cases hrun with
  | init hs _ => exact hs
  | free _ hs _ _ => exact hs
  | allocateForProcess _ _ _ _ _ _ _ hs => exact hs
  | allocateAndOpen _ _ _ _ hs => exact hs

variable {managers : Managers T} {free : Nat → Set Nat} {s : GroupState T} {order : List Nat}
  {i j p n : Nat}

/-- One free page, of manager `i`. -/
def onlyPage (i p : Nat) : Nat → Set Nat := update (fun _ => ∅) i {p}

theorem takeSizes_single {before after : List Nat} (unoptimized random : Bool)
    (hs : HeapsSound L s.managers (onlyPage i p)) (horder : order = before ++ i :: after)
    (hlt : ∀ k ∈ order, k < L.numManagers) (hnodup : order.Nodup) (hn : n < 7) (hgroup : s.group = []) (hinfos : 0 < s.infos)
    (hpages : s.numPages = 1) :
    ∃ s', takeSizes L order unoptimized random (n + 1) s = .ok s' ∧ s'.group = [⟨p, 1⟩] ∧
      s'.numPages = 0 := by
  have hother : ∀ k, k ≠ i → onlyPage i p k = ∅ := fun k hk => update_of_ne hk _ _
  have hown : onlyPage i p i = {p} := update_self _ _ _
  induction n generalizing s with
  | zero =>
    subst horder
    obtain ⟨-, hrest, hapart⟩ := List.nodup_append'.1 hnodup
    have hadd : s.group.addBlock s.infos (p * PageSize) 1 = some ([⟨p, 1⟩], s.infos - 1) := by
      rw [hgroup]; exact addBlock_first hinfos
    obtain ⟨s₁, heq₁, hs₁, hgroup₁, -, hpages₁⟩ := takeFromManagers_single unoptimized random hs hlt
      (fun k hk => hother k fun hc => hapart hk (hc ▸ List.mem_cons_self)) hown (by omega) hadd
    obtain ⟨s₂, heq₂, h₂⟩ := takeFromManagers_idle unoptimized random (s := s₁) hs₁
      (fun k hk => hlt k (List.mem_append_right _ (List.mem_cons_of_mem _ hk))) (by decide : 0 < 7)
      (fun k hk => by
        have hk : k ≠ i := fun hc => (List.nodup_cons.1 hrest).1 (hc ▸ hk)
        rw [update_of_ne hk, hother k hk]; exact noBlock_empty 0)
    refine ⟨s₂, ?_, h₂.group_eq.trans hgroup₁, by rw [h₂.numPages_eq, hpages₁, hpages]⟩
    rw [takeSizes, if_pos (by omega), heq₁, heq₂]; rfl
  | succ n ih =>
    obtain ⟨s₁, heq₁, h₁⟩ := takeFromManagers_idle unoptimized random hs hlt hn fun k _ => by
      by_cases hk : k = i
      · rw [hk, hown]
        exact noBlock_singleton p n.succ_pos
      · rw [hother k hk]; exact noBlock_empty _
    obtain ⟨s', heq, hs'⟩ := ih h₁.sound (by omega) (h₁.group_eq.trans hgroup)
      (by rw [h₁.infos_eq]; exact hinfos) (by rw [h₁.numPages_eq]; exact hpages)
    refine ⟨s', ?_, hs'⟩
    rw [takeSizes, if_pos (by omega), heq₁]; exact heq

theorem allocatePageGroupImpl_of_takeSizes {dir : Direction} {infos numPages : Nat}
    {unoptimized random : Bool} {group : KPageGroup} (hpos : 0 < numPages)
    (htake : ∀ n < 7, ∃ s, takeSizes L (pool.order dir) unoptimized random (n + 1)
      ⟨managers, [], infos, numPages⟩ = .ok s ∧ s.group = group ∧ s.numPages = 0) :
    (allocatePageGroupImpl L pool dir managers infos numPages unoptimized random).error = none ∧
      (allocatePageGroupImpl L pool dir managers infos numPages unoptimized random).group =
        group := by
  obtain ⟨index, hidx, hindex⟩ := getBlockIndex_of_pos hpos
  obtain ⟨s, heq, hgroup, hzero⟩ := htake index hidx
  have hnonneg : ¬ ¬ (0 : Int) ≤ (index : Int) := by omega
  have hfill : fillGroup L (pool.order dir) unoptimized random index
      ⟨managers, [], infos, numPages⟩ = .ok s := by
    rw [fillGroup, heq]; exact if_pos hzero
  rw [allocatePageGroupImpl, hindex, if_neg hnonneg, Int.toNat_natCast, hfill]
  exact ⟨rfl, hgroup⟩

omit [TinyMT T] in
theorem trackSlices_heap (k fuel address remaining : Nat) (managers : Managers T) :
    (trackSlices L fuel address remaining managers k).heap = (managers k).heap := by
  induction fuel generalizing address remaining managers with
  | zero => rfl
  | succ fuel ih =>
    rw [trackSlices]
    split
    · rw [ih, trackOptimizedAllocation]
      by_cases hk : k = getManager L address
      · rw [hk, update_self]
      · rw [update_of_ne hk]
    · rfl

omit [TinyMT T] in
theorem processBlocks_heap (k : Nat) (fillPattern : BitVec 8) (group : KPageGroup)
    (state : Managers T × Memory) :
    ((group.foldl (processBlock L fillPattern) state).1 k).heap = (state.1 k).heap := by
  induction group generalizing state with
  | nil => rfl
  | cons b group ih =>
    rw [List.foldl_cons, ih, processBlock]
    dsimp only
    split
    · rfl
    · split
      · exact trackSlices_heap k _ _ _ _
      · rfl

theorem allocateForProcess_sound {dir : Direction} {infos numPages : Nat}
    {optimizedProcess : OptimizedProcess} {processId : BitVec 64} {fillPattern : BitVec 8}
    {memory : Memory} (hs : HeapsSound L managers free)
    (hok : (allocateForProcess L pool dir managers infos numPages optimizedProcess processId
      fillPattern memory).error = none) :
    HeapsSound L (allocateForProcess L pool dir managers infos numPages optimizedProcess processId
        fillPattern memory).managers fun k => free k \ {p | p ∈ pages (allocateForProcess L pool dir
          managers infos numPages optimizedProcess processId fillPattern memory).group} := by
  rw [allocateForProcess] at hok ⊢
  dsimp only at hok ⊢
  cases hres : (allocatePageGroupImpl L pool dir managers infos numPages
      (optimizedProcess.has && !(optimizedProcess.id == processId)) false).error with
  | some error =>
    rw [hres] at hok; cases hok
  | none =>
    obtain ⟨s, hinv, heq⟩ := allocatePageGroupImpl_success hs hres
    rw [heq]
    dsimp only
    split
    · intro k hk
      rw [processBlocks_heap]
      exact hinv.sound k hk
    · exact hinv.sound

omit [TinyMT T] in
/-- **The slip**: two slices, a new page in the first and none in the second. -/
theorem processBlock_border {fillPattern : BitVec 8} {memory : Memory} (hi : i < L.numManagers)
    (hj : j < L.numManagers) (htouch : L.endPage i = L.startPage j)
    (hset : Tracked L managers (L.startPage j)) :
    (processBlock L fillPattern (managers, memory) ⟨L.endPage i - 1, 2⟩).1 = managers := by
  have hendi := L.start_lt_end i hi
  have hendj := L.start_lt_end j hj
  have hmgri : getManager L ((L.endPage i - 1) * PageSize) = i :=
    getManager_eq hi (Set.mem_Ico.2 ⟨by omega, by omega⟩)
  have hfirstj : L.startPage j ∈ Ico (L.startPage j) (L.endPage j) :=
    Set.mem_Ico.2 ⟨le_refl _, hendj⟩
  have hmgrj : getManager L (L.startPage j * PageSize) = j := getManager_eq hj hfirstj
  have hone : min 2 (getPageOffsetToEnd L i ((L.endPage i - 1) * PageSize)) = 1 := by
    rw [getPageOffsetToEnd, ← Nat.sub_mul, Nat.mul_div_cancel _ (by decide)]; omega
  have hnext : (L.endPage i - 1) * PageSize + 1 * PageSize = L.startPage j * PageSize := by
    rw [← Nat.add_mul, ← htouch, Nat.sub_add_cancel (by omega)]
  have hrest : min (2 - 1) (getPageOffsetToEnd L j (L.startPage j * PageSize)) = 1 := by
    rw [getPageOffsetToEnd, ← Nat.sub_mul, Nat.mul_div_cancel _ (by decide)]; omega
  -- The bit of the only page of the second slice is set.
  have hlast : ∀ memory, (processOptimizedAllocation L managers j (L.startPage j * PageSize) 1
      fillPattern memory).1 = false := by
    intro memory
    rw [← Bool.not_eq_true, processOptimizedAllocation, processPages_fst, not_or]
    refine ⟨Bool.false_ne_true, ?_⟩
    rintro ⟨page, k, h1, h2, -, hclear⟩
    have hzero : getPageOffset L j (L.startPage j * PageSize) = 0 := by
      rw [getPageOffset, Nat.sub_self, Nat.zero_div]
    have hbit := (tracked_iff hj hfirstj).1 hset
    rw [hzero] at h1 h2
    obtain rfl : k = 0 := by omega
    rw [Nat.sub_self, Impl.bit, hclear] at hbit; cases hbit
  have hslices : (processSlices L managers fillPattern 2 ((L.endPage i - 1) * PageSize) 2
      (false, memory)).1 = false := by
    rw [processSlices, if_pos (show 2 > 0 by decide)]
    dsimp only
    rw [hmgri, hone, hnext, processSlices, if_pos (show 2 - 1 > 0 by decide)]
    dsimp only
    rw [hmgrj, hrest, processSlices]; exact hlast _
  rw [processBlock, if_neg (Nat.succ_ne_zero 1), KBlockInfo.getAddress]
  dsimp only
  rw [if_neg (by rw [hslices]; exact Bool.false_ne_true)]

theorem allocateForProcess_single (hj : j ∈ pool.managers) (id : BitVec 64) (fillPattern : BitVec 8)
    (memory : Memory) (hs : HeapsSound L managers (onlyPage j (L.startPage j))) :
    HeapsSound L (allocateForProcess L pool .fromFront managers 1 1 ⟨true, id⟩ id fillPattern
        memory).managers (fun _ => ∅) ∧
      ∀ p, Tracked L (allocateForProcess L pool .fromFront managers 1 1 ⟨true, id⟩ id fillPattern
        memory).managers p ↔ Tracked L managers p ∨ p = L.startPage j := by
  have hjn := pool.lt j hj
  have hend := L.start_lt_end j hjn
  obtain ⟨before, after, hsplit⟩ :=
    List.append_of_mem (Pool.mem_order.2 hj : j ∈ pool.order .fromFront)
  obtain ⟨herror, hgroup⟩ : _ ∧ (allocatePageGroupImpl L pool .fromFront managers 1 1 false
      false).group = [⟨L.startPage j, 1⟩] :=
    allocatePageGroupImpl_of_takeSizes Nat.one_pos fun n hn =>
      takeSizes_single false false hs hsplit (fun k hk => pool.lt k (Pool.mem_order.1 hk))
        (pool.nodup_order _) hn rfl Nat.one_pos rfl
  obtain ⟨s, hinv, heq⟩ := allocatePageGroupImpl_success hs herror
  rw [heq] at hgroup
  have hsgroup : s.group = [⟨L.startPage j, 1⟩] := hgroup
  have hpages : pages s.group = [L.startPage j] := by rw [hsgroup]; rfl
  have hinside : ∀ b ∈ s.group, ∃ i, Inside L i b := by
    intro b hb
    rw [hsgroup, List.mem_singleton] at hb
    rw [hb]; exact ⟨j, hjn, le_refl _, Nat.one_pos, hend⟩
  obtain ⟨htracked, -⟩ := processBlocks_spec hinside hinv.nodup s.managers memory fillPattern
  have hid : (id == id) = true := beq_self_eq_true id
  rw [allocateForProcess, hid, Bool.not_true, Bool.and_false, heq, Bool.and_true]
  dsimp only
  rw [if_pos rfl]
  constructor
  · intro k hk
    rw [processBlocks_heap]
    have hk' := hinv.sound k hk
    have hempty : onlyPage j (L.startPage j) k \ {p | p ∈ pages s.group} = ∅ := by
      rw [sdiff_eq_empty, hpages, onlyPage]
      by_cases hkj : k = j
      · rw [hkj, update_self, singleton_subset_iff]
        exact List.mem_singleton_self _
      · rw [update_of_ne hkj]; exact empty_subset _
    dsimp only at hk'
    rwa [hempty] at hk'
  · intro p
    rw [htracked, hinv.tracked_iff, hpages, List.mem_singleton]; simp

theorem exists_untracked [Inhabited T] (hi : i ∈ pool.managers) (hj : j ∈ pool.managers)
    (htouch : L.endPage i = L.startPage j) (id : BitVec 64) (fillPattern : BitVec 8) (memory : Memory) :
    ∃ (managers : Managers T) (free : Nat → Set Nat) (dir : Direction),
      OptimizedRun L pool ⟨true, id⟩ managers free ∧
        ¬ TracksAllocation L managers memory ⟨true, id⟩ id fillPattern
          (allocateForProcess L pool dir managers 1 2 ⟨true, id⟩ id fillPattern memory) := by
  have hin := pool.lt i hi
  have hjn := pool.lt j hj
  have hendi := L.start_lt_end i hin
  have hendj := L.start_lt_end j hjn
  have hne : i ≠ j := by
    rintro rfl; omega
  -- At first only the first page of manager `j` is free, and the process gets it.
  have hfree₀ : ∀ k < L.numManagers, onlyPage j (L.startPage j) k ⊆
      Ico (L.startPage k) (L.endPage k) := by
    intro k _
    rw [onlyPage]
    by_cases hk : k = j
    · rw [hk, update_self, singleton_subset_iff, Set.mem_Ico]
      exact ⟨le_refl _, hendj⟩
    · rw [update_of_ne hk]; exact empty_subset _
  obtain ⟨managers₀, hs₀, hmaps₀⟩ := exists_heapsSound (T := T) _ (fun _ _ => 0) hfree₀
  have hnone : ∀ p, ¬ Tracked L managers₀ p := by
    rintro p ⟨k, -, -, hset⟩
    rw [Impl.bit, KPageBitmap.bitAt, hmaps₀] at hset; simp at hset
  obtain ⟨hs₁, htracked₁⟩ := allocateForProcess_single hj id fillPattern memory hs₀
  have hrun₀ : OptimizedRun L pool ⟨true, id⟩ managers₀ _ := .init hs₀ fun k _ => hmaps₀ k
  have hrun₁ := OptimizedRun.allocateForProcess .fromFront 1 1 id fillPattern memory hrun₀ hs₁
  generalize (allocateForProcess L pool .fromFront managers₀ 1 1 ⟨true, id⟩ id fillPattern
    memory).managers = managers₁ at hs₁ htracked₁ hrun₁
  -- Then the page is freed, and so is the page before it.
  obtain ⟨managers₂, hs₂, hmaps₂⟩ := exists_heapsSound (T := T) _
    (fun k => (managers₁ k).optimizeMap) (borderPages_subset hin hjn)
  have hrun₂ := hrun₁.free hs₂ (fun _ => empty_subset _) hmaps₂
  have htracked₂ : ∀ p, Tracked L managers₂ p ↔ p = L.startPage j := by
    intro p
    have hsame : Tracked L managers₂ p ↔ Tracked L managers₁ p := by
      refine exists_congr fun k => and_congr_right fun _ => and_congr_right fun _ => ?_
      rw [Impl.bit, hmaps₂]; rfl
    rw [hsame, htracked₁]; exact ⟨fun h => h.resolve_left (hnone p), Or.inr⟩
  -- The process gets both, as one node.
  obtain ⟨dir, before, between, after, horder⟩ := pool.exists_order hi hj hne
  refine ⟨managers₂, _, dir, hrun₂, fun hgood => ?_⟩
  obtain ⟨herror, hgroup⟩ : _ ∧ (allocatePageGroupImpl L pool dir managers₂ 1 2 false
      false).group = [⟨L.endPage i - 1, 2⟩] :=
    allocatePageGroupImpl_of_takeSizes (by decide) fun n hn =>
      takeSizes_border false false hs₂ horder (pool.nodup_order dir)
        (fun k hk => pool.lt k (Pool.mem_order.1 hk)) htouch hn rfl Nat.one_pos Nat.one_lt_two
  obtain ⟨s, hinv, heq⟩ := allocatePageGroupImpl_success hs₂ herror
  rw [heq] at hgroup
  have hsgroup : s.group = [⟨L.endPage i - 1, 2⟩] := hgroup
  have hid : (id == id) = true := beq_self_eq_true id
  rw [allocateForProcess, hid, Bool.not_true, Bool.and_false, heq, Bool.and_true] at hgood
  dsimp only at hgood
  rw [if_pos rfl, hsgroup, List.foldl_cons, List.foldl_nil] at hgood
  have hset : Tracked L s.managers (L.startPage j) := by
    rw [hinv.tracked_iff, htracked₂]; simp
  have hpage := hgood.tracked rfl rfl rfl (L.endPage i - 1) List.mem_cons_self
  rw [processBlock_border hin hjn htouch hset, hinv.tracked_iff, htracked₂] at hpage
  omega

/-- **Everything is tracked in all runs of a pool**, exactly if no manager of it begins where another
    one ends. -/
theorem allocateForProcess_exact [Inhabited T] (L : Layout) (pool : Pool L) (id : BitVec 64) :
    (∀ (managers : Managers T) (free : Nat → Set Nat), OptimizedRun L pool ⟨true, id⟩ managers free →
      ∀ (dir : Direction) (infos numPages : Nat) (processId : BitVec 64) (fillPattern : BitVec 8)
        (memory : Memory),
        TracksAllocation L managers memory ⟨true, id⟩ processId fillPattern
          (allocateForProcess L pool dir managers infos numPages ⟨true, id⟩ processId fillPattern
            memory)) ↔
      pool.Apart := by
  constructor
  · intro hall i hi j hj htouch
    obtain ⟨managers, free, dir, hrun, hbad⟩ := exists_untracked (T := T) hi hj htouch id 0
      (fun _ => 0)
    exact hbad (hall managers free hrun dir 1 2 id 0 _)
  · intro hapart managers free hrun dir infos numPages processId fillPattern memory
    exact tracksAllocation_of_apart hrun.sound hapart _ _ _ _

end Runs

/-! ## A page that is not tracked -/

/-- Two pages of the four are allocated from the back and freed, so their bits are set. -/
def backPages : Managers Unit := fun i =>
  ⟨(fullManagers touchingLayout i).heap,
    ((allocateForProcess touchingLayout touchingPool .fromBack (fullManagers touchingLayout) 1 2
      ⟨true, 1⟩ 1 0 fun _ => 0).managers i).optimizeMap⟩

/-- Three pages, the last of which has been allocated before: none of the new ones is tracked. -/
theorem allocateForProcess_forgets :
    OptimizedRun touchingLayout touchingPool ⟨true, 1⟩ backPages (fullPages touchingLayout) ∧
      ¬ TracksAllocation touchingLayout backPages (fun _ => 0) ⟨true, 1⟩ 1 0xAA
        (allocateForProcess touchingLayout touchingPool .fromFront backPages 1 3 ⟨true, 1⟩ 1 0xAA
          fun _ => 0) := by
  constructor
  · have hrun₀ : OptimizedRun touchingLayout touchingPool ⟨true, 1⟩ (fullManagers touchingLayout) _ :=
      .init (fullManagers_sound _) fun _ _ => rfl
    have hok : (allocateForProcess touchingLayout touchingPool .fromBack
        (fullManagers touchingLayout) 1 2 ⟨true, 1⟩ 1 0 fun _ => 0).error = none := by
      decide +kernel
    have hrun₁ := OptimizedRun.allocateForProcess .fromBack 1 2 1 0 (fun _ => 0) hrun₀
      (allocateForProcess_sound (fullManagers_sound _) hok)
    have hs : HeapsSound touchingLayout backPages (fullPages touchingLayout) := by
      intro i hi
      rw [backPages]; exact fullManagers_sound touchingLayout i hi
    exact hrun₁.free hs (fun _ => sdiff_subset) fun i => by rw [backPages]
  · intro hgood
    have hok : (allocateForProcess touchingLayout touchingPool .fromFront backPages 1 3 ⟨true, 1⟩ 1
        0xAA fun _ => 0).error = none := by
      decide +kernel
    have hmem : 0x80000 ∈ pages (allocateForProcess touchingLayout touchingPool .fromFront backPages 1
        3 ⟨true, 1⟩ 1 0xAA fun _ => 0).group := by
      decide +kernel
    have hbit : ((allocateForProcess touchingLayout touchingPool .fromFront backPages 1 3 ⟨true, 1⟩ 1
        0xAA fun _ => 0).managers 0).bit 0 = false := by
      decide +kernel
    have hset := (tracked_iff (i := 0) (by decide) (by decide)).1
      (hgood.tracked hok rfl rfl 0x80000 hmem)
    exact absurd (hbit.symm.trans hset) Bool.false_ne_true

end Suyu.Kernel.KMemoryManager
