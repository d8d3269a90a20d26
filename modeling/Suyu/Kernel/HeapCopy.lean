import Mathlib
import Suyu.Kernel.PageTraversal

/-
  `CopyMemoryFromHeapToHeap`: a copy that walks two page tables under one offset.

  1. **Program** - both traversals move on when a page is used up.  If NEITHER side jumps, the round
     copies nothing, so that the next round may copy a longer run (`skip_copy`).

  2. **Specification (`writeAll` at `physical`)** - byte `i` of the source range goes to byte `i` of the
     destination range, and nothing else is written.

  3. **The crux (`heapRound_jump`, `heapRound_stay`)** - at the start of a page a side that jumps makes the
     round copy the page, and the next round is at the start of the next page.  A round that skips takes
     the source block along but NOT the destination block, so that the least size stays one page; no
     traversal can move on any more, and every later round skips too.
-/

namespace Suyu.Kernel.KPageTableBase

open Core.Memory (PageTable Pointer Byte Aligned)

/-! ## The program -/

/-- The variables of the loop. -/
structure HeapState where
  memory : Memory
  ofs : Nat
  curSrcAddr : Pointer
  curDstAddr : Pointer
  curSrcBlockAddr : Pointer
  curDstBlockAddr : Pointer
  curSrcSize : Nat
  curDstSize : Nat
  curMinSize : Nat
  srcNextEntry : TraversalEntry
  dstNextEntry : TraversalEntry
  srcContext : TraversalContext
  dstContext : TraversalContext

inductive HeapOutcome where
  /-- The loop has not ended in the rounds it was given. -/
  | running
  /-- `ResultInvalidCurrentMemory`. -/
  | invalidCurrentMemory
  | success (memory : Memory)

/-- `Update min size.` -/
def updateMinSize (s : HeapState) : HeapState :=
  { s with
    curSrcSize := s.srcNextEntry.blockSize
    curDstSize := s.dstNextEntry.blockSize
    curMinSize := min
      (s.curSrcBlockAddr - s.curSrcAddr + BitVec.ofNat 64 s.srcNextEntry.blockSize).toNat
      (s.curDstBlockAddr - s.curDstAddr + BitVec.ofNat 64 s.dstNextEntry.blockSize).toNat }

/-- The source side moves on, if its block is used up; says whether it jumped. -/
def advanceSrc (srcTable : PageTable) (s : HeapState) : Bool × HeapState :=
  let curEnd := s.curSrcAddr + BitVec.ofNat 64 s.curMinSize
  if curEnd = s.curSrcBlockAddr + BitVec.ofNat 64 s.curSrcSize then
    let (_, entry, context) := continueTraversal srcTable s.srcContext
    (curEnd ≠ entry.physAddr, { s with srcNextEntry := entry, srcContext := context })
  else (false, s)

/-- The destination side; the test is of the ENTRY, not of the block. -/
def advanceDst (dstTable : PageTable) (s : HeapState) : Bool × HeapState :=
  let curEnd := s.curDstAddr + BitVec.ofNat 64 s.curMinSize
  if curEnd = s.dstNextEntry.physAddr + BitVec.ofNat 64 s.dstNextEntry.blockSize then
    let (_, entry, context) := continueTraversal dstTable s.dstContext
    (curEnd ≠ entry.physAddr, { s with dstNextEntry := entry, dstContext := context })
  else (false, s)

/-- The copy of a round. -/
def performHeapCopy (isHeap : Pointer → Bool) (curCopySize : Nat) (updatedSrc updatedDst : Bool)
    (s : HeapState) : Option HeapState :=
  if isHeap s.curSrcAddr && isHeap s.curDstAddr then
    some { s with
      memory := Core.Memory.copyBytes s.memory s.curDstAddr
        (fun i => s.memory (s.curSrcAddr + BitVec.ofNat 64 i)) curCopySize
      curSrcBlockAddr := s.srcNextEntry.physAddr
      curSrcAddr :=
        if updatedSrc then s.srcNextEntry.physAddr else s.curSrcAddr + BitVec.ofNat 64 curCopySize
      curDstBlockAddr := s.dstNextEntry.physAddr
      curDstAddr :=
        if updatedDst then s.dstNextEntry.physAddr else s.curDstAddr + BitVec.ofNat 64 curCopySize
      ofs := s.ofs + curCopySize }
  else none

/-- A round of the loop. -/
def heapRound (isHeap : Pointer → Bool) (srcTable dstTable : PageTable) (size : Nat) (s : HeapState) :
    Option HeapState :=
  let curCopySize := min s.curMinSize (size - s.ofs)
  if s.ofs + curCopySize ≠ size then
    let (updatedSrc, s) := advanceSrc srcTable s
    let (updatedDst, s) := advanceDst dstTable s
    if !updatedSrc && !updatedDst then
      some (updateMinSize { s with curSrcBlockAddr := s.srcNextEntry.physAddr })
    else (performHeapCopy isHeap curCopySize updatedSrc updatedDst s).map updateMinSize
  else (performHeapCopy isHeap curCopySize false false s).map updateMinSize

/-- `while (ofs < size)`, for a number of rounds. -/
def heapLoop (isHeap : Pointer → Bool) (srcTable dstTable : PageTable) (size : Nat) :
    Nat → HeapState → HeapOutcome
  | 0, _ => .running
  | fuel + 1, s =>
      if s.ofs < size then
        match heapRound isHeap srcTable dstTable size s with
        | none => .invalidCurrentMemory
        | some s => heapLoop isHeap srcTable dstTable size fuel s
      else .success s.memory

/-- `CopyMemoryFromHeapToHeap` behind its checks; `...WithoutCheckDestination` has the same body. -/
def copyMemoryFromHeapToHeap (isHeap : Pointer → Bool) (srcTable dstTable : PageTable)
    (memory : Memory) (dstAddr size srcAddr : Nat) (fuel : Nat) : HeapOutcome :=
  let (_, srcEntry, srcContext) := beginTraversal srcTable srcAddr
  let (_, dstEntry, dstContext) := beginTraversal dstTable dstAddr
  let curSrcSize := srcEntry.blockSize - srcEntry.physAddr.toNat % srcEntry.blockSize
  let curDstSize := dstEntry.blockSize - dstEntry.physAddr.toNat % dstEntry.blockSize
  if size = 0 then .success memory
  else
    heapLoop isHeap srcTable dstTable size fuel
      { memory := memory
        ofs := 0
        curSrcAddr := srcEntry.physAddr
        curDstAddr := dstEntry.physAddr
        curSrcBlockAddr := srcEntry.physAddr
        curDstBlockAddr := dstEntry.physAddr
        curSrcSize := curSrcSize
        curDstSize := curDstSize
        curMinSize := min curSrcSize curDstSize
        srcNextEntry := ⟨srcEntry.physAddr, curSrcSize⟩
        dstNextEntry := ⟨dstEntry.physAddr, curDstSize⟩
        srcContext := srcContext
        dstContext := dstContext }

/-! ## Specification -/

/-- What the state checks and the layout give: two mapped ranges of whole heap pages, apart. -/
structure HeapRanges (isHeap : Pointer → Bool) (srcTable dstTable : PageTable)
    (src dst size : Nat) : Prop where
  srcAligned : src % 0x1000 = 0
  dstAligned : dst % 0x1000 = 0
  srcMapped : MappedRange srcTable src size
  dstMapped : MappedRange dstTable dst size
  srcHeap : LinearRange isHeap srcTable src size
  dstHeap : LinearRange isHeap dstTable dst size
  apart : ∀ i < size, ∀ j < size, physical srcTable (src + i) ≠ physical dstTable (dst + j)

/-- The copy ends, the destination has the OLD bytes of the source, and no other byte changes. -/
def HeapCopyExact (isHeap : Pointer → Bool) (srcTable dstTable : PageTable) (src dst size : Nat) :
    Prop :=
  ∀ memory, ∃ fuel memory',
    copyMemoryFromHeapToHeap isHeap srcTable dstTable memory dst size src fuel = .success memory' ∧
    (∀ i < size, memory' (physical dstTable (dst + i)) = memory (physical srcTable (src + i))) ∧
    ∀ p, (∀ i < size, physical dstTable (dst + i) ≠ p) → memory' p = memory p

/-- Both sides go on in physical memory at the boundary behind page `k`. -/
def BothContiguous (srcTable dstTable : PageTable) (src dst k : Nat) : Prop :=
  physical srcTable (src + (k + 1) * 0x1000) = physical srcTable (src + k * 0x1000) + 0x1000 ∧
  physical dstTable (dst + (k + 1) * 0x1000) = physical dstTable (dst + k * 0x1000) + 0x1000

/-! ## Pages and bytes -/

section Pages

variable {table : PageTable} {addr size k j n : Nat} {memory : Memory} {place : Nat → Pointer}
  {value : Nat → Byte}

theorem physical_page (haddr : addr % 0x1000 = 0) (hj : j < 0x1000) :
    physical table (addr + (k * 0x1000 + j)) =
      physical table (addr + k * 0x1000) + BitVec.ofNat 64 j := by
  have hpage : (addr + (k * 0x1000 + j)) / 0x1000 = (addr + k * 0x1000) / 0x1000 := by omega
  rw [physical, physical, hpage, BitVec.add_assoc, ← BitVec.ofNat_add, Nat.add_assoc]

theorem continueTraversal_page (haddr : addr % 0x1000 = 0) (hrange : MappedRange table addr size)
    (hk : k * 0x1000 < size) :
    continueTraversal table ⟨addr / 0x1000 + k, addr + k * 0x1000⟩ =
      (true, ⟨physical table (addr + k * 0x1000), 0x1000⟩,
        ⟨addr / 0x1000 + (k + 1), addr + (k + 1) * 0x1000⟩) := by
  have hpage : (addr + k * 0x1000) / 0x1000 = addr / 0x1000 + k := by omega
  have hentries := hrange.entries (k * 0x1000) hk
  have hmapped := hrange.mapped (k * 0x1000) hk
  have hnext : addr + (k + 1) * 0x1000 = addr + k * 0x1000 + 0x1000 := by omega
  rw [hpage] at hentries hmapped
  rw [continueTraversal_eq hentries hmapped, hnext, physical, hpage]
  rfl

theorem physical_aligned (haddr : addr % 0x1000 = 0) (hrange : MappedRange table addr size)
    (hsize : 0 < size) : (physical table addr).toNat % 0x1000 = 0 := by
  have haligned := hrange.aligned 0 hsize
  rw [Nat.add_zero] at haligned
  unfold Aligned at haligned
  rw [physical, BitVec.toNat_add, BitVec.toNat_ofNat]
  omega

theorem copyBytes_congr {bytes : Memory} {pointer : Pointer} {value' : Nat → Byte}
    (h : ∀ i < n, value i = value' i) :
    Core.Memory.copyBytes bytes pointer value n = Core.Memory.copyBytes bytes pointer value' n := by
  induction n with
  | zero => rfl
  | succ n ih =>
    rw [Core.Memory.copyBytes_succ, Core.Memory.copyBytes_succ,
      ih fun i hi => h i (Nat.lt_succ_of_lt hi), h n (Nat.lt_succ_self n)]

theorem writeAll_frame {q : Pointer} (h : ∀ i < n, place i ≠ q) :
    writeAll memory place value n q = memory q := by
  induction n with
  | zero => rfl
  | succ n ih =>
    rw [writeAll, Function.update_of_ne (h n (Nat.lt_succ_self n)).symm]
    exact ih fun i hi => h i (Nat.lt_succ_of_lt hi)

theorem writeAll_written {q : Pointer} {i : Nat} (hi : i < n) (hq : place i = q) :
    ∃ j < n, place j = q ∧ writeAll memory place value n q = value j := by
  induction n with
  | zero => exact absurd hi (Nat.not_lt_zero i)
  | succ n ih =>
    rcases eq_or_ne (place n) q with hn | hn
    · refine ⟨n, Nat.lt_succ_self n, hn, ?_⟩
      rw [writeAll, hn, Function.update_self]
    · have hlt : i < n := by
        refine lt_of_le_of_ne (Nat.lt_succ_iff.mp hi) ?_
        rintro rfl; exact hn hq
      obtain ⟨j, hj, hplace, hvalue⟩ := ih hlt
      refine ⟨j, Nat.lt_succ_of_lt hj, hplace, ?_⟩
      rw [writeAll, Function.update_of_ne hn.symm, hvalue]

end Pages

/-! ## The loop, page by page -/

section HeapLoop

variable {isHeap : Pointer → Bool} {srcTable dstTable : PageTable} {memory : Memory}
  {src dst size k fuel : Nat}

/-- The first `n` bytes are copied. -/
def heapWritten (srcTable dstTable : PageTable) (memory : Memory) (src dst n : Nat) : Memory :=
  writeAll memory (fun i => physical dstTable (dst + i))
    (fun i => memory (physical srcTable (src + i))) n

/-- The variables at the start of page `k`. -/
def pageState (srcTable dstTable : PageTable) (memory : Memory) (src dst k : Nat) : HeapState where
  memory := heapWritten srcTable dstTable memory src dst (k * 0x1000)
  ofs := k * 0x1000
  curSrcAddr := physical srcTable (src + k * 0x1000)
  curDstAddr := physical dstTable (dst + k * 0x1000)
  curSrcBlockAddr := physical srcTable (src + k * 0x1000)
  curDstBlockAddr := physical dstTable (dst + k * 0x1000)
  curSrcSize := 0x1000
  curDstSize := 0x1000
  curMinSize := 0x1000
  srcNextEntry := ⟨physical srcTable (src + k * 0x1000), 0x1000⟩
  dstNextEntry := ⟨physical dstTable (dst + k * 0x1000), 0x1000⟩
  srcContext := ⟨src / 0x1000 + (k + 1), src + (k + 1) * 0x1000⟩
  dstContext := ⟨dst / 0x1000 + (k + 1), dst + (k + 1) * 0x1000⟩

/-- The variables after a round that skipped: the entries and the source block are one page ahead. -/
def skippedState (srcTable dstTable : PageTable) (memory : Memory) (src dst k : Nat) : HeapState :=
  { pageState srcTable dstTable memory src dst k with
    curSrcBlockAddr := physical srcTable (src + (k + 1) * 0x1000)
    srcNextEntry := ⟨physical srcTable (src + (k + 1) * 0x1000), 0x1000⟩
    dstNextEntry := ⟨physical dstTable (dst + (k + 1) * 0x1000), 0x1000⟩
    srcContext := ⟨src / 0x1000 + (k + 2), src + (k + 2) * 0x1000⟩
    dstContext := ⟨dst / 0x1000 + (k + 2), dst + (k + 2) * 0x1000⟩ }

theorem heapWritten_copy (h : HeapRanges isHeap srcTable dstTable src dst size) {n : Nat}
    (hn : n ≤ 0x1000) (hend : k * 0x1000 + n ≤ size) :
    Core.Memory.copyBytes (heapWritten srcTable dstTable memory src dst (k * 0x1000))
        (physical dstTable (dst + k * 0x1000))
        (fun i => heapWritten srcTable dstTable memory src dst (k * 0x1000)
          (physical srcTable (src + k * 0x1000) + BitVec.ofNat 64 i)) n =
      heapWritten srcTable dstTable memory src dst (k * 0x1000 + n) := by
  have hold : ∀ i < n, heapWritten srcTable dstTable memory src dst (k * 0x1000)
      (physical srcTable (src + k * 0x1000) + BitVec.ofNat 64 i) =
        memory (physical srcTable (src + (k * 0x1000 + i))) := by
    intro i hi
    rw [← physical_page h.srcAligned (by omega)]
    refine writeAll_frame fun j hj heq => ?_
    exact h.apart (k * 0x1000 + i) (by omega) j (by omega) heq.symm
  rw [copyBytes_congr hold]
  refine copyBytes_writeAll fun j hj => ?_
  exact physical_page h.dstAligned (by omega)

theorem heapRound_last (h : HeapRanges isHeap srcTable dstTable src dst size)
    (hk : k * 0x1000 < size) (hlast : size ≤ (k + 1) * 0x1000) :
    ∃ s, heapRound isHeap srcTable dstTable size (pageState srcTable dstTable memory src dst k) =
        some s ∧
      s.ofs = size ∧ s.memory = heapWritten srcTable dstTable memory src dst size := by
  have hcopy : min 0x1000 (size - k * 0x1000) = size - k * 0x1000 := by omega
  have hend : k * 0x1000 + (size - k * 0x1000) = size := by omega
  have hsrc : isHeap (physical srcTable (src + k * 0x1000)) = true := h.srcHeap _ ⟨_, hk, rfl⟩
  have hdst : isHeap (physical dstTable (dst + k * 0x1000)) = true := h.dstHeap _ ⟨_, hk, rfl⟩
  have hwritten := @heapWritten_copy isHeap srcTable dstTable memory src dst size k h
    (size - k * 0x1000) (by omega) (by omega)
  rw [hend] at hwritten
  unfold heapRound
  simp only [pageState, hcopy, hend, ne_eq, not_true_eq_false, if_false]
  unfold performHeapCopy
  simp only [hsrc, hdst, Bool.and_self, if_true, Option.map_some]
  exact ⟨_, rfl, hend, hwritten⟩

theorem advanceSrc_page (h : HeapRanges isHeap srcTable dstTable src dst size)
    (hmore : (k + 1) * 0x1000 < size) :
    advanceSrc srcTable (pageState srcTable dstTable memory src dst k) =
      (decide (physical srcTable (src + k * 0x1000) + 0x1000 ≠
          physical srcTable (src + (k + 1) * 0x1000)),
        { pageState srcTable dstTable memory src dst k with
          srcNextEntry := ⟨physical srcTable (src + (k + 1) * 0x1000), 0x1000⟩
          srcContext := ⟨src / 0x1000 + (k + 2), src + (k + 2) * 0x1000⟩ }) := by
  unfold advanceSrc
  simp only [pageState, if_true, continueTraversal_page h.srcAligned h.srcMapped hmore]
  rfl

theorem advanceDst_page (h : HeapRanges isHeap srcTable dstTable src dst size)
    (hmore : (k + 1) * 0x1000 < size) (entry : TraversalEntry) (context : TraversalContext) :
    advanceDst dstTable { pageState srcTable dstTable memory src dst k with
        srcNextEntry := entry, srcContext := context } =
      (decide (physical dstTable (dst + k * 0x1000) + 0x1000 ≠
          physical dstTable (dst + (k + 1) * 0x1000)),
        { pageState srcTable dstTable memory src dst k with
          srcNextEntry := entry
          srcContext := context
          dstNextEntry := ⟨physical dstTable (dst + (k + 1) * 0x1000), 0x1000⟩
          dstContext := ⟨dst / 0x1000 + (k + 2), dst + (k + 2) * 0x1000⟩ }) := by
  unfold advanceDst
  simp only [pageState, if_true, continueTraversal_page h.dstAligned h.dstMapped hmore]
  rfl

theorem page_inside (hmore : (k + 1) * 0x1000 < size) :
    k * 0x1000 < size ∧ min 0x1000 (size - k * 0x1000) = 0x1000 ∧ k * 0x1000 + 0x1000 ≠ size ∧
      k * 0x1000 + 0x1000 ≤ size := by
  omega

theorem jump_eq (a b : Pointer) : (if decide (¬ a = b) = true then b else a) = b := by
  rcases eq_or_ne a b with h | h
  · simp [h]
  · simp [h]

/-- A SIDE JUMPS: the page is copied, and the next round is at the next page. -/
theorem heapRound_jump (h : HeapRanges isHeap srcTable dstTable src dst size)
    (hmore : (k + 1) * 0x1000 < size) (hjump : ¬ BothContiguous srcTable dstTable src dst k) :
    heapRound isHeap srcTable dstTable size (pageState srcTable dstTable memory src dst k) =
      some (pageState srcTable dstTable memory src dst (k + 1)) := by
  obtain ⟨hk, hcopy, hend, hle⟩ := page_inside hmore
  have hsrc : isHeap (physical srcTable (src + k * 0x1000)) = true := h.srcHeap _ ⟨_, hk, rfl⟩
  have hdst : isHeap (physical dstTable (dst + k * 0x1000)) = true := h.dstHeap _ ⟨_, hk, rfl⟩
  have hwritten := @heapWritten_copy isHeap srcTable dstTable memory src dst size k h
    0x1000 (le_refl _) hle
  have hnext : k * 0x1000 + 0x1000 = (k + 1) * 0x1000 := (Nat.succ_mul k 0x1000).symm
  have hflags : (!decide (physical srcTable (src + k * 0x1000) + 0x1000 ≠
        physical srcTable (src + (k + 1) * 0x1000)) &&
      !decide (physical dstTable (dst + k * 0x1000) + 0x1000 ≠
        physical dstTable (dst + (k + 1) * 0x1000))) = false := by
    rw [Bool.eq_false_iff]
    intro hboth
    simp only [Bool.and_eq_true, Bool.not_eq_true', decide_eq_false_iff_not, not_not] at hboth
    exact hjump ⟨hboth.1.symm, hboth.2.symm⟩
  have hhex : BitVec.ofNat 64 0x1000 = (0x1000 : Pointer) := rfl
  unfold heapRound
  rw [advanceSrc_page h hmore]
  dsimp only
  rw [advanceDst_page h hmore]
  dsimp only
  rw [hflags]
  simp only [pageState, hcopy, ne_eq, hend, not_false_eq_true, if_true]
  unfold performHeapCopy updateMinSize
  simp only [hsrc, hdst, Bool.and_self, if_true, hwritten, hhex, Option.map_some]
  have hmin : min (0x1000 : Pointer).toNat (0x1000 : Pointer).toNat = 0x1000 := by decide
  simp only [Bool.false_eq_true, if_false, jump_eq, BitVec.sub_self, BitVec.zero_add, hnext, hmin]

theorem heapRound_stay (h : HeapRanges isHeap srcTable dstTable src dst size)
    (hmore : (k + 1) * 0x1000 < size) (hstay : BothContiguous srcTable dstTable src dst k) :
    heapRound isHeap srcTable dstTable size (pageState srcTable dstTable memory src dst k) =
      some (skippedState srcTable dstTable memory src dst k) := by
  obtain ⟨-, hcopy, hend, -⟩ := page_inside hmore
  obtain ⟨hsrc, hdst⟩ := hstay
  have hhex : BitVec.ofNat 64 0x1000 = (0x1000 : Pointer) := rfl
  have hmin : min (0x1000 + 0x1000 : Pointer).toNat (0x1000 : Pointer).toNat = 0x1000 := by decide
  unfold heapRound
  rw [advanceSrc_page h hmore]
  dsimp only
  rw [advanceDst_page h hmore, hsrc, hdst]
  simp only [pageState, hcopy, ne_eq, hend, not_false_eq_true, if_true, not_true_eq_false,
    decide_false, Bool.not_false, Bool.and_self]
  unfold updateMinSize skippedState
  simp only [pageState, hhex, hsrc, hdst, BitVec.sub_self, BitVec.zero_add, add_sub_cancel_left,
    hmin]

theorem heapRound_skipped (hmore : (k + 1) * 0x1000 < size)
    (hstay : BothContiguous srcTable dstTable src dst k) :
    heapRound isHeap srcTable dstTable size (skippedState srcTable dstTable memory src dst k) =
      some (skippedState srcTable dstTable memory src dst k) := by
  obtain ⟨-, hcopy, hend, -⟩ := page_inside hmore
  obtain ⟨hsrc, hdst⟩ := hstay
  have hhex : BitVec.ofNat 64 0x1000 = (0x1000 : Pointer) := rfl
  have hmin : min (0x1000 + 0x1000 : Pointer).toNat (0x1000 : Pointer).toNat = 0x1000 := by decide
  have hne : ∀ p : Pointer, ¬ p + 0x1000 = p + 0x1000 + 0x1000 := by
    intro p hp; exact absurd (left_eq_add.mp hp) (by decide)
  unfold heapRound advanceSrc advanceDst
  simp only [skippedState, pageState, hcopy, ne_eq, hend, not_false_eq_true, if_true, hhex, hsrc,
    hdst, hne, if_false, Bool.not_false, Bool.and_self]
  unfold updateMinSize
  simp only [hhex, BitVec.sub_self, BitVec.zero_add, add_sub_cancel_left, hmin]

theorem heapLoop_skipped (hmore : (k + 1) * 0x1000 < size)
    (hstay : BothContiguous srcTable dstTable src dst k) :
    heapLoop isHeap srcTable dstTable size fuel (skippedState srcTable dstTable memory src dst k) =
      .running := by
  induction fuel with
  | zero => rfl
  | succ fuel ih =>
    have hofs : (skippedState srcTable dstTable memory src dst k).ofs < size := (page_inside hmore).1
    rw [heapLoop, if_pos hofs, heapRound_skipped hmore hstay]; exact ih

section

variable (h : HeapRanges isHeap srcTable dstTable src dst size)
include h

theorem heapLoop_success {m : Nat}
    (hjump : ∀ k, (k + 1) * 0x1000 < size → ¬ BothContiguous srcTable dstTable src dst k)
    (hk : k * 0x1000 < size) (hm : size ≤ (k + m) * 0x1000) :
    ∃ fuel, heapLoop isHeap srcTable dstTable size fuel
        (pageState srcTable dstTable memory src dst k) =
      .success (heapWritten srcTable dstTable memory src dst size) := by
  induction m generalizing k with
  | zero => exact absurd hm (Nat.not_le.mpr hk)
  | succ m ih =>
    have hofs : (pageState srcTable dstTable memory src dst k).ofs < size := hk
    rcases Nat.lt_or_ge ((k + 1) * 0x1000) size with hmore | hlast
    · have hleft : k + (m + 1) = k + 1 + m := Nat.add_right_comm k m 1 ▸ rfl
      obtain ⟨fuel, hloop⟩ := @ih (k + 1) hmore (hleft ▸ hm)
      refine ⟨fuel + 1, ?_⟩
      rw [heapLoop, if_pos hofs, heapRound_jump h hmore (hjump k hmore)]
      exact hloop
    · obtain ⟨s, hround, hdone, hmem⟩ := @heapRound_last isHeap srcTable dstTable memory src dst size k
        h hk hlast
      refine ⟨2, ?_⟩
      rw [heapLoop, if_pos hofs, hround]
      show heapLoop isHeap srcTable dstTable size (0 + 1) s = _
      rw [heapLoop, if_neg (Nat.not_lt.mpr hdone.ge), hmem]

theorem heapLoop_running {m : Nat} (hmore : (k + m + 1) * 0x1000 < size)
    (hstay : BothContiguous srcTable dstTable src dst (k + m)) :
    heapLoop isHeap srcTable dstTable size fuel (pageState srcTable dstTable memory src dst k) =
      .running := by
  induction fuel generalizing k m with
  | zero => rfl
  | succ fuel ih =>
    have hnext : (k + 1) * 0x1000 < size :=
      Nat.lt_of_le_of_lt (Nat.mul_le_mul_right _ (by omega)) hmore
    have hofs : (pageState srcTable dstTable memory src dst k).ofs < size := (page_inside hnext).1
    rw [heapLoop, if_pos hofs]
    by_cases hboth : BothContiguous srcTable dstTable src dst k
    · rw [heapRound_stay h hnext hboth]
      exact heapLoop_skipped hnext hboth
    · rw [heapRound_jump h hnext hboth]
      cases m with
      | zero => exact absurd hstay hboth
      | succ m =>
        have hindex : k + (m + 1) = k + 1 + m := Nat.add_right_comm k m 1 ▸ rfl
        rw [hindex] at hmore hstay; exact ih hmore hstay

theorem copyMemoryFromHeapToHeap_eq (hsize : 0 < size) :
    copyMemoryFromHeapToHeap isHeap srcTable dstTable memory dst size src fuel =
      heapLoop isHeap srcTable dstTable size fuel
        (pageState srcTable dstTable memory src dst 0) := by
  have hzero : 0 * 0x1000 < size := by omega
  have hsrc := continueTraversal_page h.srcAligned h.srcMapped hzero
  have hdst := continueTraversal_page h.dstAligned h.dstMapped hzero
  simp only [Nat.zero_mul, Nat.add_zero] at hsrc hdst
  unfold copyMemoryFromHeapToHeap beginTraversal
  rw [hsrc, hdst]
  simp only [hsize.ne', if_false, physical_aligned h.srcAligned h.srcMapped hsize,
    physical_aligned h.dstAligned h.dstMapped hsize, pageState, Nat.zero_mul, Nat.add_zero]
  rfl

end

end HeapLoop

/-! ## Exactly when the copy ends and is exact -/

section HeapExact

variable {isHeap : Pointer → Bool} {srcTable dstTable : PageTable} {src dst size : Nat}

theorem heapWritten_exact (memory : Memory)
    (hplaces : ∀ i < size, ∀ j < size, physical dstTable (dst + i) = physical dstTable (dst + j) →
      physical srcTable (src + i) = physical srcTable (src + j)) :
    (∀ i < size, heapWritten srcTable dstTable memory src dst size (physical dstTable (dst + i)) =
      memory (physical srcTable (src + i))) ∧
    ∀ p, (∀ i < size, physical dstTable (dst + i) ≠ p) →
      heapWritten srcTable dstTable memory src dst size p = memory p := by
  refine ⟨fun i hi => ?_, fun p hp => writeAll_frame hp⟩
  obtain ⟨j, hj, hplace, hvalue⟩ := @writeAll_written size memory
    (fun i => physical dstTable (dst + i)) (fun i => memory (physical srcTable (src + i)))
    (physical dstTable (dst + i)) i hi rfl
  rw [heapWritten, hvalue, hplaces j hj i hi hplace]

theorem copyMemoryFromHeapToHeap_running (h : HeapRanges isHeap srcTable dstTable src dst size)
    {k : Nat} (hmore : (k + 1) * 0x1000 < size)
    (hstay : BothContiguous srcTable dstTable src dst k) (memory : Memory) (fuel : Nat) :
    copyMemoryFromHeapToHeap isHeap srcTable dstTable memory dst size src fuel = .running := by
  have hsize : 0 < size := Nat.lt_of_le_of_lt (Nat.zero_le _) hmore
  rw [copyMemoryFromHeapToHeap_eq h hsize]
  have hindex : 0 + k = k := Nat.zero_add k
  exact heapLoop_running h (hindex.symm ▸ hmore) (hindex.symm ▸ hstay)

/-- THE COPY ENDS AND IS EXACT if and only if at each boundary of two pages at least one side jumps (and
    no byte of the destination stands for two bytes of the source). -/
theorem heapCopy_exact (h : HeapRanges isHeap srcTable dstTable src dst size) :
    HeapCopyExact isHeap srcTable dstTable src dst size ↔
      (∀ k, (k + 1) * 0x1000 < size → ¬ BothContiguous srcTable dstTable src dst k) ∧
      ∀ i < size, ∀ j < size, physical dstTable (dst + i) = physical dstTable (dst + j) →
        physical srcTable (src + i) = physical srcTable (src + j) := by
  constructor
  · intro hexact
    refine ⟨fun k hmore hstay => ?_, fun i hi j hj hplace => ?_⟩
    · obtain ⟨fuel, memory', hsuccess, -, -⟩ := hexact fun _ => 0
      rw [copyMemoryFromHeapToHeap_running h hmore hstay] at hsuccess
      cases hsuccess
    · -- A memory that tells the byte of `i` from all others.
      by_contra hne
      obtain ⟨fuel, memory', -, hbytes, -⟩ :=
        hexact fun p => if p = physical srcTable (src + i) then 1 else 0
      have hi' := hbytes i hi
      have hj' := hbytes j hj
      rw [if_pos rfl] at hi'
      rw [if_neg fun heq => hne heq.symm, ← hplace, hi'] at hj'
      exact absurd hj' (by decide)
  · rintro ⟨hjump, hplaces⟩ memory
    rcases Nat.eq_zero_or_pos size with rfl | hsize
    · refine ⟨0, memory, ?_, fun i hi => absurd hi (Nat.not_lt_zero i), fun _ _ => rfl⟩
      unfold copyMemoryFromHeapToHeap
      exact if_pos rfl
    · have hzero : 0 * 0x1000 < size := Nat.zero_mul 0x1000 ▸ hsize
      have hpages : size ≤ (0 + size) * 0x1000 := by
        rw [Nat.zero_add]; exact Nat.le_mul_of_pos_right size (by decide)
      obtain ⟨fuel, hloop⟩ := heapLoop_success h hjump hzero hpages
      refine ⟨fuel, _, (copyMemoryFromHeapToHeap_eq h hsize).trans hloop, ?_⟩
      exact heapWritten_exact memory hplaces

/-- Pages that follow each other in physical memory. -/
def uniformTable (base : Pointer) : PageTable := ⟨fun _ => 0, fun _ => 0, fun _ => base, 16⟩

theorem uniformTable_mapped {base : Pointer} (hbase : base ≠ 0) (haligned : base.toNat % 0x1000 = 0)
    {addr : Nat} (hend : addr + size ≤ 0x10000) : MappedRange (uniformTable base) addr size := by
  refine ⟨fun i hi => ?_, fun _ _ => hbase, fun _ _ => haligned⟩
  show (addr + i) / 0x1000 < 16
  omega

theorem physical_uniformTable {v : Nat} (hv : v < 0x10000) :
    (physical (uniformTable 0xA0000000) v).toNat = 0xA0000000 + v := by
  show ((0xA0000000 : Pointer) + BitVec.ofNat 64 v).toNat = _
  rw [BitVec.toNat_add, BitVec.toNat_ofNat]
  show (0xA0000000 + v % 2 ^ 64) % 2 ^ 64 = _
  omega

theorem physical_below {table : PageTable} {v : Nat} (hv : v < 0x10000)
    (hback : table.backingAddr (v / 0x1000) = 0x80000000 ∨
      table.backingAddr (v / 0x1000) = 0x90000000) : (physical table v).toNat < 0xA0000000 := by
  rw [physical, BitVec.toNat_add, BitVec.toNat_ofNat]
  rcases hback with h | h
  · rw [h]
    show (0x80000000 + v % 2 ^ 64) % 2 ^ 64 < 0xA0000000
    omega
  · rw [h]
    show (0x90000000 + v % 2 ^ 64) % 2 ^ 64 < 0xA0000000
    omega

theorem heapRanges_uniform {table : PageTable} (hend : 0x1000 + size ≤ 0x10000)
    (hmapped : MappedRange table 0x1000 size)
    (hback : ∀ page, table.backingAddr page = 0x80000000 ∨ table.backingAddr page = 0x90000000) :
    HeapRanges (fun _ => true) table (uniformTable 0xA0000000) 0x1000 0x1000 size := by
  refine ⟨rfl, rfl, hmapped, uniformTable_mapped (by decide) rfl hend, fun _ _ => rfl,
    fun _ _ => rfl, fun i hi j hj heq => ?_⟩
  have hsrc := physical_below (show 0x1000 + i < 0x10000 by omega) (hback ((0x1000 + i) / 0x1000))
  have hdst := physical_uniformTable (show 0x1000 + j < 0x10000 by omega)
  rw [heq] at hsrc
  omega

theorem heapCopy_exact_scattered :
    HeapCopyExact (fun _ => true) scatteredTable (uniformTable 0xA0000000) 0x1000 0x1000 0x2800 := by
  have hranges : HeapRanges (fun _ => true) scatteredTable (uniformTable 0xA0000000) 0x1000 0x1000
      0x2800 := heapRanges_uniform (by decide) (scatteredTable_mapped (by decide)) fun page => by
    rcases Nat.mod_two_eq_zero_or_one page with h | h
    · exact Or.inl (if_pos h)
    · exact Or.inr (if_neg (by omega))
  refine (heapCopy_exact hranges).mpr ⟨fun k hk hboth => ?_, fun i hi j hj hplace => ?_⟩
  · have hsrc := hboth.1
    rcases (by omega : k = 0 ∨ k = 1) with rfl | rfl
    · exact absurd hsrc (by decide)
    · exact absurd hsrc (by decide)
  · have hi' := physical_uniformTable (show 0x1000 + i < 0x10000 by omega)
    have hj' := physical_uniformTable (show 0x1000 + j < 0x10000 by omega)
    rw [hplace, hj'] at hi'
    have hij : i = j := by omega
    rw [hij]

/-- Two pages that follow each other on both sides: the copy never ends. -/
theorem heapCopy_endless :
    HeapRanges (fun _ => true) (uniformTable 0x80000000) (uniformTable 0xA0000000) 0x1000 0x1000
      0x2000 ∧
    (∀ memory fuel, copyMemoryFromHeapToHeap (fun _ => true) (uniformTable 0x80000000)
      (uniformTable 0xA0000000) memory 0x1000 0x2000 0x1000 fuel = .running) ∧
    ¬ HeapCopyExact (fun _ => true) (uniformTable 0x80000000) (uniformTable 0xA0000000) 0x1000
      0x1000 0x2000 := by
  have hranges : HeapRanges (fun _ => true) (uniformTable 0x80000000) (uniformTable 0xA0000000)
      0x1000 0x1000 0x2000 :=
    heapRanges_uniform (by decide) (uniformTable_mapped (by decide) rfl (by decide))
      fun _ => Or.inl rfl
  have hrunning := fun memory fuel => @copyMemoryFromHeapToHeap_running _ _ _ _ _ _ hranges 0
    (by decide) ⟨by decide, by decide⟩ memory fuel
  refine ⟨hranges, hrunning, fun hexact => ?_⟩
  obtain ⟨fuel, memory', hsuccess, -, -⟩ := hexact fun _ => 0
  rw [hrunning] at hsuccess
  cases hsuccess

end HeapExact

end Suyu.Kernel.KPageTableBase
