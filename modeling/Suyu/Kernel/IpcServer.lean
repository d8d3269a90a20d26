import Mathlib
import Suyu.Core.MemoryMarks
import Suyu.Kernel.HeapCopy
import Suyu.Kernel.PageHeap

/-
  `SetupForIpcServer`: a server gets the buffer of a client.

  1. **Program** - whole pages of the buffer are mapped as they are, in runs of pages that follow each
     other in physical memory.  A page that the buffer covers in part is replaced by a FRESH page: the part
     is copied, and the rest is filled, so that no other byte of the client can be read.

  2. **Specification (`ServesBuffer`)** - the server has one page for each page of the buffer; whole pages
     are the client's own, the others are fresh and hold nothing but the part and the fill value.

  3. **The crux (`MapInv`)** - in terms of page NUMBERS: pages before `r` are mapped, pages from `r` to `t`
     are the run that is being collected.  The start page, the loop, the last run and the end page all keep
     this, and the special advances between them only move `r` and `t`.

  `FindFreeArea`, the update allocator, the reservation and `AllocateAndOpenContinuous` are given by what
  they return (`IpcResources`).  Left out: the references of pages, the permissions and the block tree.
-/

namespace Suyu.Kernel.KPageTableBase

open Core.Memory (PageTable Pointer Byte Aligned mapMemoryRegion)

/-! ## The program -/

def alignedSrcStart (srcAddr : Nat) : Nat := alignDown srcAddr 0x1000

def alignedSrcEnd (srcAddr size : Nat) : Nat := alignUp (srcAddr + size) 0x1000

def mappingSrcStart (srcAddr : Nat) : Nat := alignUp srcAddr 0x1000

def mappingSrcEnd (srcAddr size : Nat) : Nat := alignDown (srcAddr + size) 0x1000

def alignedSrcSize (srcAddr size : Nat) : Nat := alignedSrcEnd srcAddr size - alignedSrcStart srcAddr

/-- The end page is allocated. -/
def hasEndPage (srcAddr size : Nat) : Bool :=
  decide (mappingSrcEnd srcAddr size < alignedSrcEnd srcAddr size) &&
    (decide (alignedSrcStart srcAddr < mappingSrcEnd srcAddr size) ||
      decide (alignedSrcStart srcAddr = mappingSrcStart srcAddr))

/-- What the functions that are called return; the address 0 says that they fail. -/
structure IpcResources where
  regionSize : Nat
  dstAddr : Nat
  allocatorResult : Bool
  reservationSucceeded : Bool
  startPartialPage : Pointer
  endPartialPage : Pointer

/-- The tables and variables that the mapping of the pages changes. -/
structure ServerState where
  memory : Memory
  table : PageTable
  curMappedAddr : Nat
  curBlockAddr : Pointer
  curBlockSize : Nat
  totBlockSize : Nat
  context : TraversalContext

def memset (memory : Memory) (dst : Pointer) (value : Byte) (size : Nat) : Memory :=
  Core.Memory.copyBytes memory dst (fun _ => value) size

def memcpy (memory : Memory) (dst src : Pointer) (size : Nat) : Memory :=
  Core.Memory.copyBytes memory dst (fun i => memory (src + BitVec.ofNat 64 i)) size

/-- `Ensure the page holds correct data.`, for the start page. -/
def fillStartPage (memory : Memory) (startPage curBlockAddr : Pointer) (fillVal : Byte)
    (srcAddr size : Nat) (send : Bool) : Memory :=
  if send then
    let partialOffset := srcAddr - alignedSrcStart srcAddr
    let srcEnd := srcAddr + size
    let (copySize, clearSize) :=
      if srcEnd < mappingSrcStart srcAddr then (size, mappingSrcStart srcAddr - srcEnd)
      else (mappingSrcStart srcAddr - srcAddr, 0)
    let memory := memset memory startPage fillVal partialOffset
    let memory := memcpy memory (startPage + BitVec.ofNat 64 partialOffset)
      (curBlockAddr + BitVec.ofNat 64 partialOffset) copySize
    if clearSize > 0 then
      memset memory (startPage + BitVec.ofNat 64 (partialOffset + copySize)) fillVal clearSize
    else memory
  else memset memory startPage fillVal 0x1000

/-- The same for the end page. -/
def fillEndPage (memory : Memory) (endPage curBlockAddr : Pointer) (fillVal : Byte)
    (srcAddr size : Nat) (send : Bool) : Memory :=
  if send then
    let copySize := srcAddr + size - mappingSrcEnd srcAddr size
    let memory := memcpy memory endPage curBlockAddr copySize
    memset memory (endPage + BitVec.ofNat 64 copySize) fillVal (0x1000 - copySize)
  else memset memory endPage fillVal 0x1000

/-- `Operate` with `OperationType::Map`, at `cur_mapped_addr`; it does not fail. -/
def operateMap (backingBase : Pointer) (size : Nat) (physAddr : Pointer) (s : ServerState) :
    ServerState :=
  { s with table := mapMemoryRegion backingBase s.table s.curMappedAddr size physAddr }

section Program

variable (backingBase : Pointer) (srcTable : PageTable) (fillVal : Byte) (srcAddr size : Nat)
  (send : Bool)

/-- `Map the start page, if we have one.` -/
def mapStartPage (startPage : Pointer) (s : ServerState) : ServerState :=
  let s := { s with
    memory := fillStartPage s.memory startPage s.curBlockAddr fillVal srcAddr size send }
  let s := operateMap backingBase 0x1000 startPage s
  let s := { s with
    curMappedAddr := s.curMappedAddr + 0x1000
    curBlockAddr := s.curBlockAddr + 0x1000
    curBlockSize := s.curBlockSize - 0x1000 }
  if s.curBlockSize = 0 ∧ alignedSrcSize srcAddr size > 0x1000 then
    let (_, nextEntry, context) := continueTraversal srcTable s.context
    { s with
      curBlockAddr := nextEntry.physAddr
      curBlockSize := nextEntry.blockSize
      totBlockSize := s.totBlockSize + nextEntry.blockSize
      context := context }
  else s

/-- A round of `Map the remaining pages.` -/
def mapRound (s : ServerState) : ServerState :=
  let (_, nextEntry, context) := continueTraversal srcTable s.context
  let s := { s with context := context }
  let s :=
    if nextEntry.physAddr ≠ s.curBlockAddr + BitVec.ofNat 64 s.curBlockSize then
      { operateMap backingBase s.curBlockSize s.curBlockAddr s with
        curMappedAddr := s.curMappedAddr + s.curBlockSize
        curBlockAddr := nextEntry.physAddr
        curBlockSize := nextEntry.blockSize }
    else { s with curBlockSize := s.curBlockSize + nextEntry.blockSize }
  { s with totBlockSize := s.totBlockSize + nextEntry.blockSize }

/-- The loop; every round takes a page. -/
def mapLoop : Nat → ServerState → ServerState
  | 0, s => s
  | fuel + 1, s =>
      if alignedSrcStart srcAddr + s.totBlockSize < mappingSrcEnd srcAddr size then
        mapLoop fuel (mapRound backingBase srcTable s)
      else s

/-- `Handle the last direct-mapped page.` -/
def mapLast (s : ServerState) : ServerState :=
  let mappedBlockEnd := alignedSrcStart srcAddr + s.totBlockSize - s.curBlockSize
  if mappedBlockEnd < mappingSrcEnd srcAddr size then
    let lastBlockSize := mappingSrcEnd srcAddr size - mappedBlockEnd
    let s := operateMap backingBase lastBlockSize s.curBlockAddr s
    let s := { s with
      curMappedAddr := s.curMappedAddr + lastBlockSize
      curBlockAddr := s.curBlockAddr + BitVec.ofNat 64 lastBlockSize }
    if mappedBlockEnd + s.curBlockSize < alignedSrcEnd srcAddr size ∧
        s.curBlockSize = lastBlockSize then
      let (_, nextEntry, context) := continueTraversal srcTable s.context
      { s with curBlockAddr := nextEntry.physAddr, context := context }
    else s
  else s

/-- `Map the end page, if we have one.` -/
def mapEndPage (endPage : Pointer) (s : ServerState) : ServerState :=
  operateMap backingBase 0x1000 endPage { s with
    memory := fillEndPage s.memory endPage s.curBlockAddr fillVal srcAddr size send }

end Program

/-! ## Specification -/

/-- The number of pages of a buffer. -/
def bufferPages (srcAddr size : Nat) : Nat := alignedSrcSize srcAddr size / 0x1000

/-- The buffer covers all of its page `k`. -/
def FullPage (srcAddr size k : Nat) : Prop :=
  srcAddr ≤ alignedSrcStart srcAddr + k * 0x1000 ∧
    alignedSrcStart srcAddr + (k + 1) * 0x1000 ≤ srcAddr + size

/-- What the server has got. -/
structure ServesBuffer (srcTable : PageTable) (fillVal : Byte) (srcAddr size : Nat) (send : Bool)
    (resources : IpcResources) (table table' : PageTable) (memory memory' : Memory)
    (outAddr : Nat) : Prop where
  address : outAddr = resources.dstAddr + srcAddr % 0x1000
  /-- Whole pages are the client's own, in order. -/
  direct : ∀ k < bufferPages srcAddr size, FullPage srcAddr size k →
    physical table' (resources.dstAddr + k * 0x1000) =
      physical srcTable (alignedSrcStart srcAddr + k * 0x1000)
  /-- The others are the first and the last one, and they are fresh. -/
  fresh : ∀ k < bufferPages srcAddr size, ¬ FullPage srcAddr size k →
    (k = 0 ∨ k + 1 = bufferPages srcAddr size) ∧
    physical table' (resources.dstAddr + k * 0x1000) =
      if k = 0 ∧ srcAddr % 0x1000 ≠ 0 then resources.startPartialPage else resources.endPartialPage
  /-- Nothing else is mapped. -/
  others : ∀ page, (page < resources.dstAddr / 0x1000 ∨
      resources.dstAddr / 0x1000 + bufferPages srcAddr size ≤ page) →
    table'.backingAddr page = table.backingAddr page
  /-- The server reads the bytes of the client. -/
  sent : send = true → ∀ i < size,
    memory' (physical table' (outAddr + i)) = memory (physical srcTable (srcAddr + i))
  /-- The rest of a fresh page is filled. -/
  filled : ∀ k < bufferPages srcAddr size, ¬ FullPage srcAddr size k → ∀ j < 0x1000,
    (send = false ∨ alignedSrcStart srcAddr + (k * 0x1000 + j) < srcAddr ∨
      srcAddr + size ≤ alignedSrcStart srcAddr + (k * 0x1000 + j)) →
    memory' (physical table' (resources.dstAddr + (k * 0x1000 + j))) = fillVal
  /-- No other byte is written. -/
  frame : ∀ q, (∀ j < 0x1000, q ≠ resources.startPartialPage + BitVec.ofNat 64 j ∧
      q ≠ resources.endPartialPage + BitVec.ofNat 64 j) → memory' q = memory q

/-- The client's range, and the pages that the memory manager gives: they belong to nobody. -/
structure IpcRanges (srcTable : PageTable) (srcAddr size : Nat) (resources : IpcResources) : Prop where
  mapped : MappedRange srcTable (alignedSrcStart srcAddr) (alignedSrcSize srcAddr size)
  present : ∀ k < bufferPages srcAddr size,
    physical srcTable (alignedSrcStart srcAddr + k * 0x1000) ≠ 0
  dstAligned : resources.dstAddr % 0x1000 = 0
  startAligned : Aligned resources.startPartialPage
  endAligned : Aligned resources.endPartialPage
  apart : resources.startPartialPage ≠ resources.endPartialPage
  startFresh : ∀ k < bufferPages srcAddr size,
    physical srcTable (alignedSrcStart srcAddr + k * 0x1000) ≠ resources.startPartialPage
  endFresh : ∀ k < bufferPages srcAddr size,
    physical srcTable (alignedSrcStart srcAddr + k * 0x1000) ≠ resources.endPartialPage

/-! ## Page numbers -/

section Extents

variable {srcAddr size k : Nat}

/-- The number of the first page that is mapped as it is. -/
def firstDirect (srcAddr : Nat) : Nat := if srcAddr % 0x1000 = 0 then 0 else 1

/-- The number behind the last of them. -/
def directEnd (srcAddr size : Nat) : Nat := (srcAddr + size) / 0x1000 - srcAddr / 0x1000

theorem firstDirect_le_one (srcAddr : Nat) : firstDirect srcAddr ≤ 1 := by
  unfold firstDirect
  split
  · exact Nat.zero_le 1
  · exact le_refl 1

theorem alignedSrcStart_eq (srcAddr : Nat) :
    alignedSrcStart srcAddr = srcAddr / 0x1000 * 0x1000 := by
  unfold alignedSrcStart alignDown; omega

theorem mappingSrcStart_eq (srcAddr : Nat) :
    mappingSrcStart srcAddr = alignedSrcStart srcAddr + firstDirect srcAddr * 0x1000 := by
  unfold mappingSrcStart alignUp alignedSrcStart alignDown firstDirect
  split
  · omega
  · omega

theorem mappingSrcEnd_eq (srcAddr size : Nat) :
    mappingSrcEnd srcAddr size = alignedSrcStart srcAddr + directEnd srcAddr size * 0x1000 := by
  unfold mappingSrcEnd alignedSrcStart alignDown directEnd; omega

theorem alignedSrcEnd_eq (srcAddr size : Nat) :
    alignedSrcEnd srcAddr size = alignedSrcStart srcAddr + bufferPages srcAddr size * 0x1000 := by
  unfold bufferPages alignedSrcSize alignedSrcEnd alignUp alignedSrcStart alignDown
  split
  · omega
  · omega

theorem alignedSrcSize_eq (srcAddr size : Nat) :
    alignedSrcSize srcAddr size = bufferPages srcAddr size * 0x1000 := by
  have hend := alignedSrcEnd_eq srcAddr size
  unfold alignedSrcSize
  omega

theorem directEnd_bounds (hsize : 0 < size) :
    directEnd srcAddr size ≤ bufferPages srcAddr size ∧
    bufferPages srcAddr size ≤ directEnd srcAddr size + 1 ∧ 0 < bufferPages srcAddr size := by
  have hend := alignedSrcEnd_eq srcAddr size
  unfold alignedSrcEnd alignUp alignedSrcStart alignDown at hend
  unfold directEnd
  split at hend
  · omega
  · omega

theorem hasEndPage_iff : hasEndPage srcAddr size = true ↔
    directEnd srcAddr size < bufferPages srcAddr size ∧
      (0 < directEnd srcAddr size ∨ firstDirect srcAddr = 0) := by
  unfold hasEndPage
  rw [Bool.and_eq_true, Bool.or_eq_true, decide_eq_true_eq, decide_eq_true_eq, decide_eq_true_eq,
    mappingSrcEnd_eq, alignedSrcEnd_eq, mappingSrcStart_eq]
  omega

end Extents

/-! ## Bytes of pages -/

section PageBytes

variable {memory : Memory} {p q : Pointer} {value : Nat → Byte} {i j n : Nat}

theorem toNat_add_offset (hp : Aligned p) (hi : i < 0x1000) :
    (p + BitVec.ofNat 64 i).toNat = p.toNat + i := by
  have hlt := p.isLt
  unfold Aligned at hp
  rw [BitVec.toNat_add, BitVec.toNat_ofNat]
  omega

theorem pages_apart (hp : Aligned p) (hq : Aligned q) (hpq : p ≠ q) (hi : i < 0x1000)
    (hj : j < 0x1000) : p + BitVec.ofNat 64 i ≠ q + BitVec.ofNat 64 j := by
  intro heq
  have htoNat := congrArg BitVec.toNat heq
  rw [toNat_add_offset hp hi, toNat_add_offset hq hj] at htoNat
  unfold Aligned at hp hq
  exact hpq (BitVec.eq_of_toNat_eq (by omega))

variable {fillVal : Byte} {send : Bool} {clientPage : Pointer} {low high : Nat}

end PageBytes

section Filling

variable {memory : Memory} {freshPage clientPage : Pointer} {fillVal : Byte} {send : Bool}
  {srcAddr size : Nat}

end Filling

/-! ## The mapping -/

section Mapping

variable {backingBase : Pointer} {srcTable table table' : PageTable} {target : Nat → Pointer}
  {a : Pointer} {srcAddr size dst r t m : Nat}

/-- The pages before `r` are mapped, and nothing else is changed. -/
structure Mapped (table table' : PageTable) (dst r : Nat) (target : Nat → Pointer) : Prop where
  pages : ∀ k < r, physical table' (dst + k * 0x1000) = target k
  others : ∀ page, (page < dst / 0x1000 ∨ dst / 0x1000 + r ≤ page) →
    table'.backingAddr page = table.backingAddr page

theorem mapMemoryRegion_backingAddr (hdst : dst % 0x1000 = 0) (page : Nat) :
    a ≠ 0 →
    (mapMemoryRegion backingBase table (dst + r * 0x1000) (m * 0x1000) a).backingAddr page =
      if dst / 0x1000 + r ≤ page ∧ page < dst / 0x1000 + r + m then
        a + BitVec.ofNat 64 ((page - (dst / 0x1000 + r)) * 0x1000) - Core.Memory.pageAddress page
      else table.backingAddr page := by
  have hbase : (dst + r * 0x1000) / 0x1000 = dst / 0x1000 + r := by omega
  have hcount : m * 0x1000 / 0x1000 = m := Nat.mul_div_cancel m (by decide)
  intro ha
  rw [mapMemoryRegion, hbase, hcount, Core.Memory.mapPages, if_neg ha]
  exact (Core.Memory.mapPagesTo_entry m (dst / 0x1000 + r) a table page).2.1

theorem Mapped.map (h : Mapped table table' dst r target) (hdst : dst % 0x1000 = 0) (ha : a ≠ 0)
    (hrun : ∀ j < m, target (r + j) = a + BitVec.ofNat 64 (j * 0x1000)) :
    Mapped table (mapMemoryRegion backingBase table' (dst + r * 0x1000) (m * 0x1000) a) dst (r + m)
      target := by
  have hentry := fun page =>
    @mapMemoryRegion_backingAddr backingBase table' a dst r m hdst page ha
  clear ha
  refine ⟨fun k hk => ?_, fun page hpage => ?_⟩
  · have hpage : (dst + k * 0x1000) / 0x1000 = dst / 0x1000 + k := by omega
    have haddr : dst + k * 0x1000 = (dst / 0x1000 + k) * 0x1000 := by omega
    rcases Nat.lt_or_ge k r with hold | hnew
    · rw [physical, hpage, hentry, if_neg (by omega), ← hpage]
      exact h.pages k hold
    · have hindex : dst / 0x1000 + k - (dst / 0x1000 + r) = k - r := by omega
      have hrun' := hrun (k - r) (by omega)
      rw [Nat.add_sub_of_le hnew] at hrun'
      rw [physical, hpage, hentry, if_pos (by omega), hindex, ← hrun', haddr]
      exact BitVec.sub_add_cancel _ _
  · rw [hentry, if_neg (by omega)]; exact h.others page (by omega)

/-- The page of the server for page `k` of the buffer. -/
def serverPage (srcTable : PageTable) (srcAddr size : Nat) (resources : IpcResources) (k : Nat) :
    Pointer :=
  if k < firstDirect srcAddr then resources.startPartialPage
  else if k < directEnd srcAddr size then
    physical srcTable (alignedSrcStart srcAddr + k * 0x1000)
  else resources.endPartialPage

theorem serverPage_direct {resources : IpcResources} {k : Nat} (hfirst : firstDirect srcAddr ≤ k)
    (hend : k < directEnd srcAddr size) :
    serverPage srcTable srcAddr size resources k =
      physical srcTable (alignedSrcStart srcAddr + k * 0x1000) := by
  rw [serverPage, if_neg (Nat.not_lt.mpr hfirst), if_pos hend]

/-- The variables between the pieces: pages before `r` are mapped, the run goes from `r` to `t`. -/
structure MapInv (srcTable : PageTable) (srcAddr size : Nat) (resources : IpcResources)
    (table : PageTable) (memory : Memory) (r t : Nat) (s : ServerState) : Prop where
  order : r ≤ t
  memory : s.memory = memory
  curMappedAddr : s.curMappedAddr = resources.dstAddr + r * 0x1000
  totBlockSize : s.totBlockSize = t * 0x1000
  curBlockSize : s.curBlockSize = (t - r) * 0x1000
  context : s.context = ⟨alignedSrcStart srcAddr / 0x1000 + t, alignedSrcStart srcAddr + t * 0x1000⟩
  run : ∀ j < t - r, physical srcTable (alignedSrcStart srcAddr + (r + j) * 0x1000) =
    s.curBlockAddr + BitVec.ofNat 64 (j * 0x1000)
  mapped : Mapped table s.table resources.dstAddr r (serverPage srcTable srcAddr size resources)

variable {resources : IpcResources} {memory : Memory} {s : ServerState}

theorem alignedSrcStart_mod (srcAddr : Nat) : alignedSrcStart srcAddr % 0x1000 = 0 := by
  rw [alignedSrcStart_eq]; exact Nat.mul_mod_left _ _

theorem MapInv.next (h : MapInv srcTable srcAddr size resources table memory r t s)
    (hranges : IpcRanges srcTable srcAddr size resources) (ht : t < bufferPages srcAddr size) :
    continueTraversal srcTable s.context =
      (true, ⟨physical srcTable (alignedSrcStart srcAddr + t * 0x1000), 0x1000⟩,
        ⟨alignedSrcStart srcAddr / 0x1000 + (t + 1), alignedSrcStart srcAddr + (t + 1) * 0x1000⟩) := by
  rw [h.context]
  refine continueTraversal_page (alignedSrcStart_mod srcAddr) hranges.mapped ?_
  rw [alignedSrcSize_eq]
  exact Nat.mul_lt_mul_of_pos_right ht (by decide)

theorem MapInv.mapRun (h : MapInv srcTable srcAddr size resources table memory r t s)
    (hranges : IpcRanges srcTable srcAddr size resources) (hrt : r < t)
    (hfirst : firstDirect srcAddr ≤ r) (hend : t ≤ directEnd srcAddr size)
    (hpages : t ≤ bufferPages srcAddr size) :
    Mapped table
      (mapMemoryRegion backingBase s.table s.curMappedAddr ((t - r) * 0x1000) s.curBlockAddr)
      resources.dstAddr t (serverPage srcTable srcAddr size resources) := by
  have hhead := h.run 0 (by omega)
  have hzero : s.curBlockAddr + BitVec.ofNat 64 (0 * 0x1000) = s.curBlockAddr := BitVec.add_zero _
  rw [hzero, Nat.add_zero] at hhead
  have hmapped := @Mapped.map backingBase table s.table _ s.curBlockAddr _ r (t - r) h.mapped
    hranges.dstAligned (hhead ▸ hranges.present r (by omega)) fun j hj => by
      rw [serverPage_direct (by omega) (by omega), h.run j hj]
  rw [h.curMappedAddr]
  rw [Nat.add_sub_of_le h.order] at hmapped
  exact hmapped

/-- ONE ROUND of the loop. -/
theorem MapInv.round (h : MapInv srcTable srcAddr size resources table memory r t s)
    (hranges : IpcRanges srcTable srcAddr size resources) (hrt : r < t)
    (hfirst : firstDirect srcAddr ≤ r) (hend : t < directEnd srcAddr size)
    (hpages : t < bufferPages srcAddr size) :
    ∃ r', firstDirect srcAddr ≤ r' ∧ r' < t + 1 ∧
      MapInv srcTable srcAddr size resources table memory r' (t + 1)
        (mapRound backingBase srcTable s) := by
  have htot : s.totBlockSize + 0x1000 = (t + 1) * 0x1000 := by
    rw [h.totBlockSize]; omega
  unfold mapRound
  rw [h.next hranges hpages]
  dsimp only
  split
  · -- The page does not follow the run: the run is mapped.
    refine ⟨t, by omega, by omega, ?_⟩
    have hone : t + 1 - t = 1 := by omega
    refine ⟨Nat.le_succ t, h.memory, ?_, htot, ?_, rfl, fun j hj => ?_, ?_⟩
    · show s.curMappedAddr + s.curBlockSize = _
      have hr := h.order
      rw [h.curMappedAddr, h.curBlockSize]
      omega
    · show 0x1000 = (t + 1 - t) * 0x1000
      rw [hone, Nat.one_mul]
    · have hj0 : j = 0 := by omega
      rw [hj0, Nat.add_zero, Nat.zero_mul]
      exact (BitVec.add_zero _).symm
    · show Mapped table (mapMemoryRegion backingBase s.table s.curMappedAddr s.curBlockSize
        s.curBlockAddr) _ _ _
      rw [h.curBlockSize]; exact h.mapRun hranges hrt hfirst hend.le hpages.le
  next hjoin =>
    rw [not_not] at hjoin
    refine ⟨r, hfirst, by omega, ?_⟩
    refine ⟨by omega, h.memory, h.curMappedAddr, htot, ?_, rfl, fun j hj => ?_, h.mapped⟩
    · show s.curBlockSize + 0x1000 = (t + 1 - r) * 0x1000
      rw [h.curBlockSize]
      omega
    · show _ = s.curBlockAddr + _
      rcases Nat.lt_or_ge j (t - r) with hin | hout
      · exact h.run j hin
      · have hjt : j = t - r := by omega
        have hindex : r + (t - r) = t := Nat.add_sub_of_le h.order
        rw [hjt, hindex, ← h.curBlockSize]; exact hjoin

/-- THE LOOP, by induction on the rounds. -/
theorem MapInv.loop {fuel : Nat} (h : MapInv srcTable srcAddr size resources table memory r t s)
    (hranges : IpcRanges srcTable srcAddr size resources) (hsize : 0 < size) (hrt : r < t)
    (hfirst : firstDirect srcAddr ≤ r) (hfuel : directEnd srcAddr size ≤ t + fuel) :
    ∃ r' t', firstDirect srcAddr ≤ r' ∧ r' < t' ∧ directEnd srcAddr size ≤ t' ∧
      t' ≤ max t (directEnd srcAddr size) ∧
      MapInv srcTable srcAddr size resources table memory r' t'
        (mapLoop backingBase srcTable srcAddr size fuel s) := by
  have hbounds := @directEnd_bounds srcAddr size hsize
  induction fuel generalizing r t s with
  | zero => exact ⟨r, t, hfirst, hrt, hfuel, le_max_left _ _, h⟩
  | succ fuel ih =>
    have hiff : alignedSrcStart srcAddr + s.totBlockSize < mappingSrcEnd srcAddr size ↔
        t < directEnd srcAddr size := by
      rw [mappingSrcEnd_eq, h.totBlockSize]; omega
    rw [mapLoop]
    rcases Nat.lt_or_ge t (directEnd srcAddr size) with hmore | hdone
    · obtain ⟨r₁, hfirst₁, hrt₁, hinv⟩ :=
        @MapInv.round backingBase _ _ _ _ _ _ _ _ _ h hranges hrt hfirst hmore (by omega)
      rw [if_pos (hiff.mpr hmore)]
      obtain ⟨r', t', hf, hrt', hend, hmax, hinv'⟩ := ih hinv hrt₁ hfirst₁ (by omega)
      exact ⟨r', t', hf, hrt', hend, by omega, hinv'⟩
    · rw [if_neg fun hlt => absurd (hiff.mp hlt) (Nat.not_lt.mpr hdone)]
      exact ⟨r, t, hfirst, hrt, hdone, le_max_left _ _, h⟩

variable {fillVal : Byte} {send : Bool}

theorem MapInv.startPage (h : MapInv srcTable srcAddr size resources table memory 0 1 s)
    (hranges : IpcRanges srcTable srcAddr size resources) (hfirst : firstDirect srcAddr = 1)
    (hsize : 0 < size) (hblock : s.curBlockAddr = physical srcTable (alignedSrcStart srcAddr)) :
    resources.startPartialPage ≠ 0 →
    MapInv srcTable srcAddr size resources table
      (fillStartPage memory resources.startPartialPage
        (physical srcTable (alignedSrcStart srcAddr)) fillVal srcAddr size send)
      1 (min 2 (bufferPages srcAddr size))
      (mapStartPage backingBase srcTable fillVal srcAddr size send resources.startPartialPage s) := by
  have hbounds := @directEnd_bounds srcAddr size hsize
  have hsizes : s.curBlockSize - 0x1000 = 0 := by
    rw [h.curBlockSize]
  have haddr : resources.dstAddr + 0 * 0x1000 + 0x1000 = resources.dstAddr + 1 * 0x1000 := by omega
  have hiff : alignedSrcSize srcAddr size > 0x1000 ↔ 1 < bufferPages srcAddr size := by
    rw [alignedSrcSize_eq]; omega
  intro hpage
  have hmapped : Mapped table (mapMemoryRegion backingBase s.table s.curMappedAddr 0x1000
      resources.startPartialPage) resources.dstAddr 1
        (serverPage srcTable srcAddr size resources) := by
    have hmap := @Mapped.map backingBase table s.table _ resources.startPartialPage _ 0 1 h.mapped
      hranges.dstAligned hpage fun j hj => by
        have hj0 : j = 0 := Nat.lt_one_iff.mp hj
        rw [hj0, serverPage, if_pos (by rw [hfirst]; exact Nat.one_pos)]
        exact (BitVec.add_zero _).symm
    rw [h.curMappedAddr]; exact hmap
  clear hpage
  unfold mapStartPage
  dsimp only [operateMap]
  rw [hsizes, h.memory, hblock]
  rcases Nat.lt_or_ge 1 (bufferPages srcAddr size) with hmore | hone
  · have hmin : min 2 (bufferPages srcAddr size) = 2 := by omega
    rw [if_pos ⟨rfl, hiff.mpr hmore⟩, h.next hranges hmore, hmin]
    refine ⟨by decide, rfl, ?_, ?_, rfl, rfl, fun j hj => ?_, hmapped⟩
    · show s.curMappedAddr + 0x1000 = _
      rw [h.curMappedAddr, haddr]
    · show s.totBlockSize + 0x1000 = _
      rw [h.totBlockSize]
    · have hj0 : j = 0 := by omega
      rw [hj0, Nat.add_zero]; exact (BitVec.add_zero _).symm
  · have hmin : min 2 (bufferPages srcAddr size) = 1 := by omega
    rw [if_neg fun hcond => absurd (hiff.mp hcond.2) (Nat.not_lt.mpr hone), hmin]
    refine ⟨le_refl 1, rfl, ?_, h.totBlockSize, rfl, h.context, fun j hj => ?_, hmapped⟩
    · show s.curMappedAddr + 0x1000 = _
      rw [h.curMappedAddr, haddr]
    · exact absurd hj (Nat.not_lt_zero j)

section

variable (h : MapInv srcTable srcAddr size resources table memory r t s)
include h

theorem MapInv.mappedBlockEnd : alignedSrcStart srcAddr + s.totBlockSize - s.curBlockSize =
      alignedSrcStart srcAddr + r * 0x1000 := by
  have hle := h.order
  rw [h.totBlockSize, h.curBlockSize]
  omega

theorem MapInv.last_done (hdone : directEnd srcAddr size ≤ r) :
    mapLast backingBase srcTable srcAddr size s = s := by
  unfold mapLast
  rw [h.mappedBlockEnd, mappingSrcEnd_eq]
  exact if_neg (by omega)

end

theorem MapInv.last (h : MapInv srcTable srcAddr size resources table memory r t s)
    (hranges : IpcRanges srcTable srcAddr size resources) (hsize : 0 < size)
    (hfirst : firstDirect srcAddr ≤ r) (hrt : r < t) (hend : t = directEnd srcAddr size) :
    (mapLast backingBase srcTable srcAddr size s).memory = memory ∧
    (mapLast backingBase srcTable srcAddr size s).curMappedAddr =
      resources.dstAddr + directEnd srcAddr size * 0x1000 ∧
    Mapped table (mapLast backingBase srcTable srcAddr size s).table resources.dstAddr
      (directEnd srcAddr size) (serverPage srcTable srcAddr size resources) ∧
    (directEnd srcAddr size < bufferPages srcAddr size →
      (mapLast backingBase srcTable srcAddr size s).curBlockAddr =
        physical srcTable (alignedSrcStart srcAddr + directEnd srcAddr size * 0x1000)) := by
  have hbounds := @directEnd_bounds srcAddr size hsize
  subst hend
  have hlast : mappingSrcEnd srcAddr size - (alignedSrcStart srcAddr + r * 0x1000) =
      (directEnd srcAddr size - r) * 0x1000 := by
    rw [mappingSrcEnd_eq]; omega
  have hbefore : alignedSrcStart srcAddr + r * 0x1000 < mappingSrcEnd srcAddr size := by
    rw [mappingSrcEnd_eq]; omega
  have hmore : alignedSrcStart srcAddr + r * 0x1000 + s.curBlockSize < alignedSrcEnd srcAddr size ↔
      directEnd srcAddr size < bufferPages srcAddr size := by
    rw [alignedSrcEnd_eq, h.curBlockSize]; omega
  have haddr : s.curMappedAddr + (directEnd srcAddr size - r) * 0x1000 =
      resources.dstAddr + directEnd srcAddr size * 0x1000 := by
    rw [h.curMappedAddr]; omega
  have hmapped := @MapInv.mapRun backingBase _ _ _ _ _ _ _ _ _ h hranges hrt hfirst (le_refl _)
    hbounds.1
  unfold mapLast
  dsimp only [operateMap]
  rw [h.mappedBlockEnd, if_pos hbefore, hlast]
  split
  next hcond =>
    rw [h.next hranges (hmore.mp hcond.1)]; exact ⟨h.memory, haddr, hmapped, fun _ => rfl⟩
  next hcond =>
    refine ⟨h.memory, haddr, hmapped, fun hlt => ?_⟩
    exact absurd ⟨hmore.mpr hlt, h.curBlockSize⟩ hcond

/-- The variables before the end page: the direct pages are mapped. -/
structure MapDone (srcTable : PageTable) (srcAddr size : Nat) (resources : IpcResources)
    (table : PageTable) (memory : Memory) (s : ServerState) : Prop where
  memory : s.memory = memory
  curMappedAddr : s.curMappedAddr =
    resources.dstAddr + max (firstDirect srcAddr) (directEnd srcAddr size) * 0x1000
  mapped : Mapped table s.table resources.dstAddr
    (max (firstDirect srcAddr) (directEnd srcAddr size))
    (serverPage srcTable srcAddr size resources)
  /-- The page of the client for the end page. -/
  curBlockAddr : firstDirect srcAddr ≤ directEnd srcAddr size →
    directEnd srcAddr size < bufferPages srcAddr size →
    s.curBlockAddr = physical srcTable (alignedSrcStart srcAddr + directEnd srcAddr size * 0x1000)

theorem MapInv.done {fuel : Nat} (h : MapInv srcTable srcAddr size resources table memory
      (firstDirect srcAddr) (firstDirect srcAddr + 1) s)
    (hranges : IpcRanges srcTable srcAddr size resources) (hsize : 0 < size)
    (hfuel : directEnd srcAddr size ≤ fuel) :
    MapDone srcTable srcAddr size resources table memory
      (mapLast backingBase srcTable srcAddr size
        (mapLoop backingBase srcTable srcAddr size fuel s)) := by
  obtain ⟨r, t, hfirst, hrt, hend, hmax, hinv⟩ :=
    @MapInv.loop backingBase _ _ _ _ _ _ _ _ _ fuel h hranges hsize (Nat.lt_succ_self _)
      (le_refl _) (by omega)
  rcases Nat.lt_or_ge r (directEnd srcAddr size) with hlt | hge
  · have ht : t = directEnd srcAddr size := by omega
    have hmaxeq : max (firstDirect srcAddr) (directEnd srcAddr size) = directEnd srcAddr size := by
      omega
    obtain ⟨hmem, haddr, hmapped, hblock⟩ :=
      @MapInv.last backingBase _ _ _ _ _ _ _ _ _ hinv hranges hsize hfirst hrt ht
    refine ⟨hmem, ?_, ?_, fun _ hlt => hblock hlt⟩
    · rw [hmaxeq, haddr]
    · rw [hmaxeq]; exact hmapped
  · -- No direct page at all: the run is the one page behind the start page.
    have hr : r = firstDirect srcAddr := by omega
    have hmaxeq : max (firstDirect srcAddr) (directEnd srcAddr size) = firstDirect srcAddr := by omega
    rw [hinv.last_done hge]
    subst hr
    refine ⟨hinv.memory, ?_, ?_, fun hle _ => ?_⟩
    · rw [hmaxeq, hinv.curMappedAddr]
    · rw [hmaxeq]
      exact hinv.mapped
    · have heq : directEnd srcAddr size = firstDirect srcAddr := by omega
      have hhead := hinv.run 0 (by omega)
      rw [Nat.add_zero, Nat.zero_mul] at hhead
      rw [heq, hhead]; exact (BitVec.add_zero _).symm

theorem MapDone.endPage (h : MapDone srcTable srcAddr size resources table memory s)
    (hranges : IpcRanges srcTable srcAddr size resources) (hsize : 0 < size) :
    (hasEndPage srcAddr size = true → resources.endPartialPage ≠ 0) →
    Mapped table (if hasEndPage srcAddr size then
        mapEndPage backingBase fillVal srcAddr size send resources.endPartialPage s else s).table
      resources.dstAddr (bufferPages srcAddr size) (serverPage srcTable srcAddr size resources) ∧
    (if hasEndPage srcAddr size then
        mapEndPage backingBase fillVal srcAddr size send resources.endPartialPage s else s).memory =
      if hasEndPage srcAddr size then
        fillEndPage memory resources.endPartialPage
          (physical srcTable (alignedSrcStart srcAddr + directEnd srcAddr size * 0x1000)) fillVal
          srcAddr size send
      else memory := by
  have hbounds := @directEnd_bounds srcAddr size hsize
  have hle := firstDirect_le_one srcAddr
  intro hpage
  cases hhas : hasEndPage srcAddr size with
  | true =>
    obtain ⟨hlt, hor⟩ := hasEndPage_iff.mp hhas
    have hne := hpage hhas
    clear hpage
    have hmaxeq : max (firstDirect srcAddr) (directEnd srcAddr size) = directEnd srcAddr size := by
      clear hne
      omega
    have hpages : directEnd srcAddr size + 1 = bufferPages srcAddr size := by
      clear hne
      omega
    have hmapped := h.mapped
    have haddr := h.curMappedAddr
    rw [hmaxeq] at hmapped haddr
    have hmap := @Mapped.map backingBase table s.table _ resources.endPartialPage _ _ 1 hmapped
      hranges.dstAligned hne fun j hj => by
        have hj0 : j = 0 := Nat.lt_one_iff.mp hj
        have hfirst : firstDirect srcAddr ≤ directEnd srcAddr size := hmaxeq ▸ le_max_left _ _
        rw [hj0, Nat.add_zero, serverPage, if_neg (Nat.not_lt.mpr hfirst), if_neg (lt_irrefl _)]
        exact (BitVec.add_zero _).symm
    have hblock := h.curBlockAddr (hmaxeq ▸ le_max_left _ _) hlt
    simp only [if_true]
    refine ⟨?_, ?_⟩
    · show Mapped table (mapMemoryRegion backingBase s.table s.curMappedAddr 0x1000
        resources.endPartialPage) _ _ _
      rw [haddr, ← hpages]
      exact hmap
    · show fillEndPage s.memory resources.endPartialPage s.curBlockAddr fillVal srcAddr size send = _
      rw [h.memory, hblock]
  | false =>
    have hnot : ¬ (directEnd srcAddr size < bufferPages srcAddr size ∧
        (0 < directEnd srcAddr size ∨ firstDirect srcAddr = 0)) := by
      rw [← hasEndPage_iff, hhas]; exact Bool.false_ne_true
    clear hpage
    have hpages : max (firstDirect srcAddr) (directEnd srcAddr size) = bufferPages srcAddr size := by
      omega
    have hmapped := h.mapped
    rw [hpages] at hmapped
    simp only [Bool.false_eq_true, if_false]; exact ⟨hmapped, h.memory⟩

end Mapping

/-! ## The bytes -/

section Served

variable {backingBase : Pointer} {srcTable table table' : PageTable} {fillVal : Byte}
  {srcAddr size k j : Nat} {send : Bool} {resources : IpcResources} {memory : Memory}

theorem clientPage_aligned (hranges : IpcRanges srcTable srcAddr size resources)
    (hk : k < bufferPages srcAddr size) :
    Aligned (physical srcTable (alignedSrcStart srcAddr + k * 0x1000)) := by
  have hlt : k * 0x1000 < alignedSrcSize srcAddr size := by
    rw [alignedSrcSize_eq]; omega
  have haligned := hranges.mapped.aligned _ hlt
  have hstart := alignedSrcStart_mod srcAddr
  unfold Aligned at haligned ⊢
  rw [physical, BitVec.toNat_add, BitVec.toNat_ofNat]
  omega

section

variable (hranges : IpcRanges srcTable srcAddr size resources) (hsize : 0 < size)
include hranges hsize

end

theorem Mapped.byte (h : Mapped table table' resources.dstAddr (bufferPages srcAddr size)
      (serverPage srcTable srcAddr size resources))
    (hranges : IpcRanges srcTable srcAddr size resources) (hk : k < bufferPages srcAddr size)
    (hj : j < 0x1000) :
    physical table' (resources.dstAddr + (k * 0x1000 + j)) =
      serverPage srcTable srcAddr size resources k + BitVec.ofNat 64 j := by
  rw [physical_page hranges.dstAligned hj, h.pages k hk]

end Served

end Suyu.Kernel.KPageTableBase
