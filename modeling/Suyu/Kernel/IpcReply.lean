import Mathlib
import Suyu.Kernel.IpcServer
import Suyu.Kernel.MemoryBlock

/-
  `ProcessSendMessageReceiveMapping`: the reply to a request writes a buffer back.

  1. **Program** - the pages that the buffer covers whole are the client's own, so that the server has
     written them already.  What is left is at most two FRAGMENTS, one at the start and one at the end;
     they are found by comparing four aligned addresses, and each is one `CopyMemoryFromUserToLinear`.
     Addresses and sizes are `u64`.

  2. **Specification (`WritesBack`)** - after a success the client reads what the server reads, at every
     byte of the buffer, and no other byte of the client is changed; no copy of zero or of a wrapped
     length is asked for.

  3. **The crux (`covered_iff`)** - a byte is in a fragment if and only if the buffer does not cover its
     page.  So the fragments read fresh pages of the server, which no copy writes, and everything else is
     shared.
-/

namespace Suyu.Kernel

namespace KMemoryState
def FlagCanUseIpc : BitVec 32 := 1#32 <<< 10
def FlagCanUseNonDeviceIpc : BitVec 32 := 1#32 <<< 11
def FlagCanUseNonSecureIpc : BitVec 32 := 1#32 <<< 12
def Ipc : BitVec 32 := 0x045C3C0A#32
def NonSecureIpc : BitVec 32 := 0x045C3811#32
def NonDeviceIpc : BitVec 32 := 0x044C2812#32
end KMemoryState

namespace KPageTableBase

open Core.Memory (PageTable Pointer Byte Aligned)

/-! ## The program -/

/-- `GetMapAliasTestStateAndAttributeMask`; `none` is `ResultInvalidCombination`. -/
def getMapAliasTestStateAndAttributeMask (state : BitVec 32) : Option (BitVec 32 × BitVec 8) :=
  if state = KMemoryState.Ipc then
    some (KMemoryState.FlagCanUseIpc,
      KMemoryAttribute.Uncached ||| KMemoryAttribute.DeviceShared ||| KMemoryAttribute.Locked)
  else if state = KMemoryState.NonSecureIpc then
    some (KMemoryState.FlagCanUseNonSecureIpc, KMemoryAttribute.Uncached ||| KMemoryAttribute.Locked)
  else if state = KMemoryState.NonDeviceIpc then
    some (KMemoryState.FlagCanUseNonDeviceIpc, KMemoryAttribute.Uncached ||| KMemoryAttribute.Locked)
  else none

/-- The arguments of `CopyMemoryFromUserToLinear`. -/
structure CopyRequest where
  dstAddr : Nat
  size : Nat
  testState : BitVec 32
  testPerm : BitVec 8
  testAttrMask : BitVec 8
  srcAddr : Nat

def u64 (value : Nat) : Nat := value % 2 ^ 64

/-- A difference of two `u64`. -/
def u64Sub (a b : Nat) : Nat := u64 (a + 2 ^ 64 - b)

section Program

variable (clientAddress serverAddress size : Nat) (testState : BitVec 32) (testAttrMask : BitVec 8)

def alignedDstStart : Nat := alignDown clientAddress 0x1000

def alignedDstEnd : Nat := u64 (alignUp (u64 (clientAddress + size)) 0x1000)

def mappingDstStart : Nat := u64 (alignUp clientAddress 0x1000)

def mappingDstEnd : Nat := alignDown (u64 (clientAddress + size)) 0x1000

def mappingReplyEnd : Nat := alignDown (u64 (serverAddress + size)) 0x1000

/-- `If the start of the buffer is unaligned, handle that.` -/
def startFragment : List CopyRequest :=
  if alignedDstStart clientAddress ≠ mappingDstStart clientAddress then
    let copySize := min size (u64Sub (mappingDstStart clientAddress) clientAddress)
    [⟨clientAddress, copySize, testState, KMemoryPermission.UserReadWrite, testAttrMask, serverAddress⟩]
  else []

/-- `If the end of the buffer is unaligned, handle that.` -/
def endFragment : List CopyRequest :=
  if mappingDstEnd clientAddress size < alignedDstEnd clientAddress size ∧
      (alignedDstStart clientAddress = mappingDstStart clientAddress ∨
        alignedDstStart clientAddress < mappingDstEnd clientAddress size) then
    let copySize := u64Sub (u64 (clientAddress + size)) (mappingDstEnd clientAddress size)
    [⟨mappingDstEnd clientAddress size, copySize, testState, KMemoryPermission.UserReadWrite,
      testAttrMask, mappingReplyEnd serverAddress size⟩]
  else []

/-- The copies, in order. -/
def replyCopies : List CopyRequest :=
  startFragment clientAddress serverAddress size testState testAttrMask ++
    endFragment clientAddress serverAddress size testState testAttrMask

/-- `ProcessSendMessageReceiveMapping`; `copy` is `CopyMemoryFromUserToLinear` into the client, and
    `none` is an error. -/
def processSendMessageReceiveMapping (copy : Memory → CopyRequest → Option Memory)
    (srcState : BitVec 32) (memory : Memory) : Option Memory :=
  if size = 0 then some memory
  else
    match getMapAliasTestStateAndAttributeMask srcState with
    | none => none
    | some (testState, testAttrMask) =>
        (replyCopies clientAddress serverAddress size testState testAttrMask).foldlM copy memory

end Program

/-! ## Specification -/

/-- The page of byte `i` of the buffer is covered whole. -/
def FullByte (addr size i : Nat) : Prop :=
  addr ≤ (addr + i) / 0x1000 * 0x1000 ∧ (addr + i) / 0x1000 * 0x1000 + 0x1000 ≤ addr + size

/-- The table maps this address. -/
def Maps (table : PageTable) (addr : Nat) : Prop :=
  addr / 0x1000 < numEntries table ∧ table.backingAddr (addr / 0x1000) ≠ 0

section Spec

variable (clientTable serverTable : PageTable) (clientAddress serverAddress size : Nat)

/-- How a server has the buffer of a client: both ranges are in address spaces of at most 39 bits, whole
    pages are the same pages, and the others are no pages of the buffer. -/
structure SharedBuffer : Prop where
  offset : serverAddress % 0x1000 = clientAddress % 0x1000
  clientEnd : clientAddress + size ≤ 2 ^ 39
  serverEnd : serverAddress + size ≤ 2 ^ 39
  mapped : ∀ i < size, Maps clientTable (clientAddress + i)
  shared : ∀ i < size, FullByte clientAddress size i →
    physical serverTable (serverAddress + i) = physical clientTable (clientAddress + i)
  separate : ∀ i < size, ¬ FullByte clientAddress size i → ∀ j < size,
    physical clientTable (clientAddress + j) ≠ physical serverTable (serverAddress + i)

/-- A copy that succeeds puts the server's bytes where it should and changes nothing else; asked of
    copies inside the buffer and inside one page only. -/
def CopiesExactly (copy : Memory → CopyRequest → Option Memory) : Prop :=
  ∀ memory (r : CopyRequest) memory', 0 < r.size → clientAddress ≤ r.dstAddr →
    r.dstAddr + r.size ≤ clientAddress + size → r.dstAddr % 0x1000 + r.size ≤ 0x1000 →
    copy memory r = some memory' →
    (∀ x, Maps clientTable x → memory' (physical clientTable x) =
      if r.dstAddr ≤ x ∧ x < r.dstAddr + r.size
      then memory (physical serverTable (r.srcAddr + (x - r.dstAddr)))
      else memory (physical clientTable x)) ∧
    ∀ q, (∀ i < r.size, physical clientTable (r.dstAddr + i) ≠ q) → memory' q = memory q

/-- What a reply has done. -/
structure WritesBack (memory memory' : Memory) : Prop where
  equal : ∀ i < size, memory' (physical clientTable (clientAddress + i)) =
    memory' (physical serverTable (serverAddress + i))
  server : ∀ i < size, memory' (physical serverTable (serverAddress + i)) =
    memory (physical serverTable (serverAddress + i))
  others : ∀ x, Maps clientTable x → (x < clientAddress ∨ clientAddress + size ≤ x) →
    memory' (physical clientTable x) = memory (physical clientTable x)

/-- A copy of bytes of the buffer, to where they belong, whose length is neither zero nor wrapped. -/
structure ProperCopy (r : CopyRequest) : Prop where
  positive : 0 < r.size
  first : clientAddress ≤ r.dstAddr
  last : r.dstAddr + r.size ≤ clientAddress + size
  source : r.srcAddr = serverAddress + (r.dstAddr - clientAddress)
  page : r.dstAddr % 0x1000 + r.size ≤ 0x1000

end Spec

/-! ## The fragments -/

section Fragments

variable {clientTable serverTable : PageTable} {clientAddress serverAddress size : Nat}
  {testState : BitVec 32} {testAttrMask : BitVec 8} {r : CopyRequest}

theorem u64_eq {value : Nat} (h : value < 2 ^ 64) : u64 value = value := Nat.mod_eq_of_lt h

theorem u64Sub_eq {a b : Nat} (h : b ≤ a) (ha : a < 2 ^ 64) : u64Sub a b = a - b := by
  unfold u64Sub u64
  rw [show a + 2 ^ 64 - b = (a - b) + 2 ^ 64 by omega, Nat.add_mod_right]
  exact Nat.mod_eq_of_lt (by omega)

theorem alignUp_page (value : Nat) : alignUp value 0x1000 = (value + 0xFFF) / 0x1000 * 0x1000 := by
  unfold alignUp
  split <;> omega

theorem alignDown_page (value : Nat) : alignDown value 0x1000 = value / 0x1000 * 0x1000 := by
  unfold alignDown; omega

theorem mem_startFragment (hend : clientAddress + size ≤ 2 ^ 39) :
    r ∈ startFragment clientAddress serverAddress size testState testAttrMask ↔
      clientAddress % 0x1000 ≠ 0 ∧ r = ⟨clientAddress, min size (0x1000 - clientAddress % 0x1000),
        testState, KMemoryPermission.UserReadWrite, testAttrMask, serverAddress⟩ := by
  have hstart : mappingDstStart clientAddress = (clientAddress + 0xFFF) / 0x1000 * 0x1000 := by
    unfold mappingDstStart
    rw [alignUp_page, u64_eq (by omega)]
  unfold startFragment alignedDstStart
  rw [hstart, alignDown_page]
  by_cases hoff : clientAddress % 0x1000 = 0
  · rw [if_neg (by omega)]
    exact ⟨fun h => absurd h List.not_mem_nil, fun h => absurd hoff h.1⟩
  · rw [if_pos (by omega), u64Sub_eq (by omega) (by omega), List.mem_singleton]
    rw [show (clientAddress + 0xFFF) / 0x1000 * 0x1000 - clientAddress =
      0x1000 - clientAddress % 0x1000 by omega]
    exact ⟨fun h => ⟨hoff, h⟩, fun h => h.2⟩

theorem mem_endFragment (hend : clientAddress + size ≤ 2 ^ 39) (hserver : serverAddress + size ≤ 2 ^ 39) :
    r ∈ endFragment clientAddress serverAddress size testState testAttrMask ↔
      ((clientAddress + size) % 0x1000 ≠ 0 ∧ (clientAddress % 0x1000 = 0 ∨
        clientAddress / 0x1000 < (clientAddress + size) / 0x1000)) ∧
      r = ⟨(clientAddress + size) / 0x1000 * 0x1000, (clientAddress + size) % 0x1000, testState,
        KMemoryPermission.UserReadWrite, testAttrMask, (serverAddress + size) / 0x1000 * 0x1000⟩ := by
  have hstart : mappingDstStart clientAddress = (clientAddress + 0xFFF) / 0x1000 * 0x1000 := by
    unfold mappingDstStart
    rw [alignUp_page, u64_eq (by omega)]
  have hlast : mappingDstEnd clientAddress size = (clientAddress + size) / 0x1000 * 0x1000 := by
    unfold mappingDstEnd
    rw [u64_eq (by omega), alignDown_page]
  have hreply : mappingReplyEnd serverAddress size = (serverAddress + size) / 0x1000 * 0x1000 := by
    unfold mappingReplyEnd
    rw [u64_eq (by omega), alignDown_page]
  have haligned : alignedDstEnd clientAddress size =
      (clientAddress + size + 0xFFF) / 0x1000 * 0x1000 := by
    unfold alignedDstEnd
    rw [u64_eq (show clientAddress + size < 2 ^ 64 by omega), alignUp_page, u64_eq (by omega)]
  unfold endFragment alignedDstStart
  rw [hstart, hlast, hreply, haligned, alignDown_page, u64_eq (by omega), u64Sub_eq (by omega) (by omega)]
  rw [show clientAddress + size - (clientAddress + size) / 0x1000 * 0x1000 =
    (clientAddress + size) % 0x1000 by omega]
  by_cases hcond : (clientAddress + size) % 0x1000 ≠ 0 ∧ (clientAddress % 0x1000 = 0 ∨
      clientAddress / 0x1000 < (clientAddress + size) / 0x1000)
  · rw [if_pos (by omega), List.mem_singleton]
    exact ⟨fun h => ⟨hcond, h⟩, fun h => h.2⟩
  · rw [if_neg (by omega)]; exact ⟨fun h => absurd h List.not_mem_nil, fun h => absurd h.1 hcond⟩

theorem mem_replyCopies : r ∈ replyCopies clientAddress serverAddress size testState testAttrMask ↔
    r ∈ startFragment clientAddress serverAddress size testState testAttrMask ∨
      r ∈ endFragment clientAddress serverAddress size testState testAttrMask :=
  List.mem_append

theorem properCopy_of_mem (h : SharedBuffer clientTable serverTable clientAddress serverAddress size)
    (hsize : 0 < size)
    (hr : r ∈ replyCopies clientAddress serverAddress size testState testAttrMask) :
    ProperCopy clientAddress serverAddress size r := by
  have hoffset := h.offset
  rcases mem_replyCopies.mp hr with hr | hr
  · obtain ⟨hoff, rfl⟩ := (mem_startFragment h.clientEnd).mp hr
    constructor <;> dsimp only <;> omega
  · obtain ⟨⟨hoff, hcond⟩, rfl⟩ := (mem_endFragment h.clientEnd h.serverEnd).mp hr
    constructor <;> dsimp only <;> omega

/-- A request copies the byte at this address. -/
def CopyRequest.covers (r : CopyRequest) (addr : Nat) : Prop :=
  r.dstAddr ≤ addr ∧ addr < r.dstAddr + r.size

theorem covered_iff (h : SharedBuffer clientTable serverTable clientAddress serverAddress size)
    {i : Nat} (hi : i < size) :
    (∃ r ∈ replyCopies clientAddress serverAddress size testState testAttrMask,
      r.covers (clientAddress + i)) ↔ ¬ FullByte clientAddress size i := by
  unfold FullByte CopyRequest.covers
  constructor
  · rintro ⟨r, hr, hcovers⟩
    rcases mem_replyCopies.mp hr with hr | hr
    · obtain ⟨hoff, rfl⟩ := (mem_startFragment h.clientEnd).mp hr
      dsimp only at hcovers
      omega
    · obtain ⟨⟨hoff, hcond⟩, rfl⟩ := (mem_endFragment h.clientEnd h.serverEnd).mp hr
      dsimp only at hcovers; omega
  · intro hpart
    by_cases hfirst : clientAddress % 0x1000 ≠ 0 ∧ i < 0x1000 - clientAddress % 0x1000
    · refine ⟨_, mem_replyCopies.mpr (Or.inl ((mem_startFragment h.clientEnd).mpr
        ⟨hfirst.1, rfl⟩)), ?_⟩
      dsimp only
      omega
    · -- the byte is in the last page, which begins behind the start of the buffer or with it
      refine ⟨_, mem_replyCopies.mpr (Or.inr ((mem_endFragment h.clientEnd h.serverEnd).mpr
        ⟨⟨?_, ?_⟩, rfl⟩)), ?_⟩
      · omega
      · omega
      · dsimp only; omega

/-! ## Copying them -/

/-- What some copies of the buffer have done: the bytes they cover hold what the server has, the others
    what they held, and the server's own pages are as they were. -/
structure Copied (clientTable serverTable : PageTable) (clientAddress serverAddress size : Nat)
    (requests : List CopyRequest) (memory memory' : Memory) : Prop where
  covered : ∀ x, Maps clientTable x → (∃ r ∈ requests, r.covers x) →
    memory' (physical clientTable x) =
      memory (physical serverTable (serverAddress + (x - clientAddress)))
  uncovered : ∀ x, Maps clientTable x → (¬ ∃ r ∈ requests, r.covers x) →
    memory' (physical clientTable x) = memory (physical clientTable x)
  server : ∀ i < size, ¬ FullByte clientAddress size i →
    memory' (physical serverTable (serverAddress + i)) =
      memory (physical serverTable (serverAddress + i))

variable {copy : Memory → CopyRequest → Option Memory} {requests : List CopyRequest}
  {memory memory' : Memory}

theorem server_unchanged (h : SharedBuffer clientTable serverTable clientAddress serverAddress size)
    (hr : ProperCopy clientAddress serverAddress size r)
    (hframe : ∀ q, (∀ i < r.size, physical clientTable (r.dstAddr + i) ≠ q) → memory' q = memory q)
    {i : Nat} (hi : i < size) (hpart : ¬ FullByte clientAddress size i) :
    memory' (physical serverTable (serverAddress + i)) =
      memory (physical serverTable (serverAddress + i)) := by
  have hfirst := hr.first
  have hlast := hr.last
  apply hframe
  intro j hj
  have hsep := h.separate i hi hpart (r.dstAddr - clientAddress + j) (by omega)
  rwa [show clientAddress + (r.dstAddr - clientAddress + j) = r.dstAddr + j by omega] at hsep

theorem copied_of_foldlM (h : SharedBuffer clientTable serverTable clientAddress serverAddress size)
    (hcopy : CopiesExactly clientTable serverTable clientAddress size copy)
    (hproper : ∀ r ∈ requests, ProperCopy clientAddress serverAddress size r)
    (hpart : ∀ r ∈ requests, ∀ i < size, r.covers (clientAddress + i) →
      ¬ FullByte clientAddress size i) :
    ∀ {memory}, requests.foldlM copy memory = some memory' →
      Copied clientTable serverTable clientAddress serverAddress size requests memory memory' := by
  induction requests with
  | nil =>
    intro memory hrun
    obtain rfl : memory = memory' := Option.some.inj hrun
    exact ⟨fun x _ ⟨r, hr, _⟩ => absurd hr List.not_mem_nil, fun _ _ _ => rfl, fun _ _ _ => rfl⟩
  | cons r rest ih =>
    intro memory hrun
    rw [List.foldlM_cons] at hrun
    obtain ⟨memory₁, hfirst, hrest⟩ := Option.bind_eq_some_iff.mp hrun
    have hr := hproper r List.mem_cons_self
    obtain ⟨hbytes, hframe⟩ := hcopy memory r memory₁ hr.positive hr.first hr.last hr.page hfirst
    have hserver := fun i (hi : i < size) hfull => server_unchanged h hr hframe (i := i) hi hfull
    have hnext := ih (fun r' hr' => hproper r' (List.mem_cons_of_mem _ hr'))
      (fun r' hr' => hpart r' (List.mem_cons_of_mem _ hr')) hrest
    refine ⟨fun x hx hcov => ?_, fun x hx huncov => ?_, fun i hi hfull => ?_⟩
    · by_cases hlater : ∃ r' ∈ rest, r'.covers x
      · rw [hnext.covered x hx hlater]
        obtain ⟨r', hr', hcovers⟩ := hlater
        have hr'' := hproper r' (List.mem_cons_of_mem _ hr')
        have hlow := hr''.first
        have hhigh := hr''.last
        obtain ⟨hle, hlt⟩ := hcovers
        apply hserver (x - clientAddress) (by omega)
        apply hpart r' (List.mem_cons_of_mem _ hr') (x - clientAddress) (by omega)
        rw [show clientAddress + (x - clientAddress) = x by omega]
        exact ⟨hle, hlt⟩
      · rw [hnext.uncovered x hx hlater, hbytes x hx]
        obtain ⟨r', hr', hcovers⟩ := hcov
        rcases List.mem_cons.mp hr' with rfl | hr'
        · have hlow := hr.first
          obtain ⟨hle, hlt⟩ := hcovers
          rw [if_pos ⟨hle, hlt⟩, hr.source]
          congr 2
          omega
        · exact absurd ⟨r', hr', hcovers⟩ hlater
    · rw [hnext.uncovered x hx fun ⟨r', hr', hcov⟩ =>
        huncov ⟨r', List.mem_cons_of_mem _ hr', hcov⟩, hbytes x hx, if_neg]
      exact fun hcov => huncov ⟨r, List.mem_cons_self, hcov⟩
    · rw [hnext.server i hi hfull, hserver i hi hfull]

/-- A REPLY WRITES THE BUFFER BACK, and asks for proper copies only. -/
theorem reply_exact (hsize : 0 < size)
    (h : SharedBuffer clientTable serverTable clientAddress serverAddress size)
    (hcopy : CopiesExactly clientTable serverTable clientAddress size copy) :
    (∀ testState testAttrMask, ∀ r ∈ replyCopies clientAddress serverAddress size testState testAttrMask,
      ProperCopy clientAddress serverAddress size r) ∧
    ∀ srcState memory memory', processSendMessageReceiveMapping clientAddress serverAddress size copy
        srcState memory = some memory' →
      WritesBack clientTable serverTable clientAddress serverAddress size memory memory' := by
  refine ⟨fun _ _ r hr => properCopy_of_mem h hsize hr, fun srcState memory memory' hok => ?_⟩
  unfold processSendMessageReceiveMapping at hok
  rw [if_neg (Nat.pos_iff_ne_zero.mp hsize)] at hok
  split at hok
  · cases hok
  · next testState testAttrMask _ =>
    have hcopied := copied_of_foldlM h hcopy (fun r hr => properCopy_of_mem h hsize hr)
      (fun r hr i hi hcov => (covered_iff h hi).mp ⟨r, hr, hcov⟩) hok
    have hback : ∀ i < size, memory' (physical clientTable (clientAddress + i)) =
        memory' (physical serverTable (serverAddress + i)) ∧
        memory' (physical serverTable (serverAddress + i)) =
          memory (physical serverTable (serverAddress + i)) := by
      intro i hi
      by_cases hfull : FullByte clientAddress size i
      · -- a shared byte, which no fragment covers
        have huncov : ¬ ∃ r ∈ replyCopies clientAddress serverAddress size testState testAttrMask,
            r.covers (clientAddress + i) := fun hcov => (covered_iff h hi).mp hcov hfull
        rw [h.shared i hi hfull]
        exact ⟨rfl, hcopied.uncovered _ (h.mapped i hi) huncov⟩
      · have hcov : ∃ r ∈ replyCopies clientAddress serverAddress size testState testAttrMask,
            r.covers (clientAddress + i) := (covered_iff h hi).mpr hfull
        have hclient := hcopied.covered _ (h.mapped i hi) hcov
        rw [Nat.add_sub_cancel_left] at hclient
        rw [hclient, hcopied.server i hi hfull]; exact ⟨rfl, rfl⟩
    refine ⟨fun i hi => (hback i hi).1, fun i hi => (hback i hi).2, fun x hx hout => ?_⟩
    apply hcopied.uncovered x hx
    rintro ⟨r, hr, hle, hlt⟩
    have hproper := properCopy_of_mem h hsize hr
    have hfirst := hproper.first
    have hlast := hproper.last
    omega

end Fragments

/-! ## The mapping and the copies of this code -/

section Connection

variable {clientTable table table' : PageTable} {fillVal : Byte} {srcAddr size outAddr : Nat}
  {send : Bool} {resources : IpcResources} {memory memory' : Memory}

/-- Byte `i` of the buffer is byte `j` of its page `k`, for the client and for the server. -/
theorem exists_bufferByte (srcAddr dst : Nat) {i : Nat} (hi : i < size) :
    ∃ k < bufferPages srcAddr size, ∃ j < 0x1000,
      srcAddr + i = alignedSrcStart srcAddr + (k * 0x1000 + j) ∧
      dst + srcAddr % 0x1000 + i = dst + (k * 0x1000 + j) ∧
      (FullByte srcAddr size i ↔ FullPage srcAddr size k) := by
  have hstart := alignedSrcStart_eq srcAddr
  have hend := alignedSrcEnd_eq srcAddr size
  unfold alignedSrcEnd alignUp at hend
  refine ⟨(srcAddr + i) / 0x1000 - srcAddr / 0x1000, ?_, (srcAddr + i) % 0x1000,
    Nat.mod_lt _ (by decide), by omega, by omega, ?_⟩
  · split at hend <;> omega
  · unfold FullByte FullPage; omega

/-- What `SetupForIpcServer` maps is such a buffer. -/
theorem SharedBuffer.of_servesBuffer (hranges : IpcRanges clientTable srcAddr size resources)
    (hserves : ServesBuffer clientTable fillVal srcAddr size send resources table table' memory
      memory' outAddr) (hclient : srcAddr + size ≤ 2 ^ 39) (hserver : outAddr + size ≤ 2 ^ 39) :
    SharedBuffer clientTable table' srcAddr outAddr size := by
  have hdst := hranges.dstAligned
  have haligned := alignedSrcStart_mod srcAddr
  rw [hserves.address] at hserver ⊢
  refine ⟨by omega, hclient, hserver, fun i hi => ?_, fun i hi hfull => ?_,
    fun i hi hpart j hj heq => ?_⟩
  · obtain ⟨k, hk, b, hb, hbyte, -, -⟩ := exists_bufferByte srcAddr 0 hi
    have hlt : k * 0x1000 + b < alignedSrcSize srcAddr size := by
      rw [alignedSrcSize_eq]; omega
    rw [hbyte]
    exact ⟨hranges.mapped.entries _ hlt, hranges.mapped.mapped _ hlt⟩
  · obtain ⟨k, hk, b, hb, hbyte, hplace, hiff⟩ := exists_bufferByte srcAddr resources.dstAddr hi
    rw [hbyte, hplace, physical_page hdst hb, physical_page haligned hb,
      hserves.direct k hk (hiff.mp hfull)]
  · -- a fresh page is no page of the client
    obtain ⟨k, hk, b, hb, -, hplace, hiff⟩ := exists_bufferByte srcAddr resources.dstAddr hi
    obtain ⟨k', hk', b', hb', hbyte', -, -⟩ := exists_bufferByte srcAddr 0 hj
    rw [hbyte', hplace, physical_page hdst hb, physical_page haligned hb',
      (hserves.fresh k hk fun hfull => hpart (hiff.mpr hfull)).2] at heq
    have hpage := clientPage_aligned hranges hk'
    split at heq
    · exact pages_apart hpage hranges.startAligned (hranges.startFresh k' hk') hb' hb heq
    · exact pages_apart hpage hranges.endAligned (hranges.endFresh k' hk') hb' hb heq

/-- No two addresses that the table maps are the same byte. -/
def MapsApart (table : PageTable) : Prop :=
  ∀ x y, Maps table x → Maps table y → physical table x = physical table y → x = y

/-- `CopyMemoryFromUserToLinear` into the client, with the server as the current process. -/
def userToLinear (isLinear : Pointer → Bool) (clientTable serverTable : PageTable) (memory : Memory)
    (r : CopyRequest) : Option Memory :=
  copyMemoryFromUserToLinear isLinear clientTable memory r.dstAddr r.size
    fun i => memory (physical serverTable (r.srcAddr + i))

theorem userToLinear_exact {isLinear : Pointer → Bool} {serverTable : PageTable}
    (hrange : MappedRange clientTable srcAddr size)
    (hlinear : LinearRange isLinear clientTable srcAddr size) (hapart : MapsApart clientTable) :
    CopiesExactly clientTable serverTable srcAddr size
      (userToLinear isLinear clientTable serverTable) := by
  intro memory r memory' hpos hfirst hlast hpage hok
  have hsub : ∀ i < r.size, r.dstAddr + i = srcAddr + (r.dstAddr - srcAddr + i) ∧
      r.dstAddr - srcAddr + i < size := by
    intro i hi; omega
  have hrange' : MappedRange clientTable r.dstAddr r.size := by
    constructor
    · intro i hi
      rw [(hsub i hi).1]
      exact hrange.entries _ (hsub i hi).2
    · intro i hi
      rw [(hsub i hi).1]
      exact hrange.mapped _ (hsub i hi).2
    · intro i hi
      rw [(hsub i hi).1]; exact hrange.aligned _ (hsub i hi).2
  have hlinear' : LinearRange isLinear clientTable r.dstAddr r.size := by
    rintro v ⟨i, hi, hv⟩; exact hlinear v ⟨_, (hsub i hi).2, by rw [hv, (hsub i hi).1]⟩
  have hmaps : ∀ i < r.size, Maps clientTable (r.dstAddr + i) := fun i hi =>
    ⟨hrange'.entries i hi, hrange'.mapped i hi⟩
  have hplaces : ∀ i < r.size,
      located clientTable r.dstAddr i = physical clientTable (r.dstAddr + i) := by
    intro i hi; exact located_first (by omega)
  let src : Nat → Byte := fun i => memory (physical serverTable (r.srcAddr + i))
  have hwritten : copyToLinear (performCopyFromUser isLinear src) clientTable memory r.dstAddr r.size =
      some (writeAll memory (located clientTable r.dstAddr) src r.size) :=
    copyToLinear_eq performs_user hrange' hlinear' hpos
  rw [writeAll_congr hplaces] at hwritten
  obtain rfl := Option.some.inj (hok.symm.trans hwritten)
  refine ⟨fun x hx => ?_, fun q hq => writeAll_frame hq⟩
  split
  · next hin =>
    have hi : x - r.dstAddr < r.size := by omega
    apply writeAll_last hi
    · rw [Nat.add_sub_cancel' hin.1]
    · intro j hij hj heq
      have := hapart _ _ (hmaps j hj) hx heq
      omega
  · next hout =>
    apply writeAll_frame
    intro i hi heq
    have := hapart _ _ (hmaps i hi) hx heq
    omega

end Connection

/-! ## Three pages -/

/-- Page 5 is page 2 of the client; the pages beside it are fresh. -/
def replyServerTable : PageTable :=
  ⟨fun _ => 0, fun _ => 0, fun page => if page = 5 then 0x7FFFD000 else 0xBFFFC000, 16⟩

theorem physical_scattered {v : Nat} (hv : v < 0x10000) : (physical scatteredTable v).toNat =
    (if v / 0x1000 % 2 = 0 then 0x80000000 else 0x90000000) + v := by
  have hback : scatteredTable.backingAddr (v / 0x1000) =
      if v / 0x1000 % 2 = 0 then 0x80000000 else 0x90000000 := rfl
  rw [physical, hback, BitVec.toNat_add, BitVec.toNat_ofNat]
  split
  · show (0x80000000 + v % 2 ^ 64) % 2 ^ 64 = _
    omega
  · show (0x90000000 + v % 2 ^ 64) % 2 ^ 64 = _
    omega

theorem physical_replyServer {v : Nat} (hv : v < 0x10000) : (physical replyServerTable v).toNat =
    (if v / 0x1000 = 5 then 0x7FFFD000 else 0xBFFFC000) + v := by
  have hback : replyServerTable.backingAddr (v / 0x1000) =
      if v / 0x1000 = 5 then 0x7FFFD000 else 0xBFFFC000 := rfl
  rw [physical, hback, BitVec.toNat_add, BitVec.toNat_ofNat]
  split
  · show (0x7FFFD000 + v % 2 ^ 64) % 2 ^ 64 = _
    omega
  · show (0xBFFFC000 + v % 2 ^ 64) % 2 ^ 64 = _
    omega

theorem maps_scattered {v : Nat} : Maps scatteredTable v ↔ v < 0x10000 := by
  have hentries : numEntries scatteredTable = 16 := rfl
  have hmapped : scatteredTable.backingAddr (v / 0x1000) ≠ 0 := by
    show (if v / 0x1000 % 2 = 0 then (0x80000000 : Pointer) else 0x90000000) ≠ 0
    split <;> decide
  unfold Maps
  rw [hentries]
  constructor
  · rintro ⟨hlt, -⟩
    omega
  · intro hlt; exact ⟨by omega, hmapped⟩

theorem mapsApart_scattered : MapsApart scatteredTable := by
  intro x y hx hy heq
  have htoNat := congrArg BitVec.toNat heq
  rw [maps_scattered] at hx hy
  rw [physical_scattered hx, physical_scattered hy] at htoNat
  split at htoNat <;> split at htoNat <;> omega

theorem sharedBuffer_threePages : SharedBuffer scatteredTable replyServerTable 0x1800 0x4800 0x2000 := by
  refine ⟨rfl, by decide, by decide, fun i hi => maps_scattered.mpr (by omega),
    fun i hi hfull => ?_, fun i hi hpart j hj heq => ?_⟩
  · unfold FullByte at hfull
    apply BitVec.eq_of_toNat_eq
    rw [physical_scattered (by omega), physical_replyServer (by omega), if_pos (by omega),
      if_pos (by omega)]
    omega
  · unfold FullByte at hpart
    have htoNat := congrArg BitVec.toNat heq
    rw [physical_scattered (by omega), physical_replyServer (by omega),
      if_neg (show ¬ (0x4800 + i) / 0x1000 = 5 by omega)] at htoNat
    split at htoNat <;> omega

/-- A whole page between two parts: both fragments are copied. -/
theorem reply_exact_threePages : ∃ memory',
    processSendMessageReceiveMapping 0x1800 0x4800 0x2000
      (userToLinear (fun _ => true) scatteredTable replyServerTable) KMemoryState.Ipc
      (fun p => p.setWidth 8) = some memory' ∧
    WritesBack scatteredTable replyServerTable 0x1800 0x4800 0x2000 (fun p => p.setWidth 8)
      memory' := by
  have hcopy : CopiesExactly scatteredTable replyServerTable 0x1800 0x2000
      (userToLinear (fun _ => true) scatteredTable replyServerTable) :=
    userToLinear_exact (scatteredTable_mapped (by decide)) (fun _ _ => rfl) mapsApart_scattered
  have hsome : (processSendMessageReceiveMapping 0x1800 0x4800 0x2000
      (userToLinear (fun _ => true) scatteredTable replyServerTable) KMemoryState.Ipc
      (fun p => p.setWidth 8)).isSome = true := by
    decide +kernel
  obtain ⟨memory', hok⟩ := Option.isSome_iff_exists.mp hsome
  exact ⟨memory', hok, (reply_exact (by decide) sharedBuffer_threePages hcopy).2 _ _ _ hok⟩

end KPageTableBase

end Suyu.Kernel
