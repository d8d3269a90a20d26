import Mathlib
import Suyu.Common.FlatAllocator
import Suyu.VideoCore.MemoryManager

/-
  `nvhost_as_gpu` (`nvhost_as_gpu.cpp`): the device through which an application manages the address
  space of the GPU.

  1. **Data** - two `FlatAllocator`s, of small and of big pages; the map of SPACE ALLOCATIONS, each with
     the list of the fixed mappings that were put into it; the map of MAPPINGS; the `gmmu`.

  2. **Program** - `AllocateSpace`, `FreeSpace`, `MapBufferEx`, `UnmapBuffer`.  `none` is what the
     allocators leave undefined.  The assertions only log.

  3. **nvmap** - what it says about a handle, and the address it pins it at, come with the call.  `pins`
     counts the calls of `PinHandle` less those of `UnpinHandle`.
-/

namespace Suyu.Nvdrv.NvhostAsGpu

open Common VideoCore

/-! ## Data -/

inductive NvResult where
  | success | notImplemented | badValue | insufficientMemory
  deriving DecidableEq, Repr

structure Mapping where
  handle : Nat
  ptr : Nat
  offset : Nat
  size : Nat
  fixed : Bool
  bigPage : Bool
  sparseAlloc : Bool
  deriving DecidableEq, Repr

/-- `nvhost_as_gpu::Allocation`. -/
structure SpaceAllocation where
  size : Nat
  mappings : List Mapping
  pageSize : Nat
  sparse : Bool
  bigPages : Bool
  deriving DecidableEq, Repr

/-- `Allocation{}`. -/
def SpaceAllocation.default : SpaceAllocation := ⟨0, [], 0, false, false⟩

/-- What `MapBufferEx` reads of a handle of `nvmap`. -/
structure HandleInfo where
  origSize : Nat
  align : Nat
  deriving DecidableEq, Repr

/-- `VM::SUYU_PAGESIZE`, `VM::PAGE_SIZE_BITS`. -/
def suyuPageSize : Nat := 0x1000
def pageSizeBits : Nat := 12

/-- `page_size` and `page_size_bits` of the two kinds of pages. -/
def sizeOfPage (config : SpaceConfig) (big : Bool) : Nat :=
  if big then config.bigPageSize else suyuPageSize

def pageBitsOf (config : SpaceConfig) (big : Bool) : Nat :=
  if big then config.bigPageBits else pageSizeBits

/-- A number of the allocators, of 32 bits, for an address or a size. -/
def pageOf (config : SpaceConfig) (big : Bool) (x : Nat) : Nat :=
  x / 2 ^ pageBitsOf config big % 2 ^ 32

/-- `Common::AlignUp` on `u64`. -/
def alignUp (value size : Nat) : Nat :=
  if value % size = 0 then value else (value - value % size + size) % 2 ^ 64

/-- An initialised `nvhost_as_gpu`. -/
structure AsGpu where
  config : SpaceConfig
  smallPageAllocator : FlatAllocator
  bigPageAllocator : FlatAllocator
  allocationMap : AList fun _ : Nat => SpaceAllocation
  mappingMap : AList fun _ : Nat => Mapping
  gmmu : MemoryManager
  pins : Nat → Int

namespace AsGpu

/-- `vm.big_page_size`. -/
def bigPageSize (s : AsGpu) : Nat := s.config.bigPageSize

def allocator (s : AsGpu) (big : Bool) : FlatAllocator :=
  if big then s.bigPageAllocator else s.smallPageAllocator

def setAllocator (s : AsGpu) (big : Bool) (a : FlatAllocator) : AsGpu :=
  if big then { s with bigPageAllocator := a } else { s with smallPageAllocator := a }

/-- `AllocAsEx`: the state it leaves.  Page numbers are `u32`. -/
def allocAsEx (config : SpaceConfig) (vaRangeStart vaRangeSplit vaRangeEnd : Nat) : AsGpu where
  config := config
  smallPageAllocator := .init (vaRangeStart / 2 ^ pageSizeBits % 2 ^ 32)
    (vaRangeSplit / 2 ^ pageSizeBits % 2 ^ 32)
  bigPageAllocator := .init (vaRangeSplit / 2 ^ config.bigPageBits % 2 ^ 32)
    ((vaRangeEnd - vaRangeSplit) / 2 ^ config.bigPageBits % 2 ^ 32)
  allocationMap := ∅
  mappingMap := ∅
  gmmu := .init
  pins := fun _ => 0

/-! ## AllocateSpace -/

/-- The end of `AllocateSpace`, behind the allocator. -/
def recordSpace (dm : DeviceMemory) (s : AsGpu) (offset pages pageSize : Nat) (sparse : Bool) : AsGpu :=
  let size := pages * pageSize
  { s with
    gmmu := if sparse then s.gmmu.mapSparse s.config dm offset size true else s.gmmu
    allocationMap := s.allocationMap.insert offset
      ⟨size, [], pageSize, sparse, decide (pageSize ≠ suyuPageSize)⟩ }

def allocateSpace (dm : DeviceMemory) (s : AsGpu) (pages pageSize : Nat) (fixed sparse : Bool)
    (offset : Nat) : Option (NvResult × AsGpu) :=
  if pageSize ≠ suyuPageSize ∧ pageSize ≠ s.bigPageSize then some (.badValue, s)
  else if pageSize ≠ s.bigPageSize ∧ sparse then some (.notImplemented, s)
  else
    let big := decide (pageSize ≠ suyuPageSize)
    if fixed then
      ((s.allocator big).allocateFixed (pageOf s.config big offset) pages).map fun a =>
        (.success, (s.setAllocator big a).recordSpace dm offset pages pageSize sparse)
    else
      ((s.allocator big).allocate 32 pages).map fun (r, a) =>
        if r * 2 ^ pageBitsOf s.config big = 0 then (.insufficientMemory, s.setAllocator big a)
        else (.success,
          (s.setAllocator big a).recordSpace dm (r * 2 ^ pageBitsOf s.config big) pages pageSize sparse)

/-! ## FreeSpace -/

/-- What is done to the `gmmu` when a mapping goes. -/
def unmapPages (dm : DeviceMemory) (s : AsGpu) (offset : Nat) (m : Mapping) : MemoryManager :=
  if m.sparseAlloc then s.gmmu.mapSparse s.config dm offset m.size m.bigPage
  else s.gmmu.unmap s.config dm offset m.size

/-- The end of `FreeMappingLocked` and of `UnmapBuffer`. -/
def dropMapping (dm : DeviceMemory) (s : AsGpu) (offset : Nat) (m : Mapping) : AsGpu :=
  { s with
    gmmu := s.unmapPages dm offset m
    pins := Function.update s.pins m.handle (s.pins m.handle - 1)
    mappingMap := s.mappingMap.erase offset }

/-- What a mapping gives back to its allocator; `size` is how its size is rounded. -/
def freePages (s : AsGpu) (m : Mapping) (size : Nat) : Option AsGpu :=
  if m.fixed then some s
  else ((s.allocator m.bigPage).free (pageOf s.config m.bigPage m.offset) (pageOf s.config m.bigPage size)).map
    (s.setAllocator m.bigPage)

/-- `FreeMappingLocked`; the inner `none` is `std::out_of_range`. -/
def freeMappingLocked (dm : DeviceMemory) (s : AsGpu) (offset : Nat) : Option (Option AsGpu) :=
  match s.mappingMap.lookup offset with
  | none => some none
  | some m =>
    (s.freePages m (alignUp m.size (sizeOfPage s.config m.bigPage))).map fun s =>
      some (s.dropMapping dm offset m)

/-- The loop of `FreeSpace`: the mappings freed so far stay freed when one of them throws. -/
def freeMappings (dm : DeviceMemory) (s : AsGpu) : List Mapping → Option (Bool × AsGpu)
  | [] => some (true, s)
  | m :: rest =>
    match s.freeMappingLocked dm m.offset with
    | none => none
    | some none => some (false, s)
    | some (some s') => freeMappings dm s' rest

/-- The end of `FreeSpace`. -/
def releaseSpace (dm : DeviceMemory) (s : AsGpu) (offset : Nat) (allocation : SpaceAllocation) :
    Option AsGpu :=
  let big := decide (allocation.pageSize ≠ suyuPageSize)
  let gmmu := if allocation.sparse then s.gmmu.unmap s.config dm offset allocation.size else s.gmmu
  ((s.allocator big).free (pageOf s.config big offset) (pageOf s.config big allocation.size)).map fun a =>
    { s.setAllocator big a with
      gmmu := gmmu
      allocationMap := s.allocationMap.erase offset }

/-- `FreeSpace`.  `allocation_map[offset]` puts an empty allocation where there is none. -/
def freeSpace (dm : DeviceMemory) (s : AsGpu) (offset pages pageSize : Nat) :
    Option (NvResult × AsGpu) :=
  let allocation := (s.allocationMap.lookup offset).getD .default
  let s := { s with allocationMap := s.allocationMap.insert offset allocation }
  if allocation.pageSize ≠ pageSize ∨ allocation.size ≠ pages * pageSize then some (.badValue, s)
  else
    match s.freeMappings dm allocation.mappings with
    | none => none
    | some (false, s') => some (.badValue, s')
    | some (true, s') => (s'.releaseSpace dm offset allocation).map fun s => (.success, s)

/-! ## MapBufferEx -/

/-- The allocation in front of `std::map::upper_bound`. -/
def predecessor (s : AsGpu) (offset : Nat) : Option (Nat × SpaceAllocation) :=
  ((s.allocationMap.entries.filter fun e => decide (e.1 ≤ offset)).argmax Sigma.fst).map
    fun e => (e.1, e.2)

/-- The arguments of `MapBufferEx`. -/
structure MapParams where
  fixed : Bool
  remap : Bool
  handle : Nat
  bufferOffset : Nat
  mappingSize : Nat
  offset : Nat
  deriving DecidableEq, Repr

/-- With the flag `Remap`. -/
def remapBuffer (dm : DeviceMemory) (s : AsGpu) (p : MapParams) : NvResult × AsGpu :=
  match s.mappingMap.lookup p.offset with
  | none => (.badValue, s)
  | some m =>
    if m.size < p.mappingSize then (.badValue, s)
    else
      let gpuAddress := (p.offset + p.bufferOffset) % 2 ^ 64
      let deviceAddress := (m.ptr + p.bufferOffset) % 2 ^ 64
      let gmmu := s.gmmu.map s.config dm gpuAddress deviceAddress p.mappingSize m.bigPage
      (.success, { s with gmmu := gmmu })

/-- A mapping goes into the map, and its pages into the `gmmu`. -/
def recordMapping (dm : DeviceMemory) (s : AsGpu) (m : Mapping) (size : Nat) : AsGpu :=
  { s with
    gmmu := s.gmmu.map s.config dm m.offset m.ptr size m.bigPage
    mappingMap := s.mappingMap.insert m.offset m }

/-- With the flag `Fixed`, the handle being pinned. -/
def mapFixed (dm : DeviceMemory) (s : AsGpu) (p : MapParams) (deviceAddress size : Nat) (big : Bool) :
    NvResult × AsGpu :=
  match s.predecessor p.offset with
  | none => (.badValue, s)
  | some (first, allocation) =>
    if (p.offset - first + size) % 2 ^ 64 > allocation.size then (.badValue, s)
    else
      let m : Mapping :=
        ⟨p.handle, deviceAddress, p.offset, size, true, allocation.bigPages && big, allocation.sparse⟩
      let allocation := { allocation with mappings := allocation.mappings ++ [m] }
      (.success,
        { s.recordMapping dm m size with allocationMap := s.allocationMap.insert first allocation })

/-- Without it. -/
def mapAnywhere (dm : DeviceMemory) (s : AsGpu) (p : MapParams) (deviceAddress size : Nat)
    (big : Bool) : Option (NvResult × AsGpu) :=
  let aligned := alignUp size (sizeOfPage s.config big)
  ((s.allocator big).allocate 32 (pageOf s.config big aligned)).map fun (r, a) =>
    let offset := r * 2 ^ pageBitsOf s.config big
    if offset = 0 then (.insufficientMemory, s.setAllocator big a)
    else (.success,
      (s.setAllocator big a).recordMapping dm
        ⟨p.handle, deviceAddress, offset, size, false, big, false⟩ aligned)

/-- `MapBufferEx`; `info` is what `GetHandle` gives, `base` what `PinHandle` gives. -/
def mapBufferEx (dm : DeviceMemory) (s : AsGpu) (p : MapParams) (info : Option HandleInfo)
    (base : Nat) : Option (NvResult × AsGpu) :=
  if p.remap then some (s.remapBuffer dm p)
  else
    match info with
    | none => some (.badValue, s)
    | some h =>
      let s := { s with pins := Function.update s.pins p.handle (s.pins p.handle + 1) }
      let deviceAddress := (base + p.bufferOffset) % 2 ^ 64
      let size := if p.mappingSize ≠ 0 then p.mappingSize else h.origSize
      let big := decide (h.align % s.bigPageSize = 0)
      if p.fixed then some (s.mapFixed dm p deviceAddress size big)
      else s.mapAnywhere dm p deviceAddress size big

def unmapBuffer (dm : DeviceMemory) (s : AsGpu) (offset : Nat) : Option (NvResult × AsGpu) :=
  match s.mappingMap.lookup offset with
  | none => some (.success, s)
  | some m => (s.freePages m m.size).map fun s => (.success, s.dropMapping dm offset m)

/-! ## Calls -/

inductive Ioctl where
  | allocateSpace (pages pageSize : Nat) (fixed sparse : Bool) (offset : Nat)
  | freeSpace (offset pages pageSize : Nat)
  | mapBufferEx (p : MapParams) (info : Option HandleInfo) (base : Nat)
  | unmapBuffer (offset : Nat)
  deriving DecidableEq, Repr

def call (dm : DeviceMemory) (s : AsGpu) : Ioctl → Option (NvResult × AsGpu)
  | .allocateSpace pages pageSize fixed sparse offset =>
    s.allocateSpace dm pages pageSize fixed sparse offset
  | .freeSpace offset pages pageSize => s.freeSpace dm offset pages pageSize
  | .mapBufferEx p info base => s.mapBufferEx dm p info base
  | .unmapBuffer offset => s.unmapBuffer dm offset

end AsGpu

end Suyu.Nvdrv.NvhostAsGpu
