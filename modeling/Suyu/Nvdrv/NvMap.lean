import Mathlib

/-
  `NvMap` (`nvdrv/core/nvmap.cpp`): handles to guest memory, and their mappings in the address space
  of the device.

  1. **Data** - a handle counts its guest references (`dupes`), its internal ones and its pins; it
     is mapped when `d_address` is not zero, and then it may have a second address in the low area.
     A handle that is mapped and not pinned waits in `unmap_queue`, from which it can be taken back.

  2. **Program** - what `PinHandle`'s loop calls: `UnmapHandle`, which takes a handle out of the
     queue and gives up its low area and its device mapping.  A handle is an object of its own: the
     table maps ids to objects, and an object can outlive its place in the table.

  3. **What is outside** - the memory managers of the device are only called: each call is written to
     the LOG of the handle it is made for.  A queue iterator is the number of the push it comes from.
-/

namespace Suyu.Nvdrv

/-! ## Data -/

/-- What is asked of the device memory manager (`smmu`), of the low area (`gmmu` and its allocator)
    and of the mapper of the preallocated heap. -/
inductive Event where
  | smmuUnmap (address size : Nat)
  | smmuFree (address size : Nat)
  | heapUnmap (virtualAddress size : Nat)
  | lowUnmap (address size : Nat)
  | lowFree (address size : Nat)
  deriving DecidableEq, Repr

/-- `NvMap::Handle`, without what no modelled function reads (`orig_size`, `kind`, the shared-memory
    flag). -/
structure Handle where
  id : Nat
  align : Nat
  size : Nat
  alignedSize : Nat
  dupes : Int
  internalDupes : Int
  pins : Int
  pinVirtAddress : Nat
  unmapQueueEntry : Option Nat
  mapUncached : Bool
  address : Nat
  allocated : Bool
  inHeap : Bool
  sessionId : Nat
  dAddress : Nat
  deriving DecidableEq, Repr

/-- `Handle::Handle(size, id)`. -/
def Handle.create (size id : Nat) : Handle where
  id := id
  align := 0
  size := size
  alignedSize := size
  dupes := 1
  internalDupes := 0
  pins := 0
  pinVirtAddress := 0
  unmapQueueEntry := none
  mapUncached := false
  address := 0
  allocated := false
  inHeap := false
  sessionId := 0
  dAddress := 0

/-- `NvMap`: the table of ids, all objects created, the queue of (push number, object) and the log
    of every object. -/
structure NvMap where
  handles : List (Nat × Nat)
  objects : Nat → Handle
  created : Nat
  nextHandleId : Nat
  unmapQueue : List (Nat × Nat)
  pushed : Nat
  log : Nat → List Event

def bigPageSize : Nat := 0x10000

def alignUp (value size : Nat) : Nat := (value + size - 1) / size * size

namespace NvMap

/-- Change one object. -/
def modify (s : NvMap) (o : Nat) (f : Handle → Handle) : NvMap :=
  { s with objects := Function.update s.objects o (f (s.objects o)) }

/-- Calls made for one object. -/
def write (s : NvMap) (o : Nat) (events : List Event) : NvMap :=
  { s with log := Function.update s.log o (s.log o ++ events) }

/-! ## Mapping and unmapping -/

/-- `unmap_queue.erase(*unmap_queue_entry); unmap_queue_entry.reset();` -/
def dropQueueEntry (s : NvMap) (o : Nat) : NvMap :=
  match (s.objects o).unmapQueueEntry with
  | none => s
  | some entry =>
      { s with unmapQueue := s.unmapQueue.filter fun e => e.1 ≠ entry }.modify o fun h =>
        { h with unmapQueueEntry := none }

/-- The low-area part of `UnmapHandle`. -/
def unmapLowArea (s : NvMap) (o : Nat) : NvMap :=
  let h := s.objects o
  if h.pinVirtAddress = 0 then s
  else (s.write o [.lowUnmap h.pinVirtAddress h.alignedSize,
      .lowFree h.pinVirtAddress (h.alignedSize % 2 ^ 32)]).modify o fun h =>
    { h with pinVirtAddress := 0 }

/-- The end of `UnmapHandle`. -/
def unmapDevice (s : NvMap) (o : Nat) : NvMap :=
  let h := s.objects o
  if h.inHeap then
    (s.write o [.heapUnmap h.address h.alignedSize]).modify o fun h =>
      { h with dAddress := 0, inHeap := false }
  else
    (s.write o [.smmuUnmap h.dAddress h.alignedSize,
      .smmuFree h.dAddress (alignUp h.alignedSize bigPageSize)]).modify o fun h =>
      { h with dAddress := 0 }

def unmapHandle (s : NvMap) (o : Nat) : NvMap :=
  ((s.dropQueueEntry o).unmapLowArea o).unmapDevice o

end NvMap

end Suyu.Nvdrv
