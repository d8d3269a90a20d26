import Mathlib

/-
  The buffer queue (`nvnflinger/buffer_queue_core.cpp`, `buffer_queue_producer.cpp`,
  `buffer_queue_consumer.cpp`).

  1. **Data** - 64 slots, each free, dequeued by the producer, queued, or acquired by the consumer,
     and the queue of items.  A slot and an item are tied by the slot's index and by the IDENTITY of
     the graphic buffer, which is here a number that is never given twice.

  2. **Program** - the sections in which the lock is held.  `DequeueBuffer` has two: it takes a slot,
     and when it needs a new buffer it drops the lock, allocates, and locks again to install it.
     When it has to wait, it drops the lock inside `WaitForFreeSlotThenRelock`; its next turn is
     another first section.

  3. **Crashes** - `QueueBuffer` reads the buffer of its slot without a check: the model has no result
     there when the slot has none.  The two ASSERTs are predicates of their own (`maxCountAssert`,
     `beyondMaxAssert`), since the code goes on after one that fails.

  Left out: the condition variables and the wait event (who is woken is a matter of scheduling), the
  producer listener (`Transact` passes none) and the callbacks made without the lock.
-/

namespace Suyu.Nvnflinger

/-! ## Data -/

/-- `Status`, the results that are not a set of flags. -/
inductive Status where
  | noError | staleBufferSlot | noBufferAvailable | presentLater
  | wouldBlock | noMemory | busy | noInit | badValue | invalidOperation
  deriving DecidableEq, Repr

inductive BufferState where
  | free | dequeued | queued | acquired
  deriving DecidableEq, Repr

/-- `NativeWindowApi`; any other value of the parcel is no api. -/
inductive NativeWindowApi where
  | egl | cpu | media | camera
  deriving DecidableEq, Repr

inductive NativeWindowScalingMode where
  | freeze | scaleToWindow | scaleCrop | noScaleCrop | preserveAspectRatio
  deriving DecidableEq, Repr

/-- `Fence`: carried along with the buffers. -/
structure Fence where
  numFences : Nat
  fences : List (Int × Nat)
  deriving DecidableEq, Repr

def Fence.noFence : Fence := ⟨0, [(-1, 0), (-1, 0), (-1, 0), (-1, 0)]⟩

/-- `GraphicBuffer`, with the object it is. -/
structure GraphicBuffer where
  ptr : Nat
  width : Nat
  height : Nat
  format : Nat
  usage : Nat
  deriving DecidableEq, Repr

structure BufferSlot where
  graphicBuffer : Option GraphicBuffer
  bufferState : BufferState
  requestBufferCalled : Bool
  frameNumber : Nat
  fence : Fence
  acquireCalled : Bool
  needsCleanupOnRelease : Bool
  attachedByConsumer : Bool
  isPreallocated : Bool
  deriving DecidableEq, Repr

/-- `BufferSlot{}`. -/
def BufferSlot.empty : BufferSlot :=
  ⟨none, .free, false, 0, ⟨0, [(0, 0), (0, 0), (0, 0), (0, 0)]⟩, false, false, false, false⟩

/-- `Common::Rectangle<s32>`. -/
structure Rectangle where
  left : Int
  top : Int
  right : Int
  bottom : Int
  deriving DecidableEq, Repr

def Rectangle.intersect (r r' : Rectangle) : Rectangle :=
  ⟨max r.left r'.left, max r.top r'.top, min r.right r'.right, min r.bottom r'.bottom⟩

structure BufferItem where
  graphicBuffer : Option GraphicBuffer
  fence : Fence
  crop : Rectangle
  transform : Nat
  scalingMode : NativeWindowScalingMode
  timestamp : Int
  isAutoTimestamp : Bool
  frameNumber : Nat
  slot : Fin 64
  isDroppable : Bool
  acquireCalled : Bool
  transformToDisplayInverse : Bool
  swapInterval : Int
  deriving DecidableEq, Repr

/-- `QueueBufferInput`; `none` for a scaling mode that is not one. -/
structure QueueBufferInput where
  timestamp : Int
  isAutoTimestamp : Bool
  crop : Rectangle
  scalingMode : Option NativeWindowScalingMode
  transform : Nat
  stickyTransform : Nat
  async : Bool
  swapInterval : Int
  fence : Fence

/-- `BufferQueueCore` with the sticky transform of the producer; `allocated` is the number of graphic
    buffers made so far. -/
structure BufferQueueCore where
  isAbandoned : Bool
  consumerControlledByApp : Bool
  consumerListener : Bool
  consumerUsageBit : Nat
  connectedApi : Option NativeWindowApi
  slots : Fin 64 → BufferSlot
  queue : List BufferItem
  overrideMaxBufferCount : Int
  dequeueBufferCannotBlock : Bool
  defaultBufferFormat : Nat
  defaultWidth : Nat
  defaultHeight : Nat
  bufferHasBeenQueued : Bool
  frameCounter : Nat
  stickyTransform : Nat
  allocated : Nat

/-- The slot an `s32` names. -/
def slotIndex (slot : Int) : Option (Fin 64) :=
  if h : 0 ≤ slot ∧ slot < 64 then some ⟨slot.toNat, by omega⟩ else none

def uint32Max : Nat := 2 ^ 32 - 1

/-- `static_cast<s32>` of a `u32`. -/
def toS32 (n : Nat) : Int := if n < 2 ^ 31 then n else (n : Int) - 2 ^ 32

namespace BufferQueueCore

/-- The constructor. -/
def initial : BufferQueueCore where
  isAbandoned := false
  consumerControlledByApp := false
  consumerListener := false
  consumerUsageBit := 0
  connectedApi := none
  slots := fun _ => .empty
  queue := []
  overrideMaxBufferCount := 0
  dequeueBufferCannotBlock := false
  defaultBufferFormat := 1
  defaultWidth := 1
  defaultHeight := 1
  bufferHasBeenQueued := false
  frameCounter := 0
  stickyTransform := 0
  allocated := 0

/-- `use_async_buffer`: always disabled on HOS. -/
def useAsyncBuffer : Bool := false

/-- `max_acquired_buffer_count`: always zero on HOS. -/
def maxAcquiredBufferCount : Int := 0

/-- `default_max_buffer_count`, which nothing sets. -/
def defaultMaxBufferCount : Int := 2

/-- Change one slot. -/
def modify (c : BufferQueueCore) (slot : Fin 64) (f : BufferSlot → BufferSlot) : BufferQueueCore :=
  { c with slots := Function.update c.slots slot (f (c.slots slot)) }

/-! ## The core -/

/-- `GetMinUndequeuedBufferCountLocked`. -/
def getMinUndequeuedBufferCount (c : BufferQueueCore) (async : Bool) : Int :=
  if !useAsyncBuffer then 0
  else if c.dequeueBufferCannotBlock || async then maxAcquiredBufferCount + 1
  else maxAcquiredBufferCount

/-- `GetMinMaxBufferCountLocked`. -/
def getMinMaxBufferCount (c : BufferQueueCore) (async : Bool) : Int :=
  c.getMinUndequeuedBufferCount async

/-- The ASSERT of `GetMaxBufferCountLocked`. -/
def maxCountAssert (c : BufferQueueCore) (async : Bool) : Prop :=
  c.overrideMaxBufferCount ≠ 0 → c.getMinMaxBufferCount async ≤ c.overrideMaxBufferCount

/-- `GetMaxBufferCountLocked`. -/
def getMaxBufferCount (c : BufferQueueCore) (async : Bool) : Int :=
  let start := max defaultMaxBufferCount (c.getMinMaxBufferCount async)
  if c.overrideMaxBufferCount ≠ 0 then c.overrideMaxBufferCount
  else (List.finRange 64).foldl (fun count slot =>
    let state := (c.slots slot).bufferState
    if start ≤ slot.val ∧ (state = .queued ∨ state = .dequeued) then (slot.val : Int) + 1
    else count) start

/-- `GetPreallocatedBufferCountLocked`. -/
def getPreallocatedBufferCount (c : BufferQueueCore) : Nat :=
  (List.finRange 64).countP fun slot => (c.slots slot).isPreallocated

end BufferQueueCore

/-- `FreeBufferLocked` of one slot. -/
def BufferSlot.freed (s : BufferSlot) : BufferSlot :=
  { s with
    graphicBuffer := none
    needsCleanupOnRelease := s.needsCleanupOnRelease || decide (s.bufferState = .acquired)
    bufferState := .free
    frameNumber := uint32Max
    acquireCalled := false
    fence := .noFence }

namespace BufferQueueCore

/-- `FreeBufferLocked`. -/
def freeBuffer (c : BufferQueueCore) (slot : Fin 64) : BufferQueueCore := c.modify slot .freed

/-- `FreeAllBuffersLocked`. -/
def freeAllBuffers (c : BufferQueueCore) : BufferQueueCore :=
  { c with bufferHasBeenQueued := false, slots := fun slot => (c.slots slot).freed }

/-- `slot.graphic_buffer != nullptr && item.graphic_buffer == slot.graphic_buffer`. -/
def isBuffer : Option GraphicBuffer → Option GraphicBuffer → Bool
  | some b, some b' => b.ptr == b'.ptr
  | _, _ => false

def stillTracking (c : BufferQueueCore) (item : BufferItem) : Bool :=
  isBuffer (c.slots item.slot).graphicBuffer item.graphicBuffer

/-! ## The producer -/

def requestBuffer (c : BufferQueueCore) (slot : Int) :
    Status × Option GraphicBuffer × BufferQueueCore :=
  if c.isAbandoned then (.noInit, none, c)
  else match slotIndex slot with
    | none => (.badValue, none, c)
    | some s =>
        if (c.slots s).bufferState ≠ .dequeued then (.badValue, none, c)
        else (.noError, (c.slots s).graphicBuffer,
          c.modify s fun s => { s with requestBufferCalled := true })

def setBufferCount (c : BufferQueueCore) (bufferCount : Int) : Status × BufferQueueCore :=
  if c.isAbandoned then (.noInit, c)
  else if 64 < bufferCount then (.badValue, c)
  else if ∃ s, (c.slots s).bufferState = .dequeued then (.badValue, c)
  else if bufferCount = 0 then (.noError, { c with overrideMaxBufferCount := 0 })
  else if bufferCount < c.getMinMaxBufferCount false then (.badValue, c)
  else
    let c := if c.getPreallocatedBufferCount ≤ 0 then c.freeAllBuffers else c
    (.noError, { c with overrideMaxBufferCount := bufferCount })

/-- A slot that `WaitForFreeSlotThenRelock` frees because it is beyond the maximum. -/
def releasesBeyond (c : BufferQueueCore) (maxBufferCount : Int) (slot : Fin 64) : Bool :=
  maxBufferCount ≤ slot.val && (c.slots slot).graphicBuffer.isSome &&
    decide ((c.slots slot).bufferState = .free) && !(c.slots slot).isPreallocated

/-- The loop over the slots beyond the maximum; it looks at each slot alone. -/
def freeBeyond (c : BufferQueueCore) (maxBufferCount : Int) : BufferQueueCore :=
  { c with slots := fun slot =>
      if c.releasesBeyond maxBufferCount slot then (c.slots slot).freed else c.slots slot }

/-- The ASSERT in that loop. -/
def beyondMaxAssert (c : BufferQueueCore) (async : Bool) : Prop :=
  ∀ slot : Fin 64, c.getMaxBufferCount async ≤ slot.val → (c.slots slot).bufferState = .free

/-- A slot comes before the one found so far. -/
def isOlder (c : BufferQueueCore) (slot : Fin 64) : Option (Fin 64) → Bool
  | none => true
  | some found => (c.slots slot).frameNumber < (c.slots found).frameNumber

/-- The oldest of the free slots below the maximum. -/
def oldestFree (c : BufferQueueCore) (maxBufferCount : Int) : Option (Fin 64) :=
  (List.finRange 64).foldl (fun found slot =>
    if (slot.val : Int) < maxBufferCount ∧ (c.slots slot).bufferState = .free ∧ c.isOlder slot found
    then some slot else found) none

/-- The slots in one state below the maximum. -/
def countBelow (c : BufferQueueCore) (maxBufferCount : Int) (state : BufferState) : Nat :=
  (List.finRange 64).countP fun slot =>
    decide ((slot.val : Int) < maxBufferCount) && decide ((c.slots slot).bufferState = state)

/-- What one turn of `WaitForFreeSlotThenRelock` comes to. -/
inductive FreeSlot where
  | failed (status : Status)
  | waits
  | found (slot : Fin 64)
  deriving DecidableEq, Repr

/-- One turn of the loop of `WaitForFreeSlotThenRelock`; the flag is `ReleaseAllBuffers`. -/
def waitForFreeSlot (c : BufferQueueCore) (async : Bool) : FreeSlot × Bool × BufferQueueCore :=
  if c.isAbandoned then (.failed .noInit, false, c)
  else
    let maxBufferCount := c.getMaxBufferCount async
    if async ∧ c.overrideMaxBufferCount ≠ 0 ∧ c.overrideMaxBufferCount < maxBufferCount
    then (.failed .badValue, false, c)
    else
      let released := (List.finRange 64).any (c.releasesBeyond maxBufferCount)
      let c := c.freeBeyond maxBufferCount
      let found := c.oldestFree maxBufferCount
      let dequeuedCount := c.countBelow maxBufferCount .dequeued
      let acquiredCount := c.countBelow maxBufferCount .acquired
      if c.overrideMaxBufferCount = 0 ∧ dequeuedCount ≠ 0
      then (.failed .invalidOperation, released, c)
      else if c.bufferHasBeenQueued ∧
          maxBufferCount - (dequeuedCount + 1) < c.getMinUndequeuedBufferCount async
      then (.failed .invalidOperation, released, c)
      else
        let waiting :=
          if c.dequeueBufferCannotBlock ∧ (acquiredCount : Int) ≤ maxAcquiredBufferCount
          then FreeSlot.failed .wouldBlock else .waits
        match found with
        | none => (waiting, released, c)
        | some slot =>
            if maxBufferCount < c.queue.length then (waiting, released, c)
            else (.found slot, released, c)

/-- The arguments of `DequeueBuffer`. -/
structure DequeueArgs where
  async : Bool
  width : Nat
  height : Nat
  format : Nat
  usage : Nat
  deriving DecidableEq, Repr

/-- A `DequeueBuffer` between its two sections: its slot, the buffer it makes and what it returns. -/
structure Pending where
  slot : Fin 64
  width : Nat
  height : Nat
  format : Nat
  usage : Nat
  releaseAllBuffers : Bool
  deriving DecidableEq, Repr

/-- What the first section of `DequeueBuffer` comes to. -/
inductive Dequeue where
  | failed (status : Status)
  | waits
  | returned (slot : Fin 64) (fence : Fence) (needsReallocation releaseAllBuffers : Bool)
  | allocates (pending : Pending) (fence : Fence)
  deriving DecidableEq, Repr

/-- The buffer of a slot cannot be used for the arguments. -/
def needsReallocation (buffer : Option GraphicBuffer) (width height format usage : Nat) : Bool :=
  match buffer with
  | none => true
  | some b => b.width ≠ width || b.height ≠ height || b.format ≠ format || b.usage &&& usage ≠ usage

/-- The end of the first section of `DequeueBuffer`, with the slot that was found. -/
def takeSlot (c : BufferQueueCore) (slot : Fin 64) (width height format usage : Nat)
    (released : Bool) : Dequeue × BufferQueueCore :=
  let attached := (c.slots slot).attachedByConsumer
  if needsReallocation (c.slots slot).graphicBuffer width height format usage then
    (.allocates ⟨slot, width, height, format, usage, released⟩ .noFence,
      c.modify slot fun s => { s with
        bufferState := .dequeued
        acquireCalled := false
        graphicBuffer := none
        requestBufferCalled := false
        fence := .noFence })
  else
    (.returned slot (c.slots slot).fence attached released,
      c.modify slot fun s => { s with bufferState := .dequeued, fence := .noFence })

/-- The first section of `DequeueBuffer`. -/
def dequeueBuffer (c : BufferQueueCore) (args : DequeueArgs) : Dequeue × BufferQueueCore :=
  if (args.width ≠ 0 ∧ args.height = 0) ∨ (args.width = 0 ∧ args.height ≠ 0)
  then (.failed .badValue, c)
  else
    let format := if args.format = 0 then c.defaultBufferFormat else args.format
    let usage := args.usage ||| c.consumerUsageBit
    match c.waitForFreeSlot args.async with
    | (.failed status, _, c) => (.failed status, c)
    | (.waits, _, c) => (.waits, c)
    | (.found slot, released, c) =>
        let useDefaultSize := args.width = 0 ∧ args.height = 0
        let width := if useDefaultSize then c.defaultWidth else args.width
        let height := if useDefaultSize then c.defaultHeight else args.height
        c.takeSlot slot width height format usage released

/-- The second section of `DequeueBuffer`, with the buffer that was made before it. -/
def installBuffer (c : BufferQueueCore) (p : Pending) : Status × BufferQueueCore :=
  let buffer : GraphicBuffer := ⟨c.allocated, p.width, p.height, p.format, p.usage⟩
  let c := { c with allocated := c.allocated + 1 }
  if c.isAbandoned then (.noInit, c)
  else (.noError, c.modify p.slot fun s => { s with
    frameNumber := uint32Max, graphicBuffer := some buffer })

def detachBuffer (c : BufferQueueCore) (slot : Int) : Status × BufferQueueCore :=
  if c.isAbandoned then (.noInit, c)
  else match slotIndex slot with
    | none => (.badValue, c)
    | some s =>
        if (c.slots s).bufferState ≠ .dequeued then (.badValue, c)
        else if !(c.slots s).requestBufferCalled then (.badValue, c)
        else (.noError, c.freeBuffer s)

/-- The checks of `QueueBuffer`: the slot that is queued, and its buffer.  There is no result when
    the slot has no buffer. -/
def queueBufferCheck (c : BufferQueueCore) (slot : Int) (input : QueueBufferInput) :
    Option (Except Status (Fin 64 × NativeWindowScalingMode)) :=
  match input.scalingMode with
  | none => some (.error .badValue)
  | some mode =>
      if c.isAbandoned then some (.error .noInit)
      else if input.async ∧ c.overrideMaxBufferCount ≠ 0 ∧
          c.overrideMaxBufferCount < c.getMaxBufferCount input.async
      then some (.error .badValue)
      else if slot < 0 ∨ c.getMaxBufferCount input.async ≤ slot then some (.error .badValue)
      else match slotIndex slot with
        | none => some (.error .badValue)
        | some s =>
            if (c.slots s).bufferState ≠ .dequeued then some (.error .badValue)
            else if !(c.slots s).requestBufferCalled then some (.error .badValue)
            else match (c.slots s).graphicBuffer with
              | none => none
              | some buffer =>
                  let rect : Rectangle := ⟨0, 0, toS32 buffer.width, toS32 buffer.height⟩
                  if input.crop.intersect rect ≠ input.crop then some (.error .badValue)
                  else some (.ok (s, mode))

/-- The item `QueueBuffer` makes for a slot, after the slot has its new frame number. -/
def makeItem (c : BufferQueueCore) (slot : Fin 64) (mode : NativeWindowScalingMode)
    (input : QueueBufferInput) : BufferItem where
  graphicBuffer := (c.slots slot).graphicBuffer
  fence := input.fence
  crop := input.crop
  transform := input.transform &&& (2 ^ 32 - 1 - 8)
  scalingMode := mode
  timestamp := input.timestamp
  isAutoTimestamp := input.isAutoTimestamp
  frameNumber := c.frameCounter
  slot := slot
  isDroppable := c.dequeueBufferCannotBlock || input.async
  acquireCalled := (c.slots slot).acquireCalled
  transformToDisplayInverse := input.transform &&& 8 ≠ 0
  swapInterval := input.swapInterval

/-- An item joins the queue: at its end, or in place of a droppable front. -/
def pushItem (c : BufferQueueCore) (item : BufferItem) : BufferQueueCore :=
  match c.queue with
  | [] => { c with queue := [item] }
  | front :: rest =>
      if front.isDroppable then
        let c := if c.stillTracking front then
          c.modify front.slot fun s => { s with bufferState := .free, frameNumber := 0 } else c
        { c with queue := item :: rest }
      else { c with queue := c.queue ++ [item] }

def queueBuffer (c : BufferQueueCore) (slot : Int) (input : QueueBufferInput) :
    Option (Status × BufferQueueCore) :=
  match c.queueBufferCheck slot input with
  | none => none
  | some (.error status) => some (status, c)
  | some (.ok (s, mode)) =>
      let c := { c with frameCounter := c.frameCounter + 1 }.modify s fun s => { s with
        fence := input.fence
        bufferState := .queued
        frameNumber := c.frameCounter + 1 }
      let c := { c with stickyTransform := input.stickyTransform }
      let c := c.pushItem (c.makeItem s mode input)
      some (.noError, { c with bufferHasBeenQueued := true })

def cancelBuffer (c : BufferQueueCore) (slot : Int) (fence : Fence) : BufferQueueCore :=
  if c.isAbandoned then c
  else match slotIndex slot with
    | none => c
    | some s =>
        if (c.slots s).bufferState ≠ .dequeued then c
        else c.modify s fun s => { s with bufferState := .free, frameNumber := 0, fence := fence }

def connect (c : BufferQueueCore) (api : Option NativeWindowApi) (producerControlledByApp : Bool) :
    Status × BufferQueueCore :=
  if c.isAbandoned then (.noInit, c)
  else if !c.consumerListener then (.noInit, c)
  else if c.connectedApi.isSome then (.badValue, c)
  else
    let c := { c with
      bufferHasBeenQueued := false
      dequeueBufferCannotBlock := c.consumerControlledByApp && producerControlledByApp }
    match api with
    | none => (.badValue, c)
    | some api => (.noError, { c with connectedApi := some api })

def disconnect (c : BufferQueueCore) (api : Option NativeWindowApi) : Status × BufferQueueCore :=
  if c.isAbandoned then (.noError, c)
  else match api with
    | none => (.badValue, c)
    | some api =>
        if c.connectedApi = some api then
          (.noError, { ({ c with queue := [] }).freeAllBuffers with connectedApi := none })
        else (.badValue, c)

/-- The buffer of a call to `SetPreallocatedBuffer`, if it has one. -/
structure NvGraphicBuffer where
  width : Nat
  height : Nat
  format : Nat
  usage : Nat
  deriving DecidableEq, Repr

def setPreallocatedBuffer (c : BufferQueueCore) (slot : Int) (buffer : Option NvGraphicBuffer) :
    Status × BufferQueueCore :=
  match slotIndex slot with
  | none => (.badValue, c)
  | some s =>
      let b := buffer.getD ⟨0, 0, 0, 0⟩
      let c := { c with allocated := c.allocated + 1 }.modify s fun _ => { BufferSlot.empty with
        fence := .noFence
        graphicBuffer := some ⟨c.allocated, b.width, b.height, b.format, b.usage⟩
        isPreallocated := buffer.isSome }
      match buffer with
      | none => (.noError, c)
      | some b => (.noError, { c with
          overrideMaxBufferCount := c.getPreallocatedBufferCount
          defaultWidth := b.width
          defaultHeight := b.height
          defaultBufferFormat := b.format })

/-! ## The consumer -/

def maxReasonableNsec : Int := 1000000000

/-- The front is no longer needed: its slot is free if the front is tracked. -/
def dropFront (c : BufferQueueCore) (front : BufferItem) : BufferQueueCore :=
  if c.stillTracking front then c.modify front.slot fun s => { s with bufferState := .free } else c

/-- The loop of `AcquireBuffer` that drops the front while the next item is timely; it runs on the
    queue. -/
def dropTimely (c : BufferQueueCore) (expected : Int) : List BufferItem → BufferQueueCore
  | front :: next :: rest =>
      if front.isAutoTimestamp then { c with queue := front :: next :: rest }
      else if next.timestamp < expected - maxReasonableNsec ∨ expected < next.timestamp
      then { c with queue := front :: next :: rest }
      else (c.dropFront front).dropTimely expected (next :: rest)
  | queue => { c with queue := queue }

/-- `AcquireBuffer` up to the front that it looks at. -/
def acquireFront (c : BufferQueueCore) (expected : Int) : BufferQueueCore :=
  if expected ≠ 0 then c.dropTimely expected c.queue else c

def acquireBuffer (c : BufferQueueCore) (expected : Int) :
    Status × Option BufferItem × BufferQueueCore :=
  if maxAcquiredBufferCount + 1 ≤
      ((List.finRange 64).countP fun s => decide ((c.slots s).bufferState = .acquired) : Nat)
  then (.invalidOperation, none, c)
  else if c.queue = [] then (.noBufferAvailable, none, c)
  else
    let c := c.acquireFront expected
    match c.queue with
    | [] => (.noBufferAvailable, none, c)
    | front :: rest =>
        if expected ≠ 0 ∧ expected < front.timestamp ∧ front.timestamp < expected + maxReasonableNsec
        then (.presentLater, none, c)
        else
          let c := if c.stillTracking front then c.modify front.slot fun s => { s with
              acquireCalled := true, needsCleanupOnRelease := false, bufferState := .acquired }
            else c
          (.noError, some { front with
              graphicBuffer := if front.acquireCalled then none else front.graphicBuffer },
            { c with queue := rest })

def releaseBuffer (c : BufferQueueCore) (slot : Int) (frameNumber : Nat) :
    Status × BufferQueueCore :=
  match slotIndex slot with
  | none => (.badValue, c)
  | some s =>
      if frameNumber ≠ (c.slots s).frameNumber then (.staleBufferSlot, c)
      else if c.queue.any fun item => item.slot = s then (.badValue, c)
      else if (c.slots s).bufferState = .acquired then
        (.noError, c.modify s fun s => { s with bufferState := .free })
      else if (c.slots s).needsCleanupOnRelease then
        (.staleBufferSlot, c.modify s fun s => { s with needsCleanupOnRelease := false })
      else (.badValue, c)

/-- `BufferQueueConsumer::Connect` with a listener. -/
def consumerConnect (c : BufferQueueCore) (controlledByApp : Bool) : Status × BufferQueueCore :=
  if c.isAbandoned then (.noInit, c)
  else (.noError, { c with consumerListener := true, consumerControlledByApp := controlledByApp })

/-- `BufferQueueConsumer::Disconnect`. -/
def consumerDisconnect (c : BufferQueueCore) : Status × BufferQueueCore :=
  if !c.consumerListener then (.badValue, c)
  else (.noError, ({ c with isAbandoned := true, consumerListener := false, queue := [] }).freeAllBuffers)

end BufferQueueCore

end Suyu.Nvnflinger
