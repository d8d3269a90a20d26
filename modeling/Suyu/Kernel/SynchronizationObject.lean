import Mathlib
import Suyu.Lib.Linked

/-
  `KSynchronizationObject`: threads that wait for one of several objects.

  1. **Data** - an object has the head and the tail of a list of nodes; the nodes of a thread stand in
     an array on its stack, one for each object it waits for.

  2. **Program** - `Wait` links the nodes, `NotifyAvailable` and `CancelWait` unlink ALL nodes of a
     thread and wake it.  `UnlinkNode` treats the head of the list as a node whose `next` it is, and
     the loop of `NotifyAvailable` reads the `next` of nodes that have just been unlinked.

  3. **What is left open** - whether an object is signaled, and why a wait is cancelled.

  A loop that dereferences a null pointer, or does not end, has the result `none`.
-/

namespace Suyu.Kernel.KSynchronizationObject

open Function (update)

open Lib.Linked

/-! ## Data -/

abbrev Thread := Nat

abbrev Object := Nat

/-- `thread_nodes[i]` of a thread. -/
abbrev Node := Thread × Nat

inductive Result where
  | success
  | timedOut
  | cancelled
  | terminationRequested
  deriving DecidableEq, Repr

/-- Objects, nodes and threads under the scheduler lock.  `waiting` has the objects of a thread that is
    blocked in `Wait`; `order` and `woken` record the threads in the order in which they have begun to
    wait and in which they were woken. -/
structure State where
  head : Object → Option Node
  tail : Object → Option Node
  next : Node → Option Node
  signaled : Object → Bool
  waiting : Thread → Option (List Object)
  syncedIndex : Thread → Int
  waitResult : Thread → Result
  order : List Thread
  woken : List Thread

def argumentHandleCountMax : Nat := 0x40

namespace State

def initial : State where
  head := fun _ => none
  tail := fun _ => none
  next := fun _ => none
  signaled := fun _ => false
  waiting := fun _ => none
  syncedIndex := fun _ => -1
  waitResult := fun _ => .success
  order := []
  woken := []

/-- The objects of a thread. -/
def objects (s : State) (t : Thread) : List Object := (s.waiting t).getD []

/-- More than there are nodes in any list. -/
def fuel (s : State) : Nat := (s.order.map fun t => (s.objects t).length).sum + 1

/-! ## The list of an object -/

/-- The `next` of a node of the list of an object; the head is the `next` of no node. -/
def links (s : State) (o : Object) : Option Node → Option Node
  | none => s.head o
  | some n => s.next n

/-- `prev->next = value`. -/
def setLink (s : State) (o : Object) (prev value : Option Node) : State :=
  match prev with
  | none => { s with head := update s.head o value }
  | some n => { s with next := update s.next n value }

def linkNode (s : State) (o : Object) (node : Node) : State :=
  { s.setLink o (s.tail o) (some node) with tail := update s.tail o (some node) }

/-- The loop of `UnlinkNode`, from `prev_ptr` and `prev_val`: `prev` and `tail_prev`. -/
def search (s : State) (o : Object) (node : Node) :
    Nat → Option Node → Option Node → Option (Option Node × Option Node)
  | 0, _, _ => none
  | fuel + 1, prevPtr, prevVal =>
      match s.links o prevPtr with
      | none => none
      | some ptr => if ptr = node then some (prevPtr, prevVal) else s.search o node fuel (some ptr) (some ptr)

def unlinkNode (s : State) (o : Object) (node : Node) : Option State :=
  (s.search o node s.fuel none none).map fun found =>
    let s := if s.tail o = some node then { s with tail := update s.tail o found.2 } else s
    s.setLink o found.1 (s.next node)

/-! ## Waiting -/

/-- What `Wait` looks at before it blocks. -/
structure WaitChecks where
  terminationRequested : Bool
  timeoutIsZero : Bool
  waitCancelled : Bool
  deriving DecidableEq, Repr

/-- The nodes of a thread, with their objects. -/
def threadEntries (t : Thread) (objects : List Object) : List (Node × Object) :=
  objects.zipIdx.map fun p => ((t, p.2), p.1)

/-- A node is cleared and linked. -/
def linkEntry (s : State) (entry : Node × Object) : State :=
  { s with next := update s.next entry.1 none }.linkNode entry.2 entry.1

/-- The end of the section of `Wait`. -/
def beginWait (s : State) (t : Thread) (objects : List Object) : State :=
  let s := (threadEntries t objects).foldl linkEntry s
  { s with
    syncedIndex := update s.syncedIndex t (-1)
    waiting := update s.waiting t (some objects)
    order := s.order ++ [t] }

/-- The section of `Wait`: the result and the index, or `none` if the thread blocks. -/
def wait (s : State) (t : Thread) (objects : List Object) (checks : WaitChecks) :
    State × Option (Result × Option Nat) :=
  if checks.terminationRequested then (s, some (.terminationRequested, none))
  else
    match objects.findIdx? s.signaled with
    | some i => (s, some (.success, some i))
    | none =>
        if checks.timeoutIsZero then (s, some (.timedOut, none))
        else if checks.waitCancelled then (s, some (.cancelled, none))
        else (s.beginWait t objects, none)

/-! ## Waking -/

/-- The nodes of a thread are unlinked one after the other. -/
def unlinkAll (s : State) (t : Thread) (objects : List Object) : Option State :=
  (threadEntries t objects).foldlM (fun s entry => s.unlinkNode entry.2 entry.1) s

/-- `KThreadQueue::EndWait` and `KThreadQueue::CancelWait`. -/
def wake (s : State) (t : Thread) (result : Result) : State :=
  { s with
    waitResult := update s.waitResult t result
    waiting := update s.waiting t none
    order := s.order.erase t
    woken := s.woken ++ [t] }

/-- The `sync_index` of a signaled object: its first position, or -1. -/
def syncIndex (objects : List Object) (o : Object) : Int :=
  match objects.findIdx? fun p => decide (p = o) with
  | some i => (i : Int)
  | none => -1

/-- `KThread::NotifyAvailable` with the queue of `Wait`. -/
def notifyThread (s : State) (t : Thread) (o : Object) (result : Result) : Option State :=
  match s.waiting t with
  | none => some s
  | some objects => (s.unlinkAll t objects).map fun s =>
      { s with syncedIndex := update s.syncedIndex t (syncIndex objects o) }.wake t result

/-- The loop of `NotifyAvailable`. -/
def notifyLoop (o : Object) (result : Result) : Nat → State → Option Node → Option State
  | _, s, none => some s
  | 0, _, some _ => none
  | fuel + 1, s, some node =>
      (s.notifyThread node.1 o result).bind fun s => notifyLoop o result fuel s (s.next node)

/-- `NotifyAvailable` of an object. -/
def notifyAvailable (s : State) (o : Object) (result : Result) : Option State :=
  if s.signaled o then notifyLoop o result s.fuel s (s.head o) else some s

/-- `KThread::CancelWait`, for a timeout, a cancellation or a termination. -/
def cancelWait (s : State) (t : Thread) (result : Result) : Option State :=
  match s.waiting t with
  | none => some s
  | some objects => (s.unlinkAll t objects).map fun s => s.wake t result

end State

/-! ## Steps -/

inductive Action where
  | wait (t : Thread) (objects : List Object) (checks : State.WaitChecks)
  | notifyAvailable (o : Object) (result : Result)
  | cancelWait (t : Thread) (result : Result)
  | setSignaled (o : Object) (signaled : Bool)
  deriving DecidableEq, Repr

/-- A thread that calls `Wait` is running, and hands over at most `ArgumentHandleCountMax` objects. -/
def Action.Valid (s : State) : Action → Prop
  | .wait t objects _ => s.waiting t = none ∧ objects.length ≤ argumentHandleCountMax
  | _ => True

/-- A section under the scheduler lock. -/
def step (s : State) : Action → Option State
  | .wait t objects checks => some (s.wait t objects checks).1
  | .notifyAvailable o result => s.notifyAvailable o result
  | .cancelWait t result => s.cancelWait t result
  | .setSignaled o signaled => some { s with signaled := update s.signaled o signaled }

end Suyu.Kernel.KSynchronizationObject
