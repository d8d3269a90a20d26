import Mathlib

/-
  `Core::Timing::CoreTiming`: the event queue of the emulated machine.

  1. **Data** - a heap of events, ordered by time and then by the order of scheduling, and a sequence
     number for every event type.

  2. **Program** - `Advance` fires the events that are due.  It releases `basic_lock` during a callback,
     so that other threads and the callback itself may schedule and unschedule; a step (`step`) is a
     section under the lock, or the end of a callback.

  3. **The order (`top_spec`)** - the top of the heap is the least event in it.

  Times are `Int`, and the counters do not wrap.  Left out: the timer thread and its sleeping.
-/

namespace Suyu.Core.Timing

/-! ## Data -/

abbrev EventType := Nat

/-- `CoreTiming::Event`; `origin` names the call that scheduled it and is not in the program. -/
structure Event where
  time : Int
  fifoOrder : Nat
  eventType : EventType
  rescheduleTime : Int
  origin : Nat
  deriving DecidableEq, Repr

/-- `operator<`. -/
def Event.before (a b : Event) : Prop :=
  a.time < b.time ∨ (a.time = b.time ∧ a.fifoOrder < b.fifoOrder)

instance (a b : Event) : Decidable (a.before b) := inferInstanceAs (Decidable (_ ∨ _))

/-- `event_queue.top()`.  The heap itself is boost's; that its top is a least element says all there is
    to say (`top_eq_of_least`). -/
def top : List Event → Option Event
  | [] => none
  | e :: queue =>
      match top queue with
      | none => some e
      | some least => some (if least.before e then least else e)

/-- Where `Advance` is: not running, at the head of its loop with the locks, or in a callback without
    `basic_lock`. -/
inductive AdvanceState where
  | idle
  | looping
  | calling (handle : Nat) (eventType : EventType) (sequenceNum : Nat) (oneShot : Bool)
  deriving DecidableEq, Repr

structure CoreTiming where
  queue : List Event
  eventFifoId : Nat
  sequenceNumber : EventType → Nat
  clock : Int
  globalTimer : Int
  pauseEndTime : Int
  advance : AdvanceState

def CoreTiming.initial (clock : Int) : CoreTiming := ⟨[], 0, fun _ => 0, clock, clock, 0, .idle⟩

/-- A call of a callback. -/
structure Firing where
  event : Event
  clock : Int
  deriving DecidableEq, Repr

inductive Action where
  | tick (clock : Int)
  | pauseEnd
  | scheduleEvent (ns : Int) (eventType : EventType) (absoluteTime : Bool)
  | scheduleLoopingEvent (startTime reschedTime : Int) (eventType : EventType) (absoluteTime : Bool)
  | unscheduleEvent (eventType : EventType)
  | clearPendingEvents
  | advance
  | loop
  | callbackReturns (newScheduleTime : Option Int)
  deriving DecidableEq, Repr

namespace CoreTiming

/-! ## Program -/

/-- `basic_lock` is free. -/
def unlocked (c : CoreTiming) : Prop := c.advance ≠ .looping

instance (c : CoreTiming) : Decidable c.unlocked := inferInstanceAs (Decidable (¬ _))

/-- `ScheduleEvent` and `ScheduleLoopingEvent`. -/
def schedule (c : CoreTiming) (ns reschedTime : Int) (eventType : EventType) (absoluteTime : Bool) :
    CoreTiming :=
  let nextTime := if absoluteTime then ns else c.clock + ns
  { c with
    queue := c.queue ++ [⟨nextTime, c.eventFifoId, eventType, reschedTime, c.eventFifoId⟩]
    eventFifoId := c.eventFifoId + 1 }

/-- `UnscheduleEvent`; with `Wait` it returns later. -/
def unscheduleEvent (c : CoreTiming) (eventType : EventType) : CoreTiming :=
  { c with
    queue := c.queue.filter fun e => decide (e.eventType ≠ eventType)
    sequenceNumber :=
      Function.update c.sequenceNumber eventType (c.sequenceNumber eventType + 1) }

/-- The head of the loop of `Advance`, up to the callback. -/
def fire (c : CoreTiming) : CoreTiming × List Firing :=
  match top c.queue with
  | none => ({ c with advance := .idle }, [])
  | some evt =>
      if evt.time ≤ c.globalTimer then
        ({ c with
          queue := if evt.rescheduleTime = 0 then
              c.queue.filter fun e => decide (e.fifoOrder ≠ evt.fifoOrder)
            else c.queue
          advance := .calling evt.fifoOrder evt.eventType (c.sequenceNumber evt.eventType)
            (decide (evt.rescheduleTime = 0)) }, [⟨evt, c.clock⟩])
      else ({ c with advance := .idle }, [])

/-- `event_queue.update` of a looping event after its callback. -/
def rearm (c : CoreTiming) (evt : Event) (newScheduleTime : Option Int) : CoreTiming :=
  let nextScheduleTime := newScheduleTime.getD evt.rescheduleTime
  let nextTime := (if evt.time < c.pauseEndTime then c.pauseEndTime else evt.time) + nextScheduleTime
  { c with
    queue := c.queue.map fun e => if e.fifoOrder = evt.fifoOrder then
      ⟨nextTime, c.eventFifoId, evt.eventType, nextScheduleTime, e.origin⟩ else e
    eventFifoId := c.eventFifoId + 1 }

/-- What follows a callback; `none` if the entry is not in the heap any more. -/
def callbackReturns (c : CoreTiming) (handle : Nat) (eventType : EventType) (sequenceNum : Nat)
    (oneShot : Bool) (newScheduleTime : Option Int) : Option CoreTiming :=
  if oneShot then some { c with globalTimer := c.clock, advance := .looping }
  else if sequenceNum ≠ c.sequenceNumber eventType then some { c with advance := .looping }
  else
    (c.queue.find? fun e => decide (e.fifoOrder = handle)).map fun evt =>
      { c.rearm evt newScheduleTime with globalTimer := c.clock, advance := .looping }

/-- One step; `none` if a lock is held or the clock would go back. -/
def step (c : CoreTiming) : Action → Option (CoreTiming × List Firing)
  | .tick clock => if c.clock ≤ clock then some ({ c with clock := clock }, []) else none
  | .pauseEnd => some ({ c with pauseEndTime := c.clock }, [])
  | .scheduleEvent ns eventType absoluteTime =>
      if c.unlocked then some (c.schedule ns 0 eventType absoluteTime, []) else none
  | .scheduleLoopingEvent startTime reschedTime eventType absoluteTime =>
      if c.unlocked then some (c.schedule startTime reschedTime eventType absoluteTime, []) else none
  | .unscheduleEvent eventType =>
      if c.unlocked then some (c.unscheduleEvent eventType, []) else none
  | .clearPendingEvents =>
      if c.advance = .idle then some ({ c with queue := [] }, []) else none
  | .advance =>
      if c.advance = .idle then some ({ c with globalTimer := c.clock, advance := .looping }, [])
      else none
  | .loop => if c.advance = .looping then some c.fire else none
  | .callbackReturns newScheduleTime =>
      match c.advance with
      | .calling handle eventType sequenceNum oneShot =>
          (c.callbackReturns handle eventType sequenceNum oneShot newScheduleTime).map (·, [])
      | _ => none

end CoreTiming

/-! ## The least event -/

theorem Event.before_trans {a b e : Event} (h : a.before b) (h' : b.before e) : a.before e := by
  unfold Event.before at *; omega

theorem top_eq_none_iff {queue : List Event} : top queue = none ↔ queue = [] := by
  cases queue with
  | nil => exact ⟨fun _ => rfl, fun _ => rfl⟩
  | cons e queue =>
    refine iff_of_false (fun h => ?_) (List.cons_ne_nil e queue)
    unfold top at h
    split at h <;> cases h

theorem top_spec {queue : List Event} {evt : Event} (h : top queue = some evt) :
    evt ∈ queue ∧ ∀ e ∈ queue, ¬ e.before evt := by
  induction queue generalizing evt with
  | nil => cases h
  | cons e queue ih =>
    unfold top at h
    cases hrest : top queue with
    | none =>
      rw [hrest] at h
      obtain rfl := Option.some.inj h
      obtain rfl := top_eq_none_iff.mp hrest
      refine ⟨List.mem_cons_self, ?_⟩
      intro a ha
      rw [List.mem_singleton.mp ha]
      unfold Event.before; omega
    | some least =>
      rw [hrest] at h
      obtain ⟨hmem, hleast⟩ := ih hrest
      obtain rfl := Option.some.inj h
      split
      · rename_i hbefore
        refine ⟨List.mem_cons_of_mem _ hmem, ?_⟩
        intro a ha
        rcases List.mem_cons.mp ha with rfl | ha
        · intro hcycle
          have hself := Event.before_trans hbefore hcycle
          unfold Event.before at hself
          omega
        · exact hleast a ha
      · rename_i hbefore
        refine ⟨List.mem_cons_self, ?_⟩
        intro a ha
        rcases List.mem_cons.mp ha with rfl | ha
        · unfold Event.before
          omega
        · intro hcycle
          have hnot := hleast a ha
          unfold Event.before at *; omega

/-- EVERY heap has this top: no two events have one number, so only one of them can be the least. -/
theorem top_eq_of_least {queue : List Event} (horders : (queue.map (·.fifoOrder)).Nodup) {evt : Event}
    (hmem : evt ∈ queue) (hleast : ∀ e ∈ queue, ¬ e.before evt) : top queue = some evt := by
  have hsome : top queue ≠ none := fun h => List.ne_nil_of_mem hmem (top_eq_none_iff.mp h)
  obtain ⟨least, htop⟩ := Option.ne_none_iff_exists'.mp hsome
  obtain ⟨hin, hbefore⟩ := top_spec htop
  have hforward := hleast least hin
  have hback := hbefore evt hmem
  unfold Event.before at hforward hback
  have hsame : least.fifoOrder = evt.fifoOrder := by omega
  rw [htop, List.inj_on_of_nodup_map horders hin hmem hsame]

end Suyu.Core.Timing
