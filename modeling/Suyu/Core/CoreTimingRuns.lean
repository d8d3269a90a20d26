import Mathlib
import Suyu.Core.CoreTiming

/-
  Runs of `CoreTiming`: events fire in order, and never after they were unscheduled.

  1. **Specification (`Orderly`, `OrderlyStep`)** - nothing fires early, twice or out of order, a looping
     event keeps one entry, and what is unscheduled neither waits nor fires.

  2. **The crux (`Inv`)** - while a looping callback runs its entry is STILL in the heap, unless the
     sequence number of its type has changed; so the reference that `Advance` keeps is used only while
     it is good.
-/

namespace Suyu.Core.Timing

open CoreTiming

/-! ## Runs -/

/-- Steps from one state to another, with the callbacks they make. -/
inductive Steps : CoreTiming → List Action → CoreTiming → List Firing → Prop
  | refl (c : CoreTiming) : Steps c [] c []
  | snoc {c c' c'' : CoreTiming} {actions : List Action} {a : Action} {log out : List Firing}
      (h : Steps c actions c' log) (hs : c'.step a = some (c'', out)) :
      Steps c (actions ++ [a]) c'' (log ++ out)

/-- An action that schedules an event of a type. -/
def Action.schedules (eventType : EventType) : Action → Prop
  | .scheduleEvent _ type _ => type = eventType
  | .scheduleLoopingEvent _ _ type _ => type = eventType
  | _ => False

/-! ## Specification -/

/-- What holds in every state that is reached, with the callbacks so far. -/
structure Orderly (c : CoreTiming) (log : List Firing) : Prop where
  onTime : ∀ f ∈ log, f.event.time ≤ f.clock
  once : log.Pairwise fun f g => f.event.rescheduleTime = 0 → g.event.origin ≠ f.event.origin
  single : (c.queue.map (·.origin)).Nodup
  returns : ∀ handle eventType sequenceNum oneShot newScheduleTime,
    c.advance = .calling handle eventType sequenceNum oneShot →
      (c.step (.callbackReturns newScheduleTime)).isSome = true

/-- What holds of every step: a callback is for the least pending event, a looping event stays pending
    unless it is unscheduled or cleared, and unscheduling leaves the other types alone. -/
structure OrderlyStep (c : CoreTiming) (a : Action) (c' : CoreTiming) (out : List Firing) : Prop where
  least : ∀ f ∈ out, f.event ∈ c.queue ∧ ∀ e ∈ c.queue, e ≠ f.event → f.event.before e
  keeps : ∀ e ∈ c.queue, e.rescheduleTime ≠ 0 → a ≠ .unscheduleEvent e.eventType →
    a ≠ .clearPendingEvents → e.origin ∈ c'.queue.map (·.origin)
  unscheduled : ∀ eventType, a = .unscheduleEvent eventType →
    c'.queue = c.queue.filter fun e => decide (e.eventType ≠ eventType)

/-! ## The invariant -/

structure Inv (c : CoreTiming) : Prop where
  origins : (c.queue.map (·.origin)).Nodup
  orders : (c.queue.map (·.fifoOrder)).Nodup
  bound : ∀ e ∈ c.queue, e.fifoOrder < c.eventFifoId ∧ e.origin < c.eventFifoId
  timer : c.globalTimer ≤ c.clock
  calling : ∀ handle eventType sequenceNum, c.advance = .calling handle eventType sequenceNum false →
    sequenceNum ≤ c.sequenceNumber eventType ∧ (sequenceNum = c.sequenceNumber eventType →
      ∃ e ∈ c.queue, e.fifoOrder = handle ∧ e.eventType = eventType)

theorem inv_initial (clock : Int) : Inv (.initial clock) where
  origins := List.nodup_nil
  orders := List.nodup_nil
  bound := List.forall_mem_nil _
  timer := Int.le_refl _
  calling := fun _ _ _ h => (by cases h)

variable {c c' : CoreTiming} {eventType : EventType} {out log : List Firing} {actions : List Action}

theorem Inv.sub (h : Inv c) {queue : List Event} (hsub : queue.Sublist c.queue) :
    (queue.map (·.origin)).Nodup ∧ (queue.map (·.fifoOrder)).Nodup ∧
      ∀ e ∈ queue, e.fifoOrder < c.eventFifoId ∧ e.origin < c.eventFifoId :=
  ⟨h.origins.sublist (hsub.map _), h.orders.sublist (hsub.map _), fun e he => h.bound e (hsub.subset he)⟩

theorem nodup_concat_fresh {l : List Nat} {n : Nat} (h : l.Nodup) (hn : ∀ a ∈ l, a < n) :
    (l ++ [n]).Nodup := by
  rw [← List.concat_eq_append]
  exact (List.nodup_concat _ _).mpr ⟨fun hmem => absurd (hn n hmem) (Nat.lt_irrefl n), h⟩

theorem Inv.schedule (h : Inv c) (ns reschedTime : Int) (eventType : EventType) (absoluteTime : Bool) :
    Inv (c.schedule ns reschedTime eventType absoluteTime) where
  origins := by
    show ((c.queue ++ [_]).map Event.origin).Nodup
    rw [List.map_append]
    refine nodup_concat_fresh h.origins ?_
    intro a ha
    obtain ⟨e, he, rfl⟩ := List.mem_map.mp ha; exact (h.bound e he).2
  orders := by
    show ((c.queue ++ [_]).map Event.fifoOrder).Nodup
    rw [List.map_append]
    refine nodup_concat_fresh h.orders ?_
    intro a ha
    obtain ⟨e, he, rfl⟩ := List.mem_map.mp ha; exact (h.bound e he).1
  bound := by
    intro e he
    show e.fifoOrder < c.eventFifoId + 1 ∧ e.origin < c.eventFifoId + 1
    rcases List.mem_append.mp he with he | he
    · have hb := h.bound e he
      omega
    · rw [List.mem_singleton.mp he]; exact ⟨Nat.lt_succ_self _, Nat.lt_succ_self _⟩
  timer := h.timer
  calling := by
    intro handle type sequenceNum hcalling
    obtain ⟨hle, hin⟩ := h.calling handle type sequenceNum hcalling
    refine ⟨hle, fun heq => ?_⟩
    obtain ⟨e, he, hh⟩ := hin heq; exact ⟨e, List.mem_append_left _ he, hh⟩

theorem Inv.unscheduleEvent (h : Inv c) (eventType : EventType) :
    Inv (c.unscheduleEvent eventType) := by
  obtain ⟨horigins, horders, hbound⟩ := h.sub
    (List.filter_sublist (p := fun e => decide (e.eventType ≠ eventType)) (l := c.queue))
  refine ⟨horigins, horders, hbound, h.timer, ?_⟩
  intro handle type sequenceNum hcalling
  obtain ⟨hle, hin⟩ := h.calling handle type sequenceNum hcalling
  show sequenceNum ≤ Function.update c.sequenceNumber eventType _ type ∧
    (sequenceNum = Function.update c.sequenceNumber eventType _ type → _)
  by_cases htype : type = eventType
  · -- The sequence number has moved past the one that `Advance` remembers.
    subst htype
    rw [Function.update_self]
    exact ⟨by omega, fun heq => by omega⟩
  · rw [Function.update_of_ne htype]
    refine ⟨hle, fun heq => ?_⟩
    obtain ⟨e, he, hh, ht⟩ := hin heq
    refine ⟨e, List.mem_filter.mpr ⟨he, ?_⟩, hh, ht⟩
    rw [ht]; simpa using htype

theorem Inv.fire (h : Inv c) : Inv c.fire.1 := by
  unfold CoreTiming.fire
  split
  · exact ⟨h.origins, h.orders, h.bound, h.timer, fun _ _ _ hc => (by cases hc)⟩
  · rename_i evt htop
    obtain ⟨hmem, -⟩ := top_spec htop
    split
    · by_cases hzero : evt.rescheduleTime = 0
      · simp only [hzero, if_pos]
        obtain ⟨horigins, horders, hbound⟩ := h.sub (List.filter_sublist
          (p := fun e => decide (e.fifoOrder ≠ evt.fifoOrder)) (l := c.queue))
        exact ⟨horigins, horders, hbound, h.timer, fun _ _ _ hc => (by cases hc)⟩
      · rw [if_neg hzero]
        refine ⟨h.origins, h.orders, h.bound, h.timer, ?_⟩
        intro handle type sequenceNum hcalling
        obtain ⟨rfl, rfl, rfl, -⟩ := AdvanceState.calling.inj hcalling
        exact ⟨Nat.le_refl _, fun _ => ⟨evt, hmem, rfl, rfl⟩⟩
    · exact ⟨h.origins, h.orders, h.bound, h.timer, fun _ _ _ hc => (by cases hc)⟩

theorem Inv.rearm (h : Inv c) {evt : Event} (newScheduleTime : Option Int) :
    Inv { c.rearm evt newScheduleTime with globalTimer := c.clock, advance := .looping } := by
  have hmap : ∀ {β : Type} (f : Event → β) (new : Event → Event),
      (c.queue.map fun e => if e.fifoOrder = evt.fifoOrder then new e else e).map f =
        c.queue.map fun e => if e.fifoOrder = evt.fifoOrder then f (new e) else f e := by
    intro β f new
    rw [List.map_map]
    refine List.map_congr_left fun e _ => ?_
    show f (if _ then _ else _) = _
    split <;> rfl
  refine ⟨?_, ?_, ?_, Int.le_refl _, fun _ _ _ hc => (by cases hc)⟩
  · show (List.map Event.origin (List.map _ c.queue)).Nodup
    rw [hmap]
    have hsame : (c.queue.map fun e => if e.fifoOrder = evt.fifoOrder then e.origin else e.origin) =
        c.queue.map (·.origin) := List.map_congr_left fun e _ => ite_self _
    rw [hsame]
    exact h.origins
  · show (List.map Event.fifoOrder (List.map _ c.queue)).Nodup
    rw [hmap]
    -- One order is replaced by one that no entry has.
    refine (List.nodup_map_iff_inj_on (List.Nodup.of_map _ h.orders)).mpr ?_
    intro a ha b hb heq
    have hinj := List.inj_on_of_nodup_map h.orders ha hb
    have hafresh := (h.bound a ha).1
    have hbfresh := (h.bound b hb).1
    have heq' : (if a.fifoOrder = evt.fifoOrder then c.eventFifoId else a.fifoOrder) =
      (if b.fifoOrder = evt.fifoOrder then c.eventFifoId else b.fifoOrder) := heq
    split at heq' <;> split at heq'
    · rename_i h1 h2
      exact hinj (h1.trans h2.symm)
    · omega
    · omega
    · exact hinj heq'
  · intro e he
    show e.fifoOrder < c.eventFifoId + 1 ∧ e.origin < c.eventFifoId + 1
    obtain ⟨a, ha, rfl⟩ := List.mem_map.mp he
    have hb := h.bound a ha
    split
    · exact ⟨Nat.lt_succ_self _, by simp only; omega⟩
    · omega

theorem Inv.callbackReturns (h : Inv c) {handle : Nat} {sequenceNum : Nat} {oneShot : Bool}
    {newScheduleTime : Option Int}
    (hc : c.callbackReturns handle eventType sequenceNum oneShot newScheduleTime = some c') :
    Inv c' := by
  unfold CoreTiming.callbackReturns at hc
  split at hc
  · obtain rfl := Option.some.inj hc
    exact ⟨h.origins, h.orders, h.bound, Int.le_refl _, fun _ _ _ hcall => (by cases hcall)⟩
  split at hc
  · obtain rfl := Option.some.inj hc
    exact ⟨h.origins, h.orders, h.bound, h.timer, fun _ _ _ hcall => (by cases hcall)⟩
  · obtain ⟨evt, -, rfl⟩ := Option.map_eq_some_iff.mp hc; exact h.rearm newScheduleTime

/-! ## Steps -/

/-- What the actions do. -/
inductive Effect (c : CoreTiming) : Action → CoreTiming → List Firing → Prop
  | tick {clock : Int} (hle : c.clock ≤ clock) : Effect c (.tick clock) { c with clock := clock } []
  | pauseEnd : Effect c .pauseEnd { c with pauseEndTime := c.clock } []
  | schedule {a : Action} {eventType : EventType} (ha : a.schedules eventType)
      (ns reschedTime : Int) (absoluteTime : Bool) :
      Effect c a (c.schedule ns reschedTime eventType absoluteTime) []
  | unschedule (eventType : EventType) :
      Effect c (.unscheduleEvent eventType) (c.unscheduleEvent eventType) []
  | clear (hidle : c.advance = .idle) : Effect c .clearPendingEvents { c with queue := [] } []
  | advance : Effect c .advance { c with globalTimer := c.clock, advance := .looping } []
  | loop : Effect c .loop c.fire.1 c.fire.2
  | returns {c' : CoreTiming} {handle : Nat} {eventType : EventType} {sequenceNum : Nat}
      {oneShot : Bool} {newScheduleTime : Option Int}
      (hcalling : c.advance = .calling handle eventType sequenceNum oneShot)
      (hc : c.callbackReturns handle eventType sequenceNum oneShot newScheduleTime = some c') :
      Effect c (.callbackReturns newScheduleTime) c' []

theorem step_effect {a : Action} (hs : c.step a = some (c', out)) : Effect c a c' out := by
  cases a with
  | tick clock =>
    obtain ⟨hle, ⟨⟩⟩ := Option.ite_none_right_eq_some.mp hs; exact .tick hle
  | pauseEnd =>
    obtain ⟨rfl, rfl⟩ := Prod.mk.inj (Option.some.inj hs); exact .pauseEnd
  | scheduleEvent ns eventType absoluteTime =>
    obtain ⟨-, ⟨⟩⟩ := Option.ite_none_right_eq_some.mp hs
    have ha : (Action.scheduleEvent ns eventType absoluteTime).schedules eventType := rfl
    exact .schedule ha ns 0 absoluteTime
  | scheduleLoopingEvent startTime reschedTime eventType absoluteTime =>
    obtain ⟨-, ⟨⟩⟩ := Option.ite_none_right_eq_some.mp hs
    have ha : (Action.scheduleLoopingEvent startTime reschedTime eventType
      absoluteTime).schedules eventType := rfl
    exact .schedule ha startTime reschedTime absoluteTime
  | unscheduleEvent eventType =>
    obtain ⟨-, ⟨⟩⟩ := Option.ite_none_right_eq_some.mp hs; exact .unschedule eventType
  | clearPendingEvents =>
    obtain ⟨hidle, ⟨⟩⟩ := Option.ite_none_right_eq_some.mp hs; exact .clear hidle
  | advance =>
    obtain ⟨-, ⟨⟩⟩ := Option.ite_none_right_eq_some.mp hs; exact .advance
  | loop =>
    obtain ⟨-, hfire⟩ := Option.ite_none_right_eq_some.mp hs
    have hfire := Option.some.inj hfire
    rw [show c' = c.fire.1 from (congrArg Prod.fst hfire).symm,
      show out = c.fire.2 from (congrArg Prod.snd hfire).symm]
    exact .loop
  | callbackReturns newScheduleTime =>
    simp only [CoreTiming.step] at hs
    split at hs
    · rename_i hcalling
      obtain ⟨d, hd, heq⟩ := Option.map_eq_some_iff.mp hs
      obtain ⟨rfl, rfl⟩ := Prod.mk.inj heq
      exact .returns hcalling hd
    · cases hs

theorem Inv.step {c c' : CoreTiming} {a : Action} {out : List Firing} (h : Inv c)
    (he : Effect c a c' out) : Inv c' := by
  cases he with
  | tick hle => exact ⟨h.origins, h.orders, h.bound, Int.le_trans h.timer hle, h.calling⟩
  | pauseEnd => exact ⟨h.origins, h.orders, h.bound, h.timer, h.calling⟩
  | schedule ha ns reschedTime absoluteTime => exact h.schedule _ _ _ _
  | unschedule eventType => exact h.unscheduleEvent eventType
  | clear hidle =>
    refine ⟨List.nodup_nil, List.nodup_nil, List.forall_mem_nil _, h.timer, ?_⟩
    intro handle eventType sequenceNum hcalling
    rw [show c.advance = _ from hidle] at hcalling; cases hcalling
  | advance => exact ⟨h.origins, h.orders, h.bound, Int.le_refl _, fun _ _ _ hc => (by cases hc)⟩
  | loop => exact h.fire
  | returns hcalling hc => exact h.callbackReturns hc

theorem fire_least {c : CoreTiming} (h : Inv c) {f : Firing} (hf : f ∈ c.fire.2) :
    f.event.time ≤ f.clock ∧ f.event ∈ c.queue ∧
      (∀ e ∈ c.queue, e ≠ f.event → f.event.before e) ∧
      (f.event.rescheduleTime = 0 → c.fire.1.queue =
        c.queue.filter fun e => decide (e.fifoOrder ≠ f.event.fifoOrder)) := by
  unfold CoreTiming.fire at hf ⊢
  split at hf
  · cases hf
  · rename_i evt htop
    obtain ⟨hmem, hleast⟩ := top_spec htop
    split at hf
    · rename_i hdue
      rw [List.mem_singleton.mp hf]
      refine ⟨Int.le_trans hdue h.timer, hmem, ?_, ?_⟩
      · intro e he hne
        have hnot := hleast e he
        -- Two entries never have the same order.
        have horder : e.fifoOrder ≠ evt.fifoOrder :=
          fun heq => hne (List.inj_on_of_nodup_map h.orders he hmem heq)
        unfold Event.before at *
        simp only
        omega
      · intro hzero
        simp only at hzero ⊢
        rw [if_pos hdue]; simp only [hzero, if_pos]
    · cases hf

theorem fire_queue (c : CoreTiming) : c.fire.1.queue.Sublist c.queue ∧
    ∀ e ∈ c.queue, e.rescheduleTime ≠ 0 → Inv c → e ∈ c.fire.1.queue := by
  unfold CoreTiming.fire
  split
  · exact ⟨List.Sublist.refl _, fun e he _ _ => he⟩
  · rename_i evt htop
    obtain ⟨hmem, -⟩ := top_spec htop
    split
    · dsimp only
      split
      · rename_i hzero
        refine ⟨List.filter_sublist, ?_⟩
        intro e he hloop h
        refine List.mem_filter.mpr ⟨he, ?_⟩
        have hne : e.fifoOrder ≠ evt.fifoOrder := by
          intro heq
          rw [List.inj_on_of_nodup_map h.orders he hmem heq] at hloop; exact hloop hzero
        simpa using hne
      · exact ⟨List.Sublist.refl _, fun e he _ _ => he⟩
    · exact ⟨List.Sublist.refl _, fun e he _ _ => he⟩

theorem callbackReturns_origins {handle : Nat} {sequenceNum : Nat} {oneShot : Bool}
    {newScheduleTime : Option Int}
    (hc : c.callbackReturns handle eventType sequenceNum oneShot newScheduleTime = some c') :
    c'.queue.map (·.origin) = c.queue.map (·.origin) ∧ c.eventFifoId ≤ c'.eventFifoId := by
  unfold CoreTiming.callbackReturns at hc
  split at hc
  · obtain rfl := Option.some.inj hc; exact ⟨rfl, Nat.le_refl _⟩
  split at hc
  · obtain rfl := Option.some.inj hc
    exact ⟨rfl, Nat.le_refl _⟩
  · obtain ⟨evt, -, rfl⟩ := Option.map_eq_some_iff.mp hc
    refine ⟨?_, Nat.le_succ _⟩
    show List.map Event.origin (List.map _ c.queue) = _
    rw [List.map_map]
    refine List.map_congr_left fun e _ => ?_
    show (if _ then _ else _ : Event).origin = _
    split <;> rfl

theorem Inv.orderlyStep {a : Action} (h : Inv c) (he : Effect c a c' out) : OrderlyStep c a c' out := by
  have hnone : ∀ f ∈ ([] : List Firing), f.event ∈ c.queue ∧
      ∀ e ∈ c.queue, e ≠ f.event → f.event.before e := List.forall_mem_nil _
  have hmem : ∀ e ∈ c.queue, e.origin ∈ c.queue.map (·.origin) := fun e he => List.mem_map_of_mem he
  cases he with
  | tick hle => exact ⟨hnone, fun e he _ _ _ => hmem e he, fun _ ha => (by cases ha)⟩
  | pauseEnd => exact ⟨hnone, fun e he _ _ _ => hmem e he, fun _ ha => (by cases ha)⟩
  | schedule ha ns reschedTime absoluteTime =>
    refine ⟨hnone, fun e he _ _ _ => ?_, ?_⟩
    · exact List.mem_map_of_mem (List.mem_append_left _ he)
    · intro t heq
      subst heq; exact ha.elim
  | unschedule eventType =>
    refine ⟨hnone, fun e he _ hne _ => ?_, fun t heq => ?_⟩
    · refine List.mem_map_of_mem (List.mem_filter.mpr ⟨he, ?_⟩)
      have htype : e.eventType ≠ eventType := fun heq => hne (heq ▸ rfl)
      simpa using htype
    · cases heq
      rfl
  | clear hidle => exact ⟨hnone, fun e _ _ _ hclear => absurd rfl hclear, fun _ ha => (by cases ha)⟩
  | advance => exact ⟨hnone, fun e he _ _ _ => hmem e he, fun _ ha => (by cases ha)⟩
  | loop =>
    refine ⟨fun f hf => ?_, fun e he hloop _ _ => ?_, fun _ ha => (by cases ha)⟩
    · obtain ⟨-, hin, hleast, -⟩ := fire_least h hf
      exact ⟨hin, hleast⟩
    · exact List.mem_map_of_mem ((fire_queue c).2 e he hloop h)
  | returns hcalling hc =>
    refine ⟨hnone, fun e he _ _ _ => ?_, fun _ ha => (by cases ha)⟩
    rw [(callbackReturns_origins hc).1]; exact hmem e he

/-! ## Runs -/

theorem Effect.origins {a : Action} (he : Effect c a c' out) : c.eventFifoId ≤ c'.eventFifoId ∧
    ∀ i ∈ c'.queue.map (·.origin), i < c.eventFifoId → i ∈ c.queue.map (·.origin) := by
  cases he with
  | tick hle => exact ⟨Nat.le_refl _, fun _ hi _ => hi⟩
  | pauseEnd => exact ⟨Nat.le_refl _, fun _ hi _ => hi⟩
  | schedule ha ns reschedTime absoluteTime =>
    refine ⟨Nat.le_succ _, fun i hi hlt => ?_⟩
    obtain ⟨e, he, rfl⟩ := List.mem_map.mp hi
    rcases List.mem_append.mp he with he | he
    · exact List.mem_map_of_mem he
    · rw [List.mem_singleton.mp he] at hlt; exact absurd hlt (Nat.lt_irrefl _)
  | unschedule eventType =>
    exact ⟨Nat.le_refl _, fun _ hi _ => (List.filter_sublist.map _).subset hi⟩
  | clear hidle => exact ⟨Nat.le_refl _, fun _ hi _ => (by cases hi)⟩
  | advance => exact ⟨Nat.le_refl _, fun _ hi _ => hi⟩
  | loop =>
    have hid : c.fire.1.eventFifoId = c.eventFifoId := by
      unfold CoreTiming.fire
      split
      · rfl
      · split <;> rfl
    exact ⟨hid.ge, fun _ hi _ => ((fire_queue c).1.map _).subset hi⟩
  | returns hcalling hc =>
    obtain ⟨horigins, hle⟩ := callbackReturns_origins hc; exact ⟨hle, fun i hi _ => horigins ▸ hi⟩

/-- What the log of the callbacks says about the queue. -/
structure LogInv (c : CoreTiming) (log : List Firing) : Prop where
  onTime : ∀ f ∈ log, f.event.time ≤ f.clock
  once : log.Pairwise fun f g => f.event.rescheduleTime = 0 → g.event.origin ≠ f.event.origin
  bound : ∀ f ∈ log, f.event.origin < c.eventFifoId
  gone : ∀ f ∈ log, f.event.rescheduleTime = 0 → f.event.origin ∉ c.queue.map (·.origin)

theorem LogInv.step {c c' : CoreTiming} {log : List Firing} {a : Action} {out : List Firing}
    (h : LogInv c log) (hc : Inv c) (he : Effect c a c' out) : LogInv c' (log ++ out) := by
  obtain ⟨hid, horigins⟩ := he.origins
  have hgone : ∀ f ∈ log, f.event.rescheduleTime = 0 → f.event.origin ∉ c'.queue.map (·.origin) :=
    fun f hf hzero hmem => h.gone f hf hzero (horigins _ hmem (h.bound f hf))
  -- An action other than the loop fires nothing.
  by_cases hloop : a = .loop
  swap
  · have hout : out = [] := by
      cases he <;> first | rfl | exact absurd rfl hloop
    rw [hout, List.append_nil]
    exact ⟨h.onTime, h.once, fun f hf => (h.bound f hf).trans_le hid, hgone⟩
  subst hloop
  cases he with
  | schedule ha => exact ha.elim
  | loop =>
    have hnew := fun f hf => @fire_least c hc f hf
    have hshort : c.fire.2.Pairwise fun f g =>
        f.event.rescheduleTime = 0 → g.event.origin ≠ f.event.origin := by
      unfold CoreTiming.fire
      split
      · exact List.Pairwise.nil
      · split
        · exact List.pairwise_singleton _ _
        · exact List.Pairwise.nil
    refine ⟨?_, List.pairwise_append.mpr ⟨h.once, hshort, ?_⟩, ?_, ?_⟩
    · intro f hf
      rcases List.mem_append.mp hf with hf | hf
      · exact h.onTime f hf
      · exact (hnew f hf).1
    · intro f hf g hg hzero heq
      refine h.gone f hf hzero ?_
      rw [← heq]
      exact List.mem_map_of_mem (hnew g hg).2.1
    · intro f hf
      rcases List.mem_append.mp hf with hf | hf
      · exact (h.bound f hf).trans_le hid
      · exact (hc.bound _ (hnew f hf).2.1).2.trans_le hid
    · intro f hf hzero
      rcases List.mem_append.mp hf with hf | hf
      · exact hgone f hf hzero
      · obtain ⟨-, hin, -, hqueue⟩ := hnew f hf
        rw [hqueue hzero]
        intro hmem
        obtain ⟨e, he, heq⟩ := List.mem_map.mp hmem
        obtain ⟨hemem, hne⟩ := List.mem_filter.mp he
        rw [List.inj_on_of_nodup_map hc.origins hemem hin heq] at hne; simp at hne

theorem Steps.inv (h : Steps c actions c' log) (hc : Inv c) : Inv c' := by
  induction h with
  | refl => exact hc
  | snoc _ hs ih => exact ih.step (step_effect hs)

theorem Steps.logInv (h : Steps c actions c' log) (hc : Inv c) : LogInv c' log := by
  induction h with
  | refl =>
    exact ⟨List.forall_mem_nil _, List.Pairwise.nil, List.forall_mem_nil _, List.forall_mem_nil _⟩
  | snoc hrest hs ih => exact ih.step (hrest.inv hc) (step_effect hs)

theorem Steps.origins (h : Steps c actions c' log) (hc : Inv c) : c.eventFifoId ≤ c'.eventFifoId ∧
    (∀ i ∈ c'.queue.map (·.origin), i < c.eventFifoId → i ∈ c.queue.map (·.origin)) ∧
    ∀ f ∈ log, f.event.origin < c.eventFifoId → f.event.origin ∈ c.queue.map (·.origin) := by
  induction h with
  | refl => exact ⟨Nat.le_refl _, fun _ hi _ => hi, List.forall_mem_nil _⟩
  | snoc hrest hs ih =>
    obtain ⟨hid, horigins, hlog⟩ := ih
    have heffect := step_effect hs
    obtain ⟨hid', horigins'⟩ := heffect.origins
    refine ⟨hid.trans hid', fun i hi hlt => horigins i (horigins' i hi (hlt.trans_le hid)) hlt, ?_⟩
    intro f hf hlt
    rcases List.mem_append.mp hf with hf | hf
    · exact hlog f hf hlt
    · have hin := (((hrest.inv hc).orderlyStep heffect).least f hf).1
      exact horigins _ (List.mem_map_of_mem hin) hlt

theorem Effect.absent {a : Action} {t : EventType} (he : Effect c a c' out) (ha : ¬ a.schedules t)
    (h : ∀ e ∈ c.queue, e.eventType ≠ t) : ∀ e ∈ c'.queue, e.eventType ≠ t := by
  cases he with
  | tick hle => exact h
  | pauseEnd => exact h
  | schedule hschedules ns reschedTime absoluteTime =>
    intro e he
    rcases List.mem_append.mp he with he | he
    · exact h e he
    · rw [List.mem_singleton.mp he]
      rintro rfl; exact ha hschedules
  | unschedule eventType => exact fun e he => h e (List.mem_of_mem_filter he)
  | clear hidle => exact List.forall_mem_nil _
  | advance => exact h
  | loop => exact fun e he => h e ((fire_queue c).1.subset he)
  | returns hcalling hc =>
    unfold CoreTiming.callbackReturns at hc
    split at hc
    · obtain rfl := Option.some.inj hc; exact h
    split at hc
    · obtain rfl := Option.some.inj hc
      exact h
    · obtain ⟨evt, hfind, rfl⟩ := Option.map_eq_some_iff.mp hc
      intro e he
      obtain ⟨a, ha, rfl⟩ := List.mem_map.mp he
      split
      · exact h evt (List.mem_of_find?_eq_some hfind)
      · exact h a ha

theorem Steps.absent {t : EventType} (h : Steps c actions c' log) (hc : Inv c)
    (hqueue : ∀ e ∈ c.queue, e.eventType ≠ t) (hactions : ∀ a ∈ actions, ¬ a.schedules t) :
    (∀ e ∈ c'.queue, e.eventType ≠ t) ∧ ∀ f ∈ log, f.event.eventType ≠ t := by
  induction h with
  | refl => exact ⟨hqueue, List.forall_mem_nil _⟩
  | snoc hrest hs ih =>
    obtain ⟨hpending, hlog⟩ := ih fun a ha => hactions a (List.mem_append_left _ ha)
    have heffect := step_effect hs
    refine ⟨heffect.absent (hactions _ (List.mem_append_right _ List.mem_cons_self)) hpending, ?_⟩
    intro f hf
    rcases List.mem_append.mp hf with hf | hf
    · exact hlog f hf
    · exact hpending _ (((hrest.inv hc).orderlyStep heffect).least f hf).1

theorem Inv.returns (h : Inv c) {handle : Nat} {sequenceNum : Nat} {oneShot : Bool}
    (newScheduleTime : Option Int)
    (hcalling : c.advance = .calling handle eventType sequenceNum oneShot) :
    (c.step (.callbackReturns newScheduleTime)).isSome = true := by
  simp only [CoreTiming.step, hcalling, Option.isSome_map]
  unfold CoreTiming.callbackReturns
  split
  · rfl
  split
  · rfl
  · rename_i honeShot hsame
    rw [Bool.eq_false_of_not_eq_true honeShot] at hcalling
    obtain ⟨e, he, hhandle, -⟩ := (h.calling _ _ _ hcalling).2 (not_not.mp hsame)
    rw [Option.isSome_map, List.find?_isSome]; exact ⟨e, he, decide_eq_true hhandle⟩

/-- **The events of `CoreTiming`**, in every state of every run: what has fired was due, and a one-shot
    event has fired at most once; every step fires the least pending event and keeps the looping ones;
    an event that fires later has exactly one entry now; and an event type that is unscheduled neither
    waits nor fires until it is scheduled again. -/
theorem coreTiming_orderly {clock : Int} {actions : List Action} {c : CoreTiming} {log : List Firing}
    (h : Steps (.initial clock) actions c log) :
    Orderly c log ∧
    (∀ a c' out, c.step a = some (c', out) → OrderlyStep c a c' out) ∧
    (∀ actions' c' log', Steps c actions' c' log' → ∀ f ∈ log', f.event.origin < c.eventFifoId →
      ∃! e, e ∈ c.queue ∧ e.origin = f.event.origin) ∧
    (∀ t c₁ out, c.step (.unscheduleEvent t) = some (c₁, out) →
      ∀ actions' c' log', Steps c₁ actions' c' log' → (∀ a ∈ actions', ¬ a.schedules t) →
        (∀ e ∈ c'.queue, e.eventType ≠ t) ∧ ∀ f ∈ log', f.event.eventType ≠ t) := by
  have hinv : Inv c := h.inv (inv_initial clock)
  have hlog : LogInv c log := h.logInv (inv_initial clock)
  refine ⟨⟨hlog.onTime, hlog.once, hinv.origins, ?_⟩, ?_, ?_, ?_⟩
  · intro handle eventType sequenceNum oneShot newScheduleTime hcalling
    exact hinv.returns newScheduleTime hcalling
  · intro a c' out hs
    exact hinv.orderlyStep (step_effect hs)
  · intro actions' c' log' hsteps f hf hlt
    obtain ⟨e, he, heq⟩ := List.mem_map.mp ((hsteps.origins hinv).2.2 f hf hlt)
    refine ⟨e, ⟨he, heq⟩, ?_⟩
    rintro e' ⟨he', heq'⟩
    exact List.inj_on_of_nodup_map hinv.origins he' he (heq'.trans heq.symm)
  · intro t c₁ out hs actions' c' log' hsteps hactions
    have heffect := step_effect hs
    have hqueue := (hinv.orderlyStep heffect).unscheduled t rfl
    refine hsteps.absent (hinv.step heffect) ?_ hactions
    intro e he
    rw [hqueue] at he; simpa using (List.mem_filter.mp he).2

/-- A one-shot event of type 2, and a looping one of type 1 that is unscheduled while its second
    callback runs. -/
def exampleActions : List Action :=
  [.scheduleLoopingEvent 5 10 1 true, .scheduleEvent 7 2 true, .tick 20, .advance, .loop,
    .callbackReturns none, .loop, .callbackReturns none, .loop, .unscheduleEvent 1]

/-- The state and the callbacks after some actions. -/
def runActions (c : CoreTiming) (actions : List Action) : Option (CoreTiming × List Firing) :=
  actions.foldlM (fun s a => (s.1.step a).map fun r => (r.1, s.2 ++ r.2)) (c, [])

theorem runActions_steps (h : runActions c actions = some (c', log)) : Steps c actions c' log := by
  induction actions using List.reverseRecOn generalizing c' log with
  | nil =>
    obtain ⟨rfl, rfl⟩ := Prod.mk.inj (Option.some.inj h); exact .refl c
  | append_singleton actions a ih =>
    unfold runActions at h
    rw [List.foldlM_append] at h
    obtain ⟨⟨d, log'⟩, hd, hlast⟩ := Option.bind_eq_some_iff.mp h
    obtain ⟨r, hr, heq⟩ := Option.bind_eq_some_iff.mp hlast
    obtain ⟨⟨d', out⟩, hstep, rfl⟩ := Option.map_eq_some_iff.mp hr
    obtain ⟨rfl, rfl⟩ := Prod.mk.inj (Option.some.inj heq); exact .snoc (ih hd) hstep

/-- The looping event fires at 5 and at 15, the one-shot event at 7, in this order. -/
theorem coreTiming_orderly_example : ∃ c log,
    runActions (.initial 0) exampleActions = some (c, log) ∧
    log.map (fun f => (f.event.eventType, f.event.time)) = [(1, 5), (2, 7), (1, 15)] ∧
    Orderly c log := by
  have hrun : (runActions (.initial 0) exampleActions).map
      (fun s => s.2.map fun f => (f.event.eventType, f.event.time)) =
      some [(1, 5), (2, 7), (1, 15)] := by
    decide +kernel
  obtain ⟨⟨c, log⟩, hc, hlog⟩ := Option.map_eq_some_iff.mp hrun
  exact ⟨c, log, hc, hlog, (coreTiming_orderly (runActions_steps hc)).1⟩

end Suyu.Core.Timing
