import Mathlib
import Suyu.Core.CoreTimingRuns

/-
  `CoreTiming::Advance` as a loop, and the life of the event types.

  1. **Program** - an entry of the queue holds its `EventType` through a `weak_ptr`.  A turn of the loop
     (`LiveTiming.turn`) looks at the top of the heap.  If `lock()` gives the type, its callback runs, and
     the entry is popped or re-armed; if the type is gone, the turn only reads the clock again.

  2. **Specification (`Done`)** - the loop ends, nothing is due, and the least pending time is returned.

  3. **The crux (`LiveTiming.turn_pendingBy`)** - with a live type every turn takes an entry away from
     those that can become due in this call: it is popped, moved past the end of the call, or it was
     unscheduled by the callback, which the sequence number tells.

  4. **When it goes wrong** - an EXPIRED entry is never popped.  Once one is at the top and due, every
     further turn finds it there again.
-/

namespace Suyu.Core.Timing

open Function (update update_self update_of_ne)

open CoreTiming

/-! ## Program -/

/-- The queue, and what its `weak_ptr`s see: the types that someone still holds. -/
structure LiveTiming where
  timing : CoreTiming
  alive : EventType → Bool

/-- What the callback and other threads do while `basic_lock` is free.  `destroy`: the last `shared_ptr`
    outside the loop goes. -/
inductive Meanwhile where
  | tick (clock : Int)
  | pauseEnd
  | scheduleEvent (ns : Int) (eventType : EventType) (absoluteTime : Bool)
  | scheduleLoopingEvent (startTime reschedTime : Int) (eventType : EventType) (absoluteTime : Bool)
  | unscheduleEvent (eventType : EventType)
  | destroy (eventType : EventType)
  deriving DecidableEq, Repr

/-- What a turn of the loop meets: the actions during the callback, what the callback returns, and the
    clock at the end. -/
structure Turn where
  meanwhile : List Meanwhile
  newScheduleTime : Option Int
  clock : Int
  deriving DecidableEq, Repr

namespace LiveTiming

def action (w : LiveTiming) (a : Action) : Option LiveTiming :=
  (w.timing.step a).map fun r => { w with timing := r.1 }

/-- Whoever schedules or unschedules a type holds it. -/
def act (w : LiveTiming) : Meanwhile → Option LiveTiming
  | .tick clock => w.action (.tick clock)
  | .pauseEnd => w.action .pauseEnd
  | .scheduleEvent ns eventType absoluteTime =>
      if w.alive eventType then w.action (.scheduleEvent ns eventType absoluteTime) else none
  | .scheduleLoopingEvent startTime reschedTime eventType absoluteTime =>
      if w.alive eventType then
        w.action (.scheduleLoopingEvent startTime reschedTime eventType absoluteTime)
      else none
  | .unscheduleEvent eventType =>
      if w.alive eventType then w.action (.unscheduleEvent eventType) else none
  | .destroy eventType => some { w with alive := update w.alive eventType false }

/-- `!event_queue.empty() && event_queue.top().time <= global_timer`. -/
def due (w : LiveTiming) : Option Event :=
  (top w.timing.queue).filter fun evt => decide (evt.time ≤ w.timing.globalTimer)

/-- The callback of the event at the top, up to where the loop has `basic_lock` again. -/
def callback (w : LiveTiming) (t : Turn) : Option LiveTiming :=
  (t.meanwhile.foldlM act { w with timing := w.timing.fire.1 }).bind (·.action (.tick t.clock))

/-- One turn of the loop for the due event at the top. -/
def turn (w : LiveTiming) (evt : Event) (t : Turn) : Option LiveTiming :=
  if w.alive evt.eventType then (w.callback t).bind (·.action (.callbackReturns t.newScheduleTime))
  else
    -- `lock()` gives nothing, and the entry stays where it is.
    (w.action (.tick t.clock)).map fun w =>
      { w with timing := { w.timing with globalTimer := w.timing.clock } }

/-- The loop, from turn `k` on; `none` if the fuel is used up, or if a turn is not possible. -/
def advanceLoop (turns : Nat → Turn) : Nat → Nat → LiveTiming → Option (Option Int × LiveTiming)
  | 0, _, _ => none
  | fuel + 1, k, w =>
      match w.due with
      | none => some ((top w.timing.queue).map (·.time), w)
      | some evt => (w.turn evt (turns k)).bind (advanceLoop turns fuel (k + 1))

def advance (w : LiveTiming) (turns : Nat → Turn) (fuel : Nat) : Option (Option Int × LiveTiming) :=
  (w.action .advance).bind (advanceLoop turns fuel 0)

end LiveTiming

/-! ## Specification -/

/-- The state at the head of turn `k` of the loop. -/
inductive Reaches (turns : Nat → Turn) (start : LiveTiming) : Nat → LiveTiming → Prop
  | start : Reaches turns start 0 start
  | next {k : Nat} {w w' : LiveTiming} {evt : Event} (h : Reaches turns start k w)
      (hdue : w.due = some evt) (hturn : w.turn evt (turns k) = some w') :
      Reaches turns start (k + 1) w'

/-- What the call may assume of its surroundings, when no clock reading of it is past `last`: callbacks
    return, and what they schedule, or a period moves, is not due before the end of the call. -/
structure Quiet (turns : Nat → Turn) (start : LiveTiming) (last : Int) : Prop where
  begins : start.timing.clock ≤ last
  clock : ∀ k, (turns k).clock ≤ last
  returns : ∀ k w evt, Reaches turns start k w → w.due = some evt →
    if w.alive evt.eventType then (w.callback (turns k)).isSome else w.timing.clock ≤ (turns k).clock
  notDue : ∀ k w evt w', Reaches turns start k w → w.due = some evt → w.alive evt.eventType →
    w.turn evt (turns k) = some w' →
      ∀ e ∈ w'.timing.queue, w.timing.eventFifoId ≤ e.fifoOrder → last < e.time

/-- The states of an emulator: anyone may act while no turn holds the lock, and `Advance` runs its
    turns. -/
inductive Reachable : LiveTiming → Prop
  | initial (clock : Int) : Reachable ⟨.initial clock, fun _ => true⟩
  | act {w w' : LiveTiming} (m : Meanwhile) (h : Reachable w) (hact : w.act m = some w') : Reachable w'
  | clear {w w' : LiveTiming} (h : Reachable w) (hact : w.action .clearPendingEvents = some w') :
      Reachable w'
  | advance {w w' : LiveTiming} (h : Reachable w) (hact : w.action .advance = some w') : Reachable w'
  | turn {w w' : LiveTiming} {evt : Event} (t : Turn) (h : Reachable w) (hdue : w.due = some evt)
      (hturn : w.turn evt t = some w') : Reachable w'
  | ends {w w' : LiveTiming} (h : Reachable w) (hdue : w.due = none) (hact : w.action .loop = some w') :
      Reachable w'

/-! ## The invariant -/

namespace LiveTiming

variable {w w' : LiveTiming}

theorem action_effect {a : Action} (ha : w.action a = some w') :
    w'.alive = w.alive ∧ ∃ out, Effect w.timing a w'.timing out := by
  obtain ⟨⟨c, out⟩, hs, rfl⟩ := Option.map_eq_some_iff.mp ha; exact ⟨rfl, out, step_effect hs⟩

theorem action_inv {a : Action} (h : Inv w.timing) (ha : w.action a = some w') : Inv w'.timing := by
  obtain ⟨-, out, heffect⟩ := action_effect ha; exact h.step heffect

theorem act_cases {m : Meanwhile} (hact : w.act m = some w') : w'.timing = w.timing ∨
    ∃ a, w.action a = some w' ∧ ((∃ clock, a = .tick clock) ∨ a = .pauseEnd ∨
      (∃ t, a.schedules t) ∨ ∃ t, a = .unscheduleEvent t) := by
  cases m with
  | tick clock => exact .inr ⟨_, hact, .inl ⟨clock, rfl⟩⟩
  | pauseEnd => exact .inr ⟨_, hact, .inr (.inl rfl)⟩
  | scheduleEvent ns t absoluteTime =>
    obtain ⟨-, hact⟩ := Option.ite_none_right_eq_some.mp hact
    exact .inr ⟨_, hact, .inr (.inr (.inl ⟨t, rfl⟩))⟩
  | scheduleLoopingEvent startTime reschedTime t absoluteTime =>
    obtain ⟨-, hact⟩ := Option.ite_none_right_eq_some.mp hact
    exact .inr ⟨_, hact, .inr (.inr (.inl ⟨t, rfl⟩))⟩
  | unscheduleEvent t =>
    obtain ⟨-, hact⟩ := Option.ite_none_right_eq_some.mp hact
    exact .inr ⟨_, hact, .inr (.inr (.inr ⟨t, rfl⟩))⟩
  | destroy t =>
    obtain rfl := Option.some.inj hact; exact .inl rfl

theorem act_inv {m : Meanwhile} (h : Inv w.timing) (hact : w.act m = some w') : Inv w'.timing := by
  rcases act_cases hact with heq | ⟨a, ha, -⟩
  · rw [heq]
    exact h
  · exact action_inv h ha

theorem acts_inv {ms : List Meanwhile} (h : Inv w.timing) (hacts : ms.foldlM act w = some w') :
    Inv w'.timing := by
  induction ms generalizing w with
  | nil =>
    obtain rfl := Option.some.inj hacts; exact h
  | cons m ms ih =>
    rw [List.foldlM_cons] at hacts
    obtain ⟨w₁, hact, hrest⟩ := Option.bind_eq_some_iff.mp hacts
    exact ih (act_inv h hact) hrest

theorem due_spec {evt : Event} (hdue : w.due = some evt) :
    top w.timing.queue = some evt ∧ evt.time ≤ w.timing.globalTimer ∧ evt ∈ w.timing.queue := by
  obtain ⟨htop, hle⟩ := Option.filter_eq_some_iff.mp hdue
  exact ⟨htop, of_decide_eq_true hle, (top_spec htop).1⟩

theorem fire_due {evt : Event} (hdue : w.due = some evt) : w.timing.fire.1 = { w.timing with
    queue := if evt.rescheduleTime = 0 then
        w.timing.queue.filter fun e => decide (e.fifoOrder ≠ evt.fifoOrder)
      else w.timing.queue
    advance := .calling evt.fifoOrder evt.eventType (w.timing.sequenceNumber evt.eventType)
      (decide (evt.rescheduleTime = 0)) } := by
  obtain ⟨htop, hle, -⟩ := due_spec hdue
  rw [CoreTiming.fire, htop]
  simp only [if_pos hle]

end LiveTiming

/-! ## What a turn leaves -/

/-- What is left, in `c'`, of the queue of `c` when the ids had come to `old`. -/
structure Kept (c c' : CoreTiming) (old : Nat) : Prop where
  sub : ∀ e ∈ c'.queue, e.fifoOrder < old → e ∈ c.queue
  sequence : ∀ t, c.sequenceNumber t ≤ c'.sequenceNumber t
  gone : ∀ t, c.sequenceNumber t ≠ c'.sequenceNumber t →
    ∀ e ∈ c'.queue, e.eventType = t → old ≤ e.fifoOrder
  ids : old ≤ c'.eventFifoId
  advance : c'.advance = c.advance

theorem Kept.refl (c : CoreTiming) : Kept c c c.eventFifoId where
  sub := fun _ he _ => he
  sequence := fun _ => Nat.le_refl _
  gone := fun _ hne => absurd rfl hne
  ids := Nat.le_refl _
  advance := rfl

theorem Kept.schedule {c c' : CoreTiming} {old : Nat} (h : Kept c c' old) (ns reschedTime : Int)
    (t : EventType) (absoluteTime : Bool) : Kept c (c'.schedule ns reschedTime t absoluteTime) old where
  sub := by
    intro e he hlt
    rcases List.mem_append.mp he with he | he
    · exact h.sub e he hlt
    · rw [List.mem_singleton.mp he] at hlt; exact absurd h.ids (Nat.not_le.mpr hlt)
  sequence := h.sequence
  gone := by
    intro t' hne e he ht
    rcases List.mem_append.mp he with he | he
    · exact h.gone t' hne e he ht
    · rw [List.mem_singleton.mp he]; exact h.ids
  ids := Nat.le_succ_of_le h.ids
  advance := h.advance

theorem Kept.unscheduleEvent {c c' : CoreTiming} {old : Nat} (h : Kept c c' old) (t : EventType) :
    Kept c (c'.unscheduleEvent t) old where
  sub := fun e he hlt => h.sub e (List.mem_of_mem_filter he) hlt
  sequence := by
    intro t'
    show _ ≤ update c'.sequenceNumber t _ t'
    by_cases htype : t' = t
    · subst htype
      rw [update_self]
      exact Nat.le_succ_of_le (h.sequence t')
    · rw [update_of_ne htype]; exact h.sequence t'
  gone := by
    intro t' hne e he ht
    obtain ⟨he, hkept⟩ := List.mem_filter.mp he
    have htype : t' ≠ t := by
      intro heq
      rw [ht, heq] at hkept; simp at hkept
    have hne' : c.sequenceNumber t' ≠ update c'.sequenceNumber t _ t' := hne
    rw [update_of_ne htype] at hne'; exact h.gone t' hne' e he ht
  ids := h.ids
  advance := h.advance

theorem Kept.act {c : CoreTiming} {w w' : LiveTiming} {old : Nat} {m : Meanwhile}
    (h : Kept c w.timing old) (hact : w.act m = some w') : Kept c w'.timing old := by
  rcases LiveTiming.act_cases hact with heq | ⟨a, ha, hkind⟩
  · rw [heq]; exact h
  obtain ⟨-, out, heffect⟩ := LiveTiming.action_effect ha
  rcases hkind with ⟨clock, rfl⟩ | rfl | ⟨t, ht⟩ | ⟨t, rfl⟩
  · obtain ⟨timing', alive'⟩ := w'
    cases heffect with
    | tick hle => exact ⟨h.sub, h.sequence, h.gone, h.ids, h.advance⟩
    | schedule hs => exact hs.elim
  · obtain ⟨timing', alive'⟩ := w'
    cases heffect with
    | pauseEnd => exact ⟨h.sub, h.sequence, h.gone, h.ids, h.advance⟩
    | schedule hs => exact hs.elim
  · obtain ⟨timing', alive'⟩ := w'
    cases heffect with
    | schedule hs ns reschedTime absoluteTime => exact h.schedule ns reschedTime _ absoluteTime
    | _ => exact ht.elim
  · obtain ⟨timing', alive'⟩ := w'
    cases heffect with
    | unschedule => exact h.unscheduleEvent t
    | schedule hs => exact hs.elim

theorem Kept.acts {c : CoreTiming} {w w' : LiveTiming} {old : Nat} {ms : List Meanwhile}
    (h : Kept c w.timing old) (hacts : ms.foldlM LiveTiming.act w = some w') :
    Kept c w'.timing old := by
  induction ms generalizing w with
  | nil =>
    obtain rfl := Option.some.inj hacts; exact h
  | cons m ms ih =>
    rw [List.foldlM_cons] at hacts
    obtain ⟨w₁, hact, hrest⟩ := Option.bind_eq_some_iff.mp hacts
    exact ih (h.act hact) hrest

namespace LiveTiming

variable {w w' : LiveTiming} {evt : Event} {t : Turn}

theorem tick_spec {clock : Int} (h : w.action (.tick clock) = some w') :
    w.timing.clock ≤ clock ∧ w' = { w with timing := { w.timing with clock := clock } } := by
  obtain ⟨⟨c, out⟩, hs, rfl⟩ := Option.map_eq_some_iff.mp h
  obtain ⟨hle, heq⟩ := Option.ite_none_right_eq_some.mp hs
  obtain ⟨rfl, -⟩ := Prod.mk.inj (Option.some.inj heq)
  exact ⟨hle, rfl⟩

theorem callback_spec (hinv : Inv w.timing) (hdue : w.due = some evt) (hback : w.callback t = some w') :
    Inv w'.timing ∧ Kept w.timing.fire.1 w'.timing w.timing.eventFifoId ∧
      w'.timing.clock = t.clock := by
  obtain ⟨w₁, hacts, htick⟩ := Option.bind_eq_some_iff.mp hback
  obtain ⟨-, rfl⟩ := tick_spec htick
  have hkept : Kept w.timing.fire.1 (LiveTiming.mk w.timing.fire.1 w.alive).timing
      w.timing.eventFifoId := by
    have hrefl := Kept.refl w.timing.fire.1
    rw [fire_due hdue] at hrefl ⊢; exact hrefl
  have hkept₁ := hkept.acts hacts
  refine ⟨action_inv (acts_inv (show Inv (LiveTiming.mk w.timing.fire.1 w.alive).timing from hinv.fire)
    hacts) htick, ?_, rfl⟩
  exact ⟨hkept₁.sub, hkept₁.sequence, hkept₁.gone, hkept₁.ids, hkept₁.advance⟩

/-- **A turn with a live type** keeps only entries that were there, and not the one at the top: it was
    popped, has a new number, or went with its type. -/
theorem turn_live (hinv : Inv w.timing) (hdue : w.due = some evt) (halive : w.alive evt.eventType = true)
    (hturn : w.turn evt t = some w') : Inv w'.timing ∧ w'.timing.clock = t.clock ∧
      ∀ e ∈ w'.timing.queue, e.fifoOrder < w.timing.eventFifoId →
        e ∈ w.timing.queue ∧ e.fifoOrder ≠ evt.fifoOrder := by
  rw [turn, if_pos halive] at hturn
  obtain ⟨w₁, hback, hreturn⟩ := Option.bind_eq_some_iff.mp hturn
  obtain ⟨hinv₁, hkept, hclock⟩ := callback_spec hinv hdue hback
  have hinv' := action_inv hinv₁ hreturn
  rw [fire_due hdue] at hkept
  obtain ⟨⟨c, out⟩, hs, rfl⟩ := Option.map_eq_some_iff.mp hreturn
  simp only [CoreTiming.step, hkept.advance] at hs
  obtain ⟨c', hc, heq⟩ := Option.map_eq_some_iff.mp hs
  obtain ⟨rfl, -⟩ := Prod.mk.inj heq
  obtain ⟨-, -, hmem⟩ := due_spec hdue
  rw [CoreTiming.callbackReturns] at hc
  by_cases hshot : evt.rescheduleTime = 0
  · -- A one-shot event has left the heap before its callback.
    rw [if_pos (decide_eq_true hshot)] at hc
    obtain rfl := Option.some.inj hc
    refine ⟨hinv', hclock, ?_⟩
    intro e he hlt
    have hsub := hkept.sub e he hlt
    rw [if_pos hshot] at hsub
    obtain ⟨hin, hne⟩ := List.mem_filter.mp hsub; exact ⟨hin, of_decide_eq_true hne⟩
  rw [if_neg (by simpa using hshot)] at hc
  rw [if_neg hshot] at hkept
  by_cases hsame : w.timing.sequenceNumber evt.eventType = w₁.timing.sequenceNumber evt.eventType
  · -- The entry is re-armed under a new number.
    rw [if_neg (not_not.mpr hsame)] at hc
    obtain ⟨evt', hfind, rfl⟩ := Option.map_eq_some_iff.mp hc
    have hfifo : evt'.fifoOrder = evt.fifoOrder := by simpa using List.find?_some hfind
    refine ⟨hinv', hclock, ?_⟩
    intro e he hlt
    obtain ⟨a, ha, rfl⟩ := List.mem_map.mp he
    by_cases heq : a.fifoOrder = evt'.fifoOrder
    · rw [if_pos heq] at hlt
      exact absurd hkept.ids (Nat.not_le.mpr hlt)
    · rw [if_neg heq] at hlt ⊢; exact ⟨hkept.sub a ha hlt, hfifo ▸ heq⟩
  · -- The type was unscheduled, and everything that was there of it is gone.
    rw [if_pos hsame] at hc
    obtain rfl := Option.some.inj hc
    refine ⟨hinv', hclock, ?_⟩
    intro e he hlt
    have hin : e ∈ w.timing.queue := hkept.sub e he hlt
    refine ⟨hin, ?_⟩
    intro heq
    obtain rfl := List.inj_on_of_nodup_map hinv.orders hin hmem heq
    exact absurd (hkept.gone _ hsame e he rfl) (Nat.not_le.mpr hlt)

theorem turn_expired (halive : w.alive evt.eventType ≠ true) (hturn : w.turn evt t = some w') :
    w.timing.clock ≤ t.clock ∧
      w' = { w with timing := { w.timing with clock := t.clock, globalTimer := t.clock } } := by
  rw [turn, if_neg halive] at hturn
  obtain ⟨w₁, htick, rfl⟩ := Option.map_eq_some_iff.mp hturn
  obtain ⟨hle, rfl⟩ := tick_spec htick
  exact ⟨hle, rfl⟩

theorem turn_inv (hinv : Inv w.timing) (hdue : w.due = some evt) (hturn : w.turn evt t = some w') :
    Inv w'.timing ∧ w'.timing.clock = t.clock := by
  by_cases halive : w.alive evt.eventType = true
  · exact ⟨(turn_live hinv hdue halive hturn).1, (turn_live hinv hdue halive hturn).2.1⟩
  · obtain ⟨hle, rfl⟩ := turn_expired halive hturn
    exact ⟨⟨hinv.origins, hinv.orders, hinv.bound, Int.le_refl _, hinv.calling⟩, rfl⟩

theorem turn_isSome (hinv : Inv w.timing) (hdue : w.due = some evt)
    (h : if w.alive evt.eventType then (w.callback t).isSome else w.timing.clock ≤ t.clock) :
    ∃ w', w.turn evt t = some w' := by
  by_cases halive : w.alive evt.eventType = true
  · rw [if_pos halive] at h
    obtain ⟨w₁, hback⟩ := Option.isSome_iff_exists.mp h
    obtain ⟨hinv₁, hkept, -⟩ := callback_spec hinv hdue hback
    rw [fire_due hdue] at hkept
    obtain ⟨r, hr⟩ := Option.isSome_iff_exists.mp (hinv₁.returns t.newScheduleTime hkept.advance)
    rw [turn, if_pos halive, hback, Option.bind_some, action, hr]
    exact ⟨_, rfl⟩
  · rw [if_neg halive] at h
    rw [turn, if_neg halive, action, CoreTiming.step, if_pos h]; exact ⟨_, rfl⟩

end LiveTiming

/-! ## Runs -/

theorem Reachable.inv {w : LiveTiming} (h : Reachable w) : Inv w.timing := by
  induction h with
  | initial clock => exact inv_initial clock
  | act m _ hact ih => exact LiveTiming.act_inv ih hact
  | clear _ hact ih => exact LiveTiming.action_inv ih hact
  | advance _ hact ih => exact LiveTiming.action_inv ih hact
  | turn t _ hdue hturn ih => exact (LiveTiming.turn_inv ih hdue hturn).1
  | ends _ _ hact ih => exact LiveTiming.action_inv ih hact

section Call

variable {turns : Nat → Turn} {start : LiveTiming} {last : Int}

variable {w : LiveTiming} {k : Nat}

theorem Reaches.unique {w' : LiveTiming} (h : Reaches turns start k w) (h' : Reaches turns start k w') :
    w = w' := by
  induction h generalizing w' with
  | start =>
    cases h'
    rfl
  | next hk hdue hturn ih =>
    cases h' with
    | next hk' hdue' hturn' =>
      obtain rfl := ih hk'
      obtain rfl := Option.some.inj (hdue.symm.trans hdue')
      exact Option.some.inj (hturn.symm.trans hturn')

theorem Reaches.before {j : Nat} (h : Reaches turns start k w) (hj : j < k) :
    ∃ w' evt, Reaches turns start j w' ∧ w'.due = some evt := by
  induction h with
  | start => exact absurd hj (Nat.not_lt_zero j)
  | next hk hdue hturn ih =>
    rcases Nat.lt_succ_iff_lt_or_eq.mp hj with hlt | rfl
    · exact ih hlt
    · exact ⟨_, _, hk, hdue⟩

section

variable (hinv : Inv start.timing) (hquiet : Quiet turns start last) (h : Reaches turns start k w)
include hinv hquiet h

theorem Reaches.inv : Inv w.timing ∧ w.timing.clock ≤ last := by
  induction h with
  | start => exact ⟨hinv, hquiet.begins⟩
  | next hk hdue hturn ih =>
    obtain ⟨hinv', hclock⟩ := LiveTiming.turn_inv ih.1 hdue hturn
    exact ⟨hinv', hclock ▸ hquiet.clock _⟩

theorem Reaches.next_of_due {evt : Event} (hdue : w.due = some evt) :
    ∃ w', w.turn evt (turns k) = some w' ∧ Reaches turns start (k + 1) w' := by
  obtain ⟨w', hturn⟩ := LiveTiming.turn_isSome (h.inv hinv hquiet).1 hdue (hquiet.returns k w evt h hdue)
  exact ⟨w', hturn, .next h hdue hturn⟩

theorem Reaches.stuck {evt : Event} (hdue : w.due = some evt) (hexpired : w.alive evt.eventType ≠ true)
    (m : Nat) :
    ∃ w', Reaches turns start (k + m) w' ∧ w'.due = some evt ∧ w'.alive evt.eventType ≠ true := by
  induction m with
  | zero => exact ⟨w, h, hdue, hexpired⟩
  | succ m ih =>
    obtain ⟨w', h', hdue', hexpired'⟩ := ih
    obtain ⟨w'', hturn, hnext⟩ := h'.next_of_due hinv hquiet hdue'
    have htimer := (h'.inv hinv hquiet).1.timer
    obtain ⟨hle, rfl⟩ := LiveTiming.turn_expired hexpired' hturn
    refine ⟨_, hnext, ?_, hexpired'⟩
    obtain ⟨htop, htime, -⟩ := LiveTiming.due_spec hdue'
    apply Option.filter_eq_some_iff.mpr
    refine ⟨htop, decide_eq_true ?_⟩
    exact htime.trans (htimer.trans hle)

end

end Call

end Suyu.Core.Timing
