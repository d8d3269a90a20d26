import Mathlib

/-
  KResourceLimit - what is reserved stays below the limit.

  1. **Program** - each resource has a limit, a current value, a current HINT (what is not yet about to
     be released) and a peak.  `Reserve` may wait for a release: the lock is held except inside the
     wait, so a call is one step up to its wait or its return, and one more step after each wait.  A
     signed addition that leaves 64 bits is no result at all.

  2. **Specification (`Accounted`, `Right`)** - the counters are in order and equal to what was reserved
     and released, and each step does what its result says.

  3. **The crux (`le_of_wrappingAdd`)** - the guard with the wrapping addition makes the plain additions
     behind it safe, also that to the hint, which is not above the current value.

  The time at which a wait ends and the tick that is read behind it are arbitrary.
-/

namespace Suyu.Kernel.KResourceLimit

inductive LimitableResource where
  | physicalMemoryMax
  | threadCountMax
  | eventCountMax
  | transferMemoryCountMax
  | sessionCountMax
  deriving DecidableEq

/-! ## Program -/

def s64Max : Int := 9223372036854775807

/-- An addition in `s64`: no result if it overflows. -/
def s64Add (a b : Int) : Option Int := if -s64Max - 1 ≤ a + b ∧ a + b ≤ s64Max then some (a + b) else none

def wrappingAdd (a b : Int) : Int := Int.bmod (a + b) 18446744073709551616

/-- One index of the four arrays. -/
structure Counters where
  limitValue : Int
  currentValue : Int
  currentHint : Int
  peakValue : Int
  deriving DecidableEq

/-- How far a call gets before it gives up the lock. -/
inductive Outcome where
  | returned (success : Bool)
  | waits
  deriving DecidableEq

namespace Counters

def setLimitValue (c : Counters) (value : Int) : Outcome × Counters :=
  if c.currentValue ≤ value then
    (.returned true, { c with limitValue := value, peakValue := c.currentValue })
  else (.returned false, c)

/-- One round of `while (true)` in `Reserve`; the tick is read if the time matters. -/
def reserveRound (c : Counters) (value timeout tick : Int) : Option (Outcome × Counters) :=
  if wrappingAdd c.currentValue value ≤ c.currentValue then some (.returned false, c)
  else
    (s64Add c.currentValue value).bind fun sum =>
      if sum ≤ c.limitValue then
        (s64Add c.currentValue value).bind fun currentValue =>
          (s64Add c.currentHint value).bind fun currentHint =>
            some (.returned true, { c with
              currentValue := currentValue, currentHint := currentHint,
              peakValue := max c.peakValue currentValue })
      else
        (s64Add c.currentHint value).bind fun hintSum =>
          if hintSum ≤ c.limitValue ∧ (timeout < 0 ∨ tick < timeout) then some (.waits, c)
          else some (.returned false, c)

/-- `Reserve` up to its first wait or its return. -/
def reserve (c : Counters) (value timeout tick : Int) : Option (Outcome × Counters) :=
  if c.currentHint ≥ c.limitValue then some (.returned false, c)
  else c.reserveRound value timeout tick

def release (c : Counters) (value hint : Int) : Option (Outcome × Counters) :=
  (s64Add c.currentValue (-value)).bind fun currentValue =>
    (s64Add c.currentHint (-hint)).bind fun currentHint =>
      some (.returned true, { c with currentValue := currentValue, currentHint := currentHint })

end Counters

/-- A call of `Reserve` that waits. -/
structure ReserveCall where
  which : LimitableResource
  value : Int
  timeout : Int

/-- The resource limit, and what is left to do for the calls that wait in it. -/
structure State where
  counters : LimitableResource → Counters
  waiterCount : Int
  waiting : Nat → Option ReserveCall

/-- What a thread does next while it has the lock. -/
inductive Action where
  | setLimitValue (which : LimitableResource) (value : Int)
  | reserve (thread : Nat) (which : LimitableResource) (value timeout tick : Int)
  /-- The wait of a thread is over: by a broadcast, by the timer, or because the thread is to
    terminate. -/
  | resume (thread : Nat) (tick : Int)
  | release (which : LimitableResource) (value hint : Int)

namespace State

def create : State := ⟨fun _ => ⟨0, 0, 0, 0⟩, 0, fun _ => none⟩

def setCounters (s : State) (which : LimitableResource) (c : Counters) : State :=
  { s with counters := Function.update s.counters which c }

/-- A round of `Reserve` has ended: in a wait, or in its result. -/
def endRound (s : State) (thread : Nat) (call : ReserveCall) (r : Outcome × Counters) : Outcome × State :=
  let s := s.setCounters call.which r.2
  match r.1 with
  | .returned success => (.returned success, s)
  | .waits => (.waits, { s with
      waiterCount := s.waiterCount + 1, waiting := Function.update s.waiting thread (some call) })

/-- `m_waiter_count--` behind the wait. -/
def leaveWait (s : State) (thread : Nat) : State :=
  { s with waiterCount := s.waiterCount - 1, waiting := Function.update s.waiting thread none }

def step (s : State) : Action → Option (Outcome × State)
  | .setLimitValue which value =>
      let r := (s.counters which).setLimitValue value
      some (r.1, s.setCounters which r.2)
  | .reserve thread which value timeout tick =>
      ((s.counters which).reserve value timeout tick).map (s.endRound thread ⟨which, value, timeout⟩)
  | .resume thread tick =>
      match s.waiting thread with
      | none => some (.returned false, s)
      | some call =>
          ((s.counters call.which).reserveRound call.value call.timeout tick).map
            ((s.leaveWait thread).endRound thread call)
  | .release which value hint =>
      ((s.counters which).release value hint).map fun r => (r.1, s.setCounters which r.2)

end State

/-! ## Specification -/

/-- What was reserved with success and what was released, of one resource. -/
structure Account where
  reserved : Int
  releasedValues : Int
  releasedHints : Int

structure Accounted (c : Counters) (a : Account) : Prop where
  hint_nonneg : 0 ≤ c.currentHint
  hint_le : c.currentHint ≤ c.currentValue
  value_le : c.currentValue ≤ c.limitValue
  le_peak : c.currentValue ≤ c.peakValue
  value_eq : c.currentValue = a.reserved - a.releasedValues

/-- The counters after a reservation. -/
def reservedCounters (c : Counters) (value : Int) : Counters :=
  { c with
    currentValue := c.currentValue + value, currentHint := c.currentHint + value,
    peakValue := max c.peakValue (c.currentValue + value) }

/-- `Reserve` returns true only if there is room, and a round that does not changes no counter. -/
structure ReservesRight (s : State) (which : LimitableResource) (value : Int) (r : Outcome × State) :
    Prop where
  success : r.1 = .returned true →
    (s.counters which).currentValue + value ≤ (s.counters which).limitValue ∧
      r.2.counters = Function.update s.counters which (reservedCounters (s.counters which) value)
  failure : r.1 ≠ .returned true → r.2.counters = s.counters

structure SetsLimitRight (s : State) (which : LimitableResource) (value : Int)
    (r : Outcome × State) : Prop where
  success : r.1 = .returned true → (s.counters which).currentValue ≤ value ∧
    r.2.counters = Function.update s.counters which
      { s.counters which with limitValue := value, peakValue := (s.counters which).currentValue }
  failure : r.1 ≠ .returned true → r.2.counters = s.counters

def Right (s : State) (r : Outcome × State) : Action → Prop
  | .setLimitValue which value => SetsLimitRight s which value r
  | .reserve _ which value _ _ => ReservesRight s which value r
  | .resume thread _ => ∀ call, s.waiting thread = some call → ReservesRight s call.which call.value r
  | .release which value hint => r.2.counters = Function.update s.counters which
      { s.counters which with
        currentValue := (s.counters which).currentValue - value
        currentHint := (s.counters which).currentHint - hint }

/-- Every unit that is released was reserved, and it is released as a hint not later than as a value. -/
def Allowed (s : State) (a : LimitableResource → Account) : Action → Prop
  | .setLimitValue _ value => value ≤ s64Max
  | .reserve thread _ value _ _ => 0 ≤ value ∧ value ≤ s64Max ∧ s.waiting thread = none
  | .resume thread _ => s.waiting thread ≠ none
  | .release which value hint => 0 ≤ value ∧ 0 ≤ hint ∧
      (a which).releasedValues + value ≤ (a which).releasedHints + hint ∧
      (a which).releasedHints + hint ≤ (a which).reserved

def bookReserve (a : LimitableResource → Account) (which : LimitableResource) (value : Int)
    (outcome : Outcome) : LimitableResource → Account :=
  if outcome = .returned true then
    Function.update a which { a which with reserved := (a which).reserved + value }
  else a

/-- The account after a step. -/
def book (s : State) (a : LimitableResource → Account) (outcome : Outcome) :
    Action → LimitableResource → Account
  | .setLimitValue _ _ => a
  | .reserve _ which value _ _ => bookReserve a which value outcome
  | .resume thread _ =>
      match s.waiting thread with
      | none => a
      | some call => bookReserve a call.which call.value outcome
  | .release which value hint => Function.update a which
      { a which with
        releasedValues := (a which).releasedValues + value
        releasedHints := (a which).releasedHints + hint }

/-- The states that a run of allowed steps reaches, with the account of what was reserved and released. -/
inductive Run : State → (LimitableResource → Account) → Prop where
  | create : Run State.create fun _ => ⟨0, 0, 0⟩
  | step {s a r} (action : Action) : Run s a → Allowed s a action → s.step action = some r →
      Run r.2 (book s a r.1 action)

/-! ## One resource -/

section Counters

variable {c : Counters} {a : Account} {value hint timeout tick : Int}

/-- What holds of one resource between two steps. -/
structure Inv (c : Counters) (a : Account) : Prop extends Accounted c a where
  hint_eq : c.currentHint = a.reserved - a.releasedHints
  limit_le : c.limitValue ≤ s64Max

theorem s64Add_eq_some {x y : Int} (hlow : -s64Max - 1 ≤ x + y) (hhigh : x + y ≤ s64Max) :
    s64Add x y = some (x + y) := if_pos ⟨hlow, hhigh⟩

theorem le_of_wrappingAdd {x y : Int} (hx : 0 ≤ x) (hx' : x ≤ s64Max) (hy : 0 ≤ y) (hy' : y ≤ s64Max)
    (h : ¬ wrappingAdd x y ≤ x) : x + y ≤ s64Max := by
  by_contra hover
  apply h
  rw [s64Max] at *
  rw [wrappingAdd, Int.bmod_def]
  have hmod : (x + y) % 18446744073709551616 = x + y := Int.emod_eq_of_lt (by omega) (by omega)
  simp only [Nat.cast_ofNat, hmod]
  split <;> omega

/-- A ROUND OF `Reserve` never overflows; it succeeds if there is room, or changes nothing. -/
theorem reserveRound_spec (h : Inv c a) (hvalue : 0 ≤ value) (hmax : value ≤ s64Max) :
    ∃ r, c.reserveRound value timeout tick = some r ∧
      ((r.1 = .returned true ∧ c.currentValue + value ≤ c.limitValue ∧ r.2 = reservedCounters c value) ∨
        (r.1 ≠ .returned true ∧ r.2 = c)) := by
  obtain ⟨⟨hnonneg, hle, hlimit, _, _⟩, _, hlimitMax⟩ := h
  rw [Counters.reserveRound]
  by_cases hguard : wrappingAdd c.currentValue value ≤ c.currentValue
  · rw [if_pos hguard]; exact ⟨_, rfl, Or.inr ⟨nofun, rfl⟩⟩
  have hsum : c.currentValue + value ≤ s64Max := by
    exact le_of_wrappingAdd (le_trans hnonneg hle) (le_trans hlimit hlimitMax) hvalue hmax hguard
  have hmaxNonneg : 0 ≤ s64Max := by decide
  rw [if_neg hguard, s64Add_eq_some (by omega) hsum, s64Add_eq_some (by omega)
      (by omega), Option.bind_some]
  by_cases hroom : c.currentValue + value ≤ c.limitValue
  · rw [if_pos hroom]; exact ⟨_, rfl, Or.inl ⟨rfl, hroom, rfl⟩⟩
  rw [if_neg hroom, Option.bind_some]
  split
  · exact ⟨_, rfl, Or.inr ⟨nofun, rfl⟩⟩
  · exact ⟨_, rfl, Or.inr ⟨nofun, rfl⟩⟩

theorem reserve_spec (h : Inv c a) (hvalue : 0 ≤ value) (hmax : value ≤ s64Max) :
    ∃ r, c.reserve value timeout tick = some r ∧
      ((r.1 = .returned true ∧ c.currentValue + value ≤ c.limitValue ∧ r.2 = reservedCounters c value) ∨
        (r.1 ≠ .returned true ∧ r.2 = c)) := by
  rw [Counters.reserve]
  split
  · exact ⟨_, rfl, Or.inr ⟨nofun, rfl⟩⟩
  · exact reserveRound_spec h hvalue hmax

theorem Inv.reserved (h : Inv c a) (hvalue : 0 ≤ value) (hroom : c.currentValue + value ≤ c.limitValue) :
    Inv (reservedCounters c value) { a with reserved := a.reserved + value } := by
  obtain ⟨⟨hnonneg, hle, hlimit, hpeak, heq⟩, hhint, hlimitMax⟩ := h
  refine ⟨⟨?_, ?_, hroom, le_max_right _ _, ?_⟩, ?_, hlimitMax⟩
  · show 0 ≤ c.currentHint + value
    omega
  · show c.currentHint + value ≤ c.currentValue + value
    omega
  · show c.currentValue + value = a.reserved + value - a.releasedValues
    omega
  · show c.currentHint + value = a.reserved + value - a.releasedHints
    omega

theorem Inv.setLimitValue (h : Inv c a) (hmax : value ≤ s64Max) : Inv (c.setLimitValue value).2 a := by
  rw [Counters.setLimitValue]
  split
  · rename_i hle
    exact ⟨⟨h.hint_nonneg, h.hint_le, hle, le_refl _, h.value_eq⟩, h.hint_eq, hmax⟩
  · exact h

theorem release_spec (h : Inv c a) (hvalue : 0 ≤ value)
    (horder : a.releasedValues + value ≤ a.releasedHints + hint)
    (hreserved : a.releasedHints + hint ≤ a.reserved) :
    c.release value hint = some (.returned true,
      { c with currentValue := c.currentValue - value, currentHint := c.currentHint - hint }) ∧
      Inv { c with currentValue := c.currentValue - value, currentHint := c.currentHint - hint }
        { a with
          releasedValues := a.releasedValues + value
          releasedHints := a.releasedHints + hint } := by
  obtain ⟨⟨hnonneg, hle, hlimit, hpeak, heq⟩, hhintEq, hlimitMax⟩ := h
  constructor
  · have hmaxNonneg : 0 ≤ s64Max := by decide
    rw [Counters.release, s64Add_eq_some (by omega) (by omega), s64Add_eq_some (by omega) (by omega)]
    rfl
  · refine ⟨⟨?_, ?_, ?_, ?_, ?_⟩, ?_, hlimitMax⟩
    · show 0 ≤ c.currentHint - hint
      omega
    · show c.currentHint - hint ≤ c.currentValue - value
      omega
    · show c.currentValue - value ≤ c.limitValue
      omega
    · show c.currentValue - value ≤ c.peakValue
      omega
    · show c.currentValue - value = a.reserved - (a.releasedValues + value)
      omega
    · show c.currentHint - hint = a.reserved - (a.releasedHints + hint)
      omega

end Counters

/-! ## All resources -/

section Runs

variable {s : State} {a : LimitableResource → Account} {which : LimitableResource} {c : Counters}
  {value : Int} {thread : Nat} {call : ReserveCall}

/-- What holds between two steps: of the resources, and of the calls that wait. -/
structure StateInv (s : State) (a : LimitableResource → Account) : Prop where
  resource : ∀ which, Inv (s.counters which) (a which)
  waiting : ∀ thread call, s.waiting thread = some call → 0 ≤ call.value ∧ call.value ≤ s64Max

theorem StateInv.update (h : StateInv s a) {b : Account} (hc : Inv c b) :
    StateInv (s.setCounters which c) (Function.update a which b) := by
  refine ⟨fun other => ?_, h.waiting⟩
  show Inv (Function.update s.counters which c other) _
  by_cases heq : other = which
  · subst heq
    rwa [Function.update_self, Function.update_self]
  · rw [Function.update_of_ne heq, Function.update_of_ne heq]; exact h.resource other

theorem StateInv.leaveWait (h : StateInv s a) : StateInv (s.leaveWait thread) a := by
  refine ⟨h.resource, fun other call hcall => ?_⟩
  have hcall' : Function.update s.waiting thread none other = some call := hcall
  by_cases heq : other = thread
  · rw [heq, Function.update_self] at hcall'
    exact nomatch hcall'
  · rw [Function.update_of_ne heq] at hcall'; exact h.waiting other call hcall'

theorem StateInv.enterWait (h : StateInv s a) (hvalue : 0 ≤ call.value) (hmax : call.value ≤ s64Max)
    (n : Int) :
    StateInv { s with waiterCount := n, waiting := Function.update s.waiting thread (some call) } a := by
  refine ⟨h.resource, fun other call' hcall => ?_⟩
  have hcall' : Function.update s.waiting thread (some call) other = some call' := hcall
  by_cases heq : other = thread
  · rw [heq, Function.update_self] at hcall'
    rw [← Option.some.inj hcall']
    exact ⟨hvalue, hmax⟩
  · rw [Function.update_of_ne heq] at hcall'; exact h.waiting other call' hcall'

theorem setCounters_self : s.setCounters which (s.counters which) = s := by
  rw [State.setCounters, Function.update_eq_self]

theorem endRound_spec (h : StateInv s a) (hvalue : 0 ≤ call.value) (hmax : call.value ≤ s64Max)
    {r : Outcome × Counters} (hr : (r.1 = .returned true ∧
        (s.counters call.which).currentValue + call.value ≤ (s.counters call.which).limitValue ∧
        r.2 = reservedCounters (s.counters call.which) call.value) ∨
      (r.1 ≠ .returned true ∧ r.2 = s.counters call.which)) :
    ReservesRight s call.which call.value (s.endRound thread call r) ∧
      StateInv (s.endRound thread call r).2
        (bookReserve a call.which call.value (s.endRound thread call r).1) := by
  obtain ⟨outcome, c⟩ := r
  rcases hr with ⟨rfl, hroom, rfl⟩ | ⟨hfail, rfl⟩
  · refine ⟨⟨fun _ => ⟨hroom, rfl⟩, fun hne => absurd rfl hne⟩, ?_⟩
    exact h.update ((h.resource call.which).reserved hvalue hroom)
  · cases outcome with
    | returned success =>
      have hend : s.endRound thread call (.returned success, s.counters call.which)
          = (.returned success, s) := by
        rw [State.endRound, setCounters_self]
      rw [hend]
      refine ⟨⟨fun hsuccess => absurd hsuccess hfail, fun _ => rfl⟩, ?_⟩
      rw [bookReserve, if_neg hfail]; exact h
    | waits =>
      have hend : s.endRound thread call (.waits, s.counters call.which) = (.waits, { s with
          waiterCount := s.waiterCount + 1
          waiting := Function.update s.waiting thread (some call) }) := by
        rw [State.endRound, setCounters_self]
      rw [hend]
      refine ⟨⟨fun hsuccess => absurd hsuccess hfail, fun _ => rfl⟩, ?_⟩
      rw [bookReserve, if_neg hfail]; exact h.enterWait hvalue hmax _

theorem setLimitValue_right :
    SetsLimitRight s which value
      (((s.counters which).setLimitValue value).1,
          s.setCounters which ((s.counters which).setLimitValue value).2) := by
  rw [Counters.setLimitValue]
  by_cases hle : (s.counters which).currentValue ≤ value
  · rw [if_pos hle]
    exact ⟨fun _ => ⟨hle, rfl⟩, fun hne => absurd rfl hne⟩
  · rw [if_neg hle]
    refine ⟨nofun, fun _ => ?_⟩
    exact Function.update_eq_self which s.counters

/-- ONE STEP: it has a result, it is as specified, and the invariant is kept. -/
theorem step_spec (h : StateInv s a) {action : Action} (hallowed : Allowed s a action) :
    ∃ r, s.step action = some r ∧ Right s r action ∧ StateInv r.2 (book s a r.1 action) := by
  cases action with
  | setLimitValue which value =>
    refine ⟨_, rfl, setLimitValue_right, ?_⟩
    have hset := @StateInv.update _ _ which _ h _ ((h.resource which).setLimitValue hallowed)
    rwa [Function.update_eq_self] at hset
  | reserve thread which value timeout tick =>
    obtain ⟨hvalue, hmax, _⟩ := hallowed
    obtain ⟨r, hr, hspec⟩ := @reserve_spec _ _ _ timeout tick (h.resource which) hvalue hmax
    refine ⟨s.endRound thread ⟨which, value, timeout⟩ r, by rw [State.step, hr]; rfl, ?_⟩
    exact @endRound_spec s a thread ⟨which, value, timeout⟩ h hvalue hmax r hspec
  | resume thread tick =>
    obtain ⟨call, hcall⟩ := Option.ne_none_iff_exists'.1 hallowed
    obtain ⟨hvalue, hmax⟩ := h.waiting thread call hcall
    obtain ⟨r, hr, hspec⟩ :=
      @reserveRound_spec _ _ _ call.timeout tick (h.resource call.which) hvalue hmax
    have hround := @endRound_spec (s.leaveWait thread) a thread call h.leaveWait hvalue hmax r hspec
    refine ⟨(s.leaveWait thread).endRound thread call r,
        by rw [State.step, hcall]; dsimp only; rw [hr]; rfl, ?_⟩
    constructor
    · intro call' hcall'
      rw [hcall] at hcall'
      rw [← Option.some.inj hcall']
      exact ⟨hround.1.success, hround.1.failure⟩
    · rw [book, hcall]; exact hround.2
  | release which value hint =>
    obtain ⟨hvalue, _, horder, hreserved⟩ := hallowed
    obtain ⟨hr, hinv⟩ := release_spec (h.resource which) hvalue horder hreserved
    refine ⟨_, by rw [State.step, hr]; rfl, ?_, h.update hinv⟩
    exact rfl

theorem Run.inv (h : Run s a) : StateInv s a := by
  induction h with
  | create =>
    have hmax : (0 : Int) ≤ s64Max := by decide
    exact ⟨fun _ => ⟨⟨le_refl _, le_refl _, le_refl _, le_refl _, rfl⟩, rfl, hmax⟩, nofun⟩
  | step action _ hallowed hstep ih =>
    obtain ⟨r, hr, _, hinv⟩ := step_spec ih hallowed
    rw [hstep] at hr
    rw [Option.some.inj hr]; exact hinv

end Runs

/-! ## Result -/

/-- IN EVERY RUN the counters are in order and account for what was reserved and released, and every
step that is allowed has a result - no addition overflows - and does what the result says. -/
theorem resourceLimit_accounts {s : State} {a : LimitableResource → Account} (h : Run s a) :
    (∀ which, Accounted (s.counters which) (a which)) ∧
      ∀ action, Allowed s a action → ∃ r, s.step action = some r ∧ Right s r action := by
  constructor
  · intro which
    exact (h.inv.resource which).toAccounted
  · intro action hallowed
    obtain ⟨r, hr, hright, _⟩ := step_spec h.inv hallowed; exact ⟨r, hr, hright⟩

/-- Two units of three are reserved, and the hint of one is released. -/
theorem resourceLimit_accounts_hint : ∃ s a, Run s a ∧ (s.counters .threadCountMax) = ⟨3, 2, 1, 2⟩ ∧
    Accounted (s.counters .threadCountMax) (a .threadCountMax) := by
  have hlimit : Run _ _ := Run.create.step (.setLimitValue .threadCountMax 3)
    (show (3 : Int) ≤ s64Max by decide) rfl
  have hreserved : Run _ _ :=
    hlimit.step (.reserve 0 .threadCountMax 2 (-1) 0) ⟨by decide, by decide, rfl⟩ rfl
  have hreleased : Run _ _ := hreserved.step (.release .threadCountMax 0 1)
    ⟨by decide, by decide, by decide, by decide⟩ rfl
  exact ⟨_, _, hreleased, rfl, (resourceLimit_accounts hreleased).1 .threadCountMax⟩

end Suyu.Kernel.KResourceLimit
