import Mathlib
import Suyu.Kernel.PriorityInheritanceRuns

/-
  KConditionVariable - whoever cancels the wait for an address finds the owner of the lock.

  1. **Program** - `WaitForAddress`, `SignalToAddress`, `Wait` and `Signal`, the cancellations by
     termination and by the timer, and `KThread::Finalize` when the last reference to a thread goes.
     Every operation runs under the scheduler lock, so it is one step.  `Fault.nullOwner` is the call of
     `RemoveWaiter` on the null pointer in `CancelWait`.

  2. **Specification** - no step ends in `Fault.nullOwner`.

  3. **The crux (`Inv`)** - a thread that waits for an address has a lock owner: handing a lock over
     changes who that is, restoring priorities takes the waiter out and puts it back.

  4. **When it goes wrong** - a waiter keeps a reference to the FIRST owner only.  When the lock has been
     handed over, the thread that has it now can be finalized under its waiters, and `Finalize` takes each
     of them out of the lock BEFORE it cancels the wait.

  User memory and the handle table can change at any time.  The tree of the condition variable is the set
  of threads with a condition variable key; `Signal` goes through any of them in any order.  A loop that
  runs out of its rounds is `Fault.stuck`: the runs are those in which the rounds are enough.
-/

namespace Suyu.Kernel.KConditionVariable

open Function (update update_apply update_eq_self update_eq_self_iff update_self update_of_ne)

open ThreadSystem

variable {T : Type} [DecidableEq T]

/-! ## Program -/

/-- The two kinds of `KThreadQueue` of this file. -/
inductive WaitQueue where
  | waitForAddress
  | waitConditionVariable
  deriving DecidableEq

inductive Fault where
  | nullOwner
  | stuck
  deriving DecidableEq

structure State (T : Type) where
  threads : ThreadSystem T
  addressKeyValue : T → BitVec 32
  /-- The wait queue of a thread that is waiting. -/
  waitQueue : T → Option WaitQueue
  /-- The key of a thread in the tree of the condition variable. -/
  condvarKey : T → Option (BitVec 64)
  terminationRequested : T → Bool
  /-- Started and not yet exited. -/
  running : T → Bool
  /-- `owner_thread` of a thread inside `WaitForAddress`, with its reference. -/
  ownerThread : T → Option T
  refCount : T → Nat
  handleTable : BitVec 32 → Option T
  memory : BitVec 64 → BitVec 32

def handleWaitMask : BitVec 32 := 1#32 <<< 30

def terminatingThreadPriority : Int := 15

def orStuck {α : Type} : Option α → Except Fault α
  | some a => .ok a
  | none => .error .stuck

namespace State

def writeToUser (s : State T) (address : BitVec 64) (value : BitVec 32) : State T :=
  { s with memory := update s.memory address value }

/-- `EndWait`, and the base `CancelWait`. -/
def endWait (s : State T) (t : T) : State T :=
  { s with waitQueue := update s.waitQueue t none }

/-- `KThread::CancelWait`, with the `CancelWait` of the two queues. -/
def cancelWait (n : Nat) (s : State T) (t : T) : Except Fault (State T) :=
  match s.waitQueue t with
  | none => .ok s
  | some .waitForAddress =>
      match s.threads.getLockOwner t with
      | none => .error .nullOwner
      | some owner =>
          (orStuck (s.threads.removeWaiter n owner t)).map fun threads =>
            endWait { s with threads := threads } t
  | some .waitConditionVariable =>
      match s.threads.getLockOwner t with
      | none => .ok (endWait { s with condvarKey := update s.condvarKey t none } t)
      | some owner =>
          (orStuck (s.threads.removeWaiter n owner t)).map fun threads =>
            endWait { s with
              threads := threads, condvarKey := update s.condvarKey t none } t

/-- `Remove all waiters.` of one lock: the wait is cancelled when the waiter is out of the lock. -/
def releaseWaiters (n l : Nat) : Nat → State T → Except Fault (State T)
  | 0, s => .ok s
  | count + 1, s =>
      match (s.threads.lockInfo l).tree.head? with
      | none => .error .stuck
      | some waiter =>
          (cancelWait n { s with threads := (s.threads.lockRemoveWaiter l waiter).2 } waiter).bind
            (releaseWaiters n l count)

/-- `Release any waiters.`, over the locks the thread holds. -/
def releaseLocks (n : Nat) (t : T) : List Nat → State T → Except Fault (State T)
  | [], s => .ok s
  | l :: locks, s =>
      (releaseWaiters n l (s.threads.lockInfo l).waiterCount s).bind fun s =>
        releaseLocks n t locks { s with
          threads := s.threads.setHeldLockInfoList t ((s.threads.heldLockInfoList t).erase l) }

def finalize (n : Nat) (s : State T) (t : T) : Except Fault (State T) :=
  releaseLocks n t (s.threads.heldLockInfoList t) s

/-- `KAutoObject::Open`. -/
def openRef (s : State T) (t : T) : State T :=
  { s with refCount := update s.refCount t (s.refCount t + 1) }

def close (n : Nat) (s : State T) (t : T) : Except Fault (State T) :=
  let s := { s with refCount := update s.refCount t (s.refCount t - 1) }
  if s.refCount t = 0 then finalize n s t else .ok s

/-- `WaitForAddress` up to the wait. -/
def waitForAddress (n : Nat) (s : State T) (cur : T) (handle : BitVec 32) (addr : BitVec 64)
    (value : BitVec 32) : Except Fault (State T) :=
  if s.terminationRequested cur then .ok s
  else if s.memory addr ≠ handle ||| handleWaitMask then .ok s
  else
    match s.handleTable handle with
    | none => .ok s
    | some owner =>
        (orStuck ((s.threads.setAddressKey cur addr false).addWaiter n owner cur)).map fun threads =>
          { s.openRef owner with
            threads := threads
            addressKeyValue := update s.addressKeyValue cur value
            waitQueue := update s.waitQueue cur (some .waitForAddress)
            ownerThread := update s.ownerThread cur (some owner) }

/-- `WaitForAddress` after the wait: `Close our reference to the owner thread.` -/
def resume (n : Nat) (s : State T) (cur : T) : Except Fault (State T) :=
  match s.ownerThread cur with
  | none => .ok s
  | some owner => close n { s with ownerThread := update s.ownerThread cur none } owner

/-- `RemoveUserWaiterByKey` and the end of the wait of the next owner, with the next tag. -/
def releaseToNext (n : Nat) (s : State T) (cur : T) (addr : BitVec 64) :
    Except Fault (BitVec 32 × State T) :=
  (orStuck (s.threads.removeWaiterByKey n cur addr false)).map fun r =>
    match r.1 with
    | none => (0, { s with threads := r.2.2 })
    | some next =>
        (if r.2.1 then s.addressKeyValue next ||| handleWaitMask else s.addressKeyValue next,
          endWait { s with threads := r.2.2 } next)

def signalToAddress (n : Nat) (s : State T) (cur : T) (addr : BitVec 64) : Except Fault (State T) :=
  (s.releaseToNext n cur addr).map fun r => r.2.writeToUser addr r.1

def wait (n : Nat) (s : State T) (cur : T) (addr key : BitVec 64) (value : BitVec 32)
    (timeout : Int) : Except Fault (State T) :=
  if s.terminationRequested cur then .ok s
  else
    (s.releaseToNext n cur addr).map fun r =>
      let s := (r.2.writeToUser key 1).writeToUser addr r.1
      if timeout = 0 then s
      else
        { s with
          threads := s.threads.setAddressKey cur addr false
          addressKeyValue := update s.addressKeyValue cur value
          condvarKey := update s.condvarKey cur (some key)
          waitQueue := update s.waitQueue cur (some .waitConditionVariable) }

/-- `SignalImpl`; the reference to the owner is opened and closed again. -/
def signalImpl (n : Nat) (s : State T) (thread : T) : Except Fault (State T) :=
  let address := s.threads.addressKey thread
  let prevTag := s.memory address
  let s := s.writeToUser address
    (if prevTag = 0 then s.addressKeyValue thread else prevTag ||| handleWaitMask)
  if prevTag = 0 then .ok (s.endWait thread)
  else
    match s.handleTable (prevTag &&& ~~~handleWaitMask) with
    | none => .ok (s.endWait thread)
    | some owner =>
        (orStuck (s.threads.addWaiter n owner thread)).map fun threads =>
          { s with threads := threads }

/-- The loop of `Signal`; `targets` are the threads it comes to. -/
def signalTargets (n : Nat) (cvKey : BitVec 64) : List T → State T → Except Fault (State T)
  | [], s => .ok s
  | t :: targets, s =>
      if s.condvarKey t = some cvKey then
        (signalImpl n { s with condvarKey := update s.condvarKey t none } t).bind
          (signalTargets n cvKey targets)
      else signalTargets n cvKey targets s

def signal [Fintype T] (n : Nat) (s : State T) (cvKey : BitVec 64) (targets : List T) :
    Except Fault (State T) :=
  (signalTargets n cvKey targets s).map fun s =>
    if ∃ t, s.condvarKey t = some cvKey then s else s.writeToUser cvKey 0

def requestTerminate (n : Nat) (s : State T) (t : T) : Except Fault (State T) :=
  if s.terminationRequested t then .ok s
  else
    (orStuck (s.threads.increaseBasePriority n t terminatingThreadPriority)).bind fun threads =>
      cancelWait n { s with
        threads := threads
        terminationRequested := update s.terminationRequested t true } t

/-- `Exit` and `FinishTermination`. -/
def exit (n : Nat) (s : State T) (cur : T) : Except Fault (State T) :=
  close n { s with running := update s.running cur false } cur

def closeHandle (n : Nat) (s : State T) (handle : BitVec 32) : Except Fault (State T) :=
  match s.handleTable handle with
  | none => .ok s
  | some t => close n { s with handleTable := update s.handleTable handle none } t

end State

/-! ## Runs -/

inductive Op (T : Type) where
  | userWrite (address : BitVec 64) (value : BitVec 32)
  | openHandle (handle : BitVec 32) (t : T)
  | closeHandle (handle : BitVec 32)
  | waitForAddress (cur : T) (handle : BitVec 32) (addr : BitVec 64) (value : BitVec 32)
  | resume (cur : T)
  | signalToAddress (cur : T) (addr : BitVec 64)
  | wait (cur : T) (addr key : BitVec 64) (value : BitVec 32) (timeout : Int)
  | signal (cvKey : BitVec 64) (targets : List T)
  | requestTerminate (t : T)
  | onTimer (t : T)
  | exit (cur : T)

def exec [Fintype T] (n : Nat) (s : State T) : Op T → Except Fault (State T)
  | .userWrite address value => .ok (s.writeToUser address value)
  | .openHandle handle t =>
      .ok { s.openRef t with handleTable := update s.handleTable handle (some t) }
  | .closeHandle handle => s.closeHandle n handle
  | .waitForAddress cur handle addr value => s.waitForAddress n cur handle addr value
  | .resume cur => s.resume n cur
  | .signalToAddress cur addr => s.signalToAddress n cur addr
  | .wait cur addr key value timeout => s.wait n cur addr key value timeout
  | .signal cvKey targets => s.signal n cvKey targets
  | .requestTerminate t => s.requestTerminate n t
  | .onTimer t => s.cancelWait n t
  | .exit cur => s.exit n cur

/-- The thread runs user code. -/
def InUser (s : State T) (cur : T) : Prop :=
  s.running cur = true ∧ s.waitQueue cur = none ∧ s.ownerThread cur = none

/-- When an operation can begin. -/
def Enabled (s : State T) : Op T → Prop
  | .openHandle handle t => s.handleTable handle = none ∧ 0 < s.refCount t
  | .waitForAddress cur _ _ _ => InUser s cur
  | .resume cur => s.waitQueue cur = none
  | .signalToAddress cur _ => InUser s cur
  | .wait cur _ _ _ _ => InUser s cur
  | .exit cur => InUser s cur
  | _ => True

/-! ## What the operations on locks keep -/

section Locks

variable [Fintype T] {s s' : ThreadSystem T} {own : T → Option T} {o t : T} {n : Nat}

/-- The locks are in order in `s'`, with the lock owners `own`, and no key has changed its kind. -/
structure Moved (s : ThreadSystem T) (own : T → Option T) (s' : ThreadSystem T) : Prop where
  locks : LocksInv s'
  owner : s'.getLockOwner = own
  kind : s'.isKernelAddressKey = s.isKernelAddressKey

theorem Moved.trans {s₁ : ThreadSystem T} (h : Moved s own s₁)
    (h' : Moved s₁ s₁.getLockOwner s') : Moved s own s' :=
  ⟨h'.locks, h'.owner.trans h.owner, h'.kind.trans h.kind⟩

section

variable (hI : LocksInv s)
include hI

theorem moved_self (hown : s.getLockOwner t = none) : Moved s (update s.getLockOwner t none) s := by
  refine ⟨hI, ?_, rfl⟩
  rw [← hown, update_eq_self]

theorem addWaiterImpl_moved (hown : s.getLockOwner t = none) (o : T) :
    Moved s (update s.getLockOwner t (some o)) (s.addWaiterImpl o t) := by
  obtain ⟨hI', hsame, hown', -⟩ := addWaiterImpl_spec hI (hI.getLockOwner_eq_none.1 hown) o
  exact ⟨hI', hown', hsame.isKernelAddressKey⟩

theorem removeWaiterImpl_moved (hown : s.getLockOwner t = some o) :
    ∃ s', s.removeWaiterImpl o t = some s' ∧ Moved s (update s.getLockOwner t none) s' := by
  obtain ⟨s', h, hI', hsame, -, hown', -⟩ := removeWaiterImpl_spec hI hown
  exact ⟨s', h, hI', hown', hsame.isKernelAddressKey⟩

theorem adjustPriority_moved {v : Int} (h : s.adjustPriority t v = some s') :
    Moved s s.getLockOwner s' := by
  obtain ⟨s₁, h₁, hI₁, -, -, hown₁, -⟩ := adjustPriority_spec hI t v
  obtain rfl : s₁ = s' := Option.some.inj (h₁.symm.trans h)
  refine ⟨hI₁, hown₁, ?_⟩
  unfold adjustPriority at h
  cases hown : s.getLockOwner t with
  | none =>
    simp only [hown, Option.some.injEq] at h
    rw [← h]; rfl
  | some o =>
    obtain ⟨s₂, h₂, hI₂, hsame₂, hw₂, -⟩ := removeWaiterImpl_spec hI hown
    obtain ⟨-, hsame₃, -⟩ :=
      addWaiterImpl_spec (setPriority_inv hI₂ hw₂ v) (show _ = none from hw₂) o
    simp only [hown, h₂, Option.bind_eq_bind, Option.bind_some, Option.pure_def,
      Option.some.injEq] at h
    rw [← h, hsame₃.isKernelAddressKey]; exact hsame₂.isKernelAddressKey

theorem restorePriority_moved {w : Option T} (h : restorePriority n s w = some s') :
    Moved s s.getLockOwner s' := by
  induction n generalizing s w with
  | zero =>
    cases w with
    | none =>
      obtain rfl := Option.some.inj h; exact ⟨hI, rfl, rfl⟩
    | some w => cases h
  | succ n ih =>
    cases w with
    | none =>
      obtain rfl := Option.some.inj h; exact ⟨hI, rfl, rfl⟩
    | some w =>
      rw [restorePriority] at h
      obtain ⟨p, -, h⟩ := Option.bind_eq_some_iff.1 h
      split at h
      · obtain rfl := Option.some.inj h
        exact ⟨hI, rfl, rfl⟩
      · obtain ⟨s₁, h₁, h⟩ := Option.bind_eq_some_iff.1 h
        have hm := adjustPriority_moved hI h₁
        exact hm.trans (ih hm.locks h)

theorem addWaiter_moved (hown : s.getLockOwner t = none) (h : addWaiter n s o t = some s') :
    Moved s (update s.getLockOwner t (some o)) s' := by
  have hm := addWaiterImpl_moved hI hown o
  dsimp only [addWaiter] at h
  split at h
  · exact hm.trans (restorePriority_moved hm.locks h)
  · obtain rfl := Option.some.inj h; exact hm

theorem removeWaiter_moved (hown : s.getLockOwner t = some o) (h : removeWaiter n s o t = some s') :
    Moved s (update s.getLockOwner t none) s' := by
  obtain ⟨s₁, h₁, hm⟩ := removeWaiterImpl_moved hI hown
  unfold removeWaiter at h
  rw [h₁, Option.bind_eq_bind, Option.bind_some] at h
  split at h
  · exact hm.trans (restorePriority_moved hm.locks h)
  · obtain rfl := Option.some.inj h; exact hm

theorem increaseBasePriority_moved {v : Int} (h : increaseBasePriority n s t v = some s') :
    Moved s s.getLockOwner s' := by
  unfold increaseBasePriority at h
  split at h
  · have hm := restorePriority_moved (basePriority_locks hI t v) h
    exact ⟨hm.locks, hm.owner, hm.kind⟩
  · obtain rfl := Option.some.inj h; exact ⟨hI, rfl, rfl⟩

end

/-- The next owner, if there is one, waited; and it is the only one that does not wait any more. -/
structure HandedOver (s : ThreadSystem T) (next : Option T) (s' : ThreadSystem T) : Prop where
  locks : LocksInv s'
  kind : s'.isKernelAddressKey = s.isKernelAddressKey
  owner : ∀ w, s'.getLockOwner w = none ↔ next = some w ∨ s.getLockOwner w = none
  waited : ∀ w, next = some w → s.getLockOwner w ≠ none

theorem handOver_handedOver {l : Nat} {next : T} {rest : List T} (hH : Handing s l o next rest) :
    HandedOver s (some next) (s.handOver l o next rest) := by
  refine ⟨hH.handOver_inv, rfl, fun w => ?_, ?_⟩
  · rw [hH.getLockOwner_handOver]
    by_cases hw : w = next
    · simp [hw]
    · rw [if_neg hw]
      by_cases hr : w ∈ rest
      · simp [hr, Ne.symm hw, hH.getLockOwner_tree (.inr hr)]
      · simp [hr, Ne.symm hw]
  · rintro w hw
    obtain rfl := Option.some.inj hw
    rw [hH.getLockOwner_tree (.inl rfl)]; exact Option.some_ne_none o

theorem removeWaiterByKey_handedOver (hI : LocksInv s) {key : BitVec 64} {isKernel : Bool}
    {next : Option T} {more : Bool}
    (h : removeWaiterByKey n s o key isKernel = some (next, more, s')) : HandedOver s next s' := by
  cases hfind : s.findHeldLock o key isKernel with
  | none =>
    unfold removeWaiterByKey at h
    rw [hfind] at h
    simp only [Option.some.injEq, Prod.mk.injEq] at h
    obtain ⟨rfl, -, rfl⟩ := h; exact ⟨hI, rfl, fun w => by simp, nofun⟩
  | some l =>
    obtain ⟨w, rest, hH⟩ := handing_of_find hI hfind
    have hh := handOver_handedOver hH
    rw [hH.removeWaiterByKey_eq hfind] at h
    split at h
    · obtain ⟨s₁, hs₁, heq⟩ := Option.map_eq_some_iff.1 h
      simp only [Prod.mk.injEq] at heq
      obtain ⟨rfl, -, rfl⟩ := heq
      have hm := restorePriority_moved hh.locks hs₁
      exact ⟨hm.locks, hm.kind.trans hh.kind, fun x => by rw [hm.owner, hh.owner], hh.waited⟩
    · simp only [Option.some.injEq, Prod.mk.injEq] at h
      obtain ⟨rfl, -, rfl⟩ := h; exact hh

end Locks

/-! ## The invariant -/

section Invariant

variable [Fintype T] {s s' : State T} {n : Nat} {t : T}

/-- Waits and locks agree. -/
structure Inv (s : State T) : Prop where
  locks : LocksInv s.threads
  user : ∀ t, s.threads.isKernelAddressKey t = false
  /-- A thread that waits for an address has a lock owner. -/
  address : ∀ t, s.waitQueue t = some .waitForAddress → s.threads.getLockOwner t ≠ none
  waiting : ∀ t, s.threads.getLockOwner t ≠ none → s.waitQueue t ≠ none
  condvar : ∀ t, s.condvarKey t ≠ none →
    s.waitQueue t = some .waitConditionVariable ∧ s.threads.getLockOwner t = none

/-- The threads as they are created. -/
structure Initial (s : State T) : Prop where
  threads : s.threads.Initial
  user : ∀ t, s.threads.isKernelAddressKey t = false
  waitQueue : ∀ t, s.waitQueue t = none
  condvarKey : ∀ t, s.condvarKey t = none

theorem Initial.inv (h : Initial s) : Inv s where
  locks := h.threads.inv.locks
  user := h.user
  address t ht := by
    rw [h.waitQueue t] at ht; cases ht
  waiting t ht := by
    have hnone := h.threads.inv.locks.getLockOwner_eq_none.2 (h.threads.waiting t)
    exact absurd hnone ht
  condvar t ht := absurd (h.condvarKey t) ht

/-- Only the threads in `ws` are out of their waits. -/
structure Released (s : State T) (ws : List T) (s' : State T) : Prop where
  locks : LocksInv s'.threads
  kind : s'.threads.isKernelAddressKey = s.threads.isKernelAddressKey
  owner : ∀ w, s'.threads.getLockOwner w = if w ∈ ws then none else s.threads.getLockOwner w
  waitQueue : ∀ w, s'.waitQueue w = if w ∈ ws then none else s.waitQueue w
  condvarKey : ∀ w, s'.condvarKey w = if w ∈ ws then none else s.condvarKey w

theorem Released.inv {ws : List T} (h : Released s ws s') (hI : Inv s) : Inv s' where
  locks := h.locks
  user t := by
    rw [h.kind]; exact hI.user t
  address t ht := by
    rw [h.waitQueue] at ht
    rw [h.owner]
    by_cases hw : t ∈ ws
    · rw [if_pos hw] at ht
      cases ht
    · rw [if_neg hw] at ht ⊢; exact hI.address t ht
  waiting t ht := by
    rw [h.owner] at ht
    rw [h.waitQueue]
    by_cases hw : t ∈ ws
    · rw [if_pos hw] at ht
      exact absurd rfl ht
    · rw [if_neg hw] at ht ⊢; exact hI.waiting t ht
  condvar t ht := by
    rw [h.condvarKey] at ht
    rw [h.owner, h.waitQueue]
    by_cases hw : t ∈ ws
    · rw [if_pos hw] at ht
      exact absurd rfl ht
    · rw [if_neg hw] at ht ⊢
      rw [if_neg hw]; exact hI.condvar t ht

omit [DecidableEq T] [Fintype T] in
theorem orStuck_eq_ok {α : Type} {x : Option α} {a : α} (h : orStuck x = .ok a) : x = some a := by
  cases x with
  | none => cases h
  | some b =>
    obtain rfl := Except.ok.inj h; rfl

omit [DecidableEq T] [Fintype T] in
theorem orStuck_ne_nullOwner {α : Type} (x : Option α) : orStuck x ≠ .error .nullOwner := by
  cases x with
  | none => exact fun h => nomatch h
  | some a => exact fun h => nomatch h

/-! ## One operation -/

/-- Null is not called, and the invariant is kept. -/
structure Safe (r : Except Fault (State T)) : Prop where
  ne_nullOwner : r ≠ .error .nullOwner
  inv : ∀ s', r = .ok s' → Inv s'

theorem safe_ok (hI : Inv s) : Safe (.ok s) where
  ne_nullOwner h := nomatch h
  inv s' h := by
    obtain rfl := Except.ok.inj h; exact hI

theorem safe_bind {α : Type} {r : Except Fault α} {f : α → Except Fault (State T)}
    (hr : r ≠ .error .nullOwner) (hf : ∀ a, r = .ok a → Safe (f a)) : Safe (r.bind f) := by
  cases r with
  | error e =>
    refine ⟨fun h => hr ?_, fun s' h => nomatch h⟩
    obtain rfl := Except.error.inj h; rfl
  | ok a => exact hf a rfl

theorem safe_map {α : Type} {r : Except Fault α} {f : α → State T}
    (hr : r ≠ .error .nullOwner) (hf : ∀ a, r = .ok a → Inv (f a)) : Safe (r.map f) := by
  cases r with
  | error e =>
    refine ⟨fun h => hr ?_, fun s' h => nomatch h⟩
    obtain rfl := Except.error.inj h; rfl
  | ok a => exact safe_ok (hf a rfl)

/-- The thread `t` leaves its lock, its wait and the tree of the condition variable. -/
def State.leave (s : State T) (threads : ThreadSystem T) (t : T) : State T :=
  { s with
    threads := threads
    waitQueue := update s.waitQueue t none
    condvarKey := update s.condvarKey t none }

omit [Fintype T] in
theorem update_none_apply {α : Type} (f : T → Option α) (t w : T) :
    update f t none w = if w ∈ [t] then none else f w := by
  rw [update_apply]; simp

theorem leave_released {threads : ThreadSystem T}
    (hm : Moved s.threads (update s.threads.getLockOwner t none) threads) :
    Released s [t] (s.leave threads t) where
  locks := hm.locks
  kind := hm.kind
  owner w := by
    show threads.getLockOwner w = _
    rw [hm.owner, update_none_apply]
  waitQueue w := update_none_apply _ _ _
  condvarKey w := update_none_apply _ _ _

theorem Inv.condvarKey_eq_none (hI : Inv s) (h : s.waitQueue t ≠ some .waitConditionVariable) :
    s.condvarKey t = none := by
  by_contra hne
  exact h (hI.condvar t hne).1

theorem cancelWait_safe (hI : Inv s) : Safe (s.cancelWait n t) := by
  unfold State.cancelWait
  cases hq : s.waitQueue t with
  | none => exact safe_ok hI
  | some q =>
    cases q with
    | waitForAddress =>
      cases hown : s.threads.getLockOwner t with
      | none => exact absurd hown (hI.address t hq)
      | some owner =>
        refine safe_map (orStuck_ne_nullOwner _) fun threads h => ?_
        have hm := removeWaiter_moved hI.locks hown (orStuck_eq_ok h)
        have hkey : s.condvarKey t = none := hI.condvarKey_eq_none (by simp [hq])
        have hI' := (leave_released hm).inv hI
        unfold State.leave at hI'
        rw [← hkey, update_eq_self] at hI'; exact hI'
    | waitConditionVariable =>
      cases hown : s.threads.getLockOwner t with
      | none =>
        exact safe_ok ((leave_released (moved_self hI.locks hown)).inv hI)
      | some owner =>
        refine safe_map (orStuck_ne_nullOwner _) fun threads h => ?_
        exact (leave_released (removeWaiter_moved hI.locks hown (orStuck_eq_ok h))).inv hI

theorem Inv.congr (hI : Inv s) (hthreads : s'.threads = s.threads)
    (hqueue : s'.waitQueue = s.waitQueue) (hkey : s'.condvarKey = s.condvarKey) : Inv s' := by
  refine ⟨?_, ?_, ?_, ?_, ?_⟩
  · rw [hthreads]
    exact hI.locks
  · rw [hthreads]
    exact hI.user
  · rw [hthreads, hqueue]
    exact hI.address
  · rw [hthreads, hqueue]
    exact hI.waiting
  · rw [hthreads, hqueue, hkey]; exact hI.condvar

theorem Inv.getLockOwner_eq_none (hI : Inv s) (h : s.waitQueue t = none) :
    s.threads.getLockOwner t = none := by
  by_contra hne
  exact hI.waiting t hne h

theorem waitForAddress_safe (hI : Inv s) (hq : s.waitQueue t = none) (handle : BitVec 32)
    (addr : BitVec 64) (value : BitVec 32) : Safe (s.waitForAddress n t handle addr value) := by
  unfold State.waitForAddress
  split
  · exact safe_ok hI
  split
  · exact safe_ok hI
  cases s.handleTable handle with
  | none => exact safe_ok hI
  | some owner =>
    refine safe_map (orStuck_ne_nullOwner _) fun threads h => ?_
    have hown := hI.getLockOwner_eq_none hq
    have hL := setAddressKey_locks hI.locks (hI.locks.getLockOwner_eq_none.1 hown) addr false
    have hm := addWaiter_moved hL hown (orStuck_eq_ok h)
    have howner : threads.getLockOwner =
        update s.threads.getLockOwner t (some owner) := hm.owner
    refine ⟨hm.locks, fun w => ?_, fun w hw => ?_, fun w hw => ?_, fun w hw => ?_⟩
    · show threads.isKernelAddressKey w = false
      rw [hm.kind]
      show update s.threads.isKernelAddressKey t false w = false
      by_cases hwt : w = t
      · rw [hwt, update_self]
      · rw [update_of_ne hwt]; exact hI.user w
    · show threads.getLockOwner w ≠ none
      rw [howner]
      by_cases hwt : w = t
      · rw [hwt, update_self]
        exact Option.some_ne_none owner
      · have hw' : update s.waitQueue t (some .waitForAddress) w = _ := hw
        rw [update_of_ne hwt] at hw' ⊢; exact hI.address w hw'
    · show update s.waitQueue t (some .waitForAddress) w ≠ none
      by_cases hwt : w = t
      · rw [hwt, update_self]
        exact Option.some_ne_none _
      · have hw' : threads.getLockOwner w ≠ none := hw
        rw [howner] at hw'
        rw [update_of_ne hwt] at hw' ⊢; exact hI.waiting w hw'
    · have hwt : w ≠ t := by
        rintro rfl
        rw [(hI.condvar w hw).1] at hq; cases hq
      show update s.waitQueue t (some .waitForAddress) w = _ ∧ threads.getLockOwner w = none
      rw [howner, update_of_ne hwt, update_of_ne hwt]; exact hI.condvar w hw

theorem releaseToNext_inv (hI : Inv s) {addr : BitVec 64} {r : BitVec 32 × State T}
    (h : s.releaseToNext n t addr = .ok r) :
    Inv r.2 ∧ (s.waitQueue t = none → r.2.waitQueue t = none) ∧
      (s.condvarKey t = none → r.2.condvarKey t = none) := by
  unfold State.releaseToNext at h
  cases hr : s.threads.removeWaiterByKey n t addr false with
  | none =>
    rw [hr] at h; cases h
  | some x =>
    obtain ⟨next, more, threads⟩ := x
    rw [hr] at h
    obtain rfl := Except.ok.inj h
    have hh := removeWaiterByKey_handedOver hI.locks hr
    cases next with
    | none =>
      have hnone : ∀ w, threads.getLockOwner w = none ↔ s.threads.getLockOwner w = none := by
        intro w
        rw [hh.owner w]; simp
      refine ⟨⟨hh.locks, fun w => ?_, fun w hw => ?_, fun w hw => ?_, fun w hw => ?_⟩, id, id⟩
      · show threads.isKernelAddressKey w = false
        rw [hh.kind]
        exact hI.user w
      · exact fun hn => hI.address w hw ((hnone w).1 hn)
      · exact hI.waiting w fun hn => hw ((hnone w).2 hn)
      · exact ⟨(hI.condvar w hw).1, (hnone w).2 (hI.condvar w hw).2⟩
    | some next =>
      have hkey : s.condvarKey next = none := by
        by_contra hne
        exact hh.waited next rfl (hI.condvar next hne).2
      have hof : ∀ w, w ≠ next →
          (threads.getLockOwner w = none ↔ s.threads.getLockOwner w = none) := by
        intro w hw
        rw [hh.owner w]; simp [Ne.symm hw]
      have hqueue : ∀ w, update s.waitQueue next none w =
          if w = next then none else s.waitQueue w := fun w => update_apply _ _ _ _
      refine ⟨⟨hh.locks, fun w => ?_, fun w hw => ?_, fun w hw => ?_, fun w hw => ?_⟩,
        fun hq => ?_, id⟩
      · show threads.isKernelAddressKey w = false
        rw [hh.kind]
        exact hI.user w
      · have hw' : update s.waitQueue next none w = some .waitForAddress := hw
        rw [hqueue] at hw'
        by_cases hwn : w = next
        · rw [if_pos hwn] at hw'
          cases hw'
        · rw [if_neg hwn] at hw'; exact fun hn => hI.address w hw' ((hof w hwn).1 hn)
      · show update s.waitQueue next none w ≠ none
        have hwn : w ≠ next := by
          rintro rfl; exact hw ((hh.owner w).2 (.inl rfl))
        rw [update_of_ne hwn]
        exact hI.waiting w fun hn => hw ((hof w hwn).2 hn)
      · have hwn : w ≠ next := by
          rintro rfl; exact hw hkey
        show update s.waitQueue next none w = _ ∧ threads.getLockOwner w = none
        rw [update_of_ne hwn]
        exact ⟨(hI.condvar w hw).1, (hof w hwn).2 (hI.condvar w hw).2⟩
      · show update s.waitQueue next none t = none
        rw [hqueue, hq]; exact ite_self none

omit [Fintype T] in
theorem releaseToNext_ne_nullOwner (addr : BitVec 64) :
    s.releaseToNext n t addr ≠ .error .nullOwner := by
  unfold State.releaseToNext
  cases s.threads.removeWaiterByKey n t addr false with
  | none => exact fun h => nomatch h
  | some x => exact fun h => nomatch h

theorem signalToAddress_safe (hI : Inv s) (addr : BitVec 64) :
    Safe (s.signalToAddress n t addr) := by
  refine safe_map (releaseToNext_ne_nullOwner addr) fun r h => ?_
  exact (releaseToNext_inv hI h).1.congr rfl rfl rfl

theorem inv_of_wait (hI : Inv s) (hq : s.waitQueue t = none) (addr key : BitVec 64)
    (hs : s'.threads = s.threads.setAddressKey t addr false)
    (hkey : s'.condvarKey = update s.condvarKey t (some key))
    (hqueue : s'.waitQueue = update s.waitQueue t (some .waitConditionVariable)) : Inv s' := by
  have hown := hI.getLockOwner_eq_none hq
  have howner : s'.threads.getLockOwner = s.threads.getLockOwner := by
    rw [hs]; rfl
  refine ⟨?_, fun w => ?_, fun w hw => ?_, fun w hw => ?_, fun w hw => ?_⟩
  · rw [hs]
    exact setAddressKey_locks hI.locks (hI.locks.getLockOwner_eq_none.1 hown) addr false
  · rw [hs]
    show update s.threads.isKernelAddressKey t false w = false
    by_cases hwt : w = t
    · rw [hwt, update_self]
    · rw [update_of_ne hwt]; exact hI.user w
  · rw [hqueue] at hw
    have hwt : w ≠ t := by
      rintro rfl
      rw [update_self] at hw; cases hw
    rw [update_of_ne hwt] at hw
    rw [howner]
    exact hI.address w hw
  · rw [howner] at hw
    have hwt : w ≠ t := by
      rintro rfl; exact hw hown
    rw [hqueue, update_of_ne hwt]
    exact hI.waiting w hw
  · rw [hqueue, howner]
    by_cases hwt : w = t
    · rw [hwt, update_self]
      exact ⟨rfl, hown⟩
    · rw [hkey, update_of_ne hwt] at hw
      rw [update_of_ne hwt]; exact hI.condvar w hw

theorem wait_safe (hI : Inv s) (hq : s.waitQueue t = none) (addr key : BitVec 64)
    (value : BitVec 32) (timeout : Int) : Safe (s.wait n t addr key value timeout) := by
  unfold State.wait
  split
  · exact safe_ok hI
  refine safe_map (releaseToNext_ne_nullOwner addr) fun r h => ?_
  obtain ⟨hI', hq', -⟩ := releaseToNext_inv hI h
  dsimp only
  split
  · exact hI'.congr rfl rfl rfl
  · exact inv_of_wait hI' (hq' hq) addr key rfl rfl rfl

theorem signalImpl_safe (hI : Inv s) {key : BitVec 64} (hkey : s.condvarKey t = some key) :
    Safe (State.signalImpl n { s with condvarKey := update s.condvarKey t none } t) := by
  obtain ⟨hq, hown⟩ := hI.condvar t (by simp [hkey])
  have hend : ∀ s' : State T, s'.threads = s.threads →
      s'.waitQueue = update s.waitQueue t none →
      s'.condvarKey = update s.condvarKey t none → Inv s' := by
    intro s' hs' hq' hkey'
    exact ((leave_released (moved_self hI.locks hown)).inv hI).congr hs' hq' hkey'
  unfold State.signalImpl
  dsimp only
  split
  · exact safe_ok (hend _ rfl rfl rfl)
  split
  · exact safe_ok (hend _ rfl rfl rfl)
  · rename_i owner hhandle
    refine safe_map (orStuck_ne_nullOwner _) fun threads h => ?_
    have hm := addWaiter_moved hI.locks hown (orStuck_eq_ok h)
    refine ⟨hm.locks, fun w => ?_, fun w hw => ?_, fun w hw => ?_, fun w hw => ?_⟩
    · show threads.isKernelAddressKey w = false
      rw [hm.kind]
      exact hI.user w
    · show threads.getLockOwner w ≠ none
      rw [hm.owner]
      by_cases hwt : w = t
      · rw [hwt, update_self]
        exact Option.some_ne_none owner
      · rw [update_of_ne hwt]; exact hI.address w hw
    · have hw' : threads.getLockOwner w ≠ none := hw
      rw [hm.owner] at hw'
      show s.waitQueue w ≠ none
      by_cases hwt : w = t
      · rw [hwt, hq]
        exact Option.some_ne_none _
      · rw [update_of_ne hwt] at hw'; exact hI.waiting w hw'
    · have hw' : update s.condvarKey t none w ≠ none := hw
      have hwt : w ≠ t := by
        rintro rfl
        rw [update_self] at hw'; exact hw' rfl
      rw [update_of_ne hwt] at hw'
      show s.waitQueue w = _ ∧ threads.getLockOwner w = none
      rw [hm.owner, update_of_ne hwt]; exact hI.condvar w hw'

theorem signalTargets_safe (cvKey : BitVec 64) (targets : List T) (hI : Inv s) :
    Safe (State.signalTargets n cvKey targets s) := by
  induction targets generalizing s with
  | nil => exact safe_ok hI
  | cons t targets ih =>
    rw [State.signalTargets]
    split
    · rename_i hkey
      have hsafe := signalImpl_safe (n := n) hI hkey
      exact safe_bind hsafe.ne_nullOwner fun s₁ h => ih (hsafe.inv s₁ h)
    · exact ih hI

theorem signal_safe (cvKey : BitVec 64) (targets : List T) (hI : Inv s) :
    Safe (s.signal n cvKey targets) := by
  have hsafe := signalTargets_safe (n := n) cvKey targets hI
  refine safe_map hsafe.ne_nullOwner fun s₁ h => ?_
  split
  · exact hsafe.inv s₁ h
  · exact (hsafe.inv s₁ h).congr rfl rfl rfl

theorem requestTerminate_safe (hI : Inv s) : Safe (s.requestTerminate n t) := by
  unfold State.requestTerminate
  split
  · exact safe_ok hI
  refine safe_bind (orStuck_ne_nullOwner _) fun threads h => cancelWait_safe ?_
  have hm := increaseBasePriority_moved hI.locks (orStuck_eq_ok h)
  refine ⟨hm.locks, fun w => ?_, ?_, ?_, ?_⟩
  · show threads.isKernelAddressKey w = false
    rw [hm.kind]
    exact hI.user w
  · show ∀ w, s.waitQueue w = _ → threads.getLockOwner w ≠ none
    rw [hm.owner]
    exact hI.address
  · show ∀ w, threads.getLockOwner w ≠ none → s.waitQueue w ≠ none
    rw [hm.owner]
    exact hI.waiting
  · show ∀ w, s.condvarKey w ≠ none → s.waitQueue w = _ ∧ threads.getLockOwner w = none
    rw [hm.owner]; exact hI.condvar

/-! ## `Finalize` -/

omit [Fintype T] in
theorem cancelWait_of_detached (hown : s.threads.getLockOwner t = none)
    (hkey : s.waitQueue t = none → s.condvarKey t = none) :
    s.cancelWait n t = if s.waitQueue t = some .waitForAddress then .error .nullOwner
      else .ok (s.leave s.threads t) := by
  unfold State.cancelWait
  cases hq : s.waitQueue t with
  | none =>
    rw [if_neg nofun]
    show Except.ok s = .ok { s with
      waitQueue := update s.waitQueue t none
      condvarKey := update s.condvarKey t none }
    rw [update_eq_self_iff.2 hq.symm, update_eq_self_iff.2 (hkey hq).symm]
  | some q =>
    cases q with
    | waitForAddress =>
      rw [if_pos rfl]; simp [hown]
    | waitConditionVariable =>
      rw [if_neg (by simp)]
      simp only [hown]; rfl

theorem Released.trans {s₁ : State T} {ws ws' : List T} (h : Released s ws s₁)
    (h' : Released s₁ ws' s') : Released s (ws ++ ws') s' where
  locks := h'.locks
  kind := h'.kind.trans h.kind
  owner w := by
    rw [h'.owner, h.owner]
    by_cases hw : w ∈ ws
    · simp [hw]
    · simp [hw]
  waitQueue w := by
    rw [h'.waitQueue, h.waitQueue]
    by_cases hw : w ∈ ws
    · simp [hw]
    · simp [hw]
  condvarKey w := by
    rw [h'.condvarKey, h.condvarKey]
    by_cases hw : w ∈ ws
    · simp [hw]
    · simp [hw]

section Detach

variable {x : ThreadSystem T} {l : Nat} {w : T}

omit [Fintype T] in
theorem lockRemoveWaiter_of_ne_nil (hk : x.isKernelAddressKey w = false)
    (hne : (x.lockInfo l).tree.erase w ≠ []) : (x.lockRemoveWaiter l w).2 = x.detach l t w := by
  unfold lockRemoveWaiter detach; simp [hk, hne, setLockInfo, setWaitingLockInfo]

omit [Fintype T] in
theorem lockRemoveWaiter_of_nil (hk : x.isKernelAddressKey w = false)
    (hnil : (x.lockInfo l).tree.erase w = []) :
    (x.lockRemoveWaiter l w).2.setHeldLockInfoList t ((x.heldLockInfoList t).erase l) =
      x.detach l t w := by
  unfold lockRemoveWaiter detach
  simp [hk, hnil, setLockInfo, setWaitingLockInfo, setHeldLockInfoList]

theorem detach_moved (hL : LocksInv x) (hheld : l ∈ x.heldLockInfoList t)
    (hw : w ∈ (x.lockInfo l).tree) : Moved x (update x.getLockOwner w none) (x.detach l t w) :=
  ⟨detach_inv hL ((hL.mem_tree w l).2 hw) ((hL.held t l).1 hheld).1, getLockOwner_detach, rfl⟩

omit [Fintype T] in
theorem getLockOwner_lockRemoveWaiter : (x.lockRemoveWaiter l w).2.getLockOwner w = none := by
  unfold getLockOwner
  rw [show (x.lockRemoveWaiter l w).2.waitingLockInfo w = none from update_self _ _ _]

end Detach

theorem releaseWaiters_cons (hI : Inv s) {l count : Nat} {w : T} {rest : List T}
    (htree : (s.threads.lockInfo l).tree = w :: rest) :
    State.releaseWaiters n l (count + 1) s =
      if s.waitQueue w = some .waitForAddress then .error .nullOwner
      else State.releaseWaiters n l count (s.leave (s.threads.lockRemoveWaiter l w).2 w) := by
  have hkey : s.waitQueue w = none → s.condvarKey w = none := by
    intro hq; exact hI.condvarKey_eq_none (by simp [hq])
  rw [State.releaseWaiters, htree]
  have hcancel := cancelWait_of_detached (n := n) (t := w)
    (s := { s with threads := (s.threads.lockRemoveWaiter l w).2 })
    getLockOwner_lockRemoveWaiter hkey
  show (State.cancelWait n { s with threads := (s.threads.lockRemoveWaiter l w).2 } w).bind _ = _
  rw [hcancel]
  by_cases hq : s.waitQueue w = some .waitForAddress
  · rw [if_pos hq, if_pos hq]
    rfl
  · rw [if_neg hq, if_neg hq]; rfl

/-- The lock `l` of `t` is taken off the list of the locks `t` holds. -/
def State.dropLock (s : State T) (t : T) (l : Nat) : State T :=
  { s with threads := s.threads.setHeldLockInfoList t ((s.threads.heldLockInfoList t).erase l) }

theorem releaseWaiters_spec (hI : Inv s) {l : Nat} (hheld : l ∈ s.threads.heldLockInfoList t)
    (tree : List T) (htree : (s.threads.lockInfo l).tree = tree) :
    if ∃ w ∈ tree, s.waitQueue w = some .waitForAddress then
      State.releaseWaiters n l tree.length s = .error .nullOwner
    else ∃ s₁, State.releaseWaiters n l tree.length s = .ok s₁ ∧
      Released s tree (s₁.dropLock t l) ∧
      s₁.threads.heldLockInfoList t = s.threads.heldLockInfoList t := by
  induction tree generalizing s with
  | nil => exact absurd htree ((hI.locks.held t l).1 hheld).2
  | cons w rest ih =>
    have hmem : w ∈ (s.threads.lockInfo l).tree := by
      rw [htree]; exact List.mem_cons_self
    have herase : (s.threads.lockInfo l).tree.erase w = rest := by
      rw [htree, List.erase_cons_head]
    have hrel := leave_released (detach_moved hI.locks hheld hmem)
    rw [List.length_cons, releaseWaiters_cons hI htree]
    by_cases hq : s.waitQueue w = some .waitForAddress
    · rw [if_pos hq, if_pos ⟨w, List.mem_cons_self, hq⟩]
    rw [if_neg hq]
    cases rest with
    | nil =>
      rw [if_neg (by simpa using hq)]
      refine ⟨_, rfl, ?_, rfl⟩
      have hdrop : (s.leave (s.threads.lockRemoveWaiter l w).2 w).dropLock t l =
          s.leave (s.threads.detach l t w) w := by
        rw [← lockRemoveWaiter_of_nil (hI.user w) herase]; rfl
      rw [hdrop]; exact hrel
    | cons w' rest =>
      have hne : (s.threads.lockInfo l).tree.erase w ≠ [] := by
        rw [herase]; exact List.cons_ne_nil _ _
      have hsame : (s.threads.detach l t w).heldLockInfoList = s.threads.heldLockInfoList :=
        if_neg hne
      rw [lockRemoveWaiter_of_ne_nil (hI.user w) hne]
      have hih := ih (hrel.inv hI) (s := s.leave (s.threads.detach l t w) w)
        (by
          show l ∈ (s.threads.detach l t w).heldLockInfoList t
          rw [hsame]; exact hheld)
        (by
          show ((s.threads.detach l t w).lockInfo l).tree = _
          rw [detach_lockInfo_self]; exact herase)
      have hnot : w ∉ w' :: rest := by
        have hnd := hI.locks.nodup l
        rw [htree, List.nodup_cons] at hnd; exact hnd.1
      have hbad : (∃ x ∈ w :: w' :: rest, s.waitQueue x = some .waitForAddress) ↔
          ∃ x ∈ w' :: rest,
            (s.leave (s.threads.detach l t w) w).waitQueue x = some .waitForAddress := by
        rw [List.exists_mem_cons_iff, or_iff_right hq]
        refine exists_congr fun x => and_congr_right fun hx => ?_
        show _ ↔ update s.waitQueue w none x = _
        rw [update_of_ne (by rintro rfl; exact hnot hx)]
      by_cases hex : ∃ x ∈ w :: w' :: rest, s.waitQueue x = some .waitForAddress
      · rw [if_pos (hbad.1 hex)] at hih
        rw [if_pos hex]
        exact hih
      · rw [if_neg fun h => hex (hbad.2 h)] at hih
        rw [if_neg hex]
        obtain ⟨s₁, h₁, hrel₁, hheld₁⟩ := hih
        refine ⟨s₁, h₁, hrel.trans hrel₁, hheld₁.trans ?_⟩
        show (s.threads.detach l t w).heldLockInfoList t = _
        rw [hsame]

/-- A thread that waits for an address has the lock owner `o`. -/
def HasAddressWaiter (s : State T) (o : T) : Prop :=
  ∃ w, s.threads.getLockOwner w = some o ∧ s.waitQueue w = some .waitForAddress

theorem releaseLocks_spec (hI : Inv s) (locks : List Nat)
    (hlocks : s.threads.heldLockInfoList t = locks) :
    (HasAddressWaiter s t → State.releaseLocks n t locks s = .error .nullOwner) ∧
      (¬ HasAddressWaiter s t → ∃ s', State.releaseLocks n t locks s = .ok s' ∧ Inv s') := by
  induction locks generalizing s with
  | nil =>
    have hno : ¬ HasAddressWaiter s t := by
      rintro ⟨w, hw, -⟩
      obtain ⟨l, hl, -⟩ := hI.locks.getLockOwner_iff.1 hw
      rw [hlocks] at hl; cases hl
    exact ⟨fun h => absurd h hno, fun _ => ⟨s, rfl, hI⟩⟩
  | cons l locks ih =>
    have hheld : l ∈ s.threads.heldLockInfoList t := by
      rw [hlocks]; exact List.mem_cons_self
    have hspec := releaseWaiters_spec (n := n) hI hheld _ rfl
    rw [State.releaseLocks, hI.locks.count l]
    by_cases hex : ∃ w ∈ (s.threads.lockInfo l).tree, s.waitQueue w = some .waitForAddress
    · rw [if_pos hex] at hspec
      rw [hspec]
      refine ⟨fun _ => rfl, fun hno => absurd ?_ hno⟩
      obtain ⟨w, hw, hq⟩ := hex
      exact ⟨w, hI.locks.getLockOwner_iff.2 ⟨l, hheld, hw⟩, hq⟩
    · rw [if_neg hex] at hspec
      obtain ⟨s₁, h₁, hrel, hheld₁⟩ := hspec
      rw [h₁]
      show (HasAddressWaiter s t → State.releaseLocks n t locks (s₁.dropLock t l) = _) ∧
        (¬ HasAddressWaiter s t →
          ∃ s', State.releaseLocks n t locks (s₁.dropLock t l) = .ok s' ∧ Inv s')
      have hlocks' : (s₁.dropLock t l).threads.heldLockInfoList t = locks := by
        show update s₁.threads.heldLockInfoList t _ t = locks
        rw [update_self, hheld₁, hlocks, List.erase_cons_head]
      have hsame : HasAddressWaiter (s₁.dropLock t l) t ↔ HasAddressWaiter s t := by
        refine exists_congr fun w => ?_
        rw [hrel.owner, hrel.waitQueue]
        by_cases hw : w ∈ (s.threads.lockInfo l).tree
        · rw [if_pos hw, if_pos hw]
          refine iff_of_false (fun h => nomatch h.1) fun h => hex ⟨w, hw, h.2⟩
        · rw [if_neg hw, if_neg hw]
      rw [← hsame]; exact ih (hrel.inv hI) hlocks'

/-- Dropping a reference is harmful exactly if it is the last one and a thread waits for an address
    whose lock the thread owns. -/
def MayClose (s : State T) (o : T) : Prop :=
  s.refCount o ≤ 1 → ¬ HasAddressWaiter s o

theorem close_spec (hI : Inv s) :
    (s.close n t ≠ .error .nullOwner ↔ MayClose s t) ∧ ∀ s', s.close n t = .ok s' → Inv s' := by
  have hI' : Inv { s with refCount := update s.refCount t (s.refCount t - 1) } :=
    hI.congr rfl rfl rfl
  have hlast : update s.refCount t (s.refCount t - 1) t = 0 ↔ s.refCount t ≤ 1 := by
    rw [update_self]; exact Nat.sub_eq_zero_iff_le
  unfold State.close
  dsimp only
  by_cases hle : s.refCount t ≤ 1
  · rw [if_pos (hlast.2 hle)]
    obtain ⟨hbad, hgood⟩ := releaseLocks_spec (n := n) (t := t) hI' _ rfl
    by_cases hw : HasAddressWaiter s t
    · have herr := hbad hw
      unfold State.finalize
      rw [herr]
      exact ⟨iff_of_false (fun h => h rfl) fun h => h hle hw, fun s' h => nomatch h⟩
    · obtain ⟨s₁, h₁, hI₁⟩ := hgood hw
      unfold State.finalize
      rw [h₁]
      refine ⟨iff_of_true (fun h => nomatch h) fun _ => hw, fun s' h => ?_⟩
      obtain rfl := Except.ok.inj h; exact hI₁
  · rw [if_neg fun h => hle (hlast.1 h)]
    refine ⟨iff_of_true (fun h => nomatch h) fun h => absurd h hle, fun s' h => ?_⟩
    · obtain rfl := Except.ok.inj h; exact hI'

/-! ## The result -/

/-- The step does not drop the last reference to the lock owner of a thread that waits for an
    address. -/
def KeepsOwners (s : State T) : Op T → Prop
  | .closeHandle handle => ∀ o, s.handleTable handle = some o → MayClose s o
  | .resume cur => ∀ o, s.ownerThread cur = some o → MayClose s o
  | .exit cur => MayClose s cur
  | _ => True

theorem Safe.spec {r : Except Fault (State T)} (h : Safe r) :
    (r ≠ .error .nullOwner ↔ True) ∧ ∀ s', r = .ok s' → Inv s' :=
  ⟨iff_true_intro h.ne_nullOwner, h.inv⟩

theorem exec_spec (hI : Inv s) {op : Op T} (hE : Enabled s op) :
    (exec n s op ≠ .error .nullOwner ↔ KeepsOwners s op) ∧ ∀ s', exec n s op = .ok s' → Inv s' := by
  cases op with
  | userWrite address value =>
    have hI' : Inv (s.writeToUser address value) := hI.congr rfl rfl rfl
    exact (safe_ok hI').spec
  | openHandle handle t =>
    have hI' : Inv { s.openRef t with
        handleTable := update s.handleTable handle (some t) } := hI.congr rfl rfl rfl
    exact (safe_ok hI').spec
  | closeHandle handle =>
    show (s.closeHandle n handle ≠ _ ↔ ∀ o, s.handleTable handle = some o → MayClose s o) ∧
      ∀ s', s.closeHandle n handle = .ok s' → Inv s'
    unfold State.closeHandle
    cases h : s.handleTable handle with
    | none => simpa using (safe_ok hI).spec
    | some o =>
      have hI' : Inv { s with handleTable := update s.handleTable handle none } :=
        hI.congr rfl rfl rfl
      simpa using! close_spec (n := n) (t := o) hI'
  | waitForAddress cur handle addr value =>
    exact (waitForAddress_safe hI hE.2.1 handle addr value).spec
  | resume cur =>
    show (s.resume n cur ≠ _ ↔ ∀ o, s.ownerThread cur = some o → MayClose s o) ∧
      ∀ s', s.resume n cur = .ok s' → Inv s'
    unfold State.resume
    cases h : s.ownerThread cur with
    | none => simpa using (safe_ok hI).spec
    | some o =>
      have hI' : Inv { s with ownerThread := update s.ownerThread cur none } :=
        hI.congr rfl rfl rfl
      simpa using! close_spec (n := n) (t := o) hI'
  | signalToAddress cur addr => exact (signalToAddress_safe hI addr).spec
  | wait cur addr key value timeout => exact (wait_safe hI hE.2.1 addr key value timeout).spec
  | signal cvKey targets => exact (signal_safe cvKey targets hI).spec
  | requestTerminate t => exact (requestTerminate_safe hI).spec
  | onTimer t => exact (cancelWait_safe hI).spec
  | exit cur =>
    have hI' : Inv { s with running := update s.running cur false } :=
      hI.congr rfl rfl rfl
    exact close_spec hI'

/-- The states a run comes to. -/
inductive Run (s₀ : State T) : State T → Prop where
  | refl : Run s₀ s₀
  | step {s s' : State T} (n : Nat) (op : Op T) (hrun : Run s₀ s) (hE : Enabled s op)
      (h : exec n s op = .ok s') : Run s₀ s'

theorem Run.inv {s₀ : State T} (hrun : Run s₀ s) (h₀ : Inv s₀) : Inv s := by
  induction hrun with
  | refl => exact h₀
  | step n op _ hE h ih => exact (exec_spec ih hE).2 _ h

/-- In every run a thread that waits for an address has a lock owner, and the next step calls null
    exactly if it drops the last reference to such an owner. -/
theorem lockOwner_runs {s₀ : State T} (h₀ : Initial s₀) (hrun : Run s₀ s) :
    (∀ t, s.waitQueue t = some .waitForAddress → s.threads.getLockOwner t ≠ none) ∧
      ∀ n op, Enabled s op → (exec n s op ≠ .error .nullOwner ↔ KeepsOwners s op) := by
  have hI := hrun.inv h₀.inv
  exact ⟨hI.address, fun n op hE => (exec_spec hI hE).1⟩

end Invariant

/-! ### Three threads, one lock -/

/-- Threads 0, 1 and 2 run, with the handles 1, 2 and 3; thread 0 has the lock at `0x1000`. -/
def threeThreads : State (Fin 3) where
  threads :=
    { basePriority := fun _ => 44
      priority := fun _ => 44
      addressKey := fun _ => 0
      isKernelAddressKey := fun _ => false
      heldLockInfoList := fun _ => []
      waitingLockInfo := fun _ => none
      numKernelWaiters := fun _ => 0
      lockInfo := fun _ => ⟨0, false, none, [], 0⟩
      numAllocated := 0 }
  addressKeyValue _ := 0
  waitQueue _ := none
  condvarKey _ := none
  terminationRequested _ := false
  running _ := true
  ownerThread _ := none
  refCount _ := 2
  handleTable handle := if handle = 1 then some 0 else if handle = 2 then some 1
    else if handle = 3 then some 2 else none
  memory address := if address = 0x1000 then 1 ||| handleWaitMask else 0

theorem threeThreads_initial : Initial threeThreads :=
  ⟨⟨rfl, fun _ => rfl, fun _ => rfl, fun _ => rfl, fun _ => ⟨rfl, rfl⟩⟩, fun _ => rfl, fun _ => rfl,
    fun _ => rfl⟩

instance decidableInUser (s : State T) (cur : T) : Decidable (InUser s cur) :=
  inferInstanceAs (Decidable (_ ∧ _ ∧ _))

instance decidableEnabled (s : State T) (op : Op T) : Decidable (Enabled s op) :=
  match op with
  | .userWrite _ _ => .isTrue trivial
  | .openHandle _ _ => inferInstanceAs (Decidable (_ ∧ _))
  | .closeHandle _ => .isTrue trivial
  | .waitForAddress _ _ _ _ => inferInstanceAs (Decidable (InUser _ _))
  | .resume _ => inferInstanceAs (Decidable (_ = _))
  | .signalToAddress _ _ => inferInstanceAs (Decidable (InUser _ _))
  | .wait _ _ _ _ _ => inferInstanceAs (Decidable (InUser _ _))
  | .signal _ _ => .isTrue trivial
  | .requestTerminate _ => .isTrue trivial
  | .onTimer _ => .isTrue trivial
  | .exit _ => inferInstanceAs (Decidable (InUser _ _))

/-- The run of a list of operations, if each of them can begin and none goes wrong. -/
def execAll [Fintype T] (n : Nat) (s : State T) : List (Op T) → Option (State T)
  | [] => some s
  | op :: ops =>
      if Enabled s op then (exec n s op).toOption.bind fun s => execAll n s ops else none

theorem run_of_execAll [Fintype T] {n : Nat} {s₀ s s' : State T} {ops : List (Op T)}
    (hrun : Run s₀ s) (h : execAll n s ops = some s') : Run s₀ s' := by
  induction ops generalizing s with
  | nil =>
    obtain rfl := Option.some.inj h; exact hrun
  | cons op ops ih =>
    rw [execAll] at h
    split at h
    · rename_i hE
      obtain ⟨s₁, h₁, h⟩ := Option.bind_eq_some_iff.1 h
      cases hex : exec n s op with
      | error e =>
        rw [hex] at h₁; cases h₁
      | ok s₂ =>
        rw [hex] at h₁
        obtain rfl := Option.some.inj h₁; exact ih (.step n op hrun hE hex) h
    · cases h

/-- Threads 1 and 2 wait for the lock, and thread 0 hands it to thread 1, which exits with it. -/
def handOverAndExit : List (Op (Fin 3)) :=
  [.waitForAddress 1 1 0x1000 2, .waitForAddress 2 1 0x1000 3, .signalToAddress 0 0x1000,
    .resume 1, .exit 1]

/-- Thread 1 and then thread 2 wait: both have the lock owner 0, and to go on is harmless. -/
theorem lockOwner_two_waiters : ∃ s, Run threeThreads s ∧
    s.waitQueue 2 = some .waitForAddress ∧ s.threads.getLockOwner 2 ≠ none ∧
    exec 5 s (.requestTerminate 2) ≠ .error .nullOwner := by
  have hrun : (execAll 5 threeThreads (handOverAndExit.take 2)).map (fun s => s.waitQueue 2) =
      some (some .waitForAddress) := by decide +kernel
  obtain ⟨s, hs, hq⟩ := Option.map_eq_some_iff.1 hrun
  have hrun' : Run threeThreads s := run_of_execAll .refl hs
  obtain ⟨hown, hexec⟩ := lockOwner_runs threeThreads_initial hrun'
  exact ⟨s, hrun', hq, hown 2 hq, (hexec 5 (.requestTerminate 2) trivial).2 trivial⟩

/-- The handle of thread 1 is closed when it has exited: thread 2 is taken out of the lock, and then
    the owner of the lock it waits for is looked up. -/
theorem closeHandle_calls_null : ¬ ∀ (s₀ s : State (Fin 3)) (n : Nat) (op : Op (Fin 3)),
    Initial s₀ → Run s₀ s → Enabled s op → exec n s op ≠ .error .nullOwner := by
  intro hall
  have hrun : (execAll 5 threeThreads handOverAndExit).map (fun s =>
      (exec 5 s (.closeHandle 2)).map fun _ => ()) = some (.error .nullOwner) := by decide +kernel
  obtain ⟨s, hs, herr⟩ := Option.map_eq_some_iff.1 hrun
  refine hall threeThreads s 5 (.closeHandle 2) threeThreads_initial (run_of_execAll .refl hs)
    trivial ?_
  cases hexec : exec 5 s (.closeHandle 2) with
  | ok s' =>
    rw [hexec] at herr; cases herr
  | error e =>
    rw [hexec] at herr
    obtain rfl := Except.error.inj herr; rfl

end Suyu.Kernel.KConditionVariable
