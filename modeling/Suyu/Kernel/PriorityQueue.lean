/-
  KPriorityQueue — the ready queue of the scheduler: per core and priority, one list of the threads
  SCHEDULED there and one of the threads merely SUGGESTED for it.

  1. **Program** — `k_priority_queue.h`, at the scheduler's parameters (4 cores, priorities 0 to 63)
     and for any type `M` of members.  The lists are intrusive: a member has ONE entry per core,
     which both queues share.  Members are not owned by the queue, so the fields that it reads are
     an argument (`fields`) and the entries are part of the state.
  2. **Abstraction** — `Lists M`: what each list holds.  `Represents s L`: the links of `s` form
     the lists `L`, lists of one core share no member, and the bit sets say which are empty.
  3. **The crux** — a mutator is a series of pushes and removals at slots of DIFFERENT cores.
     Each touches the entries of one core only, so the series acts on `Lists` slot by slot.
-/
import Suyu.Lib.Linked
import Suyu.Common.BitSet

open Lib.Linked
open Suyu.Common (BitSet)

namespace Suyu.Kernel

/-! ## The program -/

def NumCores : Nat := 4
def LowestPriority : Nat := 63

/-- What the queue reads of a member. -/
structure MemberFields where
  priority : Nat
  activeCore : Int
  affinityMask : BitVec 64
  isDummyThread : Bool
deriving DecidableEq, Repr

structure QueueEntry (M : Type) where
  prev : Option M
  next : Option M
deriving DecidableEq, Repr

inductive QueueKind where
  | scheduled
  | suggested
deriving DecidableEq, Repr

/-- The place of a list: `m_queues[priority].m_root[core]` of one of the two queues. -/
structure Slot where
  kind : QueueKind
  priority : Nat
  core : Nat
deriving DecidableEq, Repr

structure KPriorityQueue (M : Type) where
  root : Slot → QueueEntry M
  availablePriorities : QueueKind → Nat → BitSet 64 64
  /-- `GetPriorityQueueEntry(core)` of each member. -/
  entry : M → Nat → QueueEntry M

namespace KPriorityQueue

variable {M : Type} [DecidableEq M]

/-- The queue as constructed.  The members' entries are whatever they are. -/
def init (entry : M → Nat → QueueEntry M) : KPriorityQueue M :=
  { root := fun _ => ⟨none, none⟩
    availablePriorities := fun _ _ => BitSet.empty
    entry := entry }

/-- The entry a link denotes: a null link stands for the root of the list. -/
def getEntry (s : KPriorityQueue M) (i : Slot) : Option M → QueueEntry M
  | none => s.root i
  | some m => s.entry m i.core

def modifyEntry (s : KPriorityQueue M) (i : Slot) (r : Option M)
    (f : QueueEntry M → QueueEntry M) : KPriorityQueue M :=
  match r with
  | none => { s with root := Function.update s.root i (f (s.root i)) }
  | some m => { s with
      entry := Function.update s.entry m (Function.update (s.entry m) i.core (f (s.entry m i.core))) }

def setPrev (s : KPriorityQueue M) (i : Slot) (r v : Option M) : KPriorityQueue M :=
  s.modifyEntry i r fun e => { e with prev := v }

def setNext (s : KPriorityQueue M) (i : Slot) (r v : Option M) : KPriorityQueue M :=
  s.modifyEntry i r fun e => { e with next := v }

/-! `KPerCoreQueue`: the list at a slot.  The flag is the result: the queue was, or is now, empty. -/

namespace PerCore

def getFront (s : KPriorityQueue M) (i : Slot) : Option M := (s.root i).next

def pushBack (s : KPriorityQueue M) (i : Slot) (member : M) : Bool × KPriorityQueue M :=
  let tail := (s.root i).prev
  let s := s.setPrev i (some member) tail
  let s := s.setNext i (some member) none
  let s := s.setNext i tail (some member)
  let s := s.setPrev i none (some member)
  (tail.isNone, s)

def pushFront (s : KPriorityQueue M) (i : Slot) (member : M) : Bool × KPriorityQueue M :=
  let head := (s.root i).next
  let s := s.setPrev i (some member) none
  let s := s.setNext i (some member) head
  let s := s.setPrev i head (some member)
  let s := s.setNext i none (some member)
  (head.isNone, s)

def remove (s : KPriorityQueue M) (i : Slot) (member : M) : Bool × KPriorityQueue M :=
  let prev := (s.entry member i.core).prev
  let next := (s.entry member i.core).next
  let s := s.setNext i prev next
  let s := s.setPrev i next prev
  ((getFront s i).isNone, s)

end PerCore

/-! `KPriorityQueueImpl`: the lists of one kind, with the bits of the non-empty ones. -/

def modifyAvailable (s : KPriorityQueue M) (kind : QueueKind) (core : Nat)
    (f : BitSet 64 64 → BitSet 64 64) : KPriorityQueue M :=
  { s with
    availablePriorities := Function.update s.availablePriorities kind
      (Function.update (s.availablePriorities kind) core (f (s.availablePriorities kind core))) }

namespace Impl

def pushBack (s : KPriorityQueue M) (i : Slot) (member : M) : KPriorityQueue M :=
  if i.priority > LowestPriority then s
  else
    let (wasEmpty, s) := PerCore.pushBack s i member
    if wasEmpty then s.modifyAvailable i.kind i.core (·.setBit i.priority) else s

def pushFront (s : KPriorityQueue M) (i : Slot) (member : M) : KPriorityQueue M :=
  if i.priority > LowestPriority then s
  else
    let (wasEmpty, s) := PerCore.pushFront s i member
    if wasEmpty then s.modifyAvailable i.kind i.core (·.setBit i.priority) else s

def remove (s : KPriorityQueue M) (i : Slot) (member : M) : KPriorityQueue M :=
  if i.priority > LowestPriority then s
  else
    let (isEmpty, s) := PerCore.remove s i member
    if isEmpty then s.modifyAvailable i.kind i.core (·.clearBit i.priority) else s

def getFront (s : KPriorityQueue M) (kind : QueueKind) (core : Nat) : Option M :=
  let priority := (s.availablePriorities kind core).countLeadingZero
  if priority ≤ LowestPriority then PerCore.getFront s ⟨kind, priority, core⟩ else none

def getNext (s : KPriorityQueue M) (fields : M → MemberFields) (kind : QueueKind) (core : Nat)
    (member : M) : Option M :=
  match (s.entry member core).next with
  | some next => some next
  | none =>
    let priority := (s.availablePriorities kind core).getNextSet (fields member).priority
    if priority ≤ LowestPriority then PerCore.getFront s ⟨kind, priority, core⟩ else none

def moveToFront (s : KPriorityQueue M) (i : Slot) (member : M) : KPriorityQueue M :=
  if i.priority ≤ LowestPriority then
    (PerCore.pushFront (PerCore.remove s i member).2 i member).2
  else s

def moveToBack (s : KPriorityQueue M) (i : Slot) (member : M) : Option M × KPriorityQueue M :=
  if i.priority ≤ LowestPriority then
    let s := (PerCore.pushBack (PerCore.remove s i member).2 i member).2
    (PerCore.getFront s i, s)
  else (none, s)

end Impl

/-! `KPriorityQueue` itself. -/

def clearAffinityBit (affinity : BitVec 64) (core : Nat) : BitVec 64 :=
  affinity &&& ~~~(1#64 <<< core)

def getNextCore (affinity : BitVec 64) : Nat × BitVec 64 :=
  let core := affinity.ctz.toNat
  (core, clearAffinityBit affinity core)

/-- The cores that `while (affinity) { … GetNextCore(affinity) … }` goes through. -/
def nextCores : Nat → BitVec 64 → List Nat
  | 0, _ => []
  | fuel + 1, affinity =>
    if affinity = 0 then []
    else
      let (core, affinity) := getNextCore affinity
      core :: nextCores fuel affinity

/-- A round clears a bit, so there are at most 64. -/
def coresOf (affinity : BitVec 64) : List Nat := nextCores 64 affinity

/-- The slots that the private `PushBack`, `PushFront` and `Remove` suggest the member for. -/
def suggestedSlots (priority : Nat) (f : MemberFields) : List Slot :=
  let affinity :=
    if f.activeCore ≥ 0 then clearAffinityBit f.affinityMask f.activeCore.toNat else f.affinityMask
  (coresOf affinity).map fun core => ⟨.suggested, priority, core⟩

def pushBackAt (s : KPriorityQueue M) (priority : Nat) (f : MemberFields) (member : M) :
    KPriorityQueue M :=
  let s := if f.activeCore ≥ 0 then
    Impl.pushBack s ⟨.scheduled, priority, f.activeCore.toNat⟩ member else s
  (suggestedSlots priority f).foldl (fun s i => Impl.pushBack s i member) s

/-- Onto the front of the scheduled queue, but still onto the BACK of the suggested ones. -/
def pushFrontAt (s : KPriorityQueue M) (priority : Nat) (f : MemberFields) (member : M) :
    KPriorityQueue M :=
  let s := if f.activeCore ≥ 0 then
    Impl.pushFront s ⟨.scheduled, priority, f.activeCore.toNat⟩ member else s
  (suggestedSlots priority f).foldl (fun s i => Impl.pushBack s i member) s

def removeAt (s : KPriorityQueue M) (priority : Nat) (f : MemberFields) (member : M) :
    KPriorityQueue M :=
  let s := if f.activeCore ≥ 0 then
    Impl.remove s ⟨.scheduled, priority, f.activeCore.toNat⟩ member else s
  (suggestedSlots priority f).foldl (fun s i => Impl.remove s i member) s

section Members

variable (fields : M → MemberFields)

def getScheduledFront (s : KPriorityQueue M) (core : Nat) : Option M :=
  Impl.getFront s .scheduled core

def getSuggestedFront (s : KPriorityQueue M) (core : Nat) : Option M :=
  Impl.getFront s .suggested core

def getScheduledNext (s : KPriorityQueue M) (core : Nat) (member : M) : Option M :=
  Impl.getNext s fields .scheduled core member

def getSuggestedNext (s : KPriorityQueue M) (core : Nat) (member : M) : Option M :=
  Impl.getNext s fields .suggested core member

def pushBack (s : KPriorityQueue M) (member : M) : KPriorityQueue M :=
  if (fields member).isDummyThread then s
  else s.pushBackAt (fields member).priority (fields member) member

def remove (s : KPriorityQueue M) (member : M) : KPriorityQueue M :=
  if (fields member).isDummyThread then s
  else s.removeAt (fields member).priority (fields member) member

def moveToScheduledFront (s : KPriorityQueue M) (member : M) : KPriorityQueue M :=
  if (fields member).isDummyThread then s
  else Impl.moveToFront s
    ⟨.scheduled, (fields member).priority, (fields member).activeCore.toNat⟩ member

def moveToScheduledBack (s : KPriorityQueue M) (member : M) : Option M × KPriorityQueue M :=
  if (fields member).isDummyThread then (none, s)
  else Impl.moveToBack s
    ⟨.scheduled, (fields member).priority, (fields member).activeCore.toNat⟩ member

def changePriority (s : KPriorityQueue M) (prevPriority : Nat) (isRunning : Bool) (member : M) :
    KPriorityQueue M :=
  if (fields member).isDummyThread then s
  else
    let newPriority := (fields member).priority
    let s := s.removeAt prevPriority (fields member) member
    if isRunning then s.pushFrontAt newPriority (fields member) member
    else s.pushBackAt newPriority (fields member) member

def getAffinity (affinityMask : BitVec 64) (core : Nat) : Bool := affinityMask &&& (1#64 <<< core) != 0

/-- The slots that the loops of `ChangeAffinityMask` go through. -/
def slotsByCore (priority : Nat) (activeCore : Int) (affinityMask : BitVec 64) : List Slot :=
  ((List.range NumCores).filter (getAffinity affinityMask)).map fun (core : Nat) =>
    ⟨if (core : Int) = activeCore then .scheduled else .suggested, priority, core⟩

def changeAffinityMask (s : KPriorityQueue M) (prevCore : Int) (prevAffinity : BitVec 64)
    (member : M) : KPriorityQueue M :=
  if (fields member).isDummyThread then s
  else
    let f := fields member
    let s := (slotsByCore f.priority prevCore prevAffinity).foldl
      (fun s i => Impl.remove s i member) s
    (slotsByCore f.priority f.activeCore f.affinityMask).foldl
      (fun s i => Impl.pushBack s i member) s

def changeCore (s : KPriorityQueue M) (prevCore : Int) (member : M) (toFront : Bool) :
    KPriorityQueue M :=
  if (fields member).isDummyThread then s
  else
    let newCore := (fields member).activeCore
    let priority := (fields member).priority
    if prevCore ≠ newCore then
      let s := if prevCore ≥ 0 then
        Impl.remove s ⟨.scheduled, priority, prevCore.toNat⟩ member else s
      let s := if newCore ≥ 0 then
        let s := Impl.remove s ⟨.suggested, priority, newCore.toNat⟩ member
        if toFront then Impl.pushFront s ⟨.scheduled, priority, newCore.toNat⟩ member
        else Impl.pushBack s ⟨.scheduled, priority, newCore.toNat⟩ member
        else s
      if prevCore ≥ 0 then
        Impl.pushBack s ⟨.suggested, priority, prevCore.toNat⟩ member else s
    else s

end Members

/-! ## Links as functions on nodes -/

def nextOf (s : KPriorityQueue M) (i : Slot) (r : Option M) : Option M := (s.getEntry i r).next
def prevOf (s : KPriorityQueue M) (i : Slot) (r : Option M) : Option M := (s.getEntry i r).prev

section Links

variable {s s' s'' : KPriorityQueue M} {i j : Slot} {r v : Option M} {m : M} {l : List M}

theorem getEntry_modifyEntry (f : QueueEntry M → QueueEntry M) :
    (s.modifyEntry i r f).getEntry i = Function.update (s.getEntry i) r (f (s.getEntry i r)) := by
  funext r'
  cases r with
  | none => cases r' <;> simp [modifyEntry, getEntry]
  | some m =>
    cases r' with
    | none => simp [modifyEntry, getEntry]
    | some m' =>
      by_cases h : m' = m
      · subst h
        simp [modifyEntry, getEntry]
      · simp [modifyEntry, getEntry, h]

@[simp] theorem nextOf_setNext : (s.setNext i r v).nextOf i = Function.update (s.nextOf i) r v := by
  funext r'
  rw [nextOf, setNext, getEntry_modifyEntry, Function.update_apply, Function.update_apply]
  split <;> rfl

@[simp] theorem nextOf_setPrev : (s.setPrev i r v).nextOf i = s.nextOf i := by
  funext r'
  rw [nextOf, setPrev, getEntry_modifyEntry, Function.update_apply]
  split
  · rename_i h
    rw [h, nextOf]
  · rfl

@[simp] theorem prevOf_setPrev : (s.setPrev i r v).prevOf i = Function.update (s.prevOf i) r v := by
  funext r'
  rw [prevOf, setPrev, getEntry_modifyEntry, Function.update_apply, Function.update_apply]
  split <;> rfl

@[simp] theorem prevOf_setNext : (s.setNext i r v).prevOf i = s.prevOf i := by
  funext r'
  rw [prevOf, setNext, getEntry_modifyEntry, Function.update_apply]
  split
  · rename_i h
    rw [h, prevOf]
  · rfl

/-- From `s` to `s'` only the root at `i` and entries of `l` on the core of `i` were written. -/
structure SameElsewhere (s s' : KPriorityQueue M) (i : Slot) (l : List M) : Prop where
  root : ∀ j, j ≠ i → s'.root j = s.root j
  entry : ∀ m c, c ≠ i.core ∨ m ∉ l → s'.entry m c = s.entry m c
  available : s'.availablePriorities = s.availablePriorities

omit [DecidableEq M] in
theorem SameElsewhere.trans (h : SameElsewhere s s' i l) (h' : SameElsewhere s' s'' i l) :
    SameElsewhere s s'' i l :=
  ⟨fun j hj => (h'.root j hj).trans (h.root j hj),
    fun m c hc => (h'.entry m c hc).trans (h.entry m c hc), h'.available.trans h.available⟩

theorem sameElsewhere_modifyEntry (hr : ∀ m ∈ r, m ∈ l) (f : QueueEntry M → QueueEntry M) :
    SameElsewhere s (s.modifyEntry i r f) i l := by
  cases r with
  | none => exact ⟨fun j hj => Function.update_of_ne hj _ _, fun _ _ _ => rfl, rfl⟩
  | some m =>
    refine ⟨fun _ _ => rfl, fun m' c hc => ?_, rfl⟩
    by_cases hm : m' = m
    · subst hm
      have hc' : c ≠ i.core := hc.resolve_right fun h => h (hr m' rfl)
      simp [modifyEntry, hc']
    · simp [modifyEntry, hm]

theorem sameElsewhere_setPrev (hr : ∀ m ∈ r, m ∈ l) : SameElsewhere s (s.setPrev i r v) i l :=
  sameElsewhere_modifyEntry hr _

theorem sameElsewhere_setNext (hr : ∀ m ∈ r, m ∈ l) : SameElsewhere s (s.setNext i r v) i l :=
  sameElsewhere_modifyEntry hr _

end Links

/-! ## What the lists hold -/

/-- The content of every list. -/
abbrev Lists (M : Type) : Type := Slot → List M

/-- The links form the lists, and lists of one core have no member in common. -/
structure Threaded (s : KPriorityQueue M) (L : Lists M) : Prop where
  linked : ∀ i, DoublyLinked (s.nextOf i) (s.prevOf i) (L i)
  disjoint : ∀ i j m, i.core = j.core → m ∈ L i → m ∈ L j → i = j

/-- The bit of a list is set iff the list is not empty. -/
def BitsAgree (s : KPriorityQueue M) (L : Lists M) : Prop :=
  ∀ i : Slot, (s.availablePriorities i.kind i.core).test i.priority = true ↔ L i ≠ []

structure Represents (s : KPriorityQueue M) (L : Lists M) : Prop where
  threaded : Threaded s L
  bits : BitsAgree s L

section Threads

variable {s s' : KPriorityQueue M} {L : Lists M} {i j : Slot} {m : M} {l l' : List M}

/-- No list of the core of `i` holds `m`. -/
def FreeOn (L : Lists M) (core : Nat) (m : M) : Prop := ∀ j : Slot, j.core = core → m ∉ L j

omit [DecidableEq M] in
theorem Threaded.update (hT : Threaded s L) (hsame : SameElsewhere s s' i l)
    (hlink : DoublyLinked (s'.nextOf i) (s'.prevOf i) l')
    (hl : ∀ m ∈ l, ∀ j, j ≠ i → j.core = i.core → m ∉ L j)
    (hl' : ∀ m ∈ l', ∀ j, j ≠ i → j.core = i.core → m ∉ L j) :
    Threaded s' (Function.update L i l') := by
  refine ⟨fun j => ?_, fun j k m hjk hmj hmk => ?_⟩
  · by_cases hj : j = i
    · subst hj
      rw [Function.update_self]
      exact hlink
    · rw [Function.update_of_ne hj]
      have hentry : ∀ a ∈ L j, s'.entry a j.core = s.entry a j.core := by
        intro a ha
        refine hsame.entry a j.core ?_
        by_cases hc : j.core = i.core
        · exact .inr fun hal => hl a hal j hj hc ha
        · exact .inl hc
      refine (hT.linked j).congr ?_ ?_ ?_ ?_
      · exact congrArg QueueEntry.next (hsame.root j hj)
      · exact congrArg QueueEntry.prev (hsame.root j hj)
      · exact fun a ha => congrArg QueueEntry.next (hentry a ha)
      · exact fun a ha => congrArg QueueEntry.prev (hentry a ha)
  · by_cases hj : j = i
    · subst hj
      by_contra hne
      rw [Function.update_self] at hmj
      rw [Function.update_of_ne (Ne.symm hne)] at hmk
      exact hl' m hmj k (Ne.symm hne) hjk.symm hmk
    · rw [Function.update_of_ne hj] at hmj
      by_cases hk : k = i
      · subst hk
        rw [Function.update_self] at hmk
        exact absurd hmj (hl' m hmk j hj hjk)
      · rw [Function.update_of_ne hk] at hmk; exact hT.disjoint j k m hjk hmj hmk

omit [DecidableEq M] in
theorem Threaded.not_mem_of_mem (hT : Threaded s L) (hm : m ∈ L i) :
    ∀ j, j ≠ i → j.core = i.core → m ∉ L j :=
  fun j hj hc hmj => hj (hT.disjoint j i m hc hmj hm)

omit [DecidableEq M] in
theorem Threaded.not_mem_of_mem_or_free (hT : Threaded s L) (hfree : FreeOn L i.core m) :
    ∀ a, a ∈ L i ∨ a = m → ∀ j, j ≠ i → j.core = i.core → a ∉ L j := by
  rintro a (ha | rfl)
  · exact hT.not_mem_of_mem ha
  · exact fun j _ hc => hfree j hc

omit [DecidableEq M] in
theorem Threaded.tail_eq (hT : Threaded s L) : (s.root i).prev = (L i).getLast? := by
  have h := hT.linked i
  rw [← List.append_nil (L i)] at h
  exact h.prev_head?

omit [DecidableEq M] in
theorem Threaded.head_eq (hT : Threaded s L) : (s.root i).next = (L i).head? :=
  (show DoublyLinked _ _ ([] ++ L i) from hT.linked i).next_getLast?

theorem Threaded.pushBack (hT : Threaded s L) (hfree : FreeOn L i.core m) :
    Threaded (PerCore.pushBack s i m).2 (Function.update L i (L i ++ [m])) ∧
      (PerCore.pushBack s i m).2.availablePriorities = s.availablePriorities ∧
      (PerCore.pushBack s i m).1 = (L i).isEmpty := by
  have hx : m ∉ L i ++ [] := by
    rw [List.append_nil]; exact hfree i rfl
  have hlink := hT.linked i
  rw [← List.append_nil (L i)] at hlink
  have hins := hlink.insert hx
  have htail := hT.tail_eq (i := i)
  have hmem : ∀ a, a ∈ L i ++ [m] ↔ a ∈ L i ∨ a = m := by simp
  have hsame : SameElsewhere s (PerCore.pushBack s i m).2 i (L i ++ [m]) := by
    have ht : ∀ a ∈ (s.root i).prev, a ∈ L i ++ [m] := by
      rw [htail]; exact fun a ha => (hmem a).2 (.inl (List.mem_of_getLast? ha))
    have hm : ∀ a ∈ some m, a ∈ L i ++ [m] := by simp
    have h0 : ∀ a ∈ (none : Option M), a ∈ L i ++ [m] := by simp
    exact (((sameElsewhere_setPrev hm).trans (sameElsewhere_setNext hm)).trans
      (sameElsewhere_setNext ht)).trans (sameElsewhere_setPrev h0)
  refine ⟨hT.update hsame ?_ ?_ ?_, hsame.available, ?_⟩
  · simpa [PerCore.pushBack, htail, insertAfter] using hins
  · exact fun a ha => hT.not_mem_of_mem_or_free hfree a ((hmem a).1 ha)
  · exact fun a ha => hT.not_mem_of_mem_or_free hfree a ((hmem a).1 ha)
  · show (s.root i).prev.isNone = _
    rw [htail]; cases L i <;> simp

theorem Threaded.pushFront (hT : Threaded s L) (hfree : FreeOn L i.core m) :
    Threaded (PerCore.pushFront s i m).2 (Function.update L i (m :: L i)) ∧
      (PerCore.pushFront s i m).2.availablePriorities = s.availablePriorities ∧
      (PerCore.pushFront s i m).1 = (L i).isEmpty := by
  have hx : m ∉ [] ++ L i := hfree i rfl
  have hins := (show DoublyLinked _ _ ([] ++ L i) from hT.linked i).insert hx
  have hhead := hT.head_eq (i := i)
  have hmem : ∀ a, a ∈ m :: L i ↔ a ∈ L i ∨ a = m := by simp [or_comm]
  have hsame : SameElsewhere s (PerCore.pushFront s i m).2 i (m :: L i) := by
    have hh : ∀ a ∈ (s.root i).next, a ∈ m :: L i := by
      rw [hhead]; exact fun a ha => (hmem a).2 (.inl (List.mem_of_mem_head? ha))
    have hm : ∀ a ∈ some m, a ∈ m :: L i := by simp
    have h0 : ∀ a ∈ (none : Option M), a ∈ m :: L i := by simp
    exact (((sameElsewhere_setPrev hm).trans (sameElsewhere_setNext hm)).trans
      (sameElsewhere_setPrev hh)).trans (sameElsewhere_setNext h0)
  refine ⟨hT.update hsame ?_ ?_ ?_, hsame.available, ?_⟩
  · simpa [PerCore.pushFront, hhead, insertAfter] using hins
  · exact fun a ha => hT.not_mem_of_mem_or_free hfree a ((hmem a).1 ha)
  · exact fun a ha => hT.not_mem_of_mem_or_free hfree a ((hmem a).1 ha)
  · show (s.root i).next.isNone = _
    rw [hhead]; cases L i <;> simp

theorem Threaded.remove (hT : Threaded s L) (hm : m ∈ L i) :
    Threaded (PerCore.remove s i m).2 (Function.update L i ((L i).erase m)) ∧
      (PerCore.remove s i m).2.availablePriorities = s.availablePriorities ∧
      (PerCore.remove s i m).1 = ((L i).erase m).isEmpty := by
  obtain ⟨l₁, l₂, hsplit⟩ := List.append_of_mem hm
  have hlink := hT.linked i
  rw [hsplit] at hlink
  have herase : (L i).erase m = l₁ ++ l₂ := by
    have hnot : m ∉ l₁ := by
      intro h; exact (List.nodup_append'.1 hlink.nodup).2.2 h List.mem_cons_self
    rw [hsplit, List.erase_append_right _ hnot, List.erase_cons_head]
  have hprev : (s.entry m i.core).prev = l₁.getLast? := hlink.prev_head?
  have hnext : (s.entry m i.core).next = l₂.head? := by
    have h : DoublyLinked (s.nextOf i) (s.prevOf i) ((l₁ ++ [m]) ++ l₂) := by
      rwa [List.append_assoc]
    have hlast : (l₁ ++ [m]).getLast? = some m := by simp
    have := h.next_getLast?
    rwa [hlast] at this
  have hmem : ∀ a, a ∈ l₁ ∨ a ∈ l₂ → a ∈ L i := by
    intro a ha
    rw [hsplit]
    rcases ha with ha | ha <;> simp [ha]
  have hsame : SameElsewhere s (PerCore.remove s i m).2 i (L i) := by
    refine SameElsewhere.trans (sameElsewhere_setNext fun a ha => ?_)
      (sameElsewhere_setPrev fun a ha => ?_)
    · rw [hprev] at ha
      exact hmem a (.inl (List.mem_of_getLast? ha))
    · rw [hnext] at ha; exact hmem a (.inr (List.mem_of_mem_head? ha))
  have hT' : Threaded (PerCore.remove s i m).2 (Function.update L i ((L i).erase m)) := by
    refine hT.update hsame ?_ (fun a ha => hT.not_mem_of_mem ha)
      fun a ha => hT.not_mem_of_mem (List.mem_of_mem_erase ha)
    rw [herase]; simpa [PerCore.remove, hprev, hnext] using hlink.unlink
  refine ⟨hT', hsame.available, ?_⟩
  show (PerCore.getFront (PerCore.remove s i m).2 i).isNone = _
  rw [PerCore.getFront, hT'.head_eq, Function.update_self]
  cases (L i).erase m <;> simp

end Threads

/-! ## Pushing and removing, with the bits -/

section Bits

variable {s s' : KPriorityQueue M} {L : Lists M} {i j : Slot} {m : M} {l' : List M}

omit [DecidableEq M] in
theorem Threaded.modifyAvailable (hT : Threaded s L) (kind : QueueKind) (core : Nat)
    (f : BitSet 64 64 → BitSet 64 64) : Threaded (s.modifyAvailable kind core f) L :=
  ⟨hT.linked, hT.disjoint⟩

omit [DecidableEq M] in
theorem test_modifyAvailable (f : BitSet 64 64 → BitSet 64 64) :
    ((s.modifyAvailable i.kind i.core f).availablePriorities j.kind j.core).test j.priority =
      if j.kind = i.kind ∧ j.core = i.core then
        (f (s.availablePriorities i.kind i.core)).test j.priority
      else (s.availablePriorities j.kind j.core).test j.priority := by
  by_cases hk : j.kind = i.kind
  · by_cases hc : j.core = i.core
    · simp [KPriorityQueue.modifyAvailable, hk, hc]
    · simp [KPriorityQueue.modifyAvailable, hk, hc]
  · simp [KPriorityQueue.modifyAvailable, hk]

theorem Slot.eq_of {i j : Slot} (hk : j.kind = i.kind) (hp : j.priority = i.priority)
    (hc : j.core = i.core) : j = i := by
  cases i; cases j; simp_all

omit [DecidableEq M] in
theorem BitsAgree.update_same (hB : BitsAgree s L)
    (ha : s'.availablePriorities = s.availablePriorities) (h : l' ≠ [] ↔ L i ≠ []) :
    BitsAgree s' (Function.update L i l') := by
  intro j
  rw [ha, hB j]
  by_cases hj : j = i
  · subst hj
    rw [Function.update_self]
    exact h.symm
  · rw [Function.update_of_ne hj]

omit [DecidableEq M] in
theorem BitsAgree.push (hB : BitsAgree s L)
    (ha : s'.availablePriorities = s.availablePriorities) (hl' : l' ≠ []) :
    BitsAgree (if (L i).isEmpty then s'.modifyAvailable i.kind i.core (·.setBit i.priority) else s')
      (Function.update L i l') := by
  split
  · intro j
    rw [test_modifyAvailable, ha, BitSet.test_setBit (by decide)]
    by_cases hj : j = i
    · subst hj
      simp [hl']
    · rw [Function.update_of_ne hj, ← hB j]
      split
      · rename_i h
        have hp : j.priority ≠ i.priority := fun hp => hj (Slot.eq_of h.1 hp h.2)
        rw [h.1, h.2]
        simp [hp]
      · rfl
  · rename_i hne; exact hB.update_same ha ⟨fun _ => by simpa using hne, fun _ => hl'⟩

omit [DecidableEq M] in
theorem BitsAgree.pop (hB : BitsAgree s L)
    (ha : s'.availablePriorities = s.availablePriorities) (hl : L i ≠ []) :
    BitsAgree (if l'.isEmpty then s'.modifyAvailable i.kind i.core (·.clearBit i.priority) else s')
      (Function.update L i l') := by
  split
  · rename_i he
    intro j
    rw [test_modifyAvailable, ha, BitSet.test_clearBit (by decide)]
    by_cases hj : j = i
    · subst hj
      simpa using he
    · rw [Function.update_of_ne hj, ← hB j]
      split
      · rename_i h
        have hp : j.priority ≠ i.priority := fun hp => hj (Slot.eq_of h.1 hp h.2)
        rw [h.1, h.2]
        simp [hp]
      · rfl
  · rename_i hne; exact hB.update_same ha ⟨fun _ => hl, fun _ => by simpa using hne⟩

theorem Represents.pushBack (hR : Represents s L) (hp : i.priority ≤ LowestPriority)
    (hfree : FreeOn L i.core m) :
    Represents (Impl.pushBack s i m) (Function.update L i (L i ++ [m])) := by
  obtain ⟨hT, ha, hb⟩ := hR.threaded.pushBack hfree
  rw [Impl.pushBack, if_neg (by omega)]
  simp only [hb]
  refine ⟨?_, hR.bits.push ha (by simp)⟩
  split
  · exact hT.modifyAvailable _ _ _
  · exact hT

theorem Represents.pushFront (hR : Represents s L) (hp : i.priority ≤ LowestPriority)
    (hfree : FreeOn L i.core m) :
    Represents (Impl.pushFront s i m) (Function.update L i (m :: L i)) := by
  obtain ⟨hT, ha, hb⟩ := hR.threaded.pushFront hfree
  rw [Impl.pushFront, if_neg (by omega)]
  simp only [hb]
  refine ⟨?_, hR.bits.push ha (by simp)⟩
  split
  · exact hT.modifyAvailable _ _ _
  · exact hT

theorem Represents.remove (hR : Represents s L) (hp : i.priority ≤ LowestPriority)
    (hm : m ∈ L i) : Represents (Impl.remove s i m) (Function.update L i ((L i).erase m)) := by
  obtain ⟨hT, ha, hb⟩ := hR.threaded.remove hm
  rw [Impl.remove, if_neg (by omega)]
  simp only [hb]
  refine ⟨?_, hR.bits.pop ha (List.ne_nil_of_mem hm)⟩
  split
  · exact hT.modifyAvailable _ _ _
  · exact hT

theorem Threaded.freeOn_erase (hT : Threaded s L) (hm : m ∈ L i) :
    FreeOn (Function.update L i ((L i).erase m)) i.core m := by
  intro j hc
  by_cases hj : j = i
  · subst hj
    rw [Function.update_self]
    exact (hT.linked j).nodup.not_mem_erase
  · rw [Function.update_of_ne hj]; exact hT.not_mem_of_mem hm j hj hc

theorem Represents.moveToFront (hR : Represents s L) (hp : i.priority ≤ LowestPriority)
    (hm : m ∈ L i) :
    Represents (Impl.moveToFront s i m) (Function.update L i (m :: (L i).erase m)) := by
  obtain ⟨hT, ha, -⟩ := hR.threaded.remove hm
  obtain ⟨hT', ha', -⟩ := hT.pushFront (hR.threaded.freeOn_erase hm)
  rw [Function.update_idem, Function.update_self] at hT'
  rw [Impl.moveToFront, if_pos hp]
  refine ⟨hT', hR.bits.update_same (ha'.trans ha) ?_⟩
  exact ⟨fun _ => List.ne_nil_of_mem hm, fun _ => by simp⟩

theorem Represents.moveToBack (hR : Represents s L) (hp : i.priority ≤ LowestPriority)
    (hm : m ∈ L i) :
    Represents (Impl.moveToBack s i m).2 (Function.update L i ((L i).erase m ++ [m])) := by
  obtain ⟨hT, ha, -⟩ := hR.threaded.remove hm
  obtain ⟨hT', ha', -⟩ := hT.pushBack (hR.threaded.freeOn_erase hm)
  rw [Function.update_idem, Function.update_self] at hT'
  rw [Impl.moveToBack, if_pos hp]
  refine ⟨hT', hR.bits.update_same (ha'.trans ha) ?_⟩
  exact ⟨fun _ => List.ne_nil_of_mem hm, fun _ => by simp⟩

end Bits

/-! ## Several slots, on different cores -/

section Folds

variable {s : KPriorityQueue M} {L : Lists M} {m : M}

omit [DecidableEq M] in
theorem Represents.of_eq {L' : Lists M} (hR : Represents s L) (h : ∀ j, L' j = L j) :
    Represents s L' := by
  obtain rfl : L' = L := funext h; exact hR

theorem Represents.foldl_pushBack {is : List Slot} (hcores : (is.map Slot.core).Nodup)
    (hp : ∀ i ∈ is, i.priority ≤ LowestPriority) (hfree : ∀ i ∈ is, FreeOn L i.core m)
    (hR : Represents s L) :
    Represents (is.foldl (fun s i => Impl.pushBack s i m) s)
      (fun j => if j ∈ is then L j ++ [m] else L j) := by
  induction is generalizing s L with
  | nil => simpa using hR
  | cons i is ih =>
    simp only [List.map_cons, List.nodup_cons] at hcores
    have hi : i ∉ is := fun h => hcores.1 (List.mem_map_of_mem h)
    have hR' := hR.pushBack (hp i List.mem_cons_self) (hfree i List.mem_cons_self)
    have hrec := ih hcores.2 (fun j hj => hp j (List.mem_cons_of_mem _ hj)) ?_ hR'
    · rw [List.foldl_cons]
      refine hrec.of_eq fun j => ?_
      by_cases hj : j = i
      · subst hj
        simp [hi]
      · simp [hj]
    · intro j hj k hk
      have hki : k ≠ i := by
        rintro rfl; exact hcores.1 (hk ▸ List.mem_map_of_mem hj)
      rw [Function.update_of_ne hki]; exact hfree j (List.mem_cons_of_mem _ hj) k hk

theorem Represents.foldl_remove {is : List Slot} (hcores : (is.map Slot.core).Nodup)
    (hp : ∀ i ∈ is, i.priority ≤ LowestPriority) (hm : ∀ i ∈ is, m ∈ L i) (hR : Represents s L) :
    Represents (is.foldl (fun s i => Impl.remove s i m) s)
      (fun j => if j ∈ is then (L j).erase m else L j) := by
  induction is generalizing s L with
  | nil => simpa using hR
  | cons i is ih =>
    simp only [List.map_cons, List.nodup_cons] at hcores
    have hi : i ∉ is := fun h => hcores.1 (List.mem_map_of_mem h)
    have hR' := hR.remove (hp i List.mem_cons_self) (hm i List.mem_cons_self)
    have hrec := ih hcores.2 (fun j hj => hp j (List.mem_cons_of_mem _ hj)) ?_ hR'
    · rw [List.foldl_cons]
      refine hrec.of_eq fun j => ?_
      by_cases hj : j = i
      · subst hj
        simp [hi]
      · simp [hj]
    · intro j hj
      have hji : j ≠ i := by
        rintro rfl; exact hi hj
      rw [Function.update_of_ne hji]; exact hm j (List.mem_cons_of_mem _ hj)

omit [DecidableEq M] in
theorem foldl_eq_self {is : List Slot} {f : KPriorityQueue M → Slot → KPriorityQueue M}
    (hf : ∀ s i, i.priority > LowestPriority → f s i = s)
    (hp : ∀ i ∈ is, i.priority > LowestPriority) : is.foldl f s = s := by
  induction is generalizing s with
  | nil => rfl
  | cons i is ih =>
    rw [List.foldl_cons, hf s i (hp i List.mem_cons_self)]
    exact ih fun j hj => hp j (List.mem_cons_of_mem _ hj)

end Folds

/-! ## Front and next -/

section Search

variable {s : KPriorityQueue M} {L : Lists M} {fields : M → MemberFields} {kind : QueueKind}
  {core : Nat}

/-- The members queued on a core from priority `a` on, by priority and then by position. -/
def orderFrom (L : Lists M) (kind : QueueKind) (core a : Nat) : List M :=
  (List.range' a (LowestPriority + 1 - a)).flatMap fun p => L ⟨kind, p, core⟩

/-- All members queued on a core. -/
def order (L : Lists M) (kind : QueueKind) (core : Nat) : List M := orderFrom L kind core 0

omit [DecidableEq M] in
theorem orderFrom_succ {a : Nat} (ha : a ≤ LowestPriority) :
    orderFrom L kind core a = L ⟨kind, a, core⟩ ++ orderFrom L kind core (a + 1) := by
  have h : LowestPriority + 1 - a = (LowestPriority + 1 - (a + 1)) + 1 := by omega
  rw [orderFrom, h, List.range'_succ, List.flatMap_cons]
  rfl

omit [DecidableEq M] in
theorem orderFrom_of_gt {a : Nat} (ha : LowestPriority < a) : orderFrom L kind core a = [] := by
  have h : LowestPriority + 1 - a = 0 := by omega
  rw [orderFrom, h]
  rfl

omit [DecidableEq M] in
theorem mem_order {m : M} :
    m ∈ order L kind core ↔ ∃ p, p ≤ LowestPriority ∧ m ∈ L ⟨kind, p, core⟩ := by
  simp only [order, orderFrom, List.mem_flatMap, List.mem_range'_1]
  constructor
  · rintro ⟨p, hp, hm⟩
    exact ⟨p, by omega, hm⟩
  · rintro ⟨p, hp, hm⟩; exact ⟨p, by omega, hm⟩

omit [DecidableEq M] in
theorem Represents.front_eq (hR : Represents s L) {a r : Nat} (ha : a ≤ LowestPriority + 1)
    (hr : BitSet.IsFirst (s.availablePriorities kind core).test a 64 64 r) :
    (if r ≤ LowestPriority then PerCore.getFront s ⟨kind, r, core⟩ else none) =
      (orderFrom L kind core a).head? := by
  -- induction on the number of priorities left
  obtain ⟨k, hk⟩ : ∃ k, a + k = LowestPriority + 1 := ⟨_, Nat.add_sub_of_le ha⟩
  induction k generalizing a with
  | zero =>
    obtain rfl : a = LowestPriority + 1 := hk
    rw [orderFrom_of_gt (Nat.lt_succ_self _)]
    rcases hr.ge with h | h
    · rw [h]
      rfl
    · exact absurd h.1 (by unfold LowestPriority at *; omega)
  | succ k ih =>
    have hal : a ≤ LowestPriority := by omega
    rw [orderFrom_succ hal, List.head?_append]
    have hbit := hR.bits ⟨kind, a, core⟩
    have ha64 : a < 64 := by unfold LowestPriority at hal; omega
    by_cases hra : r = a
    · subst hra
      have htest : (s.availablePriorities kind core).test r = true := by
        rcases hr.ge with h | h
        · omega
        · exact h.2.2
      have hne := hbit.1 htest
      rw [if_pos hal, PerCore.getFront, hR.threaded.head_eq]
      cases hL : L ⟨kind, r, core⟩ with
      | nil => exact absurd hL hne
      | cons m l => rfl
    · have hlt : a < r := by
        rcases hr.ge with h | h <;> omega
      have hempty : L ⟨kind, a, core⟩ = [] := by
        by_contra hne
        have := hr.before a (Nat.le_refl a) ha64 hlt
        rw [hbit.2 hne] at this; cases this
      rw [hempty, List.head?_nil, Option.none_or]
      refine ih (a := a + 1) (by omega) ⟨?_, ?_, ?_⟩ (by omega)
      · exact hr.ge.imp id fun h => ⟨hlt, h.2⟩
      · exact fun j h1 h2 h3 => hr.before j (by omega) h2 h3
      · exact fun h j h1 h2 => hr.last h j (by omega) h2

omit [DecidableEq M] in
theorem Represents.getFront_eq (hR : Represents s L) :
    Impl.getFront s kind core = (order L kind core).head? :=
  hR.front_eq (Nat.zero_le _) (BitSet.countLeadingZero_isFirst _)

omit [DecidableEq M] in
theorem Represents.getNext_eq (hR : Represents s L) {p : Nat} (hp : p ≤ LowestPriority)
    {l₁ l₂ : List M} {m : M} (hm : L ⟨kind, p, core⟩ = l₁ ++ m :: l₂)
    (hf : (fields m).priority = p) :
    Impl.getNext s fields kind core m = (l₂ ++ orderFrom L kind core (p + 1)).head? := by
  have hlink := hR.threaded.linked ⟨kind, p, core⟩
  have hsplit : L ⟨kind, p, core⟩ = (l₁ ++ [m]) ++ l₂ := by rw [hm, List.append_assoc]; rfl
  rw [hsplit] at hlink
  have hnext : (s.entry m core).next = l₂.head? := by
    have h := hlink.next_getLast?
    have hlast : (l₁ ++ [m]).getLast? = some m := by simp
    rwa [hlast] at h
  rw [Impl.getNext, hnext, List.head?_append]
  cases l₂ with
  | cons a l₂ => rfl
  | nil =>
    rw [List.head?_nil, Option.none_or]
    refine hR.front_eq (by omega) ?_
    rw [hf]
    exact BitSet.getNextSet_isFirst _ rfl (by unfold LowestPriority at hp; omega)

omit [DecidableEq M] in
theorem Represents.follows (hR : Represents s L)
    (hprio : ∀ i m, m ∈ L i → (fields m).priority = i.priority) :
    Follows (Impl.getNext s fields kind core) (Impl.getFront s kind core) (order L kind core) := by
  rw [hR.getFront_eq]
  have hmain : ∀ k a, a + k = LowestPriority + 1 →
      Follows (Impl.getNext s fields kind core) (orderFrom L kind core a).head?
        (orderFrom L kind core a) := by
    intro k
    induction k with
    | zero =>
      intro a ha
      rw [orderFrom_of_gt (by omega)]; rfl
    | succ k ih =>
      intro a ha
      have hal : a ≤ LowestPriority := by omega
      rw [orderFrom_succ hal]
      refine follows_append_intro ?_ (ih (a + 1) (by omega))
      intro l₁ m l₂ hm
      refine hR.getNext_eq hal hm (hprio ⟨kind, a, core⟩ m ?_)
      rw [hm]; simp
  exact hmain _ 0 (Nat.zero_add _)

omit [DecidableEq M] in
theorem Threaded.nodup_order (hT : Threaded s L) (kind : QueueKind) (core : Nat) :
    (order L kind core).Nodup := by
  rw [order, orderFrom, List.nodup_flatMap]
  refine ⟨fun p _ => (hT.linked _).nodup, ?_⟩
  refine List.Nodup.pairwise_of_forall_ne (List.nodup_range' ..) ?_
  intro p _ q _ hpq m hp hq
  exact hpq (congrArg Slot.priority (hT.disjoint ⟨kind, p, core⟩ ⟨kind, q, core⟩ m rfl hp hq))

end Search

end KPriorityQueue

end Suyu.Kernel
