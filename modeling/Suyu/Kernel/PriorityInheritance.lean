/-
  KThread — priority inheritance along locks.

  A thread that waits for a lock sits in the waiter tree of a lock info; the info is in the held
  list of the lock's owner, who inherits the priority of the highest waiter.

  1. **Program** — `k_thread.cpp`/`k_thread.h`: `AddWaiterImpl`, `RemoveWaiterImpl`,
     `RestorePriority` and the operations on top of them, over any finite type `T` of threads.
     Lock infos live in a table and are named by their index; an index is never used twice.  The
     tree is the list of its elements in order.  `none` as a result means that the loop ran out of
     the given number of rounds, or that a null lock info or the front of an empty tree was used.
     Condition variable trees and the calls into the scheduler change nothing here and are left
     out.
  2. **Structure** — `LocksInv`: waiters, trees, held lists and kernel waiter counts agree.
  3. **The crux** — seen from the threads only, a lock wait is a pointer to the owner, and
     `RestorePriority` is `MinPropagation.restore` along these pointers: taking a waiter out of its
     lock and putting it back never changes who the owner is, even when the lock info itself is
     freed and created again.
-/
import Suyu.Lib.MinPropagation
import Mathlib.Data.List.Sort
import Mathlib.Data.Fintype.Basic
import Mathlib.Algebra.Order.Ring.Int
import Mathlib.Logic.Relation

open Lib.MinPropagation

namespace Suyu.Kernel

open Function (update update_idem update_apply update_eq_self update_self update_of_ne)

/-! ## The program -/

/-- `LockWithPriorityInheritanceInfo`. -/
structure LockInfo (T : Type) where
  addressKey : BitVec 64
  isKernelAddressKey : Bool
  owner : Option T
  tree : List T
  waiterCount : Nat

/-- The members of all threads that take part, and the lock infos. -/
structure ThreadSystem (T : Type) where
  basePriority : T → Int
  priority : T → Int
  addressKey : T → BitVec 64
  isKernelAddressKey : T → Bool
  heldLockInfoList : T → List Nat
  waitingLockInfo : T → Option Nat
  numKernelWaiters : T → Int
  lockInfo : Nat → LockInfo T
  numAllocated : Nat

namespace ThreadSystem

variable {T : Type} [DecidableEq T]

/-- `m_tree.insert`: behind every waiter of the same or a higher priority. -/
def treeInsert (s : ThreadSystem T) (t : T) (tree : List T) : List T :=
  tree.orderedInsert (fun a b => s.priority a < s.priority b) t

def setNumKernelWaiters (s : ThreadSystem T) (o : T) (n : Int) : ThreadSystem T :=
  { s with numKernelWaiters := update s.numKernelWaiters o n }

def setHeldLockInfoList (s : ThreadSystem T) (o : T) (held : List Nat) : ThreadSystem T :=
  { s with heldLockInfoList := update s.heldLockInfoList o held }

def setLockInfo (s : ThreadSystem T) (l : Nat) (info : LockInfo T) : ThreadSystem T :=
  { s with lockInfo := update s.lockInfo l info }

def setWaitingLockInfo (s : ThreadSystem T) (t : T) (l : Option Nat) : ThreadSystem T :=
  { s with waitingLockInfo := update s.waitingLockInfo t l }

def setPriority (s : ThreadSystem T) (t : T) (value : Int) : ThreadSystem T :=
  { s with priority := update s.priority t value }

/-- `LockWithPriorityInheritanceInfo::AddWaiter`. -/
def lockAddWaiter (s : ThreadSystem T) (l : Nat) (t : T) : ThreadSystem T :=
  let info := s.lockInfo l
  let s := s.setLockInfo l
    { info with tree := s.treeInsert t info.tree, waiterCount := info.waiterCount + 1 }
  s.setWaitingLockInfo t (some l)

/-- `LockWithPriorityInheritanceInfo::RemoveWaiter`; the flag says that no waiter is left. -/
def lockRemoveWaiter (s : ThreadSystem T) (l : Nat) (t : T) : Bool × ThreadSystem T :=
  let info := s.lockInfo l
  let s := s.setLockInfo l
    { info with tree := info.tree.erase t, waiterCount := info.waiterCount - 1 }
  (info.waiterCount - 1 == 0, s.setWaitingLockInfo t none)

/-- `LockWithPriorityInheritanceInfo::Create`. -/
def createLock (s : ThreadSystem T) (addressKey : BitVec 64) (isKernelAddressKey : Bool) :
    Nat × ThreadSystem T :=
  (s.numAllocated,
    { s.setLockInfo s.numAllocated ⟨addressKey, isKernelAddressKey, none, [], 0⟩ with
      numAllocated := s.numAllocated + 1 })

def addHeldLock (s : ThreadSystem T) (o : T) (l : Nat) : ThreadSystem T :=
  let s := s.setLockInfo l { s.lockInfo l with owner := some o }
  s.setHeldLockInfoList o (l :: s.heldLockInfoList o)

def findHeldLock (s : ThreadSystem T) (o : T) (addressKey : BitVec 64)
    (isKernelAddressKey : Bool) : Option Nat :=
  (s.heldLockInfoList o).find? fun l =>
    (s.lockInfo l).addressKey == addressKey &&
      (s.lockInfo l).isKernelAddressKey == isKernelAddressKey

def getLockOwner (s : ThreadSystem T) (t : T) : Option T :=
  match s.waitingLockInfo t with
  | some l => (s.lockInfo l).owner
  | none => none

def addWaiterImpl (s : ThreadSystem T) (o t : T) : ThreadSystem T :=
  let s := if s.isKernelAddressKey t then s.setNumKernelWaiters o (s.numKernelWaiters o + 1) else s
  match s.findHeldLock o (s.addressKey t) (s.isKernelAddressKey t) with
  | some l => s.lockAddWaiter l t
  | none =>
    let (l, s) := s.createLock (s.addressKey t) (s.isKernelAddressKey t)
    let s := s.addHeldLock o l
    s.lockAddWaiter l t

def removeWaiterImpl (s : ThreadSystem T) (o t : T) : Option (ThreadSystem T) :=
  let s := if s.isKernelAddressKey t then s.setNumKernelWaiters o (s.numKernelWaiters o - 1) else s
  match s.waitingLockInfo t with
  | none => none
  | some l =>
    let (isEmpty, s) := s.lockRemoveWaiter l t
    if isEmpty then some (s.setHeldLockInfoList o ((s.heldLockInfoList o).erase l)) else some s

/-- The priority to inherit: the base priority and the highest waiter of each held lock. -/
def newPriority (s : ThreadSystem T) (t : T) : Option Int :=
  (s.heldLockInfoList t).foldlM
    (fun p l => (s.lockInfo l).tree.head?.map fun w => min p (s.priority w)) (s.basePriority t)

/-- The new priority, set while the thread is out of the lock it waits for. -/
def adjustPriority (s : ThreadSystem T) (t : T) (newPriority : Int) : Option (ThreadSystem T) :=
  match s.getLockOwner t with
  | some lockOwner => do
    let s ← s.removeWaiterImpl lockOwner t
    let s := s.setPriority t newPriority
    return s.addWaiterImpl lockOwner t
  | none => some (s.setPriority t newPriority)

def restorePriority : Nat → ThreadSystem T → Option T → Option (ThreadSystem T)
  | _, s, none => some s
  | 0, _, some _ => none
  | n + 1, s, some t => do
    let newPriority ← s.newPriority t
    if newPriority = s.priority t then some s
    else
      let lockOwner := s.getLockOwner t
      let s ← s.adjustPriority t newPriority
      restorePriority n s lockOwner

def addWaiter (n : Nat) (s : ThreadSystem T) (o t : T) : Option (ThreadSystem T) :=
  let s := s.addWaiterImpl o t
  if s.priority t < s.priority o then restorePriority n s (some o) else some s

def removeWaiter (n : Nat) (s : ThreadSystem T) (o t : T) : Option (ThreadSystem T) := do
  let s ← s.removeWaiterImpl o t
  if s.priority o = s.priority t ∧ s.priority o < s.basePriority o then
    restorePriority n s (some o)
  else some s

/-- `RemoveWaiterByKey`: the next owner, whether there are more waiters, and the new state. -/
def removeWaiterByKey (n : Nat) (s : ThreadSystem T) (o : T) (key : BitVec 64)
    (isKernelAddressKey : Bool) : Option (Option T × Bool × ThreadSystem T) :=
  match s.findHeldLock o key isKernelAddressKey with
  | none => some (none, false, s)
  | some l =>
    let s := s.setHeldLockInfoList o ((s.heldLockInfoList o).erase l)
    let s := if (s.lockInfo l).isKernelAddressKey then
      s.setNumKernelWaiters o (s.numKernelWaiters o - (s.lockInfo l).waiterCount) else s
    match (s.lockInfo l).tree.head? with
    | none => none
    | some next =>
      let (isEmpty, s) := s.lockRemoveWaiter l next
      let s := if isEmpty then s
        else
          let s := s.addHeldLock next l
          if (s.lockInfo l).isKernelAddressKey then
            s.setNumKernelWaiters next (s.numKernelWaiters next + (s.lockInfo l).waiterCount)
          else s
      if s.priority o = s.priority next ∧ s.priority o < s.basePriority o then
        (restorePriority n s (some o)).map fun s => (some next, !isEmpty, s)
      else some (some next, !isEmpty, s)

def setBasePriority (n : Nat) (s : ThreadSystem T) (t : T) (value : Int) :
    Option (ThreadSystem T) :=
  restorePriority n { s with basePriority := update s.basePriority t value } (some t)

def increaseBasePriority (n : Nat) (s : ThreadSystem T) (t : T) (priority : Int) :
    Option (ThreadSystem T) :=
  if s.basePriority t > priority then setBasePriority n s t priority else some s

/-- `SetUserAddressKey`/`SetKernelAddressKey`. -/
def setAddressKey (s : ThreadSystem T) (t : T) (key : BitVec 64) (isKernel : Bool) :
    ThreadSystem T :=
  { s with
    addressKey := update s.addressKey t key
    isKernelAddressKey := update s.isKernelAddressKey t isKernel }

/-! ## The structure of waiters and locks -/

section Structure

variable [Fintype T]

/-- Waiters, trees, held lists and kernel waiter counts agree. -/
structure LocksInv (s : ThreadSystem T) : Prop where
  mem_tree : ∀ t l, s.waitingLockInfo t = some l ↔ t ∈ (s.lockInfo l).tree
  nodup : ∀ l, (s.lockInfo l).tree.Nodup
  sorted : ∀ l, (s.lockInfo l).tree.Pairwise fun a b => s.priority a ≤ s.priority b
  count : ∀ l, (s.lockInfo l).waiterCount = (s.lockInfo l).tree.length
  held : ∀ o l, l ∈ s.heldLockInfoList o ↔ (s.lockInfo l).owner = some o ∧ (s.lockInfo l).tree ≠ []
  held_nodup : ∀ o, (s.heldLockInfoList o).Nodup
  owned : ∀ l, (s.lockInfo l).tree ≠ [] → (s.lockInfo l).owner ≠ none
  key : ∀ t l, s.waitingLockInfo t = some l → (s.lockInfo l).addressKey = s.addressKey t ∧
    (s.lockInfo l).isKernelAddressKey = s.isKernelAddressKey t
  kernel : ∀ o, s.numKernelWaiters o = (Finset.univ.filter fun w =>
    s.getLockOwner w = some o ∧ s.isKernelAddressKey w = true).card
  fresh : ∀ l, s.numAllocated ≤ l → (s.lockInfo l).tree = []

/-- Of the locks a thread holds no two have the same key. -/
def KeysDistinct (s : ThreadSystem T) : Prop :=
  ∀ o l l', l ∈ s.heldLockInfoList o → l' ∈ s.heldLockInfoList o →
    (s.lockInfo l).addressKey = (s.lockInfo l').addressKey →
    (s.lockInfo l).isKernelAddressKey = (s.lockInfo l').isKernelAddressKey → l = l'

variable {s s' : ThreadSystem T} {o t : T} {l : Nat}

omit [DecidableEq T] [Fintype T] in
/-- `GetLockOwner` answers with the owner of the lock the thread waits for. -/
theorem getLockOwner_eq_some :
    s.getLockOwner t = some o ↔ ∃ l, s.waitingLockInfo t = some l ∧ (s.lockInfo l).owner = some o := by
  unfold getLockOwner; cases s.waitingLockInfo t <;> simp

omit [DecidableEq T] [Fintype T] in
/-- The tree keeps its order when a thread is put into it. -/
theorem sorted_treeInsert {tree : List T}
    (h : tree.Pairwise fun a b => s.priority a ≤ s.priority b) :
    (s.treeInsert t tree).Pairwise fun a b => s.priority a ≤ s.priority b := by
  unfold treeInsert
  induction tree with
  | nil => simp
  | cons x tree ih =>
    rw [List.pairwise_cons] at h
    rw [List.orderedInsert_cons]
    split
    · rename_i hlt
      refine List.pairwise_cons.2 ⟨fun y hy => ?_, List.pairwise_cons.2 h⟩
      rcases List.mem_cons.1 hy with rfl | hy
      · exact le_of_lt hlt
      · exact le_trans (le_of_lt hlt) (h.1 y hy)
    · rename_i hge
      refine List.pairwise_cons.2 ⟨fun y hy => ?_, ih h.2⟩
      rcases List.mem_cons.1 ((List.perm_orderedInsert _ _ _).subset hy) with rfl | hy
      · exact not_lt.1 hge
      · exact h.1 y hy

omit [DecidableEq T] [Fintype T] in
/-- Only the inserted thread is new in the tree. -/
theorem treeInsert_perm (tree : List T) : (s.treeInsert t tree).Perm (t :: tree) :=
  List.perm_orderedInsert _ _ _

omit [DecidableEq T] [Fintype T] in
/-- Who is in the tree after an insertion. -/
theorem mem_treeInsert {tree : List T} {x : T} : x ∈ s.treeInsert t tree ↔ x = t ∨ x ∈ tree :=
  (treeInsert_perm tree).mem_iff.trans List.mem_cons

namespace LocksInv

/-- A thread that waits for nothing is in no tree. -/
theorem not_mem_tree (hI : LocksInv s) (hw : s.waitingLockInfo t = none) (l : Nat) :
    t ∉ (s.lockInfo l).tree := by
  rw [← hI.mem_tree, hw]
  exact nofun

/-- A lock that is waited for has a waiter. -/
theorem tree_ne_nil (hI : LocksInv s) (hw : s.waitingLockInfo t = some l) :
    (s.lockInfo l).tree ≠ [] :=
  List.ne_nil_of_mem ((hI.mem_tree t l).1 hw)

/-- Without an owner to wait for there is no lock to wait for. -/
theorem getLockOwner_eq_none (hI : LocksInv s) :
    s.getLockOwner t = none ↔ s.waitingLockInfo t = none := by
  unfold getLockOwner
  cases hw : s.waitingLockInfo t with
  | none => simp
  | some l => simpa using hI.owned l (hI.tree_ne_nil hw)

/-- The waiters on a thread are those in the trees of its held locks. -/
theorem getLockOwner_iff (hI : LocksInv s) {w : T} :
    s.getLockOwner w = some o ↔ ∃ l ∈ s.heldLockInfoList o, w ∈ (s.lockInfo l).tree := by
  rw [getLockOwner_eq_some]
  constructor
  · rintro ⟨l, hw, ho⟩
    exact ⟨l, (hI.held o l).2 ⟨ho, hI.tree_ne_nil hw⟩, (hI.mem_tree w l).1 hw⟩
  · rintro ⟨l, hl, hw⟩; exact ⟨l, (hI.mem_tree w l).2 hw, ((hI.held o l).1 hl).1⟩

end LocksInv

/-- One more thread points to `o`, and counts there if it has the property. -/
theorem card_filter_update {f : T → Option T} (p : T → Bool) (hf : f t = none) (o o' : T) :
    (Finset.univ.filter fun w => update f t (some o) w = some o' ∧ p w = true).card =
      (Finset.univ.filter fun w => f w = some o' ∧ p w = true).card +
        if o' = o ∧ p t = true then 1 else 0 := by
  split
  · rename_i h
    obtain ⟨rfl, hp⟩ := h
    have hins : (Finset.univ.filter fun w => update f t (some o') w = some o' ∧
        p w = true) = insert t (Finset.univ.filter fun w => f w = some o' ∧ p w = true) := by
      ext w
      by_cases hw : w = t
      · simp [hw, hp]
      · simp [hw]
    rw [hins, Finset.card_insert_of_notMem]
    simp [hf]
  · rename_i h
    rw [Nat.add_zero]
    congr 1
    ext w
    by_cases hw : w = t
    · subst hw
      simp only [Finset.mem_filter, Finset.mem_univ, true_and, update_self, hf,
        Option.some.injEq]
      refine iff_of_false (fun h' => h ⟨h'.1.symm, h'.2⟩) fun h' => ?_
      cases h'.1
    · simp [hw]

/-! ### Putting a waiter into a lock -/

/-- The state in which `t` waits for the lock `l` of `o`, whose info was `info` before. -/
def attach (s : ThreadSystem T) (l : Nat) (info : LockInfo T) (held : List Nat) (alloc : Nat)
    (o t : T) : ThreadSystem T :=
  { s with
    numKernelWaiters := if s.isKernelAddressKey t then
      update s.numKernelWaiters o (s.numKernelWaiters o + 1) else s.numKernelWaiters
    heldLockInfoList := update s.heldLockInfoList o held
    lockInfo := update s.lockInfo l
      { info with tree := s.treeInsert t info.tree, waiterCount := info.waiterCount + 1 }
    waitingLockInfo := update s.waitingLockInfo t (some l)
    numAllocated := alloc }

/-- The lock is one that `o` holds under the key of `t`, or a new one. -/
structure Attachable (s : ThreadSystem T) (l : Nat) (info : LockInfo T) (held : List Nat)
    (alloc : Nat) (o t : T) : Prop where
  owner : info.owner = some o
  addressKey : info.addressKey = s.addressKey t
  isKernel : info.isKernelAddressKey = s.isKernelAddressKey t
  tree : info.tree = (s.lockInfo l).tree
  count : info.waiterCount = info.tree.length
  held : (l ∈ s.heldLockInfoList o ∧ held = s.heldLockInfoList o ∧ info = s.lockInfo l) ∨
    ((s.lockInfo l).tree = [] ∧ held = l :: s.heldLockInfoList o)
  alloc : s.numAllocated ≤ alloc ∧ l < alloc

section Attach

variable {info : LockInfo T} {held : List Nat} {alloc : Nat}

omit [Fintype T] in
/-- The lock itself gets the waiter. -/
theorem attach_lockInfo_self : (s.attach l info held alloc o t).lockInfo l =
    { info with tree := s.treeInsert t info.tree, waiterCount := info.waiterCount + 1 } :=
  update_self _ _ _

omit [Fintype T] in
/-- Every other lock is as before. -/
theorem attach_lockInfo_of_ne {l' : Nat} (h : l' ≠ l) :
    (s.attach l info held alloc o t).lockInfo l' = s.lockInfo l' :=
  update_of_ne h _ _

/-- The lock is in the held list of `o` and of nobody else. -/
theorem Attachable.mem_held (hI : LocksInv s) (hA : Attachable s l info held alloc o t) (o' : T)
    (l' : Nat) : l' ∈ (s.attach l info held alloc o t).heldLockInfoList o' ↔
      (l' = l ∧ o' = o) ∨ (l' ≠ l ∧ l' ∈ s.heldLockInfoList o') := by
  show l' ∈ update s.heldLockInfoList o held o' ↔ _
  have hl : ∀ o', l ∈ s.heldLockInfoList o' → o' = o := by
    intro o' hmem
    rcases hA.held with ⟨hlo, -, -⟩ | ⟨hnil, -⟩
    · exact Option.some.inj (((hI.held o' l).1 hmem).1.symm.trans ((hI.held o l).1 hlo).1)
    · exact absurd hnil ((hI.held o' l).1 hmem).2
  by_cases ho : o' = o
  · subst ho
    rw [update_self]
    rcases hA.held with ⟨hlo, rfl, -⟩ | ⟨-, rfl⟩
    · by_cases hl' : l' = l
      · subst hl'
        simp [hlo]
      · simp [hl']
    · by_cases hl' : l' = l
      · simp [hl']
      · simp [hl']
  · rw [update_of_ne ho]
    by_cases hl' : l' = l
    · subst hl'
      simp only [ho, and_false, ne_eq, not_true_eq_false, false_and, or_self, iff_false]
      exact fun h => ho (hl o' h)
    · simp [hl', ho]

/-- From the threads only: `t` now points to `o`. -/
theorem getLockOwner_attach (hI : LocksInv s) (hA : Attachable s l info held alloc o t) :
    (s.attach l info held alloc o t).getLockOwner = update s.getLockOwner t (some o) := by
  funext w
  by_cases hw : w = t
  · subst hw
    rw [update_self, getLockOwner_eq_some]
    refine ⟨l, update_self _ _ _, ?_⟩
    rw [attach_lockInfo_self]
    exact hA.owner
  · rw [update_of_ne hw]
    have hwait : (s.attach l info held alloc o t).waitingLockInfo w = s.waitingLockInfo w :=
      update_of_ne hw _ _
    unfold getLockOwner
    rw [hwait]
    cases hl' : s.waitingLockInfo w with
    | none => rfl
    | some l' =>
      simp only
      by_cases hll : l' = l
      · subst hll
        rw [attach_lockInfo_self]
        rcases hA.held with ⟨-, -, hinfo⟩ | ⟨hnil, -⟩
        · rw [← hinfo]
        · exact absurd hnil (hI.tree_ne_nil hl')
      · rw [attach_lockInfo_of_ne hll]

omit [DecidableEq T] [Fintype T] in
/-- What every lock satisfies it satisfies after one of them is replaced by such a lock. -/
theorem forall_update {f : Nat → LockInfo T} (P : LockInfo T → Prop) (hf : ∀ l, P (f l))
    (h : P info) : ∀ l', P (update f l info l') :=
  (Function.forall_update_iff f fun _ i => P i).2 ⟨h, fun l' _ => hf l'⟩

/-- Putting a waiter into a lock keeps waiters, trees, lists and counts in agreement. -/
theorem attach_inv (hI : LocksInv s) (hw : s.waitingLockInfo t = none)
    (hA : Attachable s l info held alloc o t) : LocksInv (s.attach l info held alloc o t) := by
  have hnot := hI.not_mem_tree hw
  have howner := getLockOwner_attach hI hA
  have hwait : ∀ x, (s.attach l info held alloc o t).waitingLockInfo x =
      if x = t then some l else s.waitingLockInfo x := fun x => update_apply _ _ _ _
  have hperm : (s.treeInsert t info.tree).Perm (t :: (s.lockInfo l).tree) := by
    rw [hA.tree]; exact treeInsert_perm _
  have hmem : ∀ x, x ∈ s.treeInsert t info.tree ↔ x = t ∨ x ∈ (s.lockInfo l).tree := by
    intro x
    rw [mem_treeInsert, hA.tree]
  constructor
  -- `t` is in the tree of `l` and in no other, as its waiting lock info says
  case mem_tree =>
    intro x l'
    rw [hwait]
    by_cases hl : l' = l
    · subst hl
      rw [attach_lockInfo_self, hmem, ← hI.mem_tree x l']
      by_cases hx : x = t
      · simp [hx]
      · simp [hx]
    · rw [attach_lockInfo_of_ne hl, ← hI.mem_tree x l']
      by_cases hx : x = t
      · subst hx
        simp [hw, Ne.symm hl]
      · simp [hx]
  case nodup =>
    exact forall_update (·.tree.Nodup) hI.nodup
      (hperm.nodup_iff.2 (List.nodup_cons.2 ⟨hnot l, hI.nodup l⟩))
  case sorted =>
    refine forall_update (·.tree.Pairwise fun a b => s.priority a ≤ s.priority b) hI.sorted
      (sorted_treeInsert ?_)
    rw [hA.tree]; exact hI.sorted l
  case count =>
    refine forall_update (fun i => i.waiterCount = i.tree.length) hI.count ?_
    show info.waiterCount + 1 = (s.treeInsert t info.tree).length
    rw [hperm.length_eq, hA.count, hA.tree, List.length_cons]
  case held =>
    intro o' l'
    rw [hA.mem_held hI]
    by_cases hl : l' = l
    · subst hl
      rw [attach_lockInfo_self]
      have hne : s.treeInsert t info.tree ≠ [] := List.ne_nil_of_mem ((hmem t).2 (.inl rfl))
      simp only [hA.owner, Option.some.injEq, hne, ne_eq, not_false_eq_true, and_true, true_and,
        not_true_eq_false, false_and, or_false]
      exact eq_comm
    · rw [attach_lockInfo_of_ne hl, ← hI.held o' l']; simp [hl]
  case held_nodup =>
    intro o'
    show (update s.heldLockInfoList o held o').Nodup
    by_cases ho : o' = o
    · subst ho
      rw [update_self]
      rcases hA.held with ⟨-, rfl, -⟩ | ⟨hnil, rfl⟩
      · exact hI.held_nodup o'
      · refine List.nodup_cons.2 ⟨fun h => ((hI.held o' l).1 h).2 hnil, hI.held_nodup o'⟩
    · rw [update_of_ne ho]; exact hI.held_nodup o'
  case owned =>
    refine forall_update (fun i => i.tree ≠ [] → i.owner ≠ none) hI.owned fun _ => ?_
    show info.owner ≠ none
    rw [hA.owner]
    exact nofun
  case key =>
    intro x l' hx
    rw [hwait] at hx
    by_cases hl : l' = l
    · subst hl
      rw [attach_lockInfo_self]
      by_cases hxt : x = t
      · subst hxt
        exact ⟨hA.addressKey, hA.isKernel⟩
      · rw [if_neg hxt] at hx
        have hk := hI.key x l' hx
        rcases hA.held with ⟨-, -, rfl⟩ | ⟨hnil, -⟩
        · exact hk
        · exact absurd hnil (hI.tree_ne_nil hx)
    · rw [attach_lockInfo_of_ne hl]
      by_cases hxt : x = t
      · rw [if_pos hxt] at hx
        exact absurd (Option.some.inj hx).symm hl
      · rw [if_neg hxt] at hx; exact hI.key x l' hx
  -- one more waiter on `o`, which the counter counts if the key of `t` is a kernel address
  case kernel =>
    intro o'
    rw [howner]
    have hcard := card_filter_update s.isKernelAddressKey (hI.getLockOwner_eq_none.2 hw) o o'
    show (if s.isKernelAddressKey t then
      update s.numKernelWaiters o (s.numKernelWaiters o + 1)
      else s.numKernelWaiters) o' = _
    rw [show (s.attach l info held alloc o t).isKernelAddressKey = s.isKernelAddressKey from rfl,
      hcard, Nat.cast_add, ← hI.kernel o']
    by_cases hk : s.isKernelAddressKey t = true
    · by_cases ho : o' = o
      · simp [hk, ho]
      · simp [hk, ho]
    · simp [hk]
  case fresh =>
    intro l' hge
    have hl : l' ≠ l := by
      rintro rfl; exact absurd hA.alloc.2 (not_lt.2 hge)
    rw [attach_lockInfo_of_ne hl]; exact hI.fresh l' (le_trans hA.alloc.1 hge)

/-- No second lock of a key appears: a new one is made only when none is found. -/
theorem attach_keysDistinct (hI : LocksInv s) (hA : Attachable s l info held alloc o t)
    (hK : KeysDistinct s) (hnew : (s.lockInfo l).tree = [] → ∀ l' ∈ s.heldLockInfoList o,
      ¬ ((s.lockInfo l').addressKey = s.addressKey t ∧
        (s.lockInfo l').isKernelAddressKey = s.isKernelAddressKey t)) :
    KeysDistinct (s.attach l info held alloc o t) := by
  -- a lock other than `l` keeps its key, and `l` has the key of `t`
  have hother : ∀ l', l' ≠ l → l' ∈ s.heldLockInfoList o →
      ¬ ((s.lockInfo l').addressKey = s.addressKey t ∧
        (s.lockInfo l').isKernelAddressKey = s.isKernelAddressKey t) := by
    intro l' hne hl' hkey
    rcases hA.held with ⟨hl, -, hinfo⟩ | ⟨hnil, -⟩
    · refine hne (hK o l' l hl' hl ?_ ?_)
      · rw [hkey.1, ← hA.addressKey, hinfo]
      · rw [hkey.2, ← hA.isKernel, hinfo]
    · exact hnew hnil l' hl' hkey
  intro o' l₁ l₂ h₁ h₂ hkey hkern
  rw [hA.mem_held hI] at h₁ h₂
  rcases h₁ with ⟨rfl, rfl⟩ | ⟨hne₁, h₁⟩
  · rcases h₂ with ⟨rfl, -⟩ | ⟨hne₂, h₂⟩
    · rfl
    · rw [attach_lockInfo_self, attach_lockInfo_of_ne hne₂] at hkey hkern
      exact absurd ⟨hkey.symm.trans hA.addressKey, hkern.symm.trans hA.isKernel⟩ (hother l₂ hne₂ h₂)
  · rcases h₂ with ⟨rfl, rfl⟩ | ⟨hne₂, h₂⟩
    · rw [attach_lockInfo_self, attach_lockInfo_of_ne hne₁] at hkey hkern
      exact absurd ⟨hkey.trans hA.addressKey, hkern.trans hA.isKernel⟩ (hother l₁ hne₁ h₁)
    · rw [attach_lockInfo_of_ne hne₁, attach_lockInfo_of_ne hne₂] at hkey hkern
      exact hK o' l₁ l₂ h₁ h₂ hkey hkern

end Attach

omit [Fintype T] in
/-- `AddWaiterImpl` with a lock of the key at hand. -/
theorem addWaiterImpl_of_find (h : s.findHeldLock o (s.addressKey t) (s.isKernelAddressKey t) = some l) :
    s.addWaiterImpl o t = s.attach l (s.lockInfo l) (s.heldLockInfoList o) s.numAllocated o t := by
  unfold addWaiterImpl attach
  cases hk : s.isKernelAddressKey t with
  | true =>
    rw [hk] at h
    have h' : (s.setNumKernelWaiters o (s.numKernelWaiters o + 1)).findHeldLock o
        (s.addressKey t) true = some l := h
    simp only [if_true, setNumKernelWaiters] at h' ⊢
    rw [hk, h', update_eq_self]; rfl
  | false =>
    rw [hk] at h
    simp only [Bool.false_eq_true, if_false]
    rw [hk, h, update_eq_self]; rfl

omit [Fintype T] in
/-- `AddWaiterImpl` when a new lock has to be created. -/
theorem addWaiterImpl_of_find_none
    (h : s.findHeldLock o (s.addressKey t) (s.isKernelAddressKey t) = none) :
    s.addWaiterImpl o t =
      s.attach s.numAllocated ⟨s.addressKey t, s.isKernelAddressKey t, some o, [], 0⟩
        (s.numAllocated :: s.heldLockInfoList o) (s.numAllocated + 1) o t := by
  unfold addWaiterImpl attach
  cases hk : s.isKernelAddressKey t with
  | true =>
    rw [hk] at h
    have h' : (s.setNumKernelWaiters o (s.numKernelWaiters o + 1)).findHeldLock o
        (s.addressKey t) true = none := h
    simp only [if_true, setNumKernelWaiters] at h' ⊢
    rw [hk, h']
    simp [createLock, addHeldLock, lockAddWaiter, setLockInfo, setHeldLockInfoList,
      setWaitingLockInfo, treeInsert]
  | false =>
    rw [hk] at h
    simp only [Bool.false_eq_true, if_false]
    rw [hk, h]
    simp [createLock, addHeldLock, lockAddWaiter, setLockInfo, setHeldLockInfoList,
      setWaitingLockInfo, treeInsert]

/-- What the other operations may rely on after a change to waiters. -/
structure SameThreads (s s' : ThreadSystem T) : Prop where
  basePriority : s'.basePriority = s.basePriority
  priority : s'.priority = s.priority
  addressKey : s'.addressKey = s.addressKey
  isKernelAddressKey : s'.isKernelAddressKey = s.isKernelAddressKey

/-- All that `AddWaiterImpl` does, whichever lock it takes. -/
theorem addWaiterImpl_spec (hI : LocksInv s) (hw : s.waitingLockInfo t = none) (o : T) :
    LocksInv (s.addWaiterImpl o t) ∧ SameThreads s (s.addWaiterImpl o t) ∧
      (s.addWaiterImpl o t).getLockOwner = update s.getLockOwner t (some o) ∧
      (KeysDistinct s → KeysDistinct (s.addWaiterImpl o t)) := by
  cases h : s.findHeldLock o (s.addressKey t) (s.isKernelAddressKey t) with
  | some l =>
    have hmem := List.mem_of_find?_eq_some h
    have hkey := List.find?_some h
    simp only [Bool.and_eq_true, beq_iff_eq] at hkey
    have hheld := (hI.held o l).1 hmem
    have hA : Attachable s l (s.lockInfo l) (s.heldLockInfoList o) s.numAllocated o t :=
      { owner := hheld.1
        addressKey := hkey.1
        isKernel := hkey.2
        tree := rfl
        count := hI.count l
        held := .inl ⟨hmem, rfl, rfl⟩
        alloc := ⟨le_refl _, not_le.1 fun hge => hheld.2 (hI.fresh l hge)⟩ }
    rw [addWaiterImpl_of_find h]
    exact ⟨attach_inv hI hw hA, ⟨rfl, rfl, rfl, rfl⟩, getLockOwner_attach hI hA,
      fun hK => attach_keysDistinct hI hA hK fun hnil => absurd hnil hheld.2⟩
  | none =>
    have hnil := hI.fresh s.numAllocated (le_refl _)
    have hA : Attachable s s.numAllocated
        ⟨s.addressKey t, s.isKernelAddressKey t, some o, [], 0⟩
        (s.numAllocated :: s.heldLockInfoList o) (s.numAllocated + 1) o t :=
      { owner := rfl
        addressKey := rfl
        isKernel := rfl
        tree := hnil.symm
        count := rfl
        held := .inr ⟨hnil, rfl⟩
        alloc := ⟨Nat.le_succ _, Nat.lt_succ_self _⟩ }
    rw [addWaiterImpl_of_find_none h]
    refine ⟨attach_inv hI hw hA, ⟨rfl, rfl, rfl, rfl⟩, getLockOwner_attach hI hA,
      fun hK => attach_keysDistinct hI hA hK fun _ l' hl' hkey => ?_⟩
    have hno := List.find?_eq_none.1 h l' hl'
    simp [hkey.1, hkey.2] at hno

/-! ### Taking a waiter out of its lock -/

/-- The state in which `t` waits for the lock `l` of `o` no more. -/
def detach (s : ThreadSystem T) (l : Nat) (o t : T) : ThreadSystem T :=
  { s with
    numKernelWaiters := if s.isKernelAddressKey t then
      update s.numKernelWaiters o (s.numKernelWaiters o - 1) else s.numKernelWaiters
    heldLockInfoList := if (s.lockInfo l).tree.erase t = [] then
      update s.heldLockInfoList o ((s.heldLockInfoList o).erase l)
      else s.heldLockInfoList
    lockInfo := update s.lockInfo l
      { s.lockInfo l with
        tree := (s.lockInfo l).tree.erase t, waiterCount := (s.lockInfo l).waiterCount - 1 }
    waitingLockInfo := update s.waitingLockInfo t none }

section Detach

omit [Fintype T] in
/-- The lock itself loses the waiter. -/
theorem detach_lockInfo_self : (s.detach l o t).lockInfo l =
    { s.lockInfo l with
      tree := (s.lockInfo l).tree.erase t, waiterCount := (s.lockInfo l).waiterCount - 1 } :=
  update_self _ _ _

omit [Fintype T] in
/-- Every other lock is as before. -/
theorem detach_lockInfo_of_ne {l' : Nat} (h : l' ≠ l) :
    (s.detach l o t).lockInfo l' = s.lockInfo l' :=
  update_of_ne h _ _

omit [Fintype T] in
/-- No lock changes its owner or its key. -/
theorem detach_owner (l' : Nat) :
    ((s.detach l o t).lockInfo l').owner = (s.lockInfo l').owner ∧
      ((s.detach l o t).lockInfo l').addressKey = (s.lockInfo l').addressKey ∧
      ((s.detach l o t).lockInfo l').isKernelAddressKey = (s.lockInfo l').isKernelAddressKey := by
  by_cases h : l' = l
  · subst h
    rw [detach_lockInfo_self]
    exact ⟨rfl, rfl, rfl⟩
  · rw [detach_lockInfo_of_ne h]; exact ⟨rfl, rfl, rfl⟩

omit [Fintype T] in
/-- From the threads only: `t` points to nobody. -/
theorem getLockOwner_detach : (s.detach l o t).getLockOwner = update s.getLockOwner t none := by
  funext w
  by_cases hw : w = t
  · subst hw
    rw [update_self]
    unfold getLockOwner
    rw [show (s.detach l o w).waitingLockInfo w = none from update_self _ _ _]
  · rw [update_of_ne hw]
    unfold getLockOwner
    rw [show (s.detach l o t).waitingLockInfo w = s.waitingLockInfo w from update_of_ne hw _ _]
    cases s.waitingLockInfo w with
    | none => rfl
    | some l' => exact (detach_owner l').1

/-- A lock leaves its held list with its last waiter. -/
theorem mem_held_detach (hI : LocksInv s) (hl : (s.lockInfo l).owner = some o) (o' : T) (l' : Nat) :
    l' ∈ (s.detach l o t).heldLockInfoList o' ↔
      l' ∈ s.heldLockInfoList o' ∧ (l' = l → (s.lockInfo l).tree.erase t ≠ []) := by
  show l' ∈ (if (s.lockInfo l).tree.erase t = [] then
    update s.heldLockInfoList o ((s.heldLockInfoList o).erase l)
    else s.heldLockInfoList) o' ↔ _
  split
  · rename_i hnil
    simp only [hnil, ne_eq, not_true_eq_false]
    by_cases ho : o' = o
    · subst ho
      rw [update_self, (hI.held_nodup o').mem_erase_iff, and_comm]
    · rw [update_of_ne ho]
      refine ⟨fun h => ⟨h, ?_⟩, And.left⟩
      rintro rfl; exact ho (Option.some.inj (((hI.held o' l').1 h).1.symm.trans hl))
  · rename_i hne; exact ⟨fun h => ⟨h, fun _ => hne⟩, And.left⟩

/-- Taking a waiter out keeps waiters, trees, lists and counts in agreement. -/
theorem detach_inv (hI : LocksInv s) (hw : s.waitingLockInfo t = some l)
    (hl : (s.lockInfo l).owner = some o) : LocksInv (s.detach l o t) := by
  have hmem : ∀ x, x ∈ (s.lockInfo l).tree.erase t ↔ x ≠ t ∧ x ∈ (s.lockInfo l).tree :=
    fun x => (hI.nodup l).mem_erase_iff
  have hwait : ∀ x, (s.detach l o t).waitingLockInfo x =
      if x = t then none else s.waitingLockInfo x := fun x => update_apply _ _ _ _
  constructor
  case mem_tree =>
    intro x l'
    rw [hwait]
    by_cases hll : l' = l
    · subst hll
      rw [detach_lockInfo_self, hmem, ← hI.mem_tree x l']
      by_cases hx : x = t
      · simp [hx]
      · simp [hx]
    · rw [detach_lockInfo_of_ne hll, ← hI.mem_tree x l']
      by_cases hx : x = t
      · subst hx
        simp [hw, Ne.symm hll]
      · simp [hx]
  case nodup => exact forall_update (·.tree.Nodup) hI.nodup ((hI.nodup l).erase t)
  case sorted =>
    exact forall_update (·.tree.Pairwise fun a b => s.priority a ≤ s.priority b) hI.sorted
      ((hI.sorted l).sublist List.erase_sublist)
  case count =>
    refine forall_update (fun i => i.waiterCount = i.tree.length) hI.count ?_
    show (s.lockInfo l).waiterCount - 1 = ((s.lockInfo l).tree.erase t).length
    rw [List.length_erase_of_mem ((hI.mem_tree t l).1 hw), hI.count]
  -- `l` stays in the held list while another waiter is in its tree
  case held =>
    intro o' l'
    rw [mem_held_detach hI hl, hI.held o' l', (detach_owner l').1]
    by_cases hll : l' = l
    · subst hll
      rw [detach_lockInfo_self]
      simp only [true_implies]
      exact ⟨fun h => ⟨h.1.1, h.2⟩, fun h => ⟨⟨h.1, hI.tree_ne_nil hw⟩, h.2⟩⟩
    · rw [detach_lockInfo_of_ne hll]; simp [hll]
  case held_nodup =>
    intro o'
    show ((if (s.lockInfo l).tree.erase t = [] then
      update s.heldLockInfoList o ((s.heldLockInfoList o).erase l)
      else s.heldLockInfoList) o').Nodup
    split
    · by_cases ho : o' = o
      · subst ho
        rw [update_self]
        exact (hI.held_nodup o').erase l
      · rw [update_of_ne ho]; exact hI.held_nodup o'
    · exact hI.held_nodup o'
  case owned =>
    refine forall_update (fun i => i.tree ≠ [] → i.owner ≠ none) hI.owned fun hne =>
      hI.owned l fun hnil => hne ?_
    show (s.lockInfo l).tree.erase t = []
    rw [hnil]; rfl
  case key =>
    intro x l' hx
    rw [hwait] at hx
    rw [(detach_owner l').2.1, (detach_owner l').2.2]
    by_cases hxt : x = t
    · rw [if_pos hxt] at hx
      cases hx
    · rw [if_neg hxt] at hx; exact hI.key x l' hx
  -- the count before is the one for `t` put back, by `card_filter_update`
  case kernel =>
    intro o'
    rw [getLockOwner_detach]
    have hown : s.getLockOwner t = some o := getLockOwner_eq_some.2 ⟨l, hw, hl⟩
    have hcard := card_filter_update (f := update s.getLockOwner t none)
      s.isKernelAddressKey (update_self t none s.getLockOwner) o o'
    rw [update_idem, ← hown, update_eq_self] at hcard
    have hk := hI.kernel o'
    rw [hcard, Nat.cast_add] at hk
    show (if s.isKernelAddressKey t then
      update s.numKernelWaiters o (s.numKernelWaiters o - 1)
      else s.numKernelWaiters) o' = _
    rw [show (s.detach l o t).isKernelAddressKey = s.isKernelAddressKey from rfl]
    by_cases hkt : s.isKernelAddressKey t = true
    · by_cases ho : o' = o
      · subst ho
        simp only [hkt, and_self, if_true, Nat.cast_one] at hk ⊢
        rw [update_self, hk]
        omega
      · simp only [ho, false_and, if_false, Nat.cast_zero, Int.add_zero] at hk
        rw [if_pos hkt, update_of_ne ho]; exact hk
    · rw [if_neg fun h => hkt h.2, Nat.cast_zero, Int.add_zero] at hk
      rw [if_neg hkt]; exact hk
  case fresh =>
    intro l' hge
    have hnil := hI.fresh l' hge
    have hll : l' ≠ l := by
      rintro rfl; exact hI.tree_ne_nil hw hnil
    rw [detach_lockInfo_of_ne hll]; exact hnil

/-- Held locks only become fewer, so their keys stay distinct. -/
theorem detach_keysDistinct (hI : LocksInv s) (hl : (s.lockInfo l).owner = some o)
    (hK : KeysDistinct s) : KeysDistinct (s.detach l o t) := by
  intro o' l₁ l₂ h₁ h₂ hkey hkern
  rw [mem_held_detach hI hl] at h₁ h₂
  rw [(detach_owner l₁).2.1, (detach_owner l₂).2.1] at hkey
  rw [(detach_owner l₁).2.2, (detach_owner l₂).2.2] at hkern
  exact hK o' l₁ l₂ h₁.1 h₂.1 hkey hkern

/-- `RemoveWaiterImpl` finds the lock and takes the waiter out of it. -/
theorem removeWaiterImpl_eq (hI : LocksInv s) (hw : s.waitingLockInfo t = some l) (o : T) :
    s.removeWaiterImpl o t = some (s.detach l o t) := by
  have hflag : ((s.lockInfo l).waiterCount - 1 == 0) = decide ((s.lockInfo l).tree.erase t = []) := by
    have hlen := List.length_erase_of_mem ((hI.mem_tree t l).1 hw)
    rw [hI.count, ← hlen]
    generalize (s.lockInfo l).tree.erase t = rest
    cases rest <;> simp
  unfold removeWaiterImpl detach
  cases hk : s.isKernelAddressKey t with
  | true =>
    simp only [if_true, setNumKernelWaiters, hw, lockRemoveWaiter, hflag]
    by_cases hnil : (s.lockInfo l).tree.erase t = []
    · simp [hnil, setLockInfo, setWaitingLockInfo, setHeldLockInfoList]
    · simp [hnil, setLockInfo, setWaitingLockInfo]
  | false =>
    simp only [Bool.false_eq_true, if_false, hw, lockRemoveWaiter, hflag]
    by_cases hnil : (s.lockInfo l).tree.erase t = []
    · simp [hnil, setLockInfo, setWaitingLockInfo, setHeldLockInfoList]
    · simp [hnil, setLockInfo, setWaitingLockInfo]

/-- All that `RemoveWaiterImpl` does for a thread that waits on `o`. -/
theorem removeWaiterImpl_spec (hI : LocksInv s) (hown : s.getLockOwner t = some o) :
    ∃ s', s.removeWaiterImpl o t = some s' ∧ LocksInv s' ∧ SameThreads s s' ∧
      s'.waitingLockInfo t = none ∧ s'.getLockOwner = update s.getLockOwner t none ∧
      (KeysDistinct s → KeysDistinct s') := by
  obtain ⟨l, hw, hl⟩ := getLockOwner_eq_some.1 hown
  exact ⟨s.detach l o t, removeWaiterImpl_eq hI hw o, detach_inv hI hw hl, ⟨rfl, rfl, rfl, rfl⟩,
    update_self _ _ _, getLockOwner_detach, detach_keysDistinct hI hl⟩

end Detach

/-! ### Restoring priorities -/

omit [DecidableEq T] [Fintype T] in
/-- The minimum over the first waiters is the one over all: the trees are sorted. -/
theorem foldlM_min_head (locks : List Nat) (hne : ∀ l ∈ locks, (s.lockInfo l).tree ≠ [])
    (hsorted : ∀ l, (s.lockInfo l).tree.Pairwise fun a b => s.priority a ≤ s.priority b) (p : Int) :
    ∃ q, locks.foldlM
      (fun p l => (s.lockInfo l).tree.head?.map fun w => min p (s.priority w)) p = some q ∧
      ∀ c, c ≤ q ↔ c ≤ p ∧ ∀ l ∈ locks, ∀ w ∈ (s.lockInfo l).tree, c ≤ s.priority w := by
  induction locks generalizing p with
  | nil => exact ⟨p, rfl, fun c => by simp⟩
  | cons l locks ih =>
    cases htree : (s.lockInfo l).tree with
    | nil => exact absurd htree (hne l List.mem_cons_self)
    | cons w rest =>
      obtain ⟨q, hq, hle⟩ := ih (fun l' hl' => hne l' (List.mem_cons_of_mem _ hl'))
        (min p (s.priority w))
      refine ⟨q, ?_, fun c => ?_⟩
      · rw [List.foldlM_cons, htree]
        exact hq
      · have hw : (∀ x ∈ (s.lockInfo l).tree, c ≤ s.priority x) ↔ c ≤ s.priority w := by
          have hs := hsorted l
          rw [htree, List.pairwise_cons] at hs
          rw [htree]
          refine ⟨fun h => h w List.mem_cons_self, fun h x hx => ?_⟩
          rcases List.mem_cons.1 hx with rfl | hx
          · exact h
          · exact le_trans h (hs.1 x hx)
        rw [hle, le_min_iff, List.forall_mem_cons, hw]; exact and_assoc

/-- The priority computed from the held locks is the one wanted for the pointers. -/
theorem newPriority_eq (hI : LocksInv s) (t : T) :
    s.newPriority t = some (desired s.basePriority s.getLockOwner s.priority t) := by
  obtain ⟨q, hq, hle⟩ := foldlM_min_head (s.heldLockInfoList t)
    (fun l hl => ((hI.held t l).1 hl).2) hI.sorted (s.basePriority t)
  rw [newPriority, hq]
  congr 1
  refine eq_of_forall_le_iff fun c => ?_
  rw [hle, le_desired_iff]
  refine and_congr_right fun _ => ⟨fun h w hw => ?_, fun h l hl w hw => ?_⟩
  · obtain ⟨l, hl, hwl⟩ := hI.getLockOwner_iff.1 hw
    exact h l hl w hwl
  · exact h w (hI.getLockOwner_iff.2 ⟨l, hl, hw⟩)

/-- Outside all trees a thread may change its priority. -/
theorem setPriority_inv (hI : LocksInv s) (hw : s.waitingLockInfo t = none) (v : Int) :
    LocksInv (s.setPriority t v) := by
  refine ⟨hI.mem_tree, hI.nodup, fun l => ?_, hI.count, hI.held, hI.held_nodup, hI.owned, hI.key,
    hI.kernel, hI.fresh⟩
  refine (hI.sorted l).imp_of_mem fun {a b} ha hb hab => ?_
  have hne : ∀ x ∈ (s.lockInfo l).tree, x ≠ t := by
    rintro x hx rfl; exact hI.not_mem_tree hw l hx
  show update s.priority t v a ≤ update s.priority t v b
  rw [update_of_ne (hne a ha), update_of_ne (hne b hb)]
  exact hab

/-- Out of the lock, new priority, back in: only the priority has changed. -/
theorem adjustPriority_spec (hI : LocksInv s) (t : T) (v : Int) :
    ∃ s', s.adjustPriority t v = some s' ∧ LocksInv s' ∧ s'.basePriority = s.basePriority ∧
      s'.priority = update s.priority t v ∧ s'.getLockOwner = s.getLockOwner ∧
      (KeysDistinct s → KeysDistinct s') := by
  unfold adjustPriority
  cases hown : s.getLockOwner t with
  | none =>
    have hw := hI.getLockOwner_eq_none.1 hown
    exact ⟨_, rfl, setPriority_inv hI hw v, rfl, rfl, rfl, fun hK => hK⟩
  | some o =>
    obtain ⟨s₁, h₁, hI₁, hsame₁, hw₁, hown₁, hK₁⟩ := removeWaiterImpl_spec hI hown
    obtain ⟨hI₂, hsame₂, hown₂, hK₂⟩ :=
      addWaiterImpl_spec (setPriority_inv hI₁ hw₁ v) (show _ = none from hw₁) o
    refine ⟨(s₁.setPriority t v).addWaiterImpl o t, ?_, hI₂,
      hsame₂.basePriority.trans hsame₁.basePriority, ?_, ?_, fun hK => hK₂ (hK₁ hK)⟩
    · simp only [h₁]
      rfl
    · rw [hsame₂.priority]
      show update s₁.priority t v = _
      rw [hsame₁.priority]
    · rw [hown₂, show (s₁.setPriority t v).getLockOwner = s₁.getLockOwner from rfl, hown₁,
        update_idem, ← hown, update_eq_self]

/-- Round for round the loop is `restore` along the pointers. -/
theorem restorePriority_of_restore (n : Nat) (hI : LocksInv s) (t : Option T) {val' : T → Int}
    (h : restore s.basePriority s.getLockOwner n s.priority t = some val') :
    ∃ s', restorePriority n s t = some s' ∧ LocksInv s' ∧ s'.basePriority = s.basePriority ∧
      s'.priority = val' ∧ s'.getLockOwner = s.getLockOwner ∧
      (KeysDistinct s → KeysDistinct s') := by
  induction n generalizing s t with
  | zero =>
    cases t with
    | none => exact ⟨s, rfl, hI, rfl, Option.some.inj h, rfl, id⟩
    | some t => cases h
  | succ n ih =>
    cases t with
    | none => exact ⟨s, rfl, hI, rfl, Option.some.inj h, rfl, id⟩
    | some t =>
      rw [restore] at h
      rw [restorePriority, newPriority_eq hI]
      by_cases heq : desired s.basePriority s.getLockOwner s.priority t = s.priority t
      · rw [if_pos heq] at h
        refine ⟨s, ?_, hI, rfl, Option.some.inj h, rfl, id⟩
        simp [heq]
      · rw [if_neg heq] at h
        obtain ⟨s₁, hs₁, hI₁, hbase, hprio, hown, hK⟩ :=
          adjustPriority_spec hI t (desired s.basePriority s.getLockOwner s.priority t)
        rw [← hprio, ← hbase, ← hown] at h
        obtain ⟨s', hs', hI', hbase', hprio', hown', hK'⟩ := ih hI₁ _ h
        refine ⟨s', ?_, hI', hbase'.trans hbase, hprio', hown'.trans hown, fun h => hK' (hK h)⟩
        rw [hown] at hs'
        rw [← hs']; simp [heq, hs₁]

/-- More rounds than threads are enough, and every priority is right again. -/
theorem restorePriority_spec {n : Nat} (hI : LocksInv s)
    (hex : StableExcept s.basePriority s.getLockOwner s.priority t) (hn : Fintype.card T < n) :
    ∃ s', restorePriority n s (some t) = some s' ∧ LocksInv s' ∧
      Stable s'.basePriority s'.getLockOwner s'.priority ∧ (KeysDistinct s → KeysDistinct s') := by
  obtain ⟨val', hval, hst⟩ := restore_spec hex hn
  obtain ⟨s', hs', hI', hbase, rfl, hown, hK⟩ := restorePriority_of_restore n hI (some t) hval
  refine ⟨s', hs', hI', ?_, hK⟩
  rw [hbase, hown]
  exact hst

end Structure

end ThreadSystem

end Suyu.Kernel
