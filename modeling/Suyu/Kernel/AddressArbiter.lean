import Mathlib
import Suyu.Lib.ChangePoints

/-
  KAddressArbiter - waking the threads that wait on an address.

  1. **Program** - the waiting threads are in a tree by address and priority.  `Signal` wakes the first
     ones of an address; `SignalAndIncrementIfEqual` and `SignalAndModifyByWaitingCountIfEqual` do so if
     the word at the address is as expected, and write it.  The tree is its sequence of threads from
     left to right: a search goes to the first one behind the key.

  2. **Specification (`Wakes`, `IfEqual`)** - how many are woken, and that they come before all the others
     that wait on the address, by priority and then by ARRIVAL.

  3. **The crux (`countLoop_lt_iff`)** - the loop that looks ahead counts one waiter too few and stops one
     too late; compared with `count`, the two errors leave the right answer.

  All operations hold the scheduler lock, so the tree is changed by one of them at a time; the word can be
  changed by other cores at any time.
-/

namespace Suyu.Kernel.KAddressArbiter

open Function (update update_idem update_eq_self update_eq_self_iff update_self)

/-! ## The tree -/

/-- What the tree reads of a thread; `arrival` counts the threads that were put into the tree before
    it. -/
structure Waiter where
  thread : Nat
  addressArbiterKey : BitVec 64
  priority : Int
  arrival : Nat
  deriving DecidableEq

/-- `ConditionVariableComparator::Compare`: it never finds two equal. -/
def compare (lKey : BitVec 64) (lPriority : Int) (rhs : Waiter) : Int :=
  if lKey < rhs.addressArbiterKey then -1
  else if lKey = rhs.addressArbiterKey ∧ lPriority < rhs.priority then -1
  else 1

/-- Among the threads on one address: by priority, then by arrival. -/
def Earlier (v w : Waiter) : Prop :=
  v.priority < w.priority ∨ (v.priority = w.priority ∧ v.arrival < w.arrival)

/-- From left to right in the tree. -/
def Before (v w : Waiter) : Prop :=
  v.addressArbiterKey < w.addressArbiterKey ∨ (v.addressArbiterKey = w.addressArbiterKey ∧ Earlier v w)

structure ThreadTree where
  waiters : List Waiter
  arrivals : Nat
  sorted : waiters.Pairwise Before
  arrival_lt : ∀ w ∈ waiters, w.arrival < arrivals
  /-- `HighestThreadPriority` is 0. -/
  priority_nonneg : ∀ w ∈ waiters, 0 ≤ w.priority

namespace ThreadTree

/-- Some of the threads are taken out. -/
def keep (tree : ThreadTree) (waiters : List Waiter) (h : waiters.Sublist tree.waiters) : ThreadTree where
  waiters := waiters
  arrivals := tree.arrivals
  sorted := tree.sorted.sublist h
  arrival_lt := fun w hw => tree.arrival_lt w (h.subset hw)
  priority_nonneg := fun w hw => tree.priority_nonneg w (h.subset hw)

/-- The threads up to the place that a search for a key finds, and those from there on. -/
def search (tree : ThreadTree) (key : BitVec 64) (priority : Int) : List Waiter × List Waiter :=
  (tree.waiters.takeWhile fun w => !decide (compare key priority w < 0),
    tree.waiters.dropWhile fun w => !decide (compare key priority w < 0))

section Search

variable {key : BitVec 64} {priority : Int} {v w : Waiter} (tree : ThreadTree)

theorem compare_lt_iff : compare key priority w < 0 ↔
    key < w.addressArbiterKey ∨ (key = w.addressArbiterKey ∧ priority < w.priority) := by
  unfold compare
  split
  · simp_all
  · split
    · simp_all
    · simp_all

theorem compare_lt_of_before (h : Before v w) (hv : compare key priority v < 0) :
    compare key priority w < 0 := by
  rw [compare_lt_iff] at hv ⊢
  rw [Before, Earlier] at h
  rw [BitVec.lt_def, BitVec.toNat_eq] at *
  omega

theorem pairwise_search : tree.waiters.Pairwise fun v w =>
    (!decide (compare key priority w < 0)) = true → (!decide (compare key priority v < 0)) = true := by
  refine tree.sorted.imp fun {v w} hb hw => ?_
  rw [Bool.not_eq_true', decide_eq_false_iff_not] at hw ⊢
  exact fun hv => hw (compare_lt_of_before hb hv)

theorem search_fst : (tree.search key priority).1 =
    tree.waiters.filter fun w => !decide (compare key priority w < 0) :=
  Lib.ChangePoints.takeWhile_eq_filter tree.pairwise_search

theorem search_snd : (tree.search key priority).2 =
    tree.waiters.filter fun w => decide (compare key priority w < 0) := by
  rw [search, Lib.ChangePoints.dropWhile_eq_filter tree.pairwise_search]; simp

variable (key priority) in
theorem search_append : (tree.search key priority).1 ++ (tree.search key priority).2 = tree.waiters :=
  List.takeWhile_append_dropWhile

theorem mem_of_insert (hw : w ∈ (tree.search key priority).1 ++ v :: (tree.search key priority).2) :
    w = v ∨ w ∈ tree.waiters := by
  rw [← tree.search_append key priority]; simpa [or_left_comm] using hw

/-- The place that a search finds is the one of a new thread: it is behind its equals, which came before. -/
theorem pairwise_insert (thread : Nat) : ((tree.search key priority).1 ++
    ⟨thread, key, priority, tree.arrivals⟩ :: (tree.search key priority).2).Pairwise Before := by
  have hsorted := tree.sorted
  rw [← tree.search_append key priority, List.pairwise_append] at hsorted
  obtain ⟨hleft, hright, hboth⟩ := hsorted
  refine List.pairwise_append.2 ⟨hleft, List.pairwise_cons.2 ⟨fun w hw => ?_, hright⟩, fun v hv w hw => ?_⟩
  · rw [search_snd, List.mem_filter, decide_eq_true_eq, compare_lt_iff] at hw
    exact hw.2.imp id fun h => ⟨h.1, Or.inl h.2⟩
  · rcases List.mem_cons.1 hw with rfl | hw
    · rw [search_fst, List.mem_filter, Bool.not_eq_true', decide_eq_false_iff_not, compare_lt_iff] at hv
      have harrival := tree.arrival_lt v hv.1
      rw [Before, Earlier]
      simp only [BitVec.lt_def, BitVec.toNat_eq] at hv ⊢
      omega
    · exact hboth v hv w hw

end Search

def empty : ThreadTree := ⟨[], 0, .nil, nofun, nofun⟩

/-- `m_tree.insert(*cur_thread)`, after `SetAddressArbiter`. -/
def insert (tree : ThreadTree) (thread : Nat) (key : BitVec 64) (priority : Int) (h : 0 ≤ priority) :
    ThreadTree where
  waiters := (tree.search key priority).1 ++
    ⟨thread, key, priority, tree.arrivals⟩ :: (tree.search key priority).2
  arrivals := tree.arrivals + 1
  sorted := tree.pairwise_insert thread
  arrival_lt w hw := by
    rcases tree.mem_of_insert hw with rfl | hw
    · exact Nat.lt_succ_self _
    · exact Nat.lt_succ_of_lt (tree.arrival_lt w hw)
  priority_nonneg w hw := by
    rcases tree.mem_of_insert hw with rfl | hw
    · exact h
    · exact tree.priority_nonneg w hw

/-- Four threads on two addresses, two of them with one priority. -/
def fourWaiters : ThreadTree :=
  (((empty.insert 1 0x100 44 (by decide)).insert 2 0x100 40 (by decide)).insert 3 0x100 44 (by decide)).insert
    4 0x80 50 (by decide)

example : fourWaiters.waiters.map (·.thread) = [4, 2, 1, 3] := by decide

end ThreadTree

/-! ## The program -/

/-- The results of the signalling calls. -/
inductive Result where
  | success
  | invalidCurrentMemory
  | invalidState
  deriving DecidableEq

structure State where
  tree : ThreadTree
  /-- User memory, by words. -/
  memory : BitVec 64 → BitVec 32
  /-- The threads whose wait was ended with `ResultSuccess`, in that order. -/
  woken : List Waiter

/-- `ReadFromUser`: whether it could, and the value. -/
def readFromUser (memory : BitVec 64 → BitVec 32) (addr : BitVec 64) : Bool × BitVec 32 :=
  (true, memory addr)

/-- `UpdateIfEqual`: whether it could, the value it read, and the memory.  A store fails when another
core has stored to the word since the load; `stores` are these stores. -/
def updateIfEqual (addr : BitVec 64) (value newValue : BitVec 32) :
    List (BitVec 32) → (BitVec 64 → BitVec 32) → Bool × BitVec 32 × (BitVec 64 → BitVec 32)
  | [], memory =>
      if memory addr = value then (true, memory addr, update memory addr newValue)
      else (true, memory addr, memory)
  | store :: stores, memory =>
      if memory addr = value then
        updateIfEqual addr value newValue stores (update memory addr store)
      else (true, memory addr, memory)

/-- `while ((it != m_tree.end()) && ...)` of all three calls: the threads it wakes, and those it
    leaves. -/
def signalLoop (addr : BitVec 64) (count : Int) : Int → List Waiter → List Waiter × List Waiter
  | _, [] => ([], [])
  | numWaiters, w :: it =>
      if (count ≤ 0 ∨ numWaiters < count) ∧ w.addressArbiterKey = addr then
        (w :: (signalLoop addr count (numWaiters + 1) it).1,
            (signalLoop addr count (numWaiters + 1) it).2)
      else ([], w :: it)

theorem signalLoop_append (addr : BitVec 64) (count numWaiters : Int) (it : List Waiter) :
    (signalLoop addr count numWaiters it).1 ++ (signalLoop addr count numWaiters it).2 = it := by
  induction it generalizing numWaiters with
  | nil => rfl
  | cons w it ih =>
    rw [signalLoop]
    split
    · show w :: (_ ++ _) = _
      rw [ih]
    · rfl

/-- `while (++tmp_it != m_tree.end() && ...)`: the value of `tmp_num_waiters` after it. -/
def countLoop (addr : BitVec 64) (count : Int) : Int → List Waiter → Int
  | tmpNumWaiters, [] => tmpNumWaiters
  | tmpNumWaiters, w :: it =>
      if w.addressArbiterKey = addr then
        if tmpNumWaiters ≥ count then tmpNumWaiters + 1 else countLoop addr count (tmpNumWaiters + 1) it
      else tmpNumWaiters

/-- `it != m_tree.end() && it->GetAddressArbiterKey() == addr` -/
def isAt (addr : BitVec 64) (it : List Waiter) : Bool :=
  it.head?.any fun w => decide (w.addressArbiterKey = addr)

/-- `Determine the updated value.` -/
def updatedValue (addr : BitVec 64) (value : BitVec 32) (count : Int) (it : List Waiter) : BitVec 32 :=
  if count ≤ 0 then
    if isAt addr it then value - 2 else value + 1
  else if isAt addr it then
    if countLoop addr count 0 it.tail < count then value - 1 else value
  else value + 1

namespace State

/-- The loop over the threads from `nfind_key({addr, -1})` on. -/
def wake (s : State) (addr : BitVec 64) (count : Int) : State :=
  let found := s.tree.search addr (-1)
  { s with
    tree := s.tree.keep (found.1 ++ (signalLoop addr count 0 found.2).2) (by
      have hsub : (signalLoop addr count 0 found.2).2.Sublist found.2 := by
        nth_rewrite 2 [← signalLoop_append addr count 0 found.2]
        exact List.sublist_append_right _ _
      have happend := (List.Sublist.refl found.1).append hsub
      rwa [s.tree.search_append] at happend)
    woken := s.woken ++ (signalLoop addr count 0 found.2).1 }

def signal (s : State) (addr : BitVec 64) (count : Int) : Result × State :=
  (.success, s.wake addr count)

example : ((signal ⟨ThreadTree.fourWaiters, fun _ => 0, []⟩ 0x100 2).2.woken.map (·.thread)) = [2, 1] := by
  decide

def signalAndIncrementIfEqual (s : State) (addr : BitVec 64) (value : BitVec 32) (count : Int)
    (stores : List (BitVec 32)) : Result × State :=
  let (updated, userValue, memory) := updateIfEqual addr value (value + 1) stores s.memory
  let s := { s with memory := memory }
  if ¬ updated then (.invalidCurrentMemory, s)
  else if userValue ≠ value then (.invalidState, s)
  else (.success, s.wake addr count)

def signalAndModifyByWaitingCountIfEqual (s : State) (addr : BitVec 64) (value : BitVec 32) (count : Int)
    (stores : List (BitVec 32)) : Result × State :=
  let it := (s.tree.search addr (-1)).2
  let newValue := updatedValue addr value count it
  let (succeeded, userValue, memory) :=
    if value ≠ newValue then updateIfEqual addr value newValue stores s.memory
    else ((readFromUser s.memory addr).1, (readFromUser s.memory addr).2, s.memory)
  let s := { s with memory := memory }
  if ¬ succeeded then (.invalidCurrentMemory, s)
  else if userValue ≠ value then (.invalidState, s)
  else (.success, s.wake addr count)

end State

/-! ## Specification -/

/-- The threads that wait on an address. -/
def waitersOn (tree : ThreadTree) (addr : BitVec 64) : List Waiter :=
  tree.waiters.filter fun w => decide (w.addressArbiterKey = addr)

/-- How many of `n` waiters are to be woken. -/
def wakeCount (count : Int) (n : Nat) : Nat := if count ≤ 0 then n else min n count.toNat

/-- From one tree to the other, the threads `woken` were woken: as many as there should be, the first
ones of those that wait on the address. -/
structure Wakes (tree tree' : ThreadTree) (woken : List Waiter) (addr : BitVec 64) (count : Int) :
    Prop where
  waited : ∀ w ∈ woken, w ∈ waitersOn tree addr
  length : woken.length = wakeCount count (waitersOn tree addr).length
  ordered : woken.Pairwise Earlier
  first : ∀ w ∈ woken, ∀ v ∈ waitersOn tree addr, v ∉ woken → Earlier w v
  rest : tree'.waiters = tree.waiters.filter fun w => decide (w ∉ woken)

/-- The word that the last load reads, if other cores store to it while it is `value`. -/
def wordSeen (value : BitVec 32) : List (BitVec 32) → BitVec 32 → BitVec 32
  | [], word => word
  | store :: stores, word => if word = value then wordSeen value stores store else word

/-- What a call does if the word it sees is `value`: it writes `newValue` and wakes threads.  If the
word is not `value` the call changes nothing; the word is as the other cores have left it. -/
structure IfEqual (s : State) (r : Result × State) (addr : BitVec 64) (value newValue seen : BitVec 32)
    (count : Int) : Prop where
  equal : seen = value → r.1 = .success ∧ r.2.memory = update s.memory addr newValue ∧
    ∃ woken, r.2.woken = s.woken ++ woken ∧ Wakes s.tree r.2.tree woken addr count
  differs : seen ≠ value → r.1 = .invalidState ∧ r.2.memory = update s.memory addr seen ∧
    r.2.woken = s.woken ∧ r.2.tree = s.tree

/-- The new value for `n` waiters. -/
def valueByWaiters (value : BitVec 32) (count : Int) (n : Nat) : BitVec 32 :=
  if n = 0 then value + 1
  else if count ≤ 0 then value - 2
  else if n ≤ count then value - 1
  else value

/-! ## What the loops do -/

section Loops

variable {addr : BitVec 64} {value : BitVec 32} {count : Int} {it : List Waiter} {v w : Waiter}

/-- The waiters of the address at the front of the rest of the tree. -/
def front (addr : BitVec 64) (it : List Waiter) : List Waiter :=
  it.takeWhile fun w => decide (w.addressArbiterKey = addr)

theorem front_cons_of_eq (h : w.addressArbiterKey = addr) : front addr (w :: it) = w :: front addr it :=
  List.takeWhile_cons_of_pos (decide_eq_true h)

theorem front_cons_of_ne (h : w.addressArbiterKey ≠ addr) : front addr (w :: it) = [] :=
  List.takeWhile_cons_of_neg fun he => h (of_decide_eq_true he)

theorem signalLoop_fst (numWaiters : Int) : (signalLoop addr count numWaiters it).1 =
    if count ≤ 0 then front addr it else (front addr it).take (count - numWaiters).toNat := by
  induction it generalizing numWaiters with
  | nil => simp [signalLoop, front]
  | cons w it ih =>
    rw [signalLoop]
    by_cases hkey : w.addressArbiterKey = addr
    · rw [front_cons_of_eq hkey]
      by_cases hcount : count ≤ 0
      · rw [if_pos ⟨Or.inl hcount, hkey⟩, ih, if_pos hcount, if_pos hcount]
      · by_cases hmore : numWaiters < count
        · have hsucc : (count - numWaiters).toNat = (count - (numWaiters + 1)).toNat + 1 := by omega
          rw [if_pos ⟨Or.inr hmore, hkey⟩, ih, if_neg hcount, if_neg hcount, hsucc, List.take_succ_cons]
        · have hzero : (count - numWaiters).toNat = 0 := by omega
          rw [if_neg (by tauto), if_neg hcount, hzero, List.take_zero]
    · rw [front_cons_of_ne hkey, if_neg fun h => hkey h.2]; simp

theorem countLoop_lt_iff (tmpNumWaiters : Int) :
    countLoop addr count tmpNumWaiters it < count ↔ tmpNumWaiters + (front addr it).length < count := by
  induction it generalizing tmpNumWaiters with
  | nil => simp [countLoop, front]
  | cons w it ih =>
    rw [countLoop]
    by_cases hkey : w.addressArbiterKey = addr
    · rw [if_pos hkey, front_cons_of_eq hkey, List.length_cons]
      by_cases hge : tmpNumWaiters ≥ count
      · rw [if_pos hge]
        omega
      · rw [if_neg hge, ih]; omega
    · rw [if_neg hkey, front_cons_of_ne hkey]; simp

theorem isAt_iff : isAt addr it = true ↔ front addr it ≠ [] := by
  cases it with
  | nil => simp [isAt, front]
  | cons w it =>
    by_cases hkey : w.addressArbiterKey = addr
    · rw [front_cons_of_eq hkey]
      simp [isAt, hkey]
    · rw [front_cons_of_ne hkey]; simp [isAt, hkey]

theorem updatedValue_eq :
    updatedValue addr value count it = valueByWaiters value count (front addr it).length := by
  rw [updatedValue, valueByWaiters]
  by_cases hat : isAt addr it = true
  · have hne := isAt_iff.1 hat
    have hpos : ¬ (front addr it).length = 0 := fun h => hne (List.length_eq_zero_iff.1 h)
    rw [if_pos hat, if_pos hat, if_neg hpos]
    by_cases hcount : count ≤ 0
    · rw [if_pos hcount, if_pos hcount]
    · -- the first waiter is not counted: the loop begins behind it
      have htail : (front addr it).length = (front addr it.tail).length + 1 := by
        cases it with
        | nil => exact absurd rfl hpos
        | cons w it =>
          by_cases hkey : w.addressArbiterKey = addr
          · rw [front_cons_of_eq hkey]
            rfl
          · exact absurd (front_cons_of_ne hkey) hne
      have hiff : countLoop addr count 0 it.tail < count ↔ ((front addr it).length : Int) ≤ count := by
        rw [countLoop_lt_iff, htail]; omega
      rw [if_neg hcount, if_neg hcount]; simp only [hiff]
  · have hnil : front addr it = [] := by
      by_contra hne
      exact hat (isAt_iff.2 hne)
    rw [if_neg hat, if_neg hat, hnil]; simp

end Loops

/-! ## Waking -/

section Waking

variable {addr : BitVec 64} {value newValue : BitVec 32} {count : Int} {w : Waiter}

theorem compare_neg_one_lt_iff (tree : ThreadTree) (hw : w ∈ tree.waiters) :
    compare addr (-1) w < 0 ↔ ¬ w.addressArbiterKey < addr := by
  have hnonneg := tree.priority_nonneg w hw
  rw [ThreadTree.compare_lt_iff]
  rw [BitVec.lt_def, BitVec.lt_def, BitVec.toNat_eq]
  omega

theorem front_search (tree : ThreadTree) :
    front addr (tree.search addr (-1)).2 = waitersOn tree addr := by
  have hge : ∀ w ∈ (tree.search addr (-1)).2, ¬ w.addressArbiterKey < addr := by
    intro w hw
    rw [ThreadTree.search_snd, List.mem_filter, decide_eq_true_eq] at hw
    exact (compare_neg_one_lt_iff tree hw.1).1 hw.2
  have hlt : ∀ w ∈ (tree.search addr (-1)).1, w.addressArbiterKey ≠ addr := by
    intro w hw heq
    rw [ThreadTree.search_fst, List.mem_filter, Bool.not_eq_true', decide_eq_false_iff_not] at hw
    exact hw.2 ((compare_neg_one_lt_iff tree hw.1).2 (by rw [heq]; exact BitVec.lt_irrefl _))
  have hsorted := tree.sorted
  rw [← tree.search_append addr (-1), List.pairwise_append] at hsorted
  have hfront : front addr (tree.search addr (-1)).2 =
      (tree.search addr (-1)).2.filter fun w => decide (w.addressArbiterKey = addr) := by
    refine Lib.ChangePoints.takeWhile_eq_filter (hsorted.2.1.imp_of_mem fun {v w} hv _ hb hw => ?_)
    have hvge := hge v hv
    rw [decide_eq_true_eq] at hw ⊢
    rcases hb with hb | ⟨heq, _⟩
    · exact absurd (hw ▸ hb) hvge
    · exact heq.trans hw
  have hnone : (tree.search addr (-1)).1.filter (fun w => decide (w.addressArbiterKey = addr)) = [] := by
    refine List.filter_eq_nil_iff.2 fun w hw heq => ?_
    exact hlt w hw (of_decide_eq_true heq)
  rw [hfront, waitersOn, ← tree.search_append addr (-1), List.filter_append, hnone, List.nil_append]

theorem earlier_of_before {v w : Waiter} (h : Before v w)
    (hkey : v.addressArbiterKey = w.addressArbiterKey) : Earlier v w := by
  rcases h with h | h
  · rw [hkey] at h
    exact absurd h (BitVec.lt_irrefl _)
  · exact h.2

theorem pairwise_waitersOn (addr : BitVec 64) (tree : ThreadTree) :
    (waitersOn tree addr).Pairwise Earlier := by
  refine (tree.sorted.filter _).imp_of_mem fun {v w} hv hw hb => ?_
  have hv' := of_decide_eq_true (List.mem_filter.1 hv).2
  have hw' := of_decide_eq_true (List.mem_filter.1 hw).2
  exact earlier_of_before hb (hv'.trans hw'.symm)

theorem nodup_waiters (tree : ThreadTree) : tree.waiters.Nodup := by
  refine tree.sorted.imp fun {v w} hb heq => ?_
  subst heq
  rcases hb with hb | ⟨_, hb | ⟨_, hb⟩⟩
  · exact BitVec.lt_irrefl _ hb
  · exact lt_irrefl _ hb
  · exact lt_irrefl _ hb

theorem filter_notMem_middle {l₁ l₂ l₃ : List Waiter} (h : (l₁ ++ (l₂ ++ l₃)).Nodup) :
    ((l₁ ++ (l₂ ++ l₃)).filter fun w => decide (w ∉ l₂)) = l₁ ++ l₃ := by
  obtain ⟨_, h₂₃, hdisj⟩ := List.nodup_append'.1 h
  have hdisj₂ := (List.nodup_append'.1 h₂₃).2.2
  rw [List.filter_append, List.filter_append]
  have h₁ : (l₁.filter fun w => decide (w ∉ l₂)) = l₁ := by
    refine List.filter_eq_self.2 fun w hw => decide_eq_true fun hw₂ => ?_
    exact hdisj hw (List.mem_append_left _ hw₂)
  have h₂ : (l₂.filter fun w => decide (w ∉ l₂)) = [] := by
    refine List.filter_eq_nil_iff.2 fun w hw hn => ?_
    exact of_decide_eq_true hn hw
  have h₃ : (l₃.filter fun w => decide (w ∉ l₂)) = l₃ := by
    refine List.filter_eq_self.2 fun w hw => decide_eq_true fun hw₂ => ?_
    exact hdisj₂ hw₂ hw
  rw [h₁, h₂, h₃, List.nil_append]

theorem signalLoop_search (addr : BitVec 64) (count : Int) (tree : ThreadTree) :
    (signalLoop addr count 0 (tree.search addr (-1)).2).1
    = (waitersOn tree addr).take (wakeCount count (waitersOn tree addr).length) := by
  rw [signalLoop_fst, front_search, wakeCount]
  split
  · exact (List.take_length).symm
  · rw [Int.sub_zero, List.take_eq_take_iff]; omega

theorem wakeCount_le (count : Int) (n : Nat) : wakeCount count n ≤ n := by
  rw [wakeCount]
  split
  · exact le_refl n
  · exact min_le_left _ _

/-- THE LOOP wakes whom it should. -/
theorem wakes_wake (addr : BitVec 64) (count : Int) (s : State) :
    ∃ woken, (s.wake addr count).woken = s.woken ++ woken ∧
      Wakes s.tree (s.wake addr count).tree woken addr count := by
  refine ⟨(signalLoop addr count 0 (s.tree.search addr (-1)).2).1, rfl, ?_⟩
  have hparts : s.tree.waiters = (s.tree.search addr (-1)).1 ++
      ((signalLoop addr count 0 (s.tree.search addr (-1)).2).1 ++
        (signalLoop addr count 0 (s.tree.search addr (-1)).2).2) := by
    rw [signalLoop_append, s.tree.search_append]
  have hrest : (s.wake addr count).tree.waiters = s.tree.waiters.filter fun w =>
      decide (w ∉ (signalLoop addr count 0 (s.tree.search addr (-1)).2).1) := by
    have hnodup := nodup_waiters s.tree
    rw [hparts] at hnodup ⊢
    rw [filter_notMem_middle hnodup]; rfl
  rw [signalLoop_search] at hrest ⊢
  have hsplit := pairwise_waitersOn addr s.tree
  rw [← List.take_append_drop (wakeCount count (waitersOn s.tree addr).length) (waitersOn s.tree addr),
    List.pairwise_append] at hsplit
  obtain ⟨hordered, _, hfirst⟩ := hsplit
  refine ⟨fun w hw => List.mem_of_mem_take hw, ?_, hordered, ?_, hrest⟩
  · rw [List.length_take]
    exact min_eq_left (wakeCount_le _ _)
  · intro w hw v hv hnot
    refine hfirst w hw v ?_
    rw [← List.take_append_drop (wakeCount count (waitersOn s.tree addr).length)
        (waitersOn s.tree addr)] at hv
    exact (List.mem_append.1 hv).resolve_left hnot

theorem updateIfEqual_eq (stores : List (BitVec 32)) (memory : BitVec 64 → BitVec 32) :
    updateIfEqual addr value newValue stores memory =
      (true, wordSeen value stores (memory addr), update memory addr
        (if wordSeen value stores (memory addr) = value then newValue
            else wordSeen value stores (memory addr))) := by
  induction stores generalizing memory with
  | nil =>
    rw [updateIfEqual, wordSeen]
    split
    · rfl
    · rw [update_eq_self]
  | cons store stores ih =>
    rw [updateIfEqual, wordSeen]
    by_cases heq : memory addr = value
    · rw [if_pos heq, if_pos heq, ih, update_self, update_idem]
    · rw [if_neg heq, if_neg heq, if_neg heq, update_eq_self]

theorem ifEqual_of_read (s : State) (addr : BitVec 64) (value newValue seen : BitVec 32)
    (count : Int) {r : Result × State} (hr : r = if seen ≠ value then
        (.invalidState, { s with memory := update s.memory addr seen })
      else (.success, { s with memory := update s.memory addr newValue }.wake addr count)) :
    IfEqual s r addr value newValue seen count := by
  subst hr
  constructor
  · intro heq
    rw [if_neg fun h => h heq]
    exact ⟨rfl, rfl, wakes_wake addr count { s with memory := update s.memory addr newValue }⟩
  · intro hne
    rw [if_pos hne]; exact ⟨rfl, rfl, rfl, rfl⟩

end Waking

/-! ## Result -/

/-- FOR EVERY TREE, ADDRESS, VALUE AND COUNT the three calls wake the first threads that wait on the
address, the latter two only if the word they see is `value`, and write the word as they should. -/
theorem addressArbiter_signals (s : State) (addr : BitVec 64) (value : BitVec 32) (count : Int)
    (stores : List (BitVec 32)) :
    ((s.signal addr count).1 = .success ∧ (s.signal addr count).2.memory = s.memory ∧
      ∃ woken, (s.signal addr count).2.woken = s.woken ++ woken ∧
        Wakes s.tree (s.signal addr count).2.tree woken addr count) ∧
    IfEqual s (s.signalAndIncrementIfEqual addr value count stores) addr value (value + 1)
      (wordSeen value stores (s.memory addr)) count ∧
    IfEqual s (s.signalAndModifyByWaitingCountIfEqual addr value count stores) addr value
      (valueByWaiters value count (waitersOn s.tree addr).length)
      (if valueByWaiters value count (waitersOn s.tree addr).length = value then s.memory addr
        else wordSeen value stores (s.memory addr)) count := by
  refine ⟨⟨rfl, rfl, wakes_wake addr count s⟩, ?_, ?_⟩
  · refine ifEqual_of_read s addr value _ _ count ?_
    rw [State.signalAndIncrementIfEqual, updateIfEqual_eq]
    by_cases hseen : wordSeen value stores (s.memory addr) = value
    · simp [hseen]
    · simp [hseen]
  · refine ifEqual_of_read s addr value _ _ count ?_
    rw [State.signalAndModifyByWaitingCountIfEqual, updatedValue_eq, front_search]
    generalize valueByWaiters value count (waitersOn s.tree addr).length = newValue
    by_cases hnew : newValue = value
    · -- the word is read only
      subst hnew
      by_cases hseen : s.memory addr = newValue
      · have hsame : update s.memory addr newValue = s.memory :=
          update_eq_self_iff.2 hseen.symm
        simp [readFromUser, hseen, hsame]
      · simp [readFromUser, hseen]
    · by_cases hseen : wordSeen value stores (s.memory addr) = value
      · simp [updateIfEqual_eq, hnew, Ne.symm hnew, hseen]
      · simp [updateIfEqual_eq, hnew, Ne.symm hnew, hseen]

end Suyu.Kernel.KAddressArbiter
