/-
  `PinHandle`'s allocation LOOP (`nvdrv/core/nvmap.cpp`): `while ((address = smmu.Allocate(aligned_up))
  == 0)`, which is meant to free the ranges of unpinned handles until there is room.

  1. **Program** - `pinStep` is one test of the loop and, when `Allocate` gives zero, its body;
     `pinLoop` is any number of them.  The allocator is in the state now: an unmapped handle gives
     its range back to it.
  2. **Specification** - `Progress`: if freeing the ranges of some prefix of the queue makes
     `Allocate` succeed, the loop ends with such an address, and up to there each turn takes the
     front of the queue and unmaps it; and the front of an empty queue is never read.
  3. **The crux** - `Taken`: after `j` failed turns the first `j` handles are unmapped, the rest of
     the queue is as it was, and the allocator has exactly their ranges back, because an `Allocate`
     that fails changes nothing.
  4. **When it goes wrong** - the body asks for the address of the handle that is being PINNED, not
     of the one it would unmap.  That handle is not mapped yet, so the body does nothing and the
     loop never ends; were it mapped, nothing would stop the loop at the end of the queue.
  5. **Result** - `pinLoop_progress_iff`: the exact condition.
-/
import Mathlib
import Suyu.Common.AllocatorFailure
import Suyu.Nvdrv.NvMap

namespace Suyu.Nvdrv

open Function (update update_idem update_eq_self update_self update_of_ne)

open Suyu.Common

/-! ## The allocator -/

/-- `Allocate` and `Free` of the device memory manager.  A failed `Allocate` changes nothing. -/
structure Smmu (σ : Type) where
  allocate : σ → Nat → Nat × σ
  free : σ → Nat → Nat → σ
  allocate_zero : ∀ a size, (allocate a size).1 = 0 → (allocate a size).2 = a

/-- A device address space: an allocator that any calls can leave. -/
abbrev DeviceArea := { a : FlatAllocator // a.UnmappedPositive }

namespace DeviceArea

/-- `DeviceMemoryManager::Allocate`; nothing is said of an iterator that leaves the vector. -/
def allocate (a : DeviceArea) (size : Nat) : Nat × DeviceArea :=
  match h : a.1.allocate 64 size with
  | some (address, a') => (address, ⟨a', a.2.allocate h⟩)
  | none => (0, a)

def free (a : DeviceArea) (start size : Nat) : DeviceArea :=
  match h : a.1.free start size with
  | some a' => ⟨a', a.2.free h⟩
  | none => a

theorem allocate_zero (a : DeviceArea) (size : Nat) (h : (a.allocate size).1 = 0) :
    (a.allocate size).2 = a := by
  unfold allocate at h ⊢
  split
  · next address a' hsome =>
    have haddress : address = 0 := by
      split at h
      · next hsome' =>
        rw [hsome] at hsome'
        cases hsome'
        exact h
      · next hnone =>
        rw [hsome] at hnone; cases hnone
    subst haddress
    exact Subtype.ext (a.2.eq_of_allocate_zero hsome)
  · rfl

end DeviceArea

/-- The allocator `PinHandle` uses. -/
def deviceSmmu : Smmu DeviceArea := ⟨DeviceArea.allocate, DeviceArea.free, DeviceArea.allocate_zero⟩

/-! ## The loop -/

/-- What the loop reads and writes. -/
structure PinState (σ : Type) where
  map : NvMap
  area : σ

/-- How far the loop has got. -/
inductive PinEnd (σ : Type) where
  | allocated (address : Nat) (s : PinState σ)
  | emptyFront
  | running (s : PinState σ)

section Loop

variable {σ : Type} (ops : Smmu σ)

/-- The range that `UnmapHandle` gives back: a handle in the heap has none of its own. -/
def freeRange (h : Handle) (area : σ) : σ :=
  if h.inHeap then area else ops.free area h.dAddress (alignUp h.alignedSize bigPageSize)

/-- `UnmapHandle`, with its `smmu.Free`. -/
def PinState.unmapHandle (s : PinState σ) (o : Nat) : PinState σ :=
  ⟨s.map.unmapHandle o, freeRange ops (s.map.objects o) s.area⟩

/-- One test of the loop, and its body: the object that is being pinned is `o`. -/
def pinStep (o alignedUp : Nat) (s : PinState σ) : PinEnd σ :=
  let (address, area) := ops.allocate s.area alignedUp
  let s := { s with area := area }
  if address ≠ 0 then .allocated address s
  else match s.map.unmapQueue with
    | [] => .emptyFront
    | (_, front) :: _ =>
        .running (if (s.map.objects o).dAddress ≠ 0 then s.unmapHandle ops front else s)

/-- The loop after this many tests of its condition, if it gets that far. -/
def pinLoop (o alignedUp : Nat) (s : PinState σ) : Nat → PinEnd σ
  | 0 => .running s
  | n + 1 =>
      match pinLoop o alignedUp s n with
      | .running s' => pinStep ops o alignedUp s'
      | ended => ended

/-! ## Specification -/

/-- The unmap queue of a state in which the loop starts: each handle in it knows its entry, is
    mapped and not pinned, and the handle that is being pinned is not in it. -/
structure Waiting (s : NvMap) (o : Nat) : Prop where
  entry : ∀ e ∈ s.unmapQueue, (s.objects e.2).unmapQueueEntry = some e.1
  nodup : (s.unmapQueue.map (·.1)).Nodup
  unpinned : ∀ e ∈ s.unmapQueue, (s.objects e.2).pins = 0
  mapped : ∀ e ∈ s.unmapQueue, (s.objects e.2).dAddress ≠ 0
  apart : ∀ e ∈ s.unmapQueue, e.2 ≠ o

/-- The allocator when the ranges of the first `k` handles of the queue are given back. -/
def freedPrefix (s : PinState σ) (k : Nat) : σ :=
  (s.map.unmapQueue.take k).foldl (fun area e => freeRange ops (s.map.objects e.2) area) s.area

/-- Freeing the first `k` ranges makes `Allocate` succeed. -/
def Succeeds (s : PinState σ) (alignedUp k : Nat) : Prop :=
  (ops.allocate (freedPrefix ops s k) alignedUp).1 ≠ 0

/-- What `UnmapHandle` leaves of a handle of the queue. -/
def Handle.unmapped (h : Handle) : Handle :=
  { h with unmapQueueEntry := none, pinVirtAddress := 0, dAddress := 0, inHeap := false }

/-- The first `j` handles of the queue are removed and unmapped, and nothing else is. -/
structure Taken (s s' : PinState σ) (j : Nat) : Prop where
  queue : s'.map.unmapQueue = s.map.unmapQueue.drop j
  area : s'.area = freedPrefix ops s j
  taken : ∀ e ∈ s.map.unmapQueue.take j, s'.map.objects e.2 = (s.map.objects e.2).unmapped
  others : ∀ p, (∀ e ∈ s.map.unmapQueue.take j, e.2 ≠ p) → s'.map.objects p = s.map.objects p

/-- The loop makes progress. -/
structure Progress (s : PinState σ) (o alignedUp : Nat) : Prop where
  ends : ∀ k ≤ s.map.unmapQueue.length, Succeeds ops s alignedUp k →
    ∃ j ≤ k, (∀ i ≤ j, ∃ t, pinLoop ops o alignedUp s i = .running t ∧ Taken ops s t i) ∧
      ∃ address t, pinLoop ops o alignedUp s (j + 1) = .allocated address t ∧ address ≠ 0 ∧
        address = (ops.allocate (freedPrefix ops s j) alignedUp).1
  front : ∀ n, pinLoop ops o alignedUp s n ≠ .emptyFront

/-- The loop is right: the first `Allocate` succeeds; or the handle that is being pinned is mapped
    and some prefix is enough; or it is not mapped, the queue has a front and no prefix would do. -/
def LoopOk (s : PinState σ) (o alignedUp : Nat) : Prop :=
  Succeeds ops s alignedUp 0 ∨
    if (s.map.objects o).dAddress ≠ 0 then
      ∃ k ≤ s.map.unmapQueue.length, Succeeds ops s alignedUp k
    else
      s.map.unmapQueue ≠ [] ∧ ∀ k ≤ s.map.unmapQueue.length, ¬ Succeeds ops s alignedUp k

/-! ## Unmapping a handle -/

theorem unmapHandle_objects (s : NvMap) (o : Nat) :
    (s.unmapHandle o).objects = update s.objects o (s.objects o).unmapped := by
  have hdrop : (s.dropQueueEntry o).objects =
      update s.objects o { s.objects o with unmapQueueEntry := none } := by
    unfold NvMap.dropQueueEntry
    split
    · next hnone =>
      rw [← hnone]
      exact (update_eq_self o s.objects).symm
    · rfl
  have hlow : ((s.dropQueueEntry o).unmapLowArea o).objects = update s.objects o
      { s.objects o with unmapQueueEntry := none, pinVirtAddress := 0 } := by
    unfold NvMap.unmapLowArea
    simp only [hdrop, update_self]
    split
    · next hpin => rw [hdrop, ← hpin]
    · simp [NvMap.modify, NvMap.write, hdrop]
  unfold NvMap.unmapHandle NvMap.unmapDevice
  simp only [hlow, update_self]
  split
  · simp only [NvMap.modify, NvMap.write, hlow, update_self, update_idem]
    rfl
  · next hheap =>
    have hfalse : (s.objects o).inHeap = false := by simpa using hheap
    simp only [NvMap.modify, NvMap.write, hlow, update_self, update_idem]
    unfold Handle.unmapped
    rw [← hfalse]

theorem unmapHandle_unmapQueue {s : NvMap} {o n : Nat}
    (h : (s.objects o).unmapQueueEntry = some n) :
    (s.unmapHandle o).unmapQueue = s.unmapQueue.filter fun e => e.1 ≠ n := by
  have hdrop : (s.dropQueueEntry o).unmapQueue = s.unmapQueue.filter fun e => e.1 ≠ n := by
    unfold NvMap.dropQueueEntry
    rw [h]; rfl
  have hlow : ((s.dropQueueEntry o).unmapLowArea o).unmapQueue = (s.dropQueueEntry o).unmapQueue := by
    unfold NvMap.unmapLowArea
    dsimp only
    split <;> rfl
  rw [← hdrop, ← hlow]
  unfold NvMap.unmapHandle NvMap.unmapDevice
  dsimp only
  split <;> rfl

theorem filter_front {e : Nat × Nat} {rest : List (Nat × Nat)}
    (h : ((e :: rest).map (·.1)).Nodup) : (e :: rest).filter (fun e' => e'.1 ≠ e.1) = rest := by
  rw [List.map_cons, List.nodup_cons] at h
  rw [List.filter_cons_of_neg (by simp), List.filter_eq_self]
  intro e' he'
  have hne : e'.1 ≠ e.1 := fun heq => h.1 (heq ▸ List.mem_map_of_mem he')
  simpa using hne

theorem Waiting.eq_of_object {s : NvMap} {o : Nat} (h : Waiting s o) {e e' : Nat × Nat}
    (he : e ∈ s.unmapQueue) (he' : e' ∈ s.unmapQueue) (heq : e.2 = e'.2) : e = e' := by
  have hnum : some e.1 = some e'.1 := by
    rw [← h.entry e he, ← h.entry e' he', heq]
  exact Prod.ext (Option.some.inj hnum) heq

/-! ## Taking the queue's front -/

section Turns

variable {ops} {s t : PinState σ} {o alignedUp j : Nat}

theorem taken_refl : Taken ops s s 0 where
  queue := rfl
  area := rfl
  taken _ he := absurd he List.not_mem_nil
  others _ _ := rfl

theorem Taken.pinned (h : Taken ops s t j) (hw : Waiting s.map o) :
    t.map.objects o = s.map.objects o := by
  apply h.others
  intro e he
  exact hw.apart e (List.mem_of_mem_take he)

theorem Taken.next (h : Taken ops s t j) (hw : Waiting s.map o) {e : Nat × Nat}
    {rest : List (Nat × Nat)} (hq : t.map.unmapQueue = e :: rest) :
    Taken ops s (t.unmapHandle ops e.2) (j + 1) := by
  have hdrop : s.map.unmapQueue.drop j = e :: rest := h.queue.symm.trans hq
  have hj : j < s.map.unmapQueue.length := by
    by_contra hge
    rw [List.drop_eq_nil_of_le (Nat.le_of_not_lt hge)] at hdrop; cases hdrop
  have hget : s.map.unmapQueue[j]? = some e := by
    rw [← List.head?_drop, hdrop]; rfl
  have htake : s.map.unmapQueue.take (j + 1) = s.map.unmapQueue.take j ++ [e] := by
    rw [List.take_add_one, hget]; rfl
  have hnodup : (s.map.unmapQueue.map (·.1)).Nodup := hw.nodup
  have he : e ∈ s.map.unmapQueue := List.mem_of_getElem? hget
  -- no earlier entry is of this handle
  have hearlier : ∀ e' ∈ s.map.unmapQueue.take j, e'.2 ≠ e.2 := by
    intro e' he' heq
    have : e' = e := hw.eq_of_object (List.mem_of_mem_take he') he heq
    subst this
    rw [← List.take_append_drop j s.map.unmapQueue, List.map_append, hdrop] at hnodup
    exact List.disjoint_of_nodup_append hnodup (List.mem_map_of_mem he')
      (List.mem_map_of_mem List.mem_cons_self)
  have hobj : t.map.objects e.2 = s.map.objects e.2 := h.others e.2 hearlier
  have hentry : (t.map.objects e.2).unmapQueueEntry = some e.1 := by
    rw [hobj]; exact hw.entry e he
  refine ⟨?_, ?_, ?_, ?_⟩
  · show (t.map.unmapHandle e.2).unmapQueue = _
    have hrest : ((e :: rest).map (·.1)).Nodup := by
      rw [← hdrop]; exact hnodup.sublist ((List.drop_sublist j _).map _)
    rw [unmapHandle_unmapQueue hentry, hq, filter_front hrest, ← List.tail_drop, hdrop]
    rfl
  · show freeRange ops (t.map.objects e.2) t.area = _
    rw [hobj, h.area]
    unfold freedPrefix
    rw [htake, List.foldl_append]
    rfl
  · intro e' he'
    show (t.map.unmapHandle e.2).objects e'.2 = _
    rw [unmapHandle_objects, htake, List.mem_append, List.mem_singleton] at *
    rcases he' with he' | rfl
    · rw [update_of_ne (hearlier e' he')]
      exact h.taken e' he'
    · rw [update_self, hobj]
  · intro p hp
    show (t.map.unmapHandle e.2).objects p = _
    rw [htake] at hp
    have hne : p ≠ e.2 := fun heq => hp e (by simp) heq.symm
    rw [unmapHandle_objects, update_of_ne hne]
    exact h.others p fun e' he' => hp e' (List.mem_append_left _ he')

/-! ## One turn of the loop -/

theorem pinStep_of_ne_zero (h : (ops.allocate s.area alignedUp).1 ≠ 0) :
    pinStep ops o alignedUp s = .allocated (ops.allocate s.area alignedUp).1
      { s with area := (ops.allocate s.area alignedUp).2 } := by
  unfold pinStep; exact if_pos h

theorem pinStep_of_eq_zero (h : (ops.allocate s.area alignedUp).1 = 0) :
    pinStep ops o alignedUp s = match s.map.unmapQueue with
      | [] => .emptyFront
      | e :: _ =>
          .running (if (s.map.objects o).dAddress ≠ 0 then s.unmapHandle ops e.2 else s) := by
  have harea := ops.allocate_zero s.area alignedUp h
  unfold pinStep
  dsimp only
  rw [if_neg (not_not.2 h), harea]
  cases s.map.unmapQueue with
  | nil => rfl
  | cons e rest => rfl

theorem pinLoop_succ {n : Nat} (h : pinLoop ops o alignedUp s n = .running t) :
    pinLoop ops o alignedUp s (n + 1) = pinStep ops o alignedUp t := by
  rw [pinLoop, h]

theorem pinLoop_of_allocated {n : Nat} {address : Nat}
    (h : pinLoop ops o alignedUp s n = .allocated address t) :
    ∀ m, pinLoop ops o alignedUp s (n + m) = .allocated address t := by
  intro m
  induction m with
  | zero => exact h
  | succ m ih => rw [← Nat.add_assoc, pinLoop, ih]

/-- As long as `Allocate` fails, a loop for a MAPPED handle takes one front after the other. -/
theorem pinLoop_takes (hw : Waiting s.map o) (hd : (s.map.objects o).dAddress ≠ 0) :
    ∀ {j}, j ≤ s.map.unmapQueue.length → (∀ i < j, ¬ Succeeds ops s alignedUp i) →
      ∃ t, pinLoop ops o alignedUp s j = .running t ∧ Taken ops s t j := by
  intro j
  induction j with
  | zero => exact fun _ _ => ⟨s, rfl, taken_refl⟩
  | succ j ih =>
    intro hj hfail
    obtain ⟨t, hrun, ht⟩ := ih (by omega) fun i hi => hfail i (by omega)
    have hzero : (ops.allocate t.area alignedUp).1 = 0 := by
      rw [ht.area]; exact not_not.1 (hfail j (Nat.lt_succ_self j))
    have hqueue : t.map.unmapQueue ≠ [] := by
      rw [ht.queue]; exact List.ne_nil_of_length_pos (by rw [List.length_drop]; omega)
    obtain ⟨e, rest, hq⟩ := List.exists_cons_of_ne_nil hqueue
    have hmapped : (t.map.objects o).dAddress ≠ 0 := by
      rw [ht.pinned hw]; exact hd
    refine ⟨t.unmapHandle ops e.2, ?_, ht.next hw hq⟩
    rw [pinLoop_succ hrun, pinStep_of_eq_zero hzero, hq]
    dsimp only
    rw [if_pos hmapped]

theorem pinLoop_ends {n : Nat} (ht : Taken ops s t j) (hs : Succeeds ops s alignedUp j)
    (hrun : pinLoop ops o alignedUp s n = .running t) :
    ∃ address t', pinLoop ops o alignedUp s (n + 1) = .allocated address t' ∧ address ≠ 0 ∧
      address = (ops.allocate (freedPrefix ops s j) alignedUp).1 := by
  have hne : (ops.allocate t.area alignedUp).1 ≠ 0 := by
    rw [ht.area]; exact hs
  refine ⟨_, _, (pinLoop_succ hrun).trans (pinStep_of_ne_zero hne), hne, ?_⟩
  rw [ht.area]

theorem pinLoop_stands (hd : (s.map.objects o).dAddress = 0) (hfail : ¬ Succeeds ops s alignedUp 0)
    (hq : s.map.unmapQueue ≠ []) : ∀ n, pinLoop ops o alignedUp s n = .running s := by
  intro n
  induction n with
  | zero => rfl
  | succ n ih =>
    obtain ⟨e, rest, hq⟩ := List.exists_cons_of_ne_nil hq
    rw [pinLoop_succ ih, pinStep_of_eq_zero (not_not.1 hfail), hq]
    dsimp only
    rw [if_neg (not_not.2 hd)]

/-- Where some prefix is enough, the loop of a mapped handle ends behind the SHORTEST one. -/
theorem progress_of_least (hw : Waiting s.map o) (hmapped : 0 < j → (s.map.objects o).dAddress ≠ 0)
    (hj : j ≤ s.map.unmapQueue.length) (hs : Succeeds ops s alignedUp j)
    (hleast : ∀ i < j, ¬ Succeeds ops s alignedUp i) : Progress ops s o alignedUp := by
  have htakes : ∀ i ≤ j, ∃ t, pinLoop ops o alignedUp s i = .running t ∧ Taken ops s t i := by
    intro i hi
    rcases Nat.eq_zero_or_pos i with rfl | hpos
    · exact ⟨s, rfl, taken_refl⟩
    · have hd := hmapped (Nat.lt_of_lt_of_le hpos hi)
      exact pinLoop_takes hw hd (hi.trans hj) fun i' hi' => hleast i' (by omega)
  obtain ⟨t, hrun, ht⟩ := htakes j (Nat.le_refl j)
  have hends := pinLoop_ends ht hs hrun
  constructor
  · intro k _ hk
    have hjk : j ≤ k := by
      by_contra hlt
      exact hleast k (Nat.lt_of_not_le hlt) hk
    exact ⟨j, hjk, htakes, hends⟩
  · intro n hn
    obtain ⟨address, t', hend, -⟩ := hends
    rcases Nat.lt_or_ge j n with hlt | hge
    · obtain ⟨m, rfl⟩ := Nat.exists_eq_add_of_le hlt
      rw [pinLoop_of_allocated hend] at hn
      cases hn
    · obtain ⟨t, hrun, -⟩ := htakes n hge
      rw [hrun] at hn; cases hn

/-! ## The exact condition -/

theorem pinLoop_emptyFront (hfail : ¬ Succeeds ops s alignedUp j) (ht : Taken ops s t j)
    (hj : s.map.unmapQueue.length ≤ j) {n : Nat} (hrun : pinLoop ops o alignedUp s n = .running t) :
    pinLoop ops o alignedUp s (n + 1) = .emptyFront := by
  have hzero : (ops.allocate t.area alignedUp).1 = 0 := by
    rw [ht.area]; exact not_not.1 hfail
  rw [pinLoop_succ hrun, pinStep_of_eq_zero hzero, ht.queue, List.drop_eq_nil_of_le hj]

theorem loopOk_of_progress (hw : Waiting s.map o) (h : Progress ops s o alignedUp) :
    LoopOk ops s o alignedUp := by
  by_cases hfirst : Succeeds ops s alignedUp 0
  · exact Or.inl hfirst
  right
  split
  · next hd =>
    -- were no prefix enough, the loop would take the whole queue and go on
    by_contra hnone
    have hfail : ∀ k ≤ s.map.unmapQueue.length, ¬ Succeeds ops s alignedUp k :=
      fun k hk hs => hnone ⟨k, hk, hs⟩
    obtain ⟨t, hrun, ht⟩ := pinLoop_takes hw hd (Nat.le_refl _) fun i hi => hfail i (Nat.le_of_lt hi)
    exact h.front _ (pinLoop_emptyFront (hfail _ (Nat.le_refl _)) ht (Nat.le_refl _) hrun)
  · next hd =>
    have hd' : (s.map.objects o).dAddress = 0 := not_not.1 hd
    have hqueue : s.map.unmapQueue ≠ [] := by
      intro hnil; exact h.front 1 (pinLoop_emptyFront hfirst taken_refl (by simp [hnil]) rfl)
    refine ⟨hqueue, fun k hk hs => ?_⟩
    obtain ⟨j, -, -, address, t, hend, -⟩ := h.ends k hk hs
    rw [pinLoop_stands hd' hfirst hqueue] at hend; cases hend

theorem progress_of_loopOk (hw : Waiting s.map o) (h : LoopOk ops s o alignedUp) :
    Progress ops s o alignedUp := by
  by_cases hfirst : Succeeds ops s alignedUp 0
  · exact progress_of_least hw (fun h => absurd h (Nat.lt_irrefl 0)) (Nat.zero_le _) hfirst
      fun i hi => absurd hi (Nat.not_lt_zero i)
  have hrest := h.resolve_left hfirst
  split at hrest
  · next hd =>
    classical
    obtain ⟨k, hk, hs⟩ := hrest
    have hex : ∃ k, Succeeds ops s alignedUp k := ⟨k, hs⟩
    exact progress_of_least hw (fun _ => hd) ((Nat.find_min' hex hs).trans hk) (Nat.find_spec hex)
      fun i hi => Nat.find_min hex hi
  · next hd =>
    obtain ⟨hqueue, hnone⟩ := hrest
    constructor
    · exact fun k hk hs => absurd hs (hnone k hk)
    · intro n hn
      rw [pinLoop_stands (not_not.1 hd) hfirst hqueue] at hn; cases hn

end Turns

/-- The loop makes progress exactly when it is right. -/
theorem pinLoop_progress_iff (s : PinState σ) (o alignedUp : Nat) (hw : Waiting s.map o) :
    Progress ops s o alignedUp ↔ LoopOk ops s o alignedUp :=
  ⟨loopOk_of_progress hw, progress_of_loopOk hw⟩

end Loop

/-! ## A full device -/

/-- The device address space at the start: `first_address` is one page, of 34 bits. -/
def emptyArea : DeviceArea :=
  ⟨.init 0x1000 (2 ^ 34 - 1), FlatAllocator.unmappedPositive_init 0x1000 (2 ^ 34 - 1)⟩

/-- Four handles of almost 4 GiB fill it. -/
def fullArea : DeviceArea :=
  (List.replicate 4 0xFFFF0000).foldl (fun a size => (a.allocate size).2) emptyArea

/-- The second of the four waits in the queue, and a handle of 1 MiB is pinned. -/
def fullMap : NvMap where
  handles := [(4, 1), (8, 0)]
  objects := update (fun _ => { Handle.create 0x100000 8 with allocated := true }) 1
    { Handle.create 0xFFFF0000 4 with
      allocated := true, dAddress := 0xFFFF1000, unmapQueueEntry := some 0 }
  created := 2
  nextHandleId := 12
  unmapQueue := [(0, 1)]
  pushed := 1
  log := fun _ => []

theorem waiting_fullMap : Waiting fullMap 0 := by
  constructor <;> decide +kernel

/-- The first of the four is neither pinned nor in the queue, and is pinned again. -/
def mappedMap : NvMap :=
  { fullMap with
    objects := update fullMap.objects 0
      { Handle.create 0xFFFF0000 4 with allocated := true, dAddress := 0x1000 } }

theorem waiting_mappedMap : Waiting mappedMap 0 := by
  constructor <;> decide +kernel

/-- The loop of the MAPPED handle takes the front and ends; that of the other one, which asks for
    more than the front has, goes on and never reads the front of an empty queue. -/
theorem pinLoop_progress_iff_fullArea :
    Progress deviceSmmu ⟨mappedMap, fullArea⟩ 0 0xFFFF0000 ∧
      Progress deviceSmmu ⟨fullMap, fullArea⟩ 0 0x100000000 := by
  constructor
  · apply (pinLoop_progress_iff deviceSmmu _ 0 0xFFFF0000 waiting_mappedMap).2
    right
    rw [if_pos (by decide +kernel)]
    exact ⟨1, by decide +kernel, by unfold Succeeds; decide +kernel⟩
  · apply (pinLoop_progress_iff deviceSmmu _ 0 0x100000000 waiting_fullMap).2
    right
    rw [if_neg (by decide +kernel)]
    refine ⟨by decide +kernel, ?_⟩
    unfold Succeeds; decide +kernel

/-- In a full one the range of the queue's front would be enough, and the loop never ends. -/
theorem not_pinLoop_progress : ¬ ∀ (s : PinState DeviceArea) (o : Nat), Waiting s.map o →
    Progress deviceSmmu s o (alignUp (s.map.objects o).alignedSize bigPageSize) := by
  intro hall
  have hprogress : Progress deviceSmmu ⟨fullMap, fullArea⟩ 0 0x100000 :=
    hall ⟨fullMap, fullArea⟩ 0 waiting_fullMap
  have hfail : ¬ Succeeds deviceSmmu ⟨fullMap, fullArea⟩ 0x100000 0 := by
    unfold Succeeds; decide +kernel
  have hsucceeds : Succeeds deviceSmmu ⟨fullMap, fullArea⟩ 0x100000 1 := by
    unfold Succeeds; decide +kernel
  have hunmapped : (fullMap.objects 0).dAddress = 0 := by decide +kernel
  obtain ⟨j, -, -, address, t, hend, -⟩ := hprogress.ends 1 (Nat.le_refl 1) hsucceeds
  rw [pinLoop_stands hunmapped hfail (List.cons_ne_nil _ _)] at hend
  cases hend

end Suyu.Nvdrv
