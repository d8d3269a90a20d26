/-
  Priority inheritance over whole runs.

  1. **Handing a lock over** — `RemoveWaiterByKey` gives the lock, with the waiters that are left,
     to the highest waiter.  `handOver` is the state in between, before priorities are restored.
  2. **Runs** — `PiStep`: every operation with any number of rounds that is enough for it.  Waits
     may form circles, a thread may even wait for itself.
  3. **Result** — `PiSpec` after every step: priorities are inherited exactly, every waiter is in one
     tree, the kernel waiter counts are right; and every operation comes to an end.  The keys of the
     locks a thread holds stay distinct as long as no lock is handed to a thread that already holds
     one with the same key.
-/
import Suyu.Kernel.PriorityInheritance
import Mathlib.Order.Bounds.Basic

open Lib.MinPropagation

namespace Suyu.Kernel

open Function (update update_apply update_self update_of_ne)

namespace ThreadSystem

variable {T : Type} [DecidableEq T] [Fintype T] {s s' : ThreadSystem T} {o t next : T} {l : Nat}
  {rest : List T}

/-! ## Handing a lock over -/

/-- The lock `l` of `o`, with the waiters `next :: rest`, goes to `next` if `rest` needs it. -/
def handOver (s : ThreadSystem T) (l : Nat) (o next : T) (rest : List T) : ThreadSystem T :=
  let held := update s.heldLockInfoList o ((s.heldLockInfoList o).erase l)
  let num := if (s.lockInfo l).isKernelAddressKey then
    update s.numKernelWaiters o (s.numKernelWaiters o - (rest.length + 1))
    else s.numKernelWaiters
  { s with
    heldLockInfoList := if rest = [] then held else update held next (l :: held next)
    numKernelWaiters := if (s.lockInfo l).isKernelAddressKey then
      update num next (num next + rest.length) else num
    lockInfo := update s.lockInfo l
      { s.lockInfo l with
        owner := if rest = [] then (s.lockInfo l).owner else some next
        tree := rest
        waiterCount := rest.length }
    waitingLockInfo := update s.waitingLockInfo next none }

omit [Fintype T] in
theorem handOver_lockInfo_self : (s.handOver l o next rest).lockInfo l =
    { s.lockInfo l with
      owner := if rest = [] then (s.lockInfo l).owner else some next
      tree := rest
      waiterCount := rest.length } :=
  update_self _ _ _

omit [Fintype T] in
theorem handOver_lockInfo_of_ne {l' : Nat} (h : l' ≠ l) :
    (s.handOver l o next rest).lockInfo l' = s.lockInfo l' :=
  update_of_ne h _ _

omit [Fintype T] in
theorem handOver_waiting (w : T) : (s.handOver l o next rest).waitingLockInfo w =
    if w = next then none else s.waitingLockInfo w :=
  update_apply _ _ _ _

/-- What `RemoveWaiterByKey` finds: a lock of `o` with its waiters in order. -/
structure Handing (s : ThreadSystem T) (l : Nat) (o next : T) (rest : List T) : Prop where
  inv : LocksInv s
  held : l ∈ s.heldLockInfoList o
  tree : (s.lockInfo l).tree = next :: rest

namespace Handing

section

variable (h : Handing s l o next rest)
include h

theorem owner : (s.lockInfo l).owner = some o :=
  ((h.inv.held o l).1 h.held).1

theorem waiting_iff (w : T) : s.waitingLockInfo w = some l ↔ w = next ∨ w ∈ rest := by
  rw [h.inv.mem_tree, h.tree, List.mem_cons]

theorem nodup : next ∉ rest ∧ rest.Nodup := by
  have hnd := h.inv.nodup l
  rw [h.tree, List.nodup_cons] at hnd
  exact hnd

theorem sorted {w : T} (hw : w ∈ rest) : s.priority next ≤ s.priority w := by
  have hs := h.inv.sorted l
  rw [h.tree, List.pairwise_cons] at hs
  exact hs.1 w hw

theorem mem_held (o' : T) (l' : Nat) : l' ∈ (s.handOver l o next rest).heldLockInfoList o' ↔
      (l' = l ∧ o' = next ∧ rest ≠ []) ∨ (l' ≠ l ∧ l' ∈ s.heldLockInfoList o') := by
  have hl : l ∈ s.heldLockInfoList o' → o' = o := fun hm =>
    Option.some.inj (((h.inv.held o' l).1 hm).1.symm.trans h.owner)
  have hbase : l' ∈ update s.heldLockInfoList o ((s.heldLockInfoList o).erase l) o' ↔
      l' ≠ l ∧ l' ∈ s.heldLockInfoList o' := by
    by_cases ho : o' = o
    · subst ho
      rw [update_self, (h.inv.held_nodup o').mem_erase_iff]
    · rw [update_of_ne ho]
      refine ⟨fun hm => ⟨?_, hm⟩, And.right⟩
      rintro rfl; exact ho (hl hm)
  by_cases hr : rest = []
  · simp only [handOver, hr, ne_eq, not_true_eq_false, and_false, false_or]
    exact hbase
  · simp only [handOver, if_neg hr]
    by_cases ho : o' = next
    · subst ho
      rw [update_self, List.mem_cons, hbase]
      by_cases hll : l' = l
      · simp [hll, hr]
      · simp [hll]
    · rw [update_of_ne ho, hbase]; simp [ho]

theorem getLockOwner_handOver (w : T) : (s.handOver l o next rest).getLockOwner w =
      if w = next then none else if w ∈ rest then some next else s.getLockOwner w := by
  unfold getLockOwner
  rw [handOver_waiting]
  by_cases hw : w = next
  · simp [hw]
  · rw [if_neg hw, if_neg hw]
    by_cases hr : w ∈ rest
    · have hwl := (h.waiting_iff w).2 (.inr hr)
      have hne : rest ≠ [] := List.ne_nil_of_mem hr
      simp [hwl, handOver_lockInfo_self, hr, hne]
    · rw [if_neg hr]
      cases hl' : s.waitingLockInfo w with
      | none => rfl
      | some l' =>
        have hll : l' ≠ l := by
          rintro rfl
          rcases (h.waiting_iff w).1 hl' with h' | h'
          · exact hw h'
          · exact hr h'
        simp only [handOver_lockInfo_of_ne hll]

theorem getLockOwner_tree {w : T} (hw : w = next ∨ w ∈ rest) : s.getLockOwner w = some o :=
  getLockOwner_eq_some.2 ⟨l, (h.waiting_iff w).2 hw, h.owner⟩

theorem isKernel_tree {w : T} (hw : w = next ∨ w ∈ rest) :
    s.isKernelAddressKey w = (s.lockInfo l).isKernelAddressKey :=
  (h.inv.key w l ((h.waiting_iff w).2 hw)).2.symm

theorem card_kernelWaiters (hk : (s.lockInfo l).isKernelAddressKey = true) (o' : T) :
    ((Finset.univ.filter fun w => (s.handOver l o next rest).getLockOwner w = some o' ∧
        s.isKernelAddressKey w = true).card : Int) =
      (Finset.univ.filter fun w => s.getLockOwner w = some o' ∧
        s.isKernelAddressKey w = true).card -
        (if o' = o then rest.length + 1 else 0) + (if o' = next then rest.length else 0) := by
  have hnd : (next :: rest).Nodup := List.nodup_cons.2 h.nodup
  have hcard : (next :: rest).toFinset.card = rest.length + 1 := List.toFinset_card_of_nodup hnd
  have hcardr : rest.toFinset.card = rest.length := List.toFinset_card_of_nodup h.nodup.2
  have hafter : (Finset.univ.filter fun w => (s.handOver l o next rest).getLockOwner w = some o' ∧
      s.isKernelAddressKey w = true) =
      ((Finset.univ.filter fun w => s.getLockOwner w = some o' ∧ s.isKernelAddressKey w = true) \
        (next :: rest).toFinset) ∪ if o' = next then rest.toFinset else ∅ := by
    ext w
    simp only [Finset.mem_filter, Finset.mem_univ, true_and, Finset.mem_union, Finset.mem_sdiff,
      List.mem_toFinset, List.mem_cons, h.getLockOwner_handOver w]
    by_cases hw : w = next
    · subst hw
      by_cases ho : o' = w
      · simp [ho, h.nodup.1]
      · simp [ho]
    · by_cases hr : w ∈ rest
      · have hkw : s.isKernelAddressKey w = true := (h.isKernel_tree (.inr hr)).trans hk
        by_cases ho : o' = next
        · simp [hw, hr, ho, hkw]
        · simp [hw, hr, ho, Ne.symm ho]
      · by_cases ho : o' = next
        · simp [hw, hr, ho]
        · simp [hw, hr, ho]
  rw [hafter, Finset.card_union_of_disjoint]
  · push_cast
    congr 1
    · by_cases ho : o' = o
      · subst ho
        have hsub : (next :: rest).toFinset ⊆ Finset.univ.filter fun w =>
            s.getLockOwner w = some o' ∧ s.isKernelAddressKey w = true := by
          intro w hw
          have hw' : w = next ∨ w ∈ rest := by simpa using hw
          simp only [Finset.mem_filter, Finset.mem_univ, true_and]
          exact ⟨h.getLockOwner_tree hw', (h.isKernel_tree hw').trans hk⟩
        rw [if_pos rfl, Finset.card_sdiff_of_subset hsub, hcard,
          Nat.cast_sub (hcard ▸ Finset.card_le_card hsub)]
        push_cast
        rfl
      · rw [if_neg ho, Int.sub_zero, Finset.sdiff_eq_self_of_disjoint]
        rw [Finset.disjoint_left]
        intro w hw hw'
        have hw'' : w = next ∨ w ∈ rest := by simpa using hw'
        have hown := (Finset.mem_filter.1 hw).2.1
        exact ho (Option.some.inj (hown.symm.trans (h.getLockOwner_tree hw'')))
    · split
      · rw [hcardr]
      · rfl
  · split
    · rw [Finset.disjoint_left]
      intro w hw hw'
      have : w ∈ (next :: rest).toFinset := by
        simp only [List.mem_toFinset] at hw' ⊢; exact List.mem_cons_of_mem _ hw'
      exact (Finset.mem_sdiff.1 hw).2 this
    · exact Finset.disjoint_empty_right _

theorem handOver_inv : LocksInv (s.handOver l o next rest) := by
  have hI := h.inv
  constructor
  case mem_tree =>
    intro w l'
    rw [handOver_waiting]
    by_cases hl : l' = l
    · subst hl
      rw [handOver_lockInfo_self]
      show _ ↔ w ∈ rest
      by_cases hw : w = next
      · simp [hw, h.nodup.1]
      · rw [if_neg hw, h.waiting_iff]; simp [hw]
    · rw [handOver_lockInfo_of_ne hl, ← hI.mem_tree w l']
      by_cases hw : w = next
      · subst hw
        have hwl := (h.waiting_iff w).2 (.inl rfl)
        simp [hwl, Ne.symm hl]
      · rw [if_neg hw]
  case nodup =>
    intro l'
    by_cases hl : l' = l
    · subst hl
      rw [handOver_lockInfo_self]
      exact h.nodup.2
    · rw [handOver_lockInfo_of_ne hl]; exact hI.nodup l'
  case sorted =>
    intro l'
    by_cases hl : l' = l
    · subst hl
      rw [handOver_lockInfo_self]
      have hs := hI.sorted l'
      rw [h.tree, List.pairwise_cons] at hs
      exact hs.2
    · rw [handOver_lockInfo_of_ne hl]; exact hI.sorted l'
  case count =>
    intro l'
    by_cases hl : l' = l
    · subst hl
      rw [handOver_lockInfo_self]
    · rw [handOver_lockInfo_of_ne hl]; exact hI.count l'
  case held =>
    intro o' l'
    rw [h.mem_held]
    by_cases hl : l' = l
    · subst hl
      rw [handOver_lockInfo_self]
      by_cases hr : rest = []
      · simp [hr]
      · simp [hr, eq_comm]
    · rw [handOver_lockInfo_of_ne hl, ← hI.held o' l']; simp [hl]
  case held_nodup =>
    intro o'
    have hbase : ∀ o', (update s.heldLockInfoList o
        ((s.heldLockInfoList o).erase l) o').Nodup := by
      intro o'
      by_cases ho : o' = o
      · subst ho
        rw [update_self]
        exact (hI.held_nodup o').erase l
      · rw [update_of_ne ho]; exact hI.held_nodup o'
    have hno : ∀ o', l ∉ update s.heldLockInfoList o
        ((s.heldLockInfoList o).erase l) o' := by
      intro o'
      by_cases ho : o' = o
      · subst ho
        rw [update_self]
        exact (hI.held_nodup o').not_mem_erase
      · rw [update_of_ne ho]
        exact fun hm => ho (Option.some.inj (((hI.held o' l).1 hm).1.symm.trans h.owner))
    by_cases hr : rest = []
    · simp only [handOver, if_pos hr]
      exact hbase o'
    · simp only [handOver, if_neg hr]
      by_cases ho : o' = next
      · subst ho
        rw [update_self]
        exact List.nodup_cons.2 ⟨hno o', hbase o'⟩
      · rw [update_of_ne ho]; exact hbase o'
  case owned =>
    intro l' hne
    by_cases hl : l' = l
    · subst hl
      rw [handOver_lockInfo_self] at hne ⊢
      have hr : rest ≠ [] := hne
      simp [hr]
    · rw [handOver_lockInfo_of_ne hl] at hne ⊢; exact hI.owned l' hne
  case key =>
    intro w l' hw
    rw [handOver_waiting] at hw
    by_cases hwn : w = next
    · rw [if_pos hwn] at hw
      cases hw
    · rw [if_neg hwn] at hw
      by_cases hl : l' = l
      · subst hl
        rw [handOver_lockInfo_self]
        exact hI.key w l' hw
      · rw [handOver_lockInfo_of_ne hl]; exact hI.key w l' hw
  case kernel =>
    intro o'
    cases hk : (s.lockInfo l).isKernelAddressKey with
    | true =>
      rw [show (s.handOver l o next rest).isKernelAddressKey = s.isKernelAddressKey from rfl,
        h.card_kernelWaiters hk, ← hI.kernel o']
      simp only [handOver, hk, if_true]
      by_cases hn : o' = next
      · subst hn
        rw [update_self]
        by_cases ho : o' = o
        · subst ho
          rw [update_self]
          simp
        · rw [update_of_ne ho]; simp [ho]
      · rw [update_of_ne hn]
        by_cases ho : o' = o
        · subst ho
          rw [update_self]
          simp [hn]
        · rw [update_of_ne ho]; simp [hn, ho]
    | false =>
      -- no waiter of this lock is counted
      rw [show (s.handOver l o next rest).numKernelWaiters = s.numKernelWaiters by
        simp [handOver, hk]]
      rw [hI.kernel o']
      congr 2
      ext w
      simp only [Finset.mem_filter, Finset.mem_univ, true_and]
      rw [show (s.handOver l o next rest).isKernelAddressKey = s.isKernelAddressKey from rfl]
      refine and_congr_left fun hkw => ?_
      have hno : ¬ (w = next ∨ w ∈ rest) := by
        intro hw
        rw [h.isKernel_tree hw, hk] at hkw; cases hkw
      rw [h.getLockOwner_handOver, if_neg fun hw => hno (.inl hw), if_neg fun hw => hno (.inr hw)]
  case fresh =>
    intro l' hge
    have hnil := hI.fresh l' hge
    have hl : l' ≠ l := by
      rintro rfl
      rw [h.tree] at hnil; cases hnil
    rw [handOver_lockInfo_of_ne hl]; exact hnil

theorem handOver_keysDistinct (hK : KeysDistinct s)
    (hclean : rest = [] ∨ next = o ∨ ∀ l' ∈ s.heldLockInfoList next,
      ¬ ((s.lockInfo l').addressKey = (s.lockInfo l).addressKey ∧
        (s.lockInfo l').isKernelAddressKey = (s.lockInfo l).isKernelAddressKey)) :
    KeysDistinct (s.handOver l o next rest) := by
  have hkey : ∀ l', ((s.handOver l o next rest).lockInfo l').addressKey =
      (s.lockInfo l').addressKey ∧
      ((s.handOver l o next rest).lockInfo l').isKernelAddressKey =
        (s.lockInfo l').isKernelAddressKey := by
    intro l'
    by_cases hl : l' = l
    · subst hl
      rw [handOver_lockInfo_self]
      exact ⟨rfl, rfl⟩
    · rw [handOver_lockInfo_of_ne hl]; exact ⟨rfl, rfl⟩
  -- another lock of the new owner has another key
  have hother : ∀ l', rest ≠ [] → l' ≠ l → l' ∈ s.heldLockInfoList next →
      ¬ ((s.lockInfo l').addressKey = (s.lockInfo l).addressKey ∧
        (s.lockInfo l').isKernelAddressKey = (s.lockInfo l).isKernelAddressKey) := by
    intro l' hr hne hl' hk
    rcases hclean with h1 | h2 | h3
    · exact hr h1
    · subst h2
      exact hne (hK next l' l hl' h.held hk.1 hk.2)
    · exact h3 l' hl' hk
  intro o' l₁ l₂ h₁ h₂ hk₁ hk₂
  rw [(hkey l₁).1, (hkey l₂).1] at hk₁
  rw [(hkey l₁).2, (hkey l₂).2] at hk₂
  rw [h.mem_held] at h₁ h₂
  rcases h₁ with ⟨rfl, rfl, hr⟩ | ⟨hne₁, h₁⟩
  · rcases h₂ with ⟨rfl, -, -⟩ | ⟨hne₂, h₂⟩
    · rfl
    · exact absurd ⟨hk₁.symm, hk₂.symm⟩ (hother l₂ hr hne₂ h₂)
  · rcases h₂ with ⟨rfl, rfl, hr⟩ | ⟨hne₂, h₂⟩
    · exact absurd ⟨hk₁, hk₂⟩ (hother l₁ hr hne₁ h₁)
    · exact hK o' l₁ l₂ h₁ h₂ hk₁ hk₂

theorem handOver_stableExcept (hst : Stable s.basePriority s.getLockOwner s.priority) :
    StableExcept s.basePriority (s.handOver l o next rest).getLockOwner s.priority o := by
  intro x hx
  by_cases hn : x = next
  · subst hn
    refine (desired_eq_of_superset s.getLockOwner (fun w hw => ?_) (hst x) fun w hw hw' => ?_).symm
    · rw [h.getLockOwner_handOver]
      have hno : ¬ (w = x ∨ w ∈ rest) := by
        intro hwt; exact hx (Option.some.inj (hw.symm.trans (h.getLockOwner_tree hwt)))
      rw [if_neg fun hwx => hno (.inl hwx), if_neg fun hwr => hno (.inr hwr)]
      exact hw
    · rw [h.getLockOwner_handOver] at hw
      split at hw
      · cases hw
      · split at hw
        · rename_i hwr
          exact h.sorted hwr
        · exact absurd hw hw'
  · rw [hst x]
    refine (desired_congr fun w => ?_).symm
    rw [h.getLockOwner_handOver]
    split
    · rename_i hw
      refine iff_of_false nofun fun hw' => ?_
      exact hx (Option.some.inj (hw'.symm.trans (h.getLockOwner_tree (.inl hw))))
    · split
      · rename_i hwr
        refine iff_of_false (fun h' => hn (Option.some.inj h').symm) fun hw' => ?_
        exact hx (Option.some.inj (hw'.symm.trans (h.getLockOwner_tree (.inr hwr))))
      · rfl

theorem handOver_stable (hst : Stable s.basePriority s.getLockOwner s.priority)
    (hguard : ¬ (s.priority o = s.priority next ∧ s.priority o < s.basePriority o)) :
    Stable s.basePriority (s.handOver l o next rest).getLockOwner s.priority := by
  refine (h.handOver_stableExcept hst).stable (desired_eq_of_subset s.getLockOwner
    (fun w hw => ?_) (hst o) ?_)
  · rw [h.getLockOwner_handOver] at hw
    split at hw
    · cases hw
    · split at hw
      · rename_i hwr
        exact h.getLockOwner_tree (.inr hwr)
      · exact hw
  · have hle : s.priority o ≤ s.basePriority o := by
      rw [hst o]; exact desired_le_base
    have hnext : s.priority o ≤ s.priority next := by
      rw [hst o]; exact desired_le_of_target (h.getLockOwner_tree (.inl rfl))
    rcases eq_or_lt_of_le hle with heq | hlt
    · exact .inl heq
    right
    have hlt' : s.priority o < s.priority next :=
      lt_of_le_of_ne hnext fun heq => hguard ⟨heq, hlt⟩
    intro w hw hw'
    rw [h.getLockOwner_handOver] at hw'
    by_cases hwn : w = next
    · rw [hwn]; exact hlt'
    rw [if_neg hwn] at hw'
    by_cases hwr : w ∈ rest
    · exact lt_of_lt_of_le hlt' (h.sorted hwr)
    · rw [if_neg hwr] at hw'; exact absurd hw hw'

theorem removeWaiterByKey_eq {key : BitVec 64} {isKernel : Bool}
    (hfind : s.findHeldLock o key isKernel = some l) (n : Nat) :
    removeWaiterByKey n s o key isKernel =
      if s.priority o = s.priority next ∧ s.priority o < s.basePriority o then
        (restorePriority n (s.handOver l o next rest) (some o)).map fun s =>
          (some next, !rest.isEmpty, s)
      else some (some next, !rest.isEmpty, s.handOver l o next rest) := by
  have hcount : (s.lockInfo l).waiterCount = rest.length + 1 := by
    rw [h.inv.count, h.tree, List.length_cons]
  have herase : (s.lockInfo l).tree.erase next = rest := by
    rw [h.tree, List.erase_cons_head]
  have hhead : (s.lockInfo l).tree.head? = some next := by rw [h.tree]; rfl
  unfold removeWaiterByKey
  rw [hfind]
  cases hk : (s.lockInfo l).isKernelAddressKey with
  | true =>
    cases rest with
    | nil =>
      simp [setHeldLockInfoList, setNumKernelWaiters, lockRemoveWaiter, setLockInfo,
        setWaitingLockInfo, hk, hhead, hcount, herase, handOver]
    | cons w rest =>
      simp [setHeldLockInfoList, setNumKernelWaiters, lockRemoveWaiter, setLockInfo,
        setWaitingLockInfo, addHeldLock, hk, hhead, hcount, herase, handOver]
  | false =>
    cases rest with
    | nil =>
      simp [setHeldLockInfoList, lockRemoveWaiter, setLockInfo,
        setWaitingLockInfo, hk, hhead, hcount, herase, handOver]
    | cons w rest =>
      simp [setHeldLockInfoList, lockRemoveWaiter, setLockInfo,
        setWaitingLockInfo, addHeldLock, hk, hhead, hcount, herase, handOver]

end

end Handing

/-! ## One operation -/

/-- Waiters and locks agree, and every priority is what it should be. -/
structure PiInv (s : ThreadSystem T) : Prop where
  locks : LocksInv s
  stable : Stable s.basePriority s.getLockOwner s.priority

omit [Fintype T] in
theorem restorePriority_succ (n : Nat) (t : Option T) (h : restorePriority n s t = some s') :
    restorePriority (n + 1) s t = some s' := by
  induction n generalizing s t with
  | zero =>
    cases t with
    | none => exact h
    | some t => cases h
  | succ n ih =>
    cases t with
    | none => exact h
    | some t =>
      rw [restorePriority] at h ⊢
      obtain ⟨p, hp, h⟩ := Option.bind_eq_some_iff.1 h
      refine Option.bind_eq_some_iff.2 ⟨p, hp, ?_⟩
      split at h
      · rename_i heq
        rw [if_pos heq]
        exact h
      · rename_i hne
        rw [if_neg hne]
        obtain ⟨s₁, hs₁, h⟩ := Option.bind_eq_some_iff.1 h
        exact Option.bind_eq_some_iff.2 ⟨s₁, hs₁, ih _ h⟩

omit [Fintype T] in
theorem restorePriority_mono {n m : Nat} (t : Option T) (hnm : n ≤ m)
    (h : restorePriority n s t = some s') : restorePriority m s t = some s' := by
  induction hnm with
  | refl => exact h
  | step _ ih => exact restorePriority_succ _ t ih

theorem restorePriority_inv {n : Nat} (hI : LocksInv s)
    (hex : StableExcept s.basePriority s.getLockOwner s.priority t)
    (h : restorePriority n s (some t) = some s') :
    PiInv s' ∧ (KeysDistinct s → KeysDistinct s') := by
  obtain ⟨s₁, hs₁, hI₁, hst₁, hK₁⟩ := restorePriority_spec (n := max n (Fintype.card T + 1)) hI hex
    (by omega)
  have h' := restorePriority_mono (some t) (Nat.le_max_left n (Fintype.card T + 1)) h
  obtain rfl : s' = s₁ := Option.some.inj (h'.symm.trans hs₁)
  exact ⟨⟨hI₁, hst₁⟩, hK₁⟩

theorem restorePriority_isSome {n : Nat} (hI : LocksInv s)
    (hex : StableExcept s.basePriority s.getLockOwner s.priority t) (hn : Fintype.card T < n) :
    (restorePriority n s (some t)).isSome = true := by
  obtain ⟨s', hs', -⟩ := restorePriority_spec hI hex hn
  rw [hs']
  rfl

theorem setAddressKey_locks (hL : LocksInv s) (hw : s.waitingLockInfo t = none) (key : BitVec 64)
    (isKernel : Bool) : LocksInv (s.setAddressKey t key isKernel) := by
  refine ⟨hL.mem_tree, hL.nodup, hL.sorted, hL.count, hL.held, hL.held_nodup, hL.owned, ?_, ?_,
    hL.fresh⟩
  · intro w l hl
    have hwt : w ≠ t := by
      rintro rfl
      rw [show s.waitingLockInfo w = some l from hl] at hw; cases hw
    show (s.lockInfo l).addressKey = update s.addressKey t key w ∧
      (s.lockInfo l).isKernelAddressKey = update s.isKernelAddressKey t isKernel w
    rw [update_of_ne hwt, update_of_ne hwt]
    exact hL.key w l hl
  · intro o'
    rw [show (s.setAddressKey t key isKernel).numKernelWaiters = s.numKernelWaiters from rfl,
      hL.kernel o']
    congr 2
    ext w
    simp only [Finset.mem_filter, Finset.mem_univ, true_and]
    show _ ↔ s.getLockOwner w = some o' ∧ update s.isKernelAddressKey t isKernel w = true
    refine and_congr_right fun hown => ?_
    have hwt : w ≠ t := by
      rintro rfl
      rw [hL.getLockOwner_eq_none.2 hw] at hown; cases hown
    rw [update_of_ne hwt]

section

variable (hI : PiInv s) (hw : s.waitingLockInfo t = none)
include hI hw

theorem setAddressKey_inv (key : BitVec 64) (isKernel : Bool) :
    PiInv (s.setAddressKey t key isKernel) ∧
      (KeysDistinct s → KeysDistinct (s.setAddressKey t key isKernel)) :=
  ⟨⟨setAddressKey_locks hI.locks hw key isKernel, hI.stable⟩, fun hK => hK⟩

theorem addWaiterImpl_stableExcept (o : T) :
    StableExcept (s.addWaiterImpl o t).basePriority (s.addWaiterImpl o t).getLockOwner
      (s.addWaiterImpl o t).priority o := by
  obtain ⟨-, hsame, hown, -⟩ := addWaiterImpl_spec hI.locks hw o
  rw [hsame.basePriority, hsame.priority, hown]
  intro x hx
  rw [hI.stable x]
  refine (desired_congr fun w => ?_).symm
  by_cases hwt : w = t
  · subst hwt
    rw [update_self, hI.locks.getLockOwner_eq_none.2 hw]
    exact iff_of_false (fun h => hx (Option.some.inj h).symm) nofun
  · rw [update_of_ne hwt]

theorem addWaiterImpl_stable
    (hguard : ¬ (s.addWaiterImpl o t).priority t < (s.addWaiterImpl o t).priority o) :
    Stable (s.addWaiterImpl o t).basePriority (s.addWaiterImpl o t).getLockOwner
      (s.addWaiterImpl o t).priority := by
  refine (addWaiterImpl_stableExcept hI hw o).stable ?_
  obtain ⟨-, hsame, hown, -⟩ := addWaiterImpl_spec hI.locks hw o
  rw [hsame.priority] at hguard
  rw [hsame.basePriority, hsame.priority, hown]
  have hnone := hI.locks.getLockOwner_eq_none.2 hw
  refine desired_eq_of_superset s.getLockOwner (fun w hw' => ?_) (hI.stable o) fun w hw' hno => ?_
  · have hwt : w ≠ t := by
      rintro rfl
      rw [hnone] at hw'; cases hw'
    rw [update_of_ne hwt]
    exact hw'
  · by_cases hwt : w = t
    · rw [hwt]
      exact not_lt.1 hguard
    · rw [update_of_ne hwt] at hw'; exact absurd hw' hno

theorem addWaiter_inv {n : Nat} (h : addWaiter n s o t = some s') :
    PiInv s' ∧ (KeysDistinct s → KeysDistinct s') := by
  obtain ⟨hL, -, -, hK⟩ := addWaiterImpl_spec hI.locks hw o
  dsimp only [addWaiter] at h
  split at h
  · obtain ⟨hI', hK'⟩ := restorePriority_inv hL (addWaiterImpl_stableExcept hI hw o) h
    exact ⟨hI', fun hk => hK' (hK hk)⟩
  · rename_i hguard
    obtain rfl := Option.some.inj h; exact ⟨⟨hL, addWaiterImpl_stable hI hw hguard⟩, hK⟩

theorem addWaiter_isSome {n : Nat} (hn : Fintype.card T < n) : (addWaiter n s o t).isSome = true := by
  dsimp only [addWaiter]
  split
  · exact restorePriority_isSome (addWaiterImpl_spec hI.locks hw o).1
      (addWaiterImpl_stableExcept hI hw o) hn
  · rfl

end

theorem removeWaiterImpl_stable {s₁ : ThreadSystem T} (hI : PiInv s)
    (hown : s.getLockOwner t = some o) (hsame : SameThreads s s₁)
    (hown₁ : s₁.getLockOwner = update s.getLockOwner t none) :
    StableExcept s₁.basePriority s₁.getLockOwner s₁.priority o ∧
      (¬ (s₁.priority o = s₁.priority t ∧ s₁.priority o < s₁.basePriority o) →
        Stable s₁.basePriority s₁.getLockOwner s₁.priority) := by
  rw [hsame.basePriority, hsame.priority, hown₁]
  have hex : StableExcept s.basePriority (update s.getLockOwner t none) s.priority o := by
    intro x hx
    rw [hI.stable x]
    refine (desired_congr fun w => ?_).symm
    by_cases hwt : w = t
    · subst hwt
      rw [update_self, hown]
      exact iff_of_false nofun fun h => hx (Option.some.inj h).symm
    · rw [update_of_ne hwt]
  refine ⟨hex, fun hguard => hex.stable (desired_eq_of_subset s.getLockOwner
    (fun w hw => ?_) (hI.stable o) ?_)⟩
  · by_cases hwt : w = t
    · rw [hwt]
      exact hown
    · rwa [update_of_ne hwt] at hw
  · have hle : s.priority o ≤ s.basePriority o := by
      rw [hI.stable o]; exact desired_le_base
    have hlet : s.priority o ≤ s.priority t := by
      rw [hI.stable o]; exact desired_le_of_target hown
    rcases eq_or_lt_of_le hle with heq | hlt
    · exact .inl heq
    · right
      intro w hw hw'
      have hwt : w = t := by
        by_contra hne
        rw [update_of_ne hne] at hw'; exact hw' hw
      rw [hwt]; exact lt_of_le_of_ne hlet fun heq => hguard ⟨heq, hlt⟩

theorem removeWaiter_inv {n : Nat} (hI : PiInv s) (hown : s.getLockOwner t = some o)
    (h : removeWaiter n s o t = some s') : PiInv s' ∧ (KeysDistinct s → KeysDistinct s') := by
  obtain ⟨s₁, h₁, hL₁, hsame, -, hown₁, hK₁⟩ := removeWaiterImpl_spec hI.locks hown
  obtain ⟨hex, hst⟩ := removeWaiterImpl_stable hI hown hsame hown₁
  unfold removeWaiter at h
  rw [h₁, Option.bind_eq_bind, Option.bind_some] at h
  split at h
  · obtain ⟨hI', hK'⟩ := restorePriority_inv hL₁ hex h
    exact ⟨hI', fun hk => hK' (hK₁ hk)⟩
  · rename_i hguard
    obtain rfl := Option.some.inj h; exact ⟨⟨hL₁, hst hguard⟩, hK₁⟩

theorem removeWaiter_isSome {n : Nat} (hI : PiInv s) (hown : s.getLockOwner t = some o)
    (hn : Fintype.card T < n) : (removeWaiter n s o t).isSome = true := by
  obtain ⟨s₁, h₁, hL₁, hsame, -, hown₁, -⟩ := removeWaiterImpl_spec hI.locks hown
  unfold removeWaiter
  rw [h₁, Option.bind_eq_bind, Option.bind_some]
  split
  · exact restorePriority_isSome hL₁ (removeWaiterImpl_stable hI hown hsame hown₁).1 hn
  · rfl

theorem handing_of_find (hL : LocksInv s) {key : BitVec 64} {isKernel : Bool}
    (hfind : s.findHeldLock o key isKernel = some l) : ∃ next rest, Handing s l o next rest := by
  have hmem := List.mem_of_find?_eq_some hfind
  cases htree : (s.lockInfo l).tree with
  | nil => exact absurd htree ((hL.held o l).1 hmem).2
  | cons next rest => exact ⟨next, rest, hL, hmem, htree⟩

/-- No lock goes to a thread that already holds one with the same key. -/
def HandsOverCleanly (s : ThreadSystem T) (o : T) (key : BitVec 64) (isKernel : Bool) : Prop :=
  ∀ l next rest, s.findHeldLock o key isKernel = some l → (s.lockInfo l).tree = next :: rest →
    rest = [] ∨ next = o ∨ s.findHeldLock next key isKernel = none

theorem removeWaiterByKey_inv {n : Nat} {key : BitVec 64} {isKernel : Bool} {r : Option T}
    {more : Bool} (hI : PiInv s) (h : removeWaiterByKey n s o key isKernel = some (r, more, s')) :
    PiInv s' ∧ (HandsOverCleanly s o key isKernel → KeysDistinct s → KeysDistinct s') := by
  cases hfind : s.findHeldLock o key isKernel with
  | none =>
    unfold removeWaiterByKey at h
    rw [hfind] at h
    obtain rfl : s = s' := (Prod.mk.inj (Prod.mk.inj (Option.some.inj h)).2).2
    exact ⟨hI, fun _ hK => hK⟩
  | some l =>
    obtain ⟨next, rest, hH⟩ := handing_of_find hI.locks hfind
    have hkeys : HandsOverCleanly s o key isKernel → KeysDistinct s →
        KeysDistinct (s.handOver l o next rest) := by
      intro hclean hK
      refine hH.handOver_keysDistinct hK ?_
      refine (hclean l next rest hfind hH.tree).imp id (Or.imp id fun hnone l' hl' hk => ?_)
      have hkey := List.find?_some hfind
      simp only [Bool.and_eq_true, beq_iff_eq] at hkey
      have hno := List.find?_eq_none.1 hnone l' hl'
      simp [hk.1, hk.2, hkey.1, hkey.2] at hno
    rw [hH.removeWaiterByKey_eq hfind] at h
    split at h
    · obtain ⟨s₁, hs₁, heq⟩ := Option.map_eq_some_iff.1 h
      obtain rfl : s₁ = s' := (Prod.mk.inj (Prod.mk.inj heq).2).2
      obtain ⟨hI', hK'⟩ := restorePriority_inv hH.handOver_inv
        (hH.handOver_stableExcept hI.stable) hs₁
      exact ⟨hI', fun hc hk => hK' (hkeys hc hk)⟩
    · rename_i hguard
      obtain rfl : s.handOver l o next rest = s' := (Prod.mk.inj (Prod.mk.inj (Option.some.inj h)).2).2
      exact ⟨⟨hH.handOver_inv, hH.handOver_stable hI.stable hguard⟩, hkeys⟩

theorem removeWaiterByKey_isSome {n : Nat} (hI : PiInv s) (o : T) (key : BitVec 64)
    (isKernel : Bool) (hn : Fintype.card T < n) :
    (removeWaiterByKey n s o key isKernel).isSome = true := by
  cases hfind : s.findHeldLock o key isKernel with
  | none =>
    unfold removeWaiterByKey
    rw [hfind]; rfl
  | some l =>
    obtain ⟨next, rest, hH⟩ := handing_of_find hI.locks hfind
    rw [hH.removeWaiterByKey_eq hfind]
    split
    · rw [Option.isSome_map]
      exact restorePriority_isSome hH.handOver_inv (hH.handOver_stableExcept hI.stable) hn
    · rfl

theorem basePriority_stableExcept (hI : PiInv s) (t : T) (v : Int) :
    StableExcept (update s.basePriority t v) s.getLockOwner s.priority t := by
  intro x hx
  rw [hI.stable x]
  refine eq_of_forall_le_iff fun c => ?_
  rw [le_desired_iff, le_desired_iff, update_of_ne hx]

theorem basePriority_locks (hL : LocksInv s) (t : T) (v : Int) :
    LocksInv { s with basePriority := update s.basePriority t v } :=
  ⟨hL.mem_tree, hL.nodup, hL.sorted, hL.count, hL.held, hL.held_nodup, hL.owned, hL.key, hL.kernel,
    hL.fresh⟩

theorem setBasePriority_inv {n : Nat} {v : Int} (hI : PiInv s)
    (h : setBasePriority n s t v = some s') : PiInv s' ∧ (KeysDistinct s → KeysDistinct s') := by
  obtain ⟨hI', hK⟩ := restorePriority_inv (basePriority_locks hI.locks t v)
    (basePriority_stableExcept hI t v) h
  exact ⟨hI', fun h => hK h⟩

theorem setBasePriority_isSome {n : Nat} (hI : PiInv s) (t : T) (v : Int)
    (hn : Fintype.card T < n) : (setBasePriority n s t v).isSome = true :=
  restorePriority_isSome (basePriority_locks hI.locks t v) (basePriority_stableExcept hI t v) hn

theorem increaseBasePriority_inv {n : Nat} {v : Int} (hI : PiInv s)
    (h : increaseBasePriority n s t v = some s') :
    PiInv s' ∧ (KeysDistinct s → KeysDistinct s') := by
  unfold increaseBasePriority at h
  split at h
  · exact setBasePriority_inv hI h
  · obtain rfl := Option.some.inj h; exact ⟨hI, id⟩

theorem increaseBasePriority_isSome {n : Nat} (hI : PiInv s) (t : T) (v : Int)
    (hn : Fintype.card T < n) : (increaseBasePriority n s t v).isSome = true := by
  unfold increaseBasePriority
  split
  · exact setBasePriority_isSome hI t v hn
  · rfl

/-! ## Runs -/

section Runs

variable (allowed : ThreadSystem T → T → BitVec 64 → Bool → Prop)

/-- The operations, each called with enough rounds for its loop to end.  A thread that waits keeps
    its address key, and is not made to wait a second time.  `allowed` says which calls of
    `RemoveWaiterByKey` the run makes. -/
inductive PiStep : ThreadSystem T → ThreadSystem T → Prop where
  | setAddressKey {s : ThreadSystem T} (t : T) (key : BitVec 64) (isKernel : Bool)
      (hw : s.waitingLockInfo t = none) : PiStep s (s.setAddressKey t key isKernel)
  | addWaiter {s s' : ThreadSystem T} (n : Nat) (o t : T) (hw : s.waitingLockInfo t = none)
      (h : s.addWaiter n o t = some s') : PiStep s s'
  | removeWaiter {s s' : ThreadSystem T} (n : Nat) (o t : T) (hown : s.getLockOwner t = some o)
      (h : s.removeWaiter n o t = some s') : PiStep s s'
  | removeWaiterByKey {s s' : ThreadSystem T} (n : Nat) (o : T) (key : BitVec 64)
      (isKernel : Bool) (next : Option T) (more : Bool) (hallowed : allowed s o key isKernel)
      (h : s.removeWaiterByKey n o key isKernel = some (next, more, s')) : PiStep s s'
  | setBasePriority {s s' : ThreadSystem T} (n : Nat) (t : T) (value : Int)
      (h : s.setBasePriority n t value = some s') : PiStep s s'
  | increaseBasePriority {s s' : ThreadSystem T} (n : Nat) (t : T) (priority : Int)
      (h : s.increaseBasePriority n t priority = some s') : PiStep s s'

abbrev PiRun : ThreadSystem T → ThreadSystem T → Prop := Relation.ReflTransGen (PiStep allowed)

variable {allowed}

theorem PiStep.inv (hstep : PiStep allowed s s') (hI : PiInv s) : PiInv s' := by
  cases hstep with
  | setAddressKey t key isKernel hw => exact (setAddressKey_inv hI hw key isKernel).1
  | addWaiter n o t hw h => exact (addWaiter_inv hI hw h).1
  | removeWaiter n o t hown h => exact (removeWaiter_inv hI hown h).1
  | removeWaiterByKey n o key isKernel next more _ h => exact (removeWaiterByKey_inv hI h).1
  | setBasePriority n t value h => exact (setBasePriority_inv hI h).1
  | increaseBasePriority n t priority h => exact (increaseBasePriority_inv hI h).1

theorem PiRun.inv (hrun : PiRun allowed s s') (hI : PiInv s) : PiInv s' := by
  induction hrun with
  | refl => exact hI
  | tail _ hstep ih => exact hstep.inv ih

theorem PiStep.keysDistinct (hstep : PiStep HandsOverCleanly s s') (hI : PiInv s)
    (hK : KeysDistinct s) : KeysDistinct s' := by
  cases hstep with
  | setAddressKey t key isKernel hw => exact (setAddressKey_inv hI hw key isKernel).2 hK
  | addWaiter n o t hw h => exact (addWaiter_inv hI hw h).2 hK
  | removeWaiter n o t hown h => exact (removeWaiter_inv hI hown h).2 hK
  | removeWaiterByKey n o key isKernel next more hclean h =>
    exact (removeWaiterByKey_inv hI h).2 hclean hK
  | setBasePriority n t value h => exact (setBasePriority_inv hI h).2 hK
  | increaseBasePriority n t priority h => exact (increaseBasePriority_inv hI h).2 hK

theorem PiRun.keysDistinct (hrun : PiRun HandsOverCleanly s s') (hI : PiInv s)
    (hK : KeysDistinct s) : KeysDistinct s' := by
  induction hrun with
  | refl => exact hK
  | tail hrun' hstep ih => exact hstep.keysDistinct (PiRun.inv hrun' hI) ih

end Runs

/-! ## The result -/

/-- Threads as they are created: nobody waits, and each has its base priority. -/
structure Initial (s : ThreadSystem T) : Prop where
  priority : s.priority = s.basePriority
  held : ∀ t, s.heldLockInfoList t = []
  waiting : ∀ t, s.waitingLockInfo t = none
  kernel : ∀ t, s.numKernelWaiters t = 0
  locks : ∀ l, (s.lockInfo l).tree = [] ∧ (s.lockInfo l).waiterCount = 0

theorem Initial.inv (h : s.Initial) : PiInv s := by
  have hown : ∀ w, s.getLockOwner w = none := by
    intro w
    unfold getLockOwner
    rw [h.waiting w]
  refine ⟨⟨?_, ?_, ?_, ?_, ?_, ?_, ?_, ?_, ?_, fun l _ => (h.locks l).1⟩, fun x => ?_⟩
  · intro t l
    rw [h.waiting t, (h.locks l).1]
    simp
  · intro l
    rw [(h.locks l).1]
    exact List.nodup_nil
  · intro l
    rw [(h.locks l).1]
    exact List.Pairwise.nil
  · intro l
    rw [(h.locks l).1, (h.locks l).2]
    rfl
  · intro o l
    rw [h.held o, (h.locks l).1]
    simp
  · intro o
    rw [h.held o]
    exact List.nodup_nil
  · intro l hne
    exact absurd (h.locks l).1 hne
  · intro t l hw
    rw [h.waiting t] at hw
    cases hw
  · intro o
    rw [h.kernel o]
    simp [hown]
  · rw [h.priority]
    refine eq_of_forall_le_iff fun c => ?_
    rw [le_desired_iff]
    refine ⟨fun hc => ⟨hc, fun w hw => ?_⟩, And.left⟩
    rw [hown w] at hw; cases hw

/-- What holds after every operation. -/
structure PiSpec (s : ThreadSystem T) : Prop where
  /-- The least of the base priority and the priorities of the threads waiting on held locks. -/
  priority : ∀ t, IsLeast ({s.basePriority t} ∪
    {p | ∃ l ∈ s.heldLockInfoList t, ∃ w ∈ (s.lockInfo l).tree, p = s.priority w}) (s.priority t)
  /-- A waiter is in one tree, once, and the lock is in its owner's held list, once. -/
  waiter : ∀ w, s.waitingLockInfo w ≠ none → ∃ l o, (∀ l', w ∈ (s.lockInfo l').tree ↔ l' = l) ∧
    (s.lockInfo l).tree.count w = 1 ∧ (s.lockInfo l).owner = some o ∧
    (s.heldLockInfoList o).count l = 1
  held : ∀ o l, l ∈ s.heldLockInfoList o → (s.lockInfo l).tree ≠ []
  kernel : ∀ o, s.numKernelWaiters o = (Finset.univ.filter fun w => ∃ l ∈ s.heldLockInfoList o,
    (s.lockInfo l).isKernelAddressKey = true ∧ w ∈ (s.lockInfo l).tree).card
  /-- `RestorePriority` terminates, whatever is called next. -/
  terminates : ∀ n, Fintype.card T < n →
    (∀ o t, s.waitingLockInfo t = none → (s.addWaiter n o t).isSome = true) ∧
    (∀ o t, s.getLockOwner t = some o → (s.removeWaiter n o t).isSome = true) ∧
    (∀ o key isKernel, (s.removeWaiterByKey n o key isKernel).isSome = true) ∧
    (∀ t v, (s.setBasePriority n t v).isSome = true) ∧
    (∀ t v, (s.increaseBasePriority n t v).isSome = true)

theorem PiInv.spec (hI : PiInv s) : PiSpec s := by
  have hL := hI.locks
  refine ⟨fun t => ⟨?_, ?_⟩, fun w hw => ?_, fun o l hl => ((hL.held o l).1 hl).2, fun o => ?_,
    fun n hn => ⟨fun o t hw => addWaiter_isSome hI hw hn,
      fun o t hown => removeWaiter_isSome hI hown hn,
      fun o key isKernel => removeWaiterByKey_isSome hI o key isKernel hn,
      fun t v => setBasePriority_isSome hI t v hn,
      fun t v => increaseBasePriority_isSome hI t v hn⟩⟩
  · rcases desired_eq_base_or s.basePriority s.getLockOwner s.priority t with hb | ⟨w, hw, hp⟩
    · left
      rw [hI.stable t]
      exact hb
    · right
      obtain ⟨l, hl, hwl⟩ := hL.getLockOwner_iff.1 hw
      exact ⟨l, hl, w, hwl, (hI.stable t).trans hp⟩
  · rintro p (hp | ⟨l, hl, w, hw, rfl⟩)
    · rw [hI.stable t, Set.mem_singleton_iff.1 hp]
      exact desired_le_base
    · rw [hI.stable t]; exact desired_le_of_target (hL.getLockOwner_iff.2 ⟨l, hl, hw⟩)
  · obtain ⟨l, hl⟩ := Option.ne_none_iff_exists'.1 hw
    obtain ⟨o, ho⟩ := Option.ne_none_iff_exists'.1 (hL.owned l (hL.tree_ne_nil hl))
    refine ⟨l, o, fun l' => ?_, ?_, ho, ?_⟩
    · rw [← hL.mem_tree, hl, Option.some.injEq]
      exact eq_comm
    · exact List.count_eq_one_of_mem (hL.nodup l) ((hL.mem_tree w l).1 hl)
    · exact List.count_eq_one_of_mem (hL.held_nodup o) ((hL.held o l).2 ⟨ho, hL.tree_ne_nil hl⟩)
  · rw [hL.kernel o]
    congr 2
    ext w
    simp only [Finset.mem_filter, Finset.mem_univ, true_and]
    rw [hL.getLockOwner_iff]
    constructor
    · rintro ⟨⟨l, hl, hw⟩, hk⟩
      exact ⟨l, hl, (hL.key w l ((hL.mem_tree w l).2 hw)).2.trans hk, hw⟩
    · rintro ⟨l, hl, hk, hw⟩
      exact ⟨⟨l, hl, hw⟩, (hL.key w l ((hL.mem_tree w l).2 hw)).2.symm.trans hk⟩

/-- Priority inheritance is exact in every run, circles of waits included, and the keys of held
    locks are distinct in every run that hands locks over cleanly. -/
theorem priorityInheritance_of_run {s₀ : ThreadSystem T} (h₀ : s₀.Initial) :
    (∀ s, PiRun (fun _ _ _ _ => True) s₀ s → PiSpec s) ∧
      ∀ s, PiRun HandsOverCleanly s₀ s → KeysDistinct s := by
  refine ⟨fun s hrun => (hrun.inv h₀.inv).spec, fun s hrun => hrun.keysDistinct h₀.inv ?_⟩
  intro o l l' hl
  rw [h₀.held o] at hl
  cases hl

/-! ### Four threads, one key -/

/-- Four threads that have just been created. -/
def fourThreads : ThreadSystem (Fin 4) where
  basePriority _ := 44
  priority _ := 44
  addressKey _ := 0
  isKernelAddressKey _ := false
  heldLockInfoList _ := []
  waitingLockInfo _ := none
  numKernelWaiters _ := 0
  lockInfo _ := ⟨0, false, none, [], 0⟩
  numAllocated := 0

theorem fourThreads_initial : fourThreads.Initial :=
  ⟨rfl, fun _ => rfl, fun _ => rfl, fun _ => rfl, fun _ => ⟨rfl, rfl⟩⟩

/-- Threads 0 and 1 wait for each other: the specification holds in the deadlock too. -/
theorem priorityInheritance_deadlock : ∃ s, PiRun (fun _ _ _ _ => True) fourThreads s ∧
    s.getLockOwner 0 = some 1 ∧ s.getLockOwner 1 = some 0 ∧ PiSpec s := by
  have hrun₂ : ((fourThreads.addWaiter 5 0 1).bind fun s =>
      if s.waitingLockInfo 0 = none then s.addWaiter 5 1 0 else none).map (fun s =>
        (s.getLockOwner 0, s.getLockOwner 1)) = some (some 1, some 0) := by decide +kernel
  obtain ⟨s₂, h₂, hown⟩ := Option.map_eq_some_iff.1 hrun₂
  obtain ⟨s₁, h₁, h₂⟩ := Option.bind_eq_some_iff.1 h₂
  have hw : s₁.waitingLockInfo 0 = none := by
    by_contra hne
    rw [if_neg hne] at h₂; cases h₂
  rw [if_pos hw] at h₂
  have hrun : PiRun (fun _ _ _ _ => True) fourThreads s₂ :=
    (Relation.ReflTransGen.single (.addWaiter 5 0 1 rfl h₁)).tail (.addWaiter 5 1 0 hw h₂)
  exact ⟨s₂, hrun, (Prod.mk.inj hown).1, (Prod.mk.inj hown).2,
    (priorityInheritance_of_run fourThreads_initial).1 s₂ hrun⟩

/-- Threads 1 and 2 wait for thread 0, and 3 for 1, all under one key.  Thread 0 hands its lock to
    thread 1, which then holds two locks with that key. -/
theorem not_keysDistinct_of_run : ¬ ∀ s₀ s : ThreadSystem (Fin 4), s₀.Initial →
    PiRun (fun _ _ _ _ => True) s₀ s → KeysDistinct s := by
  intro hall
  have hrun₄ : ((fourThreads.addWaiter 5 0 1).bind fun s₁ =>
      if s₁.waitingLockInfo 2 = none then (s₁.addWaiter 5 0 2).bind fun s₂ =>
        if s₂.waitingLockInfo 3 = none then (s₂.addWaiter 5 1 3).bind fun s₃ =>
          s₃.removeWaiterByKey 5 0 0 false else none else none).map (fun r =>
            (r.2.2.heldLockInfoList 1, (r.2.2.lockInfo 0).addressKey, (r.2.2.lockInfo 1).addressKey,
              (r.2.2.lockInfo 0).isKernelAddressKey, (r.2.2.lockInfo 1).isKernelAddressKey)) =
        some ([0, 1], 0, 0, false, false) := by decide +kernel
  obtain ⟨⟨next, more, s₄⟩, h₄, hlocks⟩ := Option.map_eq_some_iff.1 hrun₄
  obtain ⟨s₁, h₁, h₄⟩ := Option.bind_eq_some_iff.1 h₄
  by_cases hw₁ : s₁.waitingLockInfo 2 = none
  · rw [if_pos hw₁] at h₄
    obtain ⟨s₂, h₂, h₄⟩ := Option.bind_eq_some_iff.1 h₄
    by_cases hw₂ : s₂.waitingLockInfo 3 = none
    · rw [if_pos hw₂] at h₄
      obtain ⟨s₃, h₃, h₄⟩ := Option.bind_eq_some_iff.1 h₄
      have hrun : PiRun (fun _ _ _ _ => True) fourThreads s₄ :=
        (((Relation.ReflTransGen.single (.addWaiter 5 0 1 rfl h₁)).tail
          (.addWaiter 5 0 2 hw₁ h₂)).tail (.addWaiter 5 1 3 hw₂ h₃)).tail
          (.removeWaiterByKey 5 0 0 false next more trivial h₄)
      have hheld : s₄.heldLockInfoList 1 = [0, 1] := congrArg Prod.fst hlocks
      have hkey : (s₄.lockInfo 0).addressKey = (s₄.lockInfo 1).addressKey :=
        (congrArg (·.2.1) hlocks).trans (congrArg (·.2.2.1) hlocks).symm
      have hkern : (s₄.lockInfo 0).isKernelAddressKey = (s₄.lockInfo 1).isKernelAddressKey :=
        (congrArg (·.2.2.2.1) hlocks).trans (congrArg (·.2.2.2.2) hlocks).symm
      have hbad := hall fourThreads s₄ fourThreads_initial hrun 1 0 1 (by simp [hheld])
        (by simp [hheld]) hkey hkern
      cases hbad
    · rw [if_neg hw₂] at h₄; cases h₄
  · rw [if_neg hw₁] at h₄; cases h₄

end ThreadSystem

end Suyu.Kernel
