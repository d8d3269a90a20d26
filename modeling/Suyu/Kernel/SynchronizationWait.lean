import Mathlib
import Suyu.Kernel.SynchronizationLists

/-
  Every waiter of a `KSynchronizationObject` is woken exactly once.

  1. **Specification (`Orderly`)** - the list of an object has one node for each time a blocked thread
     names it, in the order in which the threads began to wait; no loop fails; a step wakes the threads
     that it unblocks, each once.

  2. **The crux (`notifyLoop_notified`)** - the nodes of a thread stand side by side in a list.  When
     the loop of `NotifyAvailable` has woken the thread of the first node, it still has to pass the
     other nodes of that thread: they are STALE, but they keep their links and lead to the rest of the
     list, and their thread is not waiting any more.
-/

namespace Suyu.Kernel.KSynchronizationObject

open Function (update update_eq_self update_self update_of_ne)

open Lib.Linked
open State (threadEntries syncIndex)

variable {s s' : State} {t u : Thread} {o : Object} {objects : List Object} {result : Result}

/-! ## The nodes of a thread -/

theorem mem_threadEntries {n : Node} :
    (n, o) ∈ threadEntries t objects ↔ n.1 = t ∧ objects[n.2]? = some o := by
  rw [threadEntries, List.mem_map]
  constructor
  · rintro ⟨⟨p, i⟩, hmem, heq⟩
    obtain ⟨rfl, rfl⟩ := Prod.mk.inj heq
    exact ⟨rfl, List.mem_zipIdx_iff_getElem?.mp hmem⟩
  · rintro ⟨rfl, hget⟩; exact ⟨(o, n.2), List.mem_zipIdx_iff_getElem?.mpr hget, rfl⟩

theorem threadEntries_nodup (t : Thread) (objects : List Object) :
    ((threadEntries t objects).map Prod.fst).Nodup := by
  have hmap : (threadEntries t objects).map Prod.fst =
      (objects.zipIdx.map Prod.snd).map (Prod.mk t) := by
    rw [threadEntries, List.map_map, List.map_map]; rfl
  rw [hmap, List.zipIdx_map_snd]
  exact (List.nodup_range' _ Nat.one_pos).map (Prod.mk_right_injective t)

theorem length_threadEntries (t : Thread) (objects : List Object) :
    (threadEntries t objects).length = objects.length := by
  rw [threadEntries, List.length_map, List.length_zipIdx]

theorem chain_threadEntries_eq_nil : chain (threadEntries t objects) o = [] ↔ o ∉ objects := by
  rw [List.eq_nil_iff_forall_not_mem]
  constructor
  · intro hnone hmem
    obtain ⟨i, hget⟩ := List.mem_iff_getElem?.mp hmem
    exact hnone (t, i) (mem_chain.mpr (mem_threadEntries.mpr ⟨rfl, hget⟩))
  · intro hnot n hn; exact hnot (List.mem_of_getElem? (mem_threadEntries.mp (mem_chain.mp hn)).2)

/-! ## The blocked threads -/

/-- The nodes of all blocked threads, in the order of waiting. -/
def State.entries (s : State) : List (Node × Object) :=
  s.order.flatMap fun t => threadEntries t (s.objects t)

/-- The nodes that wait for an object: those of each blocked thread, in the order of waiting. -/
def State.waiters (s : State) (o : Object) : List Node := chain s.entries o

structure Inv (s : State) : Prop where
  order_nodup : s.order.Nodup
  mem_order : ∀ t, t ∈ s.order ↔ s.waiting t ≠ none
  linked : Linked s s.entries

theorem objects_eq (ht : s.waiting t = some objects) : s.objects t = objects := by
  rw [State.objects, ht]; rfl

theorem length_entries_lt (s : State) : s.entries.length < s.fuel := by
  have hlen : s.entries.length = (s.order.map fun t => (s.objects t).length).sum := by
    rw [State.entries, List.length_flatMap]
    refine congrArg List.sum (List.map_congr_left fun t _ => ?_)
    exact length_threadEntries t _
  rw [hlen, State.fuel]
  exact Nat.lt_succ_self _

theorem Inv.mem_entries (h : Inv s) {i : Nat} :
    ((t, i), o) ∈ s.entries ↔ (s.objects t)[i]? = some o := by
  rw [State.entries, List.mem_flatMap]
  constructor
  · rintro ⟨u, _, hmem⟩
    obtain ⟨rfl, hget⟩ := mem_threadEntries.mp hmem
    exact hget
  · intro hget
    refine ⟨t, (h.mem_order t).mpr fun hnone => ?_, mem_threadEntries.mpr ⟨rfl, hget⟩⟩
    rw [State.objects, hnone] at hget; cases hget

theorem Inv.threadEntries_subset (h : Inv s) (ht : s.waiting t = some objects) :
    threadEntries t objects ⊆ s.entries := by
  rintro ⟨⟨u, i⟩, o⟩ hmem
  obtain ⟨rfl, hget⟩ := mem_threadEntries.mp hmem
  exact h.mem_entries.mpr (objects_eq ht ▸ hget)

theorem inv_initial : Inv .initial where
  order_nodup := List.nodup_nil
  mem_order := fun t => by
    constructor
    · intro hmem
      cases hmem
    · intro hne; exact absurd rfl hne
  linked := ⟨List.nodup_nil, fun _ => rfl, fun _ => rfl⟩

/-! ## Waiting -/

theorem entries_append {l : List Thread} (hl : t ∉ l) (s : State) (objects : List Object) :
    (l ++ [t]).flatMap (fun u =>
        threadEntries u ((update s.waiting t (some objects) u).getD [])) =
      l.flatMap (fun u => threadEntries u (s.objects u)) ++ threadEntries t objects := by
  rw [List.flatMap_append, List.flatMap_singleton, update_self]
  refine congrArg (· ++ _) (List.flatMap_congr fun u hu => ?_)
  have hut : u ≠ t := fun heq => hl (heq ▸ hu)
  rw [update_of_ne hut]
  rfl

theorem Inv.beginWait (h : Inv s) (ht : s.waiting t = none) (objects : List Object) :
    Inv (s.beginWait t objects) ∧ (s.beginWait t objects).woken = s.woken ∧
      (s.beginWait t objects).order = s.order ++ [t] := by
  have hnot : t ∉ s.order := fun hmem => (h.mem_order t).mp hmem ht
  have hnd : ((s.entries ++ threadEntries t objects).map Prod.fst).Nodup := by
    rw [List.map_append]
    refine h.linked.nodup.append (threadEntries_nodup t objects) ?_
    intro n hn hn'
    obtain ⟨⟨⟨u, i⟩, o⟩, he, rfl⟩ := List.mem_map.mp hn
    obtain ⟨⟨n', o'⟩, he', heq⟩ := List.mem_map.mp hn'
    have hu : n'.1 = t := (mem_threadEntries.mp he').1
    have hget := h.mem_entries.mp he
    have hut : u = t := (congrArg Prod.fst heq).symm.trans hu
    rw [hut, State.objects, ht] at hget; cases hget
  obtain ⟨hlinked, hsame⟩ := h.linked.linkMany hnd
  have horder : (s.beginWait t objects).order = s.order ++ [t] :=
    congrArg (· ++ [t]) hsame.order
  have hwaiting : (s.beginWait t objects).waiting = update s.waiting t (some objects) := by
    show update ((threadEntries t objects).foldl State.linkEntry s).waiting t _ = _
    rw [hsame.waiting]
  have hentries : (s.beginWait t objects).entries = s.entries ++ threadEntries t objects := by
    unfold State.entries State.objects
    rw [horder, hwaiting]; exact entries_append hnot s objects
  refine ⟨⟨?_, fun u => ?_, ?_⟩, hsame.woken, horder⟩
  · rw [horder, ← List.concat_eq_append]
    exact (List.nodup_concat _ _).mpr ⟨hnot, h.order_nodup⟩
  · rw [horder, hwaiting, List.mem_append, List.mem_singleton]
    rcases eq_or_ne u t with rfl | hne
    · simp
    · rw [update_of_ne hne, ← h.mem_order]; simp [hne]
  · rw [hentries]; exact hlinked.congr rfl rfl rfl

/-! ## Waking one thread -/

theorem removeAll_append {E E' L : List (Node × Object)} :
    removeAll (E ++ E') L = removeAll E L ++ removeAll E' L := by
  rw [removeAll, List.filter_append, removeAll, removeAll]

theorem removeAll_entries {l : List Thread} (hnd : l.Nodup) (ht : s.waiting t = some objects) :
    removeAll (l.flatMap fun u => threadEntries u (s.objects u)) (threadEntries t objects) =
      (l.erase t).flatMap fun u => threadEntries u ((update s.waiting t none u).getD []) := by
  induction l with
  | nil => rfl
  | cons u l ih =>
    have hrest := ih (List.nodup_cons.mp hnd).2
    rw [List.flatMap_cons, removeAll_append, hrest]
    rcases eq_or_ne u t with rfl | hne
    · have hall : removeAll (threadEntries u (s.objects u)) (threadEntries u objects) = [] := by
        rw [objects_eq ht]
        refine List.filter_eq_nil_iff.mpr fun e he => ?_
        rw [decide_eq_true_eq, not_not]; exact List.mem_map_of_mem he
      rw [hall, List.nil_append, List.erase_cons_head,
        List.erase_of_not_mem (List.nodup_cons.mp hnd).1]
    · have hkeep : removeAll (threadEntries u (s.objects u)) (threadEntries t objects) =
          threadEntries u (s.objects u) := by
        refine List.filter_eq_self.mpr fun e he => ?_
        rw [decide_eq_true_eq]
        intro hmem
        obtain ⟨⟨n, o⟩, hn, heq⟩ := List.mem_map.mp hmem
        have hnt : n.1 = t := (mem_threadEntries.mp hn).1
        have hnu : e.1.1 = u := (mem_threadEntries.mp (show (e.1, e.2) ∈ _ from he)).1
        exact hne (hnu.symm.trans ((congrArg Prod.fst heq).symm.trans hnt))
      rw [hkeep, List.erase_cons_tail (by simpa using hne), List.flatMap_cons,
        update_of_ne hne]
      rfl

theorem Inv.unlinkAll (h : Inv s) (ht : s.waiting t = some objects) :
    ∃ s', s.unlinkAll t objects = some s' ∧
      Linked s' (removeAll s.entries (threadEntries t objects)) ∧ SameThreads s s' ∧
      ∀ o R, s.waiters o = chain (threadEntries t objects) o ++ R → ∀ m ∈ s.waiters o,
        s'.next m = s.next m := by
  obtain ⟨s', heq, hlinked, hsame, hframe⟩ :=
    h.linked.unlinkMany (h.threadEntries_subset ht) (threadEntries_nodup t objects)
      (length_entries_lt s)
  refine ⟨s', heq, hlinked, hsame, fun o R hR m hm => hframe o R hR m fun o' hne hmem => ?_⟩
  exact hne (object_unique h.linked.nodup hmem (mem_chain.mp hm))

theorem Inv.wake (h : Inv s) (ht : s.waiting t = some objects)
    (hlinked : Linked s' (removeAll s.entries (threadEntries t objects)))
    (hwaiting : s'.waiting = s.waiting) (horder : s'.order = s.order) :
    Inv (s'.wake t result) ∧
      (s'.wake t result).entries = removeAll s.entries (threadEntries t objects) := by
  have hentries : (s'.wake t result).entries = removeAll s.entries (threadEntries t objects) := by
    show (s'.order.erase t).flatMap (fun u =>
      threadEntries u ((update s'.waiting t none u).getD [])) = _
    rw [horder, hwaiting]; exact (removeAll_entries h.order_nodup ht).symm
  refine ⟨⟨?_, fun u => ?_, ?_⟩, hentries⟩
  · show (s'.order.erase t).Nodup
    rw [horder]
    exact h.order_nodup.erase t
  · show u ∈ s'.order.erase t ↔ update s'.waiting t none u ≠ none
    rw [horder, hwaiting, h.order_nodup.mem_erase_iff]
    rcases eq_or_ne u t with rfl | hne
    · simp
    · rw [update_of_ne hne, ← h.mem_order]; simp [hne]
  · rw [hentries]; exact hlinked.congr rfl rfl rfl

theorem Inv.cancelWait (h : Inv s) (t : Thread) (result : Result) :
    ∃ s', s.cancelWait t result = some s' ∧ Inv s' ∧
      s'.woken = s.woken ++ (if s.waiting t = none then [] else [t]) ∧
      s'.waiting = update s.waiting t none := by
  cases ht : s.waiting t with
  | none =>
    refine ⟨s, by rw [State.cancelWait, ht], h, by simp, ?_⟩
    rw [← ht, update_eq_self]
  | some objects =>
    obtain ⟨s', heq, hlinked, hsame, -⟩ := h.unlinkAll ht
    have hwake := @Inv.wake s s' t objects result h ht hlinked hsame.waiting hsame.order
    refine ⟨s'.wake t result, ?_, hwake.1, ?_, ?_⟩
    · rw [State.cancelWait, ht]
      show (s.unlinkAll t objects).map _ = _
      rw [heq]
      rfl
    · show s'.woken ++ [t] = _
      rw [hsame.woken]
      simp
    · show update s'.waiting t none = _
      rw [hsame.waiting]

/-! ## Waking the threads of an object -/

/-- What `NotifyAvailable` of a signaled object does to the threads. -/
structure Notified (o : Object) (result : Result) (s s' : State) : Prop where
  signaled : s'.signaled = s.signaled
  order : s'.order = s.order.filter fun t => decide (o ∉ s.objects t)
  woken : s'.woken = s.woken ++ s.order.filter fun t => decide (o ∈ s.objects t)
  waiting : ∀ t, s'.waiting t = if o ∈ s.objects t then none else s.waiting t
  syncedIndex : ∀ t, s'.syncedIndex t =
    if o ∈ s.objects t then syncIndex (s.objects t) o else s.syncedIndex t
  waitResult : ∀ t, s'.waitResult t = if o ∈ s.objects t then result else s.waitResult t

theorem chain_flatMap_cons {l : List Thread} {x : Node} {rest : List Node}
    (hchain : chain (l.flatMap fun u => threadEntries u (s.objects u)) o = x :: rest) :
    ∃ A B R, l = A ++ x.1 :: B ∧ (∀ u ∈ A, o ∉ s.objects u) ∧ o ∈ s.objects x.1 ∧
      x :: rest = chain (threadEntries x.1 (s.objects x.1)) o ++ R := by
  induction l with
  | nil => cases hchain
  | cons u l ih =>
    rw [List.flatMap_cons, chain_append] at hchain
    cases hu : chain (threadEntries u (s.objects u)) o with
    | nil =>
      rw [hu, List.nil_append] at hchain
      obtain ⟨A, B, R, rfl, hA, hx, hR⟩ := ih hchain
      refine ⟨u :: A, B, R, rfl, fun v hv => ?_, hx, hR⟩
      rcases List.mem_cons.mp hv with rfl | hv
      · exact chain_threadEntries_eq_nil.mp hu
      · exact hA v hv
    | cons y ys =>
      have hyx : y = x := by
        rw [hu, List.cons_append] at hchain; exact (List.cons.inj hchain).1
      have hy : (y, o) ∈ threadEntries u (s.objects u) := mem_chain.mp (hu ▸ List.mem_cons_self)
      obtain ⟨hyu, hget⟩ := mem_threadEntries.mp hy
      have hxu : x.1 = u := hyx ▸ hyu
      refine ⟨[], l, chain (l.flatMap fun u => threadEntries u (s.objects u)) o, ?_,
        List.forall_mem_nil _, ?_, ?_⟩
      · rw [hxu]
        rfl
      · rw [hxu]
        exact List.mem_of_getElem? hget
      · rw [hxu]; exact hchain.symm

theorem Inv.notified_refl (h : Inv s) (hnone : s.waiters o = []) : Notified o result s s := by
  have hnot : ∀ t, o ∉ s.objects t := by
    intro t hmem
    obtain ⟨i, hget⟩ := List.mem_iff_getElem?.mp hmem
    have hin : (t, i) ∈ s.waiters o := mem_chain.mpr (h.mem_entries.mpr hget)
    rw [hnone] at hin; cases hin
  refine ⟨rfl, ?_, ?_, fun t => ?_, fun t => ?_, fun t => ?_⟩
  · exact (List.filter_eq_self.mpr fun t _ => decide_eq_true (hnot t)).symm
  · have hnil : s.order.filter (fun t => decide (o ∈ s.objects t)) = [] :=
      List.filter_eq_nil_iff.mpr fun t _ => by simpa using hnot t
    rw [hnil, List.append_nil]
  · rw [if_neg (hnot t)]
  · rw [if_neg (hnot t)]
  · rw [if_neg (hnot t)]

theorem Notified.cons {s₁ : State} {A B : List Thread} (h : Inv s) (horder : s.order = A ++ t :: B)
    (hA : ∀ u ∈ A, o ∉ s.objects u) (ht : o ∈ s.objects t) (hrest : Notified o result s₁ s')
    (hsignaled : s₁.signaled = s.signaled) (horder₁ : s₁.order = s.order.erase t)
    (hwoken : s₁.woken = s.woken ++ [t]) (hwaiting : s₁.waiting = update s.waiting t none)
    (hindex : s₁.syncedIndex = update s.syncedIndex t (syncIndex (s.objects t) o))
    (hresult : s₁.waitResult = update s.waitResult t result) : Notified o result s s' := by
  have hself : s₁.objects t = [] := by
    rw [State.objects, hwaiting, update_self]; rfl
  have hother : ∀ u, u ≠ t → s₁.objects u = s.objects u := by
    intro u hne
    rw [State.objects, hwaiting, update_of_ne hne]; rfl
  have hnd : (A ++ t :: B).Nodup := horder ▸ h.order_nodup
  have htAB : t ∉ A ++ B := (List.nodup_cons.mp (List.nodup_middle.mp hnd)).1
  have herase : s.order.erase t = A ++ B := by
    have htA : t ∉ A := fun hmem => htAB (List.mem_append_left _ hmem)
    rw [horder, List.erase_append_right _ htA, List.erase_cons_head]
  have hobjects : ∀ u ∈ A ++ B, s₁.objects u = s.objects u := by
    intro u hu; exact hother u fun heq => htAB (heq ▸ hu)
  refine ⟨hrest.signaled.trans hsignaled, ?_, ?_, fun u => ?_, fun u => ?_, fun u => ?_⟩
  · rw [hrest.order, horder₁, herase, horder, List.filter_append, List.filter_append,
      List.filter_cons, if_neg (by simpa using ht), ← List.filter_append, ← List.filter_append]
    exact List.filter_congr fun u hu => by rw [hobjects u hu]
  · have hnil : A.filter (fun u => decide (o ∈ s.objects u)) = [] :=
      List.filter_eq_nil_iff.mpr fun u hu => by simpa using hA u hu
    have hsame : (A ++ B).filter (fun u => decide (o ∈ s₁.objects u)) =
        B.filter fun u => decide (o ∈ s.objects u) := by
      rw [List.filter_congr fun u hu => by rw [hobjects u hu], List.filter_append, hnil,
        List.nil_append]
    rw [hrest.woken, hwoken, horder₁, herase, hsame, horder, List.filter_append, hnil,
      List.filter_cons, if_pos (by simpa using ht), List.append_assoc]
    rfl
  · rw [hrest.waiting]
    rcases eq_or_ne u t with rfl | hne
    · rw [hself, if_neg List.not_mem_nil, if_pos ht, hwaiting, update_self]
    · rw [hother u hne, hwaiting, update_of_ne hne]
  · rw [hrest.syncedIndex]
    rcases eq_or_ne u t with rfl | hne
    · rw [hself, if_neg List.not_mem_nil, if_pos ht, hindex, update_self]
    · rw [hother u hne, hindex, update_of_ne hne]
  · rw [hrest.waitResult]
    rcases eq_or_ne u t with rfl | hne
    · rw [hself, if_neg List.not_mem_nil, if_pos ht, hresult, update_self]
    · rw [hother u hne, hresult, update_of_ne hne]

theorem Inv.notifyFirst (h : Inv s) {x : Node} {rest : List Node}
    (hx : s.waiters o = x :: rest) (hf : Follows s.next (some x) (x :: rest)) (result : Result) :
    ∃ s₁ stale, s.notifyThread x.1 o result = some s₁ ∧ Inv s₁ ∧
      rest = stale ++ s₁.waiters o ∧ Follows s₁.next (s₁.next x) (stale ++ s₁.waiters o) ∧
      (∀ m ∈ stale, s₁.waiting m.1 = none) ∧
      ∀ s', Notified o result s₁ s' → Notified o result s s' := by
  obtain ⟨A, B, R, horder, hA, ho, hR⟩ := chain_flatMap_cons hx
  obtain ⟨objects, ht⟩ : ∃ objects, s.waiting x.1 = some objects :=
    Option.ne_none_iff_exists'.mp ((h.mem_order x.1).mp (by rw [horder]; simp))
  rw [objects_eq ht] at hR
  obtain ⟨s₀, heq, hlinked, hsame, hframe⟩ := h.unlinkAll ht
  let s₁ : State :=
    { s₀ with syncedIndex := update s₀.syncedIndex x.1 (syncIndex objects o) }
  have hlinked₁ : Linked s₁ (removeAll s.entries (threadEntries x.1 objects)) :=
    hlinked.congr rfl rfl rfl
  obtain ⟨hinv, hentries⟩ :=
    @Inv.wake s s₁ x.1 objects result h ht hlinked₁ hsame.waiting hsame.order
  have hwR : s.waiters o = chain (threadEntries x.1 objects) o ++ R := hx.trans hR
  have hwaiters : (s₁.wake x.1 result).waiters o = R := by
    rw [State.waiters, hentries]
    exact chain_removeAll h.linked.nodup (h.threadEntries_subset ht) hwR
  -- The nodes of the thread that the loop has not passed yet.
  obtain ⟨stale, hstale⟩ : ∃ stale, chain (threadEntries x.1 objects) o = x :: stale := by
    cases hchain : chain (threadEntries x.1 objects) o with
    | nil => exact absurd (objects_eq ht ▸ ho) (chain_threadEntries_eq_nil.mp hchain)
    | cons y ys =>
      rw [hchain, List.cons_append] at hR; exact ⟨ys, by rw [(List.cons.inj hR).1]⟩
  have hrest : rest = stale ++ R := by
    rw [hstale, List.cons_append] at hR; exact (List.cons.inj hR).2
  have hnext : ∀ m ∈ x :: rest, s₀.next m = s.next m := by
    intro m hm; exact hframe o R hwR m (hx ▸ hm)
  refine ⟨s₁.wake x.1 result, stale, ?_, hinv, ?_, ?_, ?_, ?_⟩
  · rw [State.notifyThread, ht]
    show (s.unlinkAll x.1 objects).map _ = _
    rw [heq]
    rfl
  · rw [hwaiters, hrest]
  · rw [hwaiters, ← hrest]
    show Follows s₀.next (s₀.next x) rest
    rw [hnext x List.mem_cons_self]
    exact hf.2.congr fun m hm => hnext m (List.mem_cons_of_mem _ hm)
  · intro m hm
    have hm' : (m, o) ∈ threadEntries x.1 objects :=
      mem_chain.mp (hstale ▸ List.mem_cons_of_mem _ hm)
    show update s₀.waiting x.1 none m.1 = none
    rw [(mem_threadEntries.mp hm').1, update_self]
  · intro s' hs'
    refine hs'.cons h horder hA ho hsame.signaled ?_ ?_ ?_ ?_ ?_
    · show s₀.order.erase x.1 = _
      rw [hsame.order]
    · show s₀.woken ++ [x.1] = _
      rw [hsame.woken]
    · show update s₀.waiting x.1 none = _
      rw [hsame.waiting]
    · show update s₀.syncedIndex x.1 (syncIndex objects o) = _
      rw [hsame.syncedIndex, objects_eq ht]
    · show update s₀.waitResult x.1 result = _
      rw [hsame.waitResult]

theorem notifyLoop_notified {fuel : Nat} {cur : Option Node} {stale : List Node} (h : Inv s)
    (hf : Follows s.next cur (stale ++ s.waiters o)) (hstale : ∀ m ∈ stale, s.waiting m.1 = none)
    (hfuel : (stale ++ s.waiters o).length ≤ fuel) :
    ∃ s', State.notifyLoop o result fuel s cur = some s' ∧ Inv s' ∧ Notified o result s s' := by
  induction fuel generalizing s cur stale with
  | zero =>
    have hnil := List.eq_nil_of_length_eq_zero (Nat.le_zero.mp hfuel)
    obtain rfl : cur = none := by
      rw [hnil] at hf; exact hf
    exact ⟨s, rfl, h, h.notified_refl (List.append_eq_nil_iff.mp hnil).2⟩
  | succ fuel ih =>
    cases stale with
    | cons m stale =>
      -- A stale node: its thread is not waiting.
      obtain ⟨rfl, hf⟩ := hf
      have hthread : s.notifyThread m.1 o result = some s := by
        rw [State.notifyThread, hstale m List.mem_cons_self]
      have hfuel' : (stale ++ s.waiters o).length ≤ fuel := by
        simpa using hfuel
      obtain ⟨s', heq, hinv, hnot⟩ :=
        ih h hf (fun k hk => hstale k (List.mem_cons_of_mem _ hk)) hfuel'
      refine ⟨s', ?_, hinv, hnot⟩
      rw [State.notifyLoop, hthread]; exact heq
    | nil =>
      cases hx : s.waiters o with
      | nil =>
        rw [hx] at hf
        obtain rfl : cur = none := hf; exact ⟨s, rfl, h, h.notified_refl hx⟩
      | cons x rest =>
        rw [List.nil_append, hx] at hf hfuel
        obtain rfl : cur = some x := hf.1
        obtain ⟨s₁, stale, heq₁, hinv₁, hrest, hf₁, hstale₁, hnotified⟩ :=
          h.notifyFirst hx hf result
        have hfuel' : (stale ++ s₁.waiters o).length ≤ fuel := by
          rw [← hrest]; simpa using hfuel
        obtain ⟨s', heq, hinv, hnot⟩ := ih hinv₁ hf₁ hstale₁ hfuel'
        refine ⟨s', ?_, hinv, hnotified s' hnot⟩
        rw [State.notifyLoop, heq₁]; exact heq

theorem Inv.notifyAvailable (h : Inv s) (hsignaled : s.signaled o = true) (result : Result) :
    ∃ s', s.notifyAvailable o result = some s' ∧ Inv s' ∧ Notified o result s s' := by
  have hf : Follows s.next (s.head o) ([] ++ s.waiters o) := h.linked.trip o
  have hfuel : ([] ++ s.waiters o).length ≤ s.fuel := by
    have hle : (s.waiters o).length ≤ s.entries.length := length_chain_le
    exact hle.trans (length_entries_lt s).le
  rw [State.notifyAvailable, if_pos hsignaled]
  exact notifyLoop_notified h hf (List.forall_mem_nil _) hfuel

theorem syncIndex_lowest (ho : o ∈ objects) :
    ∃ i : Nat, syncIndex objects o = i ∧ objects[i]? = some o ∧ ∀ j < i, objects[j]? ≠ some o := by
  cases hfind : objects.findIdx? fun p => decide (p = o) with
  | none =>
    have hnone := List.findIdx?_eq_none_iff.mp hfind o ho
    simp at hnone
  | some i =>
    obtain ⟨hi, hp, hlow⟩ := List.findIdx?_eq_some_iff_getElem.mp hfind
    refine ⟨i, by rw [syncIndex, hfind], ?_, fun j hj heq => ?_⟩
    · rw [List.getElem?_eq_getElem hi, of_decide_eq_true hp]
    · obtain ⟨hj', heq⟩ := List.getElem?_eq_some_iff.mp heq; exact hlow j hj (decide_eq_true heq)

/-! ## Runs -/

inductive Reachable : State → Prop
  | initial : Reachable .initial
  | step {s s' : State} (hs : Reachable s) (a : Action) (ha : a.Valid s) (h : step s a = some s') :
      Reachable s'

/-- What one section does to the waiters: it wakes those that it unblocks. -/
structure Wakes (s s' : State) (W : List Thread) : Prop where
  woken : s'.woken = s.woken ++ W
  nodup : W.Nodup
  mem : ∀ t, t ∈ W ↔ s.waiting t ≠ none ∧ s'.waiting t = none

theorem wakes_none (hwoken : s'.woken = s.woken)
    (hwaiting : ∀ t, s.waiting t ≠ none → s'.waiting t ≠ none) : Wakes s s' [] where
  woken := by rw [hwoken, List.append_nil]
  nodup := List.nodup_nil
  mem := fun t => by
    constructor
    · intro hmem
      cases hmem
    · rintro ⟨hne, hnone⟩; exact absurd hnone (hwaiting t hne)

theorem Notified.wakes (h : Inv s) (hn : Notified o result s s') :
    Wakes s s' (s.order.filter fun t => decide (o ∈ s.objects t)) where
  woken := hn.woken
  nodup := h.order_nodup.filter _
  mem := fun t => by
    rw [List.mem_filter, decide_eq_true_eq, h.mem_order, hn.waiting]
    constructor
    · rintro ⟨hne, hmem⟩
      exact ⟨hne, if_pos hmem⟩
    · rintro ⟨hne, hnone⟩
      refine ⟨hne, ?_⟩
      by_contra hmem
      rw [if_neg hmem] at hnone; exact hne hnone

theorem Inv.step (h : Inv s) (a : Action) (ha : a.Valid s) :
    ∃ s' W, KSynchronizationObject.step s a = some s' ∧ Inv s' ∧ Wakes s s' W := by
  cases a with
  | wait t objects checks =>
    have hsame : Inv s ∧ Wakes s s [] := ⟨h, wakes_none rfl fun _ hne => hne⟩
    refine ⟨(s.wait t objects checks).1, [], rfl, ?_⟩
    unfold State.wait
    split
    · exact hsame
    split
    · exact hsame
    split
    · exact hsame
    split
    · exact hsame
    obtain ⟨hinv, hwoken, horder⟩ := h.beginWait ha.1 objects
    refine ⟨hinv, wakes_none hwoken fun u hne => ?_⟩
    rw [← hinv.mem_order, horder]
    exact List.mem_append_left _ ((h.mem_order u).mpr hne)
  | notifyAvailable o result =>
    cases hsignaled : s.signaled o with
    | true =>
      obtain ⟨s', heq, hinv, hn⟩ := h.notifyAvailable hsignaled result
      exact ⟨s', _, heq, hinv, hn.wakes h⟩
    | false =>
      refine ⟨s, [], ?_, h, wakes_none rfl fun _ hne => hne⟩
      show s.notifyAvailable o result = some s
      rw [State.notifyAvailable, hsignaled]; rfl
  | cancelWait t result =>
    obtain ⟨s', heq, hinv, hwoken, hwaiting⟩ := h.cancelWait t result
    refine ⟨s', _, heq, hinv, hwoken, ?_, fun u => ?_⟩
    · split
      · exact List.nodup_nil
      · exact List.nodup_singleton t
    · rw [hwaiting]
      rcases eq_or_ne u t with rfl | hne
      · rw [update_self]
        split
        · simp_all
        · simp_all
      · rw [update_of_ne hne]
        split
        · simp_all
        · simp_all
  | setSignaled o signaled =>
    exact ⟨_, [], rfl, ⟨h.order_nodup, h.mem_order, h.linked.congr rfl rfl rfl⟩,
      wakes_none rfl fun _ hne => hne⟩

theorem Reachable.inv (h : Reachable s) : Inv s := by
  induction h with
  | initial => exact inv_initial
  | step _ a ha hstep ih =>
    obtain ⟨s', W, heq, hinv, -⟩ := ih.step a ha
    rw [heq] at hstep
    obtain rfl := Option.some.inj hstep; exact hinv

/-- What `NotifyAvailable` promises each thread. -/
def NotifiesThread (s s' : State) (o : Object) (result : Result) (t : Thread) : Prop :=
  if o ∈ s.objects t then
    s'.waiting t = none ∧ s'.waitResult t = result ∧
      (∃ i : Nat, s'.syncedIndex t = i ∧ (s.objects t)[i]? = some o ∧
        ∀ j < i, (s.objects t)[j]? ≠ some o) ∧
      ∀ o', ∃ l, Follows s'.next (s'.head o') l ∧ ∀ n ∈ l, n.1 ≠ t
  else
    s'.waiting t = s.waiting t ∧ s'.syncedIndex t = s.syncedIndex t ∧
      s'.waitResult t = s.waitResult t

/-- The lists of nodes, and what the sections do from here. -/
structure Orderly (s : State) : Prop where
  /-- The blocked threads, each once. -/
  order : s.order.Nodup ∧ ∀ t, t ∈ s.order ↔ s.waiting t ≠ none
  /-- From the head over `next` one reads the waiters; the last is the tail. -/
  lists : ∀ o, Follows s.next (s.head o) (s.waiters o) ∧ s.tail o = (s.waiters o).getLast?
  /-- One node for each time a blocked thread names the object. -/
  occurrences : ∀ o, (s.waiters o).Nodup ∧ ∀ t i, (t, i) ∈ s.waiters o ↔
    ∃ objects, s.waiting t = some objects ∧ objects[i]? = some o
  /-- No loop fails, and whoever is unblocked is woken once. -/
  sections : ∀ a : Action, a.Valid s → ∃ s' W, step s a = some s' ∧ Wakes s s' W
  /-- `NotifyAvailable` of a signaled object. -/
  notify : ∀ o result, s.signaled o = true → ∃ s', s.notifyAvailable o result = some s' ∧
    Wakes s s' (s.order.filter fun t => decide (o ∈ s.objects t)) ∧
    ∀ t, NotifiesThread s s' o result t

theorem Notified.notifiesThread (h : Inv s') (hn : Notified o result s s') (t : Thread) :
    NotifiesThread s s' o result t := by
  unfold NotifiesThread
  split
  next ho =>
    have hnone : s'.waiting t = none := by rw [hn.waiting, if_pos ho]
    refine ⟨hnone, by rw [hn.waitResult, if_pos ho], ?_, fun o' => ?_⟩
    · rw [hn.syncedIndex, if_pos ho]
      exact syncIndex_lowest ho
    · refine ⟨s'.waiters o', h.linked.trip o', fun n hmem => ?_⟩
      rintro rfl
      have hget := h.mem_entries.mp (show ((n.1, n.2), o') ∈ _ from mem_chain.mp hmem)
      rw [State.objects, hnone] at hget; cases hget
  next ho =>
    exact ⟨by rw [hn.waiting, if_neg ho], by rw [hn.syncedIndex, if_neg ho],
      by rw [hn.waitResult, if_neg ho]⟩

/-- WAITING ON SEVERAL OBJECTS wakes each waiter exactly once. -/
theorem syncObjects_orderly (hs : Reachable s) : Orderly s where
  order := ⟨hs.inv.order_nodup, hs.inv.mem_order⟩
  lists := fun o => ⟨hs.inv.linked.trip o, hs.inv.linked.tail o⟩
  occurrences := fun o => by
    refine ⟨chain_nodup hs.inv.linked.nodup, fun t i => ?_⟩
    rw [State.waiters, mem_chain, hs.inv.mem_entries, State.objects]
    cases ht : s.waiting t with
    | none => simp
    | some objects => simp
  sections := fun a ha => by
    obtain ⟨s', W, heq, -, hwakes⟩ := hs.inv.step a ha; exact ⟨s', W, heq, hwakes⟩
  notify := fun o result hsignaled => by
    obtain ⟨s', heq, hinv, hn⟩ := hs.inv.notifyAvailable hsignaled result
    exact ⟨s', heq, hn.wakes hs.inv, fun t => hn.notifiesThread hinv t⟩

/-- Thread 1 waits for the objects 0, 5, 0 and thread 2 for 5, 0; then 0 is signaled. -/
def twoWaiters : State :=
  let checks : State.WaitChecks := ⟨false, false, false⟩
  let s := ((State.initial.wait 1 [0, 5, 0] checks).1.wait 2 [5, 0] checks).1
  { s with signaled := update s.signaled 0 true }

/-- Both threads are woken, in the order of waiting, each with the index of object 0. -/
theorem syncObjects_orderly_two :
    Orderly twoWaiters ∧ twoWaiters.waiters 0 = [(1, 0), (1, 2), (2, 1)] ∧
      (twoWaiters.notifyAvailable 0 .success).map (fun s =>
        (s.woken, [s.syncedIndex 1, s.syncedIndex 2], [s.head 0, s.tail 0, s.head 5, s.tail 5])) =
        some ([1, 2], [0, 1], [none, none, none, none]) := by
  refine ⟨syncObjects_orderly ?_, by decide, by decide⟩
  have h₁ : Reachable (State.initial.wait 1 [0, 5, 0] ⟨false, false, false⟩).1 :=
    .step .initial (.wait 1 [0, 5, 0] ⟨false, false, false⟩) ⟨rfl, by decide⟩ rfl
  have h₂ : Reachable _ := .step h₁ (.wait 2 [5, 0] ⟨false, false, false⟩) ⟨rfl, by decide⟩ rfl
  exact .step h₂ (.setSignaled 0 true) trivial rfl

end Suyu.Kernel.KSynchronizationObject
