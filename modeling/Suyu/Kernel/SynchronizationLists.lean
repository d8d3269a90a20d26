import Mathlib
import Suyu.Kernel.SynchronizationObject

/-
  THE LISTS OF NODES of all objects at once.

  1. **Specification (`Linked`)** - a list `E` of nodes with their objects, in the order in which they
     were linked, says what the list of EVERY object is: the nodes of `E` with that object (`chain`).

  2. **The crux** - a node stands in `E` once, so that the `next` of a node belongs to one list.
     Linking appends an entry of `E`, unlinking removes one, and both write only links of their own
     object.
-/

namespace Suyu.Kernel.KSynchronizationObject

open Function (update update_self update_of_ne)

open Lib.Linked

variable {s s' : State} {E L : List (Node × Object)} {n m : Node} {o o' : Object}

/-! ## Entries -/

/-- The nodes of an object. -/
def chain (E : List (Node × Object)) (o : Object) : List Node :=
  (E.filter fun e => decide (e.2 = o)).map Prod.fst

/-- The entries of other nodes. -/
def remove (E : List (Node × Object)) (n : Node) : List (Node × Object) :=
  E.filter fun e => decide (e.1 ≠ n)

@[simp] theorem mem_chain : n ∈ chain E o ↔ (n, o) ∈ E := by
  simp only [chain, List.mem_map, List.mem_filter, decide_eq_true_eq]
  constructor
  · rintro ⟨⟨n', o'⟩, ⟨hmem, rfl⟩, rfl⟩
    exact hmem
  · intro hmem; exact ⟨(n, o), ⟨hmem, rfl⟩, rfl⟩

@[simp] theorem chain_nil : chain [] o = [] := rfl

theorem chain_append : chain (E ++ L) o = chain E o ++ chain L o := by
  rw [chain, List.filter_append, List.map_append, chain, chain]

theorem chain_cons_self : chain ((n, o) :: E) o = n :: chain E o := by
  simp [chain]

theorem chain_cons_of_ne (hne : o' ≠ o) : chain ((n, o') :: E) o = chain E o := by
  simp [chain, hne]

theorem chain_nodup (hnd : (E.map Prod.fst).Nodup) : (chain E o).Nodup :=
  hnd.sublist (List.filter_sublist.map _)

theorem length_chain_le : (chain E o).length ≤ E.length := by
  rw [chain, List.length_map]; exact List.length_filter_le _ _

theorem chain_remove : chain (remove E n) o = (chain E o).filter fun m => decide (m ≠ n) := by
  rw [chain, remove, List.filter_filter, chain, List.filter_map, List.filter_filter]
  refine congrArg _ (List.filter_congr fun e _ => ?_)
  exact Bool.and_comm _ _

theorem object_unique (hnd : (E.map Prod.fst).Nodup) (h : (n, o) ∈ E) (h' : (n, o') ∈ E) : o = o' :=
  congrArg Prod.snd (List.inj_on_of_nodup_map hnd h h' rfl)

theorem chain_remove_of_ne (hnd : (E.map Prod.fst).Nodup) (h : (n, o) ∈ E) (hne : o' ≠ o) :
    chain (remove E n) o' = chain E o' := by
  rw [chain_remove]
  refine List.filter_eq_self.mpr fun m hm => ?_
  rw [decide_eq_true_eq]
  rintro rfl
  exact hne (object_unique hnd (mem_chain.mp hm) h)

theorem filter_ne_middle {l₁ l₂ : List Node} (hnd : (l₁ ++ n :: l₂).Nodup) :
    (l₁ ++ n :: l₂).filter (fun m => decide (m ≠ n)) = l₁ ++ l₂ := by
  have hn := (List.nodup_middle.mp hnd)
  have hnot : n ∉ l₁ ++ l₂ := (List.nodup_cons.mp hn).1
  rw [List.filter_append, List.filter_cons, if_neg (by simp), ← List.filter_append]
  refine List.filter_eq_self.mpr fun m hm => ?_
  rw [decide_eq_true_eq]
  rintro rfl
  exact hnot hm

/-! ## One link -/

section SetLink

variable {p v : Option Node} {l : List Node}

theorem links_setLink (s : State) (o : Object) (p v : Option Node) :
    (s.setLink o p v).links o = update (s.links o) p v := by
  funext q
  cases p with
  | none =>
    cases q with
    | none => simp [State.links, State.setLink]
    | some m => rfl
  | some k =>
    cases q with
    | none => rfl
    | some m =>
      rcases eq_or_ne m k with rfl | hne
      · simp [State.links, State.setLink]
      · have hne' : some m ≠ some k := fun h => hne (Option.some.inj h)
        simp [State.links, State.setLink, update_of_ne hne, update_of_ne hne']

theorem trip_setLink_of_ne (ht : Trip (s.links o') l) (hne : o' ≠ o) (hp : ∀ m ∈ l, some m ≠ p) :
    Trip ((s.setLink o p v).links o') l := by
  refine ht.congr ?_ fun m hm => ?_
  · cases p with
    | none => exact update_of_ne hne _ _
    | some k => rfl
  · cases p with
    | none => rfl
    | some k =>
      have hk : m ≠ k := fun h => hp m hm (congrArg some h)
      exact update_of_ne hk _ _

end SetLink

/-! ## All lists -/

/-- `E` says what the lists are. -/
structure Linked (s : State) (E : List (Node × Object)) : Prop where
  nodup : (E.map Prod.fst).Nodup
  trip : ∀ o, Trip (s.links o) (chain E o)
  tail : ∀ o, s.tail o = (chain E o).getLast?

/-- What only the threads have is the same. -/
structure SameThreads (s s' : State) : Prop where
  signaled : s'.signaled = s.signaled
  waiting : s'.waiting = s.waiting
  syncedIndex : s'.syncedIndex = s.syncedIndex
  waitResult : s'.waitResult = s.waitResult
  order : s'.order = s.order
  woken : s'.woken = s.woken

theorem SameThreads.rfl' (s : State) : SameThreads s s := ⟨rfl, rfl, rfl, rfl, rfl, rfl⟩

theorem SameThreads.trans {s₁ s₂ s₃ : State} (h : SameThreads s₁ s₂) (h' : SameThreads s₂ s₃) :
    SameThreads s₁ s₃ :=
  ⟨h'.signaled.trans h.signaled, h'.waiting.trans h.waiting, h'.syncedIndex.trans h.syncedIndex,
    h'.waitResult.trans h.waitResult, h'.order.trans h.order, h'.woken.trans h.woken⟩

theorem SameThreads.fuel (h : SameThreads s s') : s'.fuel = s.fuel := by
  unfold State.fuel State.objects
  rw [h.order, h.waiting]

theorem sameThreads_setLink (s : State) (o : Object) (p v : Option Node) :
    SameThreads s (s.setLink o p v) := by
  cases p with
  | none => exact ⟨rfl, rfl, rfl, rfl, rfl, rfl⟩
  | some k => exact ⟨rfl, rfl, rfl, rfl, rfl, rfl⟩

theorem tail_setLink (s : State) (o : Object) (p v : Option Node) : (s.setLink o p v).tail = s.tail := by
  cases p with
  | none => rfl
  | some k => rfl

theorem next_setLink (s : State) (o : Object) (p v : Option Node) (hm : some m ≠ p) :
    (s.setLink o p v).next m = s.next m := by
  cases p with
  | none => rfl
  | some k => exact update_of_ne (fun h => hm (congrArg some h)) _ _

theorem Linked.congr (h : Linked s E) (hhead : s'.head = s.head) (htail : s'.tail = s.tail)
    (hnext : s'.next = s.next) : Linked s' E := by
  have hlinks : ∀ o, s'.links o = s.links o := by
    intro o
    funext q
    cases q with
    | none => exact congrFun hhead o
    | some k => exact congrFun hnext k
  refine ⟨h.nodup, fun o => ?_, fun o => ?_⟩
  · rw [hlinks]
    exact h.trip o
  · rw [htail]; exact h.tail o

/-! ## Linking -/

theorem sameThreads_linkEntry (s : State) (e : Node × Object) : SameThreads s (s.linkEntry e) := by
  have h := sameThreads_setLink { s with next := update s.next e.1 none } e.2 (s.tail e.2)
    (some e.1)
  exact ⟨h.signaled, h.waiting, h.syncedIndex, h.waitResult, h.order, h.woken⟩

theorem Linked.link (h : Linked s E) (hn : n ∉ E.map Prod.fst) :
    Linked (s.linkEntry (n, o)) (E ++ [(n, o)]) := by
  have hnot : ∀ o', n ∉ chain E o' := by
    intro o' hmem; exact hn (List.mem_map.mpr ⟨(n, o'), mem_chain.mp hmem, rfl⟩)
  -- The cleared node is in no list yet.
  let s₁ : State := { s with next := update s.next n none }
  have hlinks : ∀ o', s₁.links o' = update (s.links o') (some n) none := by
    intro o'
    funext q
    cases q with
    | none => rfl
    | some m =>
      rcases eq_or_ne m n with rfl | hne
      · simp [State.links, s₁]
      · have hne' : some m ≠ some n := fun heq => hne (Option.some.inj heq)
        simp [State.links, s₁, update_of_ne hne, update_of_ne hne']
  have htrip : ∀ o', Trip (s₁.links o') (chain E o') := by
    intro o'
    rw [hlinks]
    refine (h.trip o').congr (update_of_ne (by simp) _ _) fun m hm => ?_
    refine update_of_ne (fun heq => ?_) _ _
    exact hnot o' (Option.some.inj heq ▸ hm)
  refine ⟨?_, fun o' => ?_, fun o' => ?_⟩
  · rw [List.map_append, List.map_singleton]
    rw [← List.concat_eq_append]
    exact (List.nodup_concat _ _).mpr ⟨hn, h.nodup⟩
  · show Trip ((s₁.setLink o (s.tail o) (some n)).links o') _
    rcases eq_or_ne o' o with rfl | hne
    · rw [links_setLink, hlinks, h.tail, chain_append, chain_cons_self]
      have hins := @Trip.insert _ _ (s.links o') (chain E o') [] n
        (by rw [List.append_nil]; exact h.trip o')
        (by rw [List.append_nil]; exact chain_nodup h.nodup)
        (by rw [List.append_nil]; exact hnot o')
      exact hins
    · rw [chain_append, chain_cons_of_ne hne.symm, chain_nil, List.append_nil]
      refine trip_setLink_of_ne (htrip o') hne fun m hm heq => ?_
      rw [h.tail] at heq
      have hmo := mem_chain.mp (List.mem_of_getLast? heq.symm)
      exact hne (object_unique h.nodup (mem_chain.mp hm) hmo)
  · show update s.tail o (some n) o' = _
    rcases eq_or_ne o' o with rfl | hne
    · rw [update_self, chain_append, chain_cons_self, chain_nil, List.getLast?_concat]
    · rw [update_of_ne hne, chain_append, chain_cons_of_ne hne.symm, chain_nil,
        List.append_nil]
      exact h.tail o'

theorem Linked.linkMany (h : Linked s E) (hnd : ((E ++ L).map Prod.fst).Nodup) :
    Linked (L.foldl State.linkEntry s) (E ++ L) ∧ SameThreads s (L.foldl State.linkEntry s) := by
  induction L generalizing s E with
  | nil =>
    rw [List.append_nil]; exact ⟨h, .rfl' s⟩
  | cons e L ih =>
    obtain ⟨n, o⟩ := e
    have hn : n ∉ E.map Prod.fst := by
      intro hmem
      rw [List.map_append] at hnd
      exact (List.nodup_append'.mp hnd).2.2 hmem List.mem_cons_self
    have hassoc : E ++ (n, o) :: L = (E ++ [(n, o)]) ++ L := by rw [List.append_assoc]; rfl
    have hrest := ih (h.link hn) (by rw [← hassoc]; exact hnd)
    rw [hassoc]; exact ⟨hrest.1, (sameThreads_linkEntry s (n, o)).trans hrest.2⟩

/-! ## Unlinking -/

theorem search_eq {l₀ l₁ l₂ : List Node} {fuel : Nat}
    (ht : Trip (s.links o) (l₀ ++ (l₁ ++ n :: l₂))) (hn : n ∉ l₁) (hfuel : l₁.length < fuel) :
    s.search o n fuel l₀.getLast? l₀.getLast? = some ((l₀ ++ l₁).getLast?, (l₀ ++ l₁).getLast?) := by
  induction l₁ generalizing l₀ fuel with
  | nil =>
    obtain ⟨fuel, rfl⟩ : ∃ f, fuel = f + 1 := ⟨fuel - 1, by simp at hfuel; omega⟩
    have hnext : s.links o l₀.getLast? = some n := ht.apply_getLast?
    simp [State.search, hnext]
  | cons m l₁ ih =>
    obtain ⟨fuel, rfl⟩ : ∃ f, fuel = f + 1 := ⟨fuel - 1, by simp at hfuel; omega⟩
    have hnext : s.links o l₀.getLast? = some m := ht.apply_getLast?
    have hmn : m ≠ n := fun heq => hn (heq ▸ List.mem_cons_self)
    simp only [State.search, hnext, hmn, if_false]
    have hassoc : l₀ ++ (m :: l₁ ++ n :: l₂) = (l₀ ++ [m]) ++ (l₁ ++ n :: l₂) := by simp
    have hrec := @ih (l₀ ++ [m]) fuel (hassoc ▸ ht) (fun hmem => hn (List.mem_cons_of_mem _ hmem))
      (by simpa using hfuel)
    rw [List.getLast?_concat, List.append_assoc] at hrec; exact hrec

theorem Linked.unlink (h : Linked s E) (hn : (n, o) ∈ E) (hfuel : E.length < s.fuel) :
    ∃ s', s.unlinkNode o n = some s' ∧ Linked s' (remove E n) ∧ SameThreads s s' ∧
      ∀ m, (∀ l₁ l₂, chain E o = l₁ ++ n :: l₂ → some m ≠ l₁.getLast?) → s'.next m = s.next m := by
  obtain ⟨l₁, l₂, hchain⟩ := List.append_of_mem (mem_chain.mpr hn)
  have hnd : (l₁ ++ n :: l₂).Nodup := hchain ▸ chain_nodup h.nodup
  have hnl₁ : n ∉ l₁ := fun hmem => (List.nodup_append'.mp hnd).2.2 hmem List.mem_cons_self
  have htrip : Trip (s.links o) (l₁ ++ n :: l₂) := hchain ▸ h.trip o
  have hlen : l₁.length < s.fuel := by
    have hle : (chain E o).length ≤ E.length := length_chain_le
    rw [hchain, List.length_append] at hle; omega
  have hsearch : s.search o n s.fuel none none = some (l₁.getLast?, l₁.getLast?) :=
    @search_eq s n o [] l₁ l₂ s.fuel htrip hnl₁ hlen
  have hnext : s.next n = l₂.head? := by
    have htrip' : Trip (s.links o) ((l₁ ++ [n]) ++ l₂) := by rwa [List.append_assoc]
    have happly := htrip'.apply_getLast?
    rwa [List.getLast?_concat] at happly
  -- The state between the two writes.
  let s₁ : State :=
    if s.tail o = some n then { s with tail := update s.tail o l₁.getLast? } else s
  have hs₁ : s₁.next = s.next ∧ (∀ o', s₁.links o' = s.links o') ∧ SameThreads s s₁ := by
    show _ ∧ _ ∧ _
    simp only [s₁]
    split
    · exact ⟨rfl, fun _ => funext fun q => by cases q <;> rfl, ⟨rfl, rfl, rfl, rfl, rfl, rfl⟩⟩
    · exact ⟨rfl, fun _ => rfl, .rfl' s⟩
  have hs₁tail : ∀ o', s₁.tail o' = (chain (remove E n) o').getLast? := by
    intro o'
    rcases eq_or_ne o' o with rfl | hne
    · rw [chain_remove, hchain, filter_ne_middle hnd]
      have htail := h.tail o'
      rw [hchain] at htail
      rcases List.eq_nil_or_concat' l₂ with rfl | ⟨l, x, rfl⟩
      · rw [List.getLast?_concat] at htail
        simp [s₁, htail]
      · have hx : x ≠ n := by
          rintro rfl; exact (List.nodup_cons.mp (List.nodup_middle.mp hnd)).1 (by simp)
        have hassoc : l₁ ++ n :: (l ++ [x]) = (l₁ ++ n :: l) ++ [x] := by simp
        rw [hassoc, List.getLast?_concat] at htail
        rw [← List.append_assoc, List.getLast?_concat]; simp [s₁, htail, hx]
    · rw [chain_remove_of_ne h.nodup hn hne, ← h.tail]
      simp only [s₁]
      split
      · exact update_of_ne hne _ _
      · rfl
  refine ⟨s₁.setLink o l₁.getLast? (s.next n), ?_, ⟨?_, fun o' => ?_, fun o' => ?_⟩, ?_, ?_⟩
  · have hnext₁ : s₁.next n = s.next n := congrFun hs₁.1 n
    rw [State.unlinkNode, hsearch, ← hnext₁]
    rfl
  · exact h.nodup.sublist (List.filter_sublist.map _)
  · rcases eq_or_ne o' o with rfl | hne
    · rw [links_setLink, hs₁.2.1, hnext, chain_remove, hchain, filter_ne_middle hnd]
      exact htrip.unlink hnd
    · rw [chain_remove_of_ne h.nodup hn hne]
      refine trip_setLink_of_ne (by rw [hs₁.2.1]; exact h.trip o') hne fun m hm heq => ?_
      have hmo : (m, o) ∈ E :=
        mem_chain.mp (hchain ▸ List.mem_append_left _ (List.mem_of_getLast? heq.symm))
      exact hne (object_unique h.nodup (mem_chain.mp hm) hmo)
  · rw [tail_setLink]
    exact hs₁tail o'
  · exact hs₁.2.2.trans (sameThreads_setLink _ _ _ _)
  · intro m hm
    rw [next_setLink _ _ _ _ (hm l₁ l₂ hchain), hs₁.1]

/-- The entries of other nodes than those of `L`. -/
def removeAll (E L : List (Node × Object)) : List (Node × Object) :=
  E.filter fun e => decide (e.1 ∉ L.map Prod.fst)

theorem removeAll_cons : removeAll E ((n, o) :: L) = removeAll (remove E n) L := by
  rw [removeAll, removeAll, remove, List.filter_filter]
  refine List.filter_congr fun e _ => ?_
  simp only [List.map_cons, List.mem_cons, not_or, ne_eq, Bool.decide_and, decide_not]
  exact Bool.and_comm _ _

theorem chain_removeAll {R : List Node} (hnd : (E.map Prod.fst).Nodup) (hsub : L ⊆ E)
    (hR : chain E o = chain L o ++ R) : chain (removeAll E L) o = R := by
  have hfilter : chain (removeAll E L) o =
      (chain E o).filter fun m => decide (m ∉ L.map Prod.fst) := by
    rw [chain, removeAll, List.filter_filter, chain, List.filter_map, List.filter_filter]
    refine congrArg _ (List.filter_congr fun e _ => ?_)
    exact Bool.and_comm _ _
  have hndE : (chain L o ++ R).Nodup := hR ▸ chain_nodup hnd
  rw [hfilter, hR, List.filter_append]
  have hfirst : (chain L o).filter (fun m => decide (m ∉ L.map Prod.fst)) = [] := by
    refine List.filter_eq_nil_iff.mpr fun m hm => ?_
    rw [decide_eq_true_eq, not_not]
    exact List.mem_map.mpr ⟨(m, o), mem_chain.mp hm, rfl⟩
  have hlast : R.filter (fun m => decide (m ∉ L.map Prod.fst)) = R := by
    refine List.filter_eq_self.mpr fun m hm => ?_
    rw [decide_eq_true_eq]
    intro hmem
    obtain ⟨⟨m', o'⟩, he, rfl⟩ := List.mem_map.mp hmem
    have hmo : (m', o) ∈ E := mem_chain.mp (hR ▸ List.mem_append_right _ hm)
    have ho : o' = o := object_unique hnd (hsub he) hmo
    exact (List.nodup_append'.mp hndE).2.2 (mem_chain.mpr (ho ▸ he)) hm
  rw [hfirst, hlast, List.nil_append]

/-- The nodes of a thread are unlinked one after the other.  If they are the first of the list of `o`,
    only nodes of OTHER objects get another `next`. -/
theorem Linked.unlinkMany (h : Linked s E) (hsub : L ⊆ E) (hnd : (L.map Prod.fst).Nodup)
    (hfuel : E.length < s.fuel) :
    ∃ s', L.foldlM (fun s entry => s.unlinkNode entry.2 entry.1) s = some s' ∧
      Linked s' (removeAll E L) ∧ SameThreads s s' ∧
      ∀ o R, chain E o = chain L o ++ R → ∀ m, (∀ o', o' ≠ o → (m, o') ∉ E) →
        s'.next m = s.next m := by
  induction L generalizing s E with
  | nil =>
    refine ⟨s, rfl, ?_, .rfl' s, fun _ _ _ _ _ => rfl⟩
    have hall : removeAll E [] = E := List.filter_eq_self.mpr fun _ _ => by simp
    rw [hall]; exact h
  | cons e L ih =>
    obtain ⟨n, o₁⟩ := e
    have hn : (n, o₁) ∈ E := hsub List.mem_cons_self
    obtain ⟨s₁, heq, hlinked, hsame, hframe⟩ := h.unlink hn hfuel
    have hnL : n ∉ L.map Prod.fst := (List.nodup_cons.mp hnd).1
    have hsub' : L ⊆ remove E n := by
      intro e he
      refine List.mem_filter.mpr ⟨hsub (List.mem_cons_of_mem _ he), ?_⟩
      rw [decide_eq_true_eq]
      rintro rfl; exact hnL (List.mem_map_of_mem he)
    have hfuel' : (remove E n).length < s₁.fuel := by
      rw [hsame.fuel]; exact (List.length_filter_le _ _).trans_lt hfuel
    obtain ⟨s₂, heq₂, hlinked₂, hsame₂, hframe₂⟩ :=
      ih hlinked hsub' (List.nodup_cons.mp hnd).2 hfuel'
    refine ⟨s₂, ?_, ?_, hsame.trans hsame₂, fun o R hR m hm => ?_⟩
    · rw [List.foldlM_cons, heq]
      exact heq₂
    · rw [removeAll_cons]
      exact hlinked₂
    · have hchain' : chain (remove E n) o = chain L o ++ R := by
        rcases eq_or_ne o₁ o with rfl | hne
        · rw [chain_cons_self, List.cons_append] at hR
          have hndE : ([] ++ n :: (chain L o₁ ++ R)).Nodup := by
            rw [List.nil_append, ← hR]; exact chain_nodup h.nodup
          rw [chain_remove, hR]
          exact filter_ne_middle hndE
        · rw [chain_remove_of_ne h.nodup hn hne.symm, hR, chain_cons_of_ne hne]
      rw [hframe₂ o R hchain' m fun o' ho' hmem => hm o' ho' (List.mem_of_mem_filter hmem)]
      refine hframe m fun l₁ l₂ hl heq => ?_
      have hmem : (m, o₁) ∈ E :=
        mem_chain.mp (hl ▸ List.mem_append_left _ (List.mem_of_getLast? heq.symm))
      rcases eq_or_ne o₁ o with rfl | hne
      · -- The node is the first of its list, and there is no node before it.
        rw [chain_cons_self, List.cons_append] at hR
        have hsplit : l₁ ++ n :: l₂ = n :: (chain L o₁ ++ R) := hl.symm.trans hR
        cases l₁ with
        | nil => cases heq
        | cons k l₁ =>
          have hk : k = n := (List.cons.inj hsplit).1
          have hnd' : (k :: l₁ ++ n :: l₂).Nodup := hl ▸ chain_nodup h.nodup
          exact (List.nodup_append'.mp hnd').2.2 List.mem_cons_self (hk ▸ List.mem_cons_self)
      · exact hm o₁ hne hmem

end Suyu.Kernel.KSynchronizationObject
