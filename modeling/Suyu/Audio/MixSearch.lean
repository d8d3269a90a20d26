import Mathlib
import Suyu.Audio.MixContext

/-
  `NodeStates::DepthFirstSearch`: what the sort of the mixes gives when it succeeds.

  1. **Program** - `NodeStates.drain` works on the top of the stack until the stack is empty; a node
     goes from unknown to found to complete, and joins the results at its last step.

  2. **The crux (`Searching`)** - a node that is found stands on the stack, and the results are the
     nodes that are complete.  So an EMPTY stack leaves no node half done.
-/

namespace Suyu.Audio

open Function (update update_apply update_self update_of_ne)

section Search

variable {edgeMatrix : Nat → Nat → Bool} {count : Nat}

/-! ## One node -/

variable {node : Nat} {s s' : NodeStates}

theorem pushEdges_spec {state : Nat → SearchState} {stack stack' : List Nat}
    (h : pushEdges edgeMatrix count state node stack = some stack') :
    ∃ pushed, stack' = pushed ++ stack ∧ (∀ a ∈ pushed, a < count) ∧ pushed.length ≤ count := by
  -- An edge leaves the stack alone or pushes its end.
  have hlist : ∀ (f : List Nat → Nat → Option (List Nat)),
      (∀ stack edge rest, f stack edge = some rest → rest = stack ∨ rest = edge :: stack) →
      ∀ (l stack : List Nat), l.foldlM f stack = some stack' →
      ∃ pushed, stack' = pushed ++ stack ∧ (∀ a ∈ pushed, a ∈ l) ∧ pushed.length ≤ l.length := by
    intro f hf l
    induction l with
    | nil =>
      intro stack h
      obtain rfl := Option.some.inj h
      exact ⟨[], rfl, List.forall_mem_nil _, Nat.le_refl _⟩
    | cons edge l ih =>
      intro stack h
      have hsame : ∀ {rest : List Nat}, (∃ pushed, stack' = pushed ++ rest ∧ (∀ a ∈ pushed, a ∈ l) ∧
          pushed.length ≤ l.length) → (rest = stack ∨ rest = edge :: stack) →
          ∃ pushed, stack' = pushed ++ stack ∧ (∀ a ∈ pushed, a ∈ edge :: l) ∧
            pushed.length ≤ (edge :: l).length := by
        rintro rest ⟨pushed, rfl, hmem, hlen⟩ hrest
        rcases hrest with rfl | rfl
        · exact ⟨pushed, rfl, fun a ha => List.mem_cons_of_mem edge (hmem a ha),
            Nat.le_succ_of_le hlen⟩
        · refine ⟨pushed ++ [edge], by simp, ?_, by simpa using hlen⟩
          intro a ha
          rcases List.mem_append.mp ha with ha | ha
          · exact List.mem_cons_of_mem edge (hmem a ha)
          · rw [List.mem_singleton.mp ha]; exact List.mem_cons_self
      rw [List.foldlM_cons] at h
      obtain ⟨rest, hrest, hfold⟩ := Option.bind_eq_some_iff.mp h
      exact hsame (ih rest hfold) (hf stack edge rest hrest)
  obtain ⟨pushed, heq, hmem, hlen⟩ := hlist _ (fun stack edge rest hrest => by
    split at hrest
    · split at hrest
      · exact Or.inr (Option.some.inj hrest).symm
      · cases hrest
      · exact Or.inl (Option.some.inj hrest).symm
    · exact Or.inl (Option.some.inj hrest).symm) (List.range count) stack h
  refine ⟨pushed, heq, fun a ha => List.mem_range.mp (hmem a ha), ?_⟩
  rw [List.length_range] at hlen
  exact hlen

/-! ## The invariant and the measure -/

/-- Found nodes are on the stack, and the results are the complete nodes. -/
structure Searching (count : Nat) (s : NodeStates) : Prop where
  bound : ∀ a ∈ s.stack, a < count
  found : ∀ a, s.state a = .found → a ∈ s.stack
  results : ∀ a, a ∈ s.results ↔ s.state a = .complete
  complete : ∀ a, s.state a = .complete → a < count
  nodup : s.results.Nodup

/-- The nodes that the search does not know yet. -/
def NodeStates.unknowns (s : NodeStates) (count : Nat) : Finset Nat :=
  (Finset.range count).filter fun a => s.state a = .unknown

/-- A bound on the visits that are left: finding a node pushes at most `count` others. -/
def NodeStates.work (s : NodeStates) (count : Nat) : Nat :=
  (s.unknowns count).card * (count + 1) + s.stack.length

/-- What a visit of the search keeps: no node becomes unknown, and none leaves the stack unknown. -/
structure Visited (count : Nat) (s s' : NodeStates) : Prop where
  searching : Searching count s'
  known : ∀ a, s.state a ≠ .unknown → s'.state a ≠ .unknown
  stacked : ∀ a ∈ s.stack, a ∈ s'.stack ∨ s'.state a ≠ .unknown

theorem Visited.trans {count : Nat} {s t u : NodeStates} (h : Visited count s t)
    (h' : Visited count t u) : Visited count s u where
  searching := h'.searching
  known := fun a ha => h'.known a (h.known a ha)
  stacked := by
    intro a ha
    rcases h.stacked a ha with ha | ha
    · exact h'.stacked a ha
    · exact Or.inr (h'.known a ha)

theorem update_ne_unknown {state : Nat → SearchState} {a : Nat} {value : SearchState}
    (hvalue : value ≠ .unknown) (h : state a ≠ .unknown) :
    update state node value a ≠ .unknown := by
  rw [update_apply]
  split
  · exact hvalue
  · exact h

theorem card_unknowns_lt {stack results : List Nat} (hnode : node < count)
    (hs : s.state node = .unknown) :
    (NodeStates.unknowns ⟨update s.state node .found, stack, results⟩ count).card <
      (s.unknowns count).card := by
  apply Finset.card_lt_card
  rw [Finset.ssubset_iff_of_subset]
  · refine ⟨node, Finset.mem_filter.mpr ⟨Finset.mem_range.mpr hnode, hs⟩, ?_⟩
    intro hmem
    have hstate : update s.state node .found node = .unknown := (Finset.mem_filter.mp hmem).2
    rw [update_self] at hstate
    cases hstate
  · intro a ha
    obtain ⟨hrange, hstate⟩ := Finset.mem_filter.mp ha
    refine Finset.mem_filter.mpr ⟨hrange, ?_⟩
    by_contra hne
    exact update_ne_unknown (by decide) hne hstate

theorem card_unknowns_le (s : NodeStates) (stack results : List Nat) (node : Nat) :
    (NodeStates.unknowns ⟨update s.state node .complete, stack, results⟩ count).card ≤
      (s.unknowns count).card := by
  apply Finset.card_le_card
  intro a ha
  obtain ⟨hrange, hstate⟩ := Finset.mem_filter.mp ha
  refine Finset.mem_filter.mpr ⟨hrange, ?_⟩
  by_contra hne
  exact update_ne_unknown (by decide) hne hstate

/-- **One visit** keeps the invariant and leaves less work. -/
theorem NodeStates.visit_spec {below : List Nat} (h : Searching count s)
    (hstack : s.stack = node :: below) (hs : s.visit edgeMatrix count node below = some s') :
    Visited count s s' ∧ s'.work count < s.work count := by
  have hnode : node < count := h.bound node (hstack ▸ List.mem_cons_self)
  have hbelow : ∀ a ∈ below, a < count := fun a ha =>
    h.bound a (hstack ▸ List.mem_cons_of_mem node ha)
  -- A found node that is not the top is below it.
  have hrest : ∀ a, a ≠ node → s.state a = .found → a ∈ below := by
    intro a hne hfound
    have hmem := h.found a hfound
    rw [hstack] at hmem; exact (List.mem_cons.mp hmem).resolve_left hne
  have htop : ∀ {state : Nat → SearchState}, state node ≠ .unknown →
      ∀ a ∈ s.stack, a ∈ below ∨ state a ≠ .unknown := by
    intro state hknown a ha
    rw [hstack] at ha
    rcases List.mem_cons.mp ha with rfl | ha
    · exact Or.inr hknown
    · exact Or.inl ha
  unfold NodeStates.visit at hs
  split at hs
  · rename_i hunknown
    obtain ⟨stack, hpush, rfl⟩ := Option.map_eq_some_iff.mp hs
    obtain ⟨pushed, rfl, hpushed, hlen⟩ := pushEdges_spec hpush
    refine ⟨⟨⟨?_, ?_, ?_, ?_, h.nodup⟩, fun a ha => update_ne_unknown (by decide) ha,
      fun a ha => Or.inl (List.mem_append_right _ ha)⟩, ?_⟩
    · intro a ha
      rcases List.mem_append.mp ha with ha | ha
      · exact hpushed a ha
      · exact h.bound a ha
    · intro a ha
      refine List.mem_append_right _ ?_
      by_cases hane : a = node
      · rw [hane, hstack]
        exact List.mem_cons_self
      · exact h.found a ((update_of_ne hane _ _).symm.trans ha)
    · intro a
      rw [h.results a]
      by_cases hane : a = node
      · subst hane
        simp [hunknown]
      · simp [update_of_ne hane]
    · intro a ha
      by_cases hane : a = node
      · rw [hane]
        exact hnode
      · exact h.complete a ((update_of_ne hane _ _).symm.trans ha)
    · have hlt : (NodeStates.unknowns ⟨update s.state node .found, pushed ++ s.stack,
          s.results⟩ count).card + 1 ≤ (s.unknowns count).card := card_unknowns_lt hnode hunknown
      have hmul := Nat.mul_le_mul_right (count + 1) hlt
      unfold NodeStates.work
      rw [List.length_append]
      rw [Nat.add_mul, Nat.one_mul] at hmul; omega
  · rename_i hfound
    obtain rfl := Option.some.inj hs
    refine ⟨⟨⟨hbelow, ?_, ?_, ?_, ?_⟩, fun a ha => update_ne_unknown (by decide) ha,
      htop fun hne => (by simp at hne)⟩, ?_⟩
    · intro a ha
      by_cases hane : a = node
      · subst hane
        have hself : SearchState.complete = .found := (update_self a _ s.state).symm.trans ha
        cases hself
      · exact hrest a hane ((update_of_ne hane _ _).symm.trans ha)
    · intro a
      by_cases hane : a = node
      · subst hane
        simp
      · simp [hane, h.results a]
    · intro a ha
      by_cases hane : a = node
      · rw [hane]
        exact hnode
      · exact h.complete a ((update_of_ne hane _ _).symm.trans ha)
    · have hnot : node ∉ s.results := by
        intro hmem
        have hcomplete := (h.results node).mp hmem
        rw [hfound] at hcomplete; cases hcomplete
      exact List.nodup_append.mpr ⟨h.nodup, List.nodup_singleton node, fun a ha b hb hab =>
        hnot (List.mem_singleton.mp hb ▸ hab ▸ ha)⟩
    · have hle := Nat.mul_le_mul_right (count + 1)
        (@card_unknowns_le count s below (s.results ++ [node]) node)
      unfold NodeStates.work
      rw [hstack, List.length_cons]
      exact Nat.lt_succ_of_le (Nat.add_le_add_right hle _)
  · rename_i hcomplete
    obtain rfl := Option.some.inj hs
    refine ⟨⟨⟨hbelow, ?_, h.results, h.complete, h.nodup⟩, fun a ha => ha,
      htop fun hne => (by rw [hcomplete] at hne; cases hne)⟩, ?_⟩
    · intro a ha
      refine hrest a ?_ ha
      rintro rfl
      have : SearchState.found = .complete := ha.symm.trans hcomplete
      cases this
    · unfold NodeStates.work
      rw [hstack, List.length_cons]; exact Nat.lt_succ_self _

/-! ## The loops -/

theorem NodeStates.drain_spec {fuel : Nat} (h : Searching count s) (hfuel : s.work count ≤ fuel)
    (hs : s.drain edgeMatrix count fuel = some s') : Visited count s s' ∧ s'.stack = [] := by
  induction fuel generalizing s with
  | zero =>
    obtain rfl := Option.some.inj hs
    refine ⟨⟨h, fun _ ha => ha, fun _ ha => Or.inl ha⟩, List.eq_nil_of_length_eq_zero ?_⟩
    unfold NodeStates.work at hfuel; omega
  | succ fuel ih =>
    unfold NodeStates.drain at hs
    split at hs
    · rename_i hnil
      obtain rfl := Option.some.inj hs
      exact ⟨⟨h, fun _ ha => ha, fun _ ha => Or.inl ha⟩, hnil⟩
    · rename_i node below hstack
      obtain ⟨t, ht, hdrain⟩ := Option.bind_eq_some_iff.mp hs
      obtain ⟨hvisit, hless⟩ := NodeStates.visit_spec h hstack ht
      obtain ⟨hrest, hnil⟩ := ih hvisit.searching (by omega) hdrain
      exact ⟨hvisit.trans hrest, hnil⟩

theorem Searching.complete_of_nil (h : Searching count s) (hnil : s.stack = []) {a : Nat}
    (ha : s.state a ≠ .unknown) : s.state a = .complete := by
  cases hstate : s.state a with
  | unknown => exact absurd hstate ha
  | found =>
    have hmem := h.found a hstate
    rw [hnil] at hmem; cases hmem
  | complete => rfl

theorem NodeStates.search_spec (h : Searching count s) (hnil : s.stack = []) (hnode : node < count)
    (hs : s.search edgeMatrix count node = some s') :
    Searching count s' ∧ (∀ a, s.state a ≠ .unknown → s'.state a ≠ .unknown) ∧
      s'.stack = [] ∧ s'.state node = .complete := by
  -- The node stands on the stack, or the search has completed it already.
  obtain ⟨t, ht, hsearch, hlen, hstate, htop⟩ : ∃ t : NodeStates,
      t.drain edgeMatrix count ((count + 1) * (count + 2)) = some s' ∧ Searching count t ∧
      t.stack.length ≤ 1 ∧ t.state = s.state ∧ (s.state node = .unknown → t.stack = [node]) := by
    unfold NodeStates.search at hs
    dsimp only at hs
    split at hs
    · refine ⟨_, hs, ⟨?_, ?_, h.results, h.complete, h.nodup⟩, ?_, rfl, ?_⟩
      · intro a ha
        rw [hnil] at ha
        rw [List.mem_singleton.mp ha]
        exact hnode
      · intro a ha
        exact List.mem_cons_of_mem node (h.found a ha)
      · simp [hnil]
      · intro _; simp [hnil]
    · rename_i hknown; exact ⟨s, hs, h, by simp [hnil], rfl, fun hunknown => absurd hunknown hknown⟩
  have hwork : t.work count ≤ (count + 1) * (count + 2) := by
    have hcard : (t.unknowns count).card ≤ count := by
      calc (t.unknowns count).card ≤ (Finset.range count).card := Finset.card_filter_le _ _
        _ = count := Finset.card_range count
    have hmul := Nat.mul_le_mul_right (count + 1) hcard
    have hexpand : (count + 1) * (count + 2) = count * (count + 1) + 2 * (count + 1) := by ring
    unfold NodeStates.work; omega
  obtain ⟨hvisit, hempty⟩ := NodeStates.drain_spec hsearch hwork ht
  have hknown : s'.state node ≠ .unknown := by
    by_cases hunknown : s.state node = .unknown
    · have hmem : node ∈ t.stack := htop hunknown ▸ List.mem_singleton.mpr rfl
      rcases hvisit.stacked node hmem with hmem | hne
      · rw [hempty] at hmem
        cases hmem
      · exact hne
    · exact hvisit.known node (hstate ▸ hunknown)
  exact ⟨hvisit.searching, fun a ha => hvisit.known a (hstate ▸ ha), hempty,
    hvisit.searching.complete_of_nil hempty hknown⟩

theorem foldlM_search_spec {l : List Nat} (h : Searching count s) (hnil : s.stack = [])
    (hl : ∀ a ∈ l, a < count) (hs : l.foldlM (NodeStates.search edgeMatrix count) s = some s') :
    Searching count s' ∧ (∀ a, s.state a ≠ .unknown → s'.state a ≠ .unknown) ∧
      s'.stack = [] ∧ ∀ a ∈ l, s'.state a = .complete := by
  induction l generalizing s with
  | nil =>
    obtain rfl := Option.some.inj hs; exact ⟨h, fun _ ha => ha, hnil, List.forall_mem_nil _⟩
  | cons node l ih =>
    rw [List.foldlM_cons] at hs
    obtain ⟨t, ht, hfold⟩ := Option.bind_eq_some_iff.mp hs
    obtain ⟨hsearch, hknown, htnil, hnode⟩ :=
      NodeStates.search_spec h hnil (hl node List.mem_cons_self) ht
    obtain ⟨hsearch', hknown', hnil', hl'⟩ :=
      ih hsearch htnil (fun a ha => hl a (List.mem_cons_of_mem node ha)) hfold
    refine ⟨hsearch', fun a ha => hknown' a (hknown a ha), hnil', ?_⟩
    intro a ha
    rcases List.mem_cons.mp ha with rfl | ha
    · exact hsearch'.complete_of_nil hnil' (hknown' a (by rw [hnode]; decide))
    · exact hl' a ha

theorem tsort_perm {results : List Nat} (h : tsort edgeMatrix count = some results) :
    results.Perm (List.range count) := by
  obtain ⟨s, hs, rfl⟩ := Option.map_eq_some_iff.mp h
  have hinit : Searching count ⟨fun _ => .unknown, [], []⟩ := by
    refine ⟨List.forall_mem_nil _, ?_, ?_, ?_, List.nodup_nil⟩
    · intro a ha
      cases ha
    · intro a
      simp
    · intro a ha; cases ha
  obtain ⟨hsearch, -, -, hall⟩ :=
    foldlM_search_spec hinit rfl (fun a ha => List.mem_range.mp ha) hs
  refine (List.perm_ext_iff_of_nodup hsearch.nodup List.nodup_range).mpr ?_
  intro a
  rw [hsearch.results a, List.mem_range]
  exact ⟨hsearch.complete a, fun ha => hall a (List.mem_range.mpr ha)⟩

end Search

end Suyu.Audio
