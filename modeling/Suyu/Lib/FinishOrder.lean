import Mathlib.Data.List.Nodup
import Mathlib.Logic.Relation
import Mathlib.Tactic.Common

/-
  DEPTH-FIRST SEARCH with one stack, where a node stays on the stack until everything below it is done.

  1. **Order (`Finished`)** - nodes finish one after the other, each behind all nodes it has an edge to.
     No finished node lies on a cycle, and backwards the order is a topological one.

  2. **Stack (`Layers`)** - the nodes that the search has entered and not left are the PATH.  Each of them
     stands in the stack, and what stands between it and the next one are successors of it that wait.  A
     node may wait in several places, but it is on the path in one.

  3. **The crux (`Layers.reaches`)** - every node of the path leads to the last one, so an edge from
     behind it back to the path closes a cycle.
-/

namespace Lib.FinishOrder

open Relation

variable {α : Type*} {r : α → α → Prop}

/-! ## The order of finishing -/

/-- A list of nodes, each behind all of its successors. -/
inductive Finished (r : α → α → Prop) : List α → Prop where
  | nil : Finished r []
  | snoc {l : List α} {a : α} (hl : Finished r l) (hnew : a ∉ l) (hsucc : ∀ b, r a b → b ∈ l) :
      Finished r (l ++ [a])

theorem Finished.nodup {l : List α} (h : Finished r l) : l.Nodup := by
  induction h with
  | nil => exact List.nodup_nil
  | snoc _ hnew _ ih =>
    refine List.nodup_append.mpr ⟨ih, List.nodup_singleton _, fun a ha b hb hab => hnew ?_⟩
    rwa [← List.mem_singleton.mp hb, ← hab]

theorem Finished.closed {l : List α} (h : Finished r l) {a b : α} (ha : a ∈ l) (hab : r a b) : b ∈ l := by
  induction h with
  | nil => cases ha
  | snoc _ _ hsucc ih =>
    refine List.mem_append_left _ ?_
    rcases List.mem_append.mp ha with ha | ha
    · exact ih ha
    · exact hsucc b (List.mem_singleton.mp ha ▸ hab)

theorem Finished.closed_transGen {l : List α} (h : Finished r l) {a b : α} (ha : a ∈ l)
    (hab : TransGen r a b) : b ∈ l := by
  induction hab with
  | single hab => exact h.closed ha hab
  | tail _ hbc ih => exact h.closed ih hbc

theorem Finished.acyclic {l : List α} (h : Finished r l) {a : α} (ha : a ∈ l) : ¬ TransGen r a a := by
  induction h with
  | nil => cases ha
  | snoc hl hnew hsucc ih =>
    rcases List.mem_append.mp ha with ha | ha
    · exact ih ha
    · obtain rfl := List.mem_singleton.mp ha
      intro hcycle
      -- The first step of the cycle leads to a node that is finished before.
      obtain ⟨b, hab, hba⟩ := TransGen.head'_iff.mp hcycle
      rcases reflTransGen_iff_eq_or_transGen.mp hba with rfl | hba
      · exact hnew (hsucc _ hab)
      · exact hnew (hl.closed_transGen (hsucc b hab) hba)

theorem Finished.idxOf_reverse_lt [DecidableEq α] {l : List α} (h : Finished r l) {a b : α} (ha : a ∈ l)
    (hab : r a b) : l.reverse.idxOf a < l.reverse.idxOf b := by
  induction h with
  | nil => cases ha
  | snoc hl hnew hsucc ih =>
    rename_i l last
    rw [List.reverse_append, List.reverse_singleton, List.singleton_append]
    have hlater : ∀ {c : α}, c ∈ l → (last :: l.reverse).idxOf c = l.reverse.idxOf c + 1 := by
      intro c hc; exact List.idxOf_cons_ne _ fun heq => hnew (heq ▸ hc)
    rcases List.mem_append.mp ha with ha | ha
    · rw [hlater ha, hlater (hl.closed ha hab)]
      exact Nat.succ_lt_succ (ih ha)
    · obtain rfl := List.mem_singleton.mp ha
      rw [List.idxOf_cons_self, hlater (hsucc b hab)]; exact Nat.succ_pos _

/-! ## The stack -/

/-- A stack with the path of the nodes that are entered, the last one first.  At the bottom of the stack
    there may be anything. -/
inductive Layers (r : α → α → Prop) (done : α → Prop) : List α → List α → Prop where
  | base (stack : List α) : Layers r done stack []
  | frame {x : α} {below path pushed : List α} (hbelow : Layers r done (x :: below) path)
      (hnew : x ∉ path)
      (hpushed : ∀ y ∈ pushed, r x y ∧ y ∉ x :: path) (hsucc : ∀ y, r x y → y ∈ pushed ∨ done y) :
      Layers r done (pushed ++ x :: below) (x :: path)

section Stack

variable {done done' : α → Prop} {stack below path : List α} {x y a : α}

theorem Layers.mono (h : Layers r done stack path) (hdone : ∀ y, done y → done' y) :
    Layers r done' stack path := by
  induction h with
  | base stack => exact .base stack
  | frame _ hnew hpushed hsucc ih =>
    exact .frame ih hnew hpushed fun y hy => (hsucc y hy).imp_right (hdone y)

theorem Layers.path_eq_nil (h : Layers r done [] path) : path = [] := by
  generalize hstack : ([] : List α) = stack at h
  cases h with
  | base => exact hstack
  | frame => exact absurd hstack.symm (List.append_ne_nil_of_right_ne_nil _ (List.cons_ne_nil _ _))

theorem Layers.top (h : Layers r done (y :: below) (x :: path)) (hy : y ∉ x :: path) : r x y := by
  generalize hstack : y :: below = stack at h
  cases h with
  | @frame _ below' _ pushed _ _ hpushed _ =>
    cases pushed with
    | nil =>
      obtain ⟨rfl, -⟩ := List.cons.inj hstack; exact absurd List.mem_cons_self hy
    | cons z pushed =>
      obtain ⟨rfl, -⟩ := List.cons.inj hstack; exact (hpushed y List.mem_cons_self).1

theorem Layers.reaches (h : Layers r done stack (x :: path)) (ha : a ∈ x :: path) :
    ReflTransGen r a x := by
  generalize hpath : x :: path = whole at h ha
  induction h generalizing x path with
  | base => cases hpath
  | frame hbelow hnew _ _ ih =>
    obtain ⟨rfl, rfl⟩ := List.cons.inj hpath
    rcases List.mem_cons.mp ha with rfl | ha
    · exact ReflTransGen.refl
    · cases path with
      | nil => cases ha
      | cons p path => exact (ih rfl ha).tail (hbelow.top hnew)

theorem Layers.cycle (h : Layers r done (y :: below) path) (hy : y ∉ path) (ha : a ∈ y :: path)
    (hya : r y a) : TransGen r a a := by
  rcases List.mem_cons.mp ha with rfl | ha
  · exact TransGen.single hya
  · cases path with
    | nil => cases ha
    | cons p path => exact TransGen.tail' ((h.reaches ha).tail (h.top hy)) hya

/-- A top that is done and not on the path can be dropped. -/
theorem Layers.drop (h : Layers r done (y :: below) path) (hy : y ∉ path) (hdone : done y) :
    Layers r done below path := by
  generalize hstack : y :: below = stack at h
  cases h with
  | base => exact .base below
  | @frame x below' path pushed hbelow hnew hpushed hsucc =>
    cases pushed with
    | nil =>
      obtain ⟨rfl, -⟩ := List.cons.inj hstack; exact absurd List.mem_cons_self hy
    | cons z pushed =>
      obtain ⟨rfl, rfl⟩ := List.cons.inj hstack
      refine .frame hbelow hnew (fun w hw => hpushed w (List.mem_cons_of_mem _ hw)) fun w hw => ?_
      rcases hsucc w hw with hw | hw
      · rcases List.mem_cons.mp hw with rfl | hw
        · exact Or.inr hdone
        · exact Or.inl hw
      · exact Or.inr hw

/-- A top that is on the path is the last node of it, and all of its successors are done. -/
theorem Layers.leave (h : Layers r done (y :: below) path) (hy : y ∈ path) :
    ∃ rest, path = y :: rest ∧ y ∉ rest ∧ Layers r done (y :: below) rest ∧ ∀ z, r y z → done z := by
  generalize hstack : y :: below = stack at h
  cases h with
  | base => cases hy
  | @frame x below' path pushed hbelow hnew hpushed hsucc =>
    cases pushed with
    | nil =>
      obtain ⟨rfl, rfl⟩ := List.cons.inj hstack
      exact ⟨path, rfl, hnew, hbelow, fun z hz => (hsucc z hz).resolve_left List.not_mem_nil⟩
    | cons z pushed =>
      obtain ⟨rfl, -⟩ := List.cons.inj hstack; exact absurd hy (hpushed y List.mem_cons_self).2

end Stack

end Lib.FinishOrder
