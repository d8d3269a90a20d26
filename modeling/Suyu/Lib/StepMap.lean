/-
  STEP MAPS: functions on `Nat` given by a sorted list of breakpoints.

  A breakpoint `b` starts at `key b` and gives the value `val b x` to every `x` from there up to the
  next breakpoint; before the first one the default `d` holds.  `steps` reads the list from the
  left, so that inserting, replacing or dropping breakpoints is a matter of unfolding it:

  * `steps_of_lt` — left of the first breakpoint;
  * `steps_append_of_lt`, `steps_append_of_le` — reading across a cut of the list: left of it, and
    right of everything in front of it;
  * `exists_cut` — cutting a sorted list at a point;
  * `steps_eq_getLast` — the usual reading, "the last breakpoint at or before `x`".
-/
import Mathlib.Data.List.Basic
import Mathlib.Data.List.Chain
import Mathlib.Tactic.Common

namespace Lib.StepMap

variable {α β : Type*} {key : α → Nat} {val : α → Nat → β} {d d' : Nat → β} {x : Nat}

/-- The value at `x` of the breakpoints `l`, with default `d`. -/
def steps (key : α → Nat) (val : α → Nat → β) (d : Nat → β) : List α → Nat → β
  | [], x => d x
  | b :: l, x => if x < key b then d x else steps key val (val b) l x

@[simp] theorem steps_nil : steps key val d [] x = d x := rfl

theorem steps_cons (b : α) (l : List α) :
    steps key val d (b :: l) x = if x < key b then d x else steps key val (val b) l x := rfl

theorem steps_of_lt {l : List α} (h : ∀ b ∈ l.head?, x < key b) : steps key val d l x = d x := by
  cases l with
  | nil => rfl
  | cons b l => exact if_pos (h b rfl)

theorem steps_congr (h : d x = d' x) (l : List α) : steps key val d l x = steps key val d' l x := by
  cases l with
  | nil => exact h
  | cons b l => rw [steps_cons, steps_cons, h]

theorem steps_append_of_lt {l₂ : List α} (h : ∀ b ∈ l₂.head?, x < key b) (l₁ : List α) :
    ∀ {d : Nat → β}, steps key val d (l₁ ++ l₂) x = steps key val d l₁ x := by
  induction l₁ with
  | nil => intro d; exact steps_of_lt h
  | cons b l₁ ih => intro d; rw [List.cons_append, steps_cons, steps_cons, ih]

/-- A point right of all breakpoints of the first half only needs its last one. -/
theorem steps_append_of_le {l₁ l₂ : List α} (hl : l₁ ≠ []) : ∀ {d : Nat → β},
    (∀ b ∈ l₁, key b ≤ x) →
    steps key val d (l₁ ++ l₂) x = steps key val (val (l₁.getLast hl)) l₂ x := by
  induction l₁ with
  | nil => exact absurd rfl hl
  | cons b l₁ ih =>
    intro d h
    rw [List.cons_append, steps_cons, if_neg (not_lt.mpr (h b List.mem_cons_self))]
    cases l₁ with
    | nil => rfl
    | cons c l₁ =>
      rw [List.getLast_cons (List.cons_ne_nil c l₁)]
      exact ih _ fun a ha => h a (List.mem_cons_of_mem _ ha)

/-- A sorted list is cut at `v` into the breakpoints before and from `v` on. -/
theorem exists_cut {l : List α} (v : Nat) (h : l.Pairwise fun b c => key b < key c) :
    ∃ l₁ l₂, l = l₁ ++ l₂ ∧ (∀ b ∈ l₁, key b < v) ∧ ∀ b ∈ l₂, v ≤ key b := by
  induction h with
  | nil => exact ⟨[], [], rfl, fun b hb => absurd hb List.not_mem_nil, fun b hb => absurd hb List.not_mem_nil⟩
  | @cons b l hb _ ih =>
    by_cases hv : key b < v
    · obtain ⟨l₁, l₂, rfl, h1, h2⟩ := ih
      refine ⟨b :: l₁, l₂, rfl, fun c hc => ?_, h2⟩
      rcases List.mem_cons.mp hc with rfl | hc
      · exact hv
      · exact h1 c hc
    · refine ⟨[], b :: l, rfl, fun c hc => absurd hc List.not_mem_nil, fun c hc => ?_⟩
      rcases List.mem_cons.mp hc with rfl | hc
      · omega
      · have := hb c hc
        omega

theorem steps_eq_getLast {l : List α} (h : l.Pairwise fun b c => key b < key c) : ∀ {d : Nat → β},
    steps key val d l x =
      match (l.filter fun b => decide (key b ≤ x)).getLast? with
      | none => d x
      | some b => val b x := by
  induction h with
  | nil => intro d; rfl
  | @cons b l hb _ ih =>
    intro d
    rw [steps_cons]
    by_cases hx : x < key b
    · have hnone : (b :: l).filter (fun c => decide (key c ≤ x)) = [] := by
        refine List.filter_eq_nil_iff.2 fun c hc => ?_
        rcases List.mem_cons.mp hc with rfl | hc
        · simpa using hx
        · have := hb c hc
          simp only [decide_eq_true_eq]; omega
      rw [if_pos hx, hnone]
      rfl
    · rw [if_neg hx, ih, List.filter_cons_of_pos (by simpa using hx), List.getLast?_cons]
      cases (l.filter fun c => decide (key c ≤ x)).getLast? <;> rfl

end Lib.StepMap
