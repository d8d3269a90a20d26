import Mathlib.Data.List.Basic
import Mathlib.Order.Lattice
import Mathlib.Order.MinMax
import Mathlib.Tactic.Common
import Mathlib.Tactic.Order

/-
  SEGMENTS: partial functions that are constant on disjoint intervals.

  1. **Reading (`valueAt`)** - a segment gives its value to the points from its lower end up to its
     upper end, which does not belong to it.  The segments stand in order (`WellFormed`), so a point is
     in at most one.

  2. **Adding (`splitAdd`)** - to the points of an interval a value is added; where there is none yet,
     it is the value.  Segments are cut at the ends of the interval, and no two segments are ever
     joined.
-/

namespace Lib.Segments

variable {K V : Type*} [LinearOrder K]

structure Segment (K V : Type*) where
  lower : K
  upper : K
  value : V
  deriving DecidableEq

namespace Segment

def Contains (s : Segment K V) (x : K) : Prop := s.lower ≤ x ∧ x < s.upper

instance (s : Segment K V) (x : K) : Decidable (s.Contains x) := inferInstanceAs (Decidable (_ ∧ _))

end Segment

/-- The segments are not empty and stand in order. -/
structure WellFormed (m : List (Segment K V)) : Prop where
  lower_lt : ∀ s ∈ m, s.lower < s.upper
  ordered : m.Pairwise fun s t => s.upper ≤ t.lower

/-- The value at a point, if it has one. -/
def valueAt : List (Segment K V) → K → Option V
  | [], _ => none
  | s :: m, x => if s.Contains x then some s.value else valueAt m x

variable {m m' : List (Segment K V)} {s t : Segment K V} {a b x : K} {v : V} {op : V → V → V}

theorem WellFormed.tail (h : WellFormed (s :: m)) : WellFormed m :=
  ⟨fun t ht => h.lower_lt t (List.mem_cons_of_mem s ht), (List.pairwise_cons.1 h.ordered).2⟩

theorem WellFormed.cons (h : WellFormed m) (hlt : s.lower < s.upper) (hle : ∀ t ∈ m, s.upper ≤ t.lower) :
    WellFormed (s :: m) := by
  refine ⟨fun t ht => ?_, List.pairwise_cons.2 ⟨hle, h.ordered⟩⟩
  rcases List.mem_cons.1 ht with rfl | ht
  · exact hlt
  · exact h.lower_lt t ht

theorem WellFormed.sublist (h : WellFormed m) (hsub : m'.Sublist m) : WellFormed m' :=
  ⟨fun s hs => h.lower_lt s (hsub.subset hs), h.ordered.sublist hsub⟩

/-- A point in two segments: they are one. -/
theorem WellFormed.eq_of_contains (h : WellFormed m) (hs : s ∈ m) (ht : t ∈ m) (hsx : s.Contains x)
    (htx : t.Contains x) : s = t := by
  induction m with
  | nil => exact nomatch hs
  | cons u m ih =>
    have hle := (List.pairwise_cons.1 h.ordered).1
    rcases List.mem_cons.1 hs with rfl | hs'
    · rcases List.mem_cons.1 ht with rfl | ht'
      · rfl
      · exact absurd (lt_of_lt_of_le hsx.2 (hle t ht')) (not_lt.2 htx.1)
    · rcases List.mem_cons.1 ht with rfl | ht'
      · exact absurd (lt_of_lt_of_le htx.2 (hle s hs')) (not_lt.2 hsx.1)
      · exact ih h.tail hs' ht'

/-- The value of a point is that of the segment it is in. -/
theorem WellFormed.valueAt_eq_some_iff (h : WellFormed m) :
    valueAt m x = some v ↔ ∃ s ∈ m, s.Contains x ∧ s.value = v := by
  induction m with
  | nil => simp [valueAt]
  | cons u m ih =>
    rw [valueAt]
    split
    · rename_i hu
      constructor
      · intro heq
        exact ⟨u, List.mem_cons_self, hu, Option.some.inj heq⟩
      · rintro ⟨s, hs, hsx, rfl⟩
        rw [h.eq_of_contains hs List.mem_cons_self hsx hu]
    · rename_i hu
      rw [ih h.tail]
      constructor
      · rintro ⟨s, hs, hsx, rfl⟩
        exact ⟨s, List.mem_cons_of_mem u hs, hsx, rfl⟩
      · rintro ⟨s, hs, hsx, rfl⟩
        rcases List.mem_cons.1 hs with rfl | hs
        · exact absurd hsx hu
        · exact ⟨s, hs, hsx, rfl⟩

theorem valueAt_eq_none_iff : valueAt m x = none ↔ ∀ s ∈ m, ¬ s.Contains x := by
  induction m with
  | nil => simp [valueAt]
  | cons u m ih =>
    rw [valueAt]
    split
    · rename_i hu
      simp [hu]
    · rename_i hu
      rw [ih]; simp [hu]

/-! ## Adding -/

/-- A segment of its own, unless it would be empty. -/
def gap (a b : K) (v : V) : List (Segment K V) := if a < b then [⟨a, b, v⟩] else []

/-- To the points from `a` up to `b` the value `v` is added. -/
def splitAdd (op : V → V → V) (a b : K) (v : V) : List (Segment K V) → List (Segment K V)
  | [] => gap a b v
  | s :: m =>
      if b ≤ a then s :: m
      else if s.upper ≤ a then s :: splitAdd op a b v m
      else if b ≤ s.lower then ⟨a, b, v⟩ :: s :: m
      else
        (if s.lower < a then [⟨s.lower, a, s.value⟩] else gap a s.lower v) ++
          ⟨max a s.lower, min b s.upper, op s.value v⟩ ::
            if b < s.upper then ⟨b, s.upper, s.value⟩ :: m else splitAdd op s.upper b v m

/-- What it means to add a value on an interval. -/
structure Adds (op : V → V → V) (a b : K) (v : V) (m m' : List (Segment K V)) : Prop where
  wellFormed : WellFormed m'
  inside : ∀ x, a ≤ x → x < b → valueAt m' x = some (((valueAt m x).map fun u => op u v).getD v)
  outside : ∀ x, ¬ (a ≤ x ∧ x < b) → valueAt m' x = valueAt m x
  cut : ∀ s ∈ m', s.upper ≤ a ∨ b ≤ s.lower ∨ (a ≤ s.lower ∧ s.upper ≤ b)

theorem splitAdd_of_le (h : b ≤ a) : splitAdd op a b v m = m := by
  cases m with
  | nil => exact if_neg (not_lt.2 h)
  | cons s m => exact if_pos h

theorem mem_gap {v : V} (h : s ∈ gap a b v) : s = ⟨a, b, v⟩ ∧ a < b := by
  unfold gap at h
  split at h
  · exact ⟨List.mem_singleton.1 h, by assumption⟩
  · exact nomatch h

/-- Nothing is before the interval that was not there. -/
theorem le_lower_splitAdd {c : K} (hm : ∀ s ∈ m, c ≤ s.lower) (ha : c ≤ a) :
    ∀ s ∈ splitAdd op a b v m, c ≤ s.lower := by
  induction m generalizing a with
  | nil =>
    intro s hs
    rw [(mem_gap hs).1]; exact ha
  | cons t m ih =>
    have ht := hm t List.mem_cons_self
    have hm' : ∀ s ∈ m, c ≤ s.lower := fun s hs => hm s (List.mem_cons_of_mem t hs)
    intro s hs
    have hgap := @mem_gap K V _ s a t.lower v
    have hrec := @ih t.upper hm'
    have hreca := @ih a hm' ha
    unfold splitAdd at hs; grind

/-- What follows the part of a segment inside of the interval: the rest of it, or of the interval. -/
theorem wellFormed_rest (h : WellFormed (s :: m)) (hrec : WellFormed (splitAdd op s.upper b v m)) :
    WellFormed (if b < s.upper then ⟨b, s.upper, s.value⟩ :: m else splitAdd op s.upper b v m) ∧
      ∀ t ∈ (if b < s.upper then ⟨b, s.upper, s.value⟩ :: m else splitAdd op s.upper b v m),
        min b s.upper ≤ t.lower := by
  have hle := (List.pairwise_cons.1 h.ordered).1
  split
  · rename_i hb
    refine ⟨h.tail.cons hb hle, fun t ht => ?_⟩
    rcases List.mem_cons.1 ht with rfl | ht
    · exact min_le_left _ _
    · exact le_trans (min_le_right _ _) (hle t ht)
  · refine ⟨hrec, fun t ht => le_trans (min_le_right _ _) ?_⟩
    exact le_lower_splitAdd hle (le_refl _) t ht

theorem wellFormed_splitAdd (h : WellFormed m) : WellFormed (splitAdd op a b v m) := by
  induction m generalizing a with
  | nil =>
    rw [splitAdd]
    refine ⟨fun s hs => ?_, ?_⟩
    · obtain ⟨rfl, hlt⟩ := mem_gap hs
      exact hlt
    · unfold gap
      split
      · exact List.pairwise_singleton _ _
      · exact List.Pairwise.nil
  | cons s m ih =>
    have hs := h.lower_lt s List.mem_cons_self
    have hle := (List.pairwise_cons.1 h.ordered).1
    rw [splitAdd]
    by_cases hba : b ≤ a
    · rw [if_pos hba]; exact h
    rw [if_neg hba]
    by_cases hbefore : s.upper ≤ a
    · rw [if_pos hbefore]
      refine (ih h.tail).cons hs (le_lower_splitAdd hle hbefore)
    rw [if_neg hbefore]
    by_cases hbehind : b ≤ s.lower
    · rw [if_pos hbehind]
      refine h.cons (not_le.1 hba) fun t ht => ?_
      rcases List.mem_cons.1 ht with rfl | ht
      · exact hbehind
      · exact le_trans hbehind (le_trans hs.le (hle t ht))
    rw [if_neg hbehind]
    -- the interval and the segment have points in common
    obtain ⟨hrest, hlower⟩ := @wellFormed_rest K V _ m s b v op h (ih h.tail)
    have hlt : max a s.lower < min b s.upper := by
      rw [max_lt_iff, lt_min_iff, lt_min_iff]
      exact ⟨⟨not_le.1 hba, not_le.1 hbefore⟩, ⟨not_le.1 hbehind, hs⟩⟩
    have hmiddle : WellFormed (⟨max a s.lower, min b s.upper, op s.value v⟩ ::
        if b < s.upper then ⟨b, s.upper, s.value⟩ :: m else splitAdd op s.upper b v m) :=
      hrest.cons hlt hlower
    have hfront : ∀ t ∈ (⟨max a s.lower, min b s.upper, op s.value v⟩ :: if b < s.upper then
        ⟨b, s.upper, s.value⟩ :: m else splitAdd op s.upper b v m : List (Segment K V)),
        max a s.lower ≤ t.lower := by
      intro t ht
      rcases List.mem_cons.1 ht with rfl | ht
      · exact le_refl _
      · exact le_trans hlt.le (hlower t ht)
    split
    · rename_i hcut
      refine hmiddle.cons hcut fun t ht => ?_
      exact le_trans (le_max_left _ _) (hfront t ht)
    · unfold gap
      split
      · rename_i hgap
        refine hmiddle.cons hgap fun t ht => ?_
        exact le_trans (le_max_right _ _) (hfront t ht)
      · exact hmiddle

theorem valueAt_append {m₁ m₂ : List (Segment K V)} :
    valueAt (m₁ ++ m₂) x = (valueAt m₁ x).or (valueAt m₂ x) := by
  induction m₁ with
  | nil => rfl
  | cons s m ih =>
    rw [List.cons_append, valueAt, valueAt, ih]
    split
    · rfl
    · rfl

theorem valueAt_gap : valueAt (gap a b v) x = if a ≤ x ∧ x < b then some v else none := by
  unfold gap
  split
  · rfl
  · rename_i hgap
    rw [if_neg fun h => hgap (lt_of_le_of_lt h.1 h.2)]; rfl

theorem valueAt_eq_none_of_lt (h : ∀ s ∈ m, a ≤ s.lower) (hx : x < a) : valueAt m x = none :=
  valueAt_eq_none_iff.2 fun s hs hsx => absurd (lt_of_lt_of_le hx (h s hs)) (not_lt.2 hsx.1)

/-- THE VALUES: on the interval `v` is added, elsewhere they stay. -/
theorem valueAt_splitAdd (h : WellFormed m) : valueAt (splitAdd op a b v m) x =
    if a ≤ x ∧ x < b then some (((valueAt m x).map fun u => op u v).getD v) else valueAt m x := by
  induction m generalizing a with
  | nil => exact valueAt_gap
  | cons s m ih =>
    have hs := h.lower_lt s List.mem_cons_self
    have hle := (List.pairwise_cons.1 h.ordered).1
    have hnone : x < s.upper → valueAt m x = none := valueAt_eq_none_of_lt hle
    have hrec := @ih a h.tail
    have hrec' := @ih s.upper h.tail
    rw [splitAdd]
    by_cases hba : b ≤ a
    · rw [if_pos hba, if_neg (by order)]
    rw [if_neg hba]
    by_cases hbefore : s.upper ≤ a
    · rw [if_pos hbefore, valueAt, valueAt, hrec]
      unfold Segment.Contains; grind
    rw [if_neg hbefore]
    by_cases hbehind : b ≤ s.lower
    · rw [if_pos hbehind, valueAt, valueAt]
      unfold Segment.Contains; grind
    rw [if_neg hbehind, valueAt_append, valueAt]
    have hleft : valueAt (if s.lower < a then [⟨s.lower, a, s.value⟩] else gap a s.lower v) x =
        if s.lower ≤ x ∧ x < a then some s.value else if a ≤ x ∧ x < s.lower then some v else none := by
      split
      · rw [valueAt, valueAt]
        unfold Segment.Contains
        grind
      · rw [valueAt_gap]; grind
    have hright : valueAt (if b < s.upper then ⟨b, s.upper, s.value⟩ :: m
        else splitAdd op s.upper b v m) x =
        if x < s.upper then if b ≤ x then some s.value else none
        else valueAt (splitAdd op s.upper b v m) x := by
      split
      · rename_i hb
        have hempty : splitAdd op s.upper b v m = m := splitAdd_of_le hb.le
        rw [valueAt, hempty]
        unfold Segment.Contains
        grind
      · grind
    rw [hleft, hright, hrec', valueAt]
    unfold Segment.Contains; grind

/-- Every segment is cut at the ends of the interval. -/
theorem cut_splitAdd (h : WellFormed m) (hab : a < b) : ∀ s ∈ splitAdd op a b v m,
    s.upper ≤ a ∨ b ≤ s.lower ∨ (a ≤ s.lower ∧ s.upper ≤ b) := by
  induction m generalizing a with
  | nil =>
    intro s hs
    rw [(mem_gap hs).1]; exact Or.inr (Or.inr ⟨le_refl _, le_refl _⟩)
  | cons t m ih =>
    have ht := h.lower_lt t List.mem_cons_self
    have hle := (List.pairwise_cons.1 h.ordered).1
    have hrec := @ih a h.tail hab
    have hrec' := @ih t.upper h.tail
    have hempty : b ≤ t.upper → splitAdd op t.upper b v m = m := splitAdd_of_le
    have hlower := @le_lower_splitAdd K V _ m t.upper b v op t.upper hle (le_refl _)
    have hlt := (@wellFormed_splitAdd K V _ m t.upper b v op h.tail).lower_lt
    have hgap : ∀ s, s ∈ gap a t.lower v → s = ⟨a, t.lower, v⟩ ∧ a < t.lower := fun s => mem_gap
    intro s hs
    unfold splitAdd at hs; grind

theorem adds_splitAdd (op : V → V → V) (v : V) (h : WellFormed m) (hab : a < b) :
    Adds op a b v m (splitAdd op a b v m) where
  wellFormed := wellFormed_splitAdd h
  inside := fun x ha hb => by rw [valueAt_splitAdd h, if_pos ⟨ha, hb⟩]
  outside := fun x hx => by rw [valueAt_splitAdd h, if_neg hx]
  cut := cut_splitAdd h hab

end Lib.Segments
