import Mathlib

/-
  CHANGE POINTS: functions that are constant between the keys of a sorted list.

  1. **Reading (`valueAt`)** - an entry `(k, v)` gives `v` to every point from `k` up to the next key;
     before the first key a default holds.

  2. **No redundant point (`Alternates`)** - every entry changes the value.  A list and its default are
     read from left to right, so that both notions split at any cut of the list (`lastValue_append`,
     `alternates_append`).

  3. **Overwriting (`overwrite`)** - a range is given one value: the points in it go, the two ends are
     entered only where the value changes.

  4. **No other list (`eq_of_valueAt`)** - a list without redundant points is the only one for its function.
-/

namespace Lib.ChangePoints

variable {K V : Type*} [LinearOrder K] {d : V} {l l₁ l₂ : List (K × V)} {a b x : K} {v : V}

/-! ## Cutting a sorted list -/

section Cut

variable {α : Type*} {p : α → Bool} {l : List α}

theorem takeWhile_eq_filter (h : l.Pairwise fun x y => p y = true → p x = true) :
    l.takeWhile p = l.filter p := by
  induction h with
  | nil => rfl
  | @cons x l hx _ ih =>
    by_cases hp : p x = true
    · rw [List.takeWhile_cons_of_pos hp, List.filter_cons_of_pos hp, ih]
    · have hnone : l.filter p = [] := List.filter_eq_nil_iff.2 fun y hy hpy => hp (hx y hy hpy)
      rw [List.takeWhile_cons_of_neg hp, List.filter_cons_of_neg hp, hnone]

theorem dropWhile_eq_filter (h : l.Pairwise fun x y => p y = true → p x = true) :
    l.dropWhile p = l.filter fun x => !p x := by
  induction h with
  | nil => rfl
  | @cons x l hx _ ih =>
    by_cases hp : p x = true
    · rw [List.dropWhile_cons_of_pos hp, List.filter_cons_of_neg (by simpa using hp), ih]
    · have hall : l.filter (fun x => !p x) = l := by
        refine List.filter_eq_self.2 fun y hy => ?_
        rw [Bool.not_eq_true']; exact Bool.eq_false_iff.2 fun hpy => hp (hx y hy hpy)
      rw [List.dropWhile_cons_of_neg hp, List.filter_cons_of_pos (by simpa using hp),
        hall]

/-- Two tests take the same first part if they agree up to the first element that fails one of them. -/
theorem takeWhile_congr_first {q : α → Bool} (hpos : ∀ x ∈ l, q x = true → p x = true)
    (hneg : ∀ l₁ x l₂, l = l₁ ++ x :: l₂ → (∀ y ∈ l₁, q y = true) → ¬ q x = true → ¬ p x = true) :
    l.takeWhile p = l.takeWhile q := by
  induction l with
  | nil => rfl
  | cons x l ih =>
    by_cases hq : q x = true
    · rw [List.takeWhile_cons_of_pos (hpos x List.mem_cons_self hq), List.takeWhile_cons_of_pos hq]
      congr 1
      refine ih (fun y hy => hpos y (List.mem_cons_of_mem x hy)) fun l₁ y l₂ hl hall => ?_
      refine hneg (x :: l₁) y l₂ (by rw [hl]; rfl) fun z hz => ?_
      rcases List.mem_cons.1 hz with rfl | hz
      · exact hq
      · exact hall z hz
    · have hp : ¬ p x = true := hneg [] x l rfl (fun y hy => nomatch hy) hq
      rw [List.takeWhile_cons_of_neg hp, List.takeWhile_cons_of_neg hq]

end Cut

/-! ## Reading -/

/-- The keys grow. -/
def Sorted (l : List (K × V)) : Prop := l.Pairwise fun p q => p.1 < q.1

/-- The value behind the last entry. -/
def lastValue (d : V) : List (K × V) → V
  | [] => d
  | p :: l => lastValue p.2 l

/-- The value at `x`: that of the last entry at or before it. -/
def valueAt (d : V) (l : List (K × V)) (x : K) : V :=
  lastValue d (l.filter fun p => decide (p.1 ≤ x))

/-- Every entry changes the value. -/
def Alternates (d : V) : List (K × V) → Prop
  | [] => True
  | p :: l => p.2 ≠ d ∧ Alternates p.2 l

omit [LinearOrder K] in
theorem lastValue_append : lastValue d (l₁ ++ l₂) = lastValue (lastValue d l₁) l₂ := by
  induction l₁ generalizing d with
  | nil => rfl
  | cons p l₁ ih => exact ih

omit [LinearOrder K] in
theorem lastValue_eq_getLast? : lastValue d l = (l.getLast?.map Prod.snd).getD d := by
  induction l generalizing d with
  | nil => rfl
  | cons p l ih =>
    rw [List.getLast?_cons]
    show lastValue p.2 l = _
    rw [ih]
    cases l.getLast? with
    | none => rfl
    | some q => rfl

omit [LinearOrder K] in
theorem alternates_append :
    Alternates d (l₁ ++ l₂) ↔ Alternates d l₁ ∧ Alternates (lastValue d l₁) l₂ := by
  induction l₁ generalizing d with
  | nil => exact (iff_of_eq (true_and _)).symm
  | cons p l₁ ih =>
    show p.2 ≠ d ∧ Alternates p.2 (l₁ ++ l₂) ↔ (p.2 ≠ d ∧ Alternates p.2 l₁) ∧ _
    rw [ih, and_assoc]; rfl

theorem Sorted.exists_cut (hs : Sorted l) (a : K) :
    ∃ l₁ l₂, l = l₁ ++ l₂ ∧ (∀ p ∈ l₁, p.1 < a) ∧ ∀ p ∈ l₂, a ≤ p.1 := by
  have hdown : l.Pairwise fun p q => decide (q.1 < a) = true → decide (p.1 < a) = true :=
    hs.imp fun hpq hq => decide_eq_true (hpq.trans (of_decide_eq_true hq))
  refine ⟨l.takeWhile fun p => decide (p.1 < a), l.dropWhile fun p => decide (p.1 < a),
    List.takeWhile_append_dropWhile.symm, fun p hp => ?_, fun p hp => ?_⟩
  · rw [takeWhile_eq_filter hdown] at hp
    exact of_decide_eq_true (List.mem_filter.1 hp).2
  · rw [dropWhile_eq_filter hdown] at hp; simpa using (List.mem_filter.1 hp).2

/-- The part of a sorted list up to a point, and the part behind it. -/
theorem filter_append_filter (hs : Sorted l) (x : K) :
    (l.filter fun p => decide (p.1 ≤ x)) ++ (l.filter fun p => decide (x < p.1)) = l := by
  induction hs with
  | nil => rfl
  | @cons p l hp _ ih =>
    by_cases hx : p.1 ≤ x
    · rw [List.filter_cons_of_pos (by simpa using hx), List.filter_cons_of_neg (by simpa using hx),
        List.cons_append, ih]
    · have hnone : l.filter (fun p => decide (p.1 ≤ x)) = [] := by
        refine List.filter_eq_nil_iff.2 fun q hq hqx => ?_
        exact hx ((hp q hq).le.trans (of_decide_eq_true hqx))
      have hall : l.filter (fun p => decide (x < p.1)) = l := by
        refine List.filter_eq_self.2 fun q hq => ?_
        exact decide_eq_true ((not_le.1 hx).trans (hp q hq))
      rw [List.filter_cons_of_neg (by simpa using hx), List.filter_cons_of_pos (by simpa using hx), hnone,
        hall]
      rfl

/-! ## One list for one function -/

section OneList

variable {l' : List (K × V)} {p : K × V}

theorem valueAt_of_lt (h : ∀ p ∈ l, x < p.1) : valueAt d l x = d := by
  unfold valueAt
  rw [List.filter_eq_nil_iff.mpr fun p hp hx => absurd (h p hp) (not_lt.mpr (of_decide_eq_true hx))]
  rfl

theorem valueAt_of_le (h : p.1 ≤ x) : valueAt d (p :: l) x = valueAt p.2 l x := by
  unfold valueAt
  rw [List.filter_cons_of_pos (by simpa using h)]
  rfl

theorem Sorted.behind (hs : Sorted (p :: l)) (hx : x < p.1) : ∀ q ∈ p :: l, x < q.1 :=
  List.forall_mem_cons.mpr ⟨hx, fun q hq => hx.trans ((List.pairwise_cons.mp hs).1 q hq)⟩

theorem valueAt_first (hs : Sorted (p :: l)) : valueAt d (p :: l) p.1 = p.2 :=
  (valueAt_of_le le_rfl).trans (valueAt_of_lt (List.pairwise_cons.mp hs).1)

/-- The first entry of a list is where its function first changes. -/
theorem valueAt_first_ne (hs : Sorted (p :: l)) (hne : p.2 ≠ d) (hlt : ∀ q ∈ l', p.1 < q.1) :
    valueAt d (p :: l) p.1 ≠ valueAt d l' p.1 := by
  rw [valueAt_first hs, valueAt_of_lt hlt]; exact hne

theorem eq_of_valueAt (hs : Sorted l) (hs' : Sorted l') (ha : Alternates d l) (ha' : Alternates d l')
    (h : ∀ x, valueAt d l x = valueAt d l' x) : l = l' := by
  induction l generalizing d l' with
  | nil =>
    cases l' with
    | nil => rfl
    | cons q u => exact absurd (h q.1).symm (valueAt_first_ne hs' ha'.1 (List.forall_mem_nil _))
  | cons p t ih =>
    cases l' with
    | nil => exact absurd (h p.1) (valueAt_first_ne hs ha.1 (List.forall_mem_nil _))
    | cons q u =>
      rcases lt_trichotomy p.1 q.1 with hlt | heq | hgt
      · exact absurd (h p.1) (valueAt_first_ne hs ha.1 (hs'.behind hlt))
      · have hsnd : p.2 = q.2 := by
          rw [← valueAt_first hs, ← valueAt_first (d := d) hs', h, heq]
        obtain rfl : p = q := Prod.ext heq hsnd
        refine congrArg (p :: ·) (ih hs.tail hs'.tail ha.2 ha'.2 fun x => ?_)
        by_cases hx : p.1 ≤ x
        · rw [← valueAt_of_le (d := d) hx, h, valueAt_of_le hx]
        · rw [valueAt_of_lt (List.forall_mem_cons.mp (hs.behind (not_le.mp hx))).2,
            valueAt_of_lt (List.forall_mem_cons.mp (hs'.behind (not_le.mp hx))).2]
      · exact absurd (h q.1).symm (valueAt_first_ne hs' ha'.1 (hs.behind hgt))

end OneList

/-! ## Overwriting -/

variable [DecidableEq V]

/-- Enter the point `a` if the value changes there from `w` to `v`. -/
def enter (w : V) (a : K) (v : V) : List (K × V) := if w ≠ v then [(a, v)] else []

/-- Give the value `v` to the points from `a` up to `b`. -/
def overwrite (d : V) (l : List (K × V)) (a b : K) (v : V) : List (K × V) :=
  let before := l.filter fun p => decide (p.1 < a)
  before ++ (enter (lastValue d before) a v ++
    (enter v b (valueAt d l b) ++ l.filter fun p => decide (b < p.1)))

omit [LinearOrder K] in
theorem lastValue_enter (w : V) (a : K) : lastValue w (enter w a v) = v := by
  unfold enter
  split
  · rfl
  · next h => exact not_ne_iff.1 h

omit [LinearOrder K] in
theorem alternates_enter (w : V) (a : K) : Alternates w (enter w a v) := by
  unfold enter
  split
  · next h => exact ⟨h.symm, trivial⟩
  · trivial

omit [LinearOrder K] in
theorem mem_enter {w : V} {p : K × V} (h : p ∈ enter w a v) : p.1 = a := by
  unfold enter at h
  split at h
  · rw [List.mem_singleton.1 h]
  · exact absurd h List.not_mem_nil

theorem sorted_enter (w : V) (a : K) : Sorted (enter w a v) := by
  unfold enter
  split
  · exact List.pairwise_singleton _ _
  · exact List.Pairwise.nil

theorem sorted_overwrite (hs : Sorted l) (hab : a < b) : Sorted (overwrite d l a b v) := by
  have hbefore : ∀ p ∈ l.filter (fun p => decide (p.1 < a)), p.1 < a := fun p hp =>
    of_decide_eq_true (List.mem_filter.1 hp).2
  have hafter : ∀ p ∈ l.filter (fun p => decide (b < p.1)), b < p.1 := fun p hp =>
    of_decide_eq_true (List.mem_filter.1 hp).2
  refine List.pairwise_append.2 ⟨hs.filter _, List.pairwise_append.2 ⟨sorted_enter _ _,
    List.pairwise_append.2 ⟨sorted_enter _ _, hs.filter _, ?_⟩, ?_⟩, ?_⟩
  · intro p hp q hq
    rw [mem_enter hp]
    exact hafter q hq
  · intro p hp q hq
    rw [mem_enter hp]
    rcases List.mem_append.1 hq with hq | hq
    · rw [mem_enter hq]
      exact hab
    · exact hab.trans (hafter q hq)
  · intro p hp q hq
    have hpa := hbefore p hp
    rcases List.mem_append.1 hq with hq | hq
    · rw [mem_enter hq]
      exact hpa
    · rcases List.mem_append.1 hq with hq | hq
      · rw [mem_enter hq]
        exact hpa.trans hab
      · exact (hpa.trans hab).trans (hafter q hq)

theorem alternates_overwrite (hs : Sorted l) (h : Alternates d l) (a b : K) (v : V) :
    Alternates d (overwrite d l a b v) := by
  have hafter : Alternates (valueAt d l b) (l.filter fun p => decide (b < p.1)) := by
    rw [← filter_append_filter hs b] at h; exact (alternates_append.1 h).2
  have hbefore : Alternates d (l.filter fun p => decide (p.1 < a)) := by
    -- The points before `a` are a first part of the list.
    have hcut : (l.filter fun p => decide (p.1 < a)) ++ l.dropWhile (fun p => decide (p.1 < a)) = l := by
      rw [← takeWhile_eq_filter]
      · exact List.takeWhile_append_dropWhile
      · exact hs.imp fun hpq hq => decide_eq_true (hpq.trans (of_decide_eq_true hq))
    rw [← hcut] at h; exact (alternates_append.1 h).1
  refine alternates_append.2 ⟨hbefore, alternates_append.2 ⟨alternates_enter _ _, ?_⟩⟩
  rw [lastValue_enter]
  refine alternates_append.2 ⟨alternates_enter _ _, ?_⟩
  rw [lastValue_enter]
  exact hafter

theorem lastValue_overwrite (hs : Sorted l) (a b : K) (v : V) :
    lastValue d (overwrite d l a b v) = lastValue d l := by
  have hsplit := congrArg (lastValue d) (filter_append_filter hs b)
  rw [lastValue_append] at hsplit
  rw [overwrite, lastValue_append, lastValue_append, lastValue_append, lastValue_enter, lastValue_enter]
  exact hsplit

/-- **Only the range changes.** -/
theorem valueAt_overwrite (hs : Sorted l) (hab : a < b) (x : K) :
    valueAt d (overwrite d l a b v) x = if a ≤ x ∧ x < b then v else valueAt d l x := by
  have henter : ∀ {w : V} {c : K} {u : V}, (enter w c u).filter (fun p => decide (p.1 ≤ x)) =
      if c ≤ x then enter w c u else [] := by
    intro w c u
    by_cases hcx : c ≤ x
    · rw [if_pos hcx]
      refine List.filter_eq_self.2 fun p hp => ?_
      rw [mem_enter hp]
      exact decide_eq_true hcx
    · rw [if_neg hcx]
      refine List.filter_eq_nil_iff.2 fun p hp => ?_
      rw [mem_enter hp]; simpa using hcx
  have hread : valueAt d (overwrite d l a b v) x =
      lastValue (lastValue (lastValue (lastValue d
        ((l.filter fun p => decide (p.1 < a)).filter fun p => decide (p.1 ≤ x)))
          (if a ≤ x then enter (lastValue d (l.filter fun p => decide (p.1 < a))) a v else []))
            (if b ≤ x then enter v b (valueAt d l b) else []))
              ((l.filter fun p => decide (b < p.1)).filter fun p => decide (p.1 ≤ x)) := by
    rw [valueAt, overwrite, List.filter_append, List.filter_append, List.filter_append, henter, henter,
      lastValue_append, lastValue_append, lastValue_append]
  rw [hread]
  by_cases hax : a ≤ x
  · have hbefore : (l.filter fun p => decide (p.1 < a)).filter (fun p => decide (p.1 ≤ x)) =
        l.filter fun p => decide (p.1 < a) := by
      refine List.filter_eq_self.2 fun p hp => ?_
      exact decide_eq_true ((of_decide_eq_true (List.mem_filter.1 hp).2).le.trans hax)
    rw [hbefore, if_pos hax, lastValue_enter]
    by_cases hbx : b ≤ x
    · -- Behind the range: the value at `b`, then the old points behind it.
      have hsplit : (l.filter fun p => decide (p.1 ≤ b)) ++
          (l.filter fun p => decide (b < p.1)).filter (fun p => decide (p.1 ≤ x)) =
            l.filter fun p => decide (p.1 ≤ x) := by
        have hfront : (l.filter fun p => decide (p.1 ≤ b)).filter (fun p => decide (p.1 ≤ x)) =
            l.filter fun p => decide (p.1 ≤ b) := by
          refine List.filter_eq_self.2 fun p hp => ?_
          exact decide_eq_true ((of_decide_eq_true (List.mem_filter.1 hp).2).trans hbx)
        conv_rhs => rw [← filter_append_filter hs b, List.filter_append, hfront]
      rw [if_pos hbx, lastValue_enter, if_neg fun h => absurd hbx (not_le.2 h.2), valueAt, valueAt,
        ← lastValue_append, hsplit]
    · have hnone : (l.filter fun p => decide (b < p.1)).filter (fun p => decide (p.1 ≤ x)) = [] := by
        refine List.filter_eq_nil_iff.2 fun p hp hpx => ?_
        exact hbx ((of_decide_eq_true (List.mem_filter.1 hp).2).le.trans (of_decide_eq_true hpx))
      rw [if_neg hbx, hnone, if_pos ⟨hax, not_le.1 hbx⟩]; rfl
  · -- In front of the range: nothing new is read.
    have hxa : x < a := not_le.1 hax
    have hxb : ¬ b ≤ x := not_le.2 (hxa.trans hab)
    have hnone : (l.filter fun p => decide (b < p.1)).filter (fun p => decide (p.1 ≤ x)) = [] := by
      refine List.filter_eq_nil_iff.2 fun p hp hpx => ?_
      exact hxb ((of_decide_eq_true (List.mem_filter.1 hp).2).le.trans (of_decide_eq_true hpx))
    have hsame : (l.filter fun p => decide (p.1 < a)).filter (fun p => decide (p.1 ≤ x)) =
        l.filter fun p => decide (p.1 ≤ x) := by
      rw [List.filter_filter]
      refine List.filter_congr fun p _ => ?_
      by_cases hpx : p.1 ≤ x
      · rw [decide_eq_true hpx, decide_eq_true (lt_of_le_of_lt hpx hxa)]
        rfl
      · rw [decide_eq_false hpx]; rfl
    rw [hsame, if_neg hax, if_neg hxb, hnone, if_neg fun h => hax h.1]; rfl

end Lib.ChangePoints
