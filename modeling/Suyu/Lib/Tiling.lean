/-
  TILINGS: lists of half-open intervals laid end to end.

  Many stores keep an address range as an ordered list of blocks, each block covering
  `[lo x, hi x)`, with no gap and no overlap.  `Tiles lo hi a e l` says exactly that the list
  `l` covers `[a, e)` this way, every block being non-empty.  The recursion is on the list, so
  splitting a block, merging two neighbours or replacing a block by one with the same bounds are
  all one-line rewrites of the same shape.

  * `Tiles.append` / `tiles_append_iff` — cutting a tiling at a block boundary;
  * `Tiles.bounds`, `Tiles.exists_mem`, `Tiles.pairwise`, `Tiles.isChain` — the usual readings
    (inside the range, covering it, sorted and disjoint, contiguous);
  * `lookup` — the block containing a point, with its two peel rules `lookup_cons_of_lt` and
    `lookup_cons_of_ge`;
  * `Tiles.span_lookup` — walking a tiling up to the block that contains a point.
-/
import Mathlib.Data.List.Basic
import Mathlib.Data.List.Chain
import Mathlib.Data.List.TakeDrop
import Mathlib.Tactic.Common

namespace Lib.Tiling

variable {α : Type*} {lo hi : α → Nat}

/-- `Tiles lo hi a e l`: the blocks of `l` are non-empty and cover `[a, e)` end to end. -/
def Tiles (lo hi : α → Nat) : Nat → Nat → List α → Prop
  | a, e, [] => a = e
  | a, e, x :: l => lo x = a ∧ a < hi x ∧ Tiles lo hi (hi x) e l

variable {e p : Nat} {l : List α}

@[simp] theorem tiles_nil {a : Nat} : Tiles lo hi a e [] ↔ a = e := Iff.rfl

@[simp] theorem tiles_cons {a : Nat} {x : α} :
    Tiles lo hi a e (x :: l) ↔ lo x = a ∧ a < hi x ∧ Tiles lo hi (hi x) e l := Iff.rfl

theorem Tiles.le {l : List α} : ∀ {a e : Nat}, Tiles lo hi a e l → a ≤ e := by
  induction l with
  | nil => intro a e h; exact Nat.le_of_eq h
  | cons x l ih =>
    intro a e h; exact Nat.le_trans (Nat.le_of_lt h.2.1) (ih h.2.2)

/-- A tiling of an append is a tiling of each half, meeting at some boundary. -/
theorem tiles_append_iff {l₂ : List α} (l₁ : List α) : ∀ {a : Nat},
    Tiles lo hi a e (l₁ ++ l₂) ↔ ∃ m, Tiles lo hi a m l₁ ∧ Tiles lo hi m e l₂ := by
  induction l₁ with
  | nil =>
    intro a
    constructor
    · intro h; exact ⟨a, rfl, h⟩
    · rintro ⟨m, hm, h⟩; obtain rfl : a = m := hm; exact h
  | cons x l ih =>
    intro a
    rw [List.cons_append, tiles_cons, ih]
    constructor
    · rintro ⟨h1, h2, m, h3, h4⟩; exact ⟨m, ⟨h1, h2, h3⟩, h4⟩
    · rintro ⟨m, ⟨h1, h2, h3⟩, h4⟩; exact ⟨h1, h2, m, h3, h4⟩

theorem Tiles.append {l₁ l₂ : List α} {a m e : Nat} (h₁ : Tiles lo hi a m l₁)
    (h₂ : Tiles lo hi m e l₂) : Tiles lo hi a e (l₁ ++ l₂) :=
  (tiles_append_iff l₁).2 ⟨m, h₁, h₂⟩

theorem Tiles.bounds {x : α} : ∀ {a e : Nat}, Tiles lo hi a e l → x ∈ l →
    a ≤ lo x ∧ lo x < hi x ∧ hi x ≤ e := by
  induction l with
  | nil => intro a e _ hx; exact absurd hx List.not_mem_nil
  | cons y l ih =>
    intro a e h hx
    obtain ⟨h1, h2, h3⟩ := h
    rcases List.mem_cons.mp hx with rfl | hx
    · exact ⟨by omega, by omega, h3.le⟩
    · have := ih h3 hx
      omega

theorem Tiles.exists_mem : ∀ {a e p : Nat}, Tiles lo hi a e l → a ≤ p → p < e →
    ∃ x ∈ l, lo x ≤ p ∧ p < hi x := by
  induction l with
  | nil => intro a e p h h1 h2; obtain rfl : a = e := h; omega
  | cons y l ih =>
    intro a e p h h1 h2
    obtain ⟨hlo, hlt, hrest⟩ := h
    by_cases hp : p < hi y
    · exact ⟨y, List.mem_cons_self, by omega, hp⟩
    · obtain ⟨x, hx, hb⟩ := ih hrest (by omega) h2; exact ⟨x, List.mem_cons_of_mem _ hx, hb⟩

theorem Tiles.pairwise : ∀ {a e : Nat}, Tiles lo hi a e l →
    l.Pairwise (fun x y => hi x ≤ lo y) := by
  induction l with
  | nil => intro a e _; exact List.Pairwise.nil
  | cons y l ih =>
    intro a e h
    refine List.Pairwise.cons (fun x hx => ?_) (ih h.2.2)
    exact (h.2.2.bounds hx).1

theorem Tiles.isChain : ∀ {a e : Nat}, Tiles lo hi a e l → l.IsChain (fun x y => hi x = lo y) := by
  induction l with
  | nil => intro a e _; exact List.IsChain.nil
  | cons y l ih =>
    intro a e h
    cases l with
    | nil => exact List.IsChain.singleton _
    | cons z t => exact List.IsChain.cons_cons h.2.2.1.symm (ih h.2.2)

/-! ## Looking a point up -/

/-- The block of `l` containing the point `p`, if any. -/
def lookup (lo hi : α → Nat) (l : List α) (p : Nat) : Option α :=
  l.find? (fun x => decide (lo x ≤ p ∧ p < hi x))

@[simp] theorem lookup_nil (p : Nat) : lookup lo hi [] p = none := rfl

theorem lookup_cons_of_lt {x : α} (h1 : lo x ≤ p) (h2 : p < hi x) :
    lookup lo hi (x :: l) p = some x := by
  simp [lookup, h1, h2]

theorem lookup_cons_of_ge {x : α} (h : hi x ≤ p) : lookup lo hi (x :: l) p = lookup lo hi l p := by
  have : ¬ (lo x ≤ p ∧ p < hi x) := by omega
  simp [lookup, this]

theorem Tiles.lookup_of_lt {a : Nat} (h : Tiles lo hi a e l) (hp : p < a) :
    lookup lo hi l p = none := by
  refine List.find?_eq_none.2 fun x hx => ?_
  have := h.bounds hx
  simp only [decide_eq_true_eq]
  omega

theorem Tiles.lookup_of_ge {a : Nat} (h : Tiles lo hi a e l) (hp : e ≤ p) :
    lookup lo hi l p = none := by
  refine List.find?_eq_none.2 fun x hx => ?_
  have := h.bounds hx
  simp only [decide_eq_true_eq]
  omega

theorem Tiles.lookup_append_of_ge {l₁ l₂ : List α} {a m : Nat} (h : Tiles lo hi a m l₁) (hp : m ≤ p) :
    lookup lo hi (l₁ ++ l₂) p = lookup lo hi l₂ p := by
  unfold lookup
  rw [List.find?_append]
  have hn : lookup lo hi l₁ p = none := h.lookup_of_ge hp
  unfold lookup at hn
  rw [hn, Option.none_or]

theorem Tiles.lookup_append_of_lt {l₁ l₂ : List α} {m : Nat} (h : Tiles lo hi m e l₂) (hp : p < m) :
    lookup lo hi (l₁ ++ l₂) p = lookup lo hi l₁ p := by
  unfold lookup
  rw [List.find?_append]
  have hn : lookup lo hi l₂ p = none := h.lookup_of_lt hp
  unfold lookup at hn
  rw [hn, Option.or_none]

theorem mem_of_lookup {x : α} (h : lookup lo hi l p = some x) : x ∈ l ∧ lo x ≤ p ∧ p < hi x := by
  have h1 := List.mem_of_find?_eq_some h
  have h2 := List.find?_some h
  simpa using And.intro h1 (of_decide_eq_true h2)

theorem Tiles.lookup_eq_some {x : α} : ∀ {a e : Nat},
    Tiles lo hi a e l → x ∈ l → lo x ≤ p → p < hi x → lookup lo hi l p = some x := by
  induction l with
  | nil => intro a e _ hx; exact absurd hx List.not_mem_nil
  | cons y l ih =>
    intro a e h hx h1 h2
    rcases List.mem_cons.mp hx with rfl | hx
    · exact lookup_cons_of_lt h1 h2
    · have hb := h.2.2.bounds hx
      rw [lookup_cons_of_ge (by omega)]; exact ih h.2.2 hx h1 h2

/-! ## Walking up to a point -/

theorem Tiles.span_lookup : ∀ {a e : Nat}, Tiles lo hi a e l →
    a ≤ p → p < e →
    ∃ pre x post, l.span (fun x => !decide (lo x ≤ p ∧ p < hi x)) = (pre, x :: post) ∧
      l = pre ++ x :: post ∧ lo x ≤ p ∧ p < hi x := by
  induction l with
  | nil => intro a e h h1 h2; obtain rfl : a = e := h; omega
  | cons y l ih =>
    intro a e h h1 h2
    obtain ⟨hlo, hlt, hrest⟩ := h
    by_cases hp : lo y ≤ p ∧ p < hi y
    · refine ⟨[], y, l, ?_, rfl, hp⟩
      rw [List.span_eq_takeWhile_dropWhile, List.takeWhile_cons_of_neg (by simpa using hp),
        List.dropWhile_cons_of_neg (by simpa using hp)]
    · obtain ⟨pre, x, post, hspan, heq, hb⟩ := ih hrest (by omega) h2
      refine ⟨y :: pre, x, post, ?_, by rw [heq]; rfl, hb⟩
      rw [List.span_eq_takeWhile_dropWhile, Prod.mk.injEq] at hspan ⊢
      have hn : (!decide (lo y ≤ p ∧ p < hi y)) = true := by rw [decide_eq_false hp]; rfl
      rw [List.takeWhile_cons, List.dropWhile_cons, if_pos hn, if_pos hn, hspan.1, hspan.2]
      exact ⟨rfl, rfl⟩

end Lib.Tiling
