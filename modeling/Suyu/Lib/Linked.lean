/-
  LINKED LISTS IN ARRAYS: lists threaded through tables of links.

  1. **One direction** — `Follows next h l`: starting at `h` and following `next` visits exactly the
     elements of `l`, in order, and then stops.  The links are a function, so writing one link is
     `update`, and all that is ever needed is that the write misses the elements of the
     list.
  2. **Two directions** — `DoublyLinked next prev l`: a doubly linked list whose root is the node `none`,
     so that a null link MEANS the root.  Forward from the root one reads `l`, backward one reads
     `l.reverse`.
  3. **The crux** — with the root as a node, the node before the place where two parts of a list
     meet is `l₁.getLast?` and the node after it is `l₂.head?`, also at the two ends.  So inserting
     and unlinking have no special cases, and the backward half of each is the forward half of the
     reversed list.
-/
import Mathlib.Logic.Function.Basic
import Mathlib.Data.List.Basic
import Mathlib.Data.List.Nodup
import Mathlib.Tactic.Common

namespace Lib.Linked

open Function (update update_self update_of_ne)

variable {α : Type*} {next next' : α → Option α} {h : Option α} {l : List α}

/-! ## Following one kind of link -/

/-- Following `next` from `h` visits `l` and stops. -/
def Follows (next : α → Option α) : Option α → List α → Prop
  | h, [] => h = none
  | h, a :: l => h = some a ∧ Follows next (next a) l

@[simp] theorem follows_nil : Follows next h [] ↔ h = none := Iff.rfl

theorem Follows.congr : ∀ {h : Option α} {l : List α}, Follows next h l →
    (∀ a ∈ l, next' a = next a) → Follows next' h l := by
  intro h l
  induction l generalizing h with
  | nil => intro hf _; exact hf
  | cons a l ih =>
    intro hf hc
    refine ⟨hf.1, ?_⟩
    rw [hc a List.mem_cons_self]
    exact ih hf.2 fun b hb => hc b (List.mem_cons_of_mem _ hb)

theorem Follows.head?_eq (hf : Follows next h l) : l.head? = h := by
  cases l with
  | nil => exact hf.symm
  | cons a l => exact hf.1.symm

theorem follows_append_intro {l r : List α}
    (hl : ∀ l₁ a l₂, l = l₁ ++ a :: l₂ → next a = (l₂ ++ r).head?)
    (hr : Follows next r.head? r) : Follows next (l ++ r).head? (l ++ r) := by
  induction l with
  | nil => exact hr
  | cons a l ih =>
    refine ⟨rfl, ?_⟩
    rw [hl [] a l rfl]; exact ih fun l₁ b l₂ h => hl (a :: l₁) b l₂ (by rw [h]; rfl)

/-! ## Round trips from the root -/

section Root

variable {f g : Option α → Option α} {l₁ l₂ : List α} {x : α}

/-- From the root (`none`) and back to it, by way of `l`. -/
def Trip (f : Option α → Option α) (l : List α) : Prop :=
  Follows (fun a => f (some a)) (f none) l

theorem Trip.congr (ht : Trip f l) (h0 : g none = f none) (hc : ∀ a ∈ l, g (some a) = f (some a)) :
    Trip g l := by
  unfold Trip
  rw [h0]
  exact Follows.congr ht hc

/-- A list splits at any place: up to there, and from the node after it on. -/
theorem follows_append {h : Option α} :
    Follows next h (l₁ ++ l₂) → Follows next ((l₁.getLast?.map next).getD h) l₂ := by
  induction l₁ generalizing h with
  | nil => intro hf; exact hf
  | cons a l₁ ih =>
    intro hf
    have hrec := ih hf.2
    cases l₁ with
    | nil => exact hrec
    | cons b l₁ =>
      rw [List.getLast?_cons_cons]
      have hne : (b :: l₁).getLast? = some ((b :: l₁).getLast (List.cons_ne_nil _ _)) :=
        List.getLast?_eq_some_getLast _
      rw [hne] at hrec ⊢; exact hrec

/-- What stands before the cut may be followed by anything its last node points to. -/
theorem follows_append_of_redirect {h v : Option α} {next next' : α → Option α}
    (hf : Follows next h (l₁ ++ l₂)) (hne : l₁ ≠ []) (hnd : l₁.Nodup)
    (hv : ∀ a ∈ l₁.getLast?, next' a = v) (heq : ∀ a ∈ l₁, a ∉ l₁.getLast? → next' a = next a)
    {l₃ : List α} (h3 : Follows next' v l₃) : Follows next' h (l₁ ++ l₃) := by
  induction l₁ generalizing h with
  | nil => exact absurd rfl hne
  | cons a l₁ ih =>
    refine ⟨hf.1, ?_⟩
    cases l₁ with
    | nil =>
      rw [hv a rfl]; exact h3
    | cons b l₁ =>
      have hab : a ∉ (a :: b :: l₁).getLast? := by
        intro hmem
        rw [List.getLast?_cons_cons] at hmem
        exact (List.nodup_cons.1 hnd).1 (List.mem_of_getLast? hmem)
      rw [heq a List.mem_cons_self hab]
      refine ih hf.2 (List.cons_ne_nil _ _) (List.nodup_cons.1 hnd).2 ?_ ?_
      · intro c hc
        exact hv c (by rw [List.getLast?_cons_cons]; exact hc)
      · intro c hc hcl
        exact heq c (List.mem_cons_of_mem _ hc) (by rw [List.getLast?_cons_cons]; exact hcl)

theorem Trip.apply_getLast? (ht : Trip f (l₁ ++ l₂)) : f l₁.getLast? = l₂.head? := by
  have h := (follows_append ht).head?_eq
  rw [h]
  cases l₁.getLast? <;> rfl

/-- Redirecting the node before a place replaces what follows. -/
theorem Trip.redirect (ht : Trip f (l₁ ++ l₂)) (hnd : l₁.Nodup) {l₃ : List α}
    (h0 : l₁ ≠ [] → g none = f none)
    (heq : ∀ a ∈ l₁, some a ≠ l₁.getLast? → g (some a) = f (some a))
    (h3 : Follows (fun a => g (some a)) (g l₁.getLast?) l₃) : Trip g (l₁ ++ l₃) := by
  rcases eq_or_ne l₁ [] with rfl | hne
  · exact h3
  · unfold Trip
    rw [h0 hne]
    refine follows_append_of_redirect ht hne hnd ?_ ?_ h3
    · intro a ha
      rw [Option.mem_def.1 ha]
    · intro a ha hal; exact heq a ha fun h => hal h.symm

theorem Trip.follows_right (ht : Trip f (l₁ ++ l₂)) :
    Follows (fun a => f (some a)) l₂.head? l₂ := by
  have h := follows_append ht
  rwa [← h.head?_eq] at h

theorem Follows.next_eq (hf : Follows next h (l₁ ++ x :: l₂)) : next x = l₂.head? := by
  have hf' : Follows next h ((l₁ ++ [x]) ++ l₂) := by rwa [List.append_assoc]
  have h := (follows_append hf').head?_eq
  have hlast : (l₁ ++ [x]).getLast? = some x := by simp
  rw [hlast] at h
  exact h.symm

end Root

/-! ## Doubly linked lists -/

section Doubly

variable [DecidableEq α] {f g next prev next' prev' : Option α → Option α} {l₁ l₂ : List α} {x : α}

/-- Put `x` behind the node `a`: `x` points where `a` pointed, `a` points at `x`. -/
def insertAfter (f : Option α → Option α) (a : Option α) (x : α) (b : Option α) :
    Option α → Option α :=
  update (update f (some x) b) a (some x)

theorem Trip.insert (ht : Trip f (l₁ ++ l₂)) (hnd : (l₁ ++ l₂).Nodup) (hx : x ∉ l₁ ++ l₂) :
    Trip (insertAfter f l₁.getLast? x l₂.head?) (l₁ ++ x :: l₂) := by
  have hxl : some x ≠ l₁.getLast? := by
    intro h; exact hx (List.mem_append_left _ (List.mem_of_getLast? h.symm))
  refine ht.redirect (List.nodup_append'.1 hnd).1 ?_ ?_ ?_
  · intro hne
    have hn : (none : Option α) ≠ l₁.getLast? := by
      intro h; exact hne (List.getLast?_eq_none_iff.1 h.symm)
    simp only [insertAfter, update_of_ne hn]
    exact update_of_ne (by simp) _ _
  · intro a ha hal
    have hax : some a ≠ some x := by
      intro h; exact hx (List.mem_append_left _ (Option.some.inj h ▸ ha))
    simp only [insertAfter, update_of_ne hal, update_of_ne hax]
  · refine ⟨update_self _ _ _, ?_⟩
    simp only [insertAfter, update_of_ne hxl, update_self]
    refine ht.follows_right.congr fun a ha => ?_
    have hal : some a ≠ l₁.getLast? := by
      intro h; exact (List.nodup_append'.1 hnd).2.2 (List.mem_of_getLast? h.symm) ha
    have hax : some a ≠ some x := by
      intro h; exact hx (List.mem_append_right _ (Option.some.inj h ▸ ha))
    simp only [update_of_ne hal, update_of_ne hax]

theorem Trip.unlink (ht : Trip f (l₁ ++ x :: l₂)) (hnd : (l₁ ++ x :: l₂).Nodup) :
    Trip (update f l₁.getLast? l₂.head?) (l₁ ++ l₂) := by
  have hnd' := List.nodup_append'.1 hnd
  refine ht.redirect hnd'.1 ?_ ?_ ?_
  · intro hne
    refine update_of_ne ?_ _ _
    intro h
    exact hne (List.getLast?_eq_none_iff.1 h.symm)
  · intro a _ hal
    exact update_of_ne hal _ _
  · rw [update_self]
    have ht' : Trip f ((l₁ ++ [x]) ++ l₂) := by rwa [List.append_assoc]
    refine ht'.follows_right.congr fun a ha => ?_
    refine update_of_ne ?_ _ _
    intro h; exact hnd'.2.2 (List.mem_of_getLast? h.symm) (List.mem_cons_of_mem _ ha)

/-- The list `l`, linked both ways around the root. -/
structure DoublyLinked (next prev : Option α → Option α) (l : List α) : Prop where
  forward : Trip next l
  backward : Trip prev l.reverse
  nodup : l.Nodup

namespace DoublyLinked

omit [DecidableEq α]

theorem congr (hl : DoublyLinked next prev l) (hn0 : next' none = next none)
    (hp0 : prev' none = prev none) (hn : ∀ a ∈ l, next' (some a) = next (some a))
    (hp : ∀ a ∈ l, prev' (some a) = prev (some a)) : DoublyLinked next' prev' l :=
  ⟨hl.forward.congr hn0 hn, hl.backward.congr hp0 fun a ha => hp a (List.mem_reverse.1 ha),
    hl.nodup⟩

theorem next_getLast? (hl : DoublyLinked next prev (l₁ ++ l₂)) : next l₁.getLast? = l₂.head? :=
  hl.forward.apply_getLast?

theorem prev_head? (hl : DoublyLinked next prev (l₁ ++ l₂)) : prev l₂.head? = l₁.getLast? := by
  have h := hl.backward
  rw [List.reverse_append] at h
  simpa using h.apply_getLast?

variable [DecidableEq α]

/-- A new element between two parts of the list. -/
theorem insert (hl : DoublyLinked next prev (l₁ ++ l₂)) (hx : x ∉ l₁ ++ l₂) :
    DoublyLinked (insertAfter next l₁.getLast? x l₂.head?) (insertAfter prev l₂.head? x l₁.getLast?)
      (l₁ ++ x :: l₂) := by
  refine ⟨hl.forward.insert hl.nodup hx, ?_, ?_⟩
  · have hb := hl.backward
    have hnd := List.nodup_reverse.2 hl.nodup
    rw [List.reverse_append] at hb hnd
    have hx' : x ∉ l₂.reverse ++ l₁.reverse := by
      rw [← List.reverse_append]; exact fun h => hx (List.mem_reverse.1 h)
    have h := hb.insert hnd hx'
    rw [List.getLast?_reverse, List.head?_reverse] at h
    simpa using h
  · have h : (x :: (l₁ ++ l₂)).Nodup := List.nodup_cons.2 ⟨hx, hl.nodup⟩
    exact List.nodup_middle.2 h

theorem unlink (hl : DoublyLinked next prev (l₁ ++ x :: l₂)) :
    DoublyLinked (update next l₁.getLast? l₂.head?)
      (update prev l₂.head? l₁.getLast?) (l₁ ++ l₂) := by
  refine ⟨hl.forward.unlink hl.nodup, ?_, ?_⟩
  · have hb := hl.backward
    have hnd := List.nodup_reverse.2 hl.nodup
    rw [List.reverse_append, List.reverse_cons, List.append_assoc, List.singleton_append] at hb hnd
    have h := hb.unlink hnd
    rw [List.getLast?_reverse, List.head?_reverse] at h
    rwa [List.reverse_append]
  · exact (List.nodup_cons.1 (List.nodup_middle.1 hl.nodup)).2

end DoublyLinked

end Doubly

end Lib.Linked
