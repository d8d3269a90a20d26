import Mathlib.Data.Set.Finite.Basic
import Mathlib.Data.Set.Finite.Lattice
import Mathlib.Data.Fintype.Order
import Mathlib.Logic.Relation

/-
  Graphs that are walked as if they were trees.

  1. **The notion (`Depth`)** - `Depth r k a`: the tree that unfolds the graph from `a` has fewer than `k`
     levels. A recursion that visits every successor of a node, without remembering what it has seen, ends
     within `k` levels exactly then.
-/

namespace Lib.Unfolding

open Relation

variable {α : Type*} {r : α → α → Prop}

/-- The graph unfolds from the node in fewer than so many levels. -/
def Depth (r : α → α → Prop) : Nat → α → Prop
  | 0, _ => False
  | k + 1, a => ∀ b, r a b → Depth r k b

theorem Depth.mono {k l : Nat} {a : α} (h : Depth r k a) (hle : k ≤ l) : Depth r l a := by
  induction k generalizing l a with
  | zero => exact h.elim
  | succ k ih =>
    obtain ⟨m, rfl⟩ := Nat.exists_eq_add_of_le hle
    rw [show k + 1 + m = k + m + 1 by omega]; exact fun b hab => ih (h b hab) (by omega)

theorem Depth.step {k : Nat} {a b : α} (h : Depth r k a) (hab : r a b) : ∃ l < k, Depth r l b := by
  cases k with
  | zero => exact h.elim
  | succ k => exact ⟨k, Nat.lt_succ_self k, h b hab⟩

theorem Depth.steps {k : Nat} {a b : α} (h : Depth r k a) (hab : TransGen r a b) :
    ∃ l < k, Depth r l b := by
  induction hab with
  | single hab => exact h.step hab
  | tail _ hbc ih =>
    obtain ⟨l, hl, hb⟩ := ih
    obtain ⟨m, hm, hc⟩ := hb.step hbc; exact ⟨m, by omega, hc⟩

theorem Depth.not_cycle {k : Nat} {a : α} (h : Depth r k a) : ¬ TransGen r a a := by
  induction k using Nat.strong_induction_on with
  | _ k ih =>
    intro hcycle
    obtain ⟨l, hl, ha⟩ := h.steps hcycle; exact ih l hl ha hcycle

theorem Depth.reach {k : Nat} {a b : α} (h : Depth r k a) (hab : ReflTransGen r a b) :
    ∃ l, Depth r l b := by
  obtain rfl | hstep := reflTransGen_iff_eq_or_transGen.mp hab
  · exact ⟨k, h⟩
  · obtain ⟨l, -, hb⟩ := h.steps hstep; exact ⟨l, hb⟩

theorem depth_of_successors {a : α} (hfin : {b | r a b}.Finite) (h : ∀ b, r a b → ∃ k, Depth r k b) :
    ∃ k, Depth r k a := by
  have hsub : Finite {b | r a b} := hfin
  choose k hk using fun b : {b | r a b} => h b.1 b.2
  obtain ⟨bound, hbound⟩ := Finite.bddAbove_range k
  exact ⟨bound + 1, fun b hab => (hk ⟨b, hab⟩).mono (hbound (Set.mem_range_self _))⟩

theorem depth_iff_acyclic {a : α} (hfin : {b | ReflTransGen r a b}.Finite) :
    (∃ k, Depth r k a) ↔ ∀ b, ReflTransGen r a b → ¬ TransGen r b b := by
  constructor
  · rintro ⟨k, h⟩ b hab
    obtain ⟨l, hb⟩ := h.reach hab
    exact hb.not_cycle
  · intro hacyclic
    have hsub : Finite {b | ReflTransGen r a b} := hfin
    -- among the nodes that can be reached, to be further on is a well-founded relation
    let later (x y : {b | ReflTransGen r a b}) : Prop := TransGen r y.1 x.1
    have htrans : IsTrans _ later := ⟨fun _ _ _ hxy hyz => hyz.trans hxy⟩
    have hirrefl : Std.Irrefl later := ⟨fun x => hacyclic x.1 x.2⟩
    have hwf : WellFounded later := Finite.wellFounded_of_trans_of_irrefl later
    suffices hall : ∀ x : {b | ReflTransGen r a b}, ∃ k, Depth r k x.1 from hall ⟨a, .refl⟩
    intro x
    induction x using hwf.induction with
    | _ x ih =>
      refine depth_of_successors (hfin.subset fun b hxb => x.2.tail hxb) fun b hxb => ?_
      exact ih ⟨b, x.2.tail hxb⟩ (.single hxb)

end Lib.Unfolding
