/-
  MINIMA ALONG POINTERS: every node has a base value and points at most at one other node; a node's
  value should be the least of its base and of the values of the nodes that point at it.

  When this fails at ONE node, `restore` repairs that node and goes on to the node it points at,
  until nothing changes.

  1. **The crux** — the pointers may run in a circle, and still `restore` comes to an end.  If the
     first repair lowers a value, to `v` say, then every later one lowers to that same `v`, so the
     nodes above `v` get fewer.  If the first repair raises a value from `o`, then every later one
     raises from that same `o`, so the nodes up to `o` get fewer.
  2. **Result** — `restore_spec`: more steps than there are nodes are enough, and all nodes are then
     as they should be.
-/
import Mathlib.Data.Finset.Fold
import Mathlib.Data.Fintype.Card
import Mathlib.Order.Basic
import Mathlib.Tactic.Common

namespace Lib.MinPropagation

open Function (update update_self update_of_ne)

variable {T α : Type*} [Fintype T] [DecidableEq T] [LinearOrder α] (base : T → α)
  (target : T → Option T)

/-- The least of the base value and the values of the nodes that point here. -/
def desired (val : T → α) (t : T) : α :=
  (Finset.univ.filter fun w => target w = some t).fold min (base t) val

/-- Repair a node, then the one it points at, while there is something to repair. -/
def restore : Nat → (T → α) → Option T → Option (T → α)
  | _, val, none => some val
  | 0, _, some _ => none
  | n + 1, val, some t =>
    if desired base target val t = val t then some val
    else restore n (update val t (desired base target val t)) (target t)

variable {base target} {val : T → α} {t x : T} {c v : α}

theorem restore_none (n : Nat) : restore base target n val none = some val := by
  cases n <;> rfl

/-! ## The least value -/

theorem le_desired_iff :
    c ≤ desired base target val t ↔ c ≤ base t ∧ ∀ w, target w = some t → c ≤ val w := by
  rw [desired, Finset.le_fold_min]; simp

theorem desired_le_base : desired base target val t ≤ base t :=
  (le_desired_iff.1 (le_refl _)).1

theorem desired_le_of_target (h : target x = some t) : desired base target val t ≤ val x :=
  (le_desired_iff.1 (le_refl _)).2 x h

/-- It is the base value or the value of some node that points here. -/
theorem desired_eq_base_or (base : T → α) (target : T → Option T) (val : T → α) (t : T) :
    desired base target val t = base t ∨
      ∃ w, target w = some t ∧ desired base target val t = val w := by
  by_contra hno
  rw [not_or] at hno
  obtain ⟨hb, hw⟩ := hno
  have hlt : desired base target val t < desired base target val t := by
    have h := (Finset.lt_fold_min (s := Finset.univ.filter fun w => target w = some t)
      (f := val) (b := base t) (c := desired base target val t)).2
    refine h ⟨lt_of_le_of_ne desired_le_base hb, fun w hmem => ?_⟩
    have hwt : target w = some t := by simpa using hmem
    exact lt_of_le_of_ne (desired_le_of_target hwt) fun heq => hw ⟨w, hwt, heq⟩
  exact lt_irrefl _ hlt

theorem desired_update_of_ne (h : target t ≠ some x) :
    desired base target (update val t v) x = desired base target val x := by
  refine Finset.fold_congr fun w hw => ?_
  refine update_of_ne ?_ _ _
  rintro rfl
  exact h (by simpa using hw)

theorem desired_update_of_le (h : target t = some x) (hv : v ≤ val t) :
    desired base target (update val t v) x = min (desired base target val x) v := by
  refine eq_of_forall_le_iff fun c => ?_
  rw [le_min_iff, le_desired_iff, le_desired_iff]
  constructor
  · rintro ⟨h1, h2⟩
    have hcv : c ≤ v := by
      have := h2 t h
      rwa [update_self] at this
    refine ⟨⟨h1, fun w hw => ?_⟩, hcv⟩
    by_cases hwt : w = t
    · rw [hwt]
      exact le_trans hcv hv
    · have := h2 w hw
      rwa [update_of_ne hwt] at this
  · rintro ⟨⟨h1, h2⟩, hcv⟩
    refine ⟨h1, fun w hw => ?_⟩
    by_cases hwt : w = t
    · rw [hwt, update_self]
      exact hcv
    · rw [update_of_ne hwt]; exact h2 w hw

theorem desired_le_desired_update (hv : val t ≤ v) :
    desired base target val x ≤ desired base target (update val t v) x := by
  refine le_desired_iff.2 ⟨desired_le_base, fun w hw => ?_⟩
  by_cases hwt : w = t
  · subst hwt
    rw [update_self]
    exact le_trans (desired_le_of_target hw) hv
  · rw [update_of_ne hwt]; exact desired_le_of_target hw

/-- A value that was not the least one can be raised without effect. -/
theorem desired_update_of_lt (hv : val t ≤ v) (hlt : desired base target val x < val t) :
    desired base target (update val t v) x = desired base target val x := by
  refine le_antisymm ?_ (desired_le_desired_update hv)
  rcases desired_eq_base_or base target val x with h | ⟨w, hw, h⟩
  · rw [h]
    exact desired_le_base
  · have hwt : w ≠ t := by
      rintro rfl; exact absurd h (ne_of_lt hlt)
    rw [h]
    have hle : desired base target (update val t v) x ≤ update val t v w :=
      desired_le_of_target hw
    rwa [update_of_ne hwt] at hle

/-! ## Changing pointers -/

section Pointers

variable {target' : T → Option T}

theorem desired_congr (h : ∀ w, target' w = some x ↔ target w = some x) :
    desired base target' val x = desired base target val x := by
  refine eq_of_forall_le_iff fun c => ?_
  rw [le_desired_iff, le_desired_iff]
  simp only [h]

/-- Pointers may go away from a node that does not depend on them. -/
theorem desired_eq_of_subset (target : T → Option T)
    (hsub : ∀ w, target' w = some x → target w = some x) (hval : val x = desired base target val x)
    (h : val x = base x ∨ ∀ w, target w = some x → target' w ≠ some x → val x < val w) :
    desired base target' val x = val x := by
  refine le_antisymm ?_ (le_desired_iff.2 ⟨?_, fun w hw => ?_⟩)
  · rcases h with h | h
    · rw [h]; exact desired_le_base
    rcases desired_eq_base_or base target val x with hb | ⟨w, hw, heq⟩
    · rw [hval, hb]; exact desired_le_base
    have hw' : target' w = some x := by
      by_contra hno
      exact absurd (hval.trans heq) (ne_of_lt (h w hw hno))
    rw [hval, heq]
    exact desired_le_of_target hw'
  · rw [hval]
    exact desired_le_base
  · rw [hval]; exact desired_le_of_target (hsub w hw)

/-- Pointers may come to a node from nodes that are not below it. -/
theorem desired_eq_of_superset (target : T → Option T)
    (hsub : ∀ w, target w = some x → target' w = some x) (hval : val x = desired base target val x)
    (h : ∀ w, target' w = some x → target w ≠ some x → val x ≤ val w) :
    desired base target' val x = val x := by
  refine le_antisymm ?_ (le_desired_iff.2 ⟨?_, fun w hw => ?_⟩)
  · rw [hval]
    exact le_desired_iff.2 ⟨desired_le_base, fun w hw => desired_le_of_target (hsub w hw)⟩
  · rw [hval]
    exact desired_le_base
  · by_cases hw' : target w = some x
    · rw [hval]
      exact desired_le_of_target hw'
    · exact h w hw hw'

end Pointers

/-! ## Everything in order but one node -/

/-- Every node other than `t` has the value it should have. -/
def StableExcept (base : T → α) (target : T → Option T) (val : T → α) (t : T) : Prop :=
  ∀ x, x ≠ t → val x = desired base target val x

def Stable (base : T → α) (target : T → Option T) (val : T → α) : Prop :=
  ∀ x, val x = desired base target val x

theorem StableExcept.stable (h : StableExcept base target val t)
    (ht : desired base target val t = val t) : Stable base target val := by
  intro x
  by_cases hx : x = t
  · rw [hx]
    exact ht.symm
  · exact h x hx

theorem StableExcept.repair (h : StableExcept base target val t) (hx : target t ≠ some x) :
    update val t (desired base target val t) x =
      desired base target (update val t (desired base target val t)) x := by
  rw [desired_update_of_ne hx]
  by_cases hxt : x = t
  · rw [hxt, update_self]
  · rw [update_of_ne hxt]; exact h x hxt

omit [LinearOrder α] in
/-- The value of one node leaves the set that is counted. -/
theorem card_filter_update_lt (val : T → α) (t : T) (p : α → Prop) [DecidablePred p]
    (ht : p (val t)) (hv : ¬ p v) :
    (Finset.univ.filter fun x => p (update val t v x)).card <
      (Finset.univ.filter fun x => p (val x)).card := by
  refine Finset.card_lt_card (Finset.ssubset_iff_subset_ne.2 ⟨fun x hx => ?_, fun heq => ?_⟩)
  · rw [Finset.mem_filter] at hx ⊢
    by_cases hxt : x = t
    · rw [hxt]
      exact ⟨Finset.mem_univ _, ht⟩
    · rw [update_of_ne hxt] at hx; exact hx
  · have hmem : t ∈ Finset.univ.filter fun x => p (val x) := by simp [ht]
    rw [← heq, Finset.mem_filter, update_self] at hmem; exact hv hmem.2

/-! ## The two kinds of repair -/

/-- Lowering: every repair sets the value `v`. -/
theorem restore_lowering {n : Nat} {t : T} (hex : StableExcept base target val t)
    (ht : desired base target val t = min (val t) v)
    (hn : (Finset.univ.filter fun x => v < val x).card < n) :
    ∃ val', restore base target n val (some t) = some val' ∧ Stable base target val' := by
  induction n generalizing val t with
  | zero => exact absurd hn (Nat.not_lt_zero _)
  | succ n ih =>
    rw [restore]
    split
    · rename_i heq
      exact ⟨val, rfl, hex.stable heq⟩
    · rename_i hne
      have hlt : v < val t := by
        by_contra hge
        exact hne (ht.trans (min_eq_left (not_lt.1 hge)))
      have hv : desired base target val t = v := ht.trans (min_eq_right (le_of_lt hlt))
      have hrep : ∀ x, target t ≠ some x → _ := fun x hx => hex.repair hx
      rw [hv] at hrep ⊢
      cases htx : target t with
      | none =>
        refine ⟨_, restore_none n, fun x => hrep x ?_⟩
        rw [htx]
        exact nofun
      | some x =>
        refine ih (fun y hy => hrep y ?_) ?_ ?_
        · rw [htx]
          exact fun h => hy (Option.some.inj h).symm
        · rw [desired_update_of_le htx (le_of_lt hlt)]
          by_cases hxt : x = t
          · rw [hxt, hv, update_self]
          · rw [update_of_ne hxt, hex x hxt]
        · have := card_filter_update_lt val t (fun y => v < y) hlt (lt_irrefl v)
          omega

/-- Raising: every repair starts from the value `o`. -/
theorem restore_raising {n : Nat} {t : T} {o : α} (hex : StableExcept base target val t)
    (hle : val t ≤ desired base target val t) (ho : val t < desired base target val t → val t = o)
    (hn : (Finset.univ.filter fun x => val x ≤ o).card < n) :
    ∃ val', restore base target n val (some t) = some val' ∧ Stable base target val' := by
  induction n generalizing val t with
  | zero => exact absurd hn (Nat.not_lt_zero _)
  | succ n ih =>
    rw [restore]
    split
    · rename_i heq
      exact ⟨val, rfl, hex.stable heq⟩
    · rename_i hne
      have hlt : val t < desired base target val t := lt_of_le_of_ne hle (Ne.symm hne)
      have hrep : ∀ x, target t ≠ some x → _ := fun x hx => hex.repair hx
      cases htx : target t with
      | none =>
        refine ⟨_, restore_none n, fun x => hrep x ?_⟩
        rw [htx]
        exact nofun
      | some x =>
        -- a node that points at itself is never above its own value
        have hxt : x ≠ t := by
          rintro rfl; exact absurd (desired_le_of_target htx) (not_le.2 hlt)
        have hx := hex x hxt
        refine ih (fun y hy => hrep y ?_) ?_ ?_ ?_
        · rw [htx]
          exact fun h => hy (Option.some.inj h).symm
        · rw [update_of_ne hxt, hx]
          exact desired_le_desired_update hle
        · rw [update_of_ne hxt]
          intro hlt'
          have hge : val t ≤ val x := by
            by_contra hc
            rw [not_le, hx] at hc
            rw [desired_update_of_lt hle hc, ← hx] at hlt'; exact lt_irrefl _ hlt'
          have hxle : val x ≤ val t := by
            rw [hx]; exact desired_le_of_target htx
          exact (le_antisymm hxle hge).trans (ho hlt)
        · have := card_filter_update_lt val t (fun y => y ≤ o) (le_of_eq (ho hlt))
            (not_le.2 (ho hlt ▸ hlt))
          omega

theorem restore_spec {n : Nat} (hex : StableExcept base target val t) (hn : Fintype.card T < n) :
    ∃ val', restore base target n val (some t) = some val' ∧ Stable base target val' := by
  rcases le_total (desired base target val t) (val t) with h | h
  · exact restore_lowering hex (min_eq_right h).symm (lt_of_le_of_lt (Finset.card_le_univ _) hn)
  · exact restore_raising hex h (fun _ => rfl) (lt_of_le_of_lt (Finset.card_le_univ _) hn)

end Lib.MinPropagation
