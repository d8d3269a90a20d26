import Mathlib.Data.Nat.Basic
import Mathlib.Tactic.Common

/-
  BISECTION: the first place where a predicate that holds up to some place stops holding.

  `bisect p pos len` halves the stretch of `len` places from `pos` on.  When `p` holds on an initial
  part of the stretch only, the result is the end of that part (`bisect_eq`).
-/

namespace Lib.Bisect

/-- Halving, as `std::upper_bound` does it. -/
def bisect (p : Nat → Bool) (pos len : Nat) : Nat :=
  if len = 0 then pos
  else if p (pos + len / 2) then bisect p (pos + len / 2 + 1) (len - (len / 2 + 1))
  else bisect p pos (len / 2)
termination_by len

/-- The end `k` of the part on which the predicate holds is found. -/
theorem bisect_eq {p : Nat → Bool} {k : Nat} : ∀ (len pos : Nat), pos ≤ k → k ≤ pos + len →
    (∀ i, pos ≤ i → i < pos + len → (p i = true ↔ i < k)) → bisect p pos len = k := by
  intro len
  induction len using Nat.strong_induction_on with
  | h len ih =>
    intro pos hle hge hp
    unfold bisect
    split
    · omega
    · next hlen =>
      have hmid := hp (pos + len / 2) (by omega) (by omega)
      split
      · next htrue =>
        have hlt := hmid.mp htrue
        exact ih (len - (len / 2 + 1)) (by omega) _ (by omega) (by omega)
          fun i hi hi' => hp i (by omega) (by omega)
      · next hfalse =>
        have hlt : ¬ pos + len / 2 < k := fun h => hfalse (hmid.mpr h)
        exact ih (len / 2) (by omega) _ hle (by omega) fun i hi hi' => hp i hi (by omega)

end Lib.Bisect
