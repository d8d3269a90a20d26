/-
  PARTIAL RUNS: a machine given by a partial step function, which halts where it has no next state.

  `steps n s` is the state after exactly `n` steps.  `Halts n s final` says that the run from `s` ends
  in `final` after `n` steps; it is deterministic (`Halts.unique`), and a part of the run that is known
  can be cut off in front (`Halts.after`), which leaves a shorter run: the measure for inductions on
  programs whose loops need not end.
-/
import Mathlib.Data.Option.Basic
import Mathlib.Tactic.Common

namespace Lib.PartialRuns

variable {σ : Type*} {step : σ → Option σ} {m n : Nat} {s s' s'' final final' : σ}

/-- The state after exactly `n` steps. -/
def steps (step : σ → Option σ) : Nat → σ → Option σ
  | 0, s => some s
  | n + 1, s => (step s).bind (steps step n)

@[simp] theorem steps_zero : steps step 0 s = some s := rfl

theorem steps_succ (h : step s = some s') : steps step (n + 1) s = steps step n s' := by
  rw [steps, h]; rfl

theorem steps_one (h : step s = some s') : steps step 1 s = some s' := steps_succ h

theorem steps_add : ∀ (m : Nat) (s : σ),
    steps step (m + n) s = (steps step m s).bind (steps step n)
  | 0, s => by rw [Nat.zero_add]; rfl
  | m + 1, s => by
    rw [Nat.succ_add, steps, steps, Option.bind_assoc]
    congr 1
    funext s'
    exact steps_add m s'

theorem steps_trans (h : steps step m s = some s') (h' : steps step n s' = some s'') :
    steps step (m + n) s = some s'' := by
  rw [steps_add, h]; exact h'

/-- The run from `s` halts in `final` after `n` steps. -/
def Halts (step : σ → Option σ) (n : Nat) (s final : σ) : Prop :=
  steps step n s = some final ∧ step final = none

theorem steps_halted (h : step final = none) : ∀ n, 0 < n → steps step n final = none
  | n + 1, _ => by rw [steps, h]; rfl

/-- What is left of a run behind a part of it. -/
theorem Halts.after (h : Halts step n s final) (hm : steps step m s = some s') :
    m ≤ n ∧ Halts step (n - m) s' final := by
  have hle : m ≤ n := by
    by_contra hlt
    have hsplit : steps step (n + (m - n)) s = some s' := by
      rw [show n + (m - n) = m by omega]; exact hm
    rw [steps_add, h.1] at hsplit
    rw [Option.bind_some, steps_halted h.2 _ (by omega)] at hsplit; cases hsplit
  refine ⟨hle, ?_, h.2⟩
  have hsplit := h.1
  rw [show n = m + (n - m) by omega, steps_add, hm] at hsplit
  exact hsplit

theorem Halts.tail (h : Halts step n s final) (hstep : step s = some s') :
    ∃ k, n = k + 1 ∧ Halts step k s' final := by
  obtain ⟨hle, htail⟩ := h.after (steps_one hstep); exact ⟨n - 1, by omega, htail⟩

theorem Halts.unique (h : Halts step m s final) (h' : Halts step n s final') :
    m = n ∧ final = final' := by
  obtain ⟨hle, hrest⟩ := h'.after h.1
  obtain ⟨hle', -⟩ := h.after h'.1
  obtain rfl : m = n := by omega
  rw [Nat.sub_self] at hrest
  exact ⟨rfl, Option.some.inj hrest.1⟩

end Lib.PartialRuns
