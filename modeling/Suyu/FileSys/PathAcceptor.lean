import Mathlib
import Suyu.FileSys.PathNormalizer

/-
  What `PathNormalizer::IsNormalized` accepts.

  1. **Specification (`joined`)** - a separator, and proper components joined by single separators:
     none is empty, `.` or `..`, and none holds a refused character.

  2. **The crux (`isNormalizedLoop_proper`)** - behind a separator the automaton reads a whole proper
     component and is then in the middle of one; it looks at three characters at most.
-/

namespace Suyu.FileSys

open StringTraits

/-! ## The acceptor -/

theorem not_refused {allowAllCharacters : Bool} {state : PathState} {c : Char} {dir : Path}
    (hallowed : Allowed allowAllCharacters dir) (hc : c ∈ dir) :
    ¬ (¬ allowAllCharacters ∧ state ≠ .start ∧ isInvalidCharacter c) := by
  rintro ⟨hall, -, hinvalid⟩
  rcases hallowed with hallow | hvalid
  · exact hall hallow
  · rw [List.any_eq_false] at hvalid; exact hvalid c hc hinvalid

theorem separator_not_refused {allowAllCharacters : Bool} {state : PathState} :
    ¬ (¬ allowAllCharacters ∧ state ≠ .start ∧ isInvalidCharacter directorySeparator) := by
  rintro ⟨-, -, hinvalid⟩
  rw [isInvalidCharacter_separator] at hinvalid
  exact absurd hinvalid (by simp)

/-- The states behind a separator. -/
def PathState.AfterSeparator (state : PathState) : Prop :=
  state = .firstSeparator ∨ state = .separator

section Acceptor

variable {allowAllCharacters : Bool}

variable {state : PathState} {c : Char} {stack : List Path}

theorem isNormalizedLoop_cons {state' : PathState}
    (hc : ¬ (¬ allowAllCharacters ∧ state ≠ .start ∧ isInvalidCharacter c))
    (hstep : state.process c = .ok (some state')) (rest : Path) :
    isNormalizedLoop allowAllCharacters state (c :: rest) =
      isNormalizedLoop allowAllCharacters state' rest := by
  rw [isNormalizedLoop, if_neg hc, hstep]

theorem PathState.process_afterSeparator (hstate : state.AfterSeparator) (hc : c ≠ directorySeparator) :
    state.process c = .ok (some (if c = dot then .currentDir else .normal)) := by
  rcases hstate with rfl | rfl
  all_goals
    show (if c = directorySeparator then _ else if c = dot then _ else _) = _
    rw [if_neg hc]
    split <;> rfl

theorem PathState.process_currentDir (hc : c ≠ directorySeparator) :
    PathState.currentDir.process c = .ok (some (if c = dot then .parentDir else .normal)) := by
  show (if c = directorySeparator then _ else if c = dot then _ else _) = _
  rw [if_neg hc]
  split <;> rfl

theorem PathState.process_parentDir (hc : c ≠ directorySeparator) :
    PathState.parentDir.process c = .ok (some .normal) := if_neg hc

theorem PathState.process_normal (hc : c ≠ directorySeparator) :
    PathState.normal.process c = .ok (some .normal) := if_neg hc

theorem isNormalizedLoop_chunk {dir : Path} (hdir : directorySeparator ∉ dir)
    (hallowed : Allowed allowAllCharacters dir) (tail : Path) :
    isNormalizedLoop allowAllCharacters .normal (dir ++ tail) =
      isNormalizedLoop allowAllCharacters .normal tail := by
  suffices h : ∀ part : Path, (∀ c ∈ part, c ∈ dir) →
      isNormalizedLoop allowAllCharacters .normal (part ++ tail) =
        isNormalizedLoop allowAllCharacters .normal tail from h dir fun _ hc => hc
  intro part
  induction part with
  | nil => exact fun _ => rfl
  | cons c part ih =>
    intro hpart
    have hmem : c ∈ dir := hpart c (by simp)
    have hne : c ≠ directorySeparator := fun h => hdir (h ▸ hmem)
    rw [List.cons_append,
      isNormalizedLoop_cons (not_refused hallowed hmem) (PathState.process_normal hne)]
    exact ih fun c' hc' => hpart c' (List.mem_cons_of_mem c hc')

/-- **The automaton reads a proper component** and is then in the middle of one. -/
theorem isNormalizedLoop_proper {dir : Path} (hstate : state.AfterSeparator) (hdir : Proper dir)
    (hallowed : Allowed allowAllCharacters dir) (tail : Path) :
    isNormalizedLoop allowAllCharacters state (dir ++ tail) =
      isNormalizedLoop allowAllCharacters .normal tail := by
  have hrefused : ∀ (state : PathState) (c : Char), c ∈ dir →
      ¬ (¬ allowAllCharacters ∧ state ≠ .start ∧ isInvalidCharacter c) :=
    fun _ _ hc => not_refused hallowed hc
  have hsep : ∀ c ∈ dir, c ≠ directorySeparator := fun c hc h => hdir.not_sep (h ▸ hc)
  have hrest : ∀ part : Path, (∀ c ∈ part, c ∈ dir) →
      isNormalizedLoop allowAllCharacters .normal (part ++ tail) =
        isNormalizedLoop allowAllCharacters .normal tail := by
    intro part hpart
    apply isNormalizedLoop_chunk (fun h => hdir.not_sep (hpart _ h))
    rcases hallowed with hallow | hvalid
    · exact Or.inl hallow
    · apply Or.inr
      rw [List.any_eq_false] at hvalid ⊢; exact fun c hc => hvalid c (hpart c hc)
  -- at most three characters are read before the automaton is in the middle of the component
  cases hsplit1 : dir with
  | nil => exact absurd hsplit1 hdir.ne_nil
  | cons c1 part1 =>
    have hmem1 : c1 ∈ dir := by simp [hsplit1]
    rw [List.cons_append, isNormalizedLoop_cons (hrefused state c1 hmem1)
      (PathState.process_afterSeparator hstate (hsep c1 hmem1))]
    by_cases hdot1 : c1 = dot
    · rw [if_pos hdot1]
      cases hsplit2 : part1 with
      | nil => exact absurd (by rw [hsplit1, hsplit2, hdot1]; rfl) hdir.ne_current
      | cons c2 part2 =>
        have hmem2 : c2 ∈ dir := by simp [hsplit1, hsplit2]
        rw [List.cons_append, isNormalizedLoop_cons (hrefused .currentDir c2 hmem2)
          (PathState.process_currentDir (hsep c2 hmem2))]
        by_cases hdot2 : c2 = dot
        · rw [if_pos hdot2]
          cases hsplit3 : part2 with
          | nil =>
            exact absurd (by rw [hsplit1, hsplit2, hsplit3, hdot1, hdot2]; rfl) hdir.ne_parent
          | cons c3 part3 =>
            have hmem3 : c3 ∈ dir := by simp [hsplit1, hsplit2, hsplit3]
            rw [List.cons_append, isNormalizedLoop_cons (hrefused .parentDir c3 hmem3)
              (PathState.process_parentDir (hsep c3 hmem3))]
            exact hrest part3 (fun c hc => by simp [hsplit1, hsplit2, hsplit3, hc])
        · rw [if_neg hdot2]; exact hrest part2 (fun c hc => by simp [hsplit1, hsplit2, hc])
    · rw [if_neg hdot1]; exact hrest part1 (fun c hc => by simp [hsplit1, hc])

theorem PathState.exists_process (hstate : state ≠ .start) (hc : c ≠ directorySeparator) :
    ∃ state', state.process c = .ok (some state') ∧ state' ≠ .start := by
  cases state with
  | start => exact absurd rfl hstate
  | normal => exact ⟨_, process_normal hc, by simp⟩
  | firstSeparator => exact ⟨_, process_afterSeparator (Or.inl rfl) hc, by split <;> simp⟩
  | separator => exact ⟨_, process_afterSeparator (Or.inr rfl) hc, by split <;> simp⟩
  | currentDir => exact ⟨_, process_currentDir hc, by split <;> simp⟩
  | parentDir => exact ⟨_, process_parentDir hc, by simp⟩

theorem isNormalizedLoop_refused {dir : Path} (hdir : directorySeparator ∉ dir)
    (hallowed : ¬ Allowed allowAllCharacters dir) (tail : Path) :
    ∀ state : PathState, state ≠ .start →
      isNormalizedLoop allowAllCharacters state (dir ++ tail) = .error .invalidCharacter := by
  obtain ⟨hall, hany⟩ := not_allowed_iff.mp hallowed
  clear hallowed
  induction dir with
  | nil => exact absurd hany (by simp)
  | cons c dir ih =>
    intro state hstate
    have hne : c ≠ directorySeparator := fun h => hdir (by simp [h])
    have hdir' : directorySeparator ∉ dir := fun h => hdir (List.mem_cons_of_mem c h)
    rw [List.cons_append]
    by_cases hinvalid : isInvalidCharacter c
    · rw [isNormalizedLoop, if_pos ⟨hall, hstate, hinvalid⟩]
    · obtain ⟨state', hstep, hstate'⟩ := PathState.exists_process hstate hne
      rw [isNormalizedLoop_cons (fun h => hinvalid h.2.2) hstep]
      apply ih hdir' _ state' hstate'
      rw [List.any_cons] at hany; simpa [hinvalid] using hany

theorem isNormalizedLoop_rendered (hstack : ∀ c ∈ stack, Proper c ∧ Allowed allowAllCharacters c) :
    isNormalizedLoop allowAllCharacters .normal (rendered stack) = .ok (some .normal) := by
  induction stack with
  | nil => rfl
  | cons c stack ih =>
    obtain ⟨hproper, hallowed⟩ := hstack c (by simp)
    rw [rendered_cons, isNormalizedLoop_cons separator_not_refused rfl,
      isNormalizedLoop_proper (Or.inr rfl) hproper hallowed]
    exact ih fun c' hc' => hstack c' (List.mem_cons_of_mem c hc')

/-- The path `/` followed by the components of the stack, joined by single separators. -/
def joined (stack : List Path) : Path :=
  directorySeparator :: [directorySeparator].intercalate stack

theorem joined_eq (stack : List Path) :
    joined stack = if stack = [] then [directorySeparator] else rendered stack := by
  induction stack with
  | nil => rfl
  | cons c stack ih =>
    rw [if_neg (List.cons_ne_nil c stack)]
    cases stack with
    | nil => simp [joined]
    | cons c' stack =>
      rw [if_neg (List.cons_ne_nil c' stack)] at ih
      unfold joined at ih ⊢
      rw [List.intercalate_cons_cons]
      have rendered_cons : rendered (c :: c' :: stack) =
          directorySeparator :: (c ++ rendered (c' :: stack)) := by simp [rendered]
      rw [rendered_cons, ← ih]; simp

theorem isNormalized_joined (hstack : ∀ c ∈ stack, Proper c ∧ Allowed allowAllCharacters c) :
    isNormalized (joined stack) allowAllCharacters = .ok (true, some (joined stack).length) := by
  rw [joined_eq]
  cases stack with
  | nil => cases allowAllCharacters <;> rfl
  | cons c stack =>
    obtain ⟨hproper, hallowed⟩ := hstack c (by simp)
    rw [if_neg (List.cons_ne_nil c stack)]
    have hrun : isNormalizedLoop allowAllCharacters .start (rendered (c :: stack)) =
        .ok (some .normal) := by
      rw [rendered_cons, isNormalizedLoop_cons separator_not_refused rfl,
        isNormalizedLoop_proper (Or.inl rfl) hproper hallowed]
      exact isNormalizedLoop_rendered fun c' hc' => hstack c' (List.mem_cons_of_mem c hc')
    unfold isNormalized
    rw [hrun]

/-- The states in which the acceptor says yes. -/
def Accepting (run : Except PathFailure (Option PathState)) : Prop :=
  run = .ok (some .normal) ∨ run = .ok (some .firstSeparator)

theorem accepting_of_isNormalized {path : Path} {len : Option Nat}
    (h : isNormalized path allowAllCharacters = .ok (true, len)) :
    Accepting (isNormalizedLoop allowAllCharacters .start path) := by
  unfold isNormalized at h
  unfold Accepting
  cases hrun : isNormalizedLoop allowAllCharacters .start path with
  | error e => rw [hrun] at h; exact absurd h (by simp)
  | ok result =>
    rw [hrun] at h
    cases result with
    | none => exact absurd h (by simp)
    | some state =>
      cases state with
      | normal => exact Or.inl rfl
      | firstSeparator => exact Or.inr rfl
      | start | separator | currentDir | parentDir => exact absurd h (by simp)

theorem exists_rendered (path : Path) :
    ∃ c stack, path = c ++ rendered stack ∧ directorySeparator ∉ c ∧
      ∀ c' ∈ stack, directorySeparator ∉ c' := by
  induction path with
  | nil => exact ⟨[], [], rfl, by simp, by simp⟩
  | cons x path ih =>
    obtain ⟨c, stack, hpath, hc, hstack⟩ := ih
    by_cases hx : x = directorySeparator
    · refine ⟨[], c :: stack, ?_, by simp, ?_⟩
      · rw [hx, hpath]
        simp [rendered]
      · intro c' hc'
        rcases List.mem_cons.mp hc' with rfl | hc'
        · exact hc
        · exact hstack c' hc'
    · refine ⟨x :: c, stack, by rw [hpath, List.cons_append], ?_, hstack⟩
      intro hmem
      rcases List.mem_cons.mp hmem with h | h
      · exact hx h.symm
      · exact hc h

theorem not_accepting_rendered (hend : state ≠ .normal ∧ state ≠ .firstSeparator)
    (hstep : state.process directorySeparator = .ok none) (stack : List Path) :
    ¬ Accepting (isNormalizedLoop allowAllCharacters state (rendered stack)) := by
  cases stack with
  | nil =>
    rintro (h | h)
    · exact hend.1 (Option.some.inj (Except.ok.inj h))
    · exact hend.2 (Option.some.inj (Except.ok.inj h))
  | cons c stack =>
    have hrun : isNormalizedLoop allowAllCharacters state (rendered (c :: stack)) = .ok none := by
      rw [rendered_cons, isNormalizedLoop, if_neg separator_not_refused, hstep]
    rw [hrun]
    rintro (h | h)
    · exact absurd h (by simp)
    · exact absurd h (by simp)

/-- **What is accepted behind a separator** is a proper component, or the end of the path `/`. -/
theorem proper_of_accepting (hstate : state.AfterSeparator) {c : Path} (hc : directorySeparator ∉ c)
    (h : Accepting (isNormalizedLoop allowAllCharacters state (c ++ rendered stack))) :
    (state = .firstSeparator ∧ c = [] ∧ stack = []) ∨
      (Proper c ∧ Allowed allowAllCharacters c ∧
        Accepting (isNormalizedLoop allowAllCharacters .normal (rendered stack))) := by
  have hstart : state ≠ .start := by rcases hstate with rfl | rfl <;> simp
  have hdotsep : dot ≠ directorySeparator := by decide
  by_cases hallowed : Allowed allowAllCharacters c
  swap
  · rw [isNormalizedLoop_refused hc hallowed _ state hstart] at h
    exact absurd h (by simp [Accepting])
  by_cases hnil : c = []
  · rw [hnil, List.nil_append] at h
    cases stack with
    | nil =>
      rcases hstate with rfl | rfl
      · exact Or.inl ⟨rfl, hnil, rfl⟩
      · exact absurd h (not_accepting_rendered (by simp) rfl [])
    | cons c' stack =>
      have hrun : isNormalizedLoop allowAllCharacters state (rendered (c' :: stack)) =
          .ok none := by
        have rendered_cons : rendered (c' :: stack) =
            directorySeparator :: (c' ++ rendered stack) := by simp [rendered]
        rw [rendered_cons, isNormalizedLoop, if_neg separator_not_refused]
        rcases hstate with rfl | rfl <;> rfl
      rw [hrun] at h; exact absurd h (by simp [Accepting])
  by_cases hcur : c = currentComponent
  · rw [hcur] at h hallowed
    unfold currentComponent at h hallowed
    rw [List.singleton_append, isNormalizedLoop_cons (not_refused hallowed (by simp))
      (PathState.process_afterSeparator hstate hdotsep)] at h
    exact absurd h (not_accepting_rendered (by simp) rfl stack)
  by_cases hparent : c = parentComponent
  · rw [hparent] at h hallowed
    unfold parentComponent at h hallowed
    rw [List.cons_append, isNormalizedLoop_cons (not_refused hallowed (by simp))
      (PathState.process_afterSeparator hstate hdotsep), if_pos rfl, List.singleton_append,
      isNormalizedLoop_cons (not_refused hallowed (by simp))
        (PathState.process_currentDir hdotsep)] at h
    exact absurd h (not_accepting_rendered (by simp) rfl stack)
  have hproper : Proper c := ⟨hnil, hc, hcur, hparent⟩
  rw [isNormalizedLoop_proper hstate hproper hallowed] at h
  exact Or.inr ⟨hproper, hallowed, h⟩

theorem all_proper_of_accepting (hstack : ∀ c ∈ stack, directorySeparator ∉ c)
    (h : Accepting (isNormalizedLoop allowAllCharacters .normal (rendered stack))) :
    ∀ c ∈ stack, Proper c ∧ Allowed allowAllCharacters c := by
  induction stack with
  | nil => exact fun c hc => absurd hc (by simp)
  | cons c stack ih =>
    rw [rendered_cons, isNormalizedLoop_cons separator_not_refused rfl] at h
    rcases proper_of_accepting (Or.inr rfl) (hstack c (by simp)) h with ⟨hstate, -⟩ | ⟨hp, ha, hrun⟩
    · exact absurd hstate (by simp)
    · intro c' hc'
      rcases List.mem_cons.mp hc' with rfl | hc'
      · exact ⟨hp, ha⟩
      · exact ih (fun c hc => hstack c (List.mem_cons_of_mem _ hc)) hrun c' hc'

theorem exists_joined_of_isNormalized {path : Path} {len : Option Nat}
    (h : isNormalized path allowAllCharacters = .ok (true, len)) :
    ∃ stack, path = joined stack ∧ ∀ c ∈ stack, Proper c ∧ Allowed allowAllCharacters c := by
  have hrun := accepting_of_isNormalized h
  obtain ⟨c0, stack, hpath, hc0, hstack⟩ := exists_rendered path
  cases c0 with
  | cons x c0 =>
    have hx : x ≠ directorySeparator := fun hx => hc0 (by simp [hx])
    rw [hpath, List.cons_append, isNormalizedLoop, if_neg (by simp)] at hrun
    simp [PathState.process, hx, Accepting] at hrun
  | nil =>
    rw [List.nil_append] at hpath
    cases stack with
    | nil =>
      rw [hpath] at hrun; exact absurd hrun (by simp [Accepting, isNormalizedLoop])
    | cons c stack =>
      rw [hpath, rendered_cons, isNormalizedLoop_cons separator_not_refused rfl] at hrun
      rcases proper_of_accepting (Or.inl rfl) (hstack c (by simp)) hrun with
        ⟨-, hnil, hend⟩ | ⟨hp, ha, hrest⟩
      · refine ⟨[], ?_, by simp⟩
        rw [hpath, rendered_cons, hnil, hend]
        rfl
      · refine ⟨c :: stack, ?_, ?_⟩
        · rw [joined_eq, if_neg (List.cons_ne_nil c stack), hpath]
        · intro c' hc'
          rcases List.mem_cons.mp hc' with rfl | hc'
          · exact ⟨hp, ha⟩
          · exact all_proper_of_accepting (fun c hc => hstack c (List.mem_cons_of_mem _ hc)) hrest
              c' hc'

end Acceptor

end Suyu.FileSys
