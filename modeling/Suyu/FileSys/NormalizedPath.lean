import Mathlib
import Suyu.FileSys.PathAcceptor

/-
  `PathNormalizer::Normalize` as a whole: no path leaves the root, and every result is accepted.

  1. **Specification** - `pathComponents` is the list of components of a path, with a backslash-
     delimited `..` turned where the path begins with a separator; `cancelled` drops every `..` with
     the component before it; `Escapes` is a prefix with more `..` than other components.

  2. **The crux (`resolve_unobtainable_iff`, `resolve_cases`)** - the stack runs empty exactly at such
     a prefix, and otherwise it is the cancelled list.

  4. **When it goes wrong** - a drive-relative path that begins with a backslash gets its separator
     twice when it is replaced, and the buffer of the replacement has room for `entryNameLengthMax`
     characters.
-/

namespace Suyu.FileSys

open StringTraits

/-! ## The whole call -/

variable (o : NormalizeOptions)

theorem finishNormalize_eq {stack : List Path} (skip : Bool) (hstack : Stacked o stack)
    (hroom : (rendered stack).length < o.maxOutSize) :
    finishNormalize o (rendered stack ++ pending skip) skip = .ok (joined stack) := by
  have htrimmed : (if skip then (rendered stack ++ pending skip).dropLast
      else rendered stack ++ pending skip) = rendered stack := by
    cases skip <;> simp [pending]
  have hempty : rendered stack = [] ↔ stack = [] := by
    cases stack with
    | nil => simp
    | cons c stack => simp [rendered]
  have hout : (if rendered stack = [] ∧ o.maxOutSize ≠ 0 then [directorySeparator]
      else rendered stack) = joined stack := by
    rw [joined_eq]
    by_cases hnil : stack = []
    · rw [if_pos ⟨hempty.mpr hnil, by omega⟩, if_pos hnil]
    · rw [if_neg (fun h => hnil (hempty.mp h.1)), if_neg hnil]
  have hlength : (joined stack).length - 1 ≤ o.maxOutSize := by
    rw [joined_eq]
    split
    · exact Nat.zero_le _
    · omega
  unfold finishNormalize
  simp only [htrimmed, hout]
  rw [if_neg, isNormalized_joined hstack]
  rintro (h | h)
  · exact absurd h (by simp [joined])
  · omega

/-- What a call gives when the stack of the abstract model ends so. -/
def outcomeOf : Except PathFailure (List Path) → Except PathFailure Path
  | .error e => .error e
  | .ok stack => .ok (joined stack)

theorem normalizeFrom_of_loopResult {cur dst : Path} {abstract : Except PathFailure (List Path)}
    (h : LoopResult o (normalizeLoop o cur.length cur dst false) abstract) :
    normalizeFrom o cur dst = outcomeOf abstract := by
  unfold normalizeFrom
  cases abstract with
  | error e =>
    have hloop : normalizeLoop o cur.length cur dst false = .error e := h
    rw [hloop]; rfl
  | ok stack =>
    obtain ⟨hstack, hroom, skip, hloop⟩ := h
    rw [hloop]; exact finishNormalize_eq o skip hstack hroom

theorem stacked_nil : Stacked o [] := fun _ hc => absurd hc (by simp)

theorem normalizeFrom_separator {cur : Path} (hhead : cur.head? = some directorySeparator)
    (hroom : cur.length + 1 ≤ o.maxOutSize) :
    normalizeFrom o cur [] = outcomeOf (resolve o [] (components cur)) := by
  apply normalizeFrom_of_loopResult
  have h := normalizeLoop_eq_resolve o cur.length cur [] false (Or.inr hhead) (Nat.le_refl _)
    (stacked_nil o) (by simpa [pending] using hroom)
  simpa [pending] using h

theorem normalizeFrom_driveRelative {cur : Path} (hhead : cur.head? ≠ some directorySeparator)
    (hroom : cur.length + 2 ≤ o.maxOutSize) :
    normalizeFrom o cur [directorySeparator] = outcomeOf (resolve o [] (components cur)) := by
  by_cases hnil : cur = []
  · have hfinish := finishNormalize_eq o false (stacked_nil o) (by simp; omega)
    have hone : finishNormalize o [directorySeparator] false = finishNormalize o [] false := by
      unfold finishNormalize
      have hpos : o.maxOutSize ≠ 0 := by omega
      simp [hpos]
    rw [hnil, components_nil]
    show finishNormalize o [directorySeparator] false = _
    have hempty : finishNormalize o [] false = .ok (joined []) := by
      simpa [pending] using hfinish
    rw [hone, hempty]
    rfl
  · obtain ⟨dir, rest, hsplit, hne, hdir, hrest⟩ := exists_component hnil hhead
    have hlen : cur.length = dir.length + rest.length := by rw [hsplit, List.length_append]
    have hpos : dir.length ≠ 0 := fun h => hne (List.length_eq_zero_iff.mp h)
    apply normalizeFrom_of_loopResult
    obtain ⟨fuel, hfuel⟩ : ∃ fuel, cur.length = fuel + 1 := ⟨cur.length - 1, by omega⟩
    rw [hfuel]
    unfold normalizeLoop
    rw [if_neg hnil, if_neg hhead, hsplit, dropWhile_component hdir hrest]
    apply loopResult_component o hdir hne hrest (stacked_nil o) (by simp; omega)
      (fun dst' skip' => normalizeLoop o fuel rest dst' skip')
    intro stack' skip' hstack' hroom'
    exact normalizeLoop_eq_resolve o fuel rest stack' skip' hrest (by omega) hstack' hroom'

/-! ## The specification -/

/-- The components of a path; a `..` between backslashes counts where the path begins with `/`. -/
def pathComponents (path : Path) : List Path :=
  components (if path.head? = some directorySeparator then turnParents path else path)

/-- One component of the cancelled list: a `..` takes the component before it away. -/
def cancelParent (stack : List Path) (c : Path) : List Path :=
  if c = parentComponent then stack.dropLast else stack ++ [c]

/-- The components after every `..` is cancelled with the one before it; a leading one is dropped. -/
def cancelled (cs : List Path) : List Path := cs.foldl cancelParent []

/-- The components have more `..` than others. -/
def Leaves (cs : List Path) : Prop :=
  cs.countP (· ≠ parentComponent) < cs.countP (· = parentComponent)

/-- Some prefix, whose characters are not refused, has more `..` than other components. -/
def Escapes (allowAllCharacters : Bool) (cs : List Path) : Prop :=
  ∃ start, start <+: cs ∧ (∀ c ∈ start, Allowed allowAllCharacters c) ∧ Leaves start

/-- **The stack runs empty** exactly when the components of some prefix leave it. -/
theorem resolve_unobtainable_iff (hwindows : o.isWindowsPath = false) :
    ∀ (cs stack : List Path), resolve o stack cs = .error .directoryUnobtainable ↔
      ∃ start, start <+: cs ∧ (∀ c ∈ start, Allowed o.allowAllCharacters c) ∧
        start.countP (· ≠ parentComponent) + stack.length < start.countP (· = parentComponent) := by
  intro cs
  induction cs with
  | nil =>
    intro stack
    constructor
    · intro h
      exact absurd h (by simp [resolve])
    · rintro ⟨start, hprefix, -, hcount⟩
      rw [List.prefix_nil.mp hprefix] at hcount; exact absurd hcount (by simp)
  | cons c cs ih =>
    intro stack
    -- a prefix that leaves the stack is not empty, so it begins with `c`
    have hstart : (∃ start, start <+: c :: cs ∧ (∀ c ∈ start, Allowed o.allowAllCharacters c) ∧
        start.countP (· ≠ parentComponent) + stack.length < start.countP (· = parentComponent)) ↔
        Allowed o.allowAllCharacters c ∧ ∃ start, start <+: cs ∧
          (∀ c ∈ start, Allowed o.allowAllCharacters c) ∧
          (c :: start).countP (· ≠ parentComponent) + stack.length <
            (c :: start).countP (· = parentComponent) := by
      constructor
      · rintro ⟨start, hprefix, hall, hcount⟩
        cases start with
        | nil => exact absurd hcount (by simp)
        | cons c' start =>
          obtain ⟨rfl, hprefix'⟩ := List.cons_prefix_cons.mp hprefix
          exact ⟨hall c' (by simp), start, hprefix',
            fun c hc => hall c (List.mem_cons_of_mem _ hc), hcount⟩
      · rintro ⟨hc, start, hprefix, hall, hcount⟩
        refine ⟨c :: start, List.cons_prefix_cons.mpr ⟨rfl, hprefix⟩, ?_, hcount⟩
        intro c' hc'
        rcases List.mem_cons.mp hc' with rfl | hc'
        · exact hc
        · exact hall c' hc'
    rw [hstart]
    unfold resolve
    by_cases hallowed : Allowed o.allowAllCharacters c
    swap
    · rw [if_pos hallowed]
      constructor
      · intro h
        exact absurd h (by simp)
      · exact fun h => absurd h.1 hallowed
    rw [if_neg (not_not.mpr hallowed)]
    by_cases hparent : c = parentComponent
    · rw [if_pos hparent]
      by_cases hroot : stack = []
      · rw [if_pos ⟨hroot, hwindows⟩]
        refine ⟨fun _ => ⟨hallowed, [], List.nil_prefix, by simp, ?_⟩, fun _ => rfl⟩
        simp [hroot, hparent]
      · rw [if_neg (fun h => hroot h.1), ih]
        have hpos : stack.length ≠ 0 := fun h => hroot (List.length_eq_zero_iff.mp h)
        refine ⟨fun h => ⟨hallowed, ?_⟩, fun h => ?_⟩
        · obtain ⟨start, hprefix, hall, hcount⟩ := h
          refine ⟨start, hprefix, hall, ?_⟩
          rw [List.length_dropLast] at hcount
          rw [List.countP_cons_of_neg (by simpa using hparent),
            List.countP_cons_of_pos (by simpa using hparent)]
          omega
        · obtain ⟨-, start, hprefix, hall, hcount⟩ := h
          refine ⟨start, hprefix, hall, ?_⟩
          rw [List.countP_cons_of_neg (by simpa using hparent),
            List.countP_cons_of_pos (by simpa using hparent)] at hcount
          rw [List.length_dropLast]; omega
    · rw [if_neg hparent, ih]
      refine ⟨fun h => ⟨hallowed, ?_⟩, fun h => ?_⟩
      · obtain ⟨start, hprefix, hall, hcount⟩ := h
        refine ⟨start, hprefix, hall, ?_⟩
        rw [List.length_append, List.length_singleton] at hcount
        rw [List.countP_cons_of_pos (by simpa using hparent),
          List.countP_cons_of_neg (by simpa using hparent)]
        omega
      · obtain ⟨-, start, hprefix, hall, hcount⟩ := h
        refine ⟨start, hprefix, hall, ?_⟩
        rw [List.countP_cons_of_pos (by simpa using hparent),
          List.countP_cons_of_neg (by simpa using hparent)] at hcount
        rw [List.length_append, List.length_singleton]; omega

theorem resolve_windows (hwindows : o.isWindowsPath = true) :
    ∀ cs stack : List Path, resolve o stack cs ≠ .error .directoryUnobtainable := by
  intro cs
  induction cs with
  | nil => exact fun stack => by simp [resolve]
  | cons c cs ih =>
    intro stack
    unfold resolve
    split
    · simp
    · split
      · rw [if_neg (fun h => absurd h.2 (by simp [hwindows]))]
        exact ih _
      · exact ih _

/-- **The three ends of the stack**: the cancelled list, the root, or a refused character. -/
theorem resolve_cases : ∀ cs stack : List Path,
    (resolve o stack cs = .ok (cs.foldl cancelParent stack) ∧
      ∀ c ∈ cs, Allowed o.allowAllCharacters c) ∨
    resolve o stack cs = .error .directoryUnobtainable ∨
    (resolve o stack cs = .error .invalidCharacter ∧
      ¬ ∀ c ∈ cs, Allowed o.allowAllCharacters c) := by
  intro cs
  induction cs with
  | nil => exact fun stack => Or.inl ⟨rfl, by simp⟩
  | cons c cs ih =>
    intro stack
    unfold resolve
    by_cases hallowed : Allowed o.allowAllCharacters c
    swap
    · rw [if_pos hallowed]; exact Or.inr (Or.inr ⟨rfl, fun h => hallowed (h c (by simp))⟩)
    rw [if_neg (not_not.mpr hallowed), List.foldl_cons]
    by_cases hroot : c = parentComponent ∧ stack = [] ∧ o.isWindowsPath = false
    · rw [if_pos hroot.1, if_pos hroot.2]; exact Or.inr (Or.inl rfl)
    have hstep : (if c = parentComponent then
          if stack = [] ∧ o.isWindowsPath = false then .error .directoryUnobtainable
          else resolve o stack.dropLast cs
        else resolve o (stack ++ [c]) cs) = resolve o (cancelParent stack c) cs := by
      unfold cancelParent
      by_cases hparent : c = parentComponent
      · rw [if_pos hparent, if_pos hparent, if_neg (fun h => hroot ⟨hparent, h⟩)]
      · rw [if_neg hparent, if_neg hparent]
    rw [hstep]
    rcases ih (cancelParent stack c) with ⟨hok, hall⟩ | hroot' | ⟨hinvalid, hrefused⟩
    · refine Or.inl ⟨hok, ?_⟩
      intro c' hc'
      rcases List.mem_cons.mp hc' with rfl | hc'
      · exact hallowed
      · exact hall c' hc'
    · exact Or.inr (Or.inl hroot')
    · exact Or.inr (Or.inr ⟨hinvalid, fun h => hrefused fun c hc => h c (List.mem_cons_of_mem _ hc)⟩)

/-! ## The result -/

/-- The call is one that the code is made for: the path begins with `/` and its replacement fits the
    buffer, or it is drive-relative and nothing is replaced in it. -/
def Covered (path : Path) (o : NormalizeOptions) : Prop :=
  (path.head? = some directorySeparator ∧
    (isParentDirectoryPathReplacementNeeded path = true → path.length ≤ entryNameLengthMax)) ∨
  (path.head? ≠ some directorySeparator ∧ o.isDriveRelativePath = true ∧
    isParentDirectoryPathReplacementNeeded path = false)

theorem normalize_eq_resolve {path : Path} {o : NormalizeOptions} (hcovered : Covered path o)
    (hroom : path.length + 2 ≤ o.maxOutSize) :
    normalize path o = outcomeOf (resolve o [] (pathComponents path)) := by
  unfold normalize pathComponents
  rcases hcovered with ⟨hhead, hbuffer⟩ | ⟨hhead, hdrive, hneeded⟩
  · have hhead0 : path[0]? = some directorySeparator := by rw [← List.head?_eq_getElem?, hhead]
    rw [if_neg (fun h => h.1 hhead)]
    simp only [if_pos hhead]
    have hlength := turnParents_length path
    by_cases hneeded : isParentDirectoryPathReplacementNeeded path = true
    · rw [if_pos hneeded, if_neg (Nat.not_lt.mpr (hbuffer hneeded)),
        replaceParentDirectoryPath_eq hhead0]
      apply normalizeFrom_separator o _ (by omega)
      rw [List.head?_eq_getElem?]
      cases hparent : parentAt path 0 with
      | true => exact turnParents_getElem?_before hparent
      | false => rw [turnParents_getElem?_away hparent (fun h => absurd h (by omega)), hhead0]
    · rw [if_neg hneeded, turnParents_eq_self hhead0 (by simpa using hneeded)]
      exact normalizeFrom_separator o hhead (by omega)
  · rw [if_neg (fun h => h.2 hdrive)]
    simp only [if_neg hhead, hneeded]; exact normalizeFrom_driveRelative o hhead hroom

theorem components_joined {stack : List Path} (hstack : ∀ c ∈ stack, Proper c) :
    components (joined stack) = stack := by
  rw [joined_eq]
  cases stack with
  | nil => decide
  | cons c stack =>
    rw [if_neg (List.cons_ne_nil c stack)]
    generalize c :: stack = stack' at hstack
    clear c stack
    induction stack' with
    | nil => exact components_nil
    | cons c stack ih =>
      have hproper := hstack c (by simp)
      have hend : AtEnd (rendered stack) := by
        cases stack with
        | nil => exact Or.inl rfl
        | cons c' stack => exact Or.inr (by simp [rendered])
      rw [rendered_cons, components_separator, components_append hproper.not_sep hend,
        if_neg (not_or.mpr ⟨hproper.ne_nil, hproper.ne_current⟩),
        ih fun c hc => hstack c (List.mem_cons_of_mem _ hc)]
      rfl

theorem resolve_proper : ∀ cs stack : List Path,
    (∀ c ∈ cs, Proper c ∧ Allowed o.allowAllCharacters c) →
      resolve o stack cs = .ok (stack ++ cs) := by
  intro cs
  induction cs with
  | nil => exact fun stack _ => by rw [List.append_nil]; rfl
  | cons c cs ih =>
    intro stack hcs
    obtain ⟨hproper, hallowed⟩ := hcs c (by simp)
    unfold resolve
    rw [if_neg (not_not.mpr hallowed), if_neg hproper.ne_parent,
      ih _ fun c hc => hcs c (List.mem_cons_of_mem _ hc), List.append_assoc]
    rfl

theorem stacked_of_resolve : ∀ (cs stack final : List Path),
    (∀ c ∈ cs, c ≠ [] ∧ directorySeparator ∉ c ∧ c ≠ currentComponent) → Stacked o stack →
      resolve o stack cs = .ok final → Stacked o final := by
  intro cs
  induction cs with
  | nil =>
    intro stack final _ hstack h
    rw [← Except.ok.inj h]; exact hstack
  | cons c cs ih =>
    intro stack final hcs hstack h
    have hcs' := fun c' hc' => hcs c' (List.mem_cons_of_mem c hc')
    unfold resolve at h
    by_cases hallowed : Allowed o.allowAllCharacters c
    swap
    · rw [if_pos hallowed] at h; exact absurd h (by simp)
    rw [if_neg (not_not.mpr hallowed)] at h
    by_cases hparent : c = parentComponent
    · rw [if_pos hparent] at h
      split at h
      · exact absurd h (by simp)
      · exact ih _ _ hcs' (fun c hc => hstack c (List.mem_of_mem_dropLast hc)) h
    · rw [if_neg hparent] at h
      apply ih _ _ hcs' _ h
      intro c' hc'
      rcases List.mem_append.mp hc' with hc' | hc'
      · exact hstack c' hc'
      · rw [List.mem_singleton.mp hc']
        obtain ⟨hne, hsep, hcur⟩ := hcs c (by simp)
        exact ⟨⟨hne, hsep, hcur, hparent⟩, hallowed⟩

theorem of_mem_components {path c : Path} (hc : c ∈ components path) :
    c ≠ [] ∧ directorySeparator ∉ c ∧ c ≠ currentComponent := by
  have hkept : c ≠ [] ∧ c ≠ currentComponent := by
    simpa using (List.mem_filter.mp hc).2
  refine ⟨hkept.1, ?_, hkept.2⟩
  obtain ⟨c0, stack, hpath, hc0, hstack⟩ := exists_rendered path
  -- the components are among the parts of the path between its separators
  suffices h : ∀ (stack : List Path) (c0 : Path), directorySeparator ∉ c0 →
      (∀ c' ∈ stack, directorySeparator ∉ c') → c ∈ components (c0 ++ rendered stack) →
        directorySeparator ∉ c from h stack c0 hc0 hstack (hpath ▸ hc)
  clear hc hpath hc0 hstack c0 stack
  intro stack
  induction stack with
  | nil =>
    intro c0 hc0 _ hc
    rw [rendered_nil, components_append hc0 (Or.inl rfl), components_nil, List.append_nil] at hc
    split at hc
    · exact absurd hc (by simp)
    · rw [List.mem_singleton.mp hc]; exact hc0
  | cons c1 stack ih =>
    intro c0 hc0 hstack hc
    have rendered_cons : rendered (c1 :: stack) = directorySeparator :: (c1 ++ rendered stack) := by
      simp [rendered]
    rw [rendered_cons, components_append hc0 (Or.inr rfl), components_separator] at hc
    rcases List.mem_append.mp hc with hc | hc
    · split at hc
      · exact absurd hc (by simp)
      · rw [List.mem_singleton.mp hc]; exact hc0
    · exact ih c1 (hstack c1 (by simp)) (fun c' hc' => hstack c' (List.mem_cons_of_mem _ hc')) hc

theorem isNormalized_of_normalize {path out : Path} {o : NormalizeOptions}
    (hcovered : Covered path o) (hroom : path.length + 2 ≤ o.maxOutSize)
    (h : normalize path o = .ok out) :
    isNormalized out o.allowAllCharacters = .ok (true, some out.length) := by
  rw [normalize_eq_resolve hcovered hroom] at h
  cases hstack : resolve o [] (pathComponents path) with
  | error e => rw [hstack] at h; exact absurd h (by simp [outcomeOf])
  | ok stack =>
    rw [hstack] at h
    have hout : joined stack = out := Except.ok.inj h
    rw [← hout]
    exact isNormalized_joined (stacked_of_resolve o _ _ _ (fun _ hc => of_mem_components hc)
      (stacked_nil o) hstack)

theorem normalize_of_isNormalized {path : Path} {o : NormalizeOptions} {len : Option Nat}
    (hroom : path.length + 2 ≤ o.maxOutSize)
    (hneeded : isParentDirectoryPathReplacementNeeded path = false)
    (h : isNormalized path o.allowAllCharacters = .ok (true, len)) :
    normalize path o = .ok path := by
  obtain ⟨stack, hpath, hstack⟩ := exists_joined_of_isNormalized h
  have hhead : path.head? = some directorySeparator := by rw [hpath]; rfl
  have hhead0 : path[0]? = some directorySeparator := by rw [← List.head?_eq_getElem?, hhead]
  have hcovered : Covered path o :=
    Or.inl ⟨hhead, fun h => absurd h (by simp [hneeded])⟩
  have hcomponents : pathComponents path = stack := by
    unfold pathComponents
    rw [if_pos hhead, turnParents_eq_self hhead0 hneeded, hpath]
    exact components_joined fun c hc => (hstack c hc).1
  rw [normalize_eq_resolve hcovered hroom, hcomponents, resolve_proper o stack [] hstack,
    List.nil_append]
  show Except.ok (joined stack) = _
  rw [← hpath]

/-- **Normalization resolves a path and does not leave the root.**  A path without a separator at its
    front must be drive-relative.  On a covered call the components decide: a prefix of allowed
    components with more `..` than others is unobtainable outside Windows; otherwise the cancelled
    components are written, unless a character is refused; every result is accepted; and where
    nothing is replaced exactly the accepted paths are returned as they are. -/
theorem normalize_resolves (path : Path) (o : NormalizeOptions)
    (hroom : path.length + 2 ≤ o.maxOutSize) :
    (path.head? ≠ some directorySeparator → o.isDriveRelativePath = false →
      normalize path o = .error .invalidPathFormat) ∧
    (Covered path o →
      let cs := pathComponents path
      let escapes := o.isWindowsPath = false ∧ Escapes o.allowAllCharacters cs
      (normalize path o = .error .directoryUnobtainable ↔ escapes) ∧
      (¬ escapes → (∀ c ∈ cs, Allowed o.allowAllCharacters c) →
        normalize path o = .ok (joined (cancelled cs))) ∧
      (¬ escapes → (¬ ∀ c ∈ cs, Allowed o.allowAllCharacters c) →
        normalize path o = .error .invalidCharacter) ∧
      (∀ out, normalize path o = .ok out →
        isNormalized out o.allowAllCharacters = .ok (true, some out.length)) ∧
      (isParentDirectoryPathReplacementNeeded path = false →
        (isNormalized path o.allowAllCharacters = .ok (true, some path.length) ↔
          normalize path o = .ok path))) := by
  refine ⟨fun hhead hdrive => ?_, fun hcovered => ?_⟩
  · unfold normalize
    rw [if_pos ⟨hhead, by simp [hdrive]⟩]
  intro cs escapes
  have hnormalize := normalize_eq_resolve hcovered hroom
  have hroot : resolve o [] cs = .error .directoryUnobtainable ↔ escapes := by
    by_cases hwindows : o.isWindowsPath = false
    · rw [resolve_unobtainable_iff o hwindows]
      refine ⟨fun h => ⟨hwindows, ?_⟩, fun h => ?_⟩
      · simpa [Escapes, Leaves] using h
      · simpa [Escapes, Leaves] using h.2
    · constructor
      · exact fun h => absurd h (resolve_windows o (by simpa using hwindows) cs [])
      · exact fun h => absurd h.1 hwindows
  have hiff : normalize path o = .error .directoryUnobtainable ↔ escapes := by
    rw [hnormalize, ← hroot]
    show outcomeOf (resolve o [] cs) = _ ↔ _
    cases resolve o [] cs <;> simp [outcomeOf]
  refine ⟨hiff, fun hescapes hall => ?_, fun hescapes hrefused => ?_,
    fun out => isNormalized_of_normalize hcovered hroom, fun hneeded => ⟨?_, ?_⟩⟩
  · rcases resolve_cases o cs [] with ⟨hok, -⟩ | hunobtainable | ⟨-, hrefused⟩
    · rw [hnormalize]
      show outcomeOf (resolve o [] cs) = _
      rw [hok]
      rfl
    · exact absurd (hroot.mp hunobtainable) hescapes
    · exact absurd hall hrefused
  · rcases resolve_cases o cs [] with ⟨-, hall⟩ | hunobtainable | ⟨hinvalid, -⟩
    · exact absurd hall hrefused
    · exact absurd (hroot.mp hunobtainable) hescapes
    · rw [hnormalize]
      show outcomeOf (resolve o [] cs) = _
      rw [hinvalid]; rfl
  · exact normalize_of_isNormalized hroom hneeded
  · exact isNormalized_of_normalize hcovered hroom

theorem normalize_resolves_dotdot :
    normalize ['/', 'a', '/', '.', '/', '.', '.', '/', '/', 'b'] ⟨16, true, false, true⟩ =
      .ok ['/', 'b'] := by
  have h := (normalize_resolves ['/', 'a', '/', '.', '/', '.', '.', '/', '/', 'b']
    ⟨16, true, false, true⟩ (by decide)).2 (Or.inl ⟨rfl, by decide⟩)
  exact h.2.1 (fun hescapes => absurd hescapes.1 (by decide)) (fun _ _ => Or.inl rfl)

/-! ## When it goes wrong -/

/-- **Resolution of every path**, without the conditions of `Covered`. -/
structure ResolvesFreely (path : Path) (o : NormalizeOptions) : Prop where
  unobtainable_iff : normalize path o = .error .directoryUnobtainable ↔
    o.isWindowsPath = false ∧ ∃ start, start <+: components (turnParents path) ∧ Leaves start
  succeeds : ¬ (o.isWindowsPath = false ∧
      ∃ start, start <+: components (turnParents path) ∧ Leaves start) →
    o.allowAllCharacters = true →
      normalize path o = .ok (joined (cancelled (components (turnParents path))))
  accepted : ∀ out, normalize path o = .ok out →
    isNormalized out o.allowAllCharacters = .ok (true, some out.length)
  fixed_iff : isNormalized path o.allowAllCharacters = .ok (true, some path.length) ↔
    normalize path o = .ok path

/-- A path without its separator is refused; a refused character comes before the `..` that leave the
    root; and the acceptor does not look at backslashes. -/
theorem not_resolvesFreely :
    ¬ ResolvesFreely ['a'] ⟨16, true, false, true⟩ ∧
    ¬ ResolvesFreely ['/', ':', '/', '.', '.', '/', '.', '.'] ⟨16, false, false, false⟩ ∧
    ¬ ResolvesFreely ['/', 'a', alternateDirectorySeparator, '.', '.', alternateDirectorySeparator,
      'b'] ⟨16, false, false, true⟩ := by
  refine ⟨fun h => ?_, fun h => ?_, fun h => ?_⟩
  · have hrefused : normalize ['a'] ⟨16, true, false, true⟩ = .error .invalidPathFormat := rfl
    have hok := h.succeeds (fun hroot => absurd hroot.1 (by decide)) rfl
    rw [hrefused] at hok
    exact absurd hok (by simp)
  · have hinvalid : normalize ['/', ':', '/', '.', '.', '/', '.', '.'] ⟨16, false, false, false⟩ =
        .error .invalidCharacter := rfl
    have hroot := h.unobtainable_iff.mpr ⟨rfl, _, List.prefix_rfl, by unfold Leaves; decide +kernel⟩
    rw [hinvalid] at hroot
    exact absurd hroot (by simp)
  · have hreplaced : normalize ['/', 'a', alternateDirectorySeparator, '.', '.',
        alternateDirectorySeparator, 'b'] ⟨16, false, false, true⟩ = .ok ['/', 'b'] := rfl
    have hfixed := h.fixed_iff.mp rfl
    rw [hreplaced] at hfixed; exact absurd (Except.ok.inj hfixed) (by decide)

-- a drive-relative path that begins with a backslash and is replaced gets two separators
example : normalize [alternateDirectorySeparator, 'a', alternateDirectorySeparator, '.', '.',
    alternateDirectorySeparator, 'b'] ⟨16, false, true, true⟩ = .ok ['/', '/', 'b'] := by
  decide +kernel

end Suyu.FileSys
