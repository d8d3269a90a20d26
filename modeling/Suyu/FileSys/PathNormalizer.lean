import Mathlib
import Suyu.FileSys.ParentReplacement

/-
  `PathNormalizer`: a path is written again without `.`, `..` and repeated separators, and an
  acceptor says whether a path is already of that form.

  1. **Program** - `normalize` edits its output in place: a separator and a component are appended, a
     `..` scans BACK to the separator before the last component, and after a `.` the separator
     already written is used for the next component.  `isNormalized` is an automaton of six states.

  2. **Abstract model (`resolve`)** - the components of the path move a stack: a component is pushed,
     a `..` pops one.  Outside Windows a pop of the empty stack is the error.

  3. **The crux (`normalizeLoop_eq_resolve`)** - between two components the output is `rendered` of
     the stack, with one more separator exactly when the next one is to be skipped.
-/

namespace Suyu.FileSys

open StringTraits

/-! ## Characters -/

namespace StringTraits

def invalidCharacters : List Char := [':', '*', '?', '<', '>', '|']

/-- One of the four words of the character set. -/
def makeInvalidCharacterMask (n : Nat) : BitVec 64 :=
  invalidCharacters.foldl
    (fun mask c => if c.toNat >>> 6 = n then mask ||| (1#64 <<< (c.toNat &&& 0x3F)) else mask) 0

def isInvalidCharacter (c : Char) : Bool :=
  makeInvalidCharacterMask (c.toNat >>> 6) &&& (1#64 <<< (c.toNat &&& 0x3F)) != 0

theorem isInvalidCharacter_separator : isInvalidCharacter directorySeparator = false := by decide

end StringTraits

def isCurrentDirectory (path : Path) : Bool :=
  path[0]? == some dot && (path[1]? == none || path[1]? == some directorySeparator)

def isParentDirectory (path : Path) : Bool :=
  path[0]? == some dot && path[1]? == some dot &&
    (path[2]? == none || path[2]? == some directorySeparator)

/-! ## The program -/

/-- How a call fails; `tooLongPath` carries the truncated output where it is stored, and
    `outOfBuffer` is a write behind the buffer of the replacement. -/
inductive PathFailure where
  | invalidPathFormat
  | invalidCharacter
  | directoryUnobtainable
  | tooLongPath (written : Option Path)
  | outOfBuffer
deriving DecidableEq

inductive PathState where
  | start
  | normal
  | firstSeparator
  | separator
  | currentDir
  | parentDir
deriving DecidableEq

/-- The `switch` of `IsNormalized` on one character; `none` is its early `*out = false`. -/
def PathState.process (state : PathState) (c : Char) : Except PathFailure (Option PathState) :=
  match state with
  | .start =>
    if c = directorySeparator then .ok (some .firstSeparator) else .error .invalidPathFormat
  | .normal => if c = directorySeparator then .ok (some .separator) else .ok (some .normal)
  | .firstSeparator | .separator =>
    if c = directorySeparator then .ok none
    else if c = dot then .ok (some .currentDir)
    else .ok (some .normal)
  | .currentDir =>
    if c = directorySeparator then .ok none
    else if c = dot then .ok (some .parentDir)
    else .ok (some .normal)
  | .parentDir => if c = directorySeparator then .ok none else .ok (some .normal)

/-- The `while` loop of `IsNormalized`. -/
def isNormalizedLoop (allowAllCharacters : Bool) :
    PathState → Path → Except PathFailure (Option PathState)
  | state, [] => .ok (some state)
  | state, c :: rest =>
    if ¬ allowAllCharacters ∧ state ≠ .start ∧ isInvalidCharacter c then
      .error .invalidCharacter
    else
      match state.process c with
      | .error e => .error e
      | .ok none => .ok none
      | .ok (some state') => isNormalizedLoop allowAllCharacters state' rest

/-- `PathNormalizer::IsNormalized`: `*out`, and `*out_len` where it is stored. -/
def isNormalized (path : Path) (allowAllCharacters : Bool) :
    Except PathFailure (Bool × Option Nat) :=
  match isNormalizedLoop allowAllCharacters .start path with
  | .error e => .error e
  | .ok none => .ok (false, none)
  | .ok (some .start) => .error .invalidPathFormat
  | .ok (some .normal) | .ok (some .firstSeparator) => .ok (true, some path.length)
  | .ok (some _) => .ok (false, some path.length)

/-- The scan `do … while ((--total_len) != 0)` for the last separator at or before an index. -/
def scanBack (dst : Path) : Nat → Nat
  | 0 => 0
  | n + 1 => if dst[n + 1]? = some directorySeparator then n + 1 else scanBack dst n

/-- The options of a call. -/
structure NormalizeOptions where
  maxOutSize : Nat
  isWindowsPath : Bool
  isDriveRelativePath : Bool
  allowAllCharacters : Bool

/-- One directory component at the start of `cur`; `dst` holds the `total_len` characters written. -/
def handleComponent (o : NormalizeOptions) (cur dst : Path) (skipNextSep : Bool) :
    Except PathFailure (Path × Bool) :=
  let dir := cur.takeWhile (· ≠ directorySeparator)
  if ¬ o.allowAllCharacters ∧ dir.any isInvalidCharacter then
    .error .invalidCharacter
  else if isCurrentDirectory cur then
    .ok (dst, true)
  else if isParentDirectory cur then
    if dst.length = 1 then
      if o.isWindowsPath then .ok ([], skipNextSep) else .error .directoryUnobtainable
    else
      .ok (dst.take (scanBack dst (dst.length - 2)), skipNextSep)
  else if o.maxOutSize < dst.length + dir.length + 1 then
    .error (.tooLongPath (some (dst ++ dir.take (o.maxOutSize - (dst.length + 1)))))
  else
    .ok (dst ++ dir, skipNextSep)

/-- The main loop of `Normalize`; `cur` is what is left of the path. -/
def normalizeLoop (o : NormalizeOptions) :
    Nat → Path → Path → Bool → Except PathFailure (Path × Bool)
  | 0, _, dst, skipNextSep => .ok (dst, skipNextSep)
  | fuel + 1, cur, dst, skipNextSep =>
    if cur = [] then
      .ok (dst, skipNextSep)
    else if cur.head? = some directorySeparator then
      let cur' := cur.dropWhile (· = directorySeparator)
      if cur' = [] then
        .ok (dst, skipNextSep)
      else if ¬ skipNextSep ∧ dst.length + 1 = o.maxOutSize then
        .error (.tooLongPath (some dst))
      else
        match handleComponent o cur' (if skipNextSep then dst else dst ++ [directorySeparator])
            false with
        | .error e => .error e
        | .ok (dst', skip') =>
          normalizeLoop o fuel (cur'.dropWhile (· ≠ directorySeparator)) dst' skip'
    else
      match handleComponent o cur dst skipNextSep with
      | .error e => .error e
      | .ok (dst', skip') =>
        normalizeLoop o fuel (cur.dropWhile (· ≠ directorySeparator)) dst' skip'

/-- What `Normalize` does after its loop.  The bound is on `total_len - 1` in `size_t`. -/
def finishNormalize (o : NormalizeOptions) (dst : Path) (skipNextSep : Bool) :
    Except PathFailure Path :=
  let trimmed := if skipNextSep then dst.dropLast else dst
  let out := if trimmed = [] ∧ o.maxOutSize ≠ 0 then [directorySeparator] else trimmed
  if out = [] ∨ o.maxOutSize < out.length - 1 then
    .error (.tooLongPath none)
  else
    match isNormalized out o.allowAllCharacters with
    | .error e => .error e
    | .ok _ => .ok out

/-- The loop and what follows it. -/
def normalizeFrom (o : NormalizeOptions) (cur dst : Path) : Except PathFailure Path :=
  match normalizeLoop o cur.length cur dst false with
  | .error e => .error e
  | .ok (dst', skipNextSep) => finishNormalize o dst' skipNextSep

def entryNameLengthMax : Nat := 0x300

/-- `PathNormalizer::Normalize`: what `dst` holds, and `*out_len` is its length. -/
def normalize (path : Path) (o : NormalizeOptions) : Except PathFailure Path :=
  if path.head? ≠ some directorySeparator ∧ ¬ o.isDriveRelativePath then
    .error .invalidPathFormat
  else
    let dst := if path.head? = some directorySeparator then [] else [directorySeparator]
    if isParentDirectoryPathReplacementNeeded path then
      if entryNameLengthMax < path.length then .error .outOfBuffer
      else normalizeFrom o (replaceParentDirectoryPath path) dst
    else
      normalizeFrom o path dst

/-! ## The abstract model: a stack of components -/

/-- The component `..`. -/
def parentComponent : Path := [dot, dot]

/-- The component `.`. -/
def currentComponent : Path := [dot]

/-- The components of a path without the empty ones and the `.`. -/
def components (path : Path) : List Path :=
  (path.splitOn directorySeparator).filter fun c => c ≠ [] ∧ c ≠ currentComponent

/-- No character of the component is refused. -/
def Allowed (allowAllCharacters : Bool) (c : Path) : Prop :=
  allowAllCharacters = true ∨ c.any isInvalidCharacter = false

instance (allowAllCharacters : Bool) (c : Path) : Decidable (Allowed allowAllCharacters c) :=
  inferInstanceAs (Decidable (_ ∨ _))

/-- The components move a stack, whose top is its last element. -/
def resolve (o : NormalizeOptions) : List Path → List Path → Except PathFailure (List Path)
  | stack, [] => .ok stack
  | stack, c :: rest =>
    if ¬ Allowed o.allowAllCharacters c then
      .error .invalidCharacter
    else if c = parentComponent then
      if stack = [] ∧ o.isWindowsPath = false then .error .directoryUnobtainable
      else resolve o stack.dropLast rest
    else
      resolve o (stack ++ [c]) rest

/-- Every component behind a separator. -/
def rendered (stack : List Path) : Path := stack.flatMap fun c => directorySeparator :: c

/-- A component that a normalized path can hold. -/
structure Proper (c : Path) : Prop where
  ne_nil : c ≠ []
  not_sep : directorySeparator ∉ c
  ne_current : c ≠ currentComponent
  ne_parent : c ≠ parentComponent

@[simp] theorem rendered_nil : rendered [] = [] := rfl

theorem rendered_cons (c : Path) (stack : List Path) :
    rendered (c :: stack) = directorySeparator :: (c ++ rendered stack) := rfl

@[simp] theorem rendered_append (xs ys : List Path) :
    rendered (xs ++ ys) = rendered xs ++ rendered ys := List.flatMap_append

@[simp] theorem rendered_singleton (c : Path) : rendered [c] = directorySeparator :: c := by
  simp [rendered]

/-! ## Components of a path -/

/-- Where a component ends. -/
def AtEnd (rest : Path) : Prop := rest = [] ∨ rest.head? = some directorySeparator

theorem AtEnd.cases {rest : Path} (h : AtEnd rest) :
    rest = [] ∨ ∃ rest', rest = directorySeparator :: rest' := by
  refine h.imp_right fun hhead => ?_
  obtain ⟨rest', rfl⟩ := List.head?_eq_some_iff.mp hhead
  exact ⟨rest', rfl⟩

/-- Behind a component the separators are skipped, one at least. -/
theorem AtEnd.dropped {cur : Path} (h : AtEnd cur) (hne : cur ≠ []) :
    (cur.dropWhile (· = directorySeparator)).length + 1 ≤ cur.length ∧
      (cur.dropWhile (· = directorySeparator)).head? ≠ some directorySeparator := by
  constructor
  · obtain rfl | ⟨rest, rfl⟩ := h.cases
    · exact absurd rfl hne
    · rw [List.dropWhile_cons_of_pos (by simp), List.length_cons]
      exact Nat.succ_le_succ (List.dropWhile_suffix _).length_le
  · intro hhead
    have hfail := List.head?_dropWhile_not (· = directorySeparator) cur
    rw [hhead] at hfail; simp at hfail

theorem components_nil : components [] = [] := by decide

theorem components_separator (path : Path) :
    components (directorySeparator :: path) = components path := by
  unfold components
  rw [List.splitOn_cons_eq_if_modifyHead, if_pos (by simp)]
  simp

theorem components_append {dir rest : Path} (hdir : directorySeparator ∉ dir) (hrest : AtEnd rest) :
    components (dir ++ rest) =
      (if dir = [] ∨ dir = currentComponent then [] else [dir]) ++ components rest := by
  have hkeep : ∀ tail : List Path, (dir :: tail).filter (fun c => c ≠ [] ∧ c ≠ currentComponent) =
      (if dir = [] ∨ dir = currentComponent then [] else [dir]) ++
        tail.filter (fun c => c ≠ [] ∧ c ≠ currentComponent) := by
    intro tail
    by_cases h : dir = [] ∨ dir = currentComponent
    · rw [if_pos h, List.filter_cons_of_neg (by simpa using fun hne => h.resolve_left hne)]
      rfl
    · rw [if_neg h, List.filter_cons_of_pos (by simpa using not_or.mp h)]; rfl
  obtain rfl | ⟨rest, rfl⟩ := hrest.cases
  · rw [List.append_nil, components_nil]
    unfold components
    rw [List.splitOn_eq_singleton hdir, hkeep]
    rfl
  · rw [components_separator]
    unfold components
    rw [List.splitOn_append_cons_self_of_not_mem hdir, hkeep]

theorem components_dropWhile (path : Path) :
    components (path.dropWhile (· = directorySeparator)) = components path := by
  induction path with
  | nil => rfl
  | cons c rest ih =>
    by_cases hc : c = directorySeparator
    · rw [List.dropWhile_cons_of_pos (by simpa using hc), ih, hc, components_separator]
    · rw [List.dropWhile_cons_of_neg (by simpa using hc)]

theorem exists_component {cur : Path} (hne : cur ≠ [])
    (hhead : cur.head? ≠ some directorySeparator) :
    ∃ dir rest, cur = dir ++ rest ∧ dir ≠ [] ∧ directorySeparator ∉ dir ∧ AtEnd rest := by
  refine ⟨cur.takeWhile (· ≠ directorySeparator), cur.dropWhile (· ≠ directorySeparator),
    List.takeWhile_append_dropWhile.symm, ?_, ?_, ?_⟩
  · cases cur with
    | nil => exact absurd rfl hne
    | cons c rest =>
      have hc : c ≠ directorySeparator := fun h => hhead (by rw [h]; rfl)
      rw [List.takeWhile_cons_of_pos (by simpa using hc)]; exact List.cons_ne_nil _ _
  · intro hmem
    simpa using List.mem_takeWhile_imp hmem
  · cases hdrop : cur.dropWhile (· ≠ directorySeparator) with
    | nil => exact Or.inl rfl
    | cons c rest =>
      apply Or.inr
      have hfail := List.head?_dropWhile_not (· ≠ directorySeparator) cur
      rw [hdrop] at hfail
      have hc : c = directorySeparator := by simpa using hfail
      rw [hc]; rfl

section Split

variable {dir rest : Path}

theorem ne_of_not_mem (hdir : directorySeparator ∉ dir) :
    ∀ c ∈ dir, decide (c ≠ directorySeparator) = true := by
  intro c hc; simpa using fun h : c = directorySeparator => hdir (h ▸ hc)

theorem takeWhile_component (hdir : directorySeparator ∉ dir) (hrest : AtEnd rest) :
    (dir ++ rest).takeWhile (· ≠ directorySeparator) = dir := by
  rw [List.takeWhile_append_of_pos (ne_of_not_mem hdir)]
  obtain rfl | ⟨rest, rfl⟩ := hrest.cases
  · simp
  · rw [List.takeWhile_cons_of_neg (by simp), List.append_nil]

theorem dropWhile_component (hdir : directorySeparator ∉ dir) (hrest : AtEnd rest) :
    (dir ++ rest).dropWhile (· ≠ directorySeparator) = rest := by
  rw [List.dropWhile_append_of_pos (ne_of_not_mem hdir)]
  obtain rfl | ⟨rest, rfl⟩ := hrest.cases
  · rfl
  · rw [List.dropWhile_cons_of_neg (by simp)]

theorem AtEnd.head_eq (hrest : AtEnd rest) :
    rest[0]? = none ∨ rest[0]? = some directorySeparator := by
  rcases hrest with rfl | hhead
  · exact Or.inl rfl
  · rw [← List.head?_eq_getElem?]; exact Or.inr hhead

theorem isCurrentDirectory_component (hdir : directorySeparator ∉ dir) (hne : dir ≠ [])
    (hrest : AtEnd rest) : isCurrentDirectory (dir ++ rest) = true ↔ dir = currentComponent := by
  have hsep : ∀ c ∈ dir, c ≠ directorySeparator := fun c hc h => hdir (h ▸ hc)
  unfold isCurrentDirectory currentComponent
  match dir, hne, hsep with
  | [c], _, _ =>
    have htail : rest = [] ∨ rest.head? = some directorySeparator := hrest
    simpa [← List.head?_eq_getElem?] using fun _ : c = dot => htail
  | c1 :: c2 :: dir, _, hsep =>
    have h2 : c2 ≠ directorySeparator := hsep c2 (by simp)
    simp [h2]

theorem isParentDirectory_component (hdir : directorySeparator ∉ dir) (hne : dir ≠ [])
    (hrest : AtEnd rest) : isParentDirectory (dir ++ rest) = true ↔ dir = parentComponent := by
  have hsep : ∀ c ∈ dir, c ≠ directorySeparator := fun c hc h => hdir (h ▸ hc)
  unfold isParentDirectory parentComponent
  match dir, hne, hsep with
  | [c], _, _ =>
    -- a single dot would have a separator or the terminator where the second dot should be
    rcases hrest.head_eq with hhead | hhead
    · simp [hhead]
    · simp [hhead, dot, directorySeparator]
  | [c1, c2], _, _ =>
    have htail : rest = [] ∨ rest.head? = some directorySeparator := hrest
    simpa [← List.head?_eq_getElem?] using fun (_ : c1 = dot) (_ : c2 = dot) => htail
  | c1 :: c2 :: c3 :: dir, _, hsep =>
    have h3 : c3 ≠ directorySeparator := hsep c3 (by simp)
    simp [h3]

end Split

/-! ## One component -/

/-- What the stack holds between two components. -/
def Stacked (o : NormalizeOptions) (stack : List Path) : Prop :=
  ∀ c ∈ stack, Proper c ∧ Allowed o.allowAllCharacters c

/-- The separator that the next component will not write again. -/
def pending (skipNextSep : Bool) : Path := if skipNextSep then [directorySeparator] else []

theorem scanBack_component {before dir after : Path} (hdir : directorySeparator ∉ dir) :
    ∀ k, k ≤ dir.length →
      scanBack (before ++ directorySeparator :: (dir ++ after)) (before.length + k) = before.length := by
  intro k
  induction k with
  | zero =>
    intro _
    rw [Nat.add_zero]
    cases hlen : before.length with
    | zero => rfl
    | succ n =>
      unfold scanBack
      rw [if_pos]
      rw [List.getElem?_append_right (by omega), hlen, Nat.sub_self]; rfl
  | succ k ih =>
    intro hk
    have hlt : k < dir.length := hk
    have hchar : (before ++ directorySeparator :: (dir ++ after))[before.length + k + 1]? =
        some dir[k] := by
      rw [List.getElem?_append_right (by omega),
        show before.length + k + 1 - before.length = k + 1 by omega, List.getElem?_cons_succ,
        List.getElem?_append_left hlt, List.getElem?_eq_getElem hlt]
    rw [← Nat.add_assoc]
    unfold scanBack
    rw [if_neg, ih (by omega)]
    rw [hchar]
    intro heq; exact hdir (Option.some.inj heq ▸ List.getElem_mem _)

variable {stack : List Path} (o : NormalizeOptions)

theorem take_scanBack {c : Path} (hc : directorySeparator ∉ c) :
    let dst := rendered (stack ++ [c]) ++ [directorySeparator]
    dst.take (scanBack dst (dst.length - 2)) = rendered stack := by
  intro dst
  have hdst : dst = rendered stack ++ directorySeparator :: (c ++ [directorySeparator]) := by
    show rendered (stack ++ [c]) ++ [directorySeparator] = _
    simp
  have hindex : dst.length - 2 = (rendered stack).length + c.length := by
    rw [hdst]
    simp; omega
  rw [hindex, hdst, scanBack_component hc c.length (Nat.le_refl _), List.take_left]

theorem allowed_currentComponent (allowAllCharacters : Bool) :
    Allowed allowAllCharacters currentComponent := Or.inr (by decide)

theorem not_allowed_iff {allowAllCharacters : Bool} {c : Path} :
    ¬ Allowed allowAllCharacters c ↔ ¬ allowAllCharacters ∧ c.any isInvalidCharacter := by
  unfold Allowed; cases allowAllCharacters <;> simp

theorem handleComponent_eq {dir rest : Path} (hdir : directorySeparator ∉ dir) (hne : dir ≠ [])
    (hrest : AtEnd rest) (hstack : Stacked o stack)
    (hroom : (rendered stack).length + 1 + dir.length + 1 ≤ o.maxOutSize) :
    handleComponent o (dir ++ rest) (rendered stack ++ [directorySeparator]) false =
      if ¬ Allowed o.allowAllCharacters dir then .error .invalidCharacter
      else if dir = currentComponent then .ok (rendered stack ++ [directorySeparator], true)
      else if dir = parentComponent then
        if stack = [] ∧ o.isWindowsPath = false then .error .directoryUnobtainable
        else .ok (rendered stack.dropLast, false)
      else .ok (rendered (stack ++ [dir]), false) := by
  unfold handleComponent
  simp only [takeWhile_component hdir hrest]
  by_cases hallowed : Allowed o.allowAllCharacters dir
  · rw [if_neg (fun h => not_allowed_iff.mpr h hallowed), if_neg (not_not.mpr hallowed)]
    by_cases hcur : dir = currentComponent
    · rw [if_pos ((isCurrentDirectory_component hdir hne hrest).mpr hcur), if_pos hcur]
    rw [if_neg (fun h => hcur ((isCurrentDirectory_component hdir hne hrest).mp h)), if_neg hcur]
    by_cases hparent : dir = parentComponent
    · rw [if_pos ((isParentDirectory_component hdir hne hrest).mpr hparent), if_pos hparent]
      rcases List.eq_nil_or_concat' stack with rfl | ⟨stack', c, rfl⟩
      · rw [if_pos (by simp)]
        cases o.isWindowsPath <;> simp
      · have hproper : Proper c := (hstack c (by simp)).1
        have hpos : c.length ≠ 0 := fun h => hproper.ne_nil (List.length_eq_zero_iff.mp h)
        rw [if_neg (by simp; omega), if_neg (by simp), take_scanBack hproper.not_sep,
          List.dropLast_concat]
    · rw [if_neg (fun h => hparent ((isParentDirectory_component hdir hne hrest).mp h)),
        if_neg hparent, if_neg (by simp; omega)]
      simp
  · rw [if_pos (not_allowed_iff.mp hallowed), if_pos hallowed]

/-! ## The loop follows the stack -/

/-- What the loop gives when the stack of the abstract model ends so. -/
def LoopResult (o : NormalizeOptions) (loop : Except PathFailure (Path × Bool)) :
    Except PathFailure (List Path) → Prop
  | .error e => loop = .error e
  | .ok stack => Stacked o stack ∧ (rendered stack).length < o.maxOutSize ∧
      ∃ skip, loop = .ok (rendered stack ++ pending skip, skip)

/-- **One component moves the stack**; `loop` is what the rest of the path does. -/
theorem loopResult_component {dir rest : Path} (hdir : directorySeparator ∉ dir) (hne : dir ≠ [])
    (hrest : AtEnd rest) (hstack : Stacked o stack)
    (hroom : (rendered stack).length + 1 + dir.length + rest.length + 1 ≤ o.maxOutSize)
    (loop : Path → Bool → Except PathFailure (Path × Bool)) (ih : ∀ stack' skip, Stacked o stack' →
      (rendered stack' ++ pending skip).length + rest.length + 1 ≤ o.maxOutSize →
      LoopResult o (loop (rendered stack' ++ pending skip) skip)
        (resolve o stack' (components rest))) : LoopResult o
      (match handleComponent o (dir ++ rest) (rendered stack ++ [directorySeparator]) false with
        | .error e => .error e
        | .ok (dst', skip') => loop dst' skip')
      (resolve o stack (components (dir ++ rest))) := by
  rw [handleComponent_eq o hdir hne hrest hstack (by omega), components_append hdir hrest]
  by_cases hcur : dir = currentComponent
  · have hallowed : Allowed o.allowAllCharacters dir := hcur ▸ allowed_currentComponent _
    rw [if_neg (not_not.mpr hallowed), if_pos hcur, if_pos (Or.inr hcur)]
    exact ih stack true hstack (by simp [pending]; omega)
  rw [if_neg hcur, if_neg (not_or.mpr ⟨hne, hcur⟩), List.singleton_append]
  unfold resolve
  by_cases hallowed : Allowed o.allowAllCharacters dir
  · rw [if_neg (not_not.mpr hallowed), if_neg (not_not.mpr hallowed)]
    by_cases hparent : dir = parentComponent
    · rw [if_pos hparent, if_pos hparent]
      by_cases hroot : stack = [] ∧ o.isWindowsPath = false
      · rw [if_pos hroot, if_pos hroot]
        rfl
      · rw [if_neg hroot, if_neg hroot]
        have hle : (rendered stack.dropLast).length ≤ (rendered stack).length := by
          rcases List.eq_nil_or_concat' stack with rfl | ⟨stack', c, rfl⟩
          · exact Nat.le_refl _
          · simp
        have := ih stack.dropLast false (fun c hc => hstack c (List.mem_of_mem_dropLast hc))
          (by simp [pending]; omega)
        simpa [pending] using this
    · rw [if_neg hparent, if_neg hparent]
      have hproper : Proper dir := ⟨hne, hdir, hcur, hparent⟩
      have hstack' : Stacked o (stack ++ [dir]) := by
        intro c hc
        rcases List.mem_append.mp hc with hc | hc
        · exact hstack c hc
        · rw [List.mem_singleton.mp hc]; exact ⟨hproper, hallowed⟩
      have := ih (stack ++ [dir]) false hstack' (by simp [pending]; omega)
      simpa [pending] using this
  · rw [if_pos hallowed, if_pos hallowed]; rfl

theorem loopResult_end {skip : Bool} (hstack : Stacked o stack)
    (hroom : (rendered stack ++ pending skip).length < o.maxOutSize) :
    LoopResult o (.ok (rendered stack ++ pending skip, skip)) (resolve o stack []) := by
  refine ⟨hstack, ?_, skip, rfl⟩
  rw [List.length_append] at hroom
  omega

/-- **The loop and the stack agree**: by induction on the steps, one component each. -/
theorem normalizeLoop_eq_resolve : ∀ (fuel : Nat) (cur : Path)
    (stack : List Path) (skip : Bool), AtEnd cur → cur.length ≤ fuel → Stacked o stack →
      (rendered stack ++ pending skip).length + cur.length + 1 ≤ o.maxOutSize →
      LoopResult o (normalizeLoop o fuel cur (rendered stack ++ pending skip) skip)
        (resolve o stack (components cur)) := by
  intro fuel
  induction fuel with
  | zero =>
    intro cur stack skip _ hfuel hstack hroom
    have hnil : cur = [] := List.length_eq_zero_iff.mp (by omega)
    rw [hnil, components_nil]; exact loopResult_end o hstack (by omega)
  | succ fuel ih =>
    intro cur stack skip hcur hfuel hstack hroom
    unfold normalizeLoop
    by_cases hnil : cur = []
    · rw [if_pos hnil, hnil, components_nil]; exact loopResult_end o hstack (by omega)
    rw [if_neg hnil, if_pos (hcur.resolve_left hnil)]
    obtain ⟨hdropped, hnosep⟩ := hcur.dropped hnil
    rw [← components_dropWhile cur]
    generalize cur.dropWhile (· = directorySeparator) = cur' at hdropped hnosep
    by_cases hend : cur' = []
    · simp only [if_pos hend]
      rw [hend, components_nil]; exact loopResult_end o hstack (by omega)
    simp only [if_neg hend]
    rw [if_neg (by omega)]
    obtain ⟨dir, rest, hsplit, hne, hdir, hrest⟩ := exists_component hend hnosep
    have hdst : (if skip then rendered stack ++ pending skip
        else rendered stack ++ pending skip ++ [directorySeparator]) =
          rendered stack ++ [directorySeparator] := by
      cases skip <;> simp [pending]
    have hlen : cur'.length = dir.length + rest.length := by rw [hsplit, List.length_append]
    have hpos : dir.length ≠ 0 := fun h => hne (List.length_eq_zero_iff.mp h)
    rw [List.length_append] at hroom
    rw [hdst, hsplit, dropWhile_component hdir hrest]
    apply loopResult_component o hdir hne hrest hstack (by omega)
      (fun dst' skip' => normalizeLoop o fuel rest dst' skip')
    intro stack' skip' hstack' hroom'
    exact ih rest stack' skip' hrest (by omega) hstack' hroom'

end Suyu.FileSys
