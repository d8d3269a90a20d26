import Mathlib
import Suyu.FileSys.NormalizedPath

/-
  The arrays of `PathNormalizer`: the table of character masks, the buffer of the replacement, and
  `dst`.

  1. **Program** - `isNormalized` and `normalize` once more, with every access to an array checked: a
     run stops at the first index that is `outside`.  `char` is signed, so that the index of a byte
     from 0x80 on is the top of a negative number.

  2. **Specification** - no run stops so (`Inside`).  `HighByteReached` says which paths bring a byte
     from 0x80 on to the table: the acceptor reaches the first one when the path before it is
     normalized as far as it goes, and the normalizer when the components before it stay in the root
     and in `dst` (`touches`).

  3. **The crux (`normalizeLoop_bounded`)** - between two components `dst` is a rendered stack that
     leaves room for the terminator, so that the only index that can be outside is that of the table.
-/

namespace Suyu.FileSys.PathBounds

open StringTraits

/-! ## The program -/

inductive Table where
  | masks
  | replacement
  | dst
deriving DecidableEq

/-- How a run stops: with a `Result`, or at an index behind the end of an array. -/
inductive Stop where
  | failed (e : PathFailure)
  | outside (table : Table) (index : Nat)
deriving DecidableEq

abbrev Run := Except Stop

/-- `static_cast<u64>(c) >> 6`. -/
def maskIndex (c : Char) : Nat := ((BitVec.ofNat 8 c.toNat).signExtend 64 >>> 6).toNat

def isInvalidCharacter (c : Char) : Run Bool :=
  if maskIndex c < 4 then .ok (StringTraits.isInvalidCharacter c)
  else .error (.outside .masks (maskIndex c))

/-- `R_UNLESS(!IsInvalidCharacter(c), ResultInvalidCharacter)`, where it is checked at all. -/
def checkCharacter (allowAllCharacters : Bool) (c : Char) : Run Unit :=
  if allowAllCharacters then .ok ()
  else
    match isInvalidCharacter c with
    | .error stop => .error stop
    | .ok true => .error (.failed .invalidCharacter)
    | .ok false => .ok ()

/-- `buffer[index] = c` in an array of `size` bytes, which holds `buffer` so far. -/
def store (table : Table) (size : Nat) (buffer : Path) (index : Nat) (c : Char) : Run Path :=
  if index < size then .ok (buffer.take index ++ c :: buffer.drop (index + 1))
  else .error (.outside table index)

/-- `buffer[index] = NullTerminator`. -/
def terminate (table : Table) (size : Nat) (buffer : Path) : Run Path :=
  if buffer.length < size then .ok buffer else .error (.outside table buffer.length)

/-- The stores of consecutive characters at the end of the buffer. -/
def storeAll (table : Table) (size : Nat) (buffer : Path) : Path → Run Path
  | [] => .ok buffer
  | c :: cs =>
    match store table size buffer buffer.length c with
    | .error stop => .error stop
    | .ok buffer => storeAll table size buffer cs

/-- The `while` loop of `ReplaceParentDirectoryPath`. -/
def replaceLoop (src : Path) : Nat → Nat → Path → Run Path
  | 0, _, dst => .ok dst
  | fuel + 1, i, dst =>
    if src.length ≤ i then
      .ok dst
    else if separatorAt src (i - 1) ∧ src[i]? = some dot ∧ src[i + 1]? = some dot ∧
        separatorAt src (i + 2) then
      match store .replacement (entryNameLengthMax + 1) dst (i - 1) directorySeparator with
      | .error stop => .error stop
      | .ok dst =>
        match storeAll .replacement (entryNameLengthMax + 1) dst [dot, dot, directorySeparator] with
        | .error stop => .error stop
        | .ok dst => replaceLoop src fuel (i + 3) dst
    else if src[i - 1]? = some alternateDirectorySeparator ∧ src[i]? = some dot ∧
        src[i + 1]? = some dot ∧ src[i + 2]? = none then
      match store .replacement (entryNameLengthMax + 1) dst (i - 1) directorySeparator with
      | .error stop => .error stop
      | .ok dst => storeAll .replacement (entryNameLengthMax + 1) dst [dot, dot]
    else
      match storeAll .replacement (entryNameLengthMax + 1) dst (src[i]?).toList with
      | .error stop => .error stop
      | .ok dst => replaceLoop src fuel (i + 1) dst

def replaceParentDirectoryPath (src : Path) : Run Path :=
  match storeAll .replacement (entryNameLengthMax + 1) [] [directorySeparator] with
  | .error stop => .error stop
  | .ok dst =>
    match replaceLoop src src.length 1 dst with
    | .error stop => .error stop
    | .ok dst => terminate .replacement (entryNameLengthMax + 1) dst

/-- The `while` loop of `IsNormalized`. -/
def isNormalizedLoop (allowAllCharacters : Bool) : PathState → Path → Run (Option PathState)
  | state, [] => .ok (some state)
  | state, c :: rest =>
    match checkCharacter (allowAllCharacters || state == .start) c with
    | .error stop => .error stop
    | .ok () =>
      match state.process c with
      | .error e => .error (.failed e)
      | .ok none => .ok none
      | .ok (some state') => isNormalizedLoop allowAllCharacters state' rest

def isNormalized (path : Path) (allowAllCharacters : Bool) : Run (Bool × Option Nat) :=
  match isNormalizedLoop allowAllCharacters .start path with
  | .error stop => .error stop
  | .ok none => .ok (false, none)
  | .ok (some .start) => .error (.failed .invalidPathFormat)
  | .ok (some .normal) | .ok (some .firstSeparator) => .ok (true, some path.length)
  | .ok (some _) => .ok (false, some path.length)

/-- The scan for the length of the component, which checks its characters. -/
def checkComponent (allowAllCharacters : Bool) : Path → Run Unit
  | [] => .ok ()
  | c :: cs =>
    match checkCharacter allowAllCharacters c with
    | .error stop => .error stop
    | .ok () => checkComponent allowAllCharacters cs

/-- The scan `do … while ((--total_len) != 0)`; below zero it wraps. -/
def scanBack (dst : Path) : Nat → Run Nat
  | 0 =>
    if dst[0]? = some directorySeparator then .ok 0 else .error (.outside .dst (2 ^ 64 - 1))
  | t + 1 =>
    if dst[t + 1]? = some directorySeparator then .ok (t + 1)
    else if t = 0 then .ok 0
    else scanBack dst t

/-- One directory component at the start of `cur`; `dst` holds the `total_len` characters written.
    Without a character in it, `dst[total_len - 1]` is outside. -/
def handleComponent (o : NormalizeOptions) (cur dst : Path) (skipNextSep : Bool) :
    Run (Path × Bool) :=
  let dir := cur.takeWhile (· ≠ directorySeparator)
  match checkComponent o.allowAllCharacters dir with
  | .error stop => .error stop
  | .ok () =>
    if isCurrentDirectory cur then
      .ok (dst, true)
    else if isParentDirectory cur then
      if dst.length = 0 then .error (.outside .dst (2 ^ 64 - 1))
      else if dst.length = 1 then
        if o.isWindowsPath then .ok ([], skipNextSep) else .error (.failed .directoryUnobtainable)
      else
        match scanBack dst (dst.length - 2) with
        | .error stop => .error stop
        | .ok totalLen => .ok (dst.take totalLen, skipNextSep)
    else if o.maxOutSize < dst.length + dir.length + 1 then
      match storeAll .dst o.maxOutSize dst (dir.take (o.maxOutSize - (dst.length + 1))) with
      | .error stop => .error stop
      | .ok dst =>
        match terminate .dst o.maxOutSize dst with
        | .error stop => .error stop
        | .ok dst => .error (.failed (.tooLongPath (some dst)))
    else
      match storeAll .dst o.maxOutSize dst dir with
      | .error stop => .error stop
      | .ok dst => .ok (dst, skipNextSep)

/-- The separator before a component, unless it is skipped. -/
def writeSeparator (o : NormalizeOptions) (dst : Path) (skipNextSep : Bool) : Run Path :=
  if skipNextSep then .ok dst
  else if dst.length + 1 = o.maxOutSize then
    match terminate .dst o.maxOutSize dst with
    | .error stop => .error stop
    | .ok dst => .error (.failed (.tooLongPath (some dst)))
  else store .dst o.maxOutSize dst dst.length directorySeparator

/-- The main loop of `Normalize`; `cur` is what is left of the path. -/
def normalizeLoop (o : NormalizeOptions) : Nat → Path → Path → Bool → Run (Path × Bool)
  | 0, _, dst, skipNextSep => .ok (dst, skipNextSep)
  | fuel + 1, cur, dst, skipNextSep =>
    if cur = [] then
      .ok (dst, skipNextSep)
    else if cur.head? = some directorySeparator then
      let cur' := cur.dropWhile (· = directorySeparator)
      if cur' = [] then
        .ok (dst, skipNextSep)
      else
        match writeSeparator o dst skipNextSep with
        | .error stop => .error stop
        | .ok dst =>
          match handleComponent o cur' dst false with
          | .error stop => .error stop
          | .ok (dst', skip') =>
            normalizeLoop o fuel (cur'.dropWhile (· ≠ directorySeparator)) dst' skip'
    else
      match handleComponent o cur dst skipNextSep with
      | .error stop => .error stop
      | .ok (dst', skip') =>
        normalizeLoop o fuel (cur.dropWhile (· ≠ directorySeparator)) dst' skip'

/-- What `Normalize` does after its loop; `total_len - 1` is in `size_t`. -/
def finishNormalize (o : NormalizeOptions) (dst : Path) (skipNextSep : Bool) : Run Path :=
  let trimmed := if skipNextSep then dst.dropLast else dst
  match (if trimmed = [] ∧ o.maxOutSize ≠ 0 then
      store .dst o.maxOutSize trimmed 0 directorySeparator else .ok trimmed) with
  | .error stop => .error stop
  | .ok out =>
    if out = [] ∨ o.maxOutSize < out.length - 1 then .error (.failed (.tooLongPath none))
    else
      match terminate .dst o.maxOutSize out with
      | .error stop => .error stop
      | .ok out =>
        match isNormalized out o.allowAllCharacters with
        | .error stop => .error stop
        | .ok _ => .ok out

/-- The path that the loop runs over. -/
def replaced (path : Path) : Run Path :=
  if isParentDirectoryPathReplacementNeeded path then replaceParentDirectoryPath path else .ok path

def normalize (path : Path) (o : NormalizeOptions) : Run Path :=
  if path.head? ≠ some directorySeparator ∧ ¬ o.isDriveRelativePath then
    .error (.failed .invalidPathFormat)
  else
    match (if path.head? = some directorySeparator then .ok []
        else store .dst o.maxOutSize [] 0 directorySeparator) with
    | .error stop => .error stop
    | .ok dst =>
      match replaced path with
      | .error stop => .error stop
      | .ok cur =>
        match normalizeLoop o cur.length cur dst false with
        | .error stop => .error stop
        | .ok (dst', skipNextSep) => finishNormalize o dst' skipNextSep

/-! ## The specification -/

/-- No access is outside its array. -/
def Inside {α : Type} (run : Run α) : Prop := ∀ table index, run ≠ .error (.outside table index)

/-- A byte from 0x80 on. -/
def isHigh (c : Char) : Bool := decide (0x80 ≤ c.toNat)

/-- What the check of a component meets first: `true` for a high byte, `false` for a refused one. -/
def meets (allowAllCharacters : Bool) (c : Path) : Option Bool :=
  if allowAllCharacters then none
  else (c.find? fun x => isHigh x || StringTraits.isInvalidCharacter x).map isHigh

/-- The components of a path without the empty ones. -/
def rawComponents (path : Path) : List Path :=
  (path.splitOn directorySeparator).filter fun c => c ≠ []

/-- The components move a stack, as far as they fit; the walk ends with `true` at a high byte. -/
def touches (o : NormalizeOptions) : List Path → Bool → List Path → Bool
  | _, _, [] => false
  | stack, skip, c :: rest =>
    if ¬ skip ∧ (rendered stack).length + 1 = o.maxOutSize then false
    else
      match meets o.allowAllCharacters c with
      | some high => high
      | none =>
        if c = currentComponent then touches o stack true rest
        else if c = parentComponent then
          if stack = [] ∧ o.isWindowsPath = false then false
          else touches o stack.dropLast false rest
        else if o.maxOutSize < (rendered stack).length + 1 + c.length + 1 then false
        else touches o (stack ++ [c]) false rest

/-- The path with every turned `..`. -/
def replacedPath (path : Path) : Path :=
  if isParentDirectoryPathReplacementNeeded path then FileSys.replaceParentDirectoryPath path
  else path

/-- The stack that the loop begins with: a drive-relative path has its separator already, and one that
    begins with a separator after its replacement has an empty component. -/
def initialStack (path : Path) : List Path × Bool :=
  if path.head? = some directorySeparator then ([], false)
  else if replacedPath path = [] ∨ (replacedPath path).head? = some directorySeparator then
    ([[]], false)
  else ([], true)

/-- The acceptor reaches the first high byte: with a letter in its place, the path up to it is
    normalized. -/
def AcceptorReaches (path : Path) : Prop :=
  ∃ head c tail, path = head ++ c :: tail ∧ (∀ x ∈ head, isHigh x = false) ∧ isHigh c = true ∧
    ∃ stack, head ++ ['x'] = joined stack ∧ ∀ c ∈ stack, Proper c ∧ Allowed false c

/-- The normalizer reaches a high byte. -/
def NormalizerReaches (path : Path) (o : NormalizeOptions) : Prop :=
  (path.head? = some directorySeparator ∨ o.isDriveRelativePath = true) ∧
    touches o (initialStack path).1 (initialStack path).2 (rawComponents (replacedPath path)) = true

/-- A byte from 0x80 on comes to the table. -/
def HighByteReached (path : Path) (o : NormalizeOptions) : Prop :=
  (o.allowAllCharacters = false ∧ AcceptorReaches path) ∨ NormalizerReaches path o

/-! ## Characters and stores -/

/-- The byte string of a path. -/
def ByteString (path : Path) : Prop := ∀ c ∈ path, c.toNat < 0x100

theorem maskIndex_lt_iff {c : Char} (hc : c.toNat < 0x100) : maskIndex c < 4 ↔ isHigh c = false := by
  have hall : ∀ n < 0x100,
      (((BitVec.ofNat 8 n).signExtend 64 >>> 6).toNat < 4 ↔ decide (0x80 ≤ n) = false) := by
    decide +kernel
  exact hall c.toNat hc

theorem checkCharacter_low {c : Char} (hc : c.toNat < 0x100) (hlow : isHigh c = false) :
    checkCharacter false c = if StringTraits.isInvalidCharacter c then
      .error (.failed .invalidCharacter) else .ok () := by
  unfold checkCharacter isInvalidCharacter
  rw [if_neg (by decide), if_pos ((maskIndex_lt_iff hc).mpr hlow)]
  cases StringTraits.isInvalidCharacter c <;> rfl

theorem checkCharacter_high {c : Char} (hc : c.toNat < 0x100) (hhigh : isHigh c = true) :
    checkCharacter false c = .error (.outside .masks (maskIndex c)) := by
  have hindex : ¬ maskIndex c < 4 := by
    rw [maskIndex_lt_iff hc, hhigh]; decide
  unfold checkCharacter isInvalidCharacter
  rw [if_neg (by decide), if_neg hindex]

theorem checkComponent_eq (allowAllCharacters : Bool) {dir : Path} (hbytes : ByteString dir) :
    match meets allowAllCharacters dir with
    | none => checkComponent allowAllCharacters dir = .ok ()
    | some true => ∃ i, checkComponent allowAllCharacters dir = .error (.outside .masks i)
    | some false => checkComponent allowAllCharacters dir = .error (.failed .invalidCharacter) := by
  cases allowAllCharacters with
  | true =>
    unfold meets
    rw [if_pos rfl]
    induction dir with
    | nil => rfl
    | cons c cs ih => exact ih fun c' hc' => hbytes c' (List.mem_cons_of_mem c hc')
  | false =>
    unfold meets
    rw [if_neg (by decide)]
    induction dir with
    | nil => rfl
    | cons c cs ih =>
      have hc : c.toNat < 0x100 := hbytes c (by simp)
      have ih := ih fun c' hc' => hbytes c' (List.mem_cons_of_mem c hc')
      unfold checkComponent
      cases hhigh : isHigh c with
      | true =>
        rw [List.find?_cons_of_pos (by simp [hhigh]), checkCharacter_high hc hhigh]
        simp only [Option.map_some, hhigh]; exact ⟨_, rfl⟩
      | false =>
        rw [checkCharacter_low hc hhigh]
        cases hinvalid : StringTraits.isInvalidCharacter c with
        | true =>
          rw [List.find?_cons_of_pos (by simp [hinvalid])]; simp [hhigh]
        | false =>
          rw [List.find?_cons_of_neg (by simp [hhigh, hinvalid])]; simpa using ih

theorem storeAll_eq {table : Table} {size : Nat} : ∀ (cs buffer : Path),
    buffer.length + cs.length ≤ size → storeAll table size buffer cs = .ok (buffer ++ cs) := by
  intro cs
  induction cs with
  | nil =>
    intro buffer _
    rw [List.append_nil]; rfl
  | cons c cs ih =>
    intro buffer hroom
    rw [List.length_cons] at hroom
    unfold storeAll store
    rw [if_pos (by omega)]
    dsimp only
    rw [List.take_length, List.drop_eq_nil_of_le (by omega), ih _ (by simp; omega)]
    simp

theorem store_eq_set {table : Table} {size index : Nat} {buffer : Path} {c : Char}
    (hindex : index < buffer.length) (hsize : index < size) :
    store table size buffer index c = .ok (buffer.set index c) := by
  unfold store
  rw [if_pos hsize, List.set_eq_take_append_cons_drop, if_pos hindex]

theorem terminate_eq {table : Table} {size : Nat} {buffer : Path} (h : buffer.length < size) :
    terminate table size buffer = .ok buffer :=
  if_pos h

/-! ## The buffer of the replacement -/

theorem replaceLoop_eq {src : Path} (hlen : src.length ≤ entryNameLengthMax) : ∀ (fuel i : Nat)
    (dst : Path), 1 ≤ i → i ≤ src.length → dst.length = i →
      replaceLoop src fuel i dst = .ok (FileSys.replaceLoop src fuel i dst) ∧
        (FileSys.replaceLoop src fuel i dst).length ≤ src.length := by
  intro fuel
  induction fuel with
  | zero =>
    intro i dst _ hi hdst; exact ⟨rfl, by rw [FileSys.replaceLoop]; omega⟩
  | succ fuel ih =>
    intro i dst hpos hi hdst
    unfold replaceLoop FileSys.replaceLoop
    by_cases hend : src.length ≤ i
    · rw [if_pos hend, if_pos hend]; exact ⟨rfl, by omega⟩
    rw [if_neg hend, if_neg hend]
    by_cases hwindow : separatorAt src (i - 1) ∧ src[i]? = some dot ∧ src[i + 1]? = some dot ∧
        separatorAt src (i + 2)
    · have hlast : i + 2 < src.length := separatorAt_lt hwindow.2.2.2
      rw [if_pos hwindow, if_pos hwindow, store_eq_set (by omega) (by omega)]
      dsimp only
      rw [storeAll_eq _ _ (by simp; omega)]
      exact ih (i + 3) _ (by omega) (by omega) (by simp; omega)
    rw [if_neg hwindow, if_neg hwindow]
    by_cases hlast : src[i - 1]? = some alternateDirectorySeparator ∧ src[i]? = some dot ∧
        src[i + 1]? = some dot ∧ src[i + 2]? = none
    · have hdot : i + 1 < src.length := (List.getElem?_eq_some_iff.mp hlast.2.2.1).1
      rw [if_pos hlast, if_pos hlast, store_eq_set (by omega) (by omega)]
      dsimp only
      rw [storeAll_eq _ _ (by simp; omega)]
      exact ⟨rfl, by simp; omega⟩
    · rw [if_neg hlast, if_neg hlast, List.getElem?_eq_getElem (by omega),
        storeAll_eq _ _ (by simp; omega)]
      exact ih (i + 1) _ (by omega) (by omega) (by simp; omega)

variable {path : Path} {stack : List Path} (o : NormalizeOptions)

theorem length_of_replacementNeeded (h : isParentDirectoryPathReplacementNeeded path = true) :
    3 ≤ path.length := by
  unfold isParentDirectoryPathReplacementNeeded at h
  by_contra hshort
  rw [if_pos (Nat.lt_of_not_le hshort), ite_self] at h
  exact absurd h (by decide)

theorem replaced_eq (hlen : path.length ≤ entryNameLengthMax) :
    replaced path = .ok (replacedPath path) := by
  unfold replaced replacedPath
  by_cases hneeded : isParentDirectoryPathReplacementNeeded path = true
  · rw [if_pos hneeded, if_pos hneeded]
    have hlong := length_of_replacementNeeded hneeded
    unfold replaceParentDirectoryPath
    rw [storeAll_eq _ _ (by decide)]
    obtain ⟨hloop, hloopLen⟩ := replaceLoop_eq hlen path.length 1 [directorySeparator]
      (Nat.le_refl 1) (by omega) rfl
    simp only [List.nil_append, hloop]
    exact terminate_eq (by omega)
  · rw [if_neg hneeded, if_neg hneeded]

/-! ## Components -/

theorem rawComponents_nil : rawComponents [] = [] := by decide

theorem rawComponents_separator (path : Path) :
    rawComponents (directorySeparator :: path) = rawComponents path := by
  unfold rawComponents
  rw [List.splitOn_cons_eq_if_modifyHead, if_pos (by simp)]
  simp

theorem rawComponents_append {dir rest : Path} (hdir : directorySeparator ∉ dir) (hne : dir ≠ [])
    (hrest : AtEnd rest) : rawComponents (dir ++ rest) = dir :: rawComponents rest := by
  obtain rfl | ⟨rest, rfl⟩ := hrest.cases
  · rw [List.append_nil, rawComponents_nil]
    unfold rawComponents
    rw [List.splitOn_eq_singleton hdir, List.filter_cons_of_pos (by simpa using hne)]
    rfl
  · rw [rawComponents_separator]
    unfold rawComponents
    rw [List.splitOn_append_cons_self_of_not_mem hdir, List.filter_cons_of_pos (by simpa using hne)]

theorem rawComponents_dropWhile (path : Path) :
    rawComponents (path.dropWhile (· = directorySeparator)) = rawComponents path := by
  induction path with
  | nil => rfl
  | cons c rest ih =>
    by_cases hc : c = directorySeparator
    · rw [List.dropWhile_cons_of_pos (by simpa using hc), ih, hc, rawComponents_separator]
    · rw [List.dropWhile_cons_of_neg (by simpa using hc)]

/-! ## One component -/

/-- What the stack holds: no separator and, where characters are checked, no byte that is refused. -/
def Clean (allowAllCharacters : Bool) (stack : List Path) : Prop :=
  ∀ c ∈ stack, directorySeparator ∉ c ∧ meets allowAllCharacters c = none

/-- How a run ends: at the table when the walk does, and never at another array. -/
def Outcome (o : NormalizeOptions) (touched : Bool) (run : Run (Path × Bool)) : Prop :=
  match touched with
  | true => ∃ i, run = .error (.outside .masks i)
  | false => (∃ e, run = .error (.failed e)) ∨ ∃ stack skip,
      Clean o.allowAllCharacters stack ∧ (rendered stack ++ pending skip).length < o.maxOutSize ∧
        run = .ok (rendered stack ++ pending skip, skip)

theorem outcome_failed (e : PathFailure) : Outcome o false (.error (.failed e)) :=
  Or.inl ⟨e, rfl⟩

theorem scanBack_eq {dst : Path} (hhead : dst[0]? = some directorySeparator) (t : Nat) :
    scanBack dst t = .ok (FileSys.scanBack dst t) := by
  induction t with
  | zero =>
    unfold scanBack FileSys.scanBack
    rw [if_pos hhead]
  | succ t ih =>
    unfold scanBack FileSys.scanBack
    by_cases hsep : dst[t + 1]? = some directorySeparator
    · rw [if_pos hsep, if_pos hsep]
    · rw [if_neg hsep, if_neg hsep, ih]
      by_cases ht : t = 0
      · rw [if_pos ht, ht]
        rfl
      · rw [if_neg ht]

theorem rendered_getElem?_zero (stack : List Path) :
    (rendered stack ++ [directorySeparator])[0]? = some directorySeparator := by
  cases stack <;> simp [rendered]

theorem pop_eq {o : NormalizeOptions} (hstack : Clean o.allowAllCharacters stack) (hne : stack ≠ []) :
    scanBack (rendered stack ++ [directorySeparator])
        ((rendered stack ++ [directorySeparator]).length - 2) =
      .ok (FileSys.scanBack (rendered stack ++ [directorySeparator])
        ((rendered stack ++ [directorySeparator]).length - 2)) ∧
    (rendered stack ++ [directorySeparator]).take
        (FileSys.scanBack (rendered stack ++ [directorySeparator])
          ((rendered stack ++ [directorySeparator]).length - 2)) = rendered stack.dropLast := by
  refine ⟨scanBack_eq (rendered_getElem?_zero stack) _, ?_⟩
  rcases List.eq_nil_or_concat' stack with rfl | ⟨stack', c, rfl⟩
  · exact absurd rfl hne
  · rw [List.dropLast_concat]; exact take_scanBack (hstack c (by simp)).1

theorem length_rendered_dropLast (stack : List Path) :
    (rendered stack.dropLast).length ≤ (rendered stack).length := by
  rcases List.eq_nil_or_concat' stack with rfl | ⟨stack', c, rfl⟩
  · exact Nat.le_refl _
  · simp

/-- **One component**, behind a separator for which there was room. -/
theorem component_bounded {dir rest : Path} (hdir : directorySeparator ∉ dir) (hne : dir ≠ [])
    (hrest : AtEnd rest) (hbytes : ByteString dir) (hstack : Clean o.allowAllCharacters stack)
    (hroom : (rendered stack).length + 1 < o.maxOutSize) (loop : Path → Bool → Run (Path × Bool))
    (ih : ∀ stack' skip, Clean o.allowAllCharacters stack' →
      (rendered stack' ++ pending skip).length < o.maxOutSize →
      Outcome o (touches o stack' skip (rawComponents rest))
        (loop (rendered stack' ++ pending skip) skip)) :
    Outcome o (touches o stack true (rawComponents (dir ++ rest)))
      (match handleComponent o (dir ++ rest) (rendered stack ++ [directorySeparator]) false with
        | .error stop => .error stop
        | .ok (dst', skip') => loop dst' skip') := by
  have hcheck := checkComponent_eq o.allowAllCharacters hbytes
  have hlength : (rendered stack ++ [directorySeparator]).length = (rendered stack).length + 1 := by
    simp
  rw [rawComponents_append hdir hne hrest, touches, if_neg (by simp)]
  unfold handleComponent
  simp only [takeWhile_component hdir hrest]
  cases hmeets : meets o.allowAllCharacters dir with
  | some high =>
    rw [hmeets] at hcheck
    cases high with
    | true =>
      obtain ⟨i, hi⟩ := hcheck
      rw [hi]; exact ⟨i, rfl⟩
    | false =>
      dsimp only at hcheck
      rw [hcheck]; exact outcome_failed o _
  | none =>
    rw [hmeets] at hcheck
    dsimp only at hcheck ⊢
    rw [hcheck]
    dsimp only
    by_cases hcur : dir = currentComponent
    · rw [if_pos hcur, if_pos ((isCurrentDirectory_component hdir hne hrest).mpr hcur)]
      exact ih stack true hstack (by simpa [pending] using hroom)
    rw [if_neg hcur, if_neg (fun h => hcur ((isCurrentDirectory_component hdir hne hrest).mp h))]
    by_cases hparent : dir = parentComponent
    · rw [if_pos hparent, if_pos ((isParentDirectory_component hdir hne hrest).mpr hparent)]
      by_cases hroot : stack = [] ∧ o.isWindowsPath = false
      · rw [if_pos hroot, hlength, if_neg (by omega), hroot.1, hroot.2, if_pos (by simp),
          if_neg (by decide)]
        exact outcome_failed o _
      rw [if_neg hroot, hlength, if_neg (by omega)]
      by_cases hnil : stack = []
      · have hwindows : o.isWindowsPath = true := by
          cases hw : o.isWindowsPath with
          | false => exact absurd ⟨hnil, hw⟩ hroot
          | true => rfl
        rw [hnil, hwindows, if_pos (by simp), if_pos rfl]
        have := ih [] false (fun c hc => absurd hc (by simp)) (by simp [pending]; omega)
        simpa [pending] using this
      · have hpos : (rendered stack).length ≠ 0 := by
          cases stack with
          | nil => exact absurd rfl hnil
          | cons c stack => simp [rendered]
        obtain ⟨hscan, htake⟩ := pop_eq hstack hnil
        rw [hlength] at hscan htake
        rw [if_neg (by omega), hscan]
        dsimp only
        rw [htake]
        have := ih stack.dropLast false (fun c hc => hstack c (List.mem_of_mem_dropLast hc))
          (by have := length_rendered_dropLast stack; simp [pending]; omega)
        simpa [pending] using this
    · rw [if_neg hparent,
        if_neg (fun h => hparent ((isParentDirectory_component hdir hne hrest).mp h)), hlength]
      by_cases hlong : o.maxOutSize < (rendered stack).length + 1 + dir.length + 1
      · rw [if_pos hlong, if_pos hlong, storeAll_eq _ _ (by simp; omega)]
        dsimp only
        rw [terminate_eq (by simp; omega)]
        exact outcome_failed o _
      · rw [if_neg hlong, if_neg hlong, storeAll_eq _ _ (by simp; omega)]
        have hstack' : Clean o.allowAllCharacters (stack ++ [dir]) := by
          intro c hc
          rcases List.mem_append.mp hc with hc | hc
          · exact hstack c hc
          · rw [List.mem_singleton.mp hc]; exact ⟨hdir, hmeets⟩
        have := ih (stack ++ [dir]) false hstack' (by simp [pending]; omega)
        simpa [pending] using this

/-! ## The loop -/

theorem writeSeparator_eq {skip : Bool} (hroom : (rendered stack ++ pending skip).length < o.maxOutSize) :
    writeSeparator o (rendered stack ++ pending skip) skip =
      if skip = false ∧ (rendered stack).length + 1 = o.maxOutSize then
        .error (.failed (.tooLongPath (some (rendered stack))))
      else .ok (rendered stack ++ [directorySeparator]) := by
  cases skip with
  | true =>
    rw [if_neg (by simp)]; rfl
  | false =>
    have hnone : rendered stack ++ pending false = rendered stack := List.append_nil _
    rw [hnone] at hroom ⊢
    unfold writeSeparator
    rw [if_neg (by decide)]
    by_cases hfull : (rendered stack).length + 1 = o.maxOutSize
    · rw [if_pos hfull, if_pos ⟨rfl, hfull⟩, terminate_eq hroom]
    · rw [if_neg hfull, if_neg (fun h => hfull h.2)]
      unfold store
      rw [if_pos hroom, List.take_length, List.drop_eq_nil_of_le (by omega)]

theorem touches_separator {skip : Bool} {c : Path} {cs : List Path}
    (hfits : ¬ (skip = false ∧ (rendered stack).length + 1 = o.maxOutSize)) :
    touches o stack skip (c :: cs) = touches o stack true (c :: cs) := by
  have hskipped : ¬ (¬ true = true ∧ (rendered stack).length + 1 = o.maxOutSize) := fun h => h.1 rfl
  have hfits' : ¬ (¬ skip = true ∧ (rendered stack).length + 1 = o.maxOutSize) := by
    simpa using hfits
  unfold touches
  rw [if_neg hfits', if_neg hskipped]

/-- **The loop follows the walk**, and only the table can be left. -/
theorem normalizeLoop_bounded : ∀ (fuel : Nat) (cur : Path)
    (stack : List Path) (skip : Bool), AtEnd cur → cur.length ≤ fuel → ByteString cur →
      Clean o.allowAllCharacters stack → (rendered stack ++ pending skip).length < o.maxOutSize →
      Outcome o (touches o stack skip (rawComponents cur))
        (normalizeLoop o fuel cur (rendered stack ++ pending skip) skip) := by
  intro fuel
  induction fuel with
  | zero =>
    intro cur stack skip _ hfuel _ hstack hroom
    have hnil : cur = [] := List.length_eq_zero_iff.mp (by omega)
    rw [hnil, rawComponents_nil]; exact Or.inr ⟨stack, skip, hstack, hroom, rfl⟩
  | succ fuel ih =>
    intro cur stack skip hcur hfuel hbytes hstack hroom
    unfold normalizeLoop
    by_cases hnil : cur = []
    · rw [if_pos hnil, hnil, rawComponents_nil]; exact Or.inr ⟨stack, skip, hstack, hroom, rfl⟩
    rw [if_neg hnil, if_pos (hcur.resolve_left hnil)]
    obtain ⟨hdropped, hnosep⟩ := hcur.dropped hnil
    have hbytes' : ByteString (cur.dropWhile (· = directorySeparator)) := by
      intro c hc; exact hbytes c ((List.dropWhile_suffix _).subset hc)
    rw [← rawComponents_dropWhile cur]
    generalize cur.dropWhile (· = directorySeparator) = cur' at hdropped hnosep hbytes'
    by_cases hend : cur' = []
    · simp only [if_pos hend]
      rw [hend, rawComponents_nil]; exact Or.inr ⟨stack, skip, hstack, hroom, rfl⟩
    simp only [if_neg hend]
    obtain ⟨dir, rest, hsplit, hne, hdir, hrest⟩ := exists_component hend hnosep
    have hlen : cur'.length = dir.length + rest.length := by rw [hsplit, List.length_append]
    have hpos : dir.length ≠ 0 := fun h => hne (List.length_eq_zero_iff.mp h)
    rw [hsplit] at hbytes'
    rw [hsplit, writeSeparator_eq o hroom]
    by_cases hfull : skip = false ∧ (rendered stack).length + 1 = o.maxOutSize
    · -- The separator does not fit, and the walk ends before the component.
      rw [if_pos hfull, rawComponents_append hdir hne hrest, touches, if_pos (by simpa using hfull)]
      exact outcome_failed o _
    · have hwalk : touches o stack skip (rawComponents (dir ++ rest)) =
          touches o stack true (rawComponents (dir ++ rest)) := by
        rw [rawComponents_append hdir hne hrest]; exact touches_separator o hfull
      have hroom' : (rendered stack).length + 1 < o.maxOutSize := by
        rw [List.length_append] at hroom
        cases skip with
        | true => exact hroom
        | false =>
          have : (rendered stack).length + 1 ≠ o.maxOutSize := fun h => hfull ⟨rfl, h⟩
          have : (pending false).length = 0 := rfl
          omega
      rw [if_neg hfull, hwalk]
      dsimp only
      rw [dropWhile_component hdir hrest]
      apply component_bounded o hdir hne hrest (fun c hc => hbytes' c (by simp [hc])) hstack hroom'
        (fun dst' skip' => normalizeLoop o fuel rest dst' skip')
      intro stack' skip' hstack' hroom''
      exact ih rest stack' skip' hrest (by omega) (fun c hc => hbytes' c (by simp [hc])) hstack'
        hroom''

/-! ## The acceptor -/

section Acceptor

variable {path : Path} {state : PathState}

theorem isNormalizedLoop_low {c : Char} (hc : c.toNat < 0x100) (hlow : isHigh c = false)
    (rest : Path) :
    isNormalizedLoop false state (c :: rest) =
      if state ≠ .start ∧ StringTraits.isInvalidCharacter c then .error (.failed .invalidCharacter)
      else
        match state.process c with
        | .error e => .error (.failed e)
        | .ok none => .ok none
        | .ok (some state') => isNormalizedLoop false state' rest := by
  rw [isNormalizedLoop, Bool.false_or]
  by_cases hstart : state = .start
  · rw [hstart, if_neg (fun h => h.1 rfl)]
    rfl
  · have hstate : (state == PathState.start) = false := by
      cases state <;> first | rfl | exact absurd rfl hstart
    rw [hstate, checkCharacter_low hc hlow]
    by_cases hinvalid : StringTraits.isInvalidCharacter c = true
    · rw [if_pos hinvalid, if_pos ⟨hstart, hinvalid⟩]
    · rw [if_neg hinvalid, if_neg (fun h => hinvalid h.2)]

theorem isNormalizedLoop_append {head : Path} (hbytes : ByteString head)
    (hlow : ∀ x ∈ head, isHigh x = false) (tail : Path) : ∀ state : PathState,
    isNormalizedLoop false state (head ++ tail) =
      match FileSys.isNormalizedLoop false state head with
      | .error e => .error (.failed e)
      | .ok none => .ok none
      | .ok (some state') => isNormalizedLoop false state' tail := by
  induction head with
  | nil =>
    intro state; rfl
  | cons c head ih =>
    intro state
    have ih := ih (fun x hx => hbytes x (List.mem_cons_of_mem c hx))
      (fun x hx => hlow x (List.mem_cons_of_mem c hx))
    rw [List.cons_append, isNormalizedLoop_low (hbytes c (by simp)) (hlow c (by simp)),
      FileSys.isNormalizedLoop]
    by_cases hrefused : state ≠ .start ∧ StringTraits.isInvalidCharacter c
    · rw [if_pos hrefused, if_pos (by simpa using hrefused)]
    · rw [if_neg hrefused, if_neg (by simpa using hrefused)]
      cases hstep : state.process c with
      | error e => rfl
      | ok next =>
        cases next with
        | none => rfl
        | some state' => exact ih state'

theorem exists_first_high (path : Path) :
    (∀ x ∈ path, isHigh x = false) ∨ ∃ head c tail, path = head ++ c :: tail ∧
      (∀ x ∈ head, isHigh x = false) ∧ isHigh c = true := by
  induction path with
  | nil => exact Or.inl fun x hx => absurd hx (by simp)
  | cons c path ih =>
    cases hc : isHigh c with
    | true => exact Or.inr ⟨[], c, path, rfl, fun x hx => absurd hx (by simp), hc⟩
    | false =>
      rcases ih with hall | ⟨head, c', tail, hpath, hhead, hhigh⟩
      · left
        intro x hx
        rcases List.mem_cons.mp hx with rfl | hx
        · exact hc
        · exact hall x hx
      · right
        refine ⟨c :: head, c', tail, by rw [hpath]; rfl, ?_, hhigh⟩
        intro x hx
        rcases List.mem_cons.mp hx with rfl | hx
        · exact hc
        · exact hhead x hx

theorem isNormalized_inside {allowAllCharacters : Bool}
    (h : Inside (isNormalizedLoop allowAllCharacters .start path)) :
    Inside (isNormalized path allowAllCharacters) := by
  intro table index
  unfold isNormalized
  cases hrun : isNormalizedLoop allowAllCharacters .start path with
  | error stop =>
    intro hstop; exact h table index (hrun.trans (congrArg Except.error (Except.error.inj hstop)))
  | ok next =>
    cases next with
    | none => exact fun hstop => absurd hstop (by simp)
    | some state => cases state <;> exact fun hstop => absurd hstop (by simp)

theorem isNormalizedLoop_unchecked : ∀ (path : Path) (state : PathState),
    Inside (isNormalizedLoop true state path) := by
  intro path
  induction path with
  | nil => exact fun state table index h => absurd h (by simp [isNormalizedLoop])
  | cons c path ih =>
    intro state table index
    have hcheck : checkCharacter (true || state == .start) c = .ok () := rfl
    rw [isNormalizedLoop, hcheck]
    dsimp only
    cases state.process c with
    | error e => simp
    | ok next =>
      cases next with
      | none => simp
      | some state' => exact ih state' table index

theorem isNormalizedLoop_of_low (hbytes : ByteString path) (hlow : ∀ x ∈ path, isHigh x = false)
    (state : PathState) : Inside (isNormalizedLoop false state path) := by
  intro table index
  have happend := isNormalizedLoop_append hbytes hlow [] state
  rw [List.append_nil] at happend
  rw [happend]
  cases FileSys.isNormalizedLoop false state path with
  | error e => simp
  | ok next => cases next <;> simp [isNormalizedLoop]

theorem isNormalized_of_low {allowAllCharacters : Bool} (hbytes : ByteString path)
    (hlow : allowAllCharacters = true ∨ ∀ x ∈ path, isHigh x = false) :
    Inside (isNormalized path allowAllCharacters) := by
  apply isNormalized_inside
  cases allowAllCharacters with
  | true => exact isNormalizedLoop_unchecked path .start
  | false =>
    exact isNormalizedLoop_of_low hbytes (hlow.resolve_left (by decide)) .start

theorem isNormalizedLoop_high {c : Char} (hc : c.toNat < 0x100) (hhigh : isHigh c = true)
    (tail : Path) : (∃ table i, isNormalizedLoop false state (c :: tail) = .error (.outside table i)) ↔
      state ≠ .start := by
  have hsep : c ≠ directorySeparator := by
    rintro rfl; exact absurd hhigh (by decide)
  constructor
  · rintro ⟨table, i, h⟩ rfl
    have hcheck : checkCharacter (false || PathState.start == .start) c = .ok () := rfl
    rw [isNormalizedLoop, hcheck] at h
    dsimp only at h
    unfold PathState.process at h
    dsimp only at h
    rw [if_neg hsep] at h
    exact absurd h (by simp)
  · intro hstate
    have hfalse : (state == PathState.start) = false := by
      cases state <;> first | rfl | exact absurd rfl hstate
    refine ⟨.masks, maskIndex c, ?_⟩
    rw [isNormalizedLoop, Bool.false_or, hfalse, checkCharacter_high hc hhigh]

theorem plainLoop_append (head tail : Path) : ∀ state : PathState,
    FileSys.isNormalizedLoop false state (head ++ tail) =
      match FileSys.isNormalizedLoop false state head with
      | .error e => .error e
      | .ok none => .ok none
      | .ok (some state') => FileSys.isNormalizedLoop false state' tail := by
  induction head with
  | nil =>
    intro state; rfl
  | cons c head ih =>
    intro state
    rw [List.cons_append, FileSys.isNormalizedLoop, FileSys.isNormalizedLoop]
    split
    · rfl
    · cases hstep : state.process c with
      | error e => rfl
      | ok next =>
        cases next with
        | none => rfl
        | some state' => exact ih state'

theorem plainLoop_letter (state : PathState) :
    FileSys.isNormalizedLoop false state ['x'] =
      if state = .start then .error .invalidPathFormat else .ok (some .normal) := by
  cases state <;> decide

theorem plainLoop_head_iff (head : Path) :
    (∃ state, state ≠ .start ∧ FileSys.isNormalizedLoop false .start head = .ok (some state)) ↔
      ∃ stack, head ++ ['x'] = joined stack ∧ ∀ c ∈ stack, Proper c ∧ Allowed false c := by
  have happend := plainLoop_append head ['x'] .start
  constructor
  · rintro ⟨state, hstate, hrun⟩
    rw [hrun] at happend
    dsimp only at happend
    rw [plainLoop_letter, if_neg hstate] at happend
    have haccepted : FileSys.isNormalized (head ++ ['x']) false =
        .ok (true, some (head ++ ['x']).length) := by
      unfold FileSys.isNormalized
      rw [happend]
    exact exists_joined_of_isNormalized haccepted
  · rintro ⟨stack, hjoined, hstack⟩
    have haccepted := isNormalized_joined hstack
    rw [← hjoined] at haccepted
    have hrun := accepting_of_isNormalized haccepted
    rw [happend] at hrun
    cases hhead : FileSys.isNormalizedLoop false .start head with
    | error e =>
      rw [hhead] at hrun; exact absurd hrun (by simp [Accepting])
    | ok next =>
      rw [hhead] at hrun
      cases next with
      | none => exact absurd hrun (by simp [Accepting])
      | some state =>
        refine ⟨state, ?_, rfl⟩
        rintro rfl
        dsimp only at hrun
        rw [plainLoop_letter, if_pos rfl] at hrun
        exact absurd hrun (by simp [Accepting])

/-- **The acceptor.** -/
theorem isNormalized_inside_iff (hbytes : ByteString path) (allowAllCharacters : Bool) :
    Inside (isNormalized path allowAllCharacters) ↔
      ¬ (allowAllCharacters = false ∧ AcceptorReaches path) := by
  constructor
  · rintro hinside ⟨rfl, head, c, tail, rfl, hlow, hhigh, hnormalized⟩
    obtain ⟨state, hstate, hrun⟩ := (plainLoop_head_iff head).mpr hnormalized
    have hloop := isNormalizedLoop_append (fun x hx => hbytes x (by simp [hx])) hlow (c :: tail)
      .start
    rw [hrun] at hloop
    dsimp only at hloop
    obtain ⟨table, i, houtside⟩ := (isNormalizedLoop_high (hbytes c (by simp)) hhigh tail).mpr hstate
    apply hinside table i
    unfold isNormalized
    rw [hloop, houtside]
  · intro hreaches
    rcases exists_first_high path with hlow | ⟨head, c, tail, rfl, hlow, hhigh⟩
    · exact isNormalized_of_low hbytes (Or.inr hlow)
    cases allowAllCharacters with
    | true => exact isNormalized_of_low hbytes (Or.inl rfl)
    | false =>
      apply isNormalized_inside
      intro table i houtside
      rw [isNormalizedLoop_append (fun x hx => hbytes x (by simp [hx])) hlow] at houtside
      cases hhead : FileSys.isNormalizedLoop false .start head with
      | error e =>
        rw [hhead] at houtside; exact absurd houtside (by simp)
      | ok next =>
        rw [hhead] at houtside
        cases next with
        | none => exact absurd houtside (by simp)
        | some state =>
          have hstate := (isNormalizedLoop_high (hbytes c (by simp)) hhigh tail).mp
            ⟨table, i, houtside⟩
          exact hreaches ⟨rfl, head, c, tail, rfl, hlow, hhigh,
            (plainLoop_head_iff head).mp ⟨state, hstate, hhead⟩⟩

end Acceptor

/-! ## The whole call -/

/-- A byte string that begins with a separator. -/
def Rooted (path : Path) : Prop := path.head? = some directorySeparator ∧ ByteString path

theorem Rooted.append {path : Path} (h : Rooted path) {more : Path} (hmore : ByteString more) :
    Rooted (path ++ more) := by
  constructor
  · cases path with
    | nil => exact absurd h.1 (by simp)
    | cons c path => exact h.1
  · intro c hc
    rcases List.mem_append.mp hc with hc | hc
    · exact h.2 c hc
    · exact hmore c hc

theorem Rooted.set (h : Rooted path) (i : Nat) : Rooted (path.set i directorySeparator) := by
  constructor
  · cases path with
    | nil => exact absurd h.1 (by simp)
    | cons c path =>
      cases i with
      | zero => rfl
      | succ i => exact h.1
  · intro c hc
    rcases List.mem_or_eq_of_mem_set hc with hc | rfl
    · exact h.2 c hc
    · decide

theorem replaceLoop_rooted {src : Path} (hbytes : ByteString src) : ∀ (fuel i : Nat) (dst : Path),
    Rooted dst → Rooted (FileSys.replaceLoop src fuel i dst) := by
  intro fuel
  induction fuel with
  | zero => exact fun i dst h => h
  | succ fuel ih =>
    intro i dst h
    unfold FileSys.replaceLoop
    split
    · exact h
    split
    · apply ih
      exact (h.set (i - 1)).append (by simp [ByteString, dot, directorySeparator])
    split
    · exact (h.set (i - 1)).append (by simp [ByteString, dot])
    · apply ih
      apply h.append
      intro c hc
      rw [Option.mem_toList] at hc; exact hbytes c (List.mem_of_getElem? hc)

theorem replacedPath_rooted (hbytes : ByteString path)
    (hneeded : isParentDirectoryPathReplacementNeeded path = true) : Rooted (replacedPath path) := by
  unfold replacedPath
  rw [if_pos hneeded]
  apply replaceLoop_rooted hbytes
  exact ⟨rfl, by simp [ByteString, directorySeparator]⟩

theorem replacedPath_bytes (hbytes : ByteString path) : ByteString (replacedPath path) := by
  by_cases hneeded : isParentDirectoryPathReplacementNeeded path = true
  · exact (replacedPath_rooted hbytes hneeded).2
  · unfold replacedPath
    rw [if_neg hneeded]; exact hbytes

section Call

variable {path : Path} {o : NormalizeOptions}

theorem low_of_meets {c : Path} (h : meets false c = none) : ∀ x ∈ c, isHigh x = false := by
  intro x hx
  unfold meets at h
  rw [if_neg (by decide), Option.map_eq_none_iff, List.find?_eq_none] at h
  have := h x hx
  rw [Bool.or_eq_true, not_or] at this
  simpa using this.1

theorem bytes_of_low {path : Path} (h : ∀ x ∈ path, isHigh x = false) : ByteString path := by
  intro x hx
  have := h x hx
  simp only [isHigh, decide_eq_false_iff_not] at this
  omega

theorem isNormalized_rendered {allowAllCharacters : Bool} {stack : List Path}
    (hstack : Clean allowAllCharacters stack) {out : Path}
    (hout : ∀ x ∈ out, x = directorySeparator ∨ ∃ c ∈ stack, x ∈ c) :
    Inside (isNormalized out allowAllCharacters) := by
  cases allowAllCharacters with
  | true => exact isNormalized_inside (isNormalizedLoop_unchecked out .start)
  | false =>
    have hlow : ∀ x ∈ out, isHigh x = false := by
      intro x hx
      rcases hout x hx with rfl | ⟨c, hc, hxc⟩
      · decide
      · exact low_of_meets (hstack c hc).2 x hxc
    exact isNormalized_of_low (bytes_of_low hlow) (Or.inr hlow)

theorem mem_rendered {stack : List Path} {x : Char} (hx : x ∈ rendered stack) :
    x = directorySeparator ∨ ∃ c ∈ stack, x ∈ c := by
  unfold rendered at hx
  rw [List.mem_flatMap] at hx
  obtain ⟨c, hc, hx⟩ := hx
  rcases List.mem_cons.mp hx with hx | hx
  · exact Or.inl hx
  · exact Or.inr ⟨c, hc, hx⟩

/-- **The end of the call** stays inside: the terminator has room. -/
theorem finishNormalize_inside {stack : List Path} (skip : Bool) (hout : 2 ≤ o.maxOutSize)
    (hstack : Clean o.allowAllCharacters stack)
    (hroom : (rendered stack ++ pending skip).length < o.maxOutSize) :
    Inside (finishNormalize o (rendered stack ++ pending skip) skip) := by
  have htrimmed : (if skip then (rendered stack ++ pending skip).dropLast
      else rendered stack ++ pending skip) = rendered stack := by
    cases skip <;> simp [pending]
  have hle : (rendered stack).length < o.maxOutSize := by
    rw [List.length_append] at hroom; omega
  have hstored : (if rendered stack = [] ∧ o.maxOutSize ≠ 0 then
      store .dst o.maxOutSize (rendered stack) 0 directorySeparator else .ok (rendered stack)) =
        (.ok (if rendered stack = [] then [directorySeparator] else rendered stack) : Run Path) := by
    by_cases hnil : rendered stack = []
    · rw [if_pos ⟨hnil, by omega⟩, if_pos hnil, hnil]
      unfold store
      rw [if_pos (by omega)]
      rfl
    · rw [if_neg (fun h => hnil h.1), if_neg hnil]
  unfold finishNormalize
  simp only [htrimmed, hstored]
  generalize hresult : (if rendered stack = [] then [directorySeparator] else rendered stack) = out
  have hlength : out.length < o.maxOutSize := by
    rw [← hresult]
    split
    · exact Nat.lt_of_lt_of_le (by decide : 1 < 2) hout
    · exact hle
  have hmem : ∀ x ∈ out, x = directorySeparator ∨ ∃ c ∈ stack, x ∈ c := by
    intro x hx
    rw [← hresult] at hx
    split at hx
    · exact Or.inl (List.mem_singleton.mp hx)
    · exact mem_rendered hx
  intro table index
  by_cases hlong : out = [] ∨ o.maxOutSize < out.length - 1
  · rw [if_pos hlong]
    simp
  · rw [if_neg hlong, terminate_eq hlength]
    have hinside := isNormalized_rendered hstack hmem table index
    dsimp only
    cases hrun : isNormalized out o.allowAllCharacters with
    | error stop =>
      rw [hrun] at hinside; exact fun h => hinside (congrArg Except.error (Except.error.inj h))
    | ok _ => simp

theorem outcome_initial (hbytes : ByteString path) (hout : 2 ≤ o.maxOutSize) :
    Outcome o (touches o (initialStack path).1 (initialStack path).2
        (rawComponents (replacedPath path)))
      (normalizeLoop o (replacedPath path).length (replacedPath path)
        (if path.head? = some directorySeparator then [] else [directorySeparator]) false) := by
  have hcurBytes := replacedPath_bytes hbytes
  unfold initialStack
  by_cases hhead : path.head? = some directorySeparator
  · have hcur : AtEnd (replacedPath path) := by
      by_cases hneeded : isParentDirectoryPathReplacementNeeded path = true
      · exact Or.inr (replacedPath_rooted hbytes hneeded).1
      · unfold replacedPath
        rw [if_neg hneeded]; exact Or.inr hhead
    rw [if_pos hhead, if_pos hhead]
    have := normalizeLoop_bounded o (replacedPath path).length (replacedPath path) [] false hcur
      (Nat.le_refl _) hcurBytes (fun c hc => absurd hc (by simp)) (by simp [pending]; omega)
    simpa [pending] using this
  rw [if_neg hhead, if_neg hhead]
  by_cases hcur : replacedPath path = [] ∨ (replacedPath path).head? = some directorySeparator
  · -- The separator that is there already closes an empty component.
    rw [if_pos hcur]
    have hclean : Clean o.allowAllCharacters [[]] := by
      intro c hc
      rw [List.mem_singleton.mp hc]; exact ⟨by simp, by unfold meets; split <;> rfl⟩
    have := normalizeLoop_bounded o (replacedPath path).length (replacedPath path) [[]] false hcur
      (Nat.le_refl _) hcurBytes hclean (by simp [pending]; omega)
    simpa [pending, rendered] using this
  · rw [if_neg hcur]
    rw [not_or] at hcur
    obtain ⟨dir, rest, hsplit, hne, hdir, hrest⟩ := exists_component hcur.1 hcur.2
    have hlen : (replacedPath path).length = dir.length + rest.length := by
      rw [hsplit, List.length_append]
    have hpos : dir.length ≠ 0 := fun h => hne (List.length_eq_zero_iff.mp h)
    obtain ⟨fuel, hfuel⟩ : ∃ fuel, (replacedPath path).length = fuel + 1 :=
      ⟨(replacedPath path).length - 1, by omega⟩
    rw [hfuel]
    unfold normalizeLoop
    rw [if_neg hcur.1, if_neg hcur.2]
    rw [hsplit] at hcurBytes
    rw [hsplit, dropWhile_component hdir hrest]
    apply component_bounded o hdir hne hrest (fun c hc => hcurBytes c (by simp [hc]))
      (fun c hc => absurd hc (by simp)) (by simp; omega)
      (fun dst' skip' => normalizeLoop o fuel rest dst' skip')
    intro stack' skip' hstack' hroom'
    exact normalizeLoop_bounded o fuel rest stack' skip' hrest (by omega)
      (fun c hc => hcurBytes c (by simp [hc])) hstack' hroom'

/-- **The normalizer** leaves the table at a high byte that it reaches, and no other array. -/
theorem normalize_outside_iff (hbytes : ByteString path) (hlen : path.length ≤ entryNameLengthMax)
    (hout : 2 ≤ o.maxOutSize) :
    (NormalizerReaches path o → ∃ i, normalize path o = .error (.outside .masks i)) ∧
      (¬ NormalizerReaches path o → Inside (normalize path o)) := by
  unfold NormalizerReaches normalize
  by_cases hrefused : path.head? ≠ some directorySeparator ∧ ¬ o.isDriveRelativePath
  · rw [if_pos hrefused]
    constructor
    · rintro ⟨hhead | hdrive, -⟩
      · exact absurd hhead hrefused.1
      · exact absurd hdrive hrefused.2
    · intro _ table index; simp
  rw [if_neg hrefused]
  have hentered : path.head? = some directorySeparator ∨ o.isDriveRelativePath = true := by
    by_contra h
    rw [not_or] at h; exact hrefused h
  have hfirst : (if path.head? = some directorySeparator then .ok []
      else store .dst o.maxOutSize [] 0 directorySeparator) =
        (.ok (if path.head? = some directorySeparator then [] else [directorySeparator]) :
          Run Path) := by
    split
    · rfl
    · unfold store
      rw [if_pos (by omega)]; rfl
  rw [hfirst, replaced_eq hlen]
  dsimp only
  have houtcome := outcome_initial hbytes hout
  cases htouched : touches o (initialStack path).1 (initialStack path).2
      (rawComponents (replacedPath path)) with
  | true =>
    rw [htouched] at houtcome
    obtain ⟨i, hi⟩ := houtcome
    rw [hi]; exact ⟨fun _ => ⟨i, rfl⟩, fun h => absurd ⟨hentered, rfl⟩ h⟩
  | false =>
    rw [htouched] at houtcome
    refine ⟨fun h => absurd h.2 (by decide), fun _ table index => ?_⟩
    rcases houtcome with ⟨e, he⟩ | ⟨stack, skip, hstack, hroom, hrun⟩
    · rw [he]
      simp
    · rw [hrun]; exact finishNormalize_inside skip hout hstack hroom table index

end Call

/-! ## The result -/

/-- **Where the arrays are left.**  On a byte string that fits an entry name, with room for a
    character and the terminator, an index is outside exactly where one of the two functions brings a
    byte from 0x80 on to the table of characters; neither the buffer of the replacement nor `dst` is
    ever left. -/
theorem accesses_inside_iff (path : Path) (o : NormalizeOptions)
    (hbytes : ∀ c ∈ path, 0 < c.toNat ∧ c.toNat < 0x100)
    (hlen : path.length ≤ entryNameLengthMax) (hout : 2 ≤ o.maxOutSize) :
    (Inside (isNormalized path o.allowAllCharacters) ∧ Inside (normalize path o) ↔
      ¬ HighByteReached path o) ∧
    ∀ table index, normalize path o = .error (.outside table index) → table = .masks := by
  have hstring : ByteString path := fun c hc => (hbytes c hc).2
  obtain ⟨houtside, hinside⟩ := normalize_outside_iff hstring hlen hout
  have hacceptor := isNormalized_inside_iff hstring o.allowAllCharacters
  constructor
  · unfold HighByteReached
    rw [not_or, hacceptor]
    constructor
    · rintro ⟨haccepted, hnormalized⟩
      refine ⟨haccepted, fun hreaches => ?_⟩
      obtain ⟨i, hi⟩ := houtside hreaches
      exact hnormalized _ _ hi
    · rintro ⟨haccepted, hreaches⟩; exact ⟨haccepted, hinside hreaches⟩
  · intro table index hstop
    by_cases hreaches : NormalizerReaches path o
    · obtain ⟨i, hi⟩ := houtside hreaches
      rw [hi] at hstop
      injection hstop with hstop
      injection hstop with htable
      exact htable.symm
    · exact absurd hstop (hinside hreaches table index)

/-- `/a/../b` has no byte from 0x80 on. -/
theorem accesses_inside_ascii :
    Inside (isNormalized ['/', 'a', '/', '.', '.', '/', 'b'] false) ∧
      Inside (normalize ['/', 'a', '/', '.', '.', '/', 'b'] ⟨8, false, false, false⟩) := by
  have hbytes : ∀ c ∈ ['/', 'a', '/', '.', '.', '/', 'b'], 0 < c.toNat ∧ c.toNat < 0x100 := by
    simp
  apply ((accesses_inside_iff ['/', 'a', '/', '.', '.', '/', 'b'] ⟨8, false, false, false⟩ hbytes
    (by decide) (by decide)).1).mpr
  rintro (⟨-, head, c, tail, hpath, -, hhigh, -⟩ | ⟨-, htouched⟩)
  · have hlow : ∀ x ∈ ['/', 'a', '/', '.', '.', '/', 'b'], isHigh x = false := by simp [isHigh]
    rw [hlow c (by rw [hpath]; simp)] at hhigh
    exact absurd hhigh (by decide)
  · exact absurd htouched (by decide)

/-- `/é` in UTF-8: the first byte of the letter is the `char` -61, and its index is 2 ^ 58 - 1. -/
theorem not_accesses_inside :
    isNormalized ['/', Char.ofNat 0xC3, Char.ofNat 0xA9] false =
        .error (.outside .masks (2 ^ 58 - 1)) ∧
      normalize ['/', Char.ofNat 0xC3, Char.ofNat 0xA9] ⟨0x301, false, false, false⟩ =
        .error (.outside .masks (2 ^ 58 - 1)) := by
  constructor <;> decide +kernel

end Suyu.FileSys.PathBounds
