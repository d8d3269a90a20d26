import Mathlib

/-
  `IsParentDirectoryPathReplacementNeeded` and `ReplaceParentDirectoryPath`: before a path is
  normalized, a `..` that a backslash delimits becomes a component between slashes.

  A path is the list of its characters BEFORE the terminator, so that reading the terminator is
  reading `none` behind the end of the list.

  1. **Program** - `isParentDirectoryPathReplacementNeeded` slides a window of four characters over
     the path; `replaceParentDirectoryPath` copies it, one character or one whole window at a time,
     and writes the separator BEFORE a window a second time.

  2. **Specification (`turnParents`)** - position by position: a separator directly before or directly
     behind a delimited `..` (`parentAt`) reads `/`, every other character stays.

  3. **The crux (`ReplaceInv`)** - the copy agrees with `turnParents` at every position but the last,
     where the separator that may still open a window waits to be written again, and no window
     straddles the position it has reached.
-/

namespace Suyu.FileSys

/-- The characters of a path before its terminator. -/
abbrev Path := List Char

namespace StringTraits

def directorySeparator : Char := '/'
def dot : Char := '.'
/-- The backslash. -/
def alternateDirectorySeparator : Char := Char.ofNat 92

end StringTraits

open StringTraits

/-! ## The program -/

/-- The character is `/` or a backslash. -/
def isSeparator (c : Char) : Bool :=
  c == directorySeparator || c == alternateDirectorySeparator

/-- `path[i]` is a separator. -/
def separatorAt (path : Path) (i : Nat) : Bool := (path[i]?).any isSeparator

/-- The `for` loop over the windows of four characters, and the test of the last three.  Inside the
    loop `c3` is never the terminator. -/
def replacementNeededLoop : Path → Bool
  | c0 :: c1 :: c2 :: c3 :: rest =>
    if c1 ≠ dot ∨ c2 ≠ dot then
      replacementNeededLoop (c1 :: c2 :: c3 :: rest)
    else if c0 = alternateDirectorySeparator ∧
        (c3 = directorySeparator ∨ c3 = alternateDirectorySeparator) then
      true
    else if c3 = alternateDirectorySeparator ∧
        (c0 = directorySeparator ∨ c0 = alternateDirectorySeparator) then
      true
    else
      replacementNeededLoop (c1 :: c2 :: c3 :: rest)
  | [c0, c1, c2] => c0 = alternateDirectorySeparator ∧ c1 = dot ∧ c2 = dot
  | _ => false

def isParentDirectoryPathReplacementNeeded (path : Path) : Bool :=
  if ¬ separatorAt path 0 then false
  else if path.length < 3 then false
  else replacementNeededLoop path

/-- The `while` loop of `ReplaceParentDirectoryPath`; `dst` holds the `i` characters written so far. -/
def replaceLoop (src : Path) : Nat → Nat → Path → Path
  | 0, _, dst => dst
  | fuel + 1, i, dst =>
    if src.length ≤ i then
      dst
    else if separatorAt src (i - 1) ∧ src[i]? = some dot ∧ src[i + 1]? = some dot ∧
        separatorAt src (i + 2) then
      replaceLoop src fuel (i + 3)
        (dst.set (i - 1) directorySeparator ++ [dot, dot, directorySeparator])
    else if src[i - 1]? = some alternateDirectorySeparator ∧ src[i]? = some dot ∧
        src[i + 1]? = some dot ∧ src[i + 2]? = none then
      dst.set (i - 1) directorySeparator ++ [dot, dot]
    else
      replaceLoop src fuel (i + 1) (dst ++ (src[i]?).toList)

def replaceParentDirectoryPath (src : Path) : Path :=
  replaceLoop src src.length 1 [directorySeparator]

/-! ## The specification -/

/-- A `..` with separators at both ends, or with one before it and the terminator behind it; `k` is
    the position of the separator before it. -/
def parentAt (path : Path) (k : Nat) : Bool :=
  separatorAt path k && path[k + 1]? == some dot && path[k + 2]? == some dot &&
    (separatorAt path (k + 3) || path[k + 3]? == none)

/-- The path whose delimited `..` all stand between slashes. -/
def turnParents (path : Path) : Path :=
  path.mapIdx fun i c =>
    if isSeparator c && (parentAt path i || (decide (3 ≤ i) && parentAt path (i - 3))) then
      directorySeparator
    else c

theorem turnParents_length (path : Path) : (turnParents path).length = path.length :=
  List.length_mapIdx

variable {i : Nat} {path src dst : Path}

theorem turnParents_getElem?_of_not_separator (h : separatorAt path i = false) :
    (turnParents path)[i]? = path[i]? := by
  unfold turnParents
  rw [List.getElem?_mapIdx]
  unfold separatorAt at h
  cases hc : path[i]? with
  | none => rfl
  | some c =>
    rw [hc] at h
    have hsep : isSeparator c = false := h
    simp [hsep]

theorem turnParents_getElem?_before (h : parentAt path i = true) :
    (turnParents path)[i]? = some directorySeparator := by
  have hsep : separatorAt path i = true := by
    simp only [parentAt, Bool.and_eq_true] at h; exact h.1.1.1
  unfold separatorAt at hsep
  unfold turnParents
  rw [List.getElem?_mapIdx]
  cases hc : path[i]? with
  | none => rw [hc] at hsep; simp at hsep
  | some c =>
    rw [hc] at hsep
    have hsep' : isSeparator c = true := hsep
    simp [hsep', h]

theorem turnParents_getElem?_behind (h : parentAt path i = true)
    (hsep : separatorAt path (i + 3) = true) :
    (turnParents path)[i + 3]? = some directorySeparator := by
  unfold separatorAt at hsep
  unfold turnParents
  rw [List.getElem?_mapIdx]
  cases hc : path[i + 3]? with
  | none => rw [hc] at hsep; simp at hsep
  | some c =>
    rw [hc] at hsep
    have hsep' : isSeparator c = true := hsep
    simp [hsep', h]

theorem turnParents_getElem?_away (hbefore : parentAt path i = false)
    (hbehind : 3 ≤ i → parentAt path (i - 3) = false) : (turnParents path)[i]? = path[i]? := by
  unfold turnParents
  rw [List.getElem?_mapIdx]
  have hfalse : (decide (3 ≤ i) && parentAt path (i - 3)) = false := by
    by_cases h3 : 3 ≤ i
    · simp [hbehind h3]
    · simp [h3]
  cases path[i]? with
  | none => rfl
  | some c => simp [hbefore, hfalse]

/-! ## The copy -/

theorem isSeparator_dot : isSeparator dot = false := by decide

theorem separatorAt_lt (h : separatorAt path i = true) : i < path.length := by
  by_contra hlt
  unfold separatorAt at h
  rw [List.getElem?_eq_none (by omega)] at h
  simp at h

theorem separatorAt_of_dot (h : path[i]? = some dot) : separatorAt path i = false := by
  unfold separatorAt
  rw [h]
  exact isSeparator_dot

theorem parentAt_iff {k : Nat} :
    parentAt path k = true ↔ separatorAt path k = true ∧ path[k + 1]? = some dot ∧
      path[k + 2]? = some dot ∧ (separatorAt path (k + 3) = true ∨ path[k + 3]? = none) := by
  simp only [parentAt, Bool.and_eq_true, Bool.or_eq_true, beq_iff_eq, and_assoc]

theorem eq_of_separatorAt {path : Path} {i : Nat} (h : separatorAt path i = true) :
    path[i]? = some directorySeparator ∨ path[i]? = some alternateDirectorySeparator := by
  unfold separatorAt at h
  cases hc : path[i]? with
  | none => rw [hc] at h; simp at h
  | some c =>
    rw [hc] at h
    have hsep : isSeparator c = true := h
    unfold isSeparator at hsep; simpa using hsep

/-- **What the loop keeps**: all characters but the last are final, the last is final unless it is a
    backslash before a `..`, and every whole window that began has been copied to its end. -/
structure ReplaceInv (src : Path) (i : Nat) (dst : Path) : Prop where
  pos : 1 ≤ i
  bound : i ≤ src.length
  length : dst.length = i
  copied : ∀ j, j + 1 < i → dst[j]? = (turnParents src)[j]?
  last : (src[i - 1]? = some alternateDirectorySeparator ∧ parentAt src (i - 1) = true) ∨
    dst[i - 1]? = (turnParents src)[i - 1]?
  apart : ∀ k, k + 1 < i → parentAt src k = true → separatorAt src (k + 3) = true → k + 4 ≤ i

theorem ReplaceInv.initial (hhead : src[0]? = some directorySeparator) :
    ReplaceInv src 1 [directorySeparator] where
  pos := Nat.le_refl 1
  bound := by
    by_contra h
    rw [List.getElem?_eq_none (by omega)] at hhead; exact absurd hhead (by simp)
  length := rfl
  copied := fun j hj => absurd hj (by omega)
  last := by
    apply Or.inr
    show some directorySeparator = (turnParents src)[0]?
    cases hp : parentAt src 0 with
    | true => exact (turnParents_getElem?_before hp).symm
    | false =>
      rw [turnParents_getElem?_away hp (fun h => absurd h (by omega)), hhead]
  apart := fun k hk => absurd hk (by omega)

theorem ReplaceInv.finished (h : ReplaceInv src i dst) (hend : src.length ≤ i) :
    dst = turnParents src := by
  have hi : i = src.length := Nat.le_antisymm h.bound hend
  have hpos := h.pos
  apply List.ext_getElem?
  intro j
  rcases Nat.lt_trichotomy (j + 1) i with hj | hj | hj
  · exact h.copied j hj
  · have hj' : j = i - 1 := by omega
    rw [hj']
    rcases h.last with ⟨-, hparent⟩ | hlast
    · -- a `..` behind the last character would be outside the path
      have hdot := (parentAt_iff.mp hparent).2.1
      rw [List.getElem?_eq_none (by omega)] at hdot
      exact absurd hdot (by simp)
    · exact hlast
  · rw [List.getElem?_eq_none (by have := h.length; omega),
      List.getElem?_eq_none (by rw [turnParents_length]; omega)]

theorem ReplaceInv.copy (h : ReplaceInv src i dst) (hlt : i < src.length)
    (hwhole : ¬ (separatorAt src (i - 1) ∧ src[i]? = some dot ∧ src[i + 1]? = some dot ∧
      separatorAt src (i + 2)))
    (hend : ¬ (src[i - 1]? = some alternateDirectorySeparator ∧ src[i]? = some dot ∧
      src[i + 1]? = some dot ∧ src[i + 2]? = none)) :
    ReplaceInv src (i + 1) (dst ++ (src[i]?).toList) := by
  have hpos := h.pos
  have hlen := h.length
  have hshift : i - 1 + 1 = i ∧ i - 1 + 2 = i + 1 ∧ i - 1 + 3 = i + 2 := by omega
  have hchar : src[i]? = some src[i] := List.getElem?_eq_getElem hlt
  rw [hchar, Option.toList_some]
  refine ⟨by omega, hlt, by simp [hlen], ?_, ?_, ?_⟩
  · intro j hj
    rw [List.getElem?_append_left (by omega)]
    by_cases hjlast : j + 1 < i
    · exact h.copied j hjlast
    · have hj' : j = i - 1 := by omega
      rw [hj']
      rcases h.last with ⟨halt, hparent⟩ | hlast
      · -- such a backslash opens a window, or ends the path with one
        obtain ⟨hsep, hd1, hd2, htail⟩ := parentAt_iff.mp hparent
        rw [hshift.1] at hd1
        rw [hshift.2.1] at hd2
        rw [hshift.2.2] at htail
        rcases htail with htail | htail
        · exact absurd ⟨hsep, hd1, hd2, htail⟩ hwhole
        · exact absurd ⟨halt, hd1, hd2, htail⟩ hend
      · exact hlast
  · rw [Nat.add_sub_cancel, List.getElem?_append_right (by omega), hlen, Nat.sub_self, hchar]
    show _ ∨ some src[i] = _
    rw [← hchar]
    cases hsep : separatorAt src i with
    | false => exact Or.inr (turnParents_getElem?_of_not_separator hsep).symm
    | true =>
      cases hparent : parentAt src i with
      | true =>
        rcases eq_of_separatorAt hsep with hslash | halt
        · apply Or.inr
          rw [turnParents_getElem?_before hparent, hslash]
        · exact Or.inl ⟨halt, rfl⟩
      | false =>
        apply Or.inr
        refine (turnParents_getElem?_away hparent fun h3 => ?_).symm
        -- a window that ends here was copied as a whole
        by_contra hbehind
        have hbehind' : parentAt src (i - 3) = true := by simpa using hbehind
        have hback : i - 3 + 3 = i := by omega
        have := h.apart (i - 3) (by omega) hbehind' (by rw [hback]; exact hsep)
        omega
  · intro k hk hparent hsep
    by_cases hklast : k + 1 < i
    · have := h.apart k hklast hparent hsep
      omega
    · have hk' : k = i - 1 := by omega
      rw [hk'] at hparent hsep
      obtain ⟨hs, hd1, hd2, -⟩ := parentAt_iff.mp hparent
      rw [hshift.1] at hd1
      rw [hshift.2.1] at hd2
      rw [hshift.2.2] at hsep; exact absurd ⟨hs, hd1, hd2, hsep⟩ hwhole

theorem getElem?_set_append {tail : Path} {j : Nat} (hpos : 1 ≤ i) (hlen : dst.length = i) (c : Char) :
    (dst.set (i - 1) c ++ tail)[j]? =
      if j + 1 < i then dst[j]? else if j + 1 = i then some c else tail[j - i]? := by
  by_cases h1 : j + 1 < i
  · rw [if_pos h1, List.getElem?_append_left (by simp; omega), List.getElem?_set_ne (by omega)]
  · rw [if_neg h1]
    by_cases h2 : j + 1 = i
    · rw [if_pos h2, List.getElem?_append_left (by simp; omega)]
      have hj : j = i - 1 := by omega
      rw [hj, List.getElem?_set_self (by omega)]
    · rw [if_neg h2, List.getElem?_append_right (by simp; omega)]; simp [hlen]

theorem turnParents_getElem?_dot (h : src[i]? = some dot) : (turnParents src)[i]? = some dot := by
  rw [turnParents_getElem?_of_not_separator (separatorAt_of_dot h), h]

/-- Up to the two dots the text is the one with the separator of the window turned. -/
theorem ReplaceInv.turned (h : ReplaceInv src i dst) (hparent : parentAt src (i - 1) = true)
    (hd1 : src[i]? = some dot) (hd2 : src[i + 1]? = some dot) (tail : Path) {j : Nat} (hj : j < i + 2) :
    (dst.set (i - 1) directorySeparator ++ dot :: dot :: tail)[j]? = (turnParents src)[j]? := by
  have hpos := h.pos
  rw [getElem?_set_append hpos h.length]
  by_cases h1 : j + 1 < i
  · rw [if_pos h1]; exact h.copied j h1
  rw [if_neg h1]
  by_cases h2 : j + 1 = i
  · rw [if_pos h2, ← turnParents_getElem?_before hparent]
    congr 1; omega
  rw [if_neg h2]
  have hdots : j = i ∨ j = i + 1 := by omega
  rcases hdots with hj' | hj'
  · rw [hj', Nat.sub_self, turnParents_getElem?_dot hd1]
    rfl
  · rw [hj', Nat.add_sub_cancel_left, turnParents_getElem?_dot hd2]; rfl

theorem ReplaceInv.window (h : ReplaceInv src i dst) (hs : separatorAt src (i - 1) = true)
    (hd1 : src[i]? = some dot) (hd2 : src[i + 1]? = some dot) (hs' : separatorAt src (i + 2) = true) :
    ReplaceInv src (i + 3)
      (dst.set (i - 1) directorySeparator ++ [dot, dot, directorySeparator]) := by
  have hpos := h.pos
  have hlen := h.length
  have hshift : i - 1 + 1 = i ∧ i - 1 + 2 = i + 1 ∧ i - 1 + 3 = i + 2 := by omega
  have hparent : parentAt src (i - 1) = true := by
    apply parentAt_iff.mpr
    rw [hshift.1, hshift.2.1, hshift.2.2]; exact ⟨hs, hd1, hd2, Or.inl hs'⟩
  refine ⟨by omega, separatorAt_lt hs', by simp [hlen], fun j hj =>
    h.turned hparent hd1 hd2 _ (by omega), Or.inr ?_, ?_⟩
  · have hbehind := turnParents_getElem?_behind hparent (by rw [hshift.2.2]; exact hs')
    rw [hshift.2.2] at hbehind
    rw [getElem?_set_append hpos hlen, if_neg (by omega), if_neg (by omega),
      show i + 3 - 1 = i + 2 by omega, hbehind, Nat.add_sub_cancel_left]
    rfl
  · intro k hk hparentk hsepk
    obtain ⟨hsk, -, -, -⟩ := parentAt_iff.mp hparentk
    -- the two dots begin no window
    have hne1 : k ≠ i := fun heq => by
      rw [heq, separatorAt_of_dot hd1] at hsk; exact absurd hsk (by simp)
    have hne2 : k ≠ i + 1 := fun heq => by
      rw [heq, separatorAt_of_dot hd2] at hsk; exact absurd hsk (by simp)
    by_cases hklast : k + 1 < i
    · have := h.apart k hklast hparentk hsepk
      omega
    · omega

theorem ReplaceInv.windowEnd (h : ReplaceInv src i dst)
    (halt : src[i - 1]? = some alternateDirectorySeparator) (hd1 : src[i]? = some dot)
    (hd2 : src[i + 1]? = some dot) (hend : src[i + 2]? = none) :
    dst.set (i - 1) directorySeparator ++ [dot, dot] = turnParents src := by
  have hpos := h.pos
  have hlen := h.length
  have hshift : i - 1 + 1 = i ∧ i - 1 + 2 = i + 1 ∧ i - 1 + 3 = i + 2 := by omega
  have hparent : parentAt src (i - 1) = true := by
    apply parentAt_iff.mpr
    rw [hshift.1, hshift.2.1, hshift.2.2]
    refine ⟨?_, hd1, hd2, Or.inr hend⟩
    unfold separatorAt
    rw [halt]; decide
  apply List.ext_getElem?
  intro j
  by_cases hj : j < i + 2
  · exact h.turned hparent hd1 hd2 _ hj
  have hlength : src.length ≤ i + 2 := by
    by_contra hlt
    rw [List.getElem?_eq_getElem (by omega)] at hend; exact absurd hend (by simp)
  rw [List.getElem?_eq_none (by simp; omega),
    List.getElem?_eq_none (by rw [turnParents_length]; omega)]

theorem replaceLoop_eq : ∀ (fuel i : Nat) (dst : Path), ReplaceInv src i dst →
    src.length ≤ i + fuel → replaceLoop src fuel i dst = turnParents src := by
  intro fuel
  induction fuel with
  | zero => exact fun i dst h hfuel => h.finished (by omega)
  | succ fuel ih =>
    intro i dst h hfuel
    unfold replaceLoop
    by_cases hend : src.length ≤ i
    · rw [if_pos hend]; exact h.finished hend
    rw [if_neg hend]
    by_cases hwhole : separatorAt src (i - 1) ∧ src[i]? = some dot ∧ src[i + 1]? = some dot ∧
        separatorAt src (i + 2)
    · rw [if_pos hwhole]
      obtain ⟨hs, hd1, hd2, hs'⟩ := hwhole
      exact ih _ _ (h.window hs hd1 hd2 hs') (by omega)
    rw [if_neg hwhole]
    by_cases hlast : src[i - 1]? = some alternateDirectorySeparator ∧ src[i]? = some dot ∧
        src[i + 1]? = some dot ∧ src[i + 2]? = none
    · rw [if_pos hlast]
      obtain ⟨halt, hd1, hd2, hterm⟩ := hlast; exact h.windowEnd halt hd1 hd2 hterm
    rw [if_neg hlast]; exact ih _ _ (h.copy (by omega) hwhole hlast) (by omega)

theorem replaceParentDirectoryPath_eq (hhead : src[0]? = some directorySeparator) :
    replaceParentDirectoryPath src = turnParents src := by
  unfold replaceParentDirectoryPath
  exact replaceLoop_eq _ _ _ (ReplaceInv.initial hhead) (by omega)

/-! ## When nothing is replaced -/

theorem parentAt_cons (c : Char) (path : Path) (k : Nat) :
    parentAt (c :: path) (k + 1) = parentAt path k := by
  unfold parentAt separatorAt; simp only [List.getElem?_cons_succ, Nat.add_right_comm k 1]

theorem slashes_of_replacementNeededLoop (path : Path) :
    replacementNeededLoop path = false → ∀ k, parentAt path k = true →
      path[k]? = some directorySeparator ∧
        (path[k + 3]? = some directorySeparator ∨ path[k + 3]? = none) := by
  fun_induction replacementNeededLoop path with
  | case1 c0 c1 c2 c3 rest hdots ih =>
    intro hloop k hk
    cases k with
    | zero =>
      obtain ⟨-, hd1, hd2, -⟩ := parentAt_iff.mp hk
      have h1 : c1 = dot := Option.some.inj hd1
      have h2 : c2 = dot := Option.some.inj hd2
      exact absurd hdots (by simp [h1, h2])
    | succ k =>
      rw [parentAt_cons] at hk; exact ih hloop k hk
  | case2 => exact fun hloop => absurd hloop (by simp)
  | case3 => exact fun hloop => absurd hloop (by simp)
  | case4 c0 c1 c2 c3 rest hdots hopen hclose ih =>
    intro hloop k hk
    cases k with
    | zero =>
      obtain ⟨hs, -, -, htail⟩ := parentAt_iff.mp hk
      have hs' : separatorAt (c0 :: c1 :: c2 :: c3 :: rest) 3 = true := by
        rcases htail with htail | htail
        · exact htail
        · exact absurd htail (by simp)
      have hc0 : c0 = directorySeparator ∨ c0 = alternateDirectorySeparator := by
        simpa using eq_of_separatorAt hs
      have hc3 : c3 = directorySeparator ∨ c3 = alternateDirectorySeparator := by
        simpa using eq_of_separatorAt hs'
      rcases hc0 with h0 | h0
      · rcases hc3 with h3 | h3
        · exact ⟨by rw [h0]; rfl, Or.inl (by rw [h3]; rfl)⟩
        · exact absurd ⟨h3, Or.inl h0⟩ hclose
      · exact absurd ⟨h0, hc3⟩ hopen
    | succ k =>
      rw [parentAt_cons] at hk; exact ih hloop k hk
  | case5 c0 c1 c2 =>
    intro hloop k hk
    obtain ⟨hs, hd1, hd2, -⟩ := parentAt_iff.mp hk
    cases k with
    | zero =>
      have h1 : c1 = dot := Option.some.inj hd1
      have h2 : c2 = dot := Option.some.inj hd2
      have hc0 : c0 ≠ alternateDirectorySeparator := fun h0 =>
        absurd hloop (by simp [h0, h1, h2])
      refine ⟨?_, Or.inr rfl⟩
      rcases eq_of_separatorAt hs with h0 | h0
      · exact h0
      · exact absurd (Option.some.inj h0) hc0
    | succ k => exact absurd hd2 (by simp)
  | case6 path hfour hthree =>
    intro _ k hk
    obtain ⟨-, -, hd2, -⟩ := parentAt_iff.mp hk
    -- a shorter path has no third character
    match path with
    | [] => exact absurd hd2 (by simp)
    | [_] => exact absurd hd2 (by simp)
    | [_, _] => exact absurd hd2 (by simp)
    | [c0, c1, c2] => exact absurd rfl (hthree c0 c1 c2)
    | c0 :: c1 :: c2 :: c3 :: rest => exact absurd rfl (hfour c0 c1 c2 c3 rest)

/-- **Where no replacement is needed, `turnParents` changes nothing.** -/
theorem turnParents_eq_self (hhead : path[0]? = some directorySeparator)
    (hneeded : isParentDirectoryPathReplacementNeeded path = false) : turnParents path = path := by
  have hslashes : ∀ k, parentAt path k = true → path[k]? = some directorySeparator ∧
      (path[k + 3]? = some directorySeparator ∨ path[k + 3]? = none) := by
    unfold isParentDirectoryPathReplacementNeeded at hneeded
    have hsep : separatorAt path 0 = true := by
      unfold separatorAt
      rw [hhead]; decide
    rw [if_neg (by simp [hsep])] at hneeded
    by_cases hshort : path.length < 3
    · intro k hk
      obtain ⟨-, -, hd2, -⟩ := parentAt_iff.mp hk
      rw [List.getElem?_eq_none (by omega)] at hd2
      exact absurd hd2 (by simp)
    · rw [if_neg hshort] at hneeded; exact slashes_of_replacementNeededLoop path hneeded
  apply List.ext_getElem?
  intro i
  cases hbefore : parentAt path i with
  | true => rw [turnParents_getElem?_before hbefore, (hslashes i hbefore).1]
  | false =>
    by_cases hbehind : 3 ≤ i ∧ parentAt path (i - 3) = true
    · have hback : i - 3 + 3 = i := by omega
      cases hsep : separatorAt path i with
      | false => exact turnParents_getElem?_of_not_separator hsep
      | true =>
        have hturned := turnParents_getElem?_behind hbehind.2 (by rw [hback]; exact hsep)
        have hslash := (hslashes (i - 3) hbehind.2).2
        rw [hback] at hturned hslash
        rcases hslash with hslash | hnone
        · rw [hturned, hslash]
        · unfold separatorAt at hsep
          rw [hnone] at hsep; exact absurd hsep (by simp)
    · apply turnParents_getElem?_away hbefore
      intro h3
      by_contra hparent
      exact hbehind ⟨h3, by simpa using hparent⟩

end Suyu.FileSys
