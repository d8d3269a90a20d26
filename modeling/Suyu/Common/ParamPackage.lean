import Mathlib.Data.List.AList
import Mathlib.Data.List.TakeWhile
import Mathlib.Tactic.Common

/-
  ParamPackage - string maps and their one-line text.

  1. **Program** - `Serialize` escapes `$`, `,` and `:` in every key and value by three replacements of
     the whole string, writes `key:value` pairs and puts `,` between them; the constructor splits at
     `,`, splits each pair at `:`, and undoes the three replacements.  Splitting is `std::getline` until
     it fails.

  2. **Specification (`RoundTrips`)** - what is read back has the same value under every key.

  3. **The crux (`unescape_escape`, `splitString_append`)** - an escaped part is a string of CODES, one or
     two bytes each, and every replacement turns one kind of code into another; the parts hold no
     separator, so that cutting at the separators is exact but for the LAST part.

  4. **When it goes wrong** - `getline` finds nothing behind a delimiter that ends the string: `key:`
     has one part, not two, and the pair is dropped as invalid.

  A string is the list of its bytes.  The entries of the map are listed in the order in which the hash map
  happens to iterate; the statements are for all of these lists.
-/

namespace Suyu.Common

/-- A `std::string`. -/
abbrev Bytes := List UInt8

/-! ## Strings -/

/-- The loop of `ReplaceAll`: an occurrence is replaced and its bytes are skipped. -/
def replaceFrom (src dest : Bytes) : Nat → Bytes → Bytes
  | _, [] => []
  | 0, c :: rest =>
      if src.isPrefixOf (c :: rest) then dest ++ replaceFrom src dest (src.length - 1) rest
      else c :: replaceFrom src dest 0 rest
  | skip + 1, _ :: rest => replaceFrom src dest skip rest

def replaceAll (result src dest : Bytes) : Bytes :=
  if src = dest then result else replaceFrom src dest 0 result

/-- `std::getline`: a line and what is left of the stream; nothing if nothing is left to extract. -/
def getline (delim : UInt8) : Bytes → Option (Bytes × Bytes)
  | [] => none
  | c :: rest =>
      let stream := c :: rest
      some (stream.takeWhile (· != delim), (stream.dropWhile (· != delim)).tail)

/-- `while (std::getline(...))`; every round takes at least one byte. -/
def splitLoop (delim : UInt8) : Nat → Bytes → List Bytes
  | 0, _ => []
  | fuel + 1, stream =>
      match getline delim stream with
      | none => []
      | some (line, rest) => line :: splitLoop delim fuel rest

def splitString (str : Bytes) (delim : UInt8) : List Bytes := splitLoop delim str.length str

/-! ## Packages -/

namespace ParamPackage

/-- The separators, the escape character and the digits behind it: `:` `,` `$` `0` `1` `2`. -/
def keyValueSeparator : UInt8 := 58
def paramSeparator : UInt8 := 44
def escapeCharacter : UInt8 := 36
def keyValueSeparatorEscape : Bytes := [36, 48]
def paramSeparatorEscape : Bytes := [36, 49]
def escapeCharacterEscape : Bytes := [36, 50]

/-- `[empty]` -/
def emptyPlaceholder : Bytes := [91, 101, 109, 112, 116, 121, 93]

/-- `std::unordered_map<std::string, std::string>`, with the order of iteration. -/
abbrev DataType := AList fun _ : Bytes => Bytes

def escape (part : Bytes) : Bytes :=
  let part := replaceAll part [escapeCharacter] escapeCharacterEscape
  let part := replaceAll part [paramSeparator] paramSeparatorEscape
  replaceAll part [keyValueSeparator] keyValueSeparatorEscape

def unescape (part : Bytes) : Bytes :=
  let part := replaceAll part keyValueSeparatorEscape [keyValueSeparator]
  let part := replaceAll part paramSeparatorEscape [paramSeparator]
  replaceAll part escapeCharacterEscape [escapeCharacter]

/-- `key:value` of one entry. -/
def serializePair (pair : Σ _ : Bytes, Bytes) : Bytes :=
  escape pair.1 ++ keyValueSeparator :: escape pair.2

def serialize (data : DataType) : Bytes :=
  if data.entries = [] then emptyPlaceholder
  else
    let result := data.entries.foldl (fun result pair =>
      result ++ (serializePair pair ++ [paramSeparator])) []
    result.dropLast

/-- One pair of the constructor's loop. -/
def readPair (data : DataType) (pair : Bytes) : DataType :=
  match (splitString pair keyValueSeparator).map unescape with
  | [key, value] => data.insert key value
  | _ => data

/-- `ParamPackage(const std::string&)` -/
def ofSerialized (serialized : Bytes) : DataType :=
  if serialized = emptyPlaceholder then ∅
  else (splitString serialized paramSeparator).foldl readPair ∅

end ParamPackage

/-! ## Specification -/

/-- The package that is read back has the same value under every key. -/
def RoundTrips (data : ParamPackage.DataType) : Prop :=
  ∀ key, (ParamPackage.ofSerialized (ParamPackage.serialize data)).lookup key = data.lookup key

/-! ## Replacing -/

theorem replaceFrom_append_of_length {src dest : Bytes} (done rest : Bytes) :
    replaceFrom src dest done.length (done ++ rest) = replaceFrom src dest 0 rest := by
  induction done with
  | nil => rfl
  | cons c done ih => exact ih

variable {rest line : Bytes} {delim : UInt8}

theorem replaceFrom_of_prefix {src dest : Bytes} (hsrc : src ≠ []) :
    replaceFrom src dest 0 (src ++ rest) = dest ++ replaceFrom src dest 0 rest := by
  cases src with
  | nil => exact absurd rfl hsrc
  | cons c tail =>
    have hprefix : (c :: tail).isPrefixOf (c :: (tail ++ rest)) = true :=
      List.isPrefixOf_iff_prefix.2 (List.prefix_append (c :: tail) rest)
    show replaceFrom (c :: tail) dest 0 (c :: (tail ++ rest)) = _
    rw [replaceFrom, if_pos hprefix]
    congr 1; exact replaceFrom_append_of_length tail rest

theorem replaceFrom_of_head_ne {a c : UInt8} {src dest : Bytes} (h : c ≠ a) :
    replaceFrom (a :: src) dest 0 (c :: rest) = c :: replaceFrom (a :: src) dest 0 rest := by
  have hprefix : ¬ (a :: src).isPrefixOf (c :: rest) = true := by
    intro hp; exact h (List.cons_prefix_cons.1 (List.isPrefixOf_iff_prefix.1 hp)).1.symm
  rw [replaceFrom, if_neg hprefix]

theorem replaceFrom_byte (a : UInt8) (dest part : Bytes) :
    replaceFrom [a] dest 0 part = part.flatMap fun c => if c = a then dest else [c] := by
  induction part with
  | nil => rfl
  | cons c part ih =>
    rw [List.flatMap_cons, ← ih]
    by_cases hc : c = a
    · subst hc
      rw [if_pos rfl]
      exact replaceFrom_of_prefix (List.cons_ne_nil c [])
    · rw [if_neg hc, replaceFrom_of_head_ne hc]; rfl

/-! ## Codes -/

namespace ParamPackage

/-- One byte that is no escape character, or the escape character and one such byte. -/
def IsCode (code : Bytes) : Prop :=
  (∃ b, code = [b] ∧ b ≠ escapeCharacter) ∨ ∃ b, code = [escapeCharacter, b] ∧ b ≠ escapeCharacter

variable {digit : UInt8}

theorem replaceFrom_codes {dest : Bytes} {code : UInt8 → Bytes} (hcode : ∀ c, IsCode (code c))
    (part : Bytes) : replaceFrom [escapeCharacter, digit] dest 0 (part.flatMap code) =
      part.flatMap fun c => if code c = [escapeCharacter, digit] then dest else code c := by
  induction part with
  | nil => rfl
  | cons c part ih =>
    rw [List.flatMap_cons, List.flatMap_cons, ← ih]
    generalize part.flatMap code = rest
    by_cases hdigit : code c = [escapeCharacter, digit]
    · rw [if_pos hdigit, hdigit]; exact replaceFrom_of_prefix (List.cons_ne_nil _ _)
    rw [if_neg hdigit]
    rcases hcode c with ⟨b, hb, hne⟩ | ⟨b, hb, hne⟩
    · rw [hb]; exact replaceFrom_of_head_ne hne
    -- The escape character is there, but another digit follows.
    have hother : b ≠ digit := by
      rintro rfl; exact hdigit hb
    have hprefix : ¬ [escapeCharacter, digit].isPrefixOf (escapeCharacter :: b :: rest) = true := by
      intro hp
      have htail := (List.cons_prefix_cons.1 (List.isPrefixOf_iff_prefix.1 hp)).2
      exact hother (List.cons_prefix_cons.1 htail).1.symm
    rw [hb]
    show replaceFrom _ dest 0 (escapeCharacter :: b :: rest) = _
    rw [replaceFrom, if_neg hprefix, replaceFrom_of_head_ne hne]; rfl

/-- What becomes of one byte. -/
def escapeByte (c : UInt8) : Bytes :=
  if c = escapeCharacter then escapeCharacterEscape
  else if c = paramSeparator then paramSeparatorEscape
  else if c = keyValueSeparator then keyValueSeparatorEscape
  else [c]

theorem escape_eq (part : Bytes) : escape part = part.flatMap escapeByte := by
  rw [escape]
  simp only [replaceAll]
  rw [if_neg (by decide), if_neg (by decide), if_neg (by decide), replaceFrom_byte, replaceFrom_byte,
    replaceFrom_byte, List.flatMap_assoc, List.flatMap_assoc]
  congr 1
  funext c
  by_cases h2 : c = escapeCharacter
  · subst h2
    decide
  · by_cases h1 : c = paramSeparator
    · subst h1
      decide
    · simp [escapeByte, h2, h1]

theorem isCode_escapeByte (c : UInt8) : IsCode (escapeByte c) := by
  unfold escapeByte
  split
  · exact Or.inr ⟨50, rfl, by decide⟩
  · split
    · exact Or.inr ⟨49, rfl, by decide⟩
    · split
      · exact Or.inr ⟨48, rfl, by decide⟩
      · next h _ _ => exact Or.inl ⟨c, rfl, h⟩

/-- The codes that are left when the escapes of some bytes have been undone. -/
def escapeRest (undone : List UInt8) (c : UInt8) : Bytes :=
  if c ∈ undone then [c] else escapeByte c

theorem isCode_escapeRest {undone : List UInt8} (h : escapeCharacter ∉ undone) (c : UInt8) :
    IsCode (escapeRest undone c) := by
  unfold escapeRest
  split
  · next hc => exact Or.inl ⟨c, rfl, fun heq => h (heq ▸ hc)⟩
  · exact isCode_escapeByte c

theorem escapeRest_cons {undone : List UInt8} {a : UInt8} (ha : escapeByte a = [escapeCharacter, digit])
    (hinj : ∀ c, escapeByte c = [escapeCharacter, digit] → c = a) (hundone : a ∉ undone) (c : UInt8) :
    (if escapeRest undone c = [escapeCharacter, digit] then [a] else escapeRest undone c) =
      escapeRest (a :: undone) c := by
  by_cases hc : c = a
  · subst hc
    have hrest : escapeRest undone c = [escapeCharacter, digit] := by
      rw [escapeRest, if_neg hundone, ha]
    rw [if_pos hrest, escapeRest, if_pos List.mem_cons_self]
  · have hmem : c ∈ a :: undone ↔ c ∈ undone := by
      rw [List.mem_cons, or_iff_right hc]
    have hrest : escapeRest undone c ≠ [escapeCharacter, digit] := by
      unfold escapeRest
      split
      · exact fun h => nomatch h
      · exact fun h => hc (hinj c h)
    rw [if_neg hrest, escapeRest, escapeRest]; simp only [hmem]

theorem escapeByte_cases {c : UInt8} (h : escapeByte c = [escapeCharacter, digit]) :
    c = escapeCharacter ∧ digit = 50 ∨ c = paramSeparator ∧ digit = 49 ∨
      c = keyValueSeparator ∧ digit = 48 := by
  unfold escapeByte at h
  split at h
  · next hc => exact Or.inl ⟨hc, (List.cons.inj (List.cons.inj h).2).1.symm⟩
  · split at h
    · next hc => exact Or.inr (Or.inl ⟨hc, (List.cons.inj (List.cons.inj h).2).1.symm⟩)
    · split at h
      · next hc => exact Or.inr (Or.inr ⟨hc, (List.cons.inj (List.cons.inj h).2).1.symm⟩)
      · exact nomatch h

theorem escapeByte_inj {a c : UInt8} (ha : escapeByte a = [escapeCharacter, digit])
    (hc : escapeByte c = [escapeCharacter, digit]) : c = a := by
  rcases escapeByte_cases ha with ⟨rfl, rfl⟩ | ⟨rfl, rfl⟩ | ⟨rfl, rfl⟩
  · exact (escapeByte_cases hc).elim And.left fun h => h.elim (fun h => nomatch h.2) fun h => nomatch h.2
  · exact (escapeByte_cases hc).elim (fun h => nomatch h.2) fun h => h.elim And.left fun h => nomatch h.2
  · exact (escapeByte_cases hc).elim (fun h => nomatch h.2) fun h =>
        h.elim (fun h => nomatch h.2) And.left

theorem replaceAll_escapeRest {undone : List UInt8} {a : UInt8}
    (ha : escapeByte a = [escapeCharacter, digit]) (hesc : escapeCharacter ∉ undone)
    (hundone : a ∉ undone) (part : Bytes) :
    replaceAll (part.flatMap (escapeRest undone)) [escapeCharacter, digit] [a] =
      part.flatMap (escapeRest (a :: undone)) := by
  have hne : [escapeCharacter, digit] ≠ [a] := fun h => nomatch h
  rw [replaceAll, if_neg hne, replaceFrom_codes (isCode_escapeRest hesc)]
  congr 1
  funext c
  exact escapeRest_cons ha (fun c => escapeByte_inj ha) hundone c

theorem escapeRest_all (c : UInt8) :
    escapeRest [escapeCharacter, paramSeparator, keyValueSeparator] c = [c] := by
  unfold escapeRest
  split
  · rfl
  · next h =>
    simp only [List.mem_cons, List.not_mem_nil, or_false, not_or] at h
    rw [escapeByte, if_neg h.1, if_neg h.2.1, if_neg h.2.2]

theorem unescape_escape (part : Bytes) : unescape (escape part) = part := by
  have hstart : escape part = part.flatMap (escapeRest []) := escape_eq part
  have hcolon : replaceAll (part.flatMap (escapeRest [])) [escapeCharacter, 48] [keyValueSeparator] =
      part.flatMap (escapeRest [keyValueSeparator]) :=
    replaceAll_escapeRest rfl (by decide) (by decide) part
  have hcomma : replaceAll (part.flatMap (escapeRest [keyValueSeparator])) [escapeCharacter, 49]
      [paramSeparator] = part.flatMap (escapeRest [paramSeparator, keyValueSeparator]) :=
    replaceAll_escapeRest rfl (by decide) (by decide) part
  have hdollar : replaceAll (part.flatMap (escapeRest [paramSeparator, keyValueSeparator]))
      [escapeCharacter, 50] [escapeCharacter] =
        part.flatMap (escapeRest [escapeCharacter, paramSeparator, keyValueSeparator]) :=
    replaceAll_escapeRest rfl (by decide) (by decide) part
  have hall : part.flatMap (escapeRest [escapeCharacter, paramSeparator, keyValueSeparator]) = part := by
    have hid : escapeRest [escapeCharacter, paramSeparator, keyValueSeparator] = fun c => [c] :=
      funext escapeRest_all
    rw [hid, List.flatMap_singleton']
  calc unescape (escape part)
      = replaceAll (replaceAll (replaceAll (escape part) [escapeCharacter, 48] [keyValueSeparator])
          [escapeCharacter, 49] [paramSeparator]) [escapeCharacter, 50] [escapeCharacter] := rfl
    _ = part := by rw [hstart, hcolon, hcomma, hdollar, hall]

theorem escape_nil : escape [] = [] := escape_eq []

theorem escape_eq_nil_iff {part : Bytes} : escape part = [] ↔ part = [] := by
  refine ⟨fun h => ?_, fun h => by rw [h, escape_nil]⟩
  rw [← unescape_escape part, h]
  rfl

theorem separator_not_mem_escape {a : UInt8} (ha : a = paramSeparator ∨ a = keyValueSeparator)
    (part : Bytes) : a ∉ escape part := by
  rw [escape_eq]
  intro h
  obtain ⟨c, -, hc⟩ := List.mem_flatMap.1 h
  unfold escapeByte at hc
  split at hc
  · rcases ha with rfl | rfl <;> exact absurd hc (by decide)
  split at hc
  · rcases ha with rfl | rfl <;> exact absurd hc (by decide)
  split at hc
  · rcases ha with rfl | rfl <;> exact absurd hc (by decide)
  · next h2 h1 h0 =>
    obtain rfl := List.mem_singleton.1 hc; exact ha.elim h1 h0

end ParamPackage

/-! ## Splitting -/

theorem getline_of_mem (h : delim ∉ line) :
    getline delim (line ++ delim :: rest) = some (line, rest) := by
  have htake : (line ++ delim :: rest).takeWhile (· != delim) = line := by
    rw [List.takeWhile_append_of_pos]
    · simp
    · intro c hc; exact bne_iff_ne.2 fun heq => h (heq ▸ hc)
  have hdrop : (line ++ delim :: rest).dropWhile (· != delim) = delim :: rest := by
    rw [List.dropWhile_append_of_pos]
    · simp
    · intro c hc; exact bne_iff_ne.2 fun heq => h (heq ▸ hc)
  cases hstream : line ++ delim :: rest with
  | nil => exact absurd hstream (by simp)
  | cons c tail =>
    rw [getline]
    rw [← hstream, htake, hdrop]; rfl

theorem getline_of_not_mem (h : delim ∉ line) (hne : line ≠ []) :
    getline delim line = some (line, []) := by
  have hpos : ∀ c ∈ line, (c != delim) = true := fun c hc => bne_iff_ne.2 fun heq => h (heq ▸ hc)
  have htake : line.takeWhile (· != delim) = line := List.takeWhile_eq_self_iff.2 hpos
  have hdrop : line.dropWhile (· != delim) = [] := List.dropWhile_eq_nil_iff.2 hpos
  cases hline : line with
  | nil => exact absurd hline hne
  | cons c tail =>
    rw [getline]
    rw [← hline, htake, hdrop]; rfl

theorem getline_length {stream : Bytes} (h : getline delim stream = some (line, rest)) :
    rest.length < stream.length := by
  cases stream with
  | nil => exact nomatch h
  | cons c tail =>
    obtain ⟨-, rfl⟩ := Prod.mk.inj (Option.some.inj h)
    have hle := (List.dropWhile_suffix (l := c :: tail) (· != delim)).length_le
    rw [List.length_tail]
    have hpos : 0 < (c :: tail).length := Nat.succ_pos _
    omega

theorem splitLoop_fuel {fuel fuel' : Nat} {stream : Bytes} (h : stream.length ≤ fuel)
    (h' : stream.length ≤ fuel') : splitLoop delim fuel stream = splitLoop delim fuel' stream := by
  have hnone : ∀ fuel, splitLoop delim fuel [] = [] := by
    intro fuel
    cases fuel with
    | zero => rfl
    | succ fuel => rfl
  induction fuel generalizing fuel' stream with
  | zero =>
    obtain rfl := List.length_eq_zero_iff.1 (Nat.le_zero.1 h)
    rw [hnone, hnone]
  | succ fuel ih =>
    cases fuel' with
    | zero =>
      obtain rfl := List.length_eq_zero_iff.1 (Nat.le_zero.1 h')
      rw [hnone, hnone]
    | succ fuel' =>
      rw [splitLoop, splitLoop]
      cases hline : getline delim stream with
      | none => rfl
      | some p =>
        obtain ⟨line, rest⟩ := p
        have hlt := getline_length hline
        dsimp only
        rw [@ih fuel' rest (by omega) (by omega)]

theorem splitString_of_getline {stream : Bytes} (h : getline delim stream = some (line, rest)) :
    splitString stream delim = line :: splitString rest delim := by
  have hlt := getline_length h
  cases hlen : stream.length with
  | zero => omega
  | succ n =>
    rw [splitString, hlen, splitLoop, h]
    dsimp only
    rw [splitString, splitLoop_fuel (by omega) (le_refl rest.length)]

theorem splitString_append (rest : Bytes) (h : delim ∉ line) :
    splitString (line ++ delim :: rest) delim = line :: splitString rest delim :=
  splitString_of_getline (getline_of_mem h)

theorem splitString_last (h : delim ∉ line) :
    splitString line delim = if line = [] then [] else [line] := by
  by_cases hline : line = []
  · rw [if_pos hline, hline]
    rfl
  · rw [if_neg hline, splitString_of_getline (getline_of_not_mem h hline)]; rfl

theorem splitString_joined {lines : List Bytes} (h : ∀ l ∈ lines, delim ∉ l ∧ l ≠ []) :
    splitString (lines.flatMap fun l => l ++ [delim]).dropLast delim = lines := by
  induction lines with
  | nil => rfl
  | cons l lines ih =>
    obtain ⟨hl, hne⟩ := h l List.mem_cons_self
    have hrest := fun l hl => h l (List.mem_cons_of_mem _ hl)
    rw [List.flatMap_cons]
    cases lines with
    | nil =>
      show splitString (l ++ [delim] ++ []).dropLast delim = [l]
      rw [List.append_nil, List.dropLast_concat, splitString_last hl, if_neg hne]
    | cons l' lines =>
      have htail : ((l' :: lines).flatMap fun l => l ++ [delim]) ≠ [] := by
        rw [List.flatMap_cons]; simp
      rw [List.dropLast_append_of_ne_nil htail, List.append_assoc, List.singleton_append,
        splitString_append _ hl, ih hrest]

namespace ParamPackage

/-! ## One pair -/

theorem paramSeparator_not_mem_serializePair (pair : Σ _ : Bytes, Bytes) :
    paramSeparator ∉ serializePair pair := by
  have hpart : ∀ part, paramSeparator ∉ escape part := separator_not_mem_escape (Or.inl rfl)
  intro h
  rcases List.mem_append.1 h with h | h
  · exact hpart pair.1 h
  · rcases List.mem_cons.1 h with h | h
    · exact absurd h (by decide)
    · exact hpart pair.2 h

theorem keyValueSeparator_mem_serializePair (pair : Σ _ : Bytes, Bytes) :
    keyValueSeparator ∈ serializePair pair :=
  List.mem_append_right _ List.mem_cons_self

theorem readPair_serializePair (data : DataType) (pair : Σ _ : Bytes, Bytes) :
    readPair data (serializePair pair) =
      if pair.2 = [] then data else data.insert pair.1 pair.2 := by
  have hpart : ∀ part, keyValueSeparator ∉ escape part := separator_not_mem_escape (Or.inr rfl)
  have hsplit : splitString (serializePair pair) keyValueSeparator =
      escape pair.1 :: if pair.2 = [] then [] else [escape pair.2] := by
    rw [serializePair, splitString_append _ (hpart pair.1), splitString_last (hpart pair.2)]
    simp only [escape_eq_nil_iff]
  unfold readPair
  rw [hsplit]
  by_cases hv : pair.2 = []
  · rw [if_pos hv, if_pos hv]
    rfl
  · rw [if_neg hv, if_neg hv]
    show data.insert (unescape (escape pair.1)) (unescape (escape pair.2)) = _
    rw [unescape_escape, unescape_escape]

/-! ## The whole package -/

theorem serialize_eq {data : DataType} (h : data.entries ≠ []) :
    serialize data = ((data.entries.map serializePair).flatMap fun l =>
        l ++ [paramSeparator]).dropLast := by
  rw [serialize, if_neg h]
  show (data.entries.foldl (fun result pair =>
    result ++ (serializePair pair ++ [paramSeparator])) []).dropLast = _
  rw [← List.flatMap_eq_foldl, List.flatMap_map]

theorem splitString_serialize {data : DataType} (h : data.entries ≠ []) :
    splitString (serialize data) paramSeparator = data.entries.map serializePair := by
  rw [serialize_eq h]
  refine splitString_joined fun l hl => ?_
  obtain ⟨pair, -, rfl⟩ := List.mem_map.1 hl
  exact ⟨paramSeparator_not_mem_serializePair pair,
    List.ne_nil_of_mem (keyValueSeparator_mem_serializePair pair)⟩

theorem serialize_ne_emptyPlaceholder {data : DataType} (h : data.entries ≠ []) :
    serialize data ≠ emptyPlaceholder := by
  intro heq
  have hsplit := splitString_serialize h
  have hplaceholder : splitString emptyPlaceholder paramSeparator = [emptyPlaceholder] := by decide
  rw [heq, hplaceholder] at hsplit
  obtain ⟨pair, -, hpair⟩ := List.mem_map.1 (hsplit ▸ List.mem_singleton_self emptyPlaceholder)
  have hmem := keyValueSeparator_mem_serializePair pair
  rw [hpair] at hmem
  exact absurd hmem (by decide)

theorem lookup_readEntries {entries : List (Σ _ : Bytes, Bytes)} (hkeys : entries.NodupKeys)
    (data : DataType) (key : Bytes) :
    ((entries.map serializePair).foldl readPair data).lookup key =
      match entries.dlookup key with
      | none => data.lookup key
      | some value => if value = [] then data.lookup key else some value := by
  induction entries generalizing data with
  | nil => rfl
  | cons pair entries ih =>
    obtain ⟨k, v⟩ := pair
    rw [List.nodupKeys_cons] at hkeys
    rw [List.map_cons, List.foldl_cons, ih hkeys.2, readPair_serializePair]
    by_cases hkey : key = k
    · subst hkey
      have hnone : entries.dlookup key = none := List.dlookup_eq_none.2 hkeys.1
      rw [hnone, List.dlookup_cons_eq]
      dsimp only
      by_cases hv : v = []
      · rw [if_pos hv, if_pos hv]
      · rw [if_neg hv, if_neg hv, AList.lookup_insert]
    · rw [List.dlookup_cons_ne _ _ hkey]
      have hsame : (if v = [] then data else data.insert k v).lookup key = data.lookup key := by
        split
        · rfl
        · exact AList.lookup_insert_ne hkey
      simp only [hsame]

theorem lookup_ofSerialized (data : DataType) (key : Bytes) :
    (ofSerialized (serialize data)).lookup key = (data.lookup key).filter fun value => value ≠ [] := by
  by_cases hempty : data.entries = []
  · have hdata : data.lookup key = none := by
      show data.entries.dlookup key = none
      rw [hempty]; rfl
    rw [hdata, serialize, if_pos hempty, ofSerialized, if_pos rfl]
    rfl
  · rw [ofSerialized, if_neg (serialize_ne_emptyPlaceholder hempty), splitString_serialize hempty,
      lookup_readEntries data.nodupKeys]
    show _ = (data.entries.dlookup key).filter _
    cases data.entries.dlookup key with
    | none => rfl
    | some value =>
      dsimp only
      by_cases hv : value = []
      · rw [if_pos hv, Option.filter_some_neg (by simpa using hv)]
        rfl
      · rw [if_neg hv, Option.filter_some_pos (by simpa using hv)]

end ParamPackage

/-- **A package comes back from its text exactly if no value in it is empty.** -/
theorem paramPackage_roundTrips_iff (data : ParamPackage.DataType) :
    RoundTrips data ↔ ∀ pair ∈ data.entries, pair.2 ≠ [] := by
  constructor
  · intro h pair hpair hv
    obtain ⟨key, value⟩ := pair
    have hlookup : data.lookup key = some value := AList.mem_lookup_iff.2 hpair
    have hread := h key
    rw [ParamPackage.lookup_ofSerialized, hlookup, Option.filter_some_neg (by simpa using hv)] at hread
    exact nomatch hread
  · intro h key
    rw [ParamPackage.lookup_ofSerialized]
    cases hlookup : data.lookup key with
    | none => rfl
    | some value =>
      have hv : value ≠ [] := h ⟨key, value⟩ (AList.mem_lookup_iff.1 hlookup)
      rw [Option.filter_some_pos (by simpa using hv)]

/-- `{a: ""}` is written as `a:` and read back as the empty package. -/
theorem paramPackage_loses_empty_value :
    ¬ RoundTrips ((∅ : ParamPackage.DataType).insert [97] []) := by
  intro h; exact absurd (h [97]) (by decide)

end Suyu.Common
