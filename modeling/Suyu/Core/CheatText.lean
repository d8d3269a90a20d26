import Mathlib

/-
  `TextCheatParser::Parse`: cheats as text.

  1. **Program** - one index runs through the text; a header hands it on by the size of its name, a word
     of hexadecimal digits by eight, and the loop by one more.  Reading behind the text is an error of
     its own.

  2. **Specification (`WellFormed`, `Ordered`)** - headers and words of EIGHT digits, separated by white
     space; no word before the first header, no `{name}` after words of the master entry.

  3. **The crux (`Scans`)** - what the code takes for a text: a word may be cut off at the end, any one
     character may follow it, and nothing need follow a header.  The code follows each such reading
     (`scan_follows`) and accepts nothing else (`scan_sound`).

  4. **When it goes wrong (`Unclosed`)** - a header that is not closed is searched past the end of the
     text.
-/

namespace Suyu.Core.CheatText

/-! ## Program -/

abbrev Word := BitVec 32

/-- `::isspace`: the space and the five controls from the tab on. -/
def isSpace (c : Char) : Bool := c.toNat == 32 || (decide (9 ≤ c.toNat) && decide (c.toNat ≤ 13))

/-- `::isxdigit`: `0` to `9`, `A` to `F`, `a` to `f`. -/
def isXDigit (c : Char) : Bool :=
  (decide (48 ≤ c.toNat) && decide (c.toNat ≤ 57)) || (decide (65 ≤ c.toNat) && decide (c.toNat ≤ 70)) ||
    (decide (97 ≤ c.toNat) && decide (c.toNat ≤ 102))

/-- The value of a hexadecimal digit. -/
def digitValue (c : Char) : Nat :=
  if c.toNat ≤ 57 then c.toNat - 48 else if c.toNat ≤ 70 then c.toNat - 55 else c.toNat - 87

/-- `static_cast<u32>(std::strtoul(hex.c_str(), nullptr, 0x10))`. -/
def strtoul (hex : List Char) : Word :=
  BitVec.ofNat 32 (hex.foldl (fun value c => value * 16 + digitValue c) 0)

/-- `CheatDefinition`: `num_opcodes` is the length of `opcodes`. -/
structure CheatDefinition where
  readableName : List Char
  opcodes : List Word
deriving DecidableEq

/-- The size of `readable_name`. -/
def nameSize : Nat := 0x40

/-- The size of `opcodes`. -/
def maxOpcodes : Nat := 0x100

def CheatDefinition.empty : CheatDefinition := ⟨List.replicate nameSize (Char.ofNat 0), []⟩

structure CheatEntry where
  enabled : Bool
  cheatId : Nat
  definition : CheatDefinition
deriving DecidableEq

/-- How the parser stops early: at an index behind the text, or by `return {}`. -/
inductive Stop where
  | outOfRange
  | rejected
  | unfinished
deriving DecidableEq

abbrev Attempt := Except Stop

/-- The locals of `Parse`. -/
structure Parser where
  out : List CheatDefinition
  currentEntry : Option Nat

section Parse

variable (data : List Char)

/-- `data[index]`. -/
def readAt (index : Nat) : Attempt Char :=
  match data[index]? with
  | some c => .ok c
  | none => .error .outOfRange

/-- The loop of `ExtractName`; `none` is its `return {}`. -/
def findMatch (close : Char) : Nat → Nat → Attempt (Option Nat)
  | 0, _ => .error .unfinished
  | fuel + 1, endIndex =>
    readAt data endIndex >>= fun c =>
      if c = close then .ok (some endIndex)
      else if endIndex + 1 > data.length then .ok none
      else findMatch close fuel (endIndex + 1)

/-- `ExtractName`: the name and its size. -/
def extractName (startIndex : Nat) (close : Char) : Attempt (List Char × Nat) :=
  findMatch data close (data.length + 1) startIndex >>= fun found =>
    match found with
    | none => .ok ([], 0)
    | some endIndex =>
      let outNameSize := endIndex - startIndex
      let endIndex := if outNameSize > nameSize then startIndex + nameSize else endIndex
      .ok ((data.drop startIndex).take (endIndex - startIndex), outNameSize)

/-- The `memcpy` of a name, and its last byte. -/
def CheatDefinition.setName (d : CheatDefinition) (name : List Char) : CheatDefinition :=
  { d with readableName :=
      (name.take nameSize ++ d.readableName.drop (min nameSize name.length)).take (nameSize - 1)
          ++ [Char.ofNat 0] }

/-- `definition.opcodes[definition.num_opcodes++] = value`. -/
def CheatDefinition.push (d : CheatDefinition) (value : Word) : CheatDefinition :=
  { d with opcodes := d.opcodes ++ [value] }

/-- `out[entry].definition.num_opcodes`. -/
def Parser.numOpcodes (p : Parser) (entry : Nat) : Nat :=
  ((p.out[entry]?).map fun d => d.opcodes.length).getD 0

/-- The name of a header, which must not be empty. -/
def headerName (startIndex : Nat) (close : Char) : Attempt (List Char × Nat) :=
  extractName data startIndex close >>= fun r => if r.1.isEmpty then .error .rejected else .ok r

/-- One round of the loop: the index before its increment, and the locals. -/
def step (i : Nat) (p : Parser) : Attempt (Nat × Parser) :=
  readAt data i >>= fun c =>
    if isSpace c then .ok (i, p)
    else if c = '{' then
      if p.numOpcodes 0 > 0 then .error .rejected
      else headerName data (i + 1) '}' >>= fun r =>
        .ok (i + (r.2 + 1), ⟨p.out.modify 0 (·.setName r.1), some 0⟩)
    else if c = '[' then
      headerName data (i + 1) ']' >>= fun r =>
        .ok (i + (r.2 + 1), ⟨p.out ++ [CheatDefinition.empty.setName r.1], some p.out.length⟩)
    else if isXDigit c then
      match p.currentEntry with
      | none => .error .rejected
      | some entry =>
        if p.numOpcodes entry ≥ maxOpcodes then .error .rejected
        else if ((data.drop i).take 8).all isXDigit then
          .ok (i + 8, { p with out := p.out.modify entry (·.push (strtoul ((data.drop i).take 8))) })
        else .error .rejected
    else .error .rejected

/-- The loop. -/
def scan : Nat → Nat → Parser → Attempt Parser
  | 0, _, _ => .error .unfinished
  | fuel + 1, i, p =>
    if i < data.length then step data i p >>= fun r => scan fuel (r.1 + 1) r.2
    else .ok p

def parse : Attempt (List CheatEntry) :=
  match scan data (data.length + 1) 0 ⟨[CheatDefinition.empty], none⟩ with
  | .ok p => .ok (p.out.mapIdx fun i d => ⟨decide (d.opcodes.length > 0), i, d⟩)
  | .error .rejected => .ok []
  | .error stop => .error stop

end Parse

/-! ## Specification -/

/-- A header or a word. -/
inductive Item where
  | master (name : List Char)
  | cheat (name : List Char)
  | word (digits : List Char)

/-- At the end of the text or in front of white space. -/
def Separated (text : List Char) : Prop := ∀ c ∈ text.head?, isSpace c = true

/-- Headers with names and words of eight digits, separated by white space. -/
inductive WellFormed : List Item → List Char → Prop where
  | nil : WellFormed [] []
  | space {items text} (c : Char) (hc : isSpace c = true) (h : WellFormed items text) :
      WellFormed items (c :: text)
  | master {items text} (name : List Char) (hname : name ≠ []) (hclose : '}' ∉ name)
      (hsep : Separated text)
      (h : WellFormed items text) : WellFormed (.master name :: items) ('{' :: (name ++ '}' :: text))
  | cheat {items text} (name : List Char) (hname : name ≠ []) (hclose : ']' ∉ name)
      (hsep : Separated text)
      (h : WellFormed items text) : WellFormed (.cheat name :: items) ('[' :: (name ++ ']' :: text))
  | word {items text} (digits : List Char) (hlen : digits.length = 8)
      (hdigits : digits.all isXDigit = true)
      (hsep : Separated text) (h : WellFormed items text) :
          WellFormed (.word digits :: items) (digits ++ text)

/-- The entry that is filled behind an item, and the number of sections. -/
def Item.place : Option Nat × Nat → Item → Option Nat × Nat
  | (_, sections), .master _ => (some 0, sections)
  | (_, sections), .cheat _ => (some (sections + 1), sections + 1)
  | place, .word _ => place

/-- The entry that is filled behind some items; `none` before the first header. -/
def current (items : List Item) : Option Nat := (items.foldl Item.place (none, 0)).1

/-- The number of sections. -/
def sections (items : List Item) : Nat := (items.foldl Item.place (none, 0)).2

/-- The words that follow a header of the entry, up to the next header. -/
def wordsFrom (entry : Nat) : Option Nat × Nat → List Item → List (List Char)
  | _, [] => []
  | place, .word digits :: items =>
    if place.1 = some entry then digits :: wordsFrom entry place items else wordsFrom entry place items
  | place, item :: items => wordsFrom entry (item.place place) items

/-- The words of an entry: 0 is the master, the others are the sections in their order. -/
def wordsOf (items : List Item) (entry : Nat) : List (List Char) := wordsFrom entry (none, 0) items

/-- Every word follows a header, and no `{name}` the words of the master. -/
def Ordered (items : List Item) : Prop :=
  (∀ before digits after, items = before ++ .word digits :: after → current before ≠ none) ∧
  ∀ before name after, items = before ++ .master name :: after → wordsOf before 0 = []

/-- No entry has more words than its array holds. -/
def Fits (items : List Item) : Prop := ∀ entry, (wordsOf items entry).length ≤ maxOpcodes

/-- The entries list the words of each section. -/
def Lists (out : List CheatEntry) (items : List Item) : Prop :=
  out.length = sections items + 1 ∧ ∀ entry e, out[entry]? = some e →
    e.definition.opcodes = (wordsOf items entry).map strtoul

/-- What the parser should do. -/
def ParseOk (data : List Char) : Prop :=
  ∃ out, parse data = .ok out ∧ (∀ e ∈ out, e.definition.opcodes.length ≤ maxOpcodes) ∧
    (out ≠ [] ↔ ∃ items, WellFormed items data ∧ Ordered items) ∧
    (out ≠ [] → ∀ items, WellFormed items data → Ordered items → Lists out items)

/-! ## How the code reads a text -/

/-- A text up to a rest: a word may be cut off at the end, one character of any kind follows it, and
    nothing need follow a header. -/
inductive Scans (rest : List Char) : List Item → List Char → Prop where
  | stop : Scans rest [] rest
  | space {items text} (c : Char) (hc : isSpace c = true) (h : Scans rest items text) :
      Scans rest items (c :: text)
  | master {items text} (name : List Char) (hname : name ≠ []) (hclose : '}' ∉ name)
      (h : Scans rest items text) :
      Scans rest (.master name :: items) ('{' :: (name ++ '}' :: text))
  | cheat {items text} (name : List Char) (hname : name ≠ []) (hclose : ']' ∉ name)
      (h : Scans rest items text) : Scans rest (.cheat name :: items) ('[' :: (name ++ ']' :: text))
  | word {items text} (digits : List Char) (c : Char) (hlen : digits.length = 8)
      (hdigits : digits.all isXDigit = true) (h : Scans rest items text) :
      Scans rest (.word digits :: items) (digits ++ c :: text)
  | lastWord (digits : List Char) (hne : digits ≠ []) (hlen : digits.length ≤ 8)
      (hdigits : digits.all isXDigit = true) (hrest : rest = []) : Scans rest [.word digits] digits

/-- A header that is looked at and not closed. -/
def Unclosed (items : List Item) (rest : List Char) : Prop :=
  (∃ name, rest = '[' :: name ∧ ']' ∉ name) ∨ ∃ name, rest = '{' :: name ∧ '}' ∉ name ∧
      wordsOf items 0 = []

/-- The texts that are read as they should be. -/
structure Regular (data : List Char) : Prop where
  closed : ∀ items rest, Scans rest items data → Ordered items → Fits items → ¬ Unclosed items rest
  strict : ∀ items, Scans [] items data → Ordered items → Fits items →
      ∃ items', WellFormed items' data ∧ Ordered items'
  fits : ∀ items, WellFormed items data → Ordered items → Fits items

/-! ## Items -/

section Items

variable {items done : List Item} {entry : Nat}

theorem wordsFrom_append (entry : Nat) (place : Option Nat × Nat) (before after : List Item) :
    wordsFrom entry place (before ++ after) =
      wordsFrom entry place before ++ wordsFrom entry (before.foldl Item.place place) after := by
  induction before generalizing place with
  | nil => rfl
  | cons item before ih =>
    cases item with
    | master name => exact ih _
    | cheat name => exact ih _
    | word digits =>
      rw [List.cons_append, wordsFrom, wordsFrom, List.foldl_cons]
      split
      · exact congrArg _ (ih place)
      · exact ih place

theorem wordsOf_append (before after : List Item) (entry : Nat) :
    wordsOf (before ++ after) entry =
      wordsOf before entry ++ wordsFrom entry (before.foldl Item.place (none, 0)) after :=
  wordsFrom_append entry _ before after

@[simp] theorem wordsOf_master (items : List Item) (name : List Char) (entry : Nat) :
    wordsOf (items ++ [.master name]) entry = wordsOf items entry := by
  rw [wordsOf_append]; exact List.append_nil _

@[simp] theorem wordsOf_cheat (items : List Item) (name : List Char) (entry : Nat) :
    wordsOf (items ++ [.cheat name]) entry = wordsOf items entry := by
  rw [wordsOf_append]; exact List.append_nil _

theorem wordsOf_word (items : List Item) (digits : List Char) (entry : Nat) :
    wordsOf (items ++ [.word digits]) entry =
      if current items = some entry then wordsOf items entry ++ [digits] else wordsOf items entry := by
  rw [wordsOf_append]
  show wordsOf items entry ++ (if current items = some entry then [digits] else []) = _
  split
  · rfl
  · exact List.append_nil _

theorem current_master (items : List Item) (name : List Char) :
    current (items ++ [.master name]) = some 0 := by
  rw [current, List.foldl_append]; rfl

theorem current_cheat (items : List Item) (name : List Char) :
    current (items ++ [.cheat name]) = some (sections items + 1) := by
  rw [current, List.foldl_append]; rfl

theorem current_word (items : List Item) (digits : List Char) :
    current (items ++ [.word digits]) = current items := by
  rw [current, List.foldl_append]; rfl

theorem sections_master (items : List Item) (name : List Char) :
    sections (items ++ [.master name]) = sections items := by
  rw [sections, List.foldl_append]; rfl

theorem sections_cheat (items : List Item) (name : List Char) :
    sections (items ++ [.cheat name]) = sections items + 1 := by
  rw [sections, List.foldl_append]; rfl

theorem sections_word (items : List Item) (digits : List Char) :
    sections (items ++ [.word digits]) = sections items := by
  rw [sections, List.foldl_append]; rfl

theorem current_le_and_wordsOf (items : List Item) :
    (∀ entry, current items = some entry → entry ≤ sections items) ∧
    ∀ entry, sections items < entry → wordsOf items entry = [] := by
  induction items using List.reverseRecOn with
  | nil => exact ⟨nofun, fun _ _ => rfl⟩
  | append_singleton items item ih =>
    obtain ⟨hcurrent, hwords⟩ := ih
    cases item with
    | master name =>
      rw [current_master, sections_master]
      refine ⟨fun entry h => ?_, fun entry h => ?_⟩
      · exact (Option.some.inj h) ▸ Nat.zero_le _
      · rw [wordsOf_master]; exact hwords entry h
    | cheat name =>
      rw [current_cheat, sections_cheat]
      refine ⟨fun entry h => (Option.some.inj h).ge, fun entry h => ?_⟩
      rw [wordsOf_cheat]; exact hwords entry (by omega)
    | word digits =>
      rw [current_word, sections_word]
      refine ⟨hcurrent, fun entry h => ?_⟩
      rw [wordsOf_word, if_neg, hwords entry h]
      intro heq; exact absurd (hcurrent entry heq) (by omega)

theorem Fits.left {before after : List Item} (h : Fits (before ++ after)) : Fits before := by
  intro entry
  have hle := h entry
  rw [wordsOf_append, List.length_append] at hle
  omega

theorem split_concat {items before after : List Item} {item last : Item}
    (h : items ++ [last] = before ++ item :: after) :
    (before = items ∧ item = last) ∨ ∃ rest, items = before ++ item :: rest := by
  rcases List.eq_nil_or_concat after with rfl | ⟨rest, last', rfl⟩
  · obtain ⟨hitems, hlast⟩ := List.append_inj' h rfl
    exact Or.inl ⟨hitems.symm, (List.cons.inj hlast).1.symm⟩
  · rw [List.concat_eq_append, ← List.cons_append, ← List.append_assoc] at h
    exact Or.inr ⟨rest, (List.append_inj' h rfl).1⟩

theorem Ordered.master (h : Ordered items) (hwords : wordsOf items 0 = []) (name : List Char) :
    Ordered (items ++ [.master name]) := by
  constructor
  · intro before digits after heq
    rcases split_concat heq with ⟨-, hlast⟩ | ⟨rest, hitems⟩
    · cases hlast
    · exact h.1 before digits rest hitems
  · intro before name' after heq
    rcases split_concat heq with ⟨hbefore, -⟩ | ⟨rest, hitems⟩
    · rw [hbefore]
      exact hwords
    · exact h.2 before name' rest hitems

theorem Ordered.cheat (h : Ordered items) (name : List Char) : Ordered (items ++ [.cheat name]) := by
  constructor
  · intro before digits after heq
    rcases split_concat heq with ⟨-, hlast⟩ | ⟨rest, hitems⟩
    · cases hlast
    · exact h.1 before digits rest hitems
  · intro before name' after heq
    rcases split_concat heq with ⟨-, hlast⟩ | ⟨rest, hitems⟩
    · cases hlast
    · exact h.2 before name' rest hitems

theorem Ordered.word (h : Ordered items) (hcurrent : current items ≠ none) (digits : List Char) :
    Ordered (items ++ [.word digits]) := by
  constructor
  · intro before digits' after heq
    rcases split_concat heq with ⟨hbefore, -⟩ | ⟨rest, hitems⟩
    · rw [hbefore]
      exact hcurrent
    · exact h.1 before digits' rest hitems
  · intro before name after heq
    rcases split_concat heq with ⟨-, hlast⟩ | ⟨rest, hitems⟩
    · cases hlast
    · exact h.2 before name rest hitems

theorem Fits.master (h : Fits items) (name : List Char) : Fits (items ++ [.master name]) := by
  intro entry
  rw [wordsOf_master]
  exact h entry

theorem Fits.cheat (h : Fits items) (name : List Char) : Fits (items ++ [.cheat name]) := by
  intro entry
  rw [wordsOf_cheat]
  exact h entry

theorem Fits.word (h : Fits items) (hroom : current items = some entry)
    (hlt : (wordsOf items entry).length < maxOpcodes) (digits : List Char) :
    Fits (items ++ [.word digits]) := by
  intro entry'
  rw [wordsOf_word]
  split
  · rename_i heq
    obtain rfl := Option.some.inj (hroom.symm.trans heq)
    rw [List.length_append]
    exact hlt
  · exact h entry'

end Items

/-! ## One round -/

/-- What the locals say about the items so far. -/
structure Matches (items : List Item) (p : Parser) : Prop where
  length : p.out.length = sections items + 1
  entry : p.currentEntry = current items
  opcodes : ∀ k d, p.out[k]? = some d → d.opcodes = (wordsOf items k).map strtoul

section Round

variable {data pre text name : List Char} {done : List Item} {p : Parser} {close c : Char}

theorem ok_bind {α β : Type} (a : α) (f : α → Attempt β) : (Except.ok a >>= f) = f a := rfl

theorem error_bind {α β : Type} (e : Stop) (f : α → Attempt β) : (Except.error e >>= f) = .error e := rfl

theorem readAt_append (pre text : List Char) (c : Char) :
    readAt (pre ++ c :: text) pre.length = .ok c := by
  rw [readAt, List.getElem?_append_right (Nat.le_refl _), Nat.sub_self]; rfl

theorem Matches.numOpcodes (h : Matches done p) {k : Nat} (hk : k ≤ sections done) :
    p.numOpcodes k = (wordsOf done k).length := by
  have hlt : k < p.out.length := by
    rw [h.length]; omega
  have hget : p.out[k]? = some p.out[k] := List.getElem?_eq_getElem hlt
  rw [Parser.numOpcodes, hget, ← List.length_map strtoul, ← h.opcodes k _ hget]
  rfl

theorem findMatch_closed {fuel : Nat} (hclose : close ∉ name) (hfuel : name.length < fuel)
    (pre text : List Char) :
    findMatch (pre ++ name ++ close :: text) close fuel pre.length
        = .ok (some (pre.length + name.length)) := by
  induction name generalizing pre fuel with
  | nil =>
    obtain ⟨fuel, rfl⟩ : ∃ f, fuel = f + 1 := ⟨fuel - 1, by omega⟩
    rw [List.append_nil, findMatch, readAt_append, ok_bind, if_pos rfl]; rfl
  | cons c name ih =>
    obtain ⟨fuel, rfl⟩ : ∃ f, fuel = f + 1 := ⟨fuel - 1, by omega⟩
    have hne : c ≠ close := fun h => hclose (h ▸ List.mem_cons_self)
    have hrest := ih (fun h => hclose (List.mem_cons_of_mem _ h)) (Nat.lt_of_succ_lt_succ hfuel)
        (pre ++ [c])
    have htext : pre ++ c :: name ++ close :: text = pre ++ [c] ++ name ++ close :: text := by simp
    have hread : readAt (pre ++ c :: name ++ close :: text) pre.length = .ok c := by
      rw [List.append_assoc]; exact readAt_append pre _ c
    have hlen : ¬ pre.length + 1 > (pre ++ c :: name ++ close :: text).length := by
      simp
    rw [findMatch, hread, ok_bind, if_neg hne, if_neg hlen, htext]
    rw [List.length_append, List.length_singleton] at hrest
    rw [hrest, List.length_cons]
    congr 2; omega

theorem findMatch_unclosed {fuel : Nat} (hclose : close ∉ name) (hfuel : name.length < fuel)
    (pre : List Char) : findMatch (pre ++ name) close fuel pre.length = .error .outOfRange := by
  induction name generalizing pre fuel with
  | nil =>
    obtain ⟨fuel, rfl⟩ : ∃ f, fuel = f + 1 := ⟨fuel - 1, by omega⟩
    rw [List.append_nil, findMatch, readAt, List.getElem?_eq_none (Nat.le_refl _)]; rfl
  | cons c name ih =>
    obtain ⟨fuel, rfl⟩ : ∃ f, fuel = f + 1 := ⟨fuel - 1, by omega⟩
    have hne : c ≠ close := fun h => hclose (h ▸ List.mem_cons_self)
    have hrest := ih (fun h => hclose (List.mem_cons_of_mem _ h)) (Nat.lt_of_succ_lt_succ hfuel)
        (pre ++ [c])
    have hlen : ¬ pre.length + 1 > (pre ++ c :: name).length := by
      simp
    rw [findMatch, readAt_append, ok_bind, if_neg hne, if_neg hlen, List.append_cons]
    rwa [List.length_append, List.length_singleton] at hrest

theorem headerName_closed (hclose : close ∉ name) (pre text : List Char) :
    headerName (pre ++ name ++ close :: text) pre.length close =
      if name = [] then .error .rejected else .ok (name.take nameSize, name.length) := by
  have hfuel : name.length < (pre ++ name ++ close :: text).length + 1 := by
    simp; omega
  have hdrop : (pre ++ name ++ close :: text).drop pre.length = name ++ close :: text := by
    rw [List.append_assoc, List.drop_left]
  have hname : extractName (pre ++ name ++ close :: text) pre.length close =
      .ok (name.take nameSize, name.length) := by
    rw [extractName, findMatch_closed hclose hfuel, ok_bind]
    show Except.ok (List.take
        ((if pre.length + name.length - pre.length > nameSize then pre.length + nameSize
      else pre.length + name.length) - pre.length) ((pre ++ name ++ close :: text).drop pre.length),
      pre.length + name.length - pre.length) = _
    rw [hdrop, Nat.add_sub_cancel_left]
    split
    · rename_i hlong
      rw [Nat.add_sub_cancel_left, List.take_append_of_le_length (by omega)]
    · rename_i hshort
      rw [Nat.add_sub_cancel_left, List.take_left, List.take_of_length_le (by omega)]
  rw [headerName, hname, ok_bind]
  cases name with
  | nil => rfl
  | cons c name => rfl

theorem headerName_unclosed (hclose : close ∉ name) (pre : List Char) :
    headerName (pre ++ name) pre.length close = .error .outOfRange := by
  have hfuel : name.length < (pre ++ name).length + 1 := by
    rw [List.length_append]; omega
  rw [headerName, extractName, findMatch_unclosed hclose hfuel]
  rfl

theorem xdigit_ne (h : isXDigit c = true) : isSpace c = false ∧ c ≠ '{' ∧ c ≠ '[' := by
  have hrange : 48 ≤ c.toNat ∧ c.toNat ≤ 57 ∨ 65 ≤ c.toNat ∧ c.toNat ≤ 70 ∨ 97 ≤ c.toNat ∧
      c.toNat ≤ 102 := by
    simpa [isXDigit, or_assoc] using h
  refine ⟨?_, ?_, ?_⟩
  · simp [isSpace]
    omega
  · rintro rfl
    revert hrange
    decide
  · rintro rfl
    revert hrange
    decide

theorem step_space (hc : isSpace c = true) (pre text : List Char) (p : Parser) :
    step (pre ++ c :: text) pre.length p = .ok (pre.length, p) := by
  rw [step, readAt_append, ok_bind, if_pos hc]

theorem step_master (h : Matches done p) (hclose : '}' ∉ name) (hwords : wordsOf done 0 = [])
    (pre text : List Char) : step (pre ++ '{' :: (name ++ '}' :: text)) pre.length p =
      if name = [] then .error .rejected
      else .ok (pre.length + (name.length + 1),
          ⟨p.out.modify 0 (·.setName (name.take nameSize)), some 0⟩) := by
  have hzero : ¬ p.numOpcodes 0 > 0 := by
    rw [h.numOpcodes (Nat.zero_le _), hwords]; exact Nat.lt_irrefl 0
  have hdata : pre ++ '{' :: (name ++ '}' :: text) = pre ++ ['{'] ++ name ++ '}' :: text := by simp
  have hheader := headerName_closed hclose (pre ++ ['{']) text
  rw [List.length_append, List.length_singleton] at hheader
  rw [step, readAt_append, ok_bind, if_neg (by decide), if_pos rfl, if_neg hzero, hdata, hheader]
  split
  · rfl
  · rfl

theorem step_master_late (h : Matches done p) (hwords : wordsOf done 0 ≠ []) (pre text : List Char) :
    step (pre ++ '{' :: text) pre.length p = .error .rejected := by
  have hpos : p.numOpcodes 0 > 0 := by
    rw [h.numOpcodes (Nat.zero_le _)]; exact List.length_pos_of_ne_nil hwords
  rw [step, readAt_append, ok_bind, if_neg (by decide), if_pos rfl, if_pos hpos]

theorem step_master_unclosed (h : Matches done p) (hclose : '}' ∉ text) (hwords : wordsOf done 0 = [])
    (pre : List Char) : step (pre ++ '{' :: text) pre.length p = .error .outOfRange := by
  have hzero : ¬ p.numOpcodes 0 > 0 := by
    rw [h.numOpcodes (Nat.zero_le _), hwords]; exact Nat.lt_irrefl 0
  have hheader := headerName_unclosed hclose (pre ++ ['{'])
  rw [List.length_append, List.length_singleton, ← List.append_cons] at hheader
  rw [step, readAt_append, ok_bind, if_neg (by decide), if_pos rfl, if_neg hzero, hheader]
  rfl

theorem step_cheat (hclose : ']' ∉ name) (pre text : List Char) (p : Parser) :
    step (pre ++ '[' :: (name ++ ']' :: text)) pre.length p =
      if name = [] then .error .rejected
      else .ok (pre.length + (name.length + 1),
        ⟨p.out ++ [CheatDefinition.empty.setName (name.take nameSize)], some p.out.length⟩) := by
  have hdata : pre ++ '[' :: (name ++ ']' :: text) = pre ++ ['['] ++ name ++ ']' :: text := by simp
  have hheader := headerName_closed hclose (pre ++ ['[']) text
  rw [List.length_append, List.length_singleton] at hheader
  rw [step, readAt_append, ok_bind, if_neg (by decide), if_neg (by decide), if_pos rfl, hdata, hheader]
  split
  · rfl
  · rfl

theorem step_cheat_unclosed (hclose : ']' ∉ text) (pre : List Char) (p : Parser) :
    step (pre ++ '[' :: text) pre.length p = .error .outOfRange := by
  have hheader := headerName_unclosed hclose (pre ++ ['['])
  rw [List.length_append, List.length_singleton, ← List.append_cons] at hheader
  rw [step, readAt_append, ok_bind, if_neg (by decide), if_neg (by decide), if_pos rfl, hheader]
  rfl

theorem step_word (h : Matches done p) (hc : isXDigit c = true) (pre text : List Char) :
    step (pre ++ c :: text) pre.length p =
      match current done with
      | none => .error .rejected
      | some entry =>
        if (wordsOf done entry).length ≥ maxOpcodes then .error .rejected
        else if ((c :: text).take 8).all isXDigit then
          .ok (pre.length + 8,
              { p with out := p.out.modify entry (·.push (strtoul ((c :: text).take 8))) })
        else .error .rejected := by
  obtain ⟨hspace, hmaster, hcheat⟩ := xdigit_ne hc
  rw [step, readAt_append, ok_bind, if_neg (by rw [hspace]; decide), if_neg hmaster, if_neg hcheat,
      if_pos hc,
    List.drop_left, h.entry]
  cases hcurrent : current done with
  | none => rfl
  | some entry =>
    have hnum := h.numOpcodes ((current_le_and_wordsOf done).1 entry hcurrent)
    show (if p.numOpcodes entry ≥ maxOpcodes then _ else _) = _
    rw [hnum]

theorem step_other (hspace : isSpace c = false)
    (hmaster : c ≠ '{') (hcheat : c ≠ '[') (hc : isXDigit c = false)
    (pre text : List Char) (p : Parser) : step (pre ++ c :: text) pre.length p = .error .rejected := by
  rw [step, readAt_append, ok_bind, if_neg (by rw [hspace]; decide), if_neg hmaster, if_neg hcheat,
    if_neg (by rw [hc]; decide)]

theorem Matches.master (h : Matches done p) (name shown : List Char) :
    Matches (done ++ [.master name]) ⟨p.out.modify 0 (·.setName shown), some 0⟩ where
  length := by
    rw [sections_master, List.length_modify]; exact h.length
  entry := (current_master done name).symm
  opcodes := by
    intro k d hd
    rw [List.getElem?_modify] at hd
    obtain ⟨d', hd', rfl⟩ := Option.map_eq_some_iff.mp hd
    rw [wordsOf_master, ← h.opcodes k d' hd']
    split
    · rfl
    · rfl

theorem Matches.cheat (h : Matches done p) (name shown : List Char) :
    Matches (done ++ [.cheat name]) ⟨p.out ++ [CheatDefinition.empty.setName shown],
        some p.out.length⟩ where
  length := by
    rw [sections_cheat, List.length_append, h.length]; rfl
  entry := by rw [current_cheat, h.length]
  opcodes := by
    intro k d hd
    rw [wordsOf_cheat]
    by_cases hk : k < p.out.length
    · rw [List.getElem?_append_left hk] at hd
      exact h.opcodes k d hd
    · rw [List.getElem?_append_right (Nat.le_of_not_lt hk)] at hd
      have hlast : k - p.out.length = 0 := by
        have hlt := (List.getElem?_eq_some_iff.mp hd).1
        rw [List.length_singleton] at hlt; omega
      rw [hlast] at hd
      obtain rfl := Option.some.inj hd
      rw [(current_le_and_wordsOf done).2 k (by rw [h.length] at hk; omega)]; rfl

theorem Matches.word (h : Matches done p) {entry : Nat} (hcurrent : current done = some entry)
    (digits : List Char) :
    Matches (done ++ [.word digits]) { p with out := p.out.modify entry (·.push (strtoul digits)) } where
  length := by
    rw [sections_word, List.length_modify]; exact h.length
  entry := h.entry.trans (current_word done digits).symm
  opcodes := by
    intro k d hd
    rw [List.getElem?_modify] at hd
    obtain ⟨d', hd', rfl⟩ := Option.map_eq_some_iff.mp hd
    rw [wordsOf_word, hcurrent]
    by_cases hk : entry = k
    · rw [if_pos hk, if_pos (congrArg some hk), List.map_append, ← h.opcodes k d' hd']
      rfl
    · rw [if_neg hk, if_neg (fun heq => hk (Option.some.inj heq))]; exact h.opcodes k d' hd'

end Round

/-! ## The loop -/

section Loop

variable {data rest text : List Char} {done items : List Item} {p : Parser} {fuel i : Nat}

theorem scan_step {r : Nat × Parser} (hi : i < data.length) (h : step data i p = .ok r) :
    scan data (fuel + 1) i p = scan data fuel (r.1 + 1) r.2 := by
  rw [scan, if_pos hi, h, ok_bind]

theorem scan_error {stop : Stop} (hi : i < data.length) (h : step data i p = .error stop) :
    scan data (fuel + 1) i p = .error stop := by
  rw [scan, if_pos hi, h, error_bind]

theorem scan_end (hi : data.length ≤ i) : scan data (fuel + 1) i p = .ok p := by
  rw [scan, if_neg (by omega)]

theorem scan_shown {pre shown : List Char} {j : Nat} {p' : Parser} (hne : shown ≠ [])
    (hstep : step (pre ++ (shown ++ text)) pre.length p = .ok (j, p'))
    (hj : j + 1 = pre.length + shown.length) :
    scan (pre ++ (shown ++ text)) (fuel + 1) pre.length p =
      scan (pre ++ shown ++ text) fuel (pre ++ shown).length p' := by
  have hi : pre.length < (pre ++ (shown ++ text)).length := by
    have hpos := List.length_pos_of_ne_nil hne
    rw [List.length_append, List.length_append]; omega
  rw [scan_step hi hstep, List.append_assoc, List.length_append, ← hj]

theorem header_append (o close : Char) (name text : List Char) :
    o :: (name ++ close :: text) = o :: (name ++ [close]) ++ text := by
  rw [List.cons_append, List.append_assoc]; rfl

theorem length_header (pre name : List Char) (o close : Char) :
    pre.length + (name.length + 1) + 1 = pre.length + (o :: (name ++ [close])).length := by
  rw [List.length_cons, List.length_append, List.length_singleton, Nat.add_assoc]

/-- A run comes to the rest of the text, with the items in front of it in the locals. -/
def Arrives (data rest : List Char) (items : List Item) (run : Attempt Parser) : Prop :=
  ∃ fuel i p, run = scan data fuel i p ∧ Matches items p ∧ rest.length < fuel ∧
      data.length ≤ i + rest.length ∧
    (rest ≠ [] → i + rest.length = data.length)

theorem length_lt_of_append {shown : List Char} (hne : shown ≠ [])
    (h : (shown ++ text).length < fuel + 1) : text.length < fuel := by
  have hpos := List.length_pos_of_ne_nil hne
  rw [List.length_append] at h
  omega

theorem Ordered.current_ne_none {digits : List Char} (h : Ordered (done ++ .word digits :: items)) :
    current done ≠ none := h.1 done digits items rfl

theorem Fits.place {digits : List Char} {entry : Nat} (h : Fits (done ++ .word digits :: items))
    (hentry : current done = some entry) : (wordsOf done entry).length < maxOpcodes := by
  rw [List.append_cons] at h
  have hle := h.left entry
  rw [wordsOf_word, if_pos hentry, List.length_append] at hle
  exact hle

theorem step_word_ok {digits : List Char} {entry : Nat} (hmatch : Matches done p)
    (hentry : current done = some entry) (hplace : (wordsOf done entry).length < maxOpcodes)
    (hne : digits ≠ []) (hdigits : digits.all isXDigit = true)
    (htake : (digits ++ text).take 8 = digits) (pre : List Char) :
    step (pre ++ (digits ++ text)) pre.length p =
      .ok (pre.length + 8, { p with out := p.out.modify entry (·.push (strtoul digits)) }) := by
  cases digits with
  | nil => exact absurd rfl hne
  | cons c digits =>
    have hc : isXDigit c = true := List.all_eq_true.mp hdigits c List.mem_cons_self
    have hstep := step_word hmatch hc pre (digits ++ text)
    rw [hentry, ← List.cons_append, htake] at hstep
    refine hstep.trans ?_
    show (if _ then _ else if _ then _ else _) = _
    rw [if_neg (by omega), if_pos hdigits]

/-- **The code follows every reading of the text** whose items have a place. -/
theorem scan_follows (h : Scans rest items text) {pre : List Char} (hmatch : Matches done p)
    (hordered : Ordered (done ++ items)) (hfits : Fits (done ++ items)) (hfuel : text.length < fuel) :
    Arrives (pre ++ text) rest (done ++ items) (scan (pre ++ text) fuel pre.length p) := by
  induction h generalizing pre done p fuel with
  | stop =>
    refine ⟨fuel, pre.length, p, rfl, ?_, hfuel, ?_, fun _ => ?_⟩
    · rwa [List.append_nil]
    · rw [List.length_append]
    · rw [List.length_append]
  | @space items text c hc _ ih =>
    obtain ⟨fuel, rfl⟩ : ∃ f, fuel = f + 1 := ⟨fuel - 1, by omega⟩
    have hrun : scan (pre ++ ([c] ++ text)) (fuel + 1) pre.length p = _ :=
      scan_shown (List.cons_ne_nil c []) (step_space hc pre text p) rfl
    have hrest := @ih _ _ fuel (pre ++ [c]) hmatch hordered hfits (Nat.lt_of_succ_lt_succ hfuel)
    rw [← hrun, List.append_assoc] at hrest; exact hrest
  | @master items text name hname hclose _ ih =>
    obtain ⟨fuel, rfl⟩ : ∃ f, fuel = f + 1 := ⟨fuel - 1, by omega⟩
    have hstep := step_master hmatch hclose (hordered.2 done name items rfl) pre text
    rw [if_neg hname, header_append] at hstep
    rw [List.append_cons done] at hordered hfits ⊢
    rw [header_append] at hfuel ⊢
    have hne : '{' :: (name ++ ['}']) ≠ [] := List.cons_ne_nil _ _
    have hrest := @ih _ _ fuel (pre ++ '{' :: (name ++ ['}']))
        (hmatch.master name (name.take nameSize)) hordered hfits
      (length_lt_of_append hne hfuel)
    rw [← scan_shown hne hstep (length_header ..), List.append_assoc pre] at hrest
    exact hrest
  | @cheat items text name hname hclose _ ih =>
    obtain ⟨fuel, rfl⟩ : ∃ f, fuel = f + 1 := ⟨fuel - 1, by omega⟩
    have hstep := step_cheat hclose pre text p
    rw [if_neg hname, header_append] at hstep
    rw [List.append_cons done] at hordered hfits ⊢
    rw [header_append] at hfuel ⊢
    have hne : '[' :: (name ++ [']']) ≠ [] := List.cons_ne_nil _ _
    have hrest := @ih _ _ fuel (pre ++ '[' :: (name ++ [']']))
        (hmatch.cheat name (name.take nameSize)) hordered hfits
      (length_lt_of_append hne hfuel)
    rw [← scan_shown hne hstep (length_header ..), List.append_assoc pre] at hrest
    exact hrest
  | @word items text digits c hlen hdigits _ ih =>
    obtain ⟨fuel, rfl⟩ : ∃ f, fuel = f + 1 := ⟨fuel - 1, by omega⟩
    obtain ⟨entry, hentry⟩ := Option.ne_none_iff_exists'.mp hordered.current_ne_none
    have hne : digits ≠ [] := fun h => by rw [h] at hlen; cases hlen
    have htake : (digits ++ c :: text).take 8 = digits := hlen ▸ List.take_left
    have hstep := step_word_ok hmatch hentry (hfits.place hentry) hne hdigits htake pre
    have htext : digits ++ c :: text = digits ++ [c] ++ text := List.append_cons ..
    rw [List.append_cons done] at hordered hfits ⊢
    rw [htext] at hstep hfuel ⊢
    have hne' : digits ++ [c] ≠ [] := List.append_ne_nil_of_left_ne_nil hne _
    have hrest := @ih _ _ fuel (pre ++ (digits ++ [c])) (hmatch.word hentry digits) hordered hfits
      (length_lt_of_append hne' hfuel)
    have hj : pre.length + 8 + 1 = pre.length + (digits ++ [c]).length := by
      rw [List.length_append, hlen]; rfl
    rw [← scan_shown hne' hstep hj, List.append_assoc pre] at hrest; exact hrest
  | lastWord digits hne hlen hdigits hrest =>
    obtain ⟨fuel, rfl⟩ : ∃ f, fuel = f + 1 := ⟨fuel - 1, by omega⟩
    obtain ⟨entry, hentry⟩ := Option.ne_none_iff_exists'.mp hordered.current_ne_none
    have htake : (digits ++ []).take 8 = digits := by rw [List.append_nil, List.take_of_length_le hlen]
    have hstep := step_word_ok hmatch hentry (hfits.place hentry) hne hdigits htake pre
    rw [List.append_nil] at hstep
    have hpos := List.length_pos_of_ne_nil hne
    have hi : pre.length < (pre ++ digits).length := by
      rw [List.length_append]; omega
    refine ⟨fuel, pre.length + 8 + 1, _, scan_step hi hstep, hmatch.word hentry digits, ?_, ?_,
        fun h => absurd hrest h⟩
    · rw [hrest, List.length_nil]
      omega
    · rw [List.length_append]; omega

/-- What a run of the loop says about the text that is left. -/
def Outcome (done : List Item) (text : List Char) : Attempt Parser → Prop
  | .ok _ => ∃ items, Scans [] items text ∧ Ordered (done ++ items) ∧ Fits (done ++ items)
  | .error .outOfRange =>
      ∃ items rest, Scans rest items text ∧ Ordered (done ++ items) ∧ Fits (done ++ items) ∧
      Unclosed (done ++ items) rest
  | .error .rejected => True
  | .error .unfinished => False

theorem Outcome.lift {read : List Item} {text' : List Char} {run : Attempt Parser}
    (hlift : ∀ rest items, Scans rest items text → Scans rest (read ++ items) text')
    (h : Outcome (done ++ read) text run) : Outcome done text' run := by
  cases run with
  | ok p =>
    obtain ⟨items, hscans, hordered, hfits⟩ := h
    rw [List.append_assoc] at hordered hfits
    exact ⟨read ++ items, hlift _ _ hscans, hordered, hfits⟩
  | error stop =>
    cases stop with
    | outOfRange =>
      obtain ⟨items, rest, hscans, hordered, hfits, hunclosed⟩ := h
      rw [List.append_assoc] at hordered hfits hunclosed
      exact ⟨read ++ items, rest, hlift _ _ hscans, hordered, hfits, hunclosed⟩
    | rejected => trivial
    | unfinished => exact h.elim

section Sound

variable {pre : List Char} (hmatch : Matches done p) (hordered : Ordered done) (hfits : Fits done)

/-- The rest of the text is read as `Outcome` says, whatever stands in front of it. -/
def Sound (fuel : Nat) : Prop :=
  ∀ (pre text : List Char) (done : List Item) (p : Parser), Matches done p → Ordered done → Fits done →
    text.length < fuel → Outcome done text (scan (pre ++ text) fuel pre.length p)

include hmatch hordered hfits

theorem sound_master (ih : Sound fuel) (hfuel : ('{' :: text).length < fuel + 1) :
    Outcome done ('{' :: text) (scan (pre ++ '{' :: text) (fuel + 1) pre.length p) := by
  have hi : pre.length < (pre ++ '{' :: text).length := by simp
  by_cases hwords : wordsOf done 0 = []
  · by_cases hclosed : '}' ∈ text
    · obtain ⟨name, text, rfl, hclose⟩ := List.eq_append_cons_of_mem hclosed
      have hstep := step_master hmatch hclose hwords pre text
      by_cases hname : name = []
      · rw [if_pos hname] at hstep
        rw [scan_error hi hstep]
        trivial
      · rw [if_neg hname, header_append] at hstep
        rw [header_append] at hfuel
        have hne : '{' :: (name ++ ['}']) ≠ [] := List.cons_ne_nil _ _
        have hrest := ih (pre ++ '{' :: (name ++ ['}']))
            text _ _ (hmatch.master name (name.take nameSize))
          (hordered.master hwords name) (hfits.master name) (length_lt_of_append hne hfuel)
        rw [← scan_shown hne hstep (length_header ..)] at hrest
        rw [header_append]
        refine hrest.lift fun rest items h => ?_
        rw [← header_append]; exact .master name hname hclose h
    · rw [scan_error hi (step_master_unclosed hmatch hclosed hwords pre)]
      refine ⟨[], '{' :: text, .stop, ?_, ?_, Or.inr ⟨text, rfl, hclosed, ?_⟩⟩
      · rwa [List.append_nil]
      · rwa [List.append_nil]
      · rwa [List.append_nil]
  · rw [scan_error hi (step_master_late hmatch hwords pre text)]; trivial

theorem sound_cheat (ih : Sound fuel) (hfuel : ('[' :: text).length < fuel + 1) :
    Outcome done ('[' :: text) (scan (pre ++ '[' :: text) (fuel + 1) pre.length p) := by
  have hi : pre.length < (pre ++ '[' :: text).length := by simp
  by_cases hclosed : ']' ∈ text
  · obtain ⟨name, text, rfl, hclose⟩ := List.eq_append_cons_of_mem hclosed
    have hstep := step_cheat hclose pre text p
    by_cases hname : name = []
    · rw [if_pos hname] at hstep
      rw [scan_error hi hstep]
      trivial
    · rw [if_neg hname, header_append] at hstep
      rw [header_append] at hfuel
      have hne : '[' :: (name ++ [']']) ≠ [] := List.cons_ne_nil _ _
      have hrest := ih (pre ++ '[' :: (name ++ [']'])) text _ _ (hmatch.cheat name (name.take nameSize))
        (hordered.cheat name) (hfits.cheat name) (length_lt_of_append hne hfuel)
      rw [← scan_shown hne hstep (length_header ..)] at hrest
      rw [header_append]
      refine hrest.lift fun rest items h => ?_
      rw [← header_append]; exact .cheat name hname hclose h
  · rw [scan_error hi (step_cheat_unclosed hclosed pre p)]
    refine ⟨[], '[' :: text, .stop, ?_, ?_, Or.inl ⟨text, rfl, hclosed⟩⟩
    · rwa [List.append_nil]
    · rwa [List.append_nil]

theorem sound_word {c : Char} (hc : isXDigit c = true) (ih : Sound fuel)
    (hfuel : (c :: text).length < fuel + 1) :
    Outcome done (c :: text) (scan (pre ++ c :: text) (fuel + 1) pre.length p) := by
  have hi : pre.length < (pre ++ c :: text).length := by simp
  have hstep := step_word hmatch hc pre text
  cases hentry : current done with
  | none =>
    rw [hentry] at hstep
    rw [scan_error hi hstep]; trivial
  | some entry =>
    have hcurrent : current done ≠ none := fun h => by rw [h] at hentry; cases hentry
    rw [hentry] at hstep
    by_cases hplace : (wordsOf done entry).length ≥ maxOpcodes
    · rw [scan_error hi (hstep.trans (if_pos hplace))]
      trivial
    · replace hstep := hstep.trans (if_neg hplace)
      by_cases hdigits : ((c :: text).take 8).all isXDigit = true
      · replace hstep := hstep.trans (if_pos hdigits)
        have hplace' : (wordsOf done entry).length < maxOpcodes := by omega
        have hordered' := hordered.word hcurrent ((c :: text).take 8)
        have hfits' := hfits.word hentry hplace' ((c :: text).take 8)
        by_cases hlast : (c :: text).length ≤ 8
        · -- The word is the last of the text.
          have hend : (pre ++ c :: text).length ≤ pre.length + 8 + 1 := by
            rw [List.length_append]; omega
          obtain ⟨fuel, rfl⟩ : ∃ f, fuel = f + 1 := ⟨fuel - 1, by rw [List.length_cons] at hfuel; omega⟩
          rw [scan_step hi hstep, scan_end hend]
          rw [List.take_of_length_le hlast] at hordered' hfits' hdigits
          exact ⟨[.word (c :: text)], .lastWord _ (List.cons_ne_nil _ _) hlast hdigits rfl,
              hordered', hfits'⟩
        · -- The round skips the character behind the word, whatever it is.
          have hlen : ((c :: text).take 8).length = 8 := List.length_take_of_le (by omega)
          cases hdrop : (c :: text).drop 8 with
          | nil => exact absurd (List.drop_eq_nil_iff.mp hdrop) hlast
          | cons next text' =>
            have hsplit : c :: text = (c :: text).take 8 ++ [next] ++ text' := by
              rw [List.append_assoc, List.singleton_append, ← hdrop, List.take_append_drop]
            have hne : (c :: text).take 8 ++ [next] ≠ [] := List.append_ne_nil_of_right_ne_nil _ (by simp)
            have hj : pre.length + 8 + 1 = pre.length + ((c :: text).take 8 ++ [next]).length := by
              rw [List.length_append, hlen]; rfl
            have hshort : text'.length < fuel := by
              have hcount := congrArg List.length hdrop
              simp only [List.length_drop, List.length_cons] at hcount hfuel; omega
            have hrest := ih (pre ++ ((c :: text).take 8 ++ [next])) text' _ _ (hmatch.word hentry _)
                hordered'
              hfits' hshort
            have hrun := @scan_shown text' p fuel pre _ _ _ hne (by rw [← hsplit]; exact hstep) hj
            rw [← hsplit] at hrun
            rw [← hrun] at hrest
            refine hrest.lift fun rest items h => ?_
            have hword := Scans.word _ next hlen hdigits h
            rw [List.append_cons, ← hsplit] at hword; exact hword
      · rw [scan_error hi (hstep.trans (if_neg hdigits))]; trivial

omit hmatch hordered hfits

end Sound

/-- **The code accepts nothing else**, and leaves the text only at a header that is not closed. -/
theorem scan_sound (fuel : Nat) : Sound fuel := by
  induction fuel with
  | zero =>
    intro pre text done p _ _ _ hfuel; exact absurd hfuel (Nat.not_lt_zero _)
  | succ fuel ih =>
    intro pre text done p hmatch hordered hfits hfuel
    cases text with
    | nil =>
      rw [List.append_nil, scan_end (Nat.le_refl _)]
      refine ⟨[], .stop, ?_, ?_⟩
      · rwa [List.append_nil]
      · rwa [List.append_nil]
    | cons c text =>
      have hi : pre.length < (pre ++ c :: text).length := by simp
      by_cases hspace : isSpace c = true
      · have hrest := ih (pre ++ [c]) text done p hmatch hordered hfits (Nat.lt_of_succ_lt_succ hfuel)
        have hrun : scan (pre ++ ([c] ++ text)) (fuel + 1) pre.length p = _ :=
          scan_shown (List.cons_ne_nil c []) (step_space hspace pre text p) rfl
        rw [← hrun] at hrest
        have hrest' : Outcome (done ++ []) text (scan (pre ++ ([c] ++ text))
            (fuel + 1) pre.length p) := by
          rwa [List.append_nil]
        exact Outcome.lift (fun rest items h =>
            show Scans rest ([] ++ items) (c :: text) from .space c hspace h) hrest'
      · by_cases hmaster : c = '{'
        · subst hmaster; exact sound_master hmatch hordered hfits ih hfuel
        by_cases hcheat : c = '['
        · subst hcheat; exact sound_cheat hmatch hordered hfits ih hfuel
        by_cases hc : isXDigit c = true
        · exact sound_word hmatch hordered hfits hc ih hfuel
        · rw [scan_error hi (step_other (Bool.eq_false_iff.mpr hspace) hmaster hcheat
            (Bool.eq_false_iff.mpr hc) pre text p)]
          trivial

end Loop

/-! ## Result -/

variable {items : List Item}

theorem Scans.tail {rest text : List Char} {c : Char} (h : Scans rest items (c :: text))
    (hc : isSpace c = true) (hrest : rest = []) : Scans rest items text := by
  have hdigit : ∀ {digits : List Char}, digits.all isXDigit = true → c ∉ digits := by
    intro digits hdigits hmem
    have hspace := (xdigit_ne (List.all_eq_true.mp hdigits c hmem)).1
    rw [hc] at hspace; cases hspace
  generalize hwhole : c :: text = whole at h
  cases h with
  | stop => rw [hrest] at hwhole; cases hwhole
  | space c' _ h =>
    obtain ⟨-, rfl⟩ := List.cons.inj hwhole; exact h
  | master name _ _ _ =>
    obtain ⟨rfl, -⟩ := List.cons.inj hwhole; cases hc
  | cheat name _ _ _ =>
    obtain ⟨rfl, -⟩ := List.cons.inj hwhole; cases hc
  | word digits c' hlen hdigits _ =>
    cases digits with
    | nil => cases hlen
    | cons d digits =>
      obtain ⟨rfl, -⟩ := List.cons.inj hwhole; exact absurd List.mem_cons_self (hdigit hdigits)
  | lastWord digits _ _ hdigits _ =>
    rw [← hwhole] at hdigits; exact absurd List.mem_cons_self (hdigit hdigits)

theorem Scans.suffix {rest text : List Char} (h : Scans rest items text) : rest <:+ text := by
  induction h with
  | stop => exact List.suffix_refl rest
  | space c _ _ ih => exact ih.trans (List.suffix_cons c _)
  | master name _ _ _ ih =>
    rw [header_append]; exact ih.trans (List.suffix_append _ _)
  | cheat name _ _ _ ih =>
    rw [header_append]; exact ih.trans (List.suffix_append _ _)
  | word digits c _ _ _ ih =>
    rw [List.append_cons]; exact ih.trans (List.suffix_append _ _)
  | lastWord digits _ _ _ hrest =>
    rw [hrest]; exact List.nil_suffix

theorem WellFormed.eq_nil (h : WellFormed items []) : items = [] := by
  generalize hwhole : ([] : List Char) = whole at h
  cases h with
  | nil => rfl
  | space => cases hwhole
  | master => cases hwhole
  | cheat => cases hwhole
  | word digits hlen =>
    rw [(List.append_eq_nil_iff.mp hwhole.symm).1] at hlen; cases hlen

theorem WellFormed.scans {text : List Char} (h : WellFormed items text) : Scans [] items text := by
  induction h with
  | nil => exact .stop
  | space c hc _ ih => exact .space c hc ih
  | master name hname hclose _ _ ih => exact .master name hname hclose ih
  | cheat name hname hclose _ _ ih => exact .cheat name hname hclose ih
  | @word items text digits hlen hdigits hsep h ih =>
    cases text with
    | nil =>
      obtain rfl := h.eq_nil
      rw [List.append_nil]
      refine .lastWord digits (fun hnil => ?_) hlen.le hdigits rfl
      rw [hnil] at hlen; cases hlen
    | cons c text => exact .word digits c hlen hdigits (ih.tail (hsep c rfl) rfl)

theorem matches_nil : Matches [] ⟨[CheatDefinition.empty], none⟩ where
  length := rfl
  entry := rfl
  opcodes := by
    intro k d hd
    cases k with
    | zero =>
      obtain rfl := Option.some.inj hd; rfl
    | succ k => cases hd

theorem ordered_nil : Ordered [] := by
  refine ⟨fun before digits after h => ?_, fun before name after h => ?_⟩
  · exact absurd h.symm (List.append_ne_nil_of_right_ne_nil _ (List.cons_ne_nil _ _))
  · exact absurd h.symm (List.append_ne_nil_of_right_ne_nil _ (List.cons_ne_nil _ _))

theorem fits_nil : Fits [] := fun _ => Nat.zero_le _

section Result

variable {data : List Char} {items : List Item}

theorem run_sound (data : List Char) :
    Outcome [] data (scan data (data.length + 1) 0 ⟨[CheatDefinition.empty], none⟩) :=
  scan_sound (data.length + 1) [] data [] _ matches_nil ordered_nil fits_nil (Nat.lt_succ_self _)

theorem run_follows {rest : List Char} (h : Scans rest items data) (hordered : Ordered items)
    (hfits : Fits items) :
    Arrives data rest items (scan data (data.length + 1) 0 ⟨[CheatDefinition.empty], none⟩) :=
  @scan_follows rest data [] items _ _ h [] matches_nil hordered hfits (Nat.lt_succ_self _)

theorem run_accepts (h : Scans [] items data) (hordered : Ordered items) (hfits : Fits items) :
    ∃ p, scan data (data.length + 1) 0 ⟨[CheatDefinition.empty], none⟩ = .ok p ∧ Matches items p := by
  obtain ⟨fuel, i, p, hrun, hmatch, hfuel, hend, -⟩ := run_follows h hordered hfits
  obtain ⟨fuel, rfl⟩ : ∃ f, fuel = f + 1 := ⟨fuel - 1, by rw [List.length_nil] at hfuel; omega⟩
  exact ⟨p, hrun.trans (scan_end hend), hmatch⟩

theorem run_leaves {rest : List Char} (h : Scans rest items data) (hordered : Ordered items)
    (hfits : Fits items) (hunclosed : Unclosed items rest) :
    scan data (data.length + 1) 0 ⟨[CheatDefinition.empty], none⟩ = .error .outOfRange := by
  obtain ⟨fuel, i, p, hrun, hmatch, hfuel, -, hi⟩ := run_follows h hordered hfits
  obtain ⟨fuel, rfl⟩ : ∃ f, fuel = f + 1 := ⟨fuel - 1, by omega⟩
  obtain ⟨pre, rfl⟩ := h.suffix
  have hpre : rest ≠ [] → i = pre.length := by
    intro hne
    have hlen := hi hne
    rw [List.length_append] at hlen; omega
  rw [hrun]
  rcases hunclosed with ⟨name, rfl, hclose⟩ | ⟨name, rfl, hclose, hwords⟩
  · rw [hpre (List.cons_ne_nil _ _)]
    exact scan_error (by simp) (step_cheat_unclosed hclose pre p)
  · rw [hpre (List.cons_ne_nil _ _)]
    exact scan_error (by simp) (step_master_unclosed hmatch hclose hwords pre)

theorem Matches.lists {p : Parser} (h : Matches items p) :
    Lists (p.out.mapIdx fun i d => ⟨decide (d.opcodes.length > 0), i, d⟩) items := by
  refine ⟨(List.length_mapIdx ..).trans h.length, fun k e he => ?_⟩
  rw [List.getElem?_mapIdx] at he
  obtain ⟨d, hd, rfl⟩ := Option.map_eq_some_iff.mp he
  exact h.opcodes k d hd

theorem parse_of_ok {p : Parser}
    (h : scan data (data.length + 1) 0 ⟨[CheatDefinition.empty], none⟩ = .ok p) :
    parse data = .ok (p.out.mapIdx fun i d => ⟨decide (d.opcodes.length > 0), i, d⟩) := by
  rw [parse, h]

theorem parse_of_error {stop : Stop} (hstop : stop ≠ .rejected)
    (h : scan data (data.length + 1) 0 ⟨[CheatDefinition.empty], none⟩ = .error stop) :
    parse data = .error stop := by
  rw [parse, h]
  cases stop with
  | rejected => exact absurd rfl hstop
  | outOfRange | unfinished => rfl

theorem parse_accepts (h : Scans [] items data) (hordered : Ordered items) (hfits : Fits items) :
    ∃ out, parse data = .ok out ∧ out ≠ [] ∧ Lists out items := by
  obtain ⟨p, hrun, hmatch⟩ := run_accepts h hordered hfits
  refine ⟨_, parse_of_ok hrun, fun hnil => ?_, hmatch.lists⟩
  have hlen := hmatch.lists.1
  rw [hnil] at hlen
  cases hlen

theorem Lists.length_le {out : List CheatEntry} (h : Lists out items) (hfits : Fits items) :
    ∀ e ∈ out, e.definition.opcodes.length ≤ maxOpcodes := by
  intro e he
  obtain ⟨k, hk⟩ := List.mem_iff_getElem?.mp he
  rw [h.2 k e hk, List.length_map]
  exact hfits k

/-- **The parser does what it should exactly for the texts that are read as they should be.** -/
theorem parse_exact (data : List Char) : ParseOk data ↔ Regular data := by
  constructor
  · rintro ⟨out, hparse, hlen, haccept, hlists⟩
    refine ⟨fun items rest hscans hordered hfits hunclosed => ?_, fun items hscans hordered hfits => ?_,
      fun items hwell hordered entry => ?_⟩
    · rw [parse_of_error (by decide) (run_leaves hscans hordered hfits hunclosed)] at hparse
      cases hparse
    · obtain ⟨out', hparse', hne, -⟩ := parse_accepts hscans hordered hfits
      obtain rfl := Except.ok.inj (hparse.symm.trans hparse')
      exact haccept.mp hne
    · -- The words of an entry are those in its array.
      have hne := haccept.mpr ⟨items, hwell, hordered⟩
      obtain ⟨hcount, hwords⟩ := hlists hne items hwell hordered
      by_cases hentry : entry < out.length
      · have hget := List.getElem?_eq_getElem hentry
        rw [← List.length_map strtoul, ← hwords entry _ hget]
        exact hlen _ (List.getElem_mem hentry)
      · rw [(current_le_and_wordsOf items).2 entry (by omega)]; exact Nat.zero_le _
  · intro hregular
    have hsound := run_sound data
    cases hrun : scan data (data.length + 1) 0 ⟨[CheatDefinition.empty], none⟩ with
    | ok p =>
      rw [hrun] at hsound
      obtain ⟨items, hscans, hordered, hfits⟩ := hsound
      obtain ⟨out, hparse, hne, hlists⟩ := parse_accepts hscans hordered hfits
      refine ⟨out, hparse, hlists.length_le hfits,
          iff_of_true hne (hregular.strict items hscans hordered hfits),
        fun _ items' hwell hordered' => ?_⟩
      obtain ⟨out', hparse', -, hlists'⟩ :=
        parse_accepts hwell.scans hordered' (hregular.fits items' hwell hordered')
      obtain rfl := Except.ok.inj (hparse.symm.trans hparse'); exact hlists'
    | error stop =>
      rw [hrun] at hsound
      cases stop with
      | outOfRange =>
        obtain ⟨items, rest, hscans, hordered, hfits, hunclosed⟩ := hsound
        exact absurd hunclosed (hregular.closed items rest hscans hordered hfits)
      | unfinished => exact hsound.elim
      | rejected =>
        have hparse : parse data = .ok [] := by rw [parse, hrun]
        refine ⟨[], hparse, nofun, iff_of_false (fun h => h rfl) ?_, fun h => absurd rfl h⟩
        rintro ⟨items, hwell, hordered⟩
        obtain ⟨p, hok, -⟩ := run_accepts hwell.scans hordered (hregular.fits items hwell hordered)
        rw [hrun] at hok; cases hok

/-- A section with one word. -/
example : parse "[a]\n0000000F\n".toList =
    .ok [⟨false, 0, .empty⟩, ⟨true, 1, (CheatDefinition.empty.setName ['a']).push 15⟩] := by
  decide +kernel

/-- `[a`: the search for the closing bracket reads behind the text. -/
theorem not_parse : ¬ ParseOk ['[', 'a'] := by
  rintro ⟨out, hparse, -⟩
  have herror : parse ['[', 'a'] = .error .outOfRange := by decide +kernel
  rw [herror] at hparse
  cases hparse

end Result

end Suyu.Core.CheatText
