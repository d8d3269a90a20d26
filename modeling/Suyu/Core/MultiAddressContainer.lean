import Mathlib
import Suyu.Lib.Linked

/-
  `MultiAddressContainer` (`device_memory_manager.inc`): lists of device pages, threaded through one
  array of entries.

  1. **Program** - `Register` appends a value to a list or starts one, `Unregister` takes a value
     out of its list, `ReleaseEntry` ends a list of one entry, `GatherValues` reads a list.  Entry
     ids start at 1; 0 ends a list.  An entry that is given back is reused before the array grows.

  2. **Spec (`Holds`)** - the entries are divided between the lists and the free ids: each list is
     what following `next_entry` gives, no entry is in two lists or twice in one, and the free ids
     are exactly the others, each once.

  3. **The crux (`Holds.unregister`)** - `Unregister` decides "more than one remaining" from the
     entry after the one it removes, from whether there is one before it and from its position;
     together these say that the list left has at least two entries.
-/

namespace Suyu.Core

open Function (update update_idem update_self update_of_ne)

open Lib.Linked

/-! ## The program -/

structure Entry where
  nextEntry : Nat
  value : Nat
  deriving DecidableEq, Repr

/-- The array of entries by id (`storage[id - 1]`), its size, and the ids given back. -/
structure MultiAddressContainer where
  size : Nat
  storage : Nat → Entry
  freeEntries : List Nat

namespace MultiAddressContainer

/-- `&storage[id - 1]`: there is no entry 0. -/
def entry (c : MultiAddressContainer) (id : Nat) : Option Entry :=
  if 1 ≤ id ∧ id ≤ c.size then some (c.storage id) else none

/-- The loop of `GatherValues`. -/
def gatherLoop (c : MultiAddressContainer) : Nat → Nat → Option (List Nat)
  | 0, _ => none
  | fuel + 1, id => do
      let current ← c.entry id
      if current.nextEntry = 0 then return [current.value]
      return current.value :: (← c.gatherLoop fuel current.nextEntry)

/-- `GatherValues`; a list longer than the array would run in a circle. -/
def gatherValues (c : MultiAddressContainer) (startEntry : Nat) : Option (List Nat) :=
  c.gatherLoop (c.size + 1) startEntry

def getNewEntry (c : MultiAddressContainer) : Nat × MultiAddressContainer :=
  match c.freeEntries with
  | result :: rest => (result, { c with freeEntries := rest })
  | [] => (c.size + 1, { c with
      size := c.size + 1
      storage := update c.storage (c.size + 1) ⟨0, 0⟩ })

/-- `RegisterImplementation`, and `Register(value)`. -/
def register (c : MultiAddressContainer) (value : Nat) : Nat × MultiAddressContainer :=
  let (entryId, c) := c.getNewEntry
  (entryId, { c with storage := update c.storage entryId ⟨0, value⟩ })

/-- The loop of `Register(value, start_entry)`: the last entry of the list. -/
def lastEntry (c : MultiAddressContainer) : Nat → Nat → Option Nat
  | 0, _ => none
  | fuel + 1, id => do
      let current ← c.entry id
      if current.nextEntry = 0 then return id
      c.lastEntry fuel current.nextEntry

/-- Write the link of an entry. -/
def setNext (c : MultiAddressContainer) (id next : Nat) : MultiAddressContainer :=
  { c with storage := update c.storage id { c.storage id with nextEntry := next } }

/-- `Register(value, start_entry)`. -/
def registerAt (c : MultiAddressContainer) (value startEntry : Nat) :
    Option MultiAddressContainer := do
  let (entryId, c) := c.register value
  let last ← c.lastEntry (c.size + 1) startEntry
  return c.setNext last entryId

/-- The search of `Unregister`: the entry before, the entry with the value, and its position. -/
def search (c : MultiAddressContainer) (value : Nat) :
    Nat → Option Nat → Nat → Nat → Option (Option Nat × Nat × Nat)
  | 0, _, _, _ => none
  | fuel + 1, previous, id, count => do
      let current ← c.entry id
      if current.value = value then return (previous, id, count)
      c.search value fuel (some id) current.nextEntry (count + 1)

/-- `next->next_entry != 0 || previous != nullptr`, when there is a next entry. -/
def moreThanOneRemaining (c : MultiAddressContainer) (previous : Option Nat) (nextEntry : Nat) :
    Option Bool :=
  if nextEntry = 0 then some false
  else do
    let next ← c.entry nextEntry
    return decide (next.nextEntry ≠ 0) || previous.isSome

def unregister (c : MultiAddressContainer) (value startEntry : Nat) :
    Option ((Bool × Nat) × MultiAddressContainer) := do
  let (previous, iterEntry, count) ← c.search value (c.size + 1) none startEntry 0
  let nextEntry := (c.storage iterEntry).nextEntry
  let more ← c.moreThanOneRemaining previous nextEntry
  let (resultStart, c) := match previous with
    | some p => (startEntry, c.setNext p nextEntry)
    | none => (nextEntry, c)
  return ((more || decide (1 < count), resultStart),
    { c with freeEntries := c.freeEntries ++ [iterEntry] })

def releaseEntry (c : MultiAddressContainer) (startEntry : Nat) :
    Option (Nat × MultiAddressContainer) := do
  let current ← c.entry startEntry
  return (current.value, { c with freeEntries := c.freeEntries ++ [startEntry] })

/-! ## What the entries hold -/

/-- The link of an entry. -/
def link (c : MultiAddressContainer) (id : Nat) : Option Nat :=
  if (c.storage id).nextEntry = 0 then none else some (c.storage id).nextEntry

def valueOf (c : MultiAddressContainer) (id : Nat) : Nat := (c.storage id).value

/-- The entries are divided between the lists `chains p` and the free ids. -/
structure Holds (c : MultiAddressContainer) (chains : Nat → List Nat) : Prop where
  inside : ∀ p, ∀ id ∈ chains p, 1 ≤ id ∧ id ≤ c.size
  nodup : ∀ p, (chains p).Nodup
  disjoint : ∀ p q, p ≠ q → ∀ id ∈ chains p, id ∉ chains q
  linked : ∀ p, Follows c.link (chains p).head? (chains p)
  free_nodup : c.freeEntries.Nodup
  free_iff : ∀ id, id ∈ c.freeEntries ↔ (1 ≤ id ∧ id ≤ c.size) ∧ ∀ p, id ∉ chains p

/-- The container before anything is registered. -/
def empty : MultiAddressContainer := ⟨0, fun _ => ⟨0, 0⟩, []⟩

theorem empty_holds : Holds empty fun _ => [] where
  inside := fun p id h => by cases h
  nodup := fun _ => List.nodup_nil
  disjoint := fun p q _ id h => by cases h
  linked := fun _ => rfl
  free_nodup := List.nodup_nil
  free_iff := fun id => by
    constructor
    · intro h
      cases h
    · rintro ⟨⟨h1, h2⟩, -⟩
      have : id ≤ 0 := h2
      omega

section Walks

variable {c : MultiAddressContainer} {chains : Nat → List Nat}

theorem Holds.entry_eq (h : Holds c chains) {p id : Nat} (hid : id ∈ chains p) :
    c.entry id = some (c.storage id) := if_pos (h.inside p id hid)

theorem Holds.length_le (h : Holds c chains) (p : Nat) : (chains p).length ≤ c.size := by
  have hsub : (chains p).toFinset ⊆ Finset.Icc 1 c.size := by
    intro id hid; exact Finset.mem_Icc.mpr (h.inside p id (List.mem_toFinset.mp hid))
  have hcard := Finset.card_le_card hsub
  rwa [List.toFinset_card_of_nodup (h.nodup p), Nat.card_Icc, Nat.add_sub_cancel] at hcard

theorem link_eq_none {id : Nat} : c.link id = none ↔ (c.storage id).nextEntry = 0 := by
  unfold link
  split <;> simp_all

theorem link_eq_some {id next : Nat} (h : c.link id = some next) :
    (c.storage id).nextEntry = next ∧ next ≠ 0 := by
  unfold link at h
  split at h
  · cases h
  · next hne =>
    cases h
    exact ⟨rfl, hne⟩

theorem gatherLoop_eq {l : List Nat} {id fuel : Nat} (hin : ∀ x ∈ l, 1 ≤ x ∧ x ≤ c.size)
    (hf : Follows c.link (some id) l) (hfuel : l.length ≤ fuel) :
    c.gatherLoop fuel id = some (l.map c.valueOf) := by
  induction l generalizing id fuel with
  | nil => cases hf
  | cons x rest ih =>
    obtain ⟨hx, hrest⟩ := hf
    cases hx
    obtain ⟨fuel, rfl⟩ : ∃ f, fuel = f + 1 := ⟨fuel - 1, by simp at hfuel; omega⟩
    have hentry : c.entry x = some (c.storage x) := if_pos (hin x List.mem_cons_self)
    simp only [gatherLoop, hentry, Option.bind_eq_bind, Option.bind_some]
    cases hlink : c.link x with
    | none =>
      rw [hlink] at hrest
      have hnil : rest = [] := List.head?_eq_none_iff.mp hrest.head?_eq
      rw [if_pos (link_eq_none.mp hlink), hnil]; rfl
    | some next =>
      obtain ⟨hnext, hne⟩ := link_eq_some hlink
      rw [hlink] at hrest
      rw [hnext, if_neg hne, ih (fun y hy => hin y (List.mem_cons_of_mem _ hy)) hrest
        (by simp at hfuel; omega)]
      rfl

theorem lastEntry_eq {l : List Nat} {id fuel : Nat} (hin : ∀ x ∈ l, 1 ≤ x ∧ x ≤ c.size)
    (hf : Follows c.link (some id) l) (hfuel : l.length ≤ fuel) :
    c.lastEntry fuel id = l.getLast? := by
  induction l generalizing id fuel with
  | nil => cases hf
  | cons x rest ih =>
    obtain ⟨hx, hrest⟩ := hf
    cases hx
    obtain ⟨fuel, rfl⟩ : ∃ f, fuel = f + 1 := ⟨fuel - 1, by simp at hfuel; omega⟩
    have hentry : c.entry x = some (c.storage x) := if_pos (hin x List.mem_cons_self)
    simp only [lastEntry, hentry, Option.bind_eq_bind, Option.bind_some]
    cases hlink : c.link x with
    | none =>
      rw [hlink] at hrest
      have hnil : rest = [] := List.head?_eq_none_iff.mp hrest.head?_eq
      rw [if_pos (link_eq_none.mp hlink), hnil]; rfl
    | some next =>
      obtain ⟨hnext, hne⟩ := link_eq_some hlink
      rw [hlink] at hrest
      have hrestne : rest ≠ [] := by
        rintro rfl; cases hrest
      rw [hnext, if_neg hne, ih (fun y hy => hin y (List.mem_cons_of_mem _ hy)) hrest
        (by simp at hfuel; omega), List.getLast?_cons_of_ne_nil hrestne]

/-- **The search finds the value** that the list has, and never comes to entry 0. -/
theorem search_eq {l₁ l₂ : List Nat} {x value id fuel count : Nat} {previous : Option Nat}
    (hin : ∀ y ∈ l₁ ++ x :: l₂, 1 ≤ y ∧ y ≤ c.size)
    (hf : Follows c.link (some id) (l₁ ++ x :: l₂)) (hfuel : l₁.length < fuel)
    (hbefore : ∀ y ∈ l₁, c.valueOf y ≠ value) (hx : c.valueOf x = value) :
    c.search value fuel previous id count =
      some (l₁.getLast?.or previous, x, count + l₁.length) := by
  induction l₁ generalizing id fuel count previous with
  | nil =>
    obtain ⟨hid, -⟩ := hf
    cases hid
    obtain ⟨fuel, rfl⟩ : ∃ f, fuel = f + 1 := ⟨fuel - 1, by simp at hfuel; omega⟩
    have hentry : c.entry x = some (c.storage x) := if_pos (hin x (by simp))
    simp only [search, hentry, Option.bind_eq_bind, Option.bind_some]
    rw [if_pos (show (c.storage x).value = value from hx)]; rfl
  | cons y rest ih =>
    obtain ⟨hid, hrest⟩ := hf
    cases hid
    obtain ⟨fuel, rfl⟩ : ∃ f, fuel = f + 1 := ⟨fuel - 1, by simp at hfuel; omega⟩
    have hentry : c.entry y = some (c.storage y) := if_pos (hin y (by simp))
    simp only [search, hentry, Option.bind_eq_bind, Option.bind_some]
    rw [if_neg (show (c.storage y).value ≠ value from hbefore y List.mem_cons_self)]
    -- the link is not 0: the entry with the value is still to come
    obtain ⟨next, hlink⟩ : ∃ next, c.link y = some next := by
      cases hlink : c.link y with
      | none =>
        rw [hlink] at hrest
        have hnil := hrest.head?_eq
        simp at hnil
      | some next => exact ⟨next, rfl⟩
    obtain ⟨hnext, -⟩ := link_eq_some hlink
    rw [hlink] at hrest
    rw [hnext, ih (fun z hz => hin z (List.mem_cons_of_mem _ hz)) hrest (by simp at hfuel; omega)
      fun z hz => hbefore z (List.mem_cons_of_mem _ hz)]
    cases hlast : rest.getLast? with
    | none =>
      obtain rfl := List.getLast?_eq_none_iff.mp hlast; simp
    | some z =>
      have hne : rest ≠ [] := by
        rintro rfl; cases hlast
      rw [List.getLast?_cons_of_ne_nil hne, hlast]
      simp; omega

end Walks

/-! ## What the operations do -/

section Operations

variable {c c' : MultiAddressContainer} {chains : Nat → List Nat} {p : Nat}

theorem Holds.replace (h : Holds c chains) {l : List Nat} (hsize : c.size ≤ c'.size)
    (hin : ∀ id ∈ l, 1 ≤ id ∧ id ≤ c'.size) (hnodup : l.Nodup)
    (hother : ∀ id ∈ l, ∀ q, q ≠ p → id ∉ chains q)
    (hlinks : ∀ q, q ≠ p → ∀ id ∈ chains q, c'.link id = c.link id)
    (hlinked : Follows c'.link l.head? l) (hfn : c'.freeEntries.Nodup)
    (hfree : ∀ id, id ∈ c'.freeEntries ↔ (1 ≤ id ∧ id ≤ c'.size) ∧ id ∉ l ∧
      ∀ q, q ≠ p → id ∉ chains q) : Holds c' (update chains p l) := by
  have hself : update chains p l p = l := update_self ..
  have hne : ∀ q, q ≠ p → update chains p l q = chains q := fun q hq =>
    update_of_ne hq _ _
  refine ⟨fun q id hid => ?_, fun q => ?_, fun q r hqr id hid hid' => ?_, fun q => ?_, hfn,
    fun id => ?_⟩
  · rcases eq_or_ne q p with rfl | hq
    · exact hin id (hself ▸ hid)
    · rw [hne q hq] at hid; exact ⟨(h.inside q id hid).1, (h.inside q id hid).2.trans hsize⟩
  · rcases eq_or_ne q p with rfl | hq
    · rw [hself]
      exact hnodup
    · rw [hne q hq]; exact h.nodup q
  · rcases eq_or_ne q p with rfl | hq
    · rw [hself] at hid
      rw [hne r hqr.symm] at hid'
      exact hother id hid r hqr.symm hid'
    · rw [hne q hq] at hid
      rcases eq_or_ne r p with rfl | hr
      · rw [hself] at hid'
        exact hother id hid' q hqr hid
      · rw [hne r hr] at hid'; exact h.disjoint q r hqr id hid hid'
  · rcases eq_or_ne q p with rfl | hq
    · rw [hself]
      exact hlinked
    · rw [hne q hq]; exact (h.linked q).congr (hlinks q hq)
  · rw [hfree id]
    refine and_congr_right fun _ => ⟨fun hno q => ?_, fun hno => ⟨?_, fun q hq => ?_⟩⟩
    · rcases eq_or_ne q p with rfl | hq
      · rw [hself]
        exact hno.1
      · rw [hne q hq]; exact hno.2 q hq
    · exact hself ▸ hno p
    · exact hne q hq ▸ hno q

theorem Holds.register_fresh (h : Holds c chains) (value : Nat) :
    ∃ id c', c.register value = (id, c') ∧ (1 ≤ id ∧ id ≤ c'.size) ∧ (∀ p, id ∉ chains p) ∧
      c'.storage = update c.storage id ⟨0, value⟩ ∧ c'.freeEntries.Nodup ∧
      (∀ x, x ∈ c'.freeEntries ↔ (1 ≤ x ∧ x ≤ c'.size) ∧ x ≠ id ∧ ∀ p, x ∉ chains p) ∧
      (c'.size = c.size ∨ c.freeEntries = [] ∧ c'.size = c.size + 1) := by
  have hfree := h.free_iff
  have hnodup := h.free_nodup
  cases hl : c.freeEntries with
  | nil =>
    have hreg : c.register value = (c.size + 1, ⟨c.size + 1,
        update c.storage (c.size + 1) ⟨0, value⟩, c.freeEntries⟩) := by
      simp [MultiAddressContainer.register, getNewEntry, hl]
    refine ⟨c.size + 1, _, hreg, ⟨by omega, le_rfl⟩, fun p hp => ?_, rfl, hnodup, fun x => ?_,
      .inr ⟨rfl, rfl⟩⟩
    · have := (h.inside p _ hp).2
      omega
    · rw [hfree x]
      constructor
      · rintro ⟨⟨h1, h2⟩, hno⟩
        exact ⟨⟨h1, Nat.le_succ_of_le h2⟩, by omega, hno⟩
      · rintro ⟨⟨h1, h2⟩, hne, hno⟩
        have h2' : x ≤ c.size + 1 := h2
        exact ⟨⟨h1, by omega⟩, hno⟩
  | cons id rest =>
    have hreg : c.register value = (id, ⟨c.size,
        update c.storage id ⟨0, value⟩, rest⟩) := by
      simp [MultiAddressContainer.register, getNewEntry, hl]
    rw [hl] at hnodup
    have hid := (hfree id).mp (by rw [hl]; exact List.mem_cons_self)
    refine ⟨id, _, hreg, hid.1, hid.2, rfl, (List.nodup_cons.mp hnodup).2, fun x => ?_, .inl rfl⟩
    constructor
    · intro hx
      have hx' := (hfree x).mp (by rw [hl]; exact List.mem_cons_of_mem _ hx)
      refine ⟨hx'.1, ?_, hx'.2⟩
      rintro rfl
      exact (List.nodup_cons.mp hnodup).1 hx
    · rintro ⟨h1, hne, hno⟩
      have hx := (hfree x).mpr ⟨h1, hno⟩
      rw [hl] at hx; exact (List.mem_cons.mp hx).resolve_left hne

theorem size_le_of_grows {n m : Nat} {P : Prop} (h : m = n ∨ P ∧ m = n + 1) : n ≤ m := by
  rcases h with h | ⟨-, h⟩ <;> omega

theorem link_of_update {id x : Nat} {e : Entry}
    (hc : c'.storage = update c.storage id e) (hx : x ≠ id) : c'.link x = c.link x := by
  rw [link, link, hc, update_of_ne hx]

theorem valueOf_of_update {id x : Nat} {e : Entry} (hc : c'.storage = update c.storage id e)
    (hx : x ≠ id) : c'.valueOf x = c.valueOf x := by
  rw [valueOf, valueOf, hc, update_of_ne hx]

theorem Holds.register (h : Holds c chains) (value : Nat) (hp : chains p = []) :
    ∃ id c', c.register value = (id, c') ∧ Holds c' (update chains p [id]) ∧
      c'.valueOf id = value ∧ (∀ q, ∀ x ∈ chains q, c'.valueOf x = c.valueOf x) ∧
      (1 ≤ id ∧ id ≤ c'.size) ∧
      (c'.size = c.size ∨ c.freeEntries = [] ∧ c'.size = c.size + 1) := by
  obtain ⟨id, c', hreg, hid, hnew, hstorage, hnodup, hfree, hsize⟩ := h.register_fresh value
  have hlast : c'.link id = none := by
    rw [link_eq_none, hstorage, update_self]
  refine ⟨id, c', hreg, ?_, ?_, fun q x hx => ?_, hid, hsize⟩
  · refine h.replace (size_le_of_grows hsize) (fun x hx => ?_) (List.nodup_singleton id)
      (fun x hx q _ => ?_) (fun q _ x hx => ?_) ⟨rfl, hlast⟩ hnodup fun x => ?_
    · exact List.mem_singleton.mp hx ▸ hid
    · exact List.mem_singleton.mp hx ▸ hnew q
    · exact link_of_update hstorage fun hxid => hnew q (hxid ▸ hx)
    · rw [hfree x, List.mem_singleton]
      refine and_congr_right fun _ => and_congr_right fun _ => ⟨fun hno q _ => hno q, fun hno q => ?_⟩
      rcases eq_or_ne q p with rfl | hq
      · rw [hp]
        exact List.not_mem_nil
      · exact hno q hq
  · rw [valueOf, hstorage, update_self]
  · exact valueOf_of_update hstorage fun hxid => hnew q (hxid ▸ hx)

/-- **`Register(value, start_entry)`** appends to a list. -/
theorem Holds.registerAt (h : Holds c chains) (value start : Nat)
    (hp : (chains p).head? = some start) :
    ∃ id c', c.registerAt value start = some c' ∧
      Holds c' (update chains p (chains p ++ [id])) ∧
      c'.valueOf id = value ∧ (∀ q, ∀ x ∈ chains q, c'.valueOf x = c.valueOf x) ∧
      (c'.size = c.size ∨ c.freeEntries = [] ∧ c'.size = c.size + 1) := by
  obtain ⟨id, c₁, hreg, hid, hnew, hstorage, hnodup, hfree, hsize⟩ := h.register_fresh value
  have hne : chains p ≠ [] := by
    intro hc
    rw [hc] at hp; cases hp
  -- the list is still there in front of the new entry
  have hfollows : Follows c₁.link (chains p).head? (chains p) :=
    (h.linked p).congr fun x hx => link_of_update hstorage fun hxid => hnew p (hxid ▸ hx)
  have hin : ∀ x ∈ chains p, 1 ≤ x ∧ x ≤ c₁.size := fun x hx =>
    ⟨(h.inside p x hx).1, (h.inside p x hx).2.trans (size_le_of_grows hsize)⟩
  have hlength := (h.length_le p).trans (size_le_of_grows hsize)
  have hlast := lastEntry_eq hin (hp ▸ hfollows) (Nat.le_succ_of_le hlength)
  rw [List.getLast?_eq_some_getLast hne] at hlast
  generalize hlastId : (chains p).getLast hne = last at hlast
  have hlastMem : last ∈ chains p := hlastId ▸ List.getLast_mem hne
  have hidne : id ≠ last := fun hc => hnew p (hc ▸ hlastMem)
  have hstorage' : (c₁.setNext last id).storage =
      update c₁.storage last { c₁.storage last with nextEntry := id } := rfl
  refine ⟨id, c₁.setNext last id, ?_, ?_, ?_, fun q x hx => ?_, hsize⟩
  · simp [MultiAddressContainer.registerAt, hreg, hlast]
  · refine h.replace (size_le_of_grows hsize) (fun x hx => ?_) ?_
      (fun x hx q hq => ?_) (fun q hq x hx => ?_) ?_ hnodup fun x => ?_
    · rcases List.mem_append.mp hx with hx | hx
      · exact hin x hx
      · exact List.mem_singleton.mp hx ▸ hid
    · rw [List.nodup_append]
      refine ⟨h.nodup p, List.nodup_singleton id, fun x hx y hy => ?_⟩
      rw [List.mem_singleton] at hy
      rintro rfl
      exact hnew p (hy ▸ hx)
    · rcases List.mem_append.mp hx with hx | hx
      · exact h.disjoint p q hq.symm x hx
      · exact List.mem_singleton.mp hx ▸ hnew q
    · have hxl : x ≠ last := fun hc => h.disjoint q p hq x hx (hc ▸ hlastMem)
      rw [link_of_update hstorage' hxl]
      exact link_of_update hstorage fun hxid => hnew q (hxid ▸ hx)
    · have hredirect : Follows (c₁.setNext last id).link (chains p).head? (chains p ++ [id]) := by
        have hwhole : Follows c₁.link (chains p).head? (chains p ++ []) := by
          rw [List.append_nil]; exact hfollows
        have hend : Follows (c₁.setNext last id).link (some id) [id] := by
          refine ⟨rfl, ?_⟩
          show (c₁.setNext last id).link id = none
          rw [link_of_update hstorage' hidne, link_eq_none, hstorage, update_self]
        refine follows_append_of_redirect hwhole hne (h.nodup p) ?_ ?_ hend
        · intro x hx
          have hxl : x = last := by
            rw [List.getLast?_eq_some_getLast hne, hlastId] at hx
            exact (Option.mem_some_iff.mp hx).symm
          rw [hxl, link, hstorage', update_self, if_neg]
          exact (Nat.pos_iff_ne_zero.mp hid.1)
        · intro x hx hxl
          refine link_of_update hstorage' fun hc => hxl ?_
          rw [List.getLast?_eq_some_getLast hne, hlastId, hc]; rfl
      rwa [List.head?_append_of_ne_nil _ hne]
    · show x ∈ c₁.freeEntries ↔ (1 ≤ x ∧ x ≤ c₁.size) ∧ _
      rw [hfree x, List.mem_append, List.mem_singleton, not_or]
      refine and_congr_right fun _ => ⟨fun hno => ⟨⟨hno.2 p, hno.1⟩, fun q _ => hno.2 q⟩,
        fun hno => ⟨hno.1.2, fun q => ?_⟩⟩
      rcases eq_or_ne q p with rfl | hq
      · exact hno.1.1
      · exact hno.2 q hq
  · rw [valueOf_of_update hstorage' hidne, valueOf, hstorage, update_self]
  · have hkeep : ∀ y, (c₁.setNext last id).valueOf y = c₁.valueOf y := by
      intro y
      rcases eq_or_ne y last with rfl | hy
      · rw [valueOf, hstorage', update_self]
        rfl
      · exact valueOf_of_update hstorage' hy
    rw [hkeep x]; exact valueOf_of_update hstorage fun hxid => hnew q (hxid ▸ hx)

theorem next_of_follows {l₁ l₂ : List Nat} {x : Nat} {start : Option Nat}
    (hf : Follows c.link start (l₁ ++ x :: l₂)) : (c.storage x).nextEntry = l₂.head?.getD 0 := by
  have hlink := hf.next_eq
  cases hhead : l₂.head? with
  | none =>
    rw [hhead] at hlink; exact link_eq_none.mp hlink
  | some y =>
    rw [hhead] at hlink; exact (link_eq_some hlink).1

theorem moreThanOneRemaining_eq {l₁ l₂ : List Nat} {x : Nat} {start : Option Nat}
    (hin : ∀ y ∈ l₁ ++ x :: l₂, 1 ≤ y ∧ y ≤ c.size) (hf : Follows c.link start (l₁ ++ x :: l₂)) :
    ∃ more, c.moreThanOneRemaining l₁.getLast? (c.storage x).nextEntry = some more ∧
      (more || decide (1 < l₁.length)) = decide (2 ≤ (l₁ ++ l₂).length) := by
  rw [next_of_follows hf]
  cases l₂ with
  | nil =>
    refine ⟨false, rfl, ?_⟩
    rw [Bool.false_or, List.append_nil]; rfl
  | cons y rest =>
    have hy := hin y (by simp)
    have hentry : c.entry y = some (c.storage y) := if_pos hy
    have hf' : Follows c.link start ((l₁ ++ [x]) ++ y :: rest) := by simpa using hf
    have hnext := next_of_follows hf'
    refine ⟨decide ((c.storage y).nextEntry ≠ 0) || l₁.getLast?.isSome, ?_, ?_⟩
    · simp [moreThanOneRemaining, Nat.pos_iff_ne_zero.mp hy.1, hentry]
    · rw [hnext]
      cases l₁ with
      | nil =>
        cases rest with
        | nil => rfl
        | cons z rest =>
          have hz := hin z (by simp)
          simp [Nat.pos_iff_ne_zero.mp hz.1]
      | cons w l₁ =>
        rw [List.getLast?_eq_some_getLast (List.cons_ne_nil w l₁)]
        simp; omega

theorem Holds.give_back (h : Holds c chains) {l₁ l₂ : List Nat} {x : Nat}
    (hp : chains p = l₁ ++ x :: l₂) (hsize : c'.size = c.size)
    (hfree : c'.freeEntries = c.freeEntries ++ [x])
    (hlinks : ∀ q, q ≠ p → ∀ id ∈ chains q, c'.link id = c.link id)
    (hlinked : Follows c'.link (l₁ ++ l₂).head? (l₁ ++ l₂)) :
    Holds c' (update chains p (l₁ ++ l₂)) := by
  have hnodup : (l₁ ++ x :: l₂).Nodup := hp ▸ h.nodup p
  have hmid := List.nodup_middle.mp hnodup
  have hsub : ∀ id ∈ l₁ ++ l₂, id ∈ chains p := by
    intro id hid
    rw [hp]
    simp only [List.mem_append, List.mem_cons] at hid ⊢
    tauto
  have hxp : x ∈ chains p := by
    rw [hp]; simp
  refine h.replace hsize.ge (fun id hid => hsize ▸ h.inside p id (hsub id hid))
    (List.nodup_cons.mp hmid).2 (fun id hid q hq => h.disjoint p q hq.symm id (hsub id hid))
    hlinks hlinked ?_ fun id => ?_
  · rw [hfree, List.nodup_append]
    refine ⟨h.free_nodup, List.nodup_singleton x, fun id hid y hy => ?_⟩
    rw [List.mem_singleton] at hy
    rintro rfl
    exact ((h.free_iff id).mp hid).2 p (hy ▸ hxp)
  · rw [hfree, List.mem_append, List.mem_singleton, h.free_iff id, hsize]
    constructor
    · rintro (⟨hin, hno⟩ | rfl)
      · exact ⟨hin, fun hid => hno p (hsub id hid), fun q _ => hno q⟩
      · exact ⟨h.inside p id hxp, (List.nodup_cons.mp hmid).1, fun q hq =>
          h.disjoint p q hq.symm id hxp⟩
    · rintro ⟨hin, hno, hother⟩
      rcases eq_or_ne id x with rfl | hne
      · exact .inr rfl
      · refine .inl ⟨hin, fun q => ?_⟩
        rcases eq_or_ne q p with rfl | hq
        · rw [hp]
          simp only [List.mem_append, List.mem_cons] at hno ⊢
          tauto
        · exact hother q hq

/-- **`Unregister`** takes the value out of its list, and says whether more than one is left and
    where the list starts. -/
theorem Holds.unregister (h : Holds c chains) {l₁ l₂ : List Nat} {x value start : Nat}
    (hp : chains p = l₁ ++ x :: l₂) (hstart : (chains p).head? = some start)
    (hbefore : ∀ y ∈ l₁, c.valueOf y ≠ value) (hx : c.valueOf x = value) :
    ∃ c', c.unregister value start =
        some ((decide (2 ≤ (l₁ ++ l₂).length), (l₁ ++ l₂).head?.getD 0), c') ∧
      Holds c' (update chains p (l₁ ++ l₂)) ∧
      (∀ y, c'.valueOf y = c.valueOf y) ∧ c'.size = c.size := by
  have hin : ∀ y ∈ l₁ ++ x :: l₂, 1 ≤ y ∧ y ≤ c.size := fun y hy => h.inside p y (hp ▸ hy)
  have hf : Follows c.link (some start) (l₁ ++ x :: l₂) := by
    have := h.linked p
    rwa [hstart, hp] at this
  have hnodup : (l₁ ++ x :: l₂).Nodup := hp ▸ h.nodup p
  have hlength : (l₁ ++ x :: l₂).length ≤ c.size := hp ▸ h.length_le p
  have hsearch : c.search value (c.size + 1) none start 0 =
      some (l₁.getLast?.or none, x, 0 + l₁.length) :=
    search_eq hin hf (by simp at hlength; omega) hbefore hx
  rw [Option.or_none, Nat.zero_add] at hsearch
  obtain ⟨more, hmore, hdecide⟩ := moreThanOneRemaining_eq hin hf
  have hnext := next_of_follows hf
  rcases eq_or_ne l₁ [] with rfl | hne
  · -- the first entry: the list starts at the next one
    refine ⟨{ c with freeEntries := c.freeEntries ++ [x] }, ?_,
      h.give_back hp rfl rfl (fun _ _ _ _ => rfl) ?_, fun _ => rfl, rfl⟩
    · rw [List.getLast?_nil] at hsearch hmore
      simp only [MultiAddressContainer.unregister, hsearch, Option.bind_eq_bind,
        Option.bind_some, hmore, Option.pure_def, hdecide]
      rw [hnext]
      rfl
    · have hrest := hf.2
      rw [List.nil_append, hrest.head?_eq]; exact hrest
  · -- the entry before takes over the link
    obtain ⟨last, hlast⟩ : ∃ last, l₁.getLast? = some last :=
      ⟨_, List.getLast?_eq_some_getLast hne⟩
    have hlastMem : last ∈ l₁ := List.mem_of_getLast? hlast
    have hlastp : last ∈ chains p := hp ▸ List.mem_append_left _ hlastMem
    let c₁ := c.setNext last (c.storage x).nextEntry
    have hstorage : c₁.storage = update c.storage last
        { c.storage last with nextEntry := (c.storage x).nextEntry } := rfl
    have hhead : (l₁ ++ l₂).head? = some start := by
      rw [List.head?_append_of_ne_nil _ hne, ← hstart, hp, List.head?_append_of_ne_nil _ hne]
    refine ⟨{ c₁ with freeEntries := c.freeEntries ++ [x] }, ?_,
      h.give_back hp rfl rfl (fun q hq id hid => ?_) ?_, fun y => ?_, rfl⟩
    · rw [hlast] at hsearch hmore
      simp only [MultiAddressContainer.unregister, hsearch, Option.bind_eq_bind,
        Option.bind_some, hmore, Option.pure_def, hdecide, hhead, Option.getD_some]
      rfl
    · have hidl : id ≠ last := fun hc => h.disjoint q p hq id hid (hc ▸ hlastp)
      exact link_of_update hstorage hidl
    · have hlinkx : c₁.link last = c.link x := by
        rw [link, hstorage, update_self]; rfl
      have htail : Follows c₁.link (c.link x) l₂ := by
        have hxl : ∀ y ∈ l₂, y ≠ last := by
          rintro y hy rfl
          exact (List.nodup_append.mp hnodup).2.2 y hlastMem y (List.mem_cons_of_mem _ hy) rfl
        have hright := follows_append hf
        rw [hlast] at hright
        exact hright.2.congr fun y hy => link_of_update hstorage (hxl y hy)
      rw [hhead]
      show Follows c₁.link (some start) (l₁ ++ l₂)
      refine follows_append_of_redirect hf hne (List.nodup_append.mp hnodup).1 ?_ ?_ htail
      · intro y hy
        rw [hlast, Option.mem_some_iff] at hy
        rw [← hy, hlinkx]
      · intro y _ hyl
        refine link_of_update hstorage fun hc => hyl ?_
        rw [hlast, hc]; rfl
    · show c₁.valueOf y = c.valueOf y
      rcases eq_or_ne y last with rfl | hy
      · rw [valueOf, hstorage, update_self]
        rfl
      · exact valueOf_of_update hstorage hy

theorem Holds.releaseEntry (h : Holds c chains) {x : Nat} (hp : chains p = [x]) :
    ∃ c', c.releaseEntry x = some (c.valueOf x, c') ∧ Holds c' (update chains p []) ∧
      (∀ y, c'.valueOf y = c.valueOf y) ∧ c'.size = c.size := by
  have hentry : c.entry x = some (c.storage x) :=
    h.entry_eq (show x ∈ chains p by rw [hp]; exact List.mem_singleton_self x)
  have hp' : chains p = [] ++ x :: [] := hp
  have hback : Holds { c with freeEntries := c.freeEntries ++ [x] }
      (update chains p ([] ++ [])) :=
    h.give_back hp' rfl rfl (fun _ _ _ _ => rfl) rfl
  refine ⟨{ c with freeEntries := c.freeEntries ++ [x] }, ?_, hback, fun _ => rfl, rfl⟩
  simp only [MultiAddressContainer.releaseEntry, hentry, Option.bind_eq_bind, Option.bind_some,
    Option.pure_def]
  rfl

end Operations

end MultiAddressContainer

end Suyu.Core
