import Mathlib
import Suyu.Lib.Bits

/-
  SlotVector - objects in numbered slots that are used again.

  1. **Program** - a slot that is free is on a list, last in first out; a slot that holds an object has
     its bit in `stored_bitset`.  If no slot is free, `Reserve` doubles the capacity and moves every
     object whose bit is set.  `begin` looks for the first word that is not zero, `++` goes on bit by
     bit.

  2. **Specification (`SlotMap`)** - a live id finds its object, `insert` gives an id that is not live,
     `size` is the number of live ids, and iterating visits the live ids in order and ends.

  3. **The crux (`Inv`)** - below the capacity an id is on the free list or it is live, and never both;
     the bits are the live ids.

  4. **When it goes wrong** - `begin` takes the distance the wrong way round, so that it begins `64 * k`
     slots BEFORE slot 0 if word `k` is the first one with a bit.  There `++` does not move, and the end
     is never reached.

  Ids are `u32`.  The 32-bit arithmetic of `begin`, `++` and `Reserve` is written out; the capacity is a
  `size_t`.
-/

namespace Suyu.Common

open Function (update update_self update_of_ne)

structure SlotVector (T : Type) where
  values : Nat → Option T
  valuesCapacity : Nat
  storedBitset : List (BitVec 64)
  freeList : List Nat

namespace SlotVector

variable {T : Type}

/-! ## The program -/

def invalidIndex : Nat := 2 ^ 32 - 1

def create : SlotVector T := ⟨fun _ => none, 0, [], []⟩

/-- `operator[]` -/
def get (v : SlotVector T) (id : Nat) : Option T := v.values id

def setStorageBit (v : SlotVector T) (index : Nat) : SlotVector T :=
  { v with storedBitset := v.storedBitset.modify (index / 64) (· ||| 1#64 <<< (index % 64)) }

def resetStorageBit (v : SlotVector T) (index : Nat) : SlotVector T :=
  { v with storedBitset := v.storedBitset.modify (index / 64) (· &&& ~~~(1#64 <<< (index % 64))) }

def readStorageBit (bitset : List (BitVec 64)) (index : Nat) : Bool :=
  (bitset.getD (index / 64) 0).getLsbD (index % 64)

/-- `for (size_t bit = 0; bits; ++bit, bits >>= 1)`; a word has 64 bits. -/
def moveBits (values : Nat → Option T) : Nat → BitVec 64 → Nat → (Nat → Option T) → (Nat → Option T)
  | 0, _, _, newValues => newValues
  | fuel + 1, bits, i, newValues =>
      if bits = 0 then newValues
      else
        moveBits values fuel (bits >>> 1) (i + 1)
          (if bits.getLsbD 0 then update newValues i (values i) else newValues)

/-- `for (u64 bits : stored_bitset)` -/
def moveWords (values : Nat → Option T) : List (BitVec 64) → Nat → (Nat → Option T) → (Nat → Option T)
  | [], _, newValues => newValues
  | bits :: words, index, newValues =>
      moveWords values words (index + 64) (moveBits values 64 bits index newValues)

/-- `std::iota` over `u32`. -/
def iota (count value : Nat) : List Nat := (List.range count).map fun i => (value + i) % 2 ^ 32

def reserve (v : SlotVector T) (newCapacity : Nat) : SlotVector T where
  values := moveWords v.values v.storedBitset 0 fun _ => none
  storedBitset :=
    v.storedBitset.take ((newCapacity + 63) / 64) ++
      List.replicate ((newCapacity + 63) / 64 - v.storedBitset.length) 0
  freeList := v.freeList ++ iota (newCapacity - v.valuesCapacity) (v.valuesCapacity % 2 ^ 32)
  valuesCapacity := newCapacity

/-- The growth in `FreeValueIndex`. -/
def ensureFree (v : SlotVector T) : SlotVector T :=
  if v.freeList = [] then v.reserve (if v.valuesCapacity ≠ 0 then v.valuesCapacity <<< 1 else 1) else v

/-- `insert`: the id and the vector afterwards. -/
def insert (v : SlotVector T) (object : T) : Nat × SlotVector T :=
  let v := v.ensureFree
  let index := v.freeList.getLast?.getD 0
  let v := { v with
    freeList := v.freeList.dropLast
    values := update v.values index (some object) }
  (index, v.setStorageBit index)

def erase (v : SlotVector T) (id : Nat) : SlotVector T :=
  let v := { v with values := update v.values id none, freeList := v.freeList ++ [id] }
  v.resetStorageBit id

def size (v : SlotVector T) : Nat := v.valuesCapacity - v.freeList.length

/-- The index of `begin`.  `std::distance(it, stored_bitset.begin())` is the negative of the index of the
    word, cast to `u32`. -/
def begin (v : SlotVector T) : Nat :=
  match v.storedBitset.findIdx? fun value => value != 0 with
  | none => invalidIndex
  | some k =>
      let wordIndex := (-(k : Int) % 2 ^ 32).toNat
      (wordIndex * 64 % 2 ^ 32 + (v.storedBitset.getD k 0).ctz.toNat) % 2 ^ 32

/-- `do ++id.index while (id.index < size && !IsValid(bitset))`, behind the first increment. -/
def skip (bitset : List (BitVec 64)) (size : Nat) : Nat → Nat → Nat
  | 0, index => index
  | fuel + 1, index =>
      if index < size ∧ readStorageBit bitset index = false then skip bitset size fuel (index + 1)
          else index

/-- `operator++` of an iterator; it moves to at most `size`. -/
def next (v : SlotVector T) (index : Nat) : Nat :=
  let size := v.storedBitset.length % 2 ^ 32 * 64 % 2 ^ 32
  if index < size then
    let index := skip v.storedBitset size size (index + 1)
    if index = size then invalidIndex else index
  else index

/-- The indices visited from an iterator on until `end()`, if it is reached in `fuel` rounds. -/
def visits (v : SlotVector T) : Nat → Nat → Option (List Nat)
  | 0, _ => none
  | fuel + 1, index =>
      if index = invalidIndex then some [] else (v.visits fuel (v.next index)).map (index :: ·)

/-! ## Specification -/

/-- The ids `live` and their objects, as the vector should keep them. -/
structure SlotMap (v : SlotVector T) (live : Nat → Option T) : Prop where
  get_eq : ∀ id object, live id = some object → v.get id = some object
  fresh : ∀ object, live (v.insert object).1 = none
  size_eq : v.size = {id | live id ≠ none}.ncard
  iterates : ∃ fuel ids, v.visits fuel v.begin = some ids ∧ ids.Pairwise (· < ·) ∧
    ∀ id, id ∈ ids ↔ live id ≠ none

/-- What calls of `insert` and of `erase` with live ids lead to; `insert` is called below size `2^31`. -/
inductive Run : SlotVector T → (Nat → Option T) → Prop where
  | create : Run create fun _ => none
  | insert {v live} (object : T) : Run v live → v.size < 2 ^ 31 →
      Run (v.insert object).2 (update live (v.insert object).1 (some object))
  | erase {v live} {id : Nat} : Run v live → live id ≠ none → Run (v.erase id) (update live id none)

/-! ## Bits -/

section BitFacts

variable {bitset : List (BitVec 64)} {index i : Nat}

theorem readStorageBit_modify {f : BitVec 64 → BitVec 64} (h : index / 64 < bitset.length)
    (hf : ∀ w j, j < 64 → j ≠ index % 64 → (f w).getLsbD j = w.getLsbD j) {b : Bool}
    (hb : ∀ w, (f w).getLsbD (index % 64) = b) :
    readStorageBit (bitset.modify (index / 64) f) i =
      if i = index then b else readStorageBit bitset i := by
  have hword : (bitset.modify (index / 64) f).getD (i / 64) 0 =
      if index / 64 = i / 64 then f (bitset.getD (i / 64) 0) else bitset.getD (i / 64) 0 := by
    rw [List.getD_eq_getElem?_getD, List.getD_eq_getElem?_getD, List.getElem?_modify]
    by_cases hw : index / 64 = i / 64
    · rw [if_pos hw, ← hw, List.getElem?_eq_getElem h]
      exact if_pos rfl
    · rw [if_neg hw]; simp only [hw, if_false, Option.map_eq_map, Option.map_id']
  rw [readStorageBit, hword]
  by_cases hi : i = index
  · subst hi
    rw [if_pos rfl, if_pos rfl, hb]
  · rw [if_neg hi]
    split
    · next hw =>
      rw [hf _ _ (Nat.mod_lt _ (by decide)) (by omega)]
      rfl
    · rfl

theorem readStorageBit_set (h : index / 64 < bitset.length) :
    readStorageBit (bitset.modify (index / 64) (· ||| 1#64 <<< (index % 64))) i =
      if i = index then true else readStorageBit bitset i := by
  have hmod : index % 64 < 64 := Nat.mod_lt _ (by decide)
  refine readStorageBit_modify h (fun w j hj hne => ?_) fun w => ?_
  · rw [BitVec.getLsbD_or, Lib.Bits.getLsbD_one_shiftLeft hmod, decide_eq_false hne, Bool.or_false]
  · rw [BitVec.getLsbD_or, Lib.Bits.getLsbD_one_shiftLeft hmod, decide_eq_true rfl, Bool.or_true]

theorem readStorageBit_reset (h : index / 64 < bitset.length) :
    readStorageBit (bitset.modify (index / 64) (· &&& ~~~(1#64 <<< (index % 64)))) i =
      if i = index then false else readStorageBit bitset i := by
  have hmod : index % 64 < 64 := Nat.mod_lt _ (by decide)
  refine readStorageBit_modify h (fun w j hj hne => ?_) fun w => ?_
  · rw [BitVec.getLsbD_and, BitVec.getLsbD_not, Lib.Bits.getLsbD_one_shiftLeft hmod, decide_eq_false hne,
      decide_eq_true hj, Bool.not_false, Bool.true_and, Bool.and_true]
  · rw [BitVec.getLsbD_and, BitVec.getLsbD_not, Lib.Bits.getLsbD_one_shiftLeft hmod, decide_eq_true rfl,
      Bool.not_true, Bool.and_false, Bool.and_false]

end BitFacts

/-! ## Moving the objects -/

section Move

variable {values newValues : Nat → Option T}

theorem moveBits_eq {fuel : Nat} {bits : BitVec 64} (hbits : ∀ j, fuel ≤ j → bits.getLsbD j = false)
    (i j : Nat) :
    moveBits values fuel bits i newValues j =
      if i ≤ j ∧ bits.getLsbD (j - i) = true then values j else newValues j := by
  induction fuel generalizing bits i newValues with
  | zero =>
    rw [moveBits, if_neg]
    rintro ⟨-, h⟩
    rw [hbits _ (Nat.zero_le _)] at h; exact absurd h (by decide)
  | succ fuel ih =>
    rw [moveBits]
    split
    · next h0 =>
      rw [if_neg]
      rintro ⟨-, h⟩
      rw [h0] at h
      exact absurd h (by simp)
    · have hshift : ∀ j, (bits >>> 1).getLsbD j = bits.getLsbD (j + 1) := by
        intro j
        rw [BitVec.getLsbD_ushiftRight, Nat.add_comm]
      rw [ih fun j hj => by rw [hshift]; exact hbits _ (by omega)]
      by_cases hij : i + 1 ≤ j
      · have hsub : j - (i + 1) + 1 = j - i := by omega
        have hne : j ≠ i := by omega
        have hle : i ≤ j := by omega
        have hsame : (if bits.getLsbD 0 = true then update newValues i (values i)
            else newValues) j =
            newValues j := by
          split
          · exact update_of_ne hne _ _
          · rfl
        simp only [hij, hle, true_and, hshift, hsub, hsame]
      · rw [if_neg fun h => hij h.1]
        by_cases hji : j = i
        · subst hji
          simp only [le_refl, Nat.sub_self, true_and]
          split
          · exact update_self _ _ _
          · rfl
        · conv_rhs => rw [if_neg fun h => absurd h.1 (by omega)]
          split
          · exact update_of_ne hji _ _
          · rfl

theorem readStorageBit_cons (w : BitVec 64) (words : List (BitVec 64)) (i : Nat) :
    readStorageBit (w :: words) i = if i < 64 then w.getLsbD i else readStorageBit words (i - 64) := by
  by_cases hi : i < 64
  · have hdiv : i / 64 = 0 := by omega
    have hmod : i % 64 = i := by omega
    rw [if_pos hi, readStorageBit, hdiv, hmod]
    rfl
  · have hdiv : i / 64 = (i - 64) / 64 + 1 := by omega
    have hmod : i % 64 = (i - 64) % 64 := by omega
    rw [if_neg hi, readStorageBit, hdiv, hmod, List.getD_cons_succ]; rfl

theorem moveWords_eq (words : List (BitVec 64)) (index j : Nat) :
    moveWords values words index newValues j =
      if index ≤ j ∧ readStorageBit words (j - index) = true then values j else newValues j := by
  induction words generalizing index newValues with
  | nil =>
    rw [moveWords, if_neg]
    rintro ⟨-, h⟩; exact absurd h (by simp [readStorageBit])
  | cons w words ih =>
    have hmove := @moveBits_eq T values newValues 64 w (fun j hj => BitVec.getLsbD_of_ge w j hj) index j
    rw [moveWords, ih, hmove, readStorageBit_cons]
    by_cases hj : index ≤ j
    · by_cases hword : j - index < 64
      · rw [if_neg fun h => absurd h.1 (by omega), if_pos hword]
      · have hlater : index + 64 ≤ j := by omega
        have hsub : j - (index + 64) = j - index - 64 := by omega
        have hold : ¬ (index ≤ j ∧ w.getLsbD (j - index) = true) := by
          rintro ⟨-, h⟩
          rw [BitVec.getLsbD_of_ge w _ (not_lt.1 hword)] at h
          exact absurd h (by decide)
        rw [if_neg hold, if_neg hword, hsub]; simp only [hlater, hj, true_and]
    · rw [if_neg fun h => absurd h.1 (by omega), if_neg fun h => hj h.1, if_neg fun h => hj h.1]

end Move

/-! ## The invariant -/

/-- Below the capacity an id is free or live, and the bits are the live ids. -/
structure Inv (v : SlotVector T) (live : Nat → Option T) : Prop where
  capacity : v.valuesCapacity = 0 ∨ ∃ k ≤ 31, v.valuesCapacity = 2 ^ k
  words : v.storedBitset.length = (v.valuesCapacity + 63) / 64
  bits : ∀ i, readStorageBit v.storedBitset i = (live i).isSome
  live_lt : ∀ i, live i ≠ none → i < v.valuesCapacity
  free : ∀ i, i ∈ v.freeList ↔ i < v.valuesCapacity ∧ live i = none
  nodup : v.freeList.Nodup
  values_eq : ∀ i object, live i = some object → v.values i = some object

section Invariant

variable {v : SlotVector T} {live : Nat → Option T}

theorem inv_create : Inv (create : SlotVector T) fun _ => none where
  capacity := Or.inl rfl
  words := show 0 = (0 + 63) / 64 by decide
  bits := fun i => by simp [create, readStorageBit]
  live_lt := fun i h => absurd rfl h
  free := fun i => by simp [create]
  nodup := List.nodup_nil
  values_eq := fun i object h => nomatch h

theorem Inv.capacity_le (h : Inv v live) : v.valuesCapacity ≤ 2 ^ 31 := by
  rcases h.capacity with h0 | ⟨k, hk, hcap⟩
  · omega
  · rw [hcap]; exact Nat.pow_le_pow_right (by decide) hk

theorem Inv.ncard_live (h : Inv v live) : {id | live id ≠ none}.ncard = v.size := by
  have hset : {id | live id ≠ none} =
      ((Finset.range v.valuesCapacity \ v.freeList.toFinset : Finset Nat) : Set Nat) := by
    ext i
    rw [Finset.mem_coe, Finset.mem_sdiff, Finset.mem_range, List.mem_toFinset, h.free]
    constructor
    · intro hi
      exact ⟨h.live_lt i hi, fun hfree => hi hfree.2⟩
    · rintro ⟨hlt, hi⟩ hnone; exact hi ⟨hlt, hnone⟩
  have hsub : v.freeList.toFinset ⊆ Finset.range v.valuesCapacity := by
    intro i hi; exact Finset.mem_range.2 ((h.free i).1 (List.mem_toFinset.1 hi)).1
  rw [hset, Set.ncard_coe_finset, Finset.card_sdiff_of_subset hsub, Finset.card_range,
    List.toFinset_card_of_nodup h.nodup]
  rfl

theorem Inv.bit_iff (h : Inv v live) {i : Nat} :
    readStorageBit v.storedBitset i = true ↔ live i ≠ none := by
  rw [h.bits]
  cases live i with
  | none => simp
  | some object => simp

theorem mem_iota {count value i : Nat} (h : value + count ≤ 2 ^ 32) :
    i ∈ iota count value ↔ value ≤ i ∧ i < value + count := by
  rw [iota, List.mem_map]
  constructor
  · rintro ⟨j, hj, rfl⟩
    rw [List.mem_range] at hj
    rw [Nat.mod_eq_of_lt (by omega)]
    omega
  · intro hi
    refine ⟨i - value, List.mem_range.2 (by omega), ?_⟩
    rw [Nat.mod_eq_of_lt (by omega)]; omega

theorem nodup_iota {count value : Nat} (h : value + count ≤ 2 ^ 32) : (iota count value).Nodup := by
  refine List.Nodup.map_on ?_ List.nodup_range
  intro i hi j hj heq
  rw [List.mem_range] at hi hj
  rw [Nat.mod_eq_of_lt (by omega), Nat.mod_eq_of_lt (by omega)] at heq
  omega

/-- **Growing moves every object and frees the new slots.** -/
theorem Inv.reserve {newCapacity : Nat} (h : Inv v live) (hgrow : v.valuesCapacity ≤ newCapacity)
    (hpow : ∃ k ≤ 31, newCapacity = 2 ^ k) : Inv (v.reserve newCapacity) live := by
  have hnew : newCapacity ≤ 2 ^ 31 := by
    obtain ⟨k, hk, rfl⟩ := hpow; exact Nat.pow_le_pow_right (by decide) hk
  have hold := h.capacity_le
  have hmod : v.valuesCapacity % 2 ^ 32 = v.valuesCapacity := Nat.mod_eq_of_lt (by omega)
  have hfit : v.valuesCapacity + (newCapacity - v.valuesCapacity) ≤ 2 ^ 32 := by omega
  have hwords : v.storedBitset.length ≤ (newCapacity + 63) / 64 := by
    rw [h.words]; omega
  refine ⟨Or.inr hpow, ?_, ?_, ?_, ?_, ?_, ?_⟩
  · show (v.storedBitset.take _ ++ List.replicate _ 0).length = (newCapacity + 63) / 64
    rw [List.length_append, List.length_take, List.length_replicate]
    omega
  · intro i
    show readStorageBit (v.storedBitset.take _ ++ List.replicate _ 0) i = _
    rw [List.take_of_length_le hwords, ← h.bits, readStorageBit, readStorageBit]
    congr 1
    rw [List.getD_eq_getElem?_getD, List.getD_eq_getElem?_getD]
    by_cases hi : i / 64 < v.storedBitset.length
    · rw [List.getElem?_append_left hi]
    · rw [List.getElem?_append_right (not_lt.1 hi), List.getElem?_eq_none (not_lt.1 hi),
        List.getElem?_replicate]
      split <;> rfl
  · intro i hi
    exact (h.live_lt i hi).trans_le hgrow
  · intro i
    show i ∈ v.freeList ++ iota (newCapacity - v.valuesCapacity) (v.valuesCapacity % 2 ^ 32) ↔
      i < newCapacity ∧ live i = none
    rw [List.mem_append, hmod, mem_iota hfit, h.free]
    have hlive : ∀ i, v.valuesCapacity ≤ i → live i = none := fun i hi => by
      by_contra hne
      exact absurd (h.live_lt i hne) (not_lt.2 hi)
    constructor
    · rintro (⟨hlt, hnone⟩ | ⟨hge, hlt⟩)
      · exact ⟨by omega, hnone⟩
      · exact ⟨by omega, hlive i hge⟩
    · rintro ⟨hlt, hnone⟩
      by_cases hcap : i < v.valuesCapacity
      · exact Or.inl ⟨hcap, hnone⟩
      · exact Or.inr ⟨by omega, by omega⟩
  · show (v.freeList ++ iota (newCapacity - v.valuesCapacity) (v.valuesCapacity % 2 ^ 32)).Nodup
    rw [hmod]
    refine List.nodup_append'.2 ⟨h.nodup, nodup_iota hfit, ?_⟩
    intro i hi hi'
    have hlt := ((h.free i).1 hi).1
    have hge := ((mem_iota hfit).1 hi').1
    omega
  · intro i object hi
    show moveWords v.values v.storedBitset 0 (fun _ => none) i = some object
    have hbit : readStorageBit v.storedBitset (i - 0) = true := by
      rw [Nat.sub_zero, h.bits, hi]; rfl
    rw [moveWords_eq, if_pos ⟨Nat.zero_le i, hbit⟩]; exact h.values_eq i object hi

theorem Inv.ensureFree (h : Inv v live) (hroom : v.size < 2 ^ 31) :
    Inv v.ensureFree live ∧ v.ensureFree.freeList ≠ [] := by
  rw [SlotVector.ensureFree]
  split
  · next hfull =>
    have hcap : v.valuesCapacity < 2 ^ 31 := by
      rw [size, hfull, List.length_nil] at hroom; exact hroom
    have hpow : ∃ k ≤ 31, (if v.valuesCapacity ≠ 0 then v.valuesCapacity <<< 1 else 1) = 2 ^ k := by
      rcases h.capacity with h0 | ⟨k, -, hk⟩
      · exact ⟨0, by decide, by rw [if_neg (not_not.2 h0)]; rfl⟩
      · have hpos : v.valuesCapacity ≠ 0 := by
          rw [hk]; exact (Nat.two_pow_pos k).ne'
        have hlt : k < 31 := by
          rw [hk] at hcap; exact (Nat.pow_lt_pow_iff_right (by decide)).1 hcap
        exact ⟨k + 1, by omega, by rw [if_pos hpos, hk, Nat.shiftLeft_eq, pow_one, pow_succ]⟩
    have hgrow : v.valuesCapacity < if v.valuesCapacity ≠ 0 then v.valuesCapacity <<< 1 else 1 := by
      split
      · rw [Nat.shiftLeft_eq]
        omega
      · omega
    have hnew := h.reserve hgrow.le hpow
    refine ⟨hnew, ?_⟩
    have hlive : live v.valuesCapacity = none := by
      by_contra hne
      exact absurd (h.live_lt _ hne) (lt_irrefl _)
    exact List.ne_nil_of_mem ((hnew.free v.valuesCapacity).2 ⟨hgrow, hlive⟩)
  · next hne => exact ⟨h, hne⟩

theorem Inv.insert (h : Inv v live) (hroom : v.size < 2 ^ 31) (object : T) :
    live (v.insert object).1 = none ∧
      Inv (v.insert object).2 (update live (v.insert object).1 (some object)) := by
  obtain ⟨he, hne⟩ := h.ensureFree hroom
  obtain ⟨init, index, hlist⟩ : ∃ init index, v.ensureFree.freeList = init ++ [index] :=
    ⟨_, _, (List.dropLast_append_getLast hne).symm⟩
  have hindex := (he.free index).1 (by rw [hlist]; exact List.mem_append_right _ List.mem_cons_self)
  have hinsert : v.insert object = (index, setStorageBit { v.ensureFree with
      freeList := init, values := update v.ensureFree.values index (some object) } index) := by
    rw [SlotVector.insert]
    dsimp only
    rw [hlist, List.getLast?_concat, List.dropLast_concat]; rfl
  have hnodup := he.nodup
  rw [hlist, List.nodup_append'] at hnodup
  rw [hinsert]
  dsimp only
  have hword : index / 64 < v.ensureFree.storedBitset.length := by
    rw [he.words]; omega
  refine ⟨hindex.2, he.capacity, ?_, ?_, ?_, ?_, hnodup.1, ?_⟩
  · show (v.ensureFree.storedBitset.modify _ _).length = _
    rw [List.length_modify]
    exact he.words
  · intro i
    show readStorageBit (v.ensureFree.storedBitset.modify _ _) i = _
    rw [readStorageBit_set hword]
    by_cases hi : i = index
    · subst hi
      rw [if_pos rfl, update_self]
      rfl
    · rw [if_neg hi, update_of_ne hi, he.bits]
  · intro i hi
    by_cases hii : i = index
    · rw [hii]
      exact hindex.1
    · rw [update_of_ne hii] at hi; exact he.live_lt i hi
  · intro i
    show i ∈ init ↔ i < v.ensureFree.valuesCapacity ∧ _
    by_cases hii : i = index
    · subst hii
      rw [update_self]
      refine ⟨fun hi => absurd List.mem_cons_self (hnodup.2.2 hi), fun hi => nomatch hi.2⟩
    · rw [update_of_ne hii, ← he.free, hlist, List.mem_append, List.mem_singleton,
          or_iff_left hii]
  · intro i x hi
    show update v.ensureFree.values index (some object) i = some x
    by_cases hii : i = index
    · subst hii
      rw [update_self] at hi ⊢
      exact hi
    · rw [update_of_ne hii] at hi ⊢; exact he.values_eq i x hi

theorem Inv.erase {id : Nat} (h : Inv v live) (hid : live id ≠ none) :
    Inv (v.erase id) (update live id none) := by
  have hlt := h.live_lt id hid
  have hword : id / 64 < v.storedBitset.length := by
    rw [h.words]; omega
  refine ⟨h.capacity, ?_, ?_, ?_, ?_, ?_, ?_⟩
  · show (v.storedBitset.modify _ _).length = _
    rw [List.length_modify]
    exact h.words
  · intro i
    show readStorageBit (v.storedBitset.modify _ _) i = _
    rw [readStorageBit_reset hword]
    by_cases hi : i = id
    · subst hi
      rw [if_pos rfl, update_self]
      rfl
    · rw [if_neg hi, update_of_ne hi, h.bits]
  · intro i hi
    by_cases hii : i = id
    · rw [hii]
      exact hlt
    · rw [update_of_ne hii] at hi; exact h.live_lt i hi
  · intro i
    show i ∈ v.freeList ++ [id] ↔ i < v.valuesCapacity ∧ _
    rw [List.mem_append, List.mem_singleton]
    by_cases hii : i = id
    · subst hii
      rw [update_self]
      exact ⟨fun _ => ⟨hlt, rfl⟩, fun _ => Or.inr rfl⟩
    · rw [update_of_ne hii, or_iff_left hii, h.free]
  · show (v.freeList ++ [id]).Nodup
    refine List.nodup_append'.2 ⟨h.nodup, List.nodup_singleton id, ?_⟩
    intro i hi hi'
    rw [List.mem_singleton] at hi'
    subst hi'
    exact hid ((h.free i).1 hi).2
  · intro i x hi
    show update v.values id none i = some x
    by_cases hii : i = id
    · subst hii
      rw [update_self] at hi
      exact nomatch hi
    · rw [update_of_ne hii] at hi ⊢; exact h.values_eq i x hi

theorem Run.inv (h : Run v live) : Inv v live := by
  induction h with
  | create => exact inv_create
  | insert object _ hroom ih => exact (ih.insert hroom object).2
  | erase _ hid ih => exact ih.erase hid

theorem Inv.fresh (h : Inv v live) (object : T) : live (v.insert object).1 = none := by
  by_cases hroom : v.size < 2 ^ 31
  · exact (h.insert hroom object).1
  · -- All slots are taken and the capacity is the largest one: the id is the last new slot.
    have hle := h.capacity_le
    have hfull : v.freeList = [] := by
      rw [size] at hroom; exact List.length_eq_zero_iff.1 (by omega)
    have hcap : v.valuesCapacity = 2 ^ 31 := by
      rw [size, hfull, List.length_nil] at hroom; omega
    have hindex : (v.insert object).1 = 2 ^ 32 - 1 := by
      show (v.ensureFree.freeList.getLast?).getD 0 = 2 ^ 32 - 1
      rw [SlotVector.ensureFree, if_pos hfull, hcap]
      show ((v.freeList ++ iota (2 ^ 31 <<< 1 - v.valuesCapacity)
        (v.valuesCapacity % 2 ^ 32)).getLast?).getD 0 = _
      rw [hfull, hcap, List.nil_append, iota, List.getLast?_map, List.getLast?_range]
      decide
    by_contra hne
    have := h.live_lt _ hne
    omega

end Invariant

/-! ## Iterating -/

section Iterate

variable {v : SlotVector T} {live : Nat → Option T}

theorem Inv.bitset_size (h : Inv v live) :
    v.storedBitset.length % 2 ^ 32 * 64 % 2 ^ 32 = v.storedBitset.length * 64 ∧
      v.storedBitset.length * 64 ≤ 2 ^ 31 := by
  have hcap := h.capacity_le
  have hwords := h.words
  omega

theorem Inv.lt_bitset_size (h : Inv v live) {i : Nat} (hi : live i ≠ none) :
    i < v.storedBitset.length * 64 := by
  have hlt := h.live_lt i hi
  have hwords := h.words
  omega

theorem skip_spec {bitset : List (BitVec 64)} {size fuel index : Nat} (hfuel : size - index ≤ fuel)
    (hle : index ≤ size) :
    index ≤ skip bitset size fuel index ∧ skip bitset size fuel index ≤ size ∧
      (∀ j, index ≤ j → j < skip bitset size fuel index → readStorageBit bitset j = false) ∧
      (skip bitset size fuel index < size →
          readStorageBit bitset (skip bitset size fuel index) = true) := by
  induction fuel generalizing index with
  | zero =>
    rw [skip]
    exact ⟨le_refl _, hle, fun j h1 h2 => absurd h2 (not_lt.2 h1), fun h => absurd h (by omega)⟩
  | succ fuel ih =>
    rw [skip]
    split
    · next hskip =>
      obtain ⟨h1, h2, h3, h4⟩ := @ih (index + 1) (by omega) (by omega)
      refine ⟨by omega, h2, fun j hj hlt => ?_, h4⟩
      by_cases hji : j = index
      · rw [hji]
        exact hskip.2
      · exact h3 j (by omega) hlt
    · next hstop =>
      refine ⟨le_refl _, hle, fun j h1 h2 => absurd h2 (not_lt.2 h1), fun h => ?_⟩
      by_contra hbit
      exact hstop ⟨h, Bool.not_eq_true _ ▸ hbit⟩

theorem Inv.next_spec (h : Inv v live) {i : Nat} (hi : i < v.storedBitset.length * 64) :
    (v.next i = invalidIndex ∧ ∀ j, live j ≠ none → j ≤ i) ∨
      (i < v.next i ∧ live (v.next i) ≠ none ∧ ∀ j, live j ≠ none → i < j → v.next i ≤ j) := by
  obtain ⟨hsize, hbound⟩ := h.bitset_size
  have hskip := @skip_spec v.storedBitset (v.storedBitset.length * 64) (v.storedBitset.length * 64)
      (i + 1)
    (by omega) (by omega)
  have hnext : v.next i =
      if skip v.storedBitset (v.storedBitset.length * 64) (v.storedBitset.length * 64) (i + 1) =
        v.storedBitset.length * 64 then invalidIndex
        else skip v.storedBitset (v.storedBitset.length * 64) (v.storedBitset.length * 64) (i + 1) := by
    rw [next, hsize]; exact if_pos hi
  rw [hnext]
  generalize skip v.storedBitset (v.storedBitset.length * 64) (v.storedBitset.length * 64) (i + 1) = r
    at hskip ⊢
  obtain ⟨h1, h2, h3, h4⟩ := hskip
  have hleast : ∀ j, live j ≠ none → i < j → r ≤ j := by
    intro j hj hij
    by_contra hlt
    have hbit := h3 j hij (not_le.1 hlt)
    rw [h.bit_iff.2 hj] at hbit; exact absurd hbit (by decide)
  by_cases hend : r = v.storedBitset.length * 64
  · rw [if_pos hend]
    refine Or.inl ⟨rfl, fun j hj => ?_⟩
    by_contra hij
    have hlt := h.lt_bitset_size hj
    have := hleast j hj (not_le.1 hij)
    omega
  · rw [if_neg hend]; exact Or.inr ⟨h1, h.bit_iff.1 (h4 (lt_of_le_of_ne h2 hend)), hleast⟩

theorem Inv.visits_of_live (h : Inv v live) (n : Nat) {i : Nat} (hi : live i ≠ none)
    (hn : v.storedBitset.length * 64 - i ≤ n) :
    ∃ ids, v.visits (n + 2) i = some ids ∧ ids.Pairwise (· < ·) ∧
      ∀ id, id ∈ ids ↔ live id ≠ none ∧ i ≤ id := by
  have hbound := h.bitset_size.2
  induction n generalizing i with
  | zero =>
    have := h.lt_bitset_size hi
    omega
  | succ n ih =>
    have hlt := h.lt_bitset_size hi
    have hvalid : i ≠ invalidIndex := by
      rw [invalidIndex]; omega
    have hvisit : v.visits (n + 1 + 2) i = (v.visits (n + 2) (v.next i)).map (i :: ·) := by
      show (if i = invalidIndex then some [] else _) = _
      rw [if_neg hvalid]
    rw [hvisit]
    rcases h.next_spec hlt with ⟨hend, hlast⟩ | ⟨hgt, hlive, hleast⟩
    · have hdone : v.visits (n + 2) invalidIndex = some [] := if_pos rfl
      rw [hend, hdone]
      refine ⟨[i], rfl, List.pairwise_singleton _ _, fun id => ?_⟩
      rw [List.mem_singleton]
      constructor
      · rintro rfl
        exact ⟨hi, le_refl id⟩
      · rintro ⟨hid, hle⟩; exact le_antisymm (hlast id hid) hle
    · obtain ⟨ids, hids, hsorted, hmem⟩ := ih hlive (by omega)
      rw [hids]
      refine ⟨i :: ids, rfl, List.pairwise_cons.2 ⟨fun j hj => ?_, hsorted⟩, fun id => ?_⟩
      · exact hgt.trans_le ((hmem j).1 hj).2
      · rw [List.mem_cons, hmem]
        constructor
        · rintro (rfl | ⟨hid, hle⟩)
          · exact ⟨hi, le_refl id⟩
          · exact ⟨hid, hgt.le.trans hle⟩
        · rintro ⟨hid, hle⟩
          rcases Nat.eq_or_lt_of_le hle with heq | hlt
          · exact Or.inl heq.symm
          · exact Or.inr ⟨hid, hleast id hid hlt⟩

theorem visits_invalidIndex {fuel : Nat} {ids : List Nat} (h : v.visits fuel invalidIndex = some ids) :
    ids = [] := by
  cases fuel with
  | zero => exact nomatch h
  | succ fuel =>
    have hdone : v.visits (fuel + 1) invalidIndex = some [] := if_pos rfl
    rw [hdone] at h; exact (Option.some.inj h).symm

theorem visits_of_stuck {i : Nat} (hstuck : v.next i = i) (hvalid : i ≠ invalidIndex) (fuel : Nat) :
    v.visits fuel i = none := by
  induction fuel with
  | zero => rfl
  | succ fuel ih =>
    show (if i = invalidIndex then some [] else _) = none
    rw [if_neg hvalid, hstuck, ih]; rfl

theorem Inv.word_ne_zero (h : Inv v live) {k : Nat} (hk : v.storedBitset.getD k 0 ≠ 0) :
    live (64 * k + (v.storedBitset.getD k 0).ctz.toNat) ≠ none ∧
      (v.storedBitset.getD k 0).ctz.toNat < 64 ∧
      ∀ j, live j ≠ none → 64 * k ≤ j → 64 * k + (v.storedBitset.getD k 0).ctz.toNat ≤ j := by
  have hctz : (v.storedBitset.getD k 0).ctz.toNat < 64 := by
    have hlt := BitVec.lt_def.1 (BitVec.ctz_lt_iff_ne_zero.2 hk)
    exact hlt
  have hdiv : (64 * k + (v.storedBitset.getD k 0).ctz.toNat) / 64 = k := by omega
  have hmod : (64 * k + (v.storedBitset.getD k 0).ctz.toNat) % 64
      = (v.storedBitset.getD k 0).ctz.toNat := by
    omega
  refine ⟨?_, hctz, fun j hj hle => ?_⟩
  · rw [← h.bit_iff, readStorageBit, hdiv, hmod]
    exact BitVec.getLsbD_true_ctz_of_ne_zero hk
  · by_contra hlt
    have hjk : j / 64 = k := by omega
    have hbit := h.bit_iff.2 hj
    rw [readStorageBit, hjk, BitVec.getLsbD_false_of_lt_ctz (by omega)] at hbit
    exact absurd hbit (by decide)

theorem Inv.begin_cases (h : Inv v live) :
    ((∀ id, live id = none) ∧ v.begin = invalidIndex) ∨
      (live v.begin ≠ none ∧ v.begin < 64 ∧ ∀ j, live j ≠ none → v.begin ≤ j) ∨
      ((∃ id, live id ≠ none) ∧ (∀ id, live id ≠ none → 64 ≤ id) ∧ 2 ^ 31 ≤ v.begin) := by
  have hzero : ∀ k id, v.storedBitset.getD k 0 = 0 → live id ≠ none → id / 64 ≠ k := by
    rintro k id hk hid rfl
    have hbit := h.bit_iff.2 hid
    rw [readStorageBit, hk] at hbit; exact absurd hbit (by simp)
  rw [begin]
  cases hfind : v.storedBitset.findIdx? fun value => value != 0 with
  | none =>
    refine Or.inl ⟨fun id => ?_, rfl⟩
    rw [List.findIdx?_eq_none_iff] at hfind
    by_contra hid
    refine hzero (id / 64) id ?_ hid rfl
    have hlt : id / 64 < v.storedBitset.length := by
      have := h.lt_bitset_size hid
      omega
    rw [List.getD_eq_getElem _ _ hlt]; simpa using hfind _ (List.getElem_mem hlt)
  | some k =>
    obtain ⟨hk, hne, hbefore⟩ := List.findIdx?_eq_some_iff_getElem.1 hfind
    have hword : v.storedBitset.getD k 0 ≠ 0 := by
      rw [List.getD_eq_getElem _ _ hk]; simpa using hne
    obtain ⟨hlive, hctz, hleast⟩ := h.word_ne_zero hword
    have hfirst : ∀ id, live id ≠ none → 64 * k ≤ id := by
      intro id hid
      by_contra hlt
      have hj : id / 64 < k := by omega
      refine hzero (id / 64) id ?_ hid rfl
      rw [List.getD_eq_getElem _ _ (hj.trans hk)]; simpa using hbefore (id / 64) hj
    have hbound := h.bitset_size.2
    dsimp only
    rcases Nat.eq_zero_or_pos k with rfl | hpos
    · refine Or.inr (Or.inl ?_)
      have hbegin : ((-((0 : Nat) : Int) % 2 ^ 32).toNat * 64 % 2 ^ 32 +
          (v.storedBitset.getD 0 0).ctz.toNat) % 2 ^ 32
              = 64 * 0 + (v.storedBitset.getD 0 0).ctz.toNat := by
        omega
      rw [hbegin]
      exact ⟨hlive, by omega, fun j hj => hleast j hj (by omega)⟩
    · refine Or.inr (Or.inr ⟨⟨_, hlive⟩, fun id hid => ?_, ?_⟩)
      · have := hfirst id hid
        omega
      · omega

theorem Inv.next_of_le (h : Inv v live) {i : Nat} (hi : 2 ^ 31 ≤ i) : v.next i = i := by
  obtain ⟨hsize, hbound⟩ := h.bitset_size
  rw [next, hsize]
  exact if_neg (by omega)

theorem Inv.slotMap_iff (h : Inv v live) :
    SlotMap v live ↔ (∀ id, live id = none) ∨ ∃ id < 64, live id ≠ none := by
  have hget : ∀ id object, live id = some object → v.get id = some object := h.values_eq
  rcases h.begin_cases with ⟨hnone, hbegin⟩ | ⟨hlive, hlt, hleast⟩ | ⟨hsome, hfirst, hbegin⟩
  · refine ⟨fun _ => Or.inl hnone, fun _ =>
      ⟨hget, h.fresh, h.ncard_live.symm, 1, [], ?_, List.Pairwise.nil, ?_⟩⟩
    · rw [hbegin]
      exact if_pos rfl
    · intro id; simp [hnone id]
  · refine ⟨fun _ => Or.inr ⟨_, hlt, hlive⟩, fun _ => ⟨hget, h.fresh, h.ncard_live.symm, ?_⟩⟩
    obtain ⟨ids, hids, hsorted, hmem⟩ := h.visits_of_live (v.storedBitset.length * 64) hlive (by omega)
    refine ⟨_, ids, hids, hsorted, fun id => ?_⟩
    rw [hmem]
    exact ⟨And.left, fun hid => ⟨hid, hleast id hid⟩⟩
  · constructor
    · rintro ⟨-, -, -, fuel, ids, hids, -, hmem⟩
      exfalso
      obtain ⟨id, hid⟩ := hsome
      by_cases hvalid : v.begin = invalidIndex
      · -- By chance the wrong start is the end: nothing is visited.
        rw [hvalid] at hids
        rw [visits_invalidIndex hids] at hmem
        exact absurd ((hmem id).2 hid) List.not_mem_nil
      · rw [visits_of_stuck (h.next_of_le hbegin) hvalid] at hids; exact nomatch hids
    · rintro (hnone | ⟨id, hlt, hid⟩)
      · obtain ⟨id, hid⟩ := hsome
        exact absurd (hnone id) hid
      · exact absurd (hfirst id hid) (not_le.2 hlt)

end Iterate

/-! ## Runs of calls -/

inductive Call (T : Type) where
  | insert (object : T)
  | erase (id : Nat)

/-- A call that the callers may make; the live ids are tracked beside the vector. -/
def perform : SlotVector T × (Nat → Option T) → Call T → Option (SlotVector T × (Nat → Option T))
  | (v, live), .insert object =>
      if v.size < 2 ^ 31 then
        some ((v.insert object).2, update live (v.insert object).1 (some object))
      else none
  | (v, live), .erase id =>
      if (live id).isSome then some (v.erase id, update live id none) else none

theorem Run.foldlM {s s' : SlotVector T × (Nat → Option T)} {calls : List (Call T)} (h : Run s.1 s.2)
    (hs : calls.foldlM perform s = some s') : Run s'.1 s'.2 := by
  induction calls generalizing s with
  | nil =>
    obtain rfl := Option.some.inj hs; exact h
  | cons c calls ih =>
    rw [List.foldlM_cons, Option.bind_eq_bind, Option.bind_eq_some_iff] at hs
    obtain ⟨s₁, hs₁, hs⟩ := hs
    refine ih ?_ hs
    cases c with
    | insert object =>
      rw [perform] at hs₁
      split at hs₁
      · next hroom =>
        obtain rfl := Option.some.inj hs₁
        exact h.insert object hroom
      · exact nomatch hs₁
    | erase id =>
      rw [perform] at hs₁
      split at hs₁
      · next hid =>
        obtain rfl := Option.some.inj hs₁
        exact h.erase (Option.isSome_iff_ne_none.1 hid)
      · exact nomatch hs₁

/-- **With at most `2^31` live ids at a time, a vector is a slot map exactly if no id is live or one in
    the first word is.** -/
theorem slotVector_exact {T : Type} {v : SlotVector T} {live : Nat → Option T} (h : Run v live) :
    SlotMap v live ↔ (∀ id, live id = none) ∨ ∃ id < 64, live id ≠ none :=
  h.inv.slotMap_iff

/-- 65 objects, of which the first 64 ids are freed again. -/
def emptyFirstWord : List (Call Nat) := (List.range 65).map .insert ++ (List.range 64).map .erase

/-- The only live id is 127, and `begin` is `2^32 - 64 + 63`: the iteration ends before it began. -/
theorem slotVector_skips_live :
    ∃ s, emptyFirstWord.foldlM perform (create, fun _ => none) = some s ∧ Run s.1 s.2 ∧
        s.2 127 = some 64 ∧
      s.1.begin = invalidIndex ∧ ¬ SlotMap s.1 s.2 := by
  have hsome : (emptyFirstWord.foldlM perform (create, fun _ => none)).isSome = true := by decide +kernel
  obtain ⟨s, hs⟩ := Option.isSome_iff_exists.1 hsome
  have hlive : s.2 127 = some 64 := by
    have hrun : (emptyFirstWord.foldlM perform (create, fun _ => none)).map (fun s => s.2 127) =
        some (some 64) := by decide +kernel
    rw [hs] at hrun; exact Option.some.inj hrun
  have hbegin : s.1.begin = invalidIndex := by
    have hrun : (emptyFirstWord.foldlM perform (create, fun _ => none)).map (fun s => s.1.begin) =
        some invalidIndex := by decide +kernel
    rw [hs] at hrun; exact Option.some.inj hrun
  refine ⟨s, hs, Run.create.foldlM hs, hlive, hbegin, ?_⟩
  rintro ⟨-, -, -, fuel, ids, hids, -, hmem⟩
  rw [hbegin] at hids
  rw [visits_invalidIndex hids] at hmem
  exact absurd ((hmem 127).2 (by rw [hlive]; exact nofun)) List.not_mem_nil

/-- Two objects, and the first one erased. -/
theorem slotVector_exact_two :
    ∃ s, [Call.insert 7, .insert 8, .erase 0].foldlM perform (create, fun _ => none) = some s ∧
      SlotMap s.1 s.2 := by
  have hsome :
      ([Call.insert 7, .insert 8, .erase 0].foldlM perform (create, fun _ => none)).isSome = true := by
    decide +kernel
  obtain ⟨s, hs⟩ := Option.isSome_iff_exists.1 hsome
  refine ⟨s, hs, (slotVector_exact (Run.create.foldlM hs)).2 (Or.inr ⟨1, by decide, ?_⟩)⟩
  have hrun : ([Call.insert 7, .insert 8, .erase 0].foldlM perform (create, fun _ => none)).map
      (fun s => s.2 1) = some (some 8) := by decide +kernel
  rw [hs] at hrun
  have hone : s.2 1 = some 8 := Option.some.inj hrun
  rw [hone]
  exact nofun

end SlotVector

end Suyu.Common
