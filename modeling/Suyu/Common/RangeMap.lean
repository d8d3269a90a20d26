import Mathlib
import Suyu.Lib.ChangePoints

/-
  RangeMap - one value for every address, stored as change points.

  1. **Program** - `Map` looks up the value just before the range and the value at its end, erases the
     points from the one bound to the other, and enters a bound only if the value changes there.
     Addresses are cast to a signed type; the first point stands at the least key of that type.

  2. **Specification (`ReadsAs`)** - an address has the value of the last call whose range it lies in,
     or the null value; and the continuous size is the distance to the first larger address with another
     value.

  3. **The crux (`Inv`)** - every point changes the value, and the value behind the LAST point is null.
     The lookups at the two ends of the container return the null value without reading it; this is
     right because of the second half.

  An iterator is the pair of what stands before it and what follows it.  The values are of any type with
  equality; addresses are `u64`, keys are `s64`.
-/

namespace Suyu.Common

open Lib.ChangePoints

structure RangeMap (ValueT : Type) where
  nullValue : ValueT
  container : List (Int × ValueT)

namespace RangeMap

variable {ValueT : Type}

/-- `std::numeric_limits<s64>::min()` and `max()`. -/
def minKey : Int := -2 ^ 63
def maxKey : Int := 2 ^ 63 - 1

/-! ## The program -/

def create (nullValue : ValueT) : RangeMap ValueT := ⟨nullValue, [(minKey, nullValue)]⟩

/-- An iterator: the entries before it, and its own and the following ones. -/
abbrev Iterator (ValueT : Type) := List (Int × ValueT) × List (Int × ValueT)

def lowerBound (container : List (Int × ValueT)) (address : Int) : Iterator ValueT :=
  (container.takeWhile fun p => decide (p.1 < address),
    container.dropWhile fun p => decide (p.1 < address))

def upperBound (container : List (Int × ValueT)) (address : Int) : Iterator ValueT :=
  (container.takeWhile fun p => decide (p.1 ≤ address),
    container.dropWhile fun p => decide (p.1 ≤ address))

/-- `--it`, for an iterator that is not the first one. -/
def prev (it : Iterator ValueT) : Iterator ValueT := (it.1.dropLast, it.1.getLast?.toList ++ it.2)

/-- `it->second` -/
def second (m : RangeMap ValueT) (it : Iterator ValueT) : ValueT :=
  (it.2.head?.map Prod.snd).getD m.nullValue

/-- `container.emplace`, which leaves a key that is there as it is. -/
def emplace (container : List (Int × ValueT)) (key : Int) (value : ValueT) : List (Int × ValueT) :=
  let it := lowerBound container key
  if it.2.head?.map Prod.fst = some key then container else it.1 ++ (key, value) :: it.2

def getFirstElementBeforeOrOn (m : RangeMap ValueT) (address : Int) : Iterator ValueT :=
  let it := lowerBound m.container address
  if it.1 = [] then it
  else if it.2.head?.map Prod.fst = some address then it
  else prev it

def getFirstValueWithin (m : RangeMap ValueT) (address : Int) : ValueT :=
  let it := lowerBound m.container address
  if it.1 = [] then m.second it
  else if it.2 = [] then m.nullValue
  else m.second (prev it)

def getLastValueWithin (m : RangeMap ValueT) (address : Int) : ValueT :=
  let it := upperBound m.container address
  if it.2 = [] then m.nullValue
  else if it.1 = [] then m.second it
  else m.second (prev it)

def internalMap [DecidableEq ValueT] (m : RangeMap ValueT) (address addressEnd : Int) (value : ValueT) :
    RangeMap ValueT :=
  let mustAddStart := m.getFirstValueWithin address ≠ value
  let lastValue := m.getLastValueWithin addressEnd
  let mustAddEnd := lastValue ≠ value
  let erased := (lowerBound m.container address).1 ++ (upperBound m.container addressEnd).2
  let started := if mustAddStart then emplace erased address value else erased
  { m with container := if mustAddEnd then emplace started addressEnd lastValue else started }

/-- `static_cast<KeyT>` and the clamping of a negative key. -/
def clampKey (address : BitVec 64) : Int := if address.toInt < 0 then 0 else address.toInt

def map [DecidableEq ValueT] (m : RangeMap ValueT) (address addressEnd : BitVec 64) (value : ValueT) :
    RangeMap ValueT :=
  m.internalMap (clampKey address) (clampKey addressEnd) value

def unmap [DecidableEq ValueT] (m : RangeMap ValueT) (address addressEnd : BitVec 64) : RangeMap ValueT :=
  m.map address addressEnd m.nullValue

def continuousSizeInternal [DecidableEq ValueT] (m : RangeMap ValueT) (address : Int) : Int :=
  match (m.getFirstElementBeforeOrOn address).2 with
  | [] => 0
  | it :: rest =>
      if it.2 = m.nullValue then 0
      else
        match rest with
        | [] => maxKey - address
        | itEnd :: _ => itEnd.1 - address

/-- The result is cast to `size_t`. -/
def getContinuousSizeFrom [DecidableEq ValueT] (m : RangeMap ValueT) (address : BitVec 64) : BitVec 64 :=
  let newAddress := address.toInt
  if newAddress < 0 then 0 else BitVec.ofInt 64 (m.continuousSizeInternal newAddress)

def getValueInternal (m : RangeMap ValueT) (address : Int) : ValueT :=
  match (m.getFirstElementBeforeOrOn address).2 with
  | [] => m.nullValue
  | it :: _ => it.2

def getValueAt (m : RangeMap ValueT) (address : BitVec 64) : ValueT :=
  let newAddress := address.toInt
  if newAddress < 0 then m.nullValue else m.getValueInternal newAddress

/-! ## Specification -/

/-- A call of `Map` or `Unmap`. -/
inductive Call (ValueT : Type) where
  | map (address addressEnd : BitVec 64) (value : ValueT)
  | unmap (address addressEnd : BitVec 64)

namespace Call

def range : Call ValueT → BitVec 64 × BitVec 64
  | map address addressEnd _ => (address, addressEnd)
  | unmap address addressEnd => (address, addressEnd)

def value (nullValue : ValueT) : Call ValueT → ValueT
  | map _ _ value => value
  | unmap _ _ => nullValue

/-- `0 <= a < b < 2^63` -/
def Valid (c : Call ValueT) : Prop :=
  c.range.1.toNat < c.range.2.toNat ∧ c.range.2.toNat < 2 ^ 63

def Covers (c : Call ValueT) (x : Nat) : Prop := c.range.1.toNat ≤ x ∧ x < c.range.2.toNat

instance decidableCovers (c : Call ValueT) (x : Nat) : Decidable (c.Covers x) :=
  inferInstanceAs (Decidable (_ ∧ _))

end Call

def perform [DecidableEq ValueT] (m : RangeMap ValueT) : Call ValueT → RangeMap ValueT
  | .map address addressEnd value => m.map address addressEnd value
  | .unmap address addressEnd => m.unmap address addressEnd

/-- The map after a sequence of calls. -/
def run [DecidableEq ValueT] (nullValue : ValueT) (calls : List (Call ValueT)) : RangeMap ValueT :=
  calls.foldl perform (create nullValue)

/-- The value of the last call whose range holds `x`, or the null value. -/
def valueAfter (nullValue : ValueT) (calls : List (Call ValueT)) (x : Nat) : ValueT :=
  ((calls.reverse.find? fun c => decide (c.Covers x)).map (Call.value nullValue)).getD nullValue

/-- What the two lookups say about the function `f` from addresses to values. -/
structure ReadsAs [DecidableEq ValueT] (m : RangeMap ValueT) (nullValue : ValueT) (f : Nat → ValueT) :
    Prop where
  getValueAt : ∀ x : BitVec 64, m.getValueAt x = f x.toNat
  unmapped : ∀ x : BitVec 64, f x.toNat = nullValue → m.getContinuousSizeFrom x = 0
  /-- The run of equal values from `x` on ends exactly behind the continuous size. -/
  mapped : ∀ x : BitVec 64, f x.toNat ≠ nullValue →
    (∀ y, x.toNat ≤ y → y < x.toNat + (m.getContinuousSizeFrom x).toNat → f y = f x.toNat) ∧
      f (x.toNat + (m.getContinuousSizeFrom x).toNat) ≠ f x.toNat

/-! ## The lookups, on a sorted container -/

section Lookup

variable {m : RangeMap ValueT} {d : ValueT} {container rest l₁ l₂ : List (Int × ValueT)} {address x : Int}

theorem lowerBound_eq (hs : Sorted container) (address : Int) :
    lowerBound container address = (container.filter fun p => decide (p.1 < address),
      container.filter fun p => decide (address ≤ p.1)) := by
  have hdown : container.Pairwise fun p q =>
      decide (q.1 < address) = true → decide (p.1 < address) = true :=
    hs.imp fun hpq hq => decide_eq_true (hpq.trans (of_decide_eq_true hq))
  have hneg : (fun p : Int × ValueT => !decide (p.1 < address)) = fun p => decide (address ≤ p.1) := by
    funext p
    rw [← decide_not, decide_eq_decide, not_lt]
  rw [lowerBound, takeWhile_eq_filter hdown, dropWhile_eq_filter hdown, hneg]

theorem upperBound_eq (hs : Sorted container) (address : Int) :
    upperBound container address = (container.filter fun p => decide (p.1 ≤ address),
      container.filter fun p => decide (address < p.1)) := by
  have hdown : container.Pairwise fun p q =>
      decide (q.1 ≤ address) = true → decide (p.1 ≤ address) = true :=
    hs.imp fun hpq hq => decide_eq_true (hpq.le.trans (of_decide_eq_true hq))
  have hneg : (fun p : Int × ValueT => !decide (p.1 ≤ address)) = fun p => decide (address < p.1) := by
    funext p
    rw [← decide_not, decide_eq_decide, not_le]
  rw [upperBound, takeWhile_eq_filter hdown, dropWhile_eq_filter hdown, hneg]

theorem second_prev (m : RangeMap ValueT) {it : Iterator ValueT} (h : it.1 ≠ []) :
    m.second (prev it) = lastValue m.nullValue it.1 := by
  rw [second, prev, lastValue_eq_getLast?, List.getLast?_eq_some_getLast h]; rfl

theorem lowerBound_append (h₁ : ∀ p ∈ l₁, p.1 < x) (h₂ : ∀ p ∈ l₂, x ≤ p.1) :
    lowerBound (l₁ ++ l₂) x = (l₁, l₂) := by
  have htake : (l₁ ++ l₂).takeWhile (fun p => decide (p.1 < x)) = l₁ := by
    rw [List.takeWhile_append_of_pos fun p hp => decide_eq_true (h₁ p hp)]
    cases l₂ with
    | nil => rw [List.takeWhile_nil, List.append_nil]
    | cons q l₂ =>
      have hq := h₂ q List.mem_cons_self
      rw [List.takeWhile_cons_of_neg (by simpa using hq), List.append_nil]
  have hcut := @List.takeWhile_append_dropWhile _ (fun p => decide (p.1 < x)) (l₁ ++ l₂)
  rw [htake] at hcut
  rw [lowerBound, htake, List.append_cancel_left hcut]

theorem emplace_append {value : ValueT} (h₁ : ∀ p ∈ l₁, p.1 < x) (h₂ : ∀ p ∈ l₂, x < p.1) :
    emplace (l₁ ++ l₂) x value = l₁ ++ (x, value) :: l₂ := by
  have hfresh : ¬ l₂.head?.map Prod.fst = some x := by
    intro h
    obtain ⟨q, hq, hqx⟩ := Option.map_eq_some_iff.1 h
    have := h₂ q (List.mem_of_mem_head? hq)
    omega
  rw [emplace, lowerBound_append h₁ fun p hp => (h₂ p hp).le]
  exact if_neg hfresh

end Lookup

/-! ## The invariant -/

/-- The points behind the first one. -/
structure Points (null : ValueT) (f : Nat → ValueT) (rest : List (Int × ValueT)) : Prop where
  sorted : Sorted rest
  range : ∀ p ∈ rest, 0 ≤ p.1 ∧ p.1 < 2 ^ 63
  alternates : Alternates null rest
  last : lastValue null rest = null
  reads : ∀ x : Nat, valueAt null rest x = f x

/-- The container has its first point at the least key, and its other points read `f`. -/
def Inv (m : RangeMap ValueT) (null : ValueT) (f : Nat → ValueT) : Prop :=
  m.nullValue = null ∧ ∃ rest, m.container = (minKey, null) :: rest ∧ Points null f rest

section Invariant

variable {m : RangeMap ValueT} {null : ValueT} {f : Nat → ValueT} {rest : List (Int × ValueT)}
  {address : Int}

theorem Points.sorted_container (h : Points null f rest) : Sorted ((minKey, null) :: rest) := by
  refine List.pairwise_cons.2 ⟨fun p hp => ?_, h.sorted⟩
  have hnonneg := (h.range p hp).1
  show minKey < p.1
  rw [minKey]
  omega

theorem Points.filter_lt (_ : Points null f rest) (hx : 0 ≤ address) :
    ((minKey, null) :: rest).filter (fun p => decide (p.1 < address)) =
      (minKey, null) :: rest.filter fun p => decide (p.1 < address) := by
  refine List.filter_cons_of_pos (decide_eq_true ?_)
  show minKey < address
  rw [minKey]
  omega

theorem Points.filter_le (_ : Points null f rest) (hx : 0 ≤ address) :
    ((minKey, null) :: rest).filter (fun p => decide (p.1 ≤ address)) =
      (minKey, null) :: rest.filter fun p => decide (p.1 ≤ address) := by
  refine List.filter_cons_of_pos (decide_eq_true ?_)
  show minKey ≤ address
  rw [minKey]
  omega

theorem Points.filter_gt (_ : Points null f rest) (hx : 0 ≤ address) :
    ((minKey, null) :: rest).filter (fun p => decide (address < p.1)) =
      rest.filter fun p => decide (address < p.1) := by
  refine List.filter_cons_of_neg ?_
  have hneg : ¬ address < minKey := by
    rw [minKey]; omega
  simpa using hneg

theorem Points.getFirstValueWithin (h : Points null f rest) (hx : 0 ≤ address)
    (hm : m.nullValue = null) (hc : m.container = (minKey, null) :: rest) :
    m.getFirstValueWithin address = lastValue null (rest.filter fun p => decide (p.1 < address)) := by
  have hbefore := h.filter_lt hx
  rw [RangeMap.getFirstValueWithin, hc, lowerBound_eq h.sorted_container, hbefore]
  dsimp only
  rw [if_neg (List.cons_ne_nil _ _)]
  split
  · next hnone =>
    -- No point from the address on: the value is that behind the last point.
    have hall : rest.filter (fun p => decide (p.1 < address)) = rest := by
      refine List.filter_eq_self.2 fun p hp => decide_eq_true ?_
      have := List.filter_eq_nil_iff.1 hnone p (List.mem_cons_of_mem _ hp)
      simpa using this
    rw [hm, hall, h.last]
  · rw [second_prev m (List.cons_ne_nil _ _)]; rfl

theorem Points.getLastValueWithin (h : Points null f rest) (hx : 0 ≤ address)
    (hm : m.nullValue = null) (hc : m.container = (minKey, null) :: rest) :
    m.getLastValueWithin address = valueAt null rest address := by
  have hbefore := h.filter_le hx
  rw [RangeMap.getLastValueWithin, hc, upperBound_eq h.sorted_container, hbefore]
  dsimp only
  rw [if_neg (List.cons_ne_nil _ _)]
  split
  · next hnone =>
    have hall : rest.filter (fun p => decide (p.1 ≤ address)) = rest := by
      refine List.filter_eq_self.2 fun p hp => decide_eq_true ?_
      have := List.filter_eq_nil_iff.1 hnone p (List.mem_cons_of_mem _ hp)
      simpa using this
    rw [hm, valueAt, hall, h.last]
  · rw [second_prev m (List.cons_ne_nil _ _)]; rfl

/-- **`InternalMap` overwrites the range.** -/
theorem Points.internalMap [DecidableEq ValueT] {a b : Int} (h : Points null f rest) (ha : 0 ≤ a)
    (hab : a < b) (hm : m.nullValue = null) (hc : m.container = (minKey, null) :: rest) (v : ValueT) :
    (m.internalMap a b v).container = (minKey, null) :: overwrite null rest a b v := by
  have hb : 0 ≤ b := by omega
  have herased : (lowerBound m.container a).1 ++ (upperBound m.container b).2 =
      ((minKey, null) :: rest.filter fun p => decide (p.1 < a)) ++
        rest.filter fun p => decide (b < p.1) := by
    rw [hc, lowerBound_eq h.sorted_container, upperBound_eq h.sorted_container]
    dsimp only
    rw [h.filter_lt ha, h.filter_gt hb]
  have hbefore : ∀ p ∈ ((minKey, null) :: rest.filter fun p => decide (p.1 < a)), p.1 < a := by
    intro p hp
    rw [← h.filter_lt ha] at hp; exact of_decide_eq_true (List.mem_filter.1 hp).2
  have hafter : ∀ p ∈ rest.filter (fun p => decide (b < p.1)), b < p.1 := fun p hp =>
    of_decide_eq_true (List.mem_filter.1 hp).2
  -- The start, if it is entered, goes between the two parts.
  have hstart : (if m.getFirstValueWithin a ≠ v then
      emplace ((lowerBound m.container a).1 ++ (upperBound m.container b).2) a v
        else (lowerBound m.container a).1 ++ (upperBound m.container b).2) =
      (((minKey, null) :: rest.filter fun p => decide (p.1 < a)) ++
        enter (lastValue null (rest.filter fun p => decide (p.1 < a))) a v) ++
          rest.filter fun p => decide (b < p.1) := by
    rw [h.getFirstValueWithin ha hm hc, herased]
    unfold enter
    split
    · rw [emplace_append hbefore fun p hp => hab.trans (hafter p hp), List.append_assoc]
      rfl
    · rw [List.append_nil]
  have hbefore' : ∀ p ∈ ((minKey, null) :: rest.filter fun p => decide (p.1 < a)) ++
      enter (lastValue null (rest.filter fun p => decide (p.1 < a))) a v, p.1 < b := by
    intro p hp
    rcases List.mem_append.1 hp with hp | hp
    · exact (hbefore p hp).trans hab
    · rw [mem_enter hp]; exact hab
  rw [RangeMap.internalMap]
  dsimp only
  rw [hstart, h.getLastValueWithin hb hm hc]
  show _ = (minKey, null) :: overwrite null rest a b v
  rw [overwrite]
  conv_rhs => unfold enter
  by_cases hend : valueAt null rest b ≠ v
  · have hend' : v ≠ valueAt null rest b := hend.symm
    rw [if_pos hend, emplace_append hbefore' hafter, if_pos hend']
    simp only [enter, List.append_assoc, List.cons_append, List.nil_append]
  · have hend' : ¬ v ≠ valueAt null rest b := fun h => hend h.symm
    rw [if_neg hend, if_neg hend']
    simp only [enter, List.append_assoc, List.cons_append, List.nil_append]

theorem Points.getFirstElementBeforeOrOn (h : Points null f rest) (hx : 0 ≤ address)
    (hc : m.container = (minKey, null) :: rest) :
    m.getFirstElementBeforeOrOn address =
      prev ((minKey, null) :: rest.filter fun p => decide (p.1 ≤ address),
        rest.filter fun p => decide (address < p.1)) := by
  have hmin : minKey < address := by
    rw [minKey]; omega
  obtain ⟨before, after, rfl, hbefore, hafter⟩ := h.sorted.exists_cut address
  have hlower : lowerBound m.container address = ((minKey, null) :: before, after) := by
    rw [hc, ← List.cons_append]
    refine lowerBound_append (fun p hp => ?_) hafter
    rcases List.mem_cons.1 hp with rfl | hp
    · exact hmin
    · exact hbefore p hp
  have hle : before.filter (fun p => decide (p.1 ≤ address)) = before :=
    List.filter_eq_self.2 fun p hp => decide_eq_true (hbefore p hp).le
  have hgt : before.filter (fun p => decide (address < p.1)) = [] :=
    List.filter_eq_nil_iff.2 fun p hp hpa => absurd (of_decide_eq_true hpa) (hbefore p hp).not_gt
  rw [RangeMap.getFirstElementBeforeOrOn, hlower, List.filter_append, List.filter_append, hle, hgt]
  dsimp only
  rw [if_neg (List.cons_ne_nil _ _)]
  cases after with
  | nil =>
    rw [List.filter_nil, List.filter_nil, List.append_nil]; rfl
  | cons q after =>
    have hlater : ∀ p ∈ after, q.1 < p.1 :=
      (List.pairwise_cons.1 (List.pairwise_append.1 h.sorted).2.1).1
    have hq := hafter q List.mem_cons_self
    have hnone : after.filter (fun p => decide (p.1 ≤ address)) = [] :=
      List.filter_eq_nil_iff.2 fun p hp hpa =>
        absurd (of_decide_eq_true hpa) (not_le.2 (lt_of_le_of_lt hq (hlater p hp)))
    have hall : after.filter (fun p => decide (address < p.1)) = after :=
      List.filter_eq_self.2 fun p hp => decide_eq_true (lt_of_le_of_lt hq (hlater p hp))
    by_cases heq : q.1 = address
    · rw [if_pos (by rw [List.head?_cons, Option.map_some, heq]),
        List.filter_cons_of_pos (by simpa using heq.le), hnone,
        List.filter_cons_of_neg (by simpa using heq.le), hall, prev, List.nil_append, ← List.cons_append,
        List.dropLast_concat, List.getLast?_concat]
      rfl
    · have hlt : address < q.1 := lt_of_le_of_ne hq (Ne.symm heq)
      have hne : ¬ ((q :: after).head?.map Prod.fst = some address) := by
        rw [List.head?_cons, Option.map_some]; exact fun h => heq (Option.some.inj h)
      rw [if_neg hne, List.filter_cons_of_neg (by simpa using hlt), hnone,
        List.filter_cons_of_pos (by simpa using hlt), hall, List.append_nil, List.nil_append]

theorem Points.lookup (h : Points null f rest) (hx : 0 ≤ address)
    (hc : m.container = (minKey, null) :: rest) :
    ∃ it, (m.getFirstElementBeforeOrOn address).2 = it :: rest.filter (fun p => decide (address < p.1)) ∧
      it.2 = valueAt null rest address := by
  have hne : (minKey, null) :: rest.filter (fun p => decide (p.1 ≤ address)) ≠ [] := List.cons_ne_nil _ _
  refine ⟨((minKey, null) :: rest.filter fun p => decide (p.1 ≤ address)).getLast hne, ?_, ?_⟩
  · rw [h.getFirstElementBeforeOrOn hx hc, prev, List.getLast?_eq_some_getLast hne]
    rfl
  · have hlast : lastValue null ((minKey, null) :: rest.filter fun p => decide (p.1 ≤ address)) =
        valueAt null rest address := rfl
    rw [← hlast, lastValue_eq_getLast?, List.getLast?_eq_some_getLast hne]; rfl

theorem Points.valueAt_run (h : Points null f rest) {n : Int × ValueT} {after : List (Int × ValueT)}
    (hnext : rest.filter (fun p => decide (address < p.1)) = n :: after) {y : Int} (hy : address ≤ y)
    (hyn : y < n.1) : valueAt null rest y = valueAt null rest address := by
  have hsame : rest.filter (fun p => decide (p.1 ≤ y)) = rest.filter fun p => decide (p.1 ≤ address) := by
    refine List.filter_congr fun p hp => ?_
    rw [decide_eq_decide]
    refine ⟨fun hpy => ?_, fun hpa => hpa.trans hy⟩
    by_contra hpa
    have hmem : p ∈ n :: after := hnext ▸ List.mem_filter.2 ⟨hp, decide_eq_true (not_le.1 hpa)⟩
    have hsorted : Sorted (n :: after) := hnext ▸ h.sorted.filter _
    rcases List.mem_cons.1 hmem with rfl | hmem
    · omega
    · have := (List.pairwise_cons.1 hsorted).1 p hmem
      omega
  rw [valueAt, valueAt, hsame]

theorem Points.valueAt_next (h : Points null f rest) {n : Int × ValueT} {after : List (Int × ValueT)}
    (hnext : rest.filter (fun p => decide (address < p.1)) = n :: after) :
    valueAt null rest n.1 ≠ valueAt null rest address := by
  have hsplit := filter_append_filter h.sorted address
  rw [hnext] at hsplit
  have hsorted : Sorted (n :: after) := hnext ▸ h.sorted.filter _
  have hn : address < n.1 := by
    have hmem : n ∈ rest.filter fun p => decide (address < p.1) := by
      rw [hnext]; exact List.mem_cons_self
    exact of_decide_eq_true (List.mem_filter.1 hmem).2
  have hread : valueAt null rest n.1 = n.2 := by
    have hfront : (rest.filter fun p => decide (p.1 ≤ address)).filter (fun p => decide (p.1 ≤ n.1)) =
        rest.filter fun p => decide (p.1 ≤ address) := by
      refine List.filter_eq_self.2 fun p hp => decide_eq_true ?_
      exact (of_decide_eq_true (List.mem_filter.1 hp).2).trans hn.le
    have hback : after.filter (fun p => decide (p.1 ≤ n.1)) = [] :=
      List.filter_eq_nil_iff.2 fun p hp hpn =>
        absurd (of_decide_eq_true hpn) (not_le.2 ((List.pairwise_cons.1 hsorted).1 p hp))
    rw [valueAt]
    conv_lhs => rw [← hsplit]
    rw [List.filter_append, hfront, List.filter_cons_of_pos (by simp), hback, lastValue_append]
    rfl
  have halt := h.alternates
  rw [← hsplit] at halt
  rw [hread]
  exact (alternates_append.1 halt).2.1

/-! ## The two lookups -/

theorem toInt_of_lt {x : BitVec 64} (h : x.toNat < 2 ^ 63) : x.toInt = x.toNat := by
  rw [BitVec.toInt_eq_toNat_cond, if_pos (by omega)]

theorem toInt_neg_of_le {x : BitVec 64} (h : 2 ^ 63 ≤ x.toNat) : x.toInt < 0 := by
  have hlt := x.isLt
  rw [BitVec.toInt_eq_toNat_cond, if_neg (by omega)]
  omega

/-- **The lookups read the function of the points.** -/
theorem Inv.readsAs [DecidableEq ValueT] (h : Inv m null f) (hf : ∀ x, 2 ^ 63 ≤ x → f x = null) :
    ReadsAs m null f := by
  obtain ⟨hm, rest, hc, hp⟩ := h
  have hvalue : ∀ x : BitVec 64, m.getValueAt x = f x.toNat := by
    intro x
    rw [RangeMap.getValueAt]
    by_cases hx : x.toNat < 2 ^ 63
    · have hint := toInt_of_lt hx
      obtain ⟨it, hit, hval⟩ := hp.lookup (Int.natCast_nonneg x.toNat) hc
      rw [hint, if_neg (by omega), getValueInternal, hit, ← hp.reads, ← hval]
    · rw [if_pos (toInt_neg_of_le (not_lt.1 hx)), hm, hf _ (not_lt.1 hx)]
  refine ⟨hvalue, fun x hx => ?_, fun x hx => ?_⟩
  · rw [getContinuousSizeFrom]
    split
    · rfl
    · next hneg =>
      have hlt : x.toNat < 2 ^ 63 := by
        by_contra hge
        exact hneg (toInt_neg_of_le (not_lt.1 hge))
      obtain ⟨it, hit, hval⟩ := hp.lookup (Int.natCast_nonneg x.toNat) hc
      rw [← hp.reads] at hx
      rw [toInt_of_lt hlt, continuousSizeInternal, hit]
      dsimp only
      rw [if_pos (by rw [hval, hx, hm])]; rfl
  · have hlt : x.toNat < 2 ^ 63 := by
      by_contra hge
      exact hx (hf _ (not_lt.1 hge))
    obtain ⟨it, hit, hval⟩ := hp.lookup (Int.natCast_nonneg x.toNat) hc
    rw [← hp.reads] at hx
    cases hnext : rest.filter (fun p => decide ((x.toNat : Int) < p.1)) with
    | nil =>
      -- Behind the last point the value would be null.
      exfalso
      have hsplit := filter_append_filter hp.sorted (x.toNat : Int)
      rw [hnext, List.append_nil] at hsplit
      apply hx
      rw [valueAt, hsplit]; exact hp.last
    | cons n after =>
      have hmem : n ∈ rest.filter fun p => decide ((x.toNat : Int) < p.1) := by
        rw [hnext]; exact List.mem_cons_self
      have hn := of_decide_eq_true (List.mem_filter.1 hmem).2
      have hrange := hp.range n (List.mem_filter.1 hmem).1
      have hsize : (m.getContinuousSizeFrom x).toNat = n.1.toNat - x.toNat := by
        rw [getContinuousSizeFrom]
        rw [toInt_of_lt hlt, if_neg (by omega), continuousSizeInternal, hit, hnext]
        dsimp only
        rw [if_neg (by rw [hval, hm]; exact hx), BitVec.toNat_ofInt]; omega
      have hend : ((x.toNat + (n.1.toNat - x.toNat) : Nat) : Int) = n.1 := by omega
      rw [hsize]
      constructor
      · intro y hxy hy
        rw [← hp.reads, ← hp.reads]
        exact hp.valueAt_run hnext (by omega) (by omega)
      · rw [← hp.reads, ← hp.reads, hend]; exact hp.valueAt_next hnext

/-! ## Runs -/

theorem inv_create (null : ValueT) : Inv (create null) null fun _ => null := by
  refine ⟨rfl, [], rfl, List.Pairwise.nil, ?_, trivial, rfl, fun _ => rfl⟩
  intro p hp
  exact absurd hp List.not_mem_nil

theorem Inv.perform [DecidableEq ValueT] {c : Call ValueT} (h : Inv m null f) (hc : c.Valid) :
    Inv (m.perform c) null fun x => if c.Covers x then c.value null else f x := by
  obtain ⟨hm, rest, hcont, hp⟩ := h
  have hperform : m.perform c =
      m.internalMap (c.range.1.toNat : Int) (c.range.2.toNat : Int) (c.value null) := by
    have hclamp : ∀ x : BitVec 64, x.toNat < 2 ^ 63 → clampKey x = (x.toNat : Int) := by
      intro x hx
      rw [clampKey, toInt_of_lt hx, if_neg (by omega)]
    have h1 := hclamp c.range.1 (hc.1.trans hc.2)
    have h2 := hclamp c.range.2 hc.2
    cases c with
    | map a b v =>
      show m.internalMap (clampKey a) (clampKey b) v = _
      exact congrArg₂ (fun k k' => m.internalMap k k' v) h1 h2
    | unmap a b =>
      show m.internalMap (clampKey a) (clampKey b) m.nullValue = _
      rw [hm]; exact congrArg₂ (fun k k' => m.internalMap k k' null) h1 h2
  have hab : (c.range.1.toNat : Int) < (c.range.2.toNat : Int) := by
    have := hc.1
    omega
  have hnonneg : (0 : Int) ≤ c.range.1.toNat := Int.natCast_nonneg _
  refine ⟨?_, overwrite null rest c.range.1.toNat c.range.2.toNat (c.value null), ?_, ?_, ?_, ?_, ?_, ?_⟩
  · rw [hperform]
    exact hm
  · rw [hperform]
    exact hp.internalMap hnonneg hab hm hcont _
  · exact sorted_overwrite hp.sorted hab
  · intro p hpmem
    have hend := hc.2
    rcases List.mem_append.1 hpmem with hmem | hmem
    · exact hp.range p (List.mem_filter.1 hmem).1
    rcases List.mem_append.1 hmem with hmem | hmem
    · rw [mem_enter hmem]; omega
    rcases List.mem_append.1 hmem with hmem | hmem
    · rw [mem_enter hmem]
      omega
    · exact hp.range p (List.mem_filter.1 hmem).1
  · exact alternates_overwrite hp.sorted hp.alternates _ _ _
  · rw [lastValue_overwrite hp.sorted]
    exact hp.last
  · intro x
    rw [valueAt_overwrite hp.sorted hab, hp.reads]
    have hcov : ((c.range.1.toNat : Int) ≤ x ∧ (x : Int) < c.range.2.toNat) ↔ c.Covers x := by
      rw [Call.Covers]; omega
    simp only [hcov]

theorem Inv.run [DecidableEq ValueT] {calls : List (Call ValueT)} (hcalls : ∀ c ∈ calls, c.Valid) :
    Inv (RangeMap.run null calls) null (valueAfter null calls) := by
  induction calls using List.reverseRecOn with
  | nil => exact inv_create null
  | append_singleton calls c ih =>
    have hprev := ih fun c hc => hcalls c (List.mem_append_left _ hc)
    have hstep := hprev.perform (hcalls c (List.mem_append_right _ List.mem_cons_self))
    have hafter : (valueAfter null (calls ++ [c])) =
        fun x => if c.Covers x then c.value null else valueAfter null calls x := by
      funext x
      rw [valueAfter, List.reverse_append, List.reverse_singleton, List.singleton_append, List.find?_cons]
      by_cases hx : c.Covers x
      · rw [decide_eq_true hx, if_pos hx]
        rfl
      · rw [decide_eq_false hx, if_neg hx]; rfl
    rw [hafter, RangeMap.run, List.foldl_append]; exact hstep

theorem valueAfter_of_le {calls : List (Call ValueT)} (hcalls : ∀ c ∈ calls, c.Valid) {x : Nat}
    (hx : 2 ^ 63 ≤ x) : valueAfter null calls x = null := by
  have hnone : (calls.reverse.find? fun c => decide (c.Covers x)) = none := by
    refine List.find?_eq_none.2 fun c hc hcov => ?_
    have hvalid := hcalls c (List.mem_reverse.1 hc)
    have hcov' := of_decide_eq_true hcov
    exact absurd (hcov'.2.trans hvalid.2) (not_lt.2 hx)
  rw [valueAfter, hnone]
  rfl

end Invariant

end RangeMap

/-- **Every sequence of calls leaves a map that reads as the last call at every address.** -/
theorem rangeMap_readsAs {ValueT : Type} [DecidableEq ValueT] (null : ValueT)
    (calls : List (RangeMap.Call ValueT)) (hcalls : ∀ c ∈ calls, c.Valid) :
    RangeMap.ReadsAs (RangeMap.run null calls) null (RangeMap.valueAfter null calls) :=
  (RangeMap.Inv.run hcalls).readsAs fun _ hx => RangeMap.valueAfter_of_le hcalls hx

/-- A range mapped over the end of another one: the sizes up to the change and from it on. -/
theorem rangeMap_readsAs_overlap :
    let calls := [RangeMap.Call.map 2000 6000 1, .unmap 3000 3600, .map 5000 7000 2]
    RangeMap.ReadsAs (RangeMap.run 0 calls) 0 (RangeMap.valueAfter 0 calls) ∧
      (RangeMap.run 0 calls).getContinuousSizeFrom 3600 = 1400 ∧
          (RangeMap.run 0 calls).getValueAt 5000 = 2 := by
  refine ⟨rangeMap_readsAs 0 _ ?_, by decide, by decide⟩
  intro c hc
  simp only [List.mem_cons, List.not_mem_nil, or_false] at hc
  rcases hc with rfl | rfl | rfl <;> exact ⟨by decide, by decide⟩

open RangeMap in
theorem rangeMap_canonical {ValueT : Type} [DecidableEq ValueT] (null : ValueT)
    (calls calls' : List (Call ValueT)) (hcalls : ∀ c ∈ calls, c.Valid) (hcalls' : ∀ c ∈ calls', c.Valid) :
    RangeMap.run null calls = RangeMap.run null calls' ↔
      ∀ x, valueAfter null calls x = valueAfter null calls' x := by
  obtain ⟨hnull, rest, hcontainer, hpoints⟩ := @Inv.run ValueT null _ calls hcalls
  obtain ⟨hnull', rest', hcontainer', hpoints'⟩ := @Inv.run ValueT null _ calls' hcalls'
  constructor
  · intro heq x
    have hrest : rest = rest' := by
      have hboth := hcontainer.symm.trans ((congrArg RangeMap.container heq).trans hcontainer')
      exact (List.cons.inj hboth).2
    rw [← hpoints.reads, ← hpoints'.reads, hrest]
  · intro h
    have hrest : rest = rest' := by
      refine eq_of_valueAt hpoints.sorted hpoints'.sorted hpoints.alternates hpoints'.alternates fun x => ?_
      rcases Int.lt_or_le x 0 with hx | hx
      · rw [valueAt_of_lt fun p hp => hx.trans_le (hpoints.range p hp).1,
          valueAt_of_lt fun p hp => hx.trans_le (hpoints'.range p hp).1]
      · obtain ⟨y, rfl⟩ := Int.eq_ofNat_of_zero_le hx
        exact (hpoints.reads y).trans ((h y).trans (hpoints'.reads y).symm)
    have hmk : ∀ {m m' : RangeMap ValueT}, m.nullValue = m'.nullValue → m.container = m'.container →
        m = m' := by
      rintro ⟨-, -⟩ ⟨-, -⟩ rfl rfl; rfl
    exact hmk (hnull.trans hnull'.symm) (by rw [hcontainer, hcontainer', hrest])

open RangeMap in
/-- One range at once, and in two parts, the second one first. -/
theorem rangeMap_canonical_parts : RangeMap.run 0 [.map 0 8 1] = RangeMap.run 0 [.map 4 8 1, .map 0 4 1] := by
  refine (rangeMap_canonical 0 _ _ ?_ ?_).mpr fun x => ?_
  · exact List.forall_mem_singleton.mpr ⟨by decide, by decide⟩
  · exact List.forall_mem_cons.mpr ⟨⟨by decide, by decide⟩, List.forall_mem_singleton.mpr ⟨by decide, by decide⟩⟩
  · have hcovers : ∀ a b : BitVec 64, (Call.map a b 1).Covers x ↔ a.toNat ≤ x ∧ x < b.toNat := fun _ _ => Iff.rfl
    rcases Nat.lt_or_ge x 4 with h4 | h4
    · simp [valueAfter, hcovers, h4, h4.trans (by decide : 4 < 8), Call.value]
    · by_cases h8 : x < 8 <;> simp [valueAfter, hcovers, h4, h8, Nat.not_lt.mpr, Call.value]

end Suyu.Common
