import Mathlib
import Suyu.Lib.ChangePoints
import Suyu.Lib.Segments

/-
  OverlapRangeSet - how often each address is covered.

  1. **Program** - a map from intervals to counts.  `Add` adds 1 to a range; `Subtract` adds -1, also
     where nothing is, and then erases one segment of the range that is not positive after the other,
     from the beginning again each time.  `DeleteAll` subtracts the largest count.  The interval map is
     not part of the repository: it is a parameter that adds as it is documented to (`Documented`).

  2. **Specification (`Counts`)** - the map holds the multiplicity of each address, and nothing where it
     is 0.

  3. **The crux (`removeLoop_eq`)** - the loop erases exactly the segments of the range that are not
     positive, and as segments are cut at the ends of the range, each is in it as a whole.

  4. **Where it ends** - counts are `s32`, and the end of a range is an address: the range up to the
     last address has the end 0 and is taken for empty, and an address covered `2^31` times has a
     negative count.
-/

namespace Suyu.Common.OverlapRangeSet

open Lib.Segments

/-! ## Program -/

/-- `boost::icl::split_interval_map<AddressType, s32, partial_enricher>` -/
abbrev IntervalMap := List (Segment Nat Int)

def s32Max : Int := 2147483647

def s32Add (a b : Int) : Int := Int.bmod (a + b) 4294967296

/-- `base_address + static_cast<AddressType>(size)`, for addresses of `w` bits. -/
def endAddress (w base size : Nat) : Nat := (base + size) % 2 ^ w

/-- The iterator `lower_bound(interval)`: an interval is before all others if one of the two is empty. -/
def lowerBound (a b : Nat) (m : IntervalMap) : IntervalMap :=
  m.dropWhile fun s => decide (b ≤ a ∨ s.upper ≤ a)

/-- The `for` loop up to `upper_bound(interval)`: the first segment that is not positive is erased. -/
def eraseFirst (b : Nat) : IntervalMap → Option (Segment Nat Int × IntervalMap)
  | [] => none
  | s :: it =>
      if b ≤ s.lower then none
      else if s.value ≤ 0 then some (s, it)
      else (eraseFirst b it).map fun r => (r.1, s :: r.2)

/-- One round of `do ... while (any_removals)`: the segment that is removed, and the map without it. -/
def removeOne (a b : Nat) (m : IntervalMap) : Option (Segment Nat Int × IntervalMap) :=
  (eraseFirst b (lowerBound a b m)).map fun r =>
    (r.1, (m.takeWhile fun s => decide (b ≤ a ∨ s.upper ≤ a)) ++ r.2)

theorem length_of_eraseFirst {b : Nat} {m m' : IntervalMap} {s : Segment Nat Int}
    (h : eraseFirst b m = some (s, m')) : m'.length + 1 = m.length := by
  induction m generalizing m' with
  | nil => exact nomatch h
  | cons t m ih =>
    rw [eraseFirst] at h
    split at h
    · exact nomatch h
    · split at h
      · cases h
        rfl
      · obtain ⟨⟨s', m''⟩, hr, heq⟩ := Option.map_eq_some_iff.1 h
        cases heq
        rw [List.length_cons, List.length_cons, ih hr]

theorem length_of_removeOne {a b : Nat} {m m' : IntervalMap} {s : Segment Nat Int}
    (h : removeOne a b m = some (s, m')) : m'.length < m.length := by
  obtain ⟨⟨s', m''⟩, hr, heq⟩ := Option.map_eq_some_iff.1 h
  cases heq
  have hlen := length_of_eraseFirst hr
  have hsplit := congrArg List.length
    (List.takeWhile_append_dropWhile (p := fun s : Segment Nat Int => decide (b ≤ a ∨ s.upper ≤ a))
    (l := m))
  rw [List.length_append] at hsplit ⊢
  rw [lowerBound] at hlen
  dsimp only at hlen ⊢
  omega

/-- `do ... while (any_removals)`: the intervals that `on_delete` is called with, and the map. -/
def removeLoop (a b : Nat) (deleted : List (Nat × Nat)) (m : IntervalMap) :
    List (Nat × Nat) × IntervalMap :=
  match _h : removeOne a b m with
  | none => (deleted, m)
  | some (s, m') =>
      removeLoop a b (if s.value = 0 then deleted ++ [(s.lower, s.upper)] else deleted) m'
  termination_by m.length
  decreasing_by exact length_of_removeOne _h

section Calls

variable (addInterval : Nat → Nat → Int → IntervalMap → IntervalMap) (w : Nat)

def add (m : IntervalMap) (base size : Nat) : IntervalMap :=
  addInterval base (endAddress w base size) 1 m

/-- `OverlapRangeSetImpl::Subtract` -/
def subtractAmount (m : IntervalMap) (base size : Nat) (amount : Int) : List (Nat × Nat) × IntervalMap :=
  if m = [] then ([], m)
  else removeLoop base (endAddress w base size) [] (addInterval base (endAddress w base size) (-amount) m)

/-- `Subtract`, with the calls of `on_delete`. -/
def subtract (m : IntervalMap) (base size : Nat) : List (Nat × Nat) × IntervalMap :=
  subtractAmount addInterval w m base size 1

def deleteAll (m : IntervalMap) (base size : Nat) : IntervalMap :=
  (subtractAmount addInterval w m base size s32Max).2

end Calls

/-- `inter_addr` and `inter_addr_end`. -/
def clip (a b : Nat) (s : Segment Nat Int) : Segment Nat Int :=
  ⟨if s.lower < a then a else s.lower, if s.upper > b then b else s.upper, s.value⟩

/-- `ForEachInRange`: what the function is called with. -/
def forEachInRange (w : Nat) (m : IntervalMap) (base size : Nat) : List (Segment Nat Int) :=
  if m = [] then []
  else ((lowerBound base (endAddress w base size) m).takeWhile fun s =>
      !decide (endAddress w base size ≤ s.lower)).map (clip base (endAddress w base size))

/-! ## Specification -/

/-- What is documented of `+=`. -/
structure Documented (addInterval : Nat → Nat → Int → IntervalMap → IntervalMap) : Prop where
  adds : ∀ m a b v, WellFormed m → a < b → Adds s32Add a b v m (addInterval a b v m)
  empty : ∀ m a b v, b ≤ a → addInterval a b v m = m

/-- The map holds the multiplicities, up to the largest count. -/
structure Counts (m : IntervalMap) (mult : Nat → Nat) : Prop where
  wellFormed : WellFormed m
  valueAt_eq : ∀ x, valueAt m x = if mult x = 0 then none else some (mult x : Int)
  le_max : ∀ x, (mult x : Int) ≤ s32Max

def InRange (base size x : Nat) : Prop := base ≤ x ∧ x < base + size

instance (base size x : Nat) : Decidable (InRange base size x) := inferInstanceAs (Decidable (_ ∧ _))

/-- The range is not empty and its end is an address. -/
def Fits (w base size : Nat) : Prop := 0 < size ∧ base + size < 2 ^ w

/-- The calls of `on_delete`: disjoint intervals, of the addresses that were covered once. -/
structure DeletesRight (mult : Nat → Nat) (base size : Nat) (deleted : List (Nat × Nat)) : Prop where
  disjoint : deleted.Pairwise fun p q => ∀ x, ¬ (p.1 ≤ x ∧ x < p.2 ∧ q.1 ≤ x ∧ x < q.2)
  union : ∀ x, (∃ p ∈ deleted, p.1 ≤ x ∧ x < p.2) ↔ InRange base size x ∧ mult x = 1

/-- What `ForEachInRange` reports: pieces of the range, and on them the multiplicity of each covered
    address. -/
structure ReportsRight (mult : Nat → Nat) (base size : Nat) (reported : List (Segment Nat Int)) :
    Prop where
  wellFormed : WellFormed reported
  clipped : ∀ s ∈ reported, base ≤ s.lower ∧ s.upper ≤ base + size
  exact : ∀ x n, (∃ s ∈ reported, s.Contains x ∧ s.value = n) ↔
    InRange base size x ∧ mult x ≠ 0 ∧ n = mult x

/-- The states of runs within the bounds, with the multiplicities. -/
inductive Run (addInterval : Nat → Nat → Int → IntervalMap → IntervalMap) (w : Nat) :
    IntervalMap → (Nat → Nat) → Prop where
  | create : Run addInterval w [] fun _ => 0
  | add {m mult} (base size : Nat) : Run addInterval w m mult → Fits w base size →
      (∀ x, InRange base size x → (mult x : Int) < s32Max) →
      Run addInterval w (add addInterval w m base size)
        fun x => if InRange base size x then mult x + 1 else mult x
  | subtract {m mult} (base size : Nat) : Run addInterval w m mult → Fits w base size →
      Run addInterval w (subtract addInterval w m base size).2
        fun x => if InRange base size x then mult x - 1 else mult x
  | deleteAll {m mult} (base size : Nat) : Run addInterval w m mult → Fits w base size →
      Run addInterval w (deleteAll addInterval w m base size)
        fun x => if InRange base size x then 0 else mult x

/-! ## The loop -/

section Loop

variable {a b : Nat} {m m' : IntervalMap} {s t : Segment Nat Int}

/-- The segment has points in the interval. -/
def Meets (a b : Nat) (s : Segment Nat Int) : Prop := a < s.upper ∧ s.lower < b

/-- The loop would remove the segment. -/
def Removable (a b : Nat) (s : Segment Nat Int) : Prop := Meets a b s ∧ s.value ≤ 0

instance (a b : Nat) (s : Segment Nat Int) : Decidable (Meets a b s) :=
  inferInstanceAs (Decidable (_ ∧ _))

instance (a b : Nat) (s : Segment Nat Int) : Decidable (Removable a b s) :=
  inferInstanceAs (Decidable (_ ∧ _))

theorem lower_of_le_lower (h : WellFormed (s :: m)) (hb : b ≤ s.lower) : ∀ t ∈ s :: m, b ≤ t.lower := by
  intro t ht
  rcases List.mem_cons.1 ht with rfl | ht
  · exact hb
  · have hle := (List.pairwise_cons.1 h.ordered).1 t ht
    have hs := h.lower_lt s List.mem_cons_self
    omega

theorem eraseFirst_eq_none (h : WellFormed m) (hnone : eraseFirst b m = none) :
    ∀ s ∈ m, ¬ Removable a b s := by
  induction m with
  | nil => exact nofun
  | cons t m ih =>
    intro s hs hrem
    rw [eraseFirst] at hnone
    split at hnone
    · rename_i hb; exact absurd (lower_of_le_lower h hb s hs) (not_le.2 hrem.1.2)
    split at hnone
    · exact nomatch hnone
    rename_i hpos
    rcases List.mem_cons.1 hs with rfl | hs
    · exact hpos hrem.2
    · exact ih h.tail (Option.map_eq_none_iff.1 hnone) s hs hrem

theorem eraseFirst_eq_some (hsome : eraseFirst b m = some (s, m')) :
    ∃ l₁ l₂, m = l₁ ++ s :: l₂ ∧ m' = l₁ ++ l₂ ∧ s.lower < b ∧ s.value ≤ 0 ∧ ∀ t ∈ l₁, ¬ t.value ≤ 0 := by
  induction m generalizing m' with
  | nil => exact nomatch hsome
  | cons t m ih =>
    rw [eraseFirst] at hsome
    split at hsome
    · exact nomatch hsome
    · rename_i hb
      split at hsome
      · rename_i hle
        cases hsome
        exact ⟨[], m, rfl, rfl, not_le.1 hb, hle, nofun⟩
      · rename_i hpos
        obtain ⟨⟨s', m''⟩, hr, heq⟩ := Option.map_eq_some_iff.1 hsome
        cases heq
        obtain ⟨l₁, l₂, rfl, rfl, hlt, hle, hall⟩ := ih hr
        refine ⟨t :: l₁, l₂, rfl, rfl, hlt, hle, fun u hu => ?_⟩
        rcases List.mem_cons.1 hu with rfl | hu
        · exact hpos
        · exact hall u hu

theorem pairwise_before (h : WellFormed m) (a b : Nat) : m.Pairwise fun s t =>
    decide (b ≤ a ∨ t.upper ≤ a) = true → decide (b ≤ a ∨ s.upper ≤ a) = true := by
  refine h.ordered.imp_of_mem fun {s t} _ ht hle hbefore => ?_
  have hlt := h.lower_lt t ht
  rw [decide_eq_true_eq] at hbefore ⊢
  omega

theorem mem_takeWhile_before (h : WellFormed m) (hab : a < b)
    (hs : s ∈ m.takeWhile fun s => decide (b ≤ a ∨ s.upper ≤ a)) : s.upper ≤ a := by
  rw [Lib.ChangePoints.takeWhile_eq_filter (pairwise_before h a b), List.mem_filter,
    decide_eq_true_eq] at hs
  omega

theorem lowerBound_eq (h : WellFormed m) (hab : a < b) :
    lowerBound a b m = m.filter fun s => decide (a < s.upper) := by
  rw [lowerBound, Lib.ChangePoints.dropWhile_eq_filter (pairwise_before h a b)]
  refine List.filter_congr fun s _ => ?_
  rw [← decide_not, decide_eq_decide]
  omega

theorem removeOne_eq_none (h : WellFormed m) (hab : a < b) (hnone : removeOne a b m = none) :
    ∀ s ∈ m, ¬ Removable a b s := by
  intro s hs hrem
  have hmem : s ∈ lowerBound a b m := by
    rw [lowerBound_eq h hab, List.mem_filter]; exact ⟨hs, decide_eq_true hrem.1.1⟩
  have hwf : WellFormed (lowerBound a b m) := h.sublist (List.dropWhile_sublist _)
  exact eraseFirst_eq_none hwf (Option.map_eq_none_iff.1 hnone) s hmem hrem

theorem removeOne_eq_some (h : WellFormed m) (hab : a < b) (hsome : removeOne a b m = some (s, m')) :
    ∃ l₁ l₂, m = l₁ ++ s :: l₂ ∧ m' = l₁ ++ l₂ ∧ Removable a b s ∧ ∀ t ∈ l₁, ¬ Removable a b t := by
  obtain ⟨⟨u, m''⟩, hr, heq⟩ := Option.map_eq_some_iff.1 hsome
  obtain ⟨rfl, rfl⟩ := Prod.mk.inj heq
  obtain ⟨l₁, l₂, hlower, hrest, hlt, hle, hall⟩ := eraseFirst_eq_some hr
  have hupper : a < u.upper := by
    have hmem : u ∈ lowerBound a b m := by
      rw [hlower]; exact List.mem_append_right _ List.mem_cons_self
    rw [lowerBound_eq h hab, List.mem_filter] at hmem; exact of_decide_eq_true hmem.2
  refine ⟨m.takeWhile (fun s => decide (b ≤ a ∨ s.upper ≤ a)) ++ l₁, l₂, ?_, ?_, ⟨⟨hupper, hlt⟩, hle⟩, ?_⟩
  · rw [List.append_assoc, ← hlower, lowerBound, List.takeWhile_append_dropWhile]
  · rw [List.append_assoc]
    exact congrArg _ hrest
  · intro t ht hrem
    rcases List.mem_append.1 ht with ht | ht
    · exact absurd (mem_takeWhile_before h hab ht) (not_le.2 hrem.1.1)
    · exact hall t ht hrem.2

/-- The interval of a segment. -/
def interval (s : Segment Nat Int) : Nat × Nat := (s.lower, s.upper)

theorem filter_zero_eq_nil (h : ∀ s ∈ m, ¬ Removable a b s) :
    (m.filter fun s => decide (Meets a b s ∧ s.value = 0)) = [] := by
  refine List.filter_eq_nil_iff.2 fun s hs hzero => ?_
  have hzero' := of_decide_eq_true hzero
  exact h s hs ⟨hzero'.1, le_of_eq hzero'.2⟩

/-- THE LOOP erases what is not positive in the interval, and `on_delete` is called where the count is
    0. -/
theorem removeLoop_eq (h : WellFormed m) (hab : a < b) (deleted : List (Nat × Nat)) :
    removeLoop a b deleted m =
      (deleted ++ (m.filter fun s => decide (Meets a b s ∧ s.value = 0)).map interval,
        m.filter fun s => decide ¬ Removable a b s) := by
  induction hn : m.length using Nat.strong_induction_on generalizing m deleted with
  | _ n ih =>
    rw [removeLoop]
    split
    · rename_i hnone
      have hall := removeOne_eq_none h hab hnone
      rw [filter_zero_eq_nil hall, List.map_nil, List.append_nil,
        List.filter_eq_self.2 fun s hs => decide_eq_true (hall s hs)]
    · rename_i s m' hsome
      obtain ⟨l₁, l₂, rfl, rfl, hrem, hall⟩ := removeOne_eq_some h hab hsome
      have hsub : (l₁ ++ l₂).Sublist (l₁ ++ s :: l₂) :=
        (List.Sublist.refl l₁).append (List.sublist_cons_self s l₂)
      have hlt : (l₁ ++ l₂).length < n := by
        rw [← hn, List.length_append, List.length_append, List.length_cons]; omega
      rw [ih _ hlt (h.sublist hsub) _ rfl]
      -- in front of the segment there is nothing to remove
      have hkept : ((l₁ ++ s :: l₂).filter fun t => decide ¬ Removable a b t) =
          (l₁ ++ l₂).filter fun t => decide ¬ Removable a b t := by
        rw [List.filter_append, List.filter_append, List.filter_cons_of_neg (by simpa using hrem)]
      have hzeros : ∀ l : IntervalMap, ((l₁ ++ l).filter fun t => decide (Meets a b t ∧ t.value = 0)) =
          l.filter fun t => decide (Meets a b t ∧ t.value = 0) := by
        intro l
        rw [List.filter_append, filter_zero_eq_nil hall, List.nil_append]
      rw [hkept, hzeros, hzeros]
      by_cases hzero : s.value = 0
      · rw [if_pos hzero, List.filter_cons_of_pos (by simpa using ⟨hrem.1, hzero⟩), List.map_cons,
          List.append_assoc]
        rfl
      · rw [if_neg hzero, List.filter_cons_of_neg (by simpa using fun _ => hzero)]

end Loop

/-! ## The calls -/

section Calls

variable {addInterval : Nat → Nat → Int → IntervalMap → IntervalMap} {w : Nat} {m : IntervalMap}
  {mult : Nat → Nat} {base size x : Nat} {amount : Int} {s : Segment Nat Int}

theorem endAddress_of_fits (h : Fits w base size) : endAddress w base size = base + size :=
  Nat.mod_eq_of_lt h.2

theorem s32Add_eq {u v : Int} (hlow : -s32Max ≤ u + v) (hhigh : u + v ≤ s32Max) : s32Add u v = u + v := by
  rw [s32Max] at *
  rw [s32Add, Int.bmod_def]
  simp only [Nat.cast_ofNat]
  omega

theorem valueAt_filter (h : WellFormed m) (p : Segment Nat Int → Bool) (hs : s ∈ m) (hx : s.Contains x) :
    valueAt (m.filter p) x = if p s then some s.value else none := by
  split
  · rename_i hp
    exact (h.sublist List.filter_sublist).valueAt_eq_some_iff.2 ⟨s, List.mem_filter.2 ⟨hs, hp⟩, hx, rfl⟩
  · rename_i hp
    refine valueAt_eq_none_iff.2 fun t ht htx => hp ?_
    rw [← h.eq_of_contains (List.mem_filter.1 ht).1 hs htx hx]
    exact (List.mem_filter.1 ht).2

theorem Counts.value_of_contains (h : Counts m mult) (hs : s ∈ m) (hx : s.Contains x) :
    mult x ≠ 0 ∧ s.value = mult x := by
  have hvalue : valueAt m x = some s.value := h.wellFormed.valueAt_eq_some_iff.2 ⟨s, hs, hx, rfl⟩
  rw [h.valueAt_eq] at hvalue
  split at hvalue
  · exact nomatch hvalue
  · rename_i hne; exact ⟨hne, (Option.some.inj hvalue).symm⟩

theorem Counts.inside (h : Counts m mult) {v : Int} {m' : IntervalMap}
    (hadds : Adds s32Add base (base + size) v m m') (hx : InRange base size x)
    (hlow : -s32Max ≤ mult x + v) (hhigh : mult x + v ≤ s32Max) : valueAt m' x = some (mult x + v) := by
  rw [hadds.inside x hx.1 hx.2, h.valueAt_eq]
  split
  · rename_i hzero
    simp [hzero]
  · rw [Option.map_some, Option.getD_some, s32Add_eq hlow hhigh]

theorem Counts.add (hdoc : Documented addInterval) (h : Counts m mult) (hfits : Fits w base size)
    (hmax : ∀ x, InRange base size x → (mult x : Int) < s32Max) :
    Counts (add addInterval w m base size) fun x =>
        if InRange base size x then mult x + 1 else mult x := by
  have hadds := hdoc.adds m base (base + size) 1 h.wellFormed (by have := hfits.1; omega)
  rw [OverlapRangeSet.add, endAddress_of_fits hfits]
  refine ⟨hadds.wellFormed, fun x => ?_, fun x => ?_⟩
  · by_cases hx : InRange base size x
    · have hlt := hmax x hx
      rw [h.inside hadds hx (by rw [s32Max] at *; omega)
          (by omega), if_pos hx, if_neg (Nat.succ_ne_zero _)]
      rfl
    · rw [hadds.outside x hx, h.valueAt_eq, if_neg hx]
  · by_cases hx : InRange base size x
    · have hlt := hmax x hx
      rw [if_pos hx]
      push_cast
      omega
    · rw [if_neg hx]; exact h.le_max x

theorem meets_of_contains (hx : InRange base size x) (hsx : s.Contains x) : Meets base (base + size) s :=
  ⟨lt_of_le_of_lt hx.1 hsx.2, lt_of_le_of_lt hsx.1 hx.2⟩

theorem inRange_of_meets {v : Int} {m' : IntervalMap} (hadds : Adds s32Add base (base + size) v m m')
    (hs : s ∈ m') (hmeets : Meets base (base + size) s) (hsx : s.Contains x) : InRange base size x := by
  obtain ⟨hlower, hupper⟩ := hmeets
  obtain ⟨hsx₁, hsx₂⟩ := hsx
  rcases hadds.cut s hs with hcut | hcut | hcut
  · omega
  · omega
  · exact ⟨le_trans hcut.1 hsx₁, lt_of_lt_of_le hsx₂ hcut.2⟩

theorem Counts.value_subtracted (h : Counts m mult) {m' : IntervalMap} (hpos : 0 < amount)
    (hmax : amount ≤ s32Max) (hadds : Adds s32Add base (base + size) (-amount) m m') (hs : s ∈ m')
    (hx : InRange base size x) (hsx : s.Contains x) : s.value = mult x - amount := by
  have hle := h.le_max x
  have hvalue := h.inside hadds hx (by omega) (by omega)
  rw [hadds.wellFormed.valueAt_eq_some_iff] at hvalue
  obtain ⟨t, ht, htx, hval⟩ := hvalue
  rw [hadds.wellFormed.eq_of_contains hs ht hsx htx, hval]
  rfl

theorem Counts.subtracted (h : Counts m mult) {m' : IntervalMap} (hpos : 0 < amount)
    (hmax : amount ≤ s32Max) (hadds : Adds s32Add base (base + size) (-amount) m m') :
    Counts (m'.filter fun s => decide ¬ Removable base (base + size) s)
      fun x => if InRange base size x then mult x - amount.toNat else mult x := by
  refine ⟨hadds.wellFormed.sublist List.filter_sublist, fun x => ?_, fun x => ?_⟩
  · by_cases hx : InRange base size x
    · have hle := h.le_max x
      obtain ⟨s, hs, hsx, hval⟩ := hadds.wellFormed.valueAt_eq_some_iff.1
        (h.inside hadds hx (by omega) (by omega))
      have hrem : Removable base (base + size) s ↔ mult x - amount.toNat = 0 := by
        rw [Removable, hval]
        have := meets_of_contains hx hsx
        constructor
        · intro hr
          omega
        · intro hr; exact ⟨this, by omega⟩
      rw [valueAt_filter hadds.wellFormed _ hs hsx, if_pos hx, hval]
      by_cases hzero : mult x - amount.toNat = 0
      · rw [if_pos hzero, if_neg (by simpa using hrem.2 hzero)]
      · have hkept : ¬ Removable base (base + size) s := fun hr => hzero (hrem.1 hr)
        rw [if_neg hzero, if_pos (decide_eq_true hkept)]
        congr 1; omega
    · rw [if_neg hx, ← h.valueAt_eq, ← hadds.outside x hx]
      cases hvalue : valueAt m' x with
      | none =>
        refine valueAt_eq_none_iff.2 fun s hs => ?_
        exact valueAt_eq_none_iff.1 hvalue s (List.mem_filter.1 hs).1
      | some v =>
        obtain ⟨s, hs, hsx, rfl⟩ := hadds.wellFormed.valueAt_eq_some_iff.1 hvalue
        have hkept : ¬ Removable base (base + size) s := fun hr => hx (inRange_of_meets hadds hs hr.1 hsx)
        rw [valueAt_filter hadds.wellFormed _ hs hsx, if_pos (decide_eq_true hkept)]
  · have hle := h.le_max x
    split
    · omega
    · exact hle

theorem Counts.of_nil (h : Counts [] mult) (x : Nat) : mult x = 0 := by
  have hvalue := h.valueAt_eq x
  by_contra hne
  rw [if_neg hne] at hvalue
  exact nomatch hvalue

theorem Counts.subtractAmount (hdoc : Documented addInterval) (h : Counts m mult)
    (hfits : Fits w base size) (hpos : 0 < amount) (hmax : amount ≤ s32Max) :
    Counts (subtractAmount addInterval w m base size amount).2
      fun x => if InRange base size x then mult x - amount.toNat else mult x := by
  rw [OverlapRangeSet.subtractAmount]
  by_cases hnil : m = []
  · subst hnil
    rw [if_pos rfl]
    have hsame : (fun x => if InRange base size x then mult x - amount.toNat else mult x) = mult := by
      funext x
      rw [h.of_nil x, Nat.zero_sub, ite_self]
    rwa [hsame]
  · have hlt : base < base + size := by have := hfits.1; omega
    have hadds := hdoc.adds m base (base + size) (-amount) h.wellFormed hlt
    rw [if_neg hnil, endAddress_of_fits hfits, removeLoop_eq hadds.wellFormed hlt]
    exact h.subtracted hpos hmax hadds

theorem Counts.deletes (hdoc : Documented addInterval) (h : Counts m mult) (hfits : Fits w base size) :
    DeletesRight mult base size (subtract addInterval w m base size).1 := by
  rw [subtract, OverlapRangeSet.subtractAmount]
  by_cases hnil : m = []
  · subst hnil
    rw [if_pos rfl]
    refine ⟨List.Pairwise.nil, fun x => ?_⟩
    rw [h.of_nil x]
    simp
  · have hlt : base < base + size := by have := hfits.1; omega
    have hone : (1 : Int) ≤ s32Max := by decide
    have hadds := hdoc.adds m base (base + size) (-1) h.wellFormed hlt
    rw [if_neg hnil, endAddress_of_fits hfits, removeLoop_eq hadds.wellFormed hlt, List.nil_append]
    constructor
    · rw [List.pairwise_map]
      refine (hadds.wellFormed.ordered.filter _).imp fun {s t} hle x hx => ?_
      have h₁ : x < s.upper := hx.2.1
      have h₂ : t.lower ≤ x := hx.2.2.1
      omega
    · intro x
      constructor
      · rintro ⟨p, hp, hlower, hupper⟩
        obtain ⟨s, hs, rfl⟩ := List.mem_map.1 hp
        rw [List.mem_filter, decide_eq_true_eq] at hs
        have hx : InRange base size x := inRange_of_meets hadds hs.1 hs.2.1 ⟨hlower, hupper⟩
        have hvalue := h.value_subtracted Int.one_pos hone hadds hs.1 hx ⟨hlower, hupper⟩
        exact ⟨hx, by omega⟩
      · rintro ⟨hx, hmult⟩
        have hle := h.le_max x
        obtain ⟨s, hs, hsx, hval⟩ := hadds.wellFormed.valueAt_eq_some_iff.1
          (h.inside hadds hx (by rw [s32Max] at *; omega) (by omega))
        refine ⟨interval s, List.mem_map.2 ⟨s, List.mem_filter.2 ⟨hs, decide_eq_true ?_⟩, rfl⟩,
            hsx.1, hsx.2⟩
        exact ⟨meets_of_contains hx hsx, by omega⟩

theorem forEachInRange_eq (h : WellFormed m) (hfits : Fits w base size) :
    forEachInRange w m base size =
      (m.filter fun s => decide (Meets base (base + size) s)).map (clip base (base + size)) := by
  rw [forEachInRange]
  by_cases hnil : m = []
  · subst hnil
    rfl
  · have hlt : base < base + size := by have := hfits.1; omega
    have hwf : WellFormed (m.filter fun s => decide (base < s.upper)) := h.sublist List.filter_sublist
    have hpairwise : (m.filter fun s => decide (base < s.upper)).Pairwise fun s t =>
        (!decide (base + size ≤ t.lower)) = true → (!decide (base + size ≤ s.lower)) = true := by
      refine hwf.ordered.imp_of_mem fun {s t} hs _ hle hbefore => ?_
      have hslt := hwf.lower_lt s hs
      rw [Bool.not_eq_true', decide_eq_false_iff_not] at hbefore ⊢; omega
    rw [if_neg hnil, endAddress_of_fits hfits, lowerBound_eq h hlt,
      Lib.ChangePoints.takeWhile_eq_filter hpairwise, List.filter_filter]
    congr 1
    refine List.filter_congr fun s _ => ?_
    rw [← decide_not, ← Bool.decide_and, decide_eq_decide, Meets]; omega

theorem contains_clip : (clip base (base + size) s).Contains x ↔ s.Contains x ∧ InRange base size x := by
  unfold clip Segment.Contains InRange
  dsimp only
  split
  · split <;> omega
  · split <;> omega

theorem Counts.reports (h : Counts m mult) (hfits : Fits w base size) :
    ReportsRight mult base size (forEachInRange w m base size) := by
  have hlt : base < base + size := by have := hfits.1; omega
  rw [forEachInRange_eq h.wellFormed hfits]
  refine ⟨⟨?_, ?_⟩, ?_, ?_⟩
  · intro r hr
    obtain ⟨s, hs, rfl⟩ := List.mem_map.1 hr
    rw [List.mem_filter, decide_eq_true_eq, Meets] at hs
    have hslt := h.wellFormed.lower_lt s hs.1
    unfold clip
    dsimp only
    split
    · split <;> omega
    · split <;> omega
  · rw [List.pairwise_map]
    refine ((h.wellFormed.ordered.filter _).imp_of_mem fun {s t} hs ht hle => ?_)
    rw [List.mem_filter, decide_eq_true_eq, Meets] at hs ht
    unfold clip
    dsimp only
    split
    · split <;> omega
    · split <;> omega
  · intro r hr
    obtain ⟨s, hs, rfl⟩ := List.mem_map.1 hr
    unfold clip
    dsimp only
    constructor
    · split <;> omega
    · split <;> omega
  · intro x n
    constructor
    · rintro ⟨r, hr, hrx, hval⟩
      obtain ⟨s, hs, rfl⟩ := List.mem_map.1 hr
      obtain ⟨hsx, hx⟩ := contains_clip.1 hrx
      obtain ⟨hne, hvalue⟩ := h.value_of_contains (List.mem_filter.1 hs).1 hsx
      exact ⟨hx, hne, hval.symm.trans hvalue⟩
    · rintro ⟨hx, hne, rfl⟩
      have hvalue := h.valueAt_eq x
      rw [if_neg hne] at hvalue
      obtain ⟨s, hs, hsx, hval⟩ := h.wellFormed.valueAt_eq_some_iff.1 hvalue
      refine ⟨clip base (base + size) s, List.mem_map.2 ⟨s, List.mem_filter.2 ⟨hs, ?_⟩, rfl⟩, ?_, hval⟩
      · exact decide_eq_true (meets_of_contains hx hsx)
      · exact contains_clip.2 ⟨hsx, hx⟩

theorem Run.counts (hdoc : Documented addInterval) (h : Run addInterval w m mult) : Counts m mult := by
  induction h with
  | create =>
    refine ⟨⟨nofun, List.Pairwise.nil⟩, fun _ => rfl, fun _ => ?_⟩
    show (0 : Int) ≤ s32Max
    decide
  | add base size _ hfits hmax ih => exact ih.add hdoc hfits hmax
  | subtract base size _ hfits ih => exact ih.subtractAmount hdoc hfits Int.one_pos (by decide)
  | @deleteAll m mult base size _ hfits ih =>
    have hcounts := ih.subtractAmount hdoc hfits (show 0 < s32Max by decide) (le_refl _)
    have hzero : (fun x => if InRange base size x then mult x - s32Max.toNat else mult x) =
        fun x => if InRange base size x then 0 else mult x := by
      funext x
      have hle := ih.le_max x
      split
      · omega
      · rfl
    rwa [hzero] at hcounts

end Calls

/-! ## Result -/

/-- IN EVERY RUN within the bounds the map holds the multiplicities; a further `Subtract` calls
`on_delete` with the addresses that it uncovers, and `ForEachInRange` reports the covered ones. -/
theorem overlapRangeSet_counts {addInterval : Nat → Nat → Int → IntervalMap → IntervalMap} {w : Nat}
    {m : IntervalMap} {mult : Nat → Nat} (hdoc : Documented addInterval) (h : Run addInterval w m mult) :
    Counts m mult ∧ ∀ base size, Fits w base size →
      DeletesRight mult base size (subtract addInterval w m base size).1 ∧
      ReportsRight mult base size (forEachInRange w m base size) := by
  have hcounts := h.counts hdoc
  exact ⟨hcounts, fun base size hfits => ⟨hcounts.deletes hdoc hfits, hcounts.reports hfits⟩⟩

theorem documented_splitAdd : Documented (splitAdd s32Add) where
  adds := fun _ _ _ v h hab => adds_splitAdd s32Add v h hab
  empty := fun _ _ _ _ h => splitAdd_of_le h

/-- The first five addresses are covered once, the next five twice. -/
theorem overlapRangeSet_counts_twice :
    ∃ m mult, Run (splitAdd s32Add) 64 m mult ∧ mult 2 = 1 ∧ mult 7 = 2 ∧
    Counts m mult ∧ DeletesRight mult 0 7 (subtract (splitAdd s32Add) 64 m 0 7).1 := by
  have hfits : ∀ base size, 0 < size → base + size < 100 → Fits 64 base size :=
    fun base size hpos hlt => ⟨hpos, lt_trans hlt (by decide)⟩
  have hcreate : Run (splitAdd s32Add) 64 [] fun _ => 0 := Run.create
  have hfirst := hcreate.add 0 10 (hfits 0 10 (by decide) (by decide)) fun _ _ => by decide
  have hsecond := hfirst.add 5 10 (hfits 5 10 (by decide) (by decide)) (fun x _ => by
    split
    · decide
    · decide)
  have hresult := overlapRangeSet_counts documented_splitAdd hsecond
  exact ⟨_, _, hsecond, rfl, rfl, hresult.1, (hresult.2 0 7 (hfits 0 7 (by decide) (by decide))).1⟩

theorem add_unit (v : Int) : add (splitAdd s32Add) 64 [⟨0, 1, v⟩] 0 1 = [⟨0, 1, s32Add v 1⟩] := by
  simp [add, endAddress, splitAdd, gap]

theorem iterate_add (n : Nat) : (fun m => add (splitAdd s32Add) 64 m 0 1)^[n + 1] [] =
    [⟨0, 1, Int.bmod (n + 1) 4294967296⟩] := by
  induction n with
  | zero => rfl
  | succ n ih =>
    rw [Function.iterate_succ_apply', ih, add_unit, s32Add, Int.bmod_add_bmod]
    push_cast; rfl

/-- The last address of all is not added, and a count of `2^31` is negative. -/
theorem overlapRangeSet_ends :
    forEachInRange 64 (add (splitAdd s32Add) 64 [] 18446744073709551615 1) 18446744073709551615 1 = [] ∧
    (fun m => add (splitAdd s32Add) 64 m 0 1)^[2147483648] [] = [⟨0, 1, -2147483648⟩] := by
  constructor
  · rfl
  · exact (iterate_add 2147483647).trans rfl

end Suyu.Common.OverlapRangeSet
