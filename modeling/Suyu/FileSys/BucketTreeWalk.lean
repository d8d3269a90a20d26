import Mathlib
import Suyu.FileSys.BucketTreeFind

/-
  The visitor of a `BucketTree` walks the entries of the table.

  1. **Program** - `MoveNext`, `MovePrevious`, `CanMoveNext`, `CanMovePrevious` of a visitor that
     `Find` gave, or that such a move gave.

  3. **The crux (`next_set`, `previous_set`)** - a place is the last of its entry set, or not; the last
     place of the last set is the last entry.  Every visitor is `visitorAt` some entry.
-/

namespace Suyu.FileSys

namespace Format

variable {α : Type} {f : Format α} {nodeStorage entryStorage : Storage α}

namespace WellFormed

/-! ## Places -/

theorem next_set (h : f.WellFormed nodeStorage entryStorage) {i : Nat} (hi : i < f.entries.length) :
    (i % f.perSet + 1 < f.setSize (i / f.perSet) ∧ i + 1 < f.entries.length ∧
      (i + 1) / f.perSet = i / f.perSet ∧ (i + 1) % f.perSet = i % f.perSet + 1) ∨
    (i % f.perSet + 1 = f.setSize (i / f.perSet) ∧ i / f.perSet + 1 < f.setCount ∧
      i + 1 < f.entries.length ∧ (i + 1) / f.perSet = i / f.perSet + 1 ∧ (i + 1) % f.perSet = 0) ∨
    (i % f.perSet + 1 = f.setSize (i / f.perSet) ∧ i / f.perSet + 1 = f.setCount ∧
      i + 1 = f.entries.length) := by
  have hpos := h.perSet_pos
  have hdiv := div_mod f i
  have hmod := Nat.mod_lt i hpos
  have hk := h.div_lt_setCount hi
  have hj := h.mod_lt_setSize hi
  obtain ⟨-, hcover, hlast⟩ := h.setCount_bounds
  have hsize : f.setSize (i / f.perSet) = min f.perSet (f.entries.length - i / f.perSet * f.perSet) :=
    rfl
  have hmul : (i / f.perSet + 1) * f.perSet = i / f.perSet * f.perSet + f.perSet := by ring
  rcases Nat.lt_or_ge (i % f.perSet + 1) (f.setSize (i / f.perSet)) with hlt | hge
  · left
    have hstep : i + 1 = i % f.perSet + 1 + f.perSet * (i / f.perSet) := by
      rw [Nat.mul_comm]; omega
    refine ⟨hlt, by omega, ?_, ?_⟩
    · rw [hstep, Nat.add_mul_div_left _ _ hpos, Nat.div_eq_of_lt (by omega), Nat.zero_add]
    · rw [hstep, Nat.add_mul_mod_self_left, Nat.mod_eq_of_lt (by omega)]
  · right
    rcases Nat.lt_or_ge (i / f.perSet + 1) f.setCount with hnext | hend
    · left
      have hle : (i / f.perSet + 2) * f.perSet ≤ f.setCount * f.perSet :=
        Nat.mul_le_mul_right _ (by omega)
      have hmul2 : (i / f.perSet + 2) * f.perSet = i / f.perSet * f.perSet + f.perSet + f.perSet := by
        ring
      have hstep : i + 1 = f.perSet * (i / f.perSet + 1) := by
        rw [Nat.mul_comm]; omega
      refine ⟨by omega, hnext, by omega, ?_, ?_⟩
      · rw [hstep, Nat.mul_div_cancel_left _ hpos]
      · rw [hstep, Nat.mul_mod_right]
    · right
      have heq : i / f.perSet + 1 = f.setCount := by omega
      rw [← heq] at hcover; exact ⟨by omega, heq, by omega⟩

theorem previous_set (h : f.WellFormed nodeStorage entryStorage) {i : Nat}
    (hi : i < f.entries.length) :
    (0 < i % f.perSet ∧ 0 < i ∧ (i - 1) / f.perSet = i / f.perSet ∧
      (i - 1) % f.perSet = i % f.perSet - 1) ∨
    (i % f.perSet = 0 ∧ 0 < i ∧ 0 < i / f.perSet ∧ f.setSize (i / f.perSet - 1) = f.perSet ∧
      (i - 1) / f.perSet = i / f.perSet - 1 ∧ (i - 1) % f.perSet = f.perSet - 1) ∨
    (i % f.perSet = 0 ∧ i / f.perSet = 0 ∧ i = 0) := by
  have hpos := h.perSet_pos
  have hdiv := div_mod f i
  have hmod := Nat.mod_lt i hpos
  rcases Nat.eq_zero_or_pos (i % f.perSet) with hzero | hmid
  · right
    rcases Nat.eq_zero_or_pos (i / f.perSet) with hfirst | hback
    · right
      rw [hfirst] at hdiv
      exact ⟨hzero, hfirst, by omega⟩
    · left
      have hpred : (i / f.perSet - 1) * f.perSet + f.perSet = i := by
        rw [← Nat.succ_mul, Nat.succ_eq_add_one, Nat.sub_add_cancel hback]; omega
      have hstep : i - 1 = f.perSet - 1 + f.perSet * (i / f.perSet - 1) := by
        rw [Nat.mul_comm]; omega
      refine ⟨hzero, by omega, hback, ?_, ?_, ?_⟩
      · unfold setSize
        omega
      · rw [hstep, Nat.add_mul_div_left _ _ hpos, Nat.div_eq_of_lt (by omega), Nat.zero_add]
      · rw [hstep, Nat.add_mul_mod_self_left, Nat.mod_eq_of_lt (by omega)]
  · left
    have hstep : i - 1 = i % f.perSet - 1 + f.perSet * (i / f.perSet) := by
      rw [Nat.mul_comm]; omega
    refine ⟨hmid, by omega, ?_, ?_⟩
    · rw [hstep, Nat.add_mul_div_left _ _ hpos, Nat.div_eq_of_lt (by omega), Nat.zero_add]
    · rw [hstep, Nat.add_mul_mod_self_left, Nat.mod_eq_of_lt (by omega)]

end WellFormed

end Format

/-! ## Moves -/

namespace Visitor

variable {α : Type} {t : BucketTree α} {v : Visitor α} {entrySet : EntrySet}

theorem isValid_of_nonneg (h : 0 ≤ v.entryIndex) : ¬ (!v.isValid) = true := by
  unfold isValid
  rw [decide_eq_true h]
  exact Bool.false_ne_true

theorem moveNext_inside (hvalid : 0 ≤ v.entryIndex) (hne : v.entryIndex + 1 ≠ v.entrySet.count) :
    moveNext t v = .ok (readEntry t v v.entrySet (v.entryIndex + 1)) := by
  unfold moveNext
  dsimp only
  rw [if_neg (isValid_of_nonneg hvalid), if_neg hne]
  rfl

theorem moveNext_across (hvalid : 0 ≤ v.entryIndex) (heq : v.entryIndex + 1 = v.entrySet.count)
    (hlt : v.entrySet.index + 1 < v.entrySetCount)
    (hread : t.entryStorage.entrySet ((v.entrySet.index + 1) * t.nodeSize) = entrySet)
    (hverify : entrySet.header.verify (v.entrySet.index + 1) t.nodeSize t.entrySize = .ok ())
    (hlink : entrySet.start = v.entrySet.stop) (hgrow : entrySet.start < entrySet.stop) :
    moveNext t v = .ok (readEntry t v entrySet 0) := by
  unfold moveNext
  dsimp only
  rw [if_neg (isValid_of_nonneg hvalid), if_pos heq, if_neg (not_not.mpr hlt), hread, hverify]
  dsimp only [bind, Except.bind]
  rw [if_neg (not_not.mpr ⟨hlink, hgrow⟩)]
  rfl

theorem moveNext_end (hvalid : 0 ≤ v.entryIndex) (heq : v.entryIndex + 1 = v.entrySet.count)
    (hge : ¬ v.entrySet.index + 1 < v.entrySetCount) : moveNext t v = .error .outOfRange := by
  unfold moveNext
  dsimp only
  rw [if_neg (isValid_of_nonneg hvalid), if_pos heq, if_pos hge]
  rfl

theorem movePrevious_inside (hvalid : 0 ≤ v.entryIndex) (hne : v.entryIndex ≠ 0) :
    movePrevious t v = .ok (readEntry t v v.entrySet (v.entryIndex - 1)) := by
  unfold movePrevious
  dsimp only
  rw [if_neg (isValid_of_nonneg hvalid), if_neg hne]
  rfl

theorem movePrevious_across (heq : v.entryIndex = 0) (hpos : 0 < v.entrySet.index)
    (hread : t.entryStorage.entrySet ((v.entrySet.index - 1) * t.nodeSize) = entrySet)
    (hverify : entrySet.header.verify (v.entrySet.index - 1) t.nodeSize t.entrySize = .ok ())
    (hlink : entrySet.stop = v.entrySet.start) (hgrow : entrySet.start < entrySet.stop) :
    movePrevious t v = .ok (readEntry t v entrySet (entrySet.count - 1)) := by
  unfold movePrevious
  dsimp only
  rw [if_neg (isValid_of_nonneg heq.ge), if_pos heq, if_neg (not_not.mpr hpos), hread, hverify]
  dsimp only [bind, Except.bind]
  rw [if_neg (not_not.mpr ⟨hlink, hgrow⟩)]
  rfl

theorem movePrevious_end (heq : v.entryIndex = 0) (hle : ¬ 0 < v.entrySet.index) :
    movePrevious t v = .error .outOfRange := by
  unfold movePrevious
  dsimp only
  rw [if_neg (isValid_of_nonneg heq.ge), if_pos heq, if_pos hle]
  rfl

end Visitor

namespace Format

variable {α : Type} {f : Format α} {nodeStorage entryStorage : Storage α}

namespace WellFormed

theorem readEntry_visitorAt (f : Format α) (nodeStorage entryStorage : Storage α) (i i' : Nat)
    {entrySet : EntrySet} {j : Int} (hset : entrySet = f.entrySetAt (i' / f.perSet))
    (hj : j = (i' % f.perSet : Nat)) :
    Visitor.readEntry (f.tree nodeStorage entryStorage) (f.visitorAt entryStorage i) entrySet j =
      f.visitorAt entryStorage i' := by
  rw [hj, hset]; rfl

section

variable (h : f.WellFormed nodeStorage entryStorage)
include h

theorem moveNext_eq {i : Nat} (hi : i < f.entries.length) :
    Visitor.moveNext (f.tree nodeStorage entryStorage) (f.visitorAt entryStorage i) =
      if i + 1 < f.entries.length then .ok (f.visitorAt entryStorage (i + 1))
      else .error .outOfRange := by
  have hvalid : 0 ≤ (f.visitorAt entryStorage i).entryIndex := Int.natCast_nonneg _
  have hindex : (f.visitorAt entryStorage i).entryIndex = (i % f.perSet : Nat) := rfl
  have hcount : (f.visitorAt entryStorage i).entrySet.count = f.setSize (i / f.perSet) := rfl
  have hself : (f.visitorAt entryStorage i).entrySet.index = (i / f.perSet : Nat) := rfl
  have hsets : (f.visitorAt entryStorage i).entrySetCount = f.setCount := rfl
  rcases h.next_set hi with ⟨hmid, hlt, hdiv, hmod⟩ | ⟨hlast, hnext, hlt, hdiv, hmod⟩ |
    ⟨hlast, hend, hlen⟩
  · rw [if_pos hlt, Visitor.moveNext_inside hvalid (by rw [hindex, hcount]; omega)]
    refine congrArg Except.ok (readEntry_visitorAt f _ _ i (i + 1) (by rw [hdiv]; rfl) ?_)
    rw [hmod, hindex, Nat.cast_add, Nat.cast_one]
  · have hread := h.entrySet_eq hnext
    have hverify := h.verify_entrySetAt hnext
    rw [Nat.cast_add, Nat.cast_one] at hread hverify
    rw [if_pos hlt, Visitor.moveNext_across hvalid (by rw [hindex, hcount]; omega)
      (by rw [hself, hsets]; omega) hread hverify rfl (h.setStart_lt (Nat.lt_succ_self _) hnext)]
    exact congrArg Except.ok (readEntry_visitorAt f _ _ i (i + 1) (by rw [hdiv])
      (by rw [hmod, Nat.cast_zero]))
  · rw [if_neg (by omega), Visitor.moveNext_end hvalid (by rw [hindex, hcount]; omega)
      (by rw [hself, hsets]; omega)]

theorem movePrevious_eq {i : Nat} (hi : i < f.entries.length) :
    Visitor.movePrevious (f.tree nodeStorage entryStorage) (f.visitorAt entryStorage i) =
      if 0 < i then .ok (f.visitorAt entryStorage (i - 1)) else .error .outOfRange := by
  have hvalid : 0 ≤ (f.visitorAt entryStorage i).entryIndex := Int.natCast_nonneg _
  have hindex : (f.visitorAt entryStorage i).entryIndex = (i % f.perSet : Nat) := rfl
  have hself : (f.visitorAt entryStorage i).entrySet.index = (i / f.perSet : Nat) := rfl
  have hk := h.div_lt_setCount hi
  rcases h.previous_set hi with ⟨hmid, hpos, hdiv, hmod⟩ | ⟨hfirst, hpos, hback, hsize, hdiv, hmod⟩ |
    ⟨hfirst, hzero, hnone⟩
  · rw [if_pos hpos, Visitor.movePrevious_inside hvalid (by rw [hindex]; omega)]
    refine congrArg Except.ok (readEntry_visitorAt f _ _ i (i - 1) (by rw [hdiv]; rfl) ?_)
    rw [hmod, hindex]
    omega
  · have hprev : i / f.perSet - 1 < f.setCount := by omega
    have hread := h.entrySet_eq hprev
    have hverify := h.verify_entrySetAt hprev
    rw [Nat.cast_sub hback, Nat.cast_one] at hread hverify
    have hlink : (f.entrySetAt (i / f.perSet - 1)).stop = f.setStart (i / f.perSet) := by
      show f.setStart (i / f.perSet - 1 + 1) = _
      rw [Nat.sub_add_cancel hback]
    rw [if_pos hpos, Visitor.movePrevious_across (by rw [hindex, hfirst]; rfl)
      (by rw [hself]; omega) hread hverify hlink (h.setStart_lt (Nat.lt_succ_self _) hprev)]
    refine congrArg Except.ok (readEntry_visitorAt f _ _ i (i - 1) (by rw [hdiv]) ?_)
    show (f.setSize (i / f.perSet - 1) : Int) - 1 = _
    rw [hmod, hsize]
    have := h.perSet_pos
    omega
  · rw [if_neg (by omega), Visitor.movePrevious_end (by rw [hindex, hfirst]; rfl)
      (by rw [hself, hzero]; simp)]

theorem canMoveNext_iff {i : Nat} (hi : i < f.entries.length) :
    (f.visitorAt entryStorage i).canMoveNext = true ↔ i + 1 < f.entries.length := by
  have hvalid : 0 ≤ (f.visitorAt entryStorage i).entryIndex := Int.natCast_nonneg _
  unfold Visitor.canMoveNext Visitor.isValid
  rw [decide_eq_true hvalid, Bool.true_and, Bool.or_eq_true, decide_eq_true_eq, decide_eq_true_eq]
  show ((i % f.perSet : Nat) : Int) + 1 < f.setSize (i / f.perSet) ∨
    ((i / f.perSet : Nat) : Int) + 1 < f.setCount ↔ _
  have hcases := h.next_set hi
  omega

theorem canMovePrevious_iff {i : Nat} (hi : i < f.entries.length) :
    (f.visitorAt entryStorage i).canMovePrevious = true ↔ 0 < i := by
  have hvalid : 0 ≤ (f.visitorAt entryStorage i).entryIndex := Int.natCast_nonneg _
  unfold Visitor.canMovePrevious Visitor.isValid
  rw [decide_eq_true hvalid, Bool.true_and, Bool.or_eq_true, decide_eq_true_eq, decide_eq_true_eq]
  show 0 < ((i % f.perSet : Nat) : Int) ∨ 0 < ((i / f.perSet : Nat) : Int) ↔ _
  have hcases := h.previous_set hi
  omega

end

end WellFormed

end Format

/-! ## Walks -/

/-- The entries a move goes through, up to `m` of them, until it fails. -/
def Visitor.walk {α : Type} (move : Visitor α → Except Error (Visitor α)) : Nat → Visitor α → List α
  | 0, _ => []
  | m + 1, v =>
    match move v with
    | .ok v' => v'.entry :: walk move m v'
    | .error _ => []

/-- What `Find` and the moves after it can give. -/
inductive BucketTree.Reached {α : Type} (t : BucketTree α) : Visitor α → Prop
  | found {b b' : Bool} {address : Int} {v : Visitor α} :
    t.find b b' address = .ok v → Reached t v
  | next {v v' : Visitor α} : Reached t v → Visitor.moveNext t v = .ok v' → Reached t v'
  | previous {v v' : Visitor α} : Reached t v → Visitor.movePrevious t v = .ok v' → Reached t v'

/-- The visitor stands at the entry `i`: it holds the entry, and its moves go through the ones behind
    and the ones before. -/
structure Format.Stands {α : Type} (f : Format α) (t : BucketTree α) (v : Visitor α) (i : Nat) :
    Prop where
  entry : f.entries[i]? = some v.entry
  following : ∀ m, Visitor.walk (Visitor.moveNext t) m v = (f.entries.drop (i + 1)).take m
  preceding : ∀ m, Visitor.walk (Visitor.movePrevious t) m v = (f.entries.take i).reverse.take m
  canMoveNext : v.canMoveNext = true ↔ ∃ v', Visitor.moveNext t v = .ok v'
  canMovePrevious : v.canMovePrevious = true ↔ ∃ v', Visitor.movePrevious t v = .ok v'

namespace Format

variable {α : Type} {f : Format α} {nodeStorage entryStorage : Storage α}

namespace WellFormed

section

variable (h : f.WellFormed nodeStorage entryStorage)
include h

theorem visitorAt_getElem {i : Nat} (hi : i < f.entries.length) :
    (f.visitorAt entryStorage i).entry = f.entries[i] := by
  have := h.visitorAt_entry hi
  rw [List.getElem?_eq_getElem hi] at this
  exact (Option.some.inj this).symm

theorem walk_next (m : Nat) : ∀ i < f.entries.length,
      Visitor.walk (Visitor.moveNext (f.tree nodeStorage entryStorage)) m
        (f.visitorAt entryStorage i) = (f.entries.drop (i + 1)).take m := by
  induction m with
  | zero => intro i _; rw [List.take_zero]; rfl
  | succ m ih =>
    intro i hi
    unfold Visitor.walk
    rw [h.moveNext_eq hi]
    rcases Nat.lt_or_ge (i + 1) f.entries.length with hlt | hge
    · rw [if_pos hlt, List.drop_eq_getElem_cons hlt, List.take_succ_cons, ← ih (i + 1) hlt,
        ← h.visitorAt_getElem hlt]
    · rw [if_neg (by omega), List.drop_eq_nil_of_le hge, List.take_nil]

theorem walk_previous (m : Nat) : ∀ i < f.entries.length,
      Visitor.walk (Visitor.movePrevious (f.tree nodeStorage entryStorage)) m
        (f.visitorAt entryStorage i) = (f.entries.take i).reverse.take m := by
  induction m with
  | zero => intro i _; rw [List.take_zero]; rfl
  | succ m ih =>
    intro i hi
    unfold Visitor.walk
    rw [h.movePrevious_eq hi]
    cases i with
    | zero => rw [if_neg (Nat.lt_irrefl 0), List.take_zero]; rfl
    | succ i =>
      have hlt : i < f.entries.length := by omega
      rw [if_pos (Nat.succ_pos i), Nat.add_sub_cancel, List.take_succ_eq_append_getElem hlt,
        List.reverse_append, List.reverse_singleton, List.singleton_append, List.take_succ_cons,
        ← ih i hlt, ← h.visitorAt_getElem hlt]

theorem stands {i : Nat} (hi : i < f.entries.length) :
    f.Stands (f.tree nodeStorage entryStorage) (f.visitorAt entryStorage i) i where
  entry := h.visitorAt_entry hi
  following := fun m => h.walk_next m i hi
  preceding := fun m => h.walk_previous m i hi
  canMoveNext := by
    rw [h.canMoveNext_iff hi, h.moveNext_eq hi]
    split <;> simp [*]
  canMovePrevious := by
    rw [h.canMovePrevious_iff hi, h.movePrevious_eq hi]
    split <;> simp [*]

theorem reached_at {v : Visitor α} (hv : (f.tree nodeStorage entryStorage).Reached v) :
    ∃ i < f.entries.length, v = f.visitorAt entryStorage i := by
  induction hv with
  | @found b b' address v hfind =>
    by_contra hnone
    have hin : f.offsetAt 0 ≤ address ∧ address < f.endOffset := by
      by_contra hout
      obtain ⟨e, he⟩ := h.find_outside b b' hout
      rw [hfind] at he; cases he
    obtain ⟨i, hi, hle, hlt⟩ := exists_entry hin.1 hin.2
    rw [h.find_eq hi b b' hle hlt] at hfind
    exact hnone ⟨i, hi, (Except.ok.inj hfind).symm⟩
  | @next v v' _ hmove ih =>
    obtain ⟨i, hi, rfl⟩ := ih
    rw [h.moveNext_eq hi] at hmove
    split at hmove
    · rename_i hlt
      exact ⟨i + 1, hlt, (Except.ok.inj hmove).symm⟩
    · cases hmove
  | @previous v v' _ hmove ih =>
    obtain ⟨i, hi, rfl⟩ := ih
    rw [h.movePrevious_eq hi] at hmove
    split at hmove
    · exact ⟨i - 1, by omega, (Except.ok.inj hmove).symm⟩
    · cases hmove

theorem greatest {i : Nat} {address : Int} (hi : i < f.entries.length) (hle : f.offsetAt i ≤ address)
    (hlt : address < f.offsetAt (i + 1)) :
    f.virtualOffset (f.visitorAt entryStorage i).entry ≤ address ∧
    ∀ e ∈ f.entries, f.virtualOffset e ≤ address →
      f.virtualOffset e ≤ f.virtualOffset (f.visitorAt entryStorage i).entry := by
  rw [h.visitorAt_getElem hi, ← offsetAt_of_lt hi]
  refine ⟨hle, fun e he hbelow => ?_⟩
  obtain ⟨j, hj, rfl⟩ := List.mem_iff_getElem.mp he
  rw [← offsetAt_of_lt hj] at hbelow ⊢
  rcases Nat.lt_or_ge i j with hij | hji
  · have := h.offsetAt_le (show i + 1 ≤ j from hij)
    omega
  · exact h.offsetAt_le hji

end

end WellFormed

end Format

/-! ## Exact trees -/

/-- `BucketTree` is exact on every well-formed table: it is initialized; inside the table `Find` gives
    the entry with the greatest offset up to the address, the same with buffers and without; outside it
    fails; and every visitor that comes from there walks the rest of the table. -/
theorem bucketTree_exact {α : Type} (f : Format α) (nodeStorage entryStorage : Storage α)
    (h : f.WellFormed nodeStorage entryStorage) :
    ∃ t, BucketTree.initializeTree nodeStorage entryStorage f.nodeSize f.entrySize
        f.entries.length = .ok t ∧
      (∀ address, f.offsetAt 0 ≤ address → address < f.endOffset →
        ∃ v, (∀ b b', t.find b b' address = .ok v) ∧ v.entry ∈ f.entries ∧
          f.virtualOffset v.entry ≤ address ∧
          ∀ e ∈ f.entries, f.virtualOffset e ≤ address →
            f.virtualOffset e ≤ f.virtualOffset v.entry) ∧
      (∀ address b b', ¬ (f.offsetAt 0 ≤ address ∧ address < f.endOffset) →
        ∃ e, t.find b b' address = .error e) ∧
      (∀ v, t.Reached v → ∃ i, f.Stands t v i) := by
  refine ⟨f.tree nodeStorage entryStorage, h.initializeTree_eq, ?_, ?_, ?_⟩
  · intro address hstart hend
    obtain ⟨i, hi, hle, hlt⟩ := Format.WellFormed.exists_entry hstart hend
    obtain ⟨hbelow, hgreatest⟩ := h.greatest hi hle hlt
    exact ⟨f.visitorAt entryStorage i, fun b b' => h.find_eq hi b b' hle hlt,
      List.mem_of_getElem? (h.visitorAt_entry hi), hbelow, hgreatest⟩
  · intro address b b' hout
    exact h.find_outside b b' hout
  · intro v hv
    obtain ⟨i, hi, rfl⟩ := h.reached_at hv; exact ⟨i, h.stands hi⟩

/-! ## A table with L2 nodes and a tail of L1 -/

/-- 127 entries, each in a set of its own: two sets in the one L2 node, 125 in the tail of L1. -/
def exampleFormat : Format Int where
  nodeSize := 1024
  entrySize := 1008
  entries := (List.range 127).map Int.ofNat
  virtualOffset := id
  endOffset := 127

def exampleEntryStorage : Storage Int where
  size := 127 * 1024
  int32 := fun p => if p % 1024 = 0 then p / 1024 else 1
  int64 := fun p => if p % 1024 = 8 then p / 1024 + 1 else p / 1024
  entry := fun p => p / 1024

def exampleNodeStorage : Storage Int where
  size := 2 * 1024
  int32 := fun p => if p = 4 then 1 else if p = 1028 then 2 else 0
  int64 := fun p =>
    if p = 8 then 127 else if p = 16 then 125 else if p < 1024 then (p - 24) / 8
    else if p = 1032 then 127 else 125 + (p - 1040) / 8
  entry := fun _ => 0

theorem example_wellFormed : exampleFormat.WellFormed exampleNodeStorage exampleEntryStorage where
  entrySize_ge := by decide
  nodeSize_ge := by decide
  nodeSize_min := by decide
  nodeSize_max := by decide
  nodeSize_power := ⟨10, rfl⟩
  nonempty := by decide +kernel
  length_lt := by decide +kernel
  increasing := by decide +kernel
  start_ge := by decide +kernel
  below_end := by decide +kernel
  capacity := by decide +kernel
  nodeStorage_size := by decide +kernel
  entryStorage_size := by decide +kernel
  entrySets_size := by decide +kernel
  set_header := by decide +kernel
  set_offset := by decide +kernel
  set_entry := by decide +kernel
  l1_header := by decide +kernel
  l1_offset := by decide +kernel
  l2_header := by decide +kernel
  l2_offset := by decide +kernel
  l2_tail := by decide +kernel
  node_header := by decide +kernel
  node_offset := by decide +kernel

/-- In the L2 node and in the tail of L1. -/
theorem bucketTree_exact_l2 :
    ∃ t, BucketTree.initializeTree exampleNodeStorage exampleEntryStorage 1024 1008 127 = .ok t ∧
      (∃ v, ∀ b b', t.find b b' 126 = .ok v) ∧ (∃ v, ∀ b b', t.find b b' 3 = .ok v) := by
  obtain ⟨t, ht, hfind, -, -⟩ :=
    bucketTree_exact exampleFormat exampleNodeStorage exampleEntryStorage example_wellFormed
  obtain ⟨v, hv, -⟩ := hfind 126 (by decide +kernel) (by decide)
  obtain ⟨w, hw, -⟩ := hfind 3 (by decide +kernel) (by decide)
  exact ⟨t, ht, ⟨v, hv⟩, ⟨w, hw⟩⟩

end Suyu.FileSys
