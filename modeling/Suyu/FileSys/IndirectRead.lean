import Mathlib
import Suyu.FileSys.IndirectScan

/-
  `IndirectStorage::Read` is exact on valid tables.

  1. **Program** - the loop of `OperatePerEntry`, with the scans and without, and the memory after the
     calls it makes.

  2. **Specification (`Format.byteOf`)** - the byte of a virtual offset is in the storage of the entry that
     covers it, as far behind the physical offset as the virtual one is behind the virtual offset.

  4. **The crux (`Ready`)** - a merged read runs AHEAD: while it counts, the base bytes of the entries
     that are still to be skipped are in memory already, and only the fragments are missing.
-/

namespace Suyu.FileSys

/-! ## Memory -/

namespace DataStorage

variable {d : DataStorage} {memory : Int → UInt8} {pointer length offset p : Int}

theorem read_inside (hle : pointer ≤ p) (hlt : p < pointer + length)
    (hsize : offset + length ≤ d.size) :
    d.read memory pointer length offset p = d.byte (offset + (p - pointer)) :=
  if_pos ⟨hle, hlt, by omega⟩

theorem read_outside (hout : ¬ (pointer ≤ p ∧ p < pointer + length)) :
    d.read memory pointer length offset p = memory p :=
  if_neg fun hin => hout ⟨hin.1, hin.2.1⟩

end DataStorage

/-- The memory after the calls of a list. -/
def IndirectStorage.afterCalls (st : IndirectStorage) (pointer offset : Int) (memory : Int → UInt8)
    (calls : List Call) : Int → UInt8 :=
  calls.foldl (st.readCall pointer offset) memory

/-- A place in memory belongs to the virtual offsets from `cur` to `endOffset`. -/
def InRange (pointer offset cur endOffset p : Int) : Prop :=
  pointer + (cur - offset) ≤ p ∧ p < pointer + (endOffset - offset)

/-! ## A round -/

/-- What holds between the two parts of a round at `cur` in the entry `i`: a merged read that still counts
    has brought the base bytes of the entries that it skips. -/
structure Ready (f : Format IndirectEntry) (data : Int → DataStorage) (pointer offset : Int) (i : Nat)
    (cur endOffset : Int) (info : ContinuousReadingInfo) (memory : Int → UInt8) : Prop where
  readSize : info.readSize = 0
  ahead : info.done = true → 0 < info.skipCount ∧
    ∀ m v, i ≤ m → (m : Int) < i + info.skipCount → f.Covers m v → cur ≤ v → v < endOffset →
      (f.entryAt m).storageIndex = 0 → memory (pointer + (v - offset)) = f.byteOf data m v

/-- What holds at the head of the loop at `cur` in the entry `i`. -/
structure AtHead (f : Format IndirectEntry) (data : Int → DataStorage)
    (entryStorage : Storage IndirectEntry) (continuous : Bool) (pointer offset : Int) (i : Nat)
    (endOffset : Int) (c : Cursor) (memory : Int → UInt8) : Prop where
  covers : f.Covers i c.curOffset
  visitor : c.visitor = f.visitorAt entryStorage i
  readSize : continuous = true → c.info.readSize = 0
  ahead : continuous = true → 1 < c.info.skipCount → c.info.done = true →
    ∀ m v, i ≤ m → (m : Int) < i + (c.info.skipCount - 1) → f.Covers m v → c.curOffset ≤ v →
      v < endOffset → (f.entryAt m).storageIndex = 0 →
      memory (pointer + (v - offset)) = f.byteOf data m v

namespace IndirectTable

variable {f : Format IndirectEntry} {nodeStorage entryStorage : Storage IndirectEntry}
  {data : Int → DataStorage} {i : Nat} {pointer offset endOffset : Int} {c : Cursor}
  {info : ContinuousReadingInfo} {memory : Int → UInt8}

/-- The storage of a table. -/
def storage (f : Format IndirectEntry) (nodeStorage entryStorage : Storage IndirectEntry)
    (data : Int → DataStorage) : IndirectStorage :=
  ⟨f.tree nodeStorage entryStorage, data⟩

theorem storage_table (f : Format IndirectEntry) (nodeStorage entryStorage : Storage IndirectEntry)
    (data : Int → DataStorage) :
    (storage f nodeStorage entryStorage data).table = f.tree nodeStorage entryStorage := rfl

theorem storage_dataStorage (f : Format IndirectEntry)
    (nodeStorage entryStorage : Storage IndirectEntry) (data : Int → DataStorage) :
    (storage f nodeStorage entryStorage data).dataStorage = data := rfl

section

variable (h : IndirectTable f nodeStorage entryStorage data)
include h

theorem continuousCheck_spec
    (head : AtHead f data entryStorage true pointer offset i endOffset c memory)
    (hlt : c.curOffset < endOffset) (scanBuffered : Int → Bool) : ∃ info merged,
      (storage f nodeStorage entryStorage data).continuousCheck scanBuffered endOffset c =
        .ok (info, merged) ∧
      Ready f data pointer offset i c.curOffset endOffset info
        ((storage f nodeStorage entryStorage data).afterCalls pointer offset memory merged.toList) ∧
      ∀ p, ¬ InRange pointer offset c.curOffset endOffset p →
        (storage f nodeStorage entryStorage data).afterCalls pointer offset memory merged.toList p =
          memory p := by
  have hentry : c.visitor.entry = f.entryAt i := by
    rw [head.visitor]; exact h.visitorAt_entryAt head.covers.1
  have hvirt := h.virtOffset_eq head.covers.1
  obtain ⟨hlen, hcur1, hcur2⟩ := head.covers
  have hmem := entryAt_mem hlen
  unfold IndirectStorage.continuousCheck
  dsimp only
  rcases le_or_gt c.info.countDown.skipCount 0 with hscan | hskip
  · -- a scan is due
    obtain ⟨info, k, hres, result⟩ :=
      h.scanContinuousReading_spec (scanBuffered c.curOffset) head.covers hlt
    have hscanned : (storage f nodeStorage entryStorage data).table.scanContinuousReading
        (scanBuffered c.curOffset) c.visitor c.curOffset (endOffset - c.curOffset) = .ok info := by
      rw [head.visitor]; exact hres
    rw [if_pos hscan, hscanned, hentry]
    dsimp only [bind, Except.bind]
    rcases le_or_gt info.readSize 0 with hnone | hpos
    · have hzero : ¬ 0 < info.readSize := by omega
      have hsize := result.readSize_nonneg
      rw [if_neg hzero]
      refine ⟨info, none, rfl, ⟨by omega, fun hdone => ?_⟩, fun p _ => rfl⟩
      rw [result.done] at hdone
      cases hdone
    · obtain ⟨hk, hbase, hend, hrange, hinside⟩ := result.merged hpos
      have hphys := h.phys_start _ hmem
      rw [if_pos hpos, if_neg (not_not.mpr hbase)]
      rw [if_neg (not_not.mpr ⟨hphys, by show _ ≤ (data 0).size; omega⟩)]
      rw [if_neg (not_not.mpr (by rw [hvirt]; exact hrange))]
      refine ⟨_, _, rfl, ⟨rfl, fun _ => ⟨?_, ?_⟩⟩, ?_⟩
      · show 0 < info.skipCount
        rw [result.skipCount]
        omega
      · intro m v him hmk hcov hv hv' hmbase
        have hmk' : m < i + k := by
          have : (m : Int) < i + info.skipCount := hmk
          rw [result.skipCount] at this; omega
        obtain ⟨hin, hbyte⟩ := hinside m v him hmk' hcov hv hv' hmbase
        show (data 0).read memory (pointer + (c.curOffset - offset)) info.readSize
          ((f.entryAt i).physOffset + (c.curOffset - (f.entryAt i).virtOffset))
          (pointer + (v - offset)) = _
        rw [hvirt, DataStorage.read_inside (by omega) (by omega) hrange, hbyte]
        congr 1
        ring
      · intro p hout
        show (data 0).read memory (pointer + (c.curOffset - offset)) info.readSize _ p = _
        refine DataStorage.read_outside fun hin => hout ?_
        unfold InRange; omega
  · -- the entry belongs to the last scan
    rw [if_neg (by omega)]
    have hzero : ¬ 0 < c.info.countDown.readSize := by
      show ¬ 0 < c.info.readSize
      rw [head.readSize rfl]; exact lt_irrefl 0
    have hcount : c.info.countDown.skipCount = c.info.skipCount - 1 := rfl
    dsimp only [bind, Except.bind, pure, Except.pure]
    rw [if_neg hzero]
    refine ⟨_, none, rfl, ⟨head.readSize rfl, fun hdone => ⟨hskip, ?_⟩⟩, fun p _ => rfl⟩
    rw [hcount] at hskip ⊢; exact head.ahead rfl (by omega) hdone

theorem moveToNext_spec (hi : i < f.entries.length) :
    ∃ v, (storage f nodeStorage entryStorage data).moveToNext (f.visitorAt entryStorage i) =
        .ok (v, f.offsetAt (i + 1)) ∧
      (i + 1 < f.entries.length → v = f.visitorAt entryStorage (i + 1)) := by
  unfold IndirectStorage.moveToNext
  rcases Nat.lt_or_ge (i + 1) f.entries.length with hlt | hge
  · have hmove : Visitor.moveNext (storage f nodeStorage entryStorage data).table
        (f.visitorAt entryStorage i) = .ok (f.visitorAt entryStorage (i + 1)) := by
      refine (h.wellFormed.moveNext_eq hi).trans ?_
      rw [if_pos hlt]
    have hoffset : (f.visitorAt entryStorage (i + 1)).entry.virtOffset = f.offsetAt (i + 1) := by
      rw [h.visitorAt_entryAt hlt, h.virtOffset_eq hlt]
    rw [if_pos ((h.wellFormed.canMoveNext_iff hi).mpr hlt), hmove]
    dsimp only [bind, Except.bind]
    rw [hoffset, storage_table, if_neg (not_not.mpr (h.isInclude_offsetAt hlt))]
    exact ⟨_, rfl, fun _ => rfl⟩
  · have hno : ¬ (f.visitorAt entryStorage i).canMoveNext = true := by
      rw [h.wellFormed.canMoveNext_iff hi]; omega
    rw [if_neg hno, Format.offsetAt_of_le hge]
    exact ⟨_, rfl, fun hlt => absurd hlt (by omega)⟩

theorem operateEntry_spec (continuous : Bool) (hcover : f.Covers i c.curOffset)
    (hvisitor : c.visitor = f.visitorAt entryStorage i)
    (ready : continuous = true → Ready f data pointer offset i c.curOffset endOffset info memory)
    (hend : endOffset ≤ f.endOffset) : ∃ next own,
      (storage f nodeStorage entryStorage data).operateEntry continuous endOffset c info =
        .ok (next, own) ∧
      next.curOffset = min endOffset (f.offsetAt (i + 1)) ∧ next.info = info ∧
      (next.curOffset < endOffset →
        i + 1 < f.entries.length ∧ next.visitor = f.visitorAt entryStorage (i + 1)) ∧
      (∀ v, f.Covers i v → c.curOffset ≤ v → v < endOffset →
        (storage f nodeStorage entryStorage data).afterCalls pointer offset memory own.toList
          (pointer + (v - offset)) = f.byteOf data i v) ∧
      ∀ p, ¬ InRange pointer offset c.curOffset next.curOffset p →
        (storage f nodeStorage entryStorage data).afterCalls pointer offset memory own.toList p =
          memory p := by
  have hentry : c.visitor.entry = f.entryAt i := by
    rw [hvisitor]; exact h.visitorAt_entryAt hcover.1
  have hvirt := h.virtOffset_eq hcover.1
  obtain ⟨hlen, hcur1, hcur2⟩ := hcover
  obtain ⟨v, hmove, hv⟩ := h.moveToNext_spec hlen
  have hphys := h.phys_start _ (entryAt_mem hlen)
  have hrange := h.phys_end i hlen
  have hsize : min (endOffset - c.curOffset) (f.offsetAt (i + 1) - f.offsetAt i -
      (c.curOffset - f.offsetAt i)) = min endOffset (f.offsetAt (i + 1)) - c.curOffset := by omega
  have hnext : min endOffset (f.offsetAt (i + 1)) < endOffset →
      i + 1 < f.entries.length ∧ v = f.visitorAt entryStorage (i + 1) := by
    intro hbefore
    have hin : i + 1 < f.entries.length := by
      by_contra hout
      rw [Format.offsetAt_of_le (show f.entries.length ≤ i + 1 by omega)] at hbefore
      omega
    exact ⟨hin, hv hin⟩
  unfold IndirectStorage.operateEntry
  dsimp only
  rw [hentry, hvisitor, hmove]
  dsimp only [bind, Except.bind]
  rw [if_neg (by omega), hvirt, hsize]
  have hcur : c.curOffset + (min endOffset (f.offsetAt (i + 1)) - c.curOffset) =
      min endOffset (f.offsetAt (i + 1)) := by omega
  rw [hcur]
  split
  · -- the bytes of the entry are read
    have hin : 0 ≤ (f.entryAt i).physOffset ∧
        (f.entryAt i).physOffset ≤ (data (f.entryAt i).storageIndex).size := ⟨hphys, by omega⟩
    have hfit : (f.entryAt i).physOffset + (c.curOffset - f.offsetAt i) +
        (min endOffset (f.offsetAt (i + 1)) - c.curOffset) ≤
        (data (f.entryAt i).storageIndex).size := by omega
    rw [storage_dataStorage, if_neg (not_not.mpr hin), if_neg (not_not.mpr hfit)]
    refine ⟨_, _, rfl, rfl, rfl, hnext, ?_, ?_⟩
    · intro w hcov hw hw'
      show (data (f.entryAt i).storageIndex).read memory (pointer + (c.curOffset - offset))
        (min endOffset (f.offsetAt (i + 1)) - c.curOffset)
        ((f.entryAt i).physOffset + (c.curOffset - f.offsetAt i)) (pointer + (w - offset)) = _
      have hbound := hcov.2.2
      rw [DataStorage.read_inside (by omega) (by omega) hfit]
      unfold Format.byteOf
      rw [hvirt]
      congr 1
      ring
    · intro p hout
      refine DataStorage.read_outside fun hin' => hout ?_
      dsimp only at hin' ⊢
      unfold InRange; omega
  · -- a merged read brought them
    rename_i hskip
    rw [Bool.or_eq_true, Bool.or_eq_true, not_or, not_or] at hskip
    obtain ⟨hcont, hdone, hbase⟩ := hskip
    have hcont' : continuous = true := by simpa using hcont
    have hdone' : info.done = true := by simpa using hdone
    have hbase' : (f.entryAt i).storageIndex = 0 := by simpa using hbase
    obtain ⟨hcount, hahead⟩ := (ready hcont').ahead hdone'
    refine ⟨_, none, rfl, rfl, rfl, hnext, ?_, fun p _ => rfl⟩
    intro w hcov hw hw'; exact hahead i w (le_refl _) (by omega) hcov hw hw' hbase'

end

/-! ## The loop -/

theorem checkEntry_ok (h : IndirectTable f nodeStorage entryStorage data)
    (hcover : f.Covers i c.curOffset) (hvisitor : c.visitor = f.visitorAt entryStorage i) :
    IndirectStorage.checkEntry c = .ok () := by
  have hentry : c.visitor.entry = f.entryAt i := by
    rw [hvisitor]; exact h.visitorAt_entryAt hcover.1
  have hvirt := h.virtOffset_eq hcover.1
  have hindex := h.storageIndex _ (entryAt_mem hcover.1)
  unfold IndirectStorage.checkEntry
  dsimp only
  rw [hentry, hvirt, if_neg (not_not.mpr hcover.2.1), if_neg (not_not.mpr hindex)]
  rfl

theorem afterCalls_append (st : IndirectStorage) (pointer offset : Int) (memory : Int → UInt8)
    (calls calls' : List Call) :
    st.afterCalls pointer offset memory (calls ++ calls') =
      st.afterCalls pointer offset (st.afterCalls pointer offset memory calls) calls' :=
  List.foldl_append

theorem operateLoop_spec (h : IndirectTable f nodeStorage entryStorage data) (continuous : Bool)
    (scanBuffered : Int → Bool) (hend : endOffset ≤ f.endOffset) (n : Nat) :
    ∀ (i : Nat) (c : Cursor) (memory : Int → UInt8), (endOffset - c.curOffset).toNat ≤ n →
      (c.curOffset < endOffset →
        AtHead f data entryStorage continuous pointer offset i endOffset c memory) →
      ((storage f nodeStorage entryStorage data).operateLoop continuous scanBuffered endOffset n
        c).2 = .ok () ∧
      (∀ m v, f.Covers m v → c.curOffset ≤ v → v < endOffset →
        (storage f nodeStorage entryStorage data).afterCalls pointer offset memory
          ((storage f nodeStorage entryStorage data).operateLoop continuous scanBuffered endOffset n
            c).1 (pointer + (v - offset)) = f.byteOf data m v) ∧
      ∀ p, ¬ InRange pointer offset c.curOffset endOffset p →
        (storage f nodeStorage entryStorage data).afterCalls pointer offset memory
          ((storage f nodeStorage entryStorage data).operateLoop continuous scanBuffered endOffset n
            c).1 p = memory p := by
  induction n with
  | zero =>
    intro i c memory hn _; exact ⟨rfl, fun m v _ hv hv' => absurd hv' (by omega), fun p _ => rfl⟩
  | succ n ih =>
    intro i c memory hn hhead
    unfold IndirectStorage.operateLoop
    rcases lt_or_ge c.curOffset endOffset with hlt | hge
    · have head := hhead hlt
      rw [if_neg (not_not.mpr hlt), h.checkEntry_ok head.covers head.visitor]
      dsimp only
      -- the first part, which is nothing without the check
      obtain ⟨info, merged, hfirst, ready, hframe⟩ : ∃ info merged,
          (if continuous = true then (storage f nodeStorage entryStorage data).continuousCheck
            scanBuffered endOffset c else .ok (c.info, none)) = .ok (info, merged) ∧
          (continuous = true → Ready f data pointer offset i c.curOffset endOffset info
            ((storage f nodeStorage entryStorage data).afterCalls pointer offset memory
              merged.toList)) ∧
          ∀ p, ¬ InRange pointer offset c.curOffset endOffset p →
            (storage f nodeStorage entryStorage data).afterCalls pointer offset memory merged.toList p =
              memory p := by
        cases continuous with
        | true =>
          obtain ⟨info, merged, heq, ready, hframe⟩ :=
            h.continuousCheck_spec head hlt scanBuffered
          exact ⟨info, merged, heq, fun _ => ready, hframe⟩
        | false => exact ⟨c.info, none, rfl, fun hno => absurd hno Bool.false_ne_true, fun p _ => rfl⟩
      obtain ⟨next, own, hsecond, hcur, hinfo, hvisitor, hbytes, hframe'⟩ :=
        h.operateEntry_spec continuous head.covers head.visitor ready hend
      rw [hfirst]
      dsimp only
      rw [hsecond]
      dsimp only
      have hcur2 := head.covers.2.2
      have hnextHead : next.curOffset < endOffset → AtHead f data entryStorage continuous pointer offset
          (i + 1) endOffset next ((storage f nodeStorage entryStorage data).afterCalls pointer offset
            ((storage f nodeStorage entryStorage data).afterCalls pointer offset memory merged.toList)
            own.toList) := by
        intro hbefore
        obtain ⟨hin, hat⟩ := hvisitor hbefore
        have hstart : next.curOffset = f.offsetAt (i + 1) := by omega
        refine ⟨⟨hin, by omega, ?_⟩, hat, ?_, ?_⟩
        · rw [hstart]
          exact h.wellFormed.offsetAt_lt (Nat.lt_succ_self _) hin
        · intro hcont
          rw [hinfo]
          exact (ready hcont).readSize
        · intro hcont hcount hdone m v him hmk hcov hv hv' hbase
          rw [hinfo] at hcount hdone hmk
          rw [hframe' _ (by unfold InRange; omega)]
          exact ((ready hcont).ahead hdone).2 m v (by omega) (by omega) hcov (by omega) hv' hbase
      obtain ⟨hres, hrest, hrestFrame⟩ := ih (i + 1) next _ (by omega) hnextHead
      refine ⟨hres, ?_, ?_⟩
      · intro m v hcov hv hv'
        rw [afterCalls_append, afterCalls_append]
        rcases lt_or_ge v next.curOffset with hown | hlater
        · -- only the entry `i` covers what lies before the next one
          have hmi : m = i := by
            refine h.covers_unique hcov ⟨head.covers.1, ?_, by omega⟩
            exact head.covers.2.1.trans hv
          rw [hmi] at hcov ⊢
          rw [hrestFrame _ (by unfold InRange; omega)]
          exact hbytes v hcov hv hv'
        · exact hrest m v hcov hlater hv'
      · intro p hout
        rw [afterCalls_append, afterCalls_append]
        unfold InRange at hout
        rw [hrestFrame p (by unfold InRange; omega), hframe' p (by unfold InRange; omega)]
        exact hframe p hout
    · rw [if_pos (by omega)]; exact ⟨rfl, fun m v _ hv hv' => absurd hv' (by omega), fun p _ => rfl⟩

/-! ## The operation -/

theorem isIncludeRange_iff (f : Format IndirectEntry) (nodeStorage entryStorage : Storage IndirectEntry)
    (offset size : Int) :
    (f.tree nodeStorage entryStorage).isIncludeRange offset size = true ↔
      0 < size ∧ f.offsetAt 0 ≤ offset ∧ size ≤ f.endOffset - offset := by
  unfold BucketTree.isIncludeRange
  rw [Bool.and_eq_true, Bool.and_eq_true, decide_eq_true_eq, decide_eq_true_eq, decide_eq_true_eq,
    and_assoc]
  rfl

theorem operatePerEntry_spec (h : IndirectTable f nodeStorage entryStorage data) (continuous : Bool)
    (pool : IndirectStorage.Pool) {size : Int} (hsize : 0 ≤ size) (hstart : f.offsetAt 0 ≤ offset)
    (hend : offset + size ≤ f.endOffset) :
    ((storage f nodeStorage entryStorage data).operatePerEntry continuous pool offset size).2 =
      .ok () ∧
    (∀ m v, f.Covers m v → offset ≤ v → v < offset + size →
      (storage f nodeStorage entryStorage data).readWith continuous pool memory pointer size offset
        (pointer + (v - offset)) = f.byteOf data m v) ∧
    ∀ p, ¬ (pointer ≤ p ∧ p < pointer + size) →
      (storage f nodeStorage entryStorage data).readWith continuous pool memory pointer size offset p =
        memory p := by
  unfold IndirectStorage.readWith IndirectStorage.operatePerEntry
  rcases hsize.eq_or_lt with hzero | hpos
  · rw [if_pos hzero.symm]
    exact ⟨rfl, fun m v _ hv hv' => absurd hv' (by omega), fun p _ => rfl⟩
  · obtain ⟨i, hi, hle, hlt⟩ := Format.WellFormed.exists_entry hstart (show offset < f.endOffset by omega)
    have hfind : (storage f nodeStorage entryStorage data).table.find pool.node pool.entry offset =
        .ok (f.visitorAt entryStorage i) := h.wellFormed.find_eq hi pool.node pool.entry hle hlt
    have hvirt : (f.visitorAt entryStorage i).entry.virtOffset = f.offsetAt i := by
      rw [h.visitorAt_entryAt hi, h.virtOffset_eq hi]
    have hnonneg := h.wellFormed.start_ge.trans (h.wellFormed.offsetAt_le (Nat.zero_le i))
    have hinclude := (isIncludeRange_iff f nodeStorage entryStorage offset size).mpr
      ⟨hpos, hstart, by omega⟩
    rw [if_neg (by omega), storage_table, if_neg (not_not.mpr hinclude), ← storage_table, hfind]
    dsimp only
    rw [hvirt, storage_table, if_neg (not_not.mpr ⟨hnonneg, h.isInclude_offsetAt hi⟩)]
    have hhead : offset < offset + size → AtHead f data entryStorage continuous pointer offset i
        (offset + size) ⟨offset, f.visitorAt entryStorage i, .reset⟩ memory := by
      intro _
      exact ⟨⟨hi, hle, hlt⟩, rfl, fun _ => rfl,
        fun _ hcount => absurd hcount (show ¬ (1 : Int) < 0 by decide)⟩
    obtain ⟨hres, hbytes, hframe⟩ := h.operateLoop_spec continuous pool.scan hend size.toNat i
      ⟨offset, f.visitorAt entryStorage i, .reset⟩ memory (by dsimp only; omega) hhead
    refine ⟨hres, hbytes, fun p hout => hframe p ?_⟩
    unfold InRange
    dsimp only; omega

end IndirectTable

/-! ## Reads are exact -/

/-- `IndirectStorage::Read` on a valid table.  A range of the table is read without an error; every byte
    of it is covered by an entry and is the byte of that entry; nothing else changes; the reads
    without the check for continuous reading give the same; and so does a read in two parts. -/
theorem indirect_read_exact (f : Format IndirectEntry)
    (nodeStorage entryStorage : Storage IndirectEntry) (data : Int → DataStorage)
    (h : IndirectTable f nodeStorage entryStorage data) :
    ∃ st, IndirectStorage.initializeStorage nodeStorage entryStorage f.entries.length data = .ok st ∧
      ∀ (pool : IndirectStorage.Pool) (memory : Int → UInt8) (pointer offset size : Int),
        0 ≤ size → f.offsetAt 0 ≤ offset → offset + size ≤ f.endOffset →
        (st.operatePerEntry true pool offset size).2 = .ok () ∧
        (∀ v, offset ≤ v → v < offset + size → ∃ i, f.Covers i v) ∧
        (∀ i v, f.Covers i v → offset ≤ v → v < offset + size →
          st.read pool memory pointer size offset (pointer + (v - offset)) = f.byteOf data i v) ∧
        (∀ p, ¬ (pointer ≤ p ∧ p < pointer + size) →
          st.read pool memory pointer size offset p = memory p) ∧
        (∀ pool', st.read pool memory pointer size offset =
          st.readWith false pool' memory pointer size offset) ∧
        ∀ (pool₁ pool₂ : IndirectStorage.Pool) (k : Int), 0 ≤ k → k ≤ size →
          st.read pool₂ (st.read pool₁ memory pointer k offset) (pointer + k) (size - k) (offset + k) =
            st.read pool memory pointer size offset := by
  refine ⟨IndirectTable.storage f nodeStorage entryStorage data, ?_, ?_⟩
  · have hinit := h.wellFormed.initializeTree_eq
    rw [h.nodeSize_eq, h.entrySize_eq] at hinit
    unfold IndirectStorage.initializeStorage
    rw [hinit]
    rfl
  · intro pool memory pointer offset size hsize hstart hend
    -- a read of size 0 makes no call, as the operation does
    have hread : ∀ pool memory pointer size offset,
        (IndirectTable.storage f nodeStorage entryStorage data).read pool memory pointer size offset =
          (IndirectTable.storage f nodeStorage entryStorage data).readWith true pool memory pointer
            size offset := by
      intro pool memory pointer size offset
      unfold IndirectStorage.read
      split
      · rename_i hzero
        unfold IndirectStorage.readWith IndirectStorage.operatePerEntry
        rw [if_pos hzero]
        rfl
      · rfl
    have hcovered : ∀ v, offset ≤ v → v < offset + size → ∃ i, f.Covers i v := by
      intro v hv hv'
      obtain ⟨i, hi, hle, hlt⟩ := Format.WellFormed.exists_entry (f := f) (show f.offsetAt 0 ≤ v by omega)
        (by omega)
      exact ⟨i, hi, hle, hlt⟩
    have hspec := fun c pool memory => @IndirectTable.operatePerEntry_spec f nodeStorage entryStorage
      data pointer offset memory h c pool size hsize hstart hend
    -- two memories that are right on the range and unchanged outside are equal
    have hunique : ∀ (memory' : Int → UInt8),
        (∀ i v, f.Covers i v → offset ≤ v → v < offset + size →
          memory' (pointer + (v - offset)) = f.byteOf data i v) →
        (∀ p, ¬ (pointer ≤ p ∧ p < pointer + size) → memory' p = memory p) →
        memory' = (IndirectTable.storage f nodeStorage entryStorage data).readWith true pool memory
          pointer size offset := by
      intro memory' hbytes hframe
      obtain ⟨-, hbytes', hframe'⟩ := hspec true pool memory
      funext p
      by_cases hin : pointer ≤ p ∧ p < pointer + size
      · obtain ⟨i, hcov⟩ := hcovered (offset + (p - pointer)) (by omega) (by omega)
        have h1 := hbytes i _ hcov (by omega) (by omega)
        have h2 := hbytes' i _ hcov (by omega) (by omega)
        rw [show pointer + (offset + (p - pointer) - offset) = p by ring] at h1 h2
        rw [h1, h2]
      · rw [hframe p hin, hframe' p hin]
    obtain ⟨hres, hbytes, hframe⟩ := hspec true pool memory
    refine ⟨hres, hcovered, ?_, ?_, ?_, ?_⟩
    · intro i v hcov hv hv'
      rw [hread]
      exact hbytes i v hcov hv hv'
    · intro p hout
      rw [hread]
      exact hframe p hout
    · intro pool'
      rw [hread]
      obtain ⟨-, hbytes', hframe'⟩ := hspec false pool' memory
      exact (hunique _ hbytes' hframe').symm
    · intro pool₁ pool₂ k hk hk'
      rw [hread, hread, hread]
      obtain ⟨-, hbytes₁, hframe₁⟩ := @IndirectTable.operatePerEntry_spec f nodeStorage entryStorage
        data pointer offset memory h true pool₁ k hk hstart (by omega)
      obtain ⟨-, hbytes₂, hframe₂⟩ := @IndirectTable.operatePerEntry_spec f nodeStorage entryStorage
        data (pointer + k) (offset + k)
        ((IndirectTable.storage f nodeStorage entryStorage data).readWith true pool₁ memory pointer k
          offset) h true pool₂ (size - k) (by omega) (by omega) (by omega)
      refine hunique _ ?_ ?_
      · intro i v hcov hv hv'
        rcases lt_or_ge v (offset + k) with hfirst | hsecond
        · rw [hframe₂ _ (by omega)]
          exact hbytes₁ i v hcov hv hfirst
        · have := hbytes₂ i v hcov hsecond (by omega)
          rwa [show pointer + k + (v - (offset + k)) = pointer + (v - offset) by ring] at this
      · intro p hout
        rw [hframe₂ p (by omega), hframe₁ p (by omega)]

/-! ## A table with a merged read -/

/-- A fragment of ten bytes between two base entries. -/
def examplePatch : Format IndirectEntry where
  nodeSize := 16 * 1024
  entrySize := 0x14
  entries := [⟨0, 0, 0⟩, ⟨100, 0, 1⟩, ⟨110, 110, 0⟩]
  virtualOffset := IndirectEntry.virtOffset
  endOffset := 200

def examplePatchEntries : Storage IndirectEntry where
  size := 16 * 1024
  int32 := fun p => if p = 4 then 3 else 0
  int64 := fun p => if p = 8 then 200 else if p = 16 then 0 else if p = 36 then 100 else 110
  entry := fun p => if p = 16 then ⟨0, 0, 0⟩ else if p = 36 then ⟨100, 0, 1⟩ else ⟨110, 110, 0⟩

def examplePatchNodes : Storage IndirectEntry where
  size := 16 * 1024
  int32 := fun p => if p = 4 then 1 else 0
  int64 := fun p => if p = 8 then 200 else 0
  entry := fun _ => ⟨0, 0, 0⟩

def exampleData (index : Int) : DataStorage where
  size := 1000
  byte := fun p => if index = 0 then 0 else UInt8.ofNat (p.toNat + 1)

theorem example_indirectTable :
    IndirectTable examplePatch examplePatchNodes examplePatchEntries exampleData where
  wellFormed :=
    { entrySize_ge := by decide
      nodeSize_ge := by decide
      nodeSize_min := by decide
      nodeSize_max := by decide
      nodeSize_power := ⟨14, rfl⟩
      nonempty := by decide
      length_lt := by decide +kernel
      increasing := by decide
      start_ge := by decide
      below_end := by decide
      capacity := by decide +kernel
      nodeStorage_size := by decide +kernel
      entryStorage_size := by decide +kernel
      entrySets_size := by decide +kernel
      set_header := by decide +kernel
      set_offset := by decide +kernel
      set_entry := by decide +kernel
      l1_header := by decide +kernel
      l1_offset := by decide +kernel
      l2_header := by decide +kernel
      l2_offset := by decide +kernel
      l2_tail := by decide +kernel
      node_header := by decide +kernel
      node_offset := by decide +kernel }
  nodeSize_eq := rfl
  entrySize_eq := rfl
  virtualOffset_eq := rfl
  storageIndex := by decide
  phys_start := by decide
  phys_end := by decide +kernel

/-- The read of 200 bytes is merged, and the sixth byte of the fragment is there. -/
theorem indirect_read_exact_merged :
    ∃ st, IndirectStorage.initializeStorage examplePatchNodes examplePatchEntries 3 exampleData =
        .ok st ∧
      st.read ⟨true, true, fun _ => true⟩ (fun _ => 255) 0 200 0 105 = 6 := by
  obtain ⟨st, hst, hspec⟩ := indirect_read_exact examplePatch examplePatchNodes examplePatchEntries
    exampleData example_indirectTable
  obtain ⟨-, -, hbytes, -⟩ := hspec ⟨true, true, fun _ => true⟩ (fun _ => 255) 0 0 200 (by decide)
    (by decide) (by decide)
  have hbyte := hbytes 1 105 ⟨by decide, by decide, by decide⟩ (by decide) (by decide)
  exact ⟨st, hst, hbyte⟩

end Suyu.FileSys
