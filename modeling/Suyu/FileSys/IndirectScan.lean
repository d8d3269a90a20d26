import Mathlib
import Suyu.FileSys.BucketTreeWalk
import Suyu.FileSys.IndirectStorage

/-
  What `ScanContinuousReading` finds on a valid indirect table.

  1. **Specification (`IndirectTable`)** - the table is well formed, every entry names one of the two
     storages, and its bytes lie in that storage.

  3. **The crux (`ScanInv`)** - `phys_offset` follows the virtual offset: a base entry whose physical
     offset is equal to it lies as far behind the first entry in the base storage as it does in the
     table.
-/

namespace Suyu.FileSys

/-! ## Valid tables -/

/-- The entry of an index. -/
def Format.entryAt (f : Format IndirectEntry) (i : Nat) : IndirectEntry := f.entries.getD i ⟨0, 0, 0⟩

/-- The entry `i` covers a virtual offset. -/
def Format.Covers {α : Type} (f : Format α) (i : Nat) (v : Int) : Prop :=
  i < f.entries.length ∧ f.offsetAt i ≤ v ∧ v < f.offsetAt (i + 1)

/-- The byte of a virtual offset that the entry `i` covers. -/
def Format.byteOf (f : Format IndirectEntry) (data : Int → DataStorage) (i : Nat) (v : Int) : UInt8 :=
  (data (f.entryAt i).storageIndex).byte ((f.entryAt i).physOffset + (v - (f.entryAt i).virtOffset))

/-- A table of `IndirectStorage` whose storage indices and physical ranges are valid. -/
structure IndirectTable (f : Format IndirectEntry) (nodeStorage entryStorage : Storage IndirectEntry)
    (data : Int → DataStorage) : Prop where
  wellFormed : f.WellFormed nodeStorage entryStorage
  nodeSize_eq : (f.nodeSize : Int) = IndirectStorage.nodeSize
  entrySize_eq : (f.entrySize : Int) = IndirectStorage.sizeofEntry
  virtualOffset_eq : f.virtualOffset = IndirectEntry.virtOffset
  storageIndex : ∀ e ∈ f.entries, 0 ≤ e.storageIndex ∧ e.storageIndex < IndirectStorage.storageCount
  phys_start : ∀ e ∈ f.entries, 0 ≤ e.physOffset
  phys_end : ∀ i < f.entries.length, (f.entryAt i).physOffset + (f.offsetAt (i + 1) - f.offsetAt i) ≤
    (data (f.entryAt i).storageIndex).size

namespace IndirectTable

variable {f : Format IndirectEntry} {nodeStorage entryStorage : Storage IndirectEntry}
  {data : Int → DataStorage}

theorem entryAt_eq (f : Format IndirectEntry) {i : Nat} (hi : i < f.entries.length) :
    f.entryAt i = f.entries[i] := by
  unfold Format.entryAt
  rw [List.getD_eq_getElem?_getD, List.getElem?_eq_getElem hi]
  rfl

theorem entryAt_mem {i : Nat} (hi : i < f.entries.length) : f.entryAt i ∈ f.entries := by
  rw [entryAt_eq f hi]; exact List.getElem_mem hi

section

variable (h : IndirectTable f nodeStorage entryStorage data)
include h

theorem virtOffset_eq {i : Nat} (hi : i < f.entries.length) :
    (f.entryAt i).virtOffset = f.offsetAt i := by
  rw [Format.offsetAt_of_lt hi, h.virtualOffset_eq, entryAt_eq f hi]

theorem visitorAt_entryAt {i : Nat} (hi : i < f.entries.length) :
    (f.visitorAt entryStorage i).entry = f.entryAt i := by
  rw [h.wellFormed.visitorAt_getElem hi, entryAt_eq f hi]

theorem covers_unique {i j : Nat} {v : Int} (hi : f.Covers i v) (hj : f.Covers j v) : i = j := by
  obtain ⟨-, hi1, hi2⟩ := hi
  obtain ⟨-, hj1, hj2⟩ := hj
  rcases Nat.lt_trichotomy i j with hlt | heq | hgt
  · have := h.wellFormed.offsetAt_le (show i + 1 ≤ j from hlt)
    omega
  · exact heq
  · have := h.wellFormed.offsetAt_le (show j + 1 ≤ i from hgt)
    omega

end

/-! ## The entries of a set -/

end IndirectTable

/-- The index behind the entry set of the entry `i`. -/
def Format.setEnd {α : Type} (f : Format α) (i : Nat) : Nat :=
  i / f.perSet * f.perSet + f.setSize (i / f.perSet)

namespace IndirectTable

variable {f : Format IndirectEntry} {nodeStorage entryStorage : Storage IndirectEntry}
  {data : Int → DataStorage}

theorem setEnd_le (h : IndirectTable f nodeStorage entryStorage data) {i : Nat}
    (hi : i < f.entries.length) : f.setEnd i ≤ f.entries.length := by
  have hdiv := Format.WellFormed.div_mod f i
  have hmod := h.wellFormed.mod_lt_setSize hi
  have hsize : f.setSize (i / f.perSet) ≤ f.entries.length - i / f.perSet * f.perSet := min_le_right _ _
  unfold Format.setEnd
  omega

theorem lt_setEnd (h : IndirectTable f nodeStorage entryStorage data) {i : Nat}
    (hi : i < f.entries.length) : i < f.setEnd i := by
  have hdiv := Format.WellFormed.div_mod f i
  have hmod := h.wellFormed.mod_lt_setSize hi
  unfold Format.setEnd
  omega

theorem offsetAt_setEnd (f : Format IndirectEntry) (i : Nat) :
    f.offsetAt (f.setEnd i) = f.setStart (i / f.perSet + 1) := by
  have hmul : (i / f.perSet + 1) * f.perSet = i / f.perSet * f.perSet + f.perSet := by ring
  unfold Format.setEnd Format.setStart Format.setSize
  rcases Nat.le_total f.perSet (f.entries.length - i / f.perSet * f.perSet) with hfull | hlast
  · rw [min_eq_left hfull, hmul]
  · rw [min_eq_right hlast, Format.offsetAt_of_le (by omega), Format.offsetAt_of_le (by omega)]

theorem place_eq (h : IndirectTable f nodeStorage entryStorage data) {i j : Nat}
    (hle : i ≤ j) (hj : j < f.setEnd i) :
    j / f.perSet = i / f.perSet ∧ i % f.perSet + (j - i) = j % f.perSet := by
  have hpos := h.wellFormed.perSet_pos
  have hdiv := Format.WellFormed.div_mod f i
  have hsize : f.setSize (i / f.perSet) ≤ f.perSet := min_le_left _ _
  unfold Format.setEnd at hj
  have hstep : j = i % f.perSet + (j - i) + f.perSet * (i / f.perSet) := by
    rw [Nat.mul_comm]; omega
  have hsmall : i % f.perSet + (j - i) < f.perSet := by omega
  constructor
  · rw [hstep, Nat.add_mul_div_left _ _ hpos, Nat.div_eq_of_lt hsmall, Nat.zero_add]
  · conv_rhs => rw [hstep, Nat.add_mul_mod_self_left, Nat.mod_eq_of_lt hsmall]

end IndirectTable

/-! ## The scan -/

/-- The state of the scan that began at `cur` in the entry `i`, before the entry `j`. -/
structure ScanInv (f : Format IndirectEntry) (data : Int → DataStorage) (i : Nat) (cur endOffset : Int)
    (j : Nat) (s : ScanState) : Prop where
  le : i ≤ j
  inSet : j ≤ f.setEnd i
  entryIndex : s.entryIndex = (i % f.perSet + (j - i) : Nat)
  entry : j < f.setEnd i → s.entry = f.entryAt j
  curOffset : s.curOffset = if i = j then cur else min endOffset (f.offsetAt j)
  physOffset : s.physOffset = (f.entryAt i).physOffset + (f.offsetAt j - f.offsetAt i)
  sizes : cur + s.readableSize + s.mergeSize = s.curOffset
  mergeSize_nonneg : 0 ≤ s.mergeSize
  readableSize_nonneg : 0 ≤ s.readableSize
  -- the base bytes that were passed are inside the length, and one behind the other
  inside : ∀ m v, i ≤ m → m < j → f.Covers m v → cur ≤ v → v < endOffset →
    (f.entryAt m).storageIndex = 0 → v < cur + s.readableSize
  contiguous : ∀ m, i ≤ m → m < j → (f.entryAt m).storageIndex = 0 →
    (f.entryAt m).physOffset = (f.entryAt i).physOffset + (f.offsetAt m - f.offsetAt i)
  range : 0 < s.readableSize →
    (f.entryAt i).physOffset + (cur - f.offsetAt i) + s.readableSize ≤ (data 0).size

namespace ScanInv

variable {f : Format IndirectEntry} {nodeStorage entryStorage : Storage IndirectEntry}
  {data : Int → DataStorage} {i j : Nat} {cur endOffset : Int} {s s' : ScanState}

theorem covers (h : IndirectTable f nodeStorage entryStorage data)
    (inv : ScanInv f data i cur endOffset j s) (hcover : f.Covers i cur)
    (hj : j < f.setEnd i) (hlt : s.curOffset < endOffset) : f.Covers j s.curOffset := by
  have hle := h.setEnd_le hcover.1
  have hcur := inv.curOffset
  split at hcur
  · rename_i heq
    rw [hcur, ← heq]
    exact hcover
  · have hstart : s.curOffset = f.offsetAt j := by omega
    rw [hstart]
    exact ⟨by omega, le_refl _, h.wellFormed.offsetAt_lt (Nat.lt_succ_self j) (by omega)⟩

theorem advance (h : IndirectTable f nodeStorage entryStorage data)
    (inv : ScanInv f data i cur endOffset j s) (hcover : f.Covers i cur)
    (hj : j < f.setEnd i) (hlt : s.curOffset < endOffset) {next : IndirectEntry}
    (hnext : j + 1 < f.setEnd i → next = f.entryAt (j + 1))
    (hadv : s.advance endOffset (f.offsetAt (j + 1)) next = some s') :
    ScanInv f data i cur endOffset (j + 1) s' := by
  have hle := h.setEnd_le hcover.1
  have hjlen : j < f.entries.length := by omega
  obtain ⟨-, hcur1, hcur2⟩ := inv.covers h hcover hj hlt
  have hentry := inv.entry hj
  have hvirt := h.virtOffset_eq hjlen
  have hij := inv.le
  have hsizes := inv.sizes
  have hmerge := inv.mergeSize_nonneg
  have hreadable := inv.readableSize_nonneg
  have hread : s.curOffset + min (f.offsetAt (j + 1) - s.curOffset) (endOffset - s.curOffset) =
      min endOffset (f.offsetAt (j + 1)) := by omega
  have hphys := inv.physOffset
  unfold ScanState.advance at hadv
  dsimp only at hadv
  split at hadv
  · -- a fragment that is small enough is passed over
    rename_i hfragment
    split at hadv
    · cases hadv
    · obtain rfl := Option.some.inj hadv
      have hnot : (f.entryAt j).storageIndex ≠ 0 := by
        rw [hentry] at hfragment; simpa [IndirectEntry.isFragment] using hfragment
      refine ⟨by omega, by omega, ?_, hnext, ?_, ?_, ?_, ?_, hreadable, ?_, ?_, inv.range⟩
      · dsimp only
        rw [inv.entryIndex]
        omega
      · dsimp only
        rw [if_neg (by omega), hread]
      · dsimp only
        rw [hphys, hentry, hvirt]
        omega
      · dsimp only
        omega
      · dsimp only
        omega
      · intro m v him hmj hcov hv hv' hbase
        rcases Nat.lt_succ_iff_lt_or_eq.mp hmj with hlt' | rfl
        · exact inv.inside m v him hlt' hcov hv hv' hbase
        · exact absurd hbase hnot
      · intro m him hmj hbase
        rcases Nat.lt_succ_iff_lt_or_eq.mp hmj with hlt' | rfl
        · exact inv.contiguous m him hlt' hbase
        · exact absurd hbase hnot
  · -- a base entry that lies behind the first one
    rename_i hfragment
    split at hadv
    · cases hadv
    · rename_i hcontiguous
      obtain rfl := Option.some.inj hadv
      have hbase0 : (f.entryAt j).storageIndex = 0 := by
        rw [hentry] at hfragment; simpa [IndirectEntry.isFragment] using hfragment
      have hsame : (f.entryAt j).physOffset =
          (f.entryAt i).physOffset + (f.offsetAt j - f.offsetAt i) := by
        rw [← hphys, not_not.mp hcontiguous, hentry]
      have hend := h.phys_end j hjlen
      rw [hbase0] at hend
      refine ⟨by omega, by omega, ?_, hnext, ?_, ?_, ?_, le_refl _, ?_, ?_, ?_, ?_⟩
      · dsimp only
        rw [inv.entryIndex]
        omega
      · dsimp only
        rw [if_neg (by omega), hread]
      · dsimp only
        rw [hphys, hentry, hvirt]
        omega
      · dsimp only
        omega
      · dsimp only
        omega
      · intro m v him hmj hcov hv hv' hbase
        have hbound := h.wellFormed.offsetAt_le (show m + 1 ≤ j + 1 by omega)
        have := hcov.2.2
        dsimp only
        omega
      · intro m him hmj hbase
        rcases Nat.lt_succ_iff_lt_or_eq.mp hmj with hlt' | rfl
        · exact inv.contiguous m him hlt' hbase
        · exact hsame
      · intro _
        dsimp only; omega

end ScanInv

namespace IndirectTable

variable {f : Format IndirectEntry} {nodeStorage entryStorage : Storage IndirectEntry}
  {data : Int → DataStorage} {i : Nat} {cur endOffset : Int}

section

variable (h : IndirectTable f nodeStorage entryStorage data)
include h

theorem isInclude_offsetAt {j : Nat} (hj : j < f.entries.length) :
    (f.tree nodeStorage entryStorage).isInclude (f.offsetAt j) = true := by
  have hstart := h.wellFormed.offsetAt_le (Nat.zero_le j)
  have hend := h.wellFormed.offsetAt_lt hj hj
  rw [Format.offsetAt_of_le (le_refl _)] at hend
  unfold BucketTree.isInclude
  rw [Bool.and_eq_true, decide_eq_true_eq, decide_eq_true_eq]
  exact ⟨hstart, hend⟩

theorem nextEntry_eq (b : Bool) {j : Nat} (hi : i < f.entries.length) (hle : i ≤ j)
    (hj : j + 1 < f.setEnd i) :
    (f.tree nodeStorage entryStorage).nextEntry b (f.entrySetAt (i / f.perSet)).header
      (i % f.perSet + (j - i) : Nat) = f.entryAt (j + 1) := by
  have hlen := h.setEnd_le hi
  obtain ⟨hdiv, hmod⟩ := h.place_eq (show i ≤ j + 1 by omega) hj
  have hcount : (f.entrySetAt (i / f.perSet)).header.count = f.setSize (i / f.perSet) := rfl
  have hindex : (f.entrySetAt (i / f.perSet)).header.index = (i / f.perSet : Nat) := rfl
  have hplace : ((i % f.perSet + (j - i) : Nat) : Int) + 1 = ((j + 1) % f.perSet : Nat) := by omega
  have hinside : ((i % f.perSet + (j - i) : Nat) : Int) + 1 < f.setSize (i / f.perSet) := by
    have := Format.WellFormed.div_mod f i
    unfold Format.setEnd at hj; omega
  have hentry : entryStorage.entry (((j + 1) / f.perSet : Nat) * f.nodeSize + 16 +
      ((j + 1) % f.perSet : Nat) * f.entrySize) = f.entryAt (j + 1) :=
    h.visitorAt_entryAt (show j + 1 < f.entries.length by omega)
  unfold BucketTree.nextEntry
  rw [hcount, hindex, if_pos hinside, hplace, ← hentry, hdiv]
  cases b with
  | true =>
    rw [if_pos rfl]
    show entryStorage.entry ((i / f.perSet : Nat) * f.nodeSize +
      (0 + 16 + ((j + 1) % f.perSet : Nat) * f.entrySize)) = _
    congr 1; ring
  | false =>
    rw [if_neg Bool.false_ne_true]; rfl

theorem scanLoop_spec (b : Bool) (hcover : f.Covers i cur) (n : Nat) :
    ∀ j s, ScanInv f data i cur endOffset j s → f.setEnd i - j = n →
      ∃ j' s', (f.tree nodeStorage entryStorage).scanLoop b (f.entrySetAt (i / f.perSet)).header
        endOffset n s = .ok s' ∧ ScanInv f data i cur endOffset j' s' := by
  induction n with
  | zero => exact fun j s inv _ => ⟨j, s, rfl, inv⟩
  | succ n ih =>
    intro j s inv hn
    have hj : j < f.setEnd i := by omega
    have hlen := h.setEnd_le hcover.1
    rcases lt_or_ge s.curOffset endOffset with hlt | hge
    · obtain ⟨-, hcur1, hcur2⟩ := inv.covers h hcover hj hlt
      have hentry := inv.entry hj
      have hvirt := h.virtOffset_eq (show j < f.entries.length by omega)
      have hcount : (f.entrySetAt (i / f.perSet)).header.count = f.setSize (i / f.perSet) := rfl
      have hoffset : (f.entrySetAt (i / f.perSet)).header.offset = f.setStart (i / f.perSet + 1) := rfl
      have hdiv := Format.WellFormed.div_mod f i
      have hlast : (s.entryIndex + 1 < (f.entrySetAt (i / f.perSet)).header.count) ↔
          j + 1 < f.setEnd i := by
        rw [inv.entryIndex, hcount]
        have := inv.le
        unfold Format.setEnd; omega
      have hnext : j + 1 < f.setEnd i → (f.tree nodeStorage entryStorage).nextEntry b
          (f.entrySetAt (i / f.perSet)).header s.entryIndex = f.entryAt (j + 1) := by
        intro hin
        rw [inv.entryIndex]; exact h.nextEntry_eq b hcover.1 inv.le hin
      -- the next offset, inside the set and behind it
      have hnextOffset : (if s.entryIndex + 1 < (f.entrySetAt (i / f.perSet)).header.count
          then ((f.tree nodeStorage entryStorage).nextEntry b
            (f.entrySetAt (i / f.perSet)).header s.entryIndex).virtOffset
          else (f.entrySetAt (i / f.perSet)).header.offset) = f.offsetAt (j + 1) := by
        rcases Nat.lt_or_ge (j + 1) (f.setEnd i) with hin | hout
        · rw [if_pos (hlast.mpr hin), hnext hin, h.virtOffset_eq (by omega)]
        · rw [if_neg (fun hc => absurd (hlast.mp hc) (by omega)), hoffset,
            ← offsetAt_setEnd f i]
          congr 1; omega
      unfold BucketTree.scanLoop
      rw [if_neg (by omega), if_neg (by rw [hentry, hvirt]; omega)]
      dsimp only
      rw [hnextOffset]
      rw [if_neg, if_neg (by omega)]
      · split
        · exact ⟨j, s, rfl, inv⟩
        · rename_i s' hadv; exact ih (j + 1) s' (inv.advance h hcover hj hlt hnext hadv) (by omega)
      · rintro ⟨hin, hout⟩; exact hout (h.isInclude_offsetAt (by have := hlast.mp hin; omega))
    · unfold BucketTree.scanLoop
      rw [if_pos hge]; exact ⟨j, s, rfl, inv⟩

end

/-- What a scan says about the entries from `i` on.  `k` of them belong together; when `readSize` is
    not zero, it is the length of a read that has all their base bytes. -/
structure ScanResult (f : Format IndirectEntry) (data : Int → DataStorage) (i : Nat)
    (cur endOffset : Int) (info : ContinuousReadingInfo) (k : Nat) : Prop where
  skipCount : info.skipCount = k
  done : info.done = false
  readSize_nonneg : 0 ≤ info.readSize
  merged : 0 < info.readSize → 0 < k ∧ (f.entryAt i).storageIndex = 0 ∧
    cur + info.readSize ≤ endOffset ∧
    (f.entryAt i).physOffset + (cur - f.offsetAt i) + info.readSize ≤ (data 0).size ∧
    ∀ m v, i ≤ m → m < i + k → f.Covers m v → cur ≤ v → v < endOffset →
      (f.entryAt m).storageIndex = 0 → v < cur + info.readSize ∧
      f.byteOf data m v = (data 0).byte ((f.entryAt i).physOffset + (v - f.offsetAt i))

theorem scanContinuousReading_spec (h : IndirectTable f nodeStorage entryStorage data) (b : Bool)
    (hcover : f.Covers i cur) (hlt : cur < endOffset) :
    ∃ info k, (f.tree nodeStorage entryStorage).scanContinuousReading b (f.visitorAt entryStorage i) cur
      (endOffset - cur) = .ok info ∧ ScanResult f data i cur endOffset info k := by
  have hentry := h.visitorAt_entryAt hcover.1
  have hvirt := h.virtOffset_eq hcover.1
  unfold BucketTree.scanContinuousReading
  rw [if_neg (by omega), hentry]
  split
  · exact ⟨_, 0, rfl, rfl, rfl, le_refl _, fun hpos => absurd hpos (by decide)⟩
  · rename_i hfragment
    have hbase : (f.entryAt i).storageIndex = 0 := by
      simpa [IndirectEntry.isFragment] using hfragment
    have hcount : (f.visitorAt entryStorage i).entrySet.count = f.setSize (i / f.perSet) := rfl
    have hindex : (f.visitorAt entryStorage i).entryIndex = (i % f.perSet : Nat) := rfl
    have hset : (f.visitorAt entryStorage i).entrySet = f.entrySetAt (i / f.perSet) := rfl
    have hdiv := Format.WellFormed.div_mod f i
    have hsize : ¬ ((b = true) ∧ ¬ (f.tree nodeStorage entryStorage).nodeSize +
        (f.visitorAt entryStorage i).entrySet.index * (f.tree nodeStorage entryStorage).nodeSize ≤
        (f.tree nodeStorage entryStorage).entryStorage.size) := by
      rintro ⟨-, hnot⟩
      apply hnot
      show (f.nodeSize : Int) + (i / f.perSet : Nat) * f.nodeSize ≤ entryStorage.size
      rw [h.wellFormed.entrySets_size]
      have hmul : ((i / f.perSet + 1) * f.nodeSize : Nat) ≤ f.setCount * f.nodeSize :=
        Nat.mul_le_mul_right _ (h.wellFormed.div_lt_setCount hcover.1)
      have hmul' : (((i / f.perSet + 1) * f.nodeSize : Nat) : Int) ≤ (f.setCount * f.nodeSize : Nat) :=
        Int.ofNat_le.mpr hmul
      push_cast at hmul' ⊢; linarith
    have hstart : ScanInv f data i cur endOffset i
        ⟨f.entryAt i, cur, (f.entryAt i).physOffset, 0, 0, false,
          (f.visitorAt entryStorage i).entryIndex⟩ := by
      refine ⟨le_refl _, (h.lt_setEnd hcover.1).le, ?_, fun _ => rfl, ?_, ?_, ?_, le_refl _, le_refl _,
        ?_, ?_, ?_⟩
      · dsimp only
        rw [hindex]
        omega
      · dsimp only
        rw [if_pos rfl]
      · dsimp only
        omega
      · dsimp only
        omega
      · exact fun m v him hmi => absurd hmi (by omega)
      · exact fun m him hmi => absurd hmi (by omega)
      · exact fun hpos => absurd hpos (lt_irrefl 0)
    have hfuel : f.setEnd i - i = ((f.visitorAt entryStorage i).entrySet.count -
        (f.visitorAt entryStorage i).entryIndex).toNat := by
      rw [hcount, hindex]
      unfold Format.setEnd; omega
    obtain ⟨j, s, hloop, inv⟩ := h.scanLoop_spec b hcover _ i _ hstart hfuel
    have hbelow := hcover.2.1
    rw [if_neg (by omega), if_neg hsize, hset, show cur + (endOffset - cur) = endOffset by ring]
    rw [hset] at hloop
    rw [hloop]
    refine ⟨_, j - i, rfl, ?_, rfl, ?_, ?_⟩
    · show s.entryIndex - (f.visitorAt entryStorage i).entryIndex = _
      rw [inv.entryIndex, hindex]
      omega
    · have := inv.readableSize_nonneg
      dsimp only
      split <;> omega
    · dsimp only
      intro hpos
      have hle := inv.le
      have hmerge := inv.mergeSize_nonneg
      have hsizes := inv.sizes
      have hcur := inv.curOffset
      have hreadable : 0 < s.readableSize ∧
          (if s.merged = true then s.readableSize else 0) = s.readableSize := by
        cases hm : s.merged with
        | true => rw [hm, if_pos rfl] at hpos; exact ⟨hpos, if_pos rfl⟩
        | false => rw [hm, if_neg Bool.false_ne_true] at hpos; omega
      rw [hreadable.2]
      have hij : i < j := by
        by_contra hge
        rw [if_pos (by omega)] at hcur; omega
      rw [if_neg (by omega)] at hcur
      refine ⟨by omega, hbase, by omega, inv.range hreadable.1, ?_⟩
      intro m v him hmj hcov hv hv' hmbase
      refine ⟨inv.inside m v him (by omega) hcov hv hv' hmbase, ?_⟩
      unfold Format.byteOf
      rw [hmbase, inv.contiguous m him (by omega) hmbase, h.virtOffset_eq hcov.1]
      congr 1; ring

end IndirectTable

end Suyu.FileSys
