import Mathlib
import Suyu.Core.DeviceBlockAccess

/-
  Runs of `Map` and `Unmap`, and what the block accesses see.

  1. **Walk (`pieces_exact`)** - when a run holds consecutive mapped pages or unmapped ones only, the
     pieces of a walk translate byte by byte.

  2. **Runs (`Inv`)** - the runs of MAPPED pages are right in every state.
-/

namespace Suyu.Core

namespace TrackedMemoryManager

open DeviceMemoryManager (numPages)

variable {m : TrackedMemoryManager}

/-! ## The walk -/

/-- The runs of the mapped pages. -/
def MappedRuns (m : TrackedMemoryManager) : Prop :=
  ∀ d, m.compressedPhysicalPtr d ≠ 0 → ∀ j < m.continuityTracker d,
    m.compressedPhysicalPtr (d + j) = m.compressedPhysicalPtr d + j

variable {offset physicalBase : Nat} (physical : Nat → UInt8)

theorem getPointer_page {page : Nat} (h : offset < 0x1000) :
    m.getPointer (page * 0x1000 + offset) = if m.compressedPhysicalPtr page = 0 then none
      else some ((m.compressedPhysicalPtr page - 1) * 0x1000 + offset) := by
  have hpage : (page * 0x1000 + offset) >>> 12 = page := by
    rw [Nat.shiftRight_eq_div_pow]; omega
  have hoff : (page * 0x1000 + offset) % 0x1000 = offset := by omega
  simp only [getPointer, hpage, hoff, Nat.shiftLeft_eq]

theorem getPointer_add {page i : Nat} : m.getPointer (page * 0x1000 + offset + i) =
      if m.compressedPhysicalPtr (page + (offset + i) / 0x1000) = 0 then none
      else some ((m.compressedPhysicalPtr (page + (offset + i) / 0x1000) - 1) * 0x1000 +
        (offset + i) % 0x1000) := by
  have heq : page * 0x1000 + offset + i =
      (page + (offset + i) / 0x1000) * 0x1000 + (offset + i) % 0x1000 := by omega
  rw [heq]
  exact getPointer_page (Nat.mod_lt _ (by decide))

theorem mapped_piece {page i : Nat} (hruns : MappedRuns m) (hmapped : m.compressedPhysicalPtr page ≠ 0)
    (hi : offset + i < m.continuityTracker page * 0x1000) :
    m.getPointer (page * 0x1000 + offset + i) =
      some ((m.compressedPhysicalPtr page - 1) * 0x1000 + offset + i) := by
  have hrun := hruns page hmapped ((offset + i) / 0x1000) (by omega)
  rw [getPointer_add, hrun, if_neg (by omega), Option.some.injEq]
  omega

theorem unmapped_piece {page i : Nat} (hstale : m.NoStaleRun)
    (hunmapped : m.compressedPhysicalPtr page = 0) (hi : offset + i < m.continuityTracker page * 0x1000) :
    m.getPointer (page * 0x1000 + offset + i) = none := by
  rw [getPointer_add, if_pos (hstale page hunmapped _ (by omega))]

/-- Pieces that translate byte by byte, from an address on. -/
def PiecesExact (m : TrackedMemoryManager) : Nat → List (Nat × Option Nat) → Prop
  | _, [] => True
  | address, (amount, source) :: rest =>
      (∀ i < amount, m.getPointer (address + i) = source.map (· + i)) ∧
      m.PiecesExact (address + amount) rest

/-- The number of bytes of a list of pieces. -/
def total (pieces : List (Nat × Option Nat)) : Nat := (pieces.map (·.1)).sum

theorem walkBlock_exact (hpos : ∀ d, 0 < m.continuityTracker d) (hruns : MappedRuns m)
    (hstale : m.NoStaleRun) (fuel remaining page offset : Nat) (hfuel : remaining ≤ fuel)
    (hoff : offset < 0x1000) :
    m.PiecesExact (page * 0x1000 + offset) (m.walkBlock fuel remaining page offset) ∧
    total (m.walkBlock fuel remaining page offset) = remaining := by
  induction fuel generalizing remaining page offset with
  | zero =>
    obtain rfl : remaining = 0 := by omega
    exact ⟨trivial, rfl⟩
  | succ fuel ih =>
    unfold walkBlock
    by_cases hrem : remaining = 0
    · rw [if_pos hrem]; exact ⟨trivial, hrem.symm⟩
    rw [if_neg hrem]
    dsimp only
    have hnext := hpos page
    rw [Nat.shiftLeft_eq]
    obtain ⟨amount, hamount⟩ : ∃ amount,
        min (m.continuityTracker page * 2 ^ 12 - offset) remaining = amount := ⟨_, rfl⟩
    rw [hamount]
    obtain ⟨htail, hsum⟩ := ih (remaining - amount) (page + m.continuityTracker page) 0
      (by omega) (by decide)
    constructor
    · refine ⟨?_, ?_⟩
      · intro i hi
        have hin : offset + i < m.continuityTracker page * 0x1000 := by omega
        split
        · rename_i hunmapped
          exact unmapped_piece hstale hunmapped hin
        · rename_i hmapped
          rw [mapped_piece hruns hmapped hin, Option.map_some, Nat.shiftLeft_eq]
      · -- The next piece begins at a page, unless nothing is left.
        by_cases hdone : remaining - amount = 0
        · have hnil : m.walkBlock fuel (remaining - amount) (page + m.continuityTracker page) 0 =
              [] := by
            rw [hdone]
            cases fuel with
            | zero => rfl
            | succ fuel => rw [walkBlock, if_pos rfl]
          rw [hnil]
          trivial
        · have haddr : page * 0x1000 + offset + amount =
              (page + m.continuityTracker page) * 0x1000 + 0 := by omega
          rw [haddr]; exact htail
    · rw [total, List.map_cons, List.sum_cons]
      show amount + total _ = remaining
      rw [hsum]; omega

theorem pieces_exact (hpos : ∀ d, 0 < m.continuityTracker d) (hruns : MappedRuns m)
    (hstale : m.NoStaleRun) (address size : Nat) :
    m.PiecesExact address (m.pieces address size) ∧ total (m.pieces address size) = size := by
  have h := walkBlock_exact hpos hruns hstale size size (address >>> 12) (address % 0x1000)
    (Nat.le_refl _) (Nat.mod_lt _ (by decide))
  have haddr : (address >>> 12) * 0x1000 + address % 0x1000 = address := by
    rw [Nat.shiftRight_eq_div_pow]; omega
  rw [haddr] at h
  exact h

/-! ## Reads and writes by pieces -/

theorem readPieces_eq (l : List (Nat × Option Nat)) (address : Nat) (h : m.PiecesExact address l) :
    l.flatMap (readPiece physical) =
      (List.range (total l)).map fun i => m.readByte physical (address + i) := by
  induction l generalizing address with
  | nil => rfl
  | cons piece rest ih =>
    obtain ⟨amount, source⟩ := piece
    obtain ⟨hfirst, hrest⟩ := h
    have hpiece : readPiece physical (amount, source) =
        (List.range amount).map fun i => m.readByte physical (address + i) := by
      cases source with
      | none =>
        refine List.ext_getElem (by simp [readPiece]) fun i h1 h2 => ?_
        have hi : i < amount := by simpa [readPiece] using h1
        simp [readPiece, readByte, hfirst i hi]
      | some p =>
        refine List.map_congr_left fun i hi => ?_
        simp [readByte, hfirst i (List.mem_range.mp hi)]
    have htotal : total ((amount, source) :: rest) = amount + total rest := by
      simp [total]
    rw [List.flatMap_cons, hpiece, ih _ hrest, htotal, List.range_add, List.map_append,
      List.map_map]
    simp [Function.comp_def, Nat.add_assoc]

theorem writeBytes_append (address : Nat) (l l' : List UInt8) :
    m.writeBytes physical address (l ++ l') =
      m.writeBytes (m.writeBytes physical address l) (address + l.length) l' := by
  induction l generalizing physical address with
  | nil => rfl
  | cons byte rest ih =>
    simp only [List.cons_append, writeBytes, List.length_cons]
    rw [ih, show address + 1 + rest.length = address + (rest.length + 1) by omega]

theorem writeBytes_unmapped (physical : Nat → UInt8) (address : Nat) (l : List UInt8)
    (h : ∀ i < l.length, m.getPointer (address + i) = none) :
    m.writeBytes physical address l = physical := by
  induction l generalizing physical address with
  | nil => rfl
  | cons byte rest ih =>
    have hfirst := h 0 (Nat.succ_pos _)
    rw [Nat.add_zero] at hfirst
    simp only [writeBytes, hfirst, Option.elim_none]
    refine ih physical (address + 1) fun i hi => ?_
    have hnext := h (i + 1) (Nat.succ_lt_succ hi)
    rw [show address + 1 + i = address + (i + 1) by omega]; exact hnext

theorem writeBytes_mapped (physical : Nat → UInt8) (address p : Nat) (l : List UInt8)
    (h : ∀ i < l.length, m.getPointer (address + i) = some (p + i)) :
    m.writeBytes physical address l = copyTo physical p l := by
  induction l generalizing physical address p with
  | nil => rfl
  | cons byte rest ih =>
    have hfirst := h 0 (Nat.succ_pos _)
    rw [Nat.add_zero, Nat.add_zero] at hfirst
    simp only [writeBytes, hfirst, Option.elim_some, copyTo]
    refine ih _ (address + 1) (p + 1) fun i hi => ?_
    have hnext := h (i + 1) (Nat.succ_lt_succ hi)
    rw [show address + 1 + i = address + (i + 1) by omega,
      show p + 1 + i = p + (i + 1) by omega]
    exact hnext

theorem writePieces_eq (l : List (Nat × Option Nat)) (address : Nat) (source : List UInt8)
    (h : m.PiecesExact address l) (hlen : total l = source.length) :
    writePieces physical l source = m.writeBytes physical address source := by
  induction l generalizing physical address source with
  | nil =>
    have hnil : source = [] := List.length_eq_zero_iff.mp hlen.symm
    subst hnil; rfl
  | cons piece rest ih =>
    obtain ⟨amount, target⟩ := piece
    obtain ⟨hfirst, hrest⟩ := h
    have htotal : amount + total rest = source.length := by
      rw [← hlen]; simp [total]
    have htake : (source.take amount).length = amount := by
      rw [List.length_take]; omega
    have hdrop : total rest = (source.drop amount).length := by
      rw [List.length_drop]; omega
    have hsplit : m.writeBytes physical address source = m.writeBytes
        (m.writeBytes physical address (source.take amount)) (address + amount)
        (source.drop amount) := by
      conv_lhs => rw [← List.take_append_drop amount source]
      rw [writeBytes_append, htake]
    rw [hsplit]
    cases target with
    | none =>
      rw [writeBytes_unmapped physical address (source.take amount) (by
        intro i hi
        rw [htake] at hi; simpa using hfirst i hi)]
      exact ih physical (address + amount) (source.drop amount) hrest hdrop
    | some p =>
      rw [writeBytes_mapped physical address p (source.take amount) (by
        intro i hi
        rw [htake] at hi; simpa using hfirst i hi)]
      exact ih _ (address + amount) (source.drop amount) hrest hdrop

theorem getSpan_exact (hruns : MappedRuns m) {address size p : Nat}
    (h : m.getSpan address size = some p) {i : Nat} (hi : i < size) :
    m.getPointer (address + i) = some (p + i) := by
  unfold getSpan at h
  split at h
  · rename_i hlen
    rw [Nat.shiftLeft_eq] at hlen
    have haddr : (address >>> 12) * 0x1000 + address % 0x1000 = address := by
      rw [Nat.shiftRight_eq_div_pow]; omega
    have hlt : address % 0x1000 < 0x1000 := Nat.mod_lt _ (by decide)
    have hpage : m.getPointer ((address >>> 12) * 0x1000 + address % 0x1000) = _ :=
      getPointer_page hlt
    rw [haddr, h] at hpage
    split at hpage
    · cases hpage
    · rename_i hmapped
      have hbyte := mapped_piece (i := i) hruns hmapped
        (show address % 0x1000 + i < m.continuityTracker (address >>> 12) * 0x1000 by omega)
      rw [haddr] at hbyte
      rw [hbyte, Option.some.injEq, Option.some.inj hpage]
  · cases h

theorem accessExact_of_noStaleRun (hpos : ∀ d, 0 < m.continuityTracker d) (hruns : MappedRuns m)
    (hstale : m.NoStaleRun) : m.AccessExact where
  read := by
    intro physical address size _
    obtain ⟨hpieces, htotal⟩ := pieces_exact hpos hruns hstale address size
    have heq := readPieces_eq physical _ address hpieces
    rw [htotal] at heq; exact heq
  write := by
    intro physical address source _
    obtain ⟨hpieces, htotal⟩ := pieces_exact hpos hruns hstale address source.length
    exact writePieces_eq physical _ address source hpieces htotal
  span := fun _ _ _ _ h _ hi => getSpan_exact hruns h hi

theorem noStaleRun_of_accessExact (h : m.AccessExact)
    (hinside : ∀ d, m.compressedPhysicalPtr d ≠ 0 → d < devicePages) : m.NoStaleRun := by
  intro d hd j hj
  by_contra hmapped
  have hlt := hinside _ hmapped
  have hpages : devicePages = 2 ^ 22 := rfl
  -- The range from the unmapped page through the mapped one, over a memory of ones.
  have hread := h.read (fun _ => 1) (d * 0x1000) ((j + 1) * 0x1000) (by omega)
  have hpage : (d * 0x1000) >>> 12 = d := by
    rw [Nat.shiftRight_eq_div_pow]; omega
  have hpieces : ∃ rest, m.pieces (d * 0x1000) ((j + 1) * 0x1000) =
      ((j + 1) * 0x1000, none) :: rest := by
    have hoff : d * 0x1000 % 0x1000 = 0 := by omega
    obtain ⟨fuel, hfuel⟩ : ∃ fuel, (j + 1) * 0x1000 = fuel + 1 := ⟨(j + 1) * 0x1000 - 1, by omega⟩
    have hmin : min (m.continuityTracker d <<< 12 - 0) (fuel + 1) = fuel + 1 := by
      rw [Nat.shiftLeft_eq]; omega
    rw [pieces, hpage, hoff, hfuel, walkBlock, if_neg (Nat.succ_ne_zero fuel)]
    simp only [hd, if_true, hmin]; exact ⟨_, rfl⟩
  obtain ⟨rest, hrest⟩ := hpieces
  have hlen : j * 0x1000 < (j + 1) * 0x1000 := by omega
  have hleft : (m.readBlockUnsafe (fun _ => 1) (d * 0x1000) ((j + 1) * 0x1000))[j * 0x1000]? =
      some 0 := by
    rw [readBlockUnsafe, hrest, List.flatMap_cons,
      List.getElem?_append_left (by rw [readPiece, List.length_replicate]; exact hlen)]
    simp [readPiece]
  have hbyte : m.getPointer (d * 0x1000 + j * 0x1000) ≠ none := by
    have hptr : m.getPointer ((d + j) * 0x1000 + 0) = _ := getPointer_page (by decide)
    rw [if_neg hmapped, show (d + j) * 0x1000 + 0 = d * 0x1000 + j * 0x1000 by omega] at hptr
    rw [hptr]; exact Option.some_ne_none _
  obtain ⟨p, hp⟩ := Option.ne_none_iff_exists'.mp hbyte
  rw [hread, List.getElem?_map, List.getElem?_range hlen] at hleft
  simp only [Option.map_some, readByte, hp, Option.elim_some, Option.some.injEq] at hleft
  exact absurd hleft (by decide)

/-! ## The invariant of the runs -/

/-- The state of a run and its live ranges. -/
structure Inv (m : TrackedMemoryManager) (live : List (Nat × Nat)) : Prop where
  disjoint : live.Pairwise fun r r' => ∀ d, Covers r d → ¬ Covers r' d
  inside : ∀ r ∈ live, r.1 + r.2 ≤ devicePages
  mapped : ∀ d, m.compressedPhysicalPtr d ≠ 0 → ∃ r ∈ live, Covers r d
  positive : ∀ d, 0 < m.continuityTracker d
  bounded : ∀ r ∈ live, ∀ d, Covers r d → d + m.continuityTracker d ≤ r.1 + r.2
  runs : MappedRuns m

theorem initial_inv : Inv initial [] where
  disjoint := List.Pairwise.nil
  inside := fun _ h => by cases h
  mapped := fun d h => absurd rfl h
  positive := fun _ => Nat.one_pos
  bounded := fun _ h => by cases h
  runs := fun d h => absurd rfl h

variable {m' : TrackedMemoryManager} {live : List (Nat × Nat)}

theorem Inv.mapped_lt (h : Inv m live) {d : Nat} (hd : m.compressedPhysicalPtr d ≠ 0) :
    d < devicePages := by
  obtain ⟨r, hr, hcov⟩ := h.mapped d hd
  have := h.inside r hr
  unfold Covers at hcov
  omega

theorem Inv.run_keeps (h : Inv m live) (m' : TrackedMemoryManager) {range r : Nat × Nat} (hr : r ∈ live)
    (hother : ∀ d, Covers r d → ¬ Covers range d)
    (hptr : ∀ p, ¬ Covers range p → m'.compressedPhysicalPtr p = m.compressedPhysicalPtr p)
    (htrack : ∀ p, ¬ Covers range p → m'.continuityTracker p = m.continuityTracker p)
    {d : Nat} (hd : Covers r d) (hmapped : m'.compressedPhysicalPtr d ≠ 0) :
    ∀ j < m'.continuityTracker d,
      m'.compressedPhysicalPtr (d + j) = m'.compressedPhysicalPtr d + j := by
  intro j hj
  rw [htrack d (hother d hd)] at hj
  rw [hptr d (hother d hd)] at hmapped ⊢
  have hbound := h.bounded r hr d hd
  have hcov : Covers r (d + j) := by
    unfold Covers at hd ⊢; omega
  rw [hptr (d + j) (hother (d + j) hcov)]
  exact h.runs d hmapped j hj

theorem physicalPtr_some {rawAddr : Nat} (h : rawAddr < 2 ^ 33) :
    physicalPtr (some rawAddr) = rawAddr / 0x1000 + 1 := by
  simp only [physicalPtr, Nat.shiftRight_eq_div_pow]; omega

theorem eq_none_of_physicalPtr {o : Option Nat} (ho : ∀ rawAddr, o = some rawAddr → rawAddr < 2 ^ 33)
    (h : physicalPtr o = 0) : o = none := by
  cases o with
  | none => rfl
  | some rawAddr =>
    rw [physicalPtr_some (ho _ rfl)] at h; cases h

theorem physicalPtr_consecutive {o o' : Option Nat} {j : Nat}
    (ho : ∀ rawAddr, o = some rawAddr → rawAddr < 2 ^ 33)
    (ho' : ∀ rawAddr, o' = some rawAddr → rawAddr < 2 ^ 33) (h : o' = o.map (· + j * 0x1000))
    (hne : physicalPtr o ≠ 0) : physicalPtr o' = physicalPtr o + j := by
  cases o with
  | none => exact absurd rfl hne
  | some rawAddr =>
    rw [Option.map_some] at h
    rw [h, physicalPtr_some (ho' _ h), physicalPtr_some (ho _ rfl)]; omega

theorem Inv.map {physicalBase address virtualAddress size : Nat} {memory : Nat → Option Nat}
    (hbase : HostBase physicalBase) (h : Inv m live)
    (hallowed : Allowed live (.map address virtualAddress size memory))
    (hstep : m.step physicalBase (.map address virtualAddress size memory) = some m') :
    Inv m' (liveAfter live (.map address virtualAddress size memory)) := by
  obtain ⟨hin, hfree, hraw⟩ := hallowed
  obtain ⟨d, hd, rfl⟩ := Option.map_eq_some_iff.mp hstep
  obtain ⟨hnew, hold⟩ := map_ptr hd
  obtain ⟨hruns, hkept⟩ := trackContinuity_spec address virtualAddress m.continuityTracker
    hbase hraw (show numPages size ≤ devicePages by omega)
  constructor
  case disjoint => exact List.pairwise_cons.mpr ⟨fun r hr p hp hr' => hfree r hr p hr' hp, h.disjoint⟩
  case inside =>
    intro r hr
    rcases List.mem_cons.mp hr with rfl | hr
    · exact hin
    · exact h.inside r hr
  case mapped =>
    intro p hp
    by_cases hcov : Covers (address >>> 12, numPages size) p
    · exact ⟨_, List.mem_cons_self, hcov⟩
    · rw [show d.compressedPhysicalPtr p = m.compressedPhysicalPtr p from hold p hcov] at hp
      obtain ⟨r, hr, hrp⟩ := h.mapped p hp; exact ⟨r, List.mem_cons_of_mem _ hr, hrp⟩
  case positive =>
    intro p
    by_cases hcov : Covers (address >>> 12, numPages size) p
    · obtain ⟨i, hi, rfl⟩ := covers_index hcov
      exact (hruns i hi).positive
    · show 0 < trackContinuity _ _ _ _ _ _ p
      rw [hkept p hcov]; exact h.positive p
  case bounded =>
    intro r hr p hp
    rcases List.mem_cons.mp hr with rfl | hr
    · obtain ⟨i, hi, rfl⟩ := covers_index hp
      have := (hruns i hi).inside
      show (address >>> 12) + i + trackContinuity _ _ _ _ _ _ _ ≤ (address >>> 12) + numPages size
      omega
    · show p + trackContinuity _ _ _ _ _ _ p ≤ _
      rw [hkept p (hfree r hr p hp)]; exact h.bounded r hr p hp
  case runs =>
    intro p hp j hj
    by_cases hcov : Covers (address >>> 12, numPages size) p
    · obtain ⟨i, hi, rfl⟩ := covers_index hcov
      have hrun := hruns i hi
      have hinside := hrun.inside
      have hj' : j < trackContinuity physicalBase address virtualAddress size memory
        m.continuityTracker ((address >>> 12) + i) := hj
      have hcons := hrun.consecutive j hj'
      show d.compressedPhysicalPtr ((address >>> 12) + i + j) =
        d.compressedPhysicalPtr ((address >>> 12) + i) + j
      have hp' : d.compressedPhysicalPtr ((address >>> 12) + i) ≠ 0 := hp
      rw [hnew i hi] at hp' ⊢
      rw [show (address >>> 12) + i + j = (address >>> 12) + (i + j) by omega,
        hnew (i + j) (by omega)]
      exact physicalPtr_consecutive (fun r => hraw _ r) (fun r => hraw _ r) hcons hp'
    · obtain ⟨r, hr, hrp⟩ := h.mapped p (by
        rw [← show d.compressedPhysicalPtr p = m.compressedPhysicalPtr p from hold p hcov]
        exact hp)
      exact h.run_keeps _ hr (hfree r hr) hold hkept hrp hp j hj

theorem Inv.unmap {address size : Nat} (h : Inv m live) (hallowed : Allowed live (.unmap address size))
    (hstep : m.step physicalBase (.unmap address size) = some m') :
    Inv m' (liveAfter live (.unmap address size)) := by
  have hmem : (address >>> 12, numPages size) ∈ live := hallowed
  obtain ⟨d, hd, rfl⟩ := Option.map_eq_some_iff.mp hstep
  obtain ⟨hzero, hold⟩ := unmap_ptr hd
  have hpair : ((address >>> 12, numPages size) :: live.erase (address >>> 12, numPages size)).Pairwise
      fun r r' => ∀ d, Covers r d → ¬ Covers r' d :=
    ((List.perm_cons_erase hmem).pairwise_iff (fun hrr d hr' hr => hrr d hr hr')).mp h.disjoint
  obtain ⟨hapart, hrest⟩ := List.pairwise_cons.mp hpair
  have hlive : ∀ p, d.compressedPhysicalPtr p ≠ 0 →
      ∃ r ∈ live.erase (address >>> 12, numPages size), Covers r p := by
    intro p hp
    have hcov : ¬ Covers (address >>> 12, numPages size) p := fun hc => hp (hzero p hc)
    obtain ⟨r, hr, hrp⟩ := h.mapped p (by
      rw [← show d.compressedPhysicalPtr p = m.compressedPhysicalPtr p from hold p hcov]; exact hp)
    refine ⟨r, (List.mem_erase_of_ne ?_).mpr hr, hrp⟩
    rintro rfl; exact hcov hrp
  constructor
  case disjoint => exact hrest
  case inside => exact fun r hr => h.inside r (List.mem_of_mem_erase hr)
  case mapped => exact hlive
  case positive => exact h.positive
  case bounded => exact fun r hr => h.bounded r (List.mem_of_mem_erase hr)
  case runs =>
    intro p hp j hj
    obtain ⟨r, hr, hrp⟩ := hlive p hp
    exact h.run_keeps { m with toDeviceMemoryManager := d } (List.mem_of_mem_erase hr)
      (fun q hq hq' => hapart r hr q hq' hq) hold (fun _ _ => rfl) hrp hp j hj

theorem Inv.step {physicalBase : Nat} (hbase : HostBase physicalBase) (h : Inv m live)
    {op : DeviceMemoryManager.Op} (hallowed : Allowed live op)
    (hstep : m.step physicalBase op = some m') : Inv m' (liveAfter live op) := by
  cases op with
  | map address virtualAddress size memory => exact h.map hbase hallowed hstep
  | unmap address size => exact h.unmap hallowed hstep

theorem Run.inv {condition : TrackedMemoryManager → DeviceMemoryManager.Op → Prop}
    (hbase : HostBase physicalBase) (h : Run physicalBase condition m live) : Inv m live := by
  induction h with
  | initial => exact initial_inv
  | step _ hallowed _ hstep ih => exact ih.step hbase hallowed hstep

theorem Inv.accessExact_iff (h : Inv m live) : m.AccessExact ↔ m.NoStaleRun :=
  ⟨fun ha => noStaleRun_of_accessExact ha fun _ hd => h.mapped_lt hd,
    accessExact_of_noStaleRun h.positive h.runs⟩

/-! ## What makes a run stale -/

theorem Inv.noStaleRun_iff (hbase : HostBase physicalBase) (h : Inv m live) (hstale : m.NoStaleRun)
    {op : DeviceMemoryManager.Op} (hallowed : Allowed live op)
    (hstep : m.step physicalBase op = some m') : m'.NoStaleRun ↔ m.Clear op := by
  cases op with
  | map address virtualAddress size memory =>
    obtain ⟨hin, hfree, hraw⟩ := hallowed
    obtain ⟨d, hd, rfl⟩ := Option.map_eq_some_iff.mp hstep
    obtain ⟨hnew, hold⟩ := map_ptr hd
    obtain ⟨hruns, hkept⟩ := trackContinuity_spec address virtualAddress m.continuityTracker
      hbase hraw (show numPages size ≤ devicePages by omega)
    constructor
    · intro hafter p hp hcov j hj i hi hpj
      have hp' : d.compressedPhysicalPtr p = 0 := (hold p hcov).trans hp
      have hzero := hafter p hp' j (by
        show j < trackContinuity _ _ _ _ _ _ p
        rw [hkept p hcov]; exact hj)
      have hentry : d.compressedPhysicalPtr ((address >>> 12) + i) = 0 := by
        rw [← hpj]; exact hzero
      exact eq_none_of_physicalPtr (hraw _) ((hnew i hi).symm.trans hentry)
    · intro hclear p hp j hj
      have hp' : d.compressedPhysicalPtr p = 0 := hp
      have hj' : j < trackContinuity physicalBase address virtualAddress size memory
        m.continuityTracker p := hj
      show d.compressedPhysicalPtr (p + j) = 0
      by_cases hcov : Covers (address >>> 12, numPages size) p
      · -- A page of the range without a backing has a run of length 1.
        obtain ⟨i, hi, rfl⟩ := covers_index hcov
        rw [hnew i hi] at hp'
        rw [(hruns i hi).null (eq_none_of_physicalPtr (hraw _) hp')] at hj'
        obtain rfl : j = 0 := by omega
        rw [Nat.add_zero, hnew i hi]
        exact hp'
      · rw [hkept p hcov] at hj'
        rw [hold p hcov] at hp'
        by_cases hcov' : Covers (address >>> 12, numPages size) (p + j)
        · obtain ⟨i, hi, hpj⟩ := covers_index hcov'
          rw [hpj, hnew i hi, hclear p hp' hcov j hj' i hi hpj]
          rfl
        · rw [hold (p + j) hcov']; exact hstale p hp' j hj'
  | unmap address size =>
    refine ⟨fun _ => trivial, fun _ => ?_⟩
    have hmem : (address >>> 12, numPages size) ∈ live := hallowed
    obtain ⟨d, hd, rfl⟩ := Option.map_eq_some_iff.mp hstep
    obtain ⟨hzero, hold⟩ := unmap_ptr hd
    intro p hp j hj
    show d.compressedPhysicalPtr (p + j) = 0
    by_cases hcov' : Covers (address >>> 12, numPages size) (p + j)
    · exact hzero _ hcov'
    · rw [hold (p + j) hcov']
      by_cases hcov : Covers (address >>> 12, numPages size) p
      · -- The run of a page of the range does not leave the range.
        have hbound := h.bounded _ hmem p hcov
        have hj' : j < m.continuityTracker p := hj
        exact absurd (show Covers (address >>> 12, numPages size) (p + j) by
          unfold Covers at hcov ⊢
          dsimp only at hbound; omega) hcov'
      · have hp' : m.compressedPhysicalPtr p = 0 := (hold p hcov).symm.trans hp
        exact hstale p hp' j hj

/-! ## Every run -/

theorem Run.noStaleRun (hbase : HostBase physicalBase) (h : Run physicalBase Clear m live) :
    m.NoStaleRun := by
  induction h with
  | initial => exact fun d _ j _ => rfl
  | step hrun hallowed hclear hstep ih =>
    exact ((hrun.inv hbase).noStaleRun_iff hbase ih hallowed hstep).mpr hclear

/-- Device page 0 is never mapped: the allocator begins behind it. -/
def FromPageOne : DeviceMemoryManager.Op → Prop
  | .map address _ _ _ => 1 ≤ address >>> 12
  | .unmap _ _ => True

theorem Inv.valid (h : Inv m live) {op : DeviceMemoryManager.Op} (hallowed : Allowed live op)
    (hone : FromPageOne op) : op.Valid 1 m.toDeviceMemoryManager := by
  cases op with
  | map address virtualAddress size memory =>
    obtain ⟨hin, hfree, hraw⟩ := hallowed
    refine ⟨hone, hin, fun i hi => ?_, hraw⟩
    by_contra hmapped
    obtain ⟨r, hr, hcov⟩ := h.mapped _ hmapped
    refine hfree r hr _ hcov ?_
    unfold Covers
    dsimp only; omega
  | unmap address size => exact h.inside _ hallowed

theorem Run.reachable (hbase : HostBase physicalBase)
    (h : Run physicalBase (fun _ op => FromPageOne op) m live) :
    DeviceMemoryManager.Reachable 1 m.toDeviceMemoryManager := by
  induction h with
  | initial => exact .initial
  | @step m₁ m₂ live op hrun hallowed hone hstep ih =>
    have hvalid := (hrun.inv hbase).valid hallowed hone
    have hbelow : m₁.toDeviceMemoryManager.step op = some m₂.toDeviceMemoryManager := by
      cases op with
      | map address virtualAddress size memory =>
        obtain ⟨d, hd, rfl⟩ := Option.map_eq_some_iff.mp hstep; exact hd
      | unmap address size =>
        obtain ⟨d, hd, rfl⟩ := Option.map_eq_some_iff.mp hstep; exact hd
    exact .step ih hvalid hbelow

/-- **The block accesses** of a run are exact as long as every `Map` is clear, and a call in an exact
    state leaves an exact state exactly when it is; calls that do not map page 0 return. -/
theorem blockAccess_exact {physicalBase : Nat} (hbase : HostBase physicalBase) :
    (∀ m live, Run physicalBase Clear m live → m.AccessExact) ∧
    (∀ m live op m', Run physicalBase (fun _ _ => True) m live → m.AccessExact →
      Allowed live op → m.step physicalBase op = some m' → (m'.AccessExact ↔ m.Clear op)) ∧
    ∀ m live op, Run physicalBase (fun _ op => FromPageOne op) m live → Allowed live op →
      FromPageOne op → ∃ m', m.step physicalBase op = some m' := by
  refine ⟨?_, ?_, ?_⟩
  · intro m live hrun
    exact (hrun.inv hbase).accessExact_iff.mpr (hrun.noStaleRun hbase)
  · intro m live op m' hrun hexact hallowed hstep
    have hinv := hrun.inv hbase
    have hstale := hinv.accessExact_iff.mp hexact
    rw [(hinv.step hbase hallowed hstep).accessExact_iff]
    exact hinv.noStaleRun_iff hbase hstale hallowed hstep
  · intro m live op hrun hallowed hone
    obtain ⟨chains, hchains⟩ := (hrun.reachable hbase).inv
    obtain ⟨d, -, hd, -⟩ := hchains.step op ((hrun.inv hbase).valid hallowed hone)
    cases op with
    | map address virtualAddress size memory => exact ⟨_, Option.map_eq_some_iff.mpr ⟨d, hd, rfl⟩⟩
    | unmap address size => exact ⟨_, Option.map_eq_some_iff.mpr ⟨d, hd, rfl⟩⟩

/-- A process whose pages lie in the physical memory in their own order. -/
def flatMemory (v : Nat) : Option Nat := if v < 2 ^ 33 then some v else none

theorem flatMemory_lt (v rawAddr : Nat) (h : flatMemory v = some rawAddr) : rawAddr < 2 ^ 33 := by
  unfold flatMemory at h
  split at h
  · cases h
    assumption
  · cases h

/-- Four pages are mapped, unmapped and mapped elsewhere: the runs that the first call has left are all
    written again, and the accesses are exact. -/
theorem blockAccess_exact_mapped_again : ∃ m₁ m₂ m₃,
    initial.step (2 ^ 40) (.map 0x1000 0 0x4000 flatMemory) = some m₁ ∧
    m₁.step (2 ^ 40) (.unmap 0x1000 0x4000) = some m₂ ∧
    m₂.step (2 ^ 40) (.map 0x1000 0x8000 0x4000 flatMemory) = some m₃ ∧
    (m₂.compressedPhysicalPtr 1, m₂.continuityTracker 1, m₃.compressedPhysicalPtr 1) = (0, 4, 9) ∧
    m₃.AccessExact := by
  have hbase : HostBase (2 ^ 40) := by
    unfold HostBase; decide
  have hrun : ((initial.step (2 ^ 40) (.map 0x1000 0 0x4000 flatMemory)).bind fun m₁ =>
      (m₁.step (2 ^ 40) (.unmap 0x1000 0x4000)).bind fun m₂ =>
        (m₂.step (2 ^ 40) (.map 0x1000 0x8000 0x4000 flatMemory)).map fun m₃ =>
          (m₂.compressedPhysicalPtr 1, m₂.continuityTracker 1, m₃.compressedPhysicalPtr 1)) =
      some (0, 4, 9) := by decide +kernel
  obtain ⟨m₁, h₁, hrun⟩ := Option.bind_eq_some_iff.mp hrun
  obtain ⟨m₂, h₂, hrun⟩ := Option.bind_eq_some_iff.mp hrun
  obtain ⟨m₃, h₃, hvalues⟩ := Option.map_eq_some_iff.mp hrun
  have hop₁ : Allowed [] (.map 0x1000 0 0x4000 flatMemory) :=
    ⟨by decide, List.forall_mem_nil _, flatMemory_lt⟩
  have hop₂ : Allowed (liveAfter [] (.map 0x1000 0 0x4000 flatMemory)) (.unmap 0x1000 0x4000) :=
    List.mem_cons_self
  have hop₃ : Allowed (liveAfter (liveAfter [] (.map 0x1000 0 0x4000 flatMemory))
      (.unmap 0x1000 0x4000)) (.map 0x1000 0x8000 0x4000 flatMemory) :=
    ⟨by decide, List.forall_mem_nil _, flatMemory_lt⟩
  -- outside of the range a run is one page long, now and behind the first two calls
  have htracker₁ : ∀ d, ¬ Covers (1, 4) d → m₁.continuityTracker d = 1 := by
    rw [step] at h₁
    obtain ⟨d, -, rfl⟩ := Option.map_eq_some_iff.mp h₁
    have hn : DeviceMemoryManager.numPages 0x4000 ≤ devicePages := by decide
    exact (trackContinuity_spec 0x1000 0 _ hbase flatMemory_lt hn).2
  have htracker₂ : m₂.continuityTracker = m₁.continuityTracker := by
    rw [step] at h₂
    obtain ⟨d, -, rfl⟩ := Option.map_eq_some_iff.mp h₂; rfl
  have hclear : ∀ m : TrackedMemoryManager, (∀ d, ¬ Covers (1, 4) d → m.continuityTracker d = 1) →
      ∀ virtualAddress, m.Clear (.map 0x1000 virtualAddress 0x4000 flatMemory) := by
    intro m htracker virtualAddress d _ hcov j hj i hi hdj
    rw [htracker d hcov] at hj
    exact absurd (show Covers _ d by unfold Covers; dsimp only; omega) hcov
  have hclear₁ := hclear initial (fun _ _ => rfl) 0
  have hclear₃ := hclear m₂ (fun d hd => htracker₂ ▸ htracker₁ d hd) 0x8000
  exact ⟨m₁, m₂, m₃, h₁, h₂, h₃, hvalues, (blockAccess_exact hbase).1 m₃ _
    (.step (.step (.step .initial hop₁ hclear₁ h₁) hop₂ trivial h₂) hop₃ hclear₃ h₃)⟩

/-- Four pages are mapped and unmapped, then the third of them is mapped alone: a read from the first
    page on takes all of them for unmapped. -/
theorem not_blockAccess_exact : ¬ ∀ physicalBase, HostBase physicalBase → ∀ m live,
    Run physicalBase (fun _ _ => True) m live → m.AccessExact := by
  intro hall
  have hrun : ((initial.step (2 ^ 40) (.map 0x1000 0 0x4000 flatMemory)).bind fun m =>
      (m.step (2 ^ 40) (.unmap 0x1000 0x4000)).bind fun m =>
        (m.step (2 ^ 40) (.map 0x3000 0x8000 0x1000 flatMemory)).map fun m =>
          (m.compressedPhysicalPtr 1, m.continuityTracker 1, m.compressedPhysicalPtr 3)) =
      some (0, 4, 9) := by decide +kernel
  obtain ⟨m₁, h₁, hrun⟩ := Option.bind_eq_some_iff.mp hrun
  obtain ⟨m₂, h₂, hrun⟩ := Option.bind_eq_some_iff.mp hrun
  obtain ⟨m₃, h₃, hvalues⟩ := Option.map_eq_some_iff.mp hrun
  obtain ⟨hunmapped, hvalues⟩ := Prod.mk.inj hvalues
  obtain ⟨hlength, hmapped⟩ := Prod.mk.inj hvalues
  have hop₁ : Allowed [] (.map 0x1000 0 0x4000 flatMemory) :=
    ⟨by decide, List.forall_mem_nil _, flatMemory_lt⟩
  have hop₂ : Allowed (liveAfter [] (.map 0x1000 0 0x4000 flatMemory)) (.unmap 0x1000 0x4000) :=
    List.mem_cons_self
  have hlive : liveAfter (liveAfter [] (.map 0x1000 0 0x4000 flatMemory))
      (.unmap 0x1000 0x4000) = [] := by decide
  have hop₃ : Allowed (liveAfter (liveAfter [] (.map 0x1000 0 0x4000 flatMemory))
      (.unmap 0x1000 0x4000)) (.map 0x3000 0x8000 0x1000 flatMemory) := by
    rw [hlive]; exact ⟨by decide, List.forall_mem_nil _, flatMemory_lt⟩
  have hbase : HostBase (2 ^ 40) := by
    unfold HostBase; decide
  have hr : Run (2 ^ 40) (fun _ _ => True) m₃ _ :=
    .step (.step (.step .initial hop₁ trivial h₁) hop₂ trivial h₂) hop₃ trivial h₃
  have hstale := (hr.inv hbase).accessExact_iff.mp (hall _ hbase _ _ hr)
  have hzero := hstale 1 hunmapped 2 (by rw [hlength]; decide)
  rw [hmapped] at hzero
  cases hzero

end TrackedMemoryManager

end Suyu.Core
