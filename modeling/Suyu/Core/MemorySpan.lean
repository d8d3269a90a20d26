import Mathlib
import Suyu.Core.MemoryBlocks

/-
  `Memory::GetSpan` - a pointer to a whole range, if the two ends are in one block.

  1. **Program** - `GetSpan` compares `blocks` of the first page and of the page BEHIND the range: the
     virtual start of the `MapMemoryRegion` call that wrote the entry, and 0 for an unmapped page.

  2. **Specification (`SpanExact`)** - a pointer that is not null has the host's bytes of the whole range
     behind it, as the mapping has them.

  3. **The crux (`Coherent`)** - all entries of one `MapMemoryRegion` are the SAME number, for they are
     differences; so a range is contiguous when its entries are equal.

  4. **When it goes wrong** - the identifiers say nothing of the pages between, and survive on both sides
     of a part that is unmapped or mapped elsewhere; a second mapping with the same start has the
     same identifier, and a mapping at 0 has that of unmapped pages.
-/

namespace Suyu.Core.Memory

variable {backingBase : Pointer} {table : PageTable} {mapping : Mapping} {target : Pointer}

/-! ## The program -/

def getSpan (backingBase : Pointer) (table : PageTable) (srcAddr size : Nat) : Pointer :=
  if table.blocks (srcAddr / 0x1000) = table.blocks ((srcAddr + size) / 0x1000) then
    getPointer backingBase table srcAddr
  else 0

/-! ## The specification -/

/-- The pointer of a span, if there is one, has all its bytes. -/
def SpanExact (backingBase : Pointer) (table : PageTable) (mapping : Mapping) (srcAddr size : Nat) : Prop :=
  getSpan backingBase table srcAddr size ≠ 0 → ∀ i < size, ∃ target,
    mapping ((srcAddr + i) / 0x1000) = some target ∧
    deviceGetPointer backingBase target + BitVec.ofNat 64 ((srcAddr + i) % 0x1000) =
      getSpan backingBase table srcAddr size + BitVec.ofNat 64 i

/-- The entry of a mapped page. -/
def entryOf (backingBase target : Pointer) (page : Nat) : Pointer :=
  PageInfo.store (deviceGetPointer backingBase target - pageAddress page) .memory

/-- Only `MapMemoryRegion` and `UnmapRegion`. -/
def Action.IsMapping : Action → Prop
  | .mapMemoryRegion _ _ _ => True
  | .unmapRegion _ _ => True
  | _ => False

/-- The step leaves no two pages with one identifier and anything else between them. -/
def Joins (backingBase : Pointer) (table : PageTable) : Action → Prop
  | .mapMemoryRegion base size target => 0 < size / 0x1000 →
      -- no identifier of unmapped pages
      0 < base / 0x1000 ∧
      -- an earlier mapping is cut only by one that goes on as it does
      (∀ p q, p < base / 0x1000 → base / 0x1000 + size / 0x1000 ≤ q → table.blocks p = table.blocks q →
        table.blocks p ≠ 0 → table.pointers p = entryOf backingBase target (base / 0x1000)) ∧
      -- what is left of an earlier mapping with the same start goes on as this one does
      ∀ q, (q < base / 0x1000 ∨ base / 0x1000 + size / 0x1000 ≤ q) →
        table.blocks q = base / 0x1000 * 0x1000 →
        ∀ r, (q ≤ r ∧ r < base / 0x1000 ∨ base / 0x1000 + size / 0x1000 ≤ r ∧ r ≤ q) →
          table.pointers r = entryOf backingBase target (base / 0x1000)
  | .unmapRegion base size => 0 < size / 0x1000 →
      ∀ p q, p < base / 0x1000 → base / 0x1000 + size / 0x1000 ≤ q → table.blocks p = table.blocks q →
        table.blocks p = 0
  | _ => True

/-! ## The loops -/

theorem mapPagesTo_blocks {origBase : Nat} {type : PageType} (count base : Nat) (target : Pointer)
    (table : PageTable) (q : Nat) :
    (mapPagesTo backingBase origBase type count base target table).blocks q =
      if base ≤ q ∧ q < base + count then origBase * 0x1000 else table.blocks q := by
  induction count generalizing base target table with
  | zero => rw [if_neg (by omega)]; rfl
  | succ count ih =>
    rw [mapPagesTo, ih]
    apply ite_update_succ fun _ => origBase * 0x1000
    · exact fun _ => rfl
    · rfl

theorem clearPages_blocks {type : PageType} (count base : Nat) (table : PageTable) (q : Nat) :
    (clearPages type count base table).blocks q =
      if base ≤ q ∧ q < base + count then 0 else table.blocks q := by
  induction count generalizing base table with
  | zero => rw [if_neg (by omega)]; rfl
  | succ count ih =>
    rw [clearPages, ih]
    apply ite_update_succ fun _ => 0
    · exact fun _ => rfl
    · rfl

theorem entryOf_add (page i : Nat) :
    entryOf backingBase (target + BitVec.ofNat 64 (i * 0x1000)) (page + i) =
      entryOf backingBase target page := by
  have hsum : pageAddress (page + i) = pageAddress page + BitVec.ofNat 64 (i * 0x1000) := by
    rw [pageAddress, Nat.add_mul, BitVec.ofNat_add]; rfl
  unfold entryOf deviceGetPointer
  rw [hsum]
  congr 1
  ring

/-- A range of pages is written. -/
def overwrite {α : Type} (lo hi : Nat) (x : α) (f : Nat → α) (q : Nat) : α := if lo ≤ q ∧ q < hi then x else f q

theorem overwrite_in {α : Type} {lo hi q : Nat} {x : α} {f : Nat → α} (hlo : lo ≤ q) (hhi : q < hi) :
    overwrite lo hi x f q = x := if_pos ⟨hlo, hhi⟩

theorem overwrite_out {α : Type} {lo hi q : Nat} {x : α} {f : Nat → α} (h : q < lo ∨ hi ≤ q) :
    overwrite lo hi x f q = f q := if_neg (by omega)

theorem mapMemoryRegion_blocks (hdram : dramBase ≤ target.toNat) (base size : Nat) :
    (mapMemoryRegion backingBase table base size target).blocks =
      overwrite (base / 0x1000) (base / 0x1000 + size / 0x1000) (base / 0x1000 * 0x1000) table.blocks := by
  funext q
  rw [mapMemoryRegion_eq hdram]
  exact mapPagesTo_blocks _ _ _ _ q

theorem unmapRegion_blocks (base size : Nat) : (unmapRegion backingBase table base size).blocks =
    overwrite (base / 0x1000) (base / 0x1000 + size / 0x1000) 0 table.blocks := by
  funext q
  rw [unmapRegion_eq]
  exact clearPages_blocks _ _ _ q

theorem between_overwrite {lo hi d : Nat} {x : Pointer} {ids : Nat → Nat} {entries : Nat → Pointer}
    (h : ∀ p r q, p ≤ r → r ≤ q → ids p = ids q → ids p ≠ 0 → entries r = entries p)
    (hcut : lo < hi → ∀ p q, p < lo → hi ≤ q → ids p = ids q → ids p ≠ 0 → entries p = x)
    (hrest : lo < hi → d ≠ 0 → ∀ q, (q < lo ∨ hi ≤ q) → ids q = d →
      ∀ r, (q ≤ r ∧ r < lo ∨ hi ≤ r ∧ r ≤ q) → entries r = x)
    {p r q : Nat} (hpr : p ≤ r) (hrq : r ≤ q) (hid : overwrite lo hi d ids p = overwrite lo hi d ids q)
    (hne : overwrite lo hi d ids p ≠ 0) : overwrite lo hi x entries r = overwrite lo hi x entries p := by
  have hempty : lo < hi ∨ hi ≤ lo := Nat.lt_or_ge lo hi
  by_cases hp : lo ≤ p ∧ p < hi
  · rw [overwrite_in hp.1 hp.2] at hid hne ⊢
    rcases Nat.lt_or_ge r hi with hr | hr
    · exact overwrite_in (hp.1.trans hpr) hr
    · rw [overwrite_out (Or.inr hr)]
      rw [overwrite_out (Or.inr (hr.trans hrq))] at hid
      exact hrest (by omega) hne q (Or.inr (hr.trans hrq)) hid.symm r (Or.inr ⟨hr, hrq⟩)
  · have hp : p < lo ∨ hi ≤ p := by omega
    rw [overwrite_out hp] at hid hne ⊢
    by_cases hq : lo ≤ q ∧ q < hi
    · rw [overwrite_in hq.1 hq.2] at hid
      have hfirst := hrest (by omega) (hid ▸ hne) p hp hid p (Or.inl ⟨le_rfl, by omega⟩)
      rcases Nat.lt_or_ge r lo with hr | hr
      · rw [overwrite_out (Or.inl hr), hfirst]
        exact hrest (by omega) (hid ▸ hne) p hp hid r (Or.inl ⟨hpr, hr⟩)
      · rw [overwrite_in hr (lt_of_le_of_lt hrq hq.2), hfirst]
    · have hq : q < lo ∨ hi ≤ q := by omega
      rw [overwrite_out hq] at hid
      by_cases hr : lo ≤ r ∧ r < hi
      · -- the range lies between the two pages
        rw [overwrite_in hr.1 hr.2]
        exact (hcut (by omega) p q (by omega) (by omega) hid hne).symm
      · rw [overwrite_out (by omega)]; exact h p r q hpr hrq hid hne

/-! ## The invariant -/

/-- The entries are those of the mapping, and between two pages with one identifier they are equal. -/
structure Coherent (backingBase : Pointer) (table : PageTable) (mapping : Mapping) : Prop where
  entries : ∀ page, table.pointers page = (mapping page).elim 0 fun target => entryOf backingBase target page
  aligned : ∀ page target, mapping page = some target → Aligned (deviceGetPointer backingBase target)
  unmapped : ∀ page, table.blocks page = 0 → table.pointers page = 0
  between : ∀ p r q, p ≤ r → r ≤ q → table.blocks p = table.blocks q → table.blocks p ≠ 0 →
    table.pointers r = table.pointers p

theorem coherent_initial (backingBase : Pointer) (bits : Nat) :
    Coherent backingBase (.initial bits) fun _ => none :=
  ⟨fun _ => rfl, nofun, fun _ _ => rfl, fun _ _ _ _ _ _ h => absurd rfl h⟩

/-- ONE STEP. -/
theorem coherent_step {a : Action} (hbase : Aligned backingBase) (h : Coherent backingBase table mapping)
    (hmapping : a.IsMapping) (ha : a.Valid backingBase table.addressSpaceBits)
    (hjoins : Joins backingBase table a) :
    Coherent backingBase (step backingBase table a) (mapStep mapping a) := by
  cases a with
  | mapMemoryRegion base size target =>
    obtain ⟨-, -, -, htarget, hdram, -⟩ := ha
    have hentry : ∀ q, InRegion base size q →
        entryOf backingBase (target + BitVec.ofNat 64 ((q - base / 0x1000) * 0x1000)) q =
          entryOf backingBase target (base / 0x1000) := fun q hin => by
      have hadd := @entryOf_add backingBase target (base / 0x1000) (q - base / 0x1000)
      rwa [Nat.add_sub_of_le hin.1] at hadd
    have hpointers : (mapMemoryRegion backingBase table base size target).pointers =
        overwrite (base / 0x1000) (base / 0x1000 + size / 0x1000)
          (entryOf backingBase target (base / 0x1000)) table.pointers := by
      funext q
      rw [mapMemoryRegion_eq hdram, (mapPagesTo_entry _ _ _ _ q).1]
      exact if_ctx_congr Iff.rfl (fun hin => hentry q hin) fun _ => rfl
    have hblocks := @mapMemoryRegion_blocks backingBase table target hdram base size
    show Coherent _ (mapMemoryRegion backingBase table base size target) _
    refine ⟨fun q => ?_, fun q t hq => ?_, fun q => ?_, fun p r q => ?_⟩
    · rw [hpointers]
      show _ = Option.elim (if InRegion base size q then _ else mapping q) 0 _
      split
      · next hin => exact (overwrite_in hin.1 hin.2).trans (hentry q hin).symm
      · next hout =>
        have hout : ¬ (_ ∧ _) := hout
        exact (overwrite_out (by omega)).trans (h.entries q)
    · have hq : (if InRegion base size q then
          some (target + BitVec.ofNat 64 ((q - base / 0x1000) * 0x1000)) else mapping q) = some t := hq
      split at hq
      · obtain rfl := Option.some.inj hq
        exact aligned_deviceGetPointer hbase (htarget.add (aligned_pageAddress _))
      · exact h.aligned q t hq
    · rw [hpointers, hblocks, overwrite, overwrite]
      split
      · next hin =>
        intro hzero
        have := (hjoins (by omega)).1
        omega
      · exact h.unmapped q
    · rw [hpointers, hblocks]
      exact fun hpr hrq => between_overwrite h.between (fun hn => (hjoins (by omega)).2.1)
        (fun hn _ => (hjoins (by omega)).2.2) hpr hrq
  | unmapRegion base size =>
    have hpointers : (unmapRegion backingBase table base size).pointers =
        overwrite (base / 0x1000) (base / 0x1000 + size / 0x1000) 0 table.pointers := by
      funext q
      rw [unmapRegion_eq]; exact (clearPages_entry _ _ _ q).1
    have hblocks := @unmapRegion_blocks backingBase table base size
    show Coherent _ (unmapRegion backingBase table base size) _
    refine ⟨fun q => ?_, fun q t hq => ?_, fun q => ?_, fun p r q => ?_⟩
    · rw [hpointers]
      show _ = Option.elim (if InRegion base size q then none else mapping q) 0 _
      split
      · next hin => exact overwrite_in hin.1 hin.2
      · next hout =>
        have hout : ¬ (_ ∧ _) := hout
        exact (overwrite_out (by omega)).trans (h.entries q)
    · have hq : (if InRegion base size q then none else mapping q) = some t := hq
      split at hq
      · cases hq
      · exact h.aligned q t hq
    · rw [hpointers, hblocks, overwrite, overwrite]
      split
      · exact fun _ => rfl
      · exact h.unmapped q
    · rw [hpointers, hblocks]
      exact fun hpr hrq => between_overwrite h.between
        (fun hn p q hp hq hid hne => absurd (hjoins (by omega) p q hp hq hid) hne)
        (fun _ hd => absurd rfl hd) hpr hrq
  | rasterizerMarkRegionCached vaddr size cached => exact hmapping.elim
  | markRegionDebug vaddr size debug => exact hmapping.elim

/-! ## The span -/

/-- **In a coherent table every span is contiguous.** -/
theorem Coherent.spanExact (h : Coherent backingBase table mapping) (hbits : table.addressSpaceBits ≤ 48)
    {srcAddr size : Nat} (hspace : srcAddr + size ≤ 2 ^ table.addressSpaceBits) :
    SpanExact backingBase table mapping srcAddr size := by
  intro hspan i hi
  have hid : table.blocks (srcAddr / 0x1000) = table.blocks ((srcAddr + size) / 0x1000) := by
    by_contra hne
    exact hspan (if_neg hne)
  have hpointer : getSpan backingBase table srcAddr size = getPointer backingBase table srcAddr := if_pos hid
  rw [hpointer] at hspan ⊢
  have hsrc : srcAddr / 0x1000 * 0x1000 + srcAddr % 0x1000 = srcAddr := Nat.div_add_mod' _ _
  have himpl := @getPointerImpl_eq backingBase table (srcAddr / 0x1000) (srcAddr % 0x1000)
    (by omega) (Nat.mod_lt _ (by decide)) hbits
  rw [hsrc] at himpl
  rw [getPointer, himpl] at hspan ⊢
  have hraw := h.entries (srcAddr / 0x1000)
  cases hmap : mapping (srcAddr / 0x1000) with
  | none =>
    have hzero : table.pointers (srcAddr / 0x1000) = 0 := hraw.trans (by rw [hmap]; rfl)
    simp [hzero, PageInfo.extractPointer, PageInfo.extractType] at hspan
  | some target =>
    rw [hmap] at hraw
    have hsub := (h.aligned _ _ hmap).sub (aligned_pageAddress (srcAddr / 0x1000))
    have hraw : table.pointers (srcAddr / 0x1000) = PageInfo.store _ .memory := hraw
    have hsome : table.pointers (srcAddr / 0x1000) ≠ 0 := fun h0 => by
      have htype := extractType_store hsub .memory
      rw [← hraw, h0] at htype; cases htype
    -- the page of the byte has the same entry
    have hequal := h.between _ ((srcAddr + i) / 0x1000) _ (Nat.div_le_div_right (by omega))
      (Nat.div_le_div_right (by omega)) hid fun h0 => hsome (h.unmapped _ h0)
    have hentry := h.entries ((srcAddr + i) / 0x1000)
    cases hmap' : mapping ((srcAddr + i) / 0x1000) with
    | none =>
      rw [hmap', hequal] at hentry; exact absurd hentry hsome
    | some target' =>
      rw [hmap', hequal, hraw] at hentry
      have hsub' := (h.aligned _ _ hmap').sub (aligned_pageAddress ((srcAddr + i) / 0x1000))
      have hdiff := congrArg PageInfo.extractPointer hentry
      have hdiff : _ = PageInfo.extractPointer (PageInfo.store _ .memory) := hdiff
      rw [extractPointer_store hsub, extractPointer_store hsub'] at hdiff
      refine ⟨target', rfl, ?_⟩
      rw [hraw, extractPointer_store hsub, extractType_store hsub] at hspan ⊢
      split at hspan
      · next hne =>
        rw [if_pos hne, hdiff, ← pointer_add backingBase target' ((srcAddr + i) / 0x1000), Nat.div_add_mod',
          BitVec.ofNat_add]
        exact (BitVec.add_assoc _ _ _).symm
      · exact absurd rfl hspan

/-- **`GetSpan` is exact in every run** whose steps leave nothing else between equal identifiers.  The
    page behind the range has an entry, for the range ends BEFORE the end of the address space. -/
theorem getSpan_exact_of_run {bits : Nat} {actions : List Action} (hbase : Aligned backingBase)
    (hbits : bits ≤ 48) (hvalid : ∀ a ∈ actions, a.IsMapping ∧ a.Valid backingBase bits)
    (hjoins : ∀ before a after, actions = before ++ a :: after →
      Joins backingBase (run backingBase (.initial bits) before) a) {srcAddr size : Nat}
    (hspace : srcAddr + size < 2 ^ bits) :
    SpanExact backingBase (run backingBase (.initial bits) actions) (mappingAfter actions) srcAddr size := by
  have hcoherent : Coherent backingBase (run backingBase (.initial bits) actions) (mappingAfter actions) := by
    induction actions using List.reverseRecOn with
    | nil => exact coherent_initial backingBase bits
    | append_singleton actions a ih =>
      have hvalid' : ∀ b ∈ actions, b.IsMapping ∧ b.Valid backingBase bits := fun b hb =>
        hvalid b (List.mem_append_left _ hb)
      have hcoherent := ih hvalid' fun before b after heq => by
        refine hjoins before b (after ++ [a]) ?_
        rw [heq, List.append_assoc]; rfl
      have hspace := run_addressSpaceBits fun b hb => (hvalid' b hb).2
      have ha := hvalid a (by simp)
      rw [run_concat, mappingAfter_concat]
      exact coherent_step hbase hcoherent ha.1 (hspace.symm ▸ ha.2) (hjoins actions a [] rfl)
  have hspace' := run_addressSpaceBits fun b hb => (hvalid b hb).2
  exact hcoherent.spanExact (hspace'.symm ▸ hbits) (hspace'.symm ▸ Nat.le_of_lt hspace)

/-! ## A hole -/

/-- Three pages are mapped. -/
def threePages : List Action := [.mapMemoryRegion 0x10000 0x3000 0x80000000]

theorem threePages_valid : ∀ a ∈ threePages, a.IsMapping ∧ a.Valid someBase 39 := by
  intro a ha
  obtain rfl := List.mem_singleton.mp ha
  refine ⟨trivial, by decide, by decide, by decide, rfl, by decide, fun i hi => ?_⟩
  have hi : i < 3 := hi
  interval_cases i <;> decide

/-- Then two more, somewhere else, and the last of the three is unmapped. -/
def mappedAndCut : List Action :=
  [.mapMemoryRegion 0x10000 0x3000 0x80000000, .mapMemoryRegion 0x20000 0x2000 0x80010000,
    .unmapRegion 0x12000 0x1000]

theorem mappedAndCut_valid : ∀ a ∈ mappedAndCut, a.IsMapping ∧ a.Valid someBase 39 := by
  intro a ha
  obtain rfl | ha := List.mem_cons.mp ha
  · exact threePages_valid _ (List.mem_singleton_self _)
  obtain rfl | ha := List.mem_cons.mp ha
  · refine ⟨trivial, by decide, by decide, by decide, rfl, by decide, fun i hi => ?_⟩
    have hi : i < 2 := hi
    interval_cases i <;> decide
  · obtain rfl := List.mem_singleton.mp ha; exact ⟨trivial, by decide, by decide, by decide⟩

/-- A run joins if its first step does and the rest does behind it. -/
theorem joins_cons {a : Action} {actions : List Action} (ha : Joins backingBase table a)
    (hrest : ∀ before b after, actions = before ++ b :: after →
      Joins backingBase (run backingBase (step backingBase table a) before) b) :
    ∀ before b after, a :: actions = before ++ b :: after →
      Joins backingBase (run backingBase table before) b := by
  intro before b after heq
  cases before with
  | nil =>
    obtain ⟨rfl, -⟩ := List.cons.inj heq; exact ha
  | cons c before =>
    obtain ⟨rfl, htail⟩ := List.cons.inj heq; exact hrest before b after htail

/-- No identifier stands on both sides of a range that is written. -/
theorem mappedAndCut_joins : ∀ before a after, mappedAndCut = before ++ a :: after →
    Joins someBase (run someBase (.initial 39) before) a := by
  have hfirst : ∀ q, (step someBase (.initial 39) (.mapMemoryRegion 0x10000 0x3000 0x80000000)).blocks q =
      if 0x10 ≤ q ∧ q < 0x13 then 0x10000 else 0 := fun q =>
    congrFun (@mapMemoryRegion_blocks someBase _ 0x80000000 (by decide) 0x10000 0x3000) q
  refine joins_cons ?_ (joins_cons ?_ (joins_cons ?_ fun before a after h => by simp at h))
  · refine fun _ => ⟨by decide, fun _ _ _ _ _ h => absurd rfl h, fun q _ hid => ?_⟩
    exact absurd hid (by show ¬ (0 : Nat) = _; decide)
  · refine fun _ => ⟨by decide, fun p q _ hq hid hne => ?_, fun q _ hid => ?_⟩
    · change 0x22 ≤ q at hq
      rw [hid, hfirst, if_neg (by omega)] at hne
      exact absurd rfl hne
    · rw [hfirst] at hid
      change _ = 0x20000 at hid
      split at hid <;> cases hid
  · intro _ p q hp hq
    change p < 0x12 at hp
    change 0x13 ≤ q at hq
    have hsecond := @mapMemoryRegion_blocks someBase (step someBase (.initial 39)
      (.mapMemoryRegion 0x10000 0x3000 0x80000000)) 0x80010000 (by decide) 0x20000 0x2000
    change (mapMemoryRegion _ _ _ _ _).blocks p = (mapMemoryRegion _ _ _ _ _).blocks q →
      (mapMemoryRegion _ _ _ _ _).blocks p = 0
    rw [hsecond, overwrite, overwrite, hfirst, hfirst]
    intro hid
    split_ifs at hid ⊢ <;> omega

/-- The two pages that are left have a span, whose page behind is the second one. -/
theorem getSpan_exact_of_run_cut :
    getSpan someBase (run someBase (.initial 39) mappedAndCut) 0x10000 0x1800 ≠ 0 ∧
    SpanExact someBase (run someBase (.initial 39) mappedAndCut) (mappingAfter mappedAndCut) 0x10000
      0x1800 :=
  ⟨by decide +kernel, getSpan_exact_of_run (show Aligned someBase from rfl) (by decide) mappedAndCut_valid
    mappedAndCut_joins (by decide)⟩

/-- The page in the middle is unmapped again, and the span of all three still has a pointer. -/
theorem not_getSpan_exact : ¬ ∀ actions : List Action, (∀ a ∈ actions, a.IsMapping ∧ a.Valid someBase 39) →
    SpanExact someBase (run someBase (.initial 39) actions) (mappingAfter actions) 0x10000 0x2800 := by
  intro h
  have hvalid : ∀ a ∈ threePages ++ [.unmapRegion 0x11000 0x1000], a.IsMapping ∧ a.Valid someBase 39 := by
    intro a ha
    rcases List.mem_append.mp ha with ha | ha
    · exact threePages_valid a ha
    · obtain rfl := List.mem_singleton.mp ha; exact ⟨trivial, by decide, by decide, by decide⟩
  obtain ⟨target, hnone, -⟩ := h _ hvalid (by decide +kernel) 0x1000 (by decide)
  have hhole : mappingAfter (threePages ++ [.unmapRegion 0x11000 0x1000]) 0x11 = none := by decide +kernel
  exact absurd (hhole.symm.trans hnone) (Option.some_ne_none target).symm

end Suyu.Core.Memory
