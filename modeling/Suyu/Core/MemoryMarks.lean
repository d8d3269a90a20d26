import Mathlib
import Suyu.Core.Memory

/-
  What the marks of pages leave alone: the translation of addresses.

  1. **Abstract model (`Mapping`)** - a page is mapped to a physical address, or not; only the maps and
     unmaps change that.

  2. **The crux (`GoodEntry`)** - an entry of the page table against the mapping of its page: the host
     pointer stands in the entry, or the page is marked and the difference in `backing_addr` is not 0.

  3. **When it goes wrong (`Keeps`)** - a difference of 0 means "no backing", but it is the difference
     of a page that is mapped to ITS OWN address; and the fast path of `GetPointerImpl` does not see a
     pointer that is equal to the virtual address.
-/

namespace Suyu.Core.Memory

open Function (update update_eq_self update_self update_of_ne)

variable {backingBase raw backing target pointer : Pointer} {table : PageTable} {page q : Nat}

/-! ## The mapping -/

/-- The physical address of each page, if it is mapped. -/
abbrev Mapping := Nat → Option Pointer

/-- The pages of a region. -/
def InRegion (base size page : Nat) : Prop :=
  base / 0x1000 ≤ page ∧ page < base / 0x1000 + size / 0x1000

instance (base size page : Nat) : Decidable (InRegion base size page) :=
  inferInstanceAs (Decidable (_ ∧ _))

/-- What the last map or unmap of a page says. -/
def mapStep (mapping : Mapping) : Action → Mapping
  | .mapMemoryRegion base size target => fun page =>
      if InRegion base size page then
        some (target + BitVec.ofNat 64 ((page - base / 0x1000) * 0x1000))
      else mapping page
  | .unmapRegion base size => fun page => if InRegion base size page then none else mapping page
  | .rasterizerMarkRegionCached _ _ _ => mapping
  | .markRegionDebug _ _ _ => mapping

def mappingAfter (actions : List Action) : Mapping := actions.foldl mapStep fun _ => none

/-! ## Entries -/

def Aligned (pointer : Pointer) : Prop := pointer.toNat % 0x1000 = 0

theorem aligned_zero : Aligned 0 := rfl

theorem aligned_pageAddress (page : Nat) : Aligned (pageAddress page) := by
  unfold Aligned pageAddress
  rw [BitVec.toNat_ofNat]
  omega

theorem Aligned.add {a b : Pointer} (ha : Aligned a) (hb : Aligned b) : Aligned (a + b) := by
  unfold Aligned at *
  rw [BitVec.toNat_add]
  omega

theorem Aligned.sub {a b : Pointer} (ha : Aligned a) (hb : Aligned b) : Aligned (a - b) := by
  unfold Aligned at *
  rw [BitVec.toNat_sub]
  omega

theorem aligned_deviceGetPointer (hbase : Aligned backingBase) (ht : Aligned target) :
    Aligned (deviceGetPointer backingBase target) :=
  hbase.add (ht.sub rfl)

theorem tag_lt (type : PageType) : type.tag.toNat < 4 := by
  cases type <;> decide

theorem Aligned.getLsbD_low (hp : Aligned pointer) {i : Nat} (hi : i < 2) :
    pointer.getLsbD i = false := by
  unfold Aligned at hp
  rw [← BitVec.testBit_toNat]
  interval_cases i
  · rw [Nat.testBit_zero]
    simp only [decide_eq_false_iff_not]
    omega
  · rw [Nat.testBit_succ, Nat.testBit_zero]
    simp only [decide_eq_false_iff_not]; omega

theorem getLsbD_high {x : Pointer} (hx : x.toNat < 4) {i : Nat} (hi : 2 ≤ i) :
    x.getLsbD i = false := by
  rw [← BitVec.testBit_toNat]
  exact Nat.testBit_lt_two_pow (hx.trans_le (Nat.pow_le_pow_right (show 0 < 2 by decide) hi))

@[simp] theorem extractPointer_store (hp : Aligned pointer) (type : PageType) :
    PageInfo.extractPointer (PageInfo.store pointer type) = pointer := by
  refine BitVec.eq_of_getLsbD_eq fun i hi => ?_
  simp only [PageInfo.extractPointer, PageInfo.store, BitVec.getLsbD_and, BitVec.getLsbD_or,
    BitVec.getLsbD_shiftLeft, BitVec.getLsbD_allOnes, hi]
  rcases Nat.lt_or_ge i 2 with hlow | hhigh
  · simp [hp.getLsbD_low hlow, hlow]
  · simp [getLsbD_high (tag_lt type) hhigh]; omega

@[simp] theorem extractType_store (hp : Aligned pointer) (type : PageType) :
    PageInfo.extractType (PageInfo.store pointer type) = type := by
  have hand : PageInfo.store pointer type &&& 3 = type.tag := by
    refine BitVec.eq_of_getLsbD_eq fun i hi => ?_
    have hthree : (3 : Pointer).getLsbD i = decide (i < 2) := by
      rcases Nat.lt_or_ge i 2 with hlow | hhigh
      · interval_cases i <;> rfl
      · rw [decide_eq_false (by omega)]; exact getLsbD_high (by decide) hhigh
    rw [BitVec.getLsbD_and, hthree, PageInfo.store, BitVec.getLsbD_or]
    rcases Nat.lt_or_ge i 2 with hlow | hhigh
    · simp [hp.getLsbD_low hlow, hlow]
    · simp [getLsbD_high (tag_lt type) hhigh, Nat.not_lt.mpr hhigh]
  unfold PageInfo.extractType
  rw [hand]
  cases type <;> rfl

/-- The host's page of a physical address: not null, and not the virtual address itself. -/
structure Sound (backingBase : Pointer) (page : Nat) (target : Pointer) : Prop where
  aligned : Aligned (deviceGetPointer backingBase target)
  nonnull : deviceGetPointer backingBase target ≠ 0
  apart : deviceGetPointer backingBase target ≠ pageAddress page

/-- The entry of a page, with its `backing_addr`, against its mapping. -/
inductive GoodEntry (backingBase : Pointer) (page : Nat) : Pointer → Pointer → Option Pointer → Prop
  | unmapped {backing : Pointer} : GoodEntry backingBase page 0 backing none
  | memory {target : Pointer} (hs : Sound backingBase page target) :
      GoodEntry backingBase page
        (PageInfo.store (deviceGetPointer backingBase target - pageAddress page) .memory)
        (target - pageAddress page) (some target)
  | marked {target : Pointer} {type : PageType} (hs : Sound backingBase page target)
      (hne : target ≠ pageAddress page)
      (htype : type = .debugMemory ∨ type = .rasterizerCachedMemory) :
      GoodEntry backingBase page (PageInfo.store 0 type) (target - pageAddress page) (some target)

/-- All entries. -/
def Good (backingBase : Pointer) (table : PageTable) (mapping : Mapping) : Prop :=
  ∀ page, GoodEntry backingBase page (table.pointers page) (table.backingAddr page) (mapping page)

theorem Sound.aligned_sub (hs : Sound backingBase page target) :
    Aligned (deviceGetPointer backingBase target - pageAddress page) :=
  hs.aligned.sub (aligned_pageAddress page)

theorem Sound.sub_ne_zero (hs : Sound backingBase page target) :
    deviceGetPointer backingBase target - pageAddress page ≠ 0 :=
  fun heq => hs.apart (sub_eq_zero.mp heq)

theorem Sound.add_ne_zero (hs : Sound backingBase page target) {offset : Nat}
    (hoffset : offset < 0x1000) :
    deviceGetPointer backingBase target + BitVec.ofNat 64 offset ≠ 0 := by
  intro hzero
  have haligned := hs.aligned
  unfold Aligned at haligned
  have hlt := (deviceGetPointer backingBase target).isLt
  have hsum := congrArg BitVec.toNat hzero
  rw [BitVec.toNat_add, BitVec.toNat_ofNat] at hsum
  have hne : (deviceGetPointer backingBase target).toNat ≠ 0 := fun h =>
    hs.nonnull (BitVec.eq_of_toNat_eq h)
  have hzero' : (0 : Pointer).toNat = 0 := rfl
  rw [hzero'] at hsum
  omega

theorem ofNat_page_add (page offset : Nat) :
    BitVec.ofNat 64 (page * 0x1000 + offset) = pageAddress page + BitVec.ofNat 64 offset :=
  BitVec.ofNat_add _ _

theorem pointer_add (backingBase target : Pointer) (page offset : Nat) :
    deviceGetPointer backingBase target - pageAddress page +
        BitVec.ofNat 64 (page * 0x1000 + offset) =
      deviceGetPointer backingBase target + BitVec.ofNat 64 offset := by
  rw [ofNat_page_add]; ring

theorem backing_add (hne : target ≠ pageAddress page) (offset : Nat)
    (hbacking : table.backingAddr page = target - pageAddress page) (hoffset : offset < 0x1000) :
    getPointerFromBacking backingBase table (page * 0x1000 + offset) =
      deviceGetPointer backingBase target + BitVec.ofNat 64 offset := by
  have hpage : (page * 0x1000 + offset) / 0x1000 = page := by omega
  unfold getPointerFromBacking
  rw [hpage, hbacking, if_neg (sub_ne_zero.mpr hne), ofNat_page_add]
  unfold deviceGetPointer
  ring

/-! ## The loops -/

/-- A loop over pages that writes the first one and goes on behind it has written them all. -/
theorem ite_update_succ {α : Type} {f x' : Nat → α} {y : α} (x : Nat → α) (base q : Nat) {count : Nat}
    (hx : base < q → x' q = x q) (hy : y = x base) :
    (if base + 1 ≤ q ∧ q < base + 1 + count then x' q else update f base y q) =
      if base ≤ q ∧ q < base + (count + 1) then x q else f q := by
  rcases eq_or_ne q base with rfl | hne
  · rw [if_neg (by omega), if_pos (by omega), update_self, hy]
  · have hiff : (base + 1 ≤ q ∧ q < base + 1 + count) ↔ (base ≤ q ∧ q < base + (count + 1)) := by
      omega
    rw [update_of_ne hne]
    exact if_ctx_congr hiff (fun hin => hx (by omega)) fun _ => rfl

theorem mapPagesTo_entry {origBase : Nat} {type : PageType} (count base : Nat) (target : Pointer)
    (table : PageTable) (q : Nat) :
    (mapPagesTo backingBase origBase type count base target table).pointers q =
        (if base ≤ q ∧ q < base + count then
          PageInfo.store (deviceGetPointer backingBase
            (target + BitVec.ofNat 64 ((q - base) * 0x1000)) - pageAddress q) type
        else table.pointers q) ∧
      (mapPagesTo backingBase origBase type count base target table).backingAddr q =
        (if base ≤ q ∧ q < base + count then
          target + BitVec.ofNat 64 ((q - base) * 0x1000) - pageAddress q
        else table.backingAddr q) ∧
      (mapPagesTo backingBase origBase type count base target table).addressSpaceBits =
        table.addressSpaceBits := by
  induction count generalizing base target table with
  | zero =>
    have hout : ¬ (base ≤ q ∧ q < base + 0) := by omega
    rw [if_neg hout, if_neg hout]; exact ⟨rfl, rfl, rfl⟩
  | succ count ih =>
    obtain ⟨hpointers, hbacking, hbits⟩ :=
      ih (base + 1) (target + 0x1000) (mapPage backingBase table origBase base target type)
    rw [mapPagesTo]
    rw [hpointers, hbacking, hbits]
    have hnext : base < q → target + 0x1000 + BitVec.ofNat 64 ((q - (base + 1)) * 0x1000) =
        target + BitVec.ofNat 64 ((q - base) * 0x1000) := by
      intro hq
      rw [show (q - base) * 0x1000 = 0x1000 + (q - (base + 1)) * 0x1000 by omega, BitVec.ofNat_add,
        ← BitVec.add_assoc]
      rfl
    have hfirst : target + BitVec.ofNat 64 ((base - base) * 0x1000) = target := by
      rw [Nat.sub_self, Nat.zero_mul]; exact BitVec.add_zero target
    refine ⟨?_, ?_, rfl⟩
    · apply ite_update_succ (fun q => PageInfo.store (deviceGetPointer backingBase
        (target + BitVec.ofNat 64 ((q - base) * 0x1000)) - pageAddress q) type)
      · intro hq
        rw [hnext hq]
      · rw [hfirst]
    · apply ite_update_succ fun q => target + BitVec.ofNat 64 ((q - base) * 0x1000) - pageAddress q
      · intro hq
        rw [hnext hq]
      · rw [hfirst]

theorem clearPages_entry {type : PageType} (count base : Nat) (table : PageTable) (q : Nat) :
    (clearPages type count base table).pointers q =
        (if base ≤ q ∧ q < base + count then PageInfo.store 0 type else table.pointers q) ∧
      (clearPages type count base table).backingAddr q =
        (if base ≤ q ∧ q < base + count then 0 else table.backingAddr q) ∧
      (clearPages type count base table).addressSpaceBits = table.addressSpaceBits := by
  induction count generalizing base table with
  | zero =>
    have hout : ¬ (base ≤ q ∧ q < base + 0) := by omega
    rw [if_neg hout, if_neg hout]; exact ⟨rfl, rfl, rfl⟩
  | succ count ih =>
    obtain ⟨hpointers, hbacking, hbits⟩ := ih (base + 1) (clearPage table base type)
    rw [clearPages]
    rw [hpointers, hbacking, hbits]
    refine ⟨?_, ?_, rfl⟩
    · apply ite_update_succ fun _ => PageInfo.store 0 type
      · exact fun _ => rfl
      · rfl
    · apply ite_update_succ fun _ => 0
      · exact fun _ => rfl
      · rfl

/-- A mark rewrites the entry of its page, from the entry and its `backing_addr`. -/
structure MarksBy (markPage : PageTable → Nat → PageTable)
    (entry : (page : Nat) → (backing raw : Pointer) → Pointer) : Prop where
  eq : ∀ table vaddr, markPage table vaddr = setPointer table (vaddr / 0x1000)
    (entry (vaddr / 0x1000) (table.backingAddr (vaddr / 0x1000)) (table.pointers (vaddr / 0x1000)))

section Loop

variable {markPage : PageTable → Nat → PageTable} {entry : Nat → Pointer → Pointer → Pointer}

theorem MarksBy.markPages_entry (h : MarksBy markPage entry) (count vaddr : Nat) (table : PageTable)
    (q : Nat) :
    (markPages markPage count vaddr table).pointers q =
        (if vaddr / 0x1000 ≤ q ∧ q < vaddr / 0x1000 + count then
          entry q (table.backingAddr q) (table.pointers q)
        else table.pointers q) ∧
      (markPages markPage count vaddr table).backingAddr = table.backingAddr ∧
      (markPages markPage count vaddr table).addressSpaceBits = table.addressSpaceBits := by
  induction count generalizing vaddr table with
  | zero =>
    have hout : ¬ (vaddr / 0x1000 ≤ q ∧ q < vaddr / 0x1000 + 0) := by omega
    rw [if_neg hout]; exact ⟨rfl, rfl, rfl⟩
  | succ count ih =>
    obtain ⟨hpointers, hbacking, hbits⟩ := ih (vaddr + 0x1000) (markPage table vaddr)
    have hnext : (vaddr + 0x1000) / 0x1000 = vaddr / 0x1000 + 1 := by omega
    rw [hnext] at hpointers
    rw [markPages]
    rw [hpointers, hbacking, hbits, h.eq]
    refine ⟨?_, rfl, rfl⟩
    show (if _ then entry q (table.backingAddr q) (update table.pointers _ _ q)
      else update table.pointers _ _ q) = _
    apply ite_update_succ fun q => entry q (table.backingAddr q) (table.pointers q)
    · intro hq
      rw [update_of_ne hq.ne']
    · rfl

/-- The pages a mark goes over. -/
def Touches (addressSpaceBits vaddr size page : Nat) : Prop :=
  vaddr ≠ 0 ∧ addressSpaceContains (.initial addressSpaceBits) vaddr size = true ∧
    vaddr / 0x1000 ≤ page ∧ page < vaddr / 0x1000 + numPages vaddr size

instance (addressSpaceBits vaddr size page : Nat) :
    Decidable (Touches addressSpaceBits vaddr size page) :=
  inferInstanceAs (Decidable (_ ∧ _))

theorem MarksBy.markRegion_entry (h : MarksBy markPage entry) (table : PageTable)
    (vaddr size q : Nat) :
    (markRegion markPage table vaddr size).pointers q =
        (if Touches table.addressSpaceBits vaddr size q then
          entry q (table.backingAddr q) (table.pointers q)
        else table.pointers q) ∧
      (markRegion markPage table vaddr size).backingAddr = table.backingAddr ∧
      (markRegion markPage table vaddr size).addressSpaceBits = table.addressSpaceBits := by
  have hcontains : addressSpaceContains table vaddr size =
      addressSpaceContains (.initial table.addressSpaceBits) vaddr size := rfl
  unfold markRegion
  split
  next hout =>
    have hnot : ¬ Touches table.addressSpaceBits vaddr size q := by
      rintro ⟨hne, hin, -⟩
      rw [hcontains, hin] at hout; simp [hne] at hout
    rw [if_neg hnot]; exact ⟨rfl, rfl, rfl⟩
  next hin =>
    obtain ⟨hpointers, hbacking, hbits⟩ := h.markPages_entry (numPages vaddr size) vaddr table q
    refine ⟨?_, hbacking, hbits⟩
    rw [hpointers]
    refine if_congr ?_ rfl rfl
    rw [hcontains] at hin
    simp only [Bool.or_eq_true, decide_eq_true_eq, Bool.not_eq_true', not_or,
      Bool.not_eq_false] at hin
    simp [Touches, hin]

end Loop

/-! ## The entries of the marks -/

/-- The pointer to the start of a page from its `backing_addr`. -/
def backedPage (backingBase : Pointer) (page : Nat) (backing : Pointer) : Pointer :=
  if backing = 0 then 0 else deviceGetPointer backingBase (backing + pageAddress page)

/-- What `MarkRegionDebug` makes of an entry. -/
def debugEntry (backingBase : Pointer) (debug : Bool) (page : Nat) (backing raw : Pointer) : Pointer :=
  match debug, PageInfo.extractType raw with
  | true, .memory => PageInfo.store 0 .debugMemory
  | false, .debugMemory =>
      PageInfo.store (backedPage backingBase page backing - pageAddress page) .memory
  | _, _ => raw

/-- What `RasterizerMarkRegionCached` makes of an entry. -/
def cachedEntry (backingBase : Pointer) (cached : Bool) (page : Nat) (backing raw : Pointer) : Pointer :=
  match cached, PageInfo.extractType raw with
  | true, .debugMemory => PageInfo.store 0 .rasterizerCachedMemory
  | true, .memory => PageInfo.store 0 .rasterizerCachedMemory
  | false, .rasterizerCachedMemory =>
      if backedPage backingBase page backing = 0 then PageInfo.store 0 .unmapped
      else PageInfo.store (backedPage backingBase page backing - pageAddress page) .memory
  | _, _ => raw

theorem setPointer_self (table : PageTable) (page : Nat) :
    setPointer table page (table.pointers page) = table := by
  unfold setPointer
  rw [update_eq_self]

theorem getPointerFromBacking_page (table : PageTable) (page : Nat) :
    getPointerFromBacking backingBase table (page * 0x1000) =
      backedPage backingBase page (table.backingAddr page) := by
  unfold getPointerFromBacking
  rw [Nat.mul_div_cancel _ (by decide)]
  rfl

theorem marksBy_debug (debug : Bool) :
    MarksBy (markDebugPage backingBase debug) (debugEntry backingBase debug) := by
  refine ⟨fun table vaddr => ?_⟩
  have hpointer := @getPointerFromBacking_page backingBase table (vaddr / 0x1000)
  cases debug <;> cases htype : PageInfo.extractType (table.pointers (vaddr / 0x1000)) <;>
    simp only [markDebugPage, debugEntry, htype, getPointerFromDebugMemory, hpointer,
      setPointer_self]
  rfl

theorem marksBy_cached (cached : Bool) :
    MarksBy (markCachedPage backingBase cached) (cachedEntry backingBase cached) := by
  refine ⟨fun table vaddr => ?_⟩
  have hpointer := @getPointerFromBacking_page backingBase table (vaddr / 0x1000)
  cases cached <;> cases htype : PageInfo.extractType (table.pointers (vaddr / 0x1000)) <;>
    simp only [markCachedPage, cachedEntry, htype, getPointerFromRasterizerCachedMemory, hpointer,
      setPointer_self]
  split
  · rfl
  · rfl

theorem backedPage_eq (hne : target ≠ pageAddress page) :
    backedPage backingBase page (target - pageAddress page) = deviceGetPointer backingBase target := by
  unfold backedPage
  rw [if_neg (sub_ne_zero.mpr hne), sub_add_cancel]

theorem extractType_zero : PageInfo.extractType 0 = .unmapped := rfl

theorem GoodEntry.debug {mapped : Option Pointer} {debug : Bool}
    (h : GoodEntry backingBase page raw backing mapped)
    (hkeeps : debug = true → mapped ≠ some (pageAddress page)) :
    GoodEntry backingBase page (debugEntry backingBase debug page backing raw) backing mapped := by
  cases h with
  | unmapped =>
    have hsame : debugEntry backingBase debug page backing 0 = 0 := by
      unfold debugEntry
      rw [extractType_zero]; cases debug <;> rfl
    rw [hsame]; exact .unmapped
  | memory hs =>
    unfold debugEntry
    rw [extractType_store hs.aligned_sub]
    cases debug with
    | true => exact .marked hs (fun heq => hkeeps rfl (congrArg some heq)) (.inl rfl)
    | false => exact .memory hs
  | @marked target type hs hne htype =>
    unfold debugEntry
    rw [extractType_store aligned_zero, backedPage_eq hne]
    rcases htype with rfl | rfl
    · cases debug with
      | true => exact .marked hs hne (.inl rfl)
      | false => exact .memory hs
    · cases debug with
      | true => exact .marked hs hne (.inr rfl)
      | false => exact .marked hs hne (.inr rfl)

theorem GoodEntry.cached {mapped : Option Pointer} {cached : Bool}
    (h : GoodEntry backingBase page raw backing mapped)
    (hkeeps : cached = true → mapped ≠ some (pageAddress page)) :
    GoodEntry backingBase page (cachedEntry backingBase cached page backing raw) backing mapped := by
  cases h with
  | unmapped =>
    have hsame : cachedEntry backingBase cached page backing 0 = 0 := by
      unfold cachedEntry
      rw [extractType_zero]; cases cached <;> rfl
    rw [hsame]; exact .unmapped
  | memory hs =>
    unfold cachedEntry
    rw [extractType_store hs.aligned_sub]
    cases cached with
    | true => exact .marked hs (fun heq => hkeeps rfl (congrArg some heq)) (.inr rfl)
    | false => exact .memory hs
  | @marked target type hs hne htype =>
    unfold cachedEntry
    rw [extractType_store aligned_zero, backedPage_eq hne]
    rcases htype with rfl | rfl
    · cases cached with
      | true => exact .marked hs hne (.inr rfl)
      | false => exact .marked hs hne (.inl rfl)
    · cases cached with
      | true => exact .marked hs hne (.inr rfl)
      | false =>
        simp only [if_neg hs.nonnull]; exact .memory hs

/-! ## Steps -/

/-- Regions of whole pages inside the address space, onto DRAM that the host has. -/
def Action.Valid (backingBase : Pointer) (addressSpaceBits : Nat) : Action → Prop
  | .mapMemoryRegion base size target =>
      base % 0x1000 = 0 ∧ size % 0x1000 = 0 ∧ base + size ≤ 2 ^ addressSpaceBits ∧
        Aligned target ∧ dramBase ≤ target.toNat ∧
        ∀ i < size / 0x1000, deviceGetPointer backingBase (target + pageAddress i) ≠ 0
  | .unmapRegion base size =>
      base % 0x1000 = 0 ∧ size % 0x1000 = 0 ∧ base + size ≤ 2 ^ addressSpaceBits
  | .rasterizerMarkRegionCached vaddr size _ => vaddr < 2 ^ 64 ∧ size < 2 ^ 64
  | .markRegionDebug vaddr size _ => vaddr < 2 ^ 64 ∧ size < 2 ^ 64

/-- No page is mapped where its host pointer is its virtual address, and no page that is mapped to its
    own address is marked. -/
def Keeps (backingBase : Pointer) (addressSpaceBits : Nat) (mapping : Mapping) : Action → Prop
  | .mapMemoryRegion base size target => ∀ i < size / 0x1000,
      deviceGetPointer backingBase (target + pageAddress i) ≠ pageAddress (base / 0x1000 + i)
  | .unmapRegion _ _ => True
  | .rasterizerMarkRegionCached vaddr size cached => cached = true →
      ∀ page, Touches addressSpaceBits vaddr size page → mapping page ≠ some (pageAddress page)
  | .markRegionDebug vaddr size debug => debug = true →
      ∀ page, Touches addressSpaceBits vaddr size page → mapping page ≠ some (pageAddress page)

theorem target_ne_zero (h : dramBase ≤ target.toNat) : target ≠ 0 := by
  rintro rfl; exact absurd h (by decide)

theorem unmapRegion_eq (table : PageTable) (base size : Nat) :
    unmapRegion backingBase table base size =
      clearPages .unmapped (size / 0x1000) (base / 0x1000) table := rfl

theorem mapMemoryRegion_eq (h : dramBase ≤ target.toNat) (table : PageTable) (base size : Nat) :
    mapMemoryRegion backingBase table base size target =
      mapPagesTo backingBase (base / 0x1000) .memory (size / 0x1000) (base / 0x1000) target table :=
  if_neg (target_ne_zero h)

theorem step_addressSpaceBits {a : Action} (ha : a.Valid backingBase table.addressSpaceBits) :
    (step backingBase table a).addressSpaceBits = table.addressSpaceBits := by
  cases a with
  | mapMemoryRegion base size target =>
    show (mapMemoryRegion backingBase table base size target).addressSpaceBits = _
    rw [mapMemoryRegion_eq ha.2.2.2.2.1]; exact (mapPagesTo_entry _ _ _ _ 0).2.2
  | unmapRegion base size => exact (clearPages_entry _ _ _ 0).2.2
  | rasterizerMarkRegionCached vaddr size cached =>
    exact ((marksBy_cached cached).markRegion_entry table vaddr size 0).2.2
  | markRegionDebug vaddr size debug =>
    exact ((marksBy_debug debug).markRegion_entry table vaddr size 0).2.2

theorem sound_of_valid (hbase : Aligned backingBase) (htarget : Aligned target) {i : Nat}
    (hnull : deviceGetPointer backingBase (target + pageAddress i) ≠ 0)
    (hapart : deviceGetPointer backingBase (target + pageAddress i) ≠ pageAddress page) :
    Sound backingBase page (target + pageAddress i) :=
  ⟨aligned_deviceGetPointer hbase (htarget.add (aligned_pageAddress i)), hnull, hapart⟩

/-- ONE STEP: the entries stay good. -/
theorem good_step {mapping : Mapping} {a : Action} (hbase : Aligned backingBase)
    (h : Good backingBase table mapping) (ha : a.Valid backingBase table.addressSpaceBits)
    (hkeeps : Keeps backingBase table.addressSpaceBits mapping a) :
    Good backingBase (step backingBase table a) (mapStep mapping a) := by
  intro q
  cases a with
  | mapMemoryRegion base size target =>
    obtain ⟨-, -, -, htarget, hdram, hnull⟩ := ha
    show GoodEntry _ _ ((mapMemoryRegion backingBase table base size target).pointers q)
      ((mapMemoryRegion backingBase table base size target).backingAddr q)
      (if InRegion base size q then _ else _)
    rw [mapMemoryRegion_eq hdram, (mapPagesTo_entry _ _ _ _ q).1, (mapPagesTo_entry _ _ _ _ q).2.1]
    rcases em (InRegion base size q) with hin | hout
    · have hi : q - base / 0x1000 < size / 0x1000 := by
        obtain ⟨hle, hlt⟩ := hin; omega
      have hq : base / 0x1000 + (q - base / 0x1000) = q := Nat.add_sub_of_le hin.1
      have hsound := sound_of_valid hbase htarget (hnull _ hi) (hkeeps _ hi)
      rw [hq] at hsound
      have hin' : base / 0x1000 ≤ q ∧ q < base / 0x1000 + size / 0x1000 := hin
      rw [if_pos hin', if_pos hin', if_pos hin]
      exact .memory hsound
    · have hout' : ¬ (base / 0x1000 ≤ q ∧ q < base / 0x1000 + size / 0x1000) := hout
      rw [if_neg hout', if_neg hout', if_neg hout]; exact h q
  | unmapRegion base size =>
    show GoodEntry _ _ ((unmapRegion backingBase table base size).pointers q)
      ((unmapRegion backingBase table base size).backingAddr q) (if InRegion base size q then _ else _)
    rw [unmapRegion_eq, (clearPages_entry _ _ _ q).1, (clearPages_entry _ _ _ q).2.1]
    rcases em (InRegion base size q) with hin | hout
    · have hin' : base / 0x1000 ≤ q ∧ q < base / 0x1000 + size / 0x1000 := hin
      rw [if_pos hin', if_pos hin', if_pos hin]
      exact .unmapped
    · have hout' : ¬ (base / 0x1000 ≤ q ∧ q < base / 0x1000 + size / 0x1000) := hout
      rw [if_neg hout', if_neg hout', if_neg hout]; exact h q
  | rasterizerMarkRegionCached vaddr size cached =>
    obtain ⟨hpointers, hbacking, -⟩ := (@marksBy_cached backingBase cached).markRegion_entry table vaddr size q
    show GoodEntry _ _ ((markRegion _ table vaddr size).pointers q)
      ((markRegion _ table vaddr size).backingAddr q) (mapping q)
    rw [hpointers, hbacking]
    split
    next htouch => exact (h q).cached fun hc => hkeeps hc q htouch
    next => exact h q
  | markRegionDebug vaddr size debug =>
    obtain ⟨hpointers, hbacking, -⟩ := (@marksBy_debug backingBase debug).markRegion_entry table vaddr size q
    show GoodEntry _ _ ((markRegion _ table vaddr size).pointers q)
      ((markRegion _ table vaddr size).backingAddr q) (mapping q)
    rw [hpointers, hbacking]
    split
    next htouch => exact (h q).debug fun hd => hkeeps hd q htouch
    next => exact h q

/-! ## Translation -/

section Translation

variable {offset : Nat}

theorem lt_two_pow_48 {v bits : Nat} (hv : v < 2 ^ bits) (hbits : bits ≤ 48) : v < 2 ^ 48 :=
  hv.trans_le (Nat.pow_le_pow_right (show 0 < 2 by decide) hbits)

theorem addressSpaceContains_of_le {addr size : Nat} (h : addr + size ≤ 2 ^ table.addressSpaceBits)
    (hbits : table.addressSpaceBits ≤ 48) : addressSpaceContains table addr size = true := by
  have hpow : 2 ^ table.addressSpaceBits ≤ 2 ^ 48 :=
    Nat.pow_le_pow_right (show 0 < 2 by decide) hbits
  have hmod : (addr + size) % 2 ^ 64 = addr + size := Nat.mod_eq_of_lt (by omega)
  unfold addressSpaceContains
  rw [hmod]
  simp only [Bool.and_eq_true, decide_eq_true_eq]
  exact ⟨Nat.le_add_right _ _, h⟩

theorem getPointerImpl_eq (hv : page * 0x1000 + offset < 2 ^ table.addressSpaceBits)
    (hoffset : offset < 0x1000) (hbits : table.addressSpaceBits ≤ 48) :
    getPointerImpl backingBase table (page * 0x1000 + offset) =
      if PageInfo.extractPointer (table.pointers page) ≠ 0 then
        (PageInfo.extractPointer (table.pointers page) + BitVec.ofNat 64 (page * 0x1000 + offset),
          false)
      else
        match PageInfo.extractType (table.pointers page) with
        | .unmapped => (0, false)
        | .memory => (0, false)
        | .debugMemory =>
            (getPointerFromBacking backingBase table (page * 0x1000 + offset), false)
        | .rasterizerCachedMemory =>
            (getPointerFromBacking backingBase table (page * 0x1000 + offset), true) := by
  have hmod : (page * 0x1000 + offset) % 2 ^ 48 = page * 0x1000 + offset :=
    Nat.mod_eq_of_lt (lt_two_pow_48 hv hbits)
  have hpage : (page * 0x1000 + offset) / 0x1000 = page := by omega
  have hcontains := addressSpaceContains_of_le (show page * 0x1000 + offset + 1 ≤ _ from hv) hbits
  simp only [getPointerImpl, hmod, hcontains, hpage]
  rfl

theorem GoodEntry.getPointerImpl_unmapped
    (h : GoodEntry backingBase page (table.pointers page) (table.backingAddr page) none)
    (hv : page * 0x1000 + offset < 2 ^ table.addressSpaceBits) (hoffset : offset < 0x1000)
    (hbits : table.addressSpaceBits ≤ 48) :
    getPointerImpl backingBase table (page * 0x1000 + offset) = (0, false) := by
  rw [getPointerImpl_eq hv hoffset hbits]
  generalize table.pointers page = raw at h
  generalize table.backingAddr page = backing at h
  cases h
  rfl

/-- A mapped page has the host's pointer, and the GPU is told if the page is cached. -/
theorem GoodEntry.getPointerImpl_mapped
    (h : GoodEntry backingBase page (table.pointers page) (table.backingAddr page) (some target))
    (hv : page * 0x1000 + offset < 2 ^ table.addressSpaceBits) (hoffset : offset < 0x1000)
    (hbits : table.addressSpaceBits ≤ 48) :
    getPointerImpl backingBase table (page * 0x1000 + offset) =
      (deviceGetPointer backingBase target + BitVec.ofNat 64 offset,
        decide (PageInfo.extractType (table.pointers page) = .rasterizerCachedMemory)) := by
  rw [getPointerImpl_eq hv hoffset hbits]
  generalize hraw : table.pointers page = raw at h
  generalize hbacking : table.backingAddr page = backing at h
  cases h with
  | memory hs =>
    rw [extractPointer_store hs.aligned_sub, extractType_store hs.aligned_sub,
      if_pos hs.sub_ne_zero, pointer_add]
    rfl
  | marked hs hne htype =>
    rw [extractPointer_store aligned_zero, extractType_store aligned_zero,
      backing_add hne offset hbacking hoffset]
    rcases htype with rfl | rfl
    · rfl
    · rfl

theorem exists_ne_of_null
    (hnull : ∀ offset < 0x1000, getPointer backingBase table (page * 0x1000 + offset) = 0) :
    ∃ offset < 0x1000, getPointer backingBase table (page * 0x1000 + offset) ≠
      deviceGetPointer backingBase target + BitVec.ofNat 64 offset := by
  by_contra hall
  push Not at hall
  have h0 := (hnull 0 (by decide)).symm.trans (hall 0 (by decide))
  have h1 := (hnull 1 (by decide)).symm.trans (hall 1 (by decide))
  have heq := h0.symm.trans h1
  exact absurd (add_left_cancel heq) (by decide)

end Translation

theorem GoodEntry.own_address
    (h : GoodEntry backingBase page raw backing (some (pageAddress page))) :
    PageInfo.extractType raw = .memory ∧ backing = 0 := by
  generalize htarget : pageAddress page = target at h
  cases h with
  | memory hs => exact ⟨extractType_store hs.aligned_sub _, sub_eq_zero.mpr htarget.symm⟩
  | marked hs hne htype => exact absurd htarget.symm hne

theorem getPointer_marked {type : PageType} {offset : Nat}
    (hv : page * 0x1000 + offset < 2 ^ table.addressSpaceBits) (hoffset : offset < 0x1000)
    (hbits : table.addressSpaceBits ≤ 48) (hraw : table.pointers page = PageInfo.store 0 type)
    (hbacking : table.backingAddr page = 0) :
    getPointer backingBase table (page * 0x1000 + offset) = 0 := by
  have hpage : (page * 0x1000 + offset) / 0x1000 = page := by omega
  have hnull : getPointerFromBacking backingBase table (page * 0x1000 + offset) = 0 := by
    unfold getPointerFromBacking
    rw [hpage, hbacking]; rfl
  unfold getPointer
  rw [getPointerImpl_eq hv hoffset hbits, hraw, extractPointer_store aligned_zero,
    extractType_store aligned_zero, hnull]
  cases type with
  | unmapped => rfl
  | memory => rfl
  | debugMemory => rfl
  | rasterizerCachedMemory => rfl

theorem page_lt_of_touches {bits vaddr size : Nat} (h : Touches bits vaddr size page)
    (hvaddr : vaddr < 2 ^ 64) (hsize : size < 2 ^ 64) (hbits : 12 ≤ bits) :
    (page + 1) * 0x1000 ≤ 2 ^ bits := by
  obtain ⟨hne, hcontains, hle, hlt⟩ := h
  obtain ⟨k, rfl⟩ := Nat.exists_eq_add_of_le hbits
  unfold addressSpaceContains at hcontains
  simp only [Bool.and_eq_true, decide_eq_true_eq] at hcontains
  have hcontains : vaddr ≤ (vaddr + size) % 2 ^ 64 ∧ (vaddr + size) % 2 ^ 64 ≤ 2 ^ (12 + k) :=
    hcontains
  have hpow : 2 ^ (12 + k) = 0x1000 * 2 ^ k := by rw [pow_add]; norm_num
  rw [hpow] at hcontains ⊢
  unfold numPages at hlt
  have hsum : (vaddr + size) % 2 ^ 64 = vaddr + size := by omega
  rw [hsum] at hcontains
  omega

theorem MarksBy.spoils {markPage : PageTable → Nat → PageTable}
    {entry : Nat → Pointer → Pointer → Pointer} {mapping : Mapping} {vaddr size : Nat}
    (type : PageType) (hmark : MarksBy markPage entry)
    (hentry : ∀ page backing raw, PageInfo.extractType raw = .memory →
      entry page backing raw = PageInfo.store 0 type)
    (h : Good backingBase table mapping) (hvaddr : vaddr < 2 ^ 64) (hsize : size < 2 ^ 64)
    (hmin : 12 ≤ table.addressSpaceBits) (hbits : table.addressSpaceBits ≤ 48)
    (htouch : ∃ page, Touches table.addressSpaceBits vaddr size page ∧
      mapping page = some (pageAddress page)) :
    ∃ page target, mapping page = some target ∧ (page + 1) * 0x1000 ≤ 2 ^ table.addressSpaceBits ∧
      ∃ offset < 0x1000, getPointer backingBase (markRegion markPage table vaddr size)
          (page * 0x1000 + offset) ≠
        deviceGetPointer backingBase target + BitVec.ofNat 64 offset := by
  obtain ⟨page, htouch, hpage⟩ := htouch
  have hle := page_lt_of_touches htouch hvaddr hsize hmin
  obtain ⟨hpointers, hbacking, hspace⟩ := hmark.markRegion_entry table vaddr size page
  obtain ⟨htype, hzero⟩ := (hpage ▸ h page : GoodEntry _ _ _ _ (some _)).own_address
  rw [if_pos htouch, hentry _ _ _ htype] at hpointers
  refine ⟨page, pageAddress page, hpage, hle, exists_ne_of_null fun offset hoffset => ?_⟩
  refine getPointer_marked ?_ hoffset (hspace.symm ▸ hbits) hpointers
    ((congrFun hbacking page).trans hzero)
  rw [hspace]
  omega

/-- ONE STEP: a call that does not keep clear spoils the translation of a page. -/
theorem bad_step {mapping : Mapping} {a : Action} (h : Good backingBase table mapping)
    (ha : a.Valid backingBase table.addressSpaceBits) (hmin : 12 ≤ table.addressSpaceBits)
    (hbits : table.addressSpaceBits ≤ 48)
    (hnot : ¬ Keeps backingBase table.addressSpaceBits mapping a) :
    ∃ page target, mapStep mapping a page = some target ∧
      (page + 1) * 0x1000 ≤ 2 ^ table.addressSpaceBits ∧
      ∃ offset < 0x1000, getPointer backingBase (step backingBase table a) (page * 0x1000 + offset) ≠
        deviceGetPointer backingBase target + BitVec.ofNat 64 offset := by
  have hbits' := @step_addressSpaceBits backingBase table a ha
  have hlt : ∀ {page offset : Nat}, (page + 1) * 0x1000 ≤ 2 ^ table.addressSpaceBits →
      offset < 0x1000 →
      page * 0x1000 + offset < 2 ^ (step backingBase table a).addressSpaceBits := by
    intro page offset hle hoffset
    rw [hbits']; omega
  have hbound : (step backingBase table a).addressSpaceBits ≤ 48 := hbits'.symm ▸ hbits
  cases a with
  | mapMemoryRegion base size target =>
    obtain ⟨halign, hsize, hspace, htarget, hdram, -⟩ := ha
    simp only [Keeps] at hnot
    push Not at hnot
    obtain ⟨i, hi, heq⟩ := hnot
    have hin : InRegion base size (base / 0x1000 + i) := ⟨by omega, by omega⟩
    refine ⟨base / 0x1000 + i, target + pageAddress i, ?_, by omega, ?_⟩
    · show (if InRegion base size _ then _ else _) = _
      rw [if_pos hin, Nat.add_sub_cancel_left]
      rfl
    · refine exists_ne_of_null fun offset hoffset => ?_
      unfold getPointer
      rw [getPointerImpl_eq (hlt (by omega) hoffset) hoffset hbound]
      have hraw : (step backingBase table (.mapMemoryRegion base size target)).pointers
          (base / 0x1000 + i) = PageInfo.store 0 .memory := by
        show (mapMemoryRegion backingBase table base size target).pointers _ = _
        rw [mapMemoryRegion_eq hdram, (mapPagesTo_entry _ _ _ _ _).1]
        have hin' : base / 0x1000 ≤ base / 0x1000 + i ∧
          base / 0x1000 + i < base / 0x1000 + size / 0x1000 := hin
        rw [if_pos hin', Nat.add_sub_cancel_left]
        have hzero : deviceGetPointer backingBase (target + BitVec.ofNat 64 (i * 0x1000)) -
            pageAddress (base / 0x1000 + i) = 0 := sub_eq_zero.mpr heq
        rw [hzero]
      rw [hraw, extractPointer_store aligned_zero, extractType_store aligned_zero]; rfl
  | unmapRegion base size => exact absurd trivial hnot
  | rasterizerMarkRegionCached vaddr size cached =>
    simp only [Keeps] at hnot
    push Not at hnot
    obtain ⟨rfl, htouch⟩ := hnot
    refine MarksBy.spoils .rasterizerCachedMemory (marksBy_cached true)
      (fun page backing raw htype => ?_) h ha.1 ha.2 hmin hbits htouch
    unfold cachedEntry
    rw [htype]
  | markRegionDebug vaddr size debug =>
    simp only [Keeps] at hnot
    push Not at hnot
    obtain ⟨rfl, htouch⟩ := hnot
    refine MarksBy.spoils .debugMemory (marksBy_debug true) (fun page backing raw htype => ?_) h
      ha.1 ha.2 hmin hbits htouch
    unfold debugEntry
    rw [htype]

end Suyu.Core.Memory
