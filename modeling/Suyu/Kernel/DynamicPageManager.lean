import Mathlib
import Suyu.Kernel.PageHeapRuns

/-
  KDynamicPageManager - pages of a host vector that stands for kernel memory.

  1. **Program** - `k_dynamic_page_manager.h` and `FindFreeRange` of `k_page_bitmap.h`.  A bit of the bitmap
     is a page, counted from `m_aligned_address` on; `Allocate` turns the number into a HOST pointer
     (`GetPointer`), `Free` turns a pointer into a number by subtracting the KERNEL address
     `m_aligned_address`.

  2. **Specification (`Sound`, `StepExact`)** - the pages that can be allocated are the managed pages that
     are not outstanding, `m_used` counts the outstanding ones, an allocation gives pages that can be
     allocated, and `Free` gives back exactly its page.

  3. **When it goes wrong (`freeOffset_eq_iff`)** - the two ways of counting agree only if the host vector
     lies at the kernel address `m_address`, up to the offset in a page.  A request for 64 pages shifts a
     word by 64.

  Left out: the contents of the pages (`Free` clears a page) and the spin lock.
-/

namespace Suyu.Kernel

open Finset

/-! ## Free ranges -/

namespace KPageBitmap

variable {T : Type}

/-- The variables of the search for a range. -/
structure RangeChoice (T : Type) where
  numValidOptions : Nat
  chosenOffset : Int
  rng : RandomBitGenerator T

/-- An option is taken with probability 1/K; the first one without asking the generator. -/
def chooseOption [TinyMT T] (offset : Nat) (c : RangeChoice T) : RangeChoice T :=
  let numValidOptions := c.numValidOptions + 1
  if numValidOptions = 1 then ⟨numValidOptions, offset, c.rng⟩
  else
    let r := c.rng.generateRandom numValidOptions
    ⟨numValidOptions, if r.1 = 0 then offset else c.chosenOffset, r.2⟩

/-- The options of a word, from `option` on.  A shift by 64 is not defined in C++; machines take the
    count modulo 64. -/
def findRangeInWord [TinyMT T] (count storageIndex : Nat) (freeMask : BitVec 64) :
    Nat → Nat → BitVec 64 → RangeChoice T → RangeChoice T
  | 0, _, _, c => c
  | rounds + 1, option, storage, c =>
      findRangeInWord count storageIndex freeMask rounds (option + 1) (storage >>> (count % 64))
        (if storage &&& freeMask = freeMask then
          chooseOption (storageIndex * 64 + option * count) c
        else c)

/-- The words, from `storageIndex` on. -/
def findRangeInWords [TinyMT T] (words : Nat → BitVec 64) (count : Nat) (freeMask : BitVec 64) :
    Nat → Nat → RangeChoice T → RangeChoice T
  | 0, _, c => c
  | rounds + 1, storageIndex, c =>
      findRangeInWords words count freeMask rounds (storageIndex + 1)
        (findRangeInWord count storageIndex freeMask (max (64 / count) 1) 0 (words storageIndex) c)

/-- `FindFreeRange`; `numWords` is the number of words of the last depth. -/
def findFreeRange [TinyMT T] (b : KPageBitmap T) (numWords count : Nat) : Int × KPageBitmap T :=
  if ¬ (0 < numWords ∧ count ≤ 64) then (-1, b)
  else
    let freeMask := (1#64 <<< (count % 64)) - 1#64
    let c := findRangeInWords (b.bitStorages (b.usedDepths - 1)) count freeMask (max numWords 1) 0
      ⟨0, -1, b.rng⟩
    (c.chosenOffset, { b with rng := c.rng })

/-- The loop of `CalculateManagementOverheadSize`. -/
def overheadLoop : Nat → Nat → Nat → Nat
  | 0, _, overheadBits => overheadBits
  | depths + 1, regionSize, overheadBits =>
      let regionSize := alignUp regionSize 64 / 64
      overheadLoop depths regionSize (overheadBits + regionSize)

def calculateManagementOverheadSize (regionSize : Nat) : Nat :=
  overheadLoop (getRequiredDepth regionSize) regionSize 0 * 8

end KPageBitmap

/-! ## The manager -/

structure KDynamicPageManager (T : Type) where
  pageBitmap : KPageBitmap T
  used : Nat
  peak : Nat
  count : Nat
  size : Nat
  address : Nat
  alignedAddress : Nat
  /-- `m_backing_memory.data()` -/
  backing : Nat
  /-- the number of bits the bitmap was made for -/
  regionSize : Nat

namespace KDynamicPageManager

variable {T : Type}

/-- `Free the pages to the bitmap.` -/
def freeAll (address alignedAddress : Nat) : Nat → KPageBitmap T → KPageBitmap T
  | 0, b => b
  | n + 1, b =>
      (freeAll address alignedAddress n b).setBit
        ((address + n * PageSize - alignedAddress) / PageSize)

/-- `Initialize`, with the host vector at `backing`. -/
def init (b : KPageBitmap T) (backing memory size align : Nat) : Option (KDynamicPageManager T) :=
  if ¬ size > 0 then none
  else
    let alignedAddress := alignDown memory align
    let managedSize := memory + size - alignedAddress
    let overheadSize :=
      alignUp (KPageBitmap.calculateManagementOverheadSize (managedSize / PageSize)) PageSize
    if ¬ overheadSize < size then none
    else
      let mSize := alignDown (size - overheadSize) PageSize
      let count := mSize / PageSize
      let allocatableRegionSize := memory + size - overheadSize - alignedAddress
      let regionSize := allocatableRegionSize / PageSize
      some
        { pageBitmap := freeAll memory alignedAddress count (b.init regionSize)
          used := 0
          peak := 0
          count := count
          size := mSize
          address := memory
          alignedAddress := alignedAddress
          backing := backing
          regionSize := regionSize }

/-- `GetPointer<PageBuffer>(m_aligned_address) + offset`, as a 64-bit number. -/
def pagePointer (m : KDynamicPageManager T) (offset : Nat) : Nat :=
  (m.backing + (2 ^ 64 - (m.address - m.alignedAddress)) + offset * PageSize) % 2 ^ 64

/-- `Allocate()`; `none` is the null pointer. -/
def allocate [TinyMT T] (m : KDynamicPageManager T) : Option Nat × KDynamicPageManager T :=
  let r := m.pageBitmap.findFreeBlock true
  if r.1 < 0 then (none, { m with pageBitmap := r.2 })
  else
    let offset := r.1.toNat
    (some (m.pagePointer offset),
      { m with
        pageBitmap := r.2.clearBit offset
        used := m.used + 1
        peak := max m.peak (m.used + 1) })

/-- `Allocate(count)`; the answer of `ClearRange` is not looked at. -/
def allocateCount [TinyMT T] (m : KDynamicPageManager T) (count : Nat) :
    Option Nat × KDynamicPageManager T :=
  let r := m.pageBitmap.findFreeRange (alignUp m.regionSize 64 / 64) count
  if r.1 < 0 then (none, { m with pageBitmap := r.2 })
  else
    let offset := r.1.toNat
    (some (m.pagePointer offset),
      { m with
        pageBitmap := (r.2.clearRange offset count).2
        used := m.used + count
        peak := max m.peak (m.used + count) })

/-- The bit that `Free` sets. -/
def freeOffset (m : KDynamicPageManager T) (pb : Nat) : Nat :=
  (pb + 2 ^ 64 - m.alignedAddress) % 2 ^ 64 / PageSize

def free (m : KDynamicPageManager T) (pb : Nat) : KDynamicPageManager T :=
  { m with
    pageBitmap := m.pageBitmap.setBit (m.freeOffset pb)
    used := m.used - 1 }

end KDynamicPageManager

/-! ## A range that is found is free -/

namespace KPageBitmap

variable {T : Type} [TinyMT T] {b : KPageBitmap T} {S : Finset Nat} {count : Nat}

/-- An offset that `FindFreeRange` looks at, whose `count` bits are all set. -/
structure FreeOffset (words : Nat → BitVec 64) (count o : Nat) : Prop where
  aligned : count ∣ o % 64
  fits : o % 64 + count ≤ 64
  set : ∀ j < count, (words (o / 64)).getLsbD (o % 64 + j) = true

/-- The choice among the free offsets seen so far. -/
def Chosen (free seen : Nat → Prop) (c : RangeChoice T) : Prop :=
  (c.numValidOptions = 0 ∧ c.chosenOffset = -1 ∧ ∀ o, free o → ¬ seen o) ∨
    (0 < c.numValidOptions ∧ ∃ o : Nat, c.chosenOffset = (o : Int) ∧ free o ∧ seen o)

omit [TinyMT T] in
theorem Chosen.congr {free seen seen' : Nat → Prop} {c : RangeChoice T} (h : Chosen free seen c)
    (hseen : ∀ o, free o → (seen o ↔ seen' o)) : Chosen free seen' c :=
  h.imp (fun h => ⟨h.1, h.2.1, fun o ho hs => h.2.2 o ho ((hseen o ho).2 hs)⟩)
    fun ⟨hpos, o, hc, ho, hs⟩ => ⟨hpos, o, hc, ho, (hseen o ho).1 hs⟩

theorem Chosen.chooseOption {free seen : Nat → Prop} {c : RangeChoice T} {o : Nat} (h : Chosen free seen c)
    (ho : free o) : Chosen free (fun i => seen i ∨ i = o) (KPageBitmap.chooseOption o c) := by
  unfold KPageBitmap.chooseOption
  dsimp only
  split
  · exact Or.inr ⟨Nat.succ_pos _, o, rfl, ho, Or.inr rfl⟩
  rename_i hne
  -- not the first option: there is an earlier choice to fall back on
  obtain ⟨h0, -⟩ | ⟨-, i, hc, hi, hs⟩ := h
  · exact absurd (congrArg (· + 1) h0) hne
  refine Or.inr ⟨Nat.succ_pos _, ?_⟩
  dsimp only
  split
  · exact ⟨o, rfl, ho, Or.inr rfl⟩
  · exact ⟨i, hc, hi, Or.inl hs⟩

/-- The offsets before option `option` of a word. -/
def SeenBefore (count storageIndex option o : Nat) : Prop :=
  o / 64 < storageIndex ∨ o / 64 = storageIndex ∧ o % 64 < option * count

theorem and_mask_iff {v : BitVec 64} (hcount : count < 64) :
    v &&& ((1#64 <<< count) - 1#64) = (1#64 <<< count) - 1#64 ↔ ∀ j < count, v.getLsbD j = true := by
  have hmask : ∀ i, ((1#64 <<< count) - 1#64).getLsbD i = decide (i < count) := by
    intro i
    have hrange := @Lib.Bits.getLsbD_range_mask 64 count 0 i hcount (by omega)
    rw [BitVec.shiftLeft_zero] at hrange; simpa using hrange
  constructor
  · intro hv j hj
    have hbit := congrArg (fun w => w.getLsbD j) hv
    rw [BitVec.getLsbD_and, hmask, decide_eq_true hj, Bool.and_true] at hbit
    exact hbit
  · intro hv
    refine BitVec.eq_of_getLsbD_eq fun j _ => ?_
    rw [BitVec.getLsbD_and, hmask]
    by_cases hj : j < count
    · rw [hv j hj, decide_eq_true hj, Bool.true_and]
    · rw [decide_eq_false hj, Bool.and_false]

theorem Chosen.findRangeInWord {words : Nat → BitVec 64} {rounds option storageIndex : Nat}
    {c : RangeChoice T} (h : Chosen (FreeOffset words count) (SeenBefore count storageIndex option) c)
    (hpos : 0 < count) (hcount : count < 64) (hrounds : (rounds + option) * count ≤ 64) :
    Chosen (FreeOffset words count) (SeenBefore count storageIndex (option + rounds))
      (KPageBitmap.findRangeInWord count storageIndex ((1#64 <<< count) - 1#64) rounds option
        (words storageIndex >>> (option * count)) c) := by
  induction rounds generalizing option c with
  | zero => exact h
  | succ rounds ih =>
    have hsum : (rounds + 1 + option) * count = rounds * count + option * count + count := by ring
    have hshift : words storageIndex >>> (option * count) >>> (count % 64) =
        words storageIndex >>> ((option + 1) * count) := by
      rw [Nat.mod_eq_of_lt hcount, Nat.succ_mul, BitVec.shiftRight_add]
    have hnext : option + (rounds + 1) = option + 1 + rounds := by omega
    rw [KPageBitmap.findRangeInWord, hshift, hnext]
    refine ih ?_ (by rwa [show rounds + (option + 1) = rounds + 1 + option by omega])
    -- the one option that is new
    have hnew : ∀ o, FreeOffset words count o → (SeenBefore count storageIndex (option + 1) o ↔
        SeenBefore count storageIndex option o ∨ o = storageIndex * 64 + option * count) := by
      intro o ho
      obtain ⟨m, hm⟩ := ho.aligned
      have hlast : o % 64 < option * count + count ↔ o % 64 ≤ option * count := by
        refine ⟨fun hlt => ?_, fun hle => by omega⟩
        rw [hm, Nat.mul_comm, ← Nat.succ_mul] at hlt
        rw [hm, Nat.mul_comm]
        exact Nat.mul_le_mul_right _ (Nat.lt_succ_iff.1 (Nat.lt_of_mul_lt_mul_right hlt))
      simp only [SeenBefore, Nat.succ_mul, hlast]; omega
    have hfree : FreeOffset words count (storageIndex * 64 + option * count) ↔
        words storageIndex >>> (option * count) &&& ((1#64 <<< count) - 1#64) =
          (1#64 <<< count) - 1#64 := by
      have hdiv : (storageIndex * 64 + option * count) / 64 = storageIndex := by omega
      have hmod : (storageIndex * 64 + option * count) % 64 = option * count := by omega
      rw [and_mask_iff hcount]
      constructor
      · intro ho j hj
        have := ho.set j hj
        rw [hdiv, hmod] at this
        rwa [BitVec.getLsbD_ushiftRight]
      · intro hset
        refine ⟨by rw [hmod]; exact Nat.dvd_mul_left _ _, by omega, fun j hj => ?_⟩
        have := hset j hj
        rw [hdiv, hmod]
        rwa [BitVec.getLsbD_ushiftRight] at this
    split
    · next hall => exact (h.chooseOption (hfree.2 hall)).congr fun o ho => (hnew o ho).symm
    · next hnot =>
      refine h.congr fun o ho => ?_
      rw [hnew o ho]
      refine ⟨Or.inl, fun hs => hs.resolve_right ?_⟩
      rintro rfl; exact hnot (hfree.1 ho)

theorem Chosen.findRangeInWords {rounds storageIndex : Nat} {words : Nat → BitVec 64}
    {c : RangeChoice T} (h : Chosen (FreeOffset words count) (SeenBefore count storageIndex 0) c)
    (hpos : 0 < count) (hcount : count < 64) :
    Chosen (FreeOffset words count) (SeenBefore count (storageIndex + rounds) 0)
      (KPageBitmap.findRangeInWords words count ((1#64 <<< count) - 1#64) rounds storageIndex c) := by
  induction rounds generalizing storageIndex c with
  | zero => exact h
  | succ rounds ih =>
    have hmax : max (64 / count) 1 = 64 / count := max_eq_left (Nat.div_pos hcount.le hpos)
    have hoptions : (max (64 / count) 1 + 0) * count ≤ 64 := by
      rw [Nat.add_zero, hmax]; exact Nat.div_mul_le_self 64 count
    have hzero : words storageIndex >>> (0 * count) = words storageIndex := by
      rw [Nat.zero_mul]; exact BitVec.ushiftRight_zero _
    have hword := h.findRangeInWord hpos hcount hoptions
    rw [hzero] at hword
    rw [KPageBitmap.findRangeInWords, show storageIndex + (rounds + 1) = storageIndex + 1 + rounds by omega]
    refine ih (hword.congr fun o ho => ?_)
    -- the options of a word are all its free offsets
    have hlast : o % 64 < 64 / count * count := by
      obtain ⟨m, hm⟩ := ho.aligned
      have hfits := ho.fits
      have hle : m + 1 ≤ 64 / count := by
        rw [Nat.le_div_iff_mul_le hpos, Nat.succ_mul, Nat.mul_comm, ← hm]; exact hfits
      calc o % 64 < (m + 1) * count := by rw [hm, Nat.succ_mul, Nat.mul_comm]; omega
        _ ≤ 64 / count * count := Nat.mul_le_mul_right _ hle
    simp only [SeenBefore, Nat.zero_add, Nat.zero_mul, Nat.not_lt_zero, and_false, or_false, hmax]
    omega

theorem findFreeRange_chosen (b : KPageBitmap T) {numWords : Nat} (hwords : 0 < numWords) (hpos : 0 < count)
    (hcount : count < 64) :
    ((b.findFreeRange numWords count).1 = -1 ∧
      ∀ o < numWords * 64, ¬ FreeOffset (b.bitStorages (b.usedDepths - 1)) count o) ∨
    ∃ o : Nat, (b.findFreeRange numWords count).1 = (o : Int) ∧ o < numWords * 64 ∧
      FreeOffset (b.bitStorages (b.usedDepths - 1)) count o := by
  have hstart : Chosen (FreeOffset (b.bitStorages (b.usedDepths - 1)) count) (SeenBefore count 0 0)
      (⟨0, -1, b.rng⟩ : RangeChoice T) :=
    Or.inl ⟨rfl, rfl, fun o _ hs => by simp [SeenBefore] at hs⟩
  have hend := @Chosen.findRangeInWords _ _ _ (max numWords 1) _ _ _ hstart hpos hcount
  rw [max_eq_left (Nat.succ_le_of_lt hwords)] at hend
  unfold KPageBitmap.findFreeRange
  rw [if_neg (by simp only [not_not]; exact ⟨hwords, hcount.le⟩), Nat.mod_eq_of_lt hcount]
  dsimp only
  rw [max_eq_left (Nat.succ_le_of_lt hwords)]
  obtain ⟨-, hnone, hall⟩ | ⟨-, o, hc, ho, hs⟩ := hend
  · refine Or.inl ⟨hnone, fun o hlt ho => hall o ho ?_⟩
    exact Or.inl (by omega)
  · refine Or.inr ⟨o, hc, ?_, ho⟩
    simp only [SeenBefore, Nat.zero_mul, Nat.not_lt_zero, and_false, or_false] at hs
    omega

theorem Represents.findFreeRange (h : b.Represents S) (numWords : Nat) (hpos : 0 < count)
    (hcount : count < 64) :
    (b.findFreeRange numWords count).2.Represents S ∧
    ((b.findFreeRange numWords count).1 = -1 ∨
      ∃ o : Nat, (b.findFreeRange numWords count).1 = (o : Int) ∧ o % 64 + count ≤ 64 ∧
        Ico o (o + count) ⊆ S) := by
  have hstate : (b.findFreeRange numWords count).2.Represents S := by
    unfold KPageBitmap.findFreeRange
    split
    · exact h
    · exact ⟨h.depth_pos, h.summary, h.bit_iff, h.lt_pow, h.numBits_eq⟩
  refine ⟨hstate, ?_⟩
  rcases Nat.eq_zero_or_pos numWords with rfl | hwords
  · exact Or.inl rfl
  · refine (b.findFreeRange_chosen hwords hpos hcount).imp (fun hnone => hnone.1)
      fun ⟨o, hc, _, ho⟩ => ⟨o, hc, ho.fits, fun i hi => ?_⟩
    rw [mem_Ico] at hi
    have hfits := ho.fits
    rw [← h.bit_iff, bitAt, show i / 64 = o / 64 by omega, show i % 64 = o % 64 + (i - o) by omega]
    exact ho.set _ (by omega)

end KPageBitmap

/-! ## Runs -/

namespace KDynamicPageManager

variable {T : Type}

/-- A manager and the host pages that have been given out and not been given back. -/
structure Session (T : Type) where
  manager : KDynamicPageManager T
  outstanding : Finset Nat

inductive Action where
  | allocate
  | allocateCount (count : Nat)
  | free (page : Nat)

/-- The pages of an allocation. -/
def pagesFrom (page count : Nat) : Finset Nat := (range count).image fun i => page + i * PageSize

/-- After an allocation. -/
def Session.received (s : Session T) (count : Nat) :
    Option Nat × KDynamicPageManager T → Session T
  | (none, m) => ⟨m, s.outstanding⟩
  | (some page, m) => ⟨m, s.outstanding ∪ pagesFrom page count⟩

/-- After a call. -/
def Session.step [TinyMT T] (s : Session T) : Action → Session T
  | .allocate => s.received 1 s.manager.allocate
  | .allocateCount count => s.received count (s.manager.allocateCount count)
  | .free page => ⟨s.manager.free page, s.outstanding.erase page⟩

/-- The calls that are made. -/
def Allowed (s : Session T) : Action → Prop
  | .allocate => True
  | .allocateCount count => 1 ≤ count ∧ count ≤ 64
  | .free page => page ∈ s.outstanding

/-- The host vector lies at the kernel address, up to the offset in a page. -/
def HostMatches (m : KDynamicPageManager T) : Prop :=
  (m.backing + 2 ^ 64 - m.address) % 2 ^ 64 < PageSize

/-- A call that does not meet the defects. -/
def Harmless (s : Session T) : Action → Prop
  | .allocate => True
  | .allocateCount count => count ≠ 64
  | .free _ => s.manager.HostMatches

/-- Every call of a run is allowed and harmless. -/
def HarmlessRun [TinyMT T] : Session T → List Action → Prop
  | _, [] => True
  | s, a :: actions => Allowed s a ∧ Harmless s a ∧ HarmlessRun (s.step a) actions

def runAll [TinyMT T] (s : Session T) (actions : List Action) : Session T :=
  actions.foldl Session.step s

/-! ## Specification -/

/-- The host pages of `[m_address, m_address + m_size)`. -/
def managedPages (m : KDynamicPageManager T) : Finset Nat := pagesFrom m.backing m.count

/-- A page that a call can give out. -/
def Allocatable (m : KDynamicPageManager T) (page : Nat) : Prop :=
  ∃ i, KPageBitmap.bitAt m.pageBitmap.bitStorages (m.pageBitmap.usedDepths - 1) i = true ∧
    page = m.pagePointer i

/-- What holds between the calls.  `MaxDepth = 4` storages are there, behind an assertion that only logs. -/
structure Sound (s : Session T) : Prop where
  depths : s.manager.pageBitmap.usedDepths ≤ 4
  used : s.manager.used = s.outstanding.card
  managed : s.outstanding ⊆ s.manager.managedPages
  allocatable : ∀ page, s.manager.Allocatable page ↔
    page ∈ s.manager.managedPages ∧ page ∉ s.outstanding

/-- What an allocation of some pages does: they are managed, they were not outstanding, and exactly they
    cannot be given out any more. -/
structure Allocates (s : Session T) (page count : Nat) (m : KDynamicPageManager T) : Prop where
  managed : pagesFrom page count ⊆ s.manager.managedPages
  fresh : Disjoint (pagesFrom page count) s.outstanding
  taken : ∀ q, m.Allocatable q ↔ s.manager.Allocatable q ∧ q ∉ pagesFrom page count

/-- What a call does. -/
def StepExact [TinyMT T] (s : Session T) : Action → Prop
  | .allocate => ∀ page m, s.manager.allocate = (some page, m) → Allocates s page 1 m
  | .allocateCount count =>
      ∀ page m, s.manager.allocateCount count = (some page, m) → Allocates s page count m
  | .free page => ∀ q, (s.manager.free page).Allocatable q ↔ q = page ∨ s.manager.Allocatable q

/-! ## The invariant -/

section Invariant

variable {m : KDynamicPageManager T} {s : Session T} {out : Finset Nat} {k i count : Nat}

/-- The number of the bit of the first managed page. -/
def baseBit (m : KDynamicPageManager T) : Nat := (m.address - m.alignedAddress) / PageSize

/-- The host address of managed page `k`. -/
def pageOf (m : KDynamicPageManager T) (k : Nat) : Nat := m.backing + k * PageSize

/-- How the addresses lie, and that each depth of the bitmap has a storage. -/
structure Placed (m : KDynamicPageManager T) : Prop where
  aligned_le : m.alignedAddress ≤ m.address
  aligned : m.alignedAddress % PageSize = 0
  address : m.address % PageSize = 0
  addressEnd : m.address + m.count * PageSize ≤ 2 ^ 64
  backingEnd : m.backing + m.count * PageSize ≤ 2 ^ 64
  depths : m.baseBit + m.count ≤ 64 ^ m.pageBitmap.usedDepths
  maxDepth : m.pageBitmap.usedDepths ≤ 4

theorem pageSize_eq : PageSize = 0x1000 := rfl

theorem Placed.baseBit_mul (h : m.Placed) : m.baseBit * PageSize = m.address - m.alignedAddress := by
  have haligned := h.aligned
  have haddress := h.address
  have hle := h.aligned_le
  unfold baseBit
  rw [pageSize_eq] at *
  omega

theorem Placed.pagePointer_eq (h : m.Placed) (hk : k < m.count) :
    m.pagePointer (m.baseBit + k) = m.pageOf k := by
  have hbase := h.baseBit_mul
  have hend := h.backingEnd
  have haddress := h.addressEnd
  have hle := h.aligned_le
  have hmul : (m.baseBit + k) * PageSize = m.baseBit * PageSize + k * PageSize := Nat.add_mul _ _ _
  have hlt : k * PageSize < m.count * PageSize := Nat.mul_lt_mul_of_pos_right hk (by decide)
  unfold pagePointer pageOf
  rw [hmul, hbase]
  omega

theorem pageOf_injective (m : KDynamicPageManager T) : Function.Injective m.pageOf := by
  intro i j hij
  unfold pageOf at hij
  rw [pageSize_eq] at hij
  omega

theorem pagesFrom_pageOf (m : KDynamicPageManager T) (k count : Nat) :
    pagesFrom (m.pageOf k) count = (Ico k (k + count)).image m.pageOf := by
  ext page
  simp only [pagesFrom, mem_image, mem_range, mem_Ico, pageOf]
  constructor
  · rintro ⟨i, hi, rfl⟩
    refine ⟨k + i, by omega, ?_⟩
    rw [Nat.add_mul, Nat.add_assoc]
  · rintro ⟨j, hj, rfl⟩
    refine ⟨j - k, by omega, ?_⟩
    rw [Nat.add_assoc, ← Nat.add_mul, Nat.add_sub_of_le hj.1]

theorem managedPages_eq (m : KDynamicPageManager T) :
    m.managedPages = (range m.count).image m.pageOf := rfl

/-- The pages `out` are outstanding; the others have their bit. -/
structure Inv (s : Session T) (out : Finset Nat) : Prop where
  placed : s.manager.Placed
  subset : out ⊆ range s.manager.count
  outstanding : s.outstanding = out.image s.manager.pageOf
  used : s.manager.used = out.card
  bitmap : s.manager.pageBitmap.Represents
    ((range s.manager.count \ out).image fun k => s.manager.baseBit + k)

theorem mem_freeBits : i ∈ (range m.count \ out).image (fun k => m.baseBit + k) ↔
    ∃ k, (k < m.count ∧ k ∉ out) ∧ m.baseBit + k = i := by
  simp only [mem_image, mem_sdiff, mem_range]

theorem Inv.allocatable_iff (h : Inv s out) (page : Nat) :
    s.manager.Allocatable page ↔ ∃ k < s.manager.count, k ∉ out ∧ page = s.manager.pageOf k := by
  constructor
  · rintro ⟨i, hbit, rfl⟩
    obtain ⟨k, ⟨hk, hout⟩, rfl⟩ := mem_freeBits.mp ((h.bitmap.bit_iff i).mp hbit)
    exact ⟨k, hk, hout, h.placed.pagePointer_eq hk⟩
  · rintro ⟨k, hk, hout, rfl⟩
    refine ⟨s.manager.baseBit + k, (h.bitmap.bit_iff _).mpr ?_, (h.placed.pagePointer_eq hk).symm⟩
    exact mem_freeBits.mpr ⟨k, ⟨hk, hout⟩, rfl⟩

theorem Inv.sound (h : Inv s out) : Sound s := by
  refine ⟨h.placed.maxDepth, ?_, ?_, fun page => ?_⟩
  · rw [h.used, h.outstanding, card_image_of_injective _ s.manager.pageOf_injective]
  · rw [h.outstanding, managedPages_eq]
    exact image_subset_image h.subset
  · rw [h.allocatable_iff, h.outstanding, managedPages_eq]
    simp only [mem_image, mem_range]
    constructor
    · rintro ⟨k, hk, hout, rfl⟩
      refine ⟨⟨k, hk, rfl⟩, ?_⟩
      rintro ⟨j, hj, heq⟩
      rw [s.manager.pageOf_injective heq] at hj
      exact hout hj
    · rintro ⟨⟨k, hk, rfl⟩, hnot⟩; exact ⟨k, hk, fun hout => hnot ⟨k, hout, rfl⟩, rfl⟩

/-- PAGES ARE TAKEN: their bits are cleared and they are counted. -/
theorem Inv.take {bitmap : KPageBitmap T} {peak : Nat} (h : Inv s out)
    (hfree : ∀ j ∈ Ico k (k + count), j < s.manager.count ∧ j ∉ out)
    (hdepths : bitmap.usedDepths = s.manager.pageBitmap.usedDepths)
    (hbitmap : bitmap.Represents (((range s.manager.count \ out).image fun k =>
      s.manager.baseBit + k) \ Ico (s.manager.baseBit + k) (s.manager.baseBit + k + count)))
    {m : KDynamicPageManager T} (hm : m = { s.manager with
      pageBitmap := bitmap, used := s.manager.used + count, peak := peak }) :
    Inv ⟨m, s.outstanding ∪ pagesFrom (s.manager.pageOf k) count⟩ (out ∪ Ico k (k + count)) := by
  subst hm
  have hplaced := h.placed
  have hdisjoint : Disjoint out (Ico k (k + count)) := by
    rw [disjoint_right]; exact fun j hj => (hfree j hj).2
  refine ⟨⟨hplaced.aligned_le, hplaced.aligned, hplaced.address, hplaced.addressEnd,
    hplaced.backingEnd, ?_, hdepths.trans_le hplaced.maxDepth⟩, ?_, ?_, ?_, ?_⟩
  · show s.manager.baseBit + s.manager.count ≤ 64 ^ bitmap.usedDepths
    rw [hdepths]
    exact hplaced.depths
  · exact union_subset h.subset fun j hj => mem_range.mpr (hfree j hj).1
  · show s.outstanding ∪ pagesFrom (s.manager.pageOf k) count = image s.manager.pageOf _
    rw [image_union, h.outstanding, pagesFrom_pageOf]
  · show s.manager.used + count = _
    rw [card_union_of_disjoint hdisjoint, h.used, Nat.card_Ico, Nat.add_sub_cancel_left]
  · show bitmap.Represents ((range s.manager.count \ (out ∪ Ico k (k + count))).image fun k =>
      s.manager.baseBit + k)
    have hset : ((range s.manager.count \ out).image fun k => s.manager.baseBit + k) \
        Ico (s.manager.baseBit + k) (s.manager.baseBit + k + count) =
        (range s.manager.count \ (out ∪ Ico k (k + count))).image
          fun k => s.manager.baseBit + k := by
      ext i
      simp only [mem_sdiff, mem_image, mem_range, mem_union, mem_Ico, not_or]
      constructor
      · rintro ⟨⟨j, ⟨hj, hout⟩, rfl⟩, hnot⟩
        exact ⟨j, ⟨hj, hout, by omega⟩, rfl⟩
      · rintro ⟨j, ⟨hj, hout, hnot⟩, rfl⟩; exact ⟨⟨j, ⟨hj, hout⟩, rfl⟩, by omega⟩
    rw [← hset]; exact hbitmap

theorem Inv.allocates {m : KDynamicPageManager T} (h : Inv s out)
    (hfree : ∀ j ∈ Ico k (k + count), j < s.manager.count ∧ j ∉ out)
    (hpages : m.pageOf = s.manager.pageOf) (hcount : m.count = s.manager.count)
    (h' : Inv ⟨m, s.outstanding ∪ pagesFrom (s.manager.pageOf k) count⟩ (out ∪ Ico k (k + count))) :
    Allocates s (s.manager.pageOf k) count m := by
  have hinj := s.manager.pageOf_injective
  refine ⟨?_, ?_, fun q => ?_⟩
  · rw [pagesFrom_pageOf, managedPages_eq]
    exact image_subset_image fun j hj => mem_range.mpr (hfree j hj).1
  · rw [pagesFrom_pageOf, h.outstanding, disjoint_image hinj, disjoint_left]
    exact fun j hj => (hfree j hj).2
  · rw [h.allocatable_iff, pagesFrom_pageOf]
    refine (h'.allocatable_iff q).trans ?_
    show (∃ j < m.count, j ∉ out ∪ Ico k (k + count) ∧ q = m.pageOf j) ↔ _
    rw [hpages, hcount]
    simp only [mem_union, not_or, mem_image]
    constructor
    · rintro ⟨j, hj, ⟨hout, hnot⟩, rfl⟩
      refine ⟨⟨j, hj, hout, rfl⟩, ?_⟩
      rintro ⟨j', hj', heq⟩
      rw [hinj heq] at hj'
      exact hnot hj'
    · rintro ⟨⟨j, hj, hout, rfl⟩, hnot⟩; exact ⟨j, hj, ⟨hout, fun hmem => hnot ⟨j, hmem, rfl⟩⟩, rfl⟩

theorem usedDepths_clearRange (b : KPageBitmap T) (offset count : Nat) :
    (b.clearRange offset count).2.usedDepths = b.usedDepths := by
  unfold KPageBitmap.clearRange
  dsimp only
  split
  · split
    · rfl
    · rfl
  · split
    · rfl
    · rfl

theorem usedDepths_findFreeRange [TinyMT T] (b : KPageBitmap T) (numWords count : Nat) :
    (b.findFreeRange numWords count).2.usedDepths = b.usedDepths := by
  unfold KPageBitmap.findFreeRange
  split
  · rfl
  · rfl

theorem Inv.drawn {bitmap : KPageBitmap T} (h : Inv s out)
    (hdepths : bitmap.usedDepths = s.manager.pageBitmap.usedDepths)
    (hbitmap : bitmap.Represents ((range s.manager.count \ out).image fun k =>
      s.manager.baseBit + k)) :
    Inv ⟨{ s.manager with pageBitmap := bitmap }, s.outstanding⟩ out := by
  have hplaced := h.placed
  refine ⟨⟨hplaced.aligned_le, hplaced.aligned, hplaced.address, hplaced.addressEnd,
    hplaced.backingEnd, ?_, hdepths.trans_le hplaced.maxDepth⟩, h.subset, h.outstanding, h.used, hbitmap⟩
  show s.manager.baseBit + s.manager.count ≤ 64 ^ bitmap.usedDepths
  rw [hdepths]
  exact hplaced.depths

/-- The two ends of an allocation. -/
def AllocationEnds (s : Session T) (out : Finset Nat) (count : Nat)
    (r : Option Nat × KDynamicPageManager T) : Prop :=
  (r.1 = none ∧ Inv ⟨r.2, s.outstanding⟩ out) ∨
  ∃ k, r.1 = some (s.manager.pageOf k) ∧
    Allocates s (s.manager.pageOf k) count r.2 ∧
    Inv ⟨r.2, s.outstanding ∪ pagesFrom (s.manager.pageOf k) count⟩ (out ∪ Ico k (k + count))

theorem Inv.allocate [TinyMT T] (h : Inv s out) : AllocationEnds s out 1 s.manager.allocate := by
  obtain ⟨hbitmap, hempty | ⟨i, hi, hfound⟩⟩ := h.bitmap.findFreeBlock true
  · refine Or.inl ?_
    unfold KDynamicPageManager.allocate
    dsimp only
    rw [hempty.1]
    exact ⟨rfl, h.drawn rfl hbitmap⟩
  · obtain ⟨k, ⟨hk, hout⟩, rfl⟩ := mem_freeBits.mp hi
    have hfree : ∀ j ∈ Ico k (k + 1), j < s.manager.count ∧ j ∉ out := by
      intro j hj
      rw [mem_Ico] at hj
      have hjk : j = k := by omega
      rw [hjk]; exact ⟨hk, hout⟩
    have hclear := hbitmap.clearBit hi
    have herase : Ico (s.manager.baseBit + k) (s.manager.baseBit + k + 1) =
        {s.manager.baseBit + k} := by
      rw [Nat.Ico_succ_singleton]
    rw [← sdiff_singleton_eq_erase, ← herase] at hclear
    have hnonneg : ¬ ((s.manager.baseBit + k : Nat) : Int) < 0 := by omega
    have hinv := fun peak => @Inv.take T s out k 1 ((s.manager.pageBitmap.findFreeBlock true).2.clearBit
      (s.manager.baseBit + k)) peak h hfree rfl hclear _ rfl
    refine Or.inr ⟨k, ?_⟩
    unfold KDynamicPageManager.allocate
    dsimp only
    rw [hfound]
    simp only [hnonneg, if_false, Int.toNat_natCast, h.placed.pagePointer_eq hk]
    exact ⟨trivial, h.allocates hfree rfl rfl (hinv _), hinv _⟩

theorem Inv.allocateCount [TinyMT T] (h : Inv s out) (hpos : 0 < count) (hcount : count < 64) :
    AllocationEnds s out count (s.manager.allocateCount count) := by
  obtain ⟨hbitmap, hnone | ⟨i, hfound, hfit, hsubset⟩⟩ :=
    h.bitmap.findFreeRange (alignUp s.manager.regionSize 64 / 64) hpos hcount
  · refine Or.inl ?_
    unfold KDynamicPageManager.allocateCount
    dsimp only
    rw [hnone]
    exact ⟨rfl, h.drawn (usedDepths_findFreeRange _ _ _) hbitmap⟩
  · -- The first bit of the range is a managed page.
    have hfirst := hsubset (mem_Ico.mpr ⟨le_refl i, by omega⟩)
    obtain ⟨k, ⟨hk, hout⟩, rfl⟩ := mem_freeBits.mp hfirst
    have hfree : ∀ j ∈ Ico k (k + count), j < s.manager.count ∧ j ∉ out := by
      intro j hj
      rw [mem_Ico] at hj
      have hmem := hsubset (mem_Ico.mpr (show s.manager.baseBit + k ≤ s.manager.baseBit + j ∧
        s.manager.baseBit + j < s.manager.baseBit + k + count by omega))
      obtain ⟨j', hj', heq⟩ := mem_freeBits.mp hmem
      have hjj : j' = j := by omega
      rw [← hjj]; exact hj'
    have hclear := ((hbitmap.clearRange hcount hfit).1 hsubset).2
    have hdepths := (usedDepths_clearRange (s.manager.pageBitmap.findFreeRange
      (alignUp s.manager.regionSize 64 / 64) count).2 (s.manager.baseBit + k) count).trans
      (usedDepths_findFreeRange _ _ _)
    have hnonneg : ¬ ((s.manager.baseBit + k : Nat) : Int) < 0 := by omega
    have hinv := fun peak => @Inv.take T s out k count _ peak h hfree hdepths hclear _ rfl
    refine Or.inr ⟨k, ?_⟩
    unfold KDynamicPageManager.allocateCount
    dsimp only
    rw [hfound]
    simp only [hnonneg, if_false, Int.toNat_natCast, h.placed.pagePointer_eq hk]
    exact ⟨trivial, h.allocates hfree rfl rfl (hinv _), hinv _⟩

theorem freeOffset_eq_iff (h : m.Placed) (hk : k < m.count) :
    m.freeOffset (m.pageOf k) = m.baseBit + k ↔ m.HostMatches := by
  have hbase := h.baseBit_mul
  have haddress := h.addressEnd
  have hbacking := h.backingEnd
  have hle := h.aligned_le
  have hmul : (m.baseBit + k) * PageSize = m.baseBit * PageSize + k * PageSize := Nat.add_mul _ _ _
  have hlt : (k + 1) * PageSize ≤ m.count * PageSize := Nat.mul_le_mul_right _ hk
  obtain ⟨c, hc⟩ : ∃ c, c = m.baseBit + k := ⟨_, rfl⟩
  unfold freeOffset HostMatches pageOf
  rw [← hc] at hmul ⊢
  rw [pageSize_eq] at *
  omega

theorem Inv.free (h : Inv s out) (hk : k ∈ out) (hhost : s.manager.HostMatches) :
    Inv ⟨s.manager.free (s.manager.pageOf k), s.outstanding.erase (s.manager.pageOf k)⟩
      (out.erase k) := by
  have hplaced := h.placed
  have hlt : k < s.manager.count := mem_range.mp (h.subset hk)
  have hoffset := (freeOffset_eq_iff hplaced hlt).mpr hhost
  have hnot : s.manager.baseBit + k ∉
      (range s.manager.count \ out).image fun k => s.manager.baseBit + k := by
    intro hmem
    obtain ⟨j, ⟨-, hj⟩, heq⟩ := mem_freeBits.mp hmem
    have hjk : j = k := by omega
    exact hj (hjk ▸ hk)
  have hdepth : s.manager.baseBit + k < 64 ^ s.manager.pageBitmap.usedDepths :=
    lt_of_lt_of_le (Nat.add_lt_add_left hlt _) hplaced.depths
  have hset := h.bitmap.setBit hnot hdepth
  refine ⟨⟨hplaced.aligned_le, hplaced.aligned, hplaced.address, hplaced.addressEnd,
    hplaced.backingEnd, hplaced.depths, hplaced.maxDepth⟩, ?_, ?_, ?_, ?_⟩
  · exact (erase_subset k out).trans h.subset
  · show s.outstanding.erase (s.manager.pageOf k) = (out.erase k).image s.manager.pageOf
    rw [h.outstanding, image_erase s.manager.pageOf_injective]
  · show s.manager.used - 1 = _
    rw [card_erase_of_mem hk, h.used]
  · show (s.manager.pageBitmap.setBit (s.manager.freeOffset (s.manager.pageOf k))).Represents
      ((range s.manager.count \ out.erase k).image fun k => s.manager.baseBit + k)
    have hbits : insert (s.manager.baseBit + k)
        ((range s.manager.count \ out).image fun k => s.manager.baseBit + k) =
        (range s.manager.count \ out.erase k).image fun k => s.manager.baseBit + k := by
      ext i
      simp only [mem_insert, mem_image, mem_sdiff, mem_range, mem_erase, not_and_or, not_not]
      constructor
      · rintro (rfl | ⟨j, ⟨hj, hjout⟩, rfl⟩)
        · exact ⟨k, ⟨hlt, Or.inl rfl⟩, rfl⟩
        · exact ⟨j, ⟨hj, Or.inr hjout⟩, rfl⟩
      · rintro ⟨j, ⟨hj, rfl | hjout⟩, rfl⟩
        · exact Or.inl rfl
        · exact Or.inr ⟨j, ⟨hj, hjout⟩, rfl⟩
    rw [hoffset, ← hbits]; exact hset

theorem bitAt_free (h : Inv s out) (page i : Nat) :
    KPageBitmap.bitAt (s.manager.free page).pageBitmap.bitStorages
        ((s.manager.free page).pageBitmap.usedDepths - 1) i = true ↔
      i = s.manager.freeOffset page ∨
        i ∈ (range s.manager.count \ out).image fun k => s.manager.baseBit + k := by
  have hspec := KPageBitmap.setBitFrom_spec (s.manager.freeOffset page) h.bitmap.summary
  rw [← h.bitmap.usedDepths_eq] at hspec
  obtain ⟨-, -, hbits⟩ := hspec
  show KPageBitmap.bitAt (KPageBitmap.setBitFrom s.manager.pageBitmap.bitStorages
    s.manager.pageBitmap.usedDepths (s.manager.freeOffset page))
    (s.manager.pageBitmap.usedDepths - 1) i = true ↔ _
  rw [hbits i, Bool.or_eq_true, decide_eq_true_eq, h.bitmap.bit_iff]

/-- FREE IS EXACT if and only if the host vector lies right. -/
theorem Inv.free_exact_iff [TinyMT T] (h : Inv s out) {page : Nat} (hpage : page ∈ s.outstanding) :
    StepExact s (.free page) ↔ s.manager.HostMatches := by
  rw [h.outstanding] at hpage
  obtain ⟨k, hk, rfl⟩ := mem_image.mp hpage
  have hplaced := h.placed
  have hlt : k < s.manager.count := mem_range.mp (h.subset hk)
  constructor
  · intro hexact
    rw [← freeOffset_eq_iff hplaced hlt]
    obtain ⟨i, hbit, hpointer⟩ := (hexact (s.manager.pageOf k)).mpr (Or.inl rfl)
    rcases (bitAt_free h _ i).mp hbit with hi | hi
    · -- Bit numbers below 2^52 have different pointers.
      have hbound : i < 2 ^ 52 := by
        rw [hi]
        unfold freeOffset
        rw [pageSize_eq]; omega
      have hsame : s.manager.pagePointer (s.manager.baseBit + k) = s.manager.pagePointer i :=
        (hplaced.pagePointer_eq hlt).trans hpointer
      have hbase := hplaced.baseBit_mul
      have haddress := hplaced.addressEnd
      have hle := hplaced.aligned_le
      have hmul : (s.manager.baseBit + k) * PageSize =
        s.manager.baseBit * PageSize + k * PageSize := Nat.add_mul _ _ _
      have hlast : (k + 1) * PageSize ≤ s.manager.count * PageSize := Nat.mul_le_mul_right _ hlt
      obtain ⟨c, hc⟩ : ∃ c, c = s.manager.baseBit + k := ⟨_, rfl⟩
      unfold pagePointer at hsame
      rw [← hi, ← hc]
      rw [← hc] at hsame hmul
      rw [pageSize_eq] at *
      omega
    · obtain ⟨j, ⟨hj, hjout⟩, rfl⟩ := mem_freeBits.mp hi
      have hpages : s.manager.pageOf k = s.manager.pageOf j :=
        hpointer.trans (hplaced.pagePointer_eq hj)
      rw [s.manager.pageOf_injective hpages] at hk; exact absurd hk hjout
  · intro hhost q
    rw [h.allocatable_iff]
    refine ((h.free hk hhost).allocatable_iff q).trans ?_
    show (∃ j < s.manager.count, j ∉ out.erase k ∧ q = s.manager.pageOf j) ↔ _
    simp only [mem_erase, not_and_or, not_not]
    constructor
    · rintro ⟨j, hj, rfl | hjout, rfl⟩
      · exact Or.inl rfl
      · exact Or.inr ⟨j, hj, hjout, rfl⟩
    · rintro (rfl | ⟨j, hj, hjout, rfl⟩)
      · exact ⟨k, hlt, Or.inl rfl, rfl⟩
      · exact ⟨j, hj, Or.inr hjout, rfl⟩

theorem AllocationEnds.received {r : Option Nat × KDynamicPageManager T}
    (h : AllocationEnds s out count r) : ∃ out', Inv (s.received count r) out' := by
  obtain ⟨answer, m'⟩ := r
  rcases h with ⟨hnone, hinv⟩ | ⟨k, hsome, -, hinv⟩
  · cases hnone
    exact ⟨out, hinv⟩
  · cases hsome
    exact ⟨_, hinv⟩

theorem AllocationEnds.allocates {page : Nat} {m' : KDynamicPageManager T}
    (h : AllocationEnds s out count (some page, m')) : Allocates s page count m' := by
  rcases h with ⟨hnone, -⟩ | ⟨k, hsome, hexact, -⟩
  · cases hnone
  · cases hsome
    exact hexact

theorem Inv.step [TinyMT T] {a : Action} (h : Inv s out) (hallowed : Allowed s a)
    (hharmless : Harmless s a) : ∃ out', Inv (s.step a) out' := by
  cases a with
  | allocate => exact h.allocate.received
  | allocateCount count =>
    exact (h.allocateCount hallowed.1 (lt_of_le_of_ne hallowed.2 hharmless)).received
  | free page =>
    have hmem : page ∈ s.outstanding := hallowed
    rw [h.outstanding] at hmem
    obtain ⟨k, hk, rfl⟩ := mem_image.mp hmem; exact ⟨_, h.free hk hharmless⟩

theorem Inv.stepExact_iff [TinyMT T] {a : Action} (h : Inv s out) (hallowed : Allowed s a)
    (hcount : a ≠ .allocateCount 64) : StepExact s a ↔ Harmless s a := by
  cases a with
  | allocate =>
    refine iff_of_true (fun page m' heq => ?_) trivial
    have hends := h.allocate
    rw [heq] at hends; exact hends.allocates
  | allocateCount count =>
    have hne : count ≠ 64 := fun hc => hcount (congrArg Action.allocateCount hc)
    refine iff_of_true (fun page m' heq => ?_) hne
    have hends := h.allocateCount hallowed.1 (lt_of_le_of_ne hallowed.2 hne)
    rw [heq] at hends; exact hends.allocates
  | free page => exact h.free_exact_iff hallowed

theorem Inv.runAll [TinyMT T] {actions : List Action} (h : Inv s out)
    (hrun : HarmlessRun s actions) : ∃ out', Inv (KDynamicPageManager.runAll s actions) out' := by
  induction actions generalizing s out with
  | nil => exact ⟨out, h⟩
  | cons a actions ih =>
    obtain ⟨hallowed, hharmless, hrest⟩ := hrun
    obtain ⟨out', hinv⟩ := h.step hallowed hharmless; exact ih hinv hrest

end Invariant

/-! ## The start -/

section Start

variable {b : KPageBitmap T} {backing memory size align n base : Nat}

theorem freeAll_usedDepths (address alignedAddress : Nat) (b : KPageBitmap T) :
    (freeAll address alignedAddress n b).usedDepths = b.usedDepths := by
  induction n with
  | zero => rfl
  | succ n ih => exact ih

theorem represents_freeAll {address alignedAddress : Nat} (hb : b.Represents ∅)
    (hbase : address = alignedAddress + base * PageSize) (hn : base + n ≤ 64 ^ b.usedDepths) :
    (freeAll address alignedAddress n b).Represents ((range n).image fun k => base + k) := by
  induction n with
  | zero => exact hb
  | succ n ih =>
    have hbit : (address + n * PageSize - alignedAddress) / PageSize = base + n := by
      rw [hbase, pageSize_eq]; omega
    have hnot : base + n ∉ (range n).image fun k => base + k := by
      rw [mem_image]
      rintro ⟨k, hk, heq⟩
      rw [mem_range] at hk; omega
    have hset := (ih (by omega)).setBit hnot (by rw [freeAll_usedDepths]; omega)
    rw [freeAll, hbit, range_add_one, image_insert]; exact hset

theorem init_inv {m : KDynamicPageManager T} (hmemory : memory % PageSize = 0)
    (halign : align % PageSize = 0) (hend : memory + size ≤ 2 ^ 64)
    (hbacking : backing + size ≤ 2 ^ 64) (hinit : init b backing memory size align = some m)
    (hmax : KPageBitmap.getRequiredDepth m.regionSize ≤ 4) : Inv ⟨m, ∅⟩ ∅ := by
  unfold init at hinit
  dsimp only at hinit
  split at hinit
  · cases hinit
  · split at hinit
    · cases hinit
    next hoverhead =>
      generalize alignUp (KPageBitmap.calculateManagementOverheadSize
        ((memory + size - alignDown memory align) / PageSize)) PageSize = overhead at hinit hoverhead
      have haligned : alignDown memory align % PageSize = 0 := by
        obtain ⟨c, hc⟩ := Nat.dvd_of_mod_eq_zero halign
        have hmul : alignDown memory align = PageSize * (c * (memory / align)) := by
          have hdiv := Nat.div_add_mod memory align
          have heq : alignDown memory align = align * (memory / align) := by
            unfold alignDown; omega
          rw [heq, hc, Nat.mul_assoc]
        rw [hmul]; exact Nat.mul_mod_right _ _
      have hle : alignDown memory align ≤ memory := Nat.sub_le _ _
      cases hinit
      change KPageBitmap.getRequiredDepth ((memory + size - overhead - alignDown memory align) / PageSize) ≤ 4
        at hmax
      generalize alignDown memory align = aligned at haligned hle hmax
      obtain ⟨base, hbase⟩ : ∃ base, base = (memory - aligned) / PageSize := ⟨_, rfl⟩
      have hmem : memory = aligned + base * PageSize := by
        rw [hbase, pageSize_eq]
        rw [pageSize_eq] at hmemory haligned; omega
      obtain ⟨count, hcount⟩ :
          ∃ count, count = alignDown (size - overhead) PageSize / PageSize := ⟨_, rfl⟩
      have hcountle : count * PageSize ≤ size - overhead := by
        rw [hcount]
        unfold alignDown
        rw [pageSize_eq]; omega
      have hregion : base + count ≤ (memory + size - overhead - aligned) / PageSize := by
        rw [pageSize_eq] at *; omega
      have hdepth : base + count ≤ 64 ^ KPageBitmap.getRequiredDepth
          ((memory + size - overhead - aligned) / PageSize) :=
        hregion.trans (KPageBitmap.lt_pow_getRequiredDepth _).le
      rw [← hcount]
      refine ⟨⟨hle, haligned, hmemory, ?_, ?_, ?_, ?_⟩, empty_subset _, rfl, rfl, ?_⟩
      · show memory + count * PageSize ≤ 2 ^ 64
        omega
      · show backing + count * PageSize ≤ 2 ^ 64
        omega
      · show (memory - aligned) / PageSize + count ≤ 64 ^ _
        rw [← hbase, freeAll_usedDepths]
        exact hdepth
      · rw [freeAll_usedDepths]
        exact hmax
      · show (freeAll memory aligned count _).Represents
          ((range count \ ∅).image fun k => (memory - aligned) / PageSize + k)
        rw [sdiff_empty, ← hbase]
        exact represents_freeAll (KPageBitmap.represents_init b _) hmem hdepth

/-- OVER WHOLE RUNS: as long as every `Free` finds the host vector at the kernel address and no 64 pages
    are asked for at once, the pages are kept right; and the next `Free` is exact if and only if it finds
    the vector there.  The bitmap must not need more than its `MaxDepth = 4` storages. -/
theorem dynamicPages_runs [TinyMT T] {m : KDynamicPageManager T} {actions : List Action}
    (hmemory : memory % PageSize = 0) (halign : align % PageSize = 0)
    (hend : memory + size ≤ 2 ^ 64) (hbacking : backing + size ≤ 2 ^ 64)
    (hinit : init b backing memory size align = some m)
    (hdepth : KPageBitmap.getRequiredDepth m.regionSize ≤ 4) (hrun : HarmlessRun ⟨m, ∅⟩ actions) :
    Sound (runAll ⟨m, ∅⟩ actions) ∧
    ∀ a, Allowed (runAll ⟨m, ∅⟩ actions) a → a ≠ .allocateCount 64 →
      (StepExact (runAll ⟨m, ∅⟩ actions) a ↔ Harmless (runAll ⟨m, ∅⟩ actions) a) := by
  obtain ⟨out, hinv⟩ := (init_inv hmemory halign hend hbacking hinit hdepth).runAll hrun
  exact ⟨hinv.sound, fun a hallowed hcount => hinv.stepExact_iff hallowed hcount⟩

/-- A bitmap before `Initialize`. -/
def blankBitmap : KPageBitmap Unit := ⟨fun _ _ => 0, 0, 0, ⟨(), 0#32, 0⟩⟩

/-- A manager of one page whose host vector lies at its kernel address. -/
def matchingManager : KDynamicPageManager Unit :=
  (init blankBitmap 0x10000 0x10000 0x2000 0x1000).get rfl

theorem dynamicPages_runs_matching :
    Sound (runAll ⟨matchingManager, ∅⟩ [.allocate, .free 0x10000, .allocateCount 1]) := by
  have hmem : 0x10000 ∈ ((⟨matchingManager, ∅⟩ : Session Unit).step .allocate).outstanding := by
    decide +kernel
  have hhost : ((⟨matchingManager, ∅⟩ : Session Unit).step .allocate).manager.HostMatches := by
    unfold HostMatches; decide +kernel
  have hrun : HarmlessRun ⟨matchingManager, ∅⟩ [.allocate, .free 0x10000, .allocateCount 1] :=
    ⟨trivial, trivial, hmem, hhost, ⟨by decide, by decide⟩, (by decide : (1 : Nat) ≠ 64), trivial⟩
  exact (@dynamicPages_runs Unit blankBitmap 0x10000 0x10000 0x2000 0x1000 _ matchingManager _
    (by decide) (by decide) (by decide) (by decide) rfl (by decide +kernel) hrun).1

-- 64 pages are given out although the one page there is has been given out already.
example : ((runAll ⟨matchingManager, ∅⟩ [.allocate]).manager.allocateCount 64).1 = some 0x10000 := by
  decide +kernel

/-- A manager of one page whose host vector lies where host vectors lie. -/
def strayManager : KDynamicPageManager Unit :=
  (init blankBitmap 0x7F0000000000 0xFFFFFFE000000000 0x2000 0x1000).get rfl

/-- The page is given out, and `Free` does not give it back. -/
theorem dynamicPages_stray :
    init blankBitmap 0x7F0000000000 0xFFFFFFE000000000 0x2000 0x1000 = some strayManager ∧
    0x7F0000000000 ∈ (runAll ⟨strayManager, ∅⟩ [.allocate]).outstanding ∧
    ¬ StepExact (runAll ⟨strayManager, ∅⟩ [.allocate]) (.free 0x7F0000000000) := by
  have hinit : init blankBitmap 0x7F0000000000 0xFFFFFFE000000000 0x2000 0x1000 =
      some strayManager := rfl
  have hmem : 0x7F0000000000 ∈ (runAll ⟨strayManager, ∅⟩ [.allocate]).outstanding := by
    decide +kernel
  have hstray : ¬ (runAll ⟨strayManager, ∅⟩ [.allocate]).manager.HostMatches := by
    unfold HostMatches; decide +kernel
  have hrun : HarmlessRun ⟨strayManager, ∅⟩ [.allocate] := ⟨trivial, trivial, trivial⟩
  obtain ⟨out, hinv⟩ :=
    (init_inv (by decide) (by decide) (by decide) (by decide) hinit (by decide +kernel)).runAll hrun
  exact ⟨hinit, hmem, fun hexact => hstray ((hinv.free_exact_iff hmem).mp hexact)⟩

end Start

end KDynamicPageManager

end Suyu.Kernel
