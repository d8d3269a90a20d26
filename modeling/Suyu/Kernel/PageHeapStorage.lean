import Mathlib
import Suyu.Kernel.DynamicPageManager

/-
  Where the bitmaps of a KPageHeap lie in `m_management_data`.

  1. **Program** - `KPageBitmap::Initialize` takes its words from a pointer, the LAST depth first, and
     hands on what is behind them; `KPageHeap::Initialize` does so for the seven block sizes.
     `CalculateManagementOverheadSize` is the size that callers reserve.  Addresses have 64 bits.

  2. **Specification** - the words laid out are no more than that size has room for, and every bit of a
     block leads to a word inside.

  3. **The crux (`overheadLoop_mono`, `coveredBlocks_le`)** - the words of a bitmap grow with its bits, and
     a heap rounded at both ends to blocks is at most one block longer than its rounded size: the formula
     grants two.
-/

namespace Suyu.Kernel

open Function (update update_self update_of_ne)

namespace KPageBitmap

/-! ## The layout of one bitmap -/

/-- `m_bit_storages` and `m_end_storages`, counted in words, with `m_used_depths`. -/
structure Storages where
  bitStorages : Nat → Nat
  endStorages : Nat → Nat
  usedDepths : Nat

/-- The loop of `Initialize`, over the depths below `depths`. -/
def layOut : (depths size storage : Nat) → Storages → Storages × Nat
  | 0, _, storage, s => (s, storage)
  | depth + 1, size, storage, s =>
      let size := alignUp size 64 / 64
      layOut depth size (storage + size)
        { s with
          bitStorages := update s.bitStorages depth storage
          endStorages := update s.endStorages depth (storage + size) }

/-- `Initialize`: the storages, and the end of them. -/
def initializeStorages (storage size : Nat) : Storages × Nat :=
  layOut (getRequiredDepth size) size storage ⟨fun _ => 0, fun _ => 0, getRequiredDepth size⟩

variable {depths depths' size size' storage bits bits' offset : Nat}

theorem words_mono (h : size ≤ size') : alignUp size 64 / 64 ≤ alignUp size' 64 / 64 := by
  rw [alignUp, alignUp]
  split <;> split <;> omega

theorem overheadLoop_add (depths size bits : Nat) :
    overheadLoop depths size bits = bits + overheadLoop depths size 0 := by
  induction depths generalizing size bits with
  | zero => rfl
  | succ depths ih =>
    rw [overheadLoop, ih, overheadLoop, ih (alignUp size 64 / 64) (0 + _)]; omega

theorem overheadLoop_mono (hdepths : depths ≤ depths') (hsize : size ≤ size') :
    overheadLoop depths size 0 ≤ overheadLoop depths' size' 0 := by
  induction depths generalizing depths' size size' with
  | zero => exact Nat.zero_le _
  | succ depths ih =>
    obtain ⟨k, rfl⟩ := Nat.exists_eq_add_of_le' (Nat.le_trans (Nat.le_add_left 1 depths) hdepths)
    have hwords := words_mono hsize
    have hrest := ih (by omega : depths ≤ k) hwords
    rw [overheadLoop, overheadLoop, overheadLoop_add, overheadLoop_add k]; omega

theorem pow_le_of_getRequiredDepthLoop {rounds depth : Nat} (h : size < rounds) :
    getRequiredDepthLoop rounds size depth = depth + 1 ∨
      64 ^ (getRequiredDepthLoop rounds size depth - depth - 1) ≤ size := by
  induction rounds generalizing size depth with
  | zero => omega
  | succ rounds ih =>
    rw [getRequiredDepthLoop]
    split
    · exact Or.inl rfl
    rename_i hne
    refine Or.inr ?_
    have hlt := (@getRequiredDepthLoop_spec rounds (size / 64) (depth + 1) (by omega)).1
    obtain ⟨k, hk⟩ := Nat.exists_eq_add_of_lt hlt
    rcases @ih (size / 64) (depth + 1) (by omega) with h₁ | h₁
    · rw [h₁, show depth + 1 + 1 - depth - 1 = 1 by omega]; omega
    rw [hk] at h₁ ⊢
    rw [show depth + 1 + k + 1 - (depth + 1) - 1 = k by omega] at h₁
    rw [show depth + 1 + k + 1 - depth - 1 = k + 1 by omega, Nat.pow_succ]; omega

theorem getRequiredDepth_mono (h : size ≤ size') : getRequiredDepth size ≤ getRequiredDepth size' := by
  by_contra hgt
  have hpos := getRequiredDepth_pos size'
  rcases @pow_le_of_getRequiredDepthLoop size _ 0 (Nat.lt_succ_self size) with h₁ | h₁
  · have : getRequiredDepth size = 0 + 1 := h₁
    omega
  · have hle : 64 ^ getRequiredDepth size' ≤ 64 ^ (getRequiredDepth size - 0 - 1) :=
      Nat.pow_le_pow_right (by decide) (by omega)
    have hlt := lt_pow_getRequiredDepth size'
    have : 64 ^ (getRequiredDepth size - 0 - 1) ≤ size := h₁
    omega

theorem layOut_spec (depths size storage : Nat) (s : Storages) :
    (layOut depths size storage s).2 = storage + overheadLoop depths size 0 ∧
    (layOut depths size storage s).1.usedDepths = s.usedDepths ∧
    (∀ d, depths ≤ d → (layOut depths size storage s).1.bitStorages d = s.bitStorages d ∧
      (layOut depths size storage s).1.endStorages d = s.endStorages d) ∧
    ∀ offset < size, ∀ d < depths,
      storage ≤ (layOut depths size storage s).1.bitStorages d ∧
      (layOut depths size storage s).1.bitStorages d + offset / 64 ^ (depths - d) <
        (layOut depths size storage s).1.endStorages d ∧
      (layOut depths size storage s).1.endStorages d ≤ (layOut depths size storage s).2 := by
  induction depths generalizing size storage s with
  | zero => exact ⟨rfl, rfl, fun _ _ => ⟨rfl, rfl⟩, fun _ _ d hd => absurd hd (Nat.not_lt_zero d)⟩
  | succ depths ih =>
    obtain ⟨hend, hdepths, hframe, hbits⟩ := ih (alignUp size 64 / 64) (storage + alignUp size 64 / 64)
      { s with
        bitStorages := update s.bitStorages depths storage
        endStorages := update s.endStorages depths (storage + alignUp size 64 / 64) }
    rw [layOut]
    refine ⟨?_, hdepths, fun d hd => ?_, fun offset ho d hd => ?_⟩
    · rw [hend, overheadLoop, overheadLoop_add depths _ (0 + _)]
      omega
    · obtain ⟨h₁, h₂⟩ := hframe d (by omega)
      exact ⟨h₁.trans (update_of_ne (by omega) _ _), h₂.trans (update_of_ne (by omega) _ _)⟩
    · have hword : offset / 64 < alignUp size 64 / 64 := by
        rw [alignUp]
        split <;> omega
      rcases Nat.lt_or_eq_of_le (Nat.le_of_lt_succ hd) with hlt | rfl
      · -- a depth above: the bit is the number of the word
        obtain ⟨h₁, h₂, h₃⟩ := hbits (offset / 64) hword d hlt
        rw [show depths + 1 - d = depths - d + 1 by omega, Nat.pow_succ', ← Nat.div_div_eq_div_mul]
        exact ⟨by omega, h₂, h₃⟩
      · obtain ⟨h₁, h₂⟩ := hframe d le_rfl
        have h₁ := h₁.trans (update_self _ _ _)
        have h₂ := h₂.trans (update_self _ _ _)
        rw [h₁, h₂, hend, Nat.add_sub_cancel_left, Nat.pow_one]
        exact ⟨le_rfl, by omega, Nat.le_add_right _ _⟩

/-- The word that a bit leads to at a depth. -/
def wordOf (s : Storages) (offset depth : Nat) : Nat :=
  s.bitStorages depth + offset / 64 ^ (s.usedDepths - depth)

theorem initializeStorages_spec (storage size : Nat) :
    (initializeStorages storage size).2 = storage + overheadLoop (getRequiredDepth size) size 0 ∧
    ∀ offset < size, ∀ d < (initializeStorages storage size).1.usedDepths,
      wordOf (initializeStorages storage size).1 offset d < (initializeStorages storage size).2 := by
  obtain ⟨hend, hdepths, -, hword⟩ := layOut_spec (getRequiredDepth size) size storage
    ⟨fun _ => 0, fun _ => 0, getRequiredDepth size⟩
  refine ⟨hend, fun offset ho d hd => ?_⟩
  rw [wordOf]
  rw [initializeStorages] at hd ⊢
  rw [hdepths] at hd ⊢
  obtain ⟨-, h₁, h₂⟩ := hword offset ho d hd
  exact lt_of_lt_of_le h₁ h₂

end KPageBitmap

/-! ## The layout of the heap -/

namespace KPageHeap

open KPageBitmap

/-- `m_end_offset` of `Block::Initialize`, on 64-bit addresses. -/
def endOffset (address size bs nbs : Nat) : Nat :=
  let stop := alignUp ((address + size) % 2 ^ 64) (blockAlign bs nbs) % 2 ^ 64
  (stop + 2 ^ 64 - blockStart address bs nbs) % 2 ^ 64 / 2 ^ bs

/-- The loop of `Initialize`, with `cur_bitmap_storage`. -/
def initializeBlocks (address size : Nat) :
    (rounds i storage : Nat) → (Nat → Storages) → (Nat → Storages) × Nat
  | 0, _, storage, blocks => (blocks, storage)
  | rounds + 1, i, storage, blocks =>
      let r := initializeStorages storage (endOffset address size (pageShift i) (nextShift i))
      initializeBlocks address size rounds (i + 1) r.2 (update blocks i r.1)

/-- `Block::CalculateManagementOverheadSize`. -/
def blockOverheadSize (regionSize bs nbs : Nat) : Nat :=
  calculateManagementOverheadSize
    ((blockAlign bs nbs * 2 + alignUp regionSize (blockAlign bs nbs)) % 2 ^ 64 / 2 ^ bs)

/-- The loop of `CalculateManagementOverheadSize`. -/
def overheadSizes (regionSize : Nat) : (rounds i overheadSize : Nat) → Nat
  | 0, _, overheadSize => overheadSize
  | rounds + 1, i, overheadSize =>
      overheadSizes regionSize rounds (i + 1)
        (overheadSize + blockOverheadSize regionSize (pageShift i) (nextShift i))

def calculateManagementOverheadSize (regionSize : Nat) : Nat :=
  alignUp (overheadSizes regionSize numMemoryBlockPageShifts 0 0) PageSize

/-- The bit of level `i` for an address, as `PushBlock` computes it. -/
def blockOffset (heapAddress i address : Nat) : Nat :=
  ((address + 2 ^ 64 - blockStart heapAddress (pageShift i) (nextShift i)) % 2 ^ 64) >>> pageShift i

/-! ## Rounding -/

variable {address size i a m : Nat}

theorem alignUp_add_mul (value a c : Nat) : alignUp (value + a * c) a = alignUp value a + a * c := by
  have hle := Nat.mod_le value a
  rw [alignUp, alignUp, Nat.add_mul_mod_self_left]
  split <;> omega

theorem alignUp_mod (value : Nat) (h : a ∣ m) : alignUp (value % m) a % m = alignUp value a % m := by
  obtain ⟨c, rfl⟩ := h
  conv_rhs => rw [← Nat.mod_add_div value (a * c), Nat.mul_assoc, alignUp_add_mul, ← Nat.mul_assoc,
    Nat.add_mul_mod_self_left]

theorem rounded_le (ha : 0 < a) (address size : Nat) :
    alignUp (address + size) a ≤ alignDown address a + (alignUp size a + a) := by
  have hlt := Nat.mod_lt address ha
  have hdown : address = alignDown address a + address % a := by
    have := Nat.mod_le address a
    rw [alignDown]; omega
  obtain ⟨c, hc⟩ : a ∣ alignDown address a := by
    rw [alignDown_eq]; exact Nat.dvd_mul_left a _
  obtain ⟨d, hd⟩ := dvd_alignUp size a
  have hle := le_alignUp size ha
  -- the address is below the next block, the size is rounded
  have hbound : address + size ≤ a * (c + d + 1) := by
    rw [Nat.mul_succ, Nat.mul_add]; omega
  have hup := @alignUp_lt (address + size) _ ha
  obtain ⟨e, he⟩ := dvd_alignUp (address + size) a
  rw [he] at hup ⊢
  have hlt' : a * e < a * (c + d + 2) := by
    rw [show c + d + 2 = c + d + 1 + 1 by omega, Nat.mul_succ]; omega
  have hce : e < c + d + 2 := Nat.lt_of_mul_lt_mul_left hlt'
  have hmul : a * e ≤ a * (c + d + 1) := Nat.mul_le_mul_left a (by omega)
  rw [Nat.mul_succ, Nat.mul_add] at hmul
  omega

/-! ## One level -/

theorem nextShift_eq (hi : i < 7) : nextShift i = 0 ∨ pageShift i ≤ nextShift i ∧ nextShift i ≤ 30 := by
  interval_cases i <;> decide

theorem pageShift_le (hi : i < 7) : pageShift i ≤ 30 := by
  interval_cases i <;> decide

theorem blockAlign_dvd (hi : i < 7) : blockAlign (pageShift i) (nextShift i) ∣ 2 ^ 64 := by
  have hp := pageShift_le hi
  rw [blockAlign]
  split
  · have := nextShift_eq hi
    exact Nat.pow_dvd_pow 2 (by omega)
  · exact Nat.pow_dvd_pow 2 (by omega)

theorem blockAlign_pos (i : Nat) : 0 < blockAlign (pageShift i) (nextShift i) := by
  rw [blockAlign]
  split <;> exact Nat.two_pow_pos _

theorem size_dvd_blockAlign (hi : i < 7) : 2 ^ pageShift i ∣ blockAlign (pageShift i) (nextShift i) := by
  rw [blockAlign]
  split
  · have := nextShift_eq hi
    exact Nat.pow_dvd_pow 2 (by omega)
  · exact dvd_rfl

theorem rounded_span (hi : i < 7) (hdepth : getRequiredDepth (coveredBlocks address size i) ≤ 4) :
    alignUp (address + size) (blockAlign (pageShift i) (nextShift i)) =
        blockStart address (pageShift i) (nextShift i) + coveredBlocks address size i * 2 ^ pageShift i ∧
      coveredBlocks address size i * 2 ^ pageShift i < 2 ^ 54 := by
  have hlt := lt_pow_getRequiredDepth (coveredBlocks address size i)
  have hpow : 64 ^ getRequiredDepth (coveredBlocks address size i) ≤ 64 ^ 4 :=
    Nat.pow_le_pow_right (by decide) hdepth
  have hle : blockStart address (pageShift i) (nextShift i) ≤
      alignUp (address + size) (blockAlign (pageShift i) (nextShift i)) :=
    (alignDown_le _ _).trans ((Nat.le_add_right _ _).trans (le_alignUp _ (blockAlign_pos i)))
  have hdvd : 2 ^ pageShift i ∣ alignUp (address + size) (blockAlign (pageShift i) (nextShift i)) -
      blockStart address (pageShift i) (nextShift i) := by
    refine Nat.dvd_sub ((size_dvd_blockAlign hi).trans (dvd_alignUp _ _)) ?_
    rw [blockStart, alignDown_eq]
    exact (size_dvd_blockAlign hi).trans (Nat.dvd_mul_left _ _)
  refine ⟨?_, ?_⟩
  · rw [coveredBlocks, Nat.div_mul_cancel hdvd]
    omega
  · calc coveredBlocks address size i * 2 ^ pageShift i < 2 ^ 24 * 2 ^ pageShift i :=
          Nat.mul_lt_mul_of_pos_right (lt_of_lt_of_le hlt hpow) (Nat.two_pow_pos _)
      _ ≤ 2 ^ 24 * 2 ^ 30 := Nat.mul_le_mul_left _ (Nat.pow_le_pow_right (by decide) (pageShift_le hi))
      _ = 2 ^ 54 := by decide

theorem endOffset_eq (hi : i < 7) (haddress : address < 2 ^ 64)
    (hdepth : getRequiredDepth (coveredBlocks address size i) ≤ 4) :
    endOffset address size (pageShift i) (nextShift i) = coveredBlocks address size i := by
  obtain ⟨hspan, hlt⟩ := rounded_span hi hdepth
  have hstart : blockStart address (pageShift i) (nextShift i) ≤ address := alignDown_le _ _
  rw [endOffset]
  rw [alignUp_mod _ (blockAlign_dvd hi), hspan]
  have hwrap : ((blockStart address (pageShift i) (nextShift i) +
      coveredBlocks address size i * 2 ^ pageShift i) % 2 ^ 64 + 2 ^ 64 -
      blockStart address (pageShift i) (nextShift i)) % 2 ^ 64 =
      coveredBlocks address size i * 2 ^ pageShift i := by
    generalize coveredBlocks address size i * 2 ^ pageShift i = n at hlt ⊢
    omega
  rw [hwrap, Nat.mul_div_cancel _ (Nat.two_pow_pos _)]

theorem blockOffset_lt (hi : i < 7) (haddress : address < 2 ^ 64)
    (hdepth : getRequiredDepth (coveredBlocks address size i) ≤ 4) {j : Nat} (hj : j < size) :
    blockOffset address i ((address + j) % 2 ^ 64) < coveredBlocks address size i := by
  obtain ⟨hspan, hlt⟩ := rounded_span hi hdepth
  have hstart : blockStart address (pageShift i) (nextShift i) ≤ address := alignDown_le _ _
  have hup := le_alignUp (address + size) (blockAlign_pos i)
  rw [hspan] at hup
  rw [blockOffset, Nat.shiftRight_eq_div_pow, Nat.div_lt_iff_lt_mul (Nat.two_pow_pos _)]
  generalize coveredBlocks address size i * 2 ^ pageShift i = n at hlt hup ⊢
  omega

theorem coveredBlocks_le (hi : i < 7) (hdepth : getRequiredDepth (coveredBlocks address size i) ≤ 4) :
    coveredBlocks address size i ≤ (blockAlign (pageShift i) (nextShift i) * 2 +
      alignUp size (blockAlign (pageShift i) (nextShift i))) % 2 ^ 64 / 2 ^ pageShift i := by
  obtain ⟨hspan, hlt⟩ := rounded_span hi hdepth
  have hpos := blockAlign_pos i
  have hround := rounded_le hpos address size
  have halign : blockAlign (pageShift i) (nextShift i) ≤ 2 ^ 30 := by
    rw [blockAlign]
    split
    · have := nextShift_eq hi
      exact Nat.pow_le_pow_right (by decide) (by omega)
    · exact Nat.pow_le_pow_right (by decide) (pageShift_le hi)
  have hsize := @alignUp_lt size _ hpos
  have hup := le_alignUp (address + size) hpos
  have hdown : blockStart address (pageShift i) (nextShift i) ≤ address := alignDown_le _ _
  rw [Nat.le_div_iff_mul_le (Nat.two_pow_pos _)]
  rw [hspan, ← blockStart] at hround
  rw [hspan] at hup
  generalize coveredBlocks address size i * 2 ^ pageShift i = n at *
  rw [Nat.mod_eq_of_lt (by omega)]
  omega

/-! ## All levels -/

theorem overheadSizes_mono {rounds bits bits' : Nat} (h : bits ≤ bits') :
    overheadSizes size rounds i bits ≤ overheadSizes size rounds i bits' := by
  induction rounds generalizing i bits bits' with
  | zero => exact h
  | succ rounds ih => exact ih (Nat.add_le_add_right h _)

theorem initializeBlocks_spec (rounds storage : Nat) (blocks : Nat → Storages)
    (hbits : ∀ k, i ≤ k → k < i + rounds → endOffset address size (pageShift k) (nextShift k) ≤
      (blockAlign (pageShift k) (nextShift k) * 2 +
        alignUp size (blockAlign (pageShift k) (nextShift k))) % 2 ^ 64 / 2 ^ pageShift k) :
    (initializeBlocks address size rounds i storage blocks).2 * 8 ≤
        overheadSizes size rounds i (storage * 8) ∧
      storage ≤ (initializeBlocks address size rounds i storage blocks).2 ∧
      (∀ k < i, (initializeBlocks address size rounds i storage blocks).1 k = blocks k) ∧
      ∀ k, i ≤ k → k < i + rounds → ∃ start,
        (initializeBlocks address size rounds i storage blocks).1 k =
          (initializeStorages start (endOffset address size (pageShift k) (nextShift k))).1 ∧
        (initializeStorages start (endOffset address size (pageShift k) (nextShift k))).2 ≤
          (initializeBlocks address size rounds i storage blocks).2 := by
  induction rounds generalizing i storage blocks with
  | zero => exact ⟨le_rfl, le_rfl, fun _ _ => rfl, fun k h₁ h₂ => absurd h₂ (by omega)⟩
  | succ rounds ih =>
    rw [initializeBlocks]
    obtain ⟨hfit, hend, hbefore, hlevels⟩ := ih (i := i + 1)
      (initializeStorages storage (endOffset address size (pageShift i) (nextShift i))).2
      (update blocks i
        (initializeStorages storage (endOffset address size (pageShift i) (nextShift i))).1)
      (fun k h₁ h₂ => hbits k (by omega) (by omega))
    have hwords :=
      (initializeStorages_spec storage (endOffset address size (pageShift i) (nextShift i))).1
    have hbound := hbits i le_rfl (by omega)
    have hlevel := overheadLoop_mono (getRequiredDepth_mono hbound) hbound
    refine ⟨hfit.trans (overheadSizes_mono ?_), by omega, fun k hk => ?_, fun k h₁ h₂ => ?_⟩
    · rw [hwords]
      show _ ≤ storage * 8 + overheadLoop _ _ 0 * 8
      omega
    · rw [hbefore k (by omega), update_of_ne (by omega)]
    · rcases Nat.lt_or_eq_of_le h₁ with hlt | rfl
      · exact hlevels k hlt (by omega)
      · exact ⟨storage, by rw [hbefore i (by omega), update_self], hend⟩

/-- **The management storage suffices**: the words that are laid out fit the reserved size, and every
    address of the heap has a bit in each level all of whose words are inside. -/
theorem managementStorage_suffices (blocks : Nat → Storages) (haddress : address < 2 ^ 64)
    (hdepth : ∀ i < 7, getRequiredDepth (coveredBlocks address size i) ≤ 4) :
    (initializeBlocks address size numMemoryBlockPageShifts 0 0 blocks).2 ≤
        calculateManagementOverheadSize size / 8 ∧
      ∀ i < 7, (∀ j < size, blockOffset address i ((address + j) % 2 ^ 64) <
          endOffset address size (pageShift i) (nextShift i)) ∧
        ∀ offset < endOffset address size (pageShift i) (nextShift i),
          ∀ d < ((initializeBlocks address size numMemoryBlockPageShifts 0 0 blocks).1 i).usedDepths,
            wordOf ((initializeBlocks address size numMemoryBlockPageShifts 0 0 blocks).1 i) offset d <
              calculateManagementOverheadSize size / 8 := by
  have hspec := @initializeBlocks_spec address size 0
    numMemoryBlockPageShifts 0 blocks fun k _ hk => by
      have hk7 : k < 7 := by
        rw [numMemoryBlockPageShifts] at hk; omega
      rw [endOffset_eq hk7 haddress (hdepth k hk7)]
      exact coveredBlocks_le hk7 (hdepth k hk7)
  obtain ⟨hfit, -, -, hlevels⟩ := hspec
  have hround := @le_alignUp (overheadSizes size numMemoryBlockPageShifts 0 0) PageSize (by decide)
  have hsize : (initializeBlocks address size numMemoryBlockPageShifts 0 0 blocks).2 ≤
      calculateManagementOverheadSize size / 8 := by
    rw [Nat.zero_mul] at hfit
    rw [calculateManagementOverheadSize]; omega
  refine ⟨hsize, fun i hi => ⟨fun j hj => ?_, fun offset ho d hd => ?_⟩⟩
  · rw [endOffset_eq hi haddress (hdepth i hi)]
    exact blockOffset_lt hi haddress (hdepth i hi) hj
  · obtain ⟨start, heq, hend⟩ := hlevels i (Nat.zero_le i) (by rw [numMemoryBlockPageShifts]; omega)
    rw [heq] at hd ⊢
    exact lt_of_lt_of_le ((initializeStorages_spec start _).2 offset ho d hd) (hend.trans hsize)

/-- A heap of 64 MiB that ends with the address space. -/
theorem managementStorage_suffices_last :
    (initializeBlocks (2 ^ 64 - 0x4000000) 0x4000000 numMemoryBlockPageShifts 0 0
      fun _ => ⟨fun _ => 0, fun _ => 0, 0⟩).2 ≤ calculateManagementOverheadSize 0x4000000 / 8 :=
  (managementStorage_suffices _ (by decide) (by
    intro i hi
    interval_cases i <;> decide +kernel)).1

end KPageHeap

end Suyu.Kernel
