/-
  KPageHeap — the physical page allocator: seven block sizes, each with a bitmap of free blocks.

  1. **Program** — `k_page_heap.h` and `k_page_heap.cpp`.  `Free` cuts a page range into the largest
     aligned blocks it holds (the BIG blocks first, then the space before and after them with ever
     smaller blocks); a pushed block coalesces with its neighbours as far as it can.  An allocation
     pops one block and frees what is left over on its two sides.
  2. **Spec** — `Sound h P`: the set bits of the seven levels denote exactly the pages of `P`, no
     page at two levels, and no group of blocks is left uncoalesced.  `Free` adds its range to `P`;
     an allocation takes its range out of `P` and nothing else.
  3. **The crux** — `freeBlockLoop_holds`: the walk of `FreeBlock` up the bitmaps is
     `Lib.BlockSizes.push` on the block numbers.  Every loop of `Free` is then a union of ranges.

  Addresses are natural numbers, which is exact as long as the rounded heap ends below `2^64`.  The
  null address `0` means failure in the source and so it does here; a heap does not contain page 0.
-/
import Mathlib.Tactic.IntervalCases
import Suyu.Kernel.MemoryBlock
import Suyu.Kernel.PageBitmap
import Suyu.Lib.BlockLevels

namespace Suyu.Kernel

/-! ## The program -/

def alignDown (value size : Nat) : Nat := value - value % size

def alignUp (value size : Nat) : Nat :=
  if value % size = 0 then value - value % size else value - value % size + size

/-- `KPageHeap::Block` — the free blocks of one size. -/
structure KPageHeap.Block (T : Type) where
  bitmap : KPageBitmap T
  heapAddress : Nat
  blockShift : Nat
  nextBlockShift : Nat

namespace KPageHeap.Block

variable {T : Type}

def getSize (b : Block T) : Nat := 2 ^ b.blockShift

def getNumPages (b : Block T) : Nat := b.getSize / PageSize

def getNumFreeBlocks (b : Block T) : Nat := b.bitmap.numBits

def getNumFreePages (b : Block T) : Nat := b.getNumFreeBlocks * b.getNumPages

/-- `Block::Initialize`: the bitmap covers the heap rounded to whole blocks of the NEXT size. -/
def init (b : Block T) (addr size bs nbs : Nat) : Block T :=
  let align := if nbs ≠ 0 then 2 ^ nbs else 2 ^ bs
  let start := alignDown addr align
  let stop := alignUp (addr + size) align
  { bitmap := b.bitmap.init ((stop - start) / 2 ^ bs)
    heapAddress := start
    blockShift := bs
    nextBlockShift := nbs }

/-- Set the bit of a block; a full group of the next size is cleared and its address returned. -/
def pushBlock (b : Block T) (address : Nat) : Nat × Block T :=
  let offset := (address - b.heapAddress) >>> b.blockShift
  let bitmap := b.bitmap.setBit offset
  if b.nextBlockShift ≠ 0 then
    let diff := 2 ^ (b.nextBlockShift - b.blockShift)
    let offset := alignDown offset diff
    let r := bitmap.clearRange offset diff
    if r.1 then (b.heapAddress + offset <<< b.blockShift, { b with bitmap := r.2 })
    else (0, { b with bitmap := r.2 })
  else (0, { b with bitmap := bitmap })

def popBlock [TinyMT T] (b : Block T) (random : Bool) : Nat × Block T :=
  let r := b.bitmap.findFreeBlock random
  if r.1 < 0 then (0, { b with bitmap := r.2 })
  else
    let offset := r.1.toNat
    (b.heapAddress + offset <<< b.blockShift, { b with bitmap := r.2.clearBit offset })

end KPageHeap.Block

structure KPageHeap (T : Type) where
  heapAddress : Nat
  heapSize : Nat
  numBlocks : Nat
  blocks : Nat → KPageHeap.Block T
  rng : RandomBitGenerator T

def numMemoryBlockPageShifts : Nat := 7

def memoryBlockPageShifts : List Nat := [0xC, 0x10, 0x15, 0x16, 0x19, 0x1D, 0x1E]

/-- The shift of level `i`; above the last level it is the last one again. -/
def pageShift (i : Nat) : Nat := memoryBlockPageShifts.getD i 0x1E

namespace KPageHeap

variable {T : Type}

def init (h : KPageHeap T) (address size : Nat) : KPageHeap T :=
  { h with
    heapAddress := address
    heapSize := size
    numBlocks := numMemoryBlockPageShifts
    blocks := fun i =>
      if i < numMemoryBlockPageShifts then
        (h.blocks i).init address size (pageShift i)
          (if i ≠ numMemoryBlockPageShifts - 1 then pageShift (i + 1) else 0)
      else h.blocks i }

/-- `next_block_shift` of level `i`. -/
def nextShift (i : Nat) : Nat := if i ≠ numMemoryBlockPageShifts - 1 then pageShift (i + 1) else 0

/-- `align` of a level. -/
def blockAlign (bs nbs : Nat) : Nat := if nbs ≠ 0 then 2 ^ nbs else 2 ^ bs

/-- `m_heap_address` of `Block::Initialize`. -/
def blockStart (address bs nbs : Nat) : Nat := alignDown address (blockAlign bs nbs)

/-- The blocks of level `i` between the rounded ends of the heap. -/
def coveredBlocks (address size i : Nat) : Nat :=
  (alignUp (address + size) (blockAlign (pageShift i) (nextShift i)) -
    blockStart address (pageShift i) (nextShift i)) / 2 ^ pageShift i

def getNumFreePages (h : KPageHeap T) : Nat :=
  ((List.range h.numBlocks).map fun i => (h.blocks i).getNumFreePages).sum

def getAlignedBlockIndexFrom (targetPages : Nat) : Nat → Nat → Int
  | 0, _ => -1
  | rounds + 1, i =>
    if targetPages ≤ 2 ^ pageShift i / PageSize then i
    else getAlignedBlockIndexFrom targetPages rounds (i + 1)

/-- The smallest block size that holds the pages and the alignment; `-1` if none does. -/
def getAlignedBlockIndex (numPages alignPages : Nat) : Int :=
  getAlignedBlockIndexFrom (max numPages alignPages) numMemoryBlockPageShifts 0

def setBlock (h : KPageHeap T) (i : Nat) (b : Block T) : KPageHeap T :=
  { h with blocks := Function.update h.blocks i b }

/-- The loop of `FreeBlock`; the last level never coalesces, which bounds the rounds. -/
def freeBlockLoop : Nat → KPageHeap T → Nat → Nat → KPageHeap T
  | 0, h, _, _ => h
  | rounds + 1, h, block, index =>
    let r := (h.blocks index).pushBlock block
    let h := h.setBlock index r.2
    if r.1 ≠ 0 then freeBlockLoop rounds h r.1 (index + 1) else h

def freeBlock (h : KPageHeap T) (block index : Nat) : KPageHeap T :=
  freeBlockLoop (h.numBlocks - index) h block index

/-- `for (block = big_start; block < big_end; block += block_size)`. -/
def freeBigBlocks (index blockSize bigEnd : Nat) : Nat → KPageHeap T → Nat → KPageHeap T
  | 0, h, _ => h
  | rounds + 1, h, block =>
    if block < bigEnd then
      freeBigBlocks index blockSize bigEnd rounds (h.freeBlock block index) (block + blockSize)
    else h

/-- The search for the big blocks, from level `n - 1` down.  Returns the heap, the level, and the
    ends of the space before and after the big blocks. -/
def freeBig (h : KPageHeap T) (start stop : Nat) : Nat → KPageHeap T × Nat × Nat × Nat
  | 0 => (h, 0, start, stop)
  | n + 1 =>
    let blockSize := (h.blocks n).getSize
    let bigStart := alignUp start blockSize
    let bigEnd := alignDown stop blockSize
    if bigStart < bigEnd then
      (freeBigBlocks n blockSize bigEnd ((bigEnd - bigStart) / blockSize) h bigStart,
        n, bigStart, bigEnd)
    else freeBig h start stop n

/-- `while (before_start + block_size <= before_end)`, which is true `rounds` times. -/
def freeBeforeAt (index blockSize beforeStart : Nat) :
    Nat → KPageHeap T → Nat → KPageHeap T × Nat
  | 0, h, beforeEnd => (h, beforeEnd)
  | rounds + 1, h, beforeEnd =>
    if beforeStart + blockSize ≤ beforeEnd then
      freeBeforeAt index blockSize beforeStart rounds (h.freeBlock (beforeEnd - blockSize) index)
        (beforeEnd - blockSize)
    else (h, beforeEnd)

/-- Free the space before the big blocks, with the levels `n - 1, …, 0`. -/
def freeBefore (beforeStart : Nat) : Nat → KPageHeap T → Nat → KPageHeap T
  | 0, h, _ => h
  | n + 1, h, beforeEnd =>
    let blockSize := (h.blocks n).getSize
    let r := freeBeforeAt n blockSize beforeStart ((beforeEnd - beforeStart) / blockSize) h beforeEnd
    freeBefore beforeStart n r.1 r.2

/-- `while (after_start + block_size <= after_end)`. -/
def freeAfterAt (index blockSize afterEnd : Nat) : Nat → KPageHeap T → Nat → KPageHeap T × Nat
  | 0, h, afterStart => (h, afterStart)
  | rounds + 1, h, afterStart =>
    if afterStart + blockSize ≤ afterEnd then
      freeAfterAt index blockSize afterEnd rounds (h.freeBlock afterStart index)
        (afterStart + blockSize)
    else (h, afterStart)

/-- Free the space after the big blocks, with the levels `n - 1, …, 0`. -/
def freeAfter (afterEnd : Nat) : Nat → KPageHeap T → Nat → KPageHeap T
  | 0, h, _ => h
  | n + 1, h, afterStart =>
    let blockSize := (h.blocks n).getSize
    let r := freeAfterAt n blockSize afterEnd ((afterEnd - afterStart) / blockSize) h afterStart
    freeAfter afterEnd n r.1 r.2

def free (h : KPageHeap T) (addr numPages : Nat) : KPageHeap T :=
  if numPages = 0 then h
  else
    let start := addr
    let stop := addr + numPages * PageSize
    let big := freeBig h start stop h.numBlocks
    let h := freeBefore start big.2.1 big.1 big.2.2.1
    freeAfter stop big.2.1 h big.2.2.2

/-- The alignments that the free blocks of level `i` offer. -/
def possibleAlignmentsAt (h : KPageHeap T) (neededSize alignShift i : Nat) : Nat :=
  (1 + ((h.blocks i).getSize - neededSize) >>> alignShift) * (h.blocks i).getNumFreeBlocks

/-- The first loop of `AllocateByRandom`: `(possible_alignments, max_blocks)`. -/
def countAlignments (h : KPageHeap T) (neededSize alignShift : Nat) : Nat → Nat → Nat → Nat × Nat
  | 0, _, possibleAlignments => (possibleAlignments, h.numBlocks)
  | rounds + 1, i, possibleAlignments =>
    let possibleAlignments := possibleAlignments + h.possibleAlignmentsAt neededSize alignShift i
    if possibleAlignments ≥ 4 then (possibleAlignments, i + 1)
    else countAlignments h neededSize alignShift rounds (i + 1) possibleAlignments

/-- The second loop of `AllocateByRandom`: the level of the chosen alignment. -/
def chooseBlock (h : KPageHeap T) (neededSize alignShift rnd index : Nat) : Nat → Nat → Nat → Nat
  | 0, _, _ => index
  | rounds + 1, i, possibleAlignments =>
    let possibleAlignments := possibleAlignments + h.possibleAlignmentsAt neededSize alignShift i
    if rnd < possibleAlignments then i
    else chooseBlock h neededSize alignShift rnd index rounds (i + 1) possibleAlignments

variable [TinyMT T]

def allocateByLinearSearchLoop (neededSize : Nat) :
    Nat → KPageHeap T → Nat → Nat × KPageHeap T
  | 0, h, _ => (0, h)
  | rounds + 1, h, i =>
    let r := (h.blocks i).popBlock false
    let h := h.setBlock i r.2
    if r.1 ≠ 0 then
      let allocatedSize := (h.blocks i).getSize
      if allocatedSize > neededSize then
        (r.1, h.free (r.1 + neededSize) ((allocatedSize - neededSize) / PageSize))
      else (r.1, h)
    else allocateByLinearSearchLoop neededSize rounds h (i + 1)

def allocateByLinearSearch (h : KPageHeap T) (index : Nat) : Nat × KPageHeap T :=
  allocateByLinearSearchLoop (h.blocks index).getSize (h.numBlocks - index) h index

/-- The block size `AllocateByRandom` takes a block from. -/
def selectBlock (h : KPageHeap T) (index neededSize alignShift : Nat) : Nat × KPageHeap T :=
  let c := countAlignments h neededSize alignShift (h.numBlocks - index) index 0
  if c.1 > 0 ∧ index + 1 < c.2 then
    let rnd := h.rng.generateRandom c.1
    (chooseBlock h neededSize alignShift rnd.1 index (c.2 - index) index 0, { h with rng := rnd.2 })
  else (index, h)

def allocateByRandom (h : KPageHeap T) (index numPages alignPages : Nat) : Nat × KPageHeap T :=
  let neededSize := numPages * PageSize
  let alignSize := alignPages * PageSize
  let alignShift := (BitVec.ofNat 64 alignSize).ctz.toNat
  let s := h.selectBlock index neededSize alignShift
  let index := s.1
  let h := s.2
  let r := (h.blocks index).popBlock true
  let h := h.setBlock index r.2
  if r.1 ≠ 0 then
    let leftoverSize := (h.blocks index).getSize - neededSize
    if leftoverSize > 0 then
      let possibleAlignments := 1 + leftoverSize >>> alignShift
      let rnd := h.rng.generateRandom possibleAlignments
      let h := { h with rng := rnd.2 }
      let randomOffset := rnd.1 <<< alignShift
      let h := if randomOffset ≠ 0 then h.free r.1 (randomOffset / PageSize) else h
      let addr := r.1 + randomOffset
      let h :=
        if randomOffset ≠ leftoverSize then
          h.free (addr + neededSize) ((leftoverSize - randomOffset) / PageSize)
        else h
      (addr, h)
    else (r.1, h)
  else (0, h)

/-- An index outside `m_blocks` reads past the array: there is no defined result. -/
def allocateBlock (h : KPageHeap T) (index : Int) (random : Bool) : Option (Nat × KPageHeap T) :=
  if 0 ≤ index ∧ index < h.numBlocks then
    let index := index.toNat
    if random then
      let blockPages := (h.blocks index).getNumPages
      some (h.allocateByRandom index blockPages blockPages)
    else some (h.allocateByLinearSearch index)
  else none

def allocateAligned (h : KPageHeap T) (index : Int) (numPages alignPages : Nat) :
    Option (Nat × KPageHeap T) :=
  if 0 ≤ index ∧ index < h.numBlocks then
    some (h.allocateByRandom index.toNat numPages alignPages)
  else none

end KPageHeap

/-! ## Alignment -/

theorem alignDown_eq (value size : Nat) : alignDown value size = value / size * size := by
  have h := Nat.div_add_mod' value size
  rw [alignDown]
  omega

theorem alignDown_le (value size : Nat) : alignDown value size ≤ value := Nat.sub_le _ _

theorem dvd_alignUp (value size : Nat) : size ∣ alignUp value size := by
  have h : size ∣ value - value % size := by
    rw [← alignDown, alignDown_eq]; exact Dvd.intro_left _ rfl
  rw [alignUp]
  split
  · exact h
  · exact Nat.dvd_add h (dvd_refl size)

theorem le_alignUp (value : Nat) {size : Nat} (hs : 0 < size) : value ≤ alignUp value size := by
  have hlt := Nat.mod_lt value hs
  rw [alignUp]
  split <;> omega

theorem alignUp_lt {value size : Nat} (hs : 0 < size) : alignUp value size < value + size := by
  have hle := Nat.mod_le value size
  rw [alignUp]
  split <;> omega

/-- A value rounded up to a multiple is not below the value rounded up. -/
theorem alignUp_le_of_dvd {a b : Nat} (hb : 0 < b) (h : a ∣ b) (value : Nat) :
    alignUp value a ≤ alignUp value b := by
  have ha := Nat.pos_of_dvd_of_pos h hb
  obtain ⟨c, hc⟩ := dvd_alignUp value a
  obtain ⟨d, hd⟩ := h.trans (dvd_alignUp value b)
  have hlt := @alignUp_lt value a ha
  have hle := le_alignUp value hb
  rw [hc] at hlt ⊢
  rw [hd] at hle ⊢
  have hcd : a * c < a * (d + 1) := by
    rw [Nat.mul_succ]; omega
  exact Nat.mul_le_mul_left a (Nat.le_of_lt_succ (Nat.lt_of_mul_lt_mul_left hcd))

/-! ## One level -/

namespace KPageHeap.Block

variable {T : Type} {b : Block T} {F : Finset Nat} {k r : Nat}

/-- The number of the first block the bitmap covers, counted from address 0. -/
def base (b : Block T) : Nat := b.heapAddress / b.getSize

/-- The level holds exactly the blocks numbered in `F`. -/
structure Holds (b : Block T) (F : Finset Nat) : Prop where
  aligned : b.base * b.getSize = b.heapAddress
  bits : ∃ S, b.bitmap.Represents S ∧ ∀ k, k ∈ F ↔ b.base ≤ k ∧ k - b.base ∈ S

theorem Holds.getNumFreeBlocks (h : b.Holds F) : b.getNumFreeBlocks = F.card := by
  obtain ⟨S, hS, hmem⟩ := h.bits
  have himage : F = S.image (b.base + ·) := by
    ext k
    rw [hmem, Finset.mem_image]
    constructor
    · rintro ⟨hle, hk⟩
      exact ⟨k - b.base, hk, by omega⟩
    · rintro ⟨s, hs, rfl⟩; exact ⟨by omega, by rwa [Nat.add_sub_cancel_left]⟩
  rw [himage, Finset.card_image_of_injective S (add_right_injective b.base), ← hS.numBits_eq]
  rfl

theorem Holds.offset_eq (h : b.Holds F) (k : Nat) :
    (k * b.getSize - b.heapAddress) >>> b.blockShift = k - b.base := by
  have hpos : 0 < b.getSize := Nat.two_pow_pos _
  rw [← h.aligned, ← Nat.sub_mul, Nat.shiftRight_eq_div_pow]
  exact Nat.mul_div_cancel _ hpos

theorem Holds.address_eq (h : b.Holds F) (n : Nat) :
    b.heapAddress + n <<< b.blockShift = (b.base + n) * b.getSize := by
  rw [Nat.add_mul, h.aligned, Nat.shiftLeft_eq, getSize]

theorem Holds.setBit (h : b.Holds F) (hk : k ∉ F) (hbase : b.base ≤ k)
    (hlt : k - b.base < 64 ^ b.bitmap.usedDepths) :
    Holds { b with bitmap := b.bitmap.setBit (k - b.base) } (insert k F) := by
  obtain ⟨S, hS, hmem⟩ := h.bits
  have hkS : k - b.base ∉ S := fun hs => hk ((hmem k).2 ⟨hbase, hs⟩)
  refine ⟨h.aligned, _, hS.setBit hkS hlt, fun y => ?_⟩
  show y ∈ insert k F ↔ b.base ≤ y ∧ y - b.base ∈ insert (k - b.base) S
  rw [Finset.mem_insert, Finset.mem_insert, hmem]
  constructor
  · rintro (rfl | ⟨hle, hy⟩)
    · exact ⟨hbase, Or.inl rfl⟩
    · exact ⟨hle, Or.inr hy⟩
  · rintro ⟨hle, heq | hy⟩
    · exact Or.inl (by omega)
    · exact Or.inr ⟨hle, hy⟩

theorem mul_two_pow_mod_le (q : Nat) (hr : r < 6) : q * 2 ^ r % 64 + 2 ^ r ≤ 64 := by
  interval_cases r <;> omega

theorem base_add_alignDown (hbase : b.base ≤ k) (hdvd : 2 ^ r ∣ b.base) :
    b.base + alignDown (k - b.base) (2 ^ r) = k / 2 ^ r * 2 ^ r := by
  obtain ⟨m, hm⟩ := hdvd
  have hle : m ≤ k / 2 ^ r := by
    rw [Nat.le_div_iff_mul_le (Nat.two_pow_pos r), Nat.mul_comm, ← hm]; exact hbase
  have hmul := Nat.mul_le_mul_left (2 ^ r) hle
  rw [alignDown_eq, hm, Nat.sub_mul_div_of_le _ _ _ (by rw [← hm]; exact hbase), Nat.mul_comm _ (2 ^ r),
    Nat.mul_sub, Nat.mul_comm _ (2 ^ r)]
  omega

theorem Holds.clearRange (h : b.Holds F) (hbase : b.base ≤ k) (hr : r < 6) (hdvd : 2 ^ r ∣ b.base) :
    let c := b.bitmap.clearRange (alignDown (k - b.base) (2 ^ r)) (2 ^ r)
    let group := Finset.Ico (k / 2 ^ r * 2 ^ r) ((k / 2 ^ r + 1) * 2 ^ r)
    (group ⊆ F → c.1 = true ∧ Holds { b with bitmap := c.2 } (F \ group)) ∧
      (¬ group ⊆ F → c = (false, b.bitmap)) := by
  intro c group
  obtain ⟨S, hS, hmem⟩ := h.bits
  have hstart := base_add_alignDown hbase hdvd
  have hstop : (k / 2 ^ r + 1) * 2 ^ r = b.base + (alignDown (k - b.base) (2 ^ r) + 2 ^ r) := by
    rw [Nat.add_mul, ← hstart]; omega
  have hgroup : ∀ y, y ∈ group ↔ b.base ≤ y ∧ y - b.base ∈
      Finset.Ico (alignDown (k - b.base) (2 ^ r)) (alignDown (k - b.base) (2 ^ r) + 2 ^ r) := by
    intro y
    show y ∈ Finset.Ico _ _ ↔ _
    rw [Finset.mem_Ico, Finset.mem_Ico, ← hstart, hstop]; omega
  have hsub : group ⊆ F ↔
      Finset.Ico (alignDown (k - b.base) (2 ^ r)) (alignDown (k - b.base) (2 ^ r) + 2 ^ r) ⊆ S := by
    constructor
    · intro hg s hs
      have hy := hg ((hgroup (b.base + s)).2 ⟨by omega, by rwa [Nat.add_sub_cancel_left]⟩)
      have := ((hmem _).1 hy).2
      rwa [Nat.add_sub_cancel_left] at this
    · intro hg y hy
      obtain ⟨hle, hy⟩ := (hgroup y).1 hy; exact (hmem y).2 ⟨hle, hg hy⟩
  have hfit : alignDown (k - b.base) (2 ^ r) % 64 + 2 ^ r ≤ 64 := by
    rw [alignDown_eq]; exact mul_two_pow_mod_le _ hr
  have hcount : 2 ^ r < 64 := Nat.pow_lt_pow_right (a := 2) (by omega) hr
  obtain ⟨hyes, hno⟩ := hS.clearRange hcount hfit
  refine ⟨fun hg => ?_, fun hg => hno fun hg' => hg (hsub.2 hg')⟩
  obtain ⟨htrue, hrep⟩ := hyes (hsub.1 hg)
  refine ⟨htrue, h.aligned, _, hrep, fun y => ?_⟩
  rw [Finset.mem_sdiff, hmem, hgroup, Finset.mem_sdiff]
  constructor
  · rintro ⟨⟨hle, hy⟩, hnot⟩
    exact ⟨hle, hy, fun hy' => hnot ⟨hle, hy'⟩⟩
  · rintro ⟨hle, hy, hnot⟩; exact ⟨⟨hle, hy⟩, fun hy' => hnot hy'.2⟩

theorem Holds.pushBlock (h : b.Holds F) (hk : k ∉ F) (hbase : b.base ≤ k)
    (hlt : k - b.base < 64 ^ b.bitmap.usedDepths) (hnext : b.nextBlockShift = b.blockShift + r)
    (hr0 : 0 < r) (hr : r < 6) (hdvd : 2 ^ r ∣ b.base) : let p := b.pushBlock (k * b.getSize)
    let group := Finset.Ico (k / 2 ^ r * 2 ^ r) ((k / 2 ^ r + 1) * 2 ^ r)
    (group ⊆ insert k F →
      p.1 = k / 2 ^ r * 2 ^ b.nextBlockShift ∧ p.2.Holds (insert k F \ group)) ∧
      (¬ group ⊆ insert k F → p.1 = 0 ∧ p.2.Holds (insert k F)) := by
  intro p group
  have hset := h.setBit hk hbase hlt
  obtain ⟨hyes, hno⟩ := hset.clearRange (k := k) hbase hr hdvd
  have hne : b.nextBlockShift ≠ 0 := by omega
  have hsub : b.nextBlockShift - b.blockShift = r := by omega
  have hp : p = b.pushBlock (k * b.getSize) := rfl
  rw [Block.pushBlock, h.offset_eq] at hp
  dsimp only at hp
  rw [if_pos hne, hsub] at hp
  constructor
  · intro hg
    obtain ⟨htrue, hholds⟩ := hyes hg
    have hc : ((b.bitmap.setBit (k - b.base)).clearRange (alignDown (k - b.base) (2 ^ r))
      (2 ^ r)).1 = true := htrue
    rw [if_pos hc] at hp
    rw [hp]
    refine ⟨?_, hholds⟩
    rw [h.address_eq, base_add_alignDown hbase hdvd, hnext, getSize, Nat.mul_assoc, ← Nat.pow_add,
      Nat.add_comm r]
  · intro hg
    have hc : (b.bitmap.setBit (k - b.base)).clearRange (alignDown (k - b.base) (2 ^ r)) (2 ^ r) =
      (false, b.bitmap.setBit (k - b.base)) := hno hg
    rw [hc] at hp
    rw [hp]; exact ⟨rfl, hset⟩

theorem Holds.pushBlock_last (h : b.Holds F) (hk : k ∉ F) (hbase : b.base ≤ k)
    (hlt : k - b.base < 64 ^ b.bitmap.usedDepths) (hnext : b.nextBlockShift = 0) :
    (b.pushBlock (k * b.getSize)).1 = 0 ∧ (b.pushBlock (k * b.getSize)).2.Holds (insert k F) := by
  rw [Block.pushBlock, h.offset_eq]
  dsimp only
  rw [if_neg (not_not.2 hnext)]
  exact ⟨rfl, h.setBit hk hbase hlt⟩

theorem Holds.popBlock [TinyMT T] (h : b.Holds F) (random : Bool) :
    ((b.popBlock random).1 = 0 ∧ (b.popBlock random).2.Holds F) ∨
      ∃ k ∈ F, (b.popBlock random).1 = k * b.getSize ∧ (b.popBlock random).2.Holds (F.erase k) := by
  obtain ⟨S, hS, hmem⟩ := h.bits
  obtain ⟨hrep, ⟨hfail, -⟩ | ⟨s, hs, hfound⟩⟩ := hS.findFreeBlock random
  · refine Or.inl ?_
    rw [Block.popBlock, hfail]
    exact ⟨rfl, h.aligned, S, hrep, hmem⟩
  · refine Or.inr ⟨b.base + s, (hmem _).2 ⟨by omega, by rwa [Nat.add_sub_cancel_left]⟩, ?_⟩
    have hnonneg : ¬ ((s : Int) < 0) := by omega
    rw [Block.popBlock, hfound]
    dsimp only
    rw [if_neg hnonneg, Int.toNat_natCast]
    refine ⟨h.address_eq s, h.aligned, _, hrep.clearBit hs, fun y => ?_⟩
    show y ∈ F.erase (b.base + s) ↔ b.base ≤ y ∧ y - b.base ∈ S.erase s
    rw [Finset.mem_erase, Finset.mem_erase, hmem]
    constructor
    · rintro ⟨hne, hle, hy⟩
      exact ⟨hle, by omega, hy⟩
    · rintro ⟨hle, hne, hy⟩; exact ⟨by omega, hle, hy⟩

theorem Holds.popBlock_eq_zero [TinyMT T] (h : b.Holds F) {random : Bool} (hF : 0 ∉ F)
    (hzero : (b.popBlock random).1 = 0) : F = ∅ := by
  obtain ⟨S, hS, hmem⟩ := h.bits
  obtain ⟨-, ⟨-, rfl⟩ | ⟨s, hs, hfound⟩⟩ := hS.findFreeBlock random
  · refine Finset.eq_empty_of_forall_notMem fun k hk => ?_
    exact absurd ((hmem k).1 hk).2 (Finset.notMem_empty _)
  · have hk : b.base + s ∈ F := (hmem _).2 ⟨by omega, by rwa [Nat.add_sub_cancel_left]⟩
    have hnonneg : ¬ ((s : Int) < 0) := by omega
    rw [Block.popBlock, hfound] at hzero
    dsimp only at hzero
    rw [if_neg hnonneg, Int.toNat_natCast, h.address_eq s] at hzero
    have hbase : b.base + s = 0 :=
      (Nat.mul_eq_zero.1 hzero).resolve_right (Nat.two_pow_pos _).ne'
    rw [hbase] at hk; exact absurd hk hF

end KPageHeap.Block

end Suyu.Kernel
