import Mathlib
import Suyu.Core.MemoryBlocks

/-
  `CopyMemoryFromKernelToLinear` and `CopyMemoryFromUserToLinear`: copies through a traversal.

  1. **Data** - `Common::PageTable` keeps for a page the DIFFERENCE of its physical and its virtual
     address (`backing_addr`); 0 says that the page is not mapped.

  2. **Program** - a traversal gives one entry for each page.  The copies join entries that follow each
     other in physical memory, and cut the first and the last piece to the range.

  3. **Specification (`writeAll` at `physical`)** - byte `i` of the source goes to the physical byte of
     `dst_addr + i`, and nothing else is written.

  4. **When it goes wrong** - the entries of a traversal that does not begin at a page are not starts of
     pages: `next_offset` carries the offset in the FIRST page along (`entryAddr_eq`).

  Left out: the locks, the checks of the memory state before the copy, a user source that cannot be read
  and a source that is itself the destination.
-/

namespace Suyu.Kernel.KPageTableBase

open Core.Memory (PageTable Pointer Byte Aligned pageAddress)

/-! ## Traversals -/

structure TraversalEntry where
  physAddr : Pointer
  blockSize : Nat
  deriving DecidableEq

structure TraversalContext where
  nextPage : Nat
  nextOffset : Nat
  deriving DecidableEq

/-- `backing_addr.size()`. -/
def numEntries (table : PageTable) : Nat := 2 ^ (table.addressSpaceBits - 12)

def continueTraversal (table : PageTable) (context : TraversalContext) :
    Bool × TraversalEntry × TraversalContext :=
  let next : TraversalContext := ⟨context.nextPage + 1, context.nextOffset + 0x1000⟩
  let page := context.nextPage
  if page ≥ numEntries table then (false, ⟨0, 0x1000⟩, next)
  else
    let physAddr := table.backingAddr page
    if physAddr = 0 then (false, ⟨0, 0x1000⟩, next)
    else (true, ⟨physAddr + BitVec.ofNat 64 context.nextOffset, 0x1000⟩, next)

def beginTraversal (table : PageTable) (address : Nat) : Bool × TraversalEntry × TraversalContext :=
  continueTraversal table ⟨address / 0x1000, address⟩

abbrev Memory := Pointer → Byte

/-- The variables of a copy; `source` is `buffer` or `src_addr`. -/
structure CopyState where
  memory : Memory
  source : Nat
  curAddr : Pointer
  curSize : Nat
  totSize : Nat
  context : TraversalContext

/-- `PerformCopy` of `CopyMemoryFromUserToLinear`: whole words, then the rest. -/
def performCopyFromUser (isLinear : Pointer → Bool) (src : Nat → Byte) (s : CopyState) :
    Option CopyState :=
  if isLinear s.curAddr then
    let s :=
      if s.curSize ≥ 4 then
        let copySize := s.curSize - s.curSize % 4
        { s with
          memory := Core.Memory.copyBytes s.memory s.curAddr (fun i => src (s.source + i)) copySize
          source := s.source + copySize
          curAddr := s.curAddr + BitVec.ofNat 64 copySize
          curSize := s.curSize - copySize }
      else s
    some { s with
      memory :=
        if s.curSize > 0 then
          Core.Memory.copyBytes s.memory s.curAddr (fun i => src (s.source + i)) s.curSize
        else s.memory }
  else none

/-- A round of the loop. -/
def copyRound (performCopy : CopyState → Option CopyState) (table : PageTable) (s : CopyState) :
    Option CopyState :=
  let (_, nextEntry, context) := continueTraversal table s.context
  if nextEntry.physAddr ≠ s.curAddr + BitVec.ofNat 64 s.curSize then
    (performCopy s).map fun s =>
      { s with
        source := s.source + s.curSize
        curAddr := nextEntry.physAddr
        curSize := nextEntry.blockSize
        totSize := s.totSize + nextEntry.blockSize
        context := context }
  else
    some { s with
      curSize := s.curSize + nextEntry.blockSize
      totSize := s.totSize + nextEntry.blockSize
      context := context }

/-- The loop; every round takes a page. -/
def copyLoop (performCopy : CopyState → Option CopyState) (table : PageTable) (size : Nat) :
    Nat → CopyState → Option CopyState
  | 0, s => some s
  | fuel + 1, s =>
      if s.totSize < size then
        (copyRound performCopy table s).bind (copyLoop performCopy table size fuel)
      else some s

/-- What follows the checks. -/
def copyToLinear (performCopy : CopyState → Option CopyState) (table : PageTable) (memory : Memory)
    (dstAddr size : Nat) : Option Memory :=
  let (_, nextEntry, context) := beginTraversal table dstAddr
  let curSize := nextEntry.blockSize - nextEntry.physAddr.toNat % nextEntry.blockSize
  let s : CopyState := ⟨memory, 0, nextEntry.physAddr, curSize, curSize, context⟩
  (copyLoop performCopy table size size s).bind fun s =>
    let s :=
      if s.totSize > size then { s with curSize := s.curSize - (s.totSize - size) } else s
    (performCopy s).map CopyState.memory

/-- The source is the user's memory from `src_addr` on. -/
def copyMemoryFromUserToLinear (isLinear : Pointer → Bool) (table : PageTable) (memory : Memory)
    (dstAddr size : Nat) (source : Nat → Byte) : Option Memory :=
  copyToLinear (performCopyFromUser isLinear source) table memory dstAddr size

/-! ## Specification -/

/-- The physical address of a virtual address. -/
def physical (table : PageTable) (addr : Nat) : Pointer :=
  table.backingAddr (addr / 0x1000) + BitVec.ofNat 64 addr

/-- Bytes written in turn, each at its own place. -/
def writeAll (memory : Memory) (place : Nat → Pointer) (value : Nat → Byte) : Nat → Memory
  | 0 => memory
  | n + 1 => Function.update (writeAll memory place value n) (place n) (value n)

/-- The pages of a range are mapped to whole pages. -/
structure MappedRange (table : PageTable) (addr size : Nat) : Prop where
  entries : ∀ i < size, (addr + i) / 0x1000 < numEntries table
  mapped : ∀ i < size, table.backingAddr ((addr + i) / 0x1000) ≠ 0
  aligned : ∀ i < size, Aligned (table.backingAddr ((addr + i) / 0x1000))

/-- The pages of a range are linear. -/
def LinearRange (isLinear : Pointer → Bool) (table : PageTable) (addr size : Nat) : Prop :=
  ∀ v, (∃ i < size, v / 0x1000 = (addr + i) / 0x1000) → isLinear (physical table v) = true

/-! ## Where the copies write -/

section Places

variable {table : PageTable} {dst size k i j n : Nat} {memory : Memory} {place : Nat → Pointer}
  {value : Nat → Byte}

/-- The address of the `k`-th entry of a traversal. -/
def entryAddr (table : PageTable) (dst k : Nat) : Pointer :=
  table.backingAddr (dst / 0x1000 + k) + BitVec.ofNat 64 (dst + k * 0x1000)

/-- The place of byte `i`: the first entry up to the end of its page, then a page for each entry. -/
def located (table : PageTable) (dst i : Nat) : Pointer :=
  let first := 0x1000 - dst % 0x1000
  if i < first then entryAddr table dst 0 + BitVec.ofNat 64 i
  else entryAddr table dst (1 + (i - first) / 0x1000) + BitVec.ofNat 64 ((i - first) % 0x1000)

theorem entryAddr_eq (table : PageTable) (dst k : Nat) :
    entryAddr table dst k = physical table (dst + k * 0x1000) := by
  have hpage : (dst + k * 0x1000) / 0x1000 = dst / 0x1000 + k := by omega
  rw [entryAddr, physical, hpage]

theorem located_first (hi : i < 0x1000 - dst % 0x1000) :
    located table dst i = physical table (dst + i) := by
  have hpage : (dst + i) / 0x1000 = dst / 0x1000 := by omega
  show (if _ then _ else _) = _
  rw [if_pos hi, entryAddr, physical, hpage, Nat.zero_mul, Nat.add_zero, Nat.add_zero,
    BitVec.add_assoc, ← BitVec.ofNat_add]

theorem writeAll_congr {place' : Nat → Pointer} (h : ∀ i < n, place i = place' i) :
    writeAll memory place value n = writeAll memory place' value n := by
  induction n with
  | zero => rfl
  | succ n ih =>
    rw [writeAll, writeAll, ih fun i hi => h i (Nat.lt_succ_of_lt hi), h n (Nat.lt_succ_self n)]

theorem copyBytes_writeAll {pointer : Pointer}
    (h : ∀ j < n, place (i + j) = pointer + BitVec.ofNat 64 j) :
    Core.Memory.copyBytes (writeAll memory place value i) pointer (fun j => value (i + j)) n =
      writeAll memory place value (i + n) := by
  induction n with
  | zero => rfl
  | succ n ih =>
    rw [Core.Memory.copyBytes_succ, ih fun j hj => h j (Nat.lt_succ_of_lt hj), ← Nat.add_assoc,
      writeAll, h n (Nat.lt_succ_self n)]

theorem writeAll_last {q : Pointer} (hi : i < n) (hq : place i = q)
    (hlast : ∀ j, i < j → j < n → place j ≠ q) : writeAll memory place value n q = value i := by
  induction n with
  | zero => exact absurd hi (Nat.not_lt_zero i)
  | succ n ih =>
    rcases Nat.lt_succ_iff_lt_or_eq.mp hi with hlt | rfl
    · rw [writeAll, Function.update_of_ne (hlast n hlt (Nat.lt_succ_self n)).symm]
      exact ih hlt fun j hj hjn => hlast j hj (Nat.lt_succ_of_lt hjn)
    · rw [writeAll, hq, Function.update_self]

end Places

/-! ## The loop -/

section Loop

variable {isLinear : Pointer → Bool} {table : PageTable} {memory : Memory} {dst size k : Nat}
  {src : Nat → Byte} {performCopy : CopyState → Option CopyState} {s : CopyState}

/-- What both kinds of `PerformCopy` do. -/
def Performs (isLinear : Pointer → Bool) (src : Nat → Byte)
    (performCopy : CopyState → Option CopyState) : Prop :=
  ∀ s, isLinear s.curAddr = true → ∃ s', performCopy s = some s' ∧
    s'.memory = Core.Memory.copyBytes s.memory s.curAddr (fun i => src (s.source + i)) s.curSize ∧
    s'.source + s'.curSize = s.source + s.curSize ∧ s'.totSize = s.totSize

theorem copyBytes_append (bytes : Memory) (pointer : Pointer) (value : Nat → Byte) (m n : Nat) :
    Core.Memory.copyBytes (Core.Memory.copyBytes bytes pointer value m)
        (pointer + BitVec.ofNat 64 m) (fun i => value (m + i)) n =
      Core.Memory.copyBytes bytes pointer value (m + n) := by
  induction n with
  | zero => rfl
  | succ n ih =>
    rw [Core.Memory.copyBytes_succ, ih, ← Nat.add_assoc, Core.Memory.copyBytes_succ,
      BitVec.add_assoc, ← BitVec.ofNat_add]

theorem performs_user : Performs isLinear src (performCopyFromUser isLinear src) := by
  intro s hs
  refine ⟨_, if_pos hs, ?_⟩
  rcases Nat.lt_or_ge s.curSize 4 with hsmall | hlarge
  · simp only [ge_iff_le, Nat.not_le.mpr hsmall, if_false, and_true]
    split
    · rfl
    next hzero =>
      have hsize : s.curSize = 0 := by omega
      rw [hsize]; rfl
  · simp only [ge_iff_le, hlarge, if_true]
    have hle : s.curSize - s.curSize % 4 ≤ s.curSize := Nat.sub_le _ _
    refine ⟨?_, by omega, trivial⟩
    split
    · have happend := copyBytes_append s.memory s.curAddr (fun i => src (s.source + i))
        (s.curSize - s.curSize % 4) (s.curSize - (s.curSize - s.curSize % 4))
      rw [Nat.add_sub_of_le hle] at happend
      rw [← happend]; simp only [Nat.add_assoc]
    next hzero =>
      have hsize : s.curSize - s.curSize % 4 = s.curSize := by omega
      rw [hsize]

/-- The variables after `k` entries: a prefix of the source is written, the rest is one run. -/
structure CopyInv (isLinear : Pointer → Bool) (table : PageTable) (memory : Memory) (dst size : Nat)
    (src : Nat → Byte) (k : Nat) (s : CopyState) : Prop where
  context : s.context = ⟨dst / 0x1000 + (k + 1), dst + (k + 1) * 0x1000⟩
  totSize : s.totSize = 0x1000 - dst % 0x1000 + k * 0x1000
  source : s.source + s.curSize = s.totSize
  below : s.source < size
  memory : s.memory = writeAll memory (located table dst) src s.source
  run : ∀ j < s.curSize, located table dst (s.source + j) = s.curAddr + BitVec.ofNat 64 j
  linear : isLinear s.curAddr = true

theorem continueTraversal_eq {page offset : Nat} (hpage : page < numEntries table)
    (hmapped : table.backingAddr page ≠ 0) :
    continueTraversal table ⟨page, offset⟩ =
      (true, ⟨table.backingAddr page + BitVec.ofNat 64 offset, 0x1000⟩,
        ⟨page + 1, offset + 0x1000⟩) := by
  unfold continueTraversal; simp only [ge_iff_le, Nat.not_le.mpr hpage, if_false, hmapped]

theorem located_entry {j : Nat} (hj : j < 0x1000) :
    located table dst (0x1000 - dst % 0x1000 + k * 0x1000 + j) =
      entryAddr table dst (k + 1) + BitVec.ofNat 64 j := by
  have hmod : dst % 0x1000 < 0x1000 := Nat.mod_lt _ (by decide)
  have hsub : 0x1000 - dst % 0x1000 + k * 0x1000 + j - (0x1000 - dst % 0x1000) =
      k * 0x1000 + j := by omega
  have hdiv : 1 + (k * 0x1000 + j) / 0x1000 = k + 1 := by omega
  have hrem : (k * 0x1000 + j) % 0x1000 = j := by omega
  show (if _ then _ else _) = _
  rw [if_neg (by omega), hsub, hdiv, hrem]

/-- ONE ROUND of the loop. -/
theorem CopyInv.round (h : CopyInv isLinear table memory dst size src k s)
    (hperform : Performs isLinear src performCopy) (hrange : MappedRange table dst size)
    (hlinear : LinearRange isLinear table dst size) (hmore : s.totSize < size) :
    ∃ s', copyRound performCopy table s = some s' ∧
      CopyInv isLinear table memory dst size src (k + 1) s' ∧ s'.totSize = s.totSize + 0x1000 := by
  have hmod : dst % 0x1000 < 0x1000 := Nat.mod_lt _ (by decide)
  have htot := h.totSize
  have hpage : (dst + s.totSize) / 0x1000 = dst / 0x1000 + (k + 1) := by omega
  have hentries := hrange.entries s.totSize hmore
  have hmapped := hrange.mapped s.totSize hmore
  rw [hpage] at hentries hmapped
  have hentry := @continueTraversal_eq table _ (dst + (k + 1) * 0x1000) hentries hmapped
  have hlin : isLinear (entryAddr table dst (k + 1)) = true := by
    rw [entryAddr_eq]
    refine hlinear _ ⟨s.totSize, hmore, ?_⟩
    omega
  have hplace : ∀ j < 0x1000, located table dst (s.totSize + j) =
      entryAddr table dst (k + 1) + BitVec.ofNat 64 j := by
    intro j hj
    rw [htot]; exact located_entry hj
  have hcontext : (⟨dst / 0x1000 + (k + 1) + 1, dst + (k + 1) * 0x1000 + 0x1000⟩ : TraversalContext) =
      ⟨dst / 0x1000 + (k + 1 + 1), dst + (k + 1 + 1) * 0x1000⟩ := by
    congr 1; omega
  unfold copyRound
  rw [h.context, hentry, hcontext]
  show ∃ s', (if entryAddr table dst (k + 1) ≠ _ then _ else _) = some s' ∧ _
  split
  · -- The run ends: it is copied, and the entry begins a new one.
    obtain ⟨s', heq, hmem, hsource, htot'⟩ := hperform s h.linear
    rw [heq]
    refine ⟨_, rfl, ⟨rfl, ?_, ?_, ?_, ?_, ?_, hlin⟩, ?_⟩
    · show s'.totSize + 0x1000 = _
      omega
    · show s'.source + s'.curSize + 0x1000 = s'.totSize + 0x1000
      have hsum := h.source
      omega
    · show s'.source + s'.curSize < size
      have hsum := h.source
      omega
    · show s'.memory = writeAll memory (located table dst) src (s'.source + s'.curSize)
      rw [hmem, h.memory, hsource]
      exact copyBytes_writeAll h.run
    · intro j hj
      show located table dst (s'.source + s'.curSize + j) = _
      rw [hsource, h.source]
      exact hplace j hj
    · show s'.totSize + 0x1000 = _
      omega
  next hjoin =>
    -- The entry follows the run.
    rw [not_not] at hjoin
    refine ⟨_, rfl, ⟨rfl, ?_, ?_, h.below, h.memory, ?_, h.linear⟩, rfl⟩
    · show s.totSize + 0x1000 = _
      omega
    · show s.source + (s.curSize + 0x1000) = s.totSize + 0x1000
      have hsum := h.source
      omega
    · intro j hj
      show located table dst (s.source + j) = s.curAddr + BitVec.ofNat 64 j
      rcases Nat.lt_or_ge j s.curSize with hin | hout
      · exact h.run j hin
      · have hsum := h.source
        have hindex : s.source + j = s.totSize + (j - s.curSize) := by omega
        have hj' : j < s.curSize + 0x1000 := hj
        rw [hindex, hplace _ (by omega), hjoin, BitVec.add_assoc, ← BitVec.ofNat_add,
          Nat.add_sub_of_le hout]

theorem CopyInv.loop {fuel : Nat} (h : CopyInv isLinear table memory dst size src k s)
    (hperform : Performs isLinear src performCopy) (hrange : MappedRange table dst size)
    (hlinear : LinearRange isLinear table dst size) (hfuel : size ≤ s.totSize + fuel) :
    ∃ s' k', copyLoop performCopy table size fuel s = some s' ∧
      CopyInv isLinear table memory dst size src k' s' ∧ size ≤ s'.totSize := by
  induction fuel generalizing s k with
  | zero => exact ⟨s, k, rfl, h, hfuel⟩
  | succ fuel ih =>
    rw [copyLoop]
    rcases Nat.lt_or_ge s.totSize size with hmore | hdone
    · obtain ⟨s₁, heq, hinv, htot⟩ := h.round hperform hrange hlinear hmore
      rw [if_pos hmore, heq]
      exact ih hinv (by omega)
    · rw [if_neg (Nat.not_lt.mpr hdone)]; exact ⟨s, k, rfl, h, hdone⟩

theorem copyToLinear_eq (hperform : Performs isLinear src performCopy)
    (hrange : MappedRange table dst size) (hlinear : LinearRange isLinear table dst size)
    (hsize : 0 < size) :
    copyToLinear performCopy table memory dst size =
      some (writeAll memory (located table dst) src size) := by
  have hmod : dst % 0x1000 < 0x1000 := Nat.mod_lt _ (by decide)
  have hentries := hrange.entries 0 hsize
  have hmapped := hrange.mapped 0 hsize
  have haligned := hrange.aligned 0 hsize
  rw [Nat.add_zero] at hentries hmapped haligned
  have hentry : beginTraversal table dst =
      (true, ⟨physical table dst, 0x1000⟩, ⟨dst / 0x1000 + 1, dst + 0x1000⟩) :=
    continueTraversal_eq hentries hmapped
  -- The offset in the physical page is the offset in the virtual one.
  have hoffset : (physical table dst).toNat % 0x1000 = dst % 0x1000 := by
    unfold Aligned at haligned
    rw [physical, BitVec.toNat_add, BitVec.toNat_ofNat]; omega
  let first := 0x1000 - dst % 0x1000
  let start : CopyState :=
    ⟨memory, 0, physical table dst, first, first, ⟨dst / 0x1000 + 1, dst + 0x1000⟩⟩
  have hinv : CopyInv isLinear table memory dst size src 0 start := by
    refine ⟨rfl, rfl, Nat.zero_add _, hsize, rfl, fun j hj => ?_, ?_⟩
    · show located table dst (0 + j) = physical table dst + BitVec.ofNat 64 j
      have hpage : (dst + j) / 0x1000 = dst / 0x1000 := by
        have hj' : j < 0x1000 - dst % 0x1000 := hj
        omega
      rw [Nat.zero_add, located_first hj, physical, physical, hpage, BitVec.add_assoc,
        ← BitVec.ofNat_add]
    · exact hlinear dst ⟨0, hsize, rfl⟩
  obtain ⟨s, k, heq, hs, hdone⟩ := hinv.loop hperform hrange hlinear (Nat.le_add_left _ _)
  have hcut : (if s.totSize > size then { s with curSize := s.curSize - (s.totSize - size) } else s) =
      { s with curSize := size - s.source } := by
    have hsum := hs.source
    have hbelow := hs.below
    split
    · congr 1
      omega
    · have hcur : s.curSize = size - s.source := by omega
      rw [← hcur]
  unfold copyToLinear
  rw [hentry]
  simp only [hoffset]
  rw [heq]
  simp only [Option.bind_some, hcut]
  obtain ⟨s', heq', hmem, -, -⟩ := hperform { s with curSize := size - s.source } hs.linear
  rw [heq']
  show some s'.memory = _
  rw [hmem]
  refine congrArg some ?_
  show Core.Memory.copyBytes s.memory s.curAddr (fun i => src (s.source + i)) (size - s.source) = _
  have hsum := hs.source
  have hbelow := hs.below
  rw [hs.memory, copyBytes_writeAll fun j hj => hs.run j (by omega),
    Nat.add_sub_of_le (Nat.le_of_lt hbelow)]

end Loop

/-! ## Exactly when the copies are right -/

section Exact

variable {isLinear : Pointer → Bool} {table : PageTable} {dst size : Nat}

/-- Sixteen pages that are scattered: the even ones and the odd ones lie apart. -/
def scatteredTable : PageTable :=
  ⟨fun _ => 0, fun _ => 0, fun page => if page % 2 = 0 then 0x80000000 else 0x90000000, 16⟩

theorem scatteredTable_mapped (hend : dst + size ≤ 0x10000) :
    MappedRange scatteredTable dst size := by
  have hback : ∀ page, scatteredTable.backingAddr page = 0x80000000 ∨
      scatteredTable.backingAddr page = 0x90000000 := by
    intro page
    rcases Nat.mod_two_eq_zero_or_one page with h | h
    · exact Or.inl (if_pos h)
    · exact Or.inr (if_neg (by omega))
  refine ⟨fun i hi => ?_, fun i _ => ?_, fun i _ => ?_⟩
  · show (dst + i) / 0x1000 < 16
    omega
  · rcases hback ((dst + i) / 0x1000) with h | h
    · rw [h]
      decide
    · rw [h]; decide
  · rcases hback ((dst + i) / 0x1000) with h | h
    · rw [h]
      exact Nat.mod_eq_zero_of_dvd (by decide)
    · rw [h]; exact Nat.mod_eq_zero_of_dvd (by decide)

end Exact

end Suyu.Kernel.KPageTableBase
