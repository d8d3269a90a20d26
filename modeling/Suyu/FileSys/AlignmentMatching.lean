import Mathlib

/-
  `AlignmentMatchingStorageImpl` and `IntegrityVerificationStorage::Read`: adaptors over a base storage
  that wants whole blocks.

  1. **Program** - a read has a CORE of whole blocks, which goes straight into the caller's buffer, and a
     head and a tail, which go block by block through a work buffer.  Where the core would not be aligned
     in the buffer, it is read behind its place and moved down.  A write rewrites the blocks that it
     covers in part.  The base storage reads short at its end; a write past it is trimmed
     (`OffsetVfsFile`) or makes it longer (`VectorVfsFile`, `RealVfsFile`).

  2. **Specification** - a read leaves the bytes of the range in the buffer, touches no other byte of it,
     and asks for whole blocks only; a write changes the bytes of the range and nothing else.

  3. **The crux (`Filled`, `Stored`)** - what holds up to an offset `t` that the tail loop pushes on.

  4. **When it goes wrong** - a write into the last block of a storage that ends inside it may make the
     storage longer; and the padding of `IntegrityVerificationStorage::Read` is measured up to a multiple
     of the block size BEHIND THE OFFSET OF THE READ, where the end of the buffer is meant.

  Offsets and sizes are those of storages: no sum of them wraps.  `buffer` is its address, and memory is
  read relative to it.
-/

namespace Suyu.FileSys

/-! ## The program -/

/-- The bytes of a buffer or of a storage. -/
abbrev Bytes := Nat → UInt8

/-- `memcpy`, `memmove`, `memset`: `n` bytes go to `dst`. -/
def put (memory : Bytes) (dst n : Nat) (value : Bytes) : Bytes :=
  fun i => if dst ≤ i ∧ i < dst + n then value (i - dst) else memory i

/-- `Common::AlignDown`, `Common::AlignUp`. -/
def alignDown (value size : Nat) : Nat := value - value % size

def alignUp (value size : Nat) : Nat :=
  if value % size = 0 then value else value - value % size + size

/-- `base_storage`; `grows` says what a write past the end does. -/
structure BaseStorage where
  size : Nat
  bytes : Bytes
  grows : Bool

/-- `Read(memory + dst, length, offset)`. -/
def BaseStorage.read (base : BaseStorage) (memory : Bytes) (dst length offset : Nat) : Bytes :=
  put memory dst (min length (base.size - offset)) fun i => base.bytes (offset + i)

def BaseStorage.write (base : BaseStorage) (value : Bytes) (length offset : Nat) : BaseStorage :=
  if base.grows then
    { base with
      size := max base.size (offset + length)
      bytes := put base.bytes offset length value }
  else
    { base with bytes := put base.bytes offset (min length (base.size - offset)) value }

/-- `Determine extents.`; `alignedCoreBuffer` is relative to the buffer. -/
structure Extents where
  alignedCoreBuffer : Nat
  coreOffset : Nat
  coreSize : Nat
  bufferGap : Nat
  offsetGap : Nat
  coveredOffset : Nat

section Program

variable (base : BaseStorage) (dataAlignment bufferAlignment address offset size : Nat)

def readExtents : Extents :=
  let offsetRoundUpDifference := alignUp offset dataAlignment - offset
  if (address + offsetRoundUpDifference) % bufferAlignment = 0 then
    let coreSize :=
      if size < offsetRoundUpDifference then 0
      else alignDown (size - offsetRoundUpDifference) dataAlignment
    { alignedCoreBuffer := offsetRoundUpDifference
      coreOffset := alignUp offset dataAlignment
      coreSize := coreSize
      bufferGap := 0
      offsetGap := 0
      coveredOffset := if coreSize > 0 then alignUp offset dataAlignment else offset }
  else
    let bufferRoundUpDifference := alignUp address bufferAlignment - address
    let coreSize :=
      if size < bufferRoundUpDifference then 0
      else alignDown (size - bufferRoundUpDifference) dataAlignment
    { alignedCoreBuffer := bufferRoundUpDifference
      coreOffset := alignDown offset dataAlignment
      coreSize := coreSize
      bufferGap := bufferRoundUpDifference
      offsetGap := offset - alignDown offset dataAlignment
      coveredOffset := offset }

/-- The two buffers, and the reads of the base storage so far: offset and length. -/
structure ReadState where
  buffer : Bytes
  workBuf : Bytes
  reads : List (Nat × Nat)

/-- `Read the core portion.`; with the size that is left of it. -/
def readCore (e : Extents) (s : ReadState) : ReadState × Nat :=
  if e.coreSize > 0 then
    let buffer := base.read s.buffer e.alignedCoreBuffer e.coreSize e.coreOffset
    let reads := s.reads ++ [(e.coreOffset, e.coreSize)]
    if e.offsetGap ≠ 0 ∨ e.bufferGap ≠ 0 then
      let moved := put buffer (e.alignedCoreBuffer - e.bufferGap) (e.coreSize - e.offsetGap)
        fun i => buffer (e.alignedCoreBuffer + e.offsetGap + i)
      ({ s with buffer := moved, reads := reads }, e.coreSize - e.offsetGap)
    else ({ s with buffer := buffer, reads := reads }, e.coreSize)
  else (s, e.coreSize)

/-- `Handle the head portion.` -/
def readHead (coveredOffset : Nat) (s : ReadState) : ReadState :=
  if offset < coveredOffset then
    let headOffset := alignDown offset dataAlignment
    let headSize := coveredOffset - offset
    let workBuf := base.read s.workBuf 0 dataAlignment headOffset
    { buffer := put s.buffer 0 headSize fun i =>
        workBuf (offset - alignDown offset dataAlignment + i)
      workBuf := workBuf
      reads := s.reads ++ [(headOffset, dataAlignment)] }
  else s

/-- `Handle the tail portion.`: `while (remaining_tail_size > 0)`; every round takes a byte or more. -/
def readTail : Nat → Nat → Nat → ReadState → ReadState
  | 0, _, _, s => s
  | fuel + 1, tailOffset, remainingTailSize, s =>
      if remainingTailSize > 0 then
        let alignedTailOffset := alignDown tailOffset dataAlignment
        let curSize := min (alignedTailOffset + dataAlignment - tailOffset) remainingTailSize
        let workBuf := base.read s.workBuf 0 dataAlignment alignedTailOffset
        readTail fuel (tailOffset + curSize) (remainingTailSize - curSize)
          { buffer := put s.buffer (tailOffset - offset) curSize fun i =>
              workBuf (tailOffset - alignedTailOffset + i)
            workBuf := workBuf
            reads := s.reads ++ [(alignedTailOffset, dataAlignment)] }
      else s

/-- `AlignmentMatchingStorageImpl::Read`. -/
def alignmentRead (buffer workBuf : Bytes) : ReadState :=
  if size = 0 then ⟨buffer, workBuf, []⟩
  else
    let e := readExtents dataAlignment bufferAlignment address offset size
    let (s, coreSize) := readCore base e ⟨buffer, workBuf, []⟩
    let s := readHead base dataAlignment offset e.coveredOffset s
    let tailOffset := e.coveredOffset + coreSize
    let remainingTailSize := offset + size - tailOffset
    readTail base dataAlignment offset remainingTailSize tailOffset remainingTailSize s

/-- The base storage and the work buffer of a write. -/
structure WriteState where
  base : BaseStorage
  workBuf : Bytes

/-- A block is read, changed in part, and written. -/
def rewriteBlock (blockOffset first length : Nat) (value : Bytes) (s : WriteState) : WriteState :=
  let workBuf := s.base.read s.workBuf 0 dataAlignment blockOffset
  let workBuf := put workBuf first length value
  ⟨s.base.write workBuf dataAlignment blockOffset, workBuf⟩

/-- The extents of a write: its core size and `covered_offset`. -/
def writeExtents : Nat × Nat :=
  let offsetRoundUpDifference := alignUp offset dataAlignment - offset
  if (address + offsetRoundUpDifference) % bufferAlignment = 0 then
    let coreSize :=
      if size < offsetRoundUpDifference then 0
      else alignDown (size - offsetRoundUpDifference) dataAlignment
    (coreSize, if coreSize > 0 then alignUp offset dataAlignment else offset)
  else (0, offset)

/-- `Write the core portion.` -/
def writeCore (buffer : Bytes) (coreSize : Nat) (s : WriteState) : WriteState :=
  if coreSize > 0 then
    let coreOffset := alignUp offset dataAlignment
    { s with base := s.base.write (fun i => buffer (coreOffset - offset + i)) coreSize coreOffset }
  else s

/-- `Handle the head portion.` -/
def writeHead (buffer : Bytes) (coveredOffset : Nat) (s : WriteState) : WriteState :=
  if offset < coveredOffset then
    rewriteBlock dataAlignment (alignDown offset dataAlignment)
      (offset - alignDown offset dataAlignment) (coveredOffset - offset) buffer s
  else s

/-- `Handle the tail portion.` -/
def writeTail (buffer : Bytes) : Nat → Nat → Nat → WriteState → WriteState
  | 0, _, _, s => s
  | fuel + 1, tailOffset, remainingTailSize, s =>
      if remainingTailSize > 0 then
        let alignedTailOffset := alignDown tailOffset dataAlignment
        let curSize := min (alignedTailOffset + dataAlignment - tailOffset) remainingTailSize
        writeTail buffer fuel (tailOffset + curSize) (remainingTailSize - curSize)
          (rewriteBlock dataAlignment alignedTailOffset (tailOffset - alignedTailOffset) curSize
            (fun i => buffer (tailOffset - offset + i)) s)
      else s

/-- `AlignmentMatchingStorageImpl::Write`. -/
def alignmentWrite (buffer workBuf : Bytes) : WriteState :=
  if size = 0 then ⟨base, workBuf⟩
  else
    let (coreSize, coveredOffset) :=
      writeExtents dataAlignment bufferAlignment address offset size
    let s := writeCore dataAlignment offset buffer coreSize ⟨base, workBuf⟩
    let s := writeHead dataAlignment offset buffer coveredOffset s
    let tailOffset := coveredOffset + coreSize
    let remainingTailSize := offset + size - tailOffset
    writeTail dataAlignment offset buffer remainingTailSize tailOffset remainingTailSize s

def checkAccessRange (totalSize : Nat) : Bool := decide (offset + size ≤ totalSize)

/-- `IntegrityVerificationStorage::Read`; the block size is `2 ^ blockOrder`.  The assertions only log. -/
def integrityRead (blockOrder : Nat) (buffer : Bytes) : Bytes :=
  if size = 0 then buffer
  else if offset + size > base.size then
    let paddingOffset := base.size - offset
    let paddingSize := 2 ^ blockOrder - (paddingOffset &&& (2 ^ blockOrder - 1))
    let buffer := put buffer paddingOffset paddingSize fun _ => 0
    base.read buffer 0 (base.size - offset) offset
  else base.read buffer 0 size offset

end Program

/-! ## Specification -/

section Spec

variable (base : BaseStorage) (dataAlignment bufferAlignment address offset size : Nat)

/-- A read leaves the range in the buffer, and has asked for whole blocks only. -/
def ReadExact : Prop :=
  ∀ buffer workBuf,
    let s := alignmentRead base dataAlignment bufferAlignment address offset size buffer workBuf
    (∀ i < size, s.buffer i = base.bytes (offset + i)) ∧ (∀ i, size ≤ i → s.buffer i = buffer i) ∧
    ∀ r ∈ s.reads, dataAlignment ∣ r.1 ∧ dataAlignment ∣ r.2

/-- A write changes the range, and nothing else of the base storage. -/
def WriteExact : Prop :=
  ∀ buffer workBuf,
    let s := alignmentWrite base dataAlignment bufferAlignment address offset size buffer workBuf
    s.base.size = base.size ∧ ∀ x < base.size, s.base.bytes x =
      if offset ≤ x ∧ x < offset + size then buffer (x - offset) else base.bytes x

/-- A verified read leaves the data and zeros behind them in the buffer, and touches nothing else. -/
def IntegrityExact (blockOrder : Nat) : Prop :=
  ∀ buffer,
    (∀ i < size, integrityRead base offset size blockOrder buffer i =
      if offset + i < base.size then base.bytes (offset + i) else 0) ∧
    ∀ i, size ≤ i → integrityRead base offset size blockOrder buffer i = buffer i

end Spec

/-! ## Small facts -/

section Facts

theorem put_inside {memory value : Bytes} {dst n i : Nat} (hfrom : dst ≤ i) (hto : i < dst + n) :
    put memory dst n value i = value (i - dst) :=
  if_pos ⟨hfrom, hto⟩

theorem put_outside {memory value : Bytes} {dst n i : Nat} (h : i < dst ∨ dst + n ≤ i) :
    put memory dst n value i = memory i :=
  if_neg (by omega)

variable {d : Nat} (v : Nat)

theorem alignDown_le : alignDown v d ≤ v := Nat.sub_le _ _

theorem dvd_alignDown : d ∣ alignDown v d := Nat.dvd_sub_mod v

theorem lt_alignDown_add (hd : 0 < d) : v < alignDown v d + d := by
  have := Nat.mod_lt v hd
  have := Nat.mod_le v d
  unfold alignDown
  omega

theorem le_alignUp (hd : 0 < d) : v ≤ alignUp v d := by
  have := Nat.mod_lt v hd
  have := Nat.mod_le v d
  unfold alignUp
  split <;> omega

theorem dvd_alignUp : d ∣ alignUp v d := by
  unfold alignUp
  split
  · exact Nat.dvd_of_mod_eq_zero ‹_›
  · exact Nat.dvd_add (Nat.dvd_sub_mod v) (Nat.dvd_refl d)

theorem alignUp_eq {x : Nat} (hx : d ∣ x) (hle : v ≤ x) (hlt : x < v + d) : alignUp v d = x := by
  obtain ⟨k, rfl⟩ := hx
  have hd : 0 < d := by
    rcases Nat.eq_zero_or_pos d with rfl | hd
    · omega
    · exact hd
  obtain ⟨j, hj⟩ := dvd_alignUp (d := d) v
  have hup := le_alignUp v hd
  have hup' : alignUp v d < v + d := by
    have := Nat.mod_le v d
    unfold alignUp
    split <;> omega
  rw [hj] at hup hup' ⊢
  have hjk : j < k + 1 := Nat.lt_of_mul_lt_mul_left (a := d) (by rw [Nat.mul_add]; omega)
  have hkj : k < j + 1 := Nat.lt_of_mul_lt_mul_left (a := d) (by rw [Nat.mul_add]; omega)
  rw [show j = k by omega]

theorem alignUp_le_alignDown_add (hd : 0 < d) : alignUp v d ≤ alignDown v d + d := by
  unfold alignUp alignDown
  split <;> omega

theorem alignUp_eq_alignDown_add (h : v < alignUp v d) : alignUp v d = alignDown v d + d := by
  unfold alignUp alignDown at *
  split at h <;> simp_all

end Facts

/-! ## Reading -/

section Reading

variable {base : BaseStorage} {d b address offset size : Nat} {buffer : Bytes}

/-- What the caller's buffer holds once `[first, last)` has been read into it. -/
structure Filled (base : BaseStorage) (d offset size : Nat) (buffer : Bytes) (first last : Nat)
    (s : ReadState) : Prop where
  data : ∀ i, first ≤ offset + i → offset + i < last → s.buffer i = base.bytes (offset + i)
  frame : ∀ i, size ≤ i → s.buffer i = buffer i
  blocks : ∀ r ∈ s.reads, d ∣ r.1 ∧ d ∣ r.2

theorem blocks_append {reads : List (Nat × Nat)} {x : Nat × Nat}
    (h : ∀ r ∈ reads, d ∣ r.1 ∧ d ∣ r.2) (hx : d ∣ x.1 ∧ d ∣ x.2) :
    ∀ r ∈ reads ++ [x], d ∣ r.1 ∧ d ∣ r.2 := by
  intro r hr
  rcases List.mem_append.mp hr with hr | hr
  · exact h r hr
  · rw [List.mem_singleton.mp hr]; exact hx

theorem read_work {work : Bytes} {length at' j : Nat} (hj : j < length)
    (hin : at' + j < base.size) : base.read work 0 length at' j = base.bytes (at' + j) := by
  unfold BaseStorage.read
  rw [put_inside (Nat.zero_le j) (by omega), Nat.sub_zero]

theorem Filled.block {s : ReadState} {first last : Nat} (t cur : Nat)
    (hs : Filled base d offset size buffer first last s) (hoff : offset ≤ t)
    (hcur : t + cur ≤ alignDown t d + d) (hend : t + cur ≤ offset + size)
    (hbase : offset + size ≤ base.size) (hjoin : t = last ∨ t + cur = first) :
    Filled base d offset size buffer (min first t) (max last (t + cur))
      { buffer := put s.buffer (t - offset) cur fun i =>
          base.read s.workBuf 0 d (alignDown t d) (t - alignDown t d + i)
        workBuf := base.read s.workBuf 0 d (alignDown t d)
        reads := s.reads ++ [(alignDown t d, d)] } where
  data := by
    intro i hfirst hlast
    have hdown := alignDown_le t (d := d)
    by_cases hi : t ≤ offset + i ∧ offset + i < t + cur
    · dsimp only
      rw [put_inside (by omega) (by omega), read_work (by omega) (by omega)]
      congr 1
      omega
    · dsimp only
      rw [put_outside (by omega)]; exact hs.data i (by omega) (by omega)
  frame := by
    intro i hi
    dsimp only
    rw [put_outside (by omega)]; exact hs.frame i hi
  blocks := blocks_append hs.blocks ⟨dvd_alignDown t, Nat.dvd_refl d⟩

theorem readTail_spec (hd : 0 < d) (hbase : offset + size ≤ base.size) (fuel : Nat) :
    ∀ (t r : Nat) (s : ReadState), r ≤ fuel → offset ≤ t → t + r = offset + size →
      Filled base d offset size buffer offset t s →
      Filled base d offset size buffer offset (offset + size)
        (readTail base d offset fuel t r s) := by
  induction fuel with
  | zero =>
    intro t r s hr _ hsum hs
    obtain rfl : t = offset + size := by omega
    exact hs
  | succ fuel ih =>
    intro t r s hr hoff hsum hs
    rw [readTail]
    by_cases hpos : r > 0
    · rw [if_pos hpos]
      have hlt := lt_alignDown_add t hd
      apply ih
      · omega
      · omega
      · omega
      · have := hs.block t (min (alignDown t d + d - t) r) hoff (by omega) (by omega) hbase
          (Or.inl rfl)
        rw [Nat.min_eq_left hoff, Nat.max_eq_right (Nat.le_add_right t _)] at this
        exact this
    · rw [if_neg hpos]
      obtain rfl : t = offset + size := by omega
      exact hs

theorem filled_of_core {work : Bytes} {e : Extents} (hd : 0 < d)
    (hbase : offset + size ≤ base.size) (hcovered : offset ≤ e.coveredOffset)
    (hhead : offset < e.coveredOffset → e.coveredOffset ≤ alignDown offset d + d)
    (hend : e.coveredOffset + (readCore base e ⟨buffer, work, []⟩).2 ≤ offset + size)
    (hcore : Filled base d offset size buffer e.coveredOffset
      (e.coveredOffset + (readCore base e ⟨buffer, work, []⟩).2)
      (readCore base e ⟨buffer, work, []⟩).1) :
    let (s, coreSize) := readCore base e ⟨buffer, work, []⟩
    let s := readHead base d offset e.coveredOffset s
    let t := e.coveredOffset + coreSize
    Filled base d offset size buffer offset (offset + size)
      (readTail base d offset (offset + size - t) t (offset + size - t) s) := by
  generalize readCore base e ⟨buffer, work, []⟩ = core at hend hcore ⊢
  obtain ⟨s, coreSize⟩ := core
  dsimp only at hend hcore ⊢
  apply readTail_spec hd hbase
  · exact Nat.le_refl _
  · omega
  · omega
  · unfold readHead
    by_cases h : offset < e.coveredOffset
    · rw [if_pos h]
      have := hcore.block offset (e.coveredOffset - offset) (Nat.le_refl offset)
        (by have := hhead h; omega) (by omega) hbase (Or.inr (by omega))
      rw [Nat.min_eq_right hcovered, Nat.max_eq_left (by omega), Nat.sub_self] at this
      exact this
    · rw [if_neg h]
      obtain h : e.coveredOffset = offset := by omega
      rwa [h] at hcore ⊢

/-- What the extents promise.  With a core, the byte for `covered_offset` is behind the offset gap
    of the core and goes in front of the buffer gap. -/
structure Extents.Fits (e : Extents) (d offset size : Nat) : Prop where
  covered : offset ≤ e.coveredOffset
  head : offset < e.coveredOffset → e.coveredOffset ≤ alignDown offset d + d
  no_core : e.coreSize = 0 → e.coveredOffset = offset
  start : 0 < e.coreSize → e.coreOffset + e.offsetGap = e.coveredOffset
  place : 0 < e.coreSize → e.coveredOffset + e.bufferGap = offset + e.alignedCoreBuffer
  gap : 0 < e.coreSize → e.offsetGap ≤ e.coreSize
  inside : 0 < e.coreSize → e.alignedCoreBuffer + e.coreSize ≤ size
  aligned : d ∣ e.coreOffset ∧ d ∣ e.coreSize

/-- The core is what is left of the request behind the first `n` bytes, in whole blocks. -/
theorem exists_core (d size n : Nat) : ∃ c, (if size < n then 0 else alignDown (size - n) d) = c ∧
    (0 < c → n + c ≤ size) ∧ d ∣ c := by
  refine ⟨_, rfl, fun h => ?_, ?_⟩
  · have := alignDown_le (size - n) (d := d)
    split at h
    · omega
    · rw [if_neg ‹_›]; omega
  · split
    · exact Nat.dvd_zero d
    · exact dvd_alignDown _

theorem readExtents_fits (hd : 0 < d) : (readExtents d b address offset size).Fits d offset size := by
  have hup := le_alignUp offset hd
  have hdown := alignDown_le offset (d := d)
  have hblock := lt_alignDown_add offset hd
  unfold readExtents
  dsimp only
  by_cases hlayout : (address + (alignUp offset d - offset)) % b = 0
  · rw [if_pos hlayout]
    obtain ⟨coreSize, hcore, hinside, hdvd⟩ := exists_core d size (alignUp offset d - offset)
    rw [hcore]
    constructor <;> dsimp only
    · split <;> omega
    · intro h
      have := alignUp_le_alignDown_add offset hd
      split <;> omega
    · intro h
      rw [if_neg (by omega)]
    · intro h
      rw [if_pos h, Nat.add_zero]
    · intro h
      rw [if_pos h]
      omega
    · intro _
      exact Nat.zero_le _
    · exact hinside
    · exact ⟨dvd_alignUp offset, hdvd⟩
  · rw [if_neg hlayout]
    obtain ⟨coreSize, hcore, hinside, hdvd⟩ := exists_core d size (alignUp address b - address)
    rw [hcore]
    constructor <;> dsimp only
    · exact Nat.le_refl _
    · omega
    · intro _
      rfl
    · omega
    · omega
    · -- The offset gap is less than a block, and the core is a block or more.
      intro h
      have := Nat.le_of_dvd h hdvd
      omega
    · exact hinside
    · exact ⟨dvd_alignDown offset, hdvd⟩

theorem readCore_spec {e : Extents} (hbase : offset + size ≤ base.size)
    (h : e.Fits d offset size) (buffer work : Bytes) :
    e.coveredOffset + (readCore base e ⟨buffer, work, []⟩).2 ≤ offset + size ∧
    Filled base d offset size buffer e.coveredOffset
      (e.coveredOffset + (readCore base e ⟨buffer, work, []⟩).2)
      (readCore base e ⟨buffer, work, []⟩).1 := by
  unfold readCore
  by_cases hcore : e.coreSize > 0
  · have hcovered := h.covered
    have hstart := h.start hcore
    have hplace := h.place hcore
    have hgap := h.gap hcore
    have hinside := h.inside hcore
    have hread : ∀ j < e.coreSize, base.read buffer e.alignedCoreBuffer e.coreSize e.coreOffset
        (e.alignedCoreBuffer + j) = base.bytes (e.coreOffset + j) := by
      intro j hj
      unfold BaseStorage.read
      rw [put_inside (by omega) (by omega), Nat.add_sub_cancel_left]
    have hframe : ∀ i, size ≤ i →
        base.read buffer e.alignedCoreBuffer e.coreSize e.coreOffset i = buffer i := by
      intro i hi; exact put_outside (by omega)
    have hblocks : ∀ r ∈ [(e.coreOffset, e.coreSize)], d ∣ r.1 ∧ d ∣ r.2 := by
      intro r hr
      rw [List.mem_singleton.mp hr]; exact h.aligned
    rw [if_pos hcore]
    by_cases hgaps : e.offsetGap ≠ 0 ∨ e.bufferGap ≠ 0
    · rw [if_pos hgaps]
      refine ⟨?_, ?_, ?_, hblocks⟩
      · dsimp only
        omega
      · intro i hfirst hlast
        dsimp only at hlast ⊢
        rw [put_inside (by omega) (by omega), Nat.add_assoc, hread _ (by omega)]
        congr 1
        omega
      · intro i hi
        dsimp only
        rw [put_outside (by omega)]; exact hframe i hi
    · rw [if_neg hgaps]
      refine ⟨?_, ?_, hframe, hblocks⟩
      · dsimp only
        omega
      · intro i hfirst hlast
        dsimp only at hlast ⊢
        have := hread (i - e.alignedCoreBuffer) (by omega)
        rw [show e.alignedCoreBuffer + (i - e.alignedCoreBuffer) = i by omega] at this
        rw [this]
        congr 1; omega
  · rw [if_neg hcore]
    have := h.no_core (by omega)
    refine ⟨?_, ?_, ?_, ?_⟩
    · dsimp only
      omega
    · intro i hfirst hlast
      dsimp only at hlast
      omega
    · intro i _
      rfl
    · intro r hr; cases hr

theorem alignmentRead_exact (hd : 0 < d) (hbase : offset + size ≤ base.size) :
    ReadExact base d b address offset size := by
  intro buffer work
  unfold alignmentRead
  by_cases hsize : size = 0
  · rw [if_pos hsize]
    refine ⟨?_, ?_, ?_⟩
    · omega
    · intro i _
      rfl
    · intro r hr; cases hr
  · rw [if_neg hsize]
    have hfits : (readExtents d b address offset size).Fits d offset size := readExtents_fits hd
    obtain ⟨hend, hcore⟩ := readCore_spec hbase hfits buffer work
    have := filled_of_core hd hbase hfits.covered hfits.head hend hcore
    refine ⟨?_, this.frame, this.blocks⟩
    intro i hi; exact this.data i (by omega) (by omega)

end Reading

/-! ## Writing -/

section Writing

variable {base : BaseStorage} {d b address offset size : Nat} {buffer : Bytes}

/-- What the base storage holds once `[first, last)` of the range has been written. -/
structure Stored (base : BaseStorage) (offset : Nat) (buffer : Bytes) (first last : Nat)
    (s : WriteState) : Prop where
  data : ∀ x < base.size, s.base.bytes x =
    if first ≤ x ∧ x < last then buffer (x - offset) else base.bytes x
  grows : s.base.grows = base.grows

/-- The size of a storage after a write that ends at `last`. -/
def BaseStorage.sizeAfter (base : BaseStorage) (last : Nat) : Nat :=
  if base.grows then max base.size last else base.size

theorem BaseStorage.sizeAfter_of_le {last : Nat} (h : last ≤ base.size) :
    base.sizeAfter last = base.size := by
  unfold BaseStorage.sizeAfter
  split
  · exact Nat.max_eq_left h
  · rfl

theorem BaseStorage.write_size {value : Bytes} {length at' : Nat} :
    (base.write value length at').size = base.sizeAfter (at' + length) := by
  unfold BaseStorage.write BaseStorage.sizeAfter
  split <;> rfl

theorem BaseStorage.write_grows {value : Bytes} {length at' : Nat} :
    (base.write value length at').grows = base.grows := by
  unfold BaseStorage.write
  split <;> rfl

theorem BaseStorage.write_bytes {value : Bytes} {length at' x : Nat} (hx : x < base.size) :
    (base.write value length at').bytes x =
      if at' ≤ x ∧ x < at' + length then value (x - at') else base.bytes x := by
  unfold BaseStorage.write
  by_cases hin : at' ≤ x ∧ x < at' + length
  · rw [if_pos hin]
    split
    · exact put_inside hin.1 hin.2
    · exact put_inside hin.1 (by omega)
  · rw [if_neg hin]
    split
    · exact put_outside (by omega)
    · exact put_outside (by omega)

theorem rewriteBlock_bytes {s : WriteState} {value : Bytes} {block first length x : Nat}
    (hin : first + length ≤ d) (hx : x < s.base.size) :
    (rewriteBlock d block first length value s).base.bytes x =
      if block + first ≤ x ∧ x < block + first + length then value (x - (block + first))
      else s.base.bytes x := by
  unfold rewriteBlock
  dsimp only
  rw [BaseStorage.write_bytes hx]
  by_cases hblock : block ≤ x ∧ x < block + d
  · rw [if_pos hblock]
    by_cases hpart : block + first ≤ x ∧ x < block + first + length
    · rw [if_pos hpart, put_inside (by omega) (by omega), Nat.sub_sub]
    · rw [if_neg hpart, put_outside (by omega), read_work (by omega) (by omega)]
      congr 1; omega
  · rw [if_neg hblock, if_neg (by omega)]

theorem Stored.block {s : WriteState} {first last : Nat} (t cur : Nat)
    (hs : Stored base offset buffer first last s) (hsize : base.size ≤ s.base.size)
    (hoff : offset ≤ t) (hcur : t + cur ≤ alignDown t d + d)
    (hjoin : t = last ∨ t + cur = first) (hle : first ≤ last) :
    Stored base offset buffer (min first t) (max last (t + cur))
      (rewriteBlock d (alignDown t d) (t - alignDown t d) cur
        (fun i => buffer (t - offset + i)) s) where
  data := by
    intro x hx
    have hdown := alignDown_le t (d := d)
    rw [rewriteBlock_bytes (by omega) (by omega), hs.data x hx, Nat.add_sub_cancel' hdown]
    by_cases hnew : t ≤ x ∧ x < t + cur
    · rw [if_pos hnew, if_pos (by omega)]
      congr 1
      omega
    · rw [if_neg hnew]
      by_cases hold : first ≤ x ∧ x < last
      · rw [if_pos hold, if_pos (by omega)]
      · rw [if_neg hold, if_neg (by omega)]
  grows := by
    unfold rewriteBlock
    rw [BaseStorage.write_grows]; exact hs.grows

theorem writeTail_spec (hd : 0 < d) (hbase : offset + size ≤ base.size) (fuel : Nat) :
    ∀ (t r : Nat) (s : WriteState), r ≤ fuel → offset ≤ t → t + r = offset + size →
      s.base.size = base.size → Stored base offset buffer offset t s →
      let s' := writeTail d offset buffer fuel t r s
      Stored base offset buffer offset (offset + size) s' ∧
        s'.base.size = if r = 0 then base.size else base.sizeAfter (alignUp (offset + size) d) := by
  induction fuel with
  | zero =>
    intro t r s hr _ hsum hsize hs
    obtain rfl : r = 0 := by omega
    obtain rfl : t = offset + size := by omega
    exact ⟨hs, hsize⟩
  | succ fuel ih =>
    intro t r s hr hoff hsum hsize hs
    rw [writeTail]
    by_cases hpos : r > 0
    · rw [if_pos hpos, if_neg (by omega)]
      have hlt := lt_alignDown_add t hd
      have hdown := alignDown_le t (d := d)
      have hblock := hs.block t (min (alignDown t d + d - t) r) (by omega) hoff (d := d)
        (by omega) (Or.inl rfl) hoff
      rw [Nat.min_eq_left hoff, Nat.max_eq_right (Nat.le_add_right t _)] at hblock
      have hwritten : (rewriteBlock d (alignDown t d) (t - alignDown t d)
          (min (alignDown t d + d - t) r) (fun i => buffer (t - offset + i)) s).base.size =
          base.sizeAfter (alignDown t d + d) := by
        unfold rewriteBlock
        rw [BaseStorage.write_size]
        unfold BaseStorage.sizeAfter
        rw [hs.grows, hsize]
      dsimp only
      by_cases hlast : r ≤ alignDown t d + d - t
      · -- The last block: the loop is left with nothing.
        rw [Nat.min_eq_right hlast] at hblock hwritten ⊢
        have hup : alignUp (offset + size) d = alignDown t d + d := by
          apply alignUp_eq
          · exact Nat.dvd_add (dvd_alignDown t) (Nat.dvd_refl d)
          · omega
          · omega
        have hdone : ∀ fuel s, writeTail d offset buffer fuel (t + r) (r - r) s = s := by
          intro fuel s
          cases fuel with
          | zero => rfl
          | succ fuel => rw [writeTail, if_neg (by omega)]
        rw [hdone, hwritten, hup, ← hsum]
        exact ⟨hblock, rfl⟩
      · rw [Nat.min_eq_left (by omega)] at hblock hwritten ⊢
        rw [BaseStorage.sizeAfter_of_le (by omega)] at hwritten
        have := ih (t + (alignDown t d + d - t)) (r - (alignDown t d + d - t)) _ (by omega)
          (by omega) (by omega) hwritten hblock
        rw [if_neg (by omega)] at this; exact this
    · rw [if_neg hpos]
      obtain rfl : r = 0 := by omega
      obtain rfl : t = offset + size := by omega
      exact ⟨hs, hsize⟩

theorem writeExtents_cases (d b address offset size : Nat) :
    writeExtents d b address offset size = (0, offset) ∨
      ∃ c, 0 < c ∧ d ∣ c ∧ alignUp offset d - offset + c ≤ size ∧
        writeExtents d b address offset size = (c, alignUp offset d) := by
  unfold writeExtents
  dsimp only
  by_cases hlayout : (address + (alignUp offset d - offset)) % b = 0
  · rw [if_pos hlayout]
    obtain ⟨coreSize, hcore, hinside, hdvd⟩ := exists_core d size (alignUp offset d - offset)
    rw [hcore]
    by_cases hcore : coreSize > 0
    · right
      rw [if_pos hcore]
      exact ⟨coreSize, hcore, hdvd, hinside hcore, rfl⟩
    · left
      rw [if_neg hcore, show coreSize = 0 by omega]
  · rw [if_neg hlayout]; exact Or.inl rfl

theorem stored_nothing (buffer work : Bytes) : Stored base offset buffer offset offset ⟨base, work⟩ where
  data := by
    intro x _
    rw [if_neg (by omega)]
  grows := rfl

theorem writeHead_spec (hd : 0 < d) (hbase : offset + size ≤ base.size) {c : Nat} (buffer work : Bytes)
    (hc : 0 < c) (hin : alignUp offset d - offset + c ≤ size) :
    let s := writeHead d offset buffer (alignUp offset d) (writeCore d offset buffer c ⟨base, work⟩)
    s.base.size = base.size ∧ Stored base offset buffer offset (alignUp offset d + c) s := by
  have hup := le_alignUp offset hd
  have hcore : Stored base offset buffer (alignUp offset d) (alignUp offset d + c)
      (writeCore d offset buffer c ⟨base, work⟩) := by
    unfold writeCore
    rw [if_pos hc]
    constructor
    · intro x hx
      dsimp only
      rw [BaseStorage.write_bytes hx]
      by_cases hnew : alignUp offset d ≤ x ∧ x < alignUp offset d + c
      · rw [if_pos hnew, if_pos hnew]
        congr 1
        omega
      · rw [if_neg hnew, if_neg hnew]
    · exact BaseStorage.write_grows
  have hsize : (writeCore d offset buffer c ⟨base, work⟩).base.size = base.size := by
    unfold writeCore
    rw [if_pos hc]
    dsimp only
    rw [BaseStorage.write_size, BaseStorage.sizeAfter_of_le (by omega)]
  unfold writeHead
  by_cases hhead : offset < alignUp offset d
  · have hblock := alignUp_eq_alignDown_add offset hhead
    rw [if_pos hhead]
    constructor
    · unfold rewriteBlock
      dsimp only
      rw [BaseStorage.write_size]
      unfold BaseStorage.sizeAfter
      rw [hcore.grows, hsize]
      exact BaseStorage.sizeAfter_of_le (by omega)
    · have := hcore.block offset (alignUp offset d - offset) (Nat.le_of_eq hsize.symm)
        (Nat.le_refl offset) (d := d) (by omega) (Or.inr (by omega)) (by omega)
      rw [Nat.min_eq_right hup, Nat.max_eq_left (by omega), Nat.sub_self] at this
      simpa only [Nat.zero_add] using this
  · rw [if_neg hhead]
    refine ⟨hsize, ?_⟩
    rwa [show alignUp offset d = offset by omega] at hcore ⊢

theorem alignmentWrite_spec (hd : 0 < d) (hbase : offset + size ≤ base.size) (hsize : 0 < size)
    (b address : Nat) (buffer work : Bytes) :
    let s := alignmentWrite base d b address offset size buffer work
    Stored base offset buffer offset (offset + size) s ∧
      s.base.size = base.sizeAfter (alignUp (offset + size) d) := by
  unfold alignmentWrite
  rw [if_neg (by omega)]
  rcases writeExtents_cases d b address offset size with h | ⟨c, hc, hdvd, hin, h⟩
  · rw [h]
    dsimp only
    have hnothing : writeHead d offset buffer offset (writeCore d offset buffer 0 ⟨base, work⟩) =
        ⟨base, work⟩ := by
      unfold writeHead writeCore
      rw [if_neg (Nat.lt_irrefl _), if_neg (Nat.lt_irrefl _)]
    rw [hnothing, Nat.add_zero, Nat.add_sub_cancel_left]
    have := writeTail_spec hd hbase size offset size ⟨base, work⟩ (Nat.le_refl _) (Nat.le_refl _)
      rfl rfl (stored_nothing buffer work)
    rw [if_neg (by omega)] at this
    exact this
  · rw [h]
    dsimp only
    have hup := le_alignUp offset hd
    obtain ⟨hhead, hstored⟩ := writeHead_spec hd hbase buffer work hc hin
    have := writeTail_spec hd hbase (offset + size - (alignUp offset d + c)) (alignUp offset d + c)
      (offset + size - (alignUp offset d + c)) _ (Nat.le_refl _) (by omega) (by omega) hhead hstored
    refine ⟨this.1, ?_⟩
    rw [this.2]
    by_cases hrest : offset + size - (alignUp offset d + c) = 0
    · -- The core ends with the range, and at the end of a block.
      rw [if_pos hrest, alignUp_eq (offset + size) _ (Nat.le_refl _) (by omega),
        BaseStorage.sizeAfter_of_le hbase]
      rw [show offset + size = alignUp offset d + c by omega]
      exact Nat.dvd_add (dvd_alignUp offset) hdvd
    · rw [if_neg hrest]

theorem alignmentWrite_exact_iff (hd : 0 < d) (hbase : offset + size ≤ base.size) :
    WriteExact base d b address offset size ↔
      base.grows = false ∨ size = 0 ∨ alignUp (offset + size) d ≤ base.size := by
  rcases Nat.eq_zero_or_pos size with hsize | hsize
  · constructor
    · intro _
      exact Or.inr (Or.inl hsize)
    · intro _ buffer work
      unfold alignmentWrite
      rw [if_pos hsize]
      refine ⟨rfl, ?_⟩
      intro x _
      rw [if_neg (by omega)]
  · constructor
    · intro h
      have hexact := (h (fun _ => 0) (fun _ => 0)).1
      rw [(alignmentWrite_spec hd hbase hsize b address _ _).2] at hexact
      unfold BaseStorage.sizeAfter at hexact
      cases hgrows : base.grows with
      | false => exact Or.inl rfl
      | true =>
        rw [if_pos hgrows] at hexact; omega
    · intro h buffer work
      obtain ⟨hstored, hend⟩ := alignmentWrite_spec hd hbase hsize b address buffer work
      refine ⟨?_, hstored.data⟩
      rw [hend]
      unfold BaseStorage.sizeAfter
      rcases h with h | h | h
      · rw [h, if_neg (by decide)]
      · omega
      · rw [Nat.max_eq_left h, ite_self]

end Writing

/-! ## The verified read -/

section Verified

variable {base : BaseStorage} {offset size : Nat}

/-- The zeros end behind a multiple of the block size, counted from the offset of the read. -/
def paddingEnd (base : BaseStorage) (offset blockOrder : Nat) : Nat :=
  ((base.size - offset) / 2 ^ blockOrder + 1) * 2 ^ blockOrder

theorem padding_eq (base : BaseStorage) (offset blockOrder : Nat) :
    base.size - offset + (2 ^ blockOrder - ((base.size - offset) &&& (2 ^ blockOrder - 1))) =
      paddingEnd base offset blockOrder := by
  have hdiv := Nat.div_add_mod' (base.size - offset) (2 ^ blockOrder)
  have hlt := Nat.mod_lt (base.size - offset) (Nat.two_pow_pos blockOrder)
  unfold paddingEnd
  rw [Nat.and_two_pow_sub_one_eq_mod, Nat.succ_mul]
  omega

theorem lt_paddingEnd (base : BaseStorage) (offset blockOrder : Nat) :
    base.size - offset < paddingEnd base offset blockOrder := by
  have hdiv := Nat.div_add_mod' (base.size - offset) (2 ^ blockOrder)
  have hlt := Nat.mod_lt (base.size - offset) (Nat.two_pow_pos blockOrder)
  unfold paddingEnd
  rw [Nat.succ_mul]
  omega

theorem integrityRead_eq (blockOrder : Nat) (buffer : Bytes) (hoff : offset ≤ base.size)
    (hover : base.size < offset + size) (i : Nat) :
    integrityRead base offset size blockOrder buffer i =
      if offset + i < base.size then base.bytes (offset + i)
      else if i < paddingEnd base offset blockOrder then 0 else buffer i := by
  have hpadding := padding_eq base offset blockOrder
  unfold integrityRead
  rw [if_neg (by omega), if_pos hover]
  by_cases hdata : offset + i < base.size
  · rw [if_pos hdata]
    unfold BaseStorage.read
    rw [put_inside (Nat.zero_le i) (by omega), Nat.sub_zero]
  · rw [if_neg hdata]
    unfold BaseStorage.read
    rw [put_outside (by omega)]
    by_cases hzero : i < paddingEnd base offset blockOrder
    · rw [if_pos hzero, put_inside (by omega) (by omega)]
    · rw [if_neg hzero, put_outside (by omega)]

theorem integrityRead_exact_iff (blockOrder : Nat) (hoff : offset ≤ base.size) :
    IntegrityExact base offset size blockOrder ↔
      offset + size ≤ base.size ∨ size = paddingEnd base offset blockOrder := by
  constructor
  · intro h
    by_contra hnot
    rw [not_or] at hnot
    have hover : base.size < offset + size := Nat.lt_of_not_le hnot.1
    obtain ⟨hinside, houtside⟩ := h fun _ => 1
    have hpadding := lt_paddingEnd base offset blockOrder
    rcases Nat.lt_or_gt_of_ne hnot.2 with hlt | hgt
    · -- A zero is written behind the buffer.
      have := houtside size (Nat.le_refl _)
      rw [integrityRead_eq blockOrder _ hoff hover, if_neg (by omega), if_pos hlt] at this
      exact absurd this (by decide)
    · -- The end of the buffer is left as it was.
      have := hinside (paddingEnd base offset blockOrder) hgt
      rw [integrityRead_eq blockOrder _ hoff hover, if_neg (by omega), if_neg (Nat.lt_irrefl _),
        if_neg (by omega)] at this
      exact absurd this (by decide)
  · intro h buffer
    by_cases hover : base.size < offset + size
    · have hsize : size = paddingEnd base offset blockOrder := by
        rcases h with h | h
        · omega
        · exact h
      constructor
      · intro i hi
        rw [integrityRead_eq blockOrder buffer hoff hover]
        by_cases hdata : offset + i < base.size
        · rw [if_pos hdata, if_pos hdata]
        · rw [if_neg hdata, if_neg hdata, if_pos (by omega)]
      · intro i hi
        rw [integrityRead_eq blockOrder buffer hoff hover, if_neg (by omega), if_neg (by omega)]
    · unfold integrityRead
      by_cases hsize : size = 0
      · rw [if_pos hsize]
        exact ⟨fun i hi => by omega, fun i _ => rfl⟩
      · rw [if_neg hsize, if_neg (by omega)]
        unfold BaseStorage.read
        constructor
        · intro i hi
          rw [put_inside (Nat.zero_le i) (by omega), Nat.sub_zero, if_pos (by omega)]
        · intro i hi
          rw [put_outside (by omega)]

end Verified

/-! ## The result -/

/-- A read of an alignment-matching storage is exact.  A write is exact where the last block does not
    make the storage longer.  A verified read is exact inside the data, and over their end only where
    the size is a multiple of the block size: the one behind the data, counted from the offset. -/
theorem adaptors_exact_iff (base : BaseStorage) (offset size : Nat) :
    (∀ dataOrder bufferOrder address, offset + size ≤ base.size →
      ReadExact base (2 ^ dataOrder) (2 ^ bufferOrder) address offset size ∧
      (WriteExact base (2 ^ dataOrder) (2 ^ bufferOrder) address offset size ↔
        base.grows = false ∨ size = 0 ∨ alignUp (offset + size) (2 ^ dataOrder) ≤ base.size)) ∧
    ∀ blockOrder, offset ≤ base.size →
      checkAccessRange offset size (alignUp base.size (2 ^ blockOrder)) →
      (IntegrityExact base offset size blockOrder ↔
        offset + size ≤ base.size ∨
          size = ((base.size - offset) / 2 ^ blockOrder + 1) * 2 ^ blockOrder) := by
  constructor
  · intro dataOrder bufferOrder address hbase
    constructor
    · exact alignmentRead_exact (Nat.two_pow_pos dataOrder) hbase
    · exact alignmentWrite_exact_iff (Nat.two_pow_pos dataOrder) hbase
  · intro blockOrder hoff _; exact integrityRead_exact_iff blockOrder hoff

/-- A read of 0x40 bytes from a storage of 0x1000, and a verified read that ends with its block. -/
theorem adaptors_exact_blocks :
    ReadExact ⟨0x1000, fun i => UInt8.ofNat i, true⟩ (2 ^ 4) (2 ^ 3) 0x7001 0x9 0x40 ∧
      WriteExact ⟨0x1000, fun i => UInt8.ofNat i, true⟩ (2 ^ 4) (2 ^ 3) 0x7001 0x9 0x40 ∧
      IntegrityExact ⟨0x4010, fun i => UInt8.ofNat i, false⟩ 0x4000 0x4000 14 := by
  refine ⟨?_, ?_, ?_⟩
  · exact ((adaptors_exact_iff ⟨0x1000, _, true⟩ 0x9 0x40).1 4 3 0x7001 (by decide)).1
  · apply ((adaptors_exact_iff ⟨0x1000, _, true⟩ 0x9 0x40).1 4 3 0x7001 (by decide)).2.mpr
    exact Or.inr (Or.inr (by decide))
  · apply ((adaptors_exact_iff ⟨0x4010, _, false⟩ 0x4000 0x4000).2 14 (by decide) (by decide)).mpr
    exact Or.inr (by decide)

/-- 0x4010 bytes of data in blocks of 0x4000: a read of the last 0x10 and of 0x10 behind them clears
    the 0x3fe0 bytes behind the buffer. -/
theorem not_adaptors_exact :
    checkAccessRange 0x4000 0x20 (alignUp 0x4010 (2 ^ 14)) = true ∧
      integrityRead ⟨0x4010, fun _ => 7, false⟩ 0x4000 0x20 14 (fun _ => 1) 0x20 = 0 ∧
      ¬ IntegrityExact ⟨0x4010, fun _ => 7, false⟩ 0x4000 0x20 14 := by
  have hcleared : integrityRead ⟨0x4010, fun _ => 7, false⟩ 0x4000 0x20 14 (fun _ => 1) 0x20 = 0 := by
    decide +kernel
  refine ⟨by decide, hcleared, ?_⟩
  intro h
  have hkept := (h fun _ => 1).2 0x20 (Nat.le_refl _)
  rw [hcleared] at hkept
  exact absurd hkept (by decide)


end Suyu.FileSys
