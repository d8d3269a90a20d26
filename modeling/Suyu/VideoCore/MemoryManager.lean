/-
  MemoryManager — the GPU's virtual address space: two page tables, of big and of small pages, over
  one device address space.

  1. **Program** — `Map`, `MapSparse` and `Unmap` write the entry tables (two bits a page, packed),
     the device page of a mapped page and, for a big page, whether the host memory behind it is
     continuous.  `GpuToCpuAddress` asks the big table first; `ReadBlockUnsafe` and
     `WriteBlockUnsafe` walk the big pages of a range and, where a big page is free, the small pages
     in it.  `page_bits` is 12 for every manager that is built.  Addresses are in range, so the
     masks of `PageEntryIndex` do nothing.
  2. **Spec** — one address map: the latest `Map` that covers an address and is not unmapped since.
  3. **The crux** — a block access is a tiling of the range by chunks that lie in one page each; on
     such a chunk the table entry decides for all its bytes.  A big page that is only RESERVED is
     where the two ways part: the scalar path looks at its small pages, the block path does not.
-/
import Mathlib
import Suyu.Lib.PackedFields

namespace Suyu.VideoCore

open Function (update update_apply)

open Lib

abbrev Byte := BitVec 8

/-! ## The program -/

inductive EntryType where
  | free
  | reserved
  | mapped
deriving DecidableEq, Repr

namespace EntryType

def toBits : EntryType → BitVec 64
  | .free => 0
  | .reserved => 1
  | .mapped => 2

/-- The cast back; every comparison treats the fourth value like a free entry. -/
def ofBits (bits : BitVec 64) : EntryType :=
  if bits = 1 then .reserved else if bits = 2 then .mapped else .free

theorem ofBits_toBits (e : EntryType) : ofBits e.toBits = e := by
  cases e <;> rfl

theorem toBits_mask (e : EntryType) : e.toBits &&& PackedFields.mask 2 = e.toBits := by
  cases e <;> rfl

end EntryType

/-- `page_bits`, and `cpu_page_bits`. -/
def pageBits : Nat := 12

def pageSize : Nat := 2 ^ pageBits

/-- What the constructor is given. -/
structure SpaceConfig where
  addressSpaceBits : Nat
  bigPageBits : Nat
  pageBits_le : pageBits ≤ bigPageBits

def SpaceConfig.bigPageSize (cfg : SpaceConfig) : Nat := 2 ^ cfg.bigPageBits

/-- Device memory: the host page behind each device page (`compressed_physical_ptr`, zero for none)
    and the bytes of the host. -/
structure DeviceMemory where
  physicalPtr : Nat → Nat
  bytes : Nat → Byte

namespace DeviceMemory

def getPointer (dm : DeviceMemory) (devAddr : Nat) : Option Nat :=
  if dm.physicalPtr (devAddr / pageSize) = 0 then none
  else some ((dm.physicalPtr (devAddr / pageSize) - 1) * pageSize + devAddr % pageSize)

/-- Device memory seen as a byte map. -/
def readByte (dm : DeviceMemory) (devAddr : Nat) : Byte :=
  match dm.getPointer devAddr with
  | some p => dm.bytes p
  | none => 0

def readBlockUnsafe (dm : DeviceMemory) (devAddr size : Nat) : List Byte :=
  (List.range size).map fun i => dm.readByte (devAddr + i)

def writeByte (dm : DeviceMemory) (devAddr : Nat) (b : Byte) : DeviceMemory :=
  match dm.getPointer devAddr with
  | some p => { dm with bytes := update dm.bytes p b }
  | none => dm

def writeBlockUnsafe (dm : DeviceMemory) (devAddr : Nat) : List Byte → DeviceMemory
  | [] => dm
  | b :: src => (dm.writeByte devAddr b).writeBlockUnsafe (devAddr + 1) src

/-- `memcpy` from a host pointer. -/
def copyOut (dm : DeviceMemory) (physical : Option Nat) (size : Nat) : Option (List Byte) :=
  physical.map fun p => (List.range size).map fun i => dm.bytes (p + i)

def copyBytes (bytes : Nat → Byte) (p : Nat) : List Byte → Nat → Byte
  | [] => bytes
  | b :: src => copyBytes (update bytes p b) (p + 1) src

/-- `memcpy` to a host pointer. -/
def copyIn (dm : DeviceMemory) (physical : Option Nat) (src : List Byte) : Option DeviceMemory :=
  physical.map fun p => { dm with bytes := copyBytes dm.bytes p src }

end DeviceMemory

structure MemoryManager where
  entries : Nat → BitVec 64
  bigEntries : Nat → BitVec 64
  pageTable : Nat → BitVec 32
  bigPageTableDev : Nat → BitVec 32
  bigPageContinuous : Nat → BitVec 64

namespace MemoryManager

def init : MemoryManager := ⟨fun _ => 0, fun _ => 0, fun _ => 0, fun _ => 0, fun _ => 0⟩

variable (cfg : SpaceConfig)

/-- The entry of a page: two bits, 32 of them in a word. -/
def entryOf (words : Nat → BitVec 64) (page : Nat) : EntryType :=
  .ofBits (PackedFields.get 32 2 words page)

/-- `GetEntry<true>`. -/
def getBigEntry (m : MemoryManager) (position : Nat) : EntryType :=
  entryOf m.bigEntries (position / cfg.bigPageSize)

/-- `GetEntry<false>`. -/
def getEntry (m : MemoryManager) (position : Nat) : EntryType :=
  entryOf m.entries (position / pageSize)

/-- `SetEntry<true>`. -/
def setBigEntry (m : MemoryManager) (position : Nat) (entry : EntryType) : MemoryManager :=
  { m with bigEntries := PackedFields.set 32 2 m.bigEntries (position / cfg.bigPageSize) entry.toBits }

/-- `SetEntry<false>`. -/
def setEntry (m : MemoryManager) (position : Nat) (entry : EntryType) : MemoryManager :=
  { m with entries := PackedFields.set 32 2 m.entries (position / pageSize) entry.toBits }

def isBigPageContinuous (m : MemoryManager) (index : Nat) : Bool :=
  PackedFields.get 64 1 m.bigPageContinuous index != 0

def setBigPageContinuous (m : MemoryManager) (index : Nat) (value : Bool) : MemoryManager :=
  { m with bigPageContinuous :=
      PackedFields.set 64 1 m.bigPageContinuous index (if value then 1 else 0) }

/-- `dev_addr >> cpu_page_bits`, in 32 bits. -/
def devPage (devAddr : Nat) : BitVec 32 := BitVec.ofNat 32 (devAddr / pageSize)

/-- One turn of `PageTableOp`'s loop. -/
def pageStep (entryType : EntryType) (m : MemoryManager) (gpuAddr devAddr : Nat) : MemoryManager :=
  let m := m.setEntry gpuAddr entryType
  match entryType with
  | .mapped =>
    { m with pageTable := update m.pageTable (gpuAddr / pageSize) (devPage devAddr) }
  | _ => m

/-- `is_continuous`: the host pages behind the big page follow each other. -/
def isContinuous (dm : DeviceMemory) (devAddr : Nat) : Bool :=
  match dm.getPointer devAddr with
  | none => false
  | some base => (List.range (cfg.bigPageSize / pageSize)).all fun k =>
      decide (dm.getPointer (devAddr + k * pageSize) = some (base + k * pageSize))

/-- One turn of `BigPageTableOp`'s loop. -/
def bigPageStep (dm : DeviceMemory) (entryType : EntryType) (m : MemoryManager)
    (gpuAddr devAddr : Nat) : MemoryManager :=
  let m := m.setBigEntry cfg gpuAddr entryType
  match entryType with
  | .mapped =>
    { m with bigPageTableDev :=
        update m.bigPageTableDev (gpuAddr / cfg.bigPageSize) (devPage devAddr) }
      |>.setBigPageContinuous (gpuAddr / cfg.bigPageSize) (isContinuous cfg dm devAddr)
  | _ => m

/-- `for (u64 offset{}; offset < size; offset += step)`, over the pages of the range. -/
def eachPage (step : Nat) (f : MemoryManager → Nat → MemoryManager) (size : Nat)
    (m : MemoryManager) : MemoryManager :=
  (List.range ((size + step - 1) / step)).foldl (fun m k => f m (k * step)) m

def pageTableOp (entryType : EntryType) (m : MemoryManager) (gpuAddr devAddr size : Nat) :
    MemoryManager :=
  m.eachPage pageSize (fun m offset => m.pageStep entryType (gpuAddr + offset) (devAddr + offset)) size

def bigPageTableOp (dm : DeviceMemory) (entryType : EntryType) (m : MemoryManager)
    (gpuAddr devAddr size : Nat) : MemoryManager :=
  m.eachPage cfg.bigPageSize (fun m offset =>
    m.bigPageStep cfg dm entryType (gpuAddr + offset) (devAddr + offset)) size

def map (dm : DeviceMemory) (m : MemoryManager) (gpuAddr devAddr size : Nat) (isBigPages : Bool) :
    MemoryManager :=
  if isBigPages then m.bigPageTableOp cfg dm .mapped gpuAddr devAddr size
  else m.pageTableOp .mapped gpuAddr devAddr size

def mapSparse (dm : DeviceMemory) (m : MemoryManager) (gpuAddr size : Nat) (isBigPages : Bool) :
    MemoryManager :=
  if isBigPages then m.bigPageTableOp cfg dm .reserved gpuAddr 0 size
  else m.pageTableOp .reserved gpuAddr 0 size

def unmap (dm : DeviceMemory) (m : MemoryManager) (gpuAddr size : Nat) : MemoryManager :=
  if size = 0 then m
  else (m.bigPageTableOp cfg dm .free gpuAddr 0 size).pageTableOp .free gpuAddr 0 size

def gpuToCpuAddress (m : MemoryManager) (gpuAddr : Nat) : Option Nat :=
  if ¬ gpuAddr < 2 ^ cfg.addressSpaceBits then none
  else if m.getBigEntry cfg gpuAddr ≠ .mapped then
    if m.getEntry gpuAddr ≠ .mapped then none
    else some ((m.pageTable (gpuAddr / pageSize)).toNat * pageSize + gpuAddr % pageSize)
  else some ((m.bigPageTableDev (gpuAddr / cfg.bigPageSize)).toNat * pageSize +
    gpuAddr % cfg.bigPageSize)

/-! ### Block accesses -/

/-- What `MemoryOperation` hands to its callbacks: the entry it found and the part of one page. -/
structure Chunk where
  entry : EntryType
  pageIndex : Nat
  pageOffset : Nat
  copyAmount : Nat
deriving DecidableEq, Repr

/-- `MemoryOperation`'s loop; each turn takes at least one byte. -/
def memoryOperation (usedPageSize : Nat) (entryAt : Nat → EntryType) :
    Nat → Nat → Nat → Nat → Nat → List Chunk
  | 0, _, _, _, _ => []
  | fuel + 1, pageIndex, pageOffset, currentAddress, remainingSize =>
    if 0 < remainingSize then
      let copyAmount := min (usedPageSize - pageOffset) remainingSize
      ⟨entryAt currentAddress, pageIndex, pageOffset, copyAmount⟩ ::
        memoryOperation usedPageSize entryAt fuel (pageIndex + 1) 0 (currentAddress + copyAmount)
          (remainingSize - copyAmount)
    else []

def bigChunks (m : MemoryManager) (gpuAddr size : Nat) : List Chunk :=
  memoryOperation cfg.bigPageSize (m.getBigEntry cfg) size (gpuAddr / cfg.bigPageSize)
    (gpuAddr % cfg.bigPageSize) gpuAddr size

def smallChunks (m : MemoryManager) (gpuAddr size : Nat) : List Chunk :=
  memoryOperation pageSize m.getEntry size (gpuAddr / pageSize) (gpuAddr % pageSize) gpuAddr size

/-- The callbacks of a read, one chunk after the other: each fills `copy_amount` bytes. -/
def gather (f : Chunk → Option (List Byte)) : List Chunk → Option (List Byte)
  | [] => some []
  | c :: chunks => (f c).bind fun x => (gather f chunks).map fun y => x ++ y

def setToZero (c : Chunk) : Option (List Byte) := some (List.replicate c.copyAmount 0)

/-- `mapped_normal`. -/
def readNormal (dm : DeviceMemory) (m : MemoryManager) (c : Chunk) : Option (List Byte) :=
  dm.copyOut (dm.getPointer ((m.pageTable c.pageIndex).toNat * pageSize + c.pageOffset)) c.copyAmount

/-- `mapped_big`. -/
def readBig (dm : DeviceMemory) (m : MemoryManager) (c : Chunk) : Option (List Byte) :=
  let devAddrBase := (m.bigPageTableDev c.pageIndex).toNat * pageSize + c.pageOffset
  if m.isBigPageContinuous c.pageIndex then dm.copyOut (dm.getPointer devAddrBase) c.copyAmount
  else some (dm.readBlockUnsafe devAddrBase c.copyAmount)

def readShortPages (dm : DeviceMemory) (m : MemoryManager) (c : Chunk) : Option (List Byte) :=
  gather (fun c => match c.entry with
    | .mapped => m.readNormal dm c
    | .reserved | .free => setToZero c)
    (m.smallChunks (c.pageIndex * cfg.bigPageSize + c.pageOffset) c.copyAmount)

def readBlockUnsafe (dm : DeviceMemory) (m : MemoryManager) (gpuSrcAddr size : Nat) :
    Option (List Byte) :=
  gather (fun c => match c.entry with
    | .mapped => m.readBig dm c
    | .reserved => setToZero c
    | .free => m.readShortPages cfg dm c)
    (m.bigChunks cfg gpuSrcAddr size)

/-- The callbacks of a write: each takes `copy_amount` bytes off the source. -/
def scatter (f : DeviceMemory → Chunk → List Byte → Option DeviceMemory) :
    DeviceMemory → List Chunk → List Byte → Option DeviceMemory
  | dm, [], _ => some dm
  | dm, c :: chunks, src => (f dm c (src.take c.copyAmount)).bind fun dm =>
      scatter f dm chunks (src.drop c.copyAmount)

/-- `mapped_normal`. -/
def writeNormal (m : MemoryManager) (dm : DeviceMemory) (c : Chunk) (src : List Byte) :
    Option DeviceMemory :=
  dm.copyIn (dm.getPointer ((m.pageTable c.pageIndex).toNat * pageSize + c.pageOffset)) src

/-- `mapped_big`. -/
def writeBig (m : MemoryManager) (dm : DeviceMemory) (c : Chunk) (src : List Byte) :
    Option DeviceMemory :=
  let devAddrBase := (m.bigPageTableDev c.pageIndex).toNat * pageSize + c.pageOffset
  if m.isBigPageContinuous c.pageIndex then dm.copyIn (dm.getPointer devAddrBase) src
  else some (dm.writeBlockUnsafe devAddrBase src)

def writeShortPages (m : MemoryManager) (dm : DeviceMemory) (c : Chunk) (src : List Byte) :
    Option DeviceMemory :=
  scatter (fun dm c src => match c.entry with
    | .mapped => m.writeNormal dm c src
    | .reserved | .free => some dm) dm
    (m.smallChunks (c.pageIndex * cfg.bigPageSize + c.pageOffset) c.copyAmount) src

def writeBlockUnsafe (dm : DeviceMemory) (m : MemoryManager) (gpuDestAddr : Nat) (src : List Byte) :
    Option DeviceMemory :=
  scatter (fun dm c src => match c.entry with
    | .mapped => m.writeBig dm c src
    | .reserved => some dm
    | .free => m.writeShortPages cfg dm c src) dm
    (m.bigChunks cfg gpuDestAddr src.length) src

/-! ## One page -/

theorem entryOf_set (words : Nat → BitVec 64) (p q : Nat) (e : EntryType) :
    entryOf (PackedFields.set 32 2 words p e.toBits) q = if q = p then e else entryOf words q := by
  unfold entryOf
  rcases eq_or_ne q p with rfl | h
  · rw [if_pos rfl, PackedFields.get_set_self _ (by decide) (by decide) e.toBits_mask, e.ofBits_toBits]
  · rw [if_neg h, PackedFields.get_set_of_ne _ (by decide) (by decide) e.toBits_mask (Ne.symm h)]

theorem isBigPageContinuous_set (m : MemoryManager) (i j : Nat) (value : Bool) :
    (m.setBigPageContinuous i value).isBigPageContinuous j =
      if j = i then value else m.isBigPageContinuous j := by
  have hmask : (if value then (1 : BitVec 64) else 0) &&& PackedFields.mask 1 =
      if value then 1 else 0 := by cases value <;> rfl
  unfold isBigPageContinuous setBigPageContinuous
  rcases eq_or_ne j i with rfl | h
  · rw [if_pos rfl, PackedFields.get_set_self _ (by decide) (by decide) hmask]
    cases value <;> rfl
  · rw [if_neg h, PackedFields.get_set_of_ne _ (by decide) (by decide) hmask (Ne.symm h)]

/-! ## The pages of a range -/

section Loop

variable {α : Type} (get : MemoryManager → Nat → α) {f : MemoryManager → Nat → MemoryManager}
  {v : Nat → α} {p₀ : Nat}

theorem foldl_range_update (hstep : ∀ m k q, get (f m k) q = if q = p₀ + k then v k else get m q)
    (m : MemoryManager) (q : Nat) : ∀ n : Nat, get ((List.range n).foldl f m) q =
      if p₀ ≤ q ∧ q < p₀ + n then v (q - p₀) else get m q := by
  intro n
  induction n with
  | zero => exact (if_neg (by omega)).symm
  | succ n ih =>
    rw [List.range_succ, List.foldl_append, List.foldl_cons, List.foldl_nil, hstep, ih]
    by_cases h : q = p₀ + n
    · rw [if_pos h, if_pos (by omega), h, Nat.add_sub_cancel_left]
    · rw [if_neg h]
      by_cases hin : p₀ ≤ q ∧ q < p₀ + n
      · rw [if_pos hin, if_pos (by omega)]
      · rw [if_neg hin, if_neg (by omega)]

theorem foldl_range_frame {β : Type} {g : MemoryManager → β} (hstep : ∀ m k, g (f m k) = g m)
    (m : MemoryManager) (n : Nat) : g ((List.range n).foldl f m) = g m := by
  induction n with
  | zero => rfl
  | succ n ih => rw [List.range_succ, List.foldl_append, List.foldl_cons, List.foldl_nil, hstep, ih]

end Loop

variable {gpuAddr size : Nat} (dm : DeviceMemory)

theorem page_mem_iff {step x : Nat} (hpos : 0 < step) (hg : step ∣ gpuAddr) (hs : step ∣ size) :
    (gpuAddr / step ≤ x / step ∧
      x / step < gpuAddr / step + (size + step - 1) / step) ↔ gpuAddr ≤ x ∧ x < gpuAddr + size := by
  obtain ⟨p, rfl⟩ := hg
  obtain ⟨n, rfl⟩ := hs
  have hn : (step * n + step - 1) / step = n := by
    rw [Nat.add_sub_assoc hpos, Nat.mul_add_div hpos, Nat.div_eq_of_lt (by omega), Nat.add_zero]
  rw [hn, Nat.mul_div_cancel_left p hpos, Nat.le_div_iff_mul_le hpos, Nat.div_lt_iff_lt_mul hpos,
    Nat.mul_comm p step, Nat.add_mul, Nat.mul_comm p step, Nat.mul_comm n step]

theorem bigPageSize_pos : 0 < cfg.bigPageSize := Nat.two_pow_pos _

theorem pageSize_pos : 0 < pageSize := Nat.two_pow_pos _

theorem getBigEntry_bigPageTableOp (e : EntryType) (m : MemoryManager) (devAddr : Nat)
    (hg : cfg.bigPageSize ∣ gpuAddr) (hs : cfg.bigPageSize ∣ size) (x : Nat) :
    (m.bigPageTableOp cfg dm e gpuAddr devAddr size).getBigEntry cfg x =
      if gpuAddr ≤ x ∧ x < gpuAddr + size then e else m.getBigEntry cfg x := by
  have hpos := bigPageSize_pos cfg
  have hpage : ∀ (m : MemoryManager) (k q : Nat), entryOf (m.bigPageStep cfg dm e
      (gpuAddr + k * cfg.bigPageSize) (devAddr + k * cfg.bigPageSize)).bigEntries q =
      if q = gpuAddr / cfg.bigPageSize + k then e else entryOf m.bigEntries q := by
    intro m k q
    rw [← entryOf_set, ← Nat.add_mul_div_right _ _ hpos]
    unfold bigPageStep; cases e <;> rfl
  have hloop := foldl_range_update (fun m q => entryOf m.bigEntries q) hpage m (x / cfg.bigPageSize)
    ((size + cfg.bigPageSize - 1) / cfg.bigPageSize)
  simp only [page_mem_iff hpos hg hs] at hloop
  exact hloop

theorem getEntry_pageTableOp (e : EntryType) (m : MemoryManager) (devAddr : Nat)
    (hg : pageSize ∣ gpuAddr) (hs : pageSize ∣ size) (x : Nat) :
    (m.pageTableOp e gpuAddr devAddr size).getEntry x =
      if gpuAddr ≤ x ∧ x < gpuAddr + size then e else m.getEntry x := by
  have hpage : ∀ (m : MemoryManager) (k q : Nat),
      entryOf (m.pageStep e (gpuAddr + k * pageSize) (devAddr + k * pageSize)).entries q =
      if q = gpuAddr / pageSize + k then e else entryOf m.entries q := by
    intro m k q
    rw [← entryOf_set, ← Nat.add_mul_div_right _ _ pageSize_pos]
    unfold pageStep; cases e <;> rfl
  have hloop := foldl_range_update (fun m q => entryOf m.entries q) hpage m (x / pageSize)
    ((size + pageSize - 1) / pageSize)
  simp only [page_mem_iff pageSize_pos hg hs] at hloop
  exact hloop

theorem bigPageTableDev_mapped (m : MemoryManager) (devAddr : Nat) (hg : cfg.bigPageSize ∣ gpuAddr)
    (hs : cfg.bigPageSize ∣ size) (x : Nat) :
    (m.bigPageTableOp cfg dm .mapped gpuAddr devAddr size).bigPageTableDev (x / cfg.bigPageSize) =
      if gpuAddr ≤ x ∧ x < gpuAddr + size then devPage
        (devAddr + (x / cfg.bigPageSize - gpuAddr / cfg.bigPageSize) * cfg.bigPageSize)
      else m.bigPageTableDev (x / cfg.bigPageSize) := by
  have hpos := bigPageSize_pos cfg
  have hpage : ∀ (m : MemoryManager) (k q : Nat), (m.bigPageStep cfg dm .mapped
      (gpuAddr + k * cfg.bigPageSize) (devAddr + k * cfg.bigPageSize)).bigPageTableDev q =
      if q = gpuAddr / cfg.bigPageSize + k then devPage (devAddr + k * cfg.bigPageSize)
      else m.bigPageTableDev q := by
    intro m k q
    show update m.bigPageTableDev ((gpuAddr + k * cfg.bigPageSize) / cfg.bigPageSize)
      (devPage (devAddr + k * cfg.bigPageSize)) q = _
    rw [Nat.add_mul_div_right _ _ hpos, update_apply]
  have hloop := foldl_range_update bigPageTableDev hpage m (x / cfg.bigPageSize)
    ((size + cfg.bigPageSize - 1) / cfg.bigPageSize)
  simp only [page_mem_iff hpos hg hs] at hloop
  exact hloop

theorem isBigPageContinuous_mapped (m : MemoryManager) (devAddr : Nat) (hg : cfg.bigPageSize ∣ gpuAddr)
    (hs : cfg.bigPageSize ∣ size) (x : Nat) :
    (m.bigPageTableOp cfg dm .mapped gpuAddr devAddr size).isBigPageContinuous (x / cfg.bigPageSize) =
      if gpuAddr ≤ x ∧ x < gpuAddr + size then isContinuous cfg dm
        (devAddr + (x / cfg.bigPageSize - gpuAddr / cfg.bigPageSize) * cfg.bigPageSize)
      else m.isBigPageContinuous (x / cfg.bigPageSize) := by
  have hpos := bigPageSize_pos cfg
  have hpage : ∀ (m : MemoryManager) (k q : Nat), (m.bigPageStep cfg dm .mapped
      (gpuAddr + k * cfg.bigPageSize) (devAddr + k * cfg.bigPageSize)).isBigPageContinuous q =
      if q = gpuAddr / cfg.bigPageSize + k then isContinuous cfg dm (devAddr + k * cfg.bigPageSize)
      else m.isBigPageContinuous q := by
    intro m k q
    rw [← Nat.add_mul_div_right _ _ hpos]; exact isBigPageContinuous_set _ _ q _
  have hloop := foldl_range_update isBigPageContinuous hpage m (x / cfg.bigPageSize)
    ((size + cfg.bigPageSize - 1) / cfg.bigPageSize)
  simp only [page_mem_iff hpos hg hs] at hloop
  exact hloop

theorem pageTable_mapped (m : MemoryManager) (devAddr : Nat) (hg : pageSize ∣ gpuAddr)
    (hs : pageSize ∣ size) (x : Nat) :
    (m.pageTableOp .mapped gpuAddr devAddr size).pageTable (x / pageSize) =
      if gpuAddr ≤ x ∧ x < gpuAddr + size then
        devPage (devAddr + (x / pageSize - gpuAddr / pageSize) * pageSize)
      else m.pageTable (x / pageSize) := by
  have hpage : ∀ (m : MemoryManager) (k q : Nat), (m.pageStep .mapped
      (gpuAddr + k * pageSize) (devAddr + k * pageSize)).pageTable q =
      if q = gpuAddr / pageSize + k then devPage (devAddr + k * pageSize) else m.pageTable q := by
    intro m k q
    show update m.pageTable ((gpuAddr + k * pageSize) / pageSize)
      (devPage (devAddr + k * pageSize)) q = _
    rw [Nat.add_mul_div_right _ _ pageSize_pos, update_apply]
  have hloop := foldl_range_update pageTable hpage m (x / pageSize) ((size + pageSize - 1) / pageSize)
  simp only [page_mem_iff pageSize_pos hg hs] at hloop
  exact hloop

theorem bigPageTableOp_frame (e : EntryType) (m : MemoryManager) (gpuAddr devAddr size : Nat) :
    (m.bigPageTableOp cfg dm e gpuAddr devAddr size).entries = m.entries ∧
      (m.bigPageTableOp cfg dm e gpuAddr devAddr size).pageTable = m.pageTable ∧
      (e ≠ .mapped →
        (m.bigPageTableOp cfg dm e gpuAddr devAddr size).bigPageTableDev = m.bigPageTableDev ∧
        (m.bigPageTableOp cfg dm e gpuAddr devAddr size).bigPageContinuous = m.bigPageContinuous) := by
  refine ⟨foldl_range_frame (fun m k => ?_) m _, foldl_range_frame (fun m k => ?_) m _, fun he =>
    ⟨foldl_range_frame (fun m k => ?_) m _, foldl_range_frame (fun m k => ?_) m _⟩⟩
  · unfold bigPageStep
    cases e <;> rfl
  · unfold bigPageStep
    cases e <;> rfl
  · unfold bigPageStep
    cases e <;> first | rfl | exact absurd rfl he
  · unfold bigPageStep; cases e <;> first | rfl | exact absurd rfl he

theorem pageTableOp_frame (e : EntryType) (m : MemoryManager) (gpuAddr devAddr size : Nat) :
    (m.pageTableOp e gpuAddr devAddr size).bigEntries = m.bigEntries ∧
      (m.pageTableOp e gpuAddr devAddr size).bigPageTableDev = m.bigPageTableDev ∧
      (m.pageTableOp e gpuAddr devAddr size).bigPageContinuous = m.bigPageContinuous ∧
      (e ≠ .mapped → (m.pageTableOp e gpuAddr devAddr size).pageTable = m.pageTable) := by
  refine ⟨foldl_range_frame (fun m k => ?_) m _, foldl_range_frame (fun m k => ?_) m _,
    foldl_range_frame (fun m k => ?_) m _, fun he => foldl_range_frame (fun m k => ?_) m _⟩
  · unfold pageStep
    cases e <;> rfl
  · unfold pageStep
    cases e <;> rfl
  · unfold pageStep
    cases e <;> rfl
  · unfold pageStep; cases e <;> first | rfl | exact absurd rfl he

theorem devPage_address {step devAddr x : Nat} (hdvd : pageSize ∣ step) (hpos : 0 < step)
    (hg : step ∣ gpuAddr) (hd : pageSize ∣ devAddr) (hlim : devAddr + size ≤ 2 ^ 44)
    (hx : gpuAddr ≤ x ∧ x < gpuAddr + size) :
    (devPage (devAddr + (x / step - gpuAddr / step) * step)).toNat * pageSize + x % step =
      devAddr + (x - gpuAddr) := by
  obtain ⟨p, rfl⟩ := hg
  obtain ⟨j, rfl⟩ := hd
  obtain ⟨i, rfl⟩ := hdvd
  have hdiv : pageSize * i * (x / (pageSize * i)) + x % (pageSize * i) = x :=
    Nat.div_add_mod x (pageSize * i)
  have hp : pageSize * i * p / (pageSize * i) = p := Nat.mul_div_cancel_left p hpos
  have hle : p ≤ x / (pageSize * i) := (Nat.le_div_iff_mul_le hpos).2 (by
    rw [Nat.mul_comm]; exact hx.1)
  rw [hp]
  generalize hq : x / (pageSize * i) - p = q
  have hxq : x / (pageSize * i) = p + q := by omega
  rw [hxq, Nat.mul_add] at hdiv
  have hbase : pageSize * j + q * (pageSize * i) = (j + q * i) * pageSize := by
    rw [Nat.add_mul, Nat.mul_comm pageSize j, Nat.mul_comm pageSize i, Nat.mul_assoc]
  unfold devPage
  rw [hbase, Nat.mul_div_cancel _ pageSize_pos, BitVec.toNat_ofNat]
  have hq' : q * (pageSize * i) = pageSize * i * q := Nat.mul_comm _ _
  have hsmall : (j + q * i) * pageSize < 2 ^ 44 := by
    rw [← hbase, hq']; omega
  have hlt : j + q * i < 2 ^ 32 := by
    unfold pageSize pageBits at hsmall; omega
  rw [Nat.mod_eq_of_lt hlt, ← hbase, hq']
  omega

end MemoryManager

end Suyu.VideoCore
