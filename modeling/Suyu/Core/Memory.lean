import Mathlib

/-
  The CPU's memory: `Core::Memory::Memory` over `Common::PageTable`.

  1. **Data** - an entry of `pointers` is a host pointer with the type of the page in its two low
     bits.  Both the pointer and `backing_addr` are DIFFERENCES: the host pointer, or the physical
     address, of a page minus its virtual address, modulo 2^64.

  2. **Program** - `MapMemoryRegion` and `UnmapRegion` write entries; `MarkRegionDebug` and
     `RasterizerMarkRegionCached` take the pointer out of an entry and put it back, from
     `backing_addr`.  `Read8` and `Write8` translate one address, `WalkBlock` a page at a time.

  3. **What is left open** - the host's fastmem arena, and what the GPU does when it is told of an
     access: the bytes it is told of are recorded (`Host`).

  A pointer is a number, 0 the null pointer.  A `memcpy` or `memset` through the null pointer has the
  result `none`.
-/

namespace Suyu.Core.Memory

open Function (update)

/-! ## The page table -/

/-- `uintptr_t`, and the addresses of the device. -/
abbrev Pointer := BitVec 64

abbrev Byte := BitVec 8

inductive PageType where
  | unmapped
  | memory
  | debugMemory
  | rasterizerCachedMemory
  deriving DecidableEq, Repr

def PageType.tag : PageType → Pointer
  | .unmapped => 0
  | .memory => 1
  | .debugMemory => 2
  | .rasterizerCachedMemory => 3

namespace PageInfo

/-- The raw value of `Store`. -/
def store (pointer : Pointer) (type : PageType) : Pointer := pointer ||| type.tag

def extractPointer (raw : Pointer) : Pointer := raw &&& (BitVec.allOnes 64 <<< 2)

def extractType (raw : Pointer) : PageType :=
  match (raw &&& 3).toNat with
  | 0 => .unmapped
  | 1 => .memory
  | 2 => .debugMemory
  | _ => .rasterizerCachedMemory

end PageInfo

structure PageTable where
  pointers : Nat → Pointer
  blocks : Nat → Nat
  backingAddr : Nat → Pointer
  addressSpaceBits : Nat

/-- The table after `Resize`. -/
def PageTable.initial (addressSpaceBits : Nat) : PageTable :=
  ⟨fun _ => 0, fun _ => 0, fun _ => 0, addressSpaceBits⟩

/-- The virtual address of a page. -/
def pageAddress (page : Nat) : Pointer := BitVec.ofNat 64 (page * 0x1000)

/-- `DramMemoryMap::Base`. -/
def dramBase : Nat := 0x80000000

/-- `DeviceMemory::GetPointer`, with the base pointer of the buffer. -/
def deviceGetPointer (backingBase addr : Pointer) : Pointer :=
  backingBase + (addr - BitVec.ofNat 64 dramBase)

/-- `AddressSpaceContains`, on 64-bit numbers. -/
def addressSpaceContains (table : PageTable) (addr size : Nat) : Bool :=
  decide (addr ≤ (addr + size) % 2 ^ 64) && decide ((addr + size) % 2 ^ 64 ≤ 2 ^ table.addressSpaceBits)

/-! ## Mapping -/

/-- The entry of a page in `MapPages`. -/
def mapPage (backingBase : Pointer) (table : PageTable) (origBase page : Nat) (target : Pointer)
    (type : PageType) : PageTable :=
  { table with
    pointers := update table.pointers page
      (PageInfo.store (deviceGetPointer backingBase target - pageAddress page) type)
    backingAddr := update table.backingAddr page (target - pageAddress page)
    blocks := update table.blocks page (origBase * 0x1000) }

/-- The loop of `MapPages` with a target. -/
def mapPagesTo (backingBase : Pointer) (origBase : Nat) (type : PageType) :
    Nat → Nat → Pointer → PageTable → PageTable
  | 0, _, _, table => table
  | size + 1, base, target, table =>
      mapPagesTo backingBase origBase type size (base + 1) (target + 0x1000)
        (mapPage backingBase table origBase base target type)

/-- The entry of a page in `MapPages` without a target. -/
def clearPage (table : PageTable) (page : Nat) (type : PageType) : PageTable :=
  { table with
    pointers := update table.pointers page (PageInfo.store 0 type)
    backingAddr := update table.backingAddr page 0
    blocks := update table.blocks page 0 }

/-- The loop of `MapPages` without a target. -/
def clearPages (type : PageType) : Nat → Nat → PageTable → PageTable
  | 0, _, table => table
  | size + 1, base, table => clearPages type size (base + 1) (clearPage table base type)

def mapPages (backingBase : Pointer) (table : PageTable) (base size : Nat) (target : Pointer)
    (type : PageType) : PageTable :=
  if target = 0 then clearPages type size base table
  else mapPagesTo backingBase base type size base target table

def mapMemoryRegion (backingBase : Pointer) (table : PageTable) (base size : Nat) (target : Pointer) :
    PageTable :=
  mapPages backingBase table (base / 0x1000) (size / 0x1000) target .memory

def unmapRegion (backingBase : Pointer) (table : PageTable) (base size : Nat) : PageTable :=
  mapPages backingBase table (base / 0x1000) (size / 0x1000) 0 .unmapped

/-! ## Marks -/

/-- `GetPointerFromRasterizerCachedMemory` and `GetPointerFromDebugMemory`. -/
def getPointerFromBacking (backingBase : Pointer) (table : PageTable) (vaddr : Nat) : Pointer :=
  let paddr := table.backingAddr (vaddr / 0x1000)
  if paddr = 0 then 0 else deviceGetPointer backingBase (paddr + BitVec.ofNat 64 vaddr)

def getPointerFromRasterizerCachedMemory := getPointerFromBacking

def getPointerFromDebugMemory := getPointerFromBacking

def setPointer (table : PageTable) (page : Nat) (raw : Pointer) : PageTable :=
  { table with pointers := update table.pointers page raw }

/-- A page in the loop of `MarkRegionDebug`. -/
def markDebugPage (backingBase : Pointer) (debug : Bool) (table : PageTable) (vaddr : Nat) : PageTable :=
  let page := vaddr / 0x1000
  let aligned := page * 0x1000
  match debug, PageInfo.extractType (table.pointers page) with
  | true, .memory => setPointer table page (PageInfo.store 0 .debugMemory)
  | true, _ => table
  | false, .debugMemory =>
      let pointer := getPointerFromDebugMemory backingBase table aligned
      setPointer table page (PageInfo.store (pointer - BitVec.ofNat 64 aligned) .memory)
  | false, _ => table

/-- A page in the loop of `RasterizerMarkRegionCached`. -/
def markCachedPage (backingBase : Pointer) (cached : Bool) (table : PageTable) (vaddr : Nat) :
    PageTable :=
  let page := vaddr / 0x1000
  let aligned := page * 0x1000
  match cached, PageInfo.extractType (table.pointers page) with
  | true, .debugMemory => setPointer table page (PageInfo.store 0 .rasterizerCachedMemory)
  | true, .memory => setPointer table page (PageInfo.store 0 .rasterizerCachedMemory)
  | true, _ => table
  | false, .rasterizerCachedMemory =>
      let pointer := getPointerFromRasterizerCachedMemory backingBase table aligned
      if pointer = 0 then setPointer table page (PageInfo.store 0 .unmapped)
      else setPointer table page (PageInfo.store (pointer - BitVec.ofNat 64 aligned) .memory)
  | false, _ => table

/-- `num_pages`, 0 for an empty range at the start of a page. -/
def numPages (vaddr size : Nat) : Nat := (vaddr + size - 1) / 0x1000 + 1 - vaddr / 0x1000

/-- The loop over the pages of a region. -/
def markPages (markPage : PageTable → Nat → PageTable) : Nat → Nat → PageTable → PageTable
  | 0, _, table => table
  | count + 1, vaddr, table => markPages markPage count (vaddr + 0x1000) (markPage table vaddr)

def markRegion (markPage : PageTable → Nat → PageTable) (table : PageTable) (vaddr size : Nat) :
    PageTable :=
  if vaddr = 0 || !addressSpaceContains table vaddr size then table
  else markPages markPage (numPages vaddr size) vaddr table

def markRegionDebug (backingBase : Pointer) (table : PageTable) (vaddr size : Nat) (debug : Bool) :
    PageTable :=
  markRegion (markDebugPage backingBase debug) table vaddr size

def rasterizerMarkRegionCached (backingBase : Pointer) (table : PageTable) (vaddr size : Nat)
    (cached : Bool) : PageTable :=
  markRegion (markCachedPage backingBase cached) table vaddr size

/-! ## One byte -/

/-- `GetPointerImpl`: the pointer, and whether `on_rasterizer` is called. -/
def getPointerImpl (backingBase : Pointer) (table : PageTable) (vaddr : Nat) : Pointer × Bool :=
  let vaddr := vaddr % 2 ^ 48
  if !addressSpaceContains table vaddr 1 then (0, false)
  else
    let raw := table.pointers (vaddr / 0x1000)
    let pointer := PageInfo.extractPointer raw
    if pointer ≠ 0 then (pointer + BitVec.ofNat 64 vaddr, false)
    else
      match PageInfo.extractType raw with
      | .unmapped => (0, false)
      | .memory => (0, false)
      | .debugMemory => (getPointerFromDebugMemory backingBase table vaddr, false)
      | .rasterizerCachedMemory => (getPointerFromRasterizerCachedMemory backingBase table vaddr, true)

def getPointer (backingBase : Pointer) (table : PageTable) (vaddr : Nat) : Pointer :=
  (getPointerImpl backingBase table vaddr).1

/-- The memory of the host, and the bytes the GPU was told of. -/
structure Host where
  bytes : Pointer → Byte
  downloads : List Pointer
  writes : List Pointer

/-- The bytes from a pointer on. -/
def span (pointer : Pointer) (size : Nat) : List Pointer :=
  (List.range size).map fun i => pointer + BitVec.ofNat 64 i

def handleRasterizerDownload (backingBase : Pointer) (table : PageTable) (host : Host)
    (vaddr size : Nat) : Host :=
  { host with downloads := host.downloads ++ span (getPointer backingBase table vaddr) size }

def handleRasterizerWrite (backingBase : Pointer) (table : PageTable) (host : Host)
    (vaddr size : Nat) : Host :=
  { host with writes := host.writes ++ span (getPointer backingBase table vaddr) size }

/-- `Read<u8>`. -/
def read8 (backingBase : Pointer) (table : PageTable) (host : Host) (vaddr : Nat) : Byte × Host :=
  let (pointer, rasterizer) := getPointerImpl backingBase table vaddr
  let host := if rasterizer then handleRasterizerDownload backingBase table host vaddr 1 else host
  (if pointer = 0 then 0 else host.bytes pointer, host)

/-- `Write<u8>`. -/
def write8 (backingBase : Pointer) (table : PageTable) (host : Host) (vaddr : Nat) (data : Byte) :
    Host :=
  let (pointer, rasterizer) := getPointerImpl backingBase table vaddr
  let host := if rasterizer then handleRasterizerWrite backingBase table host vaddr 1 else host
  if pointer = 0 then host else { host with bytes := update host.bytes pointer data }

/-! ## Blocks -/

/-- The functions that are handed to `WalkBlock`. -/
structure Walker (σ : Type) where
  onUnmapped : (copyAmount currentVaddr : Nat) → σ → σ
  onMemory : (copyAmount : Nat) → Pointer → σ → Option σ
  onRasterizer : (currentVaddr copyAmount : Nat) → Pointer → σ → Option σ
  increment : (copyAmount : Nat) → σ → σ

/-- A page of `WalkBlock`. -/
def walkPage {σ : Type} (backingBase : Pointer) (table : PageTable) (walker : Walker σ)
    (copyAmount pageIndex pageOffset : Nat) (state : σ) : Option (σ × Bool) :=
  let currentVaddr := pageIndex * 0x1000 + pageOffset
  let raw := table.pointers pageIndex
  match PageInfo.extractType raw with
  | .unmapped => some (walker.onUnmapped copyAmount currentVaddr state, false)
  | .memory =>
      (walker.onMemory copyAmount (PageInfo.extractPointer raw + BitVec.ofNat 64 currentVaddr)
        state).map fun state => (state, true)
  | .debugMemory =>
      (walker.onMemory copyAmount (getPointerFromDebugMemory backingBase table currentVaddr)
        state).map fun state => (state, true)
  | .rasterizerCachedMemory =>
      (walker.onRasterizer currentVaddr copyAmount
        (getPointerFromRasterizerCachedMemory backingBase table currentVaddr) state).map
        fun state => (state, true)

/-- The loop of `WalkBlock`; a page takes at least one byte. -/
def walkPages {σ : Type} (backingBase : Pointer) (table : PageTable) (walker : Walker σ) :
    (fuel remainingSize pageIndex pageOffset : Nat) → Bool → σ → Option (σ × Bool)
  | 0, _, _, _, userAccessible, state => some (state, userAccessible)
  | fuel + 1, remainingSize, pageIndex, pageOffset, userAccessible, state =>
      if remainingSize = 0 then some (state, userAccessible)
      else
        let copyAmount := min (0x1000 - pageOffset) remainingSize
        (walkPage backingBase table walker copyAmount pageIndex pageOffset state).bind fun result =>
          walkPages backingBase table walker fuel (remainingSize - copyAmount) (pageIndex + 1) 0
            (userAccessible && result.2) (walker.increment copyAmount result.1)

def walkBlock {σ : Type} (backingBase : Pointer) (table : PageTable) (walker : Walker σ)
    (addr size : Nat) (state : σ) : Option (σ × Bool) :=
  if !addressSpaceContains table addr size then some (walker.onUnmapped size addr state, false)
  else walkPages backingBase table walker size size (addr / 0x1000) (addr % 0x1000) true state

/-- A caller's buffer, with the position of `dest_buffer` or `src_buffer`. -/
structure Buffer where
  bytes : Nat → Byte
  position : Nat

/-- Bytes from the position on. -/
def Buffer.fill (buffer : Buffer) (size : Nat) (value : Nat → Byte) : Buffer :=
  { buffer with
    bytes := fun i =>
      if buffer.position ≤ i ∧ i < buffer.position + size then value (i - buffer.position)
      else buffer.bytes i }

/-- `memcpy` to the host's memory. -/
def copyBytes (bytes : Pointer → Byte) (pointer : Pointer) (value : Nat → Byte) (size : Nat) :
    Pointer → Byte :=
  (List.range size).foldl
    (fun bytes i => update bytes (pointer + BitVec.ofNat 64 i) (value i)) bytes

/-- The functions of `ReadBlock`. -/
def readWalker (backingBase : Pointer) (table : PageTable) : Walker (Host × Buffer) where
  onUnmapped := fun copyAmount _ state => (state.1, state.2.fill copyAmount fun _ => 0)
  onMemory := fun copyAmount pointer state =>
    if pointer = 0 then none
    else some (state.1,
      state.2.fill copyAmount fun i => state.1.bytes (pointer + BitVec.ofNat 64 i))
  onRasterizer := fun currentVaddr copyAmount pointer state =>
    let host := handleRasterizerDownload backingBase table state.1 currentVaddr copyAmount
    if pointer = 0 then none
    else some (host, state.2.fill copyAmount fun i => host.bytes (pointer + BitVec.ofNat 64 i))
  increment := fun copyAmount state =>
    (state.1, { state.2 with position := state.2.position + copyAmount })

def readBlock (backingBase : Pointer) (table : PageTable) (host : Host) (srcAddr : Nat)
    (destBuffer : Nat → Byte) (size : Nat) : Option (Host × (Nat → Byte) × Bool) :=
  (walkBlock backingBase table (readWalker backingBase table) srcAddr size (host, ⟨destBuffer, 0⟩)).map
    fun result => (result.1.1, result.1.2.bytes, result.2)

/-- The functions of `WriteBlock`. -/
def writeWalker (backingBase : Pointer) (table : PageTable) : Walker (Host × Buffer) where
  onUnmapped := fun _ _ state => state
  onMemory := fun copyAmount pointer state =>
    if pointer = 0 then none
    else
      let value := fun i => state.2.bytes (state.2.position + i)
      some ({ state.1 with bytes := copyBytes state.1.bytes pointer value copyAmount }, state.2)
  onRasterizer := fun currentVaddr copyAmount pointer state =>
    let host := handleRasterizerWrite backingBase table state.1 currentVaddr copyAmount
    if pointer = 0 then none
    else
      let value := fun i => state.2.bytes (state.2.position + i)
      some ({ host with bytes := copyBytes host.bytes pointer value copyAmount }, state.2)
  increment := fun copyAmount state =>
    (state.1, { state.2 with position := state.2.position + copyAmount })

def writeBlock (backingBase : Pointer) (table : PageTable) (host : Host) (destAddr : Nat)
    (srcBuffer : Nat → Byte) (size : Nat) : Option (Host × Bool) :=
  (walkBlock backingBase table (writeWalker backingBase table) destAddr size (host, ⟨srcBuffer, 0⟩)).map
    fun result => (result.1.1, result.2)

/-- The functions of `ZeroBlock`. -/
def zeroWalker (backingBase : Pointer) (table : PageTable) : Walker Host where
  onUnmapped := fun _ _ host => host
  onMemory := fun copyAmount pointer host =>
    if pointer = 0 then none
    else some { host with bytes := copyBytes host.bytes pointer (fun _ => 0) copyAmount }
  onRasterizer := fun currentVaddr copyAmount pointer host =>
    let host := handleRasterizerWrite backingBase table host currentVaddr copyAmount
    if pointer = 0 then none
    else some { host with bytes := copyBytes host.bytes pointer (fun _ => 0) copyAmount }
  increment := fun _ host => host

def zeroBlock (backingBase : Pointer) (table : PageTable) (host : Host) (destAddr size : Nat) :
    Option (Host × Bool) :=
  walkBlock backingBase table (zeroWalker backingBase table) destAddr size host

/-! ## Steps -/

inductive Action where
  | mapMemoryRegion (base size : Nat) (target : Pointer)
  | unmapRegion (base size : Nat)
  | rasterizerMarkRegionCached (vaddr size : Nat) (cached : Bool)
  | markRegionDebug (vaddr size : Nat) (debug : Bool)
  deriving DecidableEq, Repr

def step (backingBase : Pointer) (table : PageTable) : Action → PageTable
  | .mapMemoryRegion base size target => mapMemoryRegion backingBase table base size target
  | .unmapRegion base size => unmapRegion backingBase table base size
  | .rasterizerMarkRegionCached vaddr size cached =>
      rasterizerMarkRegionCached backingBase table vaddr size cached
  | .markRegionDebug vaddr size debug => markRegionDebug backingBase table vaddr size debug

/-- The table after some calls. -/
def run (backingBase : Pointer) (table : PageTable) (actions : List Action) : PageTable :=
  actions.foldl (step backingBase) table

end Suyu.Core.Memory
