import Mathlib
import Suyu.Core.MemoryBlocks

/-
  `Memory::CopyBlock` - the range that is walked is the DESTINATION.

  1. **Program** - for each page `WalkBlock` hands over a pointer to the page it is at, and `CopyBlock`
     writes the bytes behind that pointer to `dest_addr`.  `src_addr` is advanced and never read.

  2. **Specification (`CopyExact`)** - every mapped byte of the destination has the old byte of the
     source, nothing else changes, and a buffer between the two makes no difference.

  3. **The crux (`Good.copyBlock`)** - a page of the destination is copied ONTO ITSELF, so no byte of the
     host changes; the walk keeps that at every position (`walkBlock_inv`).
-/

namespace Suyu.Core.Memory

variable {backingBase : Pointer} {table : PageTable} {mapping : Mapping} {host : Host}

/-! ## The program -/

/-- What the functions of `CopyBlock` have captured. -/
structure CopyState where
  host : Host
  destAddr : Nat
  srcAddr : Nat

/-- The functions of `CopyBlock`.  `ZeroBlock` meets no null pointer on a page without one. -/
def copyWalker (backingBase : Pointer) (table : PageTable) : Walker CopyState where
  onUnmapped := fun copyAmount _ state =>
    match zeroBlock backingBase table state.host state.destAddr copyAmount with
    | some (host, _) => { state with host := host }
    | none => state
  onMemory := fun copyAmount srcPtr state =>
    if srcPtr = 0 then none
    else
      (writeBlock backingBase table state.host state.destAddr
        (fun i => state.host.bytes (srcPtr + BitVec.ofNat 64 i)) copyAmount).map
        fun result => { state with host := result.1 }
  onRasterizer := fun currentVaddr copyAmount hostPtr state =>
    let host := handleRasterizerDownload backingBase table state.host currentVaddr copyAmount
    if hostPtr = 0 then none
    else
      (writeBlock backingBase table host state.destAddr
        (fun i => host.bytes (hostPtr + BitVec.ofNat 64 i)) copyAmount).map
        fun result => { state with host := result.1 }
  increment := fun copyAmount state =>
    { state with destAddr := state.destAddr + copyAmount, srcAddr := state.srcAddr + copyAmount }

def copyBlock (backingBase : Pointer) (table : PageTable) (host : Host) (destAddr srcAddr size : Nat) :
    Option (Host × Bool) :=
  (walkBlock backingBase table (copyWalker backingBase table) destAddr size
    ⟨host, destAddr, srcAddr⟩).map fun result => (result.1.host, result.2)

/-! ## The specification -/

/-- The host's byte of an address, if its page is mapped. -/
def hostPointer (backingBase : Pointer) (mapping : Mapping) (vaddr : Nat) : Option Pointer :=
  (mapping (vaddr / 0x1000)).map fun target =>
    deviceGetPointer backingBase target + BitVec.ofNat 64 (vaddr % 0x1000)

/-- The byte of an address, zero if its page is unmapped. -/
def byteAt (backingBase : Pointer) (mapping : Mapping) (host : Host) (vaddr : Nat) : Byte :=
  (hostPointer backingBase mapping vaddr).elim 0 host.bytes

/-- The destination has the bytes of the source. -/
def HasSource (backingBase : Pointer) (mapping : Mapping) (before after : Host)
    (destAddr srcAddr size : Nat) : Prop :=
  ∀ i < size, ∀ pointer, hostPointer backingBase mapping (destAddr + i) = some pointer →
    after.bytes pointer = byteAt backingBase mapping before (srcAddr + i)

structure CopyExact (backingBase : Pointer) (table : PageTable) (mapping : Mapping) (before after : Host)
    (destAddr srcAddr size : Nat) : Prop where
  copied : HasSource backingBase mapping before after destAddr srcAddr size
  frame : ∀ pointer, (∀ i < size, hostPointer backingBase mapping (destAddr + i) ≠ some pointer) →
    after.bytes pointer = before.bytes pointer
  /-- A buffer between the two. -/
  buffered : ∀ buffer, ∃ read bytes written ok ok',
    readBlock backingBase table before srcAddr buffer size = some (read, bytes, ok) ∧
    writeBlock backingBase table read destAddr bytes size = some (written, ok') ∧
    after.bytes = written.bytes

/-! ## The walk -/

theorem copyBytes_self (bytes : Pointer → Byte) (pointer : Pointer) (n : Nat) :
    copyBytes bytes pointer (fun i => bytes (pointer + BitVec.ofNat 64 i)) n = bytes := by
  induction n with
  | zero => rfl
  | succ n ih => rw [copyBytes_succ, ih, Function.update_eq_self]

theorem writeBytes_self {page offset addr n : Nat} {target : Pointer} {buffer : Nat → Byte}
    (hentry : GoodEntry backingBase page (table.pointers page) (table.backingAddr page) (some target))
    (hbits : table.addressSpaceBits ≤ 48) (haddr : addr = page * 0x1000 + offset)
    (hpage : offset + n ≤ 0x1000) (hrange : addr + n ≤ 2 ^ table.addressSpaceBits)
    (hbuffer : ∀ i, buffer i =
      host.bytes (deviceGetPointer backingBase target + BitVec.ofNat 64 offset + BitVec.ofNat 64 i)) :
    (writeBytes backingBase table host addr buffer n).bytes = host.bytes := by
  obtain rfl : buffer = _ := funext hbuffer
  have hwrite := @writeBytes_mapped backingBase table page offset target host addr 0 n
    (fun i => host.bytes
      (deviceGetPointer backingBase target + BitVec.ofNat 64 offset + BitVec.ofNat 64 i))
    hentry hbits haddr hpage hrange
  rw [Nat.zero_add] at hwrite
  rw [hwrite]
  simp only [Nat.zero_add]
  exact copyBytes_self _ _ _

theorem Good.copyBlock (h : Good backingBase table mapping) (hbits : table.addressSpaceBits ≤ 48)
    {destAddr srcAddr size : Nat} (hrange : destAddr + size ≤ 2 ^ table.addressSpaceBits) :
    ∃ after ok, copyBlock backingBase table host destAddr srcAddr size = some (after, ok) ∧
      after.bytes = host.bytes ∧ (ok = true ↔ AllMapped mapping destAddr 0 size) := by
  have hadd : ∀ k n (x : CopyState), x.destAddr = destAddr + k →
      ((copyWalker backingBase table).increment n x).destAddr = destAddr + (k + n) := by
    intro k n x hx
    show x.destAddr + n = _
    rw [hx, Nat.add_assoc]
  obtain ⟨result, ok, heq, ⟨hbytes, -⟩, hok⟩ := @Good.walkBlock_inv backingBase table mapping CopyState
    (copyWalker backingBase table)
    (fun k state => state.host.bytes = host.bytes ∧ state.destAddr = destAddr + k) destAddr size
    ⟨host, destAddr, srcAddr⟩ h hbits hrange ⟨rfl, rfl⟩
    (by
      rintro k n page offset state ⟨hbytes, hdest⟩ haddr hpage hle hentry
      obtain ⟨ok, hzero, -⟩ := @Good.zeroBlock backingBase table mapping state.host (destAddr + k) n h hbits hle
      have hsame := @writeBytes_unmapped backingBase table _ _ state.host (destAddr + k) 0 n (fun _ => 0)
        hentry hbits haddr hpage hle
      rw [Nat.zero_add] at hsame
      refine ⟨?_, ?_⟩
      · simp only [copyWalker, hdest, hzero, hsame]
        exact hbytes
      · simp only [copyWalker, hdest, hzero]; exact Nat.add_assoc _ _ _)
    (by
      rintro k n page offset target state ⟨hbytes, hdest⟩ haddr hpage hle hentry hne -
      -- the bytes that are written are those of the page, whether or not the GPU was asked first
      have hwrite : ∀ asked : Host, asked.bytes = host.bytes → ∃ x : CopyState,
          ((Memory.writeBlock backingBase table asked state.destAddr (fun i => asked.bytes
            (deviceGetPointer backingBase target + BitVec.ofNat 64 offset + BitVec.ofNat 64 i)) n).map
              fun result => { state with host := result.1 }) = some x ∧
          x.host.bytes = host.bytes ∧ x.destAddr = destAddr + k := by
        intro asked hasked
        obtain ⟨ok, heq, -⟩ := @Good.writeBlock backingBase table mapping asked (destAddr + k) n _ h hbits hle
        rw [hdest, heq]
        refine ⟨_, rfl, ?_, rfl⟩
        rw [← hasked]; exact writeBytes_self hentry hbits haddr hpage hle fun _ => rfl
      split
      · obtain ⟨x, heq, hx, hdest'⟩ := hwrite (handleRasterizerDownload backingBase table state.host
          (page * 0x1000 + offset) n) hbytes
        simp only [copyWalker, if_neg hne]
        exact ⟨x, heq, hx, hadd k n x hdest'⟩
      · obtain ⟨x, heq, hx, hdest'⟩ := hwrite state.host hbytes
        simp only [copyWalker, if_neg hne]; exact ⟨x, heq, hx, hadd k n x hdest'⟩)
  refine ⟨result.host, ok, ?_, hbytes, hok⟩
  unfold Memory.copyBlock
  rw [heq]
  rfl

/-! ## A buffer between -/

theorem Good.read8_byteAt (h : Good backingBase table mapping) (hbits : table.addressSpaceBits ≤ 48)
    {vaddr : Nat} (hv : vaddr < 2 ^ table.addressSpaceBits) :
    (read8 backingBase table host vaddr).1 = byteAt backingBase mapping host vaddr ∧
      (read8 backingBase table host vaddr).2.bytes = host.bytes := by
  have hoffset : vaddr % 0x1000 < 0x1000 := Nat.mod_lt _ (by decide)
  have haddr : vaddr / 0x1000 * 0x1000 + vaddr % 0x1000 = vaddr := Nat.div_add_mod' _ _
  have hentry := h (vaddr / 0x1000)
  unfold byteAt hostPointer
  cases hmap : mapping (vaddr / 0x1000) with
  | none =>
    rw [hmap] at hentry
    have hread := @read8_unmapped backingBase table _ _ host hentry (haddr.symm ▸ hv) hoffset hbits
    rw [haddr] at hread
    rw [hread]; exact ⟨rfl, rfl⟩
  | some target =>
    rw [hmap] at hentry
    have hread := @read8_mapped backingBase table _ _ target host hentry (haddr.symm ▸ hv) hoffset hbits
    rw [haddr] at hread
    rw [hread]; exact ⟨rfl, rfl⟩

theorem Good.readBytes_byteAt (h : Good backingBase table mapping) (hbits : table.addressSpaceBits ≤ 48)
    {addr : Nat} {buffer : Nat → Byte} (n : Nat) (hrange : addr + n ≤ 2 ^ table.addressSpaceBits) :
    (readBytes backingBase table host addr buffer n).1.bytes = host.bytes ∧
      ∀ i < n, (readBytes backingBase table host addr buffer n).2 i =
        byteAt backingBase mapping host (addr + i) := by
  induction n with
  | zero => exact ⟨rfl, fun i hi => absurd hi (Nat.not_lt_zero i)⟩
  | succ n ih =>
    obtain ⟨hbytes, hvalues⟩ := ih (by omega)
    obtain ⟨hbyte, hsame⟩ := @Good.read8_byteAt backingBase table mapping
      (readBytes backingBase table host addr buffer n).1 h hbits (addr + n) (by omega)
    refine ⟨hsame.trans hbytes, fun i hi => ?_⟩
    have hstep : (readBytes backingBase table host addr buffer (n + 1)).2 =
        Function.update (readBytes backingBase table host addr buffer n).2 n
          (read8 backingBase table (readBytes backingBase table host addr buffer n).1 (addr + n)).1 := rfl
    rw [hstep]
    rcases eq_or_ne i n with rfl | hne
    · rw [Function.update_self, hbyte]
      unfold byteAt
      rw [hbytes]
    · rw [Function.update_of_ne hne]; exact hvalues i (by omega)

theorem Good.writeBytes_same (h : Good backingBase table mapping) (hbits : table.addressSpaceBits ≤ 48)
    {addr : Nat} {buffer : Nat → Byte} (n : Nat) (hrange : addr + n ≤ 2 ^ table.addressSpaceBits)
    (hthere : ∀ i < n, ∀ pointer, hostPointer backingBase mapping (addr + i) = some pointer →
      host.bytes pointer = buffer i) :
    (writeBytes backingBase table host addr buffer n).bytes = host.bytes := by
  induction n with
  | zero => rfl
  | succ n ih =>
    have hbytes := ih (by omega) fun i hi => hthere i (by omega)
    have hoffset : (addr + n) % 0x1000 < 0x1000 := Nat.mod_lt _ (by decide)
    have haddr : (addr + n) / 0x1000 * 0x1000 + (addr + n) % 0x1000 = addr + n := Nat.div_add_mod' _ _
    have hv : addr + n < 2 ^ table.addressSpaceBits := by omega
    have hentry := h ((addr + n) / 0x1000)
    have hvalue := hthere n (Nat.lt_succ_self n)
    unfold hostPointer at hvalue
    rw [writeBytes]
    cases hmap : mapping ((addr + n) / 0x1000) with
    | none =>
      rw [hmap] at hentry
      have hwrite := @write8_unmapped backingBase table _ _
        (writeBytes backingBase table host addr buffer n) (buffer n) hentry (haddr.symm ▸ hv) hoffset hbits
      rw [haddr] at hwrite
      rw [hwrite, hbytes]
    | some target =>
      rw [hmap] at hentry hvalue
      have hwrite := @write8_mapped backingBase table _ _ target
        (writeBytes backingBase table host addr buffer n) (buffer n) hentry (haddr.symm ▸ hv) hoffset hbits
      rw [haddr] at hwrite
      rw [hwrite]
      dsimp only
      rw [hbytes, ← hvalue _ rfl, Function.update_eq_self]

/-! ## The result -/

/-- **EXACTLY WHEN `CopyBlock` copies**: each mapped byte of the destination has the byte of the source
    before the call. -/
theorem copyBlock_exact_iff (h : Good backingBase table mapping) (hbits : table.addressSpaceBits ≤ 48)
    {destAddr srcAddr size : Nat} (hdest : destAddr + size ≤ 2 ^ table.addressSpaceBits)
    (hsrc : srcAddr + size ≤ 2 ^ table.addressSpaceBits) :
    (∃ after ok, copyBlock backingBase table host destAddr srcAddr size = some (after, ok) ∧
      CopyExact backingBase table mapping host after destAddr srcAddr size) ↔
    HasSource backingBase mapping host host destAddr srcAddr size := by
  obtain ⟨after, ok, hcopy, hbytes, -⟩ :=
    @Good.copyBlock backingBase table mapping host h hbits destAddr srcAddr size hdest
  constructor
  · rintro ⟨after', ok', hcopy', hexact⟩ i hi pointer hpointer
    obtain ⟨rfl, -⟩ : after = after' ∧ ok = ok' := by
      simpa using hcopy.symm.trans hcopy'
    rw [← hbytes]
    exact hexact.copied i hi pointer hpointer
  · intro hsame
    refine ⟨after, ok, hcopy, fun i hi pointer hpointer => ?_, fun pointer _ => ?_, fun buffer => ?_⟩
    · rw [hbytes]
      exact hsame i hi pointer hpointer
    · rw [hbytes]
    · obtain ⟨okRead, hread, -⟩ := @Good.readBlock backingBase table mapping host srcAddr size buffer h hbits hsrc
      obtain ⟨hunread, hvalues⟩ :=
        @Good.readBytes_byteAt backingBase table mapping host h hbits srcAddr buffer size hsrc
      obtain ⟨okWrite, hwrite, -⟩ := @Good.writeBlock backingBase table mapping
        (readBytes backingBase table host srcAddr buffer size).1 destAddr size
        (readBytes backingBase table host srcAddr buffer size).2 h hbits hdest
      refine ⟨_, _, _, _, _, hread, hwrite, ?_⟩
      rw [h.writeBytes_same hbits size hdest, hunread, hbytes]
      intro i hi pointer hpointer
      rw [hunread, hvalues i hi]; exact hsame i hi pointer hpointer

/-! ## Two pages -/

/-- Two pages of DRAM, one behind the other, the first at 0x10000 and the second at 0x20000. -/
def twoPages : List Action :=
  [.mapMemoryRegion 0x10000 0x1000 0x80000000, .mapMemoryRegion 0x20000 0x1000 0x80001000]

theorem good_twoPages :
    Good someBase (run someBase (.initial 39) twoPages) (mappingAfter twoPages) := by
  refine @good_run someBase 39 twoPages rfl ?_ ?_
  · intro a ha
    fin_cases ha
    · refine ⟨by decide, by decide, by decide, rfl, by decide, fun i hi => ?_⟩
      obtain rfl : i = 0 := by omega
      decide
    · refine ⟨by decide, by decide, by decide, rfl, by decide, fun i hi => ?_⟩
      obtain rfl : i = 0 := by omega
      decide
  · intro before a after heq
    have ha : a ∈ twoPages := heq ▸ List.mem_append_right _ List.mem_cons_self
    fin_cases ha
    · intro i hi
      obtain rfl : i = 0 := by omega
      decide
    · intro i hi
      obtain rfl : i = 0 := by omega
      decide

/-- One byte is not zero. -/
def oneByte (pointer : Pointer) : Host := ⟨fun p => if p = pointer then 1 else 0, [], []⟩

/-- The second byte of the page at 0x20000 is 0, and so is the first of the page at 0x10000. -/
theorem copyBlock_exact_iff_twoPages :
    ∃ after ok, copyBlock someBase (run someBase (.initial 39) twoPages) (oneByte (someBase + 0x1000))
        0x10000 0x20001 1 = some (after, ok) ∧
      CopyExact someBase (run someBase (.initial 39) twoPages) (mappingAfter twoPages)
        (oneByte (someBase + 0x1000)) after 0x10000 0x20001 1 := by
  refine (copyBlock_exact_iff good_twoPages (by decide) (by decide) (by decide)).mpr ?_
  intro i hi pointer hpointer
  obtain rfl : i = 0 := by omega
  obtain rfl : someBase = pointer := Option.some.inj ((by decide +kernel : _ = some someBase).symm.trans hpointer)
  decide +kernel

/-- The first byte is 1, and is NOT copied. -/
theorem not_copyBlock_exact :
    ¬ ∃ after ok, copyBlock someBase (run someBase (.initial 39) twoPages) (oneByte (someBase + 0x1000))
        0x10000 0x20000 1 = some (after, ok) ∧
      CopyExact someBase (run someBase (.initial 39) twoPages) (mappingAfter twoPages)
        (oneByte (someBase + 0x1000)) after 0x10000 0x20000 1 := by
  rintro ⟨after, ok, hcopy, hexact⟩
  obtain ⟨after', ok', hcopy', hbytes, -⟩ := @Good.copyBlock someBase _ _ (oneByte (someBase + 0x1000))
    good_twoPages (by decide) 0x10000 0x20000 1 (by decide)
  obtain ⟨rfl, -⟩ : after' = after ∧ ok' = ok := by
    simpa using hcopy'.symm.trans hcopy
  have hcopied := hexact.copied 0 (by decide) someBase (by decide +kernel)
  rw [hbytes] at hcopied
  exact absurd hcopied (by decide +kernel)

end Suyu.Core.Memory
