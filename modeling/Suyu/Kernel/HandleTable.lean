/-
  KHandleTable — the handles of a process.

  A handle packs an entry index (15 bits), a linear id (15 bits) and two reserved bits.  An entry is
  free, reserved (allocated but without an object) or holds an object; the union `EntryInfo` is the
  link of the free list in the first case and the linear id in the last.

  1. **Program** — the member functions of `k_handle_table.h/.cpp`.  `ASSERT` only logs, so the
     functions are total.  Arrays are functions on indices.  The spin lock, `Open`/`Close` and the
     in-use registry are not part of the table and left out.
  2. **Packing** — a handle is exactly its three fields, and both readings of the union give back
     what was written as that reading.
-/
import Mathlib

namespace Suyu.Kernel

open Function (update)

/-! ## Handles -/

abbrev Handle : Type := BitVec 32

namespace HandlePack

def index (h : Handle) : Nat := h.toNat % 2 ^ 15

def linearId (h : Handle) : Nat := h.toNat / 2 ^ 15 % 2 ^ 15

def reserved (h : Handle) : Nat := h.toNat / 2 ^ 30

end HandlePack

def encodeHandle (index linearId : Nat) : Handle :=
  BitVec.ofNat 32 (index % 2 ^ 15 + linearId % 2 ^ 15 * 2 ^ 15)

namespace PseudoHandle
def CurrentThread : Handle := 0xFFFF8000
def CurrentProcess : Handle := 0xFFFF8001
end PseudoHandle

def isPseudoHandle (h : Handle) : Bool :=
  h == PseudoHandle.CurrentProcess || h == PseudoHandle.CurrentThread

def MaxTableSize : Nat := 1024
def MinLinearId : Nat := 1
def MaxLinearId : Nat := 0x7FFF

/-- The 16 bits a live entry and a free entry share. -/
structure EntryInfo where
  raw : BitVec 16
deriving DecidableEq, Repr

namespace EntryInfo

def ofLinearId (linearId : Nat) : EntryInfo := ⟨BitVec.ofNat 16 linearId⟩

def ofNextFreeIndex (index : Int) : EntryInfo := ⟨BitVec.ofInt 16 index⟩

def getLinearId (e : EntryInfo) : Nat := e.raw.toNat

def getNextFreeIndex (e : EntryInfo) : Int := e.raw.toInt

end EntryInfo

/-! ## The program -/

structure KHandleTable (O : Type) where
  entryInfos : Nat → EntryInfo
  objects : Nat → Option O
  freeHeadIndex : Int
  tableSize : Nat
  maxCount : Nat
  nextLinearId : Nat
  count : Nat

inductive HandleError where
  | outOfHandles
  | outOfMemory
deriving DecidableEq, Repr

namespace KHandleTable

variable {O : Type}

/-- One iteration of the loop of `Initialize`. -/
def freeInitialEntry (t : KHandleTable O) (i : Nat) : KHandleTable O :=
  { t with
    objects := update t.objects i none
    entryInfos := update t.entryInfos i (.ofNextFreeIndex (i - 1))
    freeHeadIndex := i }

/-- `Initialize`, on a table that was just constructed. -/
def init (size : Int) : Except HandleError (KHandleTable O) :=
  if size ≤ MaxTableSize then
    let tableSize := if size ≤ 0 then MaxTableSize else size.toNat
    .ok ((List.range tableSize).foldl freeInitialEntry
      { entryInfos := fun _ => ⟨0⟩
        objects := fun _ => none
        freeHeadIndex := -1
        tableSize := tableSize
        maxCount := 0
        nextLinearId := MinLinearId
        count := 0 })
  else .error .outOfMemory

def allocateEntry (t : KHandleTable O) : Int × KHandleTable O :=
  (t.freeHeadIndex,
   { t with
      freeHeadIndex := (t.entryInfos t.freeHeadIndex.toNat).getNextFreeIndex
      count := t.count + 1
      maxCount := max t.maxCount (t.count + 1) })

def freeEntry (t : KHandleTable O) (index : Nat) : KHandleTable O :=
  { t with
    objects := update t.objects index none
    entryInfos := update t.entryInfos index (.ofNextFreeIndex t.freeHeadIndex)
    freeHeadIndex := index
    count := t.count - 1 }

def allocateLinearId (t : KHandleTable O) : Nat × KHandleTable O :=
  (t.nextLinearId,
   { t with
      nextLinearId := if t.nextLinearId + 1 > MaxLinearId then MinLinearId else t.nextLinearId + 1 })

def isValidHandle (t : KHandleTable O) (handle : Handle) : Bool :=
  handle.toNat != 0 && HandlePack.linearId handle != 0 &&
    decide (HandlePack.index handle < t.tableSize) &&
    (t.objects (HandlePack.index handle)).isSome &&
    (t.entryInfos (HandlePack.index handle)).getLinearId == HandlePack.linearId handle

def getObjectImpl (t : KHandleTable O) (handle : Handle) : Option O :=
  if HandlePack.reserved handle ≠ 0 then none
  else if t.isValidHandle handle then t.objects (HandlePack.index handle)
  else none

def getObjectWithoutPseudoHandle (t : KHandleTable O) (handle : Handle) : Option O :=
  t.getObjectImpl handle

/-- `GetObject<KAutoObject>`: a process is an auto object, so the pseudo-handle of the current
    process is answered before the table is asked. -/
def getObject (t : KHandleTable O) (curProcess : O) (handle : Handle) : Option O :=
  if handle = PseudoHandle.CurrentProcess then some curProcess
  else t.getObjectWithoutPseudoHandle handle

def remove (t : KHandleTable O) (handle : Handle) : Bool × KHandleTable O :=
  if isPseudoHandle handle then (false, t)
  else if HandlePack.reserved handle ≠ 0 then (false, t)
  else if t.isValidHandle handle then (true, t.freeEntry (HandlePack.index handle))
  else (false, t)

def add (t : KHandleTable O) (obj : O) : Except HandleError Handle × KHandleTable O :=
  if t.count < t.tableSize then
    let (linearId, t) := t.allocateLinearId
    let (index, t) := t.allocateEntry
    (.ok (encodeHandle index.toNat linearId),
     { t with
        entryInfos := update t.entryInfos index.toNat (.ofLinearId linearId)
        objects := update t.objects index.toNat (some obj) })
  else (.error .outOfHandles, t)

def reserve (t : KHandleTable O) : Except HandleError Handle × KHandleTable O :=
  if t.count < t.tableSize then
    let (index, t) := t.allocateEntry
    let (linearId, t) := t.allocateLinearId
    (.ok (encodeHandle index.toNat linearId), t)
  else (.error .outOfHandles, t)

def unreserve (t : KHandleTable O) (handle : Handle) : KHandleTable O :=
  if HandlePack.index handle < t.tableSize then t.freeEntry (HandlePack.index handle) else t

def register (t : KHandleTable O) (handle : Handle) (obj : O) : KHandleTable O :=
  if HandlePack.index handle < t.tableSize then
    { t with
      entryInfos :=
        update t.entryInfos (HandlePack.index handle) (.ofLinearId (HandlePack.linearId handle))
      objects := update t.objects (HandlePack.index handle) (some obj) }
  else t

end KHandleTable

/-! ## Packing and unpacking -/

section Pack

theorem index_encodeHandle {i : Nat} (hi : i < 2 ^ 15) (d : Nat) :
    HandlePack.index (encodeHandle i d) = i := by
  unfold HandlePack.index encodeHandle
  rw [BitVec.toNat_ofNat]
  omega

theorem linearId_encodeHandle (i : Nat) {d : Nat} (hd : d < 2 ^ 15) :
    HandlePack.linearId (encodeHandle i d) = d := by
  unfold HandlePack.linearId encodeHandle
  rw [BitVec.toNat_ofNat]
  omega

theorem reserved_encodeHandle (i d : Nat) : HandlePack.reserved (encodeHandle i d) = 0 := by
  unfold HandlePack.reserved encodeHandle
  rw [BitVec.toNat_ofNat]
  omega

theorem handle_ext {h h' : Handle} (h1 : HandlePack.index h = HandlePack.index h')
    (h2 : HandlePack.linearId h = HandlePack.linearId h')
    (h3 : HandlePack.reserved h = HandlePack.reserved h') : h = h' := by
  refine BitVec.eq_of_toNat_eq ?_
  unfold HandlePack.index at h1
  unfold HandlePack.linearId at h2
  unfold HandlePack.reserved at h3
  omega

theorem linearId_lt (h : Handle) : HandlePack.linearId h < 2 ^ 15 :=
  Nat.mod_lt _ (by decide)

theorem reserved_of_isPseudoHandle {h : Handle} (hp : isPseudoHandle h = true) :
    HandlePack.reserved h ≠ 0 := by
  simp only [isPseudoHandle, Bool.or_eq_true, beq_iff_eq] at hp
  rcases hp with rfl | rfl <;> decide

theorem getLinearId_ofLinearId {d : Nat} (hd : d < 2 ^ 15) :
    (EntryInfo.ofLinearId d).getLinearId = d := by
  unfold EntryInfo.ofLinearId EntryInfo.getLinearId
  rw [BitVec.toNat_ofNat]
  omega

theorem getNextFreeIndex_ofNextFreeIndex {i : Int} (h1 : -2 ^ 15 ≤ i) (h2 : i < 2 ^ 15) :
    (EntryInfo.ofNextFreeIndex i).getNextFreeIndex = i := by
  unfold EntryInfo.ofNextFreeIndex EntryInfo.getNextFreeIndex
  rw [BitVec.toInt_ofInt]
  exact Int.bmod_eq_of_le (by omega) (by omega)

theorem getNextFreeIndex_bounds (e : EntryInfo) :
    -2 ^ 15 ≤ e.getNextFreeIndex ∧ e.getNextFreeIndex < 2 ^ 15 :=
  ⟨e.raw.le_toInt, e.raw.toInt_lt⟩

end Pack

end Suyu.Kernel
