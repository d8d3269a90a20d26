import Mathlib
import Suyu.FileSys.BucketTree

/-
  `IndirectStorage` (`fssystem_indirect_storage.h`, `.cpp`): a file that is patched together from two.

  1. **Data** - a `BucketTree` of entries, each with the data storage and the place in it where its bytes
     are.  Storage 0 is the base, the entries of the other one are FRAGMENTS.

  2. **Program** - `OperatePerEntry` goes entry by entry and calls a function for the bytes of each.
     With `ContinuousCheck` it first looks ahead (`ScanContinuousReading`): base entries that lie one
     behind the other, with small fragments between them, are read at once, and the fragments are
     then read over that.

  3. **Calls** - the function that `Read` passes never fails, so a run is the list of its calls, in
     order, and the result.
-/

namespace Suyu.FileSys

/-! ## Data -/

/-- `IndirectStorage::Entry`. -/
structure IndirectEntry where
  virtOffset : Int
  physOffset : Int
  storageIndex : Int
  deriving DecidableEq, Repr

def IndirectEntry.isFragment (e : IndirectEntry) : Bool := e.storageIndex ≠ 0

def fragmentSizeMax : Int := 4 * 1024

/-- A data storage. -/
structure DataStorage where
  size : Int
  byte : Int → UInt8

/-- `VfsFile::Read` of `length` bytes at `offset` into the memory at `pointer`. -/
def DataStorage.read (d : DataStorage) (memory : Int → UInt8) (pointer length offset : Int) :
    Int → UInt8 := fun p =>
  if pointer ≤ p ∧ p < pointer + length ∧ offset + (p - pointer) < d.size
  then d.byte (offset + (p - pointer)) else memory p

structure ContinuousReadingInfo where
  readSize : Int
  skipCount : Int
  done : Bool
  deriving DecidableEq, Repr

namespace ContinuousReadingInfo

/-- `ContinuousReadingInfo()`, `Reset`. -/
def reset : ContinuousReadingInfo := ⟨0, 0, false⟩

/-- `Done`. -/
def setDone (info : ContinuousReadingInfo) : ContinuousReadingInfo :=
  { info with readSize := 0, done := true }

/-- The count that `CheckNeedScan` leaves. -/
def countDown (info : ContinuousReadingInfo) : ContinuousReadingInfo :=
  { info with skipCount := info.skipCount - 1 }

end ContinuousReadingInfo

def BucketTree.isInclude {α : Type} (t : BucketTree α) (offset : Int) : Bool :=
  decide (t.startOffset ≤ offset) && decide (offset < t.endOffset)

/-- `Offsets::IsInclude(offset, size)`. -/
def BucketTree.isIncludeRange {α : Type} (t : BucketTree α) (offset size : Int) : Bool :=
  decide (0 < size) && decide (t.startOffset ≤ offset) && decide (size ≤ t.endOffset - offset)

/-! ## ScanContinuousReading -/

/-- What the loop of `ScanContinuousReading` changes. -/
structure ScanState where
  entry : IndirectEntry
  curOffset : Int
  physOffset : Int
  mergeSize : Int
  readableSize : Int
  merged : Bool
  entryIndex : Int
  deriving DecidableEq, Repr

/-- The next entry of the set; behind the last one `EntryType{}`. -/
def BucketTree.nextEntry (t : BucketTree IndirectEntry) (buffered : Bool) (set : NodeHeader)
    (entryIndex : Int) : IndirectEntry :=
  if entryIndex + 1 < set.count then
    if buffered then
      (t.entryStorage.buffer (set.index * t.nodeSize) t.nodeSize).entry
        (getBucketTreeEntryOffset 0 t.entrySize (entryIndex + 1))
    else
      t.entryStorage.entry
        (getBucketTreeEntryOffset (set.index * t.nodeSize) t.entrySize (entryIndex + 1))
  else ⟨0, 0, 0⟩

/-- One round behind the checks: `none` is `break`. -/
def ScanState.advance (s : ScanState) (endOffset nextEntryOffset : Int) (nextEntry : IndirectEntry) :
    Option ScanState :=
  let dataSize := nextEntryOffset - s.curOffset
  let remainingSize := endOffset - s.curOffset
  let readSize := min dataSize remainingSize
  let moved : ScanState :=
    { s with
      curOffset := s.curOffset + readSize
      physOffset := s.physOffset + (nextEntryOffset - s.entry.virtOffset)
      entry := nextEntry
      entryIndex := s.entryIndex + 1 }
  if s.entry.isFragment then
    if fragmentSizeMax ≤ readSize ∨ remainingSize ≤ dataSize then none
    else some { moved with mergeSize := s.mergeSize + readSize }
  else
    if s.physOffset ≠ s.entry.physOffset then none
    else some
      { moved with
        readableSize := s.readableSize + (s.mergeSize + readSize)
        merged := s.merged || decide (0 < s.mergeSize)
        mergeSize := 0 }

/-- The loop of `ScanContinuousReading`, with the number of entries that the set still has. -/
def BucketTree.scanLoop (t : BucketTree IndirectEntry) (buffered : Bool) (set : NodeHeader)
    (endOffset : Int) : Nat → ScanState → Except Error ScanState
  | 0, s => .ok s
  | n + 1, s =>
    if endOffset ≤ s.curOffset then .ok s
    else if ¬ s.entry.virtOffset ≤ s.curOffset then .error .invalidIndirectEntryOffset
    else
      let nextEntry := t.nextEntry buffered set s.entryIndex
      let nextEntryOffset :=
        if s.entryIndex + 1 < set.count then nextEntry.virtOffset else set.offset
      if s.entryIndex + 1 < set.count ∧ ¬ t.isInclude nextEntryOffset
      then .error .invalidIndirectEntryOffset
      else if ¬ s.curOffset < nextEntryOffset then .error .invalidIndirectEntryOffset
      else
        match s.advance endOffset nextEntryOffset nextEntry with
        | none => .ok s
        | some s' => t.scanLoop buffered set endOffset n s'

/-- `Visitor::ScanContinuousReading`, `BucketTree::ScanContinuousReading`. -/
def BucketTree.scanContinuousReading (t : BucketTree IndirectEntry) (buffered : Bool)
    (v : Visitor IndirectEntry) (offset size : Int) : Except Error ContinuousReadingInfo :=
  if size = 0 then .ok .reset
  else if v.entry.isFragment then .ok .reset
  else if ¬ v.entry.virtOffset ≤ offset then .error .outOfRange
  else if buffered ∧ ¬ t.nodeSize + v.entrySet.index * t.nodeSize ≤ t.entryStorage.size
  then .error .invalidBucketTreeNodeEntryCount
  else
    match t.scanLoop buffered v.entrySet.header (offset + size)
      (v.entrySet.count - v.entryIndex).toNat
      ⟨v.entry, offset, v.entry.physOffset, 0, 0, false, v.entryIndex⟩ with
    | .error e => .error e
    | .ok s =>
      .ok ⟨if s.merged then s.readableSize else 0, s.entryIndex - v.entryIndex, false⟩

/-! ## OperatePerEntry -/

/-- A call of the function: the storage, the offset in it, the virtual offset and the size. -/
structure Call where
  storageIndex : Int
  dataOffset : Int
  curOffset : Int
  size : Int
  deriving DecidableEq, Repr

/-- Where the loop stands. -/
structure Cursor where
  curOffset : Int
  visitor : Visitor IndirectEntry
  info : ContinuousReadingInfo

structure IndirectStorage where
  table : BucketTree IndirectEntry
  dataStorage : Int → DataStorage

namespace IndirectStorage

/-- `StorageCount`, `NodeSize`, `sizeof(Entry)`. -/
def storageCount : Int := 2
def nodeSize : Int := 16 * 1024
def sizeofEntry : Int := 0x14

/-- `Initialize(node_storage, entry_storage, entry_count)`, with the storages of `SetStorage`. -/
def initializeStorage (nodeStorage entryStorage : Storage IndirectEntry) (entryCount : Int)
    (dataStorage : Int → DataStorage) : Except Error IndirectStorage := do
  let table ← BucketTree.initializeTree nodeStorage entryStorage nodeSize sizeofEntry entryCount
  return ⟨table, dataStorage⟩

/-- The part for `ContinuousCheck`: the scan, if one is due, and the merged read. -/
def continuousCheck (st : IndirectStorage) (scanBuffered : Int → Bool) (endOffset : Int)
    (c : Cursor) : Except Error (ContinuousReadingInfo × Option Call) := do
  let curEntry := c.visitor.entry
  let counted := c.info.countDown
  let info ←
    if counted.skipCount ≤ 0 then
      st.table.scanContinuousReading (scanBuffered c.curOffset) c.visitor c.curOffset
        (endOffset - c.curOffset)
    else pure counted
  if 0 < info.readSize then
    if curEntry.storageIndex ≠ 0 then throw .invalidIndirectEntryStorageIndex
    let dataOffset := c.curOffset - curEntry.virtOffset
    let size := (st.dataStorage 0).size
    if ¬ (0 ≤ curEntry.physOffset ∧ curEntry.physOffset ≤ size)
    then throw .invalidIndirectEntryOffset
    if ¬ curEntry.physOffset + dataOffset + info.readSize ≤ size
    then throw .invalidIndirectStorageSize
    return (info.setDone, some ⟨0, curEntry.physOffset + dataOffset, c.curOffset, info.readSize⟩)
  else return (info, none)

/-- The next entry and its offset. -/
def moveToNext (st : IndirectStorage) (v : Visitor IndirectEntry) :
    Except Error (Visitor IndirectEntry × Int) := do
  if v.canMoveNext then
    let v' ← Visitor.moveNext st.table v
    if ¬ st.table.isInclude v'.entry.virtOffset then throw .invalidIndirectEntryOffset
    return (v', v'.entry.virtOffset)
  else return (v, st.table.endOffset)

/-- The part for the entry itself: the entry is left, and its bytes are read if that is needed. -/
def operateEntry (st : IndirectStorage) (continuous : Bool) (endOffset : Int) (c : Cursor)
    (info : ContinuousReadingInfo) : Except Error (Cursor × Option Call) := do
  let curEntry := c.visitor.entry
  let (visitor, nextEntryOffset) ← st.moveToNext c.visitor
  if ¬ c.curOffset < nextEntryOffset then throw .invalidIndirectEntryOffset
  let dataOffset := c.curOffset - curEntry.virtOffset
  let dataSize := nextEntryOffset - curEntry.virtOffset
  let curSize := min (endOffset - c.curOffset) (dataSize - dataOffset)
  let needsOperate := !continuous || (!info.done || curEntry.storageIndex ≠ 0)
  let next : Cursor := ⟨c.curOffset + curSize, visitor, info⟩
  if needsOperate then
    let size := (st.dataStorage curEntry.storageIndex).size
    if ¬ (0 ≤ curEntry.physOffset ∧ curEntry.physOffset ≤ size) then throw .indirectStorageCorrupted
    if ¬ curEntry.physOffset + dataOffset + curSize ≤ size then throw .indirectStorageCorrupted
    return (next, some ⟨curEntry.storageIndex, curEntry.physOffset + dataOffset, c.curOffset, curSize⟩)
  else return (next, none)

/-- The checks at the head of a round. -/
def checkEntry (c : Cursor) : Except Error Unit := do
  if ¬ c.visitor.entry.virtOffset ≤ c.curOffset then throw .invalidIndirectEntryOffset
  if ¬ (0 ≤ c.visitor.entry.storageIndex ∧ c.visitor.entry.storageIndex < storageCount)
  then throw .invalidIndirectEntryStorageIndex

/-- The loop of `OperatePerEntry<ContinuousCheck, true>`.  Every round that does not fail moves
    `cur_offset` by at least one byte, so that as many rounds as bytes are enough. -/
def operateLoop (st : IndirectStorage) (continuous : Bool) (scanBuffered : Int → Bool)
    (endOffset : Int) : Nat → Cursor → List Call × Except Error Unit
  | 0, _ => ([], .ok ())
  | n + 1, c =>
    if ¬ c.curOffset < endOffset then ([], .ok ())
    else
      match checkEntry c with
      | .error e => ([], .error e)
      | .ok _ =>
        match (if continuous then st.continuousCheck scanBuffered endOffset c
          else .ok (c.info, none)) with
        | .error e => ([], .error e)
        | .ok (info, merged) =>
          match st.operateEntry continuous endOffset c info with
          | .error e => (merged.toList, .error e)
          | .ok (next, own) =>
            let rest := st.operateLoop continuous scanBuffered endOffset n next
            (merged.toList ++ own.toList ++ rest.1, rest.2)

/-- What the pool of buffers has at the moment of each search and of each scan. -/
structure Pool where
  node : Bool
  entry : Bool
  scan : Int → Bool

/-- `OperatePerEntry<ContinuousCheck, true>`. -/
def operatePerEntry (st : IndirectStorage) (continuous : Bool) (pool : Pool) (offset size : Int) :
    List Call × Except Error Unit :=
  if size = 0 then ([], .ok ())
  else if ¬ st.table.isIncludeRange offset size then ([], .error .outOfRange)
  else
    match st.table.find pool.node pool.entry offset with
    | .error e => ([], .error e)
    | .ok v =>
      if ¬ (0 ≤ v.entry.virtOffset ∧ st.table.isInclude v.entry.virtOffset)
      then ([], .error .invalidIndirectEntryOffset)
      else st.operateLoop continuous pool.scan (offset + size) size.toNat ⟨offset, v, .reset⟩

/-- The function that `Read` passes. -/
def readCall (st : IndirectStorage) (pointer offset : Int) (memory : Int → UInt8) (call : Call) :
    Int → UInt8 :=
  (st.dataStorage call.storageIndex).read memory (pointer + (call.curOffset - offset)) call.size
    call.dataOffset

/-- The memory after `OperatePerEntry` with the function of `Read`. -/
def readWith (st : IndirectStorage) (continuous : Bool) (pool : Pool) (memory : Int → UInt8)
    (pointer size offset : Int) : Int → UInt8 :=
  (st.operatePerEntry continuous pool offset size).1.foldl (st.readCall pointer offset) memory

/-- `IndirectStorage::Read`: the memory afterwards. -/
def read (st : IndirectStorage) (pool : Pool) (memory : Int → UInt8) (pointer size offset : Int) :
    Int → UInt8 :=
  if size = 0 then memory else st.readWith true pool memory pointer size offset

end IndirectStorage

end Suyu.FileSys
