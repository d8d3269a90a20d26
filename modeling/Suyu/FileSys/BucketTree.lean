import Mathlib
import Suyu.Lib.Bisect

/-
  `BucketTree` (`fssystem_bucket_tree.cpp`): a table of entries, sorted by virtual offset, on disk.

  1. **Data** - entries are kept in ENTRY SETS of one node each.  The L1 node holds the start offsets of
     the entry sets when they fit; otherwise it holds the start offsets of the L2 nodes, the L2 nodes
     hold those of the entry sets, and the part of L1 that is left holds those of the FIRST entry
     sets.

  2. **Program** - `Initialize`, `Find` with its searches in L1, L2 and the entry set, each with a
     buffer (the whole node is read first) or without one, `MoveNext` and `MovePrevious`.  `s32`
     arithmetic wraps.

  3. **Storage** - what is read of a storage are 32-bit and 64-bit numbers and whole entries, each at a
     byte offset.  The first eight bytes of an entry are its virtual offset.

  Left out: `InvalidateCache` and the second reading of L1 in `EnsureOffsetCache`, the allocation
  failures.
-/

namespace Suyu.FileSys

open Lib.Bisect

/-! ## Data -/

/-- The results that are not success. -/
inductive Error where
  | outOfRange | invalidArgument | invalidSize | invalidOffset
  | invalidBucketTreeNodeIndex | invalidBucketTreeNodeEntryCount | invalidBucketTreeNodeOffset
  | invalidBucketTreeEntryOffset | invalidBucketTreeEntrySetOffset
  | invalidBucketTreeVirtualOffset
  | invalidIndirectEntryOffset | invalidIndirectEntryStorageIndex | invalidIndirectStorageSize
  | indirectStorageCorrupted
  deriving DecidableEq, Repr

/-- `static_cast<s32>`. -/
def toS32 (x : Int) : Int := x.bmod (2 ^ 32)

/-- A storage, or a buffer: what is read at a byte offset. -/
structure Storage (α : Type) where
  size : Int
  int32 : Int → Int
  int64 : Int → Int
  entry : Int → α

namespace Storage

variable {α : Type}

/-- A node of `size` bytes read into a buffer. -/
def buffer (s : Storage α) (ofs size : Int) : Storage α where
  size := size
  int32 := fun p => s.int32 (ofs + p)
  int64 := fun p => s.int64 (ofs + p)
  entry := fun p => s.entry (ofs + p)

end Storage

structure NodeHeader where
  index : Int
  count : Int
  offset : Int
  deriving DecidableEq, Repr

/-- `sizeof(NodeHeader)`. -/
def nodeHeaderSize : Int := 0x10

def Storage.header {α : Type} (s : Storage α) (ofs : Int) : NodeHeader :=
  ⟨s.int32 ofs, s.int32 (ofs + 4), s.int64 (ofs + 8)⟩

def NodeHeader.verify (h : NodeHeader) (nodeIndex nodeSize entrySize : Int) : Except Error Unit :=
  if h.index ≠ nodeIndex then .error .invalidBucketTreeNodeIndex
  else if entrySize = 0 ∨ nodeSize < entrySize + nodeHeaderSize then .error .invalidSize
  else if h.count ≤ 0 ∨ (nodeSize - nodeHeaderSize) / entrySize < h.count
  then .error .invalidBucketTreeNodeEntryCount
  else if h.offset < 0 then .error .invalidBucketTreeNodeOffset
  else .ok ()

/-! ## Counts -/

/-- `Common::DivideUp` on `s32`. -/
def divideUp (x y : Int) : Int := (toS32 (x + toS32 (y - 1))).tdiv y

def getEntryCount (nodeSize entrySize : Int) : Int := toS32 ((nodeSize - nodeHeaderSize) / entrySize)

def getOffsetCount (nodeSize : Int) : Int := toS32 ((nodeSize - nodeHeaderSize) / 8)

def getEntrySetCount (nodeSize entrySize entryCount : Int) : Int :=
  divideUp entryCount (getEntryCount nodeSize entrySize)

def getNodeL2Count (nodeSize entrySize entryCount : Int) : Int :=
  let offsetCount := getOffsetCount nodeSize
  let entrySetCount := getEntrySetCount nodeSize entrySize entryCount
  if entrySetCount ≤ offsetCount then 0
  else
    let nodeL2Count := divideUp entrySetCount offsetCount
    divideUp (toS32 (entrySetCount - toS32 (offsetCount - toS32 (nodeL2Count - 1)))) offsetCount

def queryNodeStorageSize (nodeSize entrySize entryCount : Int) : Int :=
  if entryCount ≤ 0 then 0 else toS32 (1 + getNodeL2Count nodeSize entrySize entryCount) * nodeSize

def queryEntryStorageSize (nodeSize entrySize entryCount : Int) : Int :=
  if entryCount ≤ 0 then 0 else getEntrySetCount nodeSize entrySize entryCount * nodeSize

/-! ## The tree -/

/-- `BucketTree` after `Initialize`; `nodeL1` is the buffer of the L1 node. -/
structure BucketTree (α : Type) where
  nodeStorage : Storage α
  entryStorage : Storage α
  nodeL1 : Storage α
  nodeSize : Int
  entrySize : Int
  entryCount : Int
  offsetCount : Int
  entrySetCount : Int
  startOffset : Int
  endOffset : Int

/-- The union `EntrySetHeader`: the header of an entry set and the offset of its first entry. -/
structure EntrySet where
  index : Int
  count : Int
  stop : Int
  start : Int
  deriving DecidableEq, Repr

/-- `EntrySetHeader` read at a byte offset. -/
def Storage.entrySet {α : Type} (s : Storage α) (ofs : Int) : EntrySet :=
  ⟨s.int32 ofs, s.int32 (ofs + 4), s.int64 (ofs + 8), s.int64 (ofs + 16)⟩

def EntrySet.header (e : EntrySet) : NodeHeader := ⟨e.index, e.count, e.stop⟩

structure Visitor (α : Type) where
  entry : α
  entryIndex : Int
  entrySetCount : Int
  entrySet : EntrySet

/-- `StorageNode::Find`: the index it ends with.  `start` is the byte offset of the first element. -/
def findIndex {α : Type} (s : Storage α) (start stride count address : Int) : Int :=
  (bisect (fun i => decide (s.int64 (start + i * stride) ≤ address)) 0 count.toNat : Int) - 1

/-- `std::upper_bound` over the offsets from index `first` up to `last` of a node in a buffer, as a
    distance from `first`. -/
def upperBound {α : Type} (node : Storage α) (first last address : Int) : Int :=
  bisect (fun i => decide (node.int64 (nodeHeaderSize + (first + i) * 8) ≤ address)) 0
    (last - first).toNat

def getBucketTreeEntryOffset (entrySetOffset entrySize entryIndex : Int) : Int :=
  entrySetOffset + nodeHeaderSize + entryIndex * entrySize

namespace BucketTree

variable {α : Type}

/-- `*node->GetBegin()`, `*node->GetEnd()` of L1. -/
def offsetL1 (node : Storage α) (i : Int) : Int := node.int64 (nodeHeaderSize + i * 8)

/-- `BucketTree::Initialize`. -/
def initializeTree (nodeStorage entryStorage : Storage α) (nodeSize entrySize entryCount : Int) :
    Except Error (BucketTree α) := do
  if entryCount ≤ 0 then throw .invalidArgument
  let nodeL1 := nodeStorage.buffer 0 nodeSize
  (nodeL1.header 0).verify 0 nodeSize 8
  let offsetCount := getOffsetCount nodeSize
  let entrySetCount := getEntrySetCount nodeSize entrySize entryCount
  let count := (nodeL1.header 0).count
  let startOffset :=
    if offsetCount < entrySetCount ∧ count < offsetCount then offsetL1 nodeL1 count
    else offsetL1 nodeL1 0
  let endOffset := (nodeL1.header 0).offset
  if ¬ (0 ≤ startOffset ∧ startOffset ≤ offsetL1 nodeL1 0)
  then throw .invalidBucketTreeEntryOffset
  if ¬ startOffset < endOffset then throw .invalidBucketTreeEntryOffset
  return ⟨nodeStorage, entryStorage, nodeL1, nodeSize, entrySize, entryCount, offsetCount,
    entrySetCount, startOffset, endOffset⟩

/-- `m_node_l1->count`. -/
def countL1 (t : BucketTree α) : Int := (t.nodeL1.header 0).count

def isExistL2 (t : BucketTree α) : Bool := t.offsetCount < t.entrySetCount

def isExistOffsetL2OnL1 (t : BucketTree α) : Bool := t.isExistL2 && decide (t.countL1 < t.offsetCount)

def getEntrySetIndex (t : BucketTree α) (nodeIndex offsetIndex : Int) : Int :=
  toS32 (toS32 (toS32 (t.offsetCount - t.countL1) + toS32 (t.offsetCount * nodeIndex)) + offsetIndex)

def findEntrySetWithBuffer (t : BucketTree α) (address nodeIndex : Int) : Except Error Int := do
  let nodeOffset := (nodeIndex + 1) * t.nodeSize
  let buffer := t.nodeStorage.buffer nodeOffset t.nodeSize
  let header := buffer.header 0
  header.verify nodeIndex t.nodeSize 8
  let index := findIndex buffer nodeHeaderSize 8 header.count address
  if index < 0 then throw .invalidBucketTreeVirtualOffset
  return t.getEntrySetIndex header.index index

def findEntrySetWithoutBuffer (t : BucketTree α) (address nodeIndex : Int) : Except Error Int := do
  let nodeOffset := (nodeIndex + 1) * t.nodeSize
  let header := t.nodeStorage.header nodeOffset
  header.verify nodeIndex t.nodeSize 8
  let index := findIndex t.nodeStorage (nodeHeaderSize + nodeOffset) 8 header.count address
  if index < 0 then throw .outOfRange
  return t.getEntrySetIndex header.index index

/-- `FindEntrySet`; `buffered` says that the pool has a buffer of the size of a node. -/
def findEntrySet (t : BucketTree α) (buffered : Bool) (address nodeIndex : Int) :
    Except Error Int :=
  if buffered then t.findEntrySetWithBuffer address nodeIndex
  else t.findEntrySetWithoutBuffer address nodeIndex

/-- `FindEntryWithBuffer`, with the count of entry sets that `Find` sets afterwards. -/
def findEntryWithBuffer (t : BucketTree α) (address entrySetIndex : Int) :
    Except Error (Visitor α) := do
  let entrySetOffset := entrySetIndex * t.nodeSize
  let buffer := t.entryStorage.buffer entrySetOffset t.nodeSize
  let entrySet := buffer.entrySet 0
  entrySet.header.verify entrySetIndex t.nodeSize t.entrySize
  let index := findIndex buffer nodeHeaderSize t.entrySize entrySet.count address
  if index < 0 then throw .outOfRange
  let entry := buffer.entry (getBucketTreeEntryOffset 0 t.entrySize index)
  return ⟨entry, index, t.entrySetCount, entrySet⟩

def findEntryWithoutBuffer (t : BucketTree α) (address entrySetIndex : Int) :
    Except Error (Visitor α) := do
  let entrySetOffset := entrySetIndex * t.nodeSize
  let entrySet := t.entryStorage.entrySet entrySetOffset
  entrySet.header.verify entrySetIndex t.nodeSize t.entrySize
  let index := findIndex t.entryStorage (nodeHeaderSize + entrySetOffset) t.entrySize entrySet.count
    address
  if index < 0 then throw .outOfRange
  let entry := t.entryStorage.entry (getBucketTreeEntryOffset entrySetOffset t.entrySize index)
  return ⟨entry, index, t.entrySetCount, entrySet⟩

def findEntry (t : BucketTree α) (buffered : Bool) (address entrySetIndex : Int) :
    Except Error (Visitor α) :=
  if buffered then t.findEntryWithBuffer address entrySetIndex
  else t.findEntryWithoutBuffer address entrySetIndex

/-- The entry set index of `Visitor::Find`. -/
def findSetIndex (t : BucketTree α) (buffered : Bool) (address : Int) : Except Error Int := do
  if t.isExistOffsetL2OnL1 && decide (address < offsetL1 t.nodeL1 0) then
    let pos := upperBound t.nodeL1 t.countL1 t.offsetCount address
    if pos ≤ 0 then throw .outOfRange
    return toS32 (pos - 1)
  else
    let pos := upperBound t.nodeL1 0 t.countL1 address
    if pos ≤ 0 then throw .outOfRange
    if t.isExistL2 then
      let nodeIndex := toS32 (pos - 1)
      if ¬ (0 ≤ nodeIndex ∧ nodeIndex < t.offsetCount) then throw .invalidBucketTreeNodeOffset
      t.findEntrySet buffered address nodeIndex
    else return toS32 (pos - 1)

/-- `BucketTree::Find` with `Visitor::Find`; the search in an L2 node and the one in an entry set may
    each have a buffer or none. -/
def find (t : BucketTree α) (nodeBuffered entryBuffered : Bool) (address : Int) :
    Except Error (Visitor α) := do
  if address < 0 then throw .invalidOffset
  if ¬ address < t.endOffset then throw .outOfRange
  let entrySetIndex ← t.findSetIndex nodeBuffered address
  if ¬ (0 ≤ entrySetIndex ∧ entrySetIndex < t.entrySetCount)
  then throw .invalidBucketTreeNodeOffset
  t.findEntry entryBuffered address entrySetIndex

end BucketTree

/-! ## The visitor -/

namespace Visitor

variable {α : Type}

def isValid (v : Visitor α) : Bool := 0 ≤ v.entryIndex

def canMoveNext (v : Visitor α) : Bool :=
  v.isValid && (decide (v.entryIndex + 1 < v.entrySet.count) ||
    decide (v.entrySet.index + 1 < v.entrySetCount))

def canMovePrevious (v : Visitor α) : Bool :=
  v.isValid && (decide (0 < v.entryIndex) || decide (0 < v.entrySet.index))

/-- The visitor at an index of an entry set, with its entry read. -/
def readEntry (t : BucketTree α) (v : Visitor α) (entrySet : EntrySet) (entryIndex : Int) :
    Visitor α :=
  { v with
    entry := t.entryStorage.entry
      (getBucketTreeEntryOffset (entrySet.index * t.nodeSize) t.entrySize entryIndex)
    entryIndex := entryIndex
    entrySet := entrySet }

def moveNext (t : BucketTree α) (v : Visitor α) : Except Error (Visitor α) := do
  if !v.isValid then throw .outOfRange
  let entryIndex := v.entryIndex + 1
  if entryIndex = v.entrySet.count then
    let entrySetIndex := v.entrySet.index + 1
    if ¬ entrySetIndex < v.entrySetCount then throw .outOfRange
    let entrySet := t.entryStorage.entrySet (entrySetIndex * t.nodeSize)
    entrySet.header.verify entrySetIndex t.nodeSize t.entrySize
    if ¬ (entrySet.start = v.entrySet.stop ∧ entrySet.start < entrySet.stop)
    then throw .invalidBucketTreeEntrySetOffset
    return v.readEntry t entrySet 0
  else return v.readEntry t v.entrySet entryIndex

def movePrevious (t : BucketTree α) (v : Visitor α) : Except Error (Visitor α) := do
  if !v.isValid then throw .outOfRange
  if v.entryIndex = 0 then
    if ¬ 0 < v.entrySet.index then throw .outOfRange
    let entrySetIndex := v.entrySet.index - 1
    let entrySet := t.entryStorage.entrySet (entrySetIndex * t.nodeSize)
    entrySet.header.verify entrySetIndex t.nodeSize t.entrySize
    if ¬ (entrySet.stop = v.entrySet.start ∧ entrySet.start < entrySet.stop)
    then throw .invalidBucketTreeEntrySetOffset
    return v.readEntry t entrySet (entrySet.count - 1)
  else return v.readEntry t v.entrySet (v.entryIndex - 1)

end Visitor

end Suyu.FileSys
