/-
  KMemoryBlockManager — the ordered tree of memory blocks of one address space.

  1. **Program** — the tree is an intrusive red-black tree ordered by address; here it is the list
     of its blocks in order, an iterator being a cut of that list.  `Update`, `UpdateIfMatch`,
     `UpdateLock` and `UpdateAttribute` are ONE loop (`updateLoop`) with three parameters: which
     blocks are skipped, what the block method asserts and what it does.  The loop runs on fuel,
     one unit per page of the range, which always suffices.  `coalesceForUpdate` then merges
     neighbours.

  2. **Null iterators** — `CoalesceForUpdate` steps the iterator back whenever the range does not
     start at the start of the address space.  When the block holding the start of the range is
     the FIRST block there is nothing to step back to: the red-black tree's `--` yields the null
     iterator and the next `++` dereferences it.  That outcome is `none`.

  3. **CheckState** — the consistency check the kernel runs over the tree.
-/
import Suyu.Kernel.MemoryBlock

namespace Suyu.Kernel

open KMemoryAttribute (IpcLocked DeviceShared)

/-! ## The program -/

structure KMemoryBlockManager where
  memoryBlockTree : List KMemoryBlock
  startAddress : Nat
  endAddress : Nat
deriving DecidableEq, Repr

/-- The places in which the four update functions differ. -/
structure UpdateRule where
  /-- what the function asserts about its arguments -/
  entryAsserts : Bool
  /-- the block already is as it should be: just advance -/
  skip : KMemoryBlock → Bool
  /-- skipping is decided by the properties of the block's pages alone -/
  skip_congr : ∀ b c : KMemoryBlock, b.properties = c.properties → skip b = skip c
  /-- the assertions of the block method -/
  asserts : KMemoryBlock → Bool
  /-- the block method itself -/
  apply : KMemoryBlock → KMemoryBlock
  /-- it never moves or resizes a block -/
  apply_address : ∀ b, (apply b).address = b.address
  apply_numPages : ∀ b, (apply b).numPages = b.numPages

/-- What an update loop leaves behind: the blocks, the number of `allocator->Allocate()` calls and
    whether every assertion held. -/
structure UpdateResult where
  blocks : List KMemoryBlock
  allocations : Nat
  asserts : Bool
deriving DecidableEq, Repr

namespace UpdateResult

/-- Leave `b` in place in front of what the rest of the loop produced. -/
def cons (b : KMemoryBlock) (r : UpdateResult) : UpdateResult :=
  { r with blocks := b :: r.blocks }

end UpdateResult

/-- "If we need to, create a new block before and insert it." — the inserted block, the block at
    the iterator and the current address. -/
def splitBefore (it : KMemoryBlock) (curAddress : Nat) : List KMemoryBlock × KMemoryBlock × Nat :=
  if it.address ≠ curAddress then
    let (newBlock, it) := it.split curAddress
    ([newBlock], it, it.address)
  else ([], it, curAddress)

/-- "If we need to, create a new block after and insert it." — the iterator ends up on the inserted
    block, the old one follows it. -/
def splitAfter (it : KMemoryBlock) (curAddress remainingSize : Nat) :
    KMemoryBlock × List KMemoryBlock :=
  if it.size > remainingSize then
    let (newBlock, it) := it.split (curAddress + remainingSize)
    (newBlock, [it])
  else (it, [])

/-- The loop `while (remaining_pages > 0)` of the four update functions, from the iterator on. -/
def updateLoop (rule : UpdateRule) : Nat → List KMemoryBlock → Nat → Nat → UpdateResult
  | 0, blocks, _, _ => ⟨blocks, 0, true⟩
  | _ + 1, [], _, _ => ⟨[], 0, true⟩
  | fuel + 1, it :: rest, curAddress, remainingPages =>
    if remainingPages = 0 then ⟨it :: rest, 0, true⟩
    else
      let remainingSize := remainingPages * PageSize
      if rule.skip it then
        if curAddress + remainingSize < it.endAddress then
          (updateLoop rule fuel rest (curAddress + remainingSize) 0).cons it
        else
          (updateLoop rule fuel rest it.endAddress
            ((curAddress + remainingSize - it.endAddress) / PageSize)).cons it
      else
        let (before, it, curAddress) := splitBefore it curAddress
        let (it, after) := splitAfter it curAddress remainingSize
        let r := updateLoop rule fuel (after ++ rest) (curAddress + it.size)
          (remainingPages - it.numPages)
        { blocks := before ++ rule.apply it :: r.blocks
          allocations := before.length + after.length + r.allocations
          asserts := rule.asserts it && r.asserts }

/-- The loop of `CoalesceForUpdate`, from the block `prev` and the blocks after it. -/
def coalesceLoop (updateEnd : Nat) : KMemoryBlock → List KMemoryBlock → List KMemoryBlock
  | prev, [] => [prev]
  | prev, it :: rest =>
    if prev.canMergeWith it then
      if updateEnd < (prev.add it).endAddress then prev.add it :: rest
      else coalesceLoop updateEnd (prev.add it) rest
    else if updateEnd < it.endAddress then prev :: it :: rest
    else prev :: coalesceLoop updateEnd it rest

namespace KMemoryBlockManager

/-- `Initialize`, with the block `startBlock` the slab hands out. -/
def init (st nd : Nat) (startBlock : KMemoryBlock) : KMemoryBlockManager where
  memoryBlockTree :=
    [startBlock.init st ((nd - st) / PageSize) KMemoryState.Free KMemoryPermission.None
      KMemoryAttribute.None]
  startAddress := st
  endAddress := nd

/-- `FindIterator`: the blocks before the iterator, and the blocks from it on. -/
def findIterator (tree : List KMemoryBlock) (address : Nat) :
    List KMemoryBlock × List KMemoryBlock :=
  tree.span (fun b => !decide (b.address ≤ address ∧ address < b.endAddress))

def coalesceForUpdate (m : KMemoryBlockManager) (address numPages : Nat) :
    Option KMemoryBlockManager :=
  match findIterator m.memoryBlockTree address with
  | (before, it :: after) =>
    if address ≠ m.startAddress then
      match before.getLast? with
      | none => none
      | some prev =>
        some { m with
          memoryBlockTree := before.dropLast ++
            coalesceLoop (address + numPages * PageSize) prev (it :: after) }
    else
      some { m with
        memoryBlockTree := before ++ coalesceLoop (address + numPages * PageSize) it after }
  | (_, []) => none

/-- The whole tree after the update loop, before coalescing. -/
def updateBlocks (m : KMemoryBlockManager) (address numPages : Nat) (rule : UpdateRule) :
    UpdateResult :=
  let (before, after) := findIterator m.memoryBlockTree address
  let r := updateLoop rule numPages after address numPages
  ⟨before ++ r.blocks, r.allocations, rule.entryAsserts && r.asserts⟩

/-- The body the four update functions share: the loop, then `CoalesceForUpdate`. -/
def updateWith (m : KMemoryBlockManager) (address numPages : Nat) (rule : UpdateRule) :
    Option (KMemoryBlockManager × UpdateResult) :=
  let r := m.updateBlocks address numPages rule
  (coalesceForUpdate { m with memoryBlockTree := r.blocks } address numPages).map (·, r)

/-- `ASSERT((attr & (IpcLocked | DeviceShared)) == None)`. -/
def attrAsserts (attr : BitVec 8) : Bool :=
  (attr &&& (IpcLocked ||| DeviceShared)) == KMemoryAttribute.None

def updateRule (address : Nat) (state : BitVec 32)
    (perm attr setDisableAttr clearDisableAttr : BitVec 8) : UpdateRule where
  entryAsserts := address % PageSize == 0 && attrAsserts attr
  skip it := it.hasProperties state perm attr
  skip_congr b c h := by rw [b.hasProperties_eq, c.hasProperties_eq, h]
  asserts it := it.updateAsserts
  apply it := it.update state perm attr (it.address == address) setDisableAttr clearDisableAttr
  apply_address _ := rfl
  apply_numPages _ := rfl

def update (m : KMemoryBlockManager) (address numPages : Nat) (state : BitVec 32)
    (perm attr setDisableAttr clearDisableAttr : BitVec 8) :
    Option (KMemoryBlockManager × UpdateResult) :=
  m.updateWith address numPages (updateRule address state perm attr setDisableAttr clearDisableAttr)

def updateIfMatchRule (address : Nat) (testState : BitVec 32) (testPerm testAttr : BitVec 8)
    (state : BitVec 32) (perm attr setDisableAttr clearDisableAttr : BitVec 8) : UpdateRule where
  entryAsserts := address % PageSize == 0 && attrAsserts attr
  skip it := !(it.hasProperties testState testPerm testAttr && !it.hasProperties state perm attr)
  skip_congr b c h := by simp only [KMemoryBlock.hasProperties_eq, h]
  asserts it := it.updateAsserts
  apply it := it.update state perm attr false setDisableAttr clearDisableAttr
  apply_address _ := rfl
  apply_numPages _ := rfl

def updateIfMatch (m : KMemoryBlockManager) (address numPages : Nat) (testState : BitVec 32)
    (testPerm testAttr : BitVec 8) (state : BitVec 32)
    (perm attr setDisableAttr clearDisableAttr : BitVec 8) :
    Option (KMemoryBlockManager × UpdateResult) :=
  m.updateWith address numPages
    (updateIfMatchRule address testState testPerm testAttr state perm attr setDisableAttr
      clearDisableAttr)

def updateLockRule (address endAddress : Nat) (lockFunc : LockFunction) (perm : BitVec 8) :
    UpdateRule where
  entryAsserts := address % PageSize == 0
  skip _ := false
  skip_congr _ _ _ := rfl
  asserts it := lockFunc.asserts it perm (it.address == address) (it.endAddress == endAddress)
  apply it := lockFunc.apply it perm (it.address == address) (it.endAddress == endAddress)
  apply_address it := (lockFunc.apply_spec it perm _ _).1
  apply_numPages it := (lockFunc.apply_spec it perm _ _).2.1

def updateLock (m : KMemoryBlockManager) (address numPages : Nat) (lockFunc : LockFunction)
    (perm : BitVec 8) : Option (KMemoryBlockManager × UpdateResult) :=
  m.updateWith address numPages
    (updateLockRule address (address + numPages * PageSize) lockFunc perm)

def updateAttributeRule (address : Nat) (mask attr : BitVec 8) : UpdateRule where
  entryAsserts := address % PageSize == 0
  skip it := (it.memoryAttribute &&& mask) == attr
  skip_congr b c h := by rw [show b.memoryAttribute = c.memoryAttribute from congrArg (·.memoryAttribute) h]
  asserts _ := KMemoryBlock.updateAttributeAsserts mask
  apply it := it.updateAttribute mask attr
  apply_address _ := rfl
  apply_numPages _ := rfl

def updateAttribute (m : KMemoryBlockManager) (address numPages : Nat) (mask attr : BitVec 8) :
    Option (KMemoryBlockManager × UpdateResult) :=
  m.updateWith address numPages (updateAttributeRule address mask attr)

/-- The checks `CheckState` makes on one block. -/
def checkBlock (b : KMemoryBlock) : Bool :=
  !((b.memoryAttribute &&& IpcLocked) != KMemoryAttribute.None && b.ipcLockCount == 0) &&
    !((b.memoryAttribute &&& DeviceShared) != KMemoryAttribute.None && b.deviceUseCount == 0)

/-- The loop of `CheckState`: the pair `prev`, `it`, then on. -/
def checkStateLoop : KMemoryBlock → List KMemoryBlock → Bool
  | prev, [] => checkBlock prev
  | prev, it :: rest =>
    !prev.canMergeWith it && prev.endAddress == it.address && checkBlock it &&
      checkStateLoop it rest

def checkState (m : KMemoryBlockManager) : Bool :=
  match m.memoryBlockTree with
  | [] => true
  | first :: rest => checkStateLoop first rest

end KMemoryBlockManager

end Suyu.Kernel
