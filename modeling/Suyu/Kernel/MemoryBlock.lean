/-
  KMemoryBlock — one run of pages with the same kernel memory properties.

  A block is an address, a number of pages, the SIX properties every page of the block shares
  (state, permission, original permission, attribute, IPC lock count, device use count) and the
  bookkeeping that forbids merging it with a neighbour (`disableMergeAttribute` and three counts).

  1. **Program** — the block methods, in the order of `k_memory_block.h`.  The counters are the
     source's `u16`, so `++`/`--` wrap; the flag enumerations are the source's integers.  Addresses
     and page counts are `Nat`: every address the manager forms lies inside the managed range, so
     none of this arithmetic wraps.
  2. **Assertions** — `ASSERT` logs and carries on unless debug asserts are enabled, so each method
     is a total function and its assertions are a separate Boolean (`…Asserts`).
  3. **What a method can do** — it never moves a block, its effect on the six properties does not
     depend on the two edge flags (`LockFunction.apply_spec`), and `split`/`add` keep them.
-/
import Suyu.Lib.Bits
import Suyu.Lib.Tiling

namespace Suyu.Kernel

/-- Bytes in a page. -/
def PageSize : Nat := 0x1000

/-! ## The flag enumerations -/

namespace KMemoryState
def Free : BitVec 32 := 0x0
def Normal : BitVec 32 := 0x077EBD05
end KMemoryState

namespace KMemoryPermission
def None : BitVec 8 := 0
def KernelShift : Nat := 3
def NotMapped : BitVec 8 := 1#8 <<< (2 * KernelShift)
def KernelRead : BitVec 8 := 1#8 <<< KernelShift
def KernelWrite : BitVec 8 := 2#8 <<< KernelShift
def UserRead : BitVec 8 := 1#8 ||| KernelRead
def UserWrite : BitVec 8 := 2#8 ||| KernelWrite
def UserExecute : BitVec 8 := 4#8
def UserReadWrite : BitVec 8 := UserRead ||| UserWrite
def IpcLockChangeMask : BitVec 8 := NotMapped ||| UserReadWrite
end KMemoryPermission

namespace KMemoryAttribute
def None : BitVec 8 := 0
def Locked : BitVec 8 := 1#8 <<< 0
def IpcLocked : BitVec 8 := 1#8 <<< 1
def DeviceShared : BitVec 8 := 1#8 <<< 2
def Uncached : BitVec 8 := 1#8 <<< 3
end KMemoryAttribute

namespace KMemoryBlockDisableMergeAttribute
def None : BitVec 8 := 0
def Normal : BitVec 8 := 1#8 <<< 0
def DeviceLeft : BitVec 8 := 1#8 <<< 1
def IpcLeft : BitVec 8 := 1#8 <<< 2
def Locked : BitVec 8 := 1#8 <<< 3
def DeviceRight : BitVec 8 := 1#8 <<< 4
def AllLeft : BitVec 8 := Normal ||| DeviceLeft ||| IpcLeft ||| Locked
def AllRight : BitVec 8 := DeviceRight
end KMemoryBlockDisableMergeAttribute

open KMemoryBlockDisableMergeAttribute (IpcLeft DeviceLeft DeviceRight AllLeft AllRight)
open KMemoryAttribute (IpcLocked DeviceShared)

/-- The properties one page has: what a block says about each of its pages. -/
structure KMemoryProperties where
  memoryState : BitVec 32
  permission : BitVec 8
  originalPermission : BitVec 8
  memoryAttribute : BitVec 8
  ipcLockCount : BitVec 16
  deviceUseCount : BitVec 16
deriving DecidableEq, Repr

structure KMemoryBlock where
  deviceDisableMergeLeftCount : BitVec 16
  deviceDisableMergeRightCount : BitVec 16
  address : Nat
  numPages : Nat
  memoryState : BitVec 32
  ipcLockCount : BitVec 16
  deviceUseCount : BitVec 16
  ipcDisableMergeCount : BitVec 16
  permission : BitVec 8
  originalPermission : BitVec 8
  memoryAttribute : BitVec 8
  disableMergeAttribute : BitVec 8
deriving DecidableEq, Repr

namespace KMemoryBlock

def size (b : KMemoryBlock) : Nat := b.numPages * PageSize

def endAddress (b : KMemoryBlock) : Nat := b.address + b.size

def lastAddress (b : KMemoryBlock) : Nat := b.endAddress - 1

/-- The six properties of the block's pages. -/
def properties (b : KMemoryBlock) : KMemoryProperties where
  memoryState := b.memoryState
  permission := b.permission
  originalPermission := b.originalPermission
  memoryAttribute := b.memoryAttribute
  ipcLockCount := b.ipcLockCount
  deviceUseCount := b.deviceUseCount

/-- `Initialize` writes every field but `m_ipc_disable_merge_count`, which keeps the value the
    slab's block `b` had. -/
def init (b : KMemoryBlock) (addr np : Nat) (ms : BitVec 32) (p attr : BitVec 8) : KMemoryBlock :=
  { b with
    deviceDisableMergeLeftCount := 0
    deviceDisableMergeRightCount := 0
    address := addr
    numPages := np
    memoryState := ms
    ipcLockCount := 0
    deviceUseCount := 0
    permission := p
    originalPermission := KMemoryPermission.None
    memoryAttribute := attr
    disableMergeAttribute := KMemoryBlockDisableMergeAttribute.None }

def hasProperties (b : KMemoryBlock) (s : BitVec 32) (p a : BitVec 8) : Bool :=
  let AttributeIgnoreMask := IpcLocked ||| DeviceShared
  b.memoryState == s && b.permission == p &&
    (b.memoryAttribute ||| AttributeIgnoreMask) == (a ||| AttributeIgnoreMask)

def hasSameProperties (b rhs : KMemoryBlock) : Bool :=
  b.memoryState == rhs.memoryState && b.permission == rhs.permission &&
    b.originalPermission == rhs.originalPermission && b.memoryAttribute == rhs.memoryAttribute &&
    b.ipcLockCount == rhs.ipcLockCount && b.deviceUseCount == rhs.deviceUseCount

def canMergeWith (b rhs : KMemoryBlock) : Bool :=
  b.hasSameProperties rhs &&
    (b.disableMergeAttribute &&& AllRight) == KMemoryBlockDisableMergeAttribute.None &&
    (rhs.disableMergeAttribute &&& AllLeft) == KMemoryBlockDisableMergeAttribute.None

/-- `Add`: absorb the block to the right. -/
def add (b added : KMemoryBlock) : KMemoryBlock :=
  { b with
    numPages := b.numPages + added.numPages
    disableMergeAttribute := b.disableMergeAttribute ||| added.disableMergeAttribute
    deviceDisableMergeRightCount := added.deviceDisableMergeRightCount }

def updateAsserts (b : KMemoryBlock) : Bool :=
  b.originalPermission == KMemoryPermission.None &&
    (b.memoryAttribute &&& IpcLocked) == KMemoryAttribute.None

def update (b : KMemoryBlock) (s : BitVec 32) (p a : BitVec 8) (setDisableMergeAttr : Bool)
    (setMask clearMask : BitVec 8) : KMemoryBlock :=
  let dm := if setDisableMergeAttr ∧ setMask ≠ 0 then b.disableMergeAttribute ||| setMask
    else b.disableMergeAttribute
  { b with
    memoryState := s
    permission := p
    memoryAttribute := a ||| (b.memoryAttribute &&& (IpcLocked ||| DeviceShared))
    disableMergeAttribute := if clearMask ≠ 0 then dm &&& ~~~clearMask else dm }

def updateAttributeAsserts (mask : BitVec 8) : Bool :=
  (mask &&& IpcLocked) == KMemoryAttribute.None && (mask &&& DeviceShared) == KMemoryAttribute.None

def updateAttribute (b : KMemoryBlock) (mask attr : BitVec 8) : KMemoryBlock :=
  { b with memoryAttribute := (b.memoryAttribute &&& ~~~mask) ||| attr }

/-- `Split`: the new block (first component) takes the pages before `addr` and the left-hand
    bookkeeping, the block itself keeps the pages from `addr` on and the right-hand one. -/
def split (b : KMemoryBlock) (addr : Nat) : KMemoryBlock × KMemoryBlock :=
  let pages := (addr - b.address) / PageSize
  ({ b with
      numPages := pages
      disableMergeAttribute := b.disableMergeAttribute &&& AllLeft
      deviceDisableMergeRightCount := 0 },
   { b with
      address := addr
      numPages := b.numPages - pages
      ipcDisableMergeCount := 0
      deviceDisableMergeLeftCount := 0
      disableMergeAttribute := b.disableMergeAttribute &&& AllRight })

/-! ## The lock functions -/

def updateDeviceDisableMergeStateForShareLeft (b : KMemoryBlock) (left : Bool) : KMemoryBlock :=
  if left then
    { b with
      disableMergeAttribute := b.disableMergeAttribute ||| DeviceLeft
      deviceDisableMergeLeftCount := b.deviceDisableMergeLeftCount + 1 }
  else b

def updateDeviceDisableMergeStateForShareRight (b : KMemoryBlock) (right : Bool) : KMemoryBlock :=
  if right then
    { b with
      disableMergeAttribute := b.disableMergeAttribute ||| DeviceRight
      deviceDisableMergeRightCount := b.deviceDisableMergeRightCount + 1 }
  else b

def updateDeviceDisableMergeStateForShare (b : KMemoryBlock) (left right : Bool) : KMemoryBlock :=
  (b.updateDeviceDisableMergeStateForShareLeft left).updateDeviceDisableMergeStateForShareRight right

def shareToDevice (b : KMemoryBlock) (left right : Bool) : KMemoryBlock :=
  { b with
    deviceUseCount := b.deviceUseCount + 1
    memoryAttribute := b.memoryAttribute ||| DeviceShared }.updateDeviceDisableMergeStateForShare left right

def updateDeviceDisableMergeStateForUnshareLeft (b : KMemoryBlock) (left : Bool) : KMemoryBlock :=
  -- the early return of the source: nothing at all happens when the count is already zero
  if left ∧ b.deviceDisableMergeLeftCount = 0 then b
  else
    let count := if left then b.deviceDisableMergeLeftCount - 1 else b.deviceDisableMergeLeftCount
    let count := if b.deviceUseCount < count then b.deviceUseCount else count
    { b with
      deviceDisableMergeLeftCount := count
      disableMergeAttribute :=
        if count = 0 then b.disableMergeAttribute &&& ~~~DeviceLeft else b.disableMergeAttribute }

def updateDeviceDisableMergeStateForUnshareRight (b : KMemoryBlock) (right : Bool) : KMemoryBlock :=
  if right then
    { b with
      deviceDisableMergeRightCount := b.deviceDisableMergeRightCount - 1
      disableMergeAttribute :=
        if b.deviceDisableMergeRightCount = 1 then b.disableMergeAttribute &&& ~~~DeviceRight
        else b.disableMergeAttribute }
  else b

def updateDeviceDisableMergeStateForUnshare (b : KMemoryBlock) (left right : Bool) : KMemoryBlock :=
  (b.updateDeviceDisableMergeStateForUnshareLeft left).updateDeviceDisableMergeStateForUnshareRight
    right

/-- The use-count half that `UnshareToDevice` and `UnshareToDeviceRight` share. -/
def unshareCount (b : KMemoryBlock) : KMemoryBlock :=
  { b with
    deviceUseCount := b.deviceUseCount - 1
    memoryAttribute := if b.deviceUseCount = 1 then b.memoryAttribute &&& ~~~DeviceShared else b.memoryAttribute }

def unshareToDevice (b : KMemoryBlock) (left right : Bool) : KMemoryBlock :=
  b.unshareCount.updateDeviceDisableMergeStateForUnshare left right

def unshareToDeviceRight (b : KMemoryBlock) (right : Bool) : KMemoryBlock :=
  b.unshareCount.updateDeviceDisableMergeStateForUnshareRight right

def lockForIpc (b : KMemoryBlock) (newPerm : BitVec 8) (left : Bool) : KMemoryBlock :=
  -- the first lock saves the permission and restricts it
  let first := b.ipcLockCount + 1 = 1
  { b with
    ipcLockCount := b.ipcLockCount + 1
    originalPermission := if first then b.permission else b.originalPermission
    permission :=
      if first then
        (newPerm &&& KMemoryPermission.IpcLockChangeMask) |||
          (b.permission &&& ~~~KMemoryPermission.IpcLockChangeMask)
      else b.permission
    memoryAttribute := b.memoryAttribute ||| IpcLocked
    disableMergeAttribute :=
      if left then b.disableMergeAttribute ||| IpcLeft else b.disableMergeAttribute
    ipcDisableMergeCount :=
      if left then b.ipcDisableMergeCount + 1 else b.ipcDisableMergeCount }

def unlockForIpc (b : KMemoryBlock) (left : Bool) : KMemoryBlock :=
  -- the last unlock restores the saved permission
  let last := b.ipcLockCount = 1
  { b with
    ipcLockCount := b.ipcLockCount - 1
    permission := if last then b.originalPermission else b.permission
    originalPermission := if last then KMemoryPermission.None else b.originalPermission
    memoryAttribute := if last then b.memoryAttribute &&& ~~~IpcLocked else b.memoryAttribute
    ipcDisableMergeCount :=
      if left then b.ipcDisableMergeCount - 1 else b.ipcDisableMergeCount
    disableMergeAttribute :=
      if left ∧ b.ipcDisableMergeCount = 1 then b.disableMergeAttribute &&& ~~~IpcLeft
      else b.disableMergeAttribute }

end KMemoryBlock

/-- The members of `KMemoryBlock` that can be passed to `UpdateLock`. -/
inductive LockFunction where
  | shareToDevice
  | unshareToDevice
  | unshareToDeviceRight
  | lockForIpc
  | unlockForIpc
  | updateDeviceDisableMergeStateForShareLeft
  | updateDeviceDisableMergeStateForShareRight
  | updateDeviceDisableMergeStateForShare
  | updateDeviceDisableMergeStateForUnshareLeft
  | updateDeviceDisableMergeStateForUnshareRight
  | updateDeviceDisableMergeStateForUnshare
deriving DecidableEq, Repr

namespace LockFunction

/-- `(it->*lock_func)(perm, left, right)`. -/
def apply (f : LockFunction) (b : KMemoryBlock) (perm : BitVec 8) (left right : Bool) :
    KMemoryBlock :=
  match f with
  | .shareToDevice => b.shareToDevice left right
  | .unshareToDevice => b.unshareToDevice left right
  | .unshareToDeviceRight => b.unshareToDeviceRight right
  | .lockForIpc => b.lockForIpc perm left
  | .unlockForIpc => b.unlockForIpc left
  | .updateDeviceDisableMergeStateForShareLeft => b.updateDeviceDisableMergeStateForShareLeft left
  | .updateDeviceDisableMergeStateForShareRight =>
      b.updateDeviceDisableMergeStateForShareRight right
  | .updateDeviceDisableMergeStateForShare => b.updateDeviceDisableMergeStateForShare left right
  | .updateDeviceDisableMergeStateForUnshareLeft =>
      b.updateDeviceDisableMergeStateForUnshareLeft left
  | .updateDeviceDisableMergeStateForUnshareRight =>
      b.updateDeviceDisableMergeStateForUnshareRight right
  | .updateDeviceDisableMergeStateForUnshare =>
      b.updateDeviceDisableMergeStateForUnshare left right

/-- `ASSERT(new_device_disable_merge_left_count > 0)` and its right-hand twin. -/
def shareAsserts (b : KMemoryBlock) (left right : Bool) : Bool :=
  (!left || b.deviceDisableMergeLeftCount + 1 != 0) &&
    (!right || b.deviceDisableMergeRightCount + 1 != 0)

/-- `ASSERT(old_device_disable_merge_right_count > 0)`. -/
def unshareRightAsserts (b : KMemoryBlock) (right : Bool) : Bool :=
  !right || b.deviceDisableMergeRightCount != 0

/-- The assertions the lock function makes on the block it is called on. -/
def asserts (f : LockFunction) (b : KMemoryBlock) (perm : BitVec 8) (left right : Bool) : Bool :=
  match f with
  | .shareToDevice =>
      ((b.memoryAttribute &&& DeviceShared) == DeviceShared || b.deviceUseCount == 0) &&
        b.deviceUseCount + 1 != 0 && shareAsserts b left right
  | .unshareToDevice | .unshareToDeviceRight =>
      (b.memoryAttribute &&& DeviceShared) == DeviceShared && b.deviceUseCount != 0 &&
        unshareRightAsserts b right
  | .lockForIpc =>
      ((b.memoryAttribute &&& IpcLocked) == IpcLocked || b.ipcLockCount == 0) &&
        b.ipcLockCount + 1 != 0 &&
        (b.ipcLockCount + 1 != 1 ||
          (b.originalPermission == KMemoryPermission.None &&
            (b.permission ||| perm ||| KMemoryPermission.NotMapped) ==
              (b.permission ||| KMemoryPermission.NotMapped) &&
            ((b.permission &&& KMemoryPermission.UserExecute) != KMemoryPermission.UserExecute ||
              perm == KMemoryPermission.UserRead))) &&
        (!left || b.ipcDisableMergeCount + 1 != 0)
  | .unlockForIpc =>
      (b.memoryAttribute &&& IpcLocked) == IpcLocked && b.ipcLockCount != 0 &&
        (b.ipcLockCount != 1 || b.originalPermission != KMemoryPermission.None) &&
        (!left || b.ipcDisableMergeCount != 0)
  | .updateDeviceDisableMergeStateForShareLeft => shareAsserts b left false
  | .updateDeviceDisableMergeStateForShareRight => shareAsserts b false right
  | .updateDeviceDisableMergeStateForShare => shareAsserts b left right
  | .updateDeviceDisableMergeStateForUnshareLeft => true
  | .updateDeviceDisableMergeStateForUnshareRight
  | .updateDeviceDisableMergeStateForUnshare => unshareRightAsserts b right

end LockFunction

/-! ## What a method does to the six properties of a page

  The rules below are per page: a block method applies one of them to every page of the block. -/

namespace KMemoryProperties

def hasProperties (q : KMemoryProperties) (s : BitVec 32) (p a : BitVec 8) : Bool :=
  q.memoryState == s && q.permission == p &&
    (q.memoryAttribute ||| (IpcLocked ||| DeviceShared)) == (a ||| (IpcLocked ||| DeviceShared))

/-- `Update` on one page: the new attribute, with the old `IpcLocked`/`DeviceShared` bits. -/
def update (q : KMemoryProperties) (s : BitVec 32) (p a : BitVec 8) : KMemoryProperties :=
  { q with
    memoryState := s
    permission := p
    memoryAttribute := a ||| (q.memoryAttribute &&& (IpcLocked ||| DeviceShared)) }

/-- `UpdateAttribute` on one page. -/
def updateAttribute (q : KMemoryProperties) (mask attr : BitVec 8) : KMemoryProperties :=
  { q with memoryAttribute := (q.memoryAttribute &&& ~~~mask) ||| attr }

/-- `ShareToDevice` on one page. -/
def share (q : KMemoryProperties) : KMemoryProperties :=
  { q with
    deviceUseCount := q.deviceUseCount + 1
    memoryAttribute := q.memoryAttribute ||| DeviceShared }

/-- `UnshareToDevice` and `UnshareToDeviceRight` on one page. -/
def unshare (q : KMemoryProperties) : KMemoryProperties :=
  { q with
    deviceUseCount := q.deviceUseCount - 1
    memoryAttribute :=
      if q.deviceUseCount = 1 then q.memoryAttribute &&& ~~~DeviceShared else q.memoryAttribute }

/-- `LockForIpc` on one page. -/
def lockForIpc (q : KMemoryProperties) (newPerm : BitVec 8) : KMemoryProperties :=
  { q with
    ipcLockCount := q.ipcLockCount + 1
    originalPermission := if q.ipcLockCount + 1 = 1 then q.permission else q.originalPermission
    permission :=
      if q.ipcLockCount + 1 = 1 then
        (newPerm &&& KMemoryPermission.IpcLockChangeMask) |||
          (q.permission &&& ~~~KMemoryPermission.IpcLockChangeMask)
      else q.permission
    memoryAttribute := q.memoryAttribute ||| IpcLocked }

/-- `UnlockForIpc` on one page. -/
def unlockForIpc (q : KMemoryProperties) : KMemoryProperties :=
  { q with
    ipcLockCount := q.ipcLockCount - 1
    permission := if q.ipcLockCount = 1 then q.originalPermission else q.permission
    originalPermission :=
      if q.ipcLockCount = 1 then KMemoryPermission.None else q.originalPermission
    memoryAttribute :=
      if q.ipcLockCount = 1 then q.memoryAttribute &&& ~~~IpcLocked else q.memoryAttribute }

theorem update_eq_self {q : KMemoryProperties} {s : BitVec 32} {p a : BitVec 8}
    (h : q.hasProperties s p a = true) (ha : a &&& (IpcLocked ||| DeviceShared) = 0) :
    q.update s p a = q := by
  simp only [hasProperties, Bool.and_eq_true, beq_iff_eq] at h
  obtain ⟨⟨rfl, rfl⟩, hattr⟩ := h
  unfold update
  rw [Lib.Bits.or_and_mask_eq_self hattr ha]

theorem updateAttribute_eq_self {q : KMemoryProperties} {mask attr : BitVec 8}
    (h : q.memoryAttribute &&& mask = attr) : q.updateAttribute mask attr = q := by
  unfold updateAttribute
  rw [Lib.Bits.and_not_or_eq_self h]

/-- The lock attributes are backed by a count: `IpcLocked` by the IPC lock count, `DeviceShared`
    by the device use count (the two checks `CheckState` makes on a single block). -/
def Counted (q : KMemoryProperties) : Prop :=
  (q.memoryAttribute &&& IpcLocked ≠ 0 → q.ipcLockCount ≠ 0) ∧
    (q.memoryAttribute &&& DeviceShared ≠ 0 → q.deviceUseCount ≠ 0)

instance (q : KMemoryProperties) : Decidable q.Counted :=
  inferInstanceAs (Decidable ((_ → _) ∧ (_ → _)))

end KMemoryProperties

namespace LockFunction

/-- The page rule of a lock function; the functions that only touch merge bookkeeping do
    nothing to a page. -/
def rule (f : LockFunction) (perm : BitVec 8) (q : KMemoryProperties) : KMemoryProperties :=
  match f with
  | .shareToDevice => q.share
  | .unshareToDevice | .unshareToDeviceRight => q.unshare
  | .lockForIpc => q.lockForIpc perm
  | .unlockForIpc => q.unlockForIpc
  | .updateDeviceDisableMergeStateForShareLeft
  | .updateDeviceDisableMergeStateForShareRight
  | .updateDeviceDisableMergeStateForShare
  | .updateDeviceDisableMergeStateForUnshareLeft
  | .updateDeviceDisableMergeStateForUnshareRight
  | .updateDeviceDisableMergeStateForUnshare => q

end LockFunction

namespace KMemoryBlock

theorem hasProperties_eq (b : KMemoryBlock) (s : BitVec 32) (p a : BitVec 8) :
    b.hasProperties s p a = b.properties.hasProperties s p a := rfl

theorem hasSameProperties_iff {b c : KMemoryBlock} :
    b.hasSameProperties c = true ↔ b.properties = c.properties := by
  simp only [hasSameProperties, Bool.and_eq_true, beq_iff_eq, properties,
    KMemoryProperties.mk.injEq]
  tauto

/-! ### The merge bookkeeping never touches a page -/

section Bookkeeping

variable (b : KMemoryBlock) (left right : Bool)

/-- Two blocks differ at most in their merge bookkeeping. -/
def SamePages (b c : KMemoryBlock) : Prop :=
  c.address = b.address ∧ c.numPages = b.numPages ∧ c.properties = b.properties

theorem SamePages.trans {b c d : KMemoryBlock} (h : b.SamePages c) (h' : c.SamePages d) :
    b.SamePages d :=
  ⟨h'.1.trans h.1, h'.2.1.trans h.2.1, h'.2.2.trans h.2.2⟩

theorem shareLeft_samePages : b.SamePages (b.updateDeviceDisableMergeStateForShareLeft left) := by
  unfold updateDeviceDisableMergeStateForShareLeft
  split <;> exact ⟨rfl, rfl, rfl⟩

theorem shareRight_samePages :
    b.SamePages (b.updateDeviceDisableMergeStateForShareRight right) := by
  unfold updateDeviceDisableMergeStateForShareRight
  split <;> exact ⟨rfl, rfl, rfl⟩

theorem share_samePages : b.SamePages (b.updateDeviceDisableMergeStateForShare left right) :=
  (b.shareLeft_samePages left).trans (shareRight_samePages _ right)

theorem unshareLeft_samePages :
    b.SamePages (b.updateDeviceDisableMergeStateForUnshareLeft left) := by
  unfold updateDeviceDisableMergeStateForUnshareLeft
  split <;> exact ⟨rfl, rfl, rfl⟩

theorem unshareRight_samePages :
    b.SamePages (b.updateDeviceDisableMergeStateForUnshareRight right) := by
  unfold updateDeviceDisableMergeStateForUnshareRight
  split <;> exact ⟨rfl, rfl, rfl⟩

theorem unshare_samePages : b.SamePages (b.updateDeviceDisableMergeStateForUnshare left right) :=
  (b.unshareLeft_samePages left).trans (unshareRight_samePages _ right)

end Bookkeeping

end KMemoryBlock

namespace LockFunction

theorem apply_spec (f : LockFunction) (b : KMemoryBlock) (perm : BitVec 8) (left right : Bool) :
    (f.apply b perm left right).address = b.address ∧
      (f.apply b perm left right).numPages = b.numPages ∧
      (f.apply b perm left right).properties = f.rule perm b.properties := by
  cases f with
  | shareToDevice => exact KMemoryBlock.share_samePages _ left right
  | unshareToDevice => exact KMemoryBlock.unshare_samePages b.unshareCount left right
  | unshareToDeviceRight => exact KMemoryBlock.unshareRight_samePages b.unshareCount right
  | lockForIpc => exact ⟨rfl, rfl, rfl⟩
  | unlockForIpc => exact ⟨rfl, rfl, rfl⟩
  | updateDeviceDisableMergeStateForShareLeft => exact b.shareLeft_samePages left
  | updateDeviceDisableMergeStateForShareRight => exact b.shareRight_samePages right
  | updateDeviceDisableMergeStateForShare => exact b.share_samePages left right
  | updateDeviceDisableMergeStateForUnshareLeft => exact b.unshareLeft_samePages left
  | updateDeviceDisableMergeStateForUnshareRight => exact b.unshareRight_samePages right
  | updateDeviceDisableMergeStateForUnshare => exact b.unshare_samePages left right

end LockFunction

/-! ## Counts behind the lock attributes -/

theorem and_ipcLocked_ne_zero {x : BitVec 8} : x &&& IpcLocked ≠ 0 ↔ x.getLsbD 1 = true := by
  rw [show IpcLocked = BitVec.twoPow 8 1 by decide, BitVec.and_twoPow]
  split
  · next h => exact ⟨fun _ => h, fun _ => by decide⟩
  · next h => exact ⟨fun hn => absurd rfl hn, fun ht => absurd ht h⟩

theorem and_deviceShared_ne_zero {x : BitVec 8} : x &&& DeviceShared ≠ 0 ↔ x.getLsbD 2 = true := by
  rw [show DeviceShared = BitVec.twoPow 8 2 by decide, BitVec.and_twoPow]
  split
  · next h => exact ⟨fun _ => h, fun _ => by decide⟩
  · next h => exact ⟨fun hn => absurd rfl hn, fun ht => absurd ht h⟩

namespace KMemoryProperties

theorem counted_iff {q : KMemoryProperties} : q.Counted ↔
    (q.memoryAttribute.getLsbD 1 = true → q.ipcLockCount ≠ 0) ∧
      (q.memoryAttribute.getLsbD 2 = true → q.deviceUseCount ≠ 0) := by
  unfold Counted
  rw [and_ipcLocked_ne_zero, and_deviceShared_ne_zero]

theorem Counted.update {q : KMemoryProperties} {s : BitVec 32} {p a : BitVec 8}
    (ha : a &&& (IpcLocked ||| DeviceShared) = 0) (h : q.Counted) : (q.update s p a).Counted := by
  have h1 := congrArg (·.getLsbD 1) ha
  have h2 := congrArg (·.getLsbD 2) ha
  rw [counted_iff] at h ⊢
  simp [KMemoryProperties.update, IpcLocked, DeviceShared] at h1 h2 ⊢
  simpa [h1, h2] using h

theorem Counted.updateAttribute {q : KMemoryProperties} {mask attr : BitVec 8}
    (ha : attr &&& (IpcLocked ||| DeviceShared) = 0) (h : q.Counted) :
    (q.updateAttribute mask attr).Counted := by
  have h1 := congrArg (·.getLsbD 1) ha
  have h2 := congrArg (·.getLsbD 2) ha
  rw [counted_iff] at h ⊢
  simp [KMemoryProperties.updateAttribute, IpcLocked, DeviceShared] at h1 h2 ⊢
  simp only [h1, h2, Bool.false_eq_true, or_false, and_imp]
  exact ⟨fun hb _ => h.1 hb, fun hb _ => h.2 hb⟩

end KMemoryProperties

theorem sub_one_ne_zero {c : BitVec 16} (h1 : c ≠ 1) : c - 1 ≠ 0 := by
  intro h
  apply h1
  bv_omega

theorem LockFunction.counted_rule (f : LockFunction) {b : KMemoryBlock} {perm : BitVec 8}
    {left right : Bool} (ha : f.asserts b perm left right = true) (h : b.properties.Counted) :
    (f.rule perm b.properties).Counted := by
  rw [KMemoryProperties.counted_iff] at h ⊢
  obtain ⟨hipc, hdev⟩ := h
  cases f with
  | shareToDevice =>
    simp only [asserts, Bool.and_eq_true, bne_iff_ne] at ha
    refine ⟨fun hb => hipc ?_, fun _ => ha.1.2⟩
    simpa [rule, KMemoryProperties.share, DeviceShared] using hb
  | unshareToDevice | unshareToDeviceRight =>
    simp only [rule, KMemoryProperties.unshare]
    split
    · refine ⟨fun hb => hipc ?_, fun hb => ?_⟩
      · simpa [DeviceShared] using hb
      · simp [DeviceShared] at hb
    · next h1 => exact ⟨hipc, fun _ => sub_one_ne_zero h1⟩
  | lockForIpc =>
    simp only [asserts, Bool.and_eq_true, bne_iff_ne] at ha
    refine ⟨fun _ => ha.1.1.2, fun hb => hdev ?_⟩
    simpa [rule, KMemoryProperties.lockForIpc, IpcLocked] using hb
  | unlockForIpc =>
    simp only [rule, KMemoryProperties.unlockForIpc]
    split
    · refine ⟨fun hb => ?_, fun hb => hdev ?_⟩
      · simp [IpcLocked] at hb
      · simpa [IpcLocked] using hb
    · next h1 => exact ⟨fun _ => sub_one_ne_zero h1, hdev⟩
  | updateDeviceDisableMergeStateForShareLeft | updateDeviceDisableMergeStateForShareRight
  | updateDeviceDisableMergeStateForShare | updateDeviceDisableMergeStateForUnshareLeft
  | updateDeviceDisableMergeStateForUnshareRight | updateDeviceDisableMergeStateForUnshare =>
    exact ⟨hipc, hdev⟩

/-! ## What a neighbour sees: the two edges of a block

  `CanMergeWith` reads the properties of both blocks, the right-hand bits of the left one and the
  left-hand bits of the right one.  Splitting and merging keep the outer edges. -/

namespace KMemoryBlock

/-- What the block to the left sees. -/
def leftEdge (b : KMemoryBlock) : KMemoryProperties × BitVec 8 :=
  (b.properties, b.disableMergeAttribute &&& AllLeft)

/-- What the block to the right sees. -/
def rightEdge (b : KMemoryBlock) : KMemoryProperties × BitVec 8 :=
  (b.properties, b.disableMergeAttribute &&& AllRight)

variable {b c : KMemoryBlock}

theorem canMergeWith_iff : b.canMergeWith c = true ↔
    b.properties = c.properties ∧ b.rightEdge.2 = 0 ∧ c.leftEdge.2 = 0 := by
  simp only [canMergeWith, Bool.and_eq_true, beq_iff_eq, hasSameProperties_iff, and_assoc]; rfl

theorem canMergeWith_congr {b' c' : KMemoryBlock} (hb : b.rightEdge = b'.rightEdge)
    (hc : c.leftEdge = c'.leftEdge) : b.canMergeWith c = b'.canMergeWith c' := by
  have hbp : b.properties = b'.properties := congrArg Prod.fst hb
  have hcp : c.properties = c'.properties := congrArg Prod.fst hc
  rw [Bool.eq_iff_iff, canMergeWith_iff, canMergeWith_iff, hb, hc, hbp, hcp]

section Split

variable {b : KMemoryBlock} {addr : Nat}

theorem split_fst_properties : (b.split addr).1.properties = b.properties := rfl

theorem split_snd_properties : (b.split addr).2.properties = b.properties := rfl

theorem split_fst_leftEdge : (b.split addr).1.leftEdge = b.leftEdge :=
  Prod.ext rfl Lib.Bits.and_and_self_right

theorem split_snd_rightEdge : (b.split addr).2.rightEdge = b.rightEdge :=
  Prod.ext rfl Lib.Bits.and_and_self_right

theorem split_bounds (hlo : b.address < addr) (hhi : addr < b.endAddress)
    (hdvd : PageSize ∣ addr - b.address) :
    (b.split addr).1.address = b.address ∧ (b.split addr).1.endAddress = addr ∧
      (b.split addr).2.address = addr ∧ (b.split addr).2.endAddress = b.endAddress := by
  obtain ⟨k, hk⟩ := hdvd
  have hpos : 0 < PageSize := by decide
  have hdiv : (addr - b.address) / PageSize = k := by
    rw [hk, Nat.mul_div_cancel_left _ hpos]
  refine ⟨rfl, ?_, rfl, ?_⟩
  · show b.address + (addr - b.address) / PageSize * PageSize = addr
    rw [hdiv, Nat.mul_comm, ← hk]
    omega
  · show addr + (b.numPages - (addr - b.address) / PageSize) * PageSize = b.endAddress
    rw [hdiv, Nat.sub_mul, Nat.mul_comm k, ← hk]
    unfold endAddress size at hhi ⊢; omega

end Split

theorem add_properties (b c : KMemoryBlock) : (b.add c).properties = b.properties := rfl

theorem add_endAddress (h : b.endAddress = c.address) : (b.add c).endAddress = c.endAddress := by
  simp only [endAddress, size, add] at h ⊢
  rw [Nat.add_mul]
  omega

theorem add_leftEdge (h : b.canMergeWith c = true) : (b.add c).leftEdge = b.leftEdge :=
  Prod.ext rfl (Lib.Bits.or_and_of_and_eq_zero (canMergeWith_iff.1 h).2.2)

theorem add_rightEdge (h : b.canMergeWith c = true) : (b.add c).rightEdge = c.rightEdge :=
  Prod.ext (canMergeWith_iff.1 h).1 (Lib.Bits.or_and_of_and_eq_zero' (canMergeWith_iff.1 h).2.1)

end KMemoryBlock

end Suyu.Kernel
