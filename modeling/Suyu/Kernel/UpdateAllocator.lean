import Mathlib
import Suyu.Kernel.MemoryBlockRuns
import Suyu.Kernel.PageHeap

/-
  KMemoryBlockManagerUpdateAllocator - the blocks an update may need are allocated beforehand.

  1. **Program** - `CheckMemoryState` and `CheckMemoryStateContiguous` walk over a range and return
     how many blocks an update of it needs; the allocator takes that many from the slab, and the update
     loops call `Allocate` whenever they cut a block.  `MapMemory`, `UnmapMemory`, `MapCodeMemory` and
     `UnmapCodeMemory` check TWO ranges, make both allocators, and only then update one range after the
     other.

  2. **Specification (`NeverDry`)** - an update calls `Allocate` no more often than the allocator has
     blocks, so both assertions of `Allocate` hold every time.

  3. **The crux** - a range needs a block for each of its two ends that is not a boundary of the tree
     (`blocksNeeded`), and an update cuts only there (`Updated.allocations_le`).  The first of two
     updates adds boundaries; it can only remove one by merging, which happens in or at its own range
     (`boundary_run`), and where the two ranges touch the pages on both sides are in different states
     (`Tiled.boundary_of_ne`).

  The checks fail with one result only, `ResultInvalidCurrentMemory`: `none`.  What the four operations
  check and do outside the tree (regions, page groups, the page table) succeeds or does not: `others`.
-/

namespace Suyu.Kernel

open Lib.Tiling
open KMemoryAttribute (IpcLocked DeviceShared)

/-! ## Program -/

namespace KMemoryState
def None : BitVec 32 := 0
def All : BitVec 32 := ~~~None
def FlagCanAlias : BitVec 32 := 1#32 <<< 15
def FlagCanCodeAlias : BitVec 32 := 1#32 <<< 16
def AliasCode : BitVec 32 := 0x04DD7E08
def Stack : BitVec 32 := 0x045C3C0B
end KMemoryState

namespace KMemoryPermission
def All : BitVec 8 := ~~~None
end KMemoryPermission

namespace KMemoryAttribute
def All : BitVec 8 := 0xFF
def PermissionLocked : BitVec 8 := 1#8 <<< 4
end KMemoryAttribute

/-- The masks and the values to find behind them. -/
structure StateCheck where
  stateMask : BitVec 32
  state : BitVec 32
  permMask : BitVec 8
  perm : BitVec 8
  attrMask : BitVec 8
  attr : BitVec 8

/-- `CheckMemoryState` of one `KMemoryInfo`. -/
def StateCheck.check (k : StateCheck) (info : KMemoryBlock) : Bool :=
  (info.memoryState &&& k.stateMask) == k.state &&
    (info.permission &&& k.permMask) == k.perm &&
    (info.memoryAttribute &&& k.attrMask) == k.attr

/-- The loop of both checks, from the iterator on: the block in which the range ends. -/
def checkLoop (valid : KMemoryBlock → Bool) (lastAddr : Nat) :
    List KMemoryBlock → Option KMemoryBlock
  | [] => none
  | info :: rest =>
      if valid info then
        if lastAddr ≤ info.lastAddress then some info else checkLoop valid lastAddr rest
      else none

def defaultMemoryIgnoreAttr : BitVec 8 := IpcLocked ||| DeviceShared

/-- What `CheckMemoryState` writes to its output arguments. -/
structure CheckedState where
  state : BitVec 32
  perm : BitVec 8
  attr : BitVec 8
  blocksNeeded : Nat

namespace KMemoryBlockManager

def checkMemoryStateContiguous (m : KMemoryBlockManager) (addr size : Nat) (k : StateCheck) :
    Option Nat :=
  match (findIterator m.memoryBlockTree addr).2 with
  | [] => none
  | it :: rest =>
      let blocksForStartAlign := if alignDown addr PageSize ≠ it.address then 1 else 0
      (checkLoop k.check (addr + size - 1) (it :: rest)).map fun info =>
        blocksForStartAlign + if alignUp (addr + size) PageSize ≠ info.endAddress then 1 else 0

/-- The block has the state, the permission and, but for `ignoreAttr`, the attribute of the first one. -/
def sameAsFirst (first : KMemoryBlock) (ignoreAttr : BitVec 8) (info : KMemoryBlock) : Bool :=
  info.memoryState == first.memoryState && info.permission == first.permission &&
    (info.memoryAttribute ||| ignoreAttr) == (first.memoryAttribute ||| ignoreAttr)

def checkMemoryState (m : KMemoryBlockManager) (addr size : Nat) (k : StateCheck)
    (ignoreAttr : BitVec 8) : Option CheckedState :=
  let lastAddr := addr + size - 1
  match (findIterator m.memoryBlockTree addr).2 with
  | [] => none
  | it :: rest =>
      (checkLoop (fun info => sameAsFirst it ignoreAttr info && k.check info) lastAddr
        (it :: rest)).map fun info =>
        let blocksForEndAlign :=
          if alignDown lastAddr PageSize + PageSize ≠ info.endAddress then 1 else 0
        { state := it.memoryState
          perm := it.permission
          attr := it.memoryAttribute &&& ~~~ignoreAttr
          blocksNeeded := if alignDown addr PageSize ≠ it.address then blocksForEndAlign + 1
            else blocksForEndAlign }

end KMemoryBlockManager

/-- `KMemoryBlockManagerUpdateAllocator`, with blocks of any type. -/
structure UpdateAllocator (β : Type) where
  blocks : List (Option β)
  index : Nat

namespace UpdateAllocator

variable {β : Type}

def maxBlocks : Nat := 2

/-- `Allocate the blocks.`, from the place `i` on; `slab` are the blocks the slab manager has. -/
def fill : Nat → Nat → List (Option β) → List β → Option (List (Option β) × List β)
  | 0, _, blocks, slab => some (blocks, slab)
  | _ + 1, _, _, [] => none
  | count + 1, i, blocks, block :: slab => fill count (i + 1) (blocks.set i (some block)) slab

/-- `Initialize`; `none` is `ResultOutOfResource`. -/
def create (numBlocks : Nat) (slab : List β) : Option (UpdateAllocator β × List β) :=
  let index := maxBlocks - numBlocks
  (fill (min numBlocks maxBlocks) index (List.replicate maxBlocks none) slab).map fun r =>
    (⟨r.1, index⟩, r.2)

/-- `Allocate`; `none` if one of its assertions fails. -/
def allocate (a : UpdateAllocator β) : Option (β × UpdateAllocator β) :=
  match a.blocks[a.index]? with
  | some (some block) => some (block, ⟨a.blocks.set a.index none, a.index + 1⟩)
  | _ => none

/-- The calls of `Allocate` of one update loop: no block is freed before the loop has ended. -/
def allocateTimes : Nat → UpdateAllocator β → Option (UpdateAllocator β)
  | 0, a => some a
  | count + 1, a => a.allocate.bind fun r => allocateTimes count r.2

end UpdateAllocator

/-! ### The operations on two ranges -/

/-- An update with its allocator. -/
structure AllocatedUpdate (β : Type) where
  numBlocks : Nat
  allocator : UpdateAllocator β
  result : UpdateResult

/-- The updates of an operation.  There is no second one when the first has walked off the tree. -/
structure TwoUpdates (β : Type) where
  first : AllocatedUpdate β
  second : Option (AllocatedUpdate β)

section Operations

variable {β : Type}

/-- The allocators are made, source first, and the two ranges are updated, `first` before `second`. -/
def updateBoth (m : KMemoryBlockManager) (slab : List β) (numSrc numDst : Nat)
    (srcFirst : Bool) (src dst : Call) : Option (TwoUpdates β) :=
  (UpdateAllocator.create numSrc slab).bind fun srcAllocator =>
    (UpdateAllocator.create numDst srcAllocator.2).map fun dstAllocator =>
      let updateSrc (m : KMemoryBlockManager) : AllocatedUpdate β :=
        ⟨numSrc, srcAllocator.1, m.updateBlocks src.address src.numPages src.rule⟩
      let updateDst (m : KMemoryBlockManager) : AllocatedUpdate β :=
        ⟨numDst, dstAllocator.1, m.updateBlocks dst.address dst.numPages dst.rule⟩
      if srcFirst then ⟨updateSrc m, (src.run m).map fun r => updateDst r.1⟩
      else ⟨updateDst m, (dst.run m).map fun r => updateSrc r.1⟩

/-- The permission of memory that is mapped elsewhere. -/
def aliasedPerm : BitVec 8 := KMemoryPermission.KernelRead ||| KMemoryPermission.NotMapped

/-- The check for memory that is not mapped. -/
def freeCheck : StateCheck :=
  ⟨KMemoryState.All, KMemoryState.Free, KMemoryPermission.None, KMemoryPermission.None,
    KMemoryAttribute.None, KMemoryAttribute.None⟩

def mapMemory (m : KMemoryBlockManager) (slab : List β) (others : Bool)
    (dstAddress srcAddress size : Nat) : Option (TwoUpdates β) := do
  let src ← m.checkMemoryState srcAddress size
    ⟨KMemoryState.FlagCanAlias, KMemoryState.FlagCanAlias, KMemoryPermission.All,
      KMemoryPermission.UserReadWrite, KMemoryAttribute.All, KMemoryAttribute.None⟩
    defaultMemoryIgnoreAttr
  let dst ← m.checkMemoryState dstAddress size freeCheck defaultMemoryIgnoreAttr
  guard others
  let numPages := size / PageSize
  updateBoth m slab src.blocksNeeded dst.blocksNeeded true
    (.update srcAddress numPages src.state aliasedPerm KMemoryAttribute.Locked
      KMemoryBlockDisableMergeAttribute.Locked KMemoryBlockDisableMergeAttribute.None)
    (.update dstAddress numPages KMemoryState.Stack KMemoryPermission.UserReadWrite
      KMemoryAttribute.None KMemoryBlockDisableMergeAttribute.Normal
      KMemoryBlockDisableMergeAttribute.None)

def unmapMemory (m : KMemoryBlockManager) (slab : List β) (others : Bool)
    (dstAddress srcAddress size : Nat) : Option (TwoUpdates β) := do
  let src ← m.checkMemoryState srcAddress size
    ⟨KMemoryState.FlagCanAlias, KMemoryState.FlagCanAlias, KMemoryPermission.All,
      KMemoryPermission.NotMapped ||| KMemoryPermission.KernelRead, KMemoryAttribute.All,
      KMemoryAttribute.Locked⟩
    defaultMemoryIgnoreAttr
  let dst ← m.checkMemoryState dstAddress size
    ⟨KMemoryState.All, KMemoryState.Stack, KMemoryPermission.None, KMemoryPermission.None,
      KMemoryAttribute.All, KMemoryAttribute.None⟩
    defaultMemoryIgnoreAttr
  guard others
  let numPages := size / PageSize
  updateBoth m slab src.blocksNeeded dst.blocksNeeded true
    (.update srcAddress numPages src.state KMemoryPermission.UserReadWrite KMemoryAttribute.None
      KMemoryBlockDisableMergeAttribute.None KMemoryBlockDisableMergeAttribute.Locked)
    (.update dstAddress numPages KMemoryState.None KMemoryPermission.None KMemoryAttribute.None
      KMemoryBlockDisableMergeAttribute.None KMemoryBlockDisableMergeAttribute.Normal)

def mapCodeMemory (m : KMemoryBlockManager) (slab : List β) (others : Bool)
    (dstAddress srcAddress size : Nat) : Option (TwoUpdates β) := do
  let src ← m.checkMemoryState srcAddress size
    ⟨KMemoryState.All, KMemoryState.Normal, KMemoryPermission.All,
      KMemoryPermission.UserReadWrite, KMemoryAttribute.All, KMemoryAttribute.None⟩
    defaultMemoryIgnoreAttr
  let dst ← m.checkMemoryState dstAddress size freeCheck defaultMemoryIgnoreAttr
  guard others
  let numPages := size / PageSize
  updateBoth m slab src.blocksNeeded dst.blocksNeeded true
    (.update srcAddress numPages src.state aliasedPerm KMemoryAttribute.Locked
      KMemoryBlockDisableMergeAttribute.Locked KMemoryBlockDisableMergeAttribute.None)
    (.update dstAddress numPages KMemoryState.AliasCode aliasedPerm KMemoryAttribute.None
      KMemoryBlockDisableMergeAttribute.Normal KMemoryBlockDisableMergeAttribute.None)

/-- The only one that updates the destination first. -/
def unmapCodeMemory (m : KMemoryBlockManager) (slab : List β) (others : Bool)
    (dstAddress srcAddress size : Nat) : Option (TwoUpdates β) := do
  let src ← m.checkMemoryState srcAddress size
    ⟨KMemoryState.All, KMemoryState.Normal, KMemoryPermission.None, KMemoryPermission.None,
      KMemoryAttribute.All, KMemoryAttribute.Locked⟩
    defaultMemoryIgnoreAttr
  let numDst ← m.checkMemoryStateContiguous dstAddress size
    ⟨KMemoryState.FlagCanCodeAlias, KMemoryState.FlagCanCodeAlias, KMemoryPermission.None,
      KMemoryPermission.None, KMemoryAttribute.All &&& ~~~KMemoryAttribute.PermissionLocked,
      KMemoryAttribute.None⟩
  guard others
  let numPages := size / PageSize
  updateBoth m slab src.blocksNeeded numDst false
    (.update srcAddress numPages KMemoryState.Normal KMemoryPermission.UserReadWrite
      KMemoryAttribute.None KMemoryBlockDisableMergeAttribute.None
      KMemoryBlockDisableMergeAttribute.Locked)
    (.update dstAddress numPages KMemoryState.None KMemoryPermission.None KMemoryAttribute.None
      KMemoryBlockDisableMergeAttribute.None KMemoryBlockDisableMergeAttribute.Normal)

end Operations

/-! ## How many blocks a range needs -/

section Needed

variable {rule : UpdateRule} {E cur : Nat} {l l' : List KMemoryBlock} {n : Nat} {ok : Bool}

/-- `x` is a boundary of the blocks that tile the space up to `e`. -/
def IsBoundaryOf (l : List KMemoryBlock) (e x : Nat) : Prop := x = e ∨ ∃ b ∈ l, b.address = x

instance decidableIsBoundaryOf (l : List KMemoryBlock) (e x : Nat) : Decidable (IsBoundaryOf l e x) :=
  inferInstanceAs (Decidable (_ ∨ _))

theorem isBoundary_of_lt {e x : Nat} {b : KMemoryBlock} (h : IsBoundaryOf (b :: l) e x)
    (hlt : b.address < x) : IsBoundaryOf l e x := by
  refine h.imp_right ?_
  rintro ⟨c, hc, rfl⟩
  rcases List.mem_cons.1 hc with rfl | hc
  · omega
  · exact ⟨c, hc, rfl⟩

theorem isBoundary_cons {e x : Nat} (b : KMemoryBlock) (h : IsBoundaryOf l e x) :
    IsBoundaryOf (b :: l) e x := by
  refine h.imp_right ?_
  rintro ⟨c, hc, hx⟩
  exact ⟨c, List.mem_cons_of_mem _ hc, hx⟩

theorem not_isBoundary_of_inside {a e x : Nat} {b : KMemoryBlock} (hl : BlocksTile a e l)
    (hb : b ∈ l) (hlo : b.address < x) (hhi : x < b.endAddress) : ¬ IsBoundaryOf l e x := by
  induction l generalizing a with
  | nil => cases hb
  | cons c l ih =>
    rintro hx
    have hle := hl.2.2.le
    rcases List.mem_cons.1 hb with rfl | hb
    · rcases hx with rfl | ⟨d, hd, rfl⟩
      · omega
      · rcases List.mem_cons.1 hd with rfl | hd
        · omega
        · have := (hl.2.2.bounds hd).1
          omega
    · have hc := (hl.2.2.bounds hb).1
      have hcl := hl.1
      have hcr := hl.2.1
      exact ih hl.2.2 hb (isBoundary_of_lt hx (by omega))

/-- One block for each end of the range that is not a boundary. -/
def needed (a e cur E : Nat) (l : List KMemoryBlock) : Nat :=
  (if cur ≤ a then 0 else 1) + if IsBoundaryOf l e E then 0 else 1

theorem needed_of_isBoundary {a e : Nat} (h : IsBoundaryOf l e E) :
    needed a e cur E l = if cur ≤ a then 0 else 1 := by
  unfold needed
  rw [if_pos h, Nat.add_zero]

theorem needed_cons_le {a e : Nat} {b : KMemoryBlock} (hlt : b.address < E) :
    needed b.endAddress e b.endAddress E l ≤ needed a e cur E (b :: l) := by
  unfold needed
  rw [if_pos (Nat.le_refl _)]
  by_cases h : IsBoundaryOf (b :: l) e E
  · rw [if_pos h, if_pos (isBoundary_of_lt h hlt)]
    omega
  · rw [if_neg h]
    split <;> omega

/-- **The loop cuts at the two ends only.** -/
theorem Updated.allocations_le (h : Updated rule E cur l l' n ok) : ∀ {a e : Nat},
    BlocksTile a e l → n ≤ needed a e cur E l := by
  induction h with
  | done h => intro a e _; exact Nat.zero_le _
  | skipLast hs hlo hhi => intro a e _; exact Nat.zero_le _
  | skip hs hlo hcur hhi h ih =>
    intro a e hl; exact (ih hl.2.2).trans (needed_cons_le (by omega))
  | @cutBefore cur it rest l' n ok hs hlo hhi hdvd hE h ih =>
    intro a e hl
    have hih := ih (tiles_split_snd hl hlo hhi hdvd)
    have hsnd := (KMemoryBlock.split_bounds hlo hhi hdvd).2.2.1
    have ha := hl.1
    -- the front is paid for the start of the range
    have hend : IsBoundaryOf (it :: rest) e E → IsBoundaryOf ((it.split cur).2 :: rest) e E :=
      fun hb => isBoundary_cons _ (isBoundary_of_lt hb (by omega))
    unfold needed at hih ⊢
    rw [if_pos (Nat.le_refl _)] at hih
    rw [if_neg (by omega)]
    by_cases hb : IsBoundaryOf (it :: rest) e E
    · rw [if_pos (hend hb)] at hih
      rw [if_pos hb]
      omega
    · rw [if_neg hb]
      split at hih <;> omega
  | @cutAfter cur it rest l' n ok hlo hcur hhi hdvd h ih =>
    intro a e hl
    have hih := ih (tiles_split hl (by omega) hhi hdvd)
    have hsnd := (KMemoryBlock.split_bounds (show it.address < E by omega) hhi hdvd).2.2.1
    -- the back is paid for the end of the range, which is no boundary before and one after
    have hb : IsBoundaryOf ((it.split E).1 :: (it.split E).2 :: rest) e E :=
      isBoundary_cons _ (.inr ⟨_, List.mem_cons_self, hsnd⟩)
    have hno : ¬ IsBoundaryOf (it :: rest) e E :=
      not_isBoundary_of_inside hl List.mem_cons_self (by omega) hhi
    rw [needed_of_isBoundary hb] at hih
    unfold needed
    rw [if_neg hno]; omega
  | apply hs hlo hcur hhi h ih =>
    intro a e hl; exact (ih hl.2.2).trans (needed_cons_le (by omega))

end Needed

namespace KMemoryBlockManager

section Range

variable {m : KMemoryBlockManager} {address numPages : Nat}

/-- The address is a boundary of the tree. -/
def HasBoundary (m : KMemoryBlockManager) (x : Nat) : Prop :=
  IsBoundaryOf m.memoryBlockTree m.endAddress x

instance decidableHasBoundary (m : KMemoryBlockManager) (x : Nat) : Decidable (m.HasBoundary x) :=
  decidableIsBoundaryOf _ _ _

/-- One block for each end of the range that is not a boundary of the tree. -/
def blocksNeeded (m : KMemoryBlockManager) (address numPages : Nat) : Nat :=
  (if m.HasBoundary address then 0 else 1) +
    if m.HasBoundary (address + numPages * PageSize) then 0 else 1

theorem blocksNeeded_le (m : KMemoryBlockManager) (address numPages : Nat) :
    m.blocksNeeded address numPages ≤ 2 := by
  unfold blocksNeeded
  split <;> split <;> omega

theorem hasBoundary_start_iff {pre post : List KMemoryBlock} {it : KMemoryBlock} (hm : m.Tiled)
    (htree : m.memoryBlockTree = pre ++ it :: post) (hlo : it.address ≤ address)
    (hhi : address < it.endAddress) : m.HasBoundary address ↔ it.address = address := by
  have hmem : it ∈ m.memoryBlockTree := by
    rw [htree]; exact List.mem_append_right _ List.mem_cons_self
  constructor
  · intro h
    by_contra hne
    exact not_isBoundary_of_inside hm.tiles hmem (by omega) hhi h
  · intro h; exact .inr ⟨it, hmem, h⟩

theorem hasBoundary_stop_iff {b : KMemoryBlock} {x : Nat} (hm : m.Tiled)
    (hb : b ∈ m.memoryBlockTree) (hlo : b.address < x) (hhi : x ≤ b.endAddress) :
    m.HasBoundary x ↔ b.endAddress = x := by
  constructor
  · intro h
    by_contra hne
    exact not_isBoundary_of_inside hm.tiles hb hlo (by omega) h
  · rintro rfl
    obtain ⟨pre, post, htree⟩ := List.append_of_mem hb
    obtain ⟨a, -, hpost⟩ := (tiles_append_iff pre).1 (htree ▸ hm.tiles)
    unfold HasBoundary
    rw [htree]
    cases post with
    | nil => exact .inl hpost.2.2
    | cons c post =>
      refine .inr ⟨c, ?_, hpost.2.2.1⟩
      exact List.mem_append_right _ (List.mem_cons_of_mem _ List.mem_cons_self)

theorem updateBlocks_allocations_le (rule : UpdateRule) (hm : m.Tiled)
    (hr : m.InRange address numPages) :
    (m.updateBlocks address numPages rule).allocations ≤ m.blocksNeeded address numPages := by
  obtain ⟨pre, it, post, l', n, ok, a, htree, hpre, hpost, hlo, hhi, hup, h⟩ :=
    updateBlocks_updated rule hm hr
  rw [hup]
  have hstart := hasBoundary_start_iff hm htree hlo hhi
  have ha := hpost.1
  have hE : address < address + numPages * PageSize :=
    Nat.lt_add_of_pos_right (Nat.mul_pos hr.pos (by decide))
  have hstop : m.HasBoundary (address + numPages * PageSize) →
      IsBoundaryOf (it :: post) m.endAddress (address + numPages * PageSize) := by
    rintro (hx | ⟨b, hb, hx⟩)
    · exact .inl hx
    · rw [htree] at hb
      rcases List.mem_append.1 hb with hb | hb
      · have := hpre.bounds hb
        omega
      · exact .inr ⟨b, hb, hx⟩
  refine (h.allocations_le hpost).trans ?_
  unfold needed blocksNeeded
  refine Nat.add_le_add ?_ ?_
  · by_cases hb : m.HasBoundary address
    · rw [if_pos hb, if_pos (by have := hstart.1 hb; omega)]
    · rw [if_neg hb]
      split <;> omega
  · by_cases hb : m.HasBoundary (address + numPages * PageSize)
    · rw [if_pos hb, if_pos (hstop hb)]
    · rw [if_neg hb]
      split <;> omega

end Range

end KMemoryBlockManager

/-! ## What a check tells -/

/-- The page is as the check wants it. -/
structure StateCheck.Passes (k : StateCheck) (q : KMemoryProperties) : Prop where
  state : q.memoryState &&& k.stateMask = k.state
  perm : q.permission &&& k.permMask = k.perm
  attr : q.memoryAttribute &&& k.attrMask = k.attr

theorem StateCheck.passes_of_check {k : StateCheck} {b : KMemoryBlock} (h : k.check b = true) :
    k.Passes b.properties := by
  simp only [StateCheck.check, Bool.and_eq_true, beq_iff_eq] at h; exact ⟨h.1.1, h.1.2, h.2⟩

theorem checkLoop_spec {valid : KMemoryBlock → Bool} {E : Nat} {info : KMemoryBlock}
    (l : List KMemoryBlock) : ∀ {a e : Nat}, BlocksTile a e l → a < E →
      checkLoop valid (E - 1) l = some info →
      info ∈ l ∧ info.address < E ∧ E ≤ info.endAddress ∧
        ∀ p, a ≤ p → p < E → ∃ b ∈ l, b.address ≤ p ∧ p < b.endAddress ∧ valid b = true := by
  induction l with
  | nil => intro a e _ _ h; cases h
  | cons b l ih =>
    intro a e hl hE h
    obtain ⟨hb, hlt, hrest⟩ := hl
    rw [checkLoop] at h
    split at h
    · rename_i hv
      split at h
      · rename_i hle
        obtain rfl := Option.some.inj h
        have hend : E ≤ b.endAddress := by
          unfold KMemoryBlock.lastAddress at hle; omega
        exact ⟨List.mem_cons_self, by omega, hend,
          fun p hp hpE => ⟨b, List.mem_cons_self, by omega, by omega, hv⟩⟩
      · rename_i hgt
        have hend : b.endAddress < E := by
          unfold KMemoryBlock.lastAddress at hgt; omega
        obtain ⟨hmem, hlo, hhi, hall⟩ := ih hrest hend h
        refine ⟨List.mem_cons_of_mem _ hmem, hlo, hhi, fun p hp hpE => ?_⟩
        by_cases hpb : p < b.endAddress
        · exact ⟨b, List.mem_cons_self, by omega, hpb, hv⟩
        · obtain ⟨c, hc, hcp⟩ := hall p (by omega) hpE; exact ⟨c, List.mem_cons_of_mem _ hc, hcp⟩
    · cases h

namespace KMemoryBlockManager

section Checked

variable {m : KMemoryBlockManager} {address numPages : Nat} {k : StateCheck}

theorem Tiled.pageAt_of_mem (hm : m.Tiled) {b : KMemoryBlock} (hb : b ∈ m.memoryBlockTree)
    {p : Nat} (hlo : b.address ≤ p) (hhi : p < b.endAddress) : m.pageAt p = some b.properties := by
  obtain ⟨pre, post, htree⟩ := List.append_of_mem hb
  obtain ⟨a, hpre, hpost⟩ := (tiles_append_iff pre).1 (htree ▸ hm.tiles)
  have ha := hpost.1
  unfold pageAt
  rw [htree, propertiesAt_append hpre hpost, if_neg (by omega), propertiesAt_cons hpost,
    if_neg (by omega), if_pos hhi]

theorem walk_spec {valid : KMemoryBlock → Bool} {info it : KMemoryBlock} {rest : List KMemoryBlock}
    (hm : m.Tiled) (hr : m.InRange address numPages)
    (hit : (findIterator m.memoryBlockTree address).2 = it :: rest)
    (h : checkLoop valid (address + numPages * PageSize - 1) (it :: rest) = some info) :
    (it.address = address ↔ m.HasBoundary address) ∧
      (info.endAddress = address + numPages * PageSize ↔
        m.HasBoundary (address + numPages * PageSize)) ∧
      ∀ p, address ≤ p → p < address + numPages * PageSize →
        ∃ b, m.pageAt p = some b.properties ∧ valid b = true := by
  have hE : address < address + numPages * PageSize :=
    Nat.lt_add_of_pos_right (Nat.mul_pos hr.pos (by decide))
  obtain ⟨pre, it', post, hspan, htree, hlo, hhi⟩ := hm.tiles.span_lookup hr.start hr.lt
  have hsame : it' :: post = it :: rest := by
    rw [← hit, findIterator, hspan]
  obtain ⟨rfl, rfl⟩ := List.cons.inj hsame
  obtain ⟨a, hpre, hpost⟩ := (tiles_append_iff pre).1 (htree ▸ hm.tiles)
  have ha := hpost.1
  obtain ⟨hmem, hinfo, hend, hall⟩ := checkLoop_spec (it' :: post) hpost (by omega) h
  have hsub : ∀ b ∈ it' :: post, b ∈ m.memoryBlockTree := by
    intro b hb
    rw [htree]; exact List.mem_append_right _ hb
  refine ⟨(hasBoundary_start_iff hm htree hlo hhi).symm,
    (hasBoundary_stop_iff hm (hsub info hmem) hinfo hend).symm, fun p hp hpE => ?_⟩
  obtain ⟨b, hb, hbl, hbh, hv⟩ := hall p (by omega) hpE
  exact ⟨b, hm.pageAt_of_mem (hsub b hb) hbl hbh, hv⟩

theorem alignUp_of_dvd {x : Nat} (h : PageSize ∣ x) : alignUp x PageSize = x := by
  unfold alignUp
  rw [if_pos (Nat.mod_eq_zero_of_dvd h), Nat.mod_eq_zero_of_dvd h, Nat.sub_zero]

theorem alignDown_pred_of_dvd {x : Nat} (h : PageSize ∣ x) (hx : 0 < x) :
    alignDown (x - 1) PageSize + PageSize = x := by
  have hmod := Nat.mod_eq_zero_of_dvd h
  have hps : PageSize = 4096 := rfl
  unfold alignDown
  rw [hps] at hmod ⊢
  omega

theorem InRange.dvd_stop (hr : m.InRange address numPages) :
    PageSize ∣ address + numPages * PageSize :=
  Nat.dvd_add hr.aligned (Nat.dvd_mul_left _ _)

theorem alignDown_of_dvd {x : Nat} (h : PageSize ∣ x) : alignDown x PageSize = x := by
  unfold alignDown
  rw [Nat.mod_eq_zero_of_dvd h, Nat.sub_zero]

theorem checkMemoryStateContiguous_spec (hm : m.Tiled) (hr : m.InRange address numPages) {n : Nat}
    (h : m.checkMemoryStateContiguous address (numPages * PageSize) k = some n) :
    n = m.blocksNeeded address numPages ∧
      ∀ p, address ≤ p → p < address + numPages * PageSize →
        ∃ q, m.pageAt p = some q ∧ k.Passes q := by
  unfold checkMemoryStateContiguous at h
  split at h
  · cases h
  · rename_i it rest hit
    obtain ⟨info, hwalk, rfl⟩ := Option.map_eq_some_iff.1 h
    obtain ⟨hstart, hend, hall⟩ := walk_spec hm hr hit hwalk
    refine ⟨?_, fun p hp hpE => ?_⟩
    · rw [alignDown_of_dvd hr.aligned, alignUp_of_dvd hr.dvd_stop]
      unfold blocksNeeded
      simp [← hstart, ← hend, eq_comm (a := it.address), eq_comm (a := info.endAddress)]
    · obtain ⟨b, hb, hv⟩ := hall p hp hpE; exact ⟨b.properties, hb, k.passes_of_check hv⟩

theorem checkMemoryState_spec (hm : m.Tiled) (hr : m.InRange address numPages)
    {ignoreAttr : BitVec 8} {out : CheckedState}
    (h : m.checkMemoryState address (numPages * PageSize) k ignoreAttr = some out) :
    out.blocksNeeded = m.blocksNeeded address numPages ∧
      ∀ p, address ≤ p → p < address + numPages * PageSize →
        ∃ q, m.pageAt p = some q ∧ k.Passes q ∧ q.memoryState = out.state := by
  have hstop : 0 < address + numPages * PageSize :=
    Nat.lt_of_lt_of_le (Nat.mul_pos hr.pos (by decide)) (Nat.le_add_left _ _)
  unfold checkMemoryState at h
  split at h
  · cases h
  · rename_i it rest hit
    obtain ⟨info, hwalk, rfl⟩ := Option.map_eq_some_iff.1 h
    obtain ⟨hstart, hend, hall⟩ := walk_spec hm hr hit hwalk
    refine ⟨?_, fun p hp hpE => ?_⟩
    · show (if alignDown address PageSize ≠ it.address then
        (if alignDown (address + numPages * PageSize - 1) PageSize + PageSize ≠ info.endAddress
          then 1 else 0) + 1
        else if alignDown (address + numPages * PageSize - 1) PageSize + PageSize ≠ info.endAddress
          then 1 else 0) = _
      rw [alignDown_of_dvd hr.aligned, alignDown_pred_of_dvd hr.dvd_stop hstop]
      unfold blocksNeeded
      simp only [← hstart, ← hend, eq_comm (a := it.address), eq_comm (a := info.endAddress),
        ne_eq, ite_not]
      split <;> omega
    · obtain ⟨b, hb, hv⟩ := hall p hp hpE
      rw [Bool.and_eq_true] at hv
      have hfirst := hv.1
      simp only [sameAsFirst, Bool.and_eq_true, beq_iff_eq] at hfirst
      exact ⟨b.properties, hb, k.passes_of_check hv.2, hfirst.1.1⟩

end Checked

end KMemoryBlockManager

/-! ## The allocator -/

namespace UpdateAllocator

variable {β : Type}

theorem allocateTimes_of_create {numBlocks count : Nat} {slab slab' : List β}
    {a : UpdateAllocator β} (hmax : numBlocks ≤ maxBlocks) (hcount : count ≤ numBlocks)
    (h : create numBlocks slab = some (a, slab')) : (a.allocateTimes count).isSome = true := by
  have hcases : numBlocks = 0 ∨ numBlocks = 1 ∨ numBlocks = 2 := by
    unfold maxBlocks at hmax; omega
  rcases hcases with rfl | rfl | rfl
  · obtain rfl : count = 0 := by omega
    rfl
  · cases slab with
    | nil => cases h
    | cons b slab =>
      obtain ⟨rfl, rfl⟩ := Prod.mk.inj (Option.some.inj h)
      have hcases : count = 0 ∨ count = 1 := by omega
      rcases hcases with rfl | rfl <;> rfl
  · cases slab with
    | nil => cases h
    | cons b slab =>
      cases slab with
      | nil => cases h
      | cons c slab =>
        obtain ⟨rfl, rfl⟩ := Prod.mk.inj (Option.some.inj h)
        have hcases : count = 0 ∨ count = 1 ∨ count = 2 := by omega
        rcases hcases with rfl | rfl | rfl <;> rfl

end UpdateAllocator

/-! ## One update after another -/

section Boundaries

variable {rule : UpdateRule} {E cur : Nat} {l l' : List KMemoryBlock} {n : Nat} {ok : Bool}
  {e x : Nat}

theorem isBoundary_cons_iff {b : KMemoryBlock} :
    IsBoundaryOf (b :: l) e x ↔ b.address = x ∨ IsBoundaryOf l e x := by
  unfold IsBoundaryOf
  rw [List.exists_mem_cons_iff]
  exact or_left_comm

theorem isBoundary_append_iff (pre : List KMemoryBlock) :
    IsBoundaryOf (pre ++ l) e x ↔ (∃ b ∈ pre, b.address = x) ∨ IsBoundaryOf l e x := by
  induction pre with
  | nil => simp
  | cons b pre ih =>
    rw [List.cons_append, isBoundary_cons_iff, ih, List.exists_mem_cons_iff, or_assoc]

theorem Updated.isBoundary (h : Updated rule E cur l l' n ok) (hx : IsBoundaryOf l e x) :
    IsBoundaryOf l' e x := by
  induction h with
  | done h => exact hx
  | skipLast hs hlo hhi => exact hx
  | skip hs hlo hcur hhi h ih =>
    rw [isBoundary_cons_iff] at hx ⊢; exact hx.imp_right ih
  | cutBefore hs hlo hhi hdvd hE h ih =>
    rw [isBoundary_cons_iff] at hx ⊢
    rw [(KMemoryBlock.split_bounds hlo hhi hdvd).1]
    exact hx.imp_right fun hx => ih (isBoundary_cons _ hx)
  | cutAfter hlo hcur hhi hdvd h ih =>
    rw [isBoundary_cons_iff] at hx
    refine ih (isBoundary_cons_iff.2 ?_)
    rw [(KMemoryBlock.split_bounds (by omega) hhi hdvd).1]
    exact hx.imp_right (isBoundary_cons _)
  | apply hs hlo hcur hhi h ih =>
    rw [isBoundary_cons_iff] at hx ⊢
    rw [rule.apply_address]; exact hx.imp_right ih

theorem Merged.isBoundary (h : Merged l l') (hc : l.IsChain fun p q => q.address = x → Apart p q)
    (hx : IsBoundaryOf l e x) : IsBoundaryOf l' e x := by
  induction h with
  | refl l => exact hx
  | keep b h ih =>
    rw [isBoundary_cons_iff] at hx ⊢; exact hx.imp_right (ih hc.of_cons)
  | @merge p q l l' hm h ih =>
    rw [List.isChain_cons_cons] at hc
    have hq : q.address ≠ x := by
      intro hqx
      have hap := hc.1 hqx
      unfold Apart at hap
      rw [hm] at hap; cases hap
    refine ih ?_ ?_
    · cases l with
      | nil => exact List.IsChain.singleton _
      | cons y l =>
        rw [List.isChain_cons_cons] at hc ⊢
        refine ⟨fun hy => ?_, hc.2.2⟩
        have hap := hc.2.1 hy
        unfold Apart at hap ⊢
        rw [KMemoryBlock.canMergeWith_congr (KMemoryBlock.add_rightEdge hm) rfl]
        exact hap
    · rw [isBoundary_cons_iff, isBoundary_cons_iff] at hx
      rw [isBoundary_cons_iff]
      rcases hx with hx | hx | hx
      · exact .inl hx
      · exact absurd hx hq
      · exact .inr hx

end Boundaries

namespace KMemoryBlockManager

/-- A tree as `CheckState` wants it: the blocks tile the address space and no two neighbours can be
    merged. -/
structure Valid (m : KMemoryBlockManager) : Prop where
  tiled : m.Tiled
  coalesced : m.memoryBlockTree.IsChain Apart

section Step

variable {m m' : KMemoryBlockManager} {c : Call} {r : UpdateResult} {x : Nat}

theorem boundary_run (hm : m.Valid) (hr : m.InRange c.address c.numPages)
    (hs : c.run m = some (m', r)) (hout : x < c.address ∨ c.endAddress < x)
    (hx : m.HasBoundary x) : m'.HasBoundary x := by
  rw [c.run_eq] at hs
  obtain ⟨hr', -, hend, hmer, -⟩ := updateWith_cases hm.tiled hr hs
  obtain ⟨pre, it, post, l', n, ok, a, htree, -, hpost, -, -, hup, h⟩ :=
    updateBlocks_updated c.rule hm.tiled hr
  have hchain : (pre ++ l').IsChain (ApartOutside c.address c.endAddress) :=
    h.isChain_apartOutside hpost pre ((htree ▸ hm.coalesced).imp fun p q hpq => Or.inr hpq)
  rw [hr', hup] at hmer
  unfold HasBoundary at hx ⊢
  rw [hend]
  have hapart : (pre ++ l').IsChain fun p q => q.address = x → Apart p q := by
    refine hchain.imp fun p q hpq hq => hpq.resolve_left ?_
    rintro ⟨h1, h2⟩; omega
  refine hmer.isBoundary hapart ((isBoundary_append_iff pre).2 ?_)
  rw [htree, isBoundary_append_iff] at hx
  exact hx.imp_right h.isBoundary

theorem Tiled.boundary_of_ne (hm : m.Tiled) (hlo : m.startAddress < x) (hhi : x < m.endAddress)
    (hne : m.pageAt (x - 1) ≠ m.pageAt x) : m.HasBoundary x := by
  obtain ⟨b, hb, hbl, hbh⟩ := hm.tiles.exists_mem (p := x - 1) (by omega) (by omega)
  refine (hasBoundary_stop_iff hm hb (by omega) (by omega)).2 ?_
  by_contra hend
  refine hne ?_
  rw [hm.pageAt_of_mem hb hbl hbh, hm.pageAt_of_mem hb (by omega) (by omega)]

/-- **The second of two ranges**: the first call leaves its ends boundaries, if the ranges are
    disjoint and no page of the second is in the state the first call changes its pages to. -/
theorem blocksNeeded_run {c₂ : Call} {state : BitVec 32} (hm : m.Valid)
    (hr : m.InRange c.address c.numPages) (hr₂ : m.InRange c₂.address c₂.numPages)
    (hentry : c.rule.entryAsserts = true) (hpage : ∀ q, (c.page q).memoryState = state)
    (hdisjoint : c.endAddress ≤ c₂.address ∨ c₂.endAddress ≤ c.address)
    (hstate : ∀ p, c₂.address ≤ p → p < c₂.endAddress →
      ∃ q, m.pageAt p = some q ∧ q.memoryState ≠ state) (hs : c.run m = some (m', r)) :
    m'.blocksNeeded c₂.address c₂.numPages ≤ m.blocksNeeded c₂.address c₂.numPages := by
  have hlt : c.address < c.endAddress :=
    Nat.lt_add_of_pos_right (Nat.mul_pos hr.pos (by decide))
  have hlt₂ : c₂.address < c₂.endAddress :=
    Nat.lt_add_of_pos_right (Nat.mul_pos hr₂.pos (by decide))
  have htiled : m'.Tiled := hm.tiled.run hr hs
  have hends : m'.startAddress = m.startAddress ∧ m'.endAddress = m.endAddress := by
    rw [c.run_eq] at hs
    obtain ⟨-, h1, h2, -⟩ := updateWith_cases hm.tiled hr hs; exact ⟨h1, h2⟩
  have hstart := hr.start
  have hstop : c.endAddress ≤ m.endAddress := hr.stop
  have hstart₂ := hr₂.start
  have hstop₂ : c₂.endAddress ≤ m.endAddress := hr₂.stop
  -- a page of the first range and one of the second differ afterwards
  have hne : ∀ p p₂, c.address ≤ p → p < c.endAddress → c₂.address ≤ p₂ → p₂ < c₂.endAddress →
      m'.pageAt p ≠ m'.pageAt p₂ := by
    intro p p₂ hlo hhi hlo₂ hhi₂ heq
    obtain ⟨b, hb, hbl, hbh⟩ := hm.tiled.tiles.exists_mem (p := p) (by omega) (by omega)
    obtain ⟨q₂, hq₂, hqs₂⟩ := hstate p₂ hlo₂ hhi₂
    rw [hm.tiled.pageAt_run hr hentry hs, if_pos ⟨hlo, hhi⟩, hm.tiled.pageAt_of_mem hb hbl hbh,
      hm.tiled.pageAt_run hr hentry hs, if_neg (by omega), hq₂] at heq
    obtain rfl := Option.some.inj heq; exact hqs₂ (hpage _)
  have hboundary₁ : m.HasBoundary c₂.address → m'.HasBoundary c₂.address := by
    intro hx
    by_cases htouch : c.endAddress = c₂.address
    · refine htiled.boundary_of_ne (by omega) (by omega) ?_
      exact hne _ _ (by omega) (by omega) (by omega) (by omega)
    · exact boundary_run hm hr hs (by omega) hx
  have hboundary₂ : m.HasBoundary c₂.endAddress → m'.HasBoundary c₂.endAddress := by
    intro hx
    by_cases htouch : c₂.endAddress = c.address
    · refine htiled.boundary_of_ne (by omega) (by omega) ?_
      exact (hne _ _ (by omega) (by omega) (by omega) (by omega)).symm
    · exact boundary_run hm hr hs (by omega) hx
  have hcost : ∀ x, (m.HasBoundary x → m'.HasBoundary x) →
      (if m'.HasBoundary x then 0 else 1) ≤ if m.HasBoundary x then 0 else 1 := by
    intro x hx
    by_cases hb : m.HasBoundary x
    · rw [if_pos hb, if_pos (hx hb)]
    · rw [if_neg hb]
      split <;> omega
  exact Nat.add_le_add (hcost _ hboundary₁) (hcost _ hboundary₂)

end Step

end KMemoryBlockManager

theorem Reachable.valid {P : KMemoryBlockManager → Call → Prop} {m : KMemoryBlockManager}
    (h : Reachable P m) : m.Valid :=
  ⟨h.tiled, h.apart⟩

/-! ## The result -/

section Result

variable {β : Type} {m : KMemoryBlockManager}

/-- The update calls `Allocate` no more often than the allocator has blocks, and each call finds its
    assertions true. -/
structure AllocatedUpdate.NeverDry (u : AllocatedUpdate β) : Prop where
  numBlocks_le : u.numBlocks ≤ UpdateAllocator.maxBlocks
  allocations_le : u.result.allocations ≤ u.numBlocks
  asserts : (u.allocator.allocateTimes u.result.allocations).isSome = true

structure TwoUpdates.NeverDry (t : TwoUpdates β) : Prop where
  first : t.first.NeverDry
  second : ∀ u ∈ t.second, u.NeverDry

theorem neverDry_of_create {m' : KMemoryBlockManager} {c : Call} {slab slab' : List β}
    {a : UpdateAllocator β} (hm' : m'.Tiled) (hr : m'.InRange c.address c.numPages)
    (hle : m'.blocksNeeded c.address c.numPages ≤ m.blocksNeeded c.address c.numPages)
    (h : UpdateAllocator.create (m.blocksNeeded c.address c.numPages) slab = some (a, slab')) :
    AllocatedUpdate.NeverDry ⟨m.blocksNeeded c.address c.numPages, a,
      m'.updateBlocks c.address c.numPages c.rule⟩ := by
  have hmax := m.blocksNeeded_le c.address c.numPages
  have hcount := (KMemoryBlockManager.updateBlocks_allocations_le c.rule hm' hr).trans hle
  exact ⟨hmax, hcount, UpdateAllocator.allocateTimes_of_create hmax hcount h⟩

theorem inRange_run {m' : KMemoryBlockManager} {c : Call} {r : UpdateResult} {address numPages : Nat}
    (hm : m.Tiled) (hc : m.InRange c.address c.numPages) (hs : c.run m = some (m', r))
    (hr : m.InRange address numPages) : m'.InRange address numPages := by
  rw [c.run_eq] at hs
  obtain ⟨-, hstart, hend, -⟩ := KMemoryBlockManager.updateWith_cases hm hc hs
  refine ⟨hr.aligned, hr.pos, ?_, ?_⟩
  · rw [hstart]
    exact hr.start
  · rw [hend]; exact hr.stop

theorem updateBoth_neverDry {slab : List β} {srcFirst : Bool} {src dst : Call} {t : TwoUpdates β}
    {numSrc numDst : Nat} (h : updateBoth m slab numSrc numDst srcFirst src dst = some t)
    (hnumSrc : numSrc = m.blocksNeeded src.address src.numPages)
    (hnumDst : numDst = m.blocksNeeded dst.address dst.numPages) (hm : m.Valid)
    (hsrc : m.InRange src.address src.numPages) (hdst : m.InRange dst.address dst.numPages)
    (hsrcFirst : srcFirst = true → ∀ m' r, src.run m = some (m', r) →
      m'.blocksNeeded dst.address dst.numPages ≤ m.blocksNeeded dst.address dst.numPages)
    (hdstFirst : srcFirst = false → ∀ m' r, dst.run m = some (m', r) →
      m'.blocksNeeded src.address src.numPages ≤ m.blocksNeeded src.address src.numPages) :
    t.NeverDry := by
  subst hnumSrc hnumDst
  unfold updateBoth at h
  obtain ⟨srcAllocator, hsa, h⟩ := Option.bind_eq_some_iff.1 h
  obtain ⟨dstAllocator, hda, rfl⟩ := Option.map_eq_some_iff.1 h
  cases srcFirst with
  | true =>
    refine ⟨neverDry_of_create hm.tiled hsrc (Nat.le_refl _) hsa, fun u hu => ?_⟩
    obtain ⟨x, hx, rfl⟩ := Option.map_eq_some_iff.1 hu
    exact neverDry_of_create (hm.tiled.run hsrc hx) (inRange_run hm.tiled hsrc hx hdst)
      (hsrcFirst rfl _ _ hx) hda
  | false =>
    refine ⟨neverDry_of_create hm.tiled hdst (Nat.le_refl _) hda, fun u hu => ?_⟩
    obtain ⟨x, hx, rfl⟩ := Option.map_eq_some_iff.1 hu
    exact neverDry_of_create (hm.tiled.run hdst hx) (inRange_run hm.tiled hdst hx hsrc)
      (hdstFirst rfl _ _ hx) hsa

theorem disjoint_of_passes {k k₂ : StateCheck} {address address₂ numPages numPages₂ : Nat}
    (hpos : 0 < numPages) (hpos₂ : 0 < numPages₂)
    (h : ∀ p, address ≤ p → p < address + numPages * PageSize →
      ∃ q, m.pageAt p = some q ∧ k.Passes q)
    (h₂ : ∀ p, address₂ ≤ p → p < address₂ + numPages₂ * PageSize →
      ∃ q, m.pageAt p = some q ∧ k₂.Passes q) (hexcl : ∀ q, k.Passes q → ¬ k₂.Passes q) :
    address + numPages * PageSize ≤ address₂ ∨ address₂ + numPages₂ * PageSize ≤ address := by
  by_contra hno
  have hmul : 0 < numPages * PageSize := Nat.mul_pos hpos (by decide)
  have hmul₂ : 0 < numPages₂ * PageSize := Nat.mul_pos hpos₂ (by decide)
  -- the later of the two starts is in both
  obtain ⟨q, hq, hk⟩ := h (max address address₂) (by omega) (by omega)
  obtain ⟨q₂, hq₂, hk₂⟩ := h₂ (max address address₂) (by omega) (by omega)
  rw [hq] at hq₂
  obtain rfl := Option.some.inj hq₂
  exact hexcl q hk hk₂

theorem StateCheck.Passes.state_eq {k : StateCheck} {q : KMemoryProperties} (h : k.Passes q)
    (hmask : k.stateMask = KMemoryState.All) : q.memoryState = k.state := by
  have hs := h.state
  rw [hmask] at hs
  rw [← hs]
  exact BitVec.and_allOnes.symm

theorem StateCheck.Passes.attr_eq {k : StateCheck} {q : KMemoryProperties} (h : k.Passes q)
    (hmask : k.attrMask = KMemoryAttribute.All) : q.memoryAttribute = k.attr := by
  have hs := h.attr
  rw [hmask] at hs
  rw [← hs]
  exact BitVec.and_allOnes.symm

section Operations

variable {slab : List β} {others : Bool} {dstAddress srcAddress numPages : Nat} {t : TwoUpdates β}

theorem blocksNeeded_of_checks (state : BitVec 32) {c c₂ : Call} {k k₂ : StateCheck}
    (hm : m.Valid) (hr : m.InRange c.address c.numPages) (hr₂ : m.InRange c₂.address c₂.numPages)
    (hentry : c.rule.entryAsserts = true) (hpage : ∀ q, (c.page q).memoryState = state)
    (h : ∀ p, c.address ≤ p → p < c.endAddress → ∃ q, m.pageAt p = some q ∧ k.Passes q)
    (h₂ : ∀ p, c₂.address ≤ p → p < c₂.endAddress → ∃ q, m.pageAt p = some q ∧ k₂.Passes q)
    (hexcl : ∀ q, k.Passes q → ¬ k₂.Passes q)
    (hstate : ∀ q : KMemoryProperties, k₂.Passes q → q.memoryState ≠ state)
    (m' : KMemoryBlockManager) (r : UpdateResult) (hs : c.run m = some (m', r)) :
    m'.blocksNeeded c₂.address c₂.numPages ≤ m.blocksNeeded c₂.address c₂.numPages := by
  refine KMemoryBlockManager.blocksNeeded_run hm hr hr₂ hentry hpage
    (disjoint_of_passes hr.pos hr₂.pos h h₂ hexcl) (fun p hlo hhi => ?_) hs
  obtain ⟨q, hq, hk⟩ := h₂ p hlo hhi
  exact ⟨q, hq, hstate q hk⟩

theorem entryAsserts_update {address n : Nat} {state : BitVec 32}
    {perm attr setDisable clearDisable : BitVec 8} (halign : PageSize ∣ address)
    (hattr : KMemoryBlockManager.attrAsserts attr = true) :
    (Call.update address n state perm attr setDisable clearDisable).rule.entryAsserts = true := by
  show (address % PageSize == 0 && KMemoryBlockManager.attrAsserts attr) = true
  rw [hattr, Nat.mod_eq_zero_of_dvd halign]
  rfl

theorem size_div (numPages : Nat) : numPages * PageSize / PageSize = numPages :=
  Nat.mul_div_cancel _ (by decide)

theorem checked_range {address : Nat} {k : StateCheck} {ignoreAttr : BitVec 8} {out : CheckedState}
    (hm : m.Valid) (hr : m.InRange address numPages)
    (h : m.checkMemoryState address (numPages * PageSize) k ignoreAttr = some out) :
    out.blocksNeeded = m.blocksNeeded address numPages ∧
      (∀ p, address ≤ p → p < address + numPages * PageSize →
        ∃ q, m.pageAt p = some q ∧ k.Passes q) ∧ out.state &&& k.stateMask = k.state := by
  obtain ⟨hnum, hpages⟩ := KMemoryBlockManager.checkMemoryState_spec hm.tiled hr h
  have hpos : 0 < numPages * PageSize := Nat.mul_pos hr.pos (by decide)
  refine ⟨hnum, fun p hlo hhi => ?_, ?_⟩
  · obtain ⟨q, hq, hk, -⟩ := hpages p hlo hhi
    exact ⟨q, hq, hk⟩
  · obtain ⟨q, -, hk, hstate⟩ := hpages address (Nat.le_refl _) (by omega)
    rw [← hstate]; exact hk.state

theorem srcFirst_neverDry {k k₂ : StateCheck} {src dst : CheckedState} {c : Call}
    {ignoreAttr perm attr setDisable clearDisable : BitVec 8}
    (h : updateBoth m slab src.blocksNeeded dst.blocksNeeded true
      (.update srcAddress numPages src.state perm attr setDisable clearDisable) c = some t)
    (hm : m.Valid) (hsrc : m.InRange srcAddress numPages) (hdst : m.InRange c.address c.numPages)
    (hs : m.checkMemoryState srcAddress (numPages * PageSize) k ignoreAttr = some src)
    (hd : m.checkMemoryState c.address (c.numPages * PageSize) k₂ ignoreAttr = some dst)
    (hattr : KMemoryBlockManager.attrAsserts attr = true) (hmask : k₂.stateMask = KMemoryState.All)
    (hexcl : k₂.state &&& k.stateMask ≠ k.state) : t.NeverDry := by
  obtain ⟨hnumSrc, hsrcPages, hsrcState⟩ := checked_range hm hsrc hs
  obtain ⟨hnumDst, hdstPages, -⟩ := checked_range hm hdst hd
  refine updateBoth_neverDry h hnumSrc hnumDst hm hsrc hdst (fun _ => ?_) (fun hno => ?_)
  · refine blocksNeeded_of_checks src.state hm hsrc hdst (entryAsserts_update hsrc.aligned hattr)
      (fun q => rfl) hsrcPages hdstPages (fun q hk hk₂ => ?_) (fun q hk => ?_)
    · have hboth := hk.state
      rw [hk₂.state_eq hmask] at hboth
      exact hexcl hboth
    · rw [hk.state_eq hmask]
      rintro heq
      rw [← heq] at hsrcState; exact hexcl hsrcState
  · cases hno

section

variable (hm : m.Valid) (hsrc : m.InRange srcAddress numPages)
    (hdst : m.InRange dstAddress numPages)
include hm hsrc hdst

theorem mapMemory_neverDry
    (h : mapMemory m slab others dstAddress srcAddress (numPages * PageSize) = some t) :
    t.NeverDry := by
  unfold mapMemory at h
  obtain ⟨src, hs, h⟩ := Option.bind_eq_some_iff.1 h
  obtain ⟨dst, hd, h⟩ := Option.bind_eq_some_iff.1 h
  obtain ⟨-, -, h⟩ := Option.bind_eq_some_iff.1 h
  rw [size_div] at h
  exact srcFirst_neverDry h hm hsrc hdst hs hd (by decide) rfl (by decide)

theorem unmapMemory_neverDry
    (h : unmapMemory m slab others dstAddress srcAddress (numPages * PageSize) = some t) :
    t.NeverDry := by
  unfold unmapMemory at h
  obtain ⟨src, hs, h⟩ := Option.bind_eq_some_iff.1 h
  obtain ⟨dst, hd, h⟩ := Option.bind_eq_some_iff.1 h
  obtain ⟨-, -, h⟩ := Option.bind_eq_some_iff.1 h
  rw [size_div] at h
  exact srcFirst_neverDry h hm hsrc hdst hs hd (by decide) rfl (by decide)

theorem mapCodeMemory_neverDry
    (h : mapCodeMemory m slab others dstAddress srcAddress (numPages * PageSize) = some t) :
    t.NeverDry := by
  unfold mapCodeMemory at h
  obtain ⟨src, hs, h⟩ := Option.bind_eq_some_iff.1 h
  obtain ⟨dst, hd, h⟩ := Option.bind_eq_some_iff.1 h
  obtain ⟨-, -, h⟩ := Option.bind_eq_some_iff.1 h
  rw [size_div] at h
  exact srcFirst_neverDry h hm hsrc hdst hs hd (by decide) rfl (by decide)

theorem unmapCodeMemory_neverDry
    (h : unmapCodeMemory m slab others dstAddress srcAddress (numPages * PageSize) = some t) :
    t.NeverDry := by
  unfold unmapCodeMemory at h
  obtain ⟨src, hs, h⟩ := Option.bind_eq_some_iff.1 h
  obtain ⟨dst, hd, h⟩ := Option.bind_eq_some_iff.1 h
  obtain ⟨-, -, h⟩ := Option.bind_eq_some_iff.1 h
  obtain ⟨hnumSrc, hsrcPages, hsrcState⟩ := checked_range hm hsrc hs
  obtain ⟨hnumDst, hdstPages⟩ :=
    KMemoryBlockManager.checkMemoryStateContiguous_spec hm.tiled hdst hd
  rw [size_div] at h
  refine updateBoth_neverDry h hnumSrc hnumDst hm hsrc hdst (fun hno => ?_) (fun _ => ?_)
  · cases hno
  · refine blocksNeeded_of_checks KMemoryState.None hm hdst hsrc
      (entryAsserts_update hdst.aligned (by decide)) (fun q => rfl) hdstPages hsrcPages
      (fun q hk hk₂ => ?_) (fun q hk => ?_)
    · -- the source is locked, the destination is not
      have hattr := hk.attr
      rw [hk₂.attr_eq rfl] at hattr
      exact absurd hattr (by decide)
    · rw [hk.state_eq rfl]; decide

end

end Operations

/-- **The update allocator never runs dry.**  A check of a range returns at most two and no less than
    any update of the range allocates; and in the operations that check two ranges before they update
    them, the second update finds the blocks it needs as well. -/
theorem updateAllocator_neverDry (hm : m.Valid) :
    (∀ (c : Call) (k : StateCheck) (ignoreAttr : BitVec 8) (n : Nat),
      m.InRange c.address c.numPages →
      ((m.checkMemoryState c.address (c.numPages * PageSize) k ignoreAttr).map
          (fun out => out.blocksNeeded) = some n ∨
        m.checkMemoryStateContiguous c.address (c.numPages * PageSize) k = some n) →
      n ≤ 2 ∧ (m.updateBlocks c.address c.numPages c.rule).allocations ≤ n ∧
        ∀ (slab slab' : List β) (a : UpdateAllocator β),
          UpdateAllocator.create n slab = some (a, slab') →
          AllocatedUpdate.NeverDry ⟨n, a, m.updateBlocks c.address c.numPages c.rule⟩) ∧
      ∀ (slab : List β) (others : Bool) (dstAddress srcAddress numPages : Nat) (t : TwoUpdates β),
        m.InRange srcAddress numPages → m.InRange dstAddress numPages →
        (mapMemory m slab others dstAddress srcAddress (numPages * PageSize) = some t ∨
          unmapMemory m slab others dstAddress srcAddress (numPages * PageSize) = some t ∨
          mapCodeMemory m slab others dstAddress srcAddress (numPages * PageSize) = some t ∨
          unmapCodeMemory m slab others dstAddress srcAddress (numPages * PageSize) = some t) →
        t.NeverDry := by
  refine ⟨fun c k ignoreAttr n hr h => ?_, fun slab others dst src numPages t hsrc hdst h => ?_⟩
  · have hn : n = m.blocksNeeded c.address c.numPages := by
      rcases h with h | h
      · obtain ⟨out, hout, rfl⟩ := Option.map_eq_some_iff.1 h
        exact (KMemoryBlockManager.checkMemoryState_spec hm.tiled hr hout).1
      · exact (KMemoryBlockManager.checkMemoryStateContiguous_spec hm.tiled hr h).1
    subst hn
    refine ⟨m.blocksNeeded_le _ _, KMemoryBlockManager.updateBlocks_allocations_le _ hm.tiled hr,
      fun slab slab' a ha => ?_⟩
    exact neverDry_of_create hm.tiled hr (Nat.le_refl _) ha
  · rcases h with h | h | h | h
    · exact mapMemory_neverDry hm hsrc hdst h
    · exact unmapMemory_neverDry hm hsrc hdst h
    · exact mapCodeMemory_neverDry hm hsrc hdst h
    · exact unmapCodeMemory_neverDry hm hsrc hdst h

end Result

/-- Four heap pages are mapped; the last one is aliased right behind them. -/
theorem updateAllocator_touching_ranges : ∃ (m : KMemoryBlockManager) (t : TwoUpdates Nat),
    m.Valid ∧ mapMemory m [1, 2, 3] true 0x5000 0x4000 (1 * PageSize) = some t ∧ t.NeverDry := by
  have hrun : (((Call.update 0x1000 4 KMemoryState.Normal KMemoryPermission.UserReadWrite
      KMemoryAttribute.None 0 0).run (.init 0 0x8000 slabBlock)).bind fun r =>
        if r.1.InRange 0x4000 1 ∧ r.1.InRange 0x5000 1 then
          mapMemory r.1 [1, 2, 3] true 0x5000 0x4000 (1 * PageSize) else none).isSome = true := by
    decide +kernel
  obtain ⟨t, ht⟩ := Option.isSome_iff_exists.1 hrun
  obtain ⟨⟨m, r⟩, hm, ht⟩ := Option.bind_eq_some_iff.1 ht
  dsimp only at ht
  split at ht
  · rename_i hr
    have hreach : Reachable (fun _ _ => True) m :=
      (Reachable.init (by decide) (by decide) (by decide) slabBlock).step (by decide) trivial hm
    exact ⟨m, t, hreach.valid, ht, (updateAllocator_neverDry hreach.valid).2 [1, 2, 3] true 0x5000
      0x4000 1 t hr.1 hr.2 (.inl ht)⟩
  · cases ht

end Suyu.Kernel
