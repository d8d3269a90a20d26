/-
  IPC page locking on KMemoryBlockManager: `UpdateLock(LockForIpc)` and `UpdateLock(UnlockForIpc)`
  are exactly reversible, in any order.

  1. **Program** — `IpcRun m₀ m live`: from the tree `m₀`, lock and unlock calls on arbitrary
     overlapping ranges lead to `m`, the ranges in `live` being locked and not yet unlocked.
  2. **Spec** — every page counts its live locks, a page without one is as it was in `m₀`, and both
     ends of every live lock are block boundaries, so that unlocking allocates no block (the
     "Guaranteed zero blocks needed" of `CleanupForIpcClient`).
  3. **The crux** — a LEFT end is kept apart by `IpcLeft`, which stays set while
     `ipcDisableMergeCount` is positive: `IpcInv.left` bounds that count from below by the number
     of live locks that start there.  A RIGHT end needs no bookkeeping: either a lock starts there
     too, or the lock counts of the two pages that meet there differ.
-/
import Suyu.Kernel.MemoryBlockRuns

namespace Suyu.Kernel

open KMemoryAttribute (IpcLocked)
open KMemoryBlockDisableMergeAttribute (IpcLeft AllLeft AllRight)
open Lib.Tiling

/-! ## The left face of a block under the update loop and under coalescing -/

namespace KMemoryBlock

/-- What an IPC lock writes on the left end of a block. -/
def ipcFace (b : KMemoryBlock) : BitVec 8 × BitVec 16 :=
  (b.disableMergeAttribute &&& IpcLeft, b.ipcDisableMergeCount)

theorem split_fst_ipcFace (b : KMemoryBlock) (addr : Nat) : (b.split addr).1.ipcFace = b.ipcFace := by
  refine Prod.ext ?_ rfl
  show b.disableMergeAttribute &&& AllLeft &&& IpcLeft = b.disableMergeAttribute &&& IpcLeft
  rw [BitVec.and_assoc]
  rfl

theorem split_snd_ipcFace (b : KMemoryBlock) (addr : Nat) : (b.split addr).2.ipcFace = (0, 0) := by
  refine Prod.ext ?_ rfl
  show b.disableMergeAttribute &&& AllRight &&& IpcLeft = 0
  rw [BitVec.and_assoc, show AllRight &&& IpcLeft = 0 by decide]
  exact BitVec.and_zero

theorem ipcFace_eq_zero_of_canMergeWith {b c : KMemoryBlock} (h : b.canMergeWith c = true) :
    c.ipcFace.1 = 0 := by
  have h0 : c.disableMergeAttribute &&& AllLeft = 0 := (canMergeWith_iff.1 h).2.2
  show c.disableMergeAttribute &&& IpcLeft = 0
  rw [show IpcLeft = AllLeft &&& IpcLeft by decide, ← BitVec.and_assoc, h0]
  exact BitVec.zero_and

theorem add_ipcFace {b c : KMemoryBlock} (h : b.canMergeWith c = true) :
    (b.add c).ipcFace = b.ipcFace := by
  refine Prod.ext ?_ rfl
  exact Lib.Bits.or_and_of_and_eq_zero (ipcFace_eq_zero_of_canMergeWith h)

end KMemoryBlock

/-- **Left faces through the update loop**, when no block is skipped: `R` says what the block
    method does to the face of a block at a given address. -/
theorem Updated.ipcFace {rule : UpdateRule} {R : Nat → BitVec 8 × BitVec 16 → BitVec 8 × BitVec 16}
    (hR : ∀ b, (rule.apply b).ipcFace = R b.address b.ipcFace) (hskip : ∀ b, rule.skip b = false)
    {E cur : Nat} {l l' : List KMemoryBlock} {n : Nat} {ok : Bool}
    (h : Updated rule E cur l l' n ok) : ∀ {a e : Nat}, BlocksTile a e l → ∀ b ∈ l,
    ∃ b' ∈ l', b'.address = b.address ∧ b'.ipcFace =
      if cur ≤ b.address ∧ b.address < E then R b.address b.ipcFace else b.ipcFace := by
  induction h with
  | done h =>
    intro a e _ b hb; exact ⟨b, hb, rfl, by rw [if_neg (by omega)]⟩
  | skipLast hs => rw [hskip] at hs; cases hs
  | skip hs => rw [hskip] at hs; cases hs
  | @cutBefore cur it rest l' n ok hs hlo hhi hdvd hE h ih =>
    intro a e hl b hb
    rcases List.mem_cons.mp hb with rfl | hb
    · refine ⟨_, List.mem_cons_self, rfl, ?_⟩
      rw [if_neg (by omega), KMemoryBlock.split_fst_ipcFace]
    · obtain ⟨b', hb', h1, h2⟩ := ih (tiles_split_snd hl hlo hhi hdvd) b (List.mem_cons_of_mem _ hb)
      exact ⟨b', List.mem_cons_of_mem _ hb', h1, h2⟩
  | @cutAfter cur it rest l' n ok hlo hcur hhi hdvd h ih =>
    intro a e hl b hb
    have hcut := tiles_split hl (by omega) hhi hdvd
    rcases List.mem_cons.mp hb with rfl | hb
    · obtain ⟨b', hb', h1, h2⟩ := ih hcut _ List.mem_cons_self
      refine ⟨b', hb', h1, ?_⟩
      rw [h2, KMemoryBlock.split_fst_ipcFace]
      rfl
    · exact ih hcut b (List.mem_cons_of_mem _ (List.mem_cons_of_mem _ hb))
  | @apply cur it rest rest' n ok hs hlo hcur hhi h ih =>
    intro a e hl b hb
    rcases List.mem_cons.mp hb with rfl | hb
    · refine ⟨_, List.mem_cons_self, rule.apply_address _, ?_⟩
      rw [if_pos ⟨by omega, by omega⟩, hR]
    · obtain ⟨b', hb', h1, h2⟩ := ih hl.2.2 b hb
      have hbd := (hl.2.2.bounds hb).1
      refine ⟨b', List.mem_cons_of_mem _ hb', h1, ?_⟩
      rw [h2]
      by_cases hE : b.address < E
      · rw [if_pos ⟨hbd, hE⟩, if_pos ⟨by omega, hE⟩]
      · rw [if_neg (by omega), if_neg (by omega)]

theorem Updated.ipcFace_start {rule : UpdateRule}
    {R : Nat → BitVec 8 × BitVec 16 → BitVec 8 × BitVec 16}
    (hR : ∀ b, (rule.apply b).ipcFace = R b.address b.ipcFace) (hskip : ∀ b, rule.skip b = false)
    {E cur a e : Nat} {it : KMemoryBlock} {rest l' : List KMemoryBlock} {n : Nat} {ok : Bool}
    (h : Updated rule E cur (it :: rest) l' n ok) (hl : BlocksTile a e (it :: rest))
    (hlo : it.address ≤ cur) (hE : cur < E) :
    ∃ b' ∈ l', b'.address = cur ∧
      ((it.address = cur ∧ b'.ipcFace = R cur it.ipcFace) ∨
        (it.address < cur ∧ b'.ipcFace = R cur (0, 0))) := by
  rcases Nat.lt_or_eq_of_le hlo with hlt | heq
  · cases h with
    | done h => omega
    | skipLast hs => rw [hskip] at hs; cases hs
    | skip hs => rw [hskip] at hs; cases hs
    | cutBefore hs _ hhi hdvd _ h =>
      have hcut := tiles_split_snd hl hlt hhi hdvd
      obtain ⟨b', hb', h1, h2⟩ := h.ipcFace hR hskip hcut _ List.mem_cons_self
      refine ⟨b', List.mem_cons_of_mem _ hb', h1, Or.inr ⟨hlt, ?_⟩⟩
      rw [h2, KMemoryBlock.split_snd_ipcFace]; exact if_pos ⟨Nat.le_refl _, hE⟩
    | cutAfter hlo' => omega
    | apply _ hlo' => omega
  · obtain ⟨b', hb', h1, h2⟩ := h.ipcFace hR hskip hl _ List.mem_cons_self
    refine ⟨b', hb', h1.trans heq, Or.inl ⟨heq, ?_⟩⟩
    rw [h2, if_pos ⟨by omega, by omega⟩, heq]

theorem Merged.ipcFace {l l' : List KMemoryBlock} (h : Merged l l') : ∀ b ∈ l, b.ipcFace.1 ≠ 0 →
    ∃ b' ∈ l', b'.address = b.address ∧ b'.ipcFace = b.ipcFace := by
  induction h with
  | refl l => intro b hb _; exact ⟨b, hb, rfl, rfl⟩
  | keep x h ih =>
    intro b hb hn
    rcases List.mem_cons.mp hb with rfl | hb
    · exact ⟨b, List.mem_cons_self, rfl, rfl⟩
    · obtain ⟨b', hb', h1⟩ := ih b hb hn; exact ⟨b', List.mem_cons_of_mem _ hb', h1⟩
  | @merge x y l l' hm h ih =>
    intro b hb hn
    rcases List.mem_cons.mp hb with rfl | hb
    · obtain ⟨b', hb', h1, h2⟩ := ih _ List.mem_cons_self (by rwa [KMemoryBlock.add_ipcFace hm])
      exact ⟨b', hb', h1, h2.trans (KMemoryBlock.add_ipcFace hm)⟩
    · rcases List.mem_cons.mp hb with rfl | hb
      · exact absurd (KMemoryBlock.ipcFace_eq_zero_of_canMergeWith hm) hn
      · exact ih b (List.mem_cons_of_mem _ hb) hn

/-! ## Locks and the pages they cover -/

/-- The range of one `UpdateLock(LockForIpc)` call. -/
structure IpcLock where
  address : Nat
  numPages : Nat
deriving DecidableEq, Repr

namespace IpcLock

def endAddress (k : IpcLock) : Nat := k.address + k.numPages * PageSize

def covers (p : Nat) (k : IpcLock) : Bool := decide (k.address ≤ p ∧ p < k.endAddress)

def startsAt (s : Nat) (k : IpcLock) : Bool := k.address == s

end IpcLock

/-- How many of the live locks cover the page of `p`. -/
def liveAt (live : List IpcLock) (p : Nat) : Nat := live.countP (IpcLock.covers p)

variable {m m₀ : KMemoryBlockManager} (k : IpcLock)

theorem countP_startsAt_cons (live : List IpcLock) (s : Nat) :
    (k :: live).countP (IpcLock.startsAt s) =
      if k.address = s then live.countP (IpcLock.startsAt s) + 1
      else live.countP (IpcLock.startsAt s) := by
  rw [List.countP_cons]
  simp only [IpcLock.startsAt, beq_iff_eq]
  split <;> rfl

theorem liveAt_cons (live : List IpcLock) (p : Nat) :
    liveAt (k :: live) p = if k.address ≤ p ∧ p < k.endAddress then liveAt live p + 1
      else liveAt live p := by
  unfold liveAt
  rw [List.countP_cons]
  simp only [IpcLock.covers, decide_eq_true_eq]
  split <;> rfl

theorem liveAt_erase {k : IpcLock} {live : List IpcLock} (hk : k ∈ live) (p : Nat) :
    liveAt live p = if k.address ≤ p ∧ p < k.endAddress then liveAt (live.erase k) p + 1
      else liveAt (live.erase k) p := by
  rw [← liveAt_cons]; exact (List.perm_cons_erase hk).countP_eq _

/-- A page as it is while `n` locks cover it, having been `q₀` before. -/
structure LockedPage (q₀ : KMemoryProperties) (n : Nat) (q : KMemoryProperties) : Prop where
  count : q.ipcLockCount.toNat = n
  unlocked : n = 0 → q = q₀
  attr : n ≠ 0 → q.memoryAttribute = q₀.memoryAttribute ||| IpcLocked
  original : n ≠ 0 → q.originalPermission = q₀.permission
  state : q.memoryState = q₀.memoryState
  device : q.deviceUseCount = q₀.deviceUseCount

namespace LockedPage

variable {q₀ q : KMemoryProperties} {n : Nat}

theorem count_eq_zero_iff (h : LockedPage q₀ n q) : q.ipcLockCount = 0 ↔ n = 0 := by
  have := h.count
  constructor
  · intro h0
    rw [h0] at this
    exact this.symm
  · intro h0; exact BitVec.eq_of_toNat_eq (by rw [this, h0]; rfl)

theorem lockForIpc (h : LockedPage q₀ n q) (hw : q.ipcLockCount + 1 ≠ 0) (perm : BitVec 8) :
    LockedPage q₀ (n + 1) (q.lockForIpc perm) := by
  have hn := h.count
  have hcount : (q.ipcLockCount + 1).toNat = n + 1 := by bv_omega
  refine ⟨hcount, fun h0 => absurd h0 (Nat.succ_ne_zero n), fun _ => ?_, fun _ => ?_, h.state,
    h.device⟩
  · show q.memoryAttribute ||| IpcLocked = _
    rcases Nat.eq_zero_or_pos n with h0 | h0
    · rw [h.unlocked h0]
    · rw [h.attr (by omega), BitVec.or_assoc, BitVec.or_self]
  · show (if q.ipcLockCount + 1 = 1 then q.permission else q.originalPermission) = _
    rcases Nat.eq_zero_or_pos n with h0 | h0
    · rw [if_pos (by rw [h.count_eq_zero_iff.2 h0]; rfl), h.unlocked h0]
    · rw [if_neg (by bv_omega), h.original (by omega)]

theorem unlockForIpc (h : LockedPage q₀ (n + 1) q) (hq₀ : q₀.memoryAttribute &&& IpcLocked = 0)
    (hc₀ : q₀.ipcLockCount = 0) (ho₀ : q₀.originalPermission = KMemoryPermission.None) :
    LockedPage q₀ n q.unlockForIpc := by
  have hn := h.count
  have hattr := h.attr (Nat.succ_ne_zero n)
  have horig := h.original (Nat.succ_ne_zero n)
  have hcount : (q.ipcLockCount - 1).toNat = n := by bv_omega
  rcases Nat.eq_zero_or_pos n with rfl | hpos
  · have h1 : q.ipcLockCount = 1 := BitVec.eq_of_toNat_eq (by rw [hn]; rfl)
    have hback : q.unlockForIpc = q₀ := by
      have hclear : (q₀.memoryAttribute ||| IpcLocked) &&& ~~~IpcLocked = q₀.memoryAttribute := by
        rw [BitVec.and_or_distrib_right, BitVec.and_not_self, BitVec.ofNat_eq_ofNat, BitVec.or_zero]
        exact Lib.Bits.and_not_eq_self hq₀
      obtain ⟨s, p, o, a, c, d⟩ := q
      obtain ⟨s₀, p₀, o₀, a₀, c₀, d₀⟩ := q₀
      obtain rfl : c = 1 := h1
      obtain rfl : s = s₀ := h.state
      obtain rfl : d = d₀ := h.device
      obtain rfl : o = p₀ := horig
      obtain rfl : a = a₀ ||| IpcLocked := hattr
      obtain rfl : c₀ = 0 := hc₀
      obtain rfl : o₀ = KMemoryPermission.None := ho₀
      simp only [KMemoryProperties.unlockForIpc, if_true, hclear, BitVec.sub_self]; rfl
    rw [hback]
    exact ⟨by rw [hc₀]; rfl, fun _ => rfl, fun h0 => absurd rfl h0, fun h0 => absurd rfl h0, rfl, rfl⟩
  · have h1 : q.ipcLockCount ≠ 1 := by
      intro h1
      rw [h1] at hn
      have : (1 : BitVec 16).toNat = 1 := rfl
      omega
    refine ⟨hcount, fun h0 => by omega, fun _ => ?_, fun _ => ?_, h.state, h.device⟩
    · simp only [KMemoryProperties.unlockForIpc, if_neg h1, hattr]
    · simp only [KMemoryProperties.unlockForIpc, if_neg h1, horig]

theorem ipcLocked_iff (h : LockedPage q₀ n q) (hq₀ : q₀.memoryAttribute &&& IpcLocked = 0) :
    q.memoryAttribute &&& IpcLocked ≠ 0 ↔ 0 < n := by
  rcases Nat.eq_zero_or_pos n with h0 | h0
  · rw [h.unlocked h0, hq₀]
    simp [h0]
  · rw [h.attr (by omega), BitVec.and_or_distrib_right, hq₀, BitVec.and_self]
    exact ⟨fun _ => h0, fun _ => by decide⟩

end LockedPage

/-! ## Runs -/

namespace KMemoryBlockManager

/-- Locking the range would wrap no `u16` counter. -/
def NoWrap (m : KMemoryBlockManager) (k : IpcLock) : Prop :=
  ∀ b ∈ m.memoryBlockTree, b.address < k.endAddress → k.address < b.endAddress →
    b.ipcLockCount + 1 ≠ 0 ∧ (b.address = k.address → b.ipcDisableMergeCount + 1 ≠ 0)

instance (m : KMemoryBlockManager) (k : IpcLock) : Decidable (m.NoWrap k) :=
  inferInstanceAs (Decidable (∀ b ∈ m.memoryBlockTree, _))

def lockIpc (m : KMemoryBlockManager) (k : IpcLock) (perm : BitVec 8) :
    Option (KMemoryBlockManager × UpdateResult) :=
  m.updateLock k.address k.numPages .lockForIpc perm

def unlockIpc (m : KMemoryBlockManager) (k : IpcLock) (perm : BitVec 8) :
    Option (KMemoryBlockManager × UpdateResult) :=
  m.updateLock k.address k.numPages .unlockForIpc perm

/-- The address `x` is the start of a block, or the end of the address space. -/
def IsBoundary (m : KMemoryBlockManager) (x : Nat) : Prop :=
  x = m.endAddress ∨ ∃ b ∈ m.memoryBlockTree, b.address = x

end KMemoryBlockManager

/-- From `m₀`, locks and unlocks lead to `m` with the locks `live` outstanding.  Each unlock uses
    the exact range of a live lock. -/
inductive IpcRun (m₀ : KMemoryBlockManager) : KMemoryBlockManager → List IpcLock → Prop where
  | start : IpcRun m₀ m₀ []
  | lock {m m' live r} (k : IpcLock) (perm : BitVec 8) (h : IpcRun m₀ m live)
      (hr : m.InRange k.address k.numPages) (hw : m.NoWrap k)
      (hs : m.lockIpc k perm = some (m', r)) : IpcRun m₀ m' (k :: live)
  | unlock {m m' live r} (k : IpcLock) (perm : BitVec 8) (h : IpcRun m₀ m live) (hk : k ∈ live)
      (hs : m.unlockIpc k perm = some (m', r)) : IpcRun m₀ m' (live.erase k)

/-- What holds along every run. -/
structure IpcInv (m₀ m : KMemoryBlockManager) (live : List IpcLock) : Prop where
  tiled : m.Tiled
  startAddress : m.startAddress = m₀.startAddress
  endAddress : m.endAddress = m₀.endAddress
  range : ∀ k ∈ live, m.InRange k.address k.numPages
  page : ∀ p q₀, m₀.pageAt p = some q₀ → ∃ q, m.pageAt p = some q ∧ LockedPage q₀ (liveAt live p) q
  left : ∀ k ∈ live, ∃ b ∈ m.memoryBlockTree, b.address = k.address ∧ b.ipcFace.1 ≠ 0 ∧
    live.countP (IpcLock.startsAt k.address) ≤ b.ipcFace.2.toNat

/-- Pages of `m₀`: not locked, nothing to restore. -/
structure Unlocked (m₀ : KMemoryBlockManager) : Prop where
  tiled : m₀.Tiled
  page : ∀ p q₀, m₀.pageAt p = some q₀ → q₀.memoryAttribute &&& IpcLocked = 0 ∧
    q₀.ipcLockCount = 0 ∧ q₀.originalPermission = KMemoryPermission.None

theorem mem_of_pageAt {p : Nat} {q : KMemoryProperties} (h : m.pageAt p = some q) :
    ∃ b ∈ m.memoryBlockTree, b.address ≤ p ∧ p < b.endAddress ∧ b.properties = q := by
  unfold KMemoryBlockManager.pageAt propertiesAt at h
  obtain ⟨b, hb, hq⟩ := Option.map_eq_some_iff.1 h
  obtain ⟨h1, h2, h3⟩ := mem_of_lookup hb
  exact ⟨b, h1, h2, h3, hq⟩

theorem pageAt_of_mem (hm : m.Tiled) {p : Nat} {b : KMemoryBlock} (hb : b ∈ m.memoryBlockTree)
    (h1 : b.address ≤ p) (h2 : p < b.endAddress) : m.pageAt p = some b.properties := by
  unfold KMemoryBlockManager.pageAt propertiesAt
  rw [hm.tiles.lookup_eq_some hb h1 h2]
  rfl

theorem Reachable.unlocked (h : Reachable Respects m₀)
    (hfree : ∀ b ∈ m₀.memoryBlockTree, b.memoryAttribute &&& IpcLocked = 0) : Unlocked m₀ := by
  refine ⟨h.tiled, fun p q₀ hp => ?_⟩
  obtain ⟨b, hb, -, -, rfl⟩ := mem_of_pageAt hp
  have hc : b.ipcLockCount = 0 := by
    by_contra hc
    exact (h.settled b hb).ipcLocked hc (hfree b hb)
  exact ⟨hfree b hb, hc, (h.settled b hb).original hc⟩

theorem eq_of_address_eq (hm : m.Tiled) {b c : KMemoryBlock} (hb : b ∈ m.memoryBlockTree)
    (hc : c ∈ m.memoryBlockTree) (h : b.address = c.address) : b = c := by
  have h1 := hm.tiles.lookup_eq_some hb (Nat.le_refl _) (hm.tiles.bounds hb).2.1
  have h2 := hm.tiles.lookup_eq_some hc (Nat.le_refl _) (hm.tiles.bounds hc).2.1
  rw [h, h2] at h1
  exact (Option.some.inj h1).symm

namespace IpcInv

variable {m₀ m : KMemoryBlockManager} {live : List IpcLock}

theorem start (h₀ : Unlocked m₀) : IpcInv m₀ m₀ [] where
  tiled := h₀.tiled
  startAddress := rfl
  endAddress := rfl
  range := fun k hk => absurd hk List.not_mem_nil
  page := by
    intro p q₀ hp
    obtain ⟨-, hc, -⟩ := h₀.page p q₀ hp
    refine ⟨q₀, hp, ?_, fun _ => rfl, fun h0 => absurd rfl h0, fun h0 => absurd rfl h0, rfl, rfl⟩
    rw [hc]; rfl
  left := fun k hk => absurd hk List.not_mem_nil

theorem isBoundary_start (h : IpcInv m₀ m live) {k : IpcLock} (hk : k ∈ live) :
    m.IsBoundary k.address := by
  obtain ⟨b, hb, hadr, -, -⟩ := h.left k hk; exact Or.inr ⟨b, hb, hadr⟩

theorem isBoundary_end (h : IpcInv m₀ m live) (h₀ : Unlocked m₀) {k : IpcLock} (hk : k ∈ live) :
    m.IsBoundary k.endAddress := by
  have hr := h.range k hk
  have hpos : k.address < k.endAddress :=
    Nat.lt_add_of_pos_right (Nat.mul_pos hr.pos (by decide))
  by_cases hend : k.endAddress = m.endAddress
  · exact Or.inl hend
  by_cases hstart : ∃ j ∈ live, j.address = k.endAddress
  · obtain ⟨j, hj, hje⟩ := hstart; exact hje ▸ h.isBoundary_start hj
  -- no lock starts here, so one lock fewer covers the page on the right
  have hlt : k.endAddress < m.endAddress := by
    have := hr.stop
    unfold IpcLock.endAddress at hend ⊢; omega
  have hle := hr.start
  obtain ⟨b, hb, hb1, hb2⟩ := h.tiled.tiles.exists_mem (p := k.endAddress) (by omega) hlt
  refine Or.inr ⟨b, hb, ?_⟩
  by_contra hne
  have hcount : liveAt live k.endAddress < liveAt live (k.endAddress - 1) := by
    rw [liveAt_erase hk k.endAddress, liveAt_erase hk (k.endAddress - 1), if_neg (by omega),
      if_pos (by omega)]
    refine Nat.lt_succ_of_le (List.countP_mono_left fun j hj hc => ?_)
    have hj' : j.address ≠ k.endAddress := fun he => hstart ⟨j, List.mem_of_mem_erase hj, he⟩
    simp only [IpcLock.covers, decide_eq_true_eq] at hc ⊢; omega
  have hp1 := pageAt_of_mem h.tiled hb hb1 hb2
  have hp2 := pageAt_of_mem h.tiled hb (p := k.endAddress - 1) (by omega) (by omega)
  -- both pages lie in the block `b`, so their counts agree
  have hpage : ∀ p, m.startAddress ≤ p → p < m.endAddress → m.pageAt p = some b.properties →
      b.properties.ipcLockCount.toNat = liveAt live p := by
    intro p hp1 hp2 hpb
    rw [h.startAddress] at hp1
    rw [h.endAddress] at hp2
    obtain ⟨c, hc, hc1, hc2⟩ := h₀.tiled.tiles.exists_mem hp1 hp2
    obtain ⟨q, hq, hl⟩ := h.page p _ (pageAt_of_mem h₀.tiled hc hc1 hc2)
    rw [hpb] at hq
    obtain rfl := Option.some.inj hq; exact hl.count
  have e1 := hpage _ (by omega) hlt hp1
  have e2 := hpage _ (by omega) (by omega) hp2
  omega

end IpcInv

section Step

variable {m m' : KMemoryBlockManager} {k : IpcLock} {f : LockFunction} {perm : BitVec 8}
  {r : UpdateResult} {g : BitVec 8 × BitVec 16 → BitVec 8 × BitVec 16}

/-- How an `UpdateLock` call changes the left faces: `g` at the start of the range. -/
def FacesBy (k : IpcLock) (f : LockFunction) (perm : BitVec 8)
    (g : BitVec 8 × BitVec 16 → BitVec 8 × BitVec 16) : Prop :=
  ∀ b, ((KMemoryBlockManager.updateLockRule k.address k.endAddress f perm).apply b).ipcFace =
    if b.address = k.address then g b.ipcFace else b.ipcFace

theorem updateLock_ipcFace (hg : FacesBy k f perm g) (hm : m.Tiled)
    (hr : m.InRange k.address k.numPages)
    (hs : m.updateLock k.address k.numPages f perm = some (m', r)) {b : KMemoryBlock}
    (hb : b ∈ m.memoryBlockTree) {f' : BitVec 8 × BitVec 16}
    (hf' : f' = if b.address = k.address then g b.ipcFace else b.ipcFace) (hn : f'.1 ≠ 0) :
    ∃ b' ∈ m'.memoryBlockTree, b'.address = b.address ∧ b'.ipcFace = f' := by
  obtain ⟨hr', -, -, hmer, -⟩ := KMemoryBlockManager.updateWith_cases hm hr hs
  obtain ⟨pre, it, post, l', n, ok, a, htree, hpre, hpost, hlo, hhi, hup, hupd⟩ :=
    KMemoryBlockManager.updateBlocks_updated (KMemoryBlockManager.updateLockRule k.address
      (k.address + k.numPages * PageSize) f perm) hm hr
  rw [hr', hup] at hmer
  have hpos : k.address < k.endAddress :=
    Nat.lt_add_of_pos_right (Nat.mul_pos hr.pos (by decide))
  have hmid : ∃ b₁ ∈ pre ++ l', b₁.address = b.address ∧ b₁.ipcFace = f' := by
    rw [htree] at hb
    rcases List.mem_append.mp hb with hb | hb
    · -- in front of the iterator nothing happens
      have hbd := hpre.bounds hb
      have ha := hpost.1
      refine ⟨b, List.mem_append_left _ hb, rfl, ?_⟩
      rw [hf', if_neg (by omega)]
    · obtain ⟨b₁, hb₁, h1, h2⟩ := hupd.ipcFace
        (R := fun s x => if s = k.address then g x else x) hg (fun _ => rfl) hpost b hb
      refine ⟨b₁, List.mem_append_right _ hb₁, h1, ?_⟩
      rw [h2, hf']
      by_cases heq : b.address = k.address
      · exact if_pos ⟨by omega, by unfold IpcLock.endAddress at hpos; omega⟩
      · simp only [if_neg heq, ite_self]
  obtain ⟨b₁, hb₁, h1, h2⟩ := hmid
  obtain ⟨b', hb', h3, h4⟩ := hmer.ipcFace b₁ hb₁ (by rw [h2]; exact hn)
  exact ⟨b', hb', h3.trans h1, h4.trans h2⟩

theorem updateLock_ipcFace_cut (hg : FacesBy k f perm g) (hm : m.Tiled)
    (hr : m.InRange k.address k.numPages)
    (hs : m.updateLock k.address k.numPages f perm = some (m', r))
    (hno : ∀ b ∈ m.memoryBlockTree, b.address ≠ k.address) (hn : (g (0, 0)).1 ≠ 0) :
    ∃ b' ∈ m'.memoryBlockTree, b'.address = k.address ∧ b'.ipcFace = g (0, 0) := by
  obtain ⟨hr', -, -, hmer, -⟩ := KMemoryBlockManager.updateWith_cases hm hr hs
  obtain ⟨pre, it, post, l', n, ok, a, htree, hpre, hpost, hlo, hhi, hup, hupd⟩ :=
    KMemoryBlockManager.updateBlocks_updated (KMemoryBlockManager.updateLockRule k.address
      (k.address + k.numPages * PageSize) f perm) hm hr
  rw [hr', hup] at hmer
  have hpos : k.address < k.endAddress :=
    Nat.lt_add_of_pos_right (Nat.mul_pos hr.pos (by decide))
  obtain ⟨b₁, hb₁, h1, h2⟩ := hupd.ipcFace_start
    (R := fun s x => if s = k.address then g x else x) hg (fun _ => rfl) hpost hlo hpos
  have hit := hno it (by rw [htree]; exact List.mem_append_right _ List.mem_cons_self)
  have h3 : b₁.ipcFace = g (0, 0) := by
    rcases h2 with ⟨heq, -⟩ | ⟨-, h2⟩
    · exact absurd heq hit
    · rw [h2, if_pos rfl]
  obtain ⟨b', hb', h4, h5⟩ := hmer.ipcFace b₁ (List.mem_append_right _ hb₁) (by rw [h3]; exact hn)
  exact ⟨b', hb', h4.trans h1, h5.trans h3⟩

theorem updateLock_pageAt (hm : m.Tiled) (hr : m.InRange k.address k.numPages)
    (hs : m.updateLock k.address k.numPages f perm = some (m', r)) (p : Nat) :
    m'.pageAt p = if k.address ≤ p ∧ p < k.endAddress then (m.pageAt p).map (f.rule perm)
      else m.pageAt p :=
  hm.pageAt_run (c := .updateLock k.address k.numPages f perm) hr
    (beq_iff_eq.2 (Nat.mod_eq_zero_of_dvd hr.aligned)) hs p

theorem updateLock_allocations (hm : m.Tiled) (hr : m.InRange k.address k.numPages)
    (hs : m.updateLock k.address k.numPages f perm = some (m', r)) (h1 : m.IsBoundary k.address)
    (h2 : m.IsBoundary k.endAddress) : r.allocations = 0 := by
  obtain ⟨rfl, -⟩ := KMemoryBlockManager.updateWith_cases hm hr hs
  obtain ⟨pre, it, post, l', n, ok, a, htree, hpre, hpost, hlo, hhi, hup, hupd⟩ :=
    KMemoryBlockManager.updateBlocks_updated (KMemoryBlockManager.updateLockRule k.address
      (k.address + k.numPages * PageSize) f perm) hm hr
  rw [hup]
  have hpos : k.address < k.endAddress :=
    Nat.lt_add_of_pos_right (Nat.mul_pos hr.pos (by decide))
  have ha := hpost.1
  have hmem : ∀ b ∈ m.memoryBlockTree, a ≤ b.address → b ∈ it :: post := by
    intro b hb hab
    rw [htree] at hb
    rcases List.mem_append.mp hb with hb | hb
    · have := hpre.bounds hb
      omega
    · exact hb
  refine hupd.allocations_eq_zero hpost ?_ ?_
  · -- the block at the iterator contains the start of the range, so it is the one starting there
    rcases h1 with h1 | ⟨b, hb, hba⟩
    · have := hr.lt
      omega
    · rcases List.mem_cons.mp (hmem b hb (by omega)) with rfl | hb
      · omega
      · have := hpost.2.2.bounds hb
        omega
  · refine h2.imp_right ?_
    rintro ⟨b, hb, hba⟩; exact ⟨b, hmem b hb (by omega), hba⟩

end Step

theorem facesBy_lockForIpc (perm : BitVec 8) :
    FacesBy k .lockForIpc perm fun x => (IpcLeft, x.2 + 1) := by
  intro b
  show ((b.lockForIpc perm (b.address == k.address)).ipcFace) = _
  by_cases h : b.address = k.address
  · rw [if_pos h, beq_iff_eq.2 h]
    refine Prod.ext ?_ rfl
    show (b.disableMergeAttribute ||| IpcLeft) &&& IpcLeft = IpcLeft
    exact Lib.Bits.or_and_self_right
  · rw [if_neg h, beq_eq_false_iff_ne.2 h]; rfl

theorem facesBy_unlockForIpc (perm : BitVec 8) :
    FacesBy k .unlockForIpc perm fun x => (if x.2 = 1 then 0 else x.1, x.2 - 1) := by
  intro b
  show ((b.unlockForIpc (b.address == k.address)).ipcFace) = _
  by_cases h : b.address = k.address
  · rw [if_pos h, beq_iff_eq.2 h]
    refine Prod.ext ?_ rfl
    show (if true = true ∧ b.ipcDisableMergeCount = 1 then b.disableMergeAttribute &&& ~~~IpcLeft
      else b.disableMergeAttribute) &&& IpcLeft =
      if b.ipcDisableMergeCount = 1 then 0 else b.disableMergeAttribute &&& IpcLeft
    simp only [true_and]
    split
    · rw [BitVec.and_assoc, BitVec.and_comm (~~~IpcLeft), BitVec.and_not_self]
      exact BitVec.and_zero
    · rfl
  · rw [if_neg h, beq_eq_false_iff_ne.2 h]; rfl

namespace IpcInv

variable {m₀ m m' : KMemoryBlockManager} {live : List IpcLock} {k : IpcLock} {perm : BitVec 8}
  {r : UpdateResult}

theorem inRange_of_eq {address numPages : Nat} (hr : m.InRange address numPages)
    (h1 : m'.startAddress = m.startAddress) (h2 : m'.endAddress = m.endAddress) :
    m'.InRange address numPages :=
  ⟨hr.aligned, hr.pos, h1 ▸ hr.start, h2 ▸ hr.stop⟩

/-- **A lock keeps the invariant.** -/
theorem lock (h : IpcInv m₀ m live) (hr : m.InRange k.address k.numPages) (hw : m.NoWrap k)
    (hs : m.lockIpc k perm = some (m', r)) : IpcInv m₀ m' (k :: live) := by
  let c : Call := .updateLock k.address k.numPages .lockForIpc perm
  obtain ⟨-, hst, hnd, -, -⟩ := KMemoryBlockManager.updateWith_cases h.tiled hr hs
  refine ⟨h.tiled.run (c := c) hr hs, hst.trans h.startAddress, hnd.trans h.endAddress, ?_, ?_, ?_⟩
  · intro j hj
    rcases List.mem_cons.mp hj with rfl | hj
    · exact inRange_of_eq hr hst hnd
    · exact inRange_of_eq (h.range j hj) hst hnd
  · intro p q₀ hp
    obtain ⟨q, hq, hlock⟩ := h.page p q₀ hp
    have hpage := updateLock_pageAt h.tiled hr hs p
    rw [hpage, liveAt_cons, hq]
    by_cases hin : k.address ≤ p ∧ p < k.endAddress
    · obtain ⟨b, hb, hb1, hb2, rfl⟩ := mem_of_pageAt hq
      rw [if_pos hin, if_pos hin]
      exact ⟨_, rfl, hlock.lockForIpc (hw b hb (by omega) (by omega)).1 perm⟩
    · rw [if_neg hin, if_neg hin]; exact ⟨q, rfl, hlock⟩
  · intro j hj
    have hg := facesBy_lockForIpc k perm
    have hset : IpcLeft ≠ 0 := by decide
    by_cases hjk : j.address = k.address
    · -- the block at the start of the range has one more lock starting there
      rw [hjk, countP_startsAt_cons, if_pos rfl]
      by_cases hat : ∃ b ∈ m.memoryBlockTree, b.address = k.address
      · obtain ⟨b, hb, hba⟩ := hat
        obtain ⟨b', hb', h1, h2⟩ := updateLock_ipcFace hg h.tiled hr hs hb (if_pos hba).symm hset
        refine ⟨b', hb', h1.trans hba, by rw [h2]; exact hset, ?_⟩
        have hwb := (hw b hb (by
          have := Nat.mul_pos hr.pos (show 0 < PageSize by decide)
          unfold IpcLock.endAddress
          omega) (by have := (h.tiled.tiles.bounds hb).2.1; omega)).2 hba
        have hle : live.countP (IpcLock.startsAt k.address) ≤ b.ipcFace.2.toNat := by
          rcases Nat.eq_zero_or_pos (live.countP (IpcLock.startsAt k.address)) with h0 | h0
          · omega
          · obtain ⟨i, hi, his⟩ := List.countP_pos_iff.1 h0
            have hik : i.address = k.address := beq_iff_eq.1 his
            obtain ⟨b₁, hb₁, hb₁a, -, hb₁c⟩ := h.left i hi
            obtain rfl := eq_of_address_eq h.tiled hb₁ hb (by omega); exact hik ▸ hb₁c
        have hwb' : b.ipcFace.2 + 1 ≠ 0 := hwb
        rw [h2]
        bv_omega
      · obtain ⟨b', hb', h1, h2⟩ := updateLock_ipcFace_cut hg h.tiled hr hs
          (fun b hb hba => hat ⟨b, hb, hba⟩) hset
        refine ⟨b', hb', h1, by rw [h2]; exact hset, ?_⟩
        have h0 : live.countP (IpcLock.startsAt k.address) = 0 := by
          refine List.countP_eq_zero.2 fun i hi his => ?_
          obtain ⟨b, hb, hba, -, -⟩ := h.left i hi
          exact hat ⟨b, hb, hba.trans (beq_iff_eq.1 his)⟩
        rw [h0, h2]; decide
    · rcases List.mem_cons.mp hj with rfl | hj
      · exact absurd rfl hjk
      · obtain ⟨b, hb, hba, hbf, hbc⟩ := h.left j hj
        obtain ⟨b', hb', h1, h2⟩ := updateLock_ipcFace hg h.tiled hr hs hb
          (if_neg (by omega)).symm hbf
        refine ⟨b', hb', h1.trans hba, by rw [h2]; exact hbf, ?_⟩
        rw [countP_startsAt_cons, if_neg (Ne.symm hjk), h2]; exact hbc

/-- **An unlock keeps the invariant.** -/
theorem unlock (h : IpcInv m₀ m live) (h₀ : Unlocked m₀) (hk : k ∈ live)
    (hs : m.unlockIpc k perm = some (m', r)) : IpcInv m₀ m' (live.erase k) := by
  let c : Call := .updateLock k.address k.numPages .unlockForIpc perm
  have hr := h.range k hk
  obtain ⟨-, hst, hnd, -, -⟩ := KMemoryBlockManager.updateWith_cases h.tiled hr hs
  refine ⟨h.tiled.run (c := c) hr hs, hst.trans h.startAddress, hnd.trans h.endAddress, ?_, ?_, ?_⟩
  · intro j hj
    exact inRange_of_eq (h.range j (List.mem_of_mem_erase hj)) hst hnd
  · intro p q₀ hp
    obtain ⟨q, hq, hlock⟩ := h.page p q₀ hp
    have hpage := updateLock_pageAt h.tiled hr hs p
    rw [liveAt_erase hk] at hlock
    rw [hpage, hq]
    by_cases hin : k.address ≤ p ∧ p < k.endAddress
    · rw [if_pos hin] at hlock
      rw [if_pos hin]
      obtain ⟨ha, hc, ho⟩ := h₀.page p q₀ hp
      exact ⟨_, rfl, hlock.unlockForIpc ha hc ho⟩
    · rw [if_neg hin] at hlock
      rw [if_neg hin]; exact ⟨q, rfl, hlock⟩
  · intro j hj
    have hg := facesBy_unlockForIpc k perm
    obtain ⟨b, hb, hba, hbf, hbc⟩ := h.left j (List.mem_of_mem_erase hj)
    rw [(List.perm_cons_erase hk).countP_eq, countP_startsAt_cons] at hbc
    by_cases hjk : j.address = k.address
    · -- `j` itself still starts here, so the count stays positive and `IpcLeft` set
      rw [if_pos hjk.symm] at hbc
      have hpos : 0 < (live.erase k).countP (IpcLock.startsAt j.address) :=
        List.countP_pos_iff.2 ⟨j, hj, beq_iff_eq.2 rfl⟩
      have hne : b.ipcFace.2 ≠ 1 := by
        intro h1
        rw [h1] at hbc
        have : (1 : BitVec 16).toNat = 1 := rfl
        omega
      obtain ⟨b', hb', h1, h2⟩ := updateLock_ipcFace hg h.tiled hr hs hb
        (if_pos (hba.trans hjk)).symm (by simp only [if_neg hne]; exact hbf)
      refine ⟨b', hb', h1.trans hba, by rw [h2]; simp only [if_neg hne]; exact hbf, ?_⟩
      rw [h2]
      bv_omega
    · rw [if_neg (Ne.symm hjk)] at hbc
      obtain ⟨b', hb', h1, h2⟩ := updateLock_ipcFace hg h.tiled hr hs hb (if_neg (by omega)).symm hbf
      exact ⟨b', hb', h1.trans hba, by rw [h2]; exact hbf, by rw [h2]; exact hbc⟩

end IpcInv

theorem IpcRun.inv {live : List IpcLock} (h₀ : Unlocked m₀) (h : IpcRun m₀ m live) :
    IpcInv m₀ m live := by
  induction h with
  | start => exact IpcInv.start h₀
  | lock k perm h hr hw hs ih => exact ih.lock hr hw hs
  | unlock k perm h hk hs ih => exact ih.unlock h₀ hk hs

theorem updateLock_isSome {k : IpcLock} (hm : m.Tiled) (hr : m.InRange k.address k.numPages)
    (f : LockFunction) (perm : BitVec 8) :
    ∃ m' r, m.updateLock k.address k.numPages f perm = some (m', r) := by
  obtain ⟨m', hs, -⟩ := KMemoryBlockManager.updateWith_eq_some
    (KMemoryBlockManager.updateLockRule k.address (k.address + k.numPages * PageSize) f perm)
    hm hr (by rintro ⟨-, b, -, -, hskip⟩; cases hskip)
  exact ⟨m', _, hs⟩

/-- **IPC page locking is exactly reversible.**  After any interleaving of locks and unlocks, every
    page counts its live locks, has `IpcLocked` iff there is one, and is what it was before if
    there is none; both ends of every live lock are boundaries; locking succeeds on every range,
    and unlocking a live lock succeeds without allocating a block. -/
theorem ipc_locking_reversible {m₀ m : KMemoryBlockManager} {live : List IpcLock}
    (h₀ : Reachable Respects m₀)
    (hfree : ∀ b ∈ m₀.memoryBlockTree, b.memoryAttribute &&& IpcLocked = 0) (h : IpcRun m₀ m live) :
    (∀ p q₀, m₀.pageAt p = some q₀ → ∃ q, m.pageAt p = some q ∧
      q.ipcLockCount.toNat = liveAt live p ∧
      (q.memoryAttribute &&& IpcLocked ≠ 0 ↔ 0 < liveAt live p) ∧
      (liveAt live p = 0 → q.permission = q₀.permission ∧
        q.memoryAttribute = q₀.memoryAttribute ∧
        q.originalPermission = KMemoryPermission.None)) ∧
    (∀ k ∈ live, m.IsBoundary k.address ∧ m.IsBoundary k.endAddress) ∧
    (∀ k perm, m.InRange k.address k.numPages → ∃ m' r, m.lockIpc k perm = some (m', r)) ∧
    (∀ k ∈ live, ∀ perm, ∃ m' r, m.unlockIpc k perm = some (m', r) ∧ r.allocations = 0) := by
  have hu := h₀.unlocked hfree
  have hinv := h.inv hu
  have hbound : ∀ k ∈ live, m.IsBoundary k.address ∧ m.IsBoundary k.endAddress := fun k hk =>
    ⟨hinv.isBoundary_start hk, hinv.isBoundary_end hu hk⟩
  refine ⟨fun p q₀ hp => ?_, hbound, fun k perm hr => updateLock_isSome hinv.tiled hr _ perm, ?_⟩
  · obtain ⟨q, hq, hl⟩ := hinv.page p q₀ hp
    obtain ⟨ha, -, ho⟩ := hu.page p q₀ hp
    refine ⟨q, hq, hl.count, hl.ipcLocked_iff ha, fun h0 => ?_⟩
    rw [hl.unlocked h0]
    exact ⟨rfl, rfl, ho⟩
  · intro k hk perm
    have hr := hinv.range k hk
    obtain ⟨m', r, hs⟩ := updateLock_isSome hinv.tiled hr .unlockForIpc perm
    exact ⟨m', r, hs, updateLock_allocations hinv.tiled hr hs (hbound k hk).1 (hbound k hk).2⟩

theorem IpcRun.lock_get {live : List IpcLock} (h : IpcRun m₀ m live) (k : IpcLock) (perm : BitVec 8)
    (hr : m.InRange k.address k.numPages) (hw : m.NoWrap k) (hs : (m.lockIpc k perm).isSome = true) :
    IpcRun m₀ ((m.lockIpc k perm).get hs).1 (k :: live) :=
  .lock (r := ((m.lockIpc k perm).get hs).2) k perm h hr hw (Option.some_get hs).symm

/-- A fresh address space of four pages. -/
def fourPages : KMemoryBlockManager := .init 0 0x4000 slabBlock

/-- ... with its two middle pages locked, then with the two last pages locked as well. -/
def fourPagesLocked : KMemoryBlockManager :=
  ((fourPages.lockIpc ⟨0x1000, 2⟩ KMemoryPermission.UserRead).get (by decide +kernel)).1

def fourPagesLockedTwice : KMemoryBlockManager :=
  ((fourPagesLocked.lockIpc ⟨0x2000, 2⟩ KMemoryPermission.UserRead).get (by decide +kernel)).1

/-- Two overlapping locks, the first of which can be undone without allocating. -/
theorem ipc_locking_reversible_overlapping :
    IpcRun fourPages fourPagesLockedTwice [⟨0x2000, 2⟩, ⟨0x1000, 2⟩] ∧
      ∃ m' r, fourPagesLockedTwice.unlockIpc ⟨0x1000, 2⟩ KMemoryPermission.None = some (m', r) ∧
        r.allocations = 0 := by
  have h₁ : IpcRun fourPages fourPagesLocked [⟨0x1000, 2⟩] :=
    IpcRun.start.lock_get _ KMemoryPermission.UserRead (by decide) (by decide +kernel) _
  have h₂ : IpcRun fourPages fourPagesLockedTwice [⟨0x2000, 2⟩, ⟨0x1000, 2⟩] :=
    h₁.lock_get _ KMemoryPermission.UserRead (by decide +kernel) (by decide +kernel) _
  exact ⟨h₂, (ipc_locking_reversible (.init (by decide) (by decide) (by decide) slabBlock)
    (by decide) h₂).2.2.2 _ (by decide) _⟩

end Suyu.Kernel
