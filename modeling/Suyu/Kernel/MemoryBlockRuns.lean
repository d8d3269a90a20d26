/-
  Whole runs of KMemoryBlockManager: the tree stays a coalesced partition of the address space, and
  it refines a plain table of pages.

  1. **Program** — a `Call` is one of the four update functions with its arguments; `Call.run` calls
     it.  `Reachable P m`: the tree `m` comes from `Initialize` by calls on page-aligned, non-empty
     ranges inside the address space, each of which satisfies `P`.
  2. **Spec** — the partition is `IsPartition`, the page table is `pageAt`; `Call.page` is what a
     call does to ONE page.
  3. **The crux** — a call that starts strictly inside the first block and skips it
     (`SkipsFirst`) makes `CoalesceForUpdate` walk off the tree.  Every other call keeps the
     partition (`IsPartition` over whole runs) and is the page rule on exactly its range.
-/
import Suyu.Kernel.MemoryBlockUpdate

namespace Suyu.Kernel

open KMemoryAttribute (IpcLocked DeviceShared)
open Lib.Tiling

/-! ## Calls -/

inductive Call where
  | update (address numPages : Nat) (state : BitVec 32)
      (perm attr setDisableAttr clearDisableAttr : BitVec 8)
  | updateIfMatch (address numPages : Nat) (testState : BitVec 32) (testPerm testAttr : BitVec 8)
      (state : BitVec 32) (perm attr setDisableAttr clearDisableAttr : BitVec 8)
  | updateLock (address numPages : Nat) (lockFunc : LockFunction) (perm : BitVec 8)
  | updateAttribute (address numPages : Nat) (mask attr : BitVec 8)
deriving DecidableEq, Repr

namespace Call

def run (c : Call) (m : KMemoryBlockManager) : Option (KMemoryBlockManager × UpdateResult) :=
  match c with
  | .update address numPages state perm attr setDisableAttr clearDisableAttr =>
      m.update address numPages state perm attr setDisableAttr clearDisableAttr
  | .updateIfMatch address numPages testState testPerm testAttr state perm attr setDisableAttr
      clearDisableAttr =>
      m.updateIfMatch address numPages testState testPerm testAttr state perm attr setDisableAttr
        clearDisableAttr
  | .updateLock address numPages lockFunc perm => m.updateLock address numPages lockFunc perm
  | .updateAttribute address numPages mask attr => m.updateAttribute address numPages mask attr

def address : Call → Nat
  | .update address .. | .updateIfMatch address .. | .updateLock address ..
  | .updateAttribute address .. => address

def numPages : Call → Nat
  | .update _ numPages .. | .updateIfMatch _ numPages .. | .updateLock _ numPages ..
  | .updateAttribute _ numPages .. => numPages

def endAddress (c : Call) : Nat := c.address + c.numPages * PageSize

def rule : Call → UpdateRule
  | .update address _ state perm attr setDisableAttr clearDisableAttr =>
      KMemoryBlockManager.updateRule address state perm attr setDisableAttr clearDisableAttr
  | .updateIfMatch address _ testState testPerm testAttr state perm attr setDisableAttr
      clearDisableAttr =>
      KMemoryBlockManager.updateIfMatchRule address testState testPerm testAttr state perm attr
        setDisableAttr clearDisableAttr
  | .updateLock address numPages lockFunc perm =>
      KMemoryBlockManager.updateLockRule address (address + numPages * PageSize) lockFunc perm
  | .updateAttribute address _ mask attr =>
      KMemoryBlockManager.updateAttributeRule address mask attr

theorem run_eq (c : Call) (m : KMemoryBlockManager) :
    c.run m = m.updateWith c.address c.numPages c.rule := by
  cases c <;> rfl

/-- What the call does to one page of its range. -/
def page : Call → KMemoryProperties → KMemoryProperties
  | .update _ _ state perm attr _ _, q => q.update state perm attr
  | .updateIfMatch _ _ testState testPerm testAttr state perm attr _ _, q =>
      if q.hasProperties testState testPerm testAttr then q.update state perm attr else q
  | .updateLock _ _ lockFunc perm, q => lockFunc.rule perm q
  | .updateAttribute _ _ mask attr, q => q.updateAttribute mask attr

/-- What `svcSetMemoryAttribute`, the only way to `UpdateAttribute`, checks about its arguments:
    `(mask | attr) == mask`. -/
def promise : Call → Bool
  | .updateAttribute _ _ mask attr => (mask ||| attr) == mask
  | _ => true

theorem attrAsserts_iff {attr : BitVec 8} : KMemoryBlockManager.attrAsserts attr = true ↔
    attr &&& (IpcLocked ||| DeviceShared) = 0 := by
  unfold KMemoryBlockManager.attrAsserts
  rw [beq_iff_eq]
  rfl

theorem lawful (c : Call) (h : c.rule.entryAsserts = true) : c.rule.Lawful c.page := by
  cases c with
  | update address numPages state perm attr sd cd =>
    have ha : attr &&& (IpcLocked ||| DeviceShared) = 0 :=
      attrAsserts_iff.1 (Bool.and_eq_true_iff.1 h).2
    exact ⟨fun b _ => rfl, fun b hs => KMemoryProperties.update_eq_self hs ha⟩
  | updateIfMatch address numPages ts tp ta state perm attr sd cd =>
    have ha : attr &&& (IpcLocked ||| DeviceShared) = 0 :=
      attrAsserts_iff.1 (Bool.and_eq_true_iff.1 h).2
    constructor
    · intro b hs
      simp only [rule, KMemoryBlockManager.updateIfMatchRule, Bool.not_eq_false',
        Bool.and_eq_true] at hs
      exact (if_pos hs.1).symm
    · intro b hs
      show (if b.properties.hasProperties ts tp ta = true then b.properties.update state perm attr
        else b.properties) = b.properties
      split
      · next ht =>
        -- it matches and is skipped all the same: it already has the new properties
        simp only [rule, KMemoryBlockManager.updateIfMatchRule, Bool.not_eq_true',
          KMemoryBlock.hasProperties_eq, ht, Bool.true_and, Bool.not_eq_false'] at hs
        exact KMemoryProperties.update_eq_self hs ha
      · rfl
  | updateLock address numPages f perm =>
    exact ⟨fun b _ => (f.apply_spec b perm _ _).2.2, fun b hs => by cases hs⟩
  | updateAttribute address numPages mask attr =>
    exact ⟨fun b _ => rfl, fun b hs => KMemoryProperties.updateAttribute_eq_self (beq_iff_eq.1 hs)⟩

end Call

/-! ## What every page of a run satisfies -/

/-- The lock state of a page is consistent: the attributes are backed by counts, a locked page has
    `IpcLocked` set, and only a locked page has an original permission to restore. -/
structure KMemoryProperties.Settled (q : KMemoryProperties) : Prop where
  counted : q.Counted
  ipcLocked : q.ipcLockCount ≠ 0 → q.memoryAttribute &&& IpcLocked ≠ 0
  original : q.ipcLockCount = 0 → q.originalPermission = KMemoryPermission.None

theorem LockFunction.settled_rule (f : LockFunction) {b : KMemoryBlock} {perm : BitVec 8}
    {left right : Bool} (ha : f.asserts b perm left right = true) (h : b.properties.Settled) :
    (f.rule perm b.properties).Settled := by
  refine ⟨f.counted_rule ha h.counted, ?_, ?_⟩
  · intro hc
    have hi := h.ipcLocked
    rw [and_ipcLocked_ne_zero] at hi ⊢
    cases f with
    | shareToDevice =>
      have := hi hc
      simp [rule, KMemoryProperties.share, this]
    | unshareToDevice | unshareToDeviceRight =>
      have := hi hc
      simp only [rule, KMemoryProperties.unshare]
      split
      · simp only [BitVec.getLsbD_and, this, DeviceShared]
        decide
      · exact this
    | lockForIpc =>
      simp only [rule, KMemoryProperties.lockForIpc, BitVec.getLsbD_or, IpcLocked]; simp
    | unlockForIpc =>
      simp only [asserts, Bool.and_eq_true, beq_iff_eq] at ha
      have hbit : b.memoryAttribute.getLsbD 1 = true := by
        rw [← and_ipcLocked_ne_zero, ha.1.1.1]; decide
      simp only [rule, KMemoryProperties.unlockForIpc] at hc ⊢
      split
      · next h1 =>
        rw [h1] at hc
        exact absurd rfl hc
      · exact hbit
    | updateDeviceDisableMergeStateForShareLeft | updateDeviceDisableMergeStateForShareRight
    | updateDeviceDisableMergeStateForShare | updateDeviceDisableMergeStateForUnshareLeft
    | updateDeviceDisableMergeStateForUnshareRight | updateDeviceDisableMergeStateForUnshare =>
      exact hi hc
  · intro hc
    have ho := h.original
    cases f with
    | shareToDevice | unshareToDevice | unshareToDeviceRight
    | updateDeviceDisableMergeStateForShareLeft | updateDeviceDisableMergeStateForShareRight
    | updateDeviceDisableMergeStateForShare | updateDeviceDisableMergeStateForUnshareLeft
    | updateDeviceDisableMergeStateForUnshareRight | updateDeviceDisableMergeStateForUnshare =>
      exact ho hc
    | lockForIpc =>
      simp only [asserts, Bool.and_eq_true, bne_iff_ne] at ha; exact absurd hc ha.1.1.2
    | unlockForIpc =>
      simp only [rule, KMemoryProperties.unlockForIpc] at hc ⊢
      split
      · rfl
      · next h1 => exact absurd hc (sub_one_ne_zero h1)

theorem Call.settled_page (c : Call) (he : c.rule.entryAsserts = true) (hp : c.promise = true)
    {b : KMemoryBlock} (ha : c.rule.asserts b = true) (h : b.properties.Settled) :
    (c.page b.properties).Settled := by
  -- `Update` keeps the lock bits of the attribute
  have hupdate : ∀ (s : BitVec 32) (p a : BitVec 8), a &&& (IpcLocked ||| DeviceShared) = 0 →
      (b.properties.update s p a).Settled := by
    intro s p a hz
    refine ⟨h.counted.update hz, fun hc => ?_, h.original⟩
    have := h.ipcLocked hc
    rw [and_ipcLocked_ne_zero] at this ⊢
    simp only [KMemoryProperties.update, BitVec.getLsbD_or, BitVec.getLsbD_and, this,
      Bool.true_and]
    rw [show (IpcLocked.getLsbD 1 || DeviceShared.getLsbD 1) = true by decide, Bool.or_true]
  cases c with
  | update address numPages state perm attr sd cd =>
    exact hupdate _ _ _ (attrAsserts_iff.1 (Bool.and_eq_true_iff.1 he).2)
  | updateIfMatch address numPages ts tp ta state perm attr sd cd =>
    simp only [page]
    split
    · exact hupdate _ _ _ (attrAsserts_iff.1 (Bool.and_eq_true_iff.1 he).2)
    · exact h
  | updateLock address numPages f perm => exact f.settled_rule ha h
  | updateAttribute address numPages mask attr =>
    simp only [rule, KMemoryBlockManager.updateAttributeRule, KMemoryBlock.updateAttributeAsserts,
      Bool.and_eq_true, beq_iff_eq] at ha
    simp only [promise, beq_iff_eq] at hp
    -- the mask has no lock bit, hence the attribute has none either
    have hm : mask &&& (IpcLocked ||| DeviceShared) = 0 := by
      rw [BitVec.and_or_distrib_left, ha.1, ha.2]; decide
    have hz : attr &&& (IpcLocked ||| DeviceShared) = 0 := by
      rw [← hp, BitVec.and_or_distrib_right] at hm; exact (BitVec.or_eq_zero_iff.1 hm).2
    refine ⟨h.counted.updateAttribute hz, fun hc => ?_, h.original⟩
    have hb := h.ipcLocked hc
    have hbit : mask.getLsbD 1 = false := by
      have := mt and_ipcLocked_ne_zero.2 (not_not.2 ha.1)
      exact Bool.eq_false_iff.2 this
    rw [and_ipcLocked_ne_zero] at hb ⊢
    simp only [page, KMemoryProperties.updateAttribute, BitVec.getLsbD_or, BitVec.getLsbD_and, hb,
      BitVec.getLsbD_not, hbit]
    rfl

/-! ## Runs -/

/-- Trees that come from `Initialize` by calls on page-aligned, non-empty ranges inside the address
    space, each of which satisfies `P` in the tree it is made on. -/
inductive Reachable (P : KMemoryBlockManager → Call → Prop) : KMemoryBlockManager → Prop where
  | init {st nd : Nat} (hst : PageSize ∣ st) (hnd : PageSize ∣ nd) (hlt : st < nd)
      (startBlock : KMemoryBlock) : Reachable P (.init st nd startBlock)
  | step {m m' : KMemoryBlockManager} {c : Call} {r : UpdateResult} (h : Reachable P m)
      (hr : m.InRange c.address c.numPages) (hp : P m c) (hs : c.run m = some (m', r)) :
      Reachable P m'

/-- The call respects the assertions of the function and of the block method it calls. -/
def Respects (m : KMemoryBlockManager) (c : Call) : Prop :=
  (m.updateBlocks c.address c.numPages c.rule).asserts = true ∧ c.promise = true

instance (m : KMemoryBlockManager) (c : Call) : Decidable (Respects m c) :=
  inferInstanceAs (Decidable (_ ∧ _))

namespace KMemoryBlockManager

theorem init_tiled {st nd : Nat} (hst : PageSize ∣ st) (hnd : PageSize ∣ nd) (hlt : st < nd)
    (startBlock : KMemoryBlock) : (init st nd startBlock).Tiled := by
  refine ⟨hst, rfl, ?_, ?_⟩
  · show st < st + (nd - st) / PageSize * PageSize
    rw [Nat.div_mul_cancel (Nat.dvd_sub hnd hst)]
    omega
  · show st + (nd - st) / PageSize * PageSize = nd
    rw [Nat.div_mul_cancel (Nat.dvd_sub hnd hst)]; omega

theorem Tiled.run {m m' : KMemoryBlockManager} {c : Call} {r : UpdateResult} (hm : m.Tiled)
    (hr : m.InRange c.address c.numPages) (hs : c.run m = some (m', r)) : m'.Tiled := by
  rw [c.run_eq] at hs
  obtain ⟨hr', hst, hnd, hmer, -⟩ := updateWith_cases hm hr hs
  obtain ⟨pre, it, post, l', n, ok, a, -, hpre, hpost, -, -, hup, hupd⟩ :=
    updateBlocks_updated c.rule hm hr
  refine ⟨hst ▸ hm.aligned, ?_⟩
  rw [hst, hnd]
  rw [hr', hup] at hmer
  exact hmer.tiles (hpre.append (hupd.tiles hpost))

theorem forall_properties_run {Q : KMemoryProperties → Prop} {m m' : KMemoryBlockManager} {c : Call}
    {r : UpdateResult} (hm : m.Tiled) (hr : m.InRange c.address c.numPages) (ha : Respects m c)
    (hQ : ∀ b, c.rule.asserts b = true → Q b.properties → Q (c.page b.properties))
    (hs : c.run m = some (m', r)) (h : ∀ b ∈ m.memoryBlockTree, Q b.properties) :
    ∀ b ∈ m'.memoryBlockTree, Q b.properties := by
  rw [c.run_eq] at hs
  obtain ⟨hr', -, -, hmer, -⟩ := updateWith_cases hm hr hs
  obtain ⟨pre, it, post, l', n, ok, a, htree, -, -, -, -, hup, hupd⟩ :=
    updateBlocks_updated c.rule hm hr
  have hok := ha.1
  rw [hup, Bool.and_eq_true] at hok
  rw [hr', hup] at hmer
  refine hmer.forall_properties fun b hb => ?_
  rcases List.mem_append.mp hb with hb | hb
  · exact h b (htree ▸ List.mem_append_left _ hb)
  · refine hupd.forall_properties (c.lawful hok.1) hQ hok.2 (fun d hd => ?_) b hb
    exact h d (htree ▸ List.mem_append_right _ hd)

end KMemoryBlockManager

namespace Reachable

open KMemoryBlockManager

variable {P : KMemoryBlockManager → Call → Prop} {m : KMemoryBlockManager}

theorem tiled (h : Reachable P m) : m.Tiled := by
  induction h with
  | init hst hnd hlt startBlock => exact init_tiled hst hnd hlt startBlock
  | step h hr hp hs ih => exact ih.run hr hs

theorem apart (h : Reachable P m) : m.memoryBlockTree.IsChain Apart := by
  induction h with
  | init hst hnd hlt startBlock => exact List.IsChain.singleton _
  | @step m m' c r h hr hp hs ih =>
    rw [c.run_eq] at hs; exact (updateWith_cases h.tiled hr hs).2.2.2.2 ih

theorem settled (h : Reachable Respects m) : ∀ b ∈ m.memoryBlockTree, b.properties.Settled := by
  induction h with
  | init hst hnd hlt startBlock =>
    intro b hb
    obtain rfl := List.mem_singleton.mp hb
    have hipc : KMemoryAttribute.None &&& IpcLocked = 0 := by decide
    have hdev : KMemoryAttribute.None &&& DeviceShared = 0 := by decide
    exact ⟨⟨fun hn => absurd hipc hn, fun hn => absurd hdev hn⟩, fun hn => absurd rfl hn, fun _ => rfl⟩
  | @step m m' c r h hr hp hs ih =>
    have hok := hp.1
    obtain ⟨pre, it, post, l', n, ok, a, -, -, -, -, -, hup, -⟩ :=
      updateBlocks_updated c.rule h.tiled hr
    rw [hup, Bool.and_eq_true] at hok
    exact forall_properties_run h.tiled hr hp (fun b hb hq => c.settled_page hok.1 hp.2 hb hq) hs ih

end Reachable

/-! ## The partition -/

/-- A coalesced partition of `[st, nd)`. -/
structure IsPartition (st nd : Nat) (m : KMemoryBlockManager) : Prop where
  nonEmpty : ∀ b ∈ m.memoryBlockTree, 0 < b.numPages
  sortedDisjoint : m.memoryBlockTree.Pairwise fun x y => x.endAddress ≤ y.address
  contiguous : m.memoryBlockTree.IsChain fun x y => x.endAddress = y.address
  cover : ∀ p, (∃ b ∈ m.memoryBlockTree, b.address ≤ p ∧ p < b.endAddress) ↔ st ≤ p ∧ p < nd
  counted : ∀ b ∈ m.memoryBlockTree, b.properties.Counted
  coalesced : m.memoryBlockTree.IsChain fun x y => x.canMergeWith y = false
  checkState : m.checkState = true

theorem checkBlock_of_counted {b : KMemoryBlock} (h : b.properties.Counted) :
    KMemoryBlockManager.checkBlock b = true := by
  obtain ⟨h1, h2⟩ := h
  simp only [KMemoryBlockManager.checkBlock, Bool.and_eq_true, Bool.not_eq_true',
    Bool.and_eq_false_iff, bne_eq_false_iff_eq, beq_eq_false_iff_ne]
  constructor
  · by_cases hz : b.memoryAttribute &&& IpcLocked = 0
    · exact Or.inl hz
    · exact Or.inr (h1 hz)
  · by_cases hz : b.memoryAttribute &&& DeviceShared = 0
    · exact Or.inl hz
    · exact Or.inr (h2 hz)

theorem checkStateLoop_eq_true : ∀ (rest : List KMemoryBlock) (prev : KMemoryBlock) {a e : Nat},
    BlocksTile a e (prev :: rest) → (prev :: rest).IsChain Apart →
    (∀ b ∈ prev :: rest, b.properties.Counted) →
    KMemoryBlockManager.checkStateLoop prev rest = true := by
  intro rest
  induction rest with
  | nil => intro prev a e _ _ hc; exact checkBlock_of_counted (hc prev List.mem_cons_self)
  | cons it rest ih =>
    intro prev a e hl hap hc
    rw [List.isChain_cons_cons] at hap
    have hmeet : prev.endAddress = it.address := hl.2.2.1.symm
    have hit := hc it (List.mem_cons_of_mem _ List.mem_cons_self)
    simp only [KMemoryBlockManager.checkStateLoop, Bool.and_eq_true, Bool.not_eq_true', beq_iff_eq]
    exact ⟨⟨⟨hap.1, hmeet⟩, checkBlock_of_counted hit⟩,
      ih it hl.2.2 hap.2 fun b hb => hc b (List.mem_cons_of_mem _ hb)⟩

theorem Reachable.isPartition {m : KMemoryBlockManager} (h : Reachable Respects m) :
    IsPartition m.startAddress m.endAddress m := by
  have htiles := h.tiled.tiles
  have hcounted : ∀ b ∈ m.memoryBlockTree, b.properties.Counted := fun b hb =>
    (h.settled b hb).counted
  refine ⟨fun b hb => ?_, htiles.pairwise, htiles.isChain, fun p => ⟨?_, ?_⟩, hcounted, h.apart, ?_⟩
  · have hlt := (htiles.bounds hb).2.1
    rcases Nat.eq_zero_or_pos b.numPages with h0 | h0
    · simp [KMemoryBlock.endAddress, KMemoryBlock.size, h0] at hlt
    · exact h0
  · rintro ⟨b, hb, h1, h2⟩
    have := htiles.bounds hb
    omega
  · rintro ⟨h1, h2⟩
    exact htiles.exists_mem h1 h2
  · unfold KMemoryBlockManager.checkState
    cases htree : m.memoryBlockTree with
    | nil => rfl
    | cons first rest =>
      rw [htree] at htiles
      exact checkStateLoop_eq_true rest first htiles (htree ▸ h.apart) (htree ▸ hcounted)

instance (m : KMemoryBlockManager) (address numPages : Nat) :
    Decidable (m.InRange address numPages) :=
  decidable_of_iff (PageSize ∣ address ∧ 0 < numPages ∧ m.startAddress ≤ address ∧
    address + numPages * PageSize ≤ m.endAddress)
    ⟨fun h => ⟨h.1, h.2.1, h.2.2.1, h.2.2.2⟩, fun h => ⟨h.aligned, h.pos, h.start, h.stop⟩⟩

/-- `SkipsFirst` for a call. -/
def Call.SkipsFirst (c : Call) (m : KMemoryBlockManager) : Prop := m.SkipsFirst c.address c.rule

instance (c : Call) (m : KMemoryBlockManager) : Decidable (c.SkipsFirst m) :=
  inferInstanceAs (Decidable (_ ∧ ∃ _ ∈ m.memoryBlockTree.head?, _))

/-- The call respects its assertions and does not skip a first block it starts strictly inside. -/
def Clear (m : KMemoryBlockManager) (c : Call) : Prop := Respects m c ∧ ¬ c.SkipsFirst m

instance (m : KMemoryBlockManager) (c : Call) : Decidable (Clear m c) :=
  inferInstanceAs (Decidable (_ ∧ ¬ _))

/-- Every call of the run is on a page-aligned non-empty range of the address space and satisfies
    `P` in the tree it is made on. -/
def Runs (P : KMemoryBlockManager → Call → Prop) : KMemoryBlockManager → List Call → Prop
  | _, [] => True
  | m, c :: cs => m.InRange c.address c.numPages ∧ P m c ∧ ∀ x ∈ c.run m, Runs P x.1 cs

instance decidableRuns (P : KMemoryBlockManager → Call → Prop) [∀ m c, Decidable (P m c)] :
    ∀ m cs, Decidable (Runs P m cs)
  | _, [] => isTrue trivial
  | m, _ :: cs =>
    have := fun x => decidableRuns P x cs
    inferInstanceAs (Decidable (m.InRange _ _ ∧ _ ∧ _))

/-- The tree after a whole run, `none` once a call walked off it. -/
def runAll (m : KMemoryBlockManager) (cs : List Call) : Option KMemoryBlockManager :=
  cs.foldlM (fun m c => (c.run m).map Prod.fst) m

theorem runAll_cons {m : KMemoryBlockManager} {c : Call} {cs : List Call} :
    runAll m (c :: cs) = (c.run m).bind fun x => runAll x.1 cs := by
  unfold runAll
  rw [List.foldlM_cons]
  cases c.run m <;> rfl

theorem Runs.take {P : KMemoryBlockManager → Call → Prop} {cs : List Call} :
    ∀ {m : KMemoryBlockManager} (k : Nat), Runs P m cs → Runs P m (cs.take k) := by
  induction cs with
  | nil => intro m k _; rw [List.take_nil]; trivial
  | cons c cs ih =>
    intro m k h
    cases k with
    | zero => trivial
    | succ k => exact ⟨h.1, h.2.1, fun x hx => ih k (h.2.2 x hx)⟩

theorem Reachable.runAll {cs : List Call} : ∀ {m : KMemoryBlockManager}, Reachable Respects m →
    Runs Clear m cs → ∃ m', Kernel.runAll m cs = some m' ∧ Reachable Respects m' ∧
      m'.startAddress = m.startAddress ∧ m'.endAddress = m.endAddress := by
  induction cs with
  | nil => intro m h _; exact ⟨m, rfl, h, rfl, rfl⟩
  | cons c cs ih =>
    intro m h hrun
    obtain ⟨hr, ⟨hresp, hclear⟩, hnext⟩ := hrun
    obtain ⟨m₁, h₁, hst, hnd, -, -⟩ := KMemoryBlockManager.updateWith_eq_some c.rule h.tiled hr hclear
    rw [← c.run_eq] at h₁
    obtain ⟨m₂, h₂, hreach, hst₂, hnd₂⟩ := ih (h.step hr hresp h₁) (hnext _ h₁)
    refine ⟨m₂, ?_, hreach, hst₂.trans hst, hnd₂.trans hnd⟩
    rw [runAll_cons, h₁]; exact h₂

/-- **The tree stays a coalesced partition over whole runs**: after every prefix of a run whose
    calls all are clear, the call succeeded and the blocks partition `[st, nd)`. -/
theorem isPartition_of_runs {st nd : Nat} (hst : PageSize ∣ st) (hnd : PageSize ∣ nd)
    (hlt : st < nd) (startBlock : KMemoryBlock) (calls : List Call)
    (h : Runs Clear (.init st nd startBlock) calls) (k : Nat) :
    ∃ m, runAll (.init st nd startBlock) (calls.take k) = some m ∧ IsPartition st nd m := by
  obtain ⟨m, hrun, hreach, h1, h2⟩ :=
    (Reachable.init (P := Respects) hst hnd hlt startBlock).runAll (h.take k)
  have hpart := hreach.isPartition
  rw [h1, h2] at hpart
  exact ⟨m, hrun, hpart⟩

/-- A block as the slab hands it out. -/
def slabBlock : KMemoryBlock := ⟨0, 0, 0, 0, 0, 0, 0, 0, 0, 0, 0, 0⟩

theorem isPartition_of_mapped_and_locked_pages :
    ∃ m, runAll (.init 0 0x4000 slabBlock)
      [.update 0x1000 2 KMemoryState.Normal KMemoryPermission.UserReadWrite KMemoryAttribute.None 0 0,
        .updateLock 0x2000 1 .lockForIpc KMemoryPermission.UserRead,
        .updateAttribute 0x1000 2 KMemoryAttribute.Uncached KMemoryAttribute.Uncached,
        .updateLock 0x2000 1 .unlockForIpc KMemoryPermission.None] = some m ∧
      IsPartition 0 0x4000 m :=
  isPartition_of_runs (by decide) (by decide) (by decide) slabBlock
    [.update 0x1000 2 KMemoryState.Normal KMemoryPermission.UserReadWrite KMemoryAttribute.None 0 0,
      .updateLock 0x2000 1 .lockForIpc KMemoryPermission.UserRead,
      .updateAttribute 0x1000 2 KMemoryAttribute.Uncached KMemoryAttribute.Uncached,
      .updateLock 0x2000 1 .unlockForIpc KMemoryPermission.None] (by decide +kernel) 4

/-- Without the condition the first call can run into the null iterator of `CoalesceForUpdate`: `Update`
    of the second page of a fresh address space to what it already is. -/
theorem not_isPartition_of_respecting_runs : ¬ ∀ (st nd : Nat) (startBlock : KMemoryBlock)
    (calls : List Call), PageSize ∣ st → PageSize ∣ nd → st < nd →
    Runs Respects (.init st nd startBlock) calls →
    ∃ m, runAll (.init st nd startBlock) calls = some m ∧ IsPartition st nd m := by
  intro h
  obtain ⟨m, hm, -⟩ := h 0 0x4000 slabBlock
    [.update 0x1000 1 KMemoryState.Free KMemoryPermission.None KMemoryAttribute.None 0 0]
    (by decide) (by decide) (by decide) (by decide +kernel)
  have hnone : runAll (.init 0 0x4000 slabBlock)
      [.update 0x1000 1 KMemoryState.Free KMemoryPermission.None KMemoryAttribute.None 0 0] = none := by
    decide +kernel
  rw [hnone] at hm
  cases hm

/-! ## The page table -/

/-- The abstraction: the six properties of the page holding the address `p`. -/
def KMemoryBlockManager.pageAt (m : KMemoryBlockManager) (p : Nat) : Option KMemoryProperties :=
  propertiesAt m.memoryBlockTree p

theorem propertiesAt_append {a b e : Nat} {l₁ l₂ : List KMemoryBlock} (h₁ : BlocksTile a b l₁)
    (h₂ : BlocksTile b e l₂) (p : Nat) :
    propertiesAt (l₁ ++ l₂) p = if p < b then propertiesAt l₁ p else propertiesAt l₂ p := by
  unfold propertiesAt
  by_cases hp : p < b
  · rw [if_pos hp, h₂.lookup_append_of_lt hp]
  · rw [if_neg hp, h₁.lookup_append_of_ge (not_lt.mp hp)]

theorem KMemoryBlockManager.Tiled.pageAt_run {m m' : KMemoryBlockManager} {c : Call}
    {r : UpdateResult} (hm : m.Tiled) (hr : m.InRange c.address c.numPages)
    (he : c.rule.entryAsserts = true) (hs : c.run m = some (m', r)) (p : Nat) :
    m'.pageAt p = if c.address ≤ p ∧ p < c.endAddress then (m.pageAt p).map c.page
      else m.pageAt p := by
  rw [c.run_eq] at hs
  obtain ⟨hr', -, -, hmer, -⟩ := updateWith_cases hm hr hs
  obtain ⟨pre, it, post, l', n, ok, a, htree, hpre, hpost, hlo, -, hup, hupd⟩ :=
    updateBlocks_updated c.rule hm hr
  rw [hr', hup] at hmer
  have hl' := hupd.tiles hpost
  have ha := hpost.1
  unfold KMemoryBlockManager.pageAt
  rw [hmer.propertiesAt (hpre.append hl'), htree, propertiesAt_append hpre hl',
    propertiesAt_append hpre hpost, hupd.propertiesAt (c.lawful he) hpost]
  by_cases hp : p < a
  · -- in front of the iterator, hence in front of the range
    rw [if_pos hp, if_pos hp, if_neg (by omega)]
  · rw [if_neg hp, if_neg hp]; rfl

/-- **The tree refines the page table**: on every reachable tree, a call is the page rule on
    exactly the pages of its range EXACTLY WHEN it does not skip a first block it starts strictly
    inside of; otherwise it does not return. -/
theorem refines_page_table_iff {m : KMemoryBlockManager} (h : Reachable (fun _ _ => True) m)
    (c : Call) (hr : m.InRange c.address c.numPages) (he : c.rule.entryAsserts = true) :
    (∃ m' r, c.run m = some (m', r) ∧ ∀ p, m'.pageAt p =
      if c.address ≤ p ∧ p < c.endAddress then (m.pageAt p).map c.page else m.pageAt p) ↔
    ¬ c.SkipsFirst m := by
  constructor
  · rintro ⟨m', r, hs, -⟩ hskip
    rw [c.run_eq, KMemoryBlockManager.updateWith_eq_none h.tiled hr hskip] at hs
    cases hs
  · intro hclear
    obtain ⟨m', hs, -⟩ := KMemoryBlockManager.updateWith_eq_some c.rule h.tiled hr hclear
    rw [← c.run_eq] at hs; exact ⟨m', _, hs, h.tiled.pageAt_run hr he hs⟩

/-- Mapping two pages in the middle of a fresh address space. -/
theorem refines_page_table_map_two_pages :
    ∃ m' r, (Call.update 0x1000 2 KMemoryState.Normal KMemoryPermission.UserReadWrite
        KMemoryAttribute.None 0 0).run (.init 0 0x4000 slabBlock) = some (m', r) ∧
      ∀ p, m'.pageAt p = if 0x1000 ≤ p ∧ p < 0x3000 then
        ((KMemoryBlockManager.init 0 0x4000 slabBlock).pageAt p).map (·.update KMemoryState.Normal
          KMemoryPermission.UserReadWrite KMemoryAttribute.None)
        else (KMemoryBlockManager.init 0 0x4000 slabBlock).pageAt p :=
  (refines_page_table_iff (.init (by decide) (by decide) (by decide) slabBlock)
    (.update 0x1000 2 KMemoryState.Normal KMemoryPermission.UserReadWrite KMemoryAttribute.None 0 0)
    (by decide) (by decide)).2 (by decide +kernel)

/-- Without the condition: `UpdateAttribute` of the second page of a fresh address space to the
    attribute it already has. -/
theorem not_refines_page_table : ¬ ∀ (m : KMemoryBlockManager) (c : Call),
    Reachable (fun _ _ => True) m → m.InRange c.address c.numPages → c.rule.entryAsserts = true →
    ∃ m' r, c.run m = some (m', r) ∧ ∀ p, m'.pageAt p =
      if c.address ≤ p ∧ p < c.endAddress then (m.pageAt p).map c.page else m.pageAt p := by
  intro h
  obtain ⟨m', r, hs, -⟩ := h (.init 0 0x4000 slabBlock)
    (.updateAttribute 0x1000 1 KMemoryAttribute.Uncached KMemoryAttribute.None)
    (.init (by decide) (by decide) (by decide) slabBlock) (by decide) (by decide)
  have hnone : (Call.updateAttribute 0x1000 1 KMemoryAttribute.Uncached KMemoryAttribute.None).run
      (.init 0 0x4000 slabBlock) = none := by decide +kernel
  rw [hnone] at hs
  cases hs

end Suyu.Kernel
