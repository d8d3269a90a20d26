import Mathlib
import Suyu.Common.AllocatorFailure
import Suyu.Nvdrv.AddressSpaceGpu

/-
  `nvhost_as_gpu` when a call FAILS: does an error leave the address space as it was?

  1. **Program** - the calls of `AddressSpaceGpu`, with `Remap` added and the state before `AllocAsEx`.

  2. **Specification (`Unchanged`)** - the allocators, the `gmmu` and the pins are the same, and every key
     of the two maps finds what it found.

  3. **The crux (`freeSpace_unchanged_iff`)** - in front of the errors stand three side effects: `[]` of
     the allocation map puts an empty allocation where there was none, the loop of `FreeSpace` throws AFTER
     it has freed some mappings, and `MapBufferEx` pins its handle before it looks for room.  A failed
     `Allocate` is no fourth one (`eq_of_allocate_zero`).
-/

namespace Suyu.Nvdrv.NvhostAsGpu

open Common VideoCore

theorem setAllocator_same (s : AsGpu) (big : Bool) : s.setAllocator big (s.allocator big) = s := by
  cases big <;> rfl

/-! ## The program -/

/-- `IoctlRemapEntry`, and what `nvmap` says of its handle: whether it knows it, and where it pins it. -/
structure RemapEntry where
  handle : Nat
  handleOffsetBigPages : Nat
  asOffsetBigPages : Nat
  bigPages : Nat
  known : Bool
  base : Nat
  deriving DecidableEq, Repr

namespace AsGpu

/-- A round of the loop of `Remap`. -/
def remapEntry (dm : DeviceMemory) (s : AsGpu) (e : RemapEntry) : NvResult × AsGpu :=
  let virtualAddress := e.asOffsetBigPages * 2 ^ s.config.bigPageBits % 2 ^ 64
  let size := e.bigPages * 2 ^ s.config.bigPageBits % 2 ^ 64
  match s.predecessor virtualAddress with
  | none => (.badValue, s)
  | some (first, allocation) =>
    if (virtualAddress - first + size) % 2 ^ 64 > allocation.size then (.badValue, s)
    else if !allocation.sparse then (.badValue, s)
    else if e.handle = 0 then
      (.success,
        { s with gmmu := s.gmmu.mapSparse s.config dm virtualAddress size allocation.bigPages })
    else if !e.known then (.badValue, s)
    else
      let deviceAddress :=
        (e.base + e.handleOffsetBigPages * 2 ^ s.config.bigPageBits % 2 ^ 64) % 2 ^ 64
      (.success, { s with
        pins := Function.update s.pins e.handle (s.pins e.handle + 1)
        gmmu := s.gmmu.map s.config dm virtualAddress deviceAddress size allocation.bigPages })

/-- `Remap`: the first entry that fails ends it. -/
def remap (dm : DeviceMemory) (s : AsGpu) : List RemapEntry → NvResult × AsGpu
  | [] => (.success, s)
  | e :: rest =>
    match s.remapEntry dm e with
    | (.success, s') => remap dm s' rest
    | failed => failed

end AsGpu

inductive Request where
  | ioctl (c : AsGpu.Ioctl)
  | remap (entries : List RemapEntry)
  deriving DecidableEq, Repr

/-- A call; before `AllocAsEx` the address space is not initialised. -/
def request (dm : DeviceMemory) : Option AsGpu → Request → Option (NvResult × Option AsGpu)
  | none, _ => some (.badValue, none)
  | some s, .ioctl c => (s.call dm c).map fun (r, s') => (r, some s')
  | some s, .remap entries => some ((s.remap dm entries).1, some (s.remap dm entries).2)

/-- What any calls can reach. -/
inductive Reachable (dm : DeviceMemory) : Option AsGpu → Prop where
  | start : Reachable dm none
  | allocAsEx (config : SpaceConfig) (vaRangeStart vaRangeSplit vaRangeEnd : Nat)
      (h : Reachable dm none) :
      Reachable dm (some (.allocAsEx config vaRangeStart vaRangeSplit vaRangeEnd))
  | request {d d' q r} (h : Reachable dm d) (hq : request dm d q = some (r, d')) : Reachable dm d'

/-! ## Specification -/

/-- The same address space: the maps are compared by what is found in them. -/
structure SameSpace (s s' : AsGpu) : Prop where
  config : s'.config = s.config
  small : s'.smallPageAllocator = s.smallPageAllocator
  big : s'.bigPageAllocator = s.bigPageAllocator
  allocations : ∀ k, s'.allocationMap.lookup k = s.allocationMap.lookup k
  mappings : ∀ k, s'.mappingMap.lookup k = s.mappingMap.lookup k
  gmmu : s'.gmmu = s.gmmu
  pins : s'.pins = s.pins

def Unchanged : Option AsGpu → Option AsGpu → Prop
  | none, none => True
  | some s, some s' => SameSpace s s'
  | _, _ => False

/-- `Remap` has one entry. -/
def Single : Request → Prop
  | .remap entries => entries.length = 1
  | .ioctl _ => True

/-- A `FreeSpace` of a known allocation that it does not fit, or whose FIRST mapping is gone. -/
def HarmlessFree (s : AsGpu) (offset pages pageSize : Nat) : Prop :=
  ∃ allocation, s.allocationMap.lookup offset = some allocation ∧
    ((allocation.pageSize ≠ pageSize ∨ allocation.size ≠ pages * pageSize) ∨
      ∀ m ∈ allocation.mappings.head?, s.mappingMap.lookup m.offset = none)

/-- An error of this call comes before any side effect. -/
def Harmless : Option AsGpu → Request → Prop
  | some s, .ioctl (.freeSpace offset pages pageSize) => HarmlessFree s offset pages pageSize
  | some _, .ioctl (.mapBufferEx p info _) => p.remap = true ∨ info = none
  | _, _ => True

/-! ## The allocators -/

/-- No allocator has an unmapped block at zero behind its first one. -/
structure Sound (s : AsGpu) : Prop where
  small : s.smallPageAllocator.UnmappedPositive
  big : s.bigPageAllocator.UnmappedPositive

section Steps

variable {dm : DeviceMemory} {s s' : AsGpu} {r : NvResult}

namespace Sound

theorem allocator (h : Sound s) (big : Bool) : (s.allocator big).UnmappedPositive := by
  cases big with
  | false => exact h.small
  | true => exact h.big

theorem setAllocator (h : Sound s) (big : Bool) {a : FlatAllocator} (ha : a.UnmappedPositive) :
    Sound (s.setAllocator big a) := by
  cases big with
  | false => exact ⟨ha, h.big⟩
  | true => exact ⟨h.small, ha⟩

theorem init (config : SpaceConfig) (vaRangeStart vaRangeSplit vaRangeEnd : Nat) :
    Sound (.allocAsEx config vaRangeStart vaRangeSplit vaRangeEnd) :=
  ⟨FlatAllocator.unmappedPositive_init _ _, FlatAllocator.unmappedPositive_init _ _⟩

theorem of_eq (h : Sound s) (hsmall : s'.smallPageAllocator = s.smallPageAllocator)
    (hbig : s'.bigPageAllocator = s.bigPageAllocator) : Sound s' := by
  constructor
  · rw [hsmall]
    exact h.small
  · rw [hbig]; exact h.big

theorem allocateSpace (h : Sound s) {pages pageSize offset : Nat} {fixed sparse : Bool}
    (hcall : s.allocateSpace dm pages pageSize fixed sparse offset = some (r, s')) : Sound s' := by
  unfold AsGpu.allocateSpace at hcall
  split at hcall
  · cases hcall
    exact h
  split at hcall
  · cases hcall
    exact h
  dsimp only at hcall
  generalize decide (pageSize ≠ suyuPageSize) = big at hcall
  split at hcall
  · obtain ⟨a, ha, hs'⟩ := Option.map_eq_some_iff.mp hcall
    obtain ⟨-, rfl⟩ := Prod.mk.inj hs'
    exact (h.setAllocator big ((h.allocator big).allocateFixed ha)).of_eq rfl rfl
  · obtain ⟨⟨v, a⟩, ha, hs'⟩ := Option.map_eq_some_iff.mp hcall
    have hset := h.setAllocator big ((h.allocator big).allocate ha)
    dsimp only at hs'
    split at hs'
    · obtain ⟨-, rfl⟩ := Prod.mk.inj hs'
      exact hset
    · obtain ⟨-, rfl⟩ := Prod.mk.inj hs'; exact hset.of_eq rfl rfl

theorem freePages (h : Sound s) {m : Mapping} {size : Nat}
    (hfree : s.freePages m size = some s') : Sound s' := by
  unfold AsGpu.freePages at hfree
  split at hfree
  · cases hfree
    exact h
  · obtain ⟨a, ha, rfl⟩ := Option.map_eq_some_iff.mp hfree
    exact h.setAllocator m.bigPage ((h.allocator m.bigPage).free ha)

theorem freeMappings : ∀ {mappings : List Mapping} {s : AsGpu} {ok : Bool}, Sound s →
    s.freeMappings dm mappings = some (ok, s') → Sound s'
  | [], s, ok, h, hfree => by
    cases hfree
    exact h
  | m :: rest, s, ok, h, hfree => by
    unfold AsGpu.freeMappings at hfree
    split at hfree
    · cases hfree
    · cases hfree
      exact h
    · next s₁ hlocked =>
      unfold AsGpu.freeMappingLocked at hlocked
      split at hlocked
      · cases hlocked
      · next held _ =>
        obtain ⟨s₂, hpages, heq⟩ := Option.map_eq_some_iff.mp hlocked
        obtain rfl := Option.some.inj heq
        have hdrop : Sound (s₂.dropMapping dm m.offset held) := (h.freePages hpages).of_eq rfl rfl
        exact freeMappings hdrop hfree

theorem freeSpace (h : Sound s) {offset pages pageSize : Nat}
    (hcall : s.freeSpace dm offset pages pageSize = some (r, s')) : Sound s' := by
  unfold AsGpu.freeSpace at hcall
  dsimp only at hcall
  have htouch : Sound { s with
      allocationMap :=
        s.allocationMap.insert offset ((s.allocationMap.lookup offset).getD .default) } :=
    h.of_eq rfl rfl
  split at hcall
  · cases hcall
    exact htouch
  · split at hcall
    · cases hcall
    · next hfree =>
      cases hcall
      exact freeMappings htouch hfree
    · next s₁ hfree =>
      have h₁ : Sound s₁ := freeMappings htouch hfree
      obtain ⟨s₂, hrelease, heq⟩ := Option.map_eq_some_iff.mp hcall
      obtain ⟨-, rfl⟩ := Prod.mk.inj heq
      unfold AsGpu.releaseSpace at hrelease
      obtain ⟨a, ha, rfl⟩ := Option.map_eq_some_iff.mp hrelease
      exact (h₁.setAllocator _ ((h₁.allocator _).free ha)).of_eq rfl rfl

theorem remapBuffer (h : Sound s) (dm : DeviceMemory) (p : AsGpu.MapParams) :
    Sound (s.remapBuffer dm p).2 := by
  unfold AsGpu.remapBuffer
  split
  · exact h
  · split
    · exact h
    · exact h.of_eq rfl rfl

theorem mapFixed (h : Sound s) (dm : DeviceMemory) (p : AsGpu.MapParams) (deviceAddress size : Nat)
    (big : Bool) : Sound (s.mapFixed dm p deviceAddress size big).2 := by
  unfold AsGpu.mapFixed
  split
  · exact h
  · dsimp only
    split
    · exact h
    · exact h.of_eq rfl rfl

theorem mapAnywhere (h : Sound s) {p : AsGpu.MapParams} {deviceAddress size : Nat} {big : Bool}
    (hcall : s.mapAnywhere dm p deviceAddress size big = some (r, s')) : Sound s' := by
  unfold AsGpu.mapAnywhere at hcall
  obtain ⟨⟨v, a⟩, ha, hs'⟩ := Option.map_eq_some_iff.mp hcall
  have hset := h.setAllocator big ((h.allocator big).allocate ha)
  dsimp only at hs'
  split at hs'
  · obtain ⟨-, rfl⟩ := Prod.mk.inj hs'
    exact hset
  · obtain ⟨-, rfl⟩ := Prod.mk.inj hs'; exact hset.of_eq rfl rfl

theorem mapBufferEx (h : Sound s) {p : AsGpu.MapParams} {info : Option HandleInfo} {base : Nat}
    (hcall : s.mapBufferEx dm p info base = some (r, s')) : Sound s' := by
  have hpin : Sound { s with pins := Function.update s.pins p.handle (s.pins p.handle + 1) } :=
    h.of_eq rfl rfl
  unfold AsGpu.mapBufferEx at hcall
  split at hcall
  · have hremap := h.remapBuffer dm p
    rw [Option.some.inj hcall] at hremap
    exact hremap
  · split at hcall
    · cases hcall
      exact h
    · dsimp only at hcall
      split at hcall
      · have hstate : _ = s' := congrArg Prod.snd (Option.some.inj hcall)
        rw [← hstate]
        exact hpin.mapFixed dm p _ _ _
      · exact hpin.mapAnywhere hcall

theorem unmapBuffer (h : Sound s) {offset : Nat}
    (hcall : s.unmapBuffer dm offset = some (r, s')) : Sound s' := by
  unfold AsGpu.unmapBuffer at hcall
  split at hcall
  · cases hcall
    exact h
  · obtain ⟨s₁, hfree, heq⟩ := Option.map_eq_some_iff.mp hcall
    obtain ⟨-, rfl⟩ := Prod.mk.inj heq; exact (h.freePages hfree).of_eq rfl rfl

theorem call (h : Sound s) {c : AsGpu.Ioctl} (hcall : s.call dm c = some (r, s')) : Sound s' := by
  cases c with
  | allocateSpace pages pageSize fixed sparse offset => exact h.allocateSpace hcall
  | freeSpace offset pages pageSize => exact h.freeSpace hcall
  | mapBufferEx p info base => exact h.mapBufferEx hcall
  | unmapBuffer offset => exact h.unmapBuffer hcall

end Sound

theorem Sound.remapEntry (h : Sound s) (dm : DeviceMemory) (e : RemapEntry) :
    Sound (s.remapEntry dm e).2 := by
  unfold AsGpu.remapEntry
  dsimp only
  split
  · exact h
  split
  · exact h
  split
  · exact h
  split
  · exact h.of_eq rfl rfl
  · split
    · exact h
    · exact h.of_eq rfl rfl

theorem Sound.remap : ∀ {entries : List RemapEntry} {s : AsGpu}, Sound s →
    Sound (s.remap dm entries).2
  | [], _, h => h
  | e :: rest, s, h => by
    have hentry := h.remapEntry dm e
    unfold AsGpu.remap
    split
    · next s₁ heq =>
      rw [heq] at hentry
      exact remap hentry
    · exact hentry

theorem Reachable.sound {d : Option AsGpu} (h : Reachable dm d) : ∀ s ∈ d, Sound s := by
  induction h with
  | start =>
    intro s hs; cases hs
  | allocAsEx config vaRangeStart vaRangeSplit vaRangeEnd _ _ =>
    intro s hs
    obtain rfl := Option.some.inj hs
    exact Sound.init config vaRangeStart vaRangeSplit vaRangeEnd
  | @request d d' q r _ hq ih =>
    intro s' hs'
    cases d with
    | none =>
      obtain ⟨-, rfl⟩ := Prod.mk.inj (Option.some.inj hq); cases hs'
    | some s =>
      have hs := ih s rfl
      cases q with
      | ioctl c =>
        obtain ⟨⟨r', s₁⟩, hcall, heq⟩ := Option.map_eq_some_iff.mp hq
        obtain ⟨-, rfl⟩ := Prod.mk.inj heq
        obtain rfl := Option.some.inj hs'; exact hs.call hcall
      | remap entries =>
        obtain ⟨-, rfl⟩ := Prod.mk.inj (Option.some.inj hq)
        obtain rfl := Option.some.inj hs'; exact hs.remap

/-! ## The calls that fail -/

theorem SameSpace.refl (s : AsGpu) : SameSpace s s :=
  ⟨rfl, rfl, rfl, fun _ => rfl, fun _ => rfl, rfl, rfl⟩

theorem page_eq_zero {v bits : Nat} (h : v * 2 ^ bits = 0) : v = 0 :=
  (Nat.mul_eq_zero.mp h).resolve_right (Nat.pos_iff_ne_zero.mp (Nat.two_pow_pos bits))

theorem allocateSpace_failed (h : Sound s) {pages pageSize offset : Nat} {fixed sparse : Bool}
    (hcall : s.allocateSpace dm pages pageSize fixed sparse offset = some (r, s'))
    (hr : r ≠ .success) : s' = s := by
  unfold AsGpu.allocateSpace at hcall
  split at hcall
  · cases hcall
    rfl
  split at hcall
  · cases hcall
    rfl
  dsimp only at hcall
  generalize decide (pageSize ≠ suyuPageSize) = big at hcall
  split at hcall
  · obtain ⟨a, -, hs'⟩ := Option.map_eq_some_iff.mp hcall
    exact absurd (Prod.mk.inj hs').1.symm hr
  · obtain ⟨⟨v, a⟩, ha, hs'⟩ := Option.map_eq_some_iff.mp hcall
    dsimp only at hs'
    split at hs'
    · next hzero =>
      obtain rfl := page_eq_zero hzero
      obtain ⟨-, rfl⟩ := Prod.mk.inj hs'
      rw [(h.allocator big).eq_of_allocate_zero ha]
      exact setAllocator_same s big
    · exact absurd (Prod.mk.inj hs').1.symm hr

theorem freePages_mappingMap {m : Mapping} {size : Nat} (h : s.freePages m size = some s') :
    s'.mappingMap = s.mappingMap := by
  unfold AsGpu.freePages at h
  split at h
  · cases h
    rfl
  · obtain ⟨a, -, rfl⟩ := Option.map_eq_some_iff.mp h; cases m.bigPage <;> rfl

theorem freeMappings_lookup {k : Nat} : ∀ {mappings : List Mapping} {s : AsGpu} {ok : Bool},
    s.mappingMap.lookup k = none → s.freeMappings dm mappings = some (ok, s') →
    s'.mappingMap.lookup k = none
  | [], s, ok, h, hfree => by
    cases hfree
    exact h
  | m :: rest, s, ok, h, hfree => by
    unfold AsGpu.freeMappings at hfree
    split at hfree
    · cases hfree
    · cases hfree
      exact h
    · next s₁ hlocked =>
      refine freeMappings_lookup ?_ hfree
      unfold AsGpu.freeMappingLocked at hlocked
      split at hlocked
      · cases hlocked
      · next held _ =>
        obtain ⟨s₂, hpages, heq⟩ := Option.map_eq_some_iff.mp hlocked
        obtain rfl := Option.some.inj heq
        have hmap : s₂.mappingMap = s.mappingMap := freePages_mappingMap hpages
        show (s₂.mappingMap.erase m.offset).lookup k = none
        rw [hmap]
        rcases eq_or_ne k m.offset with rfl | hne
        · exact AList.lookup_erase _ _
        · rw [AList.lookup_erase_ne hne]; exact h

theorem freeMappings_throws {m : Mapping} (rest : List Mapping)
    (hm : s.mappingMap.lookup m.offset = none) :
    s.freeMappings dm (m :: rest) = some (false, s) := by
  unfold AsGpu.freeMappings AsGpu.freeMappingLocked
  rw [hm]

theorem freeMappings_gone {m held : Mapping} {rest : List Mapping} {ok : Bool}
    (hm : s.mappingMap.lookup m.offset = some held)
    (hfree : s.freeMappings dm (m :: rest) = some (ok, s')) :
    s'.mappingMap.lookup m.offset = none := by
  unfold AsGpu.freeMappings at hfree
  cases hlocked : s.freeMappingLocked dm m.offset with
  | none =>
    rw [hlocked] at hfree; cases hfree
  | some outcome =>
    rw [hlocked] at hfree
    unfold AsGpu.freeMappingLocked at hlocked
    rw [hm] at hlocked
    obtain ⟨s₁, -, rfl⟩ := Option.map_eq_some_iff.mp hlocked
    exact freeMappings_lookup (AList.lookup_erase _ _) hfree

theorem sameSpace_touch {offset : Nat} {allocation : SpaceAllocation}
    (h : s.allocationMap.lookup offset = some allocation) :
    SameSpace s { s with allocationMap := s.allocationMap.insert offset allocation } := by
  refine ⟨rfl, rfl, rfl, fun k => ?_, fun _ => rfl, rfl, rfl⟩
  show (s.allocationMap.insert offset allocation).lookup k = _
  rcases eq_or_ne k offset with rfl | hne
  · rw [AList.lookup_insert, h]
  · rw [AList.lookup_insert_ne hne]

theorem freeSpace_error {offset pages pageSize : Nat} {allocation : SpaceAllocation}
    (ha : (s.allocationMap.lookup offset).getD .default = allocation)
    (hcall : s.freeSpace dm offset pages pageSize = some (r, s')) (hr : r ≠ .success) :
    let touched := { s with allocationMap := s.allocationMap.insert offset allocation }
    ((allocation.pageSize ≠ pageSize ∨ allocation.size ≠ pages * pageSize) ∧ s' = touched) ∨
      (¬ (allocation.pageSize ≠ pageSize ∨ allocation.size ≠ pages * pageSize) ∧
        touched.freeMappings dm allocation.mappings = some (false, s')) := by
  unfold AsGpu.freeSpace at hcall
  dsimp only at hcall
  rw [ha] at hcall
  split at hcall
  · next hmismatch =>
    cases hcall
    exact Or.inl ⟨hmismatch, rfl⟩
  · next hmatch =>
    split at hcall
    · cases hcall
    · next hfree =>
      cases hcall
      exact Or.inr ⟨hmatch, hfree⟩
    · obtain ⟨s₂, -, heq⟩ := Option.map_eq_some_iff.mp hcall
      exact absurd (Prod.mk.inj heq).1.symm hr

theorem freeSpace_unchanged_iff {offset pages pageSize : Nat}
    (hcall : s.freeSpace dm offset pages pageSize = some (r, s')) (hr : r ≠ .success) :
    SameSpace s s' ↔ HarmlessFree s offset pages pageSize := by
  cases hk : s.allocationMap.lookup offset with
  | none =>
    have hget : (s.allocationMap.lookup offset).getD .default = .default := by rw [hk]; rfl
    constructor
    · intro hsame
      -- the key was not there before
      have hlater : s'.allocationMap.lookup offset = some .default := by
        rcases freeSpace_error hget hcall hr with ⟨-, rfl⟩ | ⟨-, hfree⟩
        · exact AList.lookup_insert _
        · cases hfree
      rw [hsame.allocations offset, hk] at hlater
      cases hlater
    · rintro ⟨allocation, hsome, -⟩
      rw [hk] at hsome; cases hsome
  | some allocation =>
    have hget : (s.allocationMap.lookup offset).getD .default = allocation := by rw [hk]; rfl
    have htouch := sameSpace_touch hk
    rcases freeSpace_error hget hcall hr with ⟨hmismatch, rfl⟩ | ⟨hmatch, hfree⟩
    · exact ⟨fun _ => ⟨allocation, hk, Or.inl hmismatch⟩, fun _ => htouch⟩
    obtain ⟨touched, htouched⟩ : ∃ touched, touched =
      { s with allocationMap := s.allocationMap.insert offset allocation } := ⟨_, rfl⟩
    rw [← htouched] at htouch hfree
    have hmaps : touched.mappingMap = s.mappingMap := by rw [htouched]
    cases hlist : allocation.mappings with
    | nil =>
      rw [hlist] at hfree
      obtain ⟨hok, -⟩ := Prod.mk.inj (Option.some.inj hfree); cases hok
    | cons m rest =>
      rw [hlist] at hfree
      cases hm : s.mappingMap.lookup m.offset with
      | none =>
        rw [freeMappings_throws rest (hmaps ▸ hm)] at hfree
        obtain ⟨-, rfl⟩ := Prod.mk.inj (Option.some.inj hfree)
        refine ⟨fun _ => ⟨allocation, hk, Or.inr ?_⟩, fun _ => htouch⟩
        rintro _ hhead
        rw [hlist] at hhead
        obtain rfl := Option.some.inj hhead; exact hm
      | some held =>
        constructor
        · intro hsame
          have hgone := freeMappings_gone (hmaps ▸ hm) hfree
          rw [hsame.mappings m.offset, hm] at hgone
          cases hgone
        · rintro ⟨allocation', heq, hharmless⟩
          obtain rfl := Option.some.inj (hk.symm.trans heq)
          have hnone := (hharmless.resolve_left hmatch) m (by rw [hlist]; rfl)
          rw [hm] at hnone; cases hnone

theorem mapFixed_failed {p : AsGpu.MapParams} {deviceAddress size : Nat} {big : Bool}
    (hr : (s.mapFixed dm p deviceAddress size big).1 ≠ .success) :
    (s.mapFixed dm p deviceAddress size big).2 = s := by
  unfold AsGpu.mapFixed at hr ⊢
  cases hpred : s.predecessor p.offset with
  | none => rfl
  | some found =>
    rw [hpred] at hr
    dsimp only at hr ⊢
    by_cases hfit : (p.offset - found.1 + size) % 2 ^ 64 > found.2.size
    · rw [if_pos hfit]
    · rw [if_neg hfit] at hr; exact absurd rfl hr

theorem mapAnywhere_failed (h : Sound s) {p : AsGpu.MapParams} {deviceAddress size : Nat} {big : Bool}
    (hcall : s.mapAnywhere dm p deviceAddress size big = some (r, s')) (hr : r ≠ .success) :
    s' = s := by
  unfold AsGpu.mapAnywhere at hcall
  obtain ⟨⟨v, a⟩, ha, hs'⟩ := Option.map_eq_some_iff.mp hcall
  dsimp only at hs'
  split at hs'
  · next hzero =>
    obtain rfl := page_eq_zero hzero
    obtain ⟨-, rfl⟩ := Prod.mk.inj hs'
    rw [(h.allocator big).eq_of_allocate_zero ha]
    exact setAllocator_same s big
  · exact absurd (Prod.mk.inj hs').1.symm hr

theorem mapBufferEx_unchanged_iff (h : Sound s) {p : AsGpu.MapParams} {info : Option HandleInfo}
    {base : Nat} (hcall : s.mapBufferEx dm p info base = some (r, s')) (hr : r ≠ .success) :
    SameSpace s s' ↔ p.remap = true ∨ info = none := by
  unfold AsGpu.mapBufferEx at hcall
  split at hcall
  · next hremap =>
    refine ⟨fun _ => Or.inl hremap, fun _ => ?_⟩
    unfold AsGpu.remapBuffer at hcall
    split at hcall
    · cases hcall
      exact .refl s
    · split at hcall
      · cases hcall
        exact .refl s
      · exact absurd (Prod.mk.inj (Option.some.inj hcall)).1.symm hr
  · next hremap =>
    cases info with
    | none =>
      cases hcall
      exact ⟨fun _ => Or.inr rfl, fun _ => .refl s⟩
    | some handle =>
      refine ⟨fun hsame => ?_, fun hharmless => ?_⟩
      · -- every error leaves the pin
        have hpin : Sound { s with pins := Function.update s.pins p.handle (s.pins p.handle + 1) } :=
          h.of_eq rfl rfl
        have hpins : s' = { s with pins := Function.update s.pins p.handle (s.pins p.handle + 1) } := by
          dsimp only at hcall
          split at hcall
          · have heq := Prod.ext_iff.mp (Option.some.inj hcall)
            exact heq.2.symm.trans (mapFixed_failed (heq.1 ▸ hr))
          · exact mapAnywhere_failed hpin hcall hr
        have hsum := congrFun hsame.pins p.handle
        rw [hpins] at hsum
        dsimp only at hsum
        rw [Function.update_self] at hsum
        omega
      · rcases hharmless with hc | hc
        · exact absurd hc hremap
        · cases hc

theorem remapEntry_failed {e : RemapEntry} (hr : (s.remapEntry dm e).1 ≠ .success) :
    (s.remapEntry dm e).2 = s := by
  unfold AsGpu.remapEntry at hr ⊢
  dsimp only at hr ⊢
  split
  · rfl
  rename_i first allocation hpred
  rw [hpred] at hr
  dsimp only at hr
  split
  · rfl
  rename_i hfit
  rw [if_neg hfit] at hr
  split
  · rfl
  rename_i hsparse
  rw [if_neg hsparse] at hr
  split
  · next hzero =>
    rw [if_pos hzero] at hr
    exact absurd rfl hr
  · next hzero =>
    rw [if_neg hzero] at hr
    split
    · rfl
    · next hknown =>
      rw [if_neg hknown] at hr; exact absurd rfl hr

theorem remap_single (e : RemapEntry) : s.remap dm [e] = s.remapEntry dm e := by
  unfold AsGpu.remap
  split
  · next s₁ heq => exact heq.symm
  · rfl

end Steps

/-! ## The exact condition -/

/-- **A failing call changes nothing exactly when its error comes before any side effect**, in every state
    that any calls can reach. -/
theorem failure_unchanged_iff {dm : DeviceMemory} {d d' : Option AsGpu} {q : Request} {r : NvResult}
    (h : Reachable dm d) (hsingle : Single q) (hq : request dm d q = some (r, d'))
    (hr : r ≠ .success) : Unchanged d d' ↔ Harmless d q := by
  cases d with
  | none =>
    obtain ⟨-, rfl⟩ := Prod.mk.inj (Option.some.inj hq); exact ⟨fun _ => trivial, fun _ => trivial⟩
  | some s =>
    have hs := h.sound s rfl
    cases q with
    | ioctl c =>
      obtain ⟨⟨r', s'⟩, hcall, heq⟩ := Option.map_eq_some_iff.mp hq
      obtain ⟨rfl, rfl⟩ := Prod.mk.inj heq
      cases c with
      | allocateSpace pages pageSize fixed sparse offset =>
        obtain rfl := allocateSpace_failed hs hcall hr; exact ⟨fun _ => trivial, fun _ => .refl _⟩
      | freeSpace offset pages pageSize => exact freeSpace_unchanged_iff hcall hr
      | mapBufferEx p info base => exact mapBufferEx_unchanged_iff hs hcall hr
      | unmapBuffer offset =>
        -- it never fails
        have hcall' : s.unmapBuffer dm offset = some (r', s') := hcall
        unfold AsGpu.unmapBuffer at hcall'
        split at hcall'
        · exact absurd (Prod.mk.inj (Option.some.inj hcall')).1.symm hr
        · obtain ⟨s₁, -, heq⟩ := Option.map_eq_some_iff.mp hcall'
          exact absurd (Prod.mk.inj heq).1.symm hr
    | remap entries =>
      obtain ⟨e, rfl⟩ := List.length_eq_one_iff.mp hsingle
      obtain ⟨rfl, rfl⟩ := Prod.mk.inj (Option.some.inj hq)
      rw [remap_single] at hr
      refine ⟨fun _ => trivial, fun _ => ?_⟩
      show SameSpace s (s.remap dm [e]).2
      rw [remap_single, remapEntry_failed hr]; exact .refl s

/-! ## Two failing calls -/

/-- The default address space. -/
def defaultConfig : SpaceConfig := ⟨37, 17, by decide⟩
def defaultSpace : AsGpu := .allocAsEx defaultConfig (2 ^ 27) (2 ^ 34) (2 ^ 37)
def noDevice : DeviceMemory := ⟨fun _ => 0, fun _ => 0⟩

theorem reachable_defaultSpace : Reachable noDevice (some defaultSpace) :=
  .allocAsEx defaultConfig (2 ^ 27) (2 ^ 34) (2 ^ 37) .start

/-- Two pages are allocated, and one is to be freed. -/
theorem failure_unchanged_iff_mismatch : ∃ d d', Reachable noDevice d ∧
    request noDevice d (.ioctl (.freeSpace 0x8000000 1 0x1000)) = some (.badValue, d') ∧
    Unchanged d d' := by
  have hsome : (request noDevice (some defaultSpace)
      (.ioctl (.allocateSpace 2 0x1000 true false 0x8000000))).isSome = true := by
    decide +kernel
  obtain ⟨⟨r, d⟩, hq⟩ := Option.isSome_iff_exists.mp hsome
  have hreach : Reachable noDevice d := .request reachable_defaultSpace hq
  have hnext : ((request noDevice (some defaultSpace)
      (.ioctl (.allocateSpace 2 0x1000 true false 0x8000000))).bind fun p =>
        (p.2.bind fun s => s.allocationMap.lookup 0x8000000)) =
      some ⟨0x2000, [], 0x1000, false, false⟩ := by
    decide +kernel
  have hfails : ((request noDevice (some defaultSpace)
      (.ioctl (.allocateSpace 2 0x1000 true false 0x8000000))).bind fun p =>
        (request noDevice p.2 (.ioctl (.freeSpace 0x8000000 1 0x1000))).map Prod.fst) =
      some .badValue := by
    decide +kernel
  rw [hq, Option.bind_some] at hnext hfails
  obtain ⟨⟨r', d'⟩, hq', hr'⟩ := Option.map_eq_some_iff.mp hfails
  obtain rfl : r' = NvResult.badValue := hr'
  obtain ⟨s, rfl, hlookup⟩ := Option.bind_eq_some_iff.mp hnext
  refine ⟨_, d', hreach, hq', (failure_unchanged_iff hreach
    (show Single (.ioctl _) from trivial) hq' (by decide)).mpr ?_⟩
  exact ⟨_, hlookup, Or.inl (Or.inr (by decide))⟩

/-- A `FreeSpace` where there is no allocation fails, and leaves one. -/
theorem not_failure_unchanged : ¬ ∀ dm d q r d', Reachable dm d → Single q →
    request dm d q = some (r, d') → r ≠ .success → Unchanged d d' := by
  intro hall
  have hlookup : ((request noDevice (some defaultSpace)
      (.ioctl (.freeSpace 0x8000000 1 0x1000))).map fun p =>
        (p.1, p.2.map fun s => s.allocationMap.lookup 0x8000000)) =
      some (.badValue, some (some .default)) := by
    decide +kernel
  obtain ⟨⟨r, d'⟩, hq, heq⟩ := Option.map_eq_some_iff.mp hlookup
  obtain ⟨rfl, hlast⟩ := Prod.mk.inj heq
  obtain ⟨s', rfl, hs'⟩ := Option.map_eq_some_iff.mp hlast
  have hsame : SameSpace defaultSpace s' :=
    hall noDevice (some defaultSpace) _ _ _ reachable_defaultSpace
      (show Single (.ioctl _) from trivial) hq (by decide)
  rw [hsame.allocations] at hs'
  cases hs'

end Suyu.Nvdrv.NvhostAsGpu
