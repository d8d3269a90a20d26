import Mathlib
import Suyu.Core.DeviceMemoryManager

/-
  The block accesses of `DeviceMemoryManager`: `WalkBlock` over `continuity_tracker`.

  1. **Program** - `Map` with `track` writes for every page of its range how many pages from there on
     are CONSECUTIVE in the host's memory.  `WalkBlock` reads that number for the first page of a
     piece and takes the whole piece at once; `GetSpan` gives out a pointer when it is large enough.

  2. **Specification (`AccessExact`)** - every byte of a read, of a write and of a span is the byte
     the page of its own address translates to.

  3. **When it goes wrong** - `Unmap` does not touch the run lengths.  The walk uses them for
     UNMAPPED pages as well, so a page that was the start of a long mapping hides what is mapped
     behind it later.

  4. **The crux (`Inv`)** - a mapped page belongs to a range that was mapped and not unmapped since,
     and its run ends inside that range.
-/

namespace Suyu.Core

open Function (update update_self update_of_ne)

/-! ## The program -/

/-- The manager with the run lengths. -/
structure TrackedMemoryManager extends DeviceMemoryManager where
  continuityTracker : Nat → Nat

namespace TrackedMemoryManager

/-- The constructor: nothing is mapped and every run has length 1. -/
def initial : TrackedMemoryManager := ⟨.initial, fun _ => 1⟩

/-- The host pointer of a page: null, or `physical_base` and the offset. -/
def hostPointer (physicalBase : Nat) : Option Nat → Nat
  | none => 0
  | some rawAddr => physicalBase + rawAddr

/-- The state of the loop of `TrackContinuityImpl`: `last_ptr`, `page_count` and the array. -/
structure TrackState where
  lastPtr : Nat
  pageCount : Nat
  tracker : Nat → Nat

/-- The body of the loop. -/
def trackPage (startPage : Nat) (pointer : Nat → Nat) (s : TrackState) (index : Nat) : TrackState :=
  let newPtr := pointer index
  let pageCount := if (newPtr + 0x1000) % 2 ^ 64 = s.lastPtr then s.pageCount + 1 else 1
  ⟨newPtr, pageCount, update s.tracker (startPage + index) (pageCount % 2 ^ 32)⟩

/-- `TrackContinuityImpl`: from the last page to the first. -/
def trackContinuity (physicalBase address virtualAddress size : Nat) (memory : Nat → Option Nat)
    (tracker : Nat → Nat) : Nat → Nat :=
  ((List.range (DeviceMemoryManager.numPages size)).reverse.foldl
    (trackPage (address >>> 12)
      (fun i => hostPointer physicalBase (memory (virtualAddress + i * 0x1000))))
    ⟨0, 1, tracker⟩).tracker

/-- `Map` with `track = true`, and `Unmap`. -/
def step (physicalBase : Nat) (m : TrackedMemoryManager) :
    DeviceMemoryManager.Op → Option TrackedMemoryManager
  | .map address virtualAddress size memory =>
      (m.toDeviceMemoryManager.map address virtualAddress size memory).map fun d =>
        { toDeviceMemoryManager := d
          continuityTracker := trackContinuity physicalBase address virtualAddress size memory
            m.continuityTracker }
  | .unmap address size =>
      (m.toDeviceMemoryManager.unmap address size).map fun d =>
        { m with toDeviceMemoryManager := d }

/-- `GetPointer`, relative to `physical_base`. -/
def getPointer (m : TrackedMemoryManager) (address : Nat) : Option Nat :=
  let physAddr := m.compressedPhysicalPtr (address >>> 12)
  if physAddr = 0 then none else some (((physAddr - 1) <<< 12) + address % 0x1000)

def getSpan (m : TrackedMemoryManager) (address size : Nat) : Option Nat :=
  if m.continuityTracker (address >>> 12) <<< 12 ≥ size + address % 0x1000 then m.getPointer address
  else none

/-- The pieces of `WalkBlock`: how many bytes, and from which physical address if it is mapped. -/
def walkBlock (m : TrackedMemoryManager) : Nat → Nat → Nat → Nat → List (Nat × Option Nat)
  | 0, _, _, _ => []
  | fuel + 1, remaining, pageIndex, pageOffset =>
      if remaining = 0 then []
      else
        let nextPages := m.continuityTracker pageIndex
        let copyAmount := min ((nextPages <<< 12) - pageOffset) remaining
        let physAddr := m.compressedPhysicalPtr pageIndex
        (copyAmount, if physAddr = 0 then none else some (((physAddr - 1) <<< 12) + pageOffset)) ::
          m.walkBlock fuel (remaining - copyAmount) (pageIndex + nextPages) 0

/-- The pieces of a device range.  A piece has at least one byte. -/
def pieces (m : TrackedMemoryManager) (address size : Nat) : List (Nat × Option Nat) :=
  m.walkBlock size size (address >>> 12) (address % 0x1000)

/-- What a read copies for a piece. -/
def readPiece (physical : Nat → UInt8) : Nat × Option Nat → List UInt8
  | (amount, none) => List.replicate amount 0
  | (amount, some source) => (List.range amount).map fun i => physical (source + i)

def readBlockUnsafe (m : TrackedMemoryManager) (physical : Nat → UInt8) (address size : Nat) :
    List UInt8 :=
  (m.pieces address size).flatMap (readPiece physical)

/-- `memcpy` into the physical memory. -/
def copyTo (physical : Nat → UInt8) (dest : Nat) : List UInt8 → Nat → UInt8
  | [] => physical
  | byte :: rest => copyTo (update physical dest byte) (dest + 1) rest

/-- The pieces of a write, with what is left of the source. -/
def writePieces (physical : Nat → UInt8) : List (Nat × Option Nat) → List UInt8 → Nat → UInt8
  | [], _ => physical
  | (amount, none) :: rest, source => writePieces physical rest (source.drop amount)
  | (amount, some dest) :: rest, source =>
      writePieces (copyTo physical dest (source.take amount)) rest (source.drop amount)

def writeBlockUnsafe (m : TrackedMemoryManager) (physical : Nat → UInt8) (address : Nat)
    (source : List UInt8) : Nat → UInt8 :=
  writePieces physical (m.pieces address source.length) source

/-! ## Specification -/

/-- A byte of a read, by the page of its own address. -/
def readByte (m : TrackedMemoryManager) (physical : Nat → UInt8) (address : Nat) : UInt8 :=
  (m.getPointer address).elim 0 physical

/-- Bytes written one after the other, each by the page of its own address. -/
def writeBytes (m : TrackedMemoryManager) (physical : Nat → UInt8) (address : Nat) :
    List UInt8 → Nat → UInt8
  | [] => physical
  | byte :: rest =>
      m.writeBytes ((m.getPointer address).elim physical fun p => update physical p byte)
        (address + 1) rest

/-- The block accesses of a state are the page-by-page ones. -/
structure AccessExact (m : TrackedMemoryManager) : Prop where
  read : ∀ physical address size, address + size ≤ 2 ^ 34 →
    m.readBlockUnsafe physical address size =
      (List.range size).map fun i => m.readByte physical (address + i)
  write : ∀ physical address source, address + source.length ≤ 2 ^ 34 →
    m.writeBlockUnsafe physical address source = m.writeBytes physical address source
  span : ∀ address size p, address + size ≤ 2 ^ 34 → m.getSpan address size = some p →
    ∀ i < size, m.getPointer (address + i) = some (p + i)

/-- No unmapped page has a run that reaches a mapped one. -/
def NoStaleRun (m : TrackedMemoryManager) : Prop :=
  ∀ d, m.compressedPhysicalPtr d = 0 → ∀ j < m.continuityTracker d,
    m.compressedPhysicalPtr (d + j) = 0

/-- The pages of a range `(first page, number of pages)`. -/
def Covers (range : Nat × Nat) (d : Nat) : Prop := range.1 ≤ d ∧ d < range.1 + range.2

/-- The calls of the runs: `live` are the ranges that were mapped and not unmapped since.  `Map` is
    for a range that meets none of them, `Unmap` is for one of them. -/
def Allowed (live : List (Nat × Nat)) : DeviceMemoryManager.Op → Prop
  | .map address _ size memory =>
      (address >>> 12) + DeviceMemoryManager.numPages size ≤ devicePages ∧
      (∀ range ∈ live, ∀ d, Covers range d →
        ¬ Covers (address >>> 12, DeviceMemoryManager.numPages size) d) ∧
      ∀ v rawAddr, memory v = some rawAddr → rawAddr < 2 ^ 33
  | .unmap address size => (address >>> 12, DeviceMemoryManager.numPages size) ∈ live

/-- The live ranges after a call. -/
def liveAfter (live : List (Nat × Nat)) : DeviceMemoryManager.Op → List (Nat × Nat)
  | .map address _ size _ => (address >>> 12, DeviceMemoryManager.numPages size) :: live
  | .unmap address size => live.erase (address >>> 12, DeviceMemoryManager.numPages size)

/-- No unmapped page outside of the range of a `Map` has a run that reaches a page of the range that
    gets a backing. -/
def Clear (m : TrackedMemoryManager) : DeviceMemoryManager.Op → Prop
  | .map address virtualAddress size memory =>
      ∀ d, m.compressedPhysicalPtr d = 0 →
        ¬ Covers (address >>> 12, DeviceMemoryManager.numPages size) d →
        ∀ j < m.continuityTracker d, ∀ i < DeviceMemoryManager.numPages size,
          d + j = (address >>> 12) + i → memory (virtualAddress + i * 0x1000) = none
  | .unmap _ _ => True

/-- The runs whose calls are allowed and meet a further condition. -/
inductive Run (physicalBase : Nat)
    (condition : TrackedMemoryManager → DeviceMemoryManager.Op → Prop) :
    TrackedMemoryManager → List (Nat × Nat) → Prop
  | initial : Run physicalBase condition initial []
  | step {m m' : TrackedMemoryManager} {live : List (Nat × Nat)} {op : DeviceMemoryManager.Op}
      (h : Run physicalBase condition m live) (allowed : Allowed live op) (cond : condition m op)
      (hstep : m.step physicalBase op = some m') : Run physicalBase condition m' (liveAfter live op)

/-! ## What a call does to the arrays -/

section Arrays

variable {d d' : DeviceMemoryManager}

/-- The entry of a page with this backing. -/
def physicalPtr : Option Nat → Nat
  | none => 0
  | some rawAddr => ((rawAddr >>> 12) % 2 ^ 32 + 1) % 2 ^ 32

theorem startMulti_ptr (d : DeviceMemoryManager) (physPage baseDev : Nat) :
    (d.startMulti physPage baseDev).2.compressedPhysicalPtr = d.compressedPhysicalPtr := by
  unfold DeviceMemoryManager.startMulti
  split <;> rfl

theorem mapPage_ptr {page : Nat} {backing : Option Nat} (h : d.mapPage page backing = some d') :
    d'.compressedPhysicalPtr = update d.compressedPhysicalPtr page (physicalPtr backing) := by
  cases backing with
  | none =>
    cases h
    rfl
  | some rawAddr =>
    simp only [DeviceMemoryManager.mapPage] at h
    split at h
    · cases h
      rfl
    · obtain ⟨multi, -, hd⟩ := Option.bind_eq_some_iff.mp h
      cases hd
      exact startMulti_ptr _ _ _

theorem unmapPage_ptr {page : Nat} (h : d.unmapPage page = some d') :
    d'.compressedPhysicalPtr = update d.compressedPhysicalPtr page 0 := by
  simp only [DeviceMemoryManager.unmapPage] at h
  split at h
  · cases h
    rfl
  split at h
  · cases h
    rfl
  obtain ⟨⟨⟨more, newStart⟩, multi⟩, -, h⟩ := Option.bind_eq_some_iff.mp h
  dsimp only at h
  split at h
  · cases h
    rfl
  · obtain ⟨⟨value, multi'⟩, -, h⟩ := Option.bind_eq_some_iff.mp h
    cases h
    rfl

theorem foldlM_ptr {f : DeviceMemoryManager → Nat → Option DeviceMemoryManager} {start : Nat}
    (entry : Nat → Nat) (hf : ∀ d d' i, f d i = some d' → d'.compressedPhysicalPtr =
      update d.compressedPhysicalPtr (start + i) (entry i)) (n : Nat)
    (h : (List.range n).foldlM f d = some d') :
    (∀ i < n, d'.compressedPhysicalPtr (start + i) = entry i) ∧
    ∀ p, ¬ Covers (start, n) p → d'.compressedPhysicalPtr p = d.compressedPhysicalPtr p := by
  induction n generalizing d' with
  | zero =>
    cases h
    exact ⟨fun i hi => absurd hi (Nat.not_lt_zero i), fun _ _ => rfl⟩
  | succ n ih =>
    rw [List.range_succ, List.foldlM_append] at h
    obtain ⟨e, he, hlast⟩ := Option.bind_eq_some_iff.mp h
    obtain ⟨hin, hout⟩ := ih he
    have hlast' : f e n = some d' := by
      simpa [List.foldlM_cons, List.foldlM_nil] using hlast
    rw [hf e d' n hlast']
    constructor
    · intro i hi
      by_cases hin' : i = n
      · subst hin'
        exact update_self ..
      · rw [update_of_ne (by omega)]; exact hin i (by omega)
    · intro p hp
      unfold Covers at hp
      rw [update_of_ne (by omega)]
      refine hout p ?_
      unfold Covers; omega

theorem map_ptr {address virtualAddress size : Nat} {memory : Nat → Option Nat}
    (h : d.map address virtualAddress size memory = some d') :
    (∀ i < DeviceMemoryManager.numPages size, d'.compressedPhysicalPtr ((address >>> 12) + i) =
      physicalPtr (memory (virtualAddress + i * 0x1000))) ∧
    ∀ p, ¬ Covers (address >>> 12, DeviceMemoryManager.numPages size) p →
      d'.compressedPhysicalPtr p = d.compressedPhysicalPtr p :=
  foldlM_ptr (fun i => physicalPtr (memory (virtualAddress + i * 0x1000)))
    (fun _ _ _ hf => mapPage_ptr hf) _ h

theorem covers_index {base n p : Nat} (h : Covers (base, n) p) : ∃ i < n, p = base + i := by
  unfold Covers at h; exact ⟨p - base, by omega, by omega⟩

theorem unmap_ptr {address size : Nat} (h : d.unmap address size = some d') :
    (∀ p, Covers (address >>> 12, DeviceMemoryManager.numPages size) p →
      d'.compressedPhysicalPtr p = 0) ∧
    ∀ p, ¬ Covers (address >>> 12, DeviceMemoryManager.numPages size) p →
      d'.compressedPhysicalPtr p = d.compressedPhysicalPtr p := by
  obtain ⟨hin, hout⟩ := foldlM_ptr (fun _ => 0) (fun _ _ _ hf => unmapPage_ptr hf) _ h
  refine ⟨fun p hp => ?_, hout⟩
  obtain ⟨i, hi, rfl⟩ := covers_index hp
  exact hin i hi

end Arrays

/-! ## The run lengths of a `Map` -/

section Track

variable {physicalBase start n : Nat} {backing : Nat → Option Nat} {tracker : Nat → Nat}

/-- Where a host keeps the physical memory: behind the first pages and not at the very end. -/
def HostBase (physicalBase : Nat) : Prop :=
  0x1000 < physicalBase ∧ physicalBase + 2 ^ 33 + 0x1000 ≤ 2 ^ 64

/-- The run of a page: inside the range, with consecutive backings, and of length 1 without one. -/
structure RunOf (n : Nat) (backing : Nat → Option Nat) (i length : Nat) : Prop where
  positive : 0 < length
  inside : i + length ≤ n
  consecutive : ∀ j < length, backing (i + j) = (backing i).map (· + j * 0x1000)
  null : backing i = none → length = 1

theorem hostPointer_next (hbase : HostBase physicalBase) {o o' : Option Nat}
    (ho : ∀ rawAddr, o = some rawAddr → rawAddr < 2 ^ 33)
    (h : (hostPointer physicalBase o + 0x1000) % 2 ^ 64 = hostPointer physicalBase o') :
    ∃ rawAddr, o = some rawAddr ∧ o' = some (rawAddr + 0x1000) := by
  obtain ⟨hlo, hhi⟩ := hbase
  cases o with
  | none =>
    cases o' with
    | none => simp [hostPointer] at h
    | some r' =>
      simp only [hostPointer] at h; omega
  | some r =>
    have hr := ho r rfl
    cases o' with
    | none =>
      simp only [hostPointer] at h; omega
    | some r' =>
      simp only [hostPointer] at h
      refine ⟨r, rfl, ?_⟩
      rw [Option.some.injEq]; omega

theorem RunOf.one {i : Nat} (hi : i < n) : RunOf n backing i 1 where
  positive := Nat.one_pos
  inside := hi
  consecutive := by
    intro j hj
    obtain rfl : j = 0 := by omega
    cases backing i <;> simp_all
  null := fun _ => rfl

theorem RunOf.cons {i length rawAddr : Nat} (h : RunOf n backing (i + 1) length)
    (hi : backing i = some rawAddr) (hnext : backing (i + 1) = some (rawAddr + 0x1000)) :
    RunOf n backing i (length + 1) where
  positive := Nat.succ_pos _
  inside := by
    have := h.inside
    omega
  consecutive := by
    intro j hj
    cases j with
    | zero => simp [hi]
    | succ j =>
      have hc := h.consecutive j (by omega)
      rw [show i + (j + 1) = i + 1 + j by omega, hc, hnext, hi]
      simp only [Option.map_some, Option.some.injEq]; omega
  null := by
    intro hnone
    rw [hi] at hnone; cases hnone

/-- What the loop of `TrackContinuityImpl` has when the pages from `k` on are done. -/
structure TrackInv (physicalBase start n : Nat) (backing : Nat → Option Nat) (tracker : Nat → Nat)
    (k : Nat) (s : TrackState) : Prop where
  last : s.lastPtr = if k < n then hostPointer physicalBase (backing k) else 0
  count : k < n → s.pageCount = s.tracker (start + k)
  done : ∀ i, k ≤ i → i < n → RunOf n backing i (s.tracker (start + i))
  rest : ∀ p, ¬ (start + k ≤ p ∧ p < start + n) → s.tracker p = tracker p

theorem TrackInv.step {k : Nat} {s : TrackState} (hbase : HostBase physicalBase)
    (hraw : ∀ i rawAddr, backing i = some rawAddr → rawAddr < 2 ^ 33) (hn : n ≤ devicePages)
    (h : TrackInv physicalBase start n backing tracker (k + 1) s) (hk : k < n) :
    TrackInv physicalBase start n backing tracker k
      (trackPage start (fun i => hostPointer physicalBase (backing i)) s k) := by
  -- The count that is written is the length of the run of page `k`.
  have hrun : RunOf n backing k (if (hostPointer physicalBase (backing k) + 0x1000) % 2 ^ 64 =
      s.lastPtr then s.pageCount + 1 else 1) := by
    split
    · rename_i hnext
      rw [h.last] at hnext
      by_cases hlast : k + 1 < n
      · rw [if_pos hlast] at hnext
        obtain ⟨rawAddr, h1, h2⟩ := hostPointer_next hbase (hraw k) hnext
        have hdone := h.done (k + 1) (Nat.le_refl _) hlast
        rw [← h.count hlast] at hdone
        exact hdone.cons h1 h2
      · rw [if_neg hlast] at hnext
        have hnull : (hostPointer physicalBase (backing k) + 0x1000) % 2 ^ 64 =
          hostPointer physicalBase none := hnext
        obtain ⟨rawAddr, hk', hnone⟩ := hostPointer_next hbase (hraw k) hnull
        cases hnone
    · exact RunOf.one hk
  have hsmall : n < 2 ^ 32 := by
    have : devicePages = 2 ^ 22 := rfl
    omega
  have hmod := Nat.mod_eq_of_lt (show (if (hostPointer physicalBase (backing k) + 0x1000) % 2 ^ 64 =
      s.lastPtr then s.pageCount + 1 else 1) < 2 ^ 32 by
    have := hrun.inside
    omega)
  constructor
  case last =>
    rw [if_pos hk]; rfl
  case count =>
    intro _
    simp only [trackPage, update_self]; exact hmod.symm
  case done =>
    intro i hi hin
    simp only [trackPage]
    by_cases hik : i = k
    · subst hik
      rw [update_self, hmod]
      exact hrun
    · rw [update_of_ne (by omega)]; exact h.done i (by omega) hin
  case rest =>
    intro p hp
    simp only [trackPage]
    rw [update_of_ne (by omega)]; exact h.rest p (by omega)

theorem trackInv_foldr (start : Nat) (backing : Nat → Option Nat) (tracker : Nat → Nat) (hbase : HostBase physicalBase)
    (hraw : ∀ i rawAddr, backing i = some rawAddr → rawAddr < 2 ^ 33) (hn : n ≤ devicePages)
    (len k : Nat) (hk : k + len = n) :
    TrackInv physicalBase start n backing tracker k ((List.range' k len).foldr
      (fun i s => trackPage start (fun i => hostPointer physicalBase (backing i)) s i)
      ⟨0, 1, tracker⟩) := by
  induction len generalizing k with
  | zero =>
    obtain rfl : k = n := by omega
    constructor
    · rw [if_neg (Nat.lt_irrefl k)]
      rfl
    · intro hk
      exact absurd hk (Nat.lt_irrefl k)
    · intro i h1 h2
      omega
    · intro p _; rfl
  | succ len ih =>
    rw [List.range'_succ, List.foldr_cons]
    exact (ih (k + 1) (by omega)).step hbase hraw hn (by omega)

theorem trackContinuity_spec (address virtualAddress : Nat) (tracker : Nat → Nat) {size : Nat}
    {memory : Nat → Option Nat} (hbase : HostBase physicalBase)
    (hraw : ∀ v rawAddr, memory v = some rawAddr → rawAddr < 2 ^ 33)
    (hn : DeviceMemoryManager.numPages size ≤ devicePages) :
    (∀ i < DeviceMemoryManager.numPages size, RunOf (DeviceMemoryManager.numPages size)
      (fun i => memory (virtualAddress + i * 0x1000)) i
      (trackContinuity physicalBase address virtualAddress size memory tracker
        ((address >>> 12) + i))) ∧
    ∀ p, ¬ Covers (address >>> 12, DeviceMemoryManager.numPages size) p →
      trackContinuity physicalBase address virtualAddress size memory tracker p = tracker p := by
  have hinv := trackInv_foldr (address >>> 12)
    (fun i => memory (virtualAddress + i * 0x1000)) tracker hbase
    (fun i rawAddr h => hraw _ rawAddr h) hn (DeviceMemoryManager.numPages size) 0
    (Nat.zero_add _)
  rw [← List.range_eq_range'] at hinv
  unfold trackContinuity
  rw [List.foldl_reverse]
  constructor
  · intro i hi
    exact hinv.done i (Nat.zero_le _) hi
  · intro p hp; exact hinv.rest p hp

end Track

end TrackedMemoryManager

end Suyu.Core
