import Mathlib
import Suyu.Core.MultiAddressContainer

/-
  `DeviceMemoryManager` (`device_memory_manager.inc`): the map from device pages to physical pages,
  and the reverse map.

  1. **Program** - `Map` and `Unmap` write `compressed_physical_ptr` page by page and keep
     `compressed_device_addr` beside it: 0 for no device page, the page itself for one, and
     `MULTI_FLAG` with the start of a list for more.  `InnerGatherDeviceAddresses` and
     `ApplyOpOnPAddr` read the reverse map.

  2. **Specification (`ReverseMapExact`)** - for every physical page the pages that are reported are
     exactly the device pages mapped to it, each once; the lists of different physical pages are
     disjoint and end, and the free ids are the entries in no list.

  3. **The crux (`Inv`)** - one of two shapes for every physical page: a direct value and no list,
     or a list of at least TWO.  Device page 0 stands for "none": the allocator starts at page 1.
     The number of entries never passes the number of device pages, because the array grows only
     when every entry holds a mapped page.

  Left out: the CPU backing addresses and the continuity tracker, which neither function reads.
-/

namespace Suyu.Core

open Function (update update_idem update_eq_self update_self update_of_ne)

/-! ## The program -/

/-- `device_as_size >> SUYU_PAGEBITS` with `device_virtual_bits = 34`. -/
def devicePages : Nat := 2 ^ (34 - 12)

/-- `MULTI_FLAG`, `MULTI_MASK`. -/
def multiFlag : Nat := 2 ^ 31

def multiMask : Nat := 2 ^ 31 - 1

/-- The two arrays, by device page and by physical page, and the lists. -/
structure DeviceMemoryManager where
  compressedPhysicalPtr : Nat → Nat
  compressedDeviceAddr : Nat → Nat
  multiDevAddress : MultiAddressContainer

namespace DeviceMemoryManager

/-- The constructor: nothing is mapped. -/
def initial : DeviceMemoryManager := ⟨fun _ => 0, fun _ => 0, .empty⟩

/-- The number of pages of a range: `AlignUp(size, SUYU_PAGESIZE) >> SUYU_PAGEBITS`. -/
def numPages (size : Nat) : Nat := (size + 0xFFF) / 0x1000

/-- The list a physical page gets a further device page in: the list it has, or a new one that
    starts with the page it had. -/
def startMulti (m : DeviceMemoryManager) (physPage baseDev : Nat) : Nat × DeviceMemoryManager :=
  if baseDev >>> 31 = 0 then
    let (startId, multi) := m.multiDevAddress.register baseDev
    (startId, { m with
      compressedDeviceAddr := update m.compressedDeviceAddr physPage (multiFlag ||| startId)
      multiDevAddress := multi })
  else (baseDev &&& multiMask, m)

/-- The body of the loop of `Map`; `backing` is what `GetPointerSilent` gives, relative to
    `physical_base`. -/
def mapPage (m : DeviceMemoryManager) (page : Nat) (backing : Option Nat) :
    Option DeviceMemoryManager :=
  match backing with
  | none => some { m with compressedPhysicalPtr := update m.compressedPhysicalPtr page 0 }
  | some rawAddr =>
      let physAddr := ((rawAddr >>> 12) % 2 ^ 32 + 1) % 2 ^ 32
      let m := { m with
        compressedPhysicalPtr := update m.compressedPhysicalPtr page physAddr }
      let baseDev := m.compressedDeviceAddr (physAddr - 1)
      let newDev := page % 2 ^ 32
      if baseDev = 0 then some { m with
        compressedDeviceAddr := update m.compressedDeviceAddr (physAddr - 1) newDev }
      else do
        let (startId, m) := m.startMulti (physAddr - 1) baseDev
        let multi ← m.multiDevAddress.registerAt newDev startId
        return { m with multiDevAddress := multi }

/-- `Map`; `memory` is the address space of the process. -/
def map (m : DeviceMemoryManager) (address virtualAddress size : Nat) (memory : Nat → Option Nat) :
    Option DeviceMemoryManager :=
  (List.range (numPages size)).foldlM
    (fun m i => m.mapPage ((address >>> 12) + i) (memory (virtualAddress + i * 0x1000))) m

/-- The body of the loop of `Unmap`. -/
def unmapPage (m : DeviceMemoryManager) (page : Nat) : Option DeviceMemoryManager :=
  let physAddr := m.compressedPhysicalPtr page
  let m := { m with compressedPhysicalPtr := update m.compressedPhysicalPtr page 0 }
  if physAddr = 0 then some m
  else
    let baseDev := m.compressedDeviceAddr (physAddr - 1)
    if baseDev >>> 31 = 0 then some { m with
      compressedDeviceAddr := update m.compressedDeviceAddr (physAddr - 1) 0 }
    else do
      let ((moreEntries, newStart), multi) ←
        m.multiDevAddress.unregister (page % 2 ^ 32) (baseDev &&& multiMask)
      if moreEntries then return { m with
        compressedDeviceAddr :=
          update m.compressedDeviceAddr (physAddr - 1) (newStart ||| multiFlag)
        multiDevAddress := multi }
      let (value, multi) ← multi.releaseEntry newStart
      return { m with
        compressedDeviceAddr := update m.compressedDeviceAddr (physAddr - 1) value
        multiDevAddress := multi }

def unmap (m : DeviceMemoryManager) (address size : Nat) : Option DeviceMemoryManager :=
  (List.range (numPages size)).foldlM (fun m i => m.unmapPage ((address >>> 12) + i)) m

/-- `InnerGatherDeviceAddresses`: the contents of the buffer. -/
def innerGatherDeviceAddresses (m : DeviceMemoryManager) (address : Nat) : Option (List Nat) :=
  let backing := m.compressedDeviceAddr (address >>> 12)
  if backing >>> 31 ≠ 0 then m.multiDevAddress.gatherValues (backing &&& multiMask)
  else some [backing]

/-- `ApplyOpOnPAddr`: the device addresses `operation` is called with. -/
def applyOpOnPAddr (m : DeviceMemoryManager) (address : Nat) : Option (List Nat) :=
  let subbits := address % 0x1000
  let base := m.compressedDeviceAddr (address >>> 12)
  if base >>> 31 = 0 then some [(base <<< 12) + subbits]
  else do
    let buffer ← m.innerGatherDeviceAddresses address
    return buffer.map fun value => (value <<< 12) + subbits

/-! ## Runs -/

/-- The calls of a run. -/
inductive Op where
  | map (address virtualAddress size : Nat) (memory : Nat → Option Nat)
  | unmap (address size : Nat)

def step (m : DeviceMemoryManager) : Op → Option DeviceMemoryManager
  | .map address virtualAddress size memory => m.map address virtualAddress size memory
  | .unmap address size => m.unmap address size

/-- The device range is inside the address space and starts at page `first` or later; a mapped page
    is not mapped already and its backing lies in the physical memory (at most 8 GiB). -/
def Op.Valid (first : Nat) (m : DeviceMemoryManager) : Op → Prop
  | .map address _ size memory =>
      first ≤ address >>> 12 ∧ (address >>> 12) + numPages size ≤ devicePages ∧
      (∀ i < numPages size, m.compressedPhysicalPtr ((address >>> 12) + i) = 0) ∧
      ∀ v rawAddr, memory v = some rawAddr → rawAddr < 2 ^ 33
  | .unmap address size => (address >>> 12) + numPages size ≤ devicePages

/-- The states of the runs whose mappings use pages from `first` on. -/
inductive Reachable (first : Nat) : DeviceMemoryManager → Prop
  | initial : Reachable first initial
  | step {m m' : DeviceMemoryManager} {op : Op} (h : Reachable first m) (hop : op.Valid first m)
      (hstep : m.step op = some m') : Reachable first m'

/-- The reverse map of a manager says what its forward map says. -/
structure ReverseMapExact (m : DeviceMemoryManager) : Prop where
  reports : ∀ address, ∃ pages : List Nat, pages.Nodup ∧
    (∀ d, d ∈ pages ↔ m.compressedPhysicalPtr d = (address >>> 12) + 1) ∧
    m.innerGatherDeviceAddresses address = some (if pages = [] then [0] else pages) ∧
    m.applyOpOnPAddr address = some ((if pages = [] then [0] else pages).map fun d =>
      (d <<< 12) + address % 0x1000)
  lists : ∃ chains : Nat → List Nat, m.multiDevAddress.Holds chains ∧
    ∀ p, (chains p).head? = if m.compressedDeviceAddr p >>> 31 = 0 then none
      else some (m.compressedDeviceAddr p &&& multiMask)

/-! ## The invariant -/

section Flags

theorem flag_eq {id : Nat} (h : id < 2 ^ 31) : multiFlag ||| id = 2 ^ 31 + id := by
  have hor := Nat.two_pow_add_eq_or_of_lt h 1
  rw [mul_one] at hor
  exact hor.symm

theorem flag_shift {id : Nat} (h : id < 2 ^ 31) : (multiFlag ||| id) >>> 31 = 1 := by
  rw [flag_eq h, Nat.shiftRight_eq_div_pow]; omega

theorem flag_mask {id : Nat} (h : id < 2 ^ 31) : (multiFlag ||| id) &&& multiMask = id := by
  rw [flag_eq h, multiMask, Nat.and_two_pow_sub_one_eq_mod]; omega

theorem page_shift {d : Nat} (h : d < devicePages) : d >>> 31 = 0 := by
  have hd : d < 2 ^ 22 := h
  rw [Nat.shiftRight_eq_div_pow]
  omega

end Flags

/-- The invariant of the runs, with the list of every physical page: either there is no list and
    the page itself stands in the array, or there is a list of at least two. -/
structure Inv (m : DeviceMemoryManager) (chains : Nat → List Nat) : Prop where
  holds : m.multiDevAddress.Holds chains
  zero : m.compressedPhysicalPtr 0 = 0
  inside : ∀ d, m.compressedPhysicalPtr d ≠ 0 → d < devicePages
  single : ∀ p, chains p = [] → m.compressedDeviceAddr p < devicePages ∧
    ∀ d, m.compressedPhysicalPtr d = p + 1 ↔ d = m.compressedDeviceAddr p ∧ d ≠ 0
  multi : ∀ p, chains p ≠ [] → 2 ≤ (chains p).length ∧
    (∃ start, (chains p).head? = some start ∧ m.compressedDeviceAddr p = multiFlag ||| start) ∧
    ((chains p).map m.multiDevAddress.valueOf).Nodup ∧
    ∀ d, m.compressedPhysicalPtr d = p + 1 ↔ d ∈ (chains p).map m.multiDevAddress.valueOf
  size_le : m.multiDevAddress.size ≤ devicePages

theorem initial_inv : Inv initial fun _ => [] where
  holds := MultiAddressContainer.empty_holds
  zero := rfl
  inside := fun d h => absurd rfl h
  single := fun p _ => ⟨show 0 < devicePages by decide, fun d => by
    constructor
    · intro h
      cases h
    · rintro ⟨rfl, h⟩; exact absurd rfl h⟩
  multi := fun p h => absurd rfl h
  size_le := by decide

section Invariant

variable {m : DeviceMemoryManager} {chains : Nat → List Nat}

theorem Inv.start_lt (h : Inv m chains) {p start : Nat} (hp : (chains p).head? = some start) :
    start < 2 ^ 31 := by
  have hmem : start ∈ chains p := List.mem_of_mem_head? hp
  have hle := (h.holds.inside p start hmem).2.trans h.size_le
  have : devicePages < 2 ^ 31 := by decide
  omega

theorem Inv.shift_eq_zero_iff (h : Inv m chains) (p : Nat) :
    m.compressedDeviceAddr p >>> 31 = 0 ↔ chains p = [] := by
  constructor
  · intro hz
    by_contra hne
    obtain ⟨-, ⟨start, hstart, haddr⟩, -⟩ := h.multi p hne
    rw [haddr, flag_shift (h.start_lt hstart)] at hz
    cases hz
  · intro hnil; exact page_shift (h.single p hnil).1

/-- **The invariant is the specification.** -/
theorem Inv.exact (h : Inv m chains) : ReverseMapExact m := by
  refine ⟨fun address => ?_, chains, h.holds, fun p => ?_⟩
  · rcases eq_or_ne (chains (address >>> 12)) [] with hnil | hne
    · obtain ⟨hlt, hiff⟩ := h.single _ hnil
      have hshift := page_shift hlt
      rcases Nat.eq_zero_or_pos (m.compressedDeviceAddr (address >>> 12)) with hzero | hpos
      · refine ⟨[], List.nodup_nil, fun d => ?_, ?_, ?_⟩
        · rw [hiff d, hzero]
          simp
        · simp [innerGatherDeviceAddresses, hzero]
        · simp [applyOpOnPAddr, hzero]
      · refine ⟨[m.compressedDeviceAddr (address >>> 12)], List.nodup_singleton _, fun d => ?_, ?_,
          ?_⟩
        · rw [hiff d, List.mem_singleton]
          exact ⟨fun hd => ⟨hd, by omega⟩, fun hd => hd.1⟩
        · simp [innerGatherDeviceAddresses, hshift]
        · simp [applyOpOnPAddr, hshift]
    · obtain ⟨hlen, ⟨start, hstart, haddr⟩, hnodup, hiff⟩ := h.multi _ hne
      have hstartlt := h.start_lt hstart
      have hgather : m.multiDevAddress.gatherValues start =
          some ((chains (address >>> 12)).map m.multiDevAddress.valueOf) :=
        MultiAddressContainer.gatherLoop_eq (h.holds.inside _) (hstart ▸ h.holds.linked _)
          ((h.holds.length_le _).trans (Nat.le_succ _))
      have hmap : (chains (address >>> 12)).map m.multiDevAddress.valueOf ≠ [] := by
        simpa using hne
      have hinner : m.innerGatherDeviceAddresses address =
          some ((chains (address >>> 12)).map m.multiDevAddress.valueOf) := by
        simp [innerGatherDeviceAddresses, haddr, flag_shift hstartlt, flag_mask hstartlt, hgather]
      refine ⟨(chains (address >>> 12)).map m.multiDevAddress.valueOf, hnodup,
        fun d => (hiff d).symm, ?_, ?_⟩
      · rw [if_neg hmap, hinner]
      · rw [if_neg hmap]; simp [applyOpOnPAddr, haddr, flag_shift hstartlt, hinner]
  · rcases eq_or_ne (chains p) [] with hnil | hne
    · rw [if_pos ((h.shift_eq_zero_iff p).mpr hnil), hnil]
      rfl
    · obtain ⟨-, ⟨start, hstart, haddr⟩, -⟩ := h.multi p hne
      rw [if_neg fun hz => hne ((h.shift_eq_zero_iff p).mp hz), haddr,
        flag_mask (h.start_lt hstart), hstart]

theorem size_lt {c : MultiAddressContainer} {ptr : Nat → Nat} {page : Nat} (hc : c.Holds chains)
    (hvalue : ∀ p, ∀ id ∈ chains p, ptr (c.valueOf id) = p + 1)
    (hnodup : ∀ p, ((chains p).map c.valueOf).Nodup)
    (hinside : ∀ d, ptr d ≠ 0 → d < devicePages) (hpage : ptr page = 0) (hlt : page < devicePages)
    (hfree : c.freeEntries = []) : c.size + 1 ≤ devicePages := by
  have hchain : ∀ id ∈ Finset.Icc 1 c.size, ∃ p, id ∈ chains p := by
    intro id hid
    by_contra hno
    have := (hc.free_iff id).mpr ⟨Finset.mem_Icc.mp hid, fun p hp => hno ⟨p, hp⟩⟩
    rw [hfree] at this; cases this
  have hcard : (Finset.Icc 1 c.size).card ≤ ((Finset.range devicePages).erase page).card := by
    refine Finset.card_le_card_of_injOn c.valueOf (fun id hid => ?_) fun id hid id' hid' heq => ?_
    · obtain ⟨p, hp⟩ := hchain id hid
      have hne : ptr (c.valueOf id) ≠ 0 := by
        rw [hvalue p id hp]; omega
      refine Finset.mem_coe.mpr (Finset.mem_erase.mpr ⟨?_, Finset.mem_range.mpr (hinside _ hne)⟩)
      intro hc
      rw [hc] at hne
      exact hne hpage
    · obtain ⟨p, hp⟩ := hchain id hid
      obtain ⟨p', hp'⟩ := hchain id' hid'
      have hpp : p = p' := by
        have h1 := hvalue p id hp
        rw [heq, hvalue p' id' hp'] at h1; omega
      subst hpp; exact List.inj_on_of_nodup_map (hnodup p) hp hp' heq
  rw [Nat.card_Icc, Finset.card_erase_of_mem (Finset.mem_range.mpr hlt), Finset.card_range] at hcard
  omega

theorem Inv.value_ptr (h : Inv m chains) {p id : Nat} (hid : id ∈ chains p) :
    m.compressedPhysicalPtr (m.multiDevAddress.valueOf id) = p + 1 := by
  have hne : chains p ≠ [] := List.ne_nil_of_mem hid
  exact ((h.multi p hne).2.2.2 _).mpr (List.mem_map_of_mem hid)

theorem Inv.values_nodup (h : Inv m chains) (p : Nat) :
    ((chains p).map m.multiDevAddress.valueOf).Nodup := by
  rcases eq_or_ne (chains p) [] with hnil | hne
  · rw [hnil]
    exact List.nodup_nil
  · exact (h.multi p hne).2.2.1

end Invariant

/-! ## What a page keeps -/

section Pages

variable {m m' : DeviceMemoryManager} {chains : Nat → List Nat} {p page v : Nat} {l : List Nat}

theorem Inv.change (h : Inv m chains)
    (hptr : m'.compressedPhysicalPtr = update m.compressedPhysicalPtr page v)
    (haddr : ∀ q, q ≠ p → m'.compressedDeviceAddr q = m.compressedDeviceAddr q)
    (hholds : m'.multiDevAddress.Holds (update chains p l)) (hvalues : ∀ q, q ≠ p → ∀ id ∈ chains q,
      m'.multiDevAddress.valueOf id = m.multiDevAddress.valueOf id)
    (hpage : ∀ q, q ≠ p → m.compressedPhysicalPtr page ≠ q + 1 ∧ v ≠ q + 1)
    (hzero : m'.compressedPhysicalPtr 0 = 0) (hin : page < devicePages)
    (hsingle : l = [] → m'.compressedDeviceAddr p < devicePages ∧
      ∀ d, m'.compressedPhysicalPtr d = p + 1 ↔ d = m'.compressedDeviceAddr p ∧ d ≠ 0)
    (hmulti : l ≠ [] → 2 ≤ l.length ∧
      (∃ start, l.head? = some start ∧ m'.compressedDeviceAddr p = multiFlag ||| start) ∧
      (l.map m'.multiDevAddress.valueOf).Nodup ∧
      ∀ d, m'.compressedPhysicalPtr d = p + 1 ↔ d ∈ l.map m'.multiDevAddress.valueOf)
    (hsize : m'.multiDevAddress.size ≤ devicePages) : Inv m' (update chains p l) := by
  have hself : update chains p l p = l := update_self ..
  have hne : ∀ q, q ≠ p → update chains p l q = chains q := fun q hq =>
    update_of_ne hq _ _
  -- no page comes to or leaves another physical page
  have hsame : ∀ q, q ≠ p → ∀ d,
      m'.compressedPhysicalPtr d = q + 1 ↔ m.compressedPhysicalPtr d = q + 1 := by
    intro q hq d
    rw [hptr]
    rcases eq_or_ne d page with rfl | hd
    · rw [update_self]
      exact ⟨fun hv => absurd hv (hpage q hq).2, fun hv => absurd hv (hpage q hq).1⟩
    · rw [update_of_ne hd]
  refine ⟨hholds, hzero, fun d hd => ?_, fun q hq => ?_, fun q hq => ?_, hsize⟩
  · rcases eq_or_ne d page with rfl | hdp
    · exact hin
    · rw [hptr, update_of_ne hdp] at hd; exact h.inside d hd
  · rcases eq_or_ne q p with rfl | hqp
    · exact hsingle (hself ▸ hq)
    · rw [hne q hqp] at hq
      obtain ⟨hlt, hiff⟩ := h.single q hq
      rw [haddr q hqp]; exact ⟨hlt, fun d => (hsame q hqp d).trans (hiff d)⟩
  · rcases eq_or_ne q p with rfl | hqp
    · rw [hself] at hq ⊢
      exact hmulti hq
    · rw [hne q hqp] at hq ⊢
      obtain ⟨hlen, hstart, hnodup, hiff⟩ := h.multi q hq
      rw [haddr q hqp, List.map_congr_left (hvalues q hqp)]
      exact ⟨hlen, hstart, hnodup, fun d => (hsame q hqp d).trans (hiff d)⟩

/-- **A page is mapped**, whatever its physical page held before. -/
theorem Inv.mapPage (h : Inv m chains) (hpos : 1 ≤ page) (hin : page < devicePages)
    (hfree : m.compressedPhysicalPtr page = 0) (backing : Option Nat)
    (hbacking : ∀ rawAddr, backing = some rawAddr → rawAddr < 2 ^ 33) :
    ∃ m' chains', m.mapPage page backing = some m' ∧ Inv m' chains' ∧
      ∀ d, d ≠ page → m'.compressedPhysicalPtr d = m.compressedPhysicalPtr d := by
  cases backing with
  | none =>
    refine ⟨m, chains, ?_, h, fun _ _ => rfl⟩
    rw [DeviceMemoryManager.mapPage, ← hfree, update_eq_self]
  | some rawAddr =>
    have hraw := hbacking rawAddr rfl
    obtain ⟨p, hp⟩ : ∃ p, rawAddr >>> 12 = p := ⟨_, rfl⟩
    have hplt : p < 2 ^ 21 := by
      rw [← hp, Nat.shiftRight_eq_div_pow]; omega
    have hphys : ((rawAddr >>> 12) % 2 ^ 32 + 1) % 2 ^ 32 = p + 1 := by
      rw [hp]; omega
    have hdev : page % 2 ^ 32 = page := Nat.mod_eq_of_lt (hin.trans (by decide))
    have hother : ∀ q, q ≠ p → m.compressedPhysicalPtr page ≠ q + 1 ∧ p + 1 ≠ q + 1 := by
      intro q hq
      rw [hfree]; omega
    have hzero : update m.compressedPhysicalPtr page (p + 1) 0 = 0 := by
      rw [update_of_ne (by omega)]; exact h.zero
    have hkeep : ∀ d, d ≠ page → update m.compressedPhysicalPtr page (p + 1) d =
        m.compressedPhysicalPtr d := fun d hd => update_of_ne hd _ _
    have hptr : ∀ d, update m.compressedPhysicalPtr page (p + 1) d = p + 1 ↔
        d = page ∨ m.compressedPhysicalPtr d = p + 1 := by
      intro d
      rcases eq_or_ne d page with rfl | hd
      · simp
      · simp [hd]
    simp only [DeviceMemoryManager.mapPage, hphys, Nat.add_sub_cancel, hdev]
    rcases eq_or_ne (chains p) [] with hnil | hne
    · obtain ⟨hlt, hiff⟩ := h.single p hnil
      rcases Nat.eq_zero_or_pos (m.compressedDeviceAddr p) with hbase | hbase
      · -- the first device page
        refine ⟨_, update chains p [], if_pos hbase, ?_, hkeep⟩
        refine h.change (l := []) rfl (fun q hq => update_of_ne hq _ _) ?_
          (fun _ _ _ _ => rfl) hother hzero hin (fun _ => ?_) (fun hc => absurd rfl hc) h.size_le
        · rw [← hnil, update_eq_self]
          exact h.holds
        · refine ⟨?_, fun d => ?_⟩
          · simp only [update_self]
            exact hin
          · rw [hptr d]
            simp only [update_self, hiff d, hbase]
            constructor
            · rintro (rfl | ⟨rfl, hd⟩)
              · exact ⟨rfl, by omega⟩
              · exact absurd rfl hd
            · exact fun hd => .inl hd.1
      · -- the second device page: the direct value becomes a list
        have hbasePtr : m.compressedPhysicalPtr (m.compressedDeviceAddr p) = p + 1 :=
          (hiff _).mpr ⟨rfl, by omega⟩
        have hbaseNe : m.compressedDeviceAddr p ≠ page := by
          intro hc
          rw [hc, hfree] at hbasePtr; omega
        obtain ⟨id₀, c₁, hreg, hholds₁, hval₀, hvals₁, hid₀, hsize₁⟩ :=
          h.holds.register (m.compressedDeviceAddr p) hnil
        have hchain₁ : update chains p [id₀] p = [id₀] := update_self ..
        obtain ⟨id, c₂, hregAt, hholds₂, hval, hvals₂, hsize₂⟩ :=
          hholds₁.registerAt page id₀ (show _ = some id₀ by rw [hchain₁]; rfl)
        rw [hchain₁, update_idem] at hholds₂
        have hle₁ : c₁.size ≤ devicePages := by
          rcases hsize₁ with hs | ⟨hf, hs⟩
          · rw [hs]
            exact h.size_le
          · rw [hs]
            exact size_lt h.holds (fun q x hx => h.value_ptr hx) h.values_nodup h.inside hfree hin hf
        have hle₂ : c₂.size ≤ devicePages := by
          rcases hsize₂ with hs | ⟨hf, hs⟩
          · rw [hs]
            exact hle₁
          · rw [hs]
            refine size_lt hholds₁ (fun q x hx => ?_) (fun q => ?_) h.inside hfree hin hf
            · rcases eq_or_ne q p with rfl | hq
              · rw [hchain₁, List.mem_singleton] at hx
                rw [hx, hval₀, hbasePtr]
              · rw [update_of_ne hq] at hx
                rw [hvals₁ q x hx]; exact h.value_ptr hx
            · rcases eq_or_ne q p with rfl | hq
              · rw [hchain₁]
                exact List.nodup_singleton _
              · rw [update_of_ne hq, List.map_congr_left (hvals₁ q)]; exact h.values_nodup q
        have hval₀' : c₂.valueOf id₀ = m.compressedDeviceAddr p := by
          rw [hvals₂ p id₀ (by rw [hchain₁]; exact List.mem_singleton_self _), hval₀]
        refine ⟨⟨update m.compressedPhysicalPtr page (p + 1),
          update m.compressedDeviceAddr p (multiFlag ||| id₀), c₂⟩,
          update chains p [id₀, id], ?_, ?_, hkeep⟩
        · rw [if_neg (by omega)]
          simp [startMulti, page_shift hlt, hreg, hregAt]
        · refine h.change rfl (fun q hq => update_of_ne hq _ _) hholds₂
            (fun q hq x hx => ?_) hother hzero hin (fun hc => by cases hc) (fun _ => ?_) hle₂
          · rw [hvals₂ q x (by rw [update_of_ne hq]; exact hx), hvals₁ q x hx]
          · refine ⟨le_rfl, ⟨id₀, rfl, update_self ..⟩, ?_, fun d => ?_⟩
            · show [c₂.valueOf id₀, c₂.valueOf id].Nodup
              rw [hval₀', hval]
              simpa using hbaseNe
            · show _ ↔ d ∈ [c₂.valueOf id₀, c₂.valueOf id]
              rw [hptr d, hiff d, hval₀', hval]
              simp only [List.mem_cons, List.not_mem_nil, or_false]
              constructor
              · rintro (rfl | hd)
                · exact .inr rfl
                · exact .inl hd.1
              · rintro (rfl | rfl)
                · exact .inr ⟨rfl, by omega⟩
                · exact .inl rfl
    · -- one more device page for the list
      obtain ⟨hlen, ⟨start, hstart, haddr⟩, hnodup, hiff⟩ := h.multi p hne
      have hstartlt := h.start_lt hstart
      obtain ⟨id, c₂, hregAt, hholds₂, hval, hvals₂, hsize₂⟩ := h.holds.registerAt page start hstart
      have hmap : (chains p ++ [id]).map c₂.valueOf =
          (chains p).map m.multiDevAddress.valueOf ++ [page] := by
        rw [List.map_append, List.map_congr_left (hvals₂ p), List.map_singleton, hval]
      have hle₂ : c₂.size ≤ devicePages := by
        rcases hsize₂ with hs | ⟨hf, hs⟩
        · rw [hs]
          exact h.size_le
        · rw [hs]
          exact size_lt h.holds (fun q x hx => h.value_ptr hx) h.values_nodup h.inside hfree hin hf
      have hbase : m.compressedDeviceAddr p ≠ 0 := by
        rw [haddr, flag_eq hstartlt]; omega
      refine ⟨⟨update m.compressedPhysicalPtr page (p + 1), m.compressedDeviceAddr, c₂⟩,
        update chains p (chains p ++ [id]), ?_, ?_, hkeep⟩
      · rw [if_neg hbase]
        simp [startMulti, haddr, flag_shift hstartlt, flag_mask hstartlt, hregAt]
      · refine h.change rfl (fun q hq => rfl) hholds₂ (fun q hq x hx => hvals₂ q x hx) hother hzero
          hin (fun hc => by simp at hc) (fun _ => ?_) hle₂
        refine ⟨?_, ⟨start, ?_, haddr⟩, ?_, fun d => ?_⟩
        · rw [List.length_append]
          omega
        · rw [List.head?_append_of_ne_nil _ hne, hstart]
        · show ((chains p ++ [id]).map c₂.valueOf).Nodup
          rw [hmap, List.nodup_append]
          refine ⟨hnodup, List.nodup_singleton _, fun x hx y hy => ?_⟩
          rw [List.mem_singleton] at hy
          rintro rfl
          have := (hiff x).mpr hx
          rw [hy, hfree] at this
          omega
        · show _ ↔ d ∈ (chains p ++ [id]).map c₂.valueOf
          rw [hptr d, hmap, List.mem_append, List.mem_singleton, hiff d]; exact or_comm

/-- **A page is unmapped**, whether or not it was mapped. -/
theorem Inv.unmapPage (h : Inv m chains) (hin : page < devicePages) :
    ∃ m' chains', m.unmapPage page = some m' ∧ Inv m' chains' := by
  have hzero : update m.compressedPhysicalPtr page 0 0 = 0 := by
    rcases eq_or_ne 0 page with rfl | hne
    · exact update_self ..
    · rw [update_of_ne hne]; exact h.zero
  cases hphys : m.compressedPhysicalPtr page with
  | zero =>
    refine ⟨m, chains, ?_, h⟩
    have hsame : update m.compressedPhysicalPtr page 0 = m.compressedPhysicalPtr := by
      rw [← hphys, update_eq_self]
    simp [DeviceMemoryManager.unmapPage, hphys, hsame]
  | succ p =>
    have hdev : page % 2 ^ 32 = page := Nat.mod_eq_of_lt (hin.trans (by decide))
    have hother : ∀ q, q ≠ p → m.compressedPhysicalPtr page ≠ q + 1 ∧ 0 ≠ q + 1 := by
      intro q hq
      rw [hphys]; omega
    have hptr : ∀ d, update m.compressedPhysicalPtr page 0 d = p + 1 ↔
        d ≠ page ∧ m.compressedPhysicalPtr d = p + 1 := by
      intro d
      rcases eq_or_ne d page with rfl | hd
      · simp
      · simp [hd]
    simp only [DeviceMemoryManager.unmapPage, hphys, Nat.add_sub_cancel, hdev, Nat.succ_ne_zero,
      if_false]
    rcases eq_or_ne (chains p) [] with hnil | hne
    · -- the only device page of its physical page
      obtain ⟨hlt, hiff⟩ := h.single p hnil
      have hpage := (hiff page).mp hphys
      refine ⟨_, update chains p [], if_pos (page_shift hlt), ?_⟩
      refine h.change (l := []) rfl (fun q hq => update_of_ne hq _ _) ?_
        (fun _ _ _ _ => rfl) hother hzero hin (fun _ => ?_) (fun hc => absurd rfl hc) h.size_le
      · rw [← hnil, update_eq_self]
        exact h.holds
      · refine ⟨?_, fun d => ?_⟩
        · simp only [update_self]
          decide
        · rw [hptr d]
          simp only [update_self, hiff d]
          constructor
          · rintro ⟨hd, rfl, -⟩
            exact absurd hpage.1.symm hd
          · rintro ⟨rfl, hd⟩; exact absurd rfl hd
    · obtain ⟨hlen, ⟨start, hstart, haddr⟩, hnodup, hiff⟩ := h.multi p hne
      have hstartlt := h.start_lt hstart
      -- the entry of the page
      obtain ⟨x, hx, hxv⟩ := List.mem_map.mp ((hiff page).mp hphys)
      obtain ⟨l₁, l₂, hsplit⟩ := List.append_of_mem hx
      have hvalues : ((l₁ ++ x :: l₂).map m.multiDevAddress.valueOf).Nodup := hsplit ▸ hnodup
      rw [List.map_append, List.map_cons, List.nodup_middle, List.nodup_cons, hxv,
        ← List.map_append] at hvalues
      have hbefore : ∀ y ∈ l₁, m.multiDevAddress.valueOf y ≠ page := by
        intro y hy hc
        refine hvalues.1 (hc ▸ List.mem_map_of_mem (List.mem_append_left _ hy))
      obtain ⟨c₁, hunreg, hholds₁, hval₁, hsize₁⟩ := h.holds.unregister hsplit hstart hbefore hxv
      have hrest : ∀ d, update m.compressedPhysicalPtr page 0 d = p + 1 ↔
          d ∈ (l₁ ++ l₂).map m.multiDevAddress.valueOf := by
        intro d
        rw [hptr d, hiff d, hsplit]
        simp only [List.map_append, List.map_cons, List.mem_append, List.mem_cons, hxv]
        constructor
        · rintro ⟨hd, hmem | rfl | hmem⟩
          · exact .inl hmem
          · exact absurd rfl hd
          · exact .inr hmem
        · intro hmem
          refine ⟨?_, by tauto⟩
          rintro rfl
          exact hvalues.1 (by rw [List.map_append]; exact List.mem_append.mpr hmem)
      have hshift : ¬ m.compressedDeviceAddr p >>> 31 = 0 := by
        rw [haddr, flag_shift hstartlt]; exact one_ne_zero
      have hmask : m.compressedDeviceAddr p &&& multiMask = start := by
        rw [haddr, flag_mask hstartlt]
      rw [if_neg hshift, hmask, hunreg]
      have hlenSplit : (chains p).length = (l₁ ++ l₂).length + 1 := by
        rw [hsplit]
        simp only [List.length_append, List.length_cons]; omega
      rcases Nat.lt_or_ge (l₁ ++ l₂).length 2 with hshort | hlong
      · -- one is left: it becomes the direct value
        obtain ⟨y, hy⟩ : ∃ y, l₁ ++ l₂ = [y] := List.length_eq_one_iff.mp (by omega)
        have hy1 : update chains p (l₁ ++ l₂) p = [y] := by
          rw [update_self, hy]
        obtain ⟨c₂, hrel, hholds₂, hval₂, hsize₂⟩ := hholds₁.releaseEntry hy1
        rw [update_idem] at hholds₂
        refine ⟨⟨update m.compressedPhysicalPtr page 0,
          update m.compressedDeviceAddr p (c₁.valueOf y), c₂⟩,
          update chains p [], ?_, ?_⟩
        · rw [decide_eq_false (by omega), hy]
          simp [hrel]
        · have hyv : m.multiDevAddress.valueOf y ∈ (l₁ ++ l₂).map m.multiDevAddress.valueOf := by
            rw [hy]; exact List.mem_singleton_self _
          have hyptr : m.compressedPhysicalPtr (m.multiDevAddress.valueOf y) = p + 1 :=
            ((hptr _).mp ((hrest _).mpr hyv)).2
          refine h.change rfl (fun q hq => update_of_ne hq _ _) hholds₂
            (fun q hq id hid => by rw [hval₂, hval₁]) hother hzero hin (fun _ => ?_)
            (fun hc => absurd rfl hc) (by rw [hsize₂, hsize₁]; exact h.size_le)
          simp only [update_self, hval₁]
          refine ⟨h.inside _ (by rw [hyptr]; exact Nat.succ_ne_zero p), fun d => ?_⟩
          rw [hrest d, hy, List.map_singleton, List.mem_singleton]
          refine ⟨fun hd => ⟨hd, ?_⟩, fun hd => hd.1⟩
          rintro rfl
          rw [← hd, h.zero] at hyptr; exact absurd hyptr (Nat.succ_ne_zero p).symm
      · -- the list stays a list
        obtain ⟨s, hs⟩ : ∃ s, (l₁ ++ l₂).head? = some s := by
          cases hl : l₁ ++ l₂ with
          | nil =>
            rw [hl] at hlong; simp at hlong
          | cons s rest => exact ⟨s, rfl⟩
        have hne' : l₁ ++ l₂ ≠ [] := by
          intro hc
          rw [hc] at hs; cases hs
        refine ⟨⟨update m.compressedPhysicalPtr page 0,
          update m.compressedDeviceAddr p (s ||| multiFlag), c₁⟩,
          update chains p (l₁ ++ l₂), ?_, ?_⟩
        · rw [decide_eq_true hlong, hs]
          simp
        · refine h.change rfl (fun q hq => update_of_ne hq _ _) hholds₁
            (fun q hq id hid => hval₁ id) hother hzero hin (fun hc => absurd hc hne') (fun _ => ?_)
            (by rw [hsize₁]; exact h.size_le)
          have hmap : (l₁ ++ l₂).map c₁.valueOf = (l₁ ++ l₂).map m.multiDevAddress.valueOf :=
            List.map_congr_left fun y _ => hval₁ y
          refine ⟨hlong, ⟨s, hs, ?_⟩, ?_, fun d => ?_⟩
          · simp only [update_self]
            exact Nat.or_comm s multiFlag
          · show ((l₁ ++ l₂).map c₁.valueOf).Nodup
            rw [hmap]
            exact hvalues.2
          · show _ ↔ d ∈ (l₁ ++ l₂).map c₁.valueOf
            rw [hmap]; exact hrest d

end Pages

/-! ## Whole runs -/

section Runs

variable {m : DeviceMemoryManager} {chains : Nat → List Nat}

/-- **Every call keeps the invariant**: its pages one after the other. -/
theorem Inv.step (h : Inv m chains) (op : Op) (hop : op.Valid 1 m) :
    ∃ m' chains', m.step op = some m' ∧ Inv m' chains' := by
  cases op with
  | map address virtualAddress size memory =>
    obtain ⟨hpos, hin, hfree, hmem⟩ := hop
    -- by induction on the pages done: those to come are still unmapped
    have hloop : ∀ n ≤ numPages size, ∃ m' chains', (List.range n).foldlM
        (fun m i => m.mapPage ((address >>> 12) + i) (memory (virtualAddress + i * 0x1000))) m =
          some m' ∧ Inv m' chains' ∧
        ∀ i, n ≤ i → m'.compressedPhysicalPtr ((address >>> 12) + i) =
          m.compressedPhysicalPtr ((address >>> 12) + i) := by
      intro n
      induction n with
      | zero => exact fun _ => ⟨m, chains, rfl, h, fun _ _ => rfl⟩
      | succ n ih =>
        intro hn
        obtain ⟨m₁, chains₁, hfold, h₁, hrest⟩ := ih (by omega)
        obtain ⟨m₂, chains₂, hpage, h₂, hkeep⟩ := h₁.mapPage
          (show 1 ≤ (address >>> 12) + n by omega) (by omega)
          (by rw [hrest n le_rfl]; exact hfree n (by omega))
          (memory (virtualAddress + n * 0x1000)) fun rawAddr => hmem _ rawAddr
        refine ⟨m₂, chains₂, ?_, h₂, fun i hi => ?_⟩
        · rw [List.range_succ, List.foldlM_append, hfold]
          simp [hpage]
        · rw [hkeep _ (by omega), hrest i (by omega)]
    obtain ⟨m', chains', hfold, h', -⟩ := hloop (numPages size) le_rfl
    exact ⟨m', chains', hfold, h'⟩
  | unmap address size =>
    have hin : (address >>> 12) + numPages size ≤ devicePages := hop
    have hloop : ∀ n ≤ numPages size, ∃ m' chains', (List.range n).foldlM
        (fun m i => m.unmapPage ((address >>> 12) + i)) m = some m' ∧ Inv m' chains' := by
      intro n
      induction n with
      | zero => exact fun _ => ⟨m, chains, rfl, h⟩
      | succ n ih =>
        intro hn
        obtain ⟨m₁, chains₁, hfold, h₁⟩ := ih (by omega)
        have hlt : (address >>> 12) + n < devicePages := by omega
        obtain ⟨m₂, chains₂, hpage, h₂⟩ := h₁.unmapPage hlt
        refine ⟨m₂, chains₂, ?_, h₂⟩
        rw [List.range_succ, List.foldlM_append, hfold]; simp [hpage]
    exact hloop (numPages size) le_rfl

theorem Reachable.inv (h : Reachable 1 m) : ∃ chains, Inv m chains := by
  induction h with
  | initial => exact ⟨_, initial_inv⟩
  | step _ hop hstep ih =>
    obtain ⟨chains, hinv⟩ := ih
    obtain ⟨m', chains', hm', hinv'⟩ := hinv.step _ hop
    cases hstep.symm.trans hm'
    exact ⟨chains', hinv'⟩

/-- **The reverse map is exact** in every state of every run, and every further call succeeds: its
    searches find what they look for and its walks end. -/
theorem reverseMapExact_of_run (m : DeviceMemoryManager) (h : Reachable 1 m) :
    ReverseMapExact m ∧ ∀ op : Op, op.Valid 1 m → ∃ m', m.step op = some m' := by
  obtain ⟨chains, hinv⟩ := h.inv
  refine ⟨hinv.exact, fun op hop => ?_⟩
  obtain ⟨m', -, hm', -⟩ := hinv.step op hop
  exact ⟨m', hm'⟩

/-- A page of every process at the physical address `0x5000`. -/
def onePage (_ : Nat) : Option Nat := some 0x5000

/-- Three device pages of one physical page, the middle one unmapped again: the reverse map gives the
    two others. -/
theorem reverseMapExact_of_run_shared_page : ∃ m, Reachable 1 m ∧
    m.innerGatherDeviceAddresses 0x5000 = some [1, 3] ∧ ReverseMapExact m := by
  have hrun : ((initial.step (.map 0x1000 0 0x3000 onePage)).bind fun m =>
      (m.step (.unmap 0x2000 0x1000)).bind fun m => m.innerGatherDeviceAddresses 0x5000) =
        some [1, 3] := by decide +kernel
  obtain ⟨m₁, h₁, hrun⟩ := Option.bind_eq_some_iff.mp hrun
  obtain ⟨m₂, h₂, hgather⟩ := Option.bind_eq_some_iff.mp hrun
  have hop₁ : Op.Valid 1 initial (.map 0x1000 0 0x3000 onePage) :=
    ⟨by decide, by decide, fun _ _ => rfl, fun _ rawAddr hraw => by cases hraw; decide⟩
  have hop₂ : Op.Valid 1 m₁ (.unmap 0x2000 0x1000) := by
    show (0x2000 >>> 12) + numPages 0x1000 ≤ devicePages
    decide
  have hreach : Reachable 1 m₂ := .step (.step .initial hop₁ h₁) hop₂ h₂
  exact ⟨m₂, hreach, hgather, (reverseMapExact_of_run m₂ hreach).1⟩

/-- Device page 0 mapped to a physical page is lost when another device page comes: 0 is the mark
    of a physical page without device pages. -/
theorem not_reverseMapExact_of_page_zero : ¬ ∀ m, Reachable 0 m → ReverseMapExact m := by
  intro hall
  have hrun : ((initial.step (.map 0 0 0x1000 onePage)).bind fun m =>
      (m.step (.map 0x5000 0 0x1000 onePage)).map fun m =>
        (m.innerGatherDeviceAddresses 0x5000, m.compressedPhysicalPtr 0)) =
        some (some [5], 6) := by decide +kernel
  obtain ⟨m₁, h₁, hrun⟩ := Option.bind_eq_some_iff.mp hrun
  obtain ⟨m₂, h₂, hpair⟩ := Option.map_eq_some_iff.mp hrun
  obtain ⟨hgather, hzero⟩ := Prod.mk.inj hpair
  have hop₁ : Op.Valid 0 initial (.map 0 0 0x1000 onePage) :=
    ⟨by decide, by decide, fun _ _ => rfl, fun _ rawAddr hraw => by cases hraw; decide⟩
  have hfree : (initial.step (.map 0 0 0x1000 onePage)).map (fun m => m.compressedPhysicalPtr 5) =
      some 0 := by decide +kernel
  rw [h₁] at hfree
  have hop₂ : Op.Valid 0 m₁ (.map 0x5000 0 0x1000 onePage) := by
    refine ⟨by decide, by decide, fun i hi => ?_, fun _ rawAddr hraw => by cases hraw; decide⟩
    have hi' : i = 0 := by
      have : numPages 0x1000 = 1 := by decide
      omega
    subst hi'; exact Option.some.inj hfree
  obtain ⟨pages, -, hiff, hreport, -⟩ :=
    (hall m₂ (.step (.step .initial hop₁ h₁) hop₂ h₂)).reports 0x5000
  have hmem : 0 ∈ pages := (hiff 0).mpr (by rw [hzero]; decide)
  rw [if_neg (List.ne_nil_of_mem hmem), hgather] at hreport
  cases Option.some.inj hreport
  exact absurd hmem (by decide)

end Runs

end DeviceMemoryManager

end Suyu.Core
