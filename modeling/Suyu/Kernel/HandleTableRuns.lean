/-
  Whole runs of KHandleTable.

  1. **Spec** — `Record` is what the callers of the table know: which handles are live and with
     which object, which are reserved, and which allocation issued a handle last.
  2. **Invariant** — `SlotsInv`: the free list visits exactly the entries no handle occupies, an
     occupied entry has exactly ONE handle, and the linear id of a handle is determined by the
     number of the allocation that issued it.  `ContentsInv`: a live handle finds its object, and
     nothing else is in the table.
  3. **The crux** — `SlotsInv.alloc` and `SlotsInv.release`: all that ever happens to the entries is
     that the head of the free list goes to a fresh handle, or that an entry becomes its head.
     `isValidHandle_iff` then decides every 32-bit value, and linear ids tell how far apart two
     allocations of the same handle are.
-/
import Mathlib.Data.Finset.Card
import Mathlib.Data.List.Perm.Subperm
import Mathlib.Data.Set.Card
import Mathlib.Logic.Relation
import Suyu.Kernel.HandleTable
import Suyu.Lib.Linked

namespace Suyu.Kernel

open Function (update update_self update_of_ne)

open Lib.Linked

/-! ## What the callers of the table know -/

/-- The record of a run: live handles with their objects, reserved handles, the number of the
    allocation that issued a handle last, and the number of allocations so far. -/
structure Record (O : Type) where
  live : Handle → Option O
  reserved : Handle → Bool
  issuedAt : Handle → Option Nat
  allocations : Nat

namespace Record

variable {O : Type}

def empty : Record O := ⟨fun _ => none, fun _ => false, fun _ => none, 0⟩

/-- The handle is live or reserved: it occupies its entry. -/
def Occupies (g : Record O) (h : Handle) : Prop := g.live h ≠ none ∨ g.reserved h = true

def onAdd (g : Record O) (h : Handle) (o : O) : Record O :=
  { g with
    live := update g.live h (some o)
    issuedAt := update g.issuedAt h (some g.allocations)
    allocations := g.allocations + 1 }

def onReserve (g : Record O) (h : Handle) : Record O :=
  { g with
    reserved := update g.reserved h true
    issuedAt := update g.issuedAt h (some g.allocations)
    allocations := g.allocations + 1 }

def onRegister (g : Record O) (h : Handle) (o : O) : Record O :=
  { g with
    live := update g.live h (some o)
    reserved := update g.reserved h false }

def onUnreserve (g : Record O) (h : Handle) : Record O :=
  { g with reserved := update g.reserved h false }

def onRemove (g : Record O) (h : Handle) : Record O :=
  { g with live := update g.live h none }

end Record

namespace Record

variable {O : Type} (g : Record O) (h : Handle) (o : O) (k : Handle)

theorem occupies_onAdd : (g.onAdd h o).Occupies k ↔ k = h ∨ g.Occupies k := by
  unfold Occupies onAdd
  by_cases hk : k = h
  · simp [hk]
  · simp [hk]

theorem occupies_onReserve : (g.onReserve h).Occupies k ↔ k = h ∨ g.Occupies k := by
  unfold Occupies onReserve
  by_cases hk : k = h
  · simp [hk]
  · simp [hk]

variable {g h}

theorem occupies_onRegister (hr : g.reserved h = true) :
    (g.onRegister h o).Occupies k ↔ g.Occupies k := by
  unfold Occupies onRegister
  by_cases hk : k = h
  · simp [hk, hr]
  · simp [hk]

theorem occupies_onUnreserve (hl : g.live h = none) :
    (g.onUnreserve h).Occupies k ↔ k ≠ h ∧ g.Occupies k := by
  unfold Occupies onUnreserve
  by_cases hk : k = h
  · simp [hk, hl]
  · simp [hk]

theorem occupies_onRemove (hr : g.reserved h = false) :
    (g.onRemove h).Occupies k ↔ k ≠ h ∧ g.Occupies k := by
  unfold Occupies onRemove
  by_cases hk : k = h
  · simp [hk, hr]
  · simp [hk]

end Record

/-- The link of the free list as an optional index. -/
def linkOf (i : Int) : Option Nat := if i < 0 then none else some i.toNat

/-- The next entry of the free list. -/
def KHandleTable.nextFree {O : Type} (t : KHandleTable O) (i : Nat) : Option Nat :=
  linkOf (t.entryInfos i).getNextFreeIndex

theorem linkOf_eq_some {x : Int} {i : Nat} : linkOf x = some i ↔ x = i := by
  unfold linkOf
  by_cases h : x < 0
  · rw [if_pos h]
    constructor
    · intro h'; cases h'
    · intro h'; omega
  · rw [if_neg h, Option.some.injEq]; omega

/-- Entries and handles: `free` is the free list, and every other entry has exactly one handle,
    whose linear id is determined by the allocation that issued it. -/
structure SlotsInv {O : Type} (t : KHandleTable O) (g : Record O) (free : List Nat) : Prop where
  size : t.tableSize ≤ MaxTableSize
  headLo : -2 ^ 15 ≤ t.freeHeadIndex
  headHi : t.freeHeadIndex < 2 ^ 15
  follows : Follows t.nextFree (linkOf t.freeHeadIndex) free
  nodup : free.Nodup
  mem : ∀ i, i ∈ free ↔ i < t.tableSize ∧ ∀ h, g.Occupies h → HandlePack.index h ≠ i
  count : t.count + free.length = t.tableSize
  bits : ∀ h, g.Occupies h → HandlePack.reserved h = 0 ∧ HandlePack.index h < t.tableSize
  issued : ∀ h, g.Occupies h → ∃ n, g.issuedAt h = some n ∧ n < g.allocations ∧
    HandlePack.linearId h = 1 + n % MaxLinearId
  uniq : ∀ h h', g.Occupies h → g.Occupies h' → HandlePack.index h = HandlePack.index h' → h = h'
  nextId : t.nextLinearId = 1 + g.allocations % MaxLinearId

/-- Entries and objects: a live handle finds its object, and nothing else is in the table. -/
structure ContentsInv {O : Type} (t : KHandleTable O) (g : Record O) : Prop where
  live : ∀ h o, g.live h = some o → t.objects (HandlePack.index h) = some o ∧
    (t.entryInfos (HandlePack.index h)).getLinearId = HandlePack.linearId h
  reserved : ∀ h, g.reserved h = true → g.live h = none
  vacant : ∀ i, (∀ h, g.live h ≠ none → HandlePack.index h ≠ i) → t.objects i = none

namespace SlotsInv

variable {O : Type} {t t' : KHandleTable O} {g g' : Record O} {free : List Nat}

theorem linearId_bounds (n : Nat) : 0 < 1 + n % MaxLinearId ∧ 1 + n % MaxLinearId < 2 ^ 15 := by
  have := Nat.mod_lt n (show 0 < MaxLinearId by decide)
  unfold MaxLinearId at *
  omega

theorem index_not_mem (hi : SlotsInv t g free) {h : Handle} (ho : g.Occupies h) :
    HandlePack.index h ∉ free :=
  fun hm => ((hi.mem _).1 hm).2 h ho rfl

theorem full_iff (hi : SlotsInv t g free) : ¬ t.count < t.tableSize ↔ free = [] := by
  have hc := hi.count
  constructor
  · intro h
    exact List.length_eq_zero_iff.1 (by omega)
  · rintro rfl
    rw [List.length_nil] at hc; omega

theorem head (hi : SlotsInv t g free) (hc : t.count < t.tableSize) :
    ∃ i rest, free = i :: rest ∧ t.freeHeadIndex = i ∧ i < t.tableSize ∧
      linkOf (t.entryInfos i).getNextFreeIndex = t.nextFree i ∧ Follows t.nextFree (t.nextFree i) rest := by
  cases free with
  | nil => exact absurd hc (hi.full_iff.2 rfl)
  | cons i rest =>
    obtain ⟨h1, h2⟩ := hi.follows
    exact ⟨i, rest, rfl, linkOf_eq_some.1 h1, ((hi.mem i).1 List.mem_cons_self).1, rfl, h2⟩

/-- **Allocation**: the head of the free list goes to the handle `h`. -/
theorem alloc {i : Nat} {rest : List Nat} (hi : SlotsInv t g (i :: rest)) {h : Handle}
    (hh : h = encodeHandle i t.nextLinearId) (hsize : t'.tableSize = t.tableSize)
    (hhead : t'.freeHeadIndex = (t.entryInfos i).getNextFreeIndex)
    (hinfos : ∀ j, j ≠ i → t'.entryInfos j = t.entryInfos j) (hcount : t'.count = t.count + 1)
    (hnext : t'.nextLinearId = if t.nextLinearId + 1 > MaxLinearId then MinLinearId
      else t.nextLinearId + 1) (hocc : ∀ k, g'.Occupies k ↔ k = h ∨ g.Occupies k)
    (hissued : g'.issuedAt = update g.issuedAt h (some g.allocations))
    (hallocs : g'.allocations = g.allocations + 1) : SlotsInv t' g' rest := by
  have hid := linearId_bounds g.allocations
  have hmem := (hi.mem i).1 List.mem_cons_self
  have hsz := hi.size
  have hlt : i < 2 ^ 15 := by unfold MaxTableSize at hsz; omega
  have hindex : HandlePack.index h = i := hh ▸ index_encodeHandle hlt _
  have hlinear : HandlePack.linearId h = 1 + g.allocations % MaxLinearId := by
    rw [hh, linearId_encodeHandle _ (by rw [hi.nextId]; exact hid.2), hi.nextId]
  have hnotin : i ∉ rest := (List.nodup_cons.1 hi.nodup).1
  have hb := getNextFreeIndex_bounds (t.entryInfos i)
  refine ⟨hsize ▸ hi.size, hhead ▸ hb.1, hhead ▸ hb.2, ?_, (List.nodup_cons.1 hi.nodup).2, ?_, ?_, ?_,
    ?_, ?_, ?_⟩
  · rw [hhead]
    refine hi.follows.2.congr fun j hj => ?_
    unfold KHandleTable.nextFree
    rw [hinfos j (fun he => hnotin (he ▸ hj))]
  · intro j
    rw [hsize]
    constructor
    · intro hj
      obtain ⟨h1, h2⟩ := (hi.mem j).1 (List.mem_cons_of_mem _ hj)
      refine ⟨h1, fun k hk => ?_⟩
      rcases (hocc k).1 hk with rfl | hk
      · rw [hindex]
        exact fun he => hnotin (he ▸ hj)
      · exact h2 k hk
    · rintro ⟨h1, h2⟩
      have hj := (hi.mem j).2 ⟨h1, fun k hk => h2 k ((hocc k).2 (Or.inr hk))⟩
      rcases List.mem_cons.mp hj with rfl | hj
      · exact absurd hindex (h2 h ((hocc h).2 (Or.inl rfl)))
      · exact hj
  · have := hi.count
    rw [List.length_cons] at this
    omega
  · intro k hk
    rw [hsize]
    rcases (hocc k).1 hk with rfl | hk
    · exact ⟨hh ▸ reserved_encodeHandle _ _, hindex ▸ hmem.1⟩
    · exact hi.bits k hk
  · intro k hk
    rw [hissued, hallocs]
    by_cases hkh : k = h
    · subst hkh
      exact ⟨g.allocations, update_self _ _ _, Nat.lt_succ_self _, hlinear⟩
    · obtain ⟨n, h1, h2, h3⟩ := hi.issued k (((hocc k).1 hk).resolve_left hkh)
      exact ⟨n, by rw [update_of_ne hkh]; exact h1, by omega, h3⟩
  · intro k k' hk hk' he
    rcases (hocc k).1 hk with rfl | hk <;> rcases (hocc k').1 hk' with rfl | hk'
    · rfl
    · exact absurd (he.symm.trans hindex) (hmem.2 k' hk')
    · exact absurd (he.trans hindex) (hmem.2 k hk)
    · exact hi.uniq k k' hk hk' he
  · rw [hnext, hi.nextId, hallocs]
    have hmod : (g.allocations + 1) % MaxLinearId =
        if g.allocations % MaxLinearId + 1 = MaxLinearId then 0
        else g.allocations % MaxLinearId + 1 := by
      unfold MaxLinearId
      split <;> omega
    have hr := Nat.mod_lt g.allocations (show 0 < MaxLinearId by decide)
    rw [hmod]
    generalize g.allocations % MaxLinearId = r at hr ⊢
    unfold MinLinearId
    split <;> split <;> omega

/-- **Release**: the entry of the handle `h` becomes the head of the free list. -/
theorem release (hi : SlotsInv t g free) {h : Handle} (hh : g.Occupies h)
    (hocc : ∀ k, g'.Occupies k ↔ k ≠ h ∧ g.Occupies k) (hissued : g'.issuedAt = g.issuedAt)
    (hallocs : g'.allocations = g.allocations) :
    SlotsInv (t.freeEntry (HandlePack.index h)) g' (HandlePack.index h :: free) := by
  have hnotin := hi.index_not_mem hh
  have hb := (hi.bits h hh).2
  have hsz := hi.size
  have hnodup : (HandlePack.index h :: free).Nodup := List.nodup_cons.2 ⟨hnotin, hi.nodup⟩
  have hlen : free.length + 1 ≤ t.tableSize := by
    have hsub : HandlePack.index h :: free ⊆ List.range t.tableSize := by
      intro j hj
      rcases List.mem_cons.mp hj with rfl | hj
      · exact List.mem_range.2 hb
      · exact List.mem_range.2 ((hi.mem j).1 hj).1
    have := (List.subperm_of_subset hnodup hsub).length_le
    rwa [List.length_cons, List.length_range] at this
  refine ⟨hi.size, ?_, ?_, ⟨?_, ?_⟩, hnodup, ?_, ?_, ?_, ?_, ?_, ?_⟩
  · show -2 ^ 15 ≤ (HandlePack.index h : Int)
    omega
  · show (HandlePack.index h : Int) < 2 ^ 15
    unfold MaxTableSize at hsz
    omega
  · exact linkOf_eq_some.2 rfl
  · have hself : (t.freeEntry (HandlePack.index h)).nextFree (HandlePack.index h) =
        linkOf t.freeHeadIndex := by
      simp [KHandleTable.nextFree, KHandleTable.freeEntry, getNextFreeIndex_ofNextFreeIndex
        hi.headLo hi.headHi]
    rw [hself]
    refine hi.follows.congr fun j hj => ?_
    have hne : j ≠ HandlePack.index h := fun he => hnotin (he ▸ hj)
    simp [KHandleTable.nextFree, KHandleTable.freeEntry, update_of_ne hne]
  · intro j
    constructor
    · intro hj
      rcases List.mem_cons.mp hj with rfl | hj
      · exact ⟨hb, fun k hk he => ((hocc k).1 hk).1 (hi.uniq k h ((hocc k).1 hk).2 hh he)⟩
      · obtain ⟨h1, h2⟩ := (hi.mem j).1 hj; exact ⟨h1, fun k hk => h2 k ((hocc k).1 hk).2⟩
    · rintro ⟨h1, h2⟩
      by_cases hj : j = HandlePack.index h
      · exact hj ▸ List.mem_cons_self
      · refine List.mem_cons_of_mem _ ((hi.mem j).2 ⟨h1, fun k hk he => ?_⟩)
        refine h2 k ((hocc k).2 ⟨?_, hk⟩) he
        rintro rfl; exact hj he.symm
  · have hc := hi.count
    show t.count - 1 + (free.length + 1) = t.tableSize
    omega
  · intro k hk
    exact hi.bits k ((hocc k).1 hk).2
  · intro k hk
    rw [hissued, hallocs]
    exact hi.issued k ((hocc k).1 hk).2
  · intro k k' hk hk' he
    exact hi.uniq k k' ((hocc k).1 hk).2 ((hocc k').1 hk').2 he
  · rw [hallocs]; exact hi.nextId

end SlotsInv

/-! ## Looking a handle up -/

section Lookup

variable {O : Type} {t : KHandleTable O} {g : Record O} {free : List Nat}

section

variable (hs : SlotsInv t g free) (hc : ContentsInv t g) (h : Handle)
include hs hc h

theorem isValidHandle_iff :
    (HandlePack.reserved h = 0 ∧ t.isValidHandle h = true) ↔ g.live h ≠ none := by
  constructor
  · rintro ⟨hres, hv⟩
    simp only [KHandleTable.isValidHandle, Bool.and_eq_true, bne_iff_ne, decide_eq_true_eq,
      beq_iff_eq] at hv
    -- some live handle has this entry, and it agrees with `h` in all three fields
    have hex : ∃ k, g.live k ≠ none ∧ HandlePack.index k = HandlePack.index h := by
      by_contra hno
      have hvac := hc.vacant (HandlePack.index h) fun k hk he => hno ⟨k, hk, he⟩
      rw [hvac] at hv; exact absurd hv.1.2 (by simp)
    obtain ⟨k, hk, he⟩ := hex
    obtain ⟨o, ho⟩ := Option.ne_none_iff_exists'.1 hk
    obtain ⟨-, hlin⟩ := hc.live k o ho
    have hkh : k = h := by
      refine handle_ext he ?_ ((hs.bits k (Or.inl hk)).1.trans hres.symm)
      rw [← hlin, he, hv.2]
    exact hkh ▸ hk
  · intro hl
    obtain ⟨o, ho⟩ := Option.ne_none_iff_exists'.1 hl
    obtain ⟨hres, hidx⟩ := hs.bits h (Or.inl hl)
    obtain ⟨n, -, -, hlin⟩ := hs.issued h (Or.inl hl)
    obtain ⟨hobj, hinfo⟩ := hc.live h o ho
    have hne : HandlePack.linearId h ≠ 0 := by
      rw [hlin]; exact Nat.ne_of_gt (SlotsInv.linearId_bounds n).1
    refine ⟨hres, ?_⟩
    simp only [KHandleTable.isValidHandle, Bool.and_eq_true, bne_iff_ne, decide_eq_true_eq,
      beq_iff_eq]
    refine ⟨⟨⟨⟨fun h0 => hne ?_, hne⟩, hidx⟩, by rw [hobj]; rfl⟩, hinfo⟩
    unfold HandlePack.linearId; omega

theorem getObjectWithoutPseudoHandle_eq : t.getObjectWithoutPseudoHandle h = g.live h := by
  have hiff := isValidHandle_iff hs hc h
  unfold KHandleTable.getObjectWithoutPseudoHandle KHandleTable.getObjectImpl
  cases hl : g.live h with
  | some o =>
    obtain ⟨hres, hv⟩ := hiff.2 (by rw [hl]; exact Option.some_ne_none o)
    rw [if_neg (not_not.2 hres), if_pos hv, (hc.live h o hl).1]
  | none =>
    by_cases hres : HandlePack.reserved h = 0
    · rw [if_neg (not_not.2 hres), if_neg fun hv => hiff.1 ⟨hres, hv⟩ hl]
    · rw [if_pos hres]

theorem remove_eq :
    t.remove h = if g.live h ≠ none then (true, t.freeEntry (HandlePack.index h)) else (false, t) := by
  have hiff := isValidHandle_iff hs hc h
  unfold KHandleTable.remove
  by_cases hres : HandlePack.reserved h = 0
  · have hp : ¬ isPseudoHandle h = true := fun hp => reserved_of_isPseudoHandle hp hres
    rw [if_neg hp, if_neg (not_not.2 hres)]
    by_cases hv : t.isValidHandle h = true
    · rw [if_pos hv, if_pos (hiff.1 ⟨hres, hv⟩)]
    · rw [if_neg hv, if_neg fun hl => hv (hiff.2 hl).2]
  · have hl : ¬ g.live h ≠ none := fun hl => hres (hiff.2 hl).1
    rw [if_neg hl, if_pos hres]
    split <;> rfl

end

end Lookup

/-! ## Runs -/

/-- The table together with the record of the run. -/
structure HandleState (O : Type) where
  table : KHandleTable O
  record : Record O

section Run

variable {O : Type}

/-- One call, whatever its outcome; only reserved handles are registered and unreserved. -/
inductive HandleStep : HandleState O → HandleState O → Prop where
  | add {s h t'} (o : O) (hs : s.table.add o = (.ok h, t')) :
      HandleStep s ⟨t', s.record.onAdd h o⟩
  | addFails {s e t'} (o : O) (hs : s.table.add o = (.error e, t')) : HandleStep s ⟨t', s.record⟩
  | reserve {s h t'} (hs : s.table.reserve = (.ok h, t')) :
      HandleStep s ⟨t', s.record.onReserve h⟩
  | reserveFails {s e t'} (hs : s.table.reserve = (.error e, t')) : HandleStep s ⟨t', s.record⟩
  | register {s} (h : Handle) (o : O) (hr : s.record.reserved h = true) :
      HandleStep s ⟨s.table.register h o, s.record.onRegister h o⟩
  | unreserve {s} (h : Handle) (hr : s.record.reserved h = true) :
      HandleStep s ⟨s.table.unreserve h, s.record.onUnreserve h⟩
  | remove {s t'} (h : Handle) (hs : s.table.remove h = (true, t')) :
      HandleStep s ⟨t', s.record.onRemove h⟩
  | removeFails {s t'} (h : Handle) (hs : s.table.remove h = (false, t')) :
      HandleStep s ⟨t', s.record⟩

/-- Any number of calls. -/
abbrev HandleRun : HandleState O → HandleState O → Prop := Relation.ReflTransGen HandleStep

/-- The table and the record agree. -/
def HandleInv (s : HandleState O) : Prop :=
  ∃ free, SlotsInv s.table s.record free ∧ ContentsInv s.table s.record

variable {t : KHandleTable O} {g : Record O} {free : List Nat}

theorem add_of_room {i : Nat} (hroom : t.count < t.tableSize) (hhead : t.freeHeadIndex = i) (o : O) :
    t.add o = (.ok (encodeHandle i t.nextLinearId),
      { t with
        entryInfos := update t.entryInfos i (.ofLinearId t.nextLinearId)
        objects := update t.objects i (some o)
        freeHeadIndex := (t.entryInfos i).getNextFreeIndex
        nextLinearId :=
          if t.nextLinearId + 1 > MaxLinearId then MinLinearId else t.nextLinearId + 1
        count := t.count + 1
        maxCount := max t.maxCount (t.count + 1) }) := by
  unfold KHandleTable.add
  rw [if_pos hroom]
  simp [KHandleTable.allocateLinearId, KHandleTable.allocateEntry, hhead]

theorem reserve_of_room {i : Nat} (hroom : t.count < t.tableSize) (hhead : t.freeHeadIndex = i) :
    t.reserve = (.ok (encodeHandle i t.nextLinearId),
      { t with
        freeHeadIndex := (t.entryInfos i).getNextFreeIndex
        nextLinearId :=
          if t.nextLinearId + 1 > MaxLinearId then MinLinearId else t.nextLinearId + 1
        count := t.count + 1
        maxCount := max t.maxCount (t.count + 1) }) := by
  unfold KHandleTable.reserve
  rw [if_pos hroom]
  simp [KHandleTable.allocateLinearId, KHandleTable.allocateEntry, hhead]

theorem SlotsInv.fresh {i : Nat} {rest : List Nat} (hs : SlotsInv t g (i :: rest)) :
    HandlePack.index (encodeHandle i t.nextLinearId) = i ∧
      HandlePack.linearId (encodeHandle i t.nextLinearId) = t.nextLinearId ∧
      t.nextLinearId < 2 ^ 15 ∧ ¬ g.Occupies (encodeHandle i t.nextLinearId) := by
  have hsz := hs.size
  have hmem := (hs.mem i).1 List.mem_cons_self
  have hid : t.nextLinearId < 2 ^ 15 := by
    rw [hs.nextId]; exact (linearId_bounds g.allocations).2
  have hidx : HandlePack.index (encodeHandle i t.nextLinearId) = i :=
    index_encodeHandle (by unfold MaxTableSize at hsz; omega) _
  exact ⟨hidx, linearId_encodeHandle i hid, hid, fun ho => hmem.2 _ ho hidx⟩

theorem add_inv (hs : SlotsInv t g free) (hc : ContentsInv t g) (hroom : t.count < t.tableSize)
    (o : O) : ∃ h t', t.add o = (.ok h, t') ∧ HandleInv ⟨t', g.onAdd h o⟩ := by
  obtain ⟨i, rest, rfl, hhead, hlt, -, -⟩ := hs.head hroom
  have hmem := (hs.mem i).1 List.mem_cons_self
  obtain ⟨hidx, hlin, hid, hfresh⟩ := hs.fresh
  refine ⟨_, _, add_of_room hroom hhead o, rest,
    hs.alloc rfl rfl rfl (fun j hj => update_of_ne hj _ _) rfl rfl (g.occupies_onAdd _ o)
      rfl rfl, ?_, ?_, ?_⟩
  · intro k o' hk
    by_cases hkh : k = encodeHandle i t.nextLinearId
    · subst hkh
      obtain rfl : o = o' := by simpa [Record.onAdd] using hk
      simp [hidx, getLinearId_ofLinearId hid, hlin]
    · have hk' : g.live k = some o' := by simpa [Record.onAdd, hkh] using hk
      have hne := hmem.2 k (Or.inl (by rw [hk']; exact Option.some_ne_none o'))
      simp only [update_of_ne hne]; exact hc.live k o' hk'
  · intro k hk
    have hkh : k ≠ encodeHandle i t.nextLinearId := fun he => hfresh (he ▸ Or.inr hk)
    show update g.live _ _ k = none
    rw [update_of_ne hkh]
    exact hc.reserved k hk
  · intro j hj
    have hne : j ≠ i := fun he => hj _ (by simp [Record.onAdd]) (hidx.trans he.symm)
    show update t.objects i _ j = none
    rw [update_of_ne hne]
    refine hc.vacant j fun k hk => hj k ?_
    have hkh : k ≠ encodeHandle i t.nextLinearId := fun he => hfresh (he ▸ Or.inl hk)
    simpa [Record.onAdd, hkh] using hk

theorem reserve_inv (hs : SlotsInv t g free) (hc : ContentsInv t g) (hroom : t.count < t.tableSize) :
    ∃ h t', t.reserve = (.ok h, t') ∧ HandleInv ⟨t', g.onReserve h⟩ := by
  obtain ⟨i, rest, rfl, hhead, hlt, -, -⟩ := hs.head hroom
  obtain ⟨hidx, hlin, hid, hfresh⟩ := hs.fresh
  refine ⟨_, _, reserve_of_room hroom hhead, rest,
    hs.alloc rfl rfl rfl (fun j hj => rfl) rfl rfl (g.occupies_onReserve _) rfl rfl,
    hc.live, ?_, hc.vacant⟩
  intro k hk
  by_cases hkh : k = encodeHandle i t.nextLinearId
  · subst hkh
    by_contra hl
    exact hfresh (Or.inl hl)
  · refine hc.reserved k ?_
    simpa [Record.onReserve, hkh] using hk

variable {h : Handle}

section

variable (hs : SlotsInv t g free) (hc : ContentsInv t g)
include hs hc

theorem register_inv (hr : g.reserved h = true) (o : O) :
    HandleInv ⟨t.register h o, g.onRegister h o⟩ := by
  have hocc : g.Occupies h := Or.inr hr
  have hidx := (hs.bits h hocc).2
  have hnotin := hs.index_not_mem hocc
  have hl := hc.reserved h hr
  have hsame : ∀ k, (g.onRegister h o).Occupies k ↔ g.Occupies k := fun k =>
    Record.occupies_onRegister o k hr
  have hreg : t.register h o = { t with
      entryInfos := update t.entryInfos (HandlePack.index h) (.ofLinearId (HandlePack.linearId h))
      objects := update t.objects (HandlePack.index h) (some o) } := if_pos hidx
  rw [hreg]
  refine ⟨free, ⟨hs.size, hs.headLo, hs.headHi, ?_, hs.nodup, ?_, hs.count, ?_, ?_, ?_, hs.nextId⟩,
    ?_, ?_, ?_⟩
  · refine hs.follows.congr fun j hj => ?_
    have hne : j ≠ HandlePack.index h := fun he => hnotin (he ▸ hj)
    simp [KHandleTable.nextFree, update_of_ne hne]
  · intro j
    simp only [hsame]
    exact hs.mem j
  · intro k hk
    exact hs.bits k ((hsame k).1 hk)
  · intro k hk
    exact hs.issued k ((hsame k).1 hk)
  · intro k k' hk hk'
    exact hs.uniq k k' ((hsame k).1 hk) ((hsame k').1 hk')
  · intro k o' hk
    by_cases hkh : k = h
    · subst hkh
      obtain rfl : o = o' := by simpa [Record.onRegister] using hk
      simp [getLinearId_ofLinearId (linearId_lt k)]
    · have hk' : g.live k = some o' := by simpa [Record.onRegister, hkh] using hk
      have hne : HandlePack.index k ≠ HandlePack.index h := fun he =>
        hkh (hs.uniq k h (Or.inl (by rw [hk']; exact Option.some_ne_none o')) hocc he)
      simp only [update_of_ne hne]; exact hc.live k o' hk'
  · intro k hk
    have hkh : k ≠ h := by
      rintro rfl; simp [Record.onRegister] at hk
    have hk' : g.reserved k = true := by simpa [Record.onRegister, hkh] using hk
    show update g.live h _ k = none
    rw [update_of_ne hkh]
    exact hc.reserved k hk'
  · intro j hj
    have hne : j ≠ HandlePack.index h := fun he => hj h (by simp [Record.onRegister]) he.symm
    show update t.objects _ _ j = none
    rw [update_of_ne hne]
    refine hc.vacant j fun k hk => hj k ?_
    have hkh : k ≠ h := fun he => hk (he ▸ hl)
    simpa [Record.onRegister, hkh] using hk

theorem freeEntry_contents (hh : g.Occupies h) {g' : Record O}
    (hlive : ∀ k, k ≠ h → g'.live k = g.live k) (hno : g'.live h = none)
    (hres : ∀ k, g'.reserved k = true → g.reserved k = true) :
    ContentsInv (t.freeEntry (HandlePack.index h)) g' := by
  refine ⟨fun k o hk => ?_, fun k hk => ?_, fun j hj => ?_⟩
  · have hkh : k ≠ h := by
      rintro rfl
      rw [hno] at hk; cases hk
    have hk' : g.live k = some o := (hlive k hkh) ▸ hk
    have hne : HandlePack.index k ≠ HandlePack.index h := fun he =>
      hkh (hs.uniq k h (Or.inl (by rw [hk']; exact Option.some_ne_none o)) hh he)
    simp only [KHandleTable.freeEntry, update_of_ne hne]
    exact hc.live k o hk'
  · by_cases hkh : k = h
    · exact hkh ▸ hno
    · rw [hlive k hkh]; exact hc.reserved k (hres k hk)
  · by_cases hjh : j = HandlePack.index h
    · rw [hjh]
      exact update_self _ _ _
    · show update t.objects _ _ j = none
      rw [update_of_ne hjh]
      refine hc.vacant j fun k hk he => ?_
      have hkh : k ≠ h := by
        rintro rfl; exact hjh he.symm
      exact hj k (by rw [hlive k hkh]; exact hk) he

theorem unreserve_inv (hr : g.reserved h = true) : HandleInv ⟨t.unreserve h, g.onUnreserve h⟩ := by
  have hocc : g.Occupies h := Or.inr hr
  have hl := hc.reserved h hr
  rw [show t.unreserve h = t.freeEntry (HandlePack.index h) from if_pos (hs.bits h hocc).2]
  refine ⟨_, hs.release hocc (fun k => Record.occupies_onUnreserve k hl) rfl rfl,
    freeEntry_contents hs hc hocc (fun _ _ => rfl) hl fun k hk => ?_⟩
  by_cases hkh : k = h
  · exact hkh ▸ hr
  · simpa [Record.onUnreserve, hkh] using hk

theorem remove_inv (hl : g.live h ≠ none) :
    HandleInv ⟨t.freeEntry (HandlePack.index h), g.onRemove h⟩ := by
  have hres : g.reserved h = false := Bool.eq_false_iff.2 fun hr => hl (hc.reserved h hr)
  exact ⟨_, hs.release (Or.inl hl) (fun k => Record.occupies_onRemove k hres) rfl rfl,
    freeEntry_contents hs hc (Or.inl hl) (fun k hk => update_of_ne hk _ _)
      (update_self _ _ _) fun k hk => hk⟩

end

theorem add_of_full (hfull : ¬ t.count < t.tableSize) (o : O) :
    t.add o = (.error .outOfHandles, t) := if_neg hfull

theorem reserve_of_full (hfull : ¬ t.count < t.tableSize) :
    t.reserve = (.error .outOfHandles, t) := if_neg hfull

/-- **The step lemma.** -/
theorem HandleStep.inv {s s' : HandleState O} (h : HandleStep s s') (hi : HandleInv s) :
    HandleInv s' := by
  obtain ⟨free, hs, hc⟩ := hi
  cases h with
  | @add h t' o hadd =>
    by_cases hroom : s.table.count < s.table.tableSize
    · obtain ⟨h₁, t₁, h1, h2⟩ := add_inv hs hc hroom o
      rw [h1, Prod.mk.injEq, Except.ok.injEq] at hadd
      obtain ⟨rfl, rfl⟩ := hadd
      exact h2
    · rw [add_of_full hroom] at hadd; cases hadd
  | @addFails e t' o hadd =>
    by_cases hroom : s.table.count < s.table.tableSize
    · obtain ⟨h₁, t₁, h1, -⟩ := add_inv hs hc hroom o
      rw [h1] at hadd
      cases hadd
    · rw [add_of_full hroom] at hadd
      cases hadd
      exact ⟨free, hs, hc⟩
  | @reserve h t' hres =>
    by_cases hroom : s.table.count < s.table.tableSize
    · obtain ⟨h₁, t₁, h1, h2⟩ := reserve_inv hs hc hroom
      rw [h1, Prod.mk.injEq, Except.ok.injEq] at hres
      obtain ⟨rfl, rfl⟩ := hres
      exact h2
    · rw [reserve_of_full hroom] at hres; cases hres
  | @reserveFails e t' hres =>
    by_cases hroom : s.table.count < s.table.tableSize
    · obtain ⟨h₁, t₁, h1, -⟩ := reserve_inv hs hc hroom
      rw [h1] at hres
      cases hres
    · rw [reserve_of_full hroom] at hres
      cases hres
      exact ⟨free, hs, hc⟩
  | register h o hr => exact register_inv hs hc hr o
  | unreserve h hr => exact unreserve_inv hs hc hr
  | @remove t' h hrem =>
    rw [remove_eq hs hc] at hrem
    by_cases hl : s.record.live h ≠ none
    · rw [if_pos hl] at hrem
      cases hrem
      exact remove_inv hs hc hl
    · rw [if_neg hl] at hrem; cases hrem
  | @removeFails t' h hrem =>
    rw [remove_eq hs hc] at hrem
    by_cases hl : s.record.live h ≠ none
    · rw [if_pos hl] at hrem
      cases hrem
    · rw [if_neg hl] at hrem
      cases hrem
      exact ⟨free, hs, hc⟩

/-! ### The initial table -/

theorem foldl_freeInitialEntry (t₀ : KHandleTable O) (h₀ : t₀.freeHeadIndex = -1) : ∀ n,
    n ≤ MaxTableSize →
    ∃ t, (List.range n).foldl KHandleTable.freeInitialEntry t₀ = t ∧
      t.freeHeadIndex = (n : Int) - 1 ∧
      Follows t.nextFree (linkOf t.freeHeadIndex) (List.range n).reverse ∧
      (∀ i, t₀.objects i = none → t.objects i = none) ∧
      t.tableSize = t₀.tableSize ∧ t.count = t₀.count ∧ t.nextLinearId = t₀.nextLinearId := by
  intro n
  induction n with
  | zero =>
    intro _
    refine ⟨t₀, rfl, by rw [h₀]; rfl, ?_, fun _ h => h, rfl, rfl, rfl⟩
    rw [h₀]; rfl
  | succ n ih =>
    intro hn
    obtain ⟨t, ht, hhead, hfol, hobj, hsize, hcount, hid⟩ := ih (by omega)
    refine ⟨t.freeInitialEntry n, ?_, ?_, ?_, ?_, hsize, hcount, hid⟩
    · rw [List.range_succ, List.foldl_append, ht]
      rfl
    · show (n : Int) = _
      omega
    · rw [List.range_succ, List.reverse_append]
      refine ⟨linkOf_eq_some.2 rfl, ?_⟩
      have hself : (t.freeInitialEntry n).nextFree n = linkOf t.freeHeadIndex := by
        unfold MaxTableSize at hn
        simp only [KHandleTable.nextFree, KHandleTable.freeInitialEntry, update_self, hhead]
        rw [getNextFreeIndex_ofNextFreeIndex (by omega) (by omega)]
      rw [hself]
      refine hfol.congr fun j hj => ?_
      have hne : j ≠ n := by
        have := List.mem_range.1 (List.mem_reverse.1 hj)
        omega
      simp [KHandleTable.nextFree, KHandleTable.freeInitialEntry, update_of_ne hne]
    · intro i hi
      show update t.objects n none i = none
      by_cases hin : i = n
      · rw [hin, update_self]
      · rw [update_of_ne hin]; exact hobj i hi

theorem init_inv {size : Int} {t₀ : KHandleTable O} (h : KHandleTable.init size = .ok t₀) :
    HandleInv ⟨t₀, .empty⟩ := by
  unfold KHandleTable.init at h
  by_cases hsize : size ≤ MaxTableSize
  · rw [if_pos hsize] at h
    have hn : (if size ≤ 0 then MaxTableSize else size.toNat) ≤ MaxTableSize := by
      split
      · exact Nat.le_refl _
      · omega
    generalize hdef : (if size ≤ 0 then MaxTableSize else size.toNat) = n at h hn
    obtain ⟨t, ht, hhead, hfol, hobj, hts, hcount, hid⟩ := foldl_freeInitialEntry (O := O)
      { entryInfos := fun _ => ⟨0⟩, objects := fun _ => none, freeHeadIndex := -1, tableSize := n,
        maxCount := 0, nextLinearId := MinLinearId, count := 0 } rfl n hn
    obtain rfl : t = t₀ := ht.symm.trans (Except.ok.inj h)
    have hocc : ∀ k, ¬ (Record.empty : Record O).Occupies k := by
      rintro k (hk | hk)
      · exact hk rfl
      · cases hk
    refine ⟨(List.range n).reverse, ⟨?_, ?_, ?_, hfol, ?_, ?_, ?_, ?_, ?_, ?_, ?_⟩, ?_, ?_, ?_⟩
    · rw [hts]
      exact hn
    · rw [hhead]
      omega
    · rw [hhead]
      unfold MaxTableSize at hn
      omega
    · exact List.nodup_reverse.2 List.nodup_range
    · intro i
      rw [List.mem_reverse, List.mem_range, hts]
      exact ⟨fun hi => ⟨hi, fun k hk => absurd hk (hocc k)⟩, fun hi => hi.1⟩
    · rw [hcount, hts, List.length_reverse, List.length_range]
      exact Nat.zero_add n
    · exact fun k hk => absurd hk (hocc k)
    · exact fun k hk => absurd hk (hocc k)
    · exact fun k k' hk => absurd hk (hocc k)
    · rw [hid]
      rfl
    · exact fun k o hk => absurd hk.symm (Option.some_ne_none o)
    · exact fun k _ => rfl
    · exact fun i _ => hobj i rfl
  · rw [if_neg hsize] at h; cases h

theorem HandleRun.inv {s s' : HandleState O} (h : HandleRun s s') (hi : HandleInv s) :
    HandleInv s' := by
  induction h with
  | refl => exact hi
  | tail _ hstep ih => exact hstep.inv ih

/-! ### Issuing a handle again -/

theorem HandleRun.issuedAt_ge {s s' : HandleState O} (hrun : HandleRun s s')
    (hfree : ¬ s.record.Occupies h) : s.record.allocations ≤ s'.record.allocations ∧
      (s'.record.Occupies h → ∃ n, s'.record.issuedAt h = some n ∧ s.record.allocations ≤ n) := by
  induction hrun with
  | refl => exact ⟨Nat.le_refl _, fun ho => absurd ho hfree⟩
  | tail _ hstep ih =>
    obtain ⟨hle, hissued⟩ := ih
    cases hstep with
    | @add k t' o hs =>
      refine ⟨Nat.le_succ_of_le hle, fun ho => ?_⟩
      by_cases hk : h = k
      · subst hk
        exact ⟨_, update_self _ _ _, hle⟩
      · obtain ⟨n, h1, h2⟩ := hissued (((Record.occupies_onAdd _ k o h).1 ho).resolve_left hk)
        exact ⟨n, (update_of_ne hk _ _).trans h1, h2⟩
    | addFails o hs => exact ⟨hle, hissued⟩
    | @reserve k t' hs =>
      refine ⟨Nat.le_succ_of_le hle, fun ho => ?_⟩
      by_cases hk : h = k
      · subst hk
        exact ⟨_, update_self _ _ _, hle⟩
      · obtain ⟨n, h1, h2⟩ := hissued (((Record.occupies_onReserve _ k h).1 ho).resolve_left hk)
        exact ⟨n, (update_of_ne hk _ _).trans h1, h2⟩
    | reserveFails hs => exact ⟨hle, hissued⟩
    | register k o hr =>
      exact ⟨hle, fun ho => hissued ((Record.occupies_onRegister o h hr).1 ho)⟩
    | unreserve k hr =>
      refine ⟨hle, fun ho => hissued (ho.imp_right fun hres => ?_)⟩
      by_cases hk : h = k
      · exact hk ▸ hr
      · simpa [Record.onUnreserve, hk] using hres
    | remove k hs =>
      refine ⟨hle, fun ho => hissued (ho.imp_left fun hl => ?_)⟩
      by_cases hk : h = k
      · simp [Record.onRemove, hk] at hl
      · simpa [Record.onRemove, hk] using hl
    | removeFails k hs => exact ⟨hle, hissued⟩

/-! ### The specification of a run -/

/-- What holds of the table after any run, `curProcess` being the current process. -/
structure HandleTableSpec (curProcess : O) (s : HandleState O) : Prop where
  /-- `m_count` is the number of entries that are allocated or reserved -/
  count : s.table.count =
    Set.ncard {i | i < s.table.tableSize ∧ ∃ h, s.record.Occupies h ∧ HandlePack.index h = i}
  count_le : s.table.count ≤ s.table.tableSize
  /-- the free list is acyclic and visits exactly the other entries -/
  freeList : ∃ free, Follows s.table.nextFree (linkOf s.table.freeHeadIndex) free ∧ free.Nodup ∧
    ∀ i, i ∈ free ↔ i < s.table.tableSize ∧ ¬ ∃ h, s.record.Occupies h ∧ HandlePack.index h = i
  /-- an allocation fails exactly when every entry is taken... -/
  add_fails_iff : ∀ o, (s.table.add o).1 = .error .outOfHandles ↔
    ∀ i < s.table.tableSize, ∃ h, s.record.Occupies h ∧ HandlePack.index h = i
  reserve_fails_iff : s.table.reserve.1 = .error .outOfHandles ↔
    ∀ i < s.table.tableSize, ∃ h, s.record.Occupies h ∧ HandlePack.index h = i
  /-- ... and then changes nothing -/
  add_fails : ∀ o, (s.table.add o).1 = .error .outOfHandles → (s.table.add o).2 = s.table
  reserve_fails : s.table.reserve.1 = .error .outOfHandles → s.table.reserve.2 = s.table
  /-- a look-up returns what the live handle was issued for, for every 32-bit value -/
  getObjectWithoutPseudoHandle : ∀ h, s.table.getObjectWithoutPseudoHandle h = s.record.live h
  getObject : ∀ h, s.table.getObject curProcess h =
    if h = PseudoHandle.CurrentProcess then some curProcess else s.record.live h
  /-- a removed handle is not accepted again before 0x7FFF further allocations -/
  reuse : ∀ h t', s.table.remove h = (true, t') → ∃ n, s.record.issuedAt h = some n ∧
    ∀ s', HandleRun ⟨t', s.record.onRemove h⟩ s' →
      (s'.table.getObject curProcess h ≠ none ∨ (s'.table.remove h).1 = true) →
      0x7FFF ≤ s'.record.allocations - (n + 1)

theorem SlotsInv.count_eq_ncard (hs : SlotsInv t g free) : t.count =
    Set.ncard {i | i < t.tableSize ∧ ∃ h, g.Occupies h ∧ HandlePack.index h = i} := by
  have hset : {i | i < t.tableSize ∧ ∃ h, g.Occupies h ∧ HandlePack.index h = i} =
      ↑((Finset.range t.tableSize).filter fun i => i ∉ free) := by
    ext i
    simp only [Set.mem_ofPred_eq, Finset.coe_filter, Finset.mem_range, hs.mem i, not_and, not_forall,
      not_not]
    constructor
    · rintro ⟨h1, k, hk, he⟩
      exact ⟨h1, fun _ => ⟨k, hk, he⟩⟩
    · rintro ⟨h1, h2⟩
      obtain ⟨k, hk, he⟩ := h2 h1; exact ⟨h1, k, hk, he⟩
  have hfree : (Finset.range t.tableSize).filter (fun i => i ∈ free) = free.toFinset := by
    ext i
    simp only [Finset.mem_filter, Finset.mem_range, List.mem_toFinset]
    exact ⟨fun h => h.2, fun h => ⟨((hs.mem i).1 h).1, h⟩⟩
  have hsum := Finset.card_filter_add_card_filter_not (s := Finset.range t.tableSize) (fun i => i ∈ free)
  rw [hfree, List.toFinset_card_of_nodup hs.nodup, Finset.card_range] at hsum
  rw [hset, Set.ncard_coe_finset]
  have := hs.count
  omega

theorem SlotsInv.full_iff_occupied (hs : SlotsInv t g free) : ¬ t.count < t.tableSize ↔
    ∀ i < t.tableSize, ∃ h, g.Occupies h ∧ HandlePack.index h = i := by
  rw [hs.full_iff, List.eq_nil_iff_forall_not_mem]
  constructor
  · intro hf i hi
    by_contra hno
    exact hf i ((hs.mem i).2 ⟨hi, fun k hk he => hno ⟨k, hk, he⟩⟩)
  · intro hf i hi
    obtain ⟨hlt, hno⟩ := (hs.mem i).1 hi
    obtain ⟨k, hk, he⟩ := hf i hlt; exact hno k hk he

theorem add_maxLinearId_le {n n' : Nat} (hlt : n < n')
    (h : 1 + n % MaxLinearId = 1 + n' % MaxLinearId) : n + 0x7FFF ≤ n' := by
  unfold MaxLinearId at h; omega

theorem getObject_eq (hs : SlotsInv t g free) (hc : ContentsInv t g) (curProcess : O) (h : Handle) :
    t.getObject curProcess h =
      if h = PseudoHandle.CurrentProcess then some curProcess else g.live h := by
  unfold KHandleTable.getObject
  rw [getObjectWithoutPseudoHandle_eq hs hc]

theorem occupies_of_accepted (hs : SlotsInv t g free) (hc : ContentsInv t g) {curProcess : O}
    (hp : h ≠ PseudoHandle.CurrentProcess)
    (hacc : t.getObject curProcess h ≠ none ∨ (t.remove h).1 = true) : g.Occupies h := by
  refine Or.inl ?_
  rcases hacc with hacc | hacc
  · rwa [getObject_eq hs hc, if_neg hp] at hacc
  · rw [remove_eq hs hc] at hacc
    by_contra hl
    rw [if_neg (not_not.2 hl)] at hacc; cases hacc

/-- **The handle table over whole runs**: after `Initialize` and any sequence of `Add`, `Reserve`,
    `Register`, `Unreserve` and `Remove`, the table meets its specification. -/
theorem handleTableSpec_of_run {size : Int} {t₀ : KHandleTable O}
    (hinit : KHandleTable.init size = .ok t₀) {s : HandleState O}
    (hrun : HandleRun ⟨t₀, .empty⟩ s) (curProcess : O) : HandleTableSpec curProcess s := by
  obtain ⟨free, hs, hc⟩ := hrun.inv (init_inv hinit)
  have hcount := hs.count
  have hadd : ∀ o, (s.table.add o).1 = .error .outOfHandles → ¬ s.table.count < s.table.tableSize := by
    intro o he hroom
    obtain ⟨h, t', h1, -⟩ := add_inv hs hc hroom o
    rw [h1] at he; cases he
  have hres : s.table.reserve.1 = .error .outOfHandles → ¬ s.table.count < s.table.tableSize := by
    intro he hroom
    obtain ⟨h, t', h1, -⟩ := reserve_inv hs hc hroom
    rw [h1] at he; cases he
  refine ⟨hs.count_eq_ncard, by omega, ⟨free, hs.follows, hs.nodup, fun i => ?_⟩, fun o => ?_, ?_,
    fun o he => ?_, fun he => ?_, getObjectWithoutPseudoHandle_eq hs hc, getObject_eq hs hc curProcess,
    ?_⟩
  · rw [hs.mem i]
    exact and_congr_right fun _ =>
      ⟨fun hno ⟨k, hk, he⟩ => hno k hk he, fun hno k hk he => hno ⟨k, hk, he⟩⟩
  · rw [← hs.full_iff_occupied]
    exact ⟨hadd o, fun hfull => by rw [add_of_full hfull]⟩
  · rw [← hs.full_iff_occupied]
    exact ⟨hres, fun hfull => by rw [reserve_of_full hfull]⟩
  · rw [add_of_full (hadd o he)]
  · rw [reserve_of_full (hres he)]
  · intro h t' hrem
    rw [remove_eq hs hc] at hrem
    by_cases hl : s.record.live h ≠ none
    · rw [if_pos hl] at hrem
      obtain rfl : s.table.freeEntry (HandlePack.index h) = t' := (Prod.mk.inj hrem).2
      obtain ⟨n, hn, hna, hlin⟩ := hs.issued h (Or.inl hl)
      have hnp : h ≠ PseudoHandle.CurrentProcess := by
        rintro rfl; exact absurd (hs.bits _ (Or.inl hl)).1 (by decide)
      have hresv : s.record.reserved h = false :=
        Bool.eq_false_iff.2 fun hr => hl (hc.reserved h hr)
      refine ⟨n, hn, fun s' hrun' hacc => ?_⟩
      obtain ⟨free', hs', hc'⟩ := hrun'.inv (remove_inv hs hc hl)
      have hocc := occupies_of_accepted hs' hc' hnp hacc
      -- it was issued again, after the removal
      obtain ⟨-, hissued⟩ := hrun'.issuedAt_ge (h := h) fun ho =>
        ((Record.occupies_onRemove h hresv).1 ho).1 rfl
      obtain ⟨m, hm, hge⟩ := hissued hocc
      obtain ⟨m', hm', hma, hlin'⟩ := hs'.issued h hocc
      obtain rfl : m = m' := Option.some.inj (hm.symm.trans hm')
      have hge' : s.record.allocations ≤ m := hge
      have := add_maxLinearId_le (by omega) (hlin.symm.trans hlin')
      omega
    · rw [if_neg hl] at hrem; cases hrem

end Run

/-- A fresh table of two entries. -/
def twoEntries : KHandleTable Nat := (KHandleTable.init 2).toOption.get rfl

/-- One entry is added, the other reserved and registered; then the first is removed and used again,
    for another handle. -/
theorem handleTableSpec_two_entries : ∃ s : HandleState Nat, HandleRun ⟨twoEntries, .empty⟩ s ∧
    s.record.live (encodeHandle 1 1) = none ∧ s.record.live (encodeHandle 0 2) = some 6 ∧
    s.record.live (encodeHandle 1 3) = some 8 ∧ HandleTableSpec 7 s := by
  have hadd : HandleRun ⟨twoEntries, .empty⟩ _ := .single (.add (h := encodeHandle 1 1) 5 rfl)
  have hreserve := hadd.tail (.reserve (h := encodeHandle 0 2) rfl)
  have hregister := hreserve.tail (.register (encodeHandle 0 2) 6 (by decide))
  have hremove := hregister.tail (.remove (encodeHandle 1 1) rfl)
  have hagain := hremove.tail (.add (h := encodeHandle 1 3) 8 rfl)
  have hinit : KHandleTable.init 2 = .ok twoEntries := rfl
  exact ⟨_, hagain, by decide, by decide, by decide, handleTableSpec_of_run hinit hagain 7⟩

/-- The pseudo-handle of the current process is answered although it never was added. -/
theorem not_getObject_eq_live : ¬ ∀ (size : Int) (t₀ : KHandleTable Nat) (s : HandleState Nat)
    (curProcess : Nat) (h : Handle), KHandleTable.init size = .ok t₀ → HandleRun ⟨t₀, .empty⟩ s →
    s.table.getObject curProcess h = s.record.live h := by
  intro hall
  obtain ⟨t₀, h₀⟩ : ∃ t₀ : KHandleTable Nat, KHandleTable.init 1 = .ok t₀ := ⟨_, rfl⟩
  have hbad := hall 1 t₀ ⟨t₀, .empty⟩ 7 PseudoHandle.CurrentProcess h₀ Relation.ReflTransGen.refl
  have hget : t₀.getObject 7 PseudoHandle.CurrentProcess = some 7 := if_pos rfl
  rw [show (⟨t₀, .empty⟩ : HandleState Nat).table = t₀ from rfl, hget] at hbad
  exact absurd hbad (Option.some_ne_none 7)

end Suyu.Kernel
