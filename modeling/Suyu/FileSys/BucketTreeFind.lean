import Mathlib
import Suyu.FileSys.BucketTree

/-
  `BucketTree` on well-formed tables: `Find` is exact.

  1. **Specification (`Format`, `WellFormed`)** - how a list of entries lies in the two storages: entry
     sets of `perSet` entries, the offsets of the sets in L1, or in L2 nodes and the tail of L1.

  3. **The crux (`findIndex_eq`)** - every search, whatever it searches, looks at offsets of entries at
     increasing places: `offsetAt` of the place.  The index it ends with is fixed by two
     inequalities.  The rest is counting: how many sets are on L1 (`tail`) and where an L2 node
     starts (`nodeStart`).
-/

namespace Suyu.FileSys

open Lib.Bisect

/-! ## The format -/

/-- A table: its entries and the sizes. -/
structure Format (α : Type) where
  nodeSize : Nat
  entrySize : Nat
  entries : List α
  virtualOffset : α → Int
  endOffset : Int

namespace Format

variable {α : Type} (f : Format α)

/-- Entries in one entry set. -/
def perSet : Nat := (f.nodeSize - 16) / f.entrySize

/-- Offsets in one node. -/
def perNode : Nat := (f.nodeSize - 16) / 8

/-- Entry sets. -/
def setCount : Nat := (f.entries.length + f.perSet - 1) / f.perSet

/-- The virtual offset of an entry, and behind the last one the end offset. -/
def offsetAt (i : Nat) : Int := (f.entries[i]?).elim f.endOffset f.virtualOffset

/-- The start offset of an entry set. -/
def setStart (k : Nat) : Int := f.offsetAt (k * f.perSet)

/-- Entries in an entry set. -/
def setSize (k : Nat) : Nat := min f.perSet (f.entries.length - k * f.perSet)

/-- L2 nodes, when the entry sets do not fit into L1. -/
def l2Count : Nat :=
  (f.setCount - (f.perNode - ((f.setCount + f.perNode - 1) / f.perNode - 1)) + f.perNode - 1) /
    f.perNode

/-- Entry sets whose offsets are in the tail of L1. -/
def tail : Nat := f.perNode - f.l2Count

/-- The first entry set of an L2 node. -/
def nodeStart (k : Nat) : Nat := f.tail + f.perNode * k

/-- Offsets in an L2 node. -/
def nodeCount (k : Nat) : Nat := min f.perNode (f.setCount - f.nodeStart k)

/-- How the table lies in its two storages. -/
structure WellFormed (nodeStorage entryStorage : Storage α) : Prop where
  entrySize_ge : 8 ≤ f.entrySize
  nodeSize_ge : f.entrySize + 16 ≤ f.nodeSize
  nodeSize_min : 1024 ≤ f.nodeSize
  nodeSize_max : f.nodeSize ≤ 512 * 1024
  nodeSize_power : ∃ e, f.nodeSize = 2 ^ e
  -- the entries, their number an `s32`, up to what two levels hold
  nonempty : f.entries ≠ []
  length_lt : f.entries.length < 2 ^ 31
  increasing : (f.entries.map f.virtualOffset).Pairwise (· < ·)
  start_ge : 0 ≤ f.offsetAt 0
  below_end : ∀ e ∈ f.entries, f.virtualOffset e < f.endOffset
  capacity : f.setCount ≤ f.perNode * f.perNode
  -- the sizes of the storages
  nodeStorage_size : nodeStorage.size = queryNodeStorageSize f.nodeSize f.entrySize f.entries.length
  entryStorage_size :
    entryStorage.size = queryEntryStorageSize f.nodeSize f.entrySize f.entries.length
  entrySets_size : entryStorage.size = f.setCount * f.nodeSize
  -- the entry sets
  set_header : ∀ k < f.setCount, entryStorage.header (k * f.nodeSize) =
    ⟨k, f.setSize k, f.setStart (k + 1)⟩
  set_offset : ∀ k < f.setCount, ∀ j < f.setSize k,
    entryStorage.int64 (k * f.nodeSize + 16 + j * f.entrySize) = f.offsetAt (k * f.perSet + j)
  set_entry : ∀ k < f.setCount, ∀ j < f.setSize k,
    f.entries[k * f.perSet + j]? = some (entryStorage.entry (k * f.nodeSize + 16 + j * f.entrySize))
  -- L1 alone
  l1_header : f.setCount ≤ f.perNode → nodeStorage.header 0 = ⟨0, f.setCount, f.endOffset⟩
  l1_offset : f.setCount ≤ f.perNode → ∀ k < f.setCount,
    nodeStorage.int64 (16 + k * 8) = f.setStart k
  -- L1 with L2
  l2_header : f.perNode < f.setCount → nodeStorage.header 0 = ⟨0, f.l2Count, f.endOffset⟩
  l2_offset : f.perNode < f.setCount → ∀ k < f.l2Count,
    nodeStorage.int64 (16 + k * 8) = f.setStart (f.nodeStart k)
  l2_tail : f.perNode < f.setCount → ∀ j < f.tail,
    nodeStorage.int64 (16 + (f.l2Count + j) * 8) = f.setStart j
  node_header : f.perNode < f.setCount → ∀ k < f.l2Count,
    nodeStorage.header ((k + 1) * f.nodeSize) = ⟨k, f.nodeCount k, f.setStart (f.nodeStart (k + 1))⟩
  node_offset : f.perNode < f.setCount → ∀ k < f.l2Count, ∀ j < f.nodeCount k,
    nodeStorage.int64 ((k + 1) * f.nodeSize + 16 + j * 8) = f.setStart (f.nodeStart k + j)

end Format

/-! ## Arithmetic -/

/-- A value in the range of an `s32` is kept. -/
theorem toS32_eq {x : Int} (h : -2 ^ 31 ≤ x) (h' : x < 2 ^ 31) : toS32 x = x := by
  unfold toS32
  rw [Int.bmod_def]
  split <;> omega

/-- So is a count below `2 ^ 31`. -/
theorem toS32_natCast {n : Nat} (h : n < 2 ^ 31) : toS32 n = n :=
  toS32_eq (by omega) (by omega)

/-- Division with rounding up. -/
theorem div_up_bounds {n d : Nat} (hd : 0 < d) (hn : 0 < n) :
    0 < (n + d - 1) / d ∧ n ≤ (n + d - 1) / d * d ∧ (n + d - 1) / d * d < n + d := by
  have hdiv := Nat.div_add_mod (n + d - 1) d
  have hmod := Nat.mod_lt (n + d - 1) hd
  have hpos : 0 < (n + d - 1) / d := Nat.div_pos (by omega) hd
  rw [Nat.mul_comm] at hdiv
  exact ⟨hpos, by omega, by omega⟩

/-- `GetNodeL2Count`: what the L2 nodes and the tail hold together, the last node not empty. -/
theorem l2_bounds {e o : Nat} (ho : 0 < o) (hlt : o < e) (hcap : e ≤ o * o) {r : Nat}
    (hr : r = (e - (o - ((e + o - 1) / o - 1)) + o - 1) / o) :
    0 < r ∧ r ≤ o ∧ e ≤ (o - r) + o * r ∧ (o - r) + o * (r - 1) < e := by
  obtain ⟨hm, hle, hge⟩ := div_up_bounds (d := o) (n := e) ho (by omega)
  generalize (e + o - 1) / o = m at *
  have hm2 : 2 ≤ m := by
    by_contra hlt2
    have : m = 1 := by omega
    rw [this] at hle; omega
  have hmo : m ≤ o := by
    by_contra hgt
    have : (o + 1) * o ≤ m * o := Nat.mul_le_mul_right o (by omega)
    have h1 : (o + 1) * o = o * o + o := by ring
    omega
  have hx : 0 < e - (o - (m - 1)) := by omega
  obtain ⟨hrpos, hrle, hrge⟩ := div_up_bounds (d := o) ho hx
  rw [← hr] at hrpos hrle hrge
  have hrm : r ≤ m := by
    by_contra hgt
    have : (m + 1) * o ≤ r * o := Nat.mul_le_mul_right o (by omega)
    have h1 : (m + 1) * o = m * o + o := by ring
    omega
  have hmr : m - 1 ≤ r := by
    by_contra hgt
    have : r * o ≤ (m - 2) * o := Nat.mul_le_mul_right o (by omega)
    have h1 : (m - 2) * o + 2 * o = m * o := by
      rw [← Nat.add_mul]
      congr 1; omega
    omega
  have hcomm : o * r = r * o := Nat.mul_comm o r
  have hpred : o * (r - 1) + o = r * o := by
    rw [← hcomm]
    obtain ⟨r', rfl⟩ : ∃ r', r = r' + 1 := ⟨r - 1, by omega⟩
    rw [Nat.add_sub_cancel]; ring
  refine ⟨hrpos, by omega, ?_, by omega⟩
  rcases Nat.lt_or_ge r m with h | h
  · omega
  · have : r = m := by omega
    rw [this] at hcomm ⊢; omega

/-! ## The offsets of the entries -/

namespace Format

variable {α : Type} {f : Format α} {nodeStorage entryStorage : Storage α}

/-- Behind the entries lies the end. -/
theorem offsetAt_of_le {i : Nat} (h : f.entries.length ≤ i) : f.offsetAt i = f.endOffset := by
  simp [offsetAt, h]

/-- The offset at an entry is its own. -/
theorem offsetAt_of_lt {i : Nat} (h : i < f.entries.length) :
    f.offsetAt i = f.virtualOffset f.entries[i] := by
  unfold offsetAt
  rw [List.getElem?_eq_getElem h]
  rfl

namespace WellFormed

/-- A table has an entry. -/
theorem length_pos (h : f.WellFormed nodeStorage entryStorage) : 0 < f.entries.length :=
  List.length_pos_of_ne_nil h.nonempty

/-- The offsets increase, and the end is above all of them. -/
theorem offsetAt_lt (h : f.WellFormed nodeStorage entryStorage) {i j : Nat} (hij : i < j)
    (hi : i < f.entries.length) : f.offsetAt i < f.offsetAt j := by
  rw [offsetAt_of_lt hi]
  by_cases hj : j < f.entries.length
  · rw [offsetAt_of_lt hj]
    have := List.pairwise_iff_getElem.mp h.increasing i j (by simpa using hi) (by simpa using hj) hij
    simpa using this
  · rw [offsetAt_of_le (by omega)]; exact h.below_end _ (List.getElem_mem hi)

/-- They never decrease, also behind the end. -/
theorem offsetAt_le (h : f.WellFormed nodeStorage entryStorage) {i j : Nat} (hij : i ≤ j) :
    f.offsetAt i ≤ f.offsetAt j := by
  rcases Nat.lt_or_ge i f.entries.length with hi | hi
  · rcases Nat.eq_or_lt_of_le hij with rfl | hlt
    · exact le_refl _
    · exact (h.offsetAt_lt hlt hi).le
  · rw [offsetAt_of_le hi, offsetAt_of_le (by omega)]

/-- An address in the range of the table lies in one entry. -/
theorem exists_entry {address : Int} (hstart : f.offsetAt 0 ≤ address) (hend : address < f.endOffset) :
    ∃ i, i < f.entries.length ∧ f.offsetAt i ≤ address ∧ address < f.offsetAt (i + 1) := by
  have hex : ∃ j, address < f.offsetAt j := ⟨f.entries.length, by rwa [offsetAt_of_le (le_refl _)]⟩
  classical
  have hspec := Nat.find_spec hex
  have hmin := fun m => @Nat.find_min _ _ hex m
  generalize Nat.find hex = j at hspec hmin
  have hpos : 0 < j := by
    by_contra hzero
    have : j = 0 := by omega
    rw [this] at hspec; omega
  refine ⟨j - 1, ?_, ?_, ?_⟩
  · by_contra hge
    have hlt := hmin (j - 1) (by omega)
    rw [offsetAt_of_le (by omega)] at hlt
    exact hlt hend
  · have := hmin (j - 1) (by omega)
    omega
  · rwa [Nat.sub_add_cancel hpos]

/-! ## Counts -/

section

variable (h : f.WellFormed nodeStorage entryStorage)
include h

/-- An entry set has room for an entry. -/
theorem perSet_pos : 0 < f.perSet := by
  have h1 := h.entrySize_ge
  have h2 := h.nodeSize_ge
  exact Nat.div_pos (by omega) (by omega)

/-- A node has room for an offset. -/
theorem perNode_pos : 0 < f.perNode := by
  have := h.nodeSize_min
  unfold perNode
  omega

/-- The offsets of a node are far below an `s32`. -/
theorem perNode_lt : f.perNode < 2 ^ 20 := by
  have := h.nodeSize_max
  unfold perNode
  omega

/-- The entry sets hold all entries, and none of them is superfluous. -/
theorem setCount_bounds : 0 < f.setCount ∧ f.entries.length ≤ f.setCount * f.perSet ∧
    f.setCount * f.perSet < f.entries.length + f.perSet :=
  div_up_bounds h.perSet_pos h.length_pos

/-- The entry sets are no more than the entries. -/
theorem setCount_lt : f.setCount < 2 ^ 31 := by
  obtain ⟨-, -, hlt⟩ := h.setCount_bounds
  have hpos := h.perSet_pos
  have hlen := h.length_lt
  have hle : f.setCount ≤ f.entries.length := by
    by_contra hgt
    have hmul : (f.entries.length + 1) * f.perSet ≤ f.setCount * f.perSet :=
      Nat.mul_le_mul_right _ (by omega)
    have h1 : (f.entries.length + 1) * f.perSet = f.entries.length * f.perSet + f.perSet := by ring
    have h2 : f.entries.length * 1 ≤ f.entries.length * f.perSet := Nat.mul_le_mul_left _ hpos
    omega
  omega

/-- `GetOffsetCount` does not overflow. -/
theorem getOffsetCount_eq : getOffsetCount f.nodeSize = f.perNode := by
  have hmin := h.nodeSize_min
  have hlt := h.perNode_lt
  have hcast : ((f.nodeSize : Int) - nodeHeaderSize) / 8 = (f.perNode : Int) := by
    unfold perNode nodeHeaderSize; omega
  unfold getOffsetCount
  rw [hcast]
  exact toS32_natCast (by omega)

/-- `GetEntrySetCount` is read back from the size of the storage. -/
theorem getEntrySetCount_eq :
    getEntrySetCount f.nodeSize f.entrySize f.entries.length = f.setCount := by
  have hsize := h.entryStorage_size
  rw [h.entrySets_size] at hsize
  have hpos := h.length_pos
  have hnode := h.nodeSize_min
  unfold queryEntryStorageSize at hsize
  rw [if_neg (by omega)] at hsize
  exact (mul_right_cancel₀ (by omega) hsize).symm

/-- `l2_bounds` at the counts of the table. -/
theorem l2 (hlt : f.perNode < f.setCount) :
    0 < f.l2Count ∧ f.l2Count ≤ f.perNode ∧ f.setCount ≤ f.tail + f.perNode * f.l2Count ∧
    f.tail + f.perNode * (f.l2Count - 1) < f.setCount :=
  l2_bounds h.perNode_pos hlt h.capacity rfl

/-- An entry is in one of the entry sets. -/
theorem div_lt_setCount {i : Nat} (hi : i < f.entries.length) : i / f.perSet < f.setCount := by
  obtain ⟨-, hle, -⟩ := h.setCount_bounds; exact (Nat.div_lt_iff_lt_mul h.perSet_pos).mpr (by omega)

/-- There it has a place below the size of the set. -/
theorem mod_lt_setSize {i : Nat} (hi : i < f.entries.length) :
    i % f.perSet < f.setSize (i / f.perSet) := by
  have hmod := Nat.mod_lt i h.perSet_pos
  have hdiv := Nat.div_add_mod i f.perSet
  rw [Nat.mul_comm] at hdiv
  exact lt_min hmod (by omega)

/-- The start offsets of the sets increase. -/
theorem setStart_lt {k k' : Nat} (hk : k < k') (hc : k < f.setCount) :
    f.setStart k < f.setStart k' := by
  obtain ⟨-, -, hlt⟩ := h.setCount_bounds
  have hpos := h.perSet_pos
  have hmul : (k + 1) * f.perSet ≤ f.setCount * f.perSet := Nat.mul_le_mul_right _ hc
  have h1 : (k + 1) * f.perSet = k * f.perSet + f.perSet := by ring
  exact h.offsetAt_lt (Nat.mul_lt_mul_of_pos_right hk hpos) (by omega)

/-- They never decrease. -/
theorem setStart_le {k k' : Nat} (hk : k ≤ k') : f.setStart k ≤ f.setStart k' :=
  h.offsetAt_le (Nat.mul_le_mul_right _ hk)

/-- The set of an entry covers the addresses of the entry. -/
theorem setStart_cover {i : Nat} {address : Int} (hle : f.offsetAt i ≤ address)
    (hlt : address < f.offsetAt (i + 1)) :
    f.setStart (i / f.perSet) ≤ address ∧ address < f.setStart (i / f.perSet + 1) := by
  have hdiv := Nat.div_add_mod i f.perSet
  have hmod := Nat.mod_lt i h.perSet_pos
  rw [Nat.mul_comm] at hdiv
  constructor
  · exact (h.offsetAt_le (by omega)).trans hle
  · refine hlt.trans_le (h.offsetAt_le ?_)
    have h1 : (i / f.perSet + 1) * f.perSet = i / f.perSet * f.perSet + f.perSet := by ring
    omega

end

end WellFormed

end Format

/-! ## Searches -/

section Search

variable {α : Type} {s : Storage α} {g : Nat → Int} {count k : Nat} {address : Int}

/-- Bisection of increasing offsets ends one place behind the one that covers the address. -/
theorem bisect_offsets {read : Nat → Int} (hread : ∀ j < count, read j = g j)
    (hmono : ∀ a b, a < b → b < count → g a < g b) (hk : k < count) (hle : g k ≤ address)
    (hlt : k + 1 < count → address < g (k + 1)) :
    bisect (fun i => decide (read i ≤ address)) 0 count = k + 1 := by
  refine bisect_eq count 0 (by omega) (by omega) fun i _ hi => ?_
  rw [decide_eq_true_eq, hread i (by omega)]
  constructor
  · intro hi'
    by_contra hge
    have hnext := hlt (by omega)
    rcases Nat.eq_or_lt_of_le (show k + 1 ≤ i by omega) with heq | hgt
    · rw [heq] at hnext
      omega
    · have := hmono (k + 1) i hgt (by omega)
      omega
  · intro hi'
    rcases Nat.eq_or_lt_of_le (show i ≤ k by omega) with heq | hlt'
    · rw [heq]
      exact hle
    · have := hmono i k hlt' hk
      omega

/-- Below all offsets it ends at the first place. -/
theorem bisect_none {read : Nat → Int} (hread : ∀ j < count, address < read j) :
    bisect (fun i => decide (read i ≤ address)) 0 count = 0 := by
  refine bisect_eq count 0 (le_refl _) (by omega) fun i _ hi => ?_
  have := hread i (by omega)
  rw [decide_eq_true_eq]
  omega

/-- `StorageNode::Find` over increasing offsets. -/
theorem findIndex_eq {start stride : Int} {count' : Int} (hcount : count' = count)
    (hread : ∀ j < count, s.int64 (start + j * stride) = g j)
    (hmono : ∀ a b, a < b → b < count → g a < g b) (hk : k < count) (hle : g k ≤ address)
    (hlt : k + 1 < count → address < g (k + 1)) : findIndex s start stride count' address = k := by
  unfold findIndex
  rw [hcount, Int.toNat_natCast, bisect_offsets hread hmono hk hle hlt]
  push_cast
  omega

/-- `std::upper_bound` over increasing offsets. -/
theorem upperBound_eq {first last : Int} (hcount : (last - first).toNat = count)
    (hread : ∀ j < count, s.int64 (nodeHeaderSize + (first + j) * 8) = g j)
    (hmono : ∀ a b, a < b → b < count → g a < g b) (hk : k < count) (hle : g k ≤ address)
    (hlt : k + 1 < count → address < g (k + 1)) : upperBound s first last address = k + 1 := by
  unfold upperBound
  rw [hcount, bisect_offsets hread hmono hk hle hlt]
  push_cast
  rfl

/-- `std::upper_bound` below all of them. -/
theorem upperBound_none {first last : Int} (hcount : (last - first).toNat = count)
    (hread : ∀ j < count, address < s.int64 (nodeHeaderSize + (first + j) * 8)) :
    upperBound s first last address = 0 := by
  unfold upperBound
  rw [hcount, bisect_none hread]
  rfl

end Search

/-! ## The tree that is built -/

/-- The five checks of a node header. -/
theorem verify_ok {k nodeSize entrySize count offset : Int} (hentry : 0 < entrySize)
    (hnode : entrySize + 16 ≤ nodeSize) (hpos : 0 < count)
    (hcount : count ≤ (nodeSize - 16) / entrySize) (hoffset : 0 ≤ offset) :
    (NodeHeader.mk k count offset).verify k nodeSize entrySize = .ok () := by
  unfold NodeHeader.verify nodeHeaderSize
  dsimp only
  rw [if_neg (by simp), if_neg (by omega), if_neg (by omega), if_neg (by omega)]

/-- A header read through a buffer. -/
theorem Storage.buffer_header {α : Type} (s : Storage α) (ofs size : Int) :
    (s.buffer ofs size).header 0 = s.header ofs := by
  simp [Storage.header, Storage.buffer]

/-- An entry set header read through a buffer. -/
theorem Storage.buffer_entrySet {α : Type} (s : Storage α) (ofs size : Int) :
    (s.buffer ofs size).entrySet 0 = s.entrySet ofs := by
  simp [Storage.entrySet, Storage.buffer]

/-- An offset read through the buffer of L1. -/
theorem Storage.buffer_zero {α : Type} (s : Storage α) (size p : Int) :
    (s.buffer 0 size).int64 p = s.int64 p := by
  simp [Storage.buffer]

namespace Format

variable {α : Type} {f : Format α} {nodeStorage entryStorage : Storage α}

/-- The tree of a table. -/
def tree (f : Format α) (nodeStorage entryStorage : Storage α) : BucketTree α :=
  ⟨nodeStorage, entryStorage, nodeStorage.buffer 0 f.nodeSize, f.nodeSize, f.entrySize,
    f.entries.length, f.perNode, f.setCount, f.offsetAt 0, f.endOffset⟩

namespace WellFormed

/-- The range of a table is not empty. -/
theorem start_lt_end (h : f.WellFormed nodeStorage entryStorage) : f.offsetAt 0 < f.endOffset := by
  have := h.offsetAt_lt h.length_pos h.length_pos
  rwa [offsetAt_of_le (le_refl _)] at this

/-- The first set starts where the table does. -/
theorem setStart_zero (f : Format α) : f.setStart 0 = f.offsetAt 0 := by
  unfold setStart
  rw [Nat.zero_mul]

/-- No set starts below 0. -/
theorem setStart_nonneg (h : f.WellFormed nodeStorage entryStorage) (k : Nat) : 0 ≤ f.setStart k :=
  h.start_ge.trans (h.offsetAt_le (Nat.zero_le _))

/-- What `Verify` allows in a node is `perNode`. -/
theorem perNode_div (h : f.WellFormed nodeStorage entryStorage) :
    ((f.nodeSize : Int) - 16) / 8 = f.perNode := by
  have := h.nodeSize_min
  unfold perNode
  omega

/-- What `Verify` allows in an entry set is `perSet`. -/
theorem perSet_div (h : f.WellFormed nodeStorage entryStorage) :
    ((f.nodeSize : Int) - 16) / f.entrySize = f.perSet := by
  have := h.nodeSize_min
  unfold perSet
  rw [Int.natCast_ediv, Nat.cast_sub (by omega)]
  rfl

/-- A node of the table passes `Verify`. -/
theorem verify_node (h : f.WellFormed nodeStorage entryStorage) {k : Int} {count : Nat} {offset : Int}
    (hpos : 0 < count) (hcount : count ≤ f.perNode) (hoffset : 0 ≤ offset) :
    (NodeHeader.mk k count offset).verify k f.nodeSize 8 = .ok () := by
  have hmin := h.nodeSize_min
  refine verify_ok (by omega) (by omega) (by omega) ?_ hoffset
  rw [h.perNode_div]
  omega

section

variable (h : f.WellFormed nodeStorage entryStorage)
include h

/-- No entry set is empty. -/
theorem setSize_pos {k : Nat} (hk : k < f.setCount) : 0 < f.setSize k := by
  obtain ⟨-, -, hlt⟩ := h.setCount_bounds
  have hmul : (k + 1) * f.perSet ≤ f.setCount * f.perSet := Nat.mul_le_mul_right _ hk
  have h1 : (k + 1) * f.perSet = k * f.perSet + f.perSet := by ring
  exact lt_min h.perSet_pos (by omega)

/-- An entry set of the table passes `Verify`. -/
theorem verify_set {k : Nat} (hk : k < f.setCount) :
    (NodeHeader.mk k (f.setSize k) (f.setStart (k + 1))).verify k f.nodeSize f.entrySize = .ok () := by
  have hentry := h.entrySize_ge
  have hnode := h.nodeSize_ge
  have hpos := h.setSize_pos hk
  refine verify_ok (by omega) (by omega) (by omega) ?_ (h.setStart_nonneg _)
  rw [h.perSet_div]
  have : f.setSize k ≤ f.perSet := min_le_left _ _
  omega

/-- L1 counts the entry sets, or the L2 nodes when there are any. -/
theorem countL1_cases :
    (f.setCount ≤ f.perNode ∧ nodeStorage.header 0 = ⟨0, f.setCount, f.endOffset⟩) ∨
    (f.perNode < f.setCount ∧ nodeStorage.header 0 = ⟨0, f.l2Count, f.endOffset⟩) := by
  rcases Nat.lt_or_ge f.perNode f.setCount with hlt | hge
  · exact .inr ⟨hlt, h.l2_header hlt⟩
  · exact .inl ⟨hge, h.l1_header hge⟩

/-- `Initialize` accepts a well-formed table and reads its range. -/
theorem initializeTree_eq :
    BucketTree.initializeTree nodeStorage entryStorage f.nodeSize f.entrySize f.entries.length =
      .ok (f.tree nodeStorage entryStorage) := by
  have hpos := h.length_pos
  have hend := h.start_lt_end
  have hzero := h.start_ge
  have hset := h.setCount_bounds.1
  unfold BucketTree.initializeTree
  simp only [Storage.buffer_header, BucketTree.offsetL1, Storage.buffer_zero, h.getOffsetCount_eq,
    h.getEntrySetCount_eq, nodeHeaderSize]
  rw [if_neg (by omega)]
  rcases h.countL1_cases with ⟨hle, hheader⟩ | ⟨hlt, hheader⟩
  · have hfirst := h.l1_offset hle 0 hset
    rw [setStart_zero, Nat.cast_zero] at hfirst
    rw [hheader, h.verify_node hset hle (by omega)]
    simp only [hfirst]
    rw [if_neg (c := _ ∧ _) (by omega)]
    rw [if_neg (by omega), if_neg (by omega)]
    rfl
  · obtain ⟨hl2, hl2le, -, -⟩ := h.l2 hlt
    have hfirst := h.l2_offset hlt 0 hl2
    rw [Nat.cast_zero] at hfirst
    have hmono := h.setStart_le (Nat.zero_le (f.nodeStart 0))
    rw [setStart_zero] at hmono
    -- a tail of L1 starts with the first set; without one the first L2 node does
    have hstart : (if (f.perNode : Int) < f.setCount ∧ (f.l2Count : Int) < f.perNode
        then nodeStorage.int64 (16 + f.l2Count * 8) else nodeStorage.int64 (16 + 0 * 8)) =
        f.offsetAt 0 := by
      rcases Nat.eq_or_lt_of_le hl2le with heq | hlt'
      · rw [if_neg (by omega), hfirst, ← setStart_zero]
        congr 1
        unfold nodeStart tail
        omega
      · rw [if_pos (by omega)]
        have := h.l2_tail hlt 0 (by unfold tail; omega)
        rw [setStart_zero] at this; simpa using this
    rw [hfirst] at hstart
    rw [hheader, h.verify_node hl2 hl2le (by omega)]
    simp only [hfirst, hstart]
    show (if _ then _ else _) = _
    rw [if_neg (by omega), if_neg (by omega)]; rfl

end

end WellFormed

end Format

/-! ## Finding the entry set -/

/-- The end of every search: the check passes and the index is not negative. -/
theorem search_ok {β : Type} {check : Except Error Unit} {index : Int} {j : Nat} {e : Error} {x : β}
    (hcheck : check = .ok ()) (hindex : index = j) :
    (do
      check
      if index < 0 then throw e
      return x : Except Error β) = .ok x := by
  rw [hcheck, hindex]
  dsimp only
  rw [if_neg (by omega)]
  rfl

namespace Format

variable {α : Type} {f : Format α} {nodeStorage entryStorage : Storage α}

/-- The count of L1 is in its header. -/
theorem tree_countL1 (f : Format α) (nodeStorage entryStorage : Storage α) :
    (f.tree nodeStorage entryStorage).countL1 = (nodeStorage.header 0).count := by
  unfold BucketTree.countL1 tree
  rw [Storage.buffer_header]

namespace WellFormed

variable {address : Int}

section

variable (h : f.WellFormed nodeStorage entryStorage)
include h

/-- Within an L2 node, read with a buffer or without one. -/
theorem findEntrySet_eq (hex : f.perNode < f.setCount) {r j : Nat} (hr : r < f.l2Count)
    (hj : j < f.nodeCount r) (b : Bool) (hle : f.setStart (f.nodeStart r + j) ≤ address)
    (hlt : address < f.setStart (f.nodeStart r + j + 1)) :
    (f.tree nodeStorage entryStorage).findEntrySet b address r = .ok (f.nodeStart r + j : Nat) := by
  have hheader := h.node_header hex r hr
  have hcountL1 := congrArg NodeHeader.count (h.l2_header hex)
  obtain ⟨-, hl2le, -, -⟩ := h.l2 hex
  have hcount : f.nodeCount r ≤ f.perNode := min_le_left _ _
  have hset : f.nodeStart r + j < f.setCount := by
    have : f.nodeCount r ≤ f.setCount - f.nodeStart r := min_le_right _ _
    omega
  have hlt31 := h.setCount_lt
  have hverify := @verify_node _ _ _ _ h (r : Int) _ _ (by omega) hcount
    (h.setStart_nonneg (f.nodeStart (r + 1)))
  have hmono : ∀ a b, a < b → b < f.nodeCount r →
      f.setStart (f.nodeStart r + a) < f.setStart (f.nodeStart r + b) := by
    intro a b hab hb
    have : f.nodeCount r ≤ f.setCount - f.nodeStart r := min_le_right _ _
    exact h.setStart_lt (by omega) (by omega)
  have hindex : (f.tree nodeStorage entryStorage).getEntrySetIndex r j = (f.nodeStart r + j : Nat) := by
    unfold BucketTree.getEntrySetIndex
    rw [tree_countL1, hcountL1]
    show toS32 (toS32 (toS32 ((f.perNode : Int) - f.l2Count) + toS32 (f.perNode * r)) + j) = _
    have hperNode := h.perNode_lt
    have htail : (f.tail : Int) = f.perNode - f.l2Count := by
      unfold tail; omega
    have hstart : (f.nodeStart r : Int) = f.tail + f.perNode * r := by
      unfold nodeStart
      push_cast; rfl
    have hmul : 0 ≤ (f.perNode : Int) * r := by positivity
    rw [toS32_eq (x := (f.perNode : Int) - f.l2Count) (by omega) (by omega),
      toS32_eq (x := (f.perNode : Int) * r) (by omega) (by omega), ← htail, ← hstart,
      toS32_natCast (by omega), ← Nat.cast_add, toS32_natCast (by omega)]
  have hread : ∀ k < f.nodeCount r, ∀ p : Int, p = (r + 1) * f.nodeSize + 16 + k * 8 →
      nodeStorage.int64 p = f.setStart (f.nodeStart r + k) := by
    rintro k hk p rfl; exact h.node_offset hex r hr k hk
  -- the two ways of reading differ in where the offsets start
  cases b with
  | true =>
    have hfind : findIndex (nodeStorage.buffer ((r + 1) * f.nodeSize) f.nodeSize) nodeHeaderSize 8
        (f.nodeCount r) address = j :=
      findIndex_eq rfl (fun k hk => hread k hk _ (by unfold nodeHeaderSize; ring)) hmono hj hle
        (fun _ => hlt)
    show (f.tree nodeStorage entryStorage).findEntrySetWithBuffer address r = _
    unfold BucketTree.findEntrySetWithBuffer
    simp only [Storage.buffer_header, tree, hheader, hverify, hfind]
    exact (search_ok rfl rfl).trans (congrArg _ hindex)
  | false =>
    have hfind : findIndex nodeStorage (nodeHeaderSize + (r + 1) * f.nodeSize) 8
        (f.nodeCount r) address = j :=
      findIndex_eq rfl (fun k hk => hread k hk _ (by unfold nodeHeaderSize; ring)) hmono hj hle
        (fun _ => hlt)
    show (f.tree nodeStorage entryStorage).findEntrySetWithoutBuffer address r = _
    unfold BucketTree.findEntrySetWithoutBuffer
    simp only [tree, hheader, hverify, hfind]
    exact (search_ok rfl rfl).trans (congrArg _ hindex)

/-- The search for the entry set when L1 has all offsets. -/
theorem findSetIndex_l1 (hfit : f.setCount ≤ f.perNode) {q : Nat} (b : Bool) (hq : q < f.setCount)
    (hle : f.setStart q ≤ address) (hlt : address < f.setStart (q + 1)) :
    (f.tree nodeStorage entryStorage).findSetIndex b address = .ok (q : Int) := by
  have hno : (f.tree nodeStorage entryStorage).isExistL2 = false := by
    show decide ((f.perNode : Int) < f.setCount) = false
    simp only [decide_eq_false_iff_not]; omega
  have hcount : (f.tree nodeStorage entryStorage).countL1 = f.setCount := by
    rw [tree_countL1, h.l1_header hfit]
  have hupper : upperBound (f.tree nodeStorage entryStorage).nodeL1 0 f.setCount address = q + 1 := by
    refine @upperBound_eq _ _ f.setStart f.setCount q address _ _ (by omega) (fun j hj => ?_)
      (fun a b hab hb => h.setStart_lt hab (by omega)) hq hle (fun _ => hlt)
    rw [← h.l1_offset hfit j hj, Int.zero_add]; exact Storage.buffer_zero _ _ _
  have hsmall := h.setCount_lt
  unfold BucketTree.findSetIndex BucketTree.isExistOffsetL2OnL1
  rw [hno, Bool.false_and, Bool.false_and, if_neg Bool.false_ne_true, hcount, hupper]
  dsimp only
  rw [if_neg (by omega), if_neg Bool.false_ne_true]
  exact congrArg Except.ok ((congrArg toS32 (by omega)).trans (toS32_natCast (by omega)))

/-- The search for the entry set over both levels. -/
theorem findSetIndex_l2 (hex : f.perNode < f.setCount) {q : Nat} (b : Bool) (hq : q < f.setCount)
    (hle : f.setStart q ≤ address) (hlt : address < f.setStart (q + 1)) :
    (f.tree nodeStorage entryStorage).findSetIndex b address = .ok (q : Int) := by
  obtain ⟨hpos, hl2le, hcover, hlast⟩ := h.l2 hex
  have hsmall := h.setCount_lt
  have hnode := h.perNode_pos
  have hyes : (f.tree nodeStorage entryStorage).isExistL2 = true := by
    show decide ((f.perNode : Int) < f.setCount) = true
    rw [decide_eq_true_eq]; omega
  have hcount : (f.tree nodeStorage entryStorage).countL1 = f.l2Count := by
    rw [tree_countL1, h.l2_header hex]
  have hoffsetCount : (f.tree nodeStorage entryStorage).offsetCount = f.perNode := rfl
  have hfirst : BucketTree.offsetL1 (f.tree nodeStorage entryStorage).nodeL1 0 = f.setStart f.tail := by
    have := h.l2_offset hex 0 hpos
    rw [Nat.cast_zero] at this
    exact (Storage.buffer_zero _ _ _).trans (this.trans (by rw [nodeStart, Nat.mul_zero, Nat.add_zero]))
  have htail : f.tail = f.perNode - f.l2Count := rfl
  unfold BucketTree.findSetIndex BucketTree.isExistOffsetL2OnL1
  rw [hyes, Bool.true_and, hfirst, hcount, hoffsetCount]
  rcases Nat.lt_or_ge q f.tail with hin | hout
  · -- the set is one of the first, in the tail of L1
    have hupper : upperBound (f.tree nodeStorage entryStorage).nodeL1 f.l2Count f.perNode address =
        q + 1 := by
      refine @upperBound_eq _ _ f.setStart f.tail q address _ _ (by omega) (fun j hj => ?_)
        (fun a b hab hb => h.setStart_lt hab (by omega)) hin hle (fun _ => hlt)
      rw [← h.l2_tail hex j hj]; exact Storage.buffer_zero _ _ _
    have hbelow : address < f.setStart f.tail := hlt.trans_le (h.setStart_le hin)
    rw [if_pos (by rw [Bool.and_eq_true, decide_eq_true_eq, decide_eq_true_eq]; omega), hupper]
    dsimp only
    rw [if_neg (by omega)]
    exact congrArg Except.ok ((congrArg toS32 (by omega)).trans (toS32_natCast (by omega)))
  · -- the set is in an L2 node
    obtain ⟨r, j, hj, rfl⟩ : ∃ r j, j < f.perNode ∧ q = f.nodeStart r + j := by
      refine ⟨(q - f.tail) / f.perNode, (q - f.tail) % f.perNode, Nat.mod_lt _ hnode, ?_⟩
      have := Nat.div_add_mod (q - f.tail) f.perNode
      unfold nodeStart; omega
    have hr : r < f.l2Count := by
      by_contra hge
      have : f.perNode * f.l2Count ≤ f.perNode * r := Nat.mul_le_mul_left _ (by omega)
      unfold nodeStart at hq; omega
    have hnodeStart : ∀ a, f.nodeStart (a + 1) = f.nodeStart a + f.perNode := by
      intro a
      unfold nodeStart; ring
    have hmono : ∀ a b, a < b → b < f.l2Count →
        f.setStart (f.nodeStart a) < f.setStart (f.nodeStart b) := by
      intro a b hab hb
      have hmul : f.perNode * (a + 1) ≤ f.perNode * b := Nat.mul_le_mul_left _ hab
      have hmul' : f.perNode * b ≤ f.perNode * (f.l2Count - 1) := Nat.mul_le_mul_left _ (by omega)
      have h1 : f.perNode * (a + 1) = f.perNode * a + f.perNode := by ring
      exact h.setStart_lt (by unfold nodeStart; omega) (by unfold nodeStart; omega)
    have hupper : upperBound (f.tree nodeStorage entryStorage).nodeL1 0 f.l2Count address =
        r + 1 := by
      refine @upperBound_eq _ _ (fun k => f.setStart (f.nodeStart k)) f.l2Count r address _ _
        (by omega) (fun k hk => ?_) hmono hr ((h.setStart_le (by omega)).trans hle)
        (fun _ => hlt.trans_le (h.setStart_le (by rw [hnodeStart]; omega)))
      rw [← h.l2_offset hex k hk, Int.zero_add]; exact Storage.buffer_zero _ _ _
    have habove : ¬ (decide ((f.l2Count : Int) < f.perNode) && decide (address < f.setStart f.tail)) =
        true := by
      have := h.setStart_le hout
      rw [Bool.and_eq_true, decide_eq_true_eq, decide_eq_true_eq]; omega
    have hindex : toS32 ((r : Int) + 1 - 1) = r :=
      (congrArg toS32 (by omega)).trans (toS32_natCast (by have := h.perNode_lt; omega))
    rw [if_neg habove, hupper]
    dsimp only
    rw [if_neg (by omega), if_pos rfl, hindex, if_neg (by omega)]
    exact h.findEntrySet_eq hex hr (lt_min hj (by omega)) b hle hlt

/-- `Find` reaches the entry set that covers the address. -/
theorem findSetIndex_eq {q : Nat} (b : Bool) (hq : q < f.setCount) (hle : f.setStart q ≤ address)
    (hlt : address < f.setStart (q + 1)) :
    (f.tree nodeStorage entryStorage).findSetIndex b address = .ok (q : Int) := by
  rcases Nat.lt_or_ge f.perNode f.setCount with hex | hfit
  · exact h.findSetIndex_l2 hex b hq hle hlt
  · exact h.findSetIndex_l1 hfit b hq hle hlt

end

end WellFormed

/-! ## Finding the entry -/

/-- The header of an entry set, with the offset of its first entry. -/
def entrySetAt (f : Format α) (k : Nat) : EntrySet :=
  ⟨k, f.setSize k, f.setStart (k + 1), f.setStart k⟩

/-- The visitor at an entry. -/
def visitorAt (f : Format α) (entryStorage : Storage α) (i : Nat) : Visitor α where
  entry := entryStorage.entry
    ((i / f.perSet : Nat) * f.nodeSize + 16 + (i % f.perSet : Nat) * f.entrySize)
  entryIndex := (i % f.perSet : Nat)
  entrySetCount := f.setCount
  entrySet := f.entrySetAt (i / f.perSet)

namespace WellFormed

/-- An entry from its set and its place there. -/
theorem div_mod (f : Format α) (i : Nat) : i / f.perSet * f.perSet + i % f.perSet = i := by
  rw [Nat.mul_comm]; exact Nat.div_add_mod i f.perSet

/-- The visitor holds the entry of the table. -/
theorem visitorAt_entry (h : f.WellFormed nodeStorage entryStorage) {i : Nat}
    (hi : i < f.entries.length) : f.entries[i]? = some (f.visitorAt entryStorage i).entry := by
  have := h.set_entry _ (h.div_lt_setCount hi) _ (h.mod_lt_setSize hi)
  rwa [div_mod] at this

/-- The header that is read is that of the set. -/
theorem entrySet_eq (h : f.WellFormed nodeStorage entryStorage) {k : Nat} (hk : k < f.setCount) :
    entryStorage.entrySet (k * f.nodeSize) = f.entrySetAt k := by
  have hheader := h.set_header k hk
  have hstart := h.set_offset k hk 0 (h.setSize_pos hk)
  rw [Nat.cast_zero, Int.zero_mul, Int.add_zero, Nat.add_zero] at hstart
  have h1 := congrArg NodeHeader.index hheader
  have h2 := congrArg NodeHeader.count hheader
  have h3 := congrArg NodeHeader.offset hheader
  unfold Storage.header at h1 h2 h3
  dsimp only at h1 h2 h3
  unfold Storage.entrySet entrySetAt
  rw [h1, h2, h3, hstart]
  rfl

/-- It passes `Verify`. -/
theorem verify_entrySetAt (h : f.WellFormed nodeStorage entryStorage) {k : Nat}
    (hk : k < f.setCount) : (f.entrySetAt k).header.verify k f.nodeSize f.entrySize = .ok () :=
  h.verify_set hk

variable {address : Int}

/-- Within the entry set, read with a buffer or without one. -/
theorem findEntry_eq (h : f.WellFormed nodeStorage entryStorage) {i : Nat} (hi : i < f.entries.length)
    (b : Bool) (hle : f.offsetAt i ≤ address) (hlt : address < f.offsetAt (i + 1)) :
    (f.tree nodeStorage entryStorage).findEntry b address (i / f.perSet : Nat) =
      .ok (f.visitorAt entryStorage i) := by
  have hk := h.div_lt_setCount hi
  have hj := h.mod_lt_setSize hi
  have hdiv := div_mod f i
  generalize hvisitor : f.visitorAt entryStorage i = v
  unfold visitorAt at hvisitor
  generalize i / f.perSet = k at *
  generalize i % f.perSet = j at *
  have hset := h.entrySet_eq hk
  have hverify := h.verify_entrySetAt hk
  have hlen : f.setSize k ≤ f.entries.length - k * f.perSet := min_le_right _ _
  have hmono : ∀ a b, a < b → b < f.setSize k →
      f.offsetAt (k * f.perSet + a) < f.offsetAt (k * f.perSet + b) := by
    intro a b hab hb; exact h.offsetAt_lt (by omega) (by omega)
  have hread : ∀ a < f.setSize k, ∀ p : Int, p = k * f.nodeSize + 16 + a * f.entrySize →
      entryStorage.int64 p = f.offsetAt (k * f.perSet + a) := by
    rintro a ha p rfl; exact h.set_offset k hk a ha
  have hnext : j + 1 < f.setSize k → address < f.offsetAt (k * f.perSet + (j + 1)) := by
    intro _
    rwa [← Nat.add_assoc, hdiv]
  rw [← hdiv] at hle
  cases b with
  | true =>
    have hfind : findIndex (entryStorage.buffer (k * f.nodeSize) f.nodeSize) nodeHeaderSize
        f.entrySize (f.entrySetAt k).count address = j :=
      findIndex_eq rfl (fun a ha => hread a ha _ (by unfold nodeHeaderSize; ring)) hmono hj hle hnext
    show (f.tree nodeStorage entryStorage).findEntryWithBuffer address k = _
    unfold BucketTree.findEntryWithBuffer
    simp only [tree, Storage.buffer_entrySet, hset, hverify, hfind]
    refine (search_ok rfl rfl).trans ?_
    rw [← hvisitor]
    show Except.ok (Visitor.mk (entryStorage.entry (k * f.nodeSize + (0 + 16 + j * f.entrySize)))
      _ _ _) = _
    rw [show (k * f.nodeSize + (0 + 16 + j * f.entrySize) : Int) =
      k * f.nodeSize + 16 + j * f.entrySize by ring]
  | false =>
    have hfind : findIndex entryStorage (nodeHeaderSize + k * f.nodeSize) f.entrySize
        (f.entrySetAt k).count address = j :=
      findIndex_eq rfl (fun a ha => hread a ha _ (by unfold nodeHeaderSize; ring)) hmono hj hle hnext
    show (f.tree nodeStorage entryStorage).findEntryWithoutBuffer address k = _
    unfold BucketTree.findEntryWithoutBuffer
    simp only [tree, hset, hverify, hfind]
    refine (search_ok rfl rfl).trans ?_
    rw [← hvisitor]; rfl

/-- `Find` in the range of the table gives the entry that covers the address. -/
theorem find_eq (h : f.WellFormed nodeStorage entryStorage) {i : Nat} (hi : i < f.entries.length)
    (b b' : Bool) (hle : f.offsetAt i ≤ address) (hlt : address < f.offsetAt (i + 1)) :
    (f.tree nodeStorage entryStorage).find b b' address = .ok (f.visitorAt entryStorage i) := by
  have hk := h.div_lt_setCount hi
  obtain ⟨hstart, hstop⟩ := h.setStart_cover hle hlt
  have hnonneg := h.start_ge.trans ((h.offsetAt_le (Nat.zero_le i)).trans hle)
  have hend : address < f.endOffset := by
    rw [← offsetAt_of_le (le_refl f.entries.length)]; exact hlt.trans_le (h.offsetAt_le hi)
  have hend' : ¬ ¬ address < (f.tree nodeStorage entryStorage).endOffset := not_not.mpr hend
  have hindex := h.findSetIndex_eq b hk hstart hstop
  unfold BucketTree.find
  dsimp only
  rw [if_neg (by omega), if_neg hend', hindex]
  have hrange : ¬ ¬ (0 ≤ ((i / f.perSet : Nat) : Int) ∧ ((i / f.perSet : Nat) : Int) < f.setCount) :=
    not_not.mpr ⟨Int.natCast_nonneg _, Int.ofNat_lt.mpr hk⟩
  show (if ¬ (0 ≤ ((i / f.perSet : Nat) : Int) ∧ ((i / f.perSet : Nat) : Int) < f.setCount) then _
    else _) = _
  rw [if_neg hrange]
  exact h.findEntry_eq hi b' hle hlt

/-! ## Addresses outside the table -/

/-- Below the first offset the search fails, in L1 alone as in two levels. -/
theorem findSetIndex_below (h : f.WellFormed nodeStorage entryStorage) (b : Bool)
    (hlt : address < f.offsetAt 0) :
    (f.tree nodeStorage entryStorage).findSetIndex b address = .error .outOfRange := by
  have hbelow : ∀ k, address < f.setStart k := fun k => hlt.trans_le (h.offsetAt_le (Nat.zero_le _))
  have hzero : ∀ {x : Int}, x = 0 → x ≤ 0 := fun hx => hx.le
  unfold BucketTree.findSetIndex
  dsimp only
  split
  · rename_i htail
    -- the tail of L1 is searched, which there is only with L2
    unfold BucketTree.isExistOffsetL2OnL1 BucketTree.isExistL2 at htail
    rw [Bool.and_eq_true, Bool.and_eq_true, decide_eq_true_eq, decide_eq_true_eq] at htail
    have hex : f.perNode < f.setCount := Int.ofNat_lt.mp htail.1.1
    have hcount : (f.tree nodeStorage entryStorage).countL1 = f.l2Count := by
      rw [tree_countL1, h.l2_header hex]
    have hnone : upperBound (f.tree nodeStorage entryStorage).nodeL1
        (f.tree nodeStorage entryStorage).countL1 (f.tree nodeStorage entryStorage).offsetCount
        address = 0 := by
      rw [hcount]
      refine @upperBound_none _ _ f.tail _ _ _ (by show ((f.perNode : Int) - _).toNat = _; unfold tail; omega)
        fun j hj => ?_
      refine (hbelow j).trans_le (le_of_eq ?_)
      rw [← h.l2_tail hex j hj]; exact (Storage.buffer_zero _ _ _).symm
    rw [if_pos (hzero hnone)]
    rfl
  · have hnone : upperBound (f.tree nodeStorage entryStorage).nodeL1 0
        (f.tree nodeStorage entryStorage).countL1 address = 0 := by
      rw [tree_countL1]
      rcases h.countL1_cases with ⟨hfit, hheader⟩ | ⟨hex, hheader⟩
      · rw [hheader]
        refine @upperBound_none _ _ f.setCount _ _ _ (by dsimp only; omega) fun j hj => ?_
        refine (hbelow j).trans_le (le_of_eq ?_)
        rw [← h.l1_offset hfit j hj, Int.zero_add]
        exact (Storage.buffer_zero _ _ _).symm
      · rw [hheader]
        refine @upperBound_none _ _ f.l2Count _ _ _ (by dsimp only; omega) fun j hj => ?_
        refine (hbelow (f.nodeStart j)).trans_le (le_of_eq ?_)
        rw [← h.l2_offset hex j hj, Int.zero_add]
        exact (Storage.buffer_zero _ _ _).symm
    rw [if_pos (hzero hnone)]; rfl

/-- `Find` outside of the range is an error. -/
theorem find_outside (h : f.WellFormed nodeStorage entryStorage) (b b' : Bool)
    (hout : ¬ (f.offsetAt 0 ≤ address ∧ address < f.endOffset)) :
    ∃ e, (f.tree nodeStorage entryStorage).find b b' address = .error e := by
  unfold BucketTree.find
  dsimp only
  split
  · exact ⟨_, rfl⟩
  split
  · exact ⟨_, rfl⟩
  rename_i hend
  have hlt : address < f.endOffset := not_not.mp hend
  rw [h.findSetIndex_below b (by omega)]
  exact ⟨_, rfl⟩

end WellFormed

end Format

end Suyu.FileSys
