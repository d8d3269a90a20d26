/-
  The GPU memory manager is ONE address map, for every run of `Map`, `MapSparse` and `Unmap`, and
  whichever path reads it.

  1. **Spec** — `latest`: the latest `Map` that covers an address and is not unmapped since.
  2. **Scalar path** — `GpuToCpuAddress` is that map after every operation (`SpaceRun.refines`), as
     long as no sparse mapping is laid over pages that are mapped in the same table.
  3. **Block path** — `gather_memoryOperation`, `scatter_memoryOperation`: a block access is a walk
     over chunks that lie in one page each.  `PointerRun` carries the host pointers along a chunk.
-/
import Mathlib
import Suyu.VideoCore.MemoryManager

namespace Suyu.VideoCore

open MemoryManager

/-! ## The address map -/

inductive GpuOp where
  | map (gpuAddr devAddr size : Nat) (isBigPages : Bool)
  | mapSparse (gpuAddr size : Nat) (isBigPages : Bool)
  | unmap (gpuAddr size : Nat)
deriving DecidableEq, Repr

/-- What the operations of `history`, the latest one first, make of an address. -/
def latest : List GpuOp → Nat → Option Nat
  | [], _ => none
  | .map gpuAddr devAddr size _ :: history, x =>
    if gpuAddr ≤ x ∧ x < gpuAddr + size then some (devAddr + (x - gpuAddr)) else latest history x
  | .mapSparse .. :: history, x => latest history x
  | .unmap gpuAddr size :: history, x =>
    if gpuAddr ≤ x ∧ x < gpuAddr + size then none else latest history x

/-- The byte at a GPU address. -/
def byteAt (dm : DeviceMemory) (history : List GpuOp) (x : Nat) : Byte :=
  match latest history x with
  | some d => dm.readByte d
  | none => 0

/-- Writing byte by byte: nothing where nothing is mapped. -/
def writeThrough (history : List GpuOp) (dm : DeviceMemory) (x : Nat) : List Byte → DeviceMemory
  | [] => dm
  | b :: src => writeThrough history
      (match latest history x with
        | some d => dm.writeByte d b
        | none => dm) (x + 1) src

/-! ## Runs -/

section Runs

variable (cfg : SpaceConfig) (dm : DeviceMemory)

namespace GpuOp

def run (op : GpuOp) (m : MemoryManager) : MemoryManager :=
  match op with
  | .map gpuAddr devAddr size isBigPages => m.map cfg dm gpuAddr devAddr size isBigPages
  | .mapSparse gpuAddr size isBigPages => m.mapSparse cfg dm gpuAddr size isBigPages
  | .unmap gpuAddr size => m.unmap cfg dm gpuAddr size

def gpuAddr : GpuOp → Nat
  | .map g .. | .mapSparse g .. | .unmap g _ => g

def size : GpuOp → Nat
  | .map _ _ n _ | .mapSparse _ n _ | .unmap _ n => n

/-- The page size an operation uses: `Unmap` works on big pages. -/
def step : GpuOp → Nat
  | .map _ _ _ big | .mapSparse _ _ big => if big then cfg.bigPageSize else pageSize
  | .unmap _ _ => cfg.bigPageSize

/-- A `Map` is made over addresses that are not mapped, to device pages that are there. -/
structure MapValid (history : List GpuOp) (gpuAddr devAddr size : Nat) (isBigPages : Bool) :
    Prop where
  vacant : ∀ x, gpuAddr ≤ x → x < gpuAddr + size → latest history x = none
  aligned : pageSize ∣ devAddr
  limit : devAddr + size ≤ 2 ^ 44
  backed : ∀ i < size, dm.getPointer (devAddr + i) ≠ none
  /-- There is a small page table only if the page sizes differ. -/
  table : isBigPages = false → pageBits < cfg.bigPageBits

/-- Ranges are whole pages of the size used, inside the address space. -/
structure Valid (history : List GpuOp) (op : GpuOp) : Prop where
  addr : op.step cfg ∣ op.gpuAddr
  size : op.step cfg ∣ op.size
  inside : op.gpuAddr + op.size ≤ 2 ^ cfg.addressSpaceBits
  map : ∀ g d n b, op = .map g d n b → MapValid cfg dm history g d n b

/-- A sparse mapping is not laid over a page that is mapped in the same table. -/
def SparseOk (m : MemoryManager) : GpuOp → Prop
  | .mapSparse g n true => ∀ x, g ≤ x → x < g + n → m.getBigEntry cfg x ≠ .mapped
  | .mapSparse g n false => ∀ x, g ≤ x → x < g + n → m.getEntry x ≠ .mapped
  | _ => True

end GpuOp

/-- The manager after the operations of `history`, each of which satisfied `P` when it was made. -/
inductive SpaceRun (P : MemoryManager → GpuOp → Prop) : List GpuOp → MemoryManager → Prop where
  | start : SpaceRun P [] MemoryManager.init
  | step {history m op} (h : SpaceRun P history m) (hv : op.Valid cfg dm history) (hp : P m op) :
      SpaceRun P (op :: history) (op.run cfg dm m)

/-- The manager's tables say what the address map says. -/
structure Refines (history : List GpuOp) (m : MemoryManager) : Prop where
  translate : ∀ x, m.gpuToCpuAddress cfg x = latest history x
  inside : ∀ x, latest history x ≠ none → x < 2 ^ cfg.addressSpaceBits
  backed : ∀ x d, latest history x = some d → dm.getPointer d ≠ none
  continuous : ∀ x, m.getBigEntry cfg x = .mapped →
    m.isBigPageContinuous (x / cfg.bigPageSize) = true →
    isContinuous cfg dm ((m.bigPageTableDev (x / cfg.bigPageSize)).toNat * pageSize) = true

variable {cfg dm} {history : List GpuOp} {m : MemoryManager}

theorem pageSize_dvd_bigPageSize (cfg : SpaceConfig) : pageSize ∣ cfg.bigPageSize :=
  Nat.pow_dvd_pow 2 cfg.pageBits_le

theorem gpuToCpuAddress_eq {x : Nat} (hx : x < 2 ^ cfg.addressSpaceBits) :
    m.gpuToCpuAddress cfg x =
      if m.getBigEntry cfg x = .mapped then
        some ((m.bigPageTableDev (x / cfg.bigPageSize)).toNat * pageSize + x % cfg.bigPageSize)
      else if m.getEntry x = .mapped then
        some ((m.pageTable (x / pageSize)).toNat * pageSize + x % pageSize)
      else none := by
  unfold MemoryManager.gpuToCpuAddress
  rw [if_neg (not_not.2 hx)]
  by_cases hb : m.getBigEntry cfg x = .mapped
  · rw [if_neg (not_not.2 hb), if_pos hb]
  · rw [if_pos hb, if_neg hb]
    by_cases hs : m.getEntry x = .mapped
    · rw [if_neg (not_not.2 hs), if_pos hs]
    · rw [if_pos hs, if_neg hs]

theorem gpuToCpuAddress_congr {m' : MemoryManager} {x : Nat}
    (hbig : m'.getBigEntry cfg x = .mapped ↔ m.getBigEntry cfg x = .mapped)
    (hsmall : m'.getEntry x = .mapped ↔ m.getEntry x = .mapped)
    (hbdev : m'.bigPageTableDev (x / cfg.bigPageSize) = m.bigPageTableDev (x / cfg.bigPageSize))
    (hdev : m'.pageTable (x / pageSize) = m.pageTable (x / pageSize)) :
    m'.gpuToCpuAddress cfg x = m.gpuToCpuAddress cfg x := by
  unfold MemoryManager.gpuToCpuAddress; simp only [Ne, hbig, hsmall, hbdev, hdev]

theorem Refines.mapBig (h : Refines cfg dm history m) {g d n : Nat} (hg : cfg.bigPageSize ∣ g)
    (hn : cfg.bigPageSize ∣ n) (hin : g + n ≤ 2 ^ cfg.addressSpaceBits)
    (hm : GpuOp.MapValid cfg dm history g d n true) :
    Refines cfg dm (.map g d n true :: history) (m.bigPageTableOp cfg dm .mapped g d n) := by
  have hpos := bigPageSize_pos cfg
  have hbig := getBigEntry_bigPageTableOp cfg dm .mapped m d hg hn
  have hdev := bigPageTableDev_mapped cfg dm m d hg hn
  have hcont := isBigPageContinuous_mapped cfg dm m d hg hn
  obtain ⟨hent, htab, -⟩ := bigPageTableOp_frame cfg dm .mapped m g d n
  refine ⟨fun x => ?_, fun x hx => ?_, fun x d' hx => ?_, fun x hx hc => ?_⟩
  · rw [latest]
    split
    · rename_i hr
      rw [gpuToCpuAddress_eq (by omega), hbig x, if_pos hr, if_pos rfl, hdev x, if_pos hr,
        devPage_address (pageSize_dvd_bigPageSize cfg) hpos hg hm.aligned hm.limit hr]
    · rename_i hr
      rw [← h.translate x]
      refine gpuToCpuAddress_congr ?_ ?_ ?_ ?_
      · rw [hbig x, if_neg hr]
      · unfold getEntry
        rw [hent]
      · rw [hdev x, if_neg hr]
      · rw [htab]
  · rw [latest] at hx
    split at hx
    · omega
    · exact h.inside x hx
  · rw [latest] at hx
    split at hx
    · rename_i hr
      obtain rfl := Option.some.inj hx
      exact hm.backed _ (by omega)
    · exact h.backed x d' hx
  · rw [hbig x] at hx
    rw [hcont x] at hc
    rw [hdev x]
    split at hx
    · rename_i hr
      rw [if_pos hr] at hc
      rw [if_pos hr]
      have haddr := devPage_address (pageSize_dvd_bigPageSize cfg) hpos hg hm.aligned hm.limit hr
      obtain ⟨p, rfl⟩ := hg
      have hle : p ≤ x / cfg.bigPageSize := (Nat.le_div_iff_mul_le hpos).2 (by
        rw [Nat.mul_comm]; exact hr.1)
      have hdiv := Nat.div_add_mod x cfg.bigPageSize
      have hmul : (x / cfg.bigPageSize - p) * cfg.bigPageSize =
          cfg.bigPageSize * (x / cfg.bigPageSize) - cfg.bigPageSize * p := by
        rw [Nat.sub_mul, Nat.mul_comm, Nat.mul_comm p]
      have hle' := Nat.mul_le_mul_left cfg.bigPageSize hle
      rw [Nat.mul_div_cancel_left p hpos] at haddr hc ⊢
      have hbase : (devPage (d + (x / cfg.bigPageSize - p) * cfg.bigPageSize)).toNat * pageSize =
          d + (x / cfg.bigPageSize - p) * cfg.bigPageSize := by omega
      rw [hbase]
      exact hc
    · rename_i hr
      rw [if_neg hr] at hc
      rw [if_neg hr]; exact h.continuous x hx hc

theorem Refines.mapSmall (h : Refines cfg dm history m) {g d n : Nat} (hg : pageSize ∣ g)
    (hn : pageSize ∣ n) (hin : g + n ≤ 2 ^ cfg.addressSpaceBits)
    (hm : GpuOp.MapValid cfg dm history g d n false) :
    Refines cfg dm (.map g d n false :: history) (m.pageTableOp .mapped g d n) := by
  have hent := getEntry_pageTableOp .mapped m d hg hn
  have htab := pageTable_mapped m d hg hn
  obtain ⟨hbent, hbdev, hbcont, -⟩ := pageTableOp_frame .mapped m g d n
  have hbig : ∀ x, (m.pageTableOp .mapped g d n).getBigEntry cfg x = m.getBigEntry cfg x := by
    intro x
    unfold getBigEntry
    rw [hbent]
  refine ⟨fun x => ?_, fun x hx => ?_, fun x d' hx => ?_, fun x hx hc => ?_⟩
  · rw [latest]
    split
    · rename_i hr
      have hnone := h.translate x
      rw [hm.vacant x hr.1 hr.2, gpuToCpuAddress_eq (by omega)] at hnone
      have hnb : m.getBigEntry cfg x ≠ .mapped := by
        intro hb
        rw [if_pos hb] at hnone; cases hnone
      rw [gpuToCpuAddress_eq (by omega), hbig x, if_neg hnb, hent x, if_pos hr, if_pos rfl, htab x,
        if_pos hr, devPage_address (Nat.dvd_refl _) pageSize_pos hg hm.aligned hm.limit hr]
    · rename_i hr
      rw [← h.translate x]
      refine gpuToCpuAddress_congr (by rw [hbig x]) ?_ ?_ ?_
      · rw [hent x, if_neg hr]
      · rw [hbdev]
      · rw [htab x, if_neg hr]
  · rw [latest] at hx
    split at hx
    · omega
    · exact h.inside x hx
  · rw [latest] at hx
    split at hx
    · rename_i hr
      obtain rfl := Option.some.inj hx
      exact hm.backed _ (by omega)
    · exact h.backed x d' hx
  · rw [hbig x] at hx
    unfold isBigPageContinuous at hc
    rw [hbcont] at hc
    rw [hbdev]; exact h.continuous x hx hc

theorem Refines.sparse (h : Refines cfg dm history m) {g n : Nat} {big : Bool}
    (hg : (GpuOp.mapSparse g n big).step cfg ∣ g) (hn : (GpuOp.mapSparse g n big).step cfg ∣ n)
    (hok : (GpuOp.mapSparse g n big).SparseOk cfg m) :
    Refines cfg dm (.mapSparse g n big :: history) (m.mapSparse cfg dm g n big) := by
  cases big with
  | true =>
    have hbig := getBigEntry_bigPageTableOp cfg dm .reserved m 0 hg hn
    obtain ⟨hent, htab, hrest⟩ := bigPageTableOp_frame cfg dm .reserved m g 0 n
    obtain ⟨hdev, hcont⟩ := hrest (by decide)
    have hiff : ∀ x, (m.bigPageTableOp cfg dm .reserved g 0 n).getBigEntry cfg x = .mapped ↔
        m.getBigEntry cfg x = .mapped := by
      intro x
      rw [hbig x]
      split
      · rename_i hr
        exact ⟨fun hm => (nomatch hm), fun hm => absurd hm (hok x hr.1 hr.2)⟩
      · exact Iff.rfl
    refine ⟨fun x => ?_, h.inside, h.backed, fun x hx hc => ?_⟩
    · show (m.bigPageTableOp cfg dm .reserved g 0 n).gpuToCpuAddress cfg x = latest history x
      rw [← h.translate x]
      refine gpuToCpuAddress_congr (hiff x) ?_ ?_ ?_
      · unfold getEntry
        rw [hent]
      · rw [hdev]
      · rw [htab]
    · have hx' := (hiff x).1 hx
      have hc' : m.isBigPageContinuous (x / cfg.bigPageSize) = true := by
        unfold isBigPageContinuous at hc ⊢
        rwa [show (m.mapSparse cfg dm g n true).bigPageContinuous = m.bigPageContinuous from hcont]
          at hc
      show isContinuous cfg dm
        (((m.bigPageTableOp cfg dm .reserved g 0 n).bigPageTableDev _).toNat * pageSize) = true
      rw [hdev]; exact h.continuous x hx' hc'
  | false =>
    have hent := getEntry_pageTableOp .reserved m 0 hg hn
    obtain ⟨hbent, hbdev, hbcont, hrest⟩ := pageTableOp_frame .reserved m g 0 n
    have htab := hrest (by decide)
    have hbig : ∀ x, (m.pageTableOp .reserved g 0 n).getBigEntry cfg x = m.getBigEntry cfg x := by
      intro x
      unfold getBigEntry
      rw [hbent]
    refine ⟨fun x => ?_, h.inside, h.backed, fun x hx hc => ?_⟩
    · show (m.pageTableOp .reserved g 0 n).gpuToCpuAddress cfg x = latest history x
      rw [← h.translate x]
      refine gpuToCpuAddress_congr (by rw [hbig x]) ?_ ?_ ?_
      · rw [hent x]
        split
        · rename_i hr
          exact ⟨fun hm => (nomatch hm), fun hm => absurd hm (hok x hr.1 hr.2)⟩
        · exact Iff.rfl
      · rw [hbdev]
      · rw [htab]
    · have hx' : m.getBigEntry cfg x = .mapped := (hbig x).symm.trans hx
      have hc' : m.isBigPageContinuous (x / cfg.bigPageSize) = true := by
        unfold isBigPageContinuous at hc ⊢
        rwa [show (m.mapSparse cfg dm g n false).bigPageContinuous = m.bigPageContinuous from hbcont]
          at hc
      show isContinuous cfg dm
        (((m.pageTableOp .reserved g 0 n).bigPageTableDev _).toNat * pageSize) = true
      rw [hbdev]; exact h.continuous x hx' hc'

theorem Refines.unmap (h : Refines cfg dm history m) {g n : Nat} (hg : cfg.bigPageSize ∣ g)
    (hn : cfg.bigPageSize ∣ n) : Refines cfg dm (.unmap g n :: history) (m.unmap cfg dm g n) := by
  have hdvd := pageSize_dvd_bigPageSize cfg
  unfold MemoryManager.unmap
  split
  · rename_i h0
    subst h0
    have hsame : ∀ x, latest (.unmap g 0 :: history) x = latest history x :=
      fun x => if_neg (by omega)
    exact ⟨fun x => by rw [hsame, h.translate], fun x hx => h.inside x (by rwa [hsame] at hx),
      fun x d hx => h.backed x d (by rwa [hsame] at hx), h.continuous⟩
  have hbig := getBigEntry_bigPageTableOp cfg dm .free m 0 hg hn
  obtain ⟨hent₁, htab₁, hrest₁⟩ := bigPageTableOp_frame cfg dm .free m g 0 n
  obtain ⟨hdev₁, hcont₁⟩ := hrest₁ (by decide)
  generalize hm₁ : m.bigPageTableOp cfg dm .free g 0 n = m₁ at hbig hent₁ htab₁ hdev₁ hcont₁ ⊢
  have hent := getEntry_pageTableOp .free m₁ 0 (hdvd.trans hg) (hdvd.trans hn)
  obtain ⟨hbent, hbdev, hbcont, hrest⟩ := pageTableOp_frame .free m₁ g 0 n
  have htab := hrest (by decide)
  have hbig' : ∀ x, (m₁.pageTableOp .free g 0 n).getBigEntry cfg x =
      if g ≤ x ∧ x < g + n then .free else m.getBigEntry cfg x := by
    intro x
    rw [← hbig x]
    unfold getBigEntry
    rw [hbent]
  have hent' : ∀ x, (m₁.pageTableOp .free g 0 n).getEntry x =
      if g ≤ x ∧ x < g + n then .free else m.getEntry x := by
    intro x
    rw [hent x]
    unfold getEntry
    rw [hent₁]
  refine ⟨fun x => ?_, fun x hx => ?_, fun x d hx => ?_, fun x hx hc => ?_⟩
  · rw [latest]
    split
    · rename_i hr
      unfold MemoryManager.gpuToCpuAddress
      rw [hbig' x, hent' x, if_pos hr, if_pos hr]
      split
      · rfl
      · rfl
    · rename_i hr
      rw [← h.translate x]
      refine gpuToCpuAddress_congr ?_ ?_ ?_ ?_
      · rw [hbig' x, if_neg hr]
      · rw [hent' x, if_neg hr]
      · rw [hbdev, hdev₁]
      · rw [htab, htab₁]
  · rw [latest] at hx
    split at hx
    · exact absurd rfl hx
    · exact h.inside x hx
  · rw [latest] at hx
    split at hx
    · cases hx
    · exact h.backed x d hx
  · rw [hbig' x] at hx
    split at hx
    · cases hx
    · unfold isBigPageContinuous at hc
      rw [hbcont, hcont₁] at hc
      rw [hbdev, hdev₁]; exact h.continuous x hx hc

theorem getBigEntry_init (x : Nat) : MemoryManager.init.getBigEntry cfg x = .free := by
  simp [getBigEntry, entryOf, MemoryManager.init, Lib.PackedFields.get, EntryType.ofBits]

theorem getEntry_init (x : Nat) : MemoryManager.init.getEntry x = .free := by
  simp [getEntry, entryOf, MemoryManager.init, Lib.PackedFields.get, EntryType.ofBits]

theorem refines_init : Refines cfg dm [] MemoryManager.init := by
  refine ⟨fun x => ?_, fun x hx => absurd rfl hx, fun x d hx => (nomatch hx), fun x hx => ?_⟩
  · unfold MemoryManager.gpuToCpuAddress
    rw [getBigEntry_init, getEntry_init]
    split
    · rfl
    · rfl
  · rw [getBigEntry_init] at hx; cases hx

theorem SpaceRun.refines (h : SpaceRun cfg dm (fun m op => op.SparseOk cfg m) history m) :
    Refines cfg dm history m := by
  induction h with
  | start => exact refines_init
  | @step history m op h hv hp ih =>
    cases op with
    | map g d n big =>
      have hm := hv.map g d n big rfl
      cases big with
      | true => exact ih.mapBig hv.addr hv.size hv.inside hm
      | false => exact ih.mapSmall hv.addr hv.size hv.inside hm
    | mapSparse g n big => exact ih.sparse hv.addr hv.size hp
    | unmap g n => exact ih.unmap hv.addr hv.size

end Runs

/-! ## Block accesses -/

section Blocks

/-- **A read, chunk by chunk**: if every chunk gives the bytes of its part of the range, so does the
    whole walk. -/
theorem gather_memoryOperation {S : Nat} (hS : 0 < S) (entryAt : Nat → EntryType)
    {f : Chunk → Option (List Byte)} {g : Nat → Byte} : ∀ (fuel idx off size : Nat), size ≤ fuel →
    off < S → (∀ i o n, 0 < n → o + n ≤ S → idx * S + off ≤ i * S + o →
      i * S + o + n ≤ idx * S + off + size →
      f ⟨entryAt (i * S + o), i, o, n⟩ = some ((List.range n).map fun k => g (i * S + o + k))) →
    gather f (memoryOperation S entryAt fuel idx off (idx * S + off) size) =
      some ((List.range size).map fun k => g (idx * S + off + k)) := by
  intro fuel
  induction fuel with
  | zero =>
    intro idx off size hfuel _ _
    obtain rfl : size = 0 := by omega
    rfl
  | succ fuel ih =>
    intro idx off size hfuel hoff hf
    unfold memoryOperation
    split
    · rename_i hsize
      have hfirst := hf idx off (min (S - off) size) (by omega) (by omega) (Nat.le_refl _) (by omega)
      dsimp only
      rw [gather, hfirst, Option.bind_some]
      rcases Nat.lt_or_ge (S - off) size with hlt | hge
      · -- the walk goes on with the next page
        have hmin : min (S - off) size = S - off := Nat.min_eq_left (Nat.le_of_lt hlt)
        have haddr : idx * S + off + (S - off) = (idx + 1) * S + 0 := by
          rw [Nat.add_mul]; omega
        rw [hmin, haddr, ih (idx + 1) 0 (size - (S - off)) (by omega) hS ?_]
        · have hrange : List.range size = List.range (S - off) ++
              (List.range (size - (S - off))).map fun k => S - off + k := by
            rw [← List.range_add]
            congr 1; omega
          rw [Option.map_some, hrange, List.map_append, List.map_map]
          congr 2
          refine List.map_congr_left fun k _ => ?_
          show g ((idx + 1) * S + 0 + k) = g (idx * S + off + (S - off + k))
          congr 1
          rw [Nat.add_mul]
          omega
        · intro i o n hn ho h1 h2; exact hf i o n hn ho (by omega) (by omega)
      · have hmin : min (S - off) size = size := Nat.min_eq_right hge
        rw [hmin, Nat.sub_self]
        have hnil : ∀ i o a, memoryOperation S entryAt fuel i o a 0 = [] := by
          intro i o a; cases fuel <;> rfl
        rw [hnil, gather, Option.map_some, List.append_nil]
    · obtain rfl : size = 0 := by omega
      rfl

theorem gather_from {S : Nat} (hS : 0 < S) (entryAt : Nat → EntryType)
    {f : Chunk → Option (List Byte)} {g : Nat → Byte} {a n : Nat}
    (hf : ∀ i o k, 0 < k → o + k ≤ S → a ≤ i * S + o → i * S + o + k ≤ a + n →
      f ⟨entryAt (i * S + o), i, o, k⟩ = some ((List.range k).map fun j => g (i * S + o + j))) :
    gather f (memoryOperation S entryAt n (a / S) (a % S) a n) =
      some ((List.range n).map fun k => g (a + k)) := by
  have hwalk := gather_memoryOperation hS entryAt (f := f) (g := g) n (a / S) (a % S) n
    (Nat.le_refl _) (Nat.mod_lt _ hS)
  rw [Nat.div_add_mod'] at hwalk
  exact hwalk hf

theorem writeThrough_append (history : List GpuOp) (x y : List Byte) : ∀ (dm : DeviceMemory)
    (a : Nat), writeThrough history dm a (x ++ y) =
      writeThrough history (writeThrough history dm a x) (a + x.length) y := by
  induction x with
  | nil => intro dm a; rfl
  | cons b x ih =>
    intro dm a
    rw [List.cons_append, writeThrough, writeThrough, ih, List.length_cons, Nat.add_assoc,
      Nat.add_comm 1]

theorem writeByte_physicalPtr (dm : DeviceMemory) (d : Nat) (b : Byte) :
    (dm.writeByte d b).physicalPtr = dm.physicalPtr := by
  unfold DeviceMemory.writeByte
  split <;> rfl

theorem writeThrough_physicalPtr (history : List GpuOp) (src : List Byte) : ∀ (dm : DeviceMemory)
    (a : Nat), (writeThrough history dm a src).physicalPtr = dm.physicalPtr := by
  induction src with
  | nil => intro dm a; rfl
  | cons b src ih =>
    intro dm a
    rw [writeThrough, ih]
    split
    · exact writeByte_physicalPtr dm _ b
    · rfl

/-- **A write, chunk by chunk.** -/
theorem scatter_memoryOperation {S : Nat} (hS : 0 < S) (entryAt : Nat → EntryType)
    {f : DeviceMemory → Chunk → List Byte → Option DeviceMemory} (history : List GpuOp)
    (pages : Nat → Nat) (limit : Nat) : ∀ (fuel idx off : Nat) (src : List Byte) (dm : DeviceMemory),
    src.length ≤ fuel → off < S → dm.physicalPtr = pages → idx * S + off + src.length ≤ limit →
    (∀ dm i o src, dm.physicalPtr = pages → 0 < src.length → o + src.length ≤ S →
      idx * S + off ≤ i * S + o → i * S + o + src.length ≤ limit →
      f dm ⟨entryAt (i * S + o), i, o, src.length⟩ src =
        some (writeThrough history dm (i * S + o) src)) →
    scatter f dm (memoryOperation S entryAt fuel idx off (idx * S + off) src.length) src =
      some (writeThrough history dm (idx * S + off) src) := by
  intro fuel
  induction fuel with
  | zero =>
    intro idx off src dm hfuel _ _ _ _
    obtain rfl : src = [] := List.length_eq_zero_iff.1 (by omega); rfl
  | succ fuel ih =>
    intro idx off src dm hfuel hoff hdm hlimit hf
    unfold memoryOperation
    split
    · rename_i hsize
      have hlen : (src.take (min (S - off) src.length)).length = min (S - off) src.length := by
        rw [List.length_take]; omega
      have hfirst := hf dm idx off (src.take (min (S - off) src.length)) hdm (by omega) (by omega)
        (Nat.le_refl _) (by omega)
      rw [hlen] at hfirst
      dsimp only
      rw [scatter, hfirst, Option.bind_some]
      have hsplit := writeThrough_append history (src.take (min (S - off) src.length))
        (src.drop (min (S - off) src.length)) dm (idx * S + off)
      rw [List.take_append_drop, hlen] at hsplit
      rcases Nat.lt_or_ge (S - off) src.length with hlt | hge
      · have hmin : min (S - off) src.length = S - off := Nat.min_eq_left (Nat.le_of_lt hlt)
        have haddr : idx * S + off + (S - off) = (idx + 1) * S + 0 := by
          rw [Nat.add_mul]; omega
        rw [hmin, haddr] at hsplit
        rw [hmin, haddr, hsplit]
        have hrest : (src.drop (S - off)).length = src.length - (S - off) := List.length_drop
        rw [← hrest]
        refine ih (idx + 1) 0 (src.drop (S - off)) _ (by omega) hS ?_ (by omega) ?_
        · rw [writeThrough_physicalPtr, hdm]
        · intro dm i o x hdm hx ho h1 h2; exact hf dm i o x hdm hx ho (by omega) (by omega)
      · have hmin : min (S - off) src.length = src.length := Nat.min_eq_right hge
        rw [hmin, List.drop_length] at hsplit
        rw [hmin, Nat.sub_self, List.take_length, hsplit, List.take_length, List.drop_length]
        have hnil : ∀ i o a, memoryOperation S entryAt fuel i o a 0 = [] := by
          intro i o a; cases fuel <;> rfl
        rw [hnil]; rfl
    · obtain rfl : src = [] := List.length_eq_zero_iff.1 (by omega); rfl

theorem scatter_from {S : Nat} (hS : 0 < S) (entryAt : Nat → EntryType)
    {f : DeviceMemory → Chunk → List Byte → Option DeviceMemory} {history : List GpuOp}
    {dm : DeviceMemory} {a : Nat} {src : List Byte}
    (hf : ∀ dm₁ i o x, dm₁.physicalPtr = dm.physicalPtr → 0 < x.length → o + x.length ≤ S →
      a ≤ i * S + o → i * S + o + x.length ≤ a + src.length →
      f dm₁ ⟨entryAt (i * S + o), i, o, x.length⟩ x =
        some (writeThrough history dm₁ (i * S + o) x)) :
    scatter f dm (memoryOperation S entryAt src.length (a / S) (a % S) a src.length) src =
      some (writeThrough history dm a src) := by
  have hwalk := scatter_memoryOperation hS entryAt (f := f) history dm.physicalPtr (a + src.length)
    src.length (a / S) (a % S) src dm (Nat.le_refl _) (Nat.mod_lt _ hS) rfl
  rw [Nat.div_add_mod'] at hwalk
  exact hwalk (Nat.le_refl _) hf

/-- Host pointers that follow each other along `n` bytes of device memory. -/
def PointerRun (dm : DeviceMemory) (d p n : Nat) : Prop :=
  ∀ k < n, dm.getPointer (d + k) = some (p + k)

variable {dm : DeviceMemory} {history : List GpuOp}

theorem getPointer_add {q o p k : Nat} (h : dm.getPointer (q * pageSize + o) = some p)
    (hk : o + k < pageSize) : dm.getPointer (q * pageSize + o + k) = some (p + k) := by
  have hdiv : ∀ r < pageSize, (q * pageSize + r) / pageSize = q ∧ (q * pageSize + r) % pageSize = r := by
    intro r hr
    rw [Nat.mul_comm]
    exact ⟨by rw [Nat.mul_add_div pageSize_pos, Nat.div_eq_of_lt hr, Nat.add_zero],
      by rw [Nat.mul_add_mod, Nat.mod_eq_of_lt hr]⟩
  unfold DeviceMemory.getPointer at h ⊢
  rw [(hdiv o (by omega)).1, (hdiv o (by omega)).2] at h
  rw [Nat.add_assoc, (hdiv (o + k) hk).1, (hdiv (o + k) hk).2]
  split at h
  · cases h
  · rename_i hne
    rw [if_neg hne, ← Option.some.inj h, Nat.add_assoc]

theorem pointerRun_continuous {cfg : SpaceConfig} {q o n : Nat}
    (h : isContinuous cfg dm (q * pageSize) = true) (hon : o + n ≤ cfg.bigPageSize) :
    ∃ p, PointerRun dm (q * pageSize + o) p n := by
  unfold isContinuous at h
  split at h
  · cases h
  · rename_i base hbase
    rw [List.all_eq_true] at h
    have hat : ∀ r, r < cfg.bigPageSize → dm.getPointer (q * pageSize + r) = some (base + r) := by
      intro r hr
      have hmem : r / pageSize ∈ List.range (cfg.bigPageSize / pageSize) := by
        rw [List.mem_range]; exact Nat.div_lt_div_of_lt_of_dvd (pageSize_dvd_bigPageSize cfg) hr
      have hpage := of_decide_eq_true (h _ hmem)
      have hrr : q * pageSize + r = (q + r / pageSize) * pageSize + 0 + r % pageSize := by
        rw [Nat.add_mul, Nat.add_zero, Nat.add_assoc, Nat.mul_comm (r / pageSize), Nat.div_add_mod]
      rw [← Nat.add_mul] at hpage
      rw [hrr, getPointer_add (by rw [Nat.add_zero]; exact hpage)
        (by rw [Nat.zero_add]; exact Nat.mod_lt _ pageSize_pos), Nat.add_assoc,
        Nat.mul_comm (r / pageSize), Nat.div_add_mod]
    refine ⟨base + o, fun k hk => ?_⟩
    rw [Nat.add_assoc, hat (o + k) (by omega), Nat.add_assoc]

theorem copyOut_run {d p n : Nat} (hrun : PointerRun dm d p n) (hn : 0 < n) :
    dm.copyOut (dm.getPointer d) n = some ((List.range n).map fun k => dm.readByte (d + k)) := by
  have h0 := hrun 0 hn
  rw [Nat.add_zero, Nat.add_zero] at h0
  rw [h0]
  refine congrArg some (List.map_congr_left fun k hk => ?_)
  unfold DeviceMemory.readByte
  rw [hrun k (List.mem_range.1 hk)]

/-- Two numberings that agree along a run agree at its start and along the rest. -/
theorem run_tail {α : Type} {f g : Nat → α} {x d n : Nat} (h : ∀ k < n + 1, f (x + k) = g (d + k)) :
    f x = g d ∧ ∀ k < n, f (x + 1 + k) = g (d + 1 + k) := by
  refine ⟨h 0 (Nat.succ_pos n), fun k hk => ?_⟩
  have hnext := h (k + 1) (Nat.succ_lt_succ hk)
  rwa [Nat.add_comm k 1, ← Nat.add_assoc, ← Nat.add_assoc] at hnext

theorem copyBytes_run : ∀ {src : List Byte} {dm : DeviceMemory} {x d p : Nat},
    PointerRun dm d p src.length → (∀ k < src.length, latest history (x + k) = some (d + k)) →
    { dm with bytes := DeviceMemory.copyBytes dm.bytes p src } = writeThrough history dm x src := by
  intro src
  induction src with
  | nil => intro dm x d p _ _; rfl
  | cons b src ih =>
    intro dm x d p hrun hmap
    obtain ⟨h0, hmap⟩ := run_tail hmap
    obtain ⟨hp0, hrun⟩ := run_tail hrun
    have hw : dm.writeByte d b = { dm with bytes := Function.update dm.bytes p b } := by
      unfold DeviceMemory.writeByte
      rw [hp0]
    rw [writeThrough, h0]
    dsimp only
    rw [hw]
    have hrun' : PointerRun { dm with bytes := Function.update dm.bytes p b } (d + 1) (p + 1)
      src.length := hrun
    exact ih hrun' hmap

theorem copyIn_run {src : List Byte} {x d p : Nat} (hrun : PointerRun dm d p src.length)
    (hn : 0 < src.length) (hmap : ∀ k < src.length, latest history (x + k) = some (d + k)) :
    dm.copyIn (dm.getPointer d) src = some (writeThrough history dm x src) := by
  have h0 := hrun 0 hn
  rw [Nat.add_zero, Nat.add_zero] at h0
  rw [h0, ← copyBytes_run hrun hmap]
  rfl

theorem writeBlockUnsafe_run : ∀ {src : List Byte} {dm : DeviceMemory}
    {x d : Nat}, (∀ k < src.length, latest history (x + k) = some (d + k)) →
    dm.writeBlockUnsafe d src = writeThrough history dm x src := by
  intro src
  induction src with
  | nil => intro dm x d _; rfl
  | cons b src ih =>
    intro dm x d hmap
    obtain ⟨h0, hmap⟩ := run_tail hmap
    rw [DeviceMemory.writeBlockUnsafe, writeThrough, h0]; exact ih hmap

theorem writeThrough_unmapped : ∀ {src : List Byte} {dm : DeviceMemory}
    {x : Nat}, (∀ k < src.length, latest history (x + k) = none) →
    writeThrough history dm x src = dm := by
  intro src
  induction src with
  | nil => intro dm x _; rfl
  | cons b src ih =>
    intro dm x hmap
    obtain ⟨h0, hmap⟩ := run_tail (g := fun _ => none) (d := 0) hmap
    rw [writeThrough, h0]; exact ih hmap

/-! ### One chunk -/

section Chunks

variable {cfg : SpaceConfig} {dm : DeviceMemory} {history : List GpuOp} {m : MemoryManager}

variable {i o : Nat}

theorem chunk_page {S k : Nat} (hk : o + k < S) :
    (i * S + o + k) / S = i ∧ (i * S + o + k) % S = o + k := by
  have hS : 0 < S := by omega
  rw [Nat.add_assoc, Nat.mul_comm]
  exact ⟨by rw [Nat.mul_add_div hS, Nat.div_eq_of_lt hk, Nat.add_zero],
    by rw [Nat.mul_add_mod, Nat.mod_eq_of_lt hk]⟩

theorem getBigEntry_chunk {k : Nat} (hk : o + k < cfg.bigPageSize) :
    m.getBigEntry cfg (i * cfg.bigPageSize + o + k) = m.getBigEntry cfg (i * cfg.bigPageSize + o) := by
  unfold getBigEntry
  rw [(chunk_page hk).1, ← Nat.add_zero (i * cfg.bigPageSize + o), (chunk_page (by omega)).1]

theorem getEntry_chunk {k : Nat} (hk : o + k < pageSize) :
    m.getEntry (i * pageSize + o + k) = m.getEntry (i * pageSize + o) := by
  unfold getEntry
  rw [(chunk_page hk).1, ← Nat.add_zero (i * pageSize + o), (chunk_page (by omega)).1]

theorem Refines.latest_big (h : Refines cfg dm history m) {n : Nat}
    (hin : i * cfg.bigPageSize + o + n ≤ 2 ^ cfg.addressSpaceBits) (hon : o + n ≤ cfg.bigPageSize)
    (he : m.getBigEntry cfg (i * cfg.bigPageSize + o) = .mapped) {k : Nat} (hk : k < n) :
    latest history (i * cfg.bigPageSize + o + k) =
      some ((m.bigPageTableDev i).toNat * pageSize + o + k) := by
  rw [← h.translate, gpuToCpuAddress_eq (by omega), getBigEntry_chunk (by omega), if_pos he,
    (chunk_page (by omega)).1, (chunk_page (by omega)).2, Nat.add_assoc]

theorem Refines.latest_small (h : Refines cfg dm history m) {n : Nat}
    (hin : i * pageSize + o + n ≤ 2 ^ cfg.addressSpaceBits) (hon : o + n ≤ pageSize)
    (hb : ∀ k < n, m.getBigEntry cfg (i * pageSize + o + k) ≠ .mapped)
    (he : m.getEntry (i * pageSize + o) = .mapped) {k : Nat} (hk : k < n) :
    latest history (i * pageSize + o + k) = some ((m.pageTable i).toNat * pageSize + o + k) := by
  rw [← h.translate, gpuToCpuAddress_eq (by omega), if_neg (hb k hk), getEntry_chunk (by omega),
    if_pos he, (chunk_page (by omega)).1, (chunk_page (by omega)).2, Nat.add_assoc]

theorem Refines.latest_none (h : Refines cfg dm history m) {x : Nat}
    (hb : m.getBigEntry cfg x ≠ .mapped) (hs : m.getEntry x ≠ .mapped) : latest history x = none := by
  rw [← h.translate]
  unfold MemoryManager.gpuToCpuAddress
  rw [if_pos hb, if_pos hs]
  split <;> rfl

theorem Refines.pointers_small (h : Refines cfg dm history m) {n : Nat} (hn : 0 < n)
    (hon : o + n ≤ pageSize) {q : Nat}
    (hmap : ∀ k < n, latest history (i * pageSize + o + k) = some (q * pageSize + o + k)) :
    ∃ p, PointerRun dm (q * pageSize + o) p n := by
  have h0 := h.backed _ _ (hmap 0 hn)
  rw [Nat.add_zero] at h0
  obtain ⟨p, hp⟩ := Option.ne_none_iff_exists'.1 h0
  exact ⟨p, fun k hk => getPointer_add hp (by omega)⟩

theorem Refines.pointers_big (h : Refines cfg dm history m) {n : Nat}
    (he : m.getBigEntry cfg (i * cfg.bigPageSize + o) = .mapped) (hn : 0 < n)
    (hon : o + n ≤ cfg.bigPageSize) (hc : m.isBigPageContinuous i) :
    ∃ p, PointerRun dm ((m.bigPageTableDev i).toNat * pageSize + o) p n := by
  have hcont := h.continuous (i * cfg.bigPageSize + o) he
  rw [← Nat.add_zero (i * cfg.bigPageSize + o), (chunk_page (by omega)).1] at hcont
  exact pointerRun_continuous (hcont hc) hon

theorem Refines.none_small (h : Refines cfg dm history m) {n : Nat} (hon : o + n ≤ pageSize)
    (hb : ∀ k < n, m.getBigEntry cfg (i * pageSize + o + k) ≠ .mapped)
    (he : m.getEntry (i * pageSize + o) ≠ .mapped) :
    ∀ k < n, latest history (i * pageSize + o + k) = none := by
  intro k hk
  refine h.latest_none (hb k hk) ?_
  rwa [getEntry_chunk (by omega)]

theorem Refines.none_reserved (h : Refines cfg dm history m) {n : Nat} (hon : o + n ≤ cfg.bigPageSize)
    (he : m.getBigEntry cfg (i * cfg.bigPageSize + o) = .reserved)
    (hs : ∀ k < n, m.getBigEntry cfg (i * cfg.bigPageSize + o + k) = .reserved →
      m.getEntry (i * cfg.bigPageSize + o + k) ≠ .mapped) :
    ∀ k < n, latest history (i * cfg.bigPageSize + o + k) = none := by
  intro k hk
  have heq : m.getBigEntry cfg (i * cfg.bigPageSize + o + k) = .reserved := by
    rw [getBigEntry_chunk (by omega), he]
  exact h.latest_none (by rw [heq]; decide) (hs k hk heq)

theorem not_mapped_of_free {n : Nat} (hon : o + n ≤ cfg.bigPageSize)
    (he : m.getBigEntry cfg (i * cfg.bigPageSize + o) = .free) (x : Nat)
    (hlow : i * cfg.bigPageSize + o ≤ x) (hhigh : x < i * cfg.bigPageSize + o + n) :
    m.getBigEntry cfg x ≠ .mapped := by
  obtain ⟨k, rfl⟩ := Nat.exists_eq_add_of_le hlow
  rw [getBigEntry_chunk (by omega), he]
  decide

theorem setToZero_eq {e : EntryType} {n x : Nat} (hmap : ∀ k < n, latest history (x + k) = none) :
    setToZero ⟨e, i, o, n⟩ = some ((List.range n).map fun k => byteAt dm history (x + k)) := by
  refine congrArg some (List.ext_getElem (by simp) fun k h1 h2 => ?_)
  have hk : k < n := by simpa using h2
  simp only [List.getElem_replicate, List.getElem_map, List.getElem_range]
  unfold byteAt
  rw [hmap k hk]

theorem readByte_eq_byteAt {x d : Nat} (h : latest history x = some d) :
    dm.readByte d = byteAt dm history x := by
  unfold byteAt
  rw [h]

/-- **The small pages of a range** in which no big page is mapped. -/
theorem Refines.readSmall (h : Refines cfg dm history m) {a n : Nat}
    (hin : a + n ≤ 2 ^ cfg.addressSpaceBits)
    (hb : ∀ x, a ≤ x → x < a + n → m.getBigEntry cfg x ≠ .mapped) :
    gather (fun c => match c.entry with
      | .mapped => m.readNormal dm c
      | .reserved | .free => setToZero c) (m.smallChunks a n) =
      some ((List.range n).map fun k => byteAt dm history (a + k)) := by
  refine gather_from pageSize_pos m.getEntry fun i o k hk hok h1 h2 => ?_
  have hbig : ∀ j < k, m.getBigEntry cfg (i * pageSize + o + j) ≠ .mapped := fun j hj =>
    hb _ (by omega) (by omega)
  dsimp only
  cases he : m.getEntry (i * pageSize + o) with
  | mapped =>
    have hmap : ∀ j < k, latest history (i * pageSize + o + j) =
        some ((m.pageTable i).toNat * pageSize + o + j) := fun j hj =>
      h.latest_small (by omega) hok hbig he hj
    obtain ⟨p, hp⟩ := h.pointers_small hk hok hmap
    show dm.copyOut (dm.getPointer ((m.pageTable i).toNat * pageSize + o)) k = _
    rw [copyOut_run hp hk]
    exact congrArg some (List.map_congr_left fun j hj =>
      readByte_eq_byteAt (hmap j (List.mem_range.1 hj)))
  | reserved => exact setToZero_eq (h.none_small hok hbig (by rw [he]; decide))
  | free => exact setToZero_eq (h.none_small hok hbig (by rw [he]; decide))

/-- No small page that is mapped lies in a big page that is only reserved. -/
def BlockRangeOk (cfg : SpaceConfig) (m : MemoryManager) (a n : Nat) : Prop :=
  ∀ x, a ≤ x → x < a + n → m.getBigEntry cfg x = .reserved → m.getEntry x ≠ .mapped

/-- **`ReadBlockUnsafe`** reads through the address map. -/
theorem Refines.readBlock (h : Refines cfg dm history m) {a n : Nat}
    (hin : a + n ≤ 2 ^ cfg.addressSpaceBits) (hok : BlockRangeOk cfg m a n) :
    m.readBlockUnsafe cfg dm a n = some ((List.range n).map fun k => byteAt dm history (a + k)) := by
  refine gather_from (bigPageSize_pos cfg) (m.getBigEntry cfg) fun i o k hk hon h1 h2 => ?_
  dsimp only
  cases he : m.getBigEntry cfg (i * cfg.bigPageSize + o) with
  | mapped =>
    have hmap : ∀ j < k, latest history (i * cfg.bigPageSize + o + j) =
        some ((m.bigPageTableDev i).toNat * pageSize + o + j) := fun j hj =>
      h.latest_big (by omega) hon he hj
    have hbytes : (List.range k).map (fun j =>
        dm.readByte ((m.bigPageTableDev i).toNat * pageSize + o + j)) =
        (List.range k).map fun j => byteAt dm history (i * cfg.bigPageSize + o + j) :=
      List.map_congr_left fun j hj => readByte_eq_byteAt (hmap j (List.mem_range.1 hj))
    rw [← hbytes]
    show (if m.isBigPageContinuous i then _ else _) = _
    split
    · rename_i hc
      obtain ⟨p, hp⟩ := h.pointers_big he hk hon hc
      exact copyOut_run hp hk
    · rfl
  | reserved => exact setToZero_eq (h.none_reserved hon he fun j hj => hok _ (by omega) (by omega))
  | free =>
    exact h.readSmall (show i * cfg.bigPageSize + o + k ≤ 2 ^ cfg.addressSpaceBits by omega)
      (not_mapped_of_free hon he)

theorem Refines.ofPages (h : Refines cfg dm history m) {dm' : DeviceMemory}
    (hdm : dm'.physicalPtr = dm.physicalPtr) : Refines cfg dm' history m := by
  have hptr : ∀ d, dm'.getPointer d = dm.getPointer d := by
    intro d
    unfold DeviceMemory.getPointer
    rw [hdm]
  refine ⟨h.translate, h.inside, fun x d hx => ?_, fun x hx hc => ?_⟩
  · rw [hptr]
    exact h.backed x d hx
  · have hcont := h.continuous x hx hc
    unfold isContinuous at hcont ⊢
    simp only [hptr]; exact hcont

theorem Refines.writeSmall (h : Refines cfg dm history m) {a : Nat} {src : List Byte}
    (hin : a + src.length ≤ 2 ^ cfg.addressSpaceBits)
    (hb : ∀ x, a ≤ x → x < a + src.length → m.getBigEntry cfg x ≠ .mapped) :
    scatter (fun dm c src => match c.entry with
      | .mapped => m.writeNormal dm c src
      | .reserved | .free => some dm) dm (m.smallChunks a src.length) src =
      some (writeThrough history dm a src) := by
  refine scatter_from pageSize_pos m.getEntry fun dm₁ i o x hdm₁ hx hox h1 h2 => ?_
  have hbig : ∀ j < x.length, m.getBigEntry cfg (i * pageSize + o + j) ≠ .mapped := fun j hj =>
    hb _ (by omega) (by omega)
  dsimp only
  cases he : m.getEntry (i * pageSize + o) with
  | mapped =>
    have hmap : ∀ j < x.length, latest history (i * pageSize + o + j) =
        some ((m.pageTable i).toNat * pageSize + o + j) := fun j hj =>
      h.latest_small (by omega) hox hbig he hj
    obtain ⟨p, hp⟩ := (h.ofPages hdm₁).pointers_small hx hox hmap
    exact copyIn_run hp hx hmap
  | reserved =>
    rw [writeThrough_unmapped (h.none_small hox hbig (by rw [he]; decide))]
  | free =>
    rw [writeThrough_unmapped (h.none_small hox hbig (by rw [he]; decide))]

/-- **`WriteBlockUnsafe`** writes through the address map. -/
theorem Refines.writeBlock (h : Refines cfg dm history m) {a : Nat} {src : List Byte}
    (hin : a + src.length ≤ 2 ^ cfg.addressSpaceBits) (hok : BlockRangeOk cfg m a src.length) :
    m.writeBlockUnsafe cfg dm a src = some (writeThrough history dm a src) := by
  refine scatter_from (bigPageSize_pos cfg) (m.getBigEntry cfg) fun dm₁ i o x hdm₁ hx hox h1 h2 => ?_
  have h₁ := h.ofPages hdm₁
  dsimp only
  cases he : m.getBigEntry cfg (i * cfg.bigPageSize + o) with
  | mapped =>
    have hmap : ∀ j < x.length, latest history (i * cfg.bigPageSize + o + j) =
        some ((m.bigPageTableDev i).toNat * pageSize + o + j) := fun j hj =>
      h.latest_big (by omega) hox he hj
    show (if m.isBigPageContinuous i then _ else _) = _
    split
    · rename_i hc
      obtain ⟨p, hp⟩ := h₁.pointers_big he hx hox hc
      exact copyIn_run hp hx hmap
    · exact congrArg some (writeBlockUnsafe_run hmap)
  | reserved =>
    rw [writeThrough_unmapped (h.none_reserved hox he fun j hj => hok _ (by omega) (by omega))]
  | free =>
    exact h₁.writeSmall
      (show i * cfg.bigPageSize + o + x.length ≤ 2 ^ cfg.addressSpaceBits by omega)
      (not_mapped_of_free hox he)

end Chunks

end Blocks

/-! ## One address map -/

section OneMap

variable {cfg : SpaceConfig} {dm : DeviceMemory} {history : List GpuOp} {m : MemoryManager}

/-- **The GPU memory manager is one address map**, in every run that lays no sparse mapping over
    pages mapped in the same table: the scalar path is the map for every address, and the block
    paths are on every range without a mapped small page in a reserved big page. -/
theorem one_address_map (h : SpaceRun cfg dm (fun m op => op.SparseOk cfg m) history m) :
    (∀ x, m.gpuToCpuAddress cfg x = latest history x) ∧
    ∀ dm' : DeviceMemory, dm'.physicalPtr = dm.physicalPtr →
      (∀ a n, a + n ≤ 2 ^ cfg.addressSpaceBits → BlockRangeOk cfg m a n →
        m.readBlockUnsafe cfg dm' a n =
          some ((List.range n).map fun k => byteAt dm' history (a + k))) ∧
      ∀ a src, a + src.length ≤ 2 ^ cfg.addressSpaceBits → BlockRangeOk cfg m a src.length →
        m.writeBlockUnsafe cfg dm' a src = some (writeThrough history dm' a src) := by
  refine ⟨h.refines.translate, fun dm' hdm => ?_⟩
  have h' := h.refines.ofPages hdm
  exact ⟨fun a n hin hok => h'.readBlock hin hok, fun a src hin hok => h'.writeBlock hin hok⟩

/-- Big pages of 64 KiB in a 40-bit space. -/
def space40 : SpaceConfig := ⟨40, 16, by decide⟩

/-- A device whose pages lie in the host one after the other, holding sevens. -/
def flatDevice : DeviceMemory := ⟨fun page => page + 1, fun _ => 7⟩

theorem flatDevice_backed (d : Nat) : flatDevice.getPointer d ≠ none := by
  unfold DeviceMemory.getPointer flatDevice
  rw [if_neg (Nat.succ_ne_zero _)]
  exact Option.some_ne_none _

/-- A sparse big page, a mapped one in front of it and a mapped small page behind it, latest first. -/
def mixedHistory : List GpuOp :=
  [.map 0x30000 0x50000 0x1000 false, .map 0x10000 0x30000 0x10000 true, .mapSparse 0x20000 0x10000 true]

def mixedManager : MemoryManager :=
  mixedHistory.foldr (fun op m => op.run space40 flatDevice m) .init

theorem spaceRun_mixed :
    SpaceRun space40 flatDevice (fun m op => op.SparseOk space40 m) mixedHistory mixedManager := by
  have hsparse : (GpuOp.mapSparse 0x20000 0x10000 true).Valid space40 flatDevice [] :=
    ⟨by decide, by decide, by decide, fun _ _ _ _ hop => by cases hop⟩
  have hbig : (GpuOp.map 0x10000 0x30000 0x10000 true).Valid space40 flatDevice
      [.mapSparse 0x20000 0x10000 true] := by
    refine ⟨by decide, by decide, by decide, ?_⟩
    rintro _ _ _ _ ⟨⟩
    exact ⟨fun _ _ _ => rfl, by decide, by decide, fun i _ => flatDevice_backed _, fun h => by cases h⟩
  have hsmall : (GpuOp.map 0x30000 0x50000 0x1000 false).Valid space40 flatDevice
      [.map 0x10000 0x30000 0x10000 true, .mapSparse 0x20000 0x10000 true] := by
    refine ⟨by decide, by decide, by decide, ?_⟩
    rintro _ _ _ _ ⟨⟩
    exact ⟨fun x hx _ => if_neg (by omega), by decide, by decide, fun i _ => flatDevice_backed _,
      fun _ => by decide⟩
  have hok : (GpuOp.mapSparse 0x20000 0x10000 true).SparseOk space40 MemoryManager.init := by
    intro x _ _
    rw [getBigEntry_init]; decide
  exact .step (.step (.step .start hsparse hok) hbig trivial) hsmall trivial

/-- The small page is translated, and accesses over the end of the mapped big page take two bytes of it
    and skip the sparse ones. -/
theorem one_address_map_mixed :
    mixedManager.gpuToCpuAddress space40 0x30004 = some 0x50004 ∧
    mixedManager.readBlockUnsafe space40 flatDevice 0x1FFFE 4 = some [7, 7, 0, 0] ∧
    mixedManager.writeBlockUnsafe space40 flatDevice 0x1FFFE [1, 2, 3, 4] =
      some ((flatDevice.writeByte 0x3FFFE 1).writeByte 0x3FFFF 2) := by
  obtain ⟨htranslate, hblocks⟩ := one_address_map spaceRun_mixed
  obtain ⟨hread, hwrite⟩ := hblocks flatDevice rfl
  have hok : BlockRangeOk space40 mixedManager 0x1FFFE 4 := by
    intro x hlow hhigh
    interval_cases x <;> decide +kernel
  exact ⟨htranslate 0x30004, hread 0x1FFFE 4 (by decide) hok,
    hwrite 0x1FFFE [1, 2, 3, 4] (by decide) hok⟩

/-- A small page mapped inside a sparse reservation of big pages: a block read gives zero. -/
theorem not_one_address_map : ¬ ∀ (history : List GpuOp) (m : MemoryManager),
    SpaceRun space40 flatDevice (fun _ _ => True) history m →
    ∀ a n, a + n ≤ 2 ^ space40.addressSpaceBits → m.readBlockUnsafe space40 flatDevice a n =
      some ((List.range n).map fun k => byteAt flatDevice history (a + k)) := by
  intro h
  have hsparse : (GpuOp.mapSparse 0x10000 0x10000 true).Valid space40 flatDevice [] :=
    ⟨by decide, by decide, by decide, fun _ _ _ _ hop => by cases hop⟩
  have hmap : (GpuOp.map 0x10000 0x30000 0x1000 false).Valid space40 flatDevice
      [.mapSparse 0x10000 0x10000 true] := by
    refine ⟨by decide, by decide, by decide, ?_⟩
    rintro _ _ _ _ ⟨⟩
    exact ⟨fun _ _ _ => rfl, by decide, by decide, fun i _ => flatDevice_backed _, fun _ => by decide⟩
  have hrun : SpaceRun space40 flatDevice (fun _ _ => True) _ _ :=
    .step (.step .start hsparse trivial) hmap trivial
  have hread := h _ _ hrun 0x10000 1 (by decide)
  exact absurd hread (by decide +kernel)

end OneMap

end Suyu.VideoCore
