/-
  FlatAllocator — an address allocator on top of FlatAddressSpaceMap, whose blocks are mapped (`true`)
  or not (`false`).

  1. **Program** — `allocate`: a linear pass that hands out `current_linear_alloc_end`, a loop that
     is meant to skip fixed mappings in front of it, and a search for a gap between two blocks.
     `allocateFixed` and `free` are the map's own operations.  `VaType` has `vaBits` bits; the
     assertions only log.  `none` is an iterator that left the vector, or a range that wraps around.
  2. **Spec** — the live allocations: an allocation is disjoint from all of them and inside
     `[virt_start, va_limit]`, and zero means that no gap is left.
  3. **The crux** — the map refines "is some live allocation here?", so every branch of `allocate`
     can be read off the block its range starts in.  Three branches go WRONG: the linear pass never
     asks whether the block under the cursor is mapped, the skipping loop only ever stops at a block
     that does NOT fit, and the search leaves out the first and the last gap.
-/
import Mathlib
import Suyu.Common.AddressSpaceRefine

namespace Suyu.Common

open Lib.StepMap

/-! ## The program -/

/-- `PaType` is `bool`; offsets are added to it under `PaContigSplit` only, which is off here. -/
instance addActionBool : AddAction ℕ Bool where
  vadd _ phys := phys
  zero_vadd _ := rfl
  add_vadd _ _ _ := rfl

/-- `FlatAddressSpaceMap<VaType, UnmappedVa, bool, false, false, AddressSpaceBits>`. -/
def allocatorConfig : MapConfig Bool := ⟨false, false⟩

abbrev AllocBlock := Block Bool Unit

structure FlatAllocator where
  virtStart : Nat
  vaLimit : Nat
  currentLinearAllocEnd : Nat
  blocks : List AllocBlock
deriving DecidableEq, Repr

namespace FlatAllocator

/-- The constructor. -/
def init (virtStart vaLimit : Nat) : FlatAllocator :=
  ⟨virtStart, vaLimit, virtStart, initialBlocks allocatorConfig⟩

/-- "Skip over fixed any mappings in front of us": the loop, with `alloc_end_predecessor` and the
    blocks from `alloc_end_successor` on. -/
def skipFixed (vaBits vaLimit size : Nat) : AllocBlock → List AllocBlock → Nat
  | _, [] => UnmappedVa
  | pred, succ :: rest =>
    if succ.virt - pred.virt < size ∨ pred.mapped allocatorConfig then pred.virt
    else if rest.isEmpty then
      -- the final block has no successor: the VA limit bounds it
      let allocEnd := (succ.virt + size) % 2 ^ vaBits
      if succ.virt ≤ allocEnd ∧ allocEnd ≤ vaLimit then succ.virt else UnmappedVa
    else skipFixed vaBits vaLimit size succ rest

/-- The linear pass: `alloc_start`, or `UnmappedVa` if it finds nothing. -/
def linearStart (vaBits : Nat) (a : FlatAllocator) (size : Nat) : Option Nat :=
  let allocEnd := (a.currentLinearAllocEnd + size) % 2 ^ vaBits
  if a.currentLinearAllocEnd ≤ allocEnd ∧ allocEnd ≤ a.vaLimit then
    let (front, back) := lowerBound a.blocks allocEnd
    match front.getLast? with
    | none => none
    | some pred =>
      if pred.virt ≤ a.currentLinearAllocEnd then some a.currentLinearAllocEnd
      else some (skipFixed vaBits a.vaLimit size pred back)
  else some UnmappedVa

/-- The slow search's loop: the first block behind which there is enough room. -/
def searchGap (size : Nat) : AllocBlock → List AllocBlock → Option Nat
  | _, [] => none
  | pred, succ :: rest =>
    if succ.virt - pred.virt < size ∨ pred.mapped allocatorConfig then searchGap size succ rest
    else some pred.virt

/-- `MapLocked(alloc_start, true, size, {})`. -/
def mapRange (vaBits : Nat) (a : FlatAllocator) (allocStart size : Nat) :
    Option (Nat × FlatAllocator) :=
  if allocStart + size < 2 ^ vaBits then
    (mapLocked allocatorConfig a.blocks allocStart true size ()).map fun blocks =>
      (allocStart, { a with blocks := blocks })
  else none

def allocate (vaBits : Nat) (a : FlatAllocator) (size : Nat) : Option (Nat × FlatAllocator) :=
  match linearStart vaBits a size with
  | none => none
  | some allocStart =>
    if allocStart ≠ UnmappedVa then
      mapRange vaBits { a with currentLinearAllocEnd := (allocStart + size) % 2 ^ vaBits }
        allocStart size
    else
      match a.blocks with
      | _ :: pred :: rest =>
        match searchGap size pred rest with
        | some allocStart => mapRange vaBits a allocStart size
        | none => some (0, a)
      | _ => none

def allocateFixed (a : FlatAllocator) (virt size : Nat) : Option FlatAllocator :=
  (mapLocked allocatorConfig a.blocks virt true size ()).map fun blocks =>
    { a with blocks := blocks }

def free (a : FlatAllocator) (virt size : Nat) : Option FlatAllocator :=
  (unmapLocked allocatorConfig a.blocks virt size).map fun blocks => { a with blocks := blocks }

end FlatAllocator

/-! ## Live allocations -/

/-- An allocation: its address and its size. -/
abbrev Allocation := Nat × Nat

def Allocation.covers (q : Allocation) (x : Nat) : Prop := q.1 ≤ x ∧ x < q.1 + q.2

def Occupied (live : List Allocation) (x : Nat) : Prop := ∃ q ∈ live, Allocation.covers q x

theorem occupied_cons (q : Allocation) (live : List Allocation) (x : Nat) :
    Occupied (q :: live) x ↔ Allocation.covers q x ∨ Occupied live x := by
  unfold Occupied; simp [exists_eq_or_imp]

theorem occupied_perm {live live' : List Allocation} (h : live.Perm live') (x : Nat) :
    Occupied live x ↔ Occupied live' x := by
  unfold Occupied; simp [h.mem_iff]

/-- The range is disjoint from every live allocation. -/
def Vacant (live : List Allocation) (virt size : Nat) : Prop :=
  ∀ x, virt ≤ x → x < virt + size → ¬ Occupied live x

inductive AllocOp where
  | allocate (size : Nat)
  | allocateFixed (virt size : Nat)
  | free (virt size : Nat)
deriving DecidableEq, Repr

/-- The allocator and the live allocations after a run whose calls each satisfied `P` when they
    were made: sizes of `Allocate` are positive, `AllocateFixed` is given a free range, and `Free`
    exactly a live allocation. -/
inductive AllocRun (vaBits virtStart vaLimit : Nat) (P : FlatAllocator → AllocOp → Prop) :
    FlatAllocator → List Allocation → Prop where
  | start : AllocRun vaBits virtStart vaLimit P (.init virtStart vaLimit) []
  | allocate {a a' live size r} (h : AllocRun vaBits virtStart vaLimit P a live)
      (hs : 0 < size) (hw : size < 2 ^ vaBits) (hp : P a (.allocate size))
      (hr : a.allocate vaBits size = some (r, a')) :
      AllocRun vaBits virtStart vaLimit P a' (if r = 0 then live else (r, size) :: live)
  | allocateFixed {a a' live virt size} (h : AllocRun vaBits virtStart vaLimit P a live)
      (hv : virtStart ≤ virt) (hl : virt + size ≤ vaLimit) (hf : Vacant live virt size)
      (hp : P a (.allocateFixed virt size)) (hr : a.allocateFixed virt size = some a') :
      AllocRun vaBits virtStart vaLimit P a' ((virt, size) :: live)
  | free {a a' live virt size} (h : AllocRun vaBits virtStart vaLimit P a live)
      (hq : (virt, size) ∈ live) (hp : P a (.free virt size)) (hr : a.free virt size = some a') :
      AllocRun vaBits virtStart vaLimit P a' (live.erase (virt, size))

/-- `Allocate(size)` returns, a non-zero result is a vacant range inside the allocator's bounds,
    and zero means that there is no such range. -/
def AllocatesFresh (vaBits : Nat) (a : FlatAllocator) (live : List Allocation) (size : Nat) : Prop :=
  ∃ r a', a.allocate vaBits size = some (r, a') ∧
    (r ≠ 0 → a.virtStart ≤ r ∧ r + size ≤ a.vaLimit ∧ Vacant live r size) ∧
    (r = 0 → ¬ ∃ virt, a.virtStart ≤ virt ∧ virt + size ≤ a.vaLimit ∧ Vacant live virt size)

/-! ## Where the code is right -/

namespace FlatAllocator

/-- The search looks at every block but the first and the last one. -/
def RoomInside (a : FlatAllocator) (size : Nat) : Prop :=
  ∃ p ∈ a.blocks.tail.zip a.blocks.tail.tail,
    p.1.unmapped allocatorConfig = true ∧ size ≤ p.2.virt - p.1.virt

/-- The two gaps it leaves out, in front of the second block and in the last one, are too small. -/
def EdgesFull (a : FlatAllocator) (size : Nat) : Prop :=
  (∀ b ∈ a.blocks.tail.head?, b.virt < a.virtStart + size) ∧
    ∀ b ∈ a.blocks.getLast?, a.vaLimit < b.virt + size

/-- The search is right: there are blocks to look at, and it finds room or there is none. -/
def SearchOk (a : FlatAllocator) (size : Nat) : Prop :=
  2 ≤ a.blocks.length ∧ (a.RoomInside size ∨ a.EdgesFull size)

/-- `Allocate(size)` stays off the branches that go wrong.  When the linear pass has room below
    `va_limit`, the block in front of its end is unmapped and reaches back to the cursor, or is the
    last block; otherwise the search has to be right. -/
def AllocateOk (a : FlatAllocator) (size : Nat) : Prop :=
  if a.currentLinearAllocEnd + size ≤ a.vaLimit then
    ∃ pred ∈ (lowerBound a.blocks (a.currentLinearAllocEnd + size)).1.getLast?,
      if pred.virt ≤ a.currentLinearAllocEnd then pred.unmapped allocatorConfig = true
      else (lowerBound a.blocks (a.currentLinearAllocEnd + size)).2 = [] ∧ a.SearchOk size
  else a.SearchOk size

/-- The calls on which the code is right: an `Allocate` that stays off those branches, an
    `AllocateFixed` of a non-empty range and a `Free` that leaves no stale block. -/
def CallOk (a : FlatAllocator) : AllocOp → Prop
  | .allocate size => a.AllocateOk size
  | .allocateFixed _ size => 0 < size
  | .free virt size => ¬ StaleBlock allocatorConfig a.blocks virt size

end FlatAllocator

/-! ## Reading the vector -/

section Blocks

variable {pre post : List AllocBlock} {b c : AllocBlock} {blocks : List AllocBlock}

theorem unmapped_iff_value (b : AllocBlock) (x : Nat) :
    b.unmapped allocatorConfig = true ↔ b.value allocatorConfig x = none := by
  unfold Block.value
  split
  · rename_i h
    exact ⟨fun _ => rfl, fun _ => h⟩
  · rename_i h; exact ⟨fun hu => absurd hu h, fun hn => by cases hn⟩

theorem not_unmapped_of_mapped (h : b.mapped allocatorConfig = true) :
    ¬ b.unmapped allocatorConfig = true := by
  unfold Block.unmapped
  unfold Block.mapped at h
  simpa using h

theorem unmapped_of_not_mapped (h : ¬ b.mapped allocatorConfig = true) :
    b.unmapped allocatorConfig = true := by
  unfold Block.unmapped
  unfold Block.mapped at h
  simpa using h

section

variable (hw : WellFormed allocatorConfig blocks)
include hw

theorem resolve_at (hb : blocks = pre ++ b :: post) {x : Nat} (hx : b.virt ≤ x)
    (hpost : ∀ c ∈ post.head?, x < c.virt) :
    resolve allocatorConfig blocks x = b.value allocatorConfig x := by
  rw [resolve_eq_steps hw.pairwise]
  have hsort := hw.pairwise
  subst hb
  rw [show pre ++ b :: post = (pre ++ [b]) ++ post by simp,
    steps_append_of_le (List.append_ne_nil_of_right_ne_nil pre (List.cons_ne_nil b []))]
  · rw [steps_of_lt hpost]
    simp
  · intro d hd
    rcases List.mem_append.1 hd with hd | hd
    · have := (List.pairwise_append.1 hsort).2.2 d hd b List.mem_cons_self
      omega
    · obtain rfl := List.mem_singleton.1 hd; exact hx

theorem resolve_virt (hb : blocks = pre ++ b :: post) :
    resolve allocatorConfig blocks b.virt = b.value allocatorConfig b.virt := by
  refine resolve_at hw hb (Nat.le_refl _) fun c hc => ?_
  have hsort := hw.pairwise
  rw [hb] at hsort
  exact (List.pairwise_cons.1 (List.pairwise_append.1 hsort).2.1).1 c (List.mem_of_mem_head? hc)

theorem linked_of_eq (hb : blocks = pre ++ b :: c :: post) : Linked allocatorConfig b c := by
  have h := hw.chain
  rw [hb] at h
  exact (List.isChain_append_cons_cons.1 h).2.1

theorem exists_block (x : Nat) :
    ∃ pre b post, blocks = pre ++ b :: post ∧ b.virt ≤ x ∧ ∀ c ∈ post, x < c.virt := by
  obtain ⟨pre, b, ins, post, ha⟩ := hw.around (Nat.succ_pos x) (x + 1)
  refine ⟨pre, b, ins ++ post, ha.blocks, Nat.le_of_lt_succ ha.pred, fun c hc => ?_⟩
  rcases List.mem_append.1 hc with hc | hc
  · exact (ha.ins c hc).1
  · exact ha.post c hc

theorem block_of_free_range {virt size : Nat} (hs : 0 < size)
    (hfree : ∀ x, virt ≤ x → x < virt + size → resolve allocatorConfig blocks x = none) :
    ∃ pre b post, blocks = pre ++ b :: post ∧ b.virt ≤ virt ∧ b.unmapped allocatorConfig = true ∧
      ∀ c ∈ post.head?, virt + size ≤ c.virt := by
  obtain ⟨pre, b, post, hb, hv, hpost⟩ := exists_block hw virt
  have hbu : b.unmapped allocatorConfig = true := by
    rw [unmapped_iff_value b virt,
      ← resolve_at hw hb hv fun c hc => hpost c (List.mem_of_mem_head? hc)]
    exact hfree virt (Nat.le_refl _) (by omega)
  refine ⟨pre, b, post, hb, hv, hbu, ?_⟩
  cases post with
  | nil => exact fun c hc => by cases hc
  | cons c post =>
    rintro _ ⟨⟩
    by_contra hlt
    -- the next block would start inside the range, and be unmapped as well
    have hcu : c.unmapped allocatorConfig = true := by
      rw [unmapped_iff_value c c.virt,
        ← resolve_virt hw (show blocks = (pre ++ [b]) ++ c :: post by simp [hb])]
      have := hpost c List.mem_cons_self
      exact hfree c.virt (by omega) (by omega)
    have := (linked_of_eq hw hb).apart hbu
    rw [hcu] at this; cases this

end

theorem mem_zip_tail {l : List AllocBlock} :
    (b, c) ∈ l.zip l.tail ↔ ∃ pre post, l = pre ++ b :: c :: post := by
  induction l with
  | nil => simp
  | cons d l ih =>
    cases l with
    | nil =>
      refine ⟨fun h => by simp at h, fun ⟨pre, post, h⟩ => ?_⟩
      have := congrArg List.length h
      simp at this; omega
    | cons e l =>
      rw [List.tail_cons, List.zip_cons_cons, List.mem_cons]
      rw [List.tail_cons] at ih
      constructor
      · rintro (h | h)
        · obtain ⟨rfl, rfl⟩ := Prod.mk.inj h
          exact ⟨[], l, rfl⟩
        · obtain ⟨pre, post, h⟩ := ih.1 h; exact ⟨d :: pre, post, by rw [h]; rfl⟩
      · rintro ⟨pre, post, h⟩
        cases pre with
        | nil =>
          simp only [List.nil_append, List.cons.injEq] at h
          obtain ⟨rfl, rfl, -⟩ := h; exact Or.inl rfl
        | cons f pre =>
          simp only [List.cons_append, List.cons.injEq] at h; exact Or.inr (ih.2 ⟨pre, post, h.2⟩)

theorem searchGap_eq_none {size : Nat} : ∀ {pred : AllocBlock} {rest : List AllocBlock},
    FlatAllocator.searchGap size pred rest = none →
    ∀ p ∈ (pred :: rest).zip rest,
      ¬ (p.1.unmapped allocatorConfig = true ∧ size ≤ p.2.virt - p.1.virt) := by
  intro pred rest
  induction rest generalizing pred with
  | nil => intro _ p hp; simp at hp
  | cons succ rest ih =>
    intro h p hp
    rw [FlatAllocator.searchGap] at h
    split at h
    · rename_i hc
      rw [List.zip_cons_cons, List.mem_cons] at hp
      rcases hp with rfl | hp
      · rintro ⟨hu, hsz⟩
        rcases hc with hc | hc
        · exact absurd hc (not_lt.2 hsz)
        · exact not_unmapped_of_mapped hc hu
      · exact ih h p hp
    · cases h

theorem searchGap_eq_some {size v : Nat} : ∀ {pred : AllocBlock} {rest : List AllocBlock},
    FlatAllocator.searchGap size pred rest = some v →
    ∃ p ∈ (pred :: rest).zip rest,
      p.1.unmapped allocatorConfig = true ∧ size ≤ p.2.virt - p.1.virt ∧ v = p.1.virt := by
  intro pred rest
  induction rest generalizing pred with
  | nil => intro h; cases h
  | cons succ rest ih =>
    intro h
    rw [FlatAllocator.searchGap] at h
    split at h
    · obtain ⟨p, hp, hrest⟩ := ih h
      exact ⟨p, List.mem_cons_of_mem _ hp, hrest⟩
    · rename_i hc
      rw [not_or] at hc
      exact ⟨(pred, succ), List.mem_cons_self, unmapped_of_not_mapped hc.2, not_lt.1 hc.1,
        (Option.some.inj h).symm⟩

theorem exists_next (hw : WellFormed allocatorConfig blocks) (hb : blocks = pre ++ b :: post)
    (hm : ¬ b.unmapped allocatorConfig = true) : ∃ c rest, post = c :: rest := by
  cases post with
  | nil =>
    obtain ⟨l, hl, hlu⟩ := hw.last
    rw [hb, List.getLast?_concat] at hl; exact absurd (Option.some.inj hl ▸ hlu) hm
  | cons c rest => exact ⟨c, rest, rfl⟩

/-- The skipping loop stops at a block that is mapped or too small: its range is TAKEN. -/
theorem skipFixed_taken (hw : WellFormed allocatorConfig blocks) {pred succ : AllocBlock}
    {rest : List AllocBlock} (hb : blocks = pre ++ pred :: succ :: rest) (vaBits vaLimit : Nat)
    {size : Nat} (hs : 0 < size) (hv : 0 < pred.virt) :
    ∃ v, FlatAllocator.skipFixed vaBits vaLimit size pred (succ :: rest) = v ∧ 0 < v ∧
      ∃ x, v ≤ x ∧ x < v + size ∧ resolve allocatorConfig blocks x ≠ none := by
  have hlink := linked_of_eq hw hb
  have hb' : blocks = (pre ++ [pred]) ++ succ :: rest := by simp [hb]
  have htaken : ¬ succ.unmapped allocatorConfig = true →
      resolve allocatorConfig blocks succ.virt ≠ none := by
    intro hsu
    rw [resolve_virt hw hb', Ne, ← unmapped_iff_value]; exact hsu
  rw [FlatAllocator.skipFixed]
  split
  · refine ⟨_, rfl, hv, ?_⟩
    by_cases hpu : pred.unmapped allocatorConfig = true
    · -- an unmapped block that is too small: the range runs into the next block
      rename_i hc
      have hgap : succ.virt - pred.virt < size :=
        hc.resolve_right fun hm => not_unmapped_of_mapped hm hpu
      have hlt := hlink.lt
      refine ⟨succ.virt, by omega, by omega, htaken ?_⟩
      rw [hlink.apart hpu]
      exact Bool.false_ne_true
    · refine ⟨pred.virt, Nat.le_refl _, by omega, ?_⟩
      rw [resolve_virt hw hb, Ne, ← unmapped_iff_value]; exact hpu
  · rename_i hc
    rw [not_or] at hc
    -- the block fits, so the loop goes on to the next one, which is mapped
    have hsm : ¬ succ.unmapped allocatorConfig = true := by
      rw [hlink.apart (unmapped_of_not_mapped hc.2)]; exact Bool.false_ne_true
    obtain ⟨next, rest', rfl⟩ := exists_next hw hb' hsm
    have hsm' : succ.mapped allocatorConfig = true := by
      by_contra h
      exact hsm (unmapped_of_not_mapped h)
    rw [if_neg (by simp), FlatAllocator.skipFixed, if_pos (Or.inr hsm')]
    have hlt := hlink.lt
    exact ⟨_, rfl, by omega, succ.virt, Nat.le_refl _, by omega, htaken hsm⟩

end Blocks

/-! ## The allocator tracks the live allocations -/

structure Tracks (vaBits : Nat) (a : FlatAllocator) (live : List Allocation) : Prop where
  wellFormed : WellFormed allocatorConfig a.blocks
  occupied : ∀ x, resolve allocatorConfig a.blocks x ≠ none ↔ Occupied live x
  start : 0 < a.virtStart
  limit : a.vaLimit < 2 ^ vaBits
  cursor : a.virtStart ≤ a.currentLinearAllocEnd ∧ a.currentLinearAllocEnd < 2 ^ vaBits
  inside : ∀ q ∈ live, a.virtStart ≤ q.1 ∧ q.1 + q.2 ≤ a.vaLimit
  apart : live.Pairwise fun p q => ∀ x, Allocation.covers p x → ¬ Allocation.covers q x

section Steps

variable {vaBits size : Nat} {a a' : FlatAllocator} {live : List Allocation}
  {pre post : List AllocBlock} {b c : AllocBlock}

section

variable (h : Tracks vaBits a live)
include h

theorem Tracks.vacant_iff (virt size : Nat) : Vacant live virt size ↔
    ∀ x, virt ≤ x → x < virt + size → resolve allocatorConfig a.blocks x = none := by
  unfold Vacant
  refine forall_congr' fun x => ?_
  rw [← h.occupied x, not_not]

theorem Tracks.bounds {x : Nat} (hx : resolve allocatorConfig a.blocks x ≠ none) :
    a.virtStart ≤ x ∧ x < a.vaLimit := by
  obtain ⟨q, hq, hqx⟩ := (h.occupied x).1 hx
  have := h.inside q hq
  unfold Allocation.covers at hqx
  omega

theorem Tracks.mapped_bounds (hb : a.blocks = pre ++ b :: post)
    (hm : ¬ b.unmapped allocatorConfig = true) : a.virtStart ≤ b.virt ∧ b.virt < a.vaLimit := by
  refine h.bounds ?_
  rw [resolve_virt h.wellFormed hb, Ne, ← unmapped_iff_value]
  exact hm

theorem Tracks.unmapped_start (hb : a.blocks = pre ++ c :: post) (hne : pre ≠ [])
    (hu : c.unmapped allocatorConfig = true) : a.virtStart ≤ c.virt := by
  rcases List.eq_nil_or_concat pre with rfl | ⟨pre, b, rfl⟩
  · exact absurd rfl hne
  have hb' : a.blocks = pre ++ b :: c :: post := by simp [hb]
  have hlink := linked_of_eq h.wellFormed hb'
  have hbm : ¬ b.unmapped allocatorConfig = true := by
    intro hbu
    rw [hlink.apart hbu] at hu; cases hu
  have := (h.mapped_bounds hb' hbm).1
  have := hlink.lt
  omega

theorem Tracks.vacant_block (hb : a.blocks = pre ++ b :: post) (hu : b.unmapped allocatorConfig = true)
    {virt : Nat} (hv : b.virt ≤ virt) (hpost : ∀ c ∈ post.head?, virt + size ≤ c.virt) :
    Vacant live virt size := by
  rw [h.vacant_iff]
  intro x hx hxs
  rw [resolve_at h.wellFormed hb (by omega) fun c hc => ?_, ← unmapped_iff_value]
  · exact hu
  · have := hpost c hc
    omega

end

theorem true_mapped (size : Nat) :
    ∀ i, i < size → shift allocatorConfig i true ≠ allocatorConfig.unmappedPa := by
  intro i _
  unfold shift allocatorConfig
  simp

theorem mapRange_spec (h : Tracks vaBits a live) (e : Nat) {v : Nat} (hv : 0 < v) (hs : 0 < size)
    (hw : v + size < 2 ^ vaBits) :
    ∃ blocks', FlatAllocator.mapRange vaBits { a with currentLinearAllocEnd := e } v size =
        some (v, { a with currentLinearAllocEnd := e, blocks := blocks' }) ∧
      mapLocked allocatorConfig a.blocks v true size () = some blocks' := by
  obtain ⟨blocks', hm, -⟩ := mapLocked_refines h.wellFormed hv hs (true_mapped size) ()
  refine ⟨blocks', ?_, hm⟩
  unfold FlatAllocator.mapRange
  rw [if_pos hw, hm]
  rfl

theorem Tracks.map (h : Tracks vaBits a live) {v e : Nat} (hs : 0 < size) (hv : a.virtStart ≤ v)
    (hl : v + size ≤ a.vaLimit) (hf : Vacant live v size)
    (he : a.virtStart ≤ e ∧ e < 2 ^ vaBits) {blocks' : List AllocBlock}
    (hm : mapLocked allocatorConfig a.blocks v true size () = some blocks') :
    Tracks vaBits { a with currentLinearAllocEnd := e, blocks := blocks' } ((v, size) :: live) := by
  have hpos : 0 < v := Nat.lt_of_lt_of_le h.start hv
  obtain ⟨blocks₁, hm₁, hwf, hres⟩ := mapLocked_refines h.wellFormed hpos hs (true_mapped size) ()
  obtain rfl : blocks₁ = blocks' := Option.some.inj (hm₁.symm.trans hm)
  refine ⟨hwf, fun x => ?_, h.start, h.limit, he, ?_, List.pairwise_cons.2 ⟨?_, h.apart⟩⟩
  · show resolve allocatorConfig blocks₁ x ≠ none ↔ _
    rw [hres x, occupied_cons]
    by_cases hx : v ≤ x ∧ x < v + size
    · rw [if_pos hx]
      exact ⟨fun _ => Or.inl hx, fun _ => Option.some_ne_none _⟩
    · rw [if_neg hx, h.occupied x]; exact ⟨Or.inr, fun ho => ho.resolve_left hx⟩
  · intro q hq
    rcases List.mem_cons.1 hq with rfl | hq
    · exact ⟨hv, hl⟩
    · exact h.inside q hq
  · intro q hq x hx hqx; exact hf x hx.1 hx.2 ⟨q, hq, hqx⟩

theorem Tracks.unmap (h : Tracks vaBits a live) {v : Nat} (hq : (v, size) ∈ live) (hs : 0 < size)
    (hstale : ¬ StaleBlock allocatorConfig a.blocks v size) :
    ∃ blocks', unmapLocked allocatorConfig a.blocks v size = some blocks' ∧
      Tracks vaBits { a with blocks := blocks' } (live.erase (v, size)) := by
  have hpos : 0 < v := Nat.lt_of_lt_of_le h.start (h.inside _ hq).1
  obtain ⟨blocks', hu, hwf, hres⟩ := unmapLocked_refines h.wellFormed hpos hs hstale
  have hperm : live.Perm ((v, size) :: live.erase (v, size)) := List.perm_cons_erase hq
  have hapart : ((v, size) :: live.erase (v, size)).Pairwise
      fun p q => ∀ x, Allocation.covers p x → ¬ Allocation.covers q x :=
    h.apart.perm hperm fun hpq x hx hx' => hpq x hx' hx
  obtain ⟨hhead, htail⟩ := List.pairwise_cons.1 hapart
  refine ⟨blocks', hu, hwf, fun x => ?_, h.start, h.limit, h.cursor,
    fun q hq => h.inside q (List.mem_of_mem_erase hq), htail⟩
  show resolve allocatorConfig blocks' x ≠ none ↔ _
  rw [hres x]
  by_cases hx : v ≤ x ∧ x < v + size
  · rw [if_pos hx]
    refine ⟨fun hn => absurd rfl hn, fun ⟨q, hq, hqx⟩ => ?_⟩
    exact absurd hqx (hhead q hq x hx)
  · rw [if_neg hx, h.occupied x, occupied_perm hperm, occupied_cons]
    exact ⟨fun ho => ho.resolve_left hx, Or.inr⟩

/-! ## One `Allocate` -/

section

variable (h : Tracks vaBits a live)
include h

theorem linearStart_of_room (hs : 0 < size) (hroom : a.currentLinearAllocEnd + size ≤ a.vaLimit) :
    ∃ pre pred post, a.blocks = pre ++ pred :: post ∧
      lowerBound a.blocks (a.currentLinearAllocEnd + size) = (pre ++ [pred], post) ∧
      (∀ c ∈ post, a.currentLinearAllocEnd + size ≤ c.virt) ∧
      a.linearStart vaBits size = some (if pred.virt ≤ a.currentLinearAllocEnd
        then a.currentLinearAllocEnd
        else FlatAllocator.skipFixed vaBits a.vaLimit size pred post) := by
  obtain ⟨pre, pred, post, hb, hpred, hpost⟩ :=
    exists_block h.wellFormed (a.currentLinearAllocEnd + size - 1)
  have hsort := h.wellFormed.pairwise
  have hcut : lowerBound a.blocks (a.currentLinearAllocEnd + size) = (pre ++ [pred], post) := by
    rw [hb, show pre ++ pred :: post = (pre ++ [pred]) ++ post by simp]
    rw [hb] at hsort
    refine lowerBound_append (fun b hb => ?_) fun b hb => ?_
    · rcases List.mem_append.1 hb with hb | hb
      · have := (List.pairwise_append.1 hsort).2.2 b hb pred List.mem_cons_self
        omega
      · obtain rfl := List.mem_singleton.1 hb; omega
    · have := hpost b hb
      omega
  refine ⟨pre, pred, post, hb, hcut, fun c hc => ?_, ?_⟩
  · have := hpost c hc
    omega
  · have hmod : (a.currentLinearAllocEnd + size) % 2 ^ vaBits = a.currentLinearAllocEnd + size :=
      Nat.mod_eq_of_lt (Nat.lt_of_le_of_lt hroom h.limit)
    unfold FlatAllocator.linearStart
    simp only [hmod, hcut, List.getLast?_concat]
    rw [if_pos ⟨Nat.le_add_right _ _, hroom⟩]
    split <;> rfl

theorem linearStart_of_no_room (hw : size < 2 ^ vaBits)
    (hroom : ¬ a.currentLinearAllocEnd + size ≤ a.vaLimit) :
    a.linearStart vaBits size = some UnmappedVa := by
  unfold FlatAllocator.linearStart
  refine if_neg ?_
  rintro ⟨h1, h2⟩
  have hcur := h.cursor.2
  have hlimit := h.limit
  rcases Nat.lt_or_ge (a.currentLinearAllocEnd + size) (2 ^ vaBits) with hlt | hge
  · rw [Nat.mod_eq_of_lt hlt] at h2
    exact hroom h2
  · rw [Nat.mod_eq_sub_mod hge, Nat.mod_eq_of_lt (by omega)] at h1; omega

theorem allocate_of_linear (hs : 0 < size) {v : Nat} (hv : 0 < v)
    (hl : a.linearStart vaBits size = some v) (hw : v + size < 2 ^ vaBits) :
    ∃ blocks', a.allocate vaBits size =
        some (v, { a with currentLinearAllocEnd := v + size, blocks := blocks' }) ∧
      mapLocked allocatorConfig a.blocks v true size () = some blocks' := by
  obtain ⟨blocks', hr, hm⟩ := mapRange_spec h (v + size) hv hs hw
  refine ⟨blocks', ?_, hm⟩
  unfold FlatAllocator.allocate
  rw [hl]
  show (if v ≠ UnmappedVa then _ else _) = _
  rw [if_pos (show v ≠ UnmappedVa from Nat.pos_iff_ne_zero.1 hv), Nat.mod_eq_of_lt hw, hr]

theorem search_some {f pred : AllocBlock} {rest : List AllocBlock} (hb : a.blocks = f :: pred :: rest)
    {v : Nat} (hg : FlatAllocator.searchGap size pred rest = some v) :
    a.RoomInside size ∧ a.virtStart ≤ v ∧ v + size ≤ a.vaLimit ∧ Vacant live v size := by
  obtain ⟨⟨b, c⟩, hp, hu, hsz, rfl⟩ := searchGap_eq_some hg
  obtain ⟨pre, post, hl⟩ := mem_zip_tail.1 hp
  have hbb : a.blocks = (f :: pre) ++ b :: c :: post := by rw [hb, hl]; rfl
  have hlink := linked_of_eq h.wellFormed hbb
  have hcm : ¬ c.unmapped allocatorConfig = true := by
    rw [hlink.apart hu]; exact Bool.false_ne_true
  have hcb := h.mapped_bounds (show a.blocks = ((f :: pre) ++ [b]) ++ c :: post by simp [hbb]) hcm
  have hlt := hlink.lt
  have hroom : b.virt + size ≤ c.virt := by
    dsimp only at hsz; omega
  refine ⟨?_, h.unmapped_start hbb (List.cons_ne_nil _ _) hu, ?_, ?_⟩
  · unfold FlatAllocator.RoomInside
    rw [hb]
    exact ⟨(b, c), hp, hu, hsz⟩
  · show b.virt + size ≤ a.vaLimit
    omega
  · refine h.vacant_block hbb hu (Nat.le_refl _) ?_
    rintro _ ⟨⟩; exact hroom

theorem search_none (hs : 0 < size) {f pred : AllocBlock} {rest : List AllocBlock}
    (hb : a.blocks = f :: pred :: rest) (hg : FlatAllocator.searchGap size pred rest = none) :
    (¬ ∃ virt, a.virtStart ≤ virt ∧ virt + size ≤ a.vaLimit ∧ Vacant live virt size) ↔
      a.EdgesFull size := by
  have hfirst : f.virt = 0 := by
    obtain ⟨b, hb0, hbv⟩ := h.wellFormed.first
    rw [hb] at hb0
    cases hb0
    exact hbv
  have hstart := h.start
  have hfu : f.unmapped allocatorConfig = true := by
    by_contra hm
    have := (h.mapped_bounds (show a.blocks = [] ++ f :: pred :: rest from hb) hm).1
    omega
  constructor
  · intro hno
    refine ⟨fun b hbm => ?_, fun b hbm => ?_⟩
    · -- the gap in front of the second block
      rw [hb] at hbm
      cases hbm
      by_contra hroom
      have hlink := linked_of_eq h.wellFormed (show a.blocks = [] ++ f :: pred :: rest from hb)
      have hpm : ¬ pred.unmapped allocatorConfig = true := by
        rw [hlink.apart hfu]; exact Bool.false_ne_true
      have hpb := h.mapped_bounds (show a.blocks = [f] ++ pred :: rest from hb) hpm
      refine hno ⟨a.virtStart, Nat.le_refl _, by omega, ?_⟩
      refine h.vacant_block (show a.blocks = [] ++ f :: pred :: rest from hb) hfu (by omega) ?_
      rintro _ ⟨⟩
      omega
    · -- the last block
      obtain ⟨l, hl, hlu⟩ := h.wellFormed.last
      obtain rfl : l = b := Option.some.inj (hl.symm.trans hbm)
      obtain ⟨pre, hpre⟩ := List.getLast?_eq_some_iff.1 hl
      have hne : pre ≠ [] := by
        rintro rfl
        rw [hb] at hpre; simp at hpre
      by_contra hroom
      refine hno ⟨l.virt, h.unmapped_start hpre hne hlu, by omega, ?_⟩
      exact h.vacant_block hpre hlu (Nat.le_refl _) fun c hc => by cases hc
  · rintro ⟨hone, hlast⟩ ⟨virt, hv, hl, hvac⟩
    obtain ⟨pre, b, post, hbb, hbv, hbu, hpost⟩ :=
      block_of_free_range h.wellFormed hs ((h.vacant_iff virt size).1 hvac)
    rcases pre with _ | ⟨g, pre⟩
    · -- the first block
      rw [hb, List.nil_append] at hbb
      obtain ⟨rfl, rfl⟩ := List.cons.inj hbb
      have h1 := hpost pred rfl
      have h2 := hone pred (by rw [hb]; rfl)
      omega
    · rw [hb, List.cons_append] at hbb
      obtain ⟨rfl, htl⟩ := List.cons.inj hbb
      rcases post with _ | ⟨c, post⟩
      · -- the last block
        have := hlast b (by rw [hb, htl]; simp [List.getLast?_cons])
        omega
      · have hp : (b, c) ∈ (pred :: rest).zip rest := mem_zip_tail.2 ⟨pre, post, htl⟩
        refine searchGap_eq_none hg _ hp ⟨hbu, ?_⟩
        have := hpost c rfl
        show size ≤ c.virt - b.virt
        omega

end

theorem allocate_of_search (hl : a.linearStart vaBits size = some UnmappedVa) :
    a.allocate vaBits size = match a.blocks with
      | _ :: pred :: rest =>
        match FlatAllocator.searchGap size pred rest with
        | some allocStart => a.mapRange vaBits allocStart size
        | none => some (0, a)
      | _ => none := by
  unfold FlatAllocator.allocate
  rw [hl]
  exact if_neg (not_not.2 rfl)

theorem allocatesFresh_search (h : Tracks vaBits a live) (hs : 0 < size)
    (hl : a.linearStart vaBits size = some UnmappedVa) :
    AllocatesFresh vaBits a live size ↔ a.SearchOk size := by
  have hsearch := allocate_of_search hl
  unfold AllocatesFresh FlatAllocator.SearchOk
  rcases hb : a.blocks with _ | ⟨f, _ | ⟨pred, rest⟩⟩
  · rw [hb] at hsearch
    exact ⟨fun ⟨r, a', hr, _⟩ => (nomatch hsearch.symm.trans hr), fun hlen => by simp at hlen⟩
  · rw [hb] at hsearch
    exact ⟨fun ⟨r, a', hr, _⟩ => (nomatch hsearch.symm.trans hr), fun hlen => by simp at hlen⟩
  · rw [hb] at hsearch
    dsimp only at hsearch
    have hlen : 2 ≤ (f :: pred :: rest).length := by simp
    cases hg : FlatAllocator.searchGap size pred rest with
    | some v =>
      obtain ⟨hin, hv, hvl, hvac⟩ := search_some h hb hg
      have hpos : 0 < v := Nat.lt_of_lt_of_le h.start hv
      obtain ⟨blocks', hmr, -⟩ := mapRange_spec h a.currentLinearAllocEnd hpos hs
        (Nat.lt_of_le_of_lt hvl h.limit)
      rw [hg] at hsearch
      refine ⟨fun _ => ⟨hlen, Or.inl hin⟩, fun _ => ⟨v, _, hsearch.trans hmr, ?_, ?_⟩⟩
      · exact fun _ => ⟨hv, hvl, hvac⟩
      · exact fun h0 => absurd h0 (Nat.pos_iff_ne_zero.1 hpos)
    | none =>
      rw [hg] at hsearch
      have hno := search_none h hs hb hg
      constructor
      · rintro ⟨r, a', hr, -, hzero⟩
        obtain ⟨rfl, rfl⟩ := Prod.mk.inj (Option.some.inj (hsearch.symm.trans hr))
        exact ⟨hlen, Or.inr (hno.1 (hzero rfl))⟩
      · rintro ⟨-, hin | hedge⟩
        · obtain ⟨p, hp, hu, hsz⟩ := hin
          rw [hb] at hp
          exact absurd ⟨hu, hsz⟩ (searchGap_eq_none hg p hp)
        · exact ⟨0, a, hsearch, fun h0 => absurd rfl h0, fun _ => hno.2 hedge⟩

/-- **`Allocate` does what it should exactly off the three branches that go wrong.** -/
theorem allocatesFresh_iff (h : Tracks vaBits a live) (hs : 0 < size) (hw : size < 2 ^ vaBits) :
    AllocatesFresh vaBits a live size ↔ a.AllocateOk size := by
  unfold FlatAllocator.AllocateOk
  split
  · rename_i hroom
    obtain ⟨pre, pred, post, hb, hcut, hpost, hl⟩ := linearStart_of_room h hs hroom
    rw [hcut]
    simp only [List.getLast?_concat, Option.mem_some_iff, exists_eq_left']
    have hcur : 0 < a.currentLinearAllocEnd := Nat.lt_of_lt_of_le h.start h.cursor.1
    split
    · -- the cursor's own address is handed out
      rename_i hle
      rw [if_pos hle] at hl
      obtain ⟨blocks', hall, -⟩ := allocate_of_linear h hs hcur hl (Nat.lt_of_le_of_lt hroom h.limit)
      constructor
      · rintro ⟨r, a', hr, hfresh, -⟩
        obtain ⟨rfl, -⟩ := Prod.mk.inj (Option.some.inj (hall.symm.trans hr))
        have hvac := (hfresh (Nat.pos_iff_ne_zero.1 hcur)).2.2
        rw [unmapped_iff_value pred a.currentLinearAllocEnd, ← resolve_at h.wellFormed hb hle]
        · exact (h.vacant_iff _ _).1 hvac _ (Nat.le_refl _) (by omega)
        · intro c hc
          have := hpost c (List.mem_of_mem_head? hc)
          omega
      · intro hu
        refine ⟨_, _, hall, fun _ => ⟨h.cursor.1, hroom, ?_⟩, ?_⟩
        · exact h.vacant_block hb hu hle fun c hc => hpost c (List.mem_of_mem_head? hc)
        · exact fun h0 => absurd h0 (Nat.pos_iff_ne_zero.1 hcur)
    · rename_i hgt
      rw [if_neg hgt] at hl
      cases post with
      | nil =>
        -- the last block starts behind the cursor: the loop is not entered
        rw [allocatesFresh_search h hs hl]; exact (and_iff_right rfl).symm
      | cons succ rest =>
        refine ⟨?_, fun hok => by cases hok.1⟩
        rintro ⟨r, a', hr, hfresh, -⟩
        obtain ⟨v, hv, hpos, x, hx, hxs, htaken⟩ :=
          skipFixed_taken h.wellFormed hb vaBits a.vaLimit hs (by omega)
        rw [hv] at hl
        obtain rfl : r = v := by
          unfold FlatAllocator.allocate FlatAllocator.mapRange at hr
          rw [hl] at hr
          dsimp only at hr
          rw [if_pos (show v ≠ UnmappedVa from Nat.pos_iff_ne_zero.1 hpos)] at hr
          split at hr
          · obtain ⟨blocks', -, hq⟩ := Option.map_eq_some_iff.1 hr
            exact (congrArg Prod.fst hq).symm
          · cases hr
        have hvac := (hfresh (Nat.pos_iff_ne_zero.1 hpos)).2.2
        exact absurd ((h.vacant_iff _ _).1 hvac x hx hxs) htaken
  · rename_i hroom; exact allocatesFresh_search h hs (linearStart_of_no_room h hw hroom)

theorem allocate_cases (h : Tracks vaBits a live) {r : Nat}
    (hr : a.allocate vaBits size = some (r, a')) :
    (r = 0 ∧ a' = a) ∨ ∃ e blocks', a' = { a with currentLinearAllocEnd := e, blocks := blocks' } ∧
      0 < r ∧ (e = a.currentLinearAllocEnd ∨ e = r + size) ∧ r + size < 2 ^ vaBits ∧
      mapLocked allocatorConfig a.blocks r true size () = some blocks' := by
  have hmap : ∀ {v e : Nat}, FlatAllocator.mapRange vaBits { a with currentLinearAllocEnd := e } v size
      = some (r, a') → ∃ blocks', a' = { a with currentLinearAllocEnd := e, blocks := blocks' } ∧
        v = r ∧ r + size < 2 ^ vaBits ∧
        mapLocked allocatorConfig a.blocks r true size () = some blocks' := by
    intro v e hm
    unfold FlatAllocator.mapRange at hm
    split at hm
    · rename_i hlt
      obtain ⟨blocks', hb, hq⟩ := Option.map_eq_some_iff.1 hm
      obtain ⟨rfl, rfl⟩ := Prod.mk.inj hq
      exact ⟨blocks', rfl, rfl, hlt, hb⟩
    · cases hm
  unfold FlatAllocator.allocate at hr
  split at hr
  · cases hr
  · rename_i v hl
    split at hr
    · rename_i hv
      obtain ⟨blocks', ha, rfl, hlt, hb⟩ := hmap hr
      exact Or.inr ⟨_, blocks', ha, Nat.pos_of_ne_zero hv, Or.inr (Nat.mod_eq_of_lt hlt), hlt, hb⟩
    · split at hr
      · rename_i hblocks
        split at hr
        · rename_i hg
          obtain ⟨blocks', ha, rfl, hlt, hb⟩ := hmap hr
          have hpos := Nat.lt_of_lt_of_le h.start (search_some h hblocks hg).2.1
          exact Or.inr ⟨_, blocks', ha, hpos, Or.inl rfl, hlt, hb⟩
        · obtain ⟨rfl, rfl⟩ := Prod.mk.inj (Option.some.inj hr); exact Or.inl ⟨rfl, rfl⟩
      · cases hr

theorem Tracks.allocate (h : Tracks vaBits a live) (hs : 0 < size)
    (hf : AllocatesFresh vaBits a live size) {r : Nat}
    (hr : a.allocate vaBits size = some (r, a')) :
    Tracks vaBits a' (if r = 0 then live else (r, size) :: live) := by
  obtain ⟨r', a'', hr', hfresh, -⟩ := hf
  obtain ⟨rfl, rfl⟩ := Prod.mk.inj (Option.some.inj (hr'.symm.trans hr))
  rcases allocate_cases h hr with ⟨rfl, rfl⟩ | ⟨e, blocks', rfl, hpos, he, hlt, hm⟩
  · rw [if_pos rfl]
    exact h
  · have h0 : r' ≠ 0 := Nat.pos_iff_ne_zero.1 hpos
    rw [if_neg h0]
    obtain ⟨hv, hl, hvac⟩ := hfresh h0
    refine h.map hs hv hl hvac ?_ hm
    have hcur := h.cursor
    rcases he with rfl | rfl
    · exact hcur
    · omega

end Steps

/-! ## Runs -/

section Runs

variable {vaBits virtStart vaLimit : Nat} {a : FlatAllocator} {live : List Allocation}

theorem tracks_init (hv : 0 < virtStart) (hv' : virtStart < 2 ^ vaBits) (hl : vaLimit < 2 ^ vaBits) :
    Tracks vaBits (.init virtStart vaLimit) [] := by
  refine ⟨initialBlocks_wellFormed, fun x => ?_, hv, hl, ⟨Nat.le_refl _, hv'⟩,
    fun q hq => absurd hq List.not_mem_nil, List.Pairwise.nil⟩
  show resolve allocatorConfig (initialBlocks allocatorConfig) x ≠ none ↔ _
  have hnone : resolve allocatorConfig (initialBlocks allocatorConfig : List AllocBlock) x = none := by
    rw [resolve_at initialBlocks_wellFormed (show initialBlocks allocatorConfig = [] ++ _ :: [] from rfl)
      (Nat.zero_le x) (fun c hc => by cases hc), ← unmapped_iff_value]
    rfl
  rw [hnone]
  exact ⟨fun hn => absurd rfl hn, fun ⟨q, hq, _⟩ => absurd hq List.not_mem_nil⟩

theorem AllocRun.tracks (hv : 0 < virtStart) (hv' : virtStart < 2 ^ vaBits)
    (hl : vaLimit < 2 ^ vaBits)
    (h : AllocRun vaBits virtStart vaLimit FlatAllocator.CallOk a live) :
    Tracks vaBits a live ∧ (a.virtStart = virtStart ∧ a.vaLimit = vaLimit) ∧
      ∀ q ∈ live, 0 < q.2 := by
  induction h with
  | start => exact ⟨tracks_init hv hv' hl, ⟨rfl, rfl⟩, fun q hq => absurd hq List.not_mem_nil⟩
  | @allocate a a' live size r h hs hw hp hr ih =>
    obtain ⟨ht, hf, hpos⟩ := ih
    refine ⟨ht.allocate hs ((allocatesFresh_iff ht hs hw).2 hp) hr, ?_, fun q hq => ?_⟩
    · rcases allocate_cases ht hr with ⟨-, rfl⟩ | ⟨e, blocks', rfl, -⟩
      · exact hf
      · exact hf
    · split at hq
      · exact hpos q hq
      · rcases List.mem_cons.1 hq with rfl | hq
        · exact hs
        · exact hpos q hq
  | @allocateFixed a a' live virt size h hv hl hf hp hr ih =>
    obtain ⟨ht, ⟨hfs, hfl⟩, hpos⟩ := ih
    obtain ⟨blocks', hm, rfl⟩ := Option.map_eq_some_iff.1 hr
    refine ⟨ht.map hp (by rw [hfs]; exact hv) (by rw [hfl]; exact hl) hf ht.cursor hm, ⟨hfs, hfl⟩,
      fun q hq => ?_⟩
    rcases List.mem_cons.1 hq with rfl | hq
    · exact hp
    · exact hpos q hq
  | @free a a' live virt size h hq hp hr ih =>
    obtain ⟨ht, hf, hpos⟩ := ih
    obtain ⟨blocks', hu, ht'⟩ := ht.unmap hq (hpos _ hq) hp
    obtain ⟨blocks'', hu', rfl⟩ := Option.map_eq_some_iff.1 hr
    obtain rfl : blocks' = blocks'' := Option.some.inj (hu.symm.trans hu')
    exact ⟨ht', hf, fun q hq => hpos q (List.mem_of_mem_erase hq)⟩

/-- **FlatAllocator hands out fresh addresses only**, in every run that stays off the branches that
    go wrong: a call of `Allocate` is right if and only if it stays off them too. -/
theorem allocatesFresh_iff_of_run (hv : 0 < virtStart) (hv' : virtStart < 2 ^ vaBits)
    (hl : vaLimit < 2 ^ vaBits)
    (h : AllocRun vaBits virtStart vaLimit FlatAllocator.CallOk a live) :
    (a.virtStart = virtStart ∧ a.vaLimit = vaLimit) ∧ ∀ size, 0 < size → size < 2 ^ vaBits →
      (AllocatesFresh vaBits a live size ↔ a.CallOk (.allocate size)) := by
  obtain ⟨ht, hf, -⟩ := h.tracks hv hv' hl
  exact ⟨hf, fun size hs hw => allocatesFresh_iff ht hs hw⟩

theorem callOk_linear {size : Nat} {pred : AllocBlock}
    (hroom : a.currentLinearAllocEnd + size ≤ a.vaLimit)
    (hp : (lowerBound a.blocks (a.currentLinearAllocEnd + size)).1.getLast? = some pred)
    (hle : pred.virt ≤ a.currentLinearAllocEnd) (hu : pred.unmapped allocatorConfig = true) :
    a.CallOk (.allocate size) := by
  show a.AllocateOk size
  unfold FlatAllocator.AllocateOk
  rw [if_pos hroom]
  exact ⟨pred, hp, by rw [if_pos hle]; exact hu⟩

/-- One page allocated, one mapped ahead of the cursor, and the page between them handed out. -/
theorem allocatesFresh_before_fixed :
    AllocatesFresh 32 ⟨0x1000, 0xFFFFFFFF, 0x2000, [⟨0, false, ()⟩, ⟨0x1000, true, ()⟩,
      ⟨0x2000, false, ()⟩, ⟨0x8000, true, ()⟩, ⟨0x9000, false, ()⟩]⟩
      [(0x8000, 0x1000), (0x1000, 0x1000)] 0x1000 := by
  have h₁ : AllocRun 32 0x1000 0xFFFFFFFF FlatAllocator.CallOk ⟨0x1000, 0xFFFFFFFF, 0x2000,
      [⟨0, false, ()⟩, ⟨0x1000, true, ()⟩, ⟨0x2000, false, ()⟩]⟩ [(0x1000, 0x1000)] := by
    have hok : (FlatAllocator.init 0x1000 0xFFFFFFFF).CallOk (.allocate 0x1000) :=
      callOk_linear (by decide) (show _ = some ⟨0, false, ()⟩ by decide +kernel) (by decide)
        (by decide)
    have hr : (FlatAllocator.init 0x1000 0xFFFFFFFF).allocate 32 0x1000 = some (0x1000,
        ⟨0x1000, 0xFFFFFFFF, 0x2000, [⟨0, false, ()⟩, ⟨0x1000, true, ()⟩, ⟨0x2000, false, ()⟩]⟩) := by
      decide +kernel
    have h := AllocRun.allocate .start (by decide) (by decide) hok hr
    rwa [if_neg (by decide)] at h
  have hvac : Vacant [(0x1000, 0x1000)] 0x8000 0x1000 := by
    rintro x hx hxs ⟨q, hq, hqx⟩
    obtain rfl := List.mem_singleton.1 hq
    unfold Allocation.covers at hqx; omega
  have h₂ : AllocRun 32 0x1000 0xFFFFFFFF FlatAllocator.CallOk ⟨0x1000, 0xFFFFFFFF, 0x2000,
      [⟨0, false, ()⟩, ⟨0x1000, true, ()⟩, ⟨0x2000, false, ()⟩, ⟨0x8000, true, ()⟩,
        ⟨0x9000, false, ()⟩]⟩ [(0x8000, 0x1000), (0x1000, 0x1000)] :=
    .allocateFixed h₁ (by decide) (by decide) hvac (show 0 < 0x1000 by decide) (by decide +kernel)
  refine ((allocatesFresh_iff_of_run (by decide) (by decide) (by decide) h₂).2 0x1000 (by decide)
    (by decide)).2 ?_
  exact callOk_linear (by decide) (show _ = some ⟨0x2000, false, ()⟩ by decide +kernel) (by decide)
    (by decide)

/-- A fixed mapping at the cursor: the linear pass hands its address out again. -/
theorem not_allocatesFresh_of_run : ¬ ∀ (a : FlatAllocator) (live : List Allocation),
    AllocRun 32 0x1000 0xFFFFFFFF (fun _ _ => True) a live →
    ∀ size, 0 < size → size < 2 ^ 32 → AllocatesFresh 32 a live size := by
  intro h
  have hvac : Vacant [] 0x1000 0x1000 := fun x _ _ ⟨q, hq, _⟩ => absurd hq List.not_mem_nil
  have hrun : AllocRun 32 0x1000 0xFFFFFFFF (fun _ _ => True) ⟨0x1000, 0xFFFFFFFF, 0x1000,
      [⟨0, false, ()⟩, ⟨0x1000, true, ()⟩, ⟨0x2000, false, ()⟩]⟩ [(0x1000, 0x1000)] :=
    .allocateFixed .start (by decide) (by decide) hvac trivial (by decide +kernel)
  obtain ⟨r, a', hr, hfresh, -⟩ := h _ _ hrun 0x800 (by decide) (by decide)
  have hr0 : FlatAllocator.allocate 32 ⟨0x1000, 0xFFFFFFFF, 0x1000,
      [⟨0, false, ()⟩, ⟨0x1000, true, ()⟩, ⟨0x2000, false, ()⟩]⟩ 0x800 = some (0x1000,
        ⟨0x1000, 0xFFFFFFFF, 0x1800, [⟨0, false, ()⟩, ⟨0x1000, true, ()⟩, ⟨0x1800, true, ()⟩,
          ⟨0x2000, false, ()⟩]⟩) := by decide +kernel
  obtain ⟨rfl, -⟩ := Prod.mk.inj (Option.some.inj (hr.symm.trans hr0))
  refine (hfresh (by decide)).2.2 0x1000 (by decide) (by decide) ⟨_, List.mem_cons_self, ?_⟩
  exact ⟨by decide, by decide⟩

end Runs

end Suyu.Common
