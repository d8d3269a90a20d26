import Mathlib

/-
  UsageTracker - which parts of a buffer have been used, in bits of 64 bytes.

  1. **Program** - `Track` marks the bits of the first and of the last page of a range, and all bits of
     the pages between; `IsUsed` looks at the bits in the same three steps.  A page part that begins at
     some offset has `size >> 6` bits from bit `offset >> 6` on: the start is rounded down, and so is
     the SIZE.

  2. **Specification (`NoFalseNegative`)** - if a query shares a byte with a tracked range, it is used.

  3. **The crux (`bit_track`, `isUsed_spec`)** - a range marks the blocks of 64 bytes it COUNTS and
     looks at the blocks it CHECKS; both are ranges of block numbers, given by the bounds of the range.

  4. **When it goes wrong** - the last block of a range that does not begin at a block is not counted,
     and a part of less than 64 bytes counts nothing.  There the mask is `~0 >> 64`, which is undefined:
     its value is a parameter `undefined`, and what is specified must hold for every value of it.
-/

namespace Suyu.VideoCore

open Function (update update_self update_of_ne)

/-- The words of the pages, and how many there are. -/
structure UsageTracker where
  numPages : Nat
  pages : Nat → BitVec 64

namespace UsageTracker

/-! ## The program -/

def bytesPerBitShift : Nat := 6
def pageShift : Nat := 6 + bytesPerBitShift
def pageBytes : Nat := 1 <<< pageShift

def create (size : Nat) : UsageTracker := ⟨(size >>> pageShift) + 1, fun _ => 0⟩

def reset (t : UsageTracker) : UsageTracker := { t with pages := fun _ => 0 }

/-- `~u64{0} >> shift`, which is defined for a shift below 64 only. -/
def shiftedOnes (undefined : BitVec 64) (shift : Nat) : BitVec 64 :=
  if shift < 64 then BitVec.allOnes 64 >>> shift else undefined

/-- The bits of the page that a part of it stands for. -/
def pageMask (undefined : BitVec 64) (offset size : Nat) : BitVec 64 :=
  let offsetInPage := offset % pageBytes
  let firstBit := offsetInPage >>> bytesPerBitShift
  let numBits := min size pageBytes >>> bytesPerBitShift
  let mask := shiftedOnes undefined (64 - numBits)
  (BitVec.allOnes 64 &&& mask) <<< firstBit

def trackPage (undefined : BitVec 64) (t : UsageTracker) (page offset size : Nat) : UsageTracker :=
  { t with pages := update t.pages page (t.pages page ||| pageMask undefined offset size) }

def isPageUsed (undefined : BitVec 64) (t : UsageTracker) (page offset size : Nat) : Bool :=
  t.pages page &&& pageMask undefined offset size != 0

def alignDown (offsetEnd : Nat) : Nat := offsetEnd - offsetEnd % pageBytes

/-- A range of bytes. -/
structure Range where
  offset : Nat
  size : Nat

/-- `offset + size`, of type `u64`. -/
def Range.offsetEnd (r : Range) : Nat := (r.offset + r.size) % 2 ^ 64

def Range.page (r : Range) : Nat := r.offset >>> pageShift

def Range.pageEnd (r : Range) : Nat := r.offsetEnd >>> pageShift

/-- `for (size_t i = page + 1; i < page_end; i++)` -/
def Range.pagesBetween (r : Range) : List Nat := List.range' (r.page + 1) (r.pageEnd - (r.page + 1))

def track (undefined : BitVec 64) (t : UsageTracker) (r : Range) : UsageTracker :=
  if r.pageEnd < r.page ∨ r.pageEnd ≥ t.numPages then t
  else
    let first := trackPage undefined t r.page r.offset r.size
    if r.page = r.pageEnd then first
    else
      let between := { first with
        pages := r.pagesBetween.foldl (fun pages i => update pages i (BitVec.allOnes 64))
          first.pages }
      trackPage undefined between r.pageEnd (alignDown r.offsetEnd) (r.offsetEnd - alignDown r.offsetEnd)

def isUsed (undefined : BitVec 64) (t : UsageTracker) (r : Range) : Bool :=
  if r.pageEnd < r.page ∨ r.pageEnd ≥ t.numPages then false
  else if isPageUsed undefined t r.page r.offset r.size then true
  else if r.pagesBetween.any fun i => t.pages i != 0 then true
  else isPageUsed undefined t r.pageEnd (alignDown r.offsetEnd) (r.offsetEnd - alignDown r.offsetEnd)

/-! ## Specification -/

inductive Call where
  | track (r : Range)
  | reset

def perform (undefined : BitVec 64) (t : UsageTracker) : Call → UsageTracker
  | .track r => t.track undefined r
  | .reset => t.reset

/-- A tracker after any calls, a `Reset`, and the ranges tracked since. -/
def sinceReset (undefined : BitVec 64) (size : Nat) (earlier : List Call) (ranges : List Range) :
    UsageTracker :=
  ranges.foldl (track undefined) (earlier.foldl (perform undefined) (create size)).reset

/-- The range lies in the tracked size, which is a `size_t`. -/
def Range.Inside (r : Range) (size : Nat) : Prop := r.offset + r.size ≤ size

/-- The two ranges have a byte in common. -/
def Range.Shares (r q : Range) : Prop :=
  ∃ byte, (r.offset ≤ byte ∧ byte < r.offset + r.size) ∧ q.offset ≤ byte ∧ byte < q.offset + q.size

/-- Whatever the undefined shift gives, the query is used if it shares a byte with a tracked range. -/
def NoFalseNegative (size : Nat) (earlier : List Call) (ranges : List Range) (query : Range) : Prop :=
  ∀ undefined, (∃ r ∈ ranges, r.Shares query) →
    (sinceReset undefined size earlier ranges).isUsed undefined query = true

/-- The bits of the first page from that of the offset on, `size >> 6` of them. -/
def Range.InFirstPage (r : Range) (block : Nat) : Prop :=
  block / 64 = r.offset / 4096 ∧ r.offset / 64 ≤ block ∧ block < r.offset / 64 + r.size / 64

/-- The blocks of the pages between. -/
def Range.InBetween (r : Range) (block : Nat) : Prop :=
  r.offset / 4096 < block / 64 ∧ block / 64 < (r.offset + r.size) / 4096

/-- The whole blocks of the last page in front of the end. -/
def Range.InLastPage (r : Range) (block : Nat) : Prop :=
  block / 64 = (r.offset + r.size) / 4096 ∧ block < (r.offset + r.size) / 64

/-- The blocks a range counts when it is tracked: the last page is another one than the first. -/
def Range.Counts (r : Range) (block : Nat) : Prop :=
  r.InFirstPage block ∨ r.InBetween block ∨
    r.InLastPage block ∧ r.offset / 4096 ≠ (r.offset + r.size) / 4096

/-- The blocks a query checks: the last page is checked from its start, also if it is the only one. -/
def Range.Checks (q : Range) (block : Nat) : Prop :=
  q.InFirstPage block ∨ q.InBetween block ∨ q.InLastPage block

instance decidableInside (r : Range) (size : Nat) : Decidable (r.Inside size) :=
  inferInstanceAs (Decidable (_ ≤ _))

instance decidableInFirstPage (r : Range) (block : Nat) : Decidable (r.InFirstPage block) :=
  inferInstanceAs (Decidable (_ ∧ _))

instance decidableInBetween (r : Range) (block : Nat) : Decidable (r.InBetween block) :=
  inferInstanceAs (Decidable (_ ∧ _))

instance decidableInLastPage (r : Range) (block : Nat) : Decidable (r.InLastPage block) :=
  inferInstanceAs (Decidable (_ ∧ _))

/-! ## Masks -/

/-- The bit of a block. -/
def bit (t : UsageTracker) (block : Nat) : Bool := (t.pages (block / 64)).getLsbD (block % 64)

theorem getLsbD_shiftedOnes {undefined : BitVec 64} {numBits : Nat} (h0 : 0 < numBits) (j : Nat) :
    (shiftedOnes undefined (64 - numBits)).getLsbD j = decide (j < 64 ∧ j < numBits) := by
  have hshift : 64 - numBits < 64 := by omega
  rw [shiftedOnes, if_pos hshift, BitVec.getLsbD_ushiftRight, BitVec.getLsbD_allOnes, decide_eq_decide]
  omega

theorem getLsbD_pageMask (undefined : BitVec 64) {offset size j : Nat} (hj : j < 64) :
    (offset % 4096 / 64 ≤ j ∧ j < offset % 4096 / 64 + min size 4096 / 64 →
      (pageMask undefined offset size).getLsbD j = true) ∧
    ((pageMask 0 offset size).getLsbD j = true →
      offset % 4096 / 64 ≤ j ∧ j < offset % 4096 / 64 + min size 4096 / 64) := by
  have hbit : ∀ undefined, (pageMask undefined offset size).getLsbD j =
      (!decide (j < offset % 4096 / 64) &&
        (shiftedOnes undefined (64 - min size 4096 / 64)).getLsbD (j - offset % 4096 / 64)) := by
    intro undefined
    have hshift : ∀ n, n >>> bytesPerBitShift = n / 64 := fun n => Nat.shiftRight_eq_div_pow n 6
    have hpage : pageBytes = 4096 := rfl
    rw [pageMask, BitVec.allOnes_and, BitVec.getLsbD_shiftLeft, hshift, hshift, hpage, decide_eq_true hj,
      Bool.true_and]
  constructor
  · intro hrange
    have hpos : 0 < min size 4096 / 64 := by omega
    rw [hbit, getLsbD_shiftedOnes hpos, decide_eq_false (by omega), decide_eq_true (by omega)]
    rfl
  · intro h
    rw [hbit, Bool.and_eq_true, Bool.not_eq_true', decide_eq_false_iff_not] at h
    obtain ⟨hfirst, hones⟩ := h
    rcases Nat.eq_zero_or_pos (min size 4096 / 64) with h0 | hpos
    · rw [h0] at hones
      exact absurd hones (by simp [shiftedOnes])
    · rw [getLsbD_shiftedOnes hpos, decide_eq_true_eq] at hones; omega

/-! ## One page -/

section Page

variable {t : UsageTracker} {page offset size block : Nat}

/-- The blocks that a part of a page stands for. -/
def PartBlock (page offset size block : Nat) : Prop :=
  block / 64 = page ∧ offset % 4096 / 64 ≤ block % 64 ∧
    block % 64 < offset % 4096 / 64 + min size 4096 / 64

theorem bit_trackPage (undefined : BitVec 64) :
    (t.bit block = true ∨ PartBlock page offset size block →
      (trackPage undefined t page offset size).bit block = true) ∧
    ((trackPage 0 t page offset size).bit block = true →
      t.bit block = true ∨ PartBlock page offset size block) := by
  have hmod : block % 64 < 64 := Nat.mod_lt _ (by decide)
  by_cases hpage : block / 64 = page
  · have hbit : ∀ undefined, (trackPage undefined t page offset size).bit block =
        (t.bit block || (pageMask undefined offset size).getLsbD (block % 64)) := by
      intro undefined
      show (update t.pages page _ (block / 64)).getLsbD _ = _
      rw [bit, hpage, update_self, BitVec.getLsbD_or]
    have hmask := @getLsbD_pageMask undefined offset size (block % 64) hmod
    constructor
    · rintro (hold | ⟨-, hpart⟩)
      · rw [hbit, hold, Bool.true_or]
      · rw [hbit, hmask.1 hpart, Bool.or_true]
    · intro h
      rw [hbit, Bool.or_eq_true] at h
      exact h.imp_right fun hnew => ⟨hpage, hmask.2 hnew⟩
  · have hbit : ∀ undefined, (trackPage undefined t page offset size).bit block = t.bit block := by
      intro undefined
      show (update t.pages page _ (block / 64)).getLsbD _ = _
      rw [bit, update_of_ne hpage]
    rw [hbit, hbit]; exact ⟨fun h => h.resolve_right fun hpart => hpage hpart.1, Or.inl⟩

theorem and_ne_zero_iff {x y : BitVec 64} :
    (x &&& y != 0) = true ↔ ∃ j < 64, x.getLsbD j = true ∧ y.getLsbD j = true := by
  rw [bne_iff_ne]
  constructor
  · intro h
    by_contra hnone
    apply h
    refine BitVec.eq_of_getLsbD_eq fun j hj => ?_
    rw [BitVec.getLsbD_and, BitVec.ofNat_eq_ofNat, BitVec.getLsbD_zero]
    by_contra hne
    exact hnone ⟨j, hj, Bool.and_eq_true_iff.1 (Bool.not_eq_false _ ▸ hne)⟩
  · rintro ⟨j, -, hx, hy⟩ h
    have hbit := congrArg (·.getLsbD j) h
    simp only [BitVec.getLsbD_and, hx, hy, BitVec.ofNat_eq_ofNat, BitVec.getLsbD_zero] at hbit
    exact absurd hbit (by decide)

theorem isPageUsed_spec (undefined : BitVec 64) :
    ((∃ block, t.bit block = true ∧ PartBlock page offset size block) →
      isPageUsed undefined t page offset size = true) ∧
    (isPageUsed 0 t page offset size = true →
      ∃ block, t.bit block = true ∧ PartBlock page offset size block) := by
  constructor
  · rintro ⟨block, hbit, hpage, hpart⟩
    have hmod : block % 64 < 64 := Nat.mod_lt _ (by decide)
    rw [bit, hpage] at hbit
    exact and_ne_zero_iff.2 ⟨block % 64, hmod, hbit, (getLsbD_pageMask undefined hmod).1 hpart⟩
  · intro h
    obtain ⟨j, hj, hbit, hmask⟩ := and_ne_zero_iff.1 h
    have hdiv : (64 * page + j) / 64 = page := by omega
    have hmod : (64 * page + j) % 64 = j := by omega
    refine ⟨64 * page + j, ?_, hdiv, ?_⟩
    · rw [bit, hdiv, hmod]
      exact hbit
    · rw [hmod]; exact (getLsbD_pageMask 0 hj).2 hmask

theorem bit_foldl_allOnes (is : List Nat) (pages : Nat → BitVec 64) (block : Nat) :
    ((is.foldl (fun pages i => update pages i (BitVec.allOnes 64)) pages) (block / 64)).getLsbD
        (block % 64) = true ↔
      (pages (block / 64)).getLsbD (block % 64) = true ∨ block / 64 ∈ is := by
  have hmod : block % 64 < 64 := Nat.mod_lt _ (by decide)
  induction is generalizing pages with
  | nil => simp
  | cons i is ih =>
    rw [List.foldl_cons, List.mem_cons]
    refine (ih (update pages i (BitVec.allOnes 64))).trans ?_
    by_cases hi : block / 64 = i
    · subst hi
      rw [update_self, BitVec.getLsbD_allOnes]
      simp [hmod]
    · rw [update_of_ne hi, or_iff_right hi]

theorem pages_ne_zero_iff {i : Nat} :
    (t.pages i != 0) = true ↔ ∃ block, t.bit block = true ∧ block / 64 = i := by
  have hones : t.pages i = t.pages i &&& BitVec.allOnes 64 := (BitVec.and_allOnes).symm
  rw [hones, and_ne_zero_iff]
  constructor
  · rintro ⟨j, hj, hbit, -⟩
    have hdiv : (64 * i + j) / 64 = i := by omega
    have hmod : (64 * i + j) % 64 = j := by omega
    refine ⟨64 * i + j, ?_, hdiv⟩
    rw [bit, hdiv, hmod]
    exact hbit
  · rintro ⟨block, hbit, rfl⟩
    have hmod : block % 64 < 64 := Nat.mod_lt _ (by decide)
    refine ⟨block % 64, hmod, hbit, ?_⟩
    rw [BitVec.getLsbD_allOnes]; exact decide_eq_true hmod

end Page

/-! ## A whole range -/

section Range

variable {t : UsageTracker} {r q : Range} {size : Nat}

theorem shiftRight_pageShift (n : Nat) : n >>> pageShift = n / 4096 := Nat.shiftRight_eq_div_pow n 12

theorem Range.offsetEnd_eq (hsize : size < 2 ^ 64) (hr : r.Inside size) :
    r.offsetEnd = r.offset + r.size :=
  Nat.mod_eq_of_lt (lt_of_le_of_lt hr hsize)

theorem Range.guard (hsize : size < 2 ^ 64) (hr : r.Inside size)
    (ht : t.numPages = (size >>> pageShift) + 1) :
    ¬ (r.pageEnd < r.page ∨ r.pageEnd ≥ t.numPages) := by
  have hin : r.offset + r.size ≤ size := hr
  rw [Range.pageEnd, Range.page, Range.offsetEnd_eq hsize hr, ht, shiftRight_pageShift,
      shiftRight_pageShift,
    shiftRight_pageShift]
  omega

theorem partBlock_first {block : Nat} :
    PartBlock (r.offset >>> pageShift) r.offset r.size block ↔ r.InFirstPage block := by
  rw [PartBlock, Range.InFirstPage, shiftRight_pageShift]; omega

theorem partBlock_last {block : Nat} (hsize : size < 2 ^ 64) (hr : r.Inside size) :
    PartBlock r.pageEnd (alignDown r.offsetEnd) (r.offsetEnd - alignDown r.offsetEnd) block ↔
      r.InLastPage block := by
  have hpage : pageBytes = 4096 := rfl
  rw [PartBlock, Range.InLastPage, Range.pageEnd, Range.offsetEnd_eq hsize hr, shiftRight_pageShift,
      alignDown,
    hpage]
  omega

theorem mem_pagesBetween {i : Nat} (hsize : size < 2 ^ 64) (hr : r.Inside size) :
    i ∈ r.pagesBetween ↔ r.offset / 4096 < i ∧ i < (r.offset + r.size) / 4096 := by
  rw [Range.pagesBetween, List.mem_range'_1, Range.pageEnd, Range.page, Range.offsetEnd_eq hsize hr,
    shiftRight_pageShift, shiftRight_pageShift]
  omega

/-- **What `Track` marks**: the blocks the range counts; and if the undefined value is zero, no others. -/
theorem bit_track (undefined : BitVec 64) {block : Nat} (hsize : size < 2 ^ 64) (hr : r.Inside size)
    (ht : t.numPages = (size >>> pageShift) + 1) :
    (t.bit block = true ∨ r.Counts block → (t.track undefined r).bit block = true) ∧
    ((t.track 0 r).bit block = true → t.bit block = true ∨ r.Counts block) := by
  have hguard := Range.guard hsize hr ht
  have hfirst := @bit_trackPage t r.page r.offset r.size block undefined
  have hpart := @partBlock_first r block
  by_cases hone : r.page = r.pageEnd
  · -- One page: the first part is all.
    have htrack : ∀ undefined, t.track undefined r = trackPage undefined t r.page r.offset r.size := by
      intro undefined
      rw [track, if_neg hguard, if_pos hone]
    have hcounts : r.Counts block ↔ PartBlock r.page r.offset r.size block := by
      rw [Range.page, hpart, Range.Counts]
      rw [Range.page, Range.pageEnd, Range.offsetEnd_eq hsize hr, shiftRight_pageShift,
        shiftRight_pageShift] at hone
      rw [Range.InBetween, ← hone]
      constructor
      · rintro (h | h | h)
        · exact h
        · omega
        · exact absurd rfl h.2
      · exact Or.inl
    rw [htrack, htrack, hcounts]
    exact hfirst
  · have htrack : ∀ undefined, t.track undefined r =
        trackPage undefined { trackPage undefined t r.page r.offset r.size with
          pages := r.pagesBetween.foldl (fun pages i => update pages i (BitVec.allOnes 64))
            (trackPage undefined t r.page r.offset r.size).pages } r.pageEnd (alignDown r.offsetEnd)
              (r.offsetEnd - alignDown r.offsetEnd) := by
      intro undefined
      rw [track, if_neg hguard, if_neg hone]
    have hne : r.offset / 4096 ≠ (r.offset + r.size) / 4096 := by
      rwa [Range.page, Range.pageEnd, Range.offsetEnd_eq hsize hr, shiftRight_pageShift,
        shiftRight_pageShift] at hone
    have hbetween : ∀ undefined, bit { trackPage undefined t r.page r.offset r.size with
        pages := r.pagesBetween.foldl (fun pages i => update pages i (BitVec.allOnes 64))
          (trackPage undefined t r.page r.offset r.size).pages } block = true ↔
            (trackPage undefined t r.page r.offset r.size).bit block = true ∨ r.InBetween block := by
      intro undefined
      rw [bit, bit_foldl_allOnes, mem_pagesBetween hsize hr]; rfl
    have hlast := @partBlock_last r size block hsize hr
    rw [htrack, htrack]
    constructor
    · intro h
      refine (bit_trackPage undefined).1 ?_
      rw [hbetween, hlast]
      rcases h with h | h | h | h
      · exact Or.inl (Or.inl (hfirst.1 (Or.inl h)))
      · exact Or.inl (Or.inl (hfirst.1 (Or.inr (hpart.2 h))))
      · exact Or.inl (Or.inr h)
      · exact Or.inr h.1
    · intro h
      have hback := (bit_trackPage 0).2 h
      rw [hbetween, hlast] at hback
      rcases hback with (h | h) | h
      · exact (hfirst.2 h).imp_right fun hp => Or.inl (hpart.1 hp)
      · exact Or.inr (Or.inr (Or.inl h))
      · exact Or.inr (Or.inr (Or.inr ⟨h, hne⟩))

/-- **What `IsUsed` looks at**: the blocks the query checks. -/
theorem isUsed_spec (undefined : BitVec 64) (hsize : size < 2 ^ 64) (hq : q.Inside size)
    (ht : t.numPages = (size >>> pageShift) + 1) :
    ((∃ block, t.bit block = true ∧ q.Checks block) → t.isUsed undefined q = true) ∧
    (t.isUsed 0 q = true → ∃ block, t.bit block = true ∧ q.Checks block) := by
  have hguard := Range.guard hsize hq ht
  have hbetween : (q.pagesBetween.any fun i => t.pages i != 0) = true ↔
      ∃ block, t.bit block = true ∧ q.InBetween block := by
    rw [List.any_eq_true]
    constructor
    · rintro ⟨i, hi, hne⟩
      obtain ⟨block, hbit, rfl⟩ := pages_ne_zero_iff.1 hne
      exact ⟨block, hbit, (mem_pagesBetween hsize hq).1 hi⟩
    · rintro ⟨block, hbit, hin⟩
      exact ⟨block / 64, (mem_pagesBetween hsize hq).2 hin, pages_ne_zero_iff.2 ⟨block, hbit, rfl⟩⟩
  constructor
  · rintro ⟨block, hbit, hcheck⟩
    rw [isUsed, if_neg hguard]
    split
    · rfl
    rename_i hfirst
    split
    · rfl
    rename_i hmiddle
    rcases hcheck with h | h | h
    · exact absurd ((isPageUsed_spec undefined).1 ⟨block, hbit, partBlock_first.2 h⟩) hfirst
    · exact absurd (hbetween.2 ⟨block, hbit, h⟩) hmiddle
    · exact (isPageUsed_spec undefined).1 ⟨block, hbit, (partBlock_last hsize hq).2 h⟩
  · intro h
    rw [isUsed, if_neg hguard] at h
    split at h
    · next hfirst =>
      obtain ⟨block, hbit, hpart⟩ := (isPageUsed_spec 0).2 hfirst
      exact ⟨block, hbit, Or.inl (partBlock_first.1 hpart)⟩
    · split at h
      · next hmiddle =>
        obtain ⟨block, hbit, hin⟩ := hbetween.1 hmiddle
        exact ⟨block, hbit, Or.inr (Or.inl hin)⟩
      · obtain ⟨block, hbit, hpart⟩ := (isPageUsed_spec 0).2 h
        exact ⟨block, hbit, Or.inr (Or.inr ((partBlock_last hsize hq).1 hpart))⟩

end Range

/-! ## Runs -/

section Runs

variable {size : Nat}

variable (undefined : BitVec 64)

theorem track_numPages (t : UsageTracker) (r : Range) :
    (t.track undefined r).numPages = t.numPages := by
  rw [track]
  split
  · rfl
  · split <;> rfl

theorem foldl_perform_numPages (calls : List Call) (t : UsageTracker) :
    (calls.foldl (perform undefined) t).numPages = t.numPages := by
  induction calls generalizing t with
  | nil => rfl
  | cons c calls ih =>
    rw [List.foldl_cons, ih]
    cases c with
    | track r => exact track_numPages undefined t r
    | reset => rfl

theorem bit_foldl_track (hsize : size < 2 ^ 64) {ranges : List Range}
    (hranges : ∀ r ∈ ranges, r.Inside size) {t : UsageTracker}
    (ht : t.numPages = (size >>> pageShift) + 1) (block : Nat) :
    ((t.bit block = true ∨ ∃ r ∈ ranges, r.Counts block) →
      (ranges.foldl (track undefined) t).bit block = true) ∧
    ((ranges.foldl (track 0) t).bit block = true →
      t.bit block = true ∨ ∃ r ∈ ranges, r.Counts block) := by
  induction ranges generalizing t with
  | nil =>
    constructor
    · rintro (h | ⟨r, hr, -⟩)
      · exact h
      · exact absurd hr List.not_mem_nil
    · exact Or.inl
  | cons r ranges ih =>
    have hrest : ∀ r ∈ ranges, r.Inside size := fun r hr => hranges r (List.mem_cons_of_mem _ hr)
    have hr := hranges r List.mem_cons_self
    constructor
    · intro h
      refine (ih hrest ((track_numPages undefined t r).trans ht)).1 ?_
      rcases h with h | ⟨r', hr', hcounts⟩
      · exact Or.inl ((bit_track undefined hsize hr ht).1 (Or.inl h))
      · rcases List.mem_cons.1 hr' with rfl | hr'
        · exact Or.inl ((bit_track undefined hsize hr ht).1 (Or.inr hcounts))
        · exact Or.inr ⟨r', hr', hcounts⟩
    · intro h
      rcases (ih hrest ((track_numPages 0 t r).trans ht)).2 h with h | ⟨r', hr', hcounts⟩
      · rcases (bit_track 0 hsize hr ht).2 h with h | hcounts
        · exact Or.inl h
        · exact Or.inr ⟨r, List.mem_cons_self, hcounts⟩
      · exact Or.inr ⟨r', List.mem_cons_of_mem _ hr', hcounts⟩

theorem sinceReset_numPages (size : Nat) (earlier : List Call) :
    (earlier.foldl (perform undefined) (create size)).reset.numPages = (size >>> pageShift) + 1 :=
  foldl_perform_numPages undefined earlier (create size)

theorem foldl_track_numPages (ranges : List Range) (t : UsageTracker) :
    (ranges.foldl (track undefined) t).numPages = t.numPages := by
  induction ranges generalizing t with
  | nil => rfl
  | cons r ranges ih =>
    rw [List.foldl_cons, ih]; exact track_numPages undefined t r

theorem isUsed_sinceReset (hsize : size < 2 ^ 64) (earlier : List Call) {ranges : List Range}
    (hranges : ∀ r ∈ ranges, r.Inside size) {query : Range} (hquery : query.Inside size) :
    ((∃ r ∈ ranges, ∃ block, r.Counts block ∧ query.Checks block) →
      (sinceReset undefined size earlier ranges).isUsed undefined query = true) ∧
    ((sinceReset 0 size earlier ranges).isUsed 0 query = true →
      ∃ r ∈ ranges, ∃ block, r.Counts block ∧ query.Checks block) := by
  have hpages : ∀ undefined,
      (sinceReset undefined size earlier ranges).numPages = (size >>> pageShift) + 1 := by
    intro undefined
    rw [sinceReset, foldl_track_numPages]
    exact sinceReset_numPages undefined size earlier
  constructor
  · rintro ⟨r, hr, block, hcounts, hchecks⟩
    refine (isUsed_spec undefined hsize hquery (hpages undefined)).1 ⟨block, ?_, hchecks⟩
    exact (bit_foldl_track undefined hsize hranges (sinceReset_numPages undefined size earlier) block).1
      (Or.inr ⟨r, hr, hcounts⟩)
  · intro h
    obtain ⟨block, hbit, hchecks⟩ := (isUsed_spec 0 hsize hquery (hpages 0)).2 h
    rcases (bit_foldl_track 0 hsize hranges (sinceReset_numPages 0 size earlier) block).2 hbit with
      hold | ⟨r, hr, hcounts⟩
    · -- After a reset no bit is set.
      exact absurd hold (by simp [bit, reset])
    · exact ⟨r, hr, block, hcounts, hchecks⟩

end Runs

/-- **A query has no false negative exactly if it shares no byte with a tracked range, or it checks a
    block that a tracked range counts.** -/
theorem usageTracker_exact (size : Nat) (hsize : size < 2 ^ 64) (earlier : List Call)
    (ranges : List Range)
    (hranges : ∀ r ∈ ranges, r.Inside size) (query : Range) (hquery : query.Inside size) :
    NoFalseNegative size earlier ranges query ↔
      ((∃ r ∈ ranges, r.Shares query) → ∃ r ∈ ranges, ∃ block, r.Counts block ∧ query.Checks block) := by
  constructor
  · intro h hshares
    exact (isUsed_sinceReset 0 hsize earlier hranges hquery).2 (h 0 hshares)
  · intro h undefined hshares
    exact (isUsed_sinceReset undefined hsize earlier hranges hquery).1 (h hshares)

/-- `Track(32, 64)` marks block 0 only: a query from byte 64 over two pages misses bytes 64 to 95. -/
theorem usageTracker_false_negative : ¬ NoFalseNegative 16384 [] [⟨32, 64⟩] ⟨64, 8192⟩ := by
  intro h
  have hshares : ∃ r ∈ [(⟨32, 64⟩ : Range)], r.Shares ⟨64, 8192⟩ :=
    ⟨⟨32, 64⟩, List.mem_cons_self, 64, by decide, by decide⟩
  have hused := h 0 hshares
  revert hused
  decide

/-- A range of whole blocks and a query that begins inside it. -/
theorem usageTracker_exact_aligned : NoFalseNegative 16384 [] [⟨64, 8192⟩] ⟨4096, 64⟩ := by
  refine (usageTracker_exact 16384 (by decide) [] [⟨64, 8192⟩] ?_ ⟨4096, 64⟩ (by decide)).2 ?_
  · intro r hr
    rw [List.mem_singleton.1 hr]
    decide
  · rintro -
    refine ⟨⟨64, 8192⟩, List.mem_cons_self, 64, ?_, ?_⟩
    · exact Or.inr (Or.inl (by decide))
    · exact Or.inl (by decide)

end UsageTracker

end Suyu.VideoCore
