import Mathlib
import Suyu.VideoCore.LevelLayout

/-
  ConvertImage - images in a format the host does not have are decompressed, level after level, into one
  buffer.

  1. **Program** - every level is written behind the one before: `output_offset` moves on by the size of
     what was written.  The size of the whole buffer comes from `CalculateConvertedSizeBytes`.  All of
     it is counted in 32 bits.

  2. **Specification (`Separate`)** - what is written for a level (its layers and all its slices) overlaps
     with no other level and is inside the buffer, and the copy of the level begins there.

  3. **The crux (`sum_le_of_disjoint`)** - disjoint regions in a buffer are together no longer than it.
     So sizes that do not fit into 32 bits can not be separate either, whatever the offsets wrap to.

  4. **When it goes wrong** - two of the three ways to convert forget the DEPTH when they move on: the
     second level of a volume is written into the first.
-/

namespace Suyu.VideoCommon

open Set

/-! ## The program -/

inductive AstcRecompression where
  | uncompressed
  | bc1
  | bc3
  deriving DecidableEq

def convertedBytesPerBlock : Compression → Nat
  | .bc4 => 1
  | .bc5 => 2
  | .bc6h => 8
  | _ => 4

/-- `host_bytes_per_layer` of a level. -/
def hostBytesPerLayer (info : ImageInfo) (level : Nat) : Nat :=
  u32 (numBlocks (adjustMipSize info.size level) info.format.defaultBlockSize <<<
    bytesPerBlockLog2 info.format.bytesPerBlock)

/-- `copies[level]` of `UnswizzleImage`. -/
def unswizzledCopy (info : ImageInfo) (level hostOffset : Nat) : BufferImageCopy :=
  let levelSize := adjustMipSize info.size level
  { bufferOffset := hostOffset
    bufferSize := hostBytesPerLayer info level * info.resources.layers
    bufferRowLength := alignUp levelSize.width info.format.defaultBlockSize.width
    bufferImageHeight := alignUp levelSize.height info.format.defaultBlockSize.height
    baseLevel := level
    baseLayer := 0
    numLayers := info.resources.layers
    imageExtent := levelSize }

/-- The copies that `UnswizzleImage` returns, for `n` levels from `level` on. -/
def unswizzledCopies (info : ImageInfo) : Nat → Nat → Nat → List BufferImageCopy
  | 0, _, _ => []
  | n + 1, level, hostOffset =>
    unswizzledCopy info level hostOffset :: unswizzledCopies info n (level + 1)
      (u32 (hostOffset + hostBytesPerLayer info level * info.resources.layers))

def bppDiv (recompression : AstcRecompression) : Nat := if recompression = .bc1 then 2 else 1

/-- How far `output_offset` moves on for a copy. -/
def outputSize (recompression : AstcRecompression) (compression : Compression) (copy : BufferImageCopy) :
    Nat :=
  let extent := copy.imageExtent
  if compression = .astc ∧ recompression = .uncompressed then
    u32 (extent.width * extent.height * copy.numLayers * 4)
  else if compression = .astc then
    u32 (alignUp extent.width 4 * alignUp extent.height 4 * extent.depth * copy.numLayers) /
      bppDiv recompression
  else u32 (extent.width * extent.height * copy.numLayers * convertedBytesPerBlock compression)

/-- The copy after the conversion. -/
def convertedCopy (recompression : AstcRecompression) (info : ImageInfo) (outputOffset : Nat)
    (copy : BufferImageCopy) : BufferImageCopy :=
  let compression := info.format.compression
  let mipSize := adjustMipSize info.size copy.baseLevel
  { copy with
    bufferOffset := outputOffset
    bufferSize :=
      if compression = .astc ∧ recompression ≠ .uncompressed then
        outputSize recompression compression copy
      else copy.bufferSize
    bufferRowLength := mipSize.width
    bufferImageHeight := mipSize.height }

/-- `ConvertImage`: for each copy the place in the output where its level is written, and what becomes
    of the copy. -/
def convertImage (recompression : AstcRecompression) (info : ImageInfo) :
    Nat → List BufferImageCopy → List (Nat × BufferImageCopy)
  | _, [] => []
  | outputOffset, copy :: copies =>
    (outputOffset, convertedCopy recompression info outputOffset copy) ::
      convertImage recompression info
        (u32 (outputOffset + outputSize recompression info.format.compression copy)) copies

def numBlocksPerLayer (info : ImageInfo) (tileSize : Extent2D) : Nat :=
  (List.range info.resources.levels).foldl (fun num level =>
    u32 (num + u32 (numBlocks (adjustMipSize info.size level) tileSize))) 0

/-- `CalculateConvertedSizeBytes`, but for buffers, which are not converted. -/
def calculateConvertedSizeBytes (recompression : AstcRecompression) (info : ImageInfo) : Nat :=
  if info.format.compression = .astc ∧ recompression ≠ .uncompressed then
    (List.range info.resources.levels).foldl (fun outputSize i =>
      let mipSize := adjustMipSize info.size i
      u32 (outputSize + u32 (alignUp mipSize.width 4 * alignUp mipSize.height 4 * info.size.depth *
        info.resources.layers) / bppDiv recompression)) 0
  else
    u32 (numBlocksPerLayer info ⟨1, 1⟩ * info.resources.layers *
      convertedBytesPerBlock info.format.compression)

/-- The conversion of a whole image. -/
def convertLevels (recompression : AstcRecompression) (info : ImageInfo) : List (Nat × BufferImageCopy) :=
  convertImage recompression info 0 (unswizzledCopies info info.resources.levels 0 0)

/-! ## The specification -/

/-- The bytes of a converted level: all layers and all slices. -/
def convertedLevelSize (recompression : AstcRecompression) (info : ImageInfo) (level : Nat) : Nat :=
  let mipSize := adjustMipSize info.size level
  if info.format.compression = .astc ∧ recompression ≠ .uncompressed then
    alignUp mipSize.width 4 * alignUp mipSize.height 4 * mipSize.depth * info.resources.layers /
      bppDiv recompression
  else
    mipSize.width * mipSize.height * mipSize.depth * info.resources.layers *
      convertedBytesPerBlock info.format.compression

/-- The region of a level that is written at `start`. -/
def region (recompression : AstcRecompression) (info : ImageInfo) (level start : Nat) : Set Nat :=
  Ico start (start + convertedLevelSize recompression info level)

structure Separate (recompression : AstcRecompression) (info : ImageInfo) : Prop where
  length_eq : (convertLevels recompression info).length = info.resources.levels
  disjoint : ∀ (i j : Nat) (wi wj : Nat × BufferImageCopy), i < j →
    (convertLevels recompression info)[i]? = some wi →
    (convertLevels recompression info)[j]? = some wj →
    Disjoint (region recompression info i wi.1) (region recompression info j wj.1)
  inside : ∀ (i : Nat) (w : Nat × BufferImageCopy), (convertLevels recompression info)[i]? = some w →
    region recompression info i w.1 ⊆ Iio (calculateConvertedSizeBytes recompression info)
  own : ∀ (i : Nat) (w : Nat × BufferImageCopy), (convertLevels recompression info)[i]? = some w →
    w.2.baseLevel = i ∧ w.2.bufferOffset = w.1

/-! ## Offsets -/

section Offsets

variable (recompression : AstcRecompression) (info : ImageInfo)

/-- How far the offset moves on for a level. -/
def levelOutput (level : Nat) : Nat :=
  outputSize recompression info.format.compression (unswizzledCopy info level 0)

/-- The offset of a level. -/
def offsetAt : Nat → Nat
  | 0 => 0
  | i + 1 => u32 (offsetAt i + levelOutput recompression info i)

theorem length_unswizzledCopies (n level hostOffset : Nat) :
    (unswizzledCopies info n level hostOffset).length = n := by
  induction n generalizing level hostOffset with
  | zero => rfl
  | succ n ih => rw [unswizzledCopies, List.length_cons, ih]

theorem getElem?_unswizzledCopies {n level hostOffset i : Nat} {copy : BufferImageCopy}
    (h : (unswizzledCopies info n level hostOffset)[i]? = some copy) :
    ∃ hostOffset', copy = unswizzledCopy info (level + i) hostOffset' := by
  induction n generalizing level hostOffset i with
  | zero => simp [unswizzledCopies] at h
  | succ n ih =>
    rw [unswizzledCopies] at h
    cases i with
    | zero =>
      rw [List.getElem?_cons_zero] at h; exact ⟨hostOffset, (Option.some.inj h).symm⟩
    | succ i =>
      rw [List.getElem?_cons_succ] at h
      obtain ⟨hostOffset', hcopy⟩ := ih h
      have hlevel : level + 1 + i = level + (i + 1) := by omega
      exact ⟨hostOffset', hlevel ▸ hcopy⟩

theorem convertImage_eq (n level hostOffset : Nat) :
    (convertImage recompression info (offsetAt recompression info level)
      (unswizzledCopies info n level hostOffset)) =
    (unswizzledCopies info n level hostOffset).mapIdx fun i copy =>
      (offsetAt recompression info (level + i),
        convertedCopy recompression info (offsetAt recompression info (level + i)) copy) := by
  induction n generalizing level hostOffset with
  | zero => rfl
  | succ n ih =>
    rw [unswizzledCopies, convertImage, List.mapIdx_cons, Nat.add_zero]
    refine congrArg₂ List.cons rfl ((ih (level + 1) _).trans ?_)
    congr 1
    funext i copy
    rw [Nat.add_right_comm level 1 i, Nat.add_assoc]

theorem length_convertLevels :
    (convertLevels recompression info).length = info.resources.levels := by
  have heq := convertImage_eq recompression info info.resources.levels 0 0
  rw [convertLevels]
  rw [offsetAt] at heq
  rw [heq, List.length_mapIdx, length_unswizzledCopies]

theorem getElem?_convertLevels {i : Nat} {w : Nat × BufferImageCopy}
    (h : (convertLevels recompression info)[i]? = some w) :
    i < info.resources.levels ∧ w.1 = offsetAt recompression info i ∧ w.2.baseLevel = i ∧
      w.2.bufferOffset = w.1 := by
  have hlt : i < (convertLevels recompression info).length := (List.getElem?_eq_some_iff.1 h).1
  rw [length_convertLevels] at hlt
  have heq := convertImage_eq recompression info info.resources.levels 0 0
  rw [offsetAt] at heq
  rw [convertLevels, heq, List.getElem?_mapIdx] at h
  obtain ⟨copy, hcopy, rfl⟩ := Option.map_eq_some_iff.1 h
  obtain ⟨hostOffset, rfl⟩ := getElem?_unswizzledCopies info hcopy
  rw [Nat.zero_add]
  exact ⟨hlt, rfl, rfl, rfl⟩

theorem separate_iff_offsetAt : Separate recompression info ↔
    (∀ i j, i < j → j < info.resources.levels →
      Disjoint (region recompression info i (offsetAt recompression info i))
        (region recompression info j (offsetAt recompression info j))) ∧
    ∀ i < info.resources.levels, region recompression info i (offsetAt recompression info i) ⊆
      Iio (calculateConvertedSizeBytes recompression info) := by
  have hget : ∀ i < info.resources.levels, ∃ w, (convertLevels recompression info)[i]? = some w ∧
      w.1 = offsetAt recompression info i := by
    intro i hi
    rw [← length_convertLevels recompression info] at hi
    have hw := List.getElem?_eq_getElem hi
    exact ⟨_, hw, (getElem?_convertLevels recompression info hw).2.1⟩
  constructor
  · intro h
    constructor
    · intro i j hij hj
      obtain ⟨wi, hwi, hi⟩ := hget i (by omega)
      obtain ⟨wj, hwj, hj'⟩ := hget j hj
      rw [← hi, ← hj']
      exact h.disjoint i j wi wj hij hwi hwj
    · intro i hi
      obtain ⟨w, hw, heq⟩ := hget i hi
      rw [← heq]; exact h.inside i w hw
  · rintro ⟨hdisjoint, hinside⟩
    constructor
    · exact length_convertLevels recompression info
    · intro i j wi wj hij hwi hwj
      obtain ⟨-, hi, -⟩ := getElem?_convertLevels recompression info hwi
      obtain ⟨hj, hj', -⟩ := getElem?_convertLevels recompression info hwj
      rw [hi, hj']
      exact hdisjoint i j hij hj
    · intro i w hw
      obtain ⟨hi, heq, -⟩ := getElem?_convertLevels recompression info hw
      rw [heq]
      exact hinside i hi
    · intro i w hw; exact (getElem?_convertLevels recompression info hw).2.2

end Offsets

/-! ## Disjoint regions -/

theorem sum_le_of_disjoint {start size : Nat → Nat} {n total : Nat}
    (hdisjoint : ∀ i j, i < j → j < n →
      Disjoint (Ico (start i) (start i + size i)) (Ico (start j) (start j + size j)))
    (hinside : ∀ i < n, Ico (start i) (start i + size i) ⊆ Iio total) :
    ∑ i ∈ Finset.range n, size i ≤ total := by
  have hunion : ((Finset.range n).biUnion fun i => Finset.Ico (start i) (start i + size i)) ⊆
      Finset.range total := by
    intro x hx
    obtain ⟨i, hi, hxi⟩ := Finset.mem_biUnion.1 hx
    rw [Finset.mem_range] at hi ⊢; exact hinside i hi (Finset.mem_Ico.1 hxi)
  have hpairwise : ∀ i ∈ Finset.range n, ∀ j ∈ Finset.range n, i ≠ j →
      Disjoint (Finset.Ico (start i) (start i + size i)) (Finset.Ico (start j) (start j + size j)) := by
    intro i hi j hj hne
    rw [Finset.mem_range] at hi hj
    rw [← Finset.disjoint_coe, Finset.coe_Ico, Finset.coe_Ico]
    rcases Nat.lt_or_gt_of_ne hne with hlt | hlt
    · exact hdisjoint i j hlt hj
    · exact (hdisjoint j i hlt hi).symm
  have hcard := Finset.card_le_card hunion
  rw [Finset.card_biUnion hpairwise, Finset.card_range] at hcard
  simpa using hcard

section Regions

variable {recompression : AstcRecompression} {info : ImageInfo}

theorem separate_of_offsetAt_eq
    (hoffset : ∀ i < info.resources.levels, offsetAt recompression info i =
      ∑ k ∈ Finset.range i, convertedLevelSize recompression info k)
    (htotal : ∑ k ∈ Finset.range info.resources.levels, convertedLevelSize recompression info k ≤
      calculateConvertedSizeBytes recompression info) : Separate recompression info := by
  have hend : ∀ i j, i < j → j ≤ info.resources.levels →
      offsetAt recompression info i + convertedLevelSize recompression info i ≤
        ∑ k ∈ Finset.range j, convertedLevelSize recompression info k := by
    intro i j hij hj
    rw [hoffset i (by omega), ← Finset.sum_range_succ]
    exact Finset.sum_le_sum_of_subset (Finset.range_mono hij)
  rw [separate_iff_offsetAt]
  constructor
  · intro i j hij hj
    rw [region, region, Set.disjoint_left]
    intro x hi hj'
    have hle := hend i j hij hj.le
    rw [mem_Ico, hoffset j hj] at hj'
    exact absurd (hi.2.trans_le hle) (by omega)
  · intro i hi x hx; exact (hx.2.trans_le (hend i _ hi le_rfl)).trans_le htotal

theorem offsetAt_eq_sum (hlevel : ∀ i, i + 1 < info.resources.levels →
      levelOutput recompression info i = convertedLevelSize recompression info i)
    (htotal : ∑ k ∈ Finset.range info.resources.levels, convertedLevelSize recompression info k <
      2 ^ 32) {i : Nat} (hi : i < info.resources.levels) :
    offsetAt recompression info i =
      ∑ k ∈ Finset.range i, convertedLevelSize recompression info k := by
  induction i with
  | zero => rfl
  | succ i ih =>
    have hle : ∑ k ∈ Finset.range (i + 1), convertedLevelSize recompression info k ≤
        ∑ k ∈ Finset.range info.resources.levels, convertedLevelSize recompression info k :=
      Finset.sum_le_sum_of_subset (Finset.range_mono hi.le)
    rw [offsetAt, ih (by omega), hlevel i hi, ← Finset.sum_range_succ, u32_of_lt (by omega)]

theorem sum_le_of_separate (h : Separate recompression info) :
    ∑ k ∈ Finset.range info.resources.levels, convertedLevelSize recompression info k ≤
      calculateConvertedSizeBytes recompression info := by
  obtain ⟨hdisjoint, hinside⟩ := (separate_iff_offsetAt recompression info).1 h
  exact sum_le_of_disjoint hdisjoint hinside

theorem not_separate_of_offsetAt_lt (hlevels : 1 < info.resources.levels)
    (hlt : offsetAt recompression info 1 < convertedLevelSize recompression info 0)
    (hpos : 0 < convertedLevelSize recompression info 1) : ¬ Separate recompression info := by
  intro h
  have hdisjoint := ((separate_iff_offsetAt recompression info).1 h).1 0 1 Nat.one_pos hlevels
  have hfirst : offsetAt recompression info 1 ∈ region recompression info 0 0 := by
    rw [region, Nat.zero_add]; exact ⟨Nat.zero_le _, hlt⟩
  exact Set.disjoint_left.1 hdisjoint hfirst ⟨le_rfl, by omega⟩

end Regions

/-! ## Sizes in 32 bits -/

theorem u32_add_u32 (m n : Nat) : u32 (m + u32 n) = u32 (m + n) := Nat.add_mod_mod m n _

theorem u32_u32_mul (m n : Nat) : u32 (u32 m * n) = u32 (m * n) := Nat.mod_mul_mod m n _

theorem foldl_u32 (f : Nat → Nat) (n : Nat) :
    (List.range n).foldl (fun sum i => u32 (sum + f i)) 0 = u32 (∑ i ∈ Finset.range n, f i) := by
  induction n with
  | zero => rfl
  | succ n ih =>
    rw [List.range_succ, List.foldl_append, ih, Finset.sum_range_succ, List.foldl_cons,
      List.foldl_nil, Nat.add_comm, u32_add_u32, Nat.add_comm]

theorem convertedBytesPerBlock_pos (compression : Compression) :
    0 < convertedBytesPerBlock compression := by
  cases compression <;> decide

section Plain

variable {recompression : AstcRecompression} {info : ImageInfo}
  (hplain : ¬ (info.format.compression = .astc ∧ recompression ≠ .uncompressed))
include hplain

theorem convertedLevelSize_of_plain (level : Nat) : convertedLevelSize recompression info level =
    (adjustMipSize info.size level).width * (adjustMipSize info.size level).height *
      (adjustMipSize info.size level).depth * info.resources.layers *
      convertedBytesPerBlock info.format.compression :=
  if_neg hplain

theorem levelOutput_of_plain (level : Nat) : levelOutput recompression info level =
    u32 ((adjustMipSize info.size level).width * (adjustMipSize info.size level).height *
      info.resources.layers * convertedBytesPerBlock info.format.compression) := by
  rw [levelOutput, outputSize]
  by_cases hastc : info.format.compression = .astc
  · have hsetting : recompression = .uncompressed := by
      by_contra hne
      exact hplain ⟨hastc, hne⟩
    rw [if_pos ⟨hastc, hsetting⟩, hastc]
    rfl
  · rw [if_neg (fun h => hastc h.1), if_neg hastc]; rfl

theorem calculateConvertedSizeBytes_of_plain : calculateConvertedSizeBytes recompression info =
    u32 (∑ k ∈ Finset.range info.resources.levels, convertedLevelSize recompression info k) := by
  have hblocks : ∀ level, numBlocks (adjustMipSize info.size level) ⟨1, 1⟩ =
      (adjustMipSize info.size level).width * (adjustMipSize info.size level).height *
        (adjustMipSize info.size level).depth := by
    intro level; simp [numBlocks, adjustTileSize, divCeil]
  rw [calculateConvertedSizeBytes, if_neg hplain, numBlocksPerLayer]
  simp only [u32_add_u32, hblocks, convertedLevelSize_of_plain hplain]
  rw [foldl_u32, Nat.mul_assoc, u32_u32_mul, Finset.sum_mul]
  simp [Nat.mul_assoc]

theorem separate_iff_of_plain (hlayers : 0 < info.resources.layers)
    (hlevels : 0 < info.resources.levels) :
    Separate recompression info ↔
      (info.resources.levels ≤ 1 ∨ info.size.depth ≤ 1) ∧
        ∑ k ∈ Finset.range info.resources.levels, convertedLevelSize recompression info k < 2 ^ 32 := by
  have hdim := fun level => (⟨adjustMipDimension_pos info.size.width level,
    adjustMipDimension_pos info.size.height level, adjustMipDimension_pos info.size.depth level⟩ :
      0 < (adjustMipSize info.size level).width ∧ 0 < (adjustMipSize info.size level).height ∧
        0 < (adjustMipSize info.size level).depth)
  have hbytes := convertedBytesPerBlock_pos info.format.compression
  have hpos : ∀ level, 0 < convertedLevelSize recompression info level := by
    intro level
    obtain ⟨hw, hh, hd⟩ := hdim level
    rw [convertedLevelSize_of_plain hplain]
    positivity
  constructor
  · intro h
    have hsum : ∑ k ∈ Finset.range info.resources.levels, convertedLevelSize recompression info k <
        2 ^ 32 := by
      have hle := sum_le_of_separate h
      rw [calculateConvertedSizeBytes_of_plain hplain] at hle
      exact hle.trans_lt (u32_lt _)
    refine ⟨?_, hsum⟩
    -- with two levels and a depth the second one begins inside the first
    by_contra hno
    rw [not_or, Nat.not_le, Nat.not_le] at hno
    refine not_separate_of_offsetAt_lt hno.1 ?_ (hpos 1) h
    have hdepth : 1 < (adjustMipSize info.size 0).depth := by
      show 1 < max (info.size.depth >>> 0) 1
      rw [Nat.shiftRight_zero]; omega
    obtain ⟨hw, hh, -⟩ := hdim 0
    rw [offsetAt, offsetAt, Nat.zero_add, levelOutput_of_plain hplain,
      convertedLevelSize_of_plain hplain]
    calc u32 (u32 _) ≤ _ := (u32_le _).trans (u32_le _)
      _ < _ := by
        apply Nat.mul_lt_mul_of_pos_right _ hbytes
        apply Nat.mul_lt_mul_of_pos_right _ hlayers
        exact lt_mul_of_one_lt_right (Nat.mul_pos hw hh) hdepth
  · rintro ⟨hshape, hsum⟩
    refine separate_of_offsetAt_eq (fun i hi => offsetAt_eq_sum ?_ hsum hi) ?_
    · intro i hi
      have hdepth : (adjustMipSize info.size i).depth = 1 := by
        have hle := @adjustMipDimension_anti info.size.depth 0 i (Nat.zero_le i)
        have hone : adjustMipDimension info.size.depth 0 = 1 := by
          rw [adjustMipDimension, Nat.shiftRight_zero]; omega
        exact Nat.le_antisymm (hle.trans hone.le) (hdim i).2.2
      have hlt : convertedLevelSize recompression info i < 2 ^ 32 := by
        refine lt_of_le_of_lt ?_ hsum
        exact Finset.single_le_sum (f := convertedLevelSize recompression info)
          (fun _ _ => Nat.zero_le _) (Finset.mem_range.2 (by omega))
      rw [convertedLevelSize_of_plain hplain, hdepth, Nat.mul_one] at hlt ⊢
      rw [levelOutput_of_plain hplain, u32_of_lt hlt]
    · rw [calculateConvertedSizeBytes_of_plain hplain, u32_of_lt hsum]

end Plain

section Recompressed

variable {recompression : AstcRecompression} {info : ImageInfo}

/-- `aligned_plane_dim` of a level. -/
def alignedPlaneDim (info : ImageInfo) (level : Nat) : Nat :=
  alignUp (adjustMipSize info.size level).width 4 * alignUp (adjustMipSize info.size level).height 4

theorem alignUp_anti {i j n : Nat} (h : i ≤ j) :
    alignUp (adjustMipDimension n j) 4 ≤ alignUp (adjustMipDimension n i) 4 := by
  have hle := @adjustMipDimension_anti n i j h
  rw [alignUp_four, alignUp_four]
  omega

theorem alignedPlaneDim_anti {i j : Nat} (h : i ≤ j) :
    alignedPlaneDim info j ≤ alignedPlaneDim info i :=
  Nat.mul_le_mul (alignUp_anti h) (alignUp_anti h)

theorem le_alignedPlaneDim (info : ImageInfo) (level : Nat) : 16 ≤ alignedPlaneDim info level := by
  have halign : ∀ n, 0 < n → 4 ≤ alignUp n 4 := by
    intro n hn
    rw [alignUp_four]; omega
  calc 16 = 4 * 4 := rfl
    _ ≤ _ := Nat.mul_le_mul (halign _ (adjustMipDimension_pos _ _))
        (halign _ (adjustMipDimension_pos _ _))

theorem bppDiv_cases (recompression : AstcRecompression) :
    bppDiv recompression = 1 ∨ bppDiv recompression = 2 := by
  rw [bppDiv]
  split
  · exact Or.inr rfl
  · exact Or.inl rfl

variable (hastc : info.format.compression = .astc ∧ recompression ≠ .uncompressed)
include hastc

theorem convertedLevelSize_of_astc (level : Nat) : convertedLevelSize recompression info level =
    alignedPlaneDim info level * (adjustMipSize info.size level).depth * info.resources.layers /
      bppDiv recompression :=
  if_pos hastc

theorem levelOutput_of_astc (level : Nat) : levelOutput recompression info level =
    u32 (alignedPlaneDim info level * (adjustMipSize info.size level).depth * info.resources.layers) /
      bppDiv recompression := by
  rw [levelOutput, outputSize, if_neg (fun h => hastc.2 h.2), if_pos hastc.1]; rfl

theorem calculateConvertedSizeBytes_of_astc : calculateConvertedSizeBytes recompression info =
    u32 (∑ k ∈ Finset.range info.resources.levels,
      u32 (alignedPlaneDim info k * info.size.depth * info.resources.layers) /
        bppDiv recompression) := by
  rw [calculateConvertedSizeBytes, if_pos hastc, ← foldl_u32]; rfl

theorem separate_iff_of_astc (hlayers : 0 < info.resources.layers) (hlevels : 0 < info.resources.levels) :
    Separate recompression info ↔
      alignedPlaneDim info 0 * (adjustMipSize info.size 0).depth * info.resources.layers < 2 ^ 32 ∧
        ∑ k ∈ Finset.range info.resources.levels, convertedLevelSize recompression info k ≤
          u32 (∑ k ∈ Finset.range info.resources.levels,
            alignedPlaneDim info k * info.size.depth * info.resources.layers / bppDiv recompression) := by
  have hdiv : 0 < bppDiv recompression := by
    rcases bppDiv_cases recompression with h | h <;> omega
  have hdepth : info.size.depth ≤ (adjustMipSize info.size 0).depth := by
    show info.size.depth ≤ max (info.size.depth >>> 0) 1
    rw [Nat.shiftRight_zero]; exact Nat.le_max_left _ _
  -- every product is at most the first one
  have hfirst : ∀ level depth, depth ≤ (adjustMipSize info.size 0).depth →
      alignedPlaneDim info level * depth * info.resources.layers ≤
        alignedPlaneDim info 0 * (adjustMipSize info.size 0).depth * info.resources.layers := by
    intro level depth hle
    exact Nat.mul_le_mul_right _ (Nat.mul_le_mul (alignedPlaneDim_anti (Nat.zero_le level)) hle)
  have htotal : alignedPlaneDim info 0 * (adjustMipSize info.size 0).depth * info.resources.layers <
      2 ^ 32 → calculateConvertedSizeBytes recompression info =
        u32 (∑ k ∈ Finset.range info.resources.levels,
          alignedPlaneDim info k * info.size.depth * info.resources.layers / bppDiv recompression) := by
    intro hlt
    rw [calculateConvertedSizeBytes_of_astc hastc]
    congr 1
    refine Finset.sum_congr rfl fun k _ => ?_
    rw [u32_of_lt ((hfirst k _ hdepth).trans_lt hlt)]
  constructor
  · intro h
    have hsum := sum_le_of_separate h
    have hlt : alignedPlaneDim info 0 * (adjustMipSize info.size 0).depth * info.resources.layers <
        2 ^ 32 := by
      by_contra hge
      rw [Nat.not_lt] at hge
      -- the first level wraps: what is behind it, or the buffer, ends before it
      have hwrap : ∀ n, u32 n / bppDiv recompression < convertedLevelSize recompression info 0 := by
        intro n
        have hn := u32_lt n
        rw [convertedLevelSize_of_astc hastc]
        rcases bppDiv_cases recompression with hone | htwo
        · rw [hone, Nat.div_one, Nat.div_one]
          omega
        · rw [htwo]; omega
      rcases Nat.lt_or_ge 1 info.resources.levels with hmore | hone
      · refine not_separate_of_offsetAt_lt hmore ?_ ?_ h
        · rw [offsetAt, offsetAt, Nat.zero_add, levelOutput_of_astc hastc]
          exact (u32_le _).trans_lt (hwrap _)
        · have hplane := le_alignedPlaneDim info 1
          have hd : 0 < (adjustMipSize info.size 1).depth := adjustMipDimension_pos _ _
          rw [convertedLevelSize_of_astc hastc]
          apply Nat.div_pos _ hdiv
          calc bppDiv recompression ≤ 16 := by rcases bppDiv_cases recompression with h | h <;> omega
            _ ≤ alignedPlaneDim info 1 := hplane
            _ ≤ alignedPlaneDim info 1 * (adjustMipSize info.size 1).depth := Nat.le_mul_of_pos_right _ hd
            _ ≤ _ := Nat.le_mul_of_pos_right _ hlayers
      · have hlevel : info.resources.levels = 1 := by omega
        rw [calculateConvertedSizeBytes_of_astc hastc, hlevel, Finset.sum_range_one,
          Finset.sum_range_one] at hsum
        exact absurd (hsum.trans (u32_le _)) (Nat.not_le.2 (hwrap _))
    rw [htotal hlt] at hsum
    exact ⟨hlt, hsum⟩
  · rintro ⟨hlt, hsum⟩
    have hsmall := hsum.trans_lt (u32_lt _)
    refine separate_of_offsetAt_eq (fun i hi => offsetAt_eq_sum ?_ hsmall hi) ?_
    · intro i _
      have hle := hfirst i (adjustMipSize info.size i).depth (adjustMipDimension_anti (Nat.zero_le i))
      rw [levelOutput_of_astc hastc, convertedLevelSize_of_astc hastc, u32_of_lt (hle.trans_lt hlt)]
    · rw [htotal hlt]; exact hsum

end Recompressed

/-! ## Result -/

/-- The sizes fit into 32 bits, and, unless ASTC textures are compressed again, there is one level or no
    depth. -/
def Fits (recompression : AstcRecompression) (info : ImageInfo) : Prop :=
  if info.format.compression = .astc ∧ recompression ≠ .uncompressed then
    alignedPlaneDim info 0 * (adjustMipSize info.size 0).depth * info.resources.layers < 2 ^ 32 ∧
      ∑ k ∈ Finset.range info.resources.levels, convertedLevelSize recompression info k ≤
        u32 (∑ k ∈ Finset.range info.resources.levels,
          alignedPlaneDim info k * info.size.depth * info.resources.layers / bppDiv recompression)
  else
    (info.resources.levels ≤ 1 ∨ info.size.depth ≤ 1) ∧
      ∑ k ∈ Finset.range info.resources.levels, convertedLevelSize recompression info k < 2 ^ 32

/-- CONVERTED LEVELS DO NOT OVERLAP exactly if there is nothing to write, or the image fits. -/
theorem convertImage_separate_iff (recompression : AstcRecompression) (info : ImageInfo) :
    Separate recompression info ↔
      info.resources.layers = 0 ∨ info.resources.levels = 0 ∨ Fits recompression info := by
  rcases Nat.eq_zero_or_pos info.resources.layers with hlayers | hlayers
  · -- no layer, no byte
    refine iff_of_true ?_ (Or.inl hlayers)
    have hempty : ∀ level start, region recompression info level start = ∅ := by
      intro level start
      have hzero : convertedLevelSize recompression info level = 0 := by
        rw [convertedLevelSize, hlayers]; simp
      rw [region, hzero, Nat.add_zero, Ico_self]
    rw [separate_iff_offsetAt]; simp [hempty]
  rcases Nat.eq_zero_or_pos info.resources.levels with hlevels | hlevels
  · refine iff_of_true ?_ (Or.inr (Or.inl hlevels))
    rw [separate_iff_offsetAt, hlevels]
    exact ⟨fun i j _ hj => absurd hj (Nat.not_lt_zero j), fun i hi => absurd hi (Nat.not_lt_zero i)⟩
  have hfits : (info.resources.layers = 0 ∨ info.resources.levels = 0 ∨ Fits recompression info) ↔
      Fits recompression info := by
    constructor
    · rintro (h | h | h)
      · omega
      · omega
      · exact h
    · exact fun h => Or.inr (Or.inr h)
  rw [hfits, Fits]
  by_cases hastc : info.format.compression = .astc ∧ recompression ≠ .uncompressed
  · rw [if_pos hastc]
    exact separate_iff_of_astc hastc hlayers hlevels
  · rw [if_neg hastc]; exact separate_iff_of_plain hastc hlayers hlevels

/-- A volume of 8 x 8 x 4 texels with two levels. -/
def volume (format : PixelFormat) : ImageInfo :=
  ⟨format, .e3D, ⟨2, 1⟩, ⟨8, 8, 4⟩, ⟨0, 0, 0⟩, 0, 0, 1, 0⟩

def bc1Format : PixelFormat := ⟨⟨4, 4⟩, 8, .bc1, by decide, by decide⟩

/-- The first level has 1024 bytes, and the second one is written at byte 256. -/
theorem convertImage_overlaps : ¬ Separate .bc3 (volume bc1Format) := by
  apply not_separate_of_offsetAt_lt <;> decide

end Suyu.VideoCommon
