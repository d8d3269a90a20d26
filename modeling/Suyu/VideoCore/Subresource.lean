import Mathlib
import Suyu.VideoCore.LevelLayout

/-
  Subresource - where an image begins inside another one.

  1. **Program** - `TryFindBase` looks an address up in the offsets of an image's levels or slices.
     `FindSubresource`, `IsSubCopy` and `ResolveOverlapRightAddress3D` then check that what begins there
     fits: its levels, its layers, and for a volume its slices.

  2. **Specification (`Inside`)** - the levels, the layers and the slices from the place on are there.

  3. **When it goes wrong** - a mip level of a volume has `depth >> level` slices, and all three functions
     shift the depth LEFT.

  Whether two formats may be views of each other is a parameter.  The layer of the image has less than
  2^32 bytes, and a candidate less than 2^31 slices (`Sized`).
-/

namespace Suyu.VideoCommon

/-! ## The program -/

structure ImageBase where
  info : ImageInfo
  guestSizeBytes : Nat
  gpuAddr : Nat
  mipLevelOffsets : List Nat
  sliceOffsets : List Nat
  sliceSubresources : List SubresourceBase

/-- The constructor. -/
def ImageBase.create (info : ImageInfo) (gpuAddr : Nat) : ImageBase where
  info := info
  guestSizeBytes := calculateGuestSizeInBytes info
  gpuAddr := gpuAddr
  mipLevelOffsets := calculateMipLevelOffsets info
  sliceOffsets := if info.type = .e3D then calculateSliceOffsets info else []
  sliceSubresources := if info.type = .e3D then calculateSliceSubresources info else []

/-- The base layer and the offset in the layer. -/
def layerMipOffset (diff layerStride : Nat) : Nat × Nat :=
  if layerStride = 0 then (0, diff) else (diff / layerStride, diff % layerStride)

/-- The slice at an offset: the first one if there are more. -/
def findSlice (offsets : List Nat) (subresources : List SubresourceBase) (diff : Nat) :
    Option SubresourceBase :=
  (offsets.idxOf? diff).bind fun i => subresources[i]?

def ImageBase.tryFindBase (image : ImageBase) (otherAddr : Nat) : Option SubresourceBase :=
  if otherAddr < image.gpuAddr then none
  else
    let diff := u32 (otherAddr - image.gpuAddr)
    if diff > image.guestSizeBytes then none
    else if image.info.type ≠ .e3D then
      let (layer, mipOffset) := layerMipOffset diff image.info.layerStride
      match (image.mipLevelOffsets.take image.info.resources.levels).idxOf? mipOffset with
      | none => none
      | some level => if layer > image.info.resources.layers then none else some ⟨level, layer⟩
    else findSlice image.sliceOffsets image.sliceSubresources diff

def isLayerStrideCompatible (lhs rhs : ImageInfo) : Bool :=
  decide (lhs.layerStride = 0) || decide (rhs.layerStride = 0) ||
    decide (lhs.layerStride = rhs.layerStride) ||
    decide (lhs.maybeUnalignedLayerStride = rhs.maybeUnalignedLayerStride)

def isBlockLinearSizeCompatible (lhs rhs : ImageInfo) (lhsLevel rhsLevel : Nat) (strictSize : Bool) :
    Bool :=
  let lhsSize :=
    if strictSize then adjustMipSize lhs.size lhsLevel else blockLinearAlignedSize lhs lhsLevel
  let rhsSize :=
    if strictSize then adjustMipSize rhs.size rhsLevel else blockLinearAlignedSize rhs rhsLevel
  decide (lhsSize.width = rhsSize.width) && decide (lhsSize.height = rhsSize.height)

def isBlockLinearSizeCompatibleBPPRelaxed (lhs rhs : ImageInfo) (lhsLevel rhsLevel : Nat) : Bool :=
  let lhsSize := adjustMipSize lhs.size lhsLevel
  let rhsSize := adjustMipSize rhs.size rhsLevel
  decide (alignUpLog2 (lhsSize.width * lhs.format.bytesPerBlock) gobSizeXShift =
      alignUpLog2 (rhsSize.width * rhs.format.bytesPerBlock) gobSizeXShift) &&
    decide (alignUpLog2 lhsSize.height gobSizeYShift = alignUpLog2 rhsSize.height gobSizeYShift)

/-- `mip_depth`, as all three functions have it. -/
def mipDepth (depth level : Nat) : Nat := max 1 (u32 (depth <<< level))

/-- What `FindSubresource` and `IsSubCopy` both check of the place. -/
def fits (existing candidate : ImageInfo) (base : SubresourceBase) : Bool :=
  !decide (existing.resources.levels < candidate.resources.levels + base.level) &&
    if existing.type = .e3D then
      !decide (mipDepth existing.size.depth base.level < u32 (candidate.size.depth + base.layer))
    else !decide (existing.resources.layers < candidate.resources.layers + base.layer)

structure RelaxedOptions where
  size : Bool
  format : Bool
  samples : Bool

section FindSubresource

variable (isViewCompatible : PixelFormat → PixelFormat → Bool → Bool → Bool)

def findSubresource (candidate : ImageInfo) (image : ImageBase) (candidateAddr : Nat)
    (options : RelaxedOptions) (brokenViews nativeBgr : Bool) : Option SubresourceBase :=
  match image.tryFindBase candidateAddr with
  | none => none
  | some base =>
    let existing := image.info
    if options.format = true ∧ existing.format.bytesPerBlock ≠ candidate.format.bytesPerBlock then none
    else if options.format = false ∧
        isViewCompatible existing.format candidate.format brokenViews nativeBgr = false then none
    else if isLayerStrideCompatible existing candidate = false then none
    else if existing.type ≠ candidate.type then none
    else if options.samples = false ∧ existing.numSamples ≠ candidate.numSamples then none
    else if fits existing candidate base = false then none
    else if isBlockLinearSizeCompatible existing candidate base.level 0 (!options.size) = false then none
    else some base

end FindSubresource

def isSubCopy (candidate : ImageInfo) (image : ImageBase) (candidateAddr : Nat) : Bool :=
  match image.tryFindBase candidateAddr with
  | none => false
  | some base =>
    fits image.info candidate base &&
      isBlockLinearSizeCompatibleBPPRelaxed image.info candidate base.level 0

/-- The difference of two addresses of 64 bits, in 32 bits. -/
def addressDiff (lhs rhs : Nat) : Nat := u32 (lhs + 2 ^ 64 - rhs)

def resolveOverlapRightAddress3D (newInfo : ImageInfo) (gpuAddr : Nat) (overlap : ImageBase)
    (strictSize : Bool) : Option SubresourceExtent :=
  match findSlice (calculateSliceOffsets newInfo) (calculateSliceSubresources newInfo)
    (addressDiff overlap.gpuAddr gpuAddr) with
  | none => none
  | some base =>
    let info := overlap.info
    if isBlockLinearSizeCompatible newInfo info base.level 0 strictSize = false then none
    else if mipDepth newInfo.size.depth base.level < u32 (info.size.depth + base.layer) then none
    else if mipBlockSize newInfo base.level ≠ info.block then none
    else some ⟨max newInfo.resources.levels (info.resources.levels + base.level), 1⟩

/-! ## The specification -/

/-- From the place on there is room for the candidate in an image with `levels` levels. -/
def Inside (info : ImageInfo) (levels : Nat) (candidate : ImageInfo) (base : SubresourceBase) : Prop :=
  base.level + candidate.resources.levels ≤ levels ∧
    if info.type = .e3D then
      base.layer + candidate.size.depth ≤ max 1 (info.size.depth >>> base.level)
    else base.layer + candidate.resources.layers ≤ info.resources.layers

instance (info : ImageInfo) (levels : Nat) (candidate : ImageInfo) (base : SubresourceBase) :
    Decidable (Inside info levels candidate base) :=
  inferInstanceAs (Decidable (_ ∧ _))

/-- Images have less than 2^31 slices. -/
def Sized (info : ImageInfo) : Prop := info.size.depth < 2 ^ 31

/-- Whatever the three functions find in an image is inside. -/
structure FindsInside (isViewCompatible : PixelFormat → PixelFormat → Bool → Bool → Bool)
    (info : ImageInfo) : Prop where
  subresource : ∀ gpuAddr candidate candidateAddr options brokenViews nativeBgr base, Sized candidate →
    findSubresource isViewCompatible candidate (.create info gpuAddr) candidateAddr options brokenViews
      nativeBgr = some base → Inside info info.resources.levels candidate base
  subCopy : ∀ gpuAddr candidate candidateAddr, Sized candidate →
    isSubCopy candidate (.create info gpuAddr) candidateAddr = true →
      ∃ base, (ImageBase.create info gpuAddr).tryFindBase candidateAddr = some base ∧
        Inside info info.resources.levels candidate base
  overlap : info.type = .e3D → ∀ gpuAddr overlap strictSize merged, Sized overlap.info →
    resolveOverlapRightAddress3D info gpuAddr overlap strictSize = some merged →
      ∃ base, findSlice (calculateSliceOffsets info) (calculateSliceSubresources info)
          (addressDiff overlap.gpuAddr gpuAddr) = some base ∧
        Inside info merged.levels overlap.info base

/-! ## The slices -/

theorem findSlice_map (f : SubresourceBase → Nat) (bases : List SubresourceBase) (diff : Nat) :
    findSlice (bases.map f) bases diff = bases.find? fun base => decide (f base = diff) := by
  induction bases with
  | nil => rfl
  | cons base bases ih =>
    rw [findSlice] at ih ⊢
    rw [List.map_cons, List.idxOf?_cons, List.find?_cons]
    by_cases h : f base = diff
    · simp [h]
    · rw [if_neg (by simpa using h), decide_eq_false h, ← ih]
      cases (bases.map f).idxOf? diff <;> rfl

variable {info candidate : ImageInfo} {base : SubresourceBase} {gpuAddr : Nat}
    {isViewCompatible : PixelFormat → PixelFormat → Bool → Bool → Bool}

theorem mem_calculateSliceSubresources : base ∈ calculateSliceSubresources info ↔
      base.level < info.resources.levels ∧
          base.layer < adjustMipDimension info.size.depth base.level := by
  obtain ⟨level, layer⟩ := base
  simp only [calculateSliceSubresources, List.mem_flatMap, List.mem_map, List.mem_range,
    SubresourceBase.mk.injEq]
  constructor
  · rintro ⟨_, hlevel, _, hlayer, rfl, rfl⟩
    exact ⟨hlevel, hlayer⟩
  · rintro ⟨hlevel, hlayer⟩; exact ⟨level, hlevel, layer, hlayer, rfl, rfl⟩

theorem mem_of_findSlice {diff : Nat}
    (h : findSlice (calculateSliceOffsets info) (calculateSliceSubresources info) diff = some base) :
    base ∈ calculateSliceSubresources info := by
  rw [calculateSliceOffsets, findSlice_map] at h; exact List.mem_of_find?_eq_some h

theorem mem_of_tryFindBase (h3D : info.type = .e3D) {otherAddr : Nat}
    (h : (ImageBase.create info gpuAddr).tryFindBase otherAddr = some base) :
    base ∈ calculateSliceSubresources info := by
  simp only [ImageBase.tryFindBase, ImageBase.create, h3D, ne_eq, not_true_eq_false, if_false,
      if_true] at h
  by_cases hbelow : otherAddr < gpuAddr
  · rw [if_pos hbelow] at h
    cases h
  · rw [if_neg hbelow] at h
    by_cases hpast : u32 (otherAddr - gpuAddr) > calculateGuestSizeInBytes info
    · rw [if_pos hpast] at h
      cases h
    · rw [if_neg hpast] at h; exact mem_of_findSlice h

/-! ## Inside -/

theorem mipDepth_eq {depth level : Nat} (hdepth : depth < 2 ^ 32) (h : level = 0 ∨ depth = 0) :
    mipDepth depth level = max 1 (depth >>> level) := by
  rcases h with rfl | rfl
  · rw [mipDepth, Nat.shiftLeft_zero, u32_of_lt hdepth, Nat.shiftRight_zero]
  · rw [mipDepth, Nat.zero_shiftLeft, Nat.zero_shiftRight, u32_of_lt (by decide)]

theorem slices_inside (hinfo : Sized info) (hcandidate : Sized candidate)
    (hbase : base ∈ calculateSliceSubresources info) (hflat : base.level = 0 ∨ info.size.depth = 0)
    (h : ¬ mipDepth info.size.depth base.level < u32 (candidate.size.depth + base.layer)) :
    base.layer + candidate.size.depth ≤ max 1 (info.size.depth >>> base.level) := by
  rw [Sized] at hinfo hcandidate
  obtain ⟨-, hlayer⟩ := mem_calculateSliceSubresources.mp hbase
  have hanti : adjustMipDimension info.size.depth base.level ≤
      adjustMipDimension info.size.depth 0 := adjustMipDimension_anti (Nat.zero_le base.level)
  have hzero : adjustMipDimension info.size.depth 0 = max info.size.depth 1 := rfl
  rw [mipDepth_eq (by omega) hflat, u32_of_lt (by omega)] at h
  omega

/-- All that is found in the image begins at level 0, or where there is no depth. -/
def Flat (info : ImageInfo) : Prop := info.type ≠ .e3D ∨ info.resources.levels ≤ 1 ∨ info.size.depth = 0

theorem Flat.of_mem (hflat : Flat info) (h3D : info.type = .e3D)
    (hbase : base ∈ calculateSliceSubresources info) : base.level = 0 ∨ info.size.depth = 0 := by
  obtain ⟨hlevel, -⟩ := mem_calculateSliceSubresources.mp hbase
  rcases hflat with hne | hlevels | hdepth
  · exact absurd h3D hne
  · exact .inl (by omega)
  · exact .inr hdepth

theorem inside_of_fits (hinfo : Sized info) (hcandidate : Sized candidate) {otherAddr : Nat}
    (hbase : (ImageBase.create info gpuAddr).tryFindBase otherAddr = some base)
    (hplace : info.type = .e3D → base ∈ calculateSliceSubresources info →
      base.level = 0 ∨ info.size.depth = 0) (h : fits info candidate base = true) :
    Inside info info.resources.levels candidate base := by
  rw [fits, Bool.and_eq_true] at h
  obtain ⟨hlevels, hrest⟩ := h
  constructor
  · have hle : ¬ info.resources.levels < candidate.resources.levels + base.level := by simpa using hlevels
    omega
  · by_cases h3D : info.type = .e3D
    · rw [if_pos h3D] at hrest ⊢
      have hmem := mem_of_tryFindBase h3D hbase
      exact slices_inside hinfo hcandidate hmem (hplace h3D hmem) (by simpa using hrest)
    · rw [if_neg h3D] at hrest ⊢
      have hle : ¬ info.resources.layers < candidate.resources.layers + base.layer := by simpa using hrest
      omega

theorem findSubresource_fits {image : ImageBase} {candidateAddr : Nat} {options : RelaxedOptions}
    {brokenViews nativeBgr : Bool}
    (h : findSubresource isViewCompatible candidate image candidateAddr options brokenViews nativeBgr =
      some base) :
    image.tryFindBase candidateAddr = some base ∧ fits image.info candidate base = true := by
  rw [findSubresource] at h
  cases hfind : image.tryFindBase candidateAddr with
  | none => simp [hfind] at h
  | some found =>
    simp only [hfind, Option.ite_none_left_eq_some, Option.some.injEq] at h
    obtain ⟨-, -, -, -, -, hfits, -, rfl⟩ := h; exact ⟨rfl, by simpa using hfits⟩

/-- A single candidate that is found at level 0 is inside, whatever the image. -/
theorem findSubresource_inside {candidateAddr : Nat} {options : RelaxedOptions}
    {brokenViews nativeBgr : Bool} (hinfo : Sized info) (hcandidate : Sized candidate)
    (h : findSubresource isViewCompatible candidate (.create info gpuAddr) candidateAddr options brokenViews
      nativeBgr = some base) (hlevel : base.level = 0) :
    Inside info info.resources.levels candidate base := by
  obtain ⟨hbase, hfits⟩ := findSubresource_fits h
  exact inside_of_fits hinfo hcandidate hbase (fun _ _ => Or.inl hlevel) hfits

theorem resolveOverlapRightAddress3D_some {newInfo : ImageInfo} {overlap : ImageBase}
    {strictSize : Bool} {merged : SubresourceExtent}
    (h : resolveOverlapRightAddress3D newInfo gpuAddr overlap strictSize = some merged) :
    ∃ base, findSlice (calculateSliceOffsets newInfo) (calculateSliceSubresources newInfo)
        (addressDiff overlap.gpuAddr gpuAddr) = some base ∧
      ¬ mipDepth newInfo.size.depth base.level < u32 (overlap.info.size.depth + base.layer) ∧
      merged = ⟨max newInfo.resources.levels (overlap.info.resources.levels + base.level), 1⟩ := by
  rw [resolveOverlapRightAddress3D] at h
  cases hfind : findSlice (calculateSliceOffsets newInfo) (calculateSliceSubresources newInfo)
      (addressDiff overlap.gpuAddr gpuAddr) with
  | none => simp [hfind] at h
  | some base =>
    simp only [hfind, Option.ite_none_left_eq_some, Option.some.injEq] at h
    obtain ⟨-, hdepth, -, rfl⟩ := h; exact ⟨base, rfl, hdepth, rfl⟩

theorem depth_lt_of_layerSize (hlevels : 0 < info.resources.levels)
    (hsize : calculateLayerSize info < 2 ^ 32) : info.size.depth < 2 ^ 24 := by
  by_contra hdepth
  have hslice : info.size.depth - 1 < adjustMipDimension info.size.depth 0 := by
    show _ < max info.size.depth 1
    omega
  have hlt : sliceOffset (makeLevelInfo info) 0 (info.size.depth - 1) <
      calculateLevelSize (makeLevelInfo info) 0 :=
    sliceOffset_lt info.format.block_pos.1 info.format.block_pos.2 hslice
  have hle : (info.size.depth - 1) * 2 ^ gobSizeShift ≤
      sliceOffset (makeLevelInfo info) 0 (info.size.depth - 1) :=
    slice_mul_le_sliceOffset 0 (info.size.depth - 1) info.format.block_pos.1 info.format.block_pos.2
  have hlevel : calculateLevelSize (makeLevelInfo info) 0 ≤ calculateLayerSize info :=
    Finset.single_le_sum (f := fun l => calculateLevelSize (makeLevelInfo info) l)
      (fun _ _ => Nat.zero_le _) (Finset.mem_range.mpr hlevels)
  have hgob : (2 : Nat) ^ gobSizeShift = 512 := rfl
  rw [hgob] at hle
  omega

theorem sized_of_layerSize (hlevels : 0 < info.resources.levels)
    (hsize : calculateLayerSize info < 2 ^ 32) : Sized info :=
  (depth_lt_of_layerSize hlevels hsize).trans (by decide)

theorem findsInside_of_flat (isViewCompatible : PixelFormat → PixelFormat → Bool → Bool → Bool)
    (hinfo : Sized info) (hflat : Flat info) : FindsInside isViewCompatible info where
  subresource := by
    intro gpuAddr candidate candidateAddr options brokenViews nativeBgr base hcandidate h
    obtain ⟨hbase, hfits⟩ := findSubresource_fits h
    exact inside_of_fits hinfo hcandidate hbase (fun h3D hmem => hflat.of_mem h3D hmem) hfits
  subCopy := by
    intro gpuAddr candidate candidateAddr hcandidate h
    rw [isSubCopy] at h
    cases hbase : (ImageBase.create info gpuAddr).tryFindBase candidateAddr with
    | none => simp [hbase] at h
    | some base =>
      simp only [hbase, Bool.and_eq_true] at h
      exact ⟨base, rfl, inside_of_fits hinfo hcandidate hbase (fun h3D hmem => hflat.of_mem h3D hmem) h.1⟩
  overlap := by
    intro h3D gpuAddr overlap strictSize merged hoverlap h
    obtain ⟨base, hbase, hdepth, rfl⟩ := resolveOverlapRightAddress3D_some h
    have hmem := mem_of_findSlice hbase
    refine ⟨base, hbase, ?_, ?_⟩
    · show _ ≤ max _ _
      omega
    · rw [if_pos h3D]; exact slices_inside hinfo hoverlap hmem (hflat.of_mem h3D hmem) hdepth

/-! ## Past the end -/

theorem findSlice_level_one (hlevels : 1 < info.resources.levels) :
    findSlice (calculateSliceOffsets info) (calculateSliceSubresources info)
      (levelOffset (makeLevelInfo info) 1) = some ⟨1, 0⟩ := by
  obtain ⟨n, hn⟩ : ∃ n, info.resources.levels = n + 2 := ⟨info.resources.levels - 2, by omega⟩
  obtain ⟨k, hk⟩ : ∃ k, adjustMipDimension info.size.depth 1 = k + 1 :=
    ⟨_, (Nat.succ_pred_eq_of_pos (adjustMipDimension_pos _ _)).symm⟩
  rw [calculateSliceOffsets, findSlice_map, calculateSliceSubresources, hn, List.range_succ_eq_map,
    List.range_succ_eq_map, List.map_cons, List.flatMap_cons, List.flatMap_cons, List.find?_append]
  -- no slice of level 0 begins behind level 0
  have hzero :
      ((List.range (adjustMipDimension info.size.depth 0)).map fun slice =>
        (⟨0, slice⟩ : SubresourceBase)).find? (fun base =>
          decide (levelOffset (makeLevelInfo info) base.level +
            sliceOffset (makeLevelInfo info) base.level base.layer =
              levelOffset (makeLevelInfo info) 1)) = none := by
    apply List.find?_eq_none.mpr
    intro base hbase
    obtain ⟨slice, hslice, rfl⟩ := List.mem_map.mp hbase
    have hlt : sliceOffset (makeLevelInfo info) 0 slice <
        calculateLevelSize (makeLevelInfo info) 0 :=
      sliceOffset_lt info.format.block_pos.1 info.format.block_pos.2 (List.mem_range.mp hslice)
    have hone : levelOffset (makeLevelInfo info) 1 = calculateLevelSize (makeLevelInfo info) 0 :=
      Finset.sum_range_one _
    have hnone : levelOffset (makeLevelInfo info) 0 = 0 := rfl
    dsimp only
    rw [decide_eq_true_eq, hone, hnone]; omega
  have hoffset : sliceOffset (makeLevelInfo info) 1 0 = 0 := by
    simp [sliceOffset]
  rw [hzero, Option.none_or, hk, List.range_succ_eq_map, List.map_cons, List.cons_append, List.find?_cons,
    decide_eq_true (by rw [hoffset, Nat.add_zero])]

/-- What the second level of a volume of `info` is taken for, twice as deep as the first. -/
def deepOverlap (info : ImageInfo) : ImageBase where
  info :=
    { info with
      resources := ⟨1, 1⟩
      size :=
        { width := adjustMipDimension info.size.width 1
          height := adjustMipDimension info.size.height 1
          depth := info.size.depth <<< 1 }
      block := mipBlockSize info 1 }
  guestSizeBytes := 0
  gpuAddr := levelOffset (makeLevelInfo info) 1
  mipLevelOffsets := []
  sliceOffsets := []
  sliceSubresources := []

theorem adjustMipDimension_zero {size level : Nat} :
    adjustMipDimension (adjustMipDimension size level) 0 = adjustMipDimension size level := by
  have hpos := adjustMipDimension_pos size level
  generalize adjustMipDimension size level = d at hpos ⊢
  show max d 1 = d
  omega

theorem findSlice_deepOverlap (hlevels : 1 < info.resources.levels)
    (hsize : calculateLayerSize info < 2 ^ 32) :
    findSlice (calculateSliceOffsets info) (calculateSliceSubresources info)
      (addressDiff (deepOverlap info).gpuAddr 0) = some ⟨1, 0⟩ := by
  have hoffset : levelOffset (makeLevelInfo info) 1 ≤ calculateLayerSize info :=
    Finset.sum_le_sum_of_subset (Finset.range_mono (by omega))
  have hdiff : addressDiff (levelOffset (makeLevelInfo info) 1) 0
      = levelOffset (makeLevelInfo info) 1 := by
    rw [addressDiff, u32]; omega
  show findSlice _ _ (addressDiff (levelOffset (makeLevelInfo info) 1) 0) = _
  rw [hdiff, findSlice_level_one hlevels]

theorem resolve_deepOverlap (hlevels : 1 < info.resources.levels)
    (hsize : calculateLayerSize info < 2 ^ 32) :
    resolveOverlapRightAddress3D info 0 (deepOverlap info) true =
      some ⟨max info.resources.levels 2, 1⟩ := by
  have hcompatible : isBlockLinearSizeCompatible info (deepOverlap info).info 1 0 true = true := by
    simp [isBlockLinearSizeCompatible, adjustMipSize, deepOverlap, adjustMipDimension_zero]
  have hdepth : ¬ mipDepth info.size.depth 1 < u32 ((deepOverlap info).info.size.depth + 0) := by
    show ¬ max 1 (u32 (info.size.depth <<< 1)) < u32 (info.size.depth <<< 1 + 0)
    rw [Nat.add_zero]; omega
  have hblock : mipBlockSize info 1 = (deepOverlap info).info.block := rfl
  rw [resolveOverlapRightAddress3D, findSlice_deepOverlap hlevels hsize]
  simp only [hcompatible, hdepth, hblock, ne_eq, not_true_eq_false, if_false, Bool.true_eq_false]
  rfl

theorem flat_of_findsInside (hsize : calculateLayerSize info < 2 ^ 32)
    (h : FindsInside isViewCompatible info) : Flat info := by
  by_contra hflat
  obtain ⟨h3D, hlevels, hdepth⟩ : info.type = .e3D ∧ 1 < info.resources.levels ∧ info.size.depth ≠ 0 := by
    simpa [Flat] using hflat
  have hinfo := depth_lt_of_layerSize (by omega) hsize
  have hoverlap : Sized (deepOverlap info).info := by
    show info.size.depth <<< 1 < 2 ^ 31
    rw [Nat.shiftLeft_eq]; omega
  obtain ⟨base, hbase, -, hroom⟩ := h.overlap h3D 0 (deepOverlap info) true _ hoverlap
    (resolve_deepOverlap hlevels hsize)
  obtain rfl : base = ⟨1, 0⟩ := by
    rw [findSlice_deepOverlap hlevels hsize] at hbase; exact (Option.some.inj hbase).symm
  rw [if_pos h3D] at hroom
  have hdeep : 0 + info.size.depth <<< 1 ≤ max 1 (info.size.depth >>> 1) := hroom
  rw [Nat.shiftLeft_eq, Nat.shiftRight_eq_div_pow] at hdeep
  omega

/-- A volume of 8 x 8 x 4 texels with two levels, in blocks of one GOB. -/
def smallVolume : ImageInfo where
  format := ⟨⟨1, 1⟩, 1, .none, by decide, by decide⟩
  type := .e3D
  resources := ⟨2, 1⟩
  size := ⟨8, 8, 4⟩
  block := ⟨0, 0, 0⟩
  layerStride := 0
  maybeUnalignedLayerStride := 0
  numSamples := 1
  tileWidthSpacing := 0

/-- Whatever is found in an image is inside exactly if the image is no volume with mip levels. -/
theorem subresource_inside_iff (isViewCompatible : PixelFormat → PixelFormat → Bool → Bool → Bool)
    (info : ImageInfo) (hlevels : 0 < info.resources.levels)
    (hsize : calculateLayerSize info < 2 ^ 32) :
    FindsInside isViewCompatible info ↔
      info.type ≠ .e3D ∨ info.resources.levels ≤ 1 ∨ info.size.depth = 0 :=
  ⟨flat_of_findsInside hsize, findsInside_of_flat isViewCompatible (sized_of_layerSize hlevels hsize)⟩

theorem subresource_inside_smallVolume :
    FindsInside (fun _ _ _ _ => true) smallVolume ↔
      smallVolume.type ≠ .e3D ∨ smallVolume.resources.levels ≤ 1 ∨ smallVolume.size.depth = 0 :=
  subresource_inside_iff (fun _ _ _ _ => true) smallVolume (by decide) (by decide +kernel)

/-- As large as level 1 of the small volume, and four times as deep. -/
def deepCandidate : ImageInfo := { smallVolume with resources := ⟨1, 1⟩, size := ⟨4, 4, 8⟩ }

/-- Level 1 of the small volume has two slices; an image of eight is found in it. -/
theorem findSubresource_past_end :
    findSubresource (fun _ _ _ _ => true) deepCandidate (.create smallVolume 0) 2048
        ⟨false, false, false⟩ false false = some ⟨1, 0⟩ ∧
      isSubCopy deepCandidate (.create smallVolume 0) 2048 = true ∧
      resolveOverlapRightAddress3D smallVolume 0 (deepOverlap smallVolume) true = some ⟨2, 1⟩ ∧
      ¬ Inside smallVolume 2 deepCandidate ⟨1, 0⟩ ∧
      ¬ Inside smallVolume 2 (deepOverlap smallVolume).info ⟨1, 0⟩ := by
  decide +kernel

end Suyu.VideoCommon
