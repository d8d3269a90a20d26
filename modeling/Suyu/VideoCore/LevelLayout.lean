import Mathlib
import Suyu.VideoCore.ImageInfo

/-
  The guest layout of a block-linear image: the tiles of its levels and where the levels and the slices
  begin.

  The helpers are those of the texture cache, one for one.  Two of them shrink a block for a small
  level, `AdjustTileSize` for the size of the level and `AdjustMipBlockSize` for the swizzler; both stop
  at the first block that the level needs more than half of (`shrinkBlock`), and they differ in the
  image with ONE level.  The dimensions are natural numbers: no image has 2^32 bytes.
-/

namespace Suyu.VideoCommon

def gobSizeXShift : Nat := 6
def gobSizeYShift : Nat := 3
def gobSizeZShift : Nat := 0
def gobSizeShift : Nat := gobSizeXShift + gobSizeYShift + gobSizeZShift
def gobSizeX : Nat := 1 <<< gobSizeXShift
def gobSizeY : Nat := 1 <<< gobSizeYShift
def gobSizeZ : Nat := 1 <<< gobSizeZShift
def maxMipLevels : Nat := 14

structure LevelInfo where
  size : Extent3D
  block : Extent3D
  tileSize : Extent2D
  bppLog2 : Nat
  tileWidthSpacing : Nat
  numLevels : Nat

/-- The loop of `AdjustTileSize` and of `AdjustMipBlockSize`: half of the block is enough. -/
def shrinkBlock (unitFactor dimension : Nat) : Nat → Nat
  | 0 => 0
  | shift + 1 =>
    if dimension ≤ unitFactor <<< shift then shrinkBlock unitFactor dimension shift else shift + 1

/-- `AdjustTileSize` of one dimension. -/
def adjustTileShift (shift unitFactor dimension : Nat) : Nat := shrinkBlock unitFactor dimension shift

/-- `AdjustMipBlockSize` of one dimension: the loop runs once for every level. -/
def adjustMipBlockDimension (gobExtent numTiles blockSize level : Nat) : Nat :=
  (shrinkBlock gobExtent numTiles)^[level + 1] blockSize

def adjustMipBlockSize (numTiles blockSize : Extent3D) (level numLevels : Nat) : Extent3D where
  width := adjustMipBlockDimension gobSizeX numTiles.width blockSize.width level
  height := adjustMipBlockDimension gobSizeY numTiles.height blockSize.height level
  depth :=
    if level = 0 ∧ numLevels = 1 then blockSize.depth
    else adjustMipBlockDimension gobSizeZ numTiles.depth blockSize.depth level

def divCeilLog2 (value alignmentLog2 : Nat) : Nat := (value + (1 <<< alignmentLog2) - 1) >>> alignmentLog2

def alignUpLog2 (value alignLog2 : Nat) : Nat :=
  ((value + ((1 <<< alignLog2) - 1)) >>> alignLog2) <<< alignLog2

def bytesPerBlockLog2 (bytesPerBlock : Nat) : Nat := Nat.log2 bytesPerBlock

def adjustSize (size level blockSize : Nat) : Nat := divCeil (adjustMipDimension size level) blockSize

def numLevelBlocks (info : LevelInfo) (level : Nat) : Extent3D where
  width := adjustSize info.size.width level info.tileSize.width <<< info.bppLog2
  height := adjustSize info.size.height level info.tileSize.height
  depth := adjustMipDimension info.size.depth level

def tileShift (info : LevelInfo) (level : Nat) : Extent3D :=
  if level = 0 ∧ info.numLevels = 1 then info.block
  else
    let blocks := numLevelBlocks info level
    { width := adjustTileShift info.block.width gobSizeX blocks.width
      height := adjustTileShift info.block.height gobSizeY blocks.height
      depth := adjustTileShift info.block.depth gobSizeZ blocks.depth }

/-- The logarithms of a GOB's width, in blocks, and of a block's height. -/
def gobSize (bppLog2 blockHeight tileWidthSpacing : Nat) : Extent2D where
  width := gobSizeXShift - bppLog2 + tileWidthSpacing
  height := gobSizeYShift + blockHeight

def isSmallerThanGobSize (numTiles : Extent3D) (gob : Extent2D) (blockDepth : Nat) : Bool :=
  decide (numTiles.width ≤ 1 <<< gob.width) || decide (numTiles.height ≤ 1 <<< gob.height) ||
    decide (numTiles.depth < 1 <<< blockDepth)

/-- `StrideAlignment`, with the `gob`. -/
def strideAlignmentOfGob (numTiles block : Extent3D) (gob : Extent2D) (bppLog2 : Nat) : Nat :=
  if isSmallerThanGobSize numTiles gob block.depth then gobSizeXShift - bppLog2 else gob.width

def strideAlignment (numTiles block : Extent3D) (bppLog2 tileWidthSpacing : Nat) : Nat :=
  strideAlignmentOfGob numTiles block (gobSize bppLog2 block.height tileWidthSpacing) bppLog2

def numGobs (info : LevelInfo) (level : Nat) : Extent2D :=
  let blocks := numLevelBlocks info level
  let gob := gobSize info.bppLog2 info.block.height info.tileWidthSpacing
  let isSmall := isSmallerThanGobSize blocks gob info.block.depth
  let alignment := if isSmall then 0 else info.tileWidthSpacing
  { width := alignUpLog2 (divCeilLog2 blocks.width gobSizeXShift) alignment
    height := divCeilLog2 blocks.height gobSizeYShift }

def levelTiles (info : LevelInfo) (level : Nat) : Extent3D :=
  let blocks := numLevelBlocks info level
  let tileShift := tileShift info level
  let gobs := numGobs info level
  { width := divCeilLog2 gobs.width tileShift.width
    height := divCeilLog2 gobs.height tileShift.height
    depth := divCeilLog2 blocks.depth tileShift.depth }

def calculateLevelSize (info : LevelInfo) (level : Nat) : Nat :=
  let tileShift := tileShift info level
  let tiles := levelTiles info level
  (tiles.width * tiles.height * tiles.depth) <<<
    (gobSizeShift + tileShift.width + tileShift.height + tileShift.depth)

/-- `MakeLevelInfo` for the first `numLevels` levels of an image. -/
def makeLevelInfoOf (info : ImageInfo) (numLevels : Nat) : LevelInfo where
  size := info.size
  block := info.block
  tileSize := info.format.defaultBlockSize
  bppLog2 := bytesPerBlockLog2 info.format.bytesPerBlock
  tileWidthSpacing := info.tileWidthSpacing
  numLevels := numLevels

def makeLevelInfo (info : ImageInfo) : LevelInfo := makeLevelInfoOf info info.resources.levels

/-- Where a level begins: behind the levels before it. -/
def levelOffset (info : LevelInfo) (level : Nat) : Nat :=
  ∑ l ∈ Finset.range level, calculateLevelSize info l

/-- `CalculateLevelOffset` of the last level is the size of a layer. -/
def calculateLayerSize (info : ImageInfo) : Nat :=
  levelOffset (makeLevelInfo info) info.resources.levels

def calculateMipLevelOffsets (info : ImageInfo) : List Nat :=
  (List.range maxMipLevels).map fun level =>
    if info.type ≠ .linear ∧ level < info.resources.levels then levelOffset (makeLevelInfo info) level
    else 0

/-- `pitch` shares its place with the width of the block. -/
def calculateGuestSizeInBytes (info : ImageInfo) : Nat :=
  match info.type with
  | .buffer => info.size.width * info.format.bytesPerBlock
  | .linear => info.block.width * divCeil info.size.height info.format.defaultBlockSize.height
  | _ =>
    if info.resources.layers > 1 then info.layerStride * info.resources.layers
    else calculateLayerSize info

/-- The offset of a slice in its level. -/
def sliceOffset (info : LevelInfo) (level slice : Nat) : Nat :=
  let tileShift := tileShift info level
  let tiles := levelTiles info level
  let gobSizeShift := tileShift.height + gobSizeShift
  let sliceSize := (tiles.width * tiles.height) <<< gobSizeShift
  let zLow := slice % (1 <<< tileShift.depth)
  let zHigh := slice - zLow
  (zLow <<< gobSizeShift) + zHigh * sliceSize

/-- `CalculateSliceSubresources`: all slices, level by level. -/
def calculateSliceSubresources (info : ImageInfo) : List SubresourceBase :=
  (List.range info.resources.levels).flatMap fun level =>
    (List.range (adjustMipDimension info.size.depth level)).map fun slice => ⟨level, slice⟩

/-- `CalculateSliceOffsets`, in the same order. -/
def calculateSliceOffsets (info : ImageInfo) : List Nat :=
  (calculateSliceSubresources info).map fun base =>
    levelOffset (makeLevelInfo info) base.level + sliceOffset (makeLevelInfo info) base.level base.layer

def mipBlockSize (info : ImageInfo) (level : Nat) : Extent3D :=
  let numTiles := adjustTileSize (adjustMipSize info.size level) info.format.defaultBlockSize
  adjustMipBlockSize numTiles info.block level info.resources.levels

def blockLinearAlignedSize (info : ImageInfo) (level : Nat) : Extent3D :=
  let numTiles := adjustTileSize (adjustMipSize info.size level) info.format.defaultBlockSize
  let bppLog2 := bytesPerBlockLog2 info.format.bytesPerBlock
  let alignment := strideAlignment numTiles info.block bppLog2 info.tileWidthSpacing
  let mipBlock := adjustMipBlockSize numTiles info.block 0 info.resources.levels
  { width := alignUpLog2 numTiles.width alignment
    height := alignUpLog2 numTiles.height (gobSizeYShift + mipBlock.height)
    depth := alignUpLog2 numTiles.depth (gobSizeZShift + mipBlock.depth) }

/-! ## Tiles -/

theorem divCeilLog2_eq (value shift : Nat) :
    divCeilLog2 value shift = (value + 2 ^ shift - 1) / 2 ^ shift := by
  rw [divCeilLog2, Nat.one_shiftLeft, Nat.shiftRight_eq_div_pow]

theorem divCeilLog2_pos {value : Nat} (h : 0 < value) (shift : Nat) : 0 < divCeilLog2 value shift := by
  rw [divCeilLog2_eq]; exact Nat.div_pos (by omega) (Nat.two_pow_pos shift)

theorem le_divCeil_mul {d : Nat} (hd : 0 < d) (n : Nat) : n ≤ (n + d - 1) / d * d := by
  have hsplit := Nat.div_add_mod (n + d - 1) d
  have hmod := Nat.mod_lt (n + d - 1) hd
  rw [Nat.mul_comm]
  generalize d * ((n + d - 1) / d) = q at hsplit ⊢
  omega

theorem div_lt_divCeilLog2 {i n : Nat} (h : i < n) (shift : Nat) :
    i / 2 ^ shift < divCeilLog2 n shift := by
  have hpos := Nat.two_pow_pos shift
  rw [divCeilLog2_eq, Nat.div_lt_iff_lt_mul hpos]
  exact h.trans_le (le_divCeil_mul hpos n)

theorem alignUpLog2_eq (value shift : Nat) :
    alignUpLog2 value shift = divCeilLog2 value shift * 2 ^ shift := by
  have hpos := Nat.two_pow_pos shift
  rw [alignUpLog2, divCeilLog2, Nat.one_shiftLeft, Nat.shiftLeft_eq, Nat.add_sub_assoc hpos]

theorem numLevelBlocks_pos {info : LevelInfo} (level : Nat) (htile : 0 < info.tileSize.width)
    (htile' : 0 < info.tileSize.height) :
    0 < (numLevelBlocks info level).width ∧ 0 < (numLevelBlocks info level).height ∧
      0 < (numLevelBlocks info level).depth := by
  have hsize : ∀ size tile, 0 < tile → 0 < adjustSize size level tile := fun size tile htile =>
    Nat.div_pos (by have := adjustMipDimension_pos size level; omega) htile
  refine ⟨?_, hsize _ _ htile', adjustMipDimension_pos _ _⟩
  show 0 < _ <<< _
  rw [Nat.shiftLeft_eq]
  exact Nat.mul_pos (hsize _ _ htile) (Nat.two_pow_pos _)

theorem levelTiles_pos {info : LevelInfo} (level : Nat) (htile : 0 < info.tileSize.width)
    (htile' : 0 < info.tileSize.height) :
    0 < (levelTiles info level).width ∧ 0 < (levelTiles info level).height ∧
      0 < (levelTiles info level).depth := by
  obtain ⟨hwidth, hheight, hdepth⟩ := numLevelBlocks_pos level htile htile'
  refine ⟨divCeilLog2_pos ?_ _, divCeilLog2_pos (divCeilLog2_pos hheight _) _, divCeilLog2_pos hdepth _⟩
  show 0 < alignUpLog2 _ _
  rw [alignUpLog2_eq]
  exact Nat.mul_pos (divCeilLog2_pos (divCeilLog2_pos hwidth _) _) (Nat.two_pow_pos _)

theorem sliceOffset_lt {info : LevelInfo} {level slice : Nat} (htile : 0 < info.tileSize.width)
    (htile' : 0 < info.tileSize.height) (hslice : slice < adjustMipDimension info.size.depth level) :
    sliceOffset info level slice < calculateLevelSize info level := by
  obtain ⟨hwidth, hheight, -⟩ := levelTiles_pos level htile htile'
  have hdepth : slice / 2 ^ (tileShift info level).depth < (levelTiles info level).depth :=
    div_lt_divCeilLog2 hslice _
  rw [sliceOffset, calculateLevelSize]
  generalize tileShift info level = shift at hdepth ⊢
  generalize levelTiles info level = tiles at hdepth hwidth hheight ⊢
  obtain ⟨w, h, d⟩ := shift
  obtain ⟨tw, th, td⟩ := tiles
  dsimp only at hdepth hwidth hheight ⊢
  have hlow := Nat.mod_lt slice (Nat.two_pow_pos d)
  have hhigh : slice - slice % 2 ^ d = slice / 2 ^ d * 2 ^ d := by
    have hsplit := Nat.div_add_mod' slice (2 ^ d)
    omega
  rw [Nat.one_shiftLeft, Nat.shiftLeft_eq, Nat.shiftLeft_eq, Nat.shiftLeft_eq, hhigh]
  generalize slice / 2 ^ d = q at hdepth ⊢
  generalize slice % 2 ^ d = r at hlow ⊢
  have hpow : 2 ^ (gobSizeShift + w + h + d) = 2 ^ w * 2 ^ (h + gobSizeShift) * 2 ^ d := by
    rw [← Nat.pow_add, ← Nat.pow_add]
    congr 1; omega
  rw [hpow]
  have hg := Nat.two_pow_pos (h + gobSizeShift)
  have hw := Nat.two_pow_pos w
  have hplane : 0 < tw * th := Nat.mul_pos hwidth hheight
  generalize 2 ^ (h + gobSizeShift) = g at hg ⊢
  generalize tw * th = plane at hplane ⊢
  generalize 2 ^ d = D at hlow ⊢
  generalize 2 ^ w = W at hw ⊢
  calc r * g + q * D * (plane * g) < D * g + q * D * (plane * g) :=
        Nat.add_lt_add_right (Nat.mul_lt_mul_of_pos_right hlow hg) _
    _ ≤ D * (plane * g) + q * D * (plane * g) :=
        Nat.add_le_add_right (Nat.mul_le_mul_left D (Nat.le_mul_of_pos_left g hplane)) _
    _ = (q + 1) * (D * (plane * g)) := by ring
    _ ≤ td * (D * (plane * g)) := Nat.mul_le_mul_right _ hdepth
    _ ≤ W * (td * (D * (plane * g))) := Nat.le_mul_of_pos_left _ hw
    _ = plane * td * (W * g * D) := by ring

theorem slice_mul_le_sliceOffset {info : LevelInfo} (level slice : Nat) (htile : 0 < info.tileSize.width)
    (htile' : 0 < info.tileSize.height) : slice * 2 ^ gobSizeShift ≤ sliceOffset info level slice := by
  obtain ⟨hwidth, hheight, -⟩ := levelTiles_pos level htile htile'
  rw [sliceOffset]
  generalize tileShift info level = shift
  generalize levelTiles info level = tiles at hwidth hheight ⊢
  have hle := Nat.mod_le slice (1 <<< shift.depth)
  generalize slice % (1 <<< shift.depth) = low at hle ⊢
  rw [Nat.shiftLeft_eq, Nat.shiftLeft_eq]
  have hg : 2 ^ gobSizeShift ≤ 2 ^ (shift.height + gobSizeShift) :=
    Nat.pow_le_pow_right (by omega) (by omega)
  have hplane : 0 < tiles.width * tiles.height := Nat.mul_pos hwidth hheight
  generalize 2 ^ (shift.height + gobSizeShift) = g at hg ⊢
  generalize tiles.width * tiles.height = plane at hplane ⊢
  calc slice * 2 ^ gobSizeShift ≤ slice * g := Nat.mul_le_mul_left _ hg
    _ = low * g + (slice - low) * g := by rw [← Nat.add_mul, Nat.add_sub_cancel' hle]
    _ ≤ low * g + (slice - low) * (plane * g) :=
        Nat.add_le_add_left (Nat.mul_le_mul_left _ (Nat.le_mul_of_pos_left g hplane)) _

end Suyu.VideoCommon
