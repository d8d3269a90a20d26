import Mathlib

/-
  ImageInfo - what the texture cache knows of an image, and the sizes of its mip levels.

  A pixel format is its row in the tables of the surface formats: the texels of a block, the bytes of a
  block and how it is compressed.  Sizes are natural numbers here; where the 32 bits of the program's
  matter, `u32` says so.
-/

namespace Suyu.VideoCommon

structure Extent2D where
  width : Nat
  height : Nat
  deriving DecidableEq

structure Extent3D where
  width : Nat
  height : Nat
  depth : Nat
  deriving DecidableEq

/-- How the blocks of a format are compressed; the variants of one (`UNORM`, `SRGB`, ...) are alike. -/
inductive Compression where
  | none
  | astc
  | bc1
  | bc2
  | bc3
  | bc4
  | bc5
  | bc6h
  | bc7
  deriving DecidableEq

structure PixelFormat where
  defaultBlockSize : Extent2D
  bytesPerBlock : Nat
  compression : Compression
  block_pos : 0 < defaultBlockSize.width ∧ 0 < defaultBlockSize.height
  bytes_pos : 0 < bytesPerBlock

inductive ImageType where
  | e1D
  | e2D
  | e3D
  | linear
  | buffer
  deriving DecidableEq

structure SubresourceExtent where
  levels : Nat
  layers : Nat
  deriving DecidableEq

structure SubresourceBase where
  level : Nat
  layer : Nat
  deriving DecidableEq

structure ImageInfo where
  format : PixelFormat
  type : ImageType
  resources : SubresourceExtent
  size : Extent3D
  block : Extent3D
  layerStride : Nat
  maybeUnalignedLayerStride : Nat
  numSamples : Nat
  tileWidthSpacing : Nat

structure BufferImageCopy where
  bufferOffset : Nat
  bufferSize : Nat
  bufferRowLength : Nat
  bufferImageHeight : Nat
  baseLevel : Nat
  baseLayer : Nat
  numLayers : Nat
  imageExtent : Extent3D
  deriving DecidableEq

/-- What is left of a result in 32 bits. -/
def u32 (n : Nat) : Nat := n % 2 ^ 32

def alignUp (value size : Nat) : Nat :=
  let mod := value % size
  let value := value - mod
  if mod = 0 then value else value + size

def divCeil (number divisor : Nat) : Nat := (number + divisor - 1) / divisor

/-- `AdjustMipSize` of one dimension. -/
def adjustMipDimension (size level : Nat) : Nat := max (size >>> level) 1

def adjustMipSize (size : Extent3D) (level : Nat) : Extent3D where
  width := adjustMipDimension size.width level
  height := adjustMipDimension size.height level
  depth := adjustMipDimension size.depth level

/-- `AdjustTileSize`: the blocks of a level in each dimension. -/
def adjustTileSize (size : Extent3D) (tileSize : Extent2D) : Extent3D where
  width := divCeil size.width tileSize.width
  height := divCeil size.height tileSize.height
  depth := size.depth

def numBlocks (size : Extent3D) (tileSize : Extent2D) : Nat :=
  let numBlocks := adjustTileSize size tileSize
  numBlocks.width * numBlocks.height * numBlocks.depth

/-! ## Sizes -/

theorem u32_lt (n : Nat) : u32 n < 2 ^ 32 := Nat.mod_lt n (by decide)

theorem u32_of_lt {n : Nat} (h : n < 2 ^ 32) : u32 n = n := Nat.mod_eq_of_lt h

theorem u32_le (n : Nat) : u32 n ≤ n := Nat.mod_le n _

theorem adjustMipDimension_pos (size level : Nat) : 0 < adjustMipDimension size level := by
  rw [adjustMipDimension]; omega

theorem adjustMipDimension_anti {size i j : Nat} (h : i ≤ j) :
    adjustMipDimension size j ≤ adjustMipDimension size i := by
  rw [adjustMipDimension, adjustMipDimension, Nat.shiftRight_eq_div_pow, Nat.shiftRight_eq_div_pow]
  have hdiv : size / 2 ^ j ≤ size / 2 ^ i :=
    Nat.div_le_div_left (Nat.pow_le_pow_right (by omega) h) (by positivity)
  omega

theorem alignUp_four (n : Nat) : alignUp n 4 = (n + 3) / 4 * 4 := by
  rw [alignUp]
  split <;> omega

end Suyu.VideoCommon
