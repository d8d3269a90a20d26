import Mathlib.Algebra.Group.Nat.Defs
import Mathlib.Data.List.Basic
import Mathlib.Tactic.Common

/-
  Files of the virtual file system that are views of other files: `VectorVfsFile`, `StaticVfsFile`,
  `ConcatenatedVfsFile` and `OffsetVfsFile`.

  1. **Program** - an object is a tree of these four classes; `methods` is its table of virtual
     functions, so that a caller sees `GetSize` and `Read` only, as behind a `VirtualFile`.

  2. **Arithmetic** - sizes and offsets are `std::size_t`: a difference WRAPS when the larger value is on
     the right (`sizeSub`), and every class trims a length with such a difference.

  3. **Memory** - a `Read` gives the bytes it puts at the destination, and `none` where it copies bytes
     from outside the memory of the vector; a `Write` likewise.

  4. **Specification (`View`)** - which bytes each object stands for, from what it was made of.
-/

namespace Suyu.FileSys.Vfs

/-! ## Sizes -/

/-- `a + b` of two `std::size_t`. -/
def sizeAdd (a b : Nat) : Nat := (a + b) % 2 ^ 64

/-- `a - b` of two `std::size_t`. -/
def sizeSub (a b : Nat) : Nat := (a + (2 ^ 64 - b)) % 2 ^ 64

theorem sizeAdd_of_lt {a b : Nat} (h : a + b < 2 ^ 64) : sizeAdd a b = a + b := Nat.mod_eq_of_lt h

theorem sizeAdd_lt (a b : Nat) : sizeAdd a b < 2 ^ 64 := Nat.mod_lt _ (by decide)

theorem sizeSub_of_le {a b : Nat} (hle : b ≤ a) (ha : a < 2 ^ 64) : sizeSub a b = a - b := by
  unfold sizeSub; omega

theorem sizeSub_of_lt {a b : Nat} (hlt : a < b) (hb : b < 2 ^ 64) : sizeSub a b = 2 ^ 64 - (b - a) := by
  unfold sizeSub; omega

/-- The little-endian `u32` at a position. -/
def u32At (bytes : List UInt8) (pos : Nat) : Nat :=
  (bytes.getD pos 0).toNat + 2 ^ 8 * (bytes.getD (pos + 1) 0).toNat +
    2 ^ 16 * (bytes.getD (pos + 2) 0).toNat + 2 ^ 24 * (bytes.getD (pos + 3) 0).toNat

/-! ## The objects -/

/-- An object of one of the four classes. A `ConcatenatedVfsFile` holds its entries, each an offset and a
    file. -/
inductive VfsFile
  | vector (data : List UInt8)
  | static (value : UInt8) (size : Nat)
  | concatenated (concatenationMap : List (Nat × VfsFile))
  | offset (file : VfsFile) (size offset : Nat)

/-- The virtual functions a view calls on the file below it. `read length offset` is the list of the bytes
    that are put at the destination, so that its length is the number `Read` returns. -/
structure Methods where
  getSize : Nat
  read : Nat → Nat → Option (List UInt8)

/-! ## VectorVfsFile and StaticVfsFile -/

/-- `VectorVfsFile::Read`. -/
def vectorRead (data : List UInt8) (length offset : Nat) : Option (List UInt8) :=
  let read := min length (sizeSub data.length offset)
  if read = 0 ∨ offset + read ≤ data.length then some ((data.drop offset).take read) else none

/-- `StaticVfsFile::Read` (and `ReadBytes`, which computes the same). -/
def staticRead (value : UInt8) (size length offset : Nat) : Option (List UInt8) :=
  some (List.replicate (min length (sizeSub size offset)) value)

/-! ## ConcatenatedVfsFile -/

/-- `ConcatenatedVfsFile::GetSize`. -/
def concatenatedGetSize (map : List (Nat × Methods)) : Nat :=
  match map.getLast? with
  | none => 0
  | some (offset, file) => sizeAdd offset file.getSize

/-- The entries from `std::prev(std::upper_bound(begin, end, key))` on: the entry in front of the first
    one with an offset above the key. In front of the first entry there is none. -/
def prevUpperBound (map : List (Nat × Methods)) (offset : Nat) : Option (List (Nat × Methods)) :=
  match map.findIdx fun entry => offset < entry.1 with
  | 0 => none
  | index + 1 => some (map.drop index)

/-- The loop of `ConcatenatedVfsFile::Read`. -/
def concatenatedLoop : List (Nat × Methods) → Nat → Nat → Option (List UInt8)
  | [], _, _ => some []
  | (mapOffset, file) :: rest, curLength, curOffset =>
    if curLength = 0 then some []
    -- entirely out of bounds
    else if sizeAdd mapOffset file.getSize < curOffset then some []
    else
      let fileSeek := sizeSub curOffset mapOffset
      let intended := min curLength (sizeSub file.getSize fileSeek)
      (file.read intended fileSeek).bind fun bytes =>
        -- a short read ends the loop
        if bytes.length < intended then some bytes
        else (concatenatedLoop rest (curLength - bytes.length) (sizeAdd curOffset bytes.length)).map
          (bytes ++ ·)

/-- `ConcatenatedVfsFile::Read`. -/
def concatenatedRead (map : List (Nat × Methods)) (length offset : Nat) : Option (List UInt8) :=
  match map with
  | [] => some []
  | _ => (prevUpperBound map offset).bind fun entries => concatenatedLoop entries length offset

/-! ## OffsetVfsFile -/

def trimToFit (size length offset : Nat) : Nat := min length (sizeSub size offset)

/-- `OffsetVfsFile::Read`. -/
def offsetRead (file : Methods) (size offset length readOffset : Nat) : Option (List UInt8) :=
  file.read (trimToFit size length readOffset) (sizeAdd offset readOffset)

/-! ## The virtual functions of an object -/

mutual

/-- The virtual functions of an object. -/
def VfsFile.methods : VfsFile → Methods
  | .vector data => ⟨data.length, vectorRead data⟩
  | .static value size => ⟨size, staticRead value size⟩
  | .concatenated map => ⟨concatenatedGetSize (entryMethods map), concatenatedRead (entryMethods map)⟩
  | .offset file size start => ⟨size, offsetRead file.methods size start⟩

/-- The entries of a concatenation as its functions see them. -/
def entryMethods : List (Nat × VfsFile) → List (Nat × Methods)
  | [] => []
  | (offset, file) :: rest => (offset, file.methods) :: entryMethods rest

end

def VfsFile.getSize (f : VfsFile) : Nat := f.methods.getSize

def VfsFile.read (f : VfsFile) : Nat → Nat → Option (List UInt8) := f.methods.read

/-! ## MakeConcatenatedFile -/

/-- The concatenation map of `MakeConcatenatedFile(name, files)` from `lastOffset` on. -/
def joinedMap : Nat → List VfsFile → List (Nat × VfsFile)
  | _, [] => []
  | lastOffset, file :: rest => (lastOffset, file) :: joinedMap (sizeAdd lastOffset file.getSize) rest

/-- `MakeConcatenatedFile(name, files)`: no file gives a null pointer, one file is returned as it is. -/
def makeConcatenatedFile : List VfsFile → Option VfsFile
  | [] => none
  | [file] => some file
  | files => some (.concatenated (joinedMap 0 files))

/-- The concatenation map of `MakeConcatenatedFile(filler_byte, name, files)` from `lastOffset` on. -/
def filledMap (fillerByte : UInt8) : Nat → List (Nat × VfsFile) → List (Nat × VfsFile)
  | _, [] => []
  | lastOffset, (offset, file) :: rest =>
    if lastOffset < offset then
      (lastOffset, .static fillerByte (sizeSub offset lastOffset)) :: (offset, file) ::
        filledMap fillerByte (sizeAdd offset file.getSize) rest
    else (offset, file) :: filledMap fillerByte (sizeAdd offset file.getSize) rest

/-- `MakeConcatenatedFile(filler_byte, name, files)`; one file is returned as it is, its offset
    dropped. -/
def makeFilledFile (fillerByte : UInt8) : List (Nat × VfsFile) → Option VfsFile
  | [] => none
  | [(_, file)] => some file
  | files => some (.concatenated (filledMap fillerByte 0 files))

/-! ## Write -/

def resize (data : List UInt8) (size : Nat) : List UInt8 :=
  data.take size ++ List.replicate (size - data.length) 0

/-- `std::memcpy` into a vector. -/
def overwrite (data : List UInt8) (offset : Nat) (bytes : List UInt8) : List UInt8 :=
  data.take offset ++ bytes ++ data.drop (offset + bytes.length)

/-- `VectorVfsFile::Write`: the new vector and the number of bytes. -/
def vectorWrite (data bytes : List UInt8) (offset : Nat) : Option (List UInt8 × Nat) :=
  let data' := if data.length < sizeAdd offset bytes.length then resize data (sizeAdd offset bytes.length)
    else data
  let write := min bytes.length (sizeSub data'.length offset)
  if write = 0 ∨ offset + write ≤ data'.length then
    some (overwrite data' offset (bytes.take write), write)
  else none

/-- `VfsFile::Write`: the object afterwards and the number of bytes. -/
def VfsFile.write : VfsFile → List UInt8 → Nat → Option (VfsFile × Nat)
  | .vector data, bytes, writeOffset =>
    (vectorWrite data bytes writeOffset).map fun (d, n) => (.vector d, n)
  | .static value size, _, _ => some (.static value size, 0)
  | .concatenated map, _, _ => some (.concatenated map, 0)
  | .offset file size start, bytes, writeOffset =>
    (file.write (bytes.take (trimToFit size bytes.length writeOffset)) (sizeAdd start writeOffset)).map
      fun (file', n) => (.offset file' size start, n)

def VfsFile.isWritable : VfsFile → Bool
  | .vector _ => true
  | .static _ _ => false
  | .concatenated _ => false
  | .offset file _ _ => file.isWritable

/-! ## What an object stands for -/

/-- `length` bytes at `offset`: fewer at the end, none past it. -/
def slice (content : List UInt8) (length offset : Nat) : List UInt8 := (content.drop offset).take length

/-- The pieces at their offsets, with the filler in between. -/
def placed (filler : UInt8) : Nat → List (Nat × List UInt8) → List UInt8
  | _, [] => []
  | last, (offset, content) :: rest =>
    List.replicate (offset - last) filler ++ content ++ placed filler (offset + content.length) rest

/-- No piece starts before the end of the one in front of it, and the last one ends below 2^64. -/
def Spaced : Nat → List (Nat × List UInt8) → Prop
  | last, [] => last < 2 ^ 64
  | last, (offset, content) :: rest => last ≤ offset ∧ Spaced (offset + content.length) rest

/-- `f` is an object over these bytes. A vector has at most `PTRDIFF_MAX` elements; a single piece with a
    filler is no concatenation, and is a view of the piece only where no filler is in front of it. -/
inductive View : VfsFile → List UInt8 → Prop
  | vector (data : List UInt8) : data.length < 2 ^ 63 → View (.vector data) data
  | static (value : UInt8) (size : Nat) : size < 2 ^ 64 → View (.static value size)
      (.replicate size value)
  | joined (pieces : List (VfsFile × List UInt8)) (f : VfsFile) :
      (∀ p ∈ pieces, View p.1 p.2) →
      (pieces.map Prod.snd).flatten.length < 2 ^ 64 →
      makeConcatenatedFile (pieces.map Prod.fst) = some f →
      View f (pieces.map Prod.snd).flatten
  | filled (filler : UInt8) (pieces : List (Nat × VfsFile × List UInt8)) (f : VfsFile) :
      (∀ p ∈ pieces, View p.2.1 p.2.2) →
      Spaced 0 (pieces.map fun p => (p.1, p.2.2)) →
      (∀ p, pieces = [p] → p.1 = 0) →
      makeFilledFile filler (pieces.map fun p => (p.1, p.2.1)) = some f →
      View f (placed filler 0 (pieces.map fun p => (p.1, p.2.2)))
  | offset {f : VfsFile} {content : List UInt8} (size offset : Nat) :
      View f content → offset + size ≤ content.length →
      View (.offset f size offset) (slice content size offset)

end Suyu.FileSys.Vfs
