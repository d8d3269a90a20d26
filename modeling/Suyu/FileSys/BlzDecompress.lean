import Suyu.FileSys.VfsFile

/-
  `DecompressBLZ` of kernel_executable.cpp: the input is read and the output written from the END of one
  vector.

  1. **Program** - `decompressBLZ`: the footer, `resize`, and the loop over control bytes, whose eight
     bits each take a reference of two bytes or a literal.

  2. **Arithmetic** - the footer's fields are `u32` and their sums wrap at 2^32; the indices are
     `std::size_t`, and `--index` of zero wraps to the largest one.

  3. **How it ends (`Stop`)** - `return false` is one way to stop; an index outside of the vector and a
     length `resize` cannot serve are two others, which C++ leaves undefined and answers with an
     exception.
-/

namespace Suyu.FileSys.Blz

open Vfs (sizeAdd sizeSub resize u32At)

/-- Why the function does not return true. -/
inductive Stop
  | refused
  | outOfRange
  | lengthError
  | unfinished
  deriving DecidableEq, Repr

/-- `data[pos]`. -/
def byteAt (data : List UInt8) (pos : Nat) : Except Stop UInt8 :=
  match data[pos]? with
  | some b => .ok b
  | none => .error .outOfRange

/-- `data[pos] = b`. -/
def setAt (data : List UInt8) (pos : Nat) (b : UInt8) : Except Stop (List UInt8) :=
  if pos < data.length then .ok (data.set pos b) else .error .outOfRange

/-- The vector and the two indices into it, both relative to `start_offset`. -/
structure State where
  data : List UInt8
  index : Nat
  outIndex : Nat

/-- The loop over `j` that copies a segment, with `todo` bytes left. -/
def copyLoop (startOffset segmentOffset outIndex : Nat) :
    Nat → Nat → List UInt8 → Except Stop (List UInt8)
  | 0, _, data => .ok data
  | todo + 1, j, data =>
    let source := sizeAdd (outIndex + j + segmentOffset) startOffset
    if data.length ≤ source then .error .refused
    else (byteAt data source).bind fun b =>
      (setAt data (sizeAdd (outIndex + j) startOffset) b).bind
        (copyLoop startOffset segmentOffset outIndex todo (j + 1))

/-- A set bit of the control byte: a segment that is further back in the output. -/
def takeSegment (startOffset : Nat) (s : State) : Except Stop State :=
  if s.index < 2 then .error .refused
  else
    let index := s.index - 2
    (byteAt s.data (sizeAdd index startOffset)).bind fun low =>
    (byteAt s.data (sizeAdd (index + 1) startOffset)).bind fun high =>
    let value := low.toNat ||| high.toNat <<< 8
    let segmentSize := (value >>> 12 &&& 0xF) + 3
    let segmentOffset := (value &&& 0xFFF) + 3
    let segmentSize := if s.outIndex < segmentSize then s.outIndex else segmentSize
    if s.outIndex < segmentSize then .error .refused
    else (copyLoop startOffset segmentOffset (s.outIndex - segmentSize) segmentSize 0 s.data).map
      fun data => ⟨data, index, s.outIndex - segmentSize⟩

/-- A clear bit: one byte as it is. -/
def takeLiteral (startOffset : Nat) (s : State) : Except Stop State :=
  if s.outIndex < 1 then .error .refused
  else
    let outIndex := s.outIndex - 1
    let index := sizeSub s.index 1
    (byteAt s.data (sizeAdd index startOffset)).bind fun b =>
      (setAt s.data (sizeAdd outIndex startOffset) b).map fun data => ⟨data, index, outIndex⟩

/-- The bits of a control byte, with `todo` of the eight left. -/
def controlLoop (startOffset : Nat) (control : UInt8) : Nat → State → Except Stop State
  | 0, s => .ok s
  | todo + 1, s =>
    (if (control.toNat <<< (7 - todo)) &&& 0x80 > 0 then takeSegment startOffset s
      else takeLiteral startOffset s).bind fun s =>
      if s.outIndex = 0 then .ok s else controlLoop startOffset control todo s

/-- `while (out_index > 0)`, for at most so many rounds. -/
def blzLoop (startOffset : Nat) : Nat → State → Except Stop (List UInt8)
  | rounds, s =>
    if s.outIndex = 0 then .ok s.data
    else match rounds with
      | 0 => .error .unfinished
      | rounds + 1 =>
        let index := sizeSub s.index 1
        (byteAt s.data (sizeAdd index startOffset)).bind fun control =>
          (controlLoop startOffset control 8 { s with index }).bind (blzLoop startOffset rounds)

/-- `DecompressBLZ`: what it leaves in `data` where it returns true. -/
def decompressBLZ (data : List UInt8) : Except Stop (List UInt8) :=
  if data.length < 0xC then .error .refused
  else
    let dataSize := data.length - 0xC
    let compressedSize := u32At data dataSize
    let initIndex := u32At data (dataSize + 0x4)
    let additionalSize := u32At data (dataSize + 0x8)
    let startOffset := sizeSub data.length compressedSize
    let size := sizeAdd ((compressedSize + additionalSize) % 2 ^ 32) startOffset
    -- a vector has at most PTRDIFF_MAX bytes
    if 2 ^ 63 ≤ size then .error .lengthError
    else
      let outIndex := (compressedSize + additionalSize) % 2 ^ 32
      blzLoop startOffset outIndex
        ⟨resize data size, (compressedSize + (2 ^ 32 - initIndex)) % 2 ^ 32, outIndex⟩

/-- Three literals and three references, each as long as what is there already. -/
example : decompressBLZ [0x09, 0x90, 0x03, 0x30, 0x00, 0x00, 67, 66, 65, 0x1C,
      22, 0, 0, 0, 12, 0, 0, 0, 2, 0, 0, 0] =
    .ok [67, 66, 65, 67, 66, 65, 67, 66, 65, 67, 66, 65, 67, 66, 65, 67, 66, 65, 67, 66, 65, 67, 66,
        65] := by
  decide +kernel

end Suyu.FileSys.Blz
