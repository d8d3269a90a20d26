import Suyu.FileSys.VfsViews

/-
  `PatchIPS` of ips_layer.cpp.

  1. **Program** - `patchIPS`: the magic, then the loop that reads an offset of three or four bytes into
     `temp` and one record behind it, until a read of `temp` is short or `temp` is the marker; the test
     for the marker is made once more after the loop.

  2. **Arithmetic** - the sum of a record's offset and size is a `u32` and wraps; the position in the
     patch never gets beyond the bytes that were read, so it needs no width.

  3. **Memory** - `std::memset` and `Read` into `in_data` are a fault where they leave it.

  4. **Specification (`Patch`)** - a patch as its records in order, and how it ends.
-/

namespace Suyu.FileSys.Ips

open Vfs (VfsFile View slice overwrite)

/-- What the C++ program leaves undefined, and a loop that goes on for more rounds than it was given. -/
inductive Fault
  | outOfRange
  | unfinished
  deriving DecidableEq, Repr

inductive IPSFileType
  | ips
  | ips32
  | error
  deriving DecidableEq, Repr

def identifyMagic (magic : List UInt8) : IPSFileType :=
  if magic.length ≠ 5 then .error
  else if magic = [0x50, 0x41, 0x54, 0x43, 0x48] then .ips
  else if magic = [0x49, 0x50, 0x53, 0x33, 0x32] then .ips32
  else .error

/-- `IsEOF`; the data has as many bytes as the marker of the type. -/
def isEOF (type : IPSFileType) (data : List UInt8) : Bool :=
  match type with
  | .ips => data == [0x45, 0x4F, 0x46]
  | .ips32 => data == [0x45, 0x45, 0x4F, 0x46]
  | .error => false

/-- The bytes a `Read` of the patch puts at the destination. -/
def readPatch (ips : VfsFile) (length offset : Nat) : Except Fault (List UInt8) :=
  match ips.read length offset with
  | some bytes => .ok bytes
  | none => .error .outOfRange

/-- `std::memset` or `Read` at a position of `in_data`. -/
def put (inData : List UInt8) (offset : Nat) (bytes : List UInt8) : Except Fault (List UInt8) :=
  if offset + bytes.length ≤ inData.length then .ok (overwrite inData offset bytes)
      else .error .outOfRange

/-- `real_offset` of the bytes in `temp`. -/
def realOffset (type : IPSFileType) (temp : List UInt8) : Nat :=
  let t (i : Nat) := (temp.getD i 0).toNat
  if type = .ips32 then t 0 <<< 24 ||| t 1 <<< 16 ||| t 2 <<< 8 ||| t 3
  else t 0 <<< 16 ||| t 1 <<< 8 ||| t 2

/-- A `u16` of the patch, as it lies in memory. -/
def u16Of (bytes : List UInt8) : Nat := (bytes.getD 0 0).toNat ||| (bytes.getD 1 0).toNat <<< 8

def swap16 (data : Nat) : Nat := data >>> 8 ||| (data <<< 8) % 2 ^ 16

/-- A record whose size is zero: one byte, `rle_size` times. It is `none` where `PatchIPS` returns a null
    pointer, else the position behind the record and `in_data`. -/
def runRecord (ips : VfsFile) (realOffset offset : Nat) (inData : List UInt8) :
    Except Fault (Option (Nat × List UInt8)) :=
  (readPatch ips 2 offset).bind fun size =>
    if size.length ≠ 2 then .ok none
    else
      let rleSize := swap16 (u16Of size)
      (readPatch ips 1 (offset + 2)).bind fun data =>
        match data with
        | [] => .ok none
        | value :: _ =>
          let rleSize := if (realOffset + rleSize) % 2 ^ 32 > inData.length then
            (inData.length - realOffset) % 2 ^ 16 else rleSize
          (put inData realOffset (List.replicate rleSize value)).map fun inData =>
              some (offset + 3, inData)

/-- A record with `data_size` bytes of its own. -/
def literalRecord (ips : VfsFile) (realOffset dataSize offset : Nat) (inData : List UInt8) :
    Except Fault (Option (Nat × List UInt8)) :=
  let read := if (realOffset + dataSize) % 2 ^ 32 > inData.length then
    (inData.length - realOffset) % 2 ^ 16 else dataSize
  (readPatch ips read offset).bind fun bytes =>
    (put inData realOffset bytes).map fun inData =>
      -- the number of bytes is compared with the size before it was clipped
      if bytes.length ≠ dataSize then none else some (offset + dataSize, inData)

/-- The record behind the offset in `temp`. -/
def readRecord (type : IPSFileType) (ips : VfsFile) (temp : List UInt8) (offset : Nat)
    (inData : List UInt8) : Except Fault (Option (Nat × List UInt8)) :=
  if realOffset type temp > inData.length then .ok none
  else (readPatch ips 2 offset).bind fun size =>
    if size.length ≠ 2 then .ok none
    else
      let dataSize := swap16 (u16Of size)
      if dataSize = 0 then runRecord ips (realOffset type temp) (offset + 2) inData
      else literalRecord ips (realOffset type temp) dataSize (offset + 2) inData

/-- The test after the loop, and the file that is returned. -/
def finish (type : IPSFileType) (temp inData : List UInt8) : Except Fault (Option VfsFile) :=
  .ok (if isEOF type temp then some (.vector inData) else none)

/-- The loop; a short read leaves the bytes of `temp` behind it as they were. -/
def patchLoop (type : IPSFileType) (ips : VfsFile) :
    Nat → List UInt8 → Nat → List UInt8 → Except Fault (Option VfsFile)
  | 0, _, _, _ => .error .unfinished
  | rounds + 1, temp, offset, inData =>
    (readPatch ips temp.length offset).bind fun bytes =>
      let temp' := bytes ++ temp.drop bytes.length
      if bytes.length ≠ temp.length then finish type temp' inData
      else if isEOF type temp' then finish type temp' inData
      else (readRecord type ips temp' (offset + temp.length) inData).bind fun
        | none => .ok none
        | some (offset, inData) => patchLoop type ips rounds temp' offset inData

/-- The bytes of an offset. -/
def tempSize : IPSFileType → Nat
  | .ips => 3
  | _ => 4

def patchIPS (input ips : Option VfsFile) : Except Fault (Option VfsFile) :=
  match input, ips with
  | some input, some ips =>
    (readPatch ips 5 0).bind fun magic =>
      let type := identifyMagic magic
      if type = .error then .ok none
      else (readPatch input input.getSize 0).bind fun inData =>
        if inData.length = 0 then .ok none
        else patchLoop type ips (ips.getSize + 1) (List.replicate (tempSize type) 0) 5 inData
  | _, _ => .ok none

/-! ## What a patch is -/

/-- What a record writes. -/
inductive Content
  | run (size : Nat) (value : UInt8)
  | literal (data : List UInt8)

/-- A patch behind its magic: records, each with the bytes of its offset, and the end: the marker, or
    too few bytes for another offset, or a break inside of a record, of whose `size` bytes only `data`
    is there. -/
inductive Patch
  | marker
  | short (tail : List UInt8)
  | cut (offset : List UInt8) (size : Nat) (data : List UInt8)
  | record (offset : List UInt8) (content : Content) (next : Patch)

/-- The number a list of bytes is, the first byte the most significant one. -/
def bigEndian (bytes : List UInt8) : Nat := bytes.foldl (fun n b => 256 * n + b.toNat) 0

/-- The marker of a type. -/
def markerOf : IPSFileType → List UInt8
  | .ips => [0x45, 0x4F, 0x46]
  | _ => [0x45, 0x45, 0x4F, 0x46]

/-- The record in these bytes, with its offset and what is behind it. -/
def parseRecord (next : List UInt8 → Patch) (offset bytes : List UInt8) : Patch :=
  if bytes.length < 2 then .cut offset 0 []
  else
    let size := bigEndian (bytes.take 2)
    let rest := bytes.drop 2
    if size = 0 then
      match rest with
      | high :: low :: value :: rest => .record offset (.run (bigEndian [high, low]) value) (next rest)
      | _ => .cut offset 0 []
    else if rest.length < size then .cut offset size rest
    else .record offset (.literal (rest.take size)) (next (rest.drop size))

/-- The patch in these bytes, of at most so many records. -/
def parse (type : IPSFileType) : Nat → List UInt8 → Patch
  | 0, bytes => .short bytes
  | records + 1, bytes =>
    if bytes.length < tempSize type then .short bytes
    else if bytes.take (tempSize type) = markerOf type then .marker
    else parseRecord (parse type records) (bytes.take (tempSize type)) (bytes.drop (tempSize type))

/-- The bytes a record stands for. -/
def Content.bytes : Content → List UInt8
  | .run size value => List.replicate size value
  | .literal data => data

/-- The input with a record written at an offset inside, clipped to the size of the input. -/
def applyRecord (inData : List UInt8) (offset : Nat) (content : Content) : List UInt8 :=
  overwrite inData offset (content.bytes.take (inData.length - offset))

/-- What the patch makes of the input: nothing when it breaks off or a record starts past the end. -/
def Patch.apply : Patch → List UInt8 → Option (List UInt8)
  | .marker, inData => some inData
  | .short _, _ => none
  | .cut _ _ _, _ => none
  | .record offset content next, inData =>
    if inData.length < bigEndian offset then none
    else next.apply (applyRecord inData (bigEndian offset) content)

end Suyu.FileSys.Ips
