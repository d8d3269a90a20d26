import Mathlib
import Suyu.Lib.BitString

/-
  BitWriter - the bit writers of the H.264 and VP9 headers (`h264.cpp`, `vp9.cpp`), and the readers of the
  two syntaxes.

  1. **Program** - both writers pack bits into a buffer of one byte, highest bit first, in pieces of
     what is free in it; a full buffer is flushed before the next piece.  They differ in the shift of
     the value, which is signed in the first and unsigned in the second.

  2. **Specification** - a reader driven by the SYNTAX of what was written (which elements, of which
     sizes, but not their values) gets back the values.  `End` and `Flush` are read as the alignment
     they stand for.

  3. **The crux (`BitWriter.bits`)** - what was written is the bits of the bytes and the used part of the
     buffer, and no bit is set in its unused part (`BitWriter.Clean`).

  4. **When it goes wrong** - the syntax of a delta_q is su(4), four bits and a sign.  `WriteDeltaQ`
     writes no sign: the reader takes the next bit of the stream for it.
-/

namespace Suyu.Decoders

open Lib.BitString

/-! ## The writers -/

structure BitWriter where
  buffer : Nat
  bufferPos : Nat
  byteArray : List (BitVec 8)

namespace BitWriter

def bufferSize : Nat := 8

def create : BitWriter := ⟨0, 0, []⟩

def flush (w : BitWriter) : BitWriter :=
  if w.bufferPos = 0 then w else ⟨0, 0, w.byteArray ++ [BitVec.ofNat 8 w.buffer]⟩

/-- `GetFreeBufferBits`: the writer after it. -/
def getFreeBufferBits (w : BitWriter) : BitWriter := if w.bufferPos = bufferSize then w.flush else w

/-- One round of `WriteBits`: a piece of the value goes into the buffer. -/
def writePiece (shr : BitVec 32 → Nat → BitVec 32) (value : BitVec 32) (bitCount valuePos remaining : Nat)
    (w : BitWriter) : BitWriter × Nat :=
  let w := w.getFreeBufferBits
  let copySize := min remaining (bufferSize - w.bufferPos)
  let srcShift := bitCount - valuePos - copySize
  let dstShift := bufferSize - w.bufferPos - copySize
  let piece := (shr value srcShift).toNat % 2 ^ copySize
  ({ w with
      buffer := w.buffer ||| piece <<< dstShift
      bufferPos := w.bufferPos + copySize }, copySize)

/-- The loop of `WriteBits`.  A round writes a bit at least, so `bitCount` rounds are enough. -/
def writeLoop (shr : BitVec 32 → Nat → BitVec 32) (value : BitVec 32) (bitCount : Nat) :
    Nat → Nat → Nat → BitWriter → BitWriter
  | 0, _, _, w => w
  | fuel + 1, valuePos, remaining, w =>
    if remaining = 0 then w
    else
      let (w, copySize) := writePiece shr value bitCount valuePos remaining w
      writeLoop shr value bitCount fuel (valuePos + copySize) (remaining - copySize) w

/-- `WriteBits`, with the shift of a value. -/
def writeBits (shr : BitVec 32 → Nat → BitVec 32) (value : BitVec 32) (bitCount : Nat) (w : BitWriter) :
    BitWriter :=
  writeLoop shr value bitCount bitCount 0 bitCount w

end BitWriter

def countlZero (value : BitVec 32) : Nat := if value = 0 then 32 else 31 - value.toNat.log2

def zigZagDirect : List Nat :=
  [0, 1, 8, 16, 9, 2, 3, 10, 17, 24, 32, 25, 18, 11, 4, 5, 12, 19, 26, 33, 40, 48,
    41, 34, 27, 20, 13, 6, 7, 14, 21, 28, 35, 42, 49, 56, 57, 50, 43, 36, 29, 22, 15, 23,
    30, 37, 44, 51, 58, 59, 52, 45, 38, 31, 39, 46, 53, 60, 61, 54, 47, 55, 62, 63]

def zigZagScan : List Nat := [0, 1, 4, 8, 5, 2, 3, 6, 9, 12, 13, 10, 7, 11, 14, 15]

/-- The order that a scaling list of `count` entries is written in. -/
def scanOf (count : Nat) : List Nat := (if count = 16 then zigZagScan else zigZagDirect).take count

namespace H264BitWriter

def writeBits (value : BitVec 32) (bitCount : Nat) (w : BitWriter) : BitWriter :=
  w.writeBits BitVec.sshiftRight value bitCount

def writeU (value : BitVec 32) (valueSz : Nat) (w : BitWriter) : BitWriter := writeBits value valueSz w

def writeBit (state : Bool) (w : BitWriter) : BitWriter := writeBits (if state then 1 else 0) 1 w

/-- `WriteExpGolombCodedUInt`. -/
def writeUe (value : BitVec 32) (w : BitWriter) : BitWriter :=
  let size := 32 - countlZero (value + 1)
  writeBits (value - ((1 : BitVec 32) <<< (size - 1) - 1)) (size - 1) (writeBits 1 size w)

/-- `WriteExpGolombCodedInt`. -/
def writeSe (value : BitVec 32) (w : BitWriter) : BitWriter :=
  let sign : BitVec 32 := if value.sle 0 then 0 else 1
  let value := if value.slt 0 then -value else value
  writeUe (value <<< 1 - sign) w

/-- The loop of `WriteScalingList`, over the entries in scan order. -/
def writeScales : List (BitVec 8) → BitVec 8 → BitWriter → BitWriter
  | [], _, w => w
  | value :: rest, lastScale, w =>
    writeScales rest value (writeSe (value.setWidth 32 - lastScale.setWidth 32) w)

/-- The entries of a scaling list in scan order. -/
def scales (list : List (BitVec 8)) (start count : Nat) : List (BitVec 8) :=
  (scanOf count).map fun index => list.getD (start + index) 0

def writeScalingList (list : List (BitVec 8)) (start count : Nat) (w : BitWriter) : BitWriter :=
  writeScales (scales list start count) 8 w

def writeEnd (w : BitWriter) : BitWriter := (writeBit true w).flush

end H264BitWriter

namespace VpxBitStreamWriter

def writeBits (value : BitVec 32) (bitCount : Nat) (w : BitWriter) : BitWriter :=
  w.writeBits (fun value shift => value >>> shift) value bitCount

def writeU (value : BitVec 32) (valueSize : Nat) (w : BitWriter) : BitWriter :=
  writeBits value valueSize w

def writeS (value : BitVec 32) (valueSize : Nat) (w : BitWriter) : BitWriter :=
  let sign := value.slt 0
  let value := if sign then -value else value
  writeBits (value <<< 1 ||| if sign then 1 else 0) (valueSize + 1) w

def writeBit (state : Bool) (w : BitWriter) : BitWriter := writeBits (if state then 1 else 0) 1 w

def writeDeltaQ (value : BitVec 32) (w : BitWriter) : BitWriter :=
  let deltaCoded := value != 0
  let w := writeBit deltaCoded w
  if deltaCoded then writeBits value 4 w else w

end VpxBitStreamWriter

/-! ## What is written, and how it is read -/

/-- A call of the H.264 writer. -/
inductive H264Write where
  | u (value : BitVec 32) (valueSz : Nat)
  | bit (state : Bool)
  | ue (value : BitVec 32)
  | se (value : BitVec 32)
  | scalingList (list : List (BitVec 8)) (start count : Nat)
  | finish

/-- A call of the VP9 writer. -/
inductive VpxWrite where
  | u (value : BitVec 32) (valueSize : Nat)
  | s (value : BitVec 32) (valueSize : Nat)
  | bit (state : Bool)
  | deltaQ (value : BitVec 32)
  | flush

/-- An element of the two syntaxes. -/
inductive Element where
  | u (n : Nat)
  | ue
  | se
  | scalingList (count : Nat)
  | trailing
  | su (n : Nat)
  | deltaQ
  | align

/-- u(n), f(n). -/
def readU (n : Nat) (bits : List Bool) : Option (Int × List Bool) :=
  (read n bits).map fun (value, rest) => (↑value, rest)

/-- The zeros in front, the one, and as many bits as there were zeros. -/
def readUe (bits : List Bool) : Option (Nat × List Bool) :=
  let leadingZeroBits := (bits.takeWhile fun bit => !bit).length
  match bits.drop leadingZeroBits with
  | true :: rest => (read leadingZeroBits rest).map fun (value, rest) =>
      (2 ^ leadingZeroBits - 1 + value, rest)
  | _ => none

/-- 0, 1, -1, 2, -2, ... -/
def seOf (codeNum : Nat) : Int := if codeNum % 2 = 1 then (codeNum + 1) / 2 else -(codeNum / 2)

def readSe (bits : List Bool) : Option (Int × List Bool) :=
  (readUe bits).map fun (codeNum, rest) => (seOf codeNum, rest)

/-- The scaling list syntax: an entry is read while the scale is not zero, and repeated from there on. -/
def readScales : Nat → Int → Int → List Bool → Option (List Int × List Bool)
  | 0, _, _, bits => some ([], bits)
  | count + 1, lastScale, nextScale, bits =>
    let next : Option (Int × List Bool) :=
      if nextScale = 0 then some (0, bits)
      else (readSe bits).map fun (deltaScale, bits) => ((lastScale + deltaScale + 256) % 256, bits)
    next.bind fun (nextScale, bits) =>
      let scale := if nextScale = 0 then lastScale else nextScale
      (readScales count scale nextScale bits).map fun (scales, bits) => (scale :: scales, bits)

/-- Zeros up to the next byte; the bits that are left end at a byte. -/
def readZeros (bits : List Bool) : Option (List Bool) :=
  let padding := bits.length % 8
  if (bits.take padding).all (fun bit => !bit) then some (bits.drop padding) else none

/-- The stop bit, and zeros up to the next byte. -/
def readTrailing (bits : List Bool) : Option (List Bool) :=
  match bits with
  | true :: rest => readZeros rest
  | _ => none

/-- su(n): the bits, and the sign behind them. -/
def readSu (n : Nat) (bits : List Bool) : Option (Int × List Bool) :=
  (readU n bits).bind fun (value, rest) =>
    match rest with
    | sign :: rest => some (if sign then -value else value, rest)
    | [] => none

def readDeltaQ (bits : List Bool) : Option (Int × List Bool) :=
  match bits with
  | true :: rest => readSu 4 rest
  | false :: rest => some (0, rest)
  | [] => none

/-- The values of an element, and the rest. -/
def Element.read : Element → List Bool → Option (List Int × List Bool)
  | .u n, bits => (readU n bits).map fun (value, rest) => ([value], rest)
  | .ue, bits => (readUe bits).map fun (value, rest) => ([↑value], rest)
  | .se, bits => (readSe bits).map fun (value, rest) => ([value], rest)
  | .scalingList count, bits => readScales count 8 8 bits
  | .trailing, bits => (readTrailing bits).map fun rest => ([], rest)
  | .su n, bits => (readSu n bits).map fun (value, rest) => ([value], rest)
  | .deltaQ, bits => (readDeltaQ bits).map fun (value, rest) => ([value], rest)
  | .align, bits => (readZeros bits).map fun rest => ([], rest)

def readAll : List Element → List Bool → Option (List Int × List Bool)
  | [], bits => some ([], bits)
  | element :: elements, bits =>
    (element.read bits).bind fun (values, bits) =>
      (readAll elements bits).map fun (others, bits) => (values ++ others, bits)

namespace H264Write

def write : H264Write → BitWriter → BitWriter
  | .u value valueSz => H264BitWriter.writeU value valueSz
  | .bit state => H264BitWriter.writeBit state
  | .ue value => H264BitWriter.writeUe value
  | .se value => H264BitWriter.writeSe value
  | .scalingList list start count => H264BitWriter.writeScalingList list start count
  | .finish => H264BitWriter.writeEnd

def element : H264Write → Element
  | .u _ valueSz => .u valueSz
  | .bit _ => .u 1
  | .ue _ => .ue
  | .se _ => .se
  | .scalingList _ _ count => .scalingList count
  | .finish => .trailing

def values : H264Write → List Int
  | .u value _ => [↑value.toNat]
  | .bit state => [if state then 1 else 0]
  | .ue value => [↑value.toNat]
  | .se value => [value.toInt]
  | .scalingList list start count => (H264BitWriter.scales list start count).map fun scale => ↑scale.toNat
  | .finish => []

/-- What may be written: values of the size, and scales that are not zero. -/
def Valid : H264Write → Prop
  | .u value valueSz => 1 ≤ valueSz ∧ valueSz ≤ 31 ∧ value.toNat < 2 ^ valueSz
  | .ue value => value.toNat < 2 ^ 31 - 1
  | .se value => value.toInt.natAbs < 2 ^ 30
  | .scalingList list start count =>
      count ≤ 64 ∧ ∀ scale ∈ H264BitWriter.scales list start count, scale ≠ 0
  | _ => True

end H264Write

namespace VpxWrite

def write : VpxWrite → BitWriter → BitWriter
  | .u value valueSize => VpxBitStreamWriter.writeU value valueSize
  | .s value valueSize => VpxBitStreamWriter.writeS value valueSize
  | .bit state => VpxBitStreamWriter.writeBit state
  | .deltaQ value => VpxBitStreamWriter.writeDeltaQ value
  | .flush => BitWriter.flush

def element : VpxWrite → Element
  | .u _ valueSize => .u valueSize
  | .s _ valueSize => .su valueSize
  | .bit _ => .u 1
  | .deltaQ _ => .deltaQ
  | .flush => .align

def values : VpxWrite → List Int
  | .u value _ => [↑value.toNat]
  | .s value _ => [value.toInt]
  | .bit state => [if state then 1 else 0]
  | .deltaQ value => [value.toInt]
  | .flush => []

def Valid : VpxWrite → Prop
  | .u value valueSize => valueSize ≤ 32 ∧ value.toNat < 2 ^ valueSize
  | .s value valueSize => valueSize ≤ 31 ∧ value.toInt.natAbs < 2 ^ valueSize
  | _ => True

end VpxWrite

/-- A call: what it does, and what a reader makes of it. -/
structure Call where
  write : BitWriter → BitWriter
  element : Element
  values : List Int

def H264Write.call (call : H264Write) : Call := ⟨call.write, call.element, call.values⟩

def VpxWrite.call (call : VpxWrite) : Call := ⟨call.write, call.element, call.values⟩

def writeAll (calls : List Call) (w : BitWriter) : BitWriter := calls.foldl (fun w call => call.write w) w

/-- The bytes of a sequence of calls are read back as its values, and nothing is left. -/
def RoundTrips (calls : List Call) : Prop :=
  readAll (calls.map Call.element) (bitsOfBytes (writeAll calls .create).byteArray) =
    some (calls.flatMap Call.values, [])

/-- The calls of the H.264 writer and an `End`. -/
def H264RoundTrips (calls : List H264Write) : Prop :=
  RoundTrips ((calls ++ [H264Write.finish]).map H264Write.call)

/-- The calls of the VP9 writer and a `Flush`. -/
def VpxRoundTrips (calls : List VpxWrite) : Prop :=
  RoundTrips ((calls ++ [VpxWrite.flush]).map VpxWrite.call)

/-! ## The bits of a writer -/

namespace BitWriter

/-- The unused part of the buffer is empty. -/
structure Clean (w : BitWriter) : Prop where
  pos_le : w.bufferPos ≤ 8
  buffer_lt : w.buffer < 2 ^ 8
  unused : w.buffer % 2 ^ (8 - w.bufferPos) = 0

/-- All that was written. -/
def bits (w : BitWriter) : List Bool :=
  bitsOfBytes w.byteArray ++ bitsOf w.bufferPos (w.buffer >>> (8 - w.bufferPos))

theorem create_clean : create.Clean := ⟨by decide, by decide, by decide⟩

theorem length_bits (w : BitWriter) : w.bits.length = 8 * w.byteArray.length + w.bufferPos := by
  rw [bits, List.length_append, bitsOfBytes_length, length_bitsOf]

/-- How many zeros a flush writes. -/
def padding (w : BitWriter) : Nat := if w.bufferPos = 0 then 0 else 8 - w.bufferPos

variable {w : BitWriter} {shr : BitVec 32 → Nat → BitVec 32}

theorem flush_clean (h : w.Clean) : w.flush.Clean := by
  rw [flush]
  split
  · exact h
  · exact ⟨Nat.zero_le _, Nat.two_pow_pos 8, Nat.zero_mod _⟩

theorem flush_pos (w : BitWriter) : w.flush.bufferPos = 0 := by
  rw [flush]
  split
  · assumption
  · rfl

theorem flush_bits (h : w.Clean) : w.flush.bits = w.bits ++ List.replicate w.padding false := by
  rw [flush, padding]
  by_cases hpos : w.bufferPos = 0
  · rw [if_pos hpos, if_pos hpos, List.replicate_zero, List.append_nil]
  · rw [if_neg hpos, if_neg hpos]
    have hle := h.pos_le
    have hbyte : (BitVec.ofNat 8 w.buffer).toNat = w.buffer := Nat.mod_eq_of_lt h.buffer_lt
    have hsplit : bitsOf 8 w.buffer =
        bitsOf w.bufferPos (w.buffer >>> (8 - w.bufferPos)) ++ bitsOf (8 - w.bufferPos) w.buffer := by
      rw [← bitsOf_add, Nat.add_sub_cancel' hle]
    have hzeros : bitsOf (8 - w.bufferPos) w.buffer = List.replicate (8 - w.bufferPos) false := by
      have hnone := bitsOf_of_lt (n := 0) (v := 0) (8 - w.bufferPos) (by decide)
      rw [Nat.add_zero, bitsOf_zero, List.append_nil] at hnone
      rw [← bitsOf_mod, h.unused, hnone]
    rw [bits, bits, bitsOfBytes_append, bitsOf_zero, List.append_nil, List.append_assoc, ← hzeros,
        ← hsplit]
    simp [bitsOfBytes, hbyte]

theorem getFreeBufferBits_clean (h : w.Clean) :
    w.getFreeBufferBits.Clean ∧ w.getFreeBufferBits.bits = w.bits ∧
        w.getFreeBufferBits.bufferPos < 8 := by
  rw [getFreeBufferBits]
  by_cases hfull : w.bufferPos = bufferSize
  · rw [if_pos hfull]
    refine ⟨flush_clean h, ?_, by rw [flush_pos]; decide⟩
    have hnone : w.padding = 0 := by
      rw [padding, hfull]; rfl
    rw [flush_bits h, hnone, List.replicate_zero, List.append_nil]
  · rw [if_neg hfull]
    have hle := h.pos_le
    have hsize : bufferSize = 8 := rfl
    exact ⟨h, rfl, by omega⟩

/-- The shifts of the two writers agree where a piece is taken from. -/
def Shifts (shr : BitVec 32 → Nat → BitVec 32) : Prop :=
  ∀ value src copy, src + copy ≤ 32 → (shr value src).toNat % 2 ^ copy = (value.toNat >>> src) % 2 ^ copy

theorem put_bits (h : w.Clean) {copy piece : Nat} (hcopy : copy ≤ 8 - w.bufferPos)
    (hpiece : piece < 2 ^ copy) : let w' : BitWriter := { w with
      buffer := w.buffer ||| piece <<< (8 - w.bufferPos - copy)
      bufferPos := w.bufferPos + copy }
    w'.Clean ∧ w'.bits = w.bits ++ bitsOf copy piece := by
  obtain ⟨f, hf⟩ : ∃ f, f = 8 - w.bufferPos := ⟨_, rfl⟩
  obtain ⟨e, he⟩ : ∃ e, e = f - copy := ⟨_, rfl⟩
  rw [← hf, ← he]
  have hunused := h.unused
  rw [← hf] at hcopy hunused
  have hpos := h.pos_le
  have hmask : ∀ j < f, w.buffer.testBit j = false := by
    intro j hj
    have hbit : (w.buffer % 2 ^ f).testBit j = false := by rw [hunused, Nat.zero_testBit]
    rwa [Nat.testBit_mod_two_pow, decide_eq_true hj, Bool.true_and] at hbit
  have hmod : w.buffer % 2 ^ e = 0 :=
    Nat.mod_eq_zero_of_dvd ((Nat.pow_dvd_pow 2 (by omega)).trans (Nat.dvd_of_mod_eq_zero hunused))
  refine ⟨⟨?_, ?_, ?_⟩, ?_⟩
  · show w.bufferPos + copy ≤ 8
    omega
  · refine Nat.or_lt_two_pow h.buffer_lt ?_
    rw [Nat.shiftLeft_eq]
    calc piece * 2 ^ e < 2 ^ copy * 2 ^ e := Nat.mul_lt_mul_of_pos_right hpiece (Nat.two_pow_pos e)
      _ = 2 ^ (copy + e) := (Nat.pow_add 2 copy e).symm
      _ ≤ 2 ^ 8 := Nat.pow_le_pow_right (by omega) (by omega)
  · have hrest : 8 - (w.bufferPos + copy) = e := by omega
    show (w.buffer ||| piece <<< e) % 2 ^ (8 - (w.bufferPos + copy)) = 0
    rw [hrest, Nat.or_mod_two_pow, hmod, Nat.shiftLeft_eq, Nat.mul_mod_left]
    rfl
  · have hrest : 8 - (w.bufferPos + copy) = e := by omega
    show bitsOfBytes w.byteArray ++ bitsOf (w.bufferPos + copy)
        ((w.buffer ||| piece <<< e) >>> (8 - (w.bufferPos + copy))) = w.bits ++ bitsOf copy piece
    have hshifted : (w.buffer ||| piece <<< e) >>> e = w.buffer >>> e ||| piece := by
      rw [Nat.shiftRight_or_distrib, Nat.shiftLeft_shiftRight]
    have hfront : (w.buffer >>> e ||| piece) >>> copy = w.buffer >>> f := by
      have hnone : piece >>> copy = 0 := by
        rw [Nat.shiftRight_eq_div_pow]; exact Nat.div_eq_of_lt hpiece
      have hsum : e + copy = f := by omega
      rw [Nat.shiftRight_or_distrib, hnone, Nat.or_zero, ← Nat.shiftRight_add, hsum]
    have hback : bitsOf copy (w.buffer >>> e ||| piece) = bitsOf copy piece := by
      apply bitsOf_congr
      intro k hk
      rw [Nat.testBit_or, Nat.testBit_shiftRight, hmask (e + k) (by omega), Bool.false_or]
    rw [hrest, hshifted, bitsOf_add, hfront, hback, bits, ← hf, List.append_assoc]

theorem writePiece_bits (hshr : Shifts shr) {value : BitVec 32} {bitCount valuePos remaining : Nat}
    (hcount : bitCount ≤ 32) (hremaining : valuePos + remaining = bitCount) (hpos : 0 < remaining)
    {w' : BitWriter} {copySize : Nat} (h : w.Clean)
    (hpiece : writePiece shr value bitCount valuePos remaining w = (w', copySize)) :
    0 < copySize ∧ copySize ≤ remaining ∧ w'.Clean ∧
      w'.bits = w.bits ++ bitsOf copySize (value.toNat >>> (remaining - copySize)) := by
  obtain ⟨hclean, hbits, hfree⟩ := getFreeBufferBits_clean h
  rw [writePiece] at hpiece
  generalize w.getFreeBufferBits = v at hclean hbits hfree hpiece
  have hsize : bufferSize = 8 := rfl
  rw [hsize] at hpiece
  obtain ⟨hw', hcopy⟩ := Prod.mk.inj hpiece
  rw [hcopy] at hw'
  have hle : copySize ≤ 8 - v.bufferPos := by omega
  have hsrc : bitCount - valuePos - copySize = remaining - copySize := by omega
  have hfield := hshr value (remaining - copySize) copySize (by omega)
  rw [hsrc, hfield] at hw'
  obtain ⟨hclean', hbits'⟩ := put_bits hclean hle (Nat.mod_lt (value.toNat >>> (remaining - copySize))
    (Nat.two_pow_pos copySize))
  rw [← hw', ← hbits, ← bitsOf_mod]
  exact ⟨by omega, by omega, hclean', hbits'⟩

theorem writeLoop_bits (hshr : Shifts shr) {value : BitVec 32} {bitCount : Nat} (hcount : bitCount ≤ 32)
    {fuel valuePos remaining : Nat} (hfuel : remaining ≤ fuel)
    (hremaining : valuePos + remaining = bitCount) (h : w.Clean) :
    (writeLoop shr value bitCount fuel valuePos remaining w).Clean ∧
      (writeLoop shr value bitCount fuel valuePos remaining w).bits =
        w.bits ++ bitsOf remaining value.toNat := by
  induction fuel generalizing valuePos remaining w with
  | zero =>
    obtain rfl : remaining = 0 := by omega
    exact ⟨h, (List.append_nil _).symm⟩
  | succ fuel ih =>
    rw [writeLoop]
    by_cases hdone : remaining = 0
    · rw [if_pos hdone, hdone]
      exact ⟨h, (List.append_nil _).symm⟩
    · rw [if_neg hdone]
      generalize hpiece : writePiece shr value bitCount valuePos remaining w = piece
      obtain ⟨w', copySize⟩ := piece
      obtain ⟨hpos, hle, hclean, hbits⟩ := writePiece_bits hshr hcount hremaining (by omega) h hpiece
      obtain ⟨hclean', hbits'⟩ := ih (show remaining - copySize ≤ fuel by omega)
        (show valuePos + copySize + (remaining - copySize) = bitCount by omega) hclean
      refine ⟨hclean', ?_⟩
      have hsplit : bitsOf remaining value.toNat =
          bitsOf copySize (value.toNat >>> (remaining - copySize)) ++ bitsOf (remaining - copySize)
              value.toNat := by
        rw [← bitsOf_add, Nat.add_sub_cancel' hle]
      rw [hbits', hbits, hsplit, List.append_assoc]

theorem writeBits_bits (hshr : Shifts shr) (value : BitVec 32) {bitCount : Nat} (hcount : bitCount ≤ 32)
    (h : w.Clean) : (w.writeBits shr value bitCount).Clean ∧
      (w.writeBits shr value bitCount).bits = w.bits ++ bitsOf bitCount value.toNat :=
  writeLoop_bits hshr hcount le_rfl (Nat.zero_add _) h

theorem shifts_ushiftRight : Shifts fun value shift => value >>> shift := by
  intro value src copy _
  rw [BitVec.toNat_ushiftRight]

theorem shifts_sshiftRight : Shifts BitVec.sshiftRight := by
  intro value src copy hle
  apply Nat.eq_of_testBit_eq
  intro k
  rw [Nat.testBit_mod_two_pow, Nat.testBit_mod_two_pow, Nat.testBit_shiftRight, BitVec.testBit_toNat,
    BitVec.testBit_toNat, BitVec.getLsbD_sshiftRight]
  by_cases hk : k < copy
  · have hk32 : ¬ 32 ≤ k := by omega
    have hindex : src + k < 32 := by omega
    simp [hk32, hindex]
  · simp [hk]

end BitWriter

/-! ## One call -/

open BitWriter (Clean)

/-- What a call writes is read as its values, wherever it stands in a stream of whole bytes. -/
def Writes (write : BitWriter → BitWriter) (element : Element) (values : List Int) : Prop :=
  ∀ w, Clean w → ∃ string, Clean (write w) ∧ (write w).bits = w.bits ++ string ∧
    ∀ rest : List Bool, (w.bits.length + string.length + rest.length) % 8 = 0 →
      element.read (string ++ rest) = some (values, rest)

variable {w : BitWriter} {value : BitVec 32}

theorem h264_writeBits (value : BitVec 32) {bitCount : Nat} (hcount : bitCount ≤ 32) (h : Clean w) :
    Clean (H264BitWriter.writeBits value bitCount w) ∧
      (H264BitWriter.writeBits value bitCount w).bits = w.bits ++ bitsOf bitCount value.toNat :=
  BitWriter.writeBits_bits BitWriter.shifts_sshiftRight value hcount h

theorem vpx_writeBits (value : BitVec 32) {bitCount : Nat} (hcount : bitCount ≤ 32) (h : Clean w) :
    Clean (VpxBitStreamWriter.writeBits value bitCount w) ∧
      (VpxBitStreamWriter.writeBits value bitCount w).bits = w.bits ++ bitsOf bitCount value.toNat :=
  BitWriter.writeBits_bits BitWriter.shifts_ushiftRight value hcount h

theorem readU_of_lt {n v : Nat} (h : v < 2 ^ n) (rest : List Bool) :
    readU n (bitsOf n v ++ rest) = some (↑v, rest) := by
  rw [readU, read_of_lt h]; rfl

theorem writes_u {write : BitWriter → BitWriter} {n v : Nat} (h : v < 2 ^ n)
    (hbits : ∀ w, Clean w → Clean (write w) ∧ (write w).bits = w.bits ++ bitsOf n v) :
    Writes write (.u n) [↑v] := by
  intro w hw
  obtain ⟨hclean, hw'⟩ := hbits w hw
  refine ⟨_, hclean, hw', fun rest _ => ?_⟩
  rw [Element.read, readU_of_lt h]
  rfl

theorem bit_toNat (state : Bool) : (if state then (1 : BitVec 32) else 0).toNat = state.toNat := by
  cases state <;> rfl

theorem writes_bit {write : BitWriter → BitWriter} {state : Bool}
    (hbits : ∀ w, Clean w → Clean (write w) ∧
      (write w).bits = w.bits ++ bitsOf 1 (if state then (1 : BitVec 32) else 0).toNat) :
    Writes write (.u 1) [if state then 1 else 0] := by
  rw [bit_toNat] at hbits
  have hwrites := writes_u (n := 1) (v := state.toNat) (by cases state <;> decide) hbits
  cases state <;> exact hwrites

/-! ## Zeros -/

theorem readZeros_replicate {k : Nat} (hk : k < 8) {rest : List Bool} (hrest : rest.length % 8 = 0) :
    readZeros (List.replicate k false ++ rest) = some rest := by
  have hpadding : (List.replicate k false ++ rest).length % 8 = k := by
    rw [List.length_append, List.length_replicate]; omega
  have htake : (List.replicate k false ++ rest).take k = List.replicate k false :=
    List.take_left' List.length_replicate
  have hdrop : (List.replicate k false ++ rest).drop k = rest := List.drop_left' List.length_replicate
  rw [readZeros, hpadding, htake, hdrop]
  simp

theorem padding_lt (h : Clean w) : w.padding < 8 ∧ (w.bits.length + w.padding) % 8 = 0 := by
  have hle := h.pos_le
  rw [BitWriter.length_bits, BitWriter.padding]
  split <;> omega

theorem writes_flush : Writes BitWriter.flush .align [] := by
  intro w hw
  obtain ⟨hlt, hmod⟩ := padding_lt hw
  refine ⟨_, BitWriter.flush_clean hw, BitWriter.flush_bits hw, fun rest hrest => ?_⟩
  rw [List.length_replicate] at hrest
  rw [Element.read, readZeros_replicate hlt (by omega)]
  rfl

theorem writes_end : Writes H264BitWriter.writeEnd .trailing [] := by
  intro w hw
  obtain ⟨hclean, hbits⟩ := h264_writeBits 1 (show 1 ≤ 32 by decide) hw
  obtain ⟨hlt, hmod⟩ := padding_lt hclean
  refine ⟨[true] ++ List.replicate (H264BitWriter.writeBits 1 1 w).padding false,
      BitWriter.flush_clean hclean,
    ?_, fun rest hrest => ?_⟩
  · show (H264BitWriter.writeBits 1 1 w).flush.bits = _
    rw [BitWriter.flush_bits hclean, hbits, List.append_assoc]
    rfl
  · rw [hbits, List.length_append, length_bitsOf] at hmod
    rw [List.length_append, List.length_replicate, List.length_singleton] at hrest
    show (readTrailing (true :: (List.replicate _ false ++ rest))).map _ = _
    rw [readTrailing, readZeros_replicate hlt (by omega)]; rfl

/-! ## Exp-Golomb codes -/

theorem sub_countlZero {v : BitVec 32} (h : v ≠ 0) : 32 - countlZero v = v.toNat.log2 + 1 := by
  have hne : v.toNat ≠ 0 := fun hzero => h (BitVec.eq_of_toNat_eq hzero)
  have hlt : v.toNat.log2 < 32 := (Nat.log2_lt hne).mpr v.isLt
  rw [countlZero, if_neg h]
  omega

/-- The code of a number below 2^31 - 1. -/
def ueBits (v : Nat) : List Bool :=
  List.replicate (v + 1).log2 false ++ true :: bitsOf (v + 1).log2 (v + 1 - 2 ^ (v + 1).log2)

theorem writeUe_bits (hvalue : value.toNat < 2 ^ 31 - 1) (h : Clean w) :
    Clean (H264BitWriter.writeUe value w) ∧
      (H264BitWriter.writeUe value w).bits = w.bits ++ ueBits value.toNat := by
  have hone : (1 : BitVec 32).toNat = 1 := rfl
  have hsucc : (value + 1).toNat = value.toNat + 1 := by
    rw [BitVec.toNat_add, hone]; omega
  have hne : value + 1 ≠ 0 := by
    intro hzero
    rw [hzero] at hsucc
    have h0 : (0 : BitVec 32).toNat = 0 := rfl
    omega
  have hsize := sub_countlZero hne
  rw [hsucc] at hsize
  have hlog : 2 ^ (value.toNat + 1).log2 ≤ value.toNat + 1 := Nat.log2_self_le (by omega)
  have hlog31 : (value.toNat + 1).log2 < 31 := (Nat.log2_lt (by omega)).mpr (by omega)
  generalize hk : (value.toNat + 1).log2 = k at hsize hlog hlog31
  have hsuffix : (value - ((1 : BitVec 32) <<< k - 1)).toNat = value.toNat + 1 - 2 ^ k := by
    have hpow : (2 : Nat) ^ k < 2 ^ 31 := Nat.pow_lt_pow_right (by decide) hlog31
    have hpos := Nat.two_pow_pos k
    have hshift : ((1 : BitVec 32) <<< k).toNat = 2 ^ k := by
      rw [BitVec.toNat_shiftLeft, hone, Nat.one_shiftLeft]; exact Nat.mod_eq_of_lt (by omega)
    rw [BitVec.toNat_sub, BitVec.toNat_sub, hshift, hone]; omega
  obtain ⟨hclean₁, hbits₁⟩ := h264_writeBits 1 (show k + 1 ≤ 32 by omega) h
  obtain ⟨hclean₂, hbits₂⟩ :=
    h264_writeBits (value - ((1 : BitVec 32) <<< k - 1)) (show k ≤ 32 by omega) hclean₁
  have hwrite : H264BitWriter.writeUe value w =
      H264BitWriter.writeBits (value - ((1 : BitVec 32) <<< k - 1))
          k (H264BitWriter.writeBits 1 (k + 1) w) := by
    rw [H264BitWriter.writeUe, hsize]; rfl
  have hstop : bitsOf (k + 1) 1 = List.replicate k false ++ [true] := bitsOf_of_lt (n := 1) k (by decide)
  rw [hwrite]
  refine ⟨hclean₂, ?_⟩
  rw [hbits₂, hbits₁, hone, hsuffix, hstop, ueBits, hk]
  simp

theorem readUe_append (v : Nat) (rest : List Bool) : readUe (ueBits v ++ rest) = some (v, rest) := by
  have hlog : 2 ^ (v + 1).log2 ≤ v + 1 := Nat.log2_self_le (by omega)
  have hlt : v + 1 < 2 ^ ((v + 1).log2 + 1) := Nat.lt_log2_self
  rw [Nat.pow_succ] at hlt
  rw [ueBits]
  generalize (v + 1).log2 = k at hlog hlt
  have hzeros : ((List.replicate k false ++ true :: bitsOf k (v + 1 - 2 ^ k) ++ rest).takeWhile
      fun bit => !bit).length = k := by
    rw [List.append_assoc, List.takeWhile_append_of_pos (by simp)]; simp
  have hdrop : (List.replicate k false ++ true :: bitsOf k (v + 1 - 2 ^ k) ++ rest).drop k =
      true :: (bitsOf k (v + 1 - 2 ^ k) ++ rest) := by
    rw [List.append_assoc]; exact List.drop_left' List.length_replicate
  rw [readUe, hzeros, hdrop]
  show (read k (bitsOf k (v + 1 - 2 ^ k) ++ rest)).map _ = _
  rw [read_of_lt (by omega)]
  simp only [Option.map_some, Option.some.injEq, Prod.mk.injEq, and_true]
  omega

theorem writes_ue (hvalue : value.toNat < 2 ^ 31 - 1) :
    Writes (H264BitWriter.writeUe value) .ue [↑value.toNat] := by
  intro w hw
  obtain ⟨hclean, hbits⟩ := writeUe_bits hvalue hw
  refine ⟨_, hclean, hbits, fun rest _ => ?_⟩
  rw [Element.read, readUe_append]
  rfl

theorem magnitude_toNat (value : BitVec 32) (h : value.toInt.natAbs < 2 ^ 31) :
    (if value.slt 0 then -value else value).toNat = value.toInt.natAbs := by
  have hlt := value.isLt
  have hzero : (0 : BitVec 32).toInt = 0 := rfl
  have htoInt := BitVec.toInt_eq_toNat_cond value
  by_cases hneg : value.slt 0 = true
  · have hneg' := BitVec.slt_iff_toInt_lt.mp hneg
    rw [if_pos hneg, BitVec.toNat_neg]
    rw [hzero] at hneg'
    split at htoInt <;> omega
  · have hpos : ¬ value.toInt < (0 : BitVec 32).toInt := fun hlt => hneg (BitVec.slt_iff_toInt_lt.mpr hlt)
    rw [if_neg hneg]
    rw [hzero] at hpos
    split at htoInt <;> omega

theorem seCode_toNat (h : value.toInt.natAbs < 2 ^ 30) :
    ((if value.slt 0 then -value else value) <<< 1 - if value.sle 0 then 0 else 1).toNat =
      2 * value.toInt.natAbs - if 0 < value.toInt then 1 else 0 := by
  have hmagnitude := magnitude_toNat value (by omega)
  have hzero : (0 : BitVec 32).toInt = 0 := rfl
  generalize (if value.slt 0 then -value else value) = m at hmagnitude
  have hshift : (m <<< 1).toNat = 2 * value.toInt.natAbs := by
    rw [BitVec.toNat_shiftLeft, Nat.shiftLeft_eq, hmagnitude]; omega
  by_cases hle : value.sle 0 = true
  · have hle' := BitVec.sle_iff_toInt_le.mp hle
    rw [hzero] at hle'
    have h0 : (0 : BitVec 32).toNat = 0 := rfl
    rw [if_pos hle, if_neg (by omega), BitVec.toNat_sub, hshift, h0]
    omega
  · have hpos : 0 < value.toInt := by
      by_contra hnot
      exact hle (BitVec.sle_iff_toInt_le.mpr (by rw [hzero]; omega))
    have h1 : (1 : BitVec 32).toNat = 1 := rfl
    rw [if_neg hle, if_pos hpos, BitVec.toNat_sub, hshift, h1]; omega

/-- The code of a signed value. -/
def seBits (value : Int) : List Bool := ueBits (2 * value.natAbs - if 0 < value then 1 else 0)

theorem writeSe_bits (h : value.toInt.natAbs < 2 ^ 30) (hw : Clean w) :
    Clean (H264BitWriter.writeSe value w) ∧
      (H264BitWriter.writeSe value w).bits = w.bits ++ seBits value.toInt := by
  have hcode := seCode_toNat h
  have hlt : ((if value.slt 0 then -value else value) <<< 1 -
      if value.sle 0 then 0 else 1).toNat < 2 ^ 31 - 1 := by
    rw [hcode]; omega
  have hbits := writeUe_bits hlt hw
  rw [hcode] at hbits
  exact hbits

theorem readSe_append (value : Int) (rest : List Bool) :
    readSe (seBits value ++ rest) = some (value, rest) := by
  rw [readSe, seBits, readUe_append]
  simp only [Option.map_some, Option.some.injEq, Prod.mk.injEq, and_true]
  rw [seOf]
  by_cases hpos : 0 < value
  · rw [if_pos hpos]
    split <;> omega
  · rw [if_neg hpos]
    split <;> omega

theorem writes_se (h : value.toInt.natAbs < 2 ^ 30) :
    Writes (H264BitWriter.writeSe value) .se [value.toInt] := by
  intro w hw
  obtain ⟨hclean, hbits⟩ := writeSe_bits h hw
  refine ⟨_, hclean, hbits, fun rest _ => ?_⟩
  rw [Element.read, readSe_append]
  rfl

/-! ## Scaling lists -/

/-- The codes of the differences. -/
def scalesBits : List (BitVec 8) → BitVec 8 → List Bool
  | [], _ => []
  | value :: rest, lastScale => seBits (↑value.toNat - ↑lastScale.toNat) ++ scalesBits rest value

theorem delta_toInt (value lastScale : BitVec 8) :
    (value.setWidth 32 - lastScale.setWidth 32 : BitVec 32).toInt = ↑value.toNat - ↑lastScale.toNat := by
  have hvalue := value.isLt
  have hlast := lastScale.isLt
  rw [BitVec.toInt_eq_toNat_cond, BitVec.toNat_sub, BitVec.toNat_setWidth, BitVec.toNat_setWidth]
  split <;> omega

theorem writeScales_bits (scales : List (BitVec 8)) (lastScale : BitVec 8) (h : Clean w) :
    Clean (H264BitWriter.writeScales scales lastScale w) ∧
      (H264BitWriter.writeScales scales lastScale w).bits = w.bits ++ scalesBits scales lastScale := by
  induction scales generalizing lastScale w with
  | nil => exact ⟨h, (List.append_nil _).symm⟩
  | cons value rest ih =>
    have hvalue := value.isLt
    have hlast := lastScale.isLt
    have hdelta := delta_toInt value lastScale
    have hlt : (value.setWidth 32 - lastScale.setWidth 32).toInt.natAbs < 2 ^ 30 := by
      rw [hdelta]; omega
    obtain ⟨hclean, hbits⟩ := writeSe_bits hlt h
    obtain ⟨hclean', hbits'⟩ := ih value hclean
    refine ⟨hclean', ?_⟩
    rw [H264BitWriter.writeScales, hbits', hbits, hdelta, scalesBits, List.append_assoc]

theorem readScales_append (scales : List (BitVec 8)) (hscales : ∀ scale ∈ scales, scale ≠ 0)
    (lastScale : BitVec 8) (nextScale : Int) (hnext : nextScale ≠ 0) (rest : List Bool) :
    readScales scales.length lastScale.toNat nextScale (scalesBits scales lastScale ++ rest) =
      some (scales.map fun scale => ↑scale.toNat, rest) := by
  induction scales generalizing lastScale nextScale with
  | nil => rfl
  | cons value others ih =>
    have hvalue : (value.toNat : Int) ≠ 0 := by
      intro hzero
      exact hscales value List.mem_cons_self (BitVec.eq_of_toNat_eq (Int.ofNat.inj hzero))
    have hlt := value.isLt
    have hscale : ((lastScale.toNat : Int) + (↑value.toNat - ↑lastScale.toNat) + 256) % 256
        = ↑value.toNat := by
      omega
    have hothers := ih (fun scale hscale =>
        hscales scale (List.mem_cons_of_mem _ hscale)) value ↑value.toNat hvalue
    rw [List.length_cons, readScales, if_neg hnext, scalesBits, List.append_assoc, readSe_append]
    simp only [Option.map_some, Option.bind_some, hscale, if_neg hvalue, hothers, List.map_cons]

theorem length_scanOf {count : Nat} (h : count ≤ 64) : (scanOf count).length = count := by
  rw [scanOf, List.length_take]
  split
  · next h16 =>
    rw [h16]
    rfl
  · exact Nat.min_eq_left h

theorem writes_scalingList {list : List (BitVec 8)} {start count : Nat} (hcount : count ≤ 64)
    (hscales : ∀ scale ∈ H264BitWriter.scales list start count, scale ≠ 0) :
    Writes (H264BitWriter.writeScalingList list start count) (.scalingList count)
      ((H264BitWriter.scales list start count).map fun scale => ↑scale.toNat) := by
  intro w hw
  obtain ⟨hclean, hbits⟩ := writeScales_bits (H264BitWriter.scales list start count) 8 hw
  refine ⟨_, hclean, hbits, fun rest _ => ?_⟩
  have hread := readScales_append _ hscales 8 8 (by decide) rest
  have hlength : (H264BitWriter.scales list start count).length = count := by
    rw [H264BitWriter.scales, List.length_map, length_scanOf hcount]
  rw [hlength] at hread
  exact hread

/-! ## Signed values of VP9 -/

theorem readSu_append {n v : Nat} (h : v < 2 ^ n) (sign : Bool) (rest : List Bool) :
    readSu n (bitsOf n v ++ sign :: rest) = some (if sign then -↑v else ↑v, rest) := by
  rw [readSu, readU_of_lt h]; rfl

theorem signed_toNat (h : value.toInt.natAbs < 2 ^ 31) :
    ((if value.slt 0 then -value else value) <<< 1 ||| if value.slt 0 then 1 else 0).toNat =
      value.toInt.natAbs <<< 1 + (value.slt 0).toNat := by
  have hmagnitude := magnitude_toNat value h
  generalize (if value.slt 0 then -value else value) = m at hmagnitude
  have hlt : m.toNat <<< 1 < 2 ^ 32 := by
    rw [hmagnitude, Nat.shiftLeft_eq]; omega
  rw [BitVec.toNat_or, BitVec.toNat_shiftLeft, Nat.mod_eq_of_lt hlt, hmagnitude, bit_toNat,
    Nat.shiftLeft_add_eq_or_of_lt (Bool.toNat_lt _)]

theorem bitsOf_signed (n m : Nat) (sign : Bool) :
    bitsOf (n + 1) (m <<< 1 + sign.toNat) = bitsOf n m ++ [sign] := by
  have hhalf : (m <<< 1 + sign.toNat) >>> 1 = m := by
    rw [Nat.shiftLeft_eq, Nat.shiftRight_eq_div_pow]
    cases sign
    · simp
    · simp [Bool.toNat]; omega
  have hlast : bitsOf 1 (m <<< 1 + sign.toNat) = [sign] := by
    rw [← bitsOf_mod, Nat.shiftLeft_eq]; cases sign <;> simp [Bool.toNat, bitsOf]
  rw [bitsOf_add, hhalf, hlast]

theorem slt_zero_iff (value : BitVec 32) : value.slt 0 = true ↔ value.toInt < 0 := by
  have hzero : (0 : BitVec 32).toInt = 0 := rfl
  rw [BitVec.slt_iff_toInt_lt, hzero]

theorem writes_s {n : Nat} (hn : n ≤ 31) (h : value.toInt.natAbs < 2 ^ n) :
    Writes (VpxBitStreamWriter.writeS value n) (.su n) [value.toInt] := by
  have hpow : (2 : Nat) ^ n ≤ 2 ^ 31 := Nat.pow_le_pow_right (by omega) hn
  have hword := signed_toNat (show value.toInt.natAbs < 2 ^ 31 by omega)
  intro w hw
  obtain ⟨hclean, hbits⟩ := vpx_writeBits ((if value.slt 0 then -value else value) <<< 1 |||
    if value.slt 0 then 1 else 0) (show n + 1 ≤ 32 by omega) hw
  rw [hword, bitsOf_signed] at hbits
  refine ⟨_, hclean, hbits, fun rest _ => ?_⟩
  rw [Element.read, List.append_assoc, List.singleton_append, readSu_append h]
  simp only [Option.map_some, Option.some.injEq, Prod.mk.injEq, and_true, List.cons.injEq]
  by_cases hneg : value.slt 0 = true
  · have hlt := (slt_zero_iff value).mp hneg
    rw [if_pos hneg]
    omega
  · have hge : ¬ value.toInt < 0 := fun hlt => hneg ((slt_zero_iff value).mpr hlt)
    rw [if_neg hneg]; omega

theorem writes_deltaQ_zero : Writes (VpxBitStreamWriter.writeDeltaQ 0) .deltaQ [0] := by
  intro w hw
  obtain ⟨hclean, hbits⟩ := vpx_writeBits 0 (show 1 ≤ 32 by decide) hw
  exact ⟨[false], hclean, hbits, fun rest _ => rfl⟩

/-! ## Sequences of calls -/

theorem readAll_writes {calls : List Call}
    (hcalls : ∀ call ∈ calls, Writes call.write call.element call.values) (hw : Clean w) :
    ∃ string, Clean (writeAll calls w) ∧ (writeAll calls w).bits = w.bits ++ string ∧
      ∀ rest : List Bool, (w.bits.length + string.length + rest.length) % 8 = 0 →
        readAll (calls.map Call.element) (string ++ rest) = some (calls.flatMap Call.values, rest) := by
  induction calls generalizing w with
  | nil => exact ⟨[], hw, (List.append_nil _).symm, fun rest _ => rfl⟩
  | cons call calls ih =>
    obtain ⟨first, hclean, hbits, hfirst⟩ := hcalls call List.mem_cons_self w hw
    obtain ⟨others, hclean', hbits', hothers⟩ :=
      ih (fun other hother => hcalls other (List.mem_cons_of_mem _ hother)) hclean
    refine ⟨first ++ others, hclean', ?_, fun rest hrest => ?_⟩
    · show (writeAll calls (call.write w)).bits = _
      rw [hbits', hbits, List.append_assoc]
    · rw [List.length_append] at hrest
      have hfirst' := hfirst (others ++ rest) (by rw [List.length_append]; omega)
      have hothers' := hothers rest (by rw [hbits, List.length_append]; omega)
      rw [List.map_cons, readAll, List.append_assoc, hfirst']
      show (readAll (calls.map Call.element) (others ++ rest)).map _ = _
      rw [hothers', List.flatMap_cons]; rfl

theorem roundTrips_of_writes {calls : List Call}
    (hcalls : ∀ call ∈ calls, Writes call.write call.element call.values)
    (hflushed : (writeAll calls .create).bufferPos = 0) : RoundTrips calls := by
  obtain ⟨string, -, hbits, hread⟩ := readAll_writes hcalls BitWriter.create_clean
  have hempty : BitWriter.create.bits = [] := rfl
  rw [hempty, List.nil_append, BitWriter.bits, hflushed, bitsOf_zero, List.append_nil] at hbits
  rw [hempty, ← hbits, bitsOfBytes_length] at hread
  have hall := hread [] (by simp)
  rw [List.append_nil] at hall
  exact hall

theorem h264_writes {call : H264Write} (h : call.Valid) : Writes call.write call.element call.values := by
  cases call with
  | u value valueSz =>
    obtain ⟨-, hsize, hvalue⟩ := h
    exact writes_u hvalue fun w hw => h264_writeBits value (by omega) hw
  | bit state => exact writes_bit fun w hw => h264_writeBits _ (by decide) hw
  | ue value => exact writes_ue h
  | se value => exact writes_se h
  | scalingList list start count => exact writes_scalingList h.1 h.2
  | finish => exact writes_end

theorem h264RoundTrips (calls : List H264Write) (hcalls : ∀ call ∈ calls, call.Valid) :
    H264RoundTrips calls := by
  refine roundTrips_of_writes (fun call hcall => ?_) ?_
  · obtain ⟨call, hmem, rfl⟩ := List.mem_map.mp hcall
    rcases List.mem_append.mp hmem with hmem | hmem
    · exact h264_writes (hcalls call hmem)
    · rw [List.mem_singleton.mp hmem]; exact writes_end
  · rw [writeAll, List.map_append, List.foldl_append]; exact BitWriter.flush_pos _

theorem vpx_writes {call : VpxWrite} (h : call.Valid)
    (hdelta : ∀ value, call = .deltaQ value → value = 0) :
    Writes call.write call.element call.values := by
  cases call with
  | u value valueSize => exact writes_u h.2 fun w hw => vpx_writeBits value h.1 hw
  | s value valueSize => exact writes_s h.1 h.2
  | bit state => exact writes_bit fun w hw => vpx_writeBits _ (by decide) hw
  | deltaQ value =>
    rw [hdelta value rfl]; exact writes_deltaQ_zero
  | flush => exact writes_flush

theorem vpxRoundTrips (calls : List VpxWrite) (hcalls : ∀ call ∈ calls, call.Valid)
    (hdeltas : ∀ value, .deltaQ value ∈ calls → value = 0) : VpxRoundTrips calls := by
  refine roundTrips_of_writes (fun call hcall => ?_) ?_
  · obtain ⟨call, hmem, rfl⟩ := List.mem_map.mp hcall
    rcases List.mem_append.mp hmem with hmem | hmem
    · exact vpx_writes (hcalls call hmem) fun value hvalue => hdeltas value (hvalue ▸ hmem)
    · rw [List.mem_singleton.mp hmem]; exact writes_flush
  · rw [writeAll, List.map_append, List.foldl_append]; exact BitWriter.flush_pos _

/-! ## The missing sign -/

/-- A delta, and a bit behind it. -/
def deltaThenBit (value : BitVec 32) (state : Bool) : List VpxWrite := [.deltaQ value, .bit state]

theorem deltaThenBit_bits (h : value ≠ 0) (state : Bool) :
    ∃ rest, bitsOfBytes (writeAll ((deltaThenBit value state ++ [VpxWrite.flush]).map VpxWrite.call)
        .create).byteArray =
      true :: (bitsOf 4 value.toNat ++ state :: rest) := by
  obtain ⟨hclean₁, hbits₁⟩ := vpx_writeBits 1 (show 1 ≤ 32 by decide) BitWriter.create_clean
  obtain ⟨hclean₂, hbits₂⟩ := vpx_writeBits value (show 4 ≤ 32 by decide) hclean₁
  obtain ⟨hclean₃, hbits₃⟩ :=
    vpx_writeBits (if state then 1 else 0) (show 1 ≤ 32 by decide) hclean₂
  have hbits := BitWriter.flush_bits hclean₃
  rw [hbits₃, hbits₂, hbits₁, BitWriter.bits, BitWriter.flush_pos, bitsOf_zero, List.append_nil,
      bit_toNat] at hbits
  have hcoded : (value != 0) = true := bne_iff_ne.mpr h
  have hwrite : ∀ w, VpxBitStreamWriter.writeDeltaQ value w =
      VpxBitStreamWriter.writeBits value 4 (VpxBitStreamWriter.writeBits 1 1 w) := by
    intro w
    rw [VpxBitStreamWriter.writeDeltaQ, hcoded]; rfl
  have hlast : bitsOf 1 state.toNat = [state] := by cases state <;> rfl
  have hempty : BitWriter.create.bits = [] := rfl
  have hone : bitsOf 1 (1 : BitVec 32).toNat = [true] := rfl
  rw [hempty, hone, hlast, List.nil_append, List.append_assoc, List.append_assoc, List.singleton_append,
    List.singleton_append] at hbits
  generalize List.replicate _ false = rest at hbits
  refine ⟨rest, ?_⟩
  show bitsOfBytes (VpxBitStreamWriter.writeBit state
    (VpxBitStreamWriter.writeDeltaQ value BitWriter.create)).flush.byteArray = _
  rw [hwrite]
  exact hbits

theorem eq_of_vpxRoundTrips (h : value ≠ 0) {state : Bool}
    (hround : VpxRoundTrips (deltaThenBit value state)) :
    value.toInt = if state then -((value.toNat % 2 ^ 4 : Nat) : Int)
        else (value.toNat % 2 ^ 4 : Nat) := by
  obtain ⟨rest, hbits⟩ := deltaThenBit_bits h state
  have hsu : readSu 4 (bitsOf 4 value.toNat ++ state :: rest) =
      some (if state then -((value.toNat % 2 ^ 4 : Nat) : Int)
          else (value.toNat % 2 ^ 4 : Nat), rest) := by
    rw [← bitsOf_mod, readSu_append (Nat.mod_lt _ (Nat.two_pow_pos 4))]
  have hread : Element.deltaQ.read (true :: (bitsOf 4 value.toNat ++ state :: rest)) =
      some ([if state then -((value.toNat % 2 ^ 4 : Nat) : Int) else (value.toNat % 2 ^ 4 : Nat)],
          rest) := by
    rw [Element.read, readDeltaQ, hsu]; rfl
  rw [VpxRoundTrips, RoundTrips, hbits] at hround
  have helements : ((deltaThenBit value state ++ [VpxWrite.flush]).map VpxWrite.call).map Call.element =
      .deltaQ :: [.u 1, .align] := rfl
  rw [helements, readAll, hread, Option.bind_some, Option.map_eq_some_iff] at hround
  obtain ⟨others, -, hvalues⟩ := hround
  exact (List.cons.inj (Prod.mk.inj hvalues).1).1.symm

theorem not_vpxRoundTrips (h : value ≠ 0) :
    ∃ state, ¬ VpxRoundTrips (deltaThenBit value state) := by
  by_contra hall
  have hround : ∀ state, VpxRoundTrips (deltaThenBit value state) := by simpa using hall
  have hplus := eq_of_vpxRoundTrips h (hround false)
  have hminus := eq_of_vpxRoundTrips h (hround true)
  rw [if_neg (by decide)] at hplus
  rw [if_pos rfl] at hminus
  have hzero : value.toInt = 0 := by omega
  exact h (BitVec.eq_of_toInt_eq hzero)

/-- **Every sequence of calls that writes no other delta round-trips** exactly if zero is the only
    delta. -/
theorem bitWriters_roundTrip_iff (deltas : Set (BitVec 32)) :
    ((∀ calls : List H264Write, (∀ call ∈ calls, call.Valid) → H264RoundTrips calls) ∧
      ∀ calls : List VpxWrite, (∀ call ∈ calls, call.Valid) →
          (∀ value, .deltaQ value ∈ calls → value ∈ deltas) →
        VpxRoundTrips calls) ↔
    ∀ value ∈ deltas, value = 0 := by
  constructor
  · rintro ⟨-, hround⟩ value hvalue
    by_contra hne
    obtain ⟨state, hnot⟩ := not_vpxRoundTrips hne
    refine hnot (hround _ ?_ ?_)
    · intro call hcall
      rcases List.mem_cons.mp hcall with rfl | hcall
      · trivial
      · rw [List.mem_singleton.mp hcall]; trivial
    · intro other hother
      rcases List.mem_cons.mp hother with heq | hother
      · rw [VpxWrite.deltaQ.inj heq]
        exact hvalue
      · cases List.mem_singleton.mp hother
  · intro hzero
    exact ⟨h264RoundTrips, fun calls hcalls hdeltas =>
      vpxRoundTrips calls hcalls fun value hvalue => hzero value (hdeltas value hvalue)⟩

/-- A delta of 3 and a set bit are read as a delta of -3 and a clear bit. -/
theorem not_vpxRoundTrips_three :
    ¬ VpxRoundTrips [.deltaQ 3, .bit true] ∧
      (readAll [.deltaQ, .u 1, .align]
        (bitsOfBytes (writeAll ([.deltaQ 3, .bit true, .flush].map VpxWrite.call) .create).byteArray)).map
          Prod.fst = some [-3, 0] := by
  refine ⟨?_, by decide +kernel⟩
  intro hround
  have heq := eq_of_vpxRoundTrips (show (3 : BitVec 32) ≠ 0 by decide) hround
  exact absurd heq (by decide)

end Suyu.Decoders
