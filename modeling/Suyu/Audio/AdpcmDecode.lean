import Mathlib

/-
  `DecodeAdpcm` - frames of a header byte and fourteen nibbles, decoded in pieces.

  1. **Program** - a call turns its first SAMPLE into the position of a nibble, fetches a window of bytes
     from there on, and goes through it: a whole frame at once, or nibble by nibble.

  2. **Specification (`CutExact`)** - however the samples are cut into calls, they are those of a decoder
     that looks up header and nibble of each sample (`reference`), and no byte is read outside the window
     or behind the bytes that `end_offset` covers.

  3. **The crux (`decodeLoop_reference`)** - the index in the window is the place of the current sample
     minus the place of the first one; a whole frame is fourteen steps of the reference.

  4. **When it goes wrong** - positions and the size of the window are `u32`: from sample 14 * 2^28 on a
     call begins at the wrong byte.  And a header may select one of SIXTEEN pairs, of which there are eight.

  Addresses are relative to the buffer, which is not null.  Sums of products wrap at 32 bits.
-/

namespace Suyu.Audio.Adpcm

abbrev Byte := BitVec 8

/-! ## One sample -/

structure AdpcmContext where
  header : Nat
  yn0 : Int
  yn1 : Int
  deriving DecidableEq, Repr

/-- What a header stands for. -/
structure Frame where
  scale : Nat
  coeff0 : Int
  coeff1 : Int

def steps : List Int := [0, 1, 2, 3, 4, 5, 6, 7, -8, -7, -6, -5, -4, -3, -2, -1]

/-- `coefficients[i]`, an array of 16. -/
def coefficient (coefficients : Fin 16 → Int) (i : Nat) : Option Int :=
  if h : i < 16 then some (coefficients ⟨i, h⟩) else none

def loadHeader (coefficients : Fin 16 → Int) (header : Nat) : Option Frame := do
  let coeffIndex := header / 16 % 16
  let coeff0 ← coefficient coefficients (coeffIndex * 2 + 0)
  let coeff1 ← coefficient coefficients (coeffIndex * 2 + 1)
  some ⟨header % 16, coeff0, coeff1⟩

/-- `decode_sample`: `yn0` and `yn1` after the sample, which is `yn0`. -/
def decodeSample (frame : Frame) (yn : Int × Int) (code : Int) : Int × Int :=
  let xn := code * 2 ^ frame.scale
  let prediction := (frame.coeff0 * yn.1 + frame.coeff1 * yn.2).bmod (2 ^ 32)
  let sample := (xn * 2 ^ 11 + 0x400 + prediction).bmod (2 ^ 32) / 2 ^ 11
  (max (-0x8000) (min sample 0x7FFF), yn.1)

def highCode (byte : Byte) : Int := steps.getD (byte.toNat / 16) 0

def lowCode (byte : Byte) : Int := steps.getD (byte.toNat % 16) 0

/-! ## The program -/

/-- The fetched bytes: `size` bytes of the buffer from `base` on.  The bytes of the buffer that
    `end_offset` covers end at `limit`. -/
structure Wave where
  bytes : Nat → Byte
  base : Nat
  size : Nat
  limit : Nat

/-- A read outside of the window, or behind the limit, is an error of its own. -/
def Wave.get (wave : Wave) (i : Nat) : Option Byte :=
  if i < wave.size ∧ wave.base + i < wave.limit then some (wave.bytes (wave.base + i)) else none

structure Loop where
  header : Nat
  frame : Frame
  yn : Int × Int
  readIndex : Nat
  positionInFrame : Nat
  samplesToRead : Nat
  out : List Int

/-- The rest of the samples of a whole frame, two for each byte. -/
def wholeFrame (wave : Wave) : Nat → Loop → Option Loop
  | 0, l => some l
  | n + 1, l => do
      let byte ← wave.get l.readIndex
      let yn0 := decodeSample l.frame l.yn (highCode byte)
      let yn1 := decodeSample l.frame yn0 (lowCode byte)
      wholeFrame wave n
        { l with readIndex := l.readIndex + 1, yn := yn1, out := l.out ++ [yn0.1, yn1.1] }

/-- A new frame begins with its header. -/
def enterFrame (wave : Wave) (coefficients : Fin 16 → Int) (l : Loop) : Option Loop :=
  if l.positionInFrame % 16 = 0 then do
    let byte ← wave.get l.readIndex
    let frame ← loadHeader coefficients byte.toNat
    some { l with
      header := byte.toNat
      frame := frame
      readIndex := l.readIndex + 1
      positionInFrame := (l.positionInFrame + 2) % 2 ^ 32 }
  else some l

/-- A single sample. -/
def singleSample (wave : Wave) (l : Loop) : Option Loop := do
  let byte ← wave.get l.readIndex
  let odd := decide (l.positionInFrame % 2 = 1)
  let yn := decodeSample l.frame l.yn (if odd then lowCode byte else highCode byte)
  some { l with
    yn := yn
    readIndex := if odd then l.readIndex + 1 else l.readIndex
    positionInFrame := (l.positionInFrame + 1) % 2 ^ 32
    samplesToRead := l.samplesToRead - 1
    out := l.out ++ [yn.1] }

/-- The loop; each round reads a sample or more. -/
def decodeLoop (wave : Wave) (coefficients : Fin 16 → Int) : Nat → Loop → Option Loop
  | 0, l => some l
  | fuel + 1, l =>
      if l.samplesToRead = 0 then some l
      else do
        let entered ← enterFrame wave coefficients l
        if l.positionInFrame % 16 = 0 ∧ 14 ≤ l.samplesToRead then
          let l ← wholeFrame wave 7 entered
          decodeLoop wave coefficients fuel
            { l with
              positionInFrame := (l.positionInFrame + 14) % 2 ^ 32
              samplesToRead := l.samplesToRead - 14 }
        else
          let l ← singleSample wave entered
          decodeLoop wave coefficients fuel l

structure DecodeArg where
  bytes : Nat → Byte
  bufferSize : Nat
  startOffset : Nat
  endOffset : Nat
  coefficients : Fin 16 → Int
  context : AdpcmContext
  offset : Nat
  samplesToRead : Nat

/-- Half of `end`, in as many bits as asked for. -/
def endBytes (modulus endOffset : Nat) : Nat :=
  (endOffset % 14 + 16 * (endOffset / 14) + if endOffset % 14 = 0 then 1 else 3) % modulus / 2

/-- `position_in_frame` of a sample. -/
def position (sample : Nat) : Nat :=
  sample / 14 * 16 + if sample % 14 = 0 then 0 else sample % 14 + 2

/-- The number of samples, the samples and the context. -/
def decodeAdpcm (arg : DecodeArg) : Option (Nat × List Int × AdpcmContext) :=
  if arg.bufferSize = 0 ∨ arg.endOffset < arg.startOffset ∨
      arg.bufferSize < endBytes (2 ^ 32) arg.endOffset then
    some (0, [], arg.context)
  else
    let startPos := arg.startOffset + arg.offset
    let samplesToProcess := min (arg.endOffset - startPos) arg.samplesToRead
    if samplesToProcess = 0 then some (0, [], arg.context)
    else do
      let positionInFrame := position startPos % 2 ^ 32
      let wave : Wave :=
        ⟨arg.bytes, positionInFrame / 2, max (samplesToProcess / 8 * 14 % 2 ^ 32) 8,
          endBytes (2 ^ 64) arg.endOffset⟩
      let frame ← loadHeader arg.coefficients arg.context.header
      let l ← decodeLoop wave arg.coefficients samplesToProcess
        ⟨arg.context.header, frame, (arg.context.yn0, arg.context.yn1), 0, positionInFrame,
          samplesToProcess, []⟩
      some (samplesToProcess, l.out, ⟨l.header, l.yn.1, l.yn.2⟩)

/-- Calls for these numbers of samples, one behind the other. -/
def decodeCalls (arg : DecodeArg) : List Nat → Nat → AdpcmContext → Option (List Int × AdpcmContext)
  | [], _, context => some ([], context)
  | n :: ns, offset, context => do
      let (decoded, out, context) ←
        decodeAdpcm { arg with offset := offset, samplesToRead := n, context := context }
      let (rest, context) ← decodeCalls arg ns (offset + decoded) context
      some (out ++ rest, context)

/-! ## The reference -/

/-- The byte of the nibble of a sample. -/
def byteOf (sample : Nat) : Nat := sample / 14 * 8 + 1 + sample % 14 / 2

/-- One sample, which is `yn0` behind it: the header of its frame is the first byte. -/
def referenceStep (bytes : Nat → Byte) (coefficients : Fin 16 → Int) (sample : Nat)
    (context : AdpcmContext) : Option AdpcmContext := do
  let header := if sample % 14 = 0 then (bytes (sample / 14 * 8)).toNat else context.header
  let frame ← loadHeader coefficients header
  let byte := bytes (byteOf sample)
  let yn := decodeSample frame (context.yn0, context.yn1)
    (if sample % 2 = 1 then lowCode byte else highCode byte)
  some ⟨header, yn.1, yn.2⟩

/-- Sample by sample. -/
def reference (bytes : Nat → Byte) (coefficients : Fin 16 → Int) :
    Nat → Nat → AdpcmContext → Option (List Int × AdpcmContext)
  | _, 0, context => some ([], context)
  | sample, n + 1, context => do
      let next ← referenceStep bytes coefficients sample context
      let (out, last) ← reference bytes coefficients (sample + 1) n next
      some (next.yn0 :: out, last)

/-- The calls, one call for all samples and the reference come to the same. -/
def CutExact (arg : DecodeArg) (cuts : List Nat) : Prop :=
  ∃ result, decodeCalls arg cuts 0 arg.context = some result ∧
    decodeCalls arg [cuts.sum] 0 arg.context = some result ∧
    reference arg.bytes arg.coefficients arg.startOffset cuts.sum arg.context = some result

/-- A header that selects one of the eight pairs. -/
def HeaderOk (header : Nat) : Prop := header / 16 % 16 < 8

/-- The position of the first sample has 32 bits, and the last one is in the window. -/
def CallFits (sample n : Nat) : Prop :=
  sample < 14 * 2 ^ 28 ∧ byteOf (sample + n - 1) < position sample / 2 + max (n / 8 * 14 % 2 ^ 32) 8

def Fits (start : Nat) : List Nat → Nat → Prop
  | [], _ => True
  | n :: ns, offset => (0 < n → CallFits (start + offset) n) ∧ Fits start ns (offset + n)

/-! ## The loop -/

section Loop

variable {bytes : Nat → Byte} {coefficients : Fin 16 → Int} {wave : Wave} {start count sample : Nat} {l : Loop}

def Loop.context (l : Loop) : AdpcmContext := ⟨l.header, l.yn.1, l.yn.2⟩

/-- After a sample. -/
def Loop.setYn (l : Loop) (yn : Int × Int) : Loop := { l with yn := yn }

theorem position_cases (sample : Nat) : sample % 14 = 0 ∧ position sample = sample / 14 * 16 ∨
    sample % 14 ≠ 0 ∧ position sample = sample / 14 * 16 + (sample % 14 + 2) := by
  unfold position
  rcases Nat.eq_zero_or_pos (sample % 14) with h | h
  · exact Or.inl ⟨h, by rw [if_pos h]; rfl⟩
  · exact Or.inr ⟨Nat.pos_iff_ne_zero.mp h, by rw [if_neg (Nat.pos_iff_ne_zero.mp h)]⟩

/-- The window has all bytes of these samples. -/
def Covers (bytes : Nat → Byte) (wave : Wave) (start count : Nat) : Prop :=
  ∀ k, position start / 2 ≤ k → k ≤ byteOf (start + count - 1) →
    wave.get (k - position start / 2) = some (bytes k)

/-- The loop is in front of a sample. -/
structure Before (coefficients : Fin 16 → Int) (start count sample : Nat) (l : Loop) : Prop where
  start_le : start ≤ sample
  remaining : sample + l.samplesToRead = start + count
  index : l.readIndex + position start / 2 = position sample / 2
  position : l.positionInFrame % 16 = position sample % 16
  frame : loadHeader coefficients l.header = some l.frame

/-- The header of its frame has been read. -/
structure Entered (bytes : Nat → Byte) (coefficients : Fin 16 → Int) (start count sample : Nat) (l : Loop) :
    Prop where
  start_le : start ≤ sample
  remaining : sample + l.samplesToRead = start + count
  index : l.readIndex + Adpcm.position start / 2 = byteOf sample
  position : l.positionInFrame % 16 = sample % 14 + 2
  frame : loadHeader coefficients l.header = some l.frame
  header : sample % 14 = 0 → l.header = (bytes (sample / 14 * 8)).toNat

theorem referenceStep_of_frame (hframe : loadHeader coefficients l.header = some l.frame)
    (hheader : sample % 14 = 0 → l.header = (bytes (sample / 14 * 8)).toNat) :
    referenceStep bytes coefficients sample l.context =
      some (l.setYn (decodeSample l.frame l.yn (if sample % 2 = 1 then lowCode (bytes (byteOf sample))
        else highCode (bytes (byteOf sample))))).context := by
  have hsame : (if sample % 14 = 0 then (bytes (sample / 14 * 8)).toNat else l.header) = l.header := by
    split
    · next h => exact (hheader h).symm
    · rfl
  unfold referenceStep Loop.context
  simp only [hsame, hframe]
  rfl

theorem enter_spec (hcovers : Covers bytes wave start count) (h : Before coefficients start count sample l)
    (hpos : 0 < l.samplesToRead) :
    enterFrame wave coefficients l = none ∧ referenceStep bytes coefficients sample l.context = none ∨
    ∃ l', enterFrame wave coefficients l = some l' ∧ Entered bytes coefficients start count sample l' ∧
      l'.samplesToRead = l.samplesToRead ∧ l'.out = l.out ∧
      referenceStep bytes coefficients sample l.context = referenceStep bytes coefficients sample l'.context := by
  have hstart := h.start_le
  have hremaining := h.remaining
  have hindex := h.index
  have hposition := h.position
  have hat := position_cases sample
  unfold enterFrame
  by_cases hnew : sample % 14 = 0
  · have hheader : wave.get l.readIndex = some (bytes (sample / 14 * 8)) := by
      have hget := hcovers (sample / 14 * 8) (by omega) (by unfold byteOf; omega)
      have hk : sample / 14 * 8 - Adpcm.position start / 2 = l.readIndex := by omega
      rwa [hk] at hget
    rw [if_pos (by omega), hheader]
    cases hframe : loadHeader coefficients (bytes (sample / 14 * 8)).toNat with
    | none =>
      refine Or.inl ⟨by simp [hframe], ?_⟩
      unfold referenceStep
      simp only [if_pos hnew, hframe]; rfl
    | some frame =>
      refine Or.inr ⟨{ l with
        header := (bytes (sample / 14 * 8)).toNat
        frame := frame
        readIndex := l.readIndex + 1
        positionInFrame := (l.positionInFrame + 2) % 2 ^ 32 }, by simp [hframe],
        ⟨hstart, hremaining, ?_, ?_, hframe, fun _ => rfl⟩, rfl, rfl, ?_⟩
      · unfold byteOf
        dsimp only
        omega
      · dsimp only
        omega
      · unfold referenceStep Loop.context; simp only [if_pos hnew]
  · rw [if_neg (by omega)]
    refine Or.inr ⟨l, rfl, ⟨hstart, hremaining, ?_, by omega, h.frame, fun h0 => absurd h0 hnew⟩, rfl, rfl, rfl⟩
    unfold byteOf; omega

theorem single_spec (hcovers : Covers bytes wave start count)
    (h : Entered bytes coefficients start count sample l) (hpos : 0 < l.samplesToRead) :
    ∃ l', singleSample wave l = some l' ∧ Before coefficients start count (sample + 1) l' ∧
      l'.samplesToRead + 1 = l.samplesToRead ∧
      referenceStep bytes coefficients sample l.context = some l'.context ∧
      l'.out = l.out ++ [l'.context.yn0] := by
  have hstart := h.start_le
  have hremaining := h.remaining
  have hindex := h.index
  have hposition := h.position
  have hget : wave.get l.readIndex = some (bytes (byteOf sample)) := by
    have hget := hcovers (byteOf sample) (by omega) (by unfold byteOf; omega)
    have hk : byteOf sample - Adpcm.position start / 2 = l.readIndex := by omega
    rwa [hk] at hget
  have hodd : l.positionInFrame % 2 = 1 ↔ sample % 2 = 1 := by omega
  have hnext := position_cases (sample + 1)
  unfold byteOf at hindex
  refine ⟨{ l with
      yn := decodeSample l.frame l.yn (if decide (l.positionInFrame % 2 = 1) then
        lowCode (bytes (byteOf sample)) else highCode (bytes (byteOf sample)))
      readIndex := if decide (l.positionInFrame % 2 = 1) then l.readIndex + 1 else l.readIndex
      positionInFrame := (l.positionInFrame + 1) % 2 ^ 32
      samplesToRead := l.samplesToRead - 1
      out := l.out ++ [(decodeSample l.frame l.yn (if decide (l.positionInFrame % 2 = 1) then
        lowCode (bytes (byteOf sample)) else highCode (bytes (byteOf sample)))).1] },
    by unfold singleSample; rw [hget]; rfl, ⟨by omega, ?_, ?_, ?_, h.frame⟩, ?_, ?_, rfl⟩
  · dsimp only
    omega
  · dsimp only
    by_cases hlow : sample % 2 = 1
    · rw [if_pos (decide_eq_true (hodd.mpr hlow))]
      omega
    · rw [if_neg (by rw [decide_eq_true_iff]; exact fun h1 => hlow (hodd.mp h1))]; omega
  · dsimp only
    omega
  · dsimp only
    omega
  · rw [referenceStep_of_frame h.frame h.header]
    simp only [hodd, decide_eq_true_iff]; rfl

theorem wholeFrame_spec (hcovers : Covers bytes wave start count) (frame n : Nat)
    (hn : 2 * n ≤ 14) (hstart : start ≤ 14 * frame + (14 - 2 * n)) (hcount : 14 * frame + 14 ≤ start + count)
    (hindex : l.readIndex + Adpcm.position start / 2 = 8 * frame + 1 + (7 - n))
    (hframe : loadHeader coefficients l.header = some l.frame)
    (hheader : l.header = (bytes (frame * 8)).toNat) :
    ∃ l' out, wholeFrame wave n l = some l' ∧
      reference bytes coefficients (14 * frame + (14 - 2 * n)) (2 * n) l.context = some (out, l'.context) ∧
      l' = { l with readIndex := l.readIndex + n, yn := l'.yn, out := l.out ++ out } := by
  induction n generalizing l with
  | zero => exact ⟨l, [], rfl, rfl, by simp⟩
  | succ n ih =>
    obtain ⟨first, hfirst⟩ : ∃ first, first = 14 * frame + (14 - 2 * (n + 1)) := ⟨_, rfl⟩
    have hbyte : byteOf first = 8 * frame + 1 + (7 - (n + 1)) ∧ byteOf (first + 1) = byteOf first := by
      unfold byteOf; omega
    have hget : wave.get l.readIndex = some (bytes (byteOf first)) := by
      have hget := hcovers (byteOf first) (by omega) (by rw [hbyte.1]; unfold byteOf; omega)
      have hk : byteOf first - Adpcm.position start / 2 = l.readIndex := by omega
      rwa [hk] at hget
    obtain ⟨yn0, hyn0⟩ : ∃ yn0, yn0 = decodeSample l.frame l.yn (highCode (bytes (byteOf first))) := ⟨_, rfl⟩
    obtain ⟨yn1, hyn1⟩ : ∃ yn1, yn1 = decodeSample l.frame yn0 (lowCode (bytes (byteOf first))) := ⟨_, rfl⟩
    have hhigh : referenceStep bytes coefficients first l.context = some (l.setYn yn0).context := by
      rw [referenceStep_of_frame hframe fun _ => by rw [hheader]; congr 2; omega, if_neg (by omega), hyn0]
    have hlow : referenceStep bytes coefficients (first + 1) (l.setYn yn0).context =
        some (l.setYn yn1).context := by
      have hstep := @referenceStep_of_frame bytes coefficients (first + 1) (l.setYn yn0) hframe
        fun h0 => absurd h0 (by omega)
      rw [hstep, if_pos (by omega), hbyte.2, hyn1]; rfl
    obtain ⟨l', out, hwhole, hreference, hl'⟩ := @ih
      { l with readIndex := l.readIndex + 1, yn := yn1, out := l.out ++ [yn0.1, yn1.1] }
      (by omega) (by omega) (by dsimp only; omega) hframe hheader
    refine ⟨l', yn0.1 :: yn1.1 :: out, ?_, ?_, ?_⟩
    · rw [wholeFrame, hget]
      simp only [Option.bind_eq_bind, Option.bind_some]
      rw [← hyn0, ← hyn1]
      exact hwhole
    · rw [← hfirst, show 2 * (n + 1) = 2 * n + 1 + 1 by omega, reference, hhigh]
      simp only [Option.bind_eq_bind, Option.bind_some]
      rw [reference, hlow]
      simp only [Option.bind_eq_bind, Option.bind_some]
      rw [show first + 1 + 1 = 14 * frame + (14 - 2 * n) by omega]
      have hreference : reference bytes coefficients (14 * frame + (14 - 2 * n)) (2 * n)
        (l.setYn yn1).context = some (out, l'.context) := hreference
      rw [hreference]
      rfl
    · rw [hl']
      simp only [Loop.mk.injEq, true_and]; exact ⟨by omega, by simp⟩

theorem reference_succ (n : Nat) (context : AdpcmContext) :
    reference bytes coefficients sample (n + 1) context =
      (referenceStep bytes coefficients sample context).bind fun next =>
        (reference bytes coefficients (sample + 1) n next).map fun r => (next.yn0 :: r.1, r.2) := by
  rw [reference]
  cases referenceStep bytes coefficients sample context with
  | none => rfl
  | some next => cases hr : reference bytes coefficients (sample + 1) n next <;> simp [hr]

theorem reference_add (a b : Nat) (context : AdpcmContext) :
    reference bytes coefficients sample (a + b) context =
      (reference bytes coefficients sample a context).bind fun r =>
        (reference bytes coefficients (sample + a) b r.2).map fun r' => (r.1 ++ r'.1, r'.2) := by
  induction a generalizing sample context with
  | zero => simp [reference]
  | succ a ih =>
    rw [show a + 1 + b = a + b + 1 by omega, reference_succ, reference_succ]
    cases referenceStep bytes coefficients sample context with
    | none => rfl
    | some next =>
      simp only [Option.bind_some, ih, show sample + 1 + a = sample + (a + 1) by omega]
      cases reference bytes coefficients (sample + 1) a next with
      | none => rfl
      | some r => simp [Function.comp_def]

/-- **The loop is the reference.** -/
theorem decodeLoop_reference (hcovers : Covers bytes wave start count) (fuel : Nat)
    (hfuel : l.samplesToRead ≤ fuel) (h : Before coefficients start count sample l) :
    (decodeLoop wave coefficients fuel l).map (fun l' => (l'.out, l'.context)) =
      (reference bytes coefficients sample l.samplesToRead l.context).map fun r => (l.out ++ r.1, r.2) := by
  induction fuel generalizing sample l with
  | zero =>
    rw [Nat.le_zero.mp hfuel]; simp [decodeLoop, reference]
  | succ fuel ih =>
    rcases Nat.eq_zero_or_pos l.samplesToRead with hzero | hpos
    · rw [decodeLoop, if_pos hzero, hzero]; simp [reference]
    obtain ⟨n, hn⟩ : ∃ n, l.samplesToRead = n + 1 := ⟨l.samplesToRead - 1, by omega⟩
    rw [decodeLoop, if_neg (by omega)]
    rcases enter_spec hcovers h hpos with ⟨hnone, hstep⟩ | ⟨e, he, hentered, hsame, hout, hstep⟩
    · rw [hnone, hn, reference_succ, hstep]; rfl
    rw [he]
    simp only [Option.bind_eq_bind, Option.bind_some]
    split
    · next hwhole =>
      -- a whole frame: fourteen steps of the reference
      have hposition := hentered.position
      have hnew : sample % 14 = 0 := by
        have hat := position_cases sample
        have := h.position
        omega
      have hindex := hentered.index
      have hremaining := hentered.remaining
      have hframe : 14 * (sample / 14) = sample := by omega
      unfold byteOf at hindex
      obtain ⟨l', out, heq, hreference, hl'⟩ := wholeFrame_spec hcovers (sample / 14) 7 (by omega)
        (by have := h.start_le; omega) (by omega) (by omega) hentered.frame (hentered.header hnew)
      rw [hframe] at hreference
      rw [heq]
      simp only [Option.bind_some]
      have hbefore : Before coefficients start count (sample + 14)
          { l' with
            positionInFrame := (l'.positionInFrame + 14) % 2 ^ 32
            samplesToRead := l'.samplesToRead - 14 } := by
        have hat := position_cases (sample + 14)
        have hstart := h.start_le
        rw [hl']
        refine ⟨by omega, ?_, ?_, ?_, hentered.frame⟩ <;> dsimp only <;> omega
      have hsamples : l'.samplesToRead = l.samplesToRead := by rw [hl', ← hsame]
      have hloop := ih (by dsimp only; omega) hbefore
      rw [hloop]
      have hcontext : reference bytes coefficients sample 14 l.context = some (out, l'.context) := by
        rw [show 14 = 13 + 1 from rfl, reference_succ, hstep, ← reference_succ]; exact hreference
      rw [show l.samplesToRead = 14 + (l'.samplesToRead - 14) by omega, reference_add, hcontext, hl']
      simp [Function.comp_def, hout, Loop.context]
    · obtain ⟨l', heq, hbefore, hsamples, hcontext, hout'⟩ :=
        single_spec hcovers hentered (hsame ▸ hpos)
      rw [heq]
      simp only [Option.bind_some]
      rw [ih (by omega) hbefore, hn, reference_succ, hstep, hcontext, hout', hout]
      simp [show l'.samplesToRead = n by omega, Function.comp_def]

/-! ## Headers -/

instance (header : Nat) : Decidable (HeaderOk header) := inferInstanceAs (Decidable (_ < _))

theorem loadHeader_isSome (header : Nat) : (loadHeader coefficients header).isSome = true ↔ HeaderOk header := by
  unfold loadHeader coefficient HeaderOk
  dsimp only
  by_cases h : header / 16 % 16 < 8
  · rw [dif_pos (show header / 16 % 16 * 2 + 0 < 16 by omega),
      dif_pos (show header / 16 % 16 * 2 + 1 < 16 by omega)]
    exact ⟨fun _ => h, fun _ => rfl⟩
  · rw [dif_neg (show ¬ header / 16 % 16 * 2 + 0 < 16 by omega)]
    exact ⟨fun hsome => absurd hsome Bool.false_ne_true, fun hlt => absurd hlt h⟩

theorem referenceStep_header (context : AdpcmContext) {header : Nat}
    (hheader : header = if sample % 14 = 0 then (bytes (sample / 14 * 8)).toNat else context.header) :
    ((referenceStep bytes coefficients sample context).isSome = true ↔ HeaderOk header) ∧
      ∀ next, referenceStep bytes coefficients sample context = some next → next.header = header := by
  unfold referenceStep
  simp only [← hheader]
  rw [← @loadHeader_isSome coefficients header]
  cases loadHeader coefficients header with
  | none => exact ⟨Iff.rfl, fun next h => by cases h⟩
  | some frame => exact ⟨⟨fun _ => rfl, fun _ => rfl⟩, fun next h => by cases h; rfl⟩

theorem reference_isSome (n : Nat) (context : AdpcmContext) :
    (reference bytes coefficients sample n context).isSome = true ↔
      (0 < n → sample % 14 ≠ 0 → HeaderOk context.header) ∧
        ∀ i < n, (sample + i) % 14 = 0 → HeaderOk (bytes ((sample + i) / 14 * 8)).toNat := by
  induction n generalizing sample context with
  | zero =>
    refine ⟨fun _ => ⟨fun h => absurd h (Nat.lt_irrefl 0), fun i hi => ?_⟩, fun _ => rfl⟩
    exact absurd hi (Nat.not_lt_zero i)
  | succ n ih =>
    obtain ⟨hstep, hnext⟩ := @referenceStep_header bytes coefficients sample context _ rfl
    rw [reference_succ]
    have hfirst : HeaderOk (if sample % 14 = 0 then (bytes (sample / 14 * 8)).toNat else context.header) ↔
        (sample % 14 ≠ 0 → HeaderOk context.header) ∧
          (sample % 14 = 0 → HeaderOk (bytes (sample / 14 * 8)).toNat) := by
      split
      · next h => exact ⟨fun hok => ⟨fun hne => absurd h hne, fun _ => hok⟩, fun hok => hok.2 h⟩
      · next h => exact ⟨fun hok => ⟨fun _ => hok, fun h0 => absurd h0 h⟩, fun hok => hok.1 h⟩
    cases hcase : referenceStep bytes coefficients sample context with
    | none =>
      rw [hcase] at hstep
      refine ⟨fun h => absurd h Bool.false_ne_true, fun h => ?_⟩
      have hok := hfirst.mpr ⟨h.1 (Nat.succ_pos n), fun h0 => h.2 0 (Nat.succ_pos n) h0⟩
      exact absurd (hstep.mpr hok) (by simp)
    | some next =>
      rw [hcase] at hstep
      have hok := hstep.mp rfl
      have hheader : HeaderOk next.header := (hnext next hcase).symm ▸ hok
      simp only [Option.bind_some, Option.isSome_map]
      rw [ih]
      constructor
      · rintro ⟨-, hall⟩
        refine ⟨fun _ => (hfirst.mp hok).1, fun i hi h0 => ?_⟩
        cases i with
        | zero => exact (hfirst.mp hok).2 h0
        | succ i =>
          have hrest := hall i (by omega)
          rw [show sample + 1 + i = sample + (i + 1) by omega] at hrest; exact hrest h0
      · rintro ⟨-, hall⟩
        refine ⟨fun _ _ => hheader, fun i hi h0 => ?_⟩
        rw [show sample + 1 + i = sample + (i + 1) by omega] at h0 ⊢
        exact hall (i + 1) (by omega) h0

theorem reference_header {n : Nat} {context : AdpcmContext} {r : List Int × AdpcmContext}
    (hok : HeaderOk context.header) (h : reference bytes coefficients sample n context = some r) :
    HeaderOk r.2.header := by
  induction n generalizing sample context r with
  | zero =>
    obtain rfl := Option.some.inj h; exact hok
  | succ n ih =>
    obtain ⟨hstep, hnext⟩ := @referenceStep_header bytes coefficients sample context _ rfl
    rw [reference_succ] at h
    obtain ⟨next, hcase, hrest⟩ := Option.bind_eq_some_iff.mp h
    obtain ⟨r', hr', rfl⟩ := Option.map_eq_some_iff.mp hrest
    rw [hcase] at hstep
    have hheader := hstep.mp rfl
    rw [← hnext next hcase] at hheader; exact @ih _ _ r' hheader hr'

/-! ## Calls -/

theorem endBytes_eq {endOffset : Nat} (hlt : endOffset < 2 ^ 32) :
    endBytes (2 ^ 64) endOffset =
      (endOffset % 14 + 16 * (endOffset / 14) + if endOffset % 14 = 0 then 1 else 3) / 2 := by
  unfold endBytes
  rw [Nat.mod_eq_of_lt (by split <;> omega)]

theorem byteOf_lt_endBytes {endOffset : Nat} (hend : sample < endOffset) (hlt : endOffset < 2 ^ 32) :
    byteOf sample < endBytes (2 ^ 64) endOffset := by
  rw [endBytes_eq hlt]
  unfold byteOf
  split <;> omega

theorem callFits_of_lt {n : Nat} (hposition : sample < 14 * 2 ^ 28) (hwindow : n / 8 * 14 < 2 ^ 32) :
    CallFits sample n := by
  refine ⟨hposition, ?_⟩
  rw [Nat.mod_eq_of_lt hwindow]
  have hstart := position_cases sample
  obtain ⟨last, hlast⟩ : ∃ last, last = sample + n - 1 := ⟨_, rfl⟩
  have hlarge : n / 8 * 14 ≤ max (n / 8 * 14) 8 := Nat.le_max_left _ _
  have hsmall : 8 ≤ max (n / 8 * 14) 8 := Nat.le_max_right _ _
  generalize max (n / 8 * 14) 8 = size at hlarge hsmall
  rw [← hlast]
  unfold byteOf
  omega

theorem covers_window {n endOffset : Nat} (hn : 0 < n) (hend : start + n ≤ endOffset)
    (hlt : endOffset < 2 ^ 32) (hfits : CallFits start n) :
    Covers bytes ⟨bytes, position start % 2 ^ 32 / 2, max (n / 8 * 14 % 2 ^ 32) 8,
      endBytes (2 ^ 64) endOffset⟩ start n := by
  intro k hle hk
  obtain ⟨hposition, hwindow⟩ := hfits
  have hstart := position_cases start
  have hsmall : position start % 2 ^ 32 = position start := Nat.mod_eq_of_lt (by omega)
  have hinside : k - position start / 2 < max (n / 8 * 14 % 2 ^ 32) 8 := by omega
  have hlimit : k < endBytes (2 ^ 64) endOffset :=
    Nat.lt_of_le_of_lt hk (byteOf_lt_endBytes (by omega) hlt)
  unfold Wave.get
  dsimp only
  rw [hsmall, Nat.add_sub_cancel' hle, if_pos ⟨hinside, hlimit⟩]

theorem not_guard {arg : DecodeArg} (hend : arg.endOffset < 2 ^ 32)
    (hbuffer : endBytes (2 ^ 64) arg.endOffset ≤ arg.bufferSize) (hlt : arg.startOffset < arg.endOffset) :
    ¬ (arg.bufferSize = 0 ∨ arg.endOffset < arg.startOffset ∨
      arg.bufferSize < endBytes (2 ^ 32) arg.endOffset) := by
  have hhalf := byteOf_lt_endBytes (show arg.endOffset - 1 < arg.endOffset by omega) hend
  have hwrap : endBytes (2 ^ 32) arg.endOffset ≤ endBytes (2 ^ 64) arg.endOffset := by
    rw [endBytes_eq hend]; exact Nat.div_le_div_right (Nat.mod_le _ _)
  omega

theorem decodeAdpcm_reference {arg : DecodeArg} (hend : arg.endOffset < 2 ^ 32)
    (hbuffer : endBytes (2 ^ 64) arg.endOffset ≤ arg.bufferSize)
    (hok : 0 < arg.samplesToRead → HeaderOk arg.context.header)
    (hrange : arg.startOffset + arg.offset + arg.samplesToRead ≤ arg.endOffset)
    (hfits : 0 < arg.samplesToRead → CallFits (arg.startOffset + arg.offset) arg.samplesToRead) :
    decodeAdpcm arg = (reference arg.bytes arg.coefficients (arg.startOffset + arg.offset) arg.samplesToRead
      arg.context).map fun r => (arg.samplesToRead, r) := by
  have hmin : min (arg.endOffset - (arg.startOffset + arg.offset)) arg.samplesToRead = arg.samplesToRead := by
    omega
  unfold decodeAdpcm
  simp only [hmin]
  rcases Nat.eq_zero_or_pos arg.samplesToRead with hzero | hpos
  · rw [hzero]
    simp [reference]
  · rw [if_neg (not_guard hend hbuffer (by omega)), if_neg (by omega)]
    obtain ⟨frame, hframe⟩ := Option.isSome_iff_exists.mp ((@loadHeader_isSome arg.coefficients _).mpr (hok hpos))
    have hcovers := @covers_window arg.bytes _ _ _ hpos hrange hend (hfits hpos)
    have hposition := (hfits hpos).1
    have hat := position_cases (arg.startOffset + arg.offset)
    have hloop := decodeLoop_reference hcovers arg.samplesToRead (Nat.le_refl _)
      (l := ⟨arg.context.header, frame, (arg.context.yn0, arg.context.yn1), 0,
        position (arg.startOffset + arg.offset) % 2 ^ 32, arg.samplesToRead, []⟩)
      ⟨Nat.le_refl _, rfl, by dsimp only; omega, by dsimp only; omega, hframe⟩
    rw [hframe]
    simp only [Option.bind_eq_bind, Option.bind_some]
    simp only [Loop.context, List.nil_append] at hloop
    rw [show (fun r : List Int × AdpcmContext => (r.1, r.2)) = id from rfl, Option.map_id] at hloop
    have hcontext : (⟨arg.context.header, arg.context.yn0, arg.context.yn1⟩ : AdpcmContext) = arg.context := rfl
    rw [hcontext] at hloop
    rw [id_eq] at hloop
    rw [← hloop, Option.map_map]
    cases decodeLoop _ _ _ _ with
    | none => rfl
    | some l => rfl

theorem decodeCalls_reference {arg : DecodeArg} (hend : arg.endOffset < 2 ^ 32)
    (hbuffer : endBytes (2 ^ 64) arg.endOffset ≤ arg.bufferSize) (cuts : List Nat) (offset : Nat)
    (context : AdpcmContext) (hok : 0 < cuts.sum → HeaderOk context.header)
    (hrange : arg.startOffset + offset + cuts.sum ≤ arg.endOffset)
    (hfits : Fits arg.startOffset cuts offset) :
    decodeCalls arg cuts offset context =
      reference arg.bytes arg.coefficients (arg.startOffset + offset) cuts.sum context := by
  induction cuts generalizing offset context with
  | nil => rfl
  | cons n cuts ih =>
    rw [List.sum_cons] at hok hrange ⊢
    have hcall := @decodeAdpcm_reference { arg with offset := offset, samplesToRead := n, context := context }
      hend hbuffer (fun hpos => hok (Nat.add_pos_left hpos _)) (by dsimp only; omega) hfits.1
    rw [decodeCalls, hcall, reference_add]
    dsimp only
    cases hfirst : reference arg.bytes arg.coefficients (arg.startOffset + offset) n context with
    | none => rfl
    | some r =>
      have hrest := ih (offset + n) r.2
        (fun hpos => reference_header (hok (Nat.add_pos_right _ hpos)) hfirst) (by omega) hfits.2
      simp only [Option.map_some, Option.bind_eq_bind, Option.bind_some, hrest, Nat.add_assoc]
      cases reference arg.bytes arg.coefficients (arg.startOffset + (offset + n)) cuts.sum r.2 <;> rfl

end Loop

theorem headerOk_of_call {arg : DecodeArg} {n : Nat} {result : List Int × AdpcmContext}
    (hend : arg.endOffset < 2 ^ 32) (hbuffer : endBytes (2 ^ 64) arg.endOffset ≤ arg.bufferSize)
    (hrange : arg.startOffset + n ≤ arg.endOffset) (hn : 0 < n)
    (h : decodeCalls arg [n] 0 arg.context = some result) : HeaderOk arg.context.header := by
  by_contra hbad
  have hnone : loadHeader arg.coefficients arg.context.header = none :=
    Option.not_isSome_iff_eq_none.mp fun hsome => hbad (loadHeader_isSome _ |>.mp hsome)
  have hmin : min (arg.endOffset - (arg.startOffset + 0)) n = n := by omega
  have hcall : decodeAdpcm { arg with offset := 0, samplesToRead := n } = none := by
    unfold decodeAdpcm
    simp only [hmin]
    rw [if_neg (not_guard hend hbuffer (by omega)), if_neg (by omega), hnone]; rfl
  unfold decodeCalls at h
  rw [hcall] at h
  exact absurd h (by simp)

/-- **ADPCM does not depend on how it is cut** when no call begins behind a position of 32 bits or has too
    small a window, exactly where every header selects one of the eight pairs. -/
theorem adpcm_exact_iff (arg : DecodeArg) (cuts : List Nat) (hend : arg.endOffset < 2 ^ 32)
    (hbuffer : endBytes (2 ^ 64) arg.endOffset ≤ arg.bufferSize)
    (hrange : arg.startOffset + cuts.sum ≤ arg.endOffset)
    (hfits : Fits arg.startOffset cuts 0) (hone : Fits arg.startOffset [cuts.sum] 0) :
    CutExact arg cuts ↔ (0 < cuts.sum → HeaderOk arg.context.header) ∧
      ∀ i < cuts.sum, (arg.startOffset + i) % 14 = 0 →
        HeaderOk (arg.bytes ((arg.startOffset + i) / 14 * 8)).toNat := by
  have hsome := @reference_isSome arg.bytes arg.coefficients arg.startOffset cuts.sum arg.context
  constructor
  · rintro ⟨result, -, hcall, hreference⟩
    exact ⟨fun hpos => headerOk_of_call hend hbuffer hrange hpos hcall, (hsome.mp (by rw [hreference]; rfl)).2⟩
  · rintro ⟨hheader, hframes⟩
    obtain ⟨result, hreference⟩ := Option.isSome_iff_exists.mp (hsome.mpr ⟨fun hpos _ => hheader hpos, hframes⟩)
    have hcalls := decodeCalls_reference hend hbuffer cuts 0 arg.context hheader (by omega) hfits
    have hcall := decodeCalls_reference hend hbuffer [cuts.sum] 0 arg.context
    rw [List.sum_singleton] at hcall
    exact ⟨result, hcalls.trans hreference, (hcall hheader (by omega) hone).trans hreference, hreference⟩

def threeFrames : DecodeArg :=
  { bytes := fun i => BitVec.ofNat 8 (0x11 * (i % 8))
    bufferSize := 64
    startOffset := 14
    endOffset := 60
    coefficients := fun i => 100 * i
    context := ⟨0x12, 3, 4⟩
    offset := 0
    samplesToRead := 0 }

theorem adpcm_exact_iff_threeFrames : CutExact threeFrames [3, 0, 17, 1] :=
  (adpcm_exact_iff threeFrames [3, 0, 17, 1] (by decide) (by decide) (by decide)
    ⟨fun _ => callFits_of_lt (by decide) (by decide), fun h => absurd h (by decide),
      fun _ => callFits_of_lt (by decide) (by decide), fun _ => callFits_of_lt (by decide) (by decide), trivial⟩
    ⟨fun _ => callFits_of_lt (by decide) (by decide), trivial⟩).mpr ⟨fun _ => by decide, by decide⟩

/-- The sample 14 * 2^28: its header is byte 2^31, and the call reads byte 0. -/
def farSample : DecodeArg :=
  { bytes := fun i => if i < 2 ^ 31 then 0 else 0x11
    bufferSize := 2 ^ 31 + 2
    startOffset := 14 * 2 ^ 28
    endOffset := 14 * 2 ^ 28 + 1
    coefficients := fun _ => 0
    context := ⟨0, 0, 0⟩
    offset := 0
    samplesToRead := 0 }

theorem not_adpcm_exact : ¬ ∀ (arg : DecodeArg) (cuts : List Nat), arg.endOffset < 2 ^ 32 →
    endBytes (2 ^ 64) arg.endOffset ≤ arg.bufferSize → arg.startOffset + cuts.sum ≤ arg.endOffset →
    arg.startOffset % 14 = 0 → CutExact arg cuts := by
  intro hexact
  obtain ⟨result, hcalls, -, hreference⟩ :=
    hexact farSample [1] (by decide) (by decide) (by decide) (by decide)
  have hcode : decodeCalls farSample [1] 0 farSample.context = some ([0], ⟨0, 0, 0⟩) := by decide +kernel
  have hwant : reference farSample.bytes farSample.coefficients farSample.startOffset [1].sum
      farSample.context = some ([2], ⟨0x11, 2, 0⟩) := by decide +kernel
  have hsame := (hcode.symm.trans hcalls).trans (hreference.symm.trans hwant)
  exact absurd hsame (by decide)

end Suyu.Audio.Adpcm
