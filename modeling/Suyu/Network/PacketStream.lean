import Mathlib

/-
  `Network::Packet` - numbers, strings, arrays and vectors in one stream of bytes.

  1. **Program** - `Write` appends, in the order of bytes of the network; `Read` takes the bytes from
     `read_pos` on, if `CheckSize` finds them.  All positions are 64-bit numbers.

  2. **Specification** - what is written is read back (`Back`).  Whatever the bytes are, no access lies
     outside `data`, no vector grows beyond what the remaining bytes can hold (`harmless`), and no element
     is left as it was before it was read (`delivered`).

  3. **The crux (`read_back`, `read_iff`)** - by induction on the type.  An element of FIXED size is read
     whenever its bytes are there, and so one comparison at the head of a vector is enough for all of them.

  4. **When it goes wrong** - a vector trusts the length it reads; `Read` of a byte or a bool leaves the
     variable alone if it fails, and an array has such variables as elements; and 2^32 calls of
     `IgnoreBytes` take the position around.
-/

namespace Suyu.Network.PacketStream

abbrev Bytes := List UInt8

/-! ## Numbers in memory -/

/-- The bytes of a number in the host's memory, the lowest first. -/
def toBytes : Nat → Nat → Bytes
  | 0, _ => []
  | n + 1, value => UInt8.ofNat value :: toBytes n (value / 256)

def fromBytes : Bytes → Nat
  | [] => 0
  | byte :: bytes => byte.toNat + 256 * fromBytes bytes

@[simp] theorem length_toBytes (n value : Nat) : (toBytes n value).length = n := by
  induction n generalizing value with
  | zero => rfl
  | succ n ih => rw [toBytes, List.length_cons, ih]

theorem fromBytes_toBytes (n value : Nat) : fromBytes (toBytes n value) = value % 256 ^ n := by
  induction n generalizing value with
  | zero => rw [toBytes, fromBytes, pow_zero, Nat.mod_one]
  | succ n ih =>
    have hmod : value % (256 * 256 ^ n) = value % 256 + 256 * (value / 256 % 256 ^ n) := Nat.mod_mul
    have hpow : 256 ^ (n + 1) = 256 * 256 ^ n := pow_succ' 256 n
    rw [toBytes, fromBytes, ih, UInt8.toNat_ofNat', hpow, hmod]

theorem toBytes_fromBytes (bytes : Bytes) : toBytes bytes.length (fromBytes bytes) = bytes := by
  induction bytes with
  | nil => rfl
  | cons byte bytes ih =>
    have hlt : byte.toNat < 256 := byte.toNat_lt
    have hdiv : (byte.toNat + 256 * fromBytes bytes) / 256 = fromBytes bytes := by omega
    have hbyte : UInt8.ofNat (byte.toNat + 256 * fromBytes bytes) = byte := by
      refine UInt8.toNat_inj.mp ?_
      rw [UInt8.toNat_ofNat']; omega
    rw [List.length_cons, fromBytes, toBytes, hdiv, ih, hbyte]

theorem fromBytes_lt (bytes : Bytes) : fromBytes bytes < 256 ^ bytes.length := by
  induction bytes with
  | nil => exact Nat.one_pos
  | cons byte bytes ih =>
    have hlt : byte.toNat < 256 := byte.toNat_lt
    rw [fromBytes, List.length_cons, pow_succ]; omega

/-- The bytes of a number in the other order. -/
def byteSwap (n value : Nat) : Nat := fromBytes (toBytes n value).reverse

theorem byteSwap_lt (n value : Nat) : byteSwap n value < 256 ^ n := by
  have hlt := fromBytes_lt (toBytes n value).reverse
  rwa [List.length_reverse, length_toBytes] at hlt

theorem byteSwap_byteSwap (n value : Nat) : byteSwap n (byteSwap n value) = value % 256 ^ n := by
  have hlength : (toBytes n value).reverse.length = n := by rw [List.length_reverse, length_toBytes]
  have hbytes := toBytes_fromBytes (toBytes n value).reverse
  rw [hlength] at hbytes
  rw [byteSwap, byteSwap, hbytes, List.reverse_reverse, fromBytes_toBytes]

/-- `htons` and `ntohs` on a host with the lowest byte first. -/
def htons (x : BitVec 16) : BitVec 16 := BitVec.ofNat 16 (byteSwap 2 x.toNat)

def htonl (x : BitVec 32) : BitVec 32 := BitVec.ofNat 32 (byteSwap 4 x.toNat)

/-- `htonll` and `ntohll`, from two halves. -/
def htonll (x : BitVec 64) : BitVec 64 :=
  if htonl 1 = 1 then x
  else (htonl ((x &&& 0xFFFFFFFF).setWidth 32)).setWidth 64 <<< 32 |||
    (htonl ((x >>> 32).setWidth 32)).setWidth 64

/-! ## Types and values -/

inductive Scalar where
  | bool | s8 | u8 | s16 | u16 | s32 | u32 | s64 | u64
  deriving DecidableEq, Repr

/-- The types `Read` and `Write` are there for. -/
inductive Ty where
  | scalar (s : Scalar)
  | string
  | vector (element : Ty)
  | array (element : Ty) (size : Nat)
  deriving DecidableEq, Repr

def Scalar.size : Scalar → Nat
  | .bool | .s8 | .u8 => 1
  | .s16 | .u16 => 2
  | .s32 | .u32 => 4
  | .s64 | .u64 => 8

/-- A signed number is its bits: conversions between the two types of a width keep them. -/
abbrev Scalar.Value : Scalar → Type
  | .bool => Bool
  | .s8 | .u8 => BitVec 8
  | .s16 | .u16 => BitVec 16
  | .s32 | .u32 => BitVec 32
  | .s64 | .u64 => BitVec 64

abbrev Value : Ty → Type
  | .scalar s => s.Value
  | .string => Bytes
  | .vector t => List (Value t)
  | .array t n => { l : List (Value t) // l.length = n }

/-- A variable of a type; a number without a value is uninitialised. -/
abbrev Stored : Ty → Type
  | .scalar s => Option s.Value
  | .string => Bytes
  | .vector t => List (Stored t)
  | .array t _ => List (Stored t)

/-- The variable `T character`. -/
def fresh : (t : Ty) → Stored t
  | .scalar _ => none
  | .string => []
  | .vector _ => []
  | .array t n => List.replicate n (fresh t)

def store : (t : Ty) → Value t → Stored t
  | .scalar _, v => some v
  | .string, v => v
  | .vector t, v => List.map (store t) v
  | .array t _, v => v.1.map (store t)

/-! ## Write -/

def Scalar.encode : (s : Scalar) → s.Value → Bytes
  | .bool, v => toBytes 1 (if v then 1 else 0)
  | .s8, v | .u8, v => toBytes 1 v.toNat
  | .s16, v | .u16, v => toBytes 2 (htons v).toNat
  | .s32, v | .u32, v => toBytes 4 (htonl v).toNat
  | .s64, v | .u64, v => toBytes 8 (htonll v).toNat

/-- `data` after `Write`. -/
def write : (t : Ty) → Value t → Bytes → Bytes
  | .scalar s, v, data => data ++ s.encode v
  | .string, v, data =>
      let length := BitVec.ofNat 32 (List.length v)
      data ++ Scalar.u32.encode length ++ List.take length.toNat v
  | .vector t, v, data =>
      List.foldl (fun data x => write t x data)
        (data ++ Scalar.u32.encode (BitVec.ofNat 32 (List.length v))) v
  | .array t _, v, data => v.1.foldl (fun data x => write t x data) data

/-- Strings and vectors have a length of 32 bits. -/
def Short : (t : Ty) → Value t → Prop
  | .scalar _, _ => True
  | .string, v => List.length v < 2 ^ 32
  | .vector t, v => List.length v < 2 ^ 32 ∧ ∀ x ∈ (v : List (Value t)), Short t x
  | .array t _, v => ∀ x ∈ v.1, Short t x

/-! ## Read -/

/-- The least number of bytes of a value. -/
def minSize : Ty → Nat
  | .scalar s => s.size
  | .string => 4
  | .vector _ => 4
  | .array t n => n * minSize t

/-- A packet, and whether all accesses so far were inside `data` and all vectors within its bytes. -/
structure Reader where
  data : Bytes
  readPos : Nat
  isValid : Bool
  harmless : Bool
  deriving DecidableEq, Repr

namespace Reader

def start (data : Bytes) : Reader := ⟨data, 0, true, true⟩

def ignoreBytes (r : Reader) (length : BitVec 32) : Reader :=
  { r with readPos := (r.readPos + length.toNat) % 2 ^ 64 }

def endOfPacket (r : Reader) : Bool := decide (r.data.length ≤ r.readPos)

def checkSize (r : Reader) (size : Nat) : Reader :=
  { r with isValid := r.isValid && decide ((r.readPos + size) % 2 ^ 64 ≤ r.data.length) }

/-- `Read(void*, size_t)`. -/
def readRaw (r : Reader) (size : Nat) : Option Bytes × Reader :=
  let r := r.checkSize size
  if r.isValid then
    (some ((r.data.drop r.readPos).take size),
      { r with
        readPos := (r.readPos + size) % 2 ^ 64
        harmless := r.harmless && decide (r.readPos + size ≤ r.data.length) })
  else (none, r)

/-- `out_data.resize(size)`. -/
def resize (r : Reader) (element : Ty) (size : Nat) : Reader :=
  { r with harmless := r.harmless && decide (size * minSize element ≤ r.data.length - r.readPos) }

end Reader

/-- What `Read` makes of the variable: a byte or a bool is left alone if there are no bytes. -/
def Scalar.decode : (s : Scalar) → Option s.Value → Option Bytes → Option s.Value
  | .bool, old, bytes => (bytes.map fun bytes => decide (fromBytes bytes ≠ 0)).or old
  | .s8, old, bytes | .u8, old, bytes => (bytes.map fun bytes => BitVec.ofNat 8 (fromBytes bytes)).or old
  | .s16, _, bytes | .u16, _, bytes => some (htons (BitVec.ofNat 16 (bytes.elim 0 fromBytes)))
  | .s32, _, bytes | .u32, _, bytes => some (htonl (BitVec.ofNat 32 (bytes.elim 0 fromBytes)))
  | .s64, _, bytes | .u64, _, bytes => some (htonll (BitVec.ofNat 64 (bytes.elim 0 fromBytes)))

def readScalar (s : Scalar) (old : Option s.Value) (r : Reader) : Option s.Value × Reader :=
  (s.decode old (r.readRaw s.size).1, (r.readRaw s.size).2)

/-- The length in front of a string or a vector. -/
def readLength (r : Reader) : Nat × Reader :=
  (((readScalar .u32 (some 0) r).1.getD 0).toNat, (readScalar .u32 (some 0) r).2)

def readString (r : Reader) : Bytes × Reader :=
  let (length, r) := readLength r
  if length = 0 then ([], r) else ((r.readRaw length).1.getD [], (r.readRaw length).2)

/-- The loop over the elements. -/
def many {α : Type} (read : Reader → α × Reader) : Nat → Reader → List α × Reader
  | 0, r => ([], r)
  | n + 1, r => ((read r).1 :: (many read n (read r).2).1, (many read n (read r).2).2)

def read : (t : Ty) → Stored t → Reader → Stored t × Reader
  | .scalar s, old, r => readScalar s old r
  | .string, _, r => readString r
  | .vector t, _, r =>
      many (read t (fresh t)) (readLength r).1 ((readLength r).2.resize t (readLength r).1)
  | .array t n, _, r => many (read t (fresh t)) n r

/-- Values of any types, one after the other. -/
def writeAll (vs : List (Sigma Value)) : Bytes := vs.foldl (fun data v => write v.1 v.2 data) []

def readAll : List Ty → Reader → List (Sigma Stored) × Reader
  | [], r => ([], r)
  | t :: ts, r =>
      (⟨t, (read t (fresh t) r).1⟩ :: (readAll ts (read t (fresh t) r).2).1,
        (readAll ts (read t (fresh t) r).2).2)

/-! ## The specification -/

def initialised : (t : Ty) → Stored t → Bool
  | .scalar _, x => Option.isSome x
  | .string, _ => true
  | .vector t, x => List.all x (initialised t)
  | .array t _, x => List.all x (initialised t)

/-- The elements of a vector or an array have been read. -/
def delivered : (t : Ty) → Stored t → Bool
  | .scalar _, _ => true
  | .string, _ => true
  | .vector t, x => initialised (.vector t) x
  | .array t n, x => initialised (.array t n) x

inductive Op where
  | read (t : Ty)
  | ignoreBytes (length : BitVec 32)

def step : Op → Reader → Reader
  | .read t, r => (read t (fresh t) r).2
  | .ignoreBytes length, r => r.ignoreBytes length

def run (ops : List Op) (r : Reader) : Reader := ops.foldl (fun r op => step op r) r

/-- All vectors and arrays of a run are delivered. -/
def allDelivered : List Op → Reader → Bool
  | [], _ => true
  | .read t :: ops, r => delivered t (read t (fresh t) r).1 && allDelivered ops (step (.read t) r)
  | op :: ops, r => allDelivered ops (step op r)

/-! ## When it goes well -/

/-- A type without strings and vectors. -/
def fixed : Ty → Bool
  | .scalar _ => true
  | .string => false
  | .vector _ => false
  | .array t _ => fixed t

/-- Bytes and bools: the variable is uninitialised before `Read`, and after it if `Read` fails. -/
def raw : Ty → Bool
  | .scalar s => decide (s.size = 1)
  | .string => false
  | .vector _ => false
  | .array t n => raw t && decide (0 < n)

/-- The position does not go around to inside `data`. -/
def Straight (r : Reader) (size : Nat) : Prop :=
  r.isValid = true → (r.readPos + size) % 2 ^ 64 ≤ r.data.length → r.readPos + size ≤ r.data.length

def FitsMany (fits : Reader → Prop) (next : Reader → Reader) : Nat → Reader → Prop
  | 0, _ => True
  | n + 1, r => fits r ∧ FitsMany fits next n (next r)

/-- A vector is within the bytes that remain, and the bytes of an array of bytes are all there. -/
def Fits : Ty → Reader → Prop
  | .scalar s, r => Straight r s.size
  | .string, r => Straight r 4 ∧ ((readLength r).1 ≠ 0 → Straight (readLength r).2 (readLength r).1)
  | .vector t, r =>
      Straight r 4 ∧
      (readLength r).1 * minSize t ≤ (readLength r).2.data.length - (readLength r).2.readPos ∧
      (fixed t = false → FitsMany (Fits t) (fun r => (read t (fresh t) r).2) (readLength r).1
        ((readLength r).2.resize t (readLength r).1))
  | .array t n, r =>
      if raw t then 0 < n → r.isValid = true ∧ r.readPos + n * minSize t ≤ r.data.length
      else FitsMany (Fits t) (fun r => (read t (fresh t) r).2) n r

def AllFit : List Op → Reader → Prop
  | [], _ => True
  | .read t :: ops, r => Fits t r ∧ AllFit ops (step (.read t) r)
  | op :: ops, r => AllFit ops (step op r)

/-! ## What is written is read back -/

theorem htons_htons (x : BitVec 16) : htons (htons x) = x := by
  have hlt : byteSwap 2 x.toNat < 2 ^ 16 := byteSwap_lt 2 _
  have hmod : x.toNat % 256 ^ 2 = x.toNat := Nat.mod_eq_of_lt x.isLt
  rw [htons, htons, BitVec.toNat_ofNat, Nat.mod_eq_of_lt hlt, byteSwap_byteSwap, hmod]
  exact BitVec.ofNat_toNat _ _

theorem htonl_htonl (x : BitVec 32) : htonl (htonl x) = x := by
  have hlt : byteSwap 4 x.toNat < 2 ^ 32 := byteSwap_lt 4 _
  have hmod : x.toNat % 256 ^ 4 = x.toNat := Nat.mod_eq_of_lt x.isLt
  rw [htonl, htonl, BitVec.toNat_ofNat, Nat.mod_eq_of_lt hlt, byteSwap_byteSwap, hmod]
  exact BitVec.ofNat_toNat _ _

/-- A number of 64 bits from two halves. -/
def join (high low : BitVec 32) : BitVec 64 := high.setWidth 64 <<< 32 ||| low.setWidth 64

variable {r : Reader} (x : BitVec 64) (t : Ty)

theorem setWidth_low : (x &&& 0xFFFFFFFF).setWidth 32 = x.setWidth 32 := by
  refine BitVec.eq_of_toNat_eq ?_
  have hand : x.toNat &&& 0xFFFFFFFF = x.toNat % 2 ^ 32 := Nat.and_two_pow_sub_one_eq_mod x.toNat 32
  rw [BitVec.toNat_setWidth, BitVec.toNat_setWidth, BitVec.toNat_and]
  show (x.toNat &&& 0xFFFFFFFF) % 2 ^ 32 = _
  rw [hand, Nat.mod_mod]

theorem low_join (high low : BitVec 32) : (join high low &&& 0xFFFFFFFF).setWidth 32 = low := by
  rw [setWidth_low]
  refine BitVec.eq_of_getLsbD_eq fun i hi => ?_
  simp [join, hi]

theorem high_join (high low : BitVec 32) : (join high low >>> 32).setWidth 32 = high := by
  refine BitVec.eq_of_getLsbD_eq fun i hi => ?_
  simp [join, show 32 + i < 64 by omega, show i < 64 by omega, hi]

theorem join_halves : join ((x >>> 32).setWidth 32) ((x &&& 0xFFFFFFFF).setWidth 32) = x := by
  rw [setWidth_low]
  refine BitVec.eq_of_getLsbD_eq fun i hi => ?_
  rcases Nat.lt_or_ge i 32 with hlow | hhigh
  · simp [join, hlow, hi]
  · simp [join, hi, Nat.not_lt.mpr hhigh, show i - 32 < 32 by omega, show 32 + (i - 32) = i by omega]

theorem htonll_eq : htonll x =
    join (htonl ((x &&& 0xFFFFFFFF).setWidth 32)) (htonl ((x >>> 32).setWidth 32)) :=
  if_neg (by decide)

theorem htonll_htonll : htonll (htonll x) = x := by
  rw [htonll_eq, htonll_eq, low_join, high_join, htonl_htonl, htonl_htonl, join_halves]

theorem fromBytes_toBytes_of_lt {n value : Nat} (h : value < 256 ^ n) :
    fromBytes (toBytes n value) = value := by
  rw [fromBytes_toBytes, Nat.mod_eq_of_lt h]

theorem Scalar.decode_encode (s : Scalar) (old : Option s.Value) (v : s.Value) :
    s.decode old (some (s.encode v)) = some v := by
  have hword : ∀ {n w : Nat} (x : BitVec w), w = 8 * n →
      BitVec.ofNat w (fromBytes (toBytes n x.toNat)) = x := by
    intro n w x hw
    have hpow : 2 ^ w = 256 ^ n := hw ▸ pow_mul 2 8 n
    rw [fromBytes_toBytes_of_lt (hpow ▸ x.isLt), BitVec.ofNat_toNat, BitVec.setWidth_eq]
  cases s with
  | bool => cases v <;> rfl
  | s8 | u8 => exact congrArg some (hword _ rfl)
  | s16 | u16 => exact congrArg some ((congrArg htons (hword _ rfl)).trans (htons_htons v))
  | s32 | u32 => exact congrArg some ((congrArg htonl (hword _ rfl)).trans (htonl_htonl v))
  | s64 | u64 => exact congrArg some ((congrArg htonll (hword _ rfl)).trans (htonll_htonll v))

theorem Scalar.length_encode (s : Scalar) (v : s.Value) : (s.encode v).length = s.size := by
  cases s <;> exact length_toBytes _ _

theorem foldl_append {α : Type} {f : Bytes → α → Bytes} (h : ∀ data x, f data x = data ++ f [] x)
    (l : List α) (data : Bytes) : l.foldl f data = data ++ l.foldl f [] := by
  induction l generalizing data with
  | nil => exact (List.append_nil _).symm
  | cons x l ih => rw [List.foldl_cons, List.foldl_cons, ih, ih (f [] x), h data x, List.append_assoc]

theorem write_append (v : Value t) (data : Bytes) : write t v data = data ++ write t v [] := by
  induction t generalizing data with
  | scalar s => rfl
  | string => rw [write, write, List.nil_append, List.append_assoc]
  | vector t ih =>
    have h := fun data x => ih x data
    rw [write, write, foldl_append h, foldl_append h v ([] ++ _), List.nil_append, List.append_assoc]
  | array t n ih =>
    have h := fun data x => ih x data
    rw [write, write, foldl_append h]

/-- A reader that is valid, with these bytes before it. -/
structure At (r : Reader) (rest : Bytes) : Prop where
  isValid : r.isValid = true
  bytes : ∃ passed, r.data = passed ++ rest ∧ r.readPos = passed.length
  bounded : r.data.length < 2 ^ 64

theorem At.readRaw {bytes rest : Bytes} (h : At r (bytes ++ rest)) :
    (r.readRaw bytes.length).1 = some bytes ∧ At (r.readRaw bytes.length).2 rest := by
  obtain ⟨hvalid, ⟨passed, hdata, hpos⟩, hbounded⟩ := h
  have hlength : r.data.length = passed.length + (bytes.length + rest.length) := by
    rw [hdata, List.length_append, List.length_append]
  have hmod : (r.readPos + bytes.length) % 2 ^ 64 = r.readPos + bytes.length :=
    Nat.mod_eq_of_lt (by omega)
  have hcheck : (r.checkSize bytes.length).isValid = true := by
    show (r.isValid && decide _) = true
    rw [hvalid, hmod, Bool.true_and]; exact decide_eq_true (by omega)
  unfold Reader.readRaw
  simp only [if_pos hcheck]
  refine ⟨?_, hcheck, ⟨passed ++ bytes, ?_, ?_⟩, hbounded⟩
  · show some ((r.data.drop r.readPos).take bytes.length) = _
    rw [hdata, hpos, List.drop_left, List.take_left]
  · show r.data = _
    rw [hdata, List.append_assoc]
  · show (r.readPos + bytes.length) % 2 ^ 64 = _
    rw [hmod, hpos, List.length_append]

theorem At.readScalar {rest : Bytes} {s : Scalar} {v : s.Value} (h : At r (s.encode v ++ rest))
    (old : Option s.Value) : (readScalar s old r).1 = some v ∧ At (readScalar s old r).2 rest := by
  obtain ⟨hbytes, hrest⟩ := h.readRaw
  rw [s.length_encode] at hbytes hrest
  refine ⟨?_, hrest⟩
  show s.decode old (r.readRaw s.size).1 = _
  rw [hbytes, s.decode_encode]

theorem At.readLength {rest : Bytes} {n : Nat} (hn : n < 2 ^ 32)
    (h : At r (Scalar.u32.encode (BitVec.ofNat 32 n) ++ rest)) :
    (readLength r).1 = n ∧ At (readLength r).2 rest := by
  obtain ⟨hvalue, hrest⟩ := h.readScalar (some 0)
  refine ⟨?_, hrest⟩
  show ((PacketStream.readScalar .u32 (some 0) r).1.getD 0).toNat = n
  rw [hvalue]
  exact (BitVec.toNat_ofNat _ _).trans (Nat.mod_eq_of_lt hn)

theorem At.many {α β : Type} {f : Reader → α × Reader} {g : Bytes → β → Bytes} {stored : β → α}
    (hg : ∀ data x, g data x = data ++ g [] x) {l : List β}
    (hf : ∀ x ∈ l, ∀ r rest, At r (g [] x ++ rest) → (f r).1 = stored x ∧ At (f r).2 rest)
    {rest : Bytes} (h : At r (l.foldl g [] ++ rest)) :
    (many f l.length r).1 = l.map stored ∧ At (many f l.length r).2 rest := by
  induction l generalizing r with
  | nil => exact ⟨rfl, h⟩
  | cons x l ih =>
    rw [List.foldl_cons, foldl_append hg, List.append_assoc] at h
    obtain ⟨hx, hnext⟩ := hf x List.mem_cons_self r _ h
    obtain ⟨hl, hrest⟩ := ih (fun y hy => hf y (List.mem_cons_of_mem x hy)) hnext
    refine ⟨?_, hrest⟩
    show (f r).1 :: (PacketStream.many f l.length (f r).2).1 = stored x :: l.map stored
    rw [hx, hl]

/-- **What is written is read back**, and the reader is behind it. -/
theorem read_back (v : Value t) (hshort : Short t v) (old : Stored t) (r : Reader) (rest : Bytes)
    (h : At r (write t v [] ++ rest)) : (read t old r).1 = store t v ∧ At (read t old r).2 rest := by
  induction t generalizing r rest with
  | scalar s => exact h.readScalar old
  | string =>
    rw [write, List.nil_append, List.append_assoc] at h
    have hlength : (BitVec.ofNat 32 (List.length v)).toNat = List.length v :=
      (BitVec.toNat_ofNat _ _).trans (Nat.mod_eq_of_lt hshort)
    rw [hlength, List.take_length] at h
    obtain ⟨hvalue, hnext⟩ := h.readLength hshort
    show (readString r).1 = v ∧ At (readString r).2 rest
    unfold readString
    simp only [hvalue]
    split
    · next hzero =>
      obtain rfl : v = [] := List.length_eq_zero_iff.mp hzero
      exact ⟨rfl, hnext⟩
    · obtain ⟨hbytes, hrest⟩ := hnext.readRaw
      refine ⟨?_, hrest⟩
      show ((readLength r).2.readRaw (List.length v)).1.getD [] = v
      rw [hbytes]; rfl
  | vector t ih =>
    have hg := fun data x => write_append t x data
    rw [write, foldl_append hg, List.nil_append, List.append_assoc] at h
    obtain ⟨hvalue, hnext⟩ := h.readLength hshort.1
    have hresize : At ((readLength r).2.resize t (List.length v)) _ :=
      ⟨hnext.isValid, hnext.bytes, hnext.bounded⟩
    show (many _ (readLength r).1 _).1 = List.map (store t) v ∧ At (many _ (readLength r).1 _).2 rest
    rw [hvalue]
    exact At.many hg (fun x hx r rest hr => ih x (hshort.2 x hx) _ r rest hr) hresize
  | array t n ih =>
    have hg := fun data x => write_append t x data
    have hmany := At.many hg (fun x hx r rest hr => ih x (hshort x hx) (fresh t) r rest hr) h
    rw [v.2] at hmany; exact hmany

/-! ## Reading anything -/

/-- What any read keeps. -/
structure Follows (r r' : Reader) : Prop where
  data : r'.data = r.data
  harmless : r'.harmless = true → r.harmless = true
  /-- Once a read has failed the packet stays invalid. -/
  invalid : r.isValid = false → r'.isValid = false

theorem Follows.refl (r : Reader) : Follows r r := ⟨rfl, id, id⟩

theorem Follows.trans {r r' r'' : Reader} (h : Follows r r') (h' : Follows r' r'') : Follows r r'' :=
  ⟨h'.data.trans h.data, h.harmless ∘ h'.harmless, h'.invalid ∘ h.invalid⟩

theorem checkSize_isValid (r : Reader) (size : Nat) : (r.checkSize size).isValid = true ↔
    r.isValid = true ∧ (r.readPos + size) % 2 ^ 64 ≤ r.data.length := by
  show (r.isValid && decide _) = true ↔ _
  rw [Bool.and_eq_true, decide_eq_true_iff]

theorem readRaw_follows (r : Reader) (size : Nat) : Follows r (r.readRaw size).2 := by
  have hinvalid : r.isValid = false → (r.checkSize size).isValid = false := by
    intro h
    show (r.isValid && _) = false
    rw [h, Bool.false_and]
  unfold Reader.readRaw
  dsimp only
  split
  · exact ⟨rfl, fun h => (Bool.and_eq_true _ _ ▸ h).1, hinvalid⟩
  · exact ⟨rfl, id, hinvalid⟩

theorem readRaw_harmless (r : Reader) (size : Nat) :
    (r.readRaw size).2.harmless = true ↔ r.harmless = true ∧ Straight r size := by
  unfold Reader.readRaw Straight
  dsimp only
  split
  · next h =>
    obtain ⟨hvalid, hle⟩ := (checkSize_isValid r size).mp h
    show (r.harmless && decide _) = true ↔ _
    rw [Bool.and_eq_true, decide_eq_true_iff]
    exact and_congr_right fun _ => ⟨fun hin _ _ => hin, fun hin => hin hvalid hle⟩
  · next h =>
    have hno : ∀ hvalid : r.isValid = true, ¬ (r.readPos + size) % 2 ^ 64 ≤ r.data.length :=
      fun hvalid hle => h ((checkSize_isValid r size).mpr ⟨hvalid, hle⟩)
    exact ⟨fun hr => ⟨hr, fun hvalid hle => absurd hle (hno hvalid)⟩, And.left⟩

theorem readRaw_of_le {size : Nat} (hvalid : r.isValid = true) (hle : r.readPos + size ≤ r.data.length)
    (hbounded : r.data.length < 2 ^ 64) : r.readRaw size =
      (some ((r.data.drop r.readPos).take size), { r with readPos := r.readPos + size }) := by
  have hmod : (r.readPos + size) % 2 ^ 64 = r.readPos + size := Nat.mod_eq_of_lt (by omega)
  have hcheck : (r.checkSize size) = r := by
    unfold Reader.checkSize
    rw [hmod, decide_eq_true hle, Bool.and_true]
  unfold Reader.readRaw
  simp only [hcheck, if_pos hvalid, hmod, decide_eq_true hle, Bool.and_true]

theorem readRaw_isSome {size : Nat} (h : (r.readRaw size).1.isSome = true) (hstraight : Straight r size) :
    r.isValid = true ∧ r.readPos + size ≤ r.data.length := by
  unfold Reader.readRaw at h
  dsimp only at h
  split at h
  · next hcheck =>
    obtain ⟨hvalid, hle⟩ := (checkSize_isValid r size).mp hcheck
    exact ⟨hvalid, hstraight hvalid hle⟩
  · cases h

theorem readLength_harmless (r : Reader) :
    (readLength r).2.harmless = true ↔ r.harmless = true ∧ Straight r 4 := readRaw_harmless r 4

theorem readLength_ne_zero (h : (readLength r).1 ≠ 0) (hstraight : Straight r 4)
    (hbounded : r.data.length < 2 ^ 64) :
    (readLength r).2.isValid = true ∧ (readLength r).2.readPos ≤ (readLength r).2.data.length := by
  have hsome : (r.readRaw 4).1.isSome = true := by
    cases hraw : (r.readRaw 4).1 with
    | some bytes => rfl
    | none =>
      refine absurd ?_ h
      show ((Scalar.decode .u32 (some 0) (r.readRaw 4).1).getD 0).toNat = 0
      rw [hraw]; rfl
  obtain ⟨hvalid, hle⟩ := readRaw_isSome hsome hstraight
  show (r.readRaw 4).2.isValid = true ∧ (r.readRaw 4).2.readPos ≤ (r.readRaw 4).2.data.length
  rw [readRaw_of_le hvalid hle hbounded]
  exact ⟨hvalid, hle⟩

theorem many_follows {α : Type} {f : Reader → α × Reader} (hf : ∀ r, Follows r (f r).2) (n : Nat)
    (r : Reader) : Follows r (many f n r).2 := by
  induction n generalizing r with
  | zero => exact .refl r
  | succ n ih => exact (hf r).trans (ih _)

theorem resize_follows (r : Reader) (t : Ty) (size : Nat) : Follows r (r.resize t size) :=
  ⟨rfl, fun h => (Bool.and_eq_true _ _ ▸ h).1, id⟩

theorem read_follows (old : Stored t) (r : Reader) : Follows r (read t old r).2 := by
  induction t generalizing r with
  | scalar s => exact readRaw_follows r s.size
  | string =>
    show Follows r (readString r).2
    unfold readString
    dsimp only
    split
    · exact readRaw_follows r 4
    · exact (readRaw_follows r 4).trans (readRaw_follows _ _)
  | vector t ih =>
    exact ((readRaw_follows r 4).trans (resize_follows _ t _)).trans (many_follows (ih (fresh t)) _ _)
  | array t n ih => exact many_follows (ih (fresh t)) n r

/-! ## Elements of fixed size -/

theorem Scalar.decode_some (s : Scalar) (old : Option s.Value) (bytes : Bytes) :
    (s.decode old (some bytes)).isSome = true := by
  cases s <;> rfl

theorem many_fixed {t : Ty} {f : Reader → Stored t × Reader}
    (hf : ∀ r : Reader, r.isValid = true → r.readPos + minSize t ≤ r.data.length →
      r.data.length < 2 ^ 64 →
      initialised t (f r).1 = true ∧ (f r).2 = { r with readPos := r.readPos + minSize t })
    (n : Nat) (r : Reader) (hvalid : r.isValid = true)
    (hle : r.readPos + n * minSize t ≤ r.data.length) (hbounded : r.data.length < 2 ^ 64) :
    (many f n r).1.all (initialised t) = true ∧
      (many f n r).2 = { r with readPos := r.readPos + n * minSize t } := by
  induction n generalizing r with
  | zero =>
    rw [Nat.zero_mul]; exact ⟨rfl, rfl⟩
  | succ n ih =>
    rw [Nat.succ_mul] at hle ⊢
    obtain ⟨hx, hnext⟩ := hf r hvalid (by omega) hbounded
    obtain ⟨hxs, hlast⟩ := ih (f r).2 (hnext ▸ hvalid) (by rw [hnext]; dsimp only; omega) (hnext ▸ hbounded)
    refine ⟨?_, ?_⟩
    · show (initialised t (f r).1 && (many f n (f r).2).1.all (initialised t)) = true
      rw [hx, hxs, Bool.and_true]
    · show (many f n (f r).2).2 = _
      rw [hlast, hnext]
      simp only [Reader.mk.injEq, and_self, true_and, and_true]; omega

theorem read_fixed (hfixed : fixed t = true) (old : Stored t) (r : Reader) (hvalid : r.isValid = true)
    (hle : r.readPos + minSize t ≤ r.data.length) (hbounded : r.data.length < 2 ^ 64) :
    initialised t (read t old r).1 = true ∧
      (read t old r).2 = { r with readPos := r.readPos + minSize t } := by
  induction t generalizing r with
  | scalar s =>
    have hraw := readRaw_of_le hvalid hle hbounded
    refine ⟨?_, congrArg Prod.snd hraw⟩
    show (s.decode old (r.readRaw s.size).1).isSome = true
    rw [show (r.readRaw s.size).1 = _ from congrArg Prod.fst hraw]
    exact s.decode_some old _
  | string => cases hfixed
  | vector t ih => cases hfixed
  | array t n ih => exact many_fixed (ih hfixed (fresh t)) n r hvalid hle hbounded

theorem fixed_of_raw (h : raw t = true) : fixed t = true := by
  induction t with
  | scalar s => rfl
  | string => cases h
  | vector t ih => cases h
  | array t n ih => exact ih (Bool.and_eq_true _ _ ▸ h).1

theorem many_there {t : Ty} (hfixed : fixed t = true)
    (hthere : ∀ r : Reader, r.data.length < 2 ^ 64 → (read t (fresh t) r).2.harmless = true →
      initialised t (read t (fresh t) r).1 = true →
      r.isValid = true ∧ r.readPos + minSize t ≤ r.data.length)
    (n : Nat) (hn : 0 < n) (r : Reader) (hbounded : r.data.length < 2 ^ 64)
    (hharmless : (many (read t (fresh t)) n r).2.harmless = true)
    (hinit : (many (read t (fresh t)) n r).1.all (initialised t) = true) :
    r.isValid = true ∧ r.readPos + n * minSize t ≤ r.data.length := by
  induction n generalizing r with
  | zero => exact absurd hn (Nat.lt_irrefl 0)
  | succ n ih =>
    obtain ⟨hx, hxs⟩ := (Bool.and_eq_true _ _).mp hinit
    obtain ⟨hvalid, hle⟩ := hthere r hbounded
      ((many_follows (read_follows t (fresh t)) n _).harmless hharmless) hx
    obtain ⟨-, hnext⟩ := read_fixed t hfixed (fresh t) r hvalid hle hbounded
    rw [Nat.succ_mul]
    rcases Nat.eq_zero_or_pos n with rfl | hpos
    · exact ⟨hvalid, by omega⟩
    · have hrest := ih hpos (read t (fresh t) r).2 (hnext ▸ hbounded) hharmless hxs
      rw [hnext] at hrest
      have hle' : r.readPos + minSize t + n * minSize t ≤ r.data.length := hrest.2
      exact ⟨hvalid, by omega⟩

theorem there_of_raw (h : raw t = true) (r : Reader) (hbounded : r.data.length < 2 ^ 64)
    (hharmless : (read t (fresh t) r).2.harmless = true)
    (hinit : initialised t (read t (fresh t) r).1 = true) :
    r.isValid = true ∧ r.readPos + minSize t ≤ r.data.length := by
  induction t generalizing r with
  | scalar s =>
    refine readRaw_isSome ?_ ((readRaw_harmless r s.size).mp hharmless).2
    have hinit : (s.decode none (r.readRaw s.size).1).isSome = true := hinit
    show (r.readRaw s.size).1.isSome = true
    cases hbytes : (r.readRaw s.size).1 with
    | some bytes => rfl
    | none =>
      rw [hbytes] at hinit
      have hsize : s.size = 1 := of_decide_eq_true h
      cases s <;> first | exact absurd hsize (by decide) | cases hinit
  | string => cases h
  | vector t ih => cases h
  | array t n ih =>
    have h : (raw t && decide (0 < n)) = true := h
    rw [Bool.and_eq_true, decide_eq_true_iff] at h
    exact many_there (fixed_of_raw t h.1) (ih h.1) n h.2 r hbounded hharmless hinit

/-! ## The condition -/

theorem initialised_of_delivered (h : raw t = false) (r : Reader) :
    delivered t (read t (fresh t) r).1 = initialised t (read t (fresh t) r).1 := by
  cases t with
  | scalar s =>
    have hsize : s.size ≠ 1 := of_decide_eq_false h
    cases s <;> first | rfl | exact absurd rfl hsize
  | string => rfl
  | vector t => rfl
  | array t n => rfl

theorem many_iff {t : Ty} (hraw : raw t = false) (hread : ∀ r : Reader, r.data.length < 2 ^ 64 →
      ((read t (fresh t) r).2.harmless = true ∧ delivered t (read t (fresh t) r).1 = true ↔
        r.harmless = true ∧ Fits t r)) (n : Nat) (r : Reader) (hbounded : r.data.length < 2 ^ 64) :
    (many (read t (fresh t)) n r).2.harmless = true ∧
        (many (read t (fresh t)) n r).1.all (initialised t) = true ↔
      r.harmless = true ∧ FitsMany (Fits t) (fun r => (read t (fresh t) r).2) n r := by
  induction n generalizing r with
  | zero => exact and_congr_right fun _ => ⟨fun _ => trivial, fun _ => rfl⟩
  | succ n ih =>
    have hfollows := read_follows t (fresh t) r
    have hih := ih (read t (fresh t) r).2 (hfollows.data ▸ hbounded)
    show (many (read t (fresh t)) n (read t (fresh t) r).2).2.harmless = true ∧
      (initialised t (read t (fresh t) r).1 &&
        (many (read t (fresh t)) n (read t (fresh t) r).2).1.all (initialised t)) = true ↔
      r.harmless = true ∧ Fits t r ∧ FitsMany (Fits t) (fun r => (read t (fresh t) r).2) n
        (read t (fresh t) r).2
    rw [Bool.and_eq_true, ← and_assoc (a := r.harmless = true), ← hread r hbounded,
      initialised_of_delivered t hraw r]
    constructor
    · rintro ⟨hharmless, hinit, hall⟩
      obtain ⟨hfirst, hrest⟩ := hih.mp ⟨hharmless, hall⟩
      exact ⟨⟨hfirst, hinit⟩, hrest⟩
    · rintro ⟨⟨hfirst, hinit⟩, hrest⟩
      obtain ⟨hharmless, hall⟩ := hih.mpr ⟨hfirst, hrest⟩
      exact ⟨hharmless, hinit, hall⟩

/-- **EXACTLY WHEN one read is harmless** and delivers what it should. -/
theorem read_iff (old : Stored t) (r : Reader) (hbounded : r.data.length < 2 ^ 64) :
    (read t old r).2.harmless = true ∧ delivered t (read t old r).1 = true ↔
      r.harmless = true ∧ Fits t r := by
  induction t generalizing r with
  | scalar s => exact (and_iff_left rfl).trans (readRaw_harmless r s.size)
  | string =>
    refine (and_iff_left rfl).trans ?_
    show (readString r).2.harmless = true ↔ r.harmless = true ∧ Straight r 4 ∧ _
    rw [← and_assoc, ← readLength_harmless]
    unfold readString
    dsimp only
    split
    · next hzero => exact ⟨fun h => ⟨h, fun hne => absurd hzero hne⟩, And.left⟩
    · next hne =>
      rw [readRaw_harmless]; exact and_congr_right fun _ => ⟨fun h _ => h, fun h => h hne⟩
  | vector t ih =>
    have hlength := readLength_harmless r
    have hdata : (readLength r).2.data.length < 2 ^ 64 := (readRaw_follows r 4).data ▸ hbounded
    have hresize : ((readLength r).2.resize t (readLength r).1).harmless = true ↔
        (readLength r).2.harmless = true ∧
        (readLength r).1 * minSize t ≤ (readLength r).2.data.length - (readLength r).2.readPos := by
      show ((readLength r).2.harmless && decide _) = true ↔ _
      rw [Bool.and_eq_true, decide_eq_true_iff]
    show (many _ (readLength r).1 _).2.harmless = true ∧ (many _ (readLength r).1 _).1.all _ = true ↔
      r.harmless = true ∧ Straight r 4 ∧ _ ∧ _
    rw [← and_assoc (a := r.harmless = true), ← hlength, ← and_assoc, ← hresize]
    cases hfixed : fixed t with
    | false =>
      have hraw : raw t = false := by
        cases hraw : raw t with
        | false => rfl
        | true => rw [fixed_of_raw t hraw] at hfixed; cases hfixed
      refine (many_iff hraw (ih (fresh t)) (readLength r).1
        ((readLength r).2.resize t (readLength r).1) hdata).trans (and_congr_right fun _ => ?_)
      exact ⟨fun h _ => h, fun h => h rfl⟩
    | true =>
      refine ⟨fun h => ⟨(many_follows (read_follows t (fresh t)) _ _).harmless h.1, by simp⟩, fun h => ?_⟩
      obtain ⟨hharmless, hle⟩ := hresize.mp h.1
      rcases Nat.eq_zero_or_pos (readLength r).1 with hzero | hpos
      · have hnone : ∀ r', many (read t (fresh t)) (readLength r).1 r' = ([], r') := by
          rw [hzero]; exact fun _ => rfl
        rw [hnone]
        exact ⟨h.1, rfl⟩
      · obtain ⟨hvalid, hpos'⟩ := readLength_ne_zero (Nat.pos_iff_ne_zero.mp hpos) (hlength.mp hharmless).2 hbounded
        obtain ⟨hall, hlast⟩ := many_fixed (read_fixed t hfixed (fresh t)) (readLength r).1
          ((readLength r).2.resize t (readLength r).1) hvalid
          (show (readLength r).2.readPos + _ ≤ (readLength r).2.data.length by omega) hdata
        rw [hlast]; exact ⟨h.1, hall⟩
  | array t n ih =>
    show (many _ n r).2.harmless = true ∧ (many _ n r).1.all _ = true ↔ r.harmless = true ∧ Fits (.array t n) r
    unfold Fits
    cases hraw : raw t with
    | false =>
      rw [if_neg Bool.false_ne_true]; exact many_iff hraw (ih (fresh t)) n r hbounded
    | true =>
      rw [if_pos rfl]
      constructor
      · intro h
        refine ⟨(many_follows (read_follows t (fresh t)) n r).harmless h.1, fun hn => ?_⟩
        refine there_of_raw (.array t n) ?_ r hbounded h.1 h.2
        show (raw t && decide (0 < n)) = true
        rw [hraw, decide_eq_true hn]
        rfl
      · rintro ⟨hharmless, hthere⟩
        rcases Nat.eq_zero_or_pos n with rfl | hn
        · exact ⟨hharmless, rfl⟩
        · obtain ⟨hvalid, hle⟩ := hthere hn
          obtain ⟨hall, hlast⟩ := many_fixed (read_fixed t (fixed_of_raw t hraw) (fresh t)) n r hvalid hle hbounded
          rw [hlast]; exact ⟨hharmless, hall⟩

/-! ## Runs -/

theorem run_iff (ops : List Op) (r : Reader) (hbounded : r.data.length < 2 ^ 64) :
    (run ops r).harmless = true ∧ allDelivered ops r = true ↔ r.harmless = true ∧ AllFit ops r := by
  induction ops generalizing r with
  | nil => exact and_congr_right fun _ => ⟨fun _ => trivial, fun _ => rfl⟩
  | cons op ops ih =>
    cases op with
    | ignoreBytes length => exact ih (r.ignoreBytes length) hbounded
    | read t =>
      have hnext := ih (read t (fresh t) r).2 ((read_follows t (fresh t) r).data ▸ hbounded)
      show _ ∧ (delivered t (read t (fresh t) r).1 && _) = true ↔ r.harmless = true ∧ Fits t r ∧ _
      rw [Bool.and_eq_true, ← and_assoc (a := r.harmless = true), ← read_iff t (fresh t) r hbounded]
      constructor
      · rintro ⟨hharmless, hdelivered, hall⟩
        obtain ⟨hfirst, hfit⟩ := hnext.mp ⟨hharmless, hall⟩
        exact ⟨⟨hfirst, hdelivered⟩, hfit⟩
      · rintro ⟨⟨hfirst, hdelivered⟩, hfit⟩
        obtain ⟨hharmless, hall⟩ := hnext.mpr ⟨hfirst, hfit⟩
        exact ⟨hharmless, hdelivered, hall⟩

theorem run_invalid (ops : List Op) (h : r.isValid = false) : (run ops r).isValid = false := by
  induction ops generalizing r with
  | nil => exact h
  | cons op ops ih =>
    cases op with
    | ignoreBytes length => exact ih h
    | read t => exact ih ((read_follows t (fresh t) r).invalid h)

theorem readAll_back (vs : List (Sigma Value)) (hshort : ∀ v ∈ vs, Short v.1 v.2)
    (h : At r (writeAll vs)) :
    (readAll (vs.map Sigma.fst) r).1 = vs.map (fun v => ⟨v.1, store v.1 v.2⟩) ∧
      At (readAll (vs.map Sigma.fst) r).2 [] := by
  induction vs generalizing r with
  | nil => exact ⟨rfl, h⟩
  | cons v vs ih =>
    have happend : ∀ (data : Bytes) (v : Sigma Value), write v.1 v.2 data = data ++ write v.1 v.2 [] :=
      fun data v => write_append v.1 v.2 data
    rw [writeAll, List.foldl_cons, foldl_append happend] at h
    obtain ⟨hv, hnext⟩ := read_back v.1 v.2 (hshort v List.mem_cons_self) (fresh v.1) r _ h
    obtain ⟨hvs, hrest⟩ := ih (fun w hw => hshort w (List.mem_cons_of_mem v hw)) hnext
    refine ⟨?_, hrest⟩
    show ⟨v.1, (read v.1 (fresh v.1) r).1⟩ :: (readAll (vs.map Sigma.fst) _).1 = _
    rw [hv, hvs]; rfl

/-- **THE PACKET**: what is written is read back; and a run is harmless and delivers its elements EXACTLY
    WHEN all of its steps fit. -/
theorem packet_exact (vs : List (Sigma Value)) (data : Bytes) (ops : List Op) :
    ((∀ v ∈ vs, Short v.1 v.2) → (writeAll vs).length < 2 ^ 64 →
      (readAll (vs.map Sigma.fst) (.start (writeAll vs))).1 = vs.map (fun v => ⟨v.1, store v.1 v.2⟩) ∧
      (readAll (vs.map Sigma.fst) (.start (writeAll vs))).2.isValid = true ∧
      (readAll (vs.map Sigma.fst) (.start (writeAll vs))).2.endOfPacket = true) ∧
    (data.length < 2 ^ 64 →
      ((run ops (.start data)).harmless = true ∧ allDelivered ops (.start data) = true ↔
        AllFit ops (.start data)) ∧
      ∀ more, (run ops (.start data)).isValid = false →
        (run (ops ++ more) (.start data)).isValid = false) := by
  refine ⟨fun hshort hbounded => ?_, fun hbounded => ⟨?_, fun more hinvalid => ?_⟩⟩
  · have hstart : At (.start (writeAll vs)) (writeAll vs) := ⟨rfl, ⟨[], rfl, rfl⟩, hbounded⟩
    obtain ⟨hback, hend⟩ := readAll_back vs hshort hstart
    obtain ⟨passed, hdata, hpos⟩ := hend.bytes
    refine ⟨hback, hend.isValid, decide_eq_true ?_⟩
    rw [hdata, hpos, List.append_nil]
  · exact (run_iff ops (.start data) hbounded).trans (and_iff_right rfl)
  · rw [run, List.foldl_append]; exact run_invalid more hinvalid

/-- A vector of two strings and an array; and a vector of two numbers that is read as a whole. -/
theorem packet_exact_twoStrings :
    (readAll [.vector .string, .array (.scalar .u16) 1] (.start (writeAll
      [⟨.vector .string, [[7], []]⟩, ⟨.array (.scalar .u16) 1, ⟨[0x1234], rfl⟩⟩]))).1 =
        [⟨.vector .string, [[7], []]⟩, ⟨.array (.scalar .u16) 1, [some 0x1234]⟩] ∧
    AllFit [.read (.vector (.scalar .u8)), .ignoreBytes 9] (.start [0, 0, 0, 2, 5, 6]) := by
  have h := packet_exact [⟨.vector .string, [[7], []]⟩, ⟨.array (.scalar .u16) 1, ⟨[0x1234], rfl⟩⟩]
    [0, 0, 0, 2, 5, 6] [.read (.vector (.scalar .u8)), .ignoreBytes 9]
  refine ⟨(h.1 ?_ (by decide)).1, (h.2 (by decide)).1.mp ⟨by decide, by decide⟩⟩
  intro v hv
  rcases List.mem_cons.mp hv with rfl | hv
  · have hseven : Short .string [7] := show (1 : Nat) < 2 ^ 32 by decide
    have hempty : Short .string [] := show (0 : Nat) < 2 ^ 32 by decide
    exact ⟨by decide, List.forall_mem_cons.mpr
      ⟨hseven, List.forall_mem_cons.mpr ⟨hempty, fun x hx => nomatch hx⟩⟩⟩
  · obtain rfl := List.mem_singleton.mp hv; exact fun x hx => trivial

/-- A vector that is announced with two bytes, and none is there. -/
theorem not_packet_harmless : ¬ ∀ (data : Bytes) (ops : List Op), data.length < 2 ^ 64 →
    (run ops (.start data)).harmless = true ∧ allDelivered ops (.start data) = true :=
  fun h => absurd (h [0, 0, 0, 2] [.read (.vector (.scalar .u8))] (by decide)) (by decide)

end Suyu.Network.PacketStream
