import Mathlib

/-
  RingBuffer - one thread pushes, another pops, and only two counters pass between them.

  1. **Program** - `Push` loads both counters, copies as many slots as it sees free and only then stores
     `m_write_index`; `Pop` does the same with the filled slots and `m_read_index`.  The counters never
     stop counting: they wrap at 2^64, and a slot is found by the remainder of the capacity.  Between
     any two of these accesses the other thread may run, so a call is a sequence of steps: load the own
     counter, load the other one, copy slot after slot, store.

  2. **Specification (`PushStep`, `PopStep`)** - what was popped so far is the beginning of what was
     accepted so far, and each step of a call is one of a bounded FIFO queue.

  3. **The crux (`Inv`)** - the other thread's counter may be stale, but it only grows, and by growing
     it only gives MORE room (or more slots to pop).  So what a call has computed stays allowed until it
     ends.  The counters are those of unbounded lists, mod 2^64; their difference is at most the
     capacity, which is small enough to survive the wrap, and the capacity divides 2^64, so that the
     remainder survives it too.

  The atomic accesses are sequentially consistent, which is what an interleaving is.
-/

namespace Suyu.Common.RingBuffer

open Function (update update_self update_of_ne)

variable {T : Type}

/-! ## The program -/

/-- The template parameter, with its two assertions.  Zero would pass them, and `% capacity` would
    fault. -/
structure Capacity where
  slots : BitVec 64
  sensible : slots < BitVec.allOnes 64 / 2
  power_of_two : slots &&& (slots - 1) = 0
  nonzero : slots ≠ 0

/-- Where a call of `Push` is. -/
inductive Producer (T : Type)
  | idle
  | loaded (newSlots : List T) (writeIndex : BitVec 64)
  | copying (newSlots : List T) (writeIndex : BitVec 64) (pushCount copied : Nat)

/-- Where a call of `Pop` is; `output` is what it has copied. -/
inductive Consumer (T : Type)
  | idle
  | loaded (maxSlots readIndex : BitVec 64)
  | copying (readIndex : BitVec 64) (popCount : Nat) (output : List T)

structure State (T : Type) where
  readIndex : BitVec 64
  writeIndex : BitVec 64
  data : Nat → T
  producer : Producer T
  consumer : Consumer T
  /-- The accepted parts of all that was pushed, and all that was popped.  No code reads them. -/
  pushed : List T
  popped : List T

/-- `m_data` is not initialized. -/
def init (data : Nat → T) : State T := ⟨0, 0, data, .idle, .idle, [], []⟩

def size (s : State T) : BitVec 64 := s.writeIndex - s.readIndex

/-- The slot that the two `memcpy`s of a call touch for its element `j`: `first_copy` elements from
    `pos` on, and the others from the start of the array. -/
def copySlot (capacity : Capacity) (index : BitVec 64) (count j : Nat) : Nat :=
  let pos := (index % capacity.slots).toNat
  let firstCopy := min (capacity.slots.toNat - pos) count
  if j < firstCopy then pos + j else j - firstCopy

def slotsFree (capacity : Capacity) (readIndex writeIndex : BitVec 64) : BitVec 64 :=
  capacity.slots + readIndex - writeIndex

def slotsFilled (writeIndex readIndex : BitVec 64) : BitVec 64 := writeIndex - readIndex

/-- `Push` loads its own counter. -/
def pushBegin (s : State T) (newSlots : List T) : Option (State T) :=
  match s.producer with
  | .idle => some { s with producer := .loaded newSlots s.writeIndex }
  | _ => none

/-- The next step of the call of `Push`. -/
def pushNext (capacity : Capacity) (s : State T) : Option (State T) :=
  match s.producer with
  | .idle => none
  | .loaded newSlots writeIndex =>
    let pushCount := min newSlots.length (slotsFree capacity s.readIndex writeIndex).toNat
    some { s with producer := .copying newSlots writeIndex pushCount 0 }
  | .copying newSlots writeIndex pushCount copied =>
    if copied < pushCount then
      newSlots[copied]?.map fun x =>
        { s with
          data := update s.data (copySlot capacity writeIndex pushCount copied) x
          producer := .copying newSlots writeIndex pushCount (copied + 1) }
    else
      some { s with
        writeIndex := writeIndex + BitVec.ofNat 64 pushCount
        producer := .idle
        pushed := s.pushed ++ newSlots.take pushCount }

/-- `Pop` loads its own counter.  The `Pop` that returns a vector is this one, with a `max_slots` of at
    most the capacity. -/
def popBegin (s : State T) (maxSlots : BitVec 64) : Option (State T) :=
  match s.consumer with
  | .idle => some { s with consumer := .loaded maxSlots s.readIndex }
  | _ => none

/-- The next step of the call of `Pop`. -/
def popNext (capacity : Capacity) (s : State T) : Option (State T) :=
  match s.consumer with
  | .idle => none
  | .loaded maxSlots readIndex =>
    let popCount := min (slotsFilled s.writeIndex readIndex).toNat maxSlots.toNat
    some { s with consumer := .copying readIndex popCount [] }
  | .copying readIndex popCount output =>
    if output.length < popCount then
      let x := s.data (copySlot capacity readIndex popCount output.length)
      some { s with consumer := .copying readIndex popCount (output ++ [x]) }
    else
      some { s with
        readIndex := readIndex + BitVec.ofNat 64 popCount
        consumer := .idle
        popped := s.popped ++ output }

/-- Who moves: a thread that is in a call goes on with it, or one that is not begins one. -/
inductive Move (T : Type)
  | pushBegin (newSlots : List T)
  | pushNext
  | popBegin (maxSlots : BitVec 64)
  | popNext

def step (capacity : Capacity) (s : State T) : Move T → Option (State T)
  | .pushBegin newSlots => pushBegin s newSlots
  | .pushNext => pushNext capacity s
  | .popBegin maxSlots => popBegin s maxSlots
  | .popNext => popNext capacity s

/-- An interleaving. -/
def run (capacity : Capacity) (s : State T) (moves : List (Move T)) : Option (State T) :=
  moves.foldlM (step capacity) s

/-! ## The specification -/

/-- Accepted and not yet popped. -/
def filled (s : State T) : Nat := s.pushed.length - s.popped.length

/-- One step of `Push` as a step of a bounded queue: what it accepts is decided by the slots that are free
    when it looks, it writes no slot that holds an element not yet popped, and at its end the accepted
    elements are in the queue. -/
def PushStep (capacity : Capacity) (s s' : State T) : Prop :=
  match s.producer with
  | .idle => False
  | .loaded newSlots writeIndex =>
    let free := capacity.slots.toNat - filled s
    s' = { s with producer := .copying newSlots writeIndex (min newSlots.length free) 0 }
  | .copying newSlots writeIndex pushCount copied =>
    if copied < pushCount then
      ∃ slot x, s' = { s with
          data := update s.data slot x
          producer := .copying newSlots writeIndex pushCount (copied + 1) } ∧
        newSlots[copied]? = some x ∧ slot < capacity.slots.toNat ∧
        ∀ i, s.popped.length ≤ i → i < s.pushed.length → i % capacity.slots.toNat ≠ slot
    else
      s'.producer = .idle ∧ s'.consumer = s.consumer ∧ s'.popped = s.popped ∧
        s'.pushed = s.pushed ++ newSlots.take pushCount ∧ (newSlots.take pushCount).length = pushCount

/-- One step of `Pop`: what it returns is decided by the slots that are filled when it looks. -/
def PopStep (capacity : Capacity) (s s' : State T) : Prop :=
  match s.consumer with
  | .idle => False
  | .loaded maxSlots readIndex =>
    s' = { s with consumer := .copying readIndex (min (filled s) maxSlots.toNat) [] }
  | .copying readIndex popCount output =>
    if output.length < popCount then
      ∃ slot, s' = { s with consumer := .copying readIndex popCount (output ++ [s.data slot]) } ∧
        slot < capacity.slots.toNat ∧ s.pushed[s.popped.length + output.length]? = some (s.data slot)
    else
      s'.consumer = .idle ∧ s'.producer = s.producer ∧ s'.pushed = s.pushed ∧
        s'.popped = s.popped ++ output ∧ output.length = popCount

/-! ## Counters that wrap -/

namespace Capacity

variable (capacity : Capacity)

theorem toNat_pos : 0 < capacity.slots.toNat := by
  have h : capacity.slots.toNat ≠ 0 := fun h => capacity.nonzero (BitVec.eq_of_toNat_eq h)
  omega

theorem toNat_lt : capacity.slots.toNat < 2 ^ 63 := by
  have h := capacity.sensible
  rw [BitVec.lt_def] at h
  have hmax : (BitVec.allOnes 64 / 2).toNat = 2 ^ 63 - 1 := by decide
  omega

theorem toNat_isPowerOfTwo : capacity.slots.toNat.isPowerOfTwo := by
  have hpos := capacity.toNat_pos
  apply (Nat.and_sub_one_eq_zero_iff_isPowerOfTwo (by omega)).mp
  have h := congrArg BitVec.toNat capacity.power_of_two
  have hsub : (capacity.slots - 1).toNat = capacity.slots.toNat - 1 := by
    rw [BitVec.toNat_sub_of_le]
    · rfl
    · rw [BitVec.le_def]; exact hpos
  rwa [BitVec.toNat_and, hsub] at h

theorem dvd_two_pow : capacity.slots.toNat ∣ 2 ^ 64 := by
  obtain ⟨k, hk⟩ := capacity.toNat_isPowerOfTwo
  have hlt := capacity.toNat_lt
  rw [hk] at hlt ⊢
  have hk63 : k < 63 := (Nat.pow_lt_pow_iff_right (by omega)).mp hlt
  exact Nat.pow_dvd_pow 2 (by omega)

theorem mod_lt (i : Nat) : i % capacity.slots.toNat < capacity.slots.toNat :=
  Nat.mod_lt i capacity.toNat_pos

end Capacity

theorem toNat_ofNat_sub_ofNat {m n : Nat} (hle : m ≤ n) (hlt : n - m < 2 ^ 64) :
    (BitVec.ofNat 64 n - BitVec.ofNat 64 m).toNat = n - m := by
  obtain ⟨d, rfl⟩ := Nat.exists_eq_add_of_le hle
  rw [Nat.add_sub_cancel_left] at hlt ⊢
  rw [Nat.add_comm m d, BitVec.ofNat_add, BitVec.add_sub_cancel, BitVec.toNat_ofNat]
  exact Nat.mod_eq_of_lt hlt

theorem copySlot_ofNat (capacity : Capacity) {n count j : Nat} (hcount : count ≤ capacity.slots.toNat)
    (hj : j < count) :
    copySlot capacity (BitVec.ofNat 64 n) count j = (n + j) % capacity.slots.toNat := by
  have hpos : (BitVec.ofNat 64 n % capacity.slots).toNat = n % capacity.slots.toNat := by
    rw [BitVec.toNat_umod, BitVec.toNat_ofNat]; exact Nat.mod_mod_of_dvd n capacity.dvd_two_pow
  have hlt := capacity.mod_lt n
  have hmod : (n + j) % capacity.slots.toNat
      = (n % capacity.slots.toNat + j) % capacity.slots.toNat := by
    rw [Nat.mod_add_mod]
  rw [copySlot, hpos, hmod]
  generalize n % capacity.slots.toNat = pos at hlt ⊢
  generalize capacity.slots.toNat = c at hcount hlt ⊢
  by_cases hfirst : j < min (c - pos) count
  · rw [if_pos hfirst, Nat.mod_eq_of_lt (by omega)]
  · -- the second copy: one turn less
    rw [if_neg hfirst, Nat.mod_eq_sub_mod (by omega), Nat.mod_eq_of_lt (by omega)]
    omega

theorem mod_ne_mod {c i j : Nat} (hij : i < j) (hj : j < i + c) : i % c ≠ j % c := by
  intro h
  have heq : i = j := Nat.ModEq.eq_of_abs_lt h (by rw [abs_lt]; omega)
  omega

theorem prefix_snoc {l L : List T} {x : T} (h : l <+: L) (hx : L[l.length]? = some x) :
    l ++ [x] <+: L := by
  obtain ⟨rest, rfl⟩ := h
  rw [List.getElem?_append_right (Nat.le_refl _), Nat.sub_self] at hx
  cases rest with
  | nil => simp at hx
  | cons y rest =>
    rw [List.getElem?_cons_zero, Option.some.injEq] at hx
    subst hx; exact ⟨rest, by simp⟩

/-! ## The invariant -/

/-- What a call of `Push` relies on.  Another thread's pops only make the room grow. -/
def Pushing (capacity : Capacity) (s : State T) : Prop :=
  match s.producer with
  | .idle => True
  | .loaded _ writeIndex => writeIndex = s.writeIndex
  | .copying newSlots writeIndex pushCount copied =>
    writeIndex = s.writeIndex ∧ pushCount ≤ newSlots.length ∧ copied ≤ pushCount ∧
      s.pushed.length + pushCount ≤ s.popped.length + capacity.slots.toNat ∧
      ∀ j, j < copied → newSlots[j]? = some (s.data ((s.pushed.length + j) % capacity.slots.toNat))

/-- What a call of `Pop` relies on. -/
def Popping (s : State T) : Prop :=
  match s.consumer with
  | .idle => True
  | .loaded _ readIndex => readIndex = s.readIndex
  | .copying readIndex popCount output =>
    readIndex = s.readIndex ∧ output.length ≤ popCount ∧
      s.popped.length + popCount ≤ s.pushed.length ∧ s.popped ++ output <+: s.pushed

structure Inv (capacity : Capacity) (s : State T) : Prop where
  write_eq : s.writeIndex = BitVec.ofNat 64 s.pushed.length
  read_eq : s.readIndex = BitVec.ofNat 64 s.popped.length
  fifo : s.popped <+: s.pushed
  room : s.pushed.length ≤ s.popped.length + capacity.slots.toNat
  /-- Everything not yet popped is in its slot. -/
  live : ∀ i, s.popped.length ≤ i → i < s.pushed.length →
    s.pushed[i]? = some (s.data (i % capacity.slots.toNat))
  pushing : Pushing capacity s
  popping : Popping s

theorem Inv.init (capacity : Capacity) (data : Nat → T) : Inv capacity (RingBuffer.init data) where
  write_eq := rfl
  read_eq := rfl
  fifo := List.prefix_rfl
  room := Nat.zero_le _
  live := fun i _ hi => absurd hi (Nat.not_lt_zero i)
  pushing := trivial
  popping := trivial

section Facts

variable {capacity : Capacity} {s : State T} (h : Inv capacity s)
include h

theorem Inv.popped_le : s.popped.length ≤ s.pushed.length := h.fifo.length_le

theorem Inv.filled_le : filled s ≤ capacity.slots.toNat := by
  have hroom := h.room
  rw [filled]
  omega

theorem Inv.toNat_slotsFilled : (slotsFilled s.writeIndex s.readIndex).toNat = filled s := by
  have hle := h.popped_le
  have hfilled := h.filled_le
  have hcap := capacity.toNat_lt
  rw [filled] at hfilled
  rw [slotsFilled, h.write_eq, h.read_eq, toNat_ofNat_sub_ofNat hle (by omega), filled]

theorem Inv.toNat_slotsFree :
    (slotsFree capacity s.readIndex s.writeIndex).toNat = capacity.slots.toNat - filled s := by
  have hle := h.popped_le
  have hroom := h.room
  have hcap := capacity.toNat_lt
  have hslots : capacity.slots = BitVec.ofNat 64 capacity.slots.toNat := by
    rw [BitVec.ofNat_toNat, BitVec.setWidth_eq]
  have hsum : capacity.slots + s.readIndex
      = BitVec.ofNat 64 (s.popped.length + capacity.slots.toNat) := by
    rw [Nat.add_comm, BitVec.ofNat_add, ← hslots, h.read_eq]
  rw [slotsFree, hsum, h.write_eq, toNat_ofNat_sub_ofNat hroom (by omega), filled]
  omega

end Facts

/-! ## The two threads do not disturb each other -/

theorem Popping.of_pushed {s s' : State T} (h : Popping s) (hconsumer : s'.consumer = s.consumer)
    (hread : s'.readIndex = s.readIndex) (hpopped : s'.popped = s.popped)
    (hpushed : s.pushed <+: s'.pushed) : Popping s' := by
  rw [Popping, hconsumer, hread, hpopped]
  rw [Popping] at h
  cases hc : s.consumer with
  | idle => trivial
  | loaded maxSlots readIndex => simpa [hc] using h
  | copying readIndex popCount output =>
    rw [hc] at h
    obtain ⟨hindex, houtput, hcount, hfifo⟩ := h
    have hlen := hpushed.length_le
    exact ⟨hindex, houtput, by omega, hfifo.trans hpushed⟩

theorem Pushing.of_popped {capacity : Capacity} {s s' : State T} (h : Pushing capacity s)
    (hproducer : s'.producer = s.producer) (hwrite : s'.writeIndex = s.writeIndex)
    (hdata : s'.data = s.data)
    (hpushed : s'.pushed = s.pushed) (hpopped : s.popped <+: s'.popped) : Pushing capacity s' := by
  rw [Pushing, hproducer, hwrite, hdata, hpushed]
  rw [Pushing] at h
  cases hp : s.producer with
  | idle => trivial
  | loaded newSlots writeIndex => simpa [hp] using h
  | copying newSlots writeIndex pushCount copied =>
    rw [hp] at h
    obtain ⟨hindex, hcount, hcopied, hroom, hslots⟩ := h
    have hlen := hpopped.length_le
    exact ⟨hindex, hcount, hcopied, by omega, hslots⟩

section Steps

variable {capacity : Capacity} {s : State T}

section

variable (h : Inv capacity s)
include h

theorem Inv.withProducer {producer : Producer T}
    (hpushing : Pushing capacity { s with producer := producer }) :
    Inv capacity { s with producer := producer } where
  write_eq := h.write_eq
  read_eq := h.read_eq
  fifo := h.fifo
  room := h.room
  live := h.live
  pushing := hpushing
  popping := h.popping

theorem Inv.withConsumer {consumer : Consumer T} (hpopping : Popping { s with consumer := consumer }) :
    Inv capacity { s with consumer := consumer } where
  write_eq := h.write_eq
  read_eq := h.read_eq
  fifo := h.fifo
  room := h.room
  live := h.live
  pushing := h.pushing
  popping := hpopping

theorem Inv.copySlot_free {count j : Nat} (hj : j < count)
    (hroom : s.pushed.length + count ≤ s.popped.length + capacity.slots.toNat) :
    copySlot capacity s.writeIndex count j = (s.pushed.length + j) % capacity.slots.toNat ∧
      ∀ i, s.popped.length ≤ i → i < s.pushed.length + j →
        i % capacity.slots.toNat ≠ copySlot capacity s.writeIndex count j := by
  have hle := h.popped_le
  have hslot : copySlot capacity s.writeIndex count j
      = (s.pushed.length + j) % capacity.slots.toNat := by
    rw [h.write_eq]; exact copySlot_ofNat capacity (by omega) hj
  refine ⟨hslot, ?_⟩
  intro i hi hlt
  rw [hslot]
  exact mod_ne_mod hlt (by omega)

theorem Inv.copy {newSlots : List T} {writeIndex : BitVec 64} {pushCount copied : Nat}
    (hp : s.producer = .copying newSlots writeIndex pushCount copied) (hlt : copied < pushCount) {x : T}
    (hx : newSlots[copied]? = some x) : Inv capacity { s with
      data := update s.data (copySlot capacity writeIndex pushCount copied) x
      producer := .copying newSlots writeIndex pushCount (copied + 1) } := by
  have hpushing := h.pushing
  rw [Pushing, hp] at hpushing
  obtain ⟨rfl, hcount, hcopied, hroom, hslots⟩ := hpushing
  obtain ⟨hslot, hfree⟩ := h.copySlot_free hlt hroom
  have hle := h.popped_le
  constructor
  · exact h.write_eq
  · exact h.read_eq
  · exact h.fifo
  · exact h.room
  · intro i hi hlt'
    show s.pushed[i]? = some (update s.data _ x (i % capacity.slots.toNat))
    rw [update_of_ne (hfree i hi (Nat.lt_of_lt_of_le hlt' (Nat.le_add_right _ _)))]
    exact h.live i hi hlt'
  · refine ⟨rfl, hcount, hlt, hroom, ?_⟩
    intro j hj
    show newSlots[j]? = some (update s.data _ x ((s.pushed.length + j) % capacity.slots.toNat))
    rcases Nat.lt_succ_iff_lt_or_eq.mp hj with hj | rfl
    · rw [update_of_ne (hfree _ (by omega) (by omega))]
      exact hslots j hj
    · rw [← hslot, update_self]; exact hx
  · exact h.popping

theorem Inv.pushStore {newSlots : List T} {writeIndex : BitVec 64} {pushCount : Nat}
    (hp : s.producer = .copying newSlots writeIndex pushCount pushCount) : Inv capacity { s with
      writeIndex := writeIndex + BitVec.ofNat 64 pushCount
      producer := .idle
      pushed := s.pushed ++ newSlots.take pushCount } := by
  have hpushing := h.pushing
  rw [Pushing, hp] at hpushing
  obtain ⟨rfl, hcount, -, hroom, hslots⟩ := hpushing
  have hlen : (s.pushed ++ newSlots.take pushCount).length = s.pushed.length + pushCount := by
    rw [List.length_append, List.length_take_of_le hcount]
  have hpushed : s.pushed <+: s.pushed ++ newSlots.take pushCount := List.prefix_append _ _
  constructor
  · show s.writeIndex + _ = BitVec.ofNat 64 (s.pushed ++ newSlots.take pushCount).length
    rw [hlen, BitVec.ofNat_add, h.write_eq]
  · exact h.read_eq
  · exact h.fifo.trans hpushed
  · show (s.pushed ++ newSlots.take pushCount).length ≤ _
    rw [hlen]
    exact hroom
  · intro i hi hlt
    show (s.pushed ++ newSlots.take pushCount)[i]? = _
    rcases Nat.lt_or_ge i s.pushed.length with hold | hnew
    · rw [List.getElem?_append_left hold]
      exact h.live i hi hold
    · obtain ⟨j, rfl⟩ := Nat.exists_eq_add_of_le hnew
      have hj : j < pushCount := by
        have hlt' : s.pushed.length + j < (s.pushed ++ newSlots.take pushCount).length := hlt
        omega
      rw [List.getElem?_append_right hnew, Nat.add_sub_cancel_left, List.getElem?_take_of_lt hj]
      exact hslots j hj
  · trivial
  · exact h.popping.of_pushed rfl rfl rfl hpushed

theorem Inv.copySlot_live {count j : Nat} (hj : j < count)
    (hcount : s.popped.length + count ≤ s.pushed.length) :
    copySlot capacity s.readIndex count j < capacity.slots.toNat ∧
      s.pushed[s.popped.length + j]? = some (s.data (copySlot capacity s.readIndex count j)) := by
  have hroom := h.room
  have hslot : copySlot capacity s.readIndex count j
      = (s.popped.length + j) % capacity.slots.toNat := by
    rw [h.read_eq]; exact copySlot_ofNat capacity (by omega) hj
  rw [hslot]
  exact ⟨capacity.mod_lt _, h.live _ (by omega) (by omega)⟩

theorem Inv.popStore {readIndex : BitVec 64} {output : List T}
    (hc : s.consumer = .copying readIndex output.length output) : Inv capacity { s with
      readIndex := readIndex + BitVec.ofNat 64 output.length
      consumer := .idle
      popped := s.popped ++ output } := by
  have hpopping := h.popping
  rw [Popping, hc] at hpopping
  obtain ⟨rfl, -, hcount, hfifo⟩ := hpopping
  have hpopped : s.popped <+: s.popped ++ output := List.prefix_append _ _
  have hroom := h.room
  constructor
  · exact h.write_eq
  · show s.readIndex + _ = BitVec.ofNat 64 (s.popped ++ output).length
    rw [List.length_append, BitVec.ofNat_add, h.read_eq]
  · exact hfifo
  · show s.pushed.length ≤ (s.popped ++ output).length + _
    have hlen := hpopped.length_le
    omega
  · intro i hi hlt
    exact h.live i (hpopped.length_le.trans hi) hlt
  · exact h.pushing.of_popped rfl rfl rfl rfl hpopped
  · trivial

end

/-! ## The steps -/

theorem Inv.pushBegin (h : Inv capacity s) {newSlots : List T} {s' : State T}
    (hs : RingBuffer.pushBegin s newSlots = some s') : Inv capacity s' := by
  rw [RingBuffer.pushBegin] at hs
  cases hp : s.producer <;> rw [hp] at hs
  case idle =>
    obtain rfl := Option.some.inj hs; exact h.withProducer rfl
  all_goals nomatch hs

theorem Inv.popBegin (h : Inv capacity s) {maxSlots : BitVec 64} {s' : State T}
    (hs : RingBuffer.popBegin s maxSlots = some s') : Inv capacity s' := by
  rw [RingBuffer.popBegin] at hs
  cases hc : s.consumer <;> rw [hc] at hs
  case idle =>
    obtain rfl := Option.some.inj hs; exact h.withConsumer rfl
  all_goals nomatch hs

theorem Inv.pushNext (h : Inv capacity s) (hbusy : s.producer ≠ .idle) :
    ∃ s', RingBuffer.pushNext capacity s = some s' ∧ PushStep capacity s s' ∧ Inv capacity s' := by
  have hpushing := h.pushing
  rw [Pushing] at hpushing
  rw [RingBuffer.pushNext]
  cases hp : s.producer with
  | idle => exact absurd hp hbusy
  | loaded newSlots writeIndex =>
    rw [hp] at hpushing
    obtain rfl : writeIndex = s.writeIndex := hpushing
    have hfree := h.toNat_slotsFree
    have hroom := h.room
    refine ⟨_, rfl, ?_, h.withProducer ⟨rfl, Nat.min_le_left _ _, Nat.zero_le _, ?_, ?_⟩⟩
    · rw [PushStep, hp, hfree]
    · show s.pushed.length + min _ _ ≤ s.popped.length + _
      rw [hfree, filled]
      omega
    · intro j hj; exact absurd hj (Nat.not_lt_zero j)
  | copying newSlots writeIndex pushCount copied =>
    rw [hp] at hpushing
    obtain ⟨hindex, hcount, hcopied, hroom, hslots⟩ := hpushing
    rcases Nat.lt_or_eq_of_le hcopied with hlt | rfl
    · have hx : newSlots[copied]? = some (newSlots.get ⟨copied, by omega⟩) :=
        List.getElem?_eq_getElem (by omega)
      obtain ⟨hslot, hfree⟩ := h.copySlot_free hlt hroom
      refine ⟨_, ?_, ?_, h.copy hp hlt hx⟩
      · show (if copied < pushCount then _ else _) = _
        rw [if_pos hlt, hx]
        rfl
      · rw [PushStep, hp]
        show (if copied < pushCount then _ else _)
        rw [if_pos hlt]
        refine ⟨_, _, rfl, hx, ?_, ?_⟩
        · rw [hindex, hslot]
          exact capacity.mod_lt _
        · intro i hi hlt'
          rw [hindex]; exact hfree i hi (by omega)
    · refine ⟨_, if_neg (Nat.lt_irrefl _), ?_, h.pushStore hp⟩
      rw [PushStep, hp]
      show (if copied < copied then _ else _)
      rw [if_neg (Nat.lt_irrefl _)]
      exact ⟨rfl, rfl, rfl, rfl, List.length_take_of_le hcount⟩

theorem Inv.popNext (h : Inv capacity s) (hbusy : s.consumer ≠ .idle) :
    ∃ s', RingBuffer.popNext capacity s = some s' ∧ PopStep capacity s s' ∧ Inv capacity s' := by
  have hpopping := h.popping
  rw [Popping] at hpopping
  rw [RingBuffer.popNext]
  cases hc : s.consumer with
  | idle => exact absurd hc hbusy
  | loaded maxSlots readIndex =>
    rw [hc] at hpopping
    obtain rfl : readIndex = s.readIndex := hpopping
    have hfilled := h.toNat_slotsFilled
    have hle := h.popped_le
    refine ⟨_, rfl, ?_, h.withConsumer ⟨rfl, Nat.zero_le _, ?_, ?_⟩⟩
    · rw [PopStep, hc, hfilled]
    · show s.popped.length + min _ _ ≤ s.pushed.length
      rw [hfilled, filled]
      omega
    · rw [List.append_nil]; exact h.fifo
  | copying readIndex popCount output =>
    rw [hc] at hpopping
    obtain ⟨hindex, houtput, hcount, hfifo⟩ := hpopping
    rcases Nat.lt_or_eq_of_le houtput with hlt | rfl
    · obtain ⟨hslot, hlive⟩ := h.copySlot_live hlt hcount
      rw [← hindex] at hslot hlive
      refine ⟨_, if_pos hlt, ?_, h.withConsumer ⟨hindex, ?_, hcount, ?_⟩⟩
      · rw [PopStep, hc]
        show (if output.length < popCount then _ else _)
        rw [if_pos hlt]
        exact ⟨_, rfl, hslot, hlive⟩
      · rw [List.length_append]
        exact hlt
      · rw [← List.append_assoc]
        apply prefix_snoc hfifo
        rw [List.length_append]; exact hlive
    · refine ⟨_, if_neg (Nat.lt_irrefl _), ?_, h.popStore hc⟩
      rw [PopStep, hc]
      show (if output.length < output.length then _ else _)
      rw [if_neg (Nat.lt_irrefl _)]; exact ⟨rfl, rfl, rfl, rfl, rfl⟩

theorem Inv.step (h : Inv capacity s) {move : Move T} {s' : State T}
    (hs : RingBuffer.step capacity s move = some s') : Inv capacity s' := by
  cases move with
  | pushBegin newSlots => exact h.pushBegin hs
  | popBegin maxSlots => exact h.popBegin hs
  | pushNext =>
    have hbusy : s.producer ≠ .idle := by
      intro hidle
      rw [RingBuffer.step, RingBuffer.pushNext, hidle] at hs
      nomatch hs
    obtain ⟨t, ht, -, hinv⟩ := h.pushNext hbusy
    obtain rfl := Option.some.inj (ht.symm.trans hs); exact hinv
  | popNext =>
    have hbusy : s.consumer ≠ .idle := by
      intro hidle
      rw [RingBuffer.step, RingBuffer.popNext, hidle] at hs
      nomatch hs
    obtain ⟨t, ht, -, hinv⟩ := h.popNext hbusy
    obtain rfl := Option.some.inj (ht.symm.trans hs); exact hinv

theorem Inv.run (h : Inv capacity s) {moves : List (Move T)} {s' : State T}
    (hs : RingBuffer.run capacity s moves = some s') : Inv capacity s' := by
  induction moves generalizing s with
  | nil =>
    obtain rfl := Option.some.inj hs; exact h
  | cons move moves ih =>
    rw [RingBuffer.run, List.foldlM_cons] at hs
    obtain ⟨t, ht, hrest⟩ := Option.bind_eq_some_iff.mp hs; exact ih (h.step ht) hrest

end Steps

/-! ## Result -/

/-- ONE PRODUCER AND ONE CONSUMER SHARE A LOSSLESS BOUNDED QUEUE.  After every interleaving of their
    steps, what was popped is the beginning of what was accepted, the counters' unsigned difference is
    the number of elements in between and within the capacity, and a call that is under way can go on,
    by a step of the specification. -/
theorem ringBuffer_fifo (capacity : Capacity) (data : Nat → T) (moves : List (Move T)) (s : State T)
    (hs : run capacity (init data) moves = some s) :
    s.popped <+: s.pushed ∧
      (size s).toNat = filled s ∧ size s ≤ capacity.slots ∧
      (s.producer ≠ .idle → ∃ s', pushNext capacity s = some s' ∧ PushStep capacity s s') ∧
      (s.consumer ≠ .idle → ∃ s', popNext capacity s = some s' ∧ PopStep capacity s s') := by
  have h : Inv capacity s := (Inv.init capacity data).run hs
  have hsize : (size s).toNat = filled s := h.toNat_slotsFilled
  refine ⟨h.fifo, hsize, ?_, ?_, ?_⟩
  · rw [BitVec.le_def, hsize]
    exact h.filled_le
  · intro hbusy
    obtain ⟨s', hnext, hstep, -⟩ := h.pushNext hbusy
    exact ⟨s', hnext, hstep⟩
  · intro hbusy
    obtain ⟨s', hnext, hstep, -⟩ := h.popNext hbusy; exact ⟨s', hnext, hstep⟩

/-- Two slots.  While a `Push` of three elements copies the two that fit, a `Pop` looks and finds none;
    the next `Pop` has copied one element when a `Push` looks, and finds no room. -/
def twoSlots : Capacity := ⟨2, by decide, by decide, by decide⟩

def interleaved : List (Move Nat) :=
  [.pushBegin [1, 2, 3], .pushNext, .pushNext, .popBegin 5, .popNext, .pushNext, .pushNext, .popNext,
    .popBegin 1, .popNext, .pushBegin [4], .popNext, .pushNext, .popNext, .pushNext]

theorem ringBuffer_fifo_interleaved :
    ∃ s, run twoSlots (init fun _ => 0) interleaved = some s ∧ s.pushed = [1, 2] ∧ s.popped = [1] ∧
      size s ≤ twoSlots.slots := by
  have hrun : ∃ s, run twoSlots (init fun _ => 0) interleaved = some s ∧ s.pushed = [1, 2] ∧
      s.popped = [1] := ⟨_, rfl, rfl, rfl⟩
  obtain ⟨s, hs, hpushed, hpopped⟩ := hrun
  exact ⟨s, hs, hpushed, hpopped, (ringBuffer_fifo twoSlots _ interleaved s hs).2.2.1⟩

end Suyu.Common.RingBuffer
