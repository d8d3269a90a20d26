import Mathlib
import Suyu.Nvnflinger.BufferQueue

/-
  Runs of the buffer queue: who owns a slot, in which order frames come out, and what can crash.

  1. **Steps** - the lock-held sections in any order, with any arguments.  A `DequeueBuffer` that is
     between its two sections is in `pending`.  Beside the state there are the frame number that was
     acquired last and the frame numbers every slot was queued under.

  2. **Ownership (`Exact`)** - a queued slot has exactly one tracked item, any other slot none; frame
     numbers increase along the queue and from one acquire to the next.

  3. **When it goes wrong** - the second section of `DequeueBuffer` installs its buffer without asking
     whether the slot is still its own, and a droppable front is overwritten by a NEWER frame also when
     other items stand behind it.

  4. **The crux (`Tracked`, `Frames`)** - a slot gets a buffer only when the buffer is new, so that an
     item it has lost stays lost; every section is one of three kinds: it leaves the queue alone
     (`Moved`), it takes items from the front (`popFront`), or it adds the newest one.
-/

namespace Suyu.Nvnflinger

open Function (update update_self update_of_ne)

open BufferQueueCore

/-! ## Runs -/

/-- The sections. -/
inductive Call where
  | requestBuffer (slot : Int)
  | setBufferCount (bufferCount : Int)
  | dequeueBuffer (args : DequeueArgs)
  | installBuffer (pending : Pending)
  | detachBuffer (slot : Int)
  | queueBuffer (slot : Int) (input : QueueBufferInput)
  | cancelBuffer (slot : Int) (fence : Fence)
  | connect (api : Option NativeWindowApi) (producerControlledByApp : Bool)
  | disconnect (api : Option NativeWindowApi)
  | setPreallocatedBuffer (slot : Int) (buffer : Option NvGraphicBuffer)
  | acquireBuffer (expected : Int)
  | releaseBuffer (slot : Int) (frameNumber : Nat)
  | consumerConnect (controlledByApp : Bool)
  | consumerDisconnect

/-- A state of a run: `acquired` is the frame number acquired last, `occupancies` are the frame
    numbers a slot was queued under, the last one first. -/
structure Run where
  core : BufferQueueCore
  pending : List Pending
  acquired : Nat
  occupancies : Fin 64 → List Nat

namespace Run

def initial : Run := ⟨.initial, [], 0, fun _ => []⟩

/-- One section; there is no next state after a crash. -/
def step (t : Run) : Call → Option Run
  | .requestBuffer slot => some { t with core := (t.core.requestBuffer slot).2.2 }
  | .setBufferCount bufferCount => some { t with core := (t.core.setBufferCount bufferCount).2 }
  | .dequeueBuffer args =>
      let (result, core) := t.core.dequeueBuffer args
      match result with
      | .allocates pending _ => some { t with core := core, pending := pending :: t.pending }
      | _ => some { t with core := core }
  | .installBuffer pending => some { t with
      core := (t.core.installBuffer pending).2
      pending := t.pending.erase pending }
  | .detachBuffer slot => some { t with core := (t.core.detachBuffer slot).2 }
  | .queueBuffer slot input =>
      match t.core.queueBuffer slot input, t.core.queueBufferCheck slot input with
      | none, _ => none
      | some (_, core), some (.ok (s, _)) => some { t with
          core := core
          occupancies := update t.occupancies s (core.frameCounter :: t.occupancies s) }
      | some (_, core), _ => some { t with core := core }
  | .cancelBuffer slot fence => some { t with core := t.core.cancelBuffer slot fence }
  | .connect api byApp => some { t with core := (t.core.connect api byApp).2 }
  | .disconnect api => some { t with core := (t.core.disconnect api).2 }
  | .setPreallocatedBuffer slot buffer =>
      some { t with core := (t.core.setPreallocatedBuffer slot buffer).2 }
  | .acquireBuffer expected =>
      let (_, item, core) := t.core.acquireBuffer expected
      some { t with core := core, acquired := (item.map (·.frameNumber)).getD t.acquired }
  | .releaseBuffer slot frameNumber =>
      some { t with core := (t.core.releaseBuffer slot frameNumber).2 }
  | .consumerConnect byApp => some { t with core := (t.core.consumerConnect byApp).2 }
  | .consumerDisconnect => some { t with core := t.core.consumerDisconnect.2 }

end Run

/-- A second section belongs to a `DequeueBuffer` that is between its two. -/
def Valid (t : Run) : Call → Prop
  | .installBuffer pending => pending ∈ t.pending
  | _ => True

/-- The states reached by sections of which each satisfies `P`. -/
inductive Reachable (P : Run → Call → Prop) : Run → Prop
  | initial : Reachable P .initial
  | step {t t' : Run} {c : Call} : Reachable P t → P t c → t.step c = some t' → Reachable P t'

/-! ## Slots and items -/

/-- An item is for a slot with this buffer. -/
def tracks (buffer : Option GraphicBuffer) (slot : Fin 64) (item : BufferItem) : Bool :=
  decide (item.slot = slot) && isBuffer buffer item.graphicBuffer

/-- The items with a slot for which `StillTracking` holds. -/
def trackedItems (c : BufferQueueCore) (slot : Fin 64) : List BufferItem :=
  c.queue.filter fun item => decide (item.slot = slot) && c.stillTracking item

variable {s : Fin 64} {item : BufferItem} {c' : BufferQueueCore} {input : QueueBufferInput}
    {t : Run} (c : BufferQueueCore)

theorem trackedItems_eq (slot : Fin 64) :
    trackedItems c slot = c.queue.filter (tracks (c.slots slot).graphicBuffer slot) := by
  apply List.filter_congr
  intro item _
  by_cases h : item.slot = slot
  · simp [tracks, stillTracking, h]
  · simp [tracks, h]

/-- Ownership and order in one state. -/
structure Exact (c : BufferQueueCore) : Prop where
  tracked : ∀ slot, (trackedItems c slot).length =
    if (c.slots slot).bufferState = .queued then 1 else 0
  increasing : (c.queue.map (·.frameNumber)).Pairwise (· < ·)

/-- The frame numbers of the occupancies of a slot that are over. -/
def earlier (t : Run) (slot : Fin 64) : List Nat :=
  if (t.core.slots slot).bufferState = .queued ∨ (t.core.slots slot).bufferState = .acquired
  then (t.occupancies slot).tail else t.occupancies slot

/-- The condition for ownership and order. -/
def Ordered (t : Run) : Call → Prop
  -- the slot has not been queued meanwhile by somebody else
  | .installBuffer pending => t.core.isAbandoned = false →
      (t.core.slots pending.slot).bufferState = .free ∨
      (t.core.slots pending.slot).bufferState = .dequeued
  -- a droppable front is the only item when a buffer is queued
  | .queueBuffer slot input => ∀ s mode, t.core.queueBufferCheck slot input = some (.ok (s, mode)) →
      ∀ front rest, t.core.queue = front :: rest → front.isDroppable = true → rest = []
  | _ => True

/-- What one section gives: a frame newer than the last, a slot that is not acquired (of either
    section of `DequeueBuffer`, the second one under its condition), and no slot freed for the frame
    number of an earlier occupancy. -/
def CallExact (t : Run) (call : Call) : Prop :=
  match call with
  | .acquireBuffer expected => ∀ item, (t.core.acquireBuffer expected).2.1 = some item →
      t.acquired < item.frameNumber
  | .dequeueBuffer args => ∀ slot, (t.core.slots slot).bufferState = .acquired →
      ((t.core.dequeueBuffer args).2.slots slot).bufferState = .acquired
  | .installBuffer pending => Ordered t (.installBuffer pending) →
      (t.core.installBuffer pending).1 = .noError →
      ((t.core.installBuffer pending).2.slots pending.slot).bufferState ≠ .acquired
  | .releaseBuffer slot frameNumber => ∀ s, slotIndex slot = some s →
      frameNumber ∈ earlier t s →
      ((t.core.releaseBuffer slot frameNumber).2.slots s).bufferState =
        (t.core.slots s).bufferState ∧
      ((t.core.releaseBuffer slot frameNumber).2.slots s).graphicBuffer =
        (t.core.slots s).graphicBuffer
  | _ => True

/-! ## Tracked items -/

@[simp] theorem modify_slots_self (s : Fin 64) (f : BufferSlot → BufferSlot) :
    (c.modify s f).slots s = f (c.slots s) := by
  simp [BufferQueueCore.modify]

theorem modify_slots_ne {s' : Fin 64} (f : BufferSlot → BufferSlot) (h : s' ≠ s) :
    (c.modify s f).slots s' = c.slots s' := by
  simp [BufferQueueCore.modify, h]

@[simp] theorem tracks_none (slot : Fin 64) (item : BufferItem) : tracks none slot item = false := by
  simp [tracks, isBuffer]

theorem tracks_self (item : BufferItem) :
    tracks (c.slots item.slot).graphicBuffer item.slot item = c.stillTracking item := by
  simp [tracks, stillTracking]

theorem not_tracks_of_ne {buffer : Option GraphicBuffer} {slot : Fin 64} (h : item.slot ≠ slot) :
    tracks buffer slot item = false := by
  simp [tracks, h]

/-- How many items are for a slot. -/
def countTracked (c : BufferQueueCore) (slot : Fin 64) : Nat :=
  c.queue.countP (tracks (c.slots slot).graphicBuffer slot)

/-- Which slots have an item, and that buffers are never the same by chance. -/
structure Tracked (c : BufferQueueCore) : Prop where
  slotPtr : ∀ s b, (c.slots s).graphicBuffer = some b → b.ptr < c.allocated
  itemPtr : ∀ i ∈ c.queue, ∀ b, i.graphicBuffer = some b → b.ptr < c.allocated
  count : ∀ s, countTracked c s = if (c.slots s).bufferState = .queued then 1 else 0

theorem Tracked.queued_of_mem {c : BufferQueueCore} (h : Tracked c) (hmem : item ∈ c.queue)
    (ht : c.stillTracking item = true) : (c.slots item.slot).bufferState = .queued := by
  by_contra hne
  have hcount := h.count item.slot
  rw [if_neg hne, countTracked, List.countP_eq_zero] at hcount
  exact hcount item hmem (by rw [tracks_self]; exact ht)

/-- What a section can do to a slot that leaves the queue alone: nothing that matters here, or make
    it free or dequeued with no buffer, a new one, or its own when it was not queued. -/
def SlotMoved (allocated allocated' : Nat) (old new : BufferSlot) : Prop :=
  (new.graphicBuffer = old.graphicBuffer ∧ new.bufferState = old.bufferState ∧
    new.frameNumber = old.frameNumber) ∨
  (new.bufferState = .free ∨ new.bufferState = .dequeued) ∧
    (new.graphicBuffer = none ∨
      (∃ b, new.graphicBuffer = some b ∧ allocated ≤ b.ptr ∧ b.ptr < allocated') ∨
      new.graphicBuffer = old.graphicBuffer ∧ old.bufferState ≠ .queued)

theorem SlotMoved.refl (a a' : Nat) (s : BufferSlot) : SlotMoved a a' s s :=
  Or.inl ⟨rfl, rfl, rfl⟩

/-- A section that leaves the queue alone. -/
structure Moved (c c' : BufferQueueCore) : Prop where
  queue : c'.queue = c.queue
  frameCounter : c'.frameCounter = c.frameCounter
  allocated : c.allocated ≤ c'.allocated
  slot : ∀ s, SlotMoved c.allocated c'.allocated (c.slots s) (c'.slots s)

theorem Moved.refl : Moved c c :=
  ⟨rfl, rfl, le_refl _, fun _ => .refl _ _ _⟩

theorem Moved.modify {c : BufferQueueCore} (s : Fin 64) (f : BufferSlot → BufferSlot)
    (h : SlotMoved c.allocated c.allocated (c.slots s) (f (c.slots s))) : Moved c (c.modify s f) := by
  refine ⟨rfl, rfl, le_refl _, fun s' => ?_⟩
  by_cases hs : s' = s
  · rw [hs, modify_slots_self]
    exact h
  · rw [modify_slots_ne c f hs]; exact .refl _ _ _

theorem Tracked.of_moved {c : BufferQueueCore} (h : Tracked c) (hm : Moved c c') : Tracked c' where
  slotPtr s b hb := by
    have hle := hm.allocated
    rcases hm.slot s with ⟨hbuf, -, -⟩ | ⟨-, hnone | ⟨b', hb', -, hlt⟩ | ⟨hbuf, -⟩⟩
    · have := h.slotPtr s b (hbuf ▸ hb)
      omega
    · rw [hnone] at hb
      cases hb
    · rw [hb'] at hb
      cases hb
      exact hlt
    · have := h.slotPtr s b (hbuf ▸ hb)
      omega
  itemPtr i hi b hb := by
    have hle := hm.allocated
    have := h.itemPtr i (hm.queue ▸ hi) b hb
    omega
  count s := by
    have hold := h.count s
    unfold countTracked at hold ⊢
    rw [hm.queue]
    rcases hm.slot s with ⟨hbuf, hstate, -⟩ | ⟨hstate, hcase⟩
    · rw [hbuf, hstate]
      exact hold
    · have hne : (c'.slots s).bufferState ≠ .queued := by
        rcases hstate with h | h <;> rw [h] <;> simp
      rw [if_neg hne, List.countP_eq_zero]
      intro i hi htracks
      rcases hcase with hnone | ⟨b, hb, hge, -⟩ | ⟨hbuf, hq⟩
      · rw [hnone, tracks_none] at htracks
        cases htracks
      · -- an item holds an older buffer than the new one
        cases hib : i.graphicBuffer with
        | none => simp [tracks, isBuffer, hb, hib] at htracks
        | some b' =>
          have hlt := h.itemPtr i hi b' hib
          have heq : b.ptr = b'.ptr := by
            simp only [tracks, isBuffer, hb, hib, Bool.and_eq_true, beq_iff_eq] at htracks
            exact htracks.2
          omega
      · rw [if_neg hq, List.countP_eq_zero] at hold
        rw [hbuf] at htracks; exact hold i hi htracks

theorem Tracked.cleared {c : BufferQueueCore} (hq : c.queue = [])
    (hs : ∀ s, (c.slots s).graphicBuffer = none ∧ (c.slots s).bufferState = .free) : Tracked c where
  slotPtr s b hb := by
    rw [(hs s).1] at hb; cases hb
  itemPtr i hi := by
    rw [hq] at hi; cases hi
  count s := by
    simp [countTracked, hq, (hs s).2]

/-- The front leaves the queue; its slot, when it is tracked, is queued no more. -/
def popFront (c : BufferQueueCore) (front : BufferItem) (rest : List BufferItem)
    (f : BufferSlot → BufferSlot) : BufferQueueCore :=
  { (if c.stillTracking front then c.modify front.slot f else c) with queue := rest }

theorem popFront_slots_ne {front : BufferItem} (rest : List BufferItem) (f : BufferSlot → BufferSlot)
    (h : s ≠ front.slot) : (popFront c front rest f).slots s = c.slots s := by
  unfold popFront
  split
  · exact modify_slots_ne c f h
  · rfl

theorem popFront_slots_self (front : BufferItem) (rest : List BufferItem) (f : BufferSlot → BufferSlot) :
    (popFront c front rest f).slots front.slot =
      if c.stillTracking front then f (c.slots front.slot) else c.slots front.slot := by
  unfold popFront
  split
  · exact modify_slots_self c front.slot f
  · rfl

theorem popFront_allocated (front : BufferItem) (rest : List BufferItem) (f : BufferSlot → BufferSlot) :
    (popFront c front rest f).allocated = c.allocated := by
  unfold popFront
  split <;> rfl

theorem Tracked.popFront {c : BufferQueueCore} (h : Tracked c) {front : BufferItem}
    {rest : List BufferItem} (hq : c.queue = front :: rest) (f : BufferSlot → BufferSlot)
    (hf : ∀ s, (f s).graphicBuffer = s.graphicBuffer ∧ (f s).bufferState ≠ .queued) :
    Tracked (popFront c front rest f) := by
  have hbuffer : ∀ s, ((Nvnflinger.popFront c front rest f).slots s).graphicBuffer =
      (c.slots s).graphicBuffer := by
    intro s
    by_cases hs : s = front.slot
    · rw [hs, popFront_slots_self]
      split
      · exact (hf _).1
      · rfl
    · rw [popFront_slots_ne c rest f hs]
  refine ⟨?_, ?_, ?_⟩
  · intro s b hb
    rw [popFront_allocated]
    rw [hbuffer] at hb
    exact h.slotPtr s b hb
  · intro i hi b hb
    rw [popFront_allocated]
    exact h.itemPtr i (by rw [hq]; exact List.mem_cons_of_mem _ hi) b hb
  · intro s
    have hcount := h.count s
    unfold countTracked at hcount ⊢
    rw [hbuffer]
    show rest.countP _ = _
    rw [hq, List.countP_cons] at hcount
    by_cases hs : s = front.slot
    · have hself : tracks (c.slots s).graphicBuffer s front = c.stillTracking front := by
        rw [hs]; exact tracks_self c front
      rw [hself] at hcount
      rw [hs, popFront_slots_self, ← hs]
      by_cases ht : c.stillTracking front = true
      · rw [if_pos ht] at hcount
        rw [if_pos ht, if_neg (hf _).2]
        split at hcount <;> omega
      · rw [if_neg ht] at hcount
        rw [if_neg ht]; omega
    · rw [not_tracks_of_ne (Ne.symm hs)] at hcount
      rw [popFront_slots_ne c rest f hs]; simpa using hcount

theorem Tracked.push {c : BufferQueueCore} (h : Tracked c) {b : GraphicBuffer}
    (hstate : (c.slots s).bufferState ≠ .queued) (hbuffer : (c.slots s).graphicBuffer = some b)
    (hself : (c'.slots s).graphicBuffer = some b ∧ (c'.slots s).bufferState = .queued)
    (hother : ∀ s', s' ≠ s → c'.slots s' = c.slots s')
    (hitem : item.slot = s ∧ item.graphicBuffer = some b) (hqueue : c'.queue.Perm (item :: c.queue))
    (hallocated : c'.allocated = c.allocated) : Tracked c' where
  slotPtr s' b' hb' := by
    rw [hallocated]
    by_cases hs : s' = s
    · rw [hs, hself.1] at hb'
      cases hb'
      exact h.slotPtr s b hbuffer
    · rw [hother s' hs] at hb'; exact h.slotPtr s' b' hb'
  itemPtr i hi b' hb' := by
    rw [hallocated]
    rcases List.mem_cons.mp (hqueue.mem_iff.mp hi) with rfl | hi'
    · rw [hitem.2] at hb'
      cases hb'
      exact h.slotPtr s b hbuffer
    · exact h.itemPtr i hi' b' hb'
  count s' := by
    have hcount := h.count s'
    unfold countTracked at hcount ⊢
    rw [hqueue.countP_eq, List.countP_cons]
    by_cases hs : s' = s
    · rw [hs] at hcount ⊢
      rw [if_neg hstate, hbuffer] at hcount
      have htracks : tracks (some b) s item = true := by
        simp [tracks, isBuffer, hitem.1, hitem.2]
      rw [hself.1, hself.2, hcount, htracks]
      rfl
    · have hne : item.slot ≠ s' := by
        rw [hitem.1]; exact Ne.symm hs
      rw [hother s' hs, not_tracks_of_ne hne, hcount]; rfl

/-- What the drops of `AcquireBuffer` do: fronts leave, and their slots are free. -/
structure Dropped (c c' : BufferQueueCore) : Prop where
  suffix : c'.queue <:+ c.queue
  nonempty : c.queue ≠ [] → c'.queue ≠ []
  frameCounter : c'.frameCounter = c.frameCounter
  isAbandoned : c'.isAbandoned = c.isAbandoned
  override : c'.overrideMaxBufferCount = c.overrideMaxBufferCount
  slot : ∀ s, c'.slots s = c.slots s ∨ (c.slots s).bufferState = .queued ∧
    c'.slots s = { c.slots s with bufferState := .free }
  tracked : Tracked c'

theorem dropTimely_spec (expected : Int) : ∀ (q : List BufferItem) (c : BufferQueueCore),
    Tracked { c with queue := q } → Dropped { c with queue := q } (c.dropTimely expected q) := by
  intro q
  induction q with
  | nil =>
    intro c h; exact ⟨List.suffix_refl _, fun h => h, rfl, rfl, rfl, fun _ => Or.inl rfl, h⟩
  | cons front rest ih =>
    intro c h
    have hsame : ∀ q', Tracked { c with queue := q' } →
        Dropped { c with queue := q' } { c with queue := q' } := fun q' h =>
      ⟨List.suffix_refl _, fun h => h, rfl, rfl, rfl, fun _ => Or.inl rfl, h⟩
    cases rest with
    | nil => exact hsame _ h
    | cons next rest =>
      unfold BufferQueueCore.dropTimely
      split
      · exact hsame _ h
      split
      · exact hsame _ h
      -- the front is dropped, and the loop goes on with what is behind it
      have hpop := h.popFront rfl (fun s => { s with bufferState := .free }) fun _ => ⟨rfl, by simp⟩
      have heq : popFront { c with queue := front :: next :: rest } front (next :: rest)
          (fun s => { s with bufferState := .free }) =
          { c.dropFront front with queue := next :: rest } := by
        have htracks : BufferQueueCore.stillTracking { c with queue := front :: next :: rest }
            front = c.stillTracking front := rfl
        unfold popFront dropFront
        rw [htracks]; cases c.stillTracking front <;> rfl
      rw [heq] at hpop
      have hd := ih (c.dropFront front) hpop
      have hfields : (c.dropFront front).frameCounter = c.frameCounter ∧
          (c.dropFront front).isAbandoned = c.isAbandoned ∧
          (c.dropFront front).overrideMaxBufferCount = c.overrideMaxBufferCount := by
        unfold dropFront
        split <;> exact ⟨rfl, rfl, rfl⟩
      refine ⟨?_, fun _ => hd.nonempty (by simp), ?_, ?_, ?_, ?_, hd.tracked⟩
      · exact hd.suffix.trans (List.suffix_cons _ _)
      · exact hd.frameCounter.trans hfields.1
      · exact hd.isAbandoned.trans hfields.2.1
      · exact hd.override.trans hfields.2.2
      · intro s
        have hfirst : (c.dropFront front).slots s = c.slots s ∨
            (c.slots s).bufferState = .queued ∧
            (c.dropFront front).slots s = { c.slots s with bufferState := .free } := by
          unfold dropFront
          split
          · next ht =>
            by_cases hs : s = front.slot
            · refine Or.inr ⟨?_, ?_⟩
              · have hmem : front ∈ front :: next :: rest := by simp
                rw [hs]
                exact h.queued_of_mem hmem ht
              · rw [hs, modify_slots_self]
            · exact Or.inl (modify_slots_ne c _ hs)
          · exact Or.inl rfl
        rcases hd.slot s with h₂ | ⟨hq, h₂⟩
        · rcases hfirst with h₁ | ⟨hq', h₁⟩
          · exact Or.inl (h₂.trans h₁)
          · exact Or.inr ⟨hq', h₂.trans h₁⟩
        · rcases hfirst with h₁ | ⟨hq', h₁⟩
          · refine Or.inr ⟨by rw [← h₁]; exact hq, ?_⟩
            rw [h₂]
            show { (c.dropFront front).slots s with bufferState := .free } = _
            rw [h₁]
          · -- a slot that was freed is not queued
            have : ((c.dropFront front).slots s).bufferState = .queued := hq
            rw [h₁] at this; cases this

theorem acquireFront_spec {c : BufferQueueCore} (h : Tracked c) (expected : Int) :
    Dropped c (c.acquireFront expected) := by
  unfold acquireFront
  split
  · exact dropTimely_spec expected c.queue c h
  · exact ⟨List.suffix_refl _, fun h => h, rfl, rfl, rfl, fun _ => Or.inl rfl, h⟩

/-! ## What each section does to the slots -/

theorem SlotMoved.freed (a a' : Nat) (s : BufferSlot) : SlotMoved a a' s s.freed :=
  Or.inr ⟨Or.inl rfl, Or.inl rfl⟩

theorem requestBuffer_moved (slot : Int) : Moved c (c.requestBuffer slot).2.2 := by
  unfold BufferQueueCore.requestBuffer
  split
  · exact .refl c
  · split
    · exact .refl c
    · split
      · exact .refl c
      · exact .modify _ (fun s => { s with requestBufferCalled := true }) (Or.inl ⟨rfl, rfl, rfl⟩)

theorem setBufferCount_moved (bufferCount : Int) : Moved c (c.setBufferCount bufferCount).2 := by
  have hself : ∀ n, Moved c { c with overrideMaxBufferCount := n } := fun n =>
    ⟨rfl, rfl, le_refl _, fun _ => .refl _ _ _⟩
  unfold BufferQueueCore.setBufferCount
  split
  · exact .refl c
  split
  · exact .refl c
  split
  · exact .refl c
  split
  · exact hself 0
  split
  · exact .refl c
  dsimp only
  split
  · exact ⟨rfl, rfl, le_refl _, fun _ => .freed _ _ _⟩
  · exact hself _

theorem foldl_oldest {c : BufferQueueCore} {m : Int} : ∀ (l : List (Fin 64)) (found : Option (Fin 64)),
    (∀ s, found = some s → (c.slots s).bufferState = .free ∧ (s.val : Int) < m) →
    ∀ s, l.foldl (fun found slot =>
      if (slot.val : Int) < m ∧ (c.slots slot).bufferState = .free ∧ c.isOlder slot found
      then some slot else found) found = some s →
      (c.slots s).bufferState = .free ∧ (s.val : Int) < m := by
  intro l
  induction l with
  | nil =>
    intro found hfound s hs; exact hfound s hs
  | cons slot rest ih =>
    intro found hfound
    apply ih
    intro s hs
    dsimp only at hs
    split at hs
    · next hcond =>
      cases hs
      exact ⟨hcond.2.1, hcond.1⟩
    · exact hfound s hs

theorem oldestFree_spec {c : BufferQueueCore} {m : Int} (h : c.oldestFree m = some s) :
    (c.slots s).bufferState = .free ∧ (s.val : Int) < m :=
  foldl_oldest _ none (fun _ h => nomatch h) s h

theorem freeBeyond_slots (m : Int) (s : Fin 64) : (c.freeBeyond m).slots s = c.slots s ∨
    (c.slots s).bufferState = .free ∧ (c.freeBeyond m).slots s = (c.slots s).freed := by
  unfold freeBeyond
  dsimp only
  split
  · next h =>
    simp only [releasesBeyond, Bool.and_eq_true, decide_eq_true_eq] at h
    exact Or.inr ⟨h.1.2, rfl⟩
  · exact Or.inl rfl

theorem waitForFreeSlot_spec (async : Bool) : ((c.waitForFreeSlot async).2.2 = c ∨
      (c.waitForFreeSlot async).2.2 = c.freeBeyond (c.getMaxBufferCount async)) ∧
    ∀ s, (c.waitForFreeSlot async).1 = .found s → c.isAbandoned = false ∧
      ((c.waitForFreeSlot async).2.2.slots s).bufferState = .free ∧
      (s.val : Int) < c.getMaxBufferCount async := by
  have hwaiting : ∀ (P : Prop) [Decidable P] (s : Fin 64),
      (if P then FreeSlot.failed .wouldBlock else .waits) ≠ .found s := by
    intro P _ s
    split <;> simp
  unfold BufferQueueCore.waitForFreeSlot
  split
  · exact ⟨Or.inl rfl, fun s h => nomatch h⟩
  rename_i habandoned
  dsimp only
  split
  · exact ⟨Or.inl rfl, fun s h => nomatch h⟩
  split
  · exact ⟨Or.inr rfl, fun s h => nomatch h⟩
  split
  · exact ⟨Or.inr rfl, fun s h => nomatch h⟩
  split
  · exact ⟨Or.inr rfl, fun s h => absurd h (hwaiting _ s)⟩
  rename_i slot hfound
  split
  · exact ⟨Or.inr rfl, fun s h => absurd h (hwaiting _ s)⟩
  · refine ⟨Or.inr rfl, fun s h => ?_⟩
    cases h
    exact ⟨by simpa using habandoned, oldestFree_spec hfound⟩

theorem takeSlot_spec (slot : Fin 64) (width height format usage : Nat) (released : Bool) :
    (∃ p fence, p.slot = slot ∧ c.takeSlot slot width height format usage released =
      (.allocates p fence, c.modify slot fun s => { s with
        bufferState := .dequeued, acquireCalled := false, graphicBuffer := none,
        requestBufferCalled := false, fence := .noFence })) ∨
    ∃ fence n r, (c.slots slot).graphicBuffer.isSome ∧
      c.takeSlot slot width height format usage released = (.returned slot fence n r,
        c.modify slot fun s => { s with bufferState := .dequeued, fence := .noFence }) := by
  unfold BufferQueueCore.takeSlot
  dsimp only
  split
  · exact Or.inl ⟨_, _, rfl, rfl⟩
  · next hneeds =>
    refine Or.inr ⟨_, _, _, ?_, rfl⟩
    by_contra hnone
    have hnone' : (c.slots slot).graphicBuffer = none := by simpa using hnone
    rw [hnone'] at hneeds; exact hneeds rfl

theorem dequeueBuffer_spec (args : DequeueArgs) :
    ∃ m c₁, (c₁ = c ∨ c₁ = c.freeBeyond m) ∧ m = c.getMaxBufferCount args.async ∧
      (((c.dequeueBuffer args).2 = c₁ ∧ (∀ p fence, (c.dequeueBuffer args).1 ≠ .allocates p fence) ∧
          ∀ s fence n r, (c.dequeueBuffer args).1 ≠ .returned s fence n r) ∨
      ∃ s, c.isAbandoned = false ∧ (c₁.slots s).bufferState = .free ∧ (s.val : Int) < m ∧
        ((∃ p fence, p.slot = s ∧ (c.dequeueBuffer args) = (.allocates p fence,
            c₁.modify s fun s => { s with
              bufferState := .dequeued, acquireCalled := false, graphicBuffer := none,
              requestBufferCalled := false, fence := .noFence })) ∨
          ∃ fence n r, (c₁.slots s).graphicBuffer.isSome ∧
            (c.dequeueBuffer args) = (.returned s fence n r,
              c₁.modify s fun s => { s with bufferState := .dequeued, fence := .noFence }))) := by
  unfold BufferQueueCore.dequeueBuffer
  split
  · exact ⟨_, c, Or.inl rfl, rfl, Or.inl ⟨rfl, by simp, by simp⟩⟩
  · obtain ⟨hcore, hfound⟩ := waitForFreeSlot_spec c args.async
    dsimp only
    split
    · next status released c₁ heq =>
      rw [heq] at hcore
      exact ⟨_, c₁, hcore, rfl, Or.inl ⟨rfl, by simp, by simp⟩⟩
    · next released c₁ heq =>
      rw [heq] at hcore
      exact ⟨_, c₁, hcore, rfl, Or.inl ⟨rfl, by simp, by simp⟩⟩
    · next slot released c₁ heq =>
      rw [heq] at hcore hfound
      obtain ⟨habandoned, hfree, hlt⟩ := hfound slot rfl
      refine ⟨_, c₁, hcore, rfl, Or.inr ⟨slot, habandoned, hfree, hlt, ?_⟩⟩
      exact takeSlot_spec c₁ slot _ _ _ _ released

theorem freeBeyond_moved {c c₁ : BufferQueueCore} {m : Int} (h : c₁ = c ∨ c₁ = c.freeBeyond m) :
    Moved c c₁ := by
  rcases h with rfl | rfl
  · exact .refl _
  · refine ⟨rfl, rfl, le_refl _, fun s => ?_⟩
    rcases freeBeyond_slots c m s with h | ⟨-, h⟩
    · rw [h]
      exact .refl _ _ _
    · rw [h]; exact .freed _ _ _

theorem Moved.trans {c c' c'' : BufferQueueCore} (h : Moved c c') (h' : Moved c' c'')
    (ha : c'.allocated = c.allocated) : Moved c c'' where
  queue := h'.queue.trans h.queue
  frameCounter := h'.frameCounter.trans h.frameCounter
  allocated := h.allocated.trans h'.allocated
  slot s := by
    have h₁ := h.slot s
    have h₂ := h'.slot s
    rw [ha] at h₁ h₂
    rcases h₂ with ⟨hb, hs, hf⟩ | ⟨hs, hcase⟩
    · -- the second leaves the slot as the first made it
      rcases h₁ with ⟨hb', hs', hf'⟩ | ⟨hs', hcase'⟩
      · exact Or.inl ⟨hb.trans hb', hs.trans hs', hf.trans hf'⟩
      · refine Or.inr ⟨by rw [hs]; exact hs', ?_⟩
        rw [hb]
        rcases hcase' with hnone | ⟨b, hb', hge, hlt⟩ | hsame
        · exact Or.inl hnone
        · omega
        · exact Or.inr (Or.inr hsame)
    · refine Or.inr ⟨hs, ?_⟩
      rcases hcase with hnone | hnew | ⟨hb, hq⟩
      · exact Or.inl hnone
      · exact Or.inr (Or.inl hnew)
      · rw [hb]
        rcases h₁ with ⟨hb', hs', -⟩ | ⟨-, hnone | ⟨b, hb', hge, hlt⟩ | hsame⟩
        · exact Or.inr (Or.inr ⟨hb', by rw [← hs']; exact hq⟩)
        · exact Or.inl hnone
        · omega
        · exact Or.inr (Or.inr hsame)

theorem dequeueBuffer_moved (args : DequeueArgs) : Moved c (c.dequeueBuffer args).2 := by
  obtain ⟨m, c₁, hcore, -, ⟨hend, -, -⟩ | ⟨s, -, hfree, -, hcase⟩⟩ := dequeueBuffer_spec c args
  · rw [hend]
    exact freeBeyond_moved hcore
  · have hallocated : c₁.allocated = c.allocated := by
      rcases hcore with rfl | rfl <;> rfl
    have hm := freeBeyond_moved hcore
    rcases hcase with ⟨p, fence, -, heq⟩ | ⟨fence, n, r, -, heq⟩
    · rw [heq]
      dsimp only
      refine hm.trans (.modify s _ (Or.inr ?_)) hallocated
      exact ⟨Or.inr rfl, Or.inl rfl⟩
    · rw [heq]
      dsimp only
      refine hm.trans (.modify s _ (Or.inr ?_)) hallocated
      refine ⟨Or.inr rfl, Or.inr (Or.inr ⟨rfl, ?_⟩)⟩
      rw [hfree]; simp

theorem installBuffer_moved {c : BufferQueueCore} {p : Pending}
    (h : c.isAbandoned = false → (c.slots p.slot).bufferState = .free ∨
      (c.slots p.slot).bufferState = .dequeued) : Moved c (c.installBuffer p).2 := by
  unfold BufferQueueCore.installBuffer
  dsimp only
  split
  · exact ⟨rfl, rfl, Nat.le_succ _, fun _ => .refl _ _ _⟩
  · next hab =>
    refine ⟨rfl, rfl, Nat.le_succ _, fun s => ?_⟩
    by_cases hs : s = p.slot
    · rw [hs, modify_slots_self]
      exact Or.inr ⟨h (by simpa using hab), Or.inr (Or.inl ⟨_, rfl, le_refl _, Nat.lt_succ_self _⟩)⟩
    · rw [modify_slots_ne _ _ hs]; exact .refl _ _ _

theorem detachBuffer_moved (slot : Int) : Moved c (c.detachBuffer slot).2 := by
  unfold BufferQueueCore.detachBuffer
  split
  · exact .refl c
  split
  · exact .refl c
  split
  · exact .refl c
  · split
    · exact .refl c
    · exact .modify _ _ (.freed _ _ _)

theorem cancelBuffer_moved (slot : Int) (fence : Fence) : Moved c (c.cancelBuffer slot fence) := by
  unfold BufferQueueCore.cancelBuffer
  split
  · exact .refl c
  split
  · exact .refl c
  split
  · exact .refl c
  rename_i s _ hstate
  have hd : (c.slots s).bufferState = .dequeued := not_not.mp hstate
  refine .modify s _ (Or.inr ?_)
  exact ⟨Or.inl rfl, Or.inr (Or.inr ⟨rfl, by rw [hd]; simp⟩)⟩

theorem connect_moved (api : Option NativeWindowApi) (byApp : Bool) :
    Moved c (c.connect api byApp).2 := by
  unfold BufferQueueCore.connect
  split
  · exact .refl c
  split
  · exact .refl c
  split
  · exact .refl c
  · cases api with
    | none => exact ⟨rfl, rfl, le_refl _, fun _ => .refl _ _ _⟩
    | some api => exact ⟨rfl, rfl, le_refl _, fun _ => .refl _ _ _⟩

theorem setPreallocatedBuffer_moved (slot : Int) (buffer : Option NvGraphicBuffer) :
    Moved c (c.setPreallocatedBuffer slot buffer).2 := by
  have hslot : ∀ (s : Fin 64) (b : GraphicBuffer) (pre : Bool) (s' : Fin 64), b.ptr = c.allocated →
      SlotMoved c.allocated (c.allocated + 1) (c.slots s')
        (update c.slots s { BufferSlot.empty with
          fence := .noFence, graphicBuffer := some b, isPreallocated := pre } s') := by
    intro s b pre s' hb
    by_cases hs : s' = s
    · rw [hs, update_self]
      exact Or.inr ⟨Or.inl rfl, Or.inr (Or.inl ⟨b, rfl, by omega, by omega⟩)⟩
    · rw [update_of_ne hs]; exact .refl _ _ _
  unfold BufferQueueCore.setPreallocatedBuffer
  split
  · exact .refl c
  · next s _ =>
    cases buffer with
    | none => exact ⟨rfl, rfl, Nat.le_succ _, fun s' => hslot s _ _ s' rfl⟩
    | some b => exact ⟨rfl, rfl, Nat.le_succ _, fun s' => hslot s _ _ s' rfl⟩

theorem releaseBuffer_moved (slot : Int) (frameNumber : Nat) :
    Moved c (c.releaseBuffer slot frameNumber).2 := by
  unfold BufferQueueCore.releaseBuffer
  split
  · exact .refl c
  rename_i s _
  split
  · exact .refl c
  split
  · exact .refl c
  split
  · next hacq =>
    dsimp only
    refine .modify s _ (Or.inr ?_)
    exact ⟨Or.inl rfl, Or.inr (Or.inr ⟨rfl, by rw [hacq]; simp⟩)⟩
  · split
    · dsimp only
      refine .modify s _ (Or.inl ?_)
      exact ⟨rfl, rfl, rfl⟩
    · exact .refl c

theorem consumerConnect_moved (byApp : Bool) : Moved c (c.consumerConnect byApp).2 := by
  unfold BufferQueueCore.consumerConnect
  split
  · exact .refl c
  · exact ⟨rfl, rfl, le_refl _, fun _ => .refl _ _ _⟩

/-! ## Queueing -/

/-- The checks refuse the call, or the slot is one the caller may queue. -/
theorem queueBufferCheck_cases (c : BufferQueueCore) (slot : Int) :
    (∃ status, c.queueBufferCheck slot input = some (.error status)) ∨
    ∃ s mode, (c.slots s).bufferState = .dequeued ∧ (c.slots s).requestBufferCalled = true ∧
      ((c.slots s).graphicBuffer = none ∧ c.queueBufferCheck slot input = none ∨
        (∃ b, (c.slots s).graphicBuffer = some b) ∧
          c.queueBufferCheck slot input = some (.ok (s, mode))) := by
  unfold BufferQueueCore.queueBufferCheck
  split
  · exact .inl ⟨_, rfl⟩
  rename_i mode _
  split
  · exact .inl ⟨_, rfl⟩
  split
  · exact .inl ⟨_, rfl⟩
  split
  · exact .inl ⟨_, rfl⟩
  split
  · exact .inl ⟨_, rfl⟩
  rename_i s _
  split
  · exact .inl ⟨_, rfl⟩
  rename_i hstate
  split
  · exact .inl ⟨_, rfl⟩
  rename_i hrequested
  have hslot := And.intro (not_not.mp hstate)
    (show (c.slots s).requestBufferCalled = true by simpa using hrequested)
  split
  · next hnone => exact .inr ⟨s, mode, hslot.1, hslot.2, .inl ⟨hnone, rfl⟩⟩
  rename_i b hb
  dsimp only
  split
  · exact .inl ⟨_, rfl⟩
  · exact .inr ⟨s, mode, hslot.1, hslot.2, .inr ⟨⟨b, hb⟩, rfl⟩⟩

theorem queueBufferCheck_ok {c : BufferQueueCore} {slot : Int} {mode : NativeWindowScalingMode}
    (h : c.queueBufferCheck slot input = some (.ok (s, mode))) :
    (c.slots s).bufferState = .dequeued ∧ (c.slots s).requestBufferCalled = true ∧
    ∃ b, (c.slots s).graphicBuffer = some b := by
  rcases queueBufferCheck_cases c slot with
    ⟨status, hc⟩ | ⟨s', mode', hstate, hrequested, ⟨-, hc⟩ | ⟨hb, hc⟩⟩
  · cases hc.symm.trans h
  · cases hc.symm.trans h
  · cases hc.symm.trans h
    exact ⟨hstate, hrequested, hb⟩

theorem queueBufferCheck_none {c : BufferQueueCore} {slot : Int}
    (h : c.queueBufferCheck slot input = none) :
    ∃ s, (c.slots s).bufferState = .dequeued ∧ (c.slots s).requestBufferCalled = true ∧
      (c.slots s).graphicBuffer = none := by
  rcases queueBufferCheck_cases c slot with
    ⟨status, hc⟩ | ⟨s, mode, hstate, hrequested, ⟨hnone, -⟩ | ⟨-, hc⟩⟩
  · cases hc.symm.trans h
  · exact ⟨s, hstate, hrequested, hnone⟩
  · cases hc.symm.trans h

theorem queueBuffer_spec {c : BufferQueueCore} (hc : Tracked c) {slot : Int}
    {mode : NativeWindowScalingMode} (h : c.queueBufferCheck slot input = some (.ok (s, mode))) :
    ∃ c' item, c.queueBuffer slot input = some (.noError, c') ∧ Tracked c' ∧
      item.frameNumber = c.frameCounter + 1 ∧ c'.frameCounter = c.frameCounter + 1 ∧
      c'.isAbandoned = c.isAbandoned ∧ c'.overrideMaxBufferCount = c.overrideMaxBufferCount ∧
      (c'.slots s).bufferState = .queued ∧ (c'.slots s).frameNumber = c.frameCounter + 1 ∧
      (∀ s', s' ≠ s → c'.slots s' = c.slots s' ∨
        (c.slots s').bufferState = .queued ∧
        c'.slots s' = { c.slots s' with bufferState := .free, frameNumber := 0 }) ∧
      (c'.queue = c.queue ++ [item] ∨
        ∃ front rest, c.queue = front :: rest ∧ front.isDroppable = true ∧
          c'.queue = item :: rest) := by
  obtain ⟨hdequeued, -, b, hb⟩ := queueBufferCheck_ok h
  have hnot : (c.slots s).bufferState ≠ .queued := by rw [hdequeued]; simp
  -- the state with the slot queued and not yet its item
  generalize hc₂ : ({ c with
      frameCounter := c.frameCounter + 1, stickyTransform := input.stickyTransform }.modify s
      fun s => { s with
        fence := input.fence, bufferState := .queued, frameNumber := c.frameCounter + 1 }) = c₂
  have hresult : c.queueBuffer slot input = some (.noError,
      { c₂.pushItem (c₂.makeItem s mode input) with bufferHasBeenQueued := true }) := by
    simp only [BufferQueueCore.queueBuffer, h, ← hc₂]; rfl
  have hself : c₂.slots s = { c.slots s with
      fence := input.fence, bufferState := .queued, frameNumber := c.frameCounter + 1 } := by
    rw [← hc₂, modify_slots_self]
  have hother : ∀ s', s' ≠ s → c₂.slots s' = c.slots s' := by
    intro s' hs
    rw [← hc₂, modify_slots_ne _ _ hs]
  have hqueue : c₂.queue = c.queue := by rw [← hc₂]; rfl
  have hcounter : c₂.frameCounter = c.frameCounter + 1 := by rw [← hc₂]; rfl
  have hallocated : c₂.allocated = c.allocated := by rw [← hc₂]; rfl
  have habandoned : c₂.isAbandoned = c.isAbandoned := by rw [← hc₂]; rfl
  have hoverride : c₂.overrideMaxBufferCount = c.overrideMaxBufferCount := by rw [← hc₂]; rfl
  have hitem : (c₂.makeItem s mode input).slot = s ∧
      (c₂.makeItem s mode input).graphicBuffer = some b := by
    refine ⟨rfl, ?_⟩
    show (c₂.slots s).graphicBuffer = some b
    rw [hself]; exact hb
  have hselfBuffer : (c₂.slots s).graphicBuffer = some b := by
    rw [hself]; exact hb
  generalize hmake : c₂.makeItem s mode input = item at *
  have hframe : item.frameNumber = c.frameCounter + 1 := by
    rw [← hmake]; exact hcounter
  -- a tracked item of the queue is for another slot
  have htracked : ∀ i ∈ c.queue, c₂.stillTracking i = true →
      i.slot ≠ s ∧ c.stillTracking i = true := by
    intro i hi ht
    have hslot : i.slot ≠ s := by
      intro heq
      have ht' : c.stillTracking i = true := by
        unfold BufferQueueCore.stillTracking at ht ⊢
        rw [heq, hselfBuffer] at ht
        rw [heq, hb]; exact ht
      have := hc.queued_of_mem hi ht'
      rw [heq] at this; exact hnot this
    refine ⟨hslot, ?_⟩
    unfold BufferQueueCore.stillTracking at ht ⊢
    rw [hother _ hslot] at ht; exact ht
  -- an item at the end
  have hpush : ∀ q, q.Perm (item :: c.queue) →
      Tracked { c₂ with queue := q, bufferHasBeenQueued := true } := by
    intro q hq
    refine hc.push hnot hb ⟨hselfBuffer, ?_⟩ hother hitem hq hallocated
    show (c₂.slots s).bufferState = .queued
    rw [hself]
  have hstate : (c₂.slots s).bufferState = .queued := by rw [hself]
  have hnumber : (c₂.slots s).frameNumber = c.frameCounter + 1 := by rw [hself]
  refine ⟨_, item, hresult, ?_⟩
  unfold BufferQueueCore.pushItem
  split
  · next hnil =>
    rw [hqueue] at hnil
    refine ⟨?_, hframe, hcounter, habandoned, hoverride, hstate, hnumber,
      fun s' hs => Or.inl (hother s' hs), Or.inl ?_⟩
    · exact hpush [item] (by rw [hnil])
    · rw [hnil]; rfl
  · next front rest hcons =>
    rw [hqueue] at hcons
    split
    · next hdrop =>
      dsimp only
      by_cases ht : c₂.stillTracking front = true
      · obtain ⟨hne, ht'⟩ := htracked front (by rw [hcons]; simp) ht
        have hqueued := hc.queued_of_mem (by rw [hcons]; simp) ht'
        rw [if_pos ht]
        have hpop := hc.popFront hcons (fun s => { s with bufferState := .free, frameNumber := 0 })
          fun _ => ⟨rfl, by simp⟩
        have hslots : ∀ s', s' ≠ s → (c₂.modify front.slot fun s =>
            { s with bufferState := .free, frameNumber := 0 }).slots s' =
            (popFront c front rest fun s => { s with bufferState := .free, frameNumber := 0 }).slots
              s' := by
          intro s' hs
          by_cases hf : s' = front.slot
          · rw [hf, modify_slots_self, popFront_slots_self, if_pos ht', hother _ hne]
          · rw [modify_slots_ne _ _ hf, popFront_slots_ne _ _ _ hf, hother s' hs]
        have hsame : (c₂.modify front.slot fun s =>
            { s with bufferState := .free, frameNumber := 0 }).slots s = c₂.slots s :=
          modify_slots_ne _ _ (Ne.symm hne)
        refine ⟨?_, hframe, hcounter, habandoned, hoverride, ?_, ?_, ?_,
          Or.inr ⟨front, rest, hcons, hdrop, rfl⟩⟩
        · refine hpop.push (s := s) (b := b) ?_ ?_ ⟨?_, ?_⟩ hslots hitem (List.Perm.refl _) ?_
          · rw [popFront_slots_ne _ _ _ (Ne.symm hne)]
            exact hnot
          · rw [popFront_slots_ne _ _ _ (Ne.symm hne)]
            exact hb
          · dsimp only
            rw [hsame]
            exact hselfBuffer
          · dsimp only
            rw [hsame]
            exact hstate
          · rw [popFront_allocated]; exact hallocated
        · rw [hsame]
          exact hstate
        · rw [hsame]
          exact hnumber
        · intro s' hs
          by_cases hf : s' = front.slot
          · refine Or.inr ⟨by rw [hf]; exact hqueued, ?_⟩
            rw [hf, modify_slots_self, hother _ hne]
          · refine Or.inl ?_
            rw [modify_slots_ne _ _ hf, hother s' hs]
      · rw [if_neg ht]
        have ht' : ¬ c.stillTracking front = true := by
          intro htrue
          have hne : front.slot ≠ s := by
            intro heq
            have := hc.queued_of_mem (by rw [hcons]; simp) htrue
            rw [heq] at this; exact hnot this
          apply ht
          unfold BufferQueueCore.stillTracking at htrue ⊢
          rw [hother _ hne]; exact htrue
        have hpop := hc.popFront hcons (fun s => { s with bufferState := .free })
          fun _ => ⟨rfl, by simp⟩
        have heq : popFront c front rest (fun s => { s with bufferState := .free }) =
            { c with queue := rest } := by
          unfold popFront
          rw [if_neg ht']
        rw [heq] at hpop
        refine ⟨?_, hframe, hcounter, habandoned, hoverride, hstate, hnumber,
          fun s' hs => Or.inl (hother s' hs), Or.inr ⟨front, rest, hcons, hdrop, rfl⟩⟩
        exact hpop.push (s := s) (b := b) hnot hb ⟨hselfBuffer, hstate⟩ hother hitem
          (List.Perm.refl _) hallocated
    · refine ⟨?_, hframe, hcounter, habandoned, hoverride, hstate, hnumber,
        fun s' hs => Or.inl (hother s' hs), Or.inl (by rw [← hqueue])⟩
      apply hpush
      rw [hqueue]; exact List.perm_append_singleton _ _

/-! ## Acquiring -/

theorem acquireBuffer_spec {c : BufferQueueCore} (hc : Tracked c) (expected : Int) :
    ∃ c₁, Dropped c c₁ ∧ (c₁ = c ∨ c₁ = c.acquireFront expected) ∧
      ((c.acquireBuffer expected).2 = (none, c₁) ∨
      ∃ front rest item, c₁ = c.acquireFront expected ∧ c₁.queue = front :: rest ∧
        item.frameNumber = front.frameNumber ∧
        (c.acquireBuffer expected).2 = (some item, popFront c₁ front rest fun s => { s with
          acquireCalled := true, needsCleanupOnRelease := false, bufferState := .acquired })) := by
  have hself : Dropped c c :=
    ⟨List.suffix_refl _, fun h => h, rfl, rfl, rfl, fun _ => Or.inl rfl, hc⟩
  have hdrop := acquireFront_spec hc expected
  unfold BufferQueueCore.acquireBuffer
  split
  · exact ⟨c, hself, Or.inl rfl, Or.inl rfl⟩
  split
  · exact ⟨c, hself, Or.inl rfl, Or.inl rfl⟩
  refine ⟨c.acquireFront expected, hdrop, Or.inr rfl, ?_⟩
  dsimp only
  split
  · exact Or.inl rfl
  rename_i front rest hcons
  split
  · exact Or.inl rfl
  refine Or.inr ⟨front, rest, { front with
    graphicBuffer := if front.acquireCalled then none else front.graphicBuffer },
    rfl, hcons, rfl, ?_⟩
  unfold popFront
  rfl

/-! ## Order -/

/-- The frame numbers of a run. -/
structure Frames (t : Run) : Prop where
  increasing : (t.core.queue.map (·.frameNumber)).Pairwise (· < ·)
  above : ∀ i ∈ t.core.queue, t.acquired < i.frameNumber ∧ i.frameNumber ≤ t.core.frameCounter
  acquired : t.acquired ≤ t.core.frameCounter
  current : ∀ s, (t.core.slots s).bufferState = .queued ∨ (t.core.slots s).bufferState = .acquired →
    ∃ rest, t.occupancies s = (t.core.slots s).frameNumber :: rest
  decreasing : ∀ s, (t.occupancies s).Pairwise (· > ·)
  occupancies : ∀ s, ∀ f ∈ t.occupancies s, f ≤ t.core.frameCounter

theorem Frames.of_moved (h : Frames t) (hm : Moved t.core c') (pending : List Pending) :
    Frames { t with core := c', pending := pending } where
  increasing := by
    show (c'.queue.map _).Pairwise _
    rw [hm.queue]; exact h.increasing
  above i hi := by
    show _ ∧ _ ≤ c'.frameCounter
    rw [hm.frameCounter]; exact h.above i (hm.queue ▸ hi)
  acquired := by
    show _ ≤ c'.frameCounter
    rw [hm.frameCounter]; exact h.acquired
  current s hs := by
    rcases hm.slot s with ⟨-, hstate, hframe⟩ | ⟨hstate, -⟩
    · show ∃ rest, t.occupancies s = (c'.slots s).frameNumber :: rest
      rw [hframe]
      exact h.current s (hstate ▸ hs)
    · exfalso
      have hs' : (c'.slots s).bufferState = .queued ∨ (c'.slots s).bufferState = .acquired := hs
      rcases hstate with h | h <;> rw [h] at hs' <;> simp at hs'
  decreasing := h.decreasing
  occupancies s f hf := by
    show _ ≤ c'.frameCounter
    rw [hm.frameCounter]; exact h.occupancies s f hf

theorem Frames.cleared (h : Frames t) (hq : c'.queue = [])
    (hcounter : c'.frameCounter = t.core.frameCounter) (hs : ∀ s, (c'.slots s).bufferState = .free) :
    Frames { t with core := c' } where
  increasing := by simp [hq]
  above i hi := by
    have hi' : i ∈ c'.queue := hi
    rw [hq] at hi'; cases hi'
  acquired := by
    show _ ≤ c'.frameCounter
    rw [hcounter]; exact h.acquired
  current s hstate := by
    have hstate' : (c'.slots s).bufferState = .queued ∨ (c'.slots s).bufferState = .acquired := hstate
    rw [hs s] at hstate'; simp at hstate'
  decreasing := h.decreasing
  occupancies s f hf := by
    show _ ≤ c'.frameCounter
    rw [hcounter]; exact h.occupancies s f hf

theorem Frames.of_dropped (h : Frames t) (hd : Dropped t.core c') :
    Frames { t with core := c' } where
  increasing := List.Pairwise.sublist (hd.suffix.sublist.map _) h.increasing
  above i hi := by
    show _ ∧ _ ≤ c'.frameCounter
    rw [hd.frameCounter]; exact h.above i (hd.suffix.subset hi)
  acquired := by
    show _ ≤ c'.frameCounter
    rw [hd.frameCounter]; exact h.acquired
  current s hs := by
    have hs' : (c'.slots s).bufferState = .queued ∨ (c'.slots s).bufferState = .acquired := hs
    show ∃ rest, t.occupancies s = (c'.slots s).frameNumber :: rest
    rcases hd.slot s with heq | ⟨-, heq⟩
    · rw [heq] at hs' ⊢
      exact h.current s hs'
    · rw [heq] at hs'; simp at hs'
  decreasing := h.decreasing
  occupancies s f hf := by
    show _ ≤ c'.frameCounter
    rw [hd.frameCounter]; exact h.occupancies s f hf

theorem Frames.acquire (h : Frames t) (hc : Tracked t.core) {front : BufferItem}
    {rest : List BufferItem} (hq : t.core.queue = front :: rest) : Frames { t with
      core := popFront t.core front rest fun s => { s with
        acquireCalled := true, needsCleanupOnRelease := false, bufferState := .acquired }
      acquired := front.frameNumber } := by
  have hpair := h.increasing
  rw [hq, List.map_cons, List.pairwise_cons] at hpair
  have hcounter : (popFront t.core front rest fun s => { s with
      acquireCalled := true, needsCleanupOnRelease := false, bufferState := .acquired }).frameCounter =
      t.core.frameCounter := by
    unfold popFront
    split <;> rfl
  have hfront := h.above front (by rw [hq]; simp)
  refine ⟨hpair.2, ?_, ?_, ?_, h.decreasing, ?_⟩
  · intro i hi
    have hi' : i ∈ rest := hi
    dsimp only
    rw [hcounter]
    exact ⟨hpair.1 _ (List.mem_map.mpr ⟨i, hi', rfl⟩),
      (h.above i (by rw [hq]; exact List.mem_cons_of_mem _ hi')).2⟩
  · dsimp only
    rw [hcounter]
    exact hfront.2
  · intro s hs
    dsimp only at hs ⊢
    by_cases hslot : s = front.slot
    · rw [hslot, popFront_slots_self] at hs ⊢
      split at hs
      · next ht =>
        rw [if_pos ht]
        exact h.current front.slot (Or.inl (hc.queued_of_mem (by rw [hq]; simp) ht))
      · next ht =>
        rw [if_neg ht]; exact h.current front.slot hs
    · rw [popFront_slots_ne _ _ _ hslot] at hs ⊢; exact h.current s hs
  · intro s f hf
    dsimp only
    rw [hcounter]; exact h.occupancies s f hf

theorem Frames.queue (h : Frames t) (hitem : item.frameNumber = t.core.frameCounter + 1)
    (hcounter : c'.frameCounter = t.core.frameCounter + 1)
    (hnumber : (c'.slots s).frameNumber = t.core.frameCounter + 1)
    (hother : ∀ s', s' ≠ s → c'.slots s' = t.core.slots s' ∨
      (t.core.slots s').bufferState = .queued ∧
      c'.slots s' = { t.core.slots s' with bufferState := .free, frameNumber := 0 })
    (hqueue : c'.queue = t.core.queue ++ [item] ∨ c'.queue = [item]) : Frames { t with
      core := c'
      occupancies := update t.occupancies s (c'.frameCounter :: t.occupancies s) } := by
  have hacquired := h.acquired
  refine ⟨?_, ?_, ?_, ?_, ?_, ?_⟩
  · dsimp only
    rcases hqueue with hq | hq
    · rw [hq, List.map_append, List.pairwise_append]
      refine ⟨h.increasing, by simp, ?_⟩
      intro a ha b hb
      obtain ⟨i, hi, rfl⟩ := List.mem_map.mp ha
      have hle := (h.above i hi).2
      have hb' : b = item.frameNumber := by simpa using hb
      omega
    · rw [hq]; simp
  · intro i hi
    have hcase : i ∈ t.core.queue ∨ i = item := by
      have hi' : i ∈ c'.queue := hi
      rcases hqueue with hq | hq
      · rw [hq] at hi'
        simpa using hi'
      · rw [hq] at hi'; exact Or.inr (by simpa using hi')
    dsimp only
    rcases hcase with hmem | rfl
    · have := h.above i hmem
      omega
    · omega
  · dsimp only
    omega
  · intro s' hs
    dsimp only at hs ⊢
    by_cases hs' : s' = s
    · rw [hs', update_self, hnumber, hcounter]
      exact ⟨_, rfl⟩
    · rw [update_of_ne hs']
      rcases hother s' hs' with heq | ⟨-, heq⟩
      · rw [heq] at hs ⊢
        exact h.current s' hs
      · rw [heq] at hs; simp at hs
  · intro s'
    dsimp only
    by_cases hs' : s' = s
    · rw [hs', update_self, List.pairwise_cons]
      refine ⟨fun f hf => ?_, h.decreasing s⟩
      have := h.occupancies s f hf
      omega
    · rw [update_of_ne hs']; exact h.decreasing s'
  · intro s' f hf
    dsimp only at hf ⊢
    by_cases hs' : s' = s
    · rw [hs', update_self] at hf
      rcases List.mem_cons.mp hf with rfl | hf'
      · exact le_refl _
      · have := h.occupancies s f hf'
        omega
    · rw [update_of_ne hs'] at hf
      have := h.occupancies s' f hf
      omega

/-- The invariant for ownership and order. -/
structure Inv (t : Run) : Prop where
  tracked : Tracked t.core
  frames : Frames t

theorem inv_initial : Inv .initial where
  tracked := .cleared rfl fun _ => ⟨rfl, rfl⟩
  frames := by
    constructor <;> simp [Run.initial, BufferQueueCore.initial, BufferSlot.empty]

theorem Inv.of_moved (h : Inv t) (hm : Moved t.core c') (pending : List Pending) :
    Inv { t with core := c', pending := pending } :=
  ⟨h.tracked.of_moved hm, h.frames.of_moved hm pending⟩

theorem Inv.cleared (h : Inv t) (hq : c'.queue = []) (hcounter : c'.frameCounter = t.core.frameCounter)
    (hs : ∀ s, (c'.slots s).graphicBuffer = none ∧ (c'.slots s).bufferState = .free) :
    Inv { t with core := c' } :=
  ⟨.cleared hq hs, h.frames.cleared hq hcounter fun s => (hs s).2⟩

theorem inv_step {t' : Run} (hi : Inv t) {c : Call} (ho : Ordered t c) (hstep : t.step c = some t') :
    Inv t' := by
  cases c with
  | requestBuffer slot =>
    cases hstep
    exact hi.of_moved (requestBuffer_moved _ _) _
  | setBufferCount bufferCount =>
    cases hstep
    exact hi.of_moved (setBufferCount_moved _ _) _
  | dequeueBuffer args =>
    have hm := dequeueBuffer_moved t.core args
    simp only [Run.step] at hstep
    split at hstep
    · cases hstep
      exact hi.of_moved hm _
    · cases hstep
      exact hi.of_moved hm _
  | installBuffer p =>
    cases hstep
    exact hi.of_moved (installBuffer_moved ho) _
  | detachBuffer slot =>
    cases hstep
    exact hi.of_moved (detachBuffer_moved _ _) _
  | queueBuffer slot input =>
    cases hcheck : t.core.queueBufferCheck slot input with
    | none => simp [Run.step, BufferQueueCore.queueBuffer, hcheck] at hstep
    | some result =>
      cases result with
      | error status =>
        simp only [Run.step, BufferQueueCore.queueBuffer, hcheck, Option.some.injEq] at hstep
        cases hstep
        exact hi
      | ok found =>
        obtain ⟨s, mode⟩ := found
        obtain ⟨c', item, hresult, htracked, hitem, hcounter, -, -, -, hnumber, hother, hqueue⟩ :=
          queueBuffer_spec hi.tracked hcheck
        simp only [Run.step, hresult, hcheck, Option.some.injEq] at hstep
        cases hstep
        refine ⟨htracked, hi.frames.queue hitem hcounter hnumber hother ?_⟩
        rcases hqueue with hq | ⟨front, rest, hcons, hdrop, hq⟩
        · exact Or.inl hq
        · rw [ho s mode hcheck front rest hcons hdrop] at hq; exact Or.inr hq
  | cancelBuffer slot fence =>
    cases hstep
    exact hi.of_moved (cancelBuffer_moved _ _ _) _
  | connect api byApp =>
    cases hstep
    exact hi.of_moved (connect_moved _ _ _) _
  | disconnect api =>
    cases hstep
    unfold BufferQueueCore.disconnect
    split
    · exact hi
    · split
      · exact hi
      · split
        · exact hi.cleared rfl rfl fun _ => ⟨rfl, rfl⟩
        · exact hi
  | setPreallocatedBuffer slot buffer =>
    cases hstep
    exact hi.of_moved (setPreallocatedBuffer_moved _ _ _) _
  | acquireBuffer expected =>
    obtain ⟨c₁, hdropped, -, hresult⟩ := acquireBuffer_spec hi.tracked expected
    have hframes := hi.frames.of_dropped hdropped
    simp only [Run.step, Option.some.injEq] at hstep
    cases hstep
    rcases hresult with heq | ⟨front, rest, item, -, hq, hitem, heq⟩
    · rw [congrArg Prod.fst heq, congrArg Prod.snd heq]
      exact ⟨hdropped.tracked, hframes⟩
    · have hnumber : ((some item).map (·.frameNumber)).getD t.acquired = front.frameNumber := hitem
      rw [congrArg Prod.fst heq, congrArg Prod.snd heq, hnumber]
      exact ⟨hdropped.tracked.popFront hq _ fun _ => ⟨rfl, by simp⟩,
        hframes.acquire hdropped.tracked hq⟩
  | releaseBuffer slot frameNumber =>
    cases hstep
    exact hi.of_moved (releaseBuffer_moved _ _ _) _
  | consumerConnect byApp =>
    cases hstep
    exact hi.of_moved (consumerConnect_moved _ _) _
  | consumerDisconnect =>
    cases hstep
    unfold BufferQueueCore.consumerDisconnect
    split
    · exact hi
    · exact hi.cleared rfl rfl fun _ => ⟨rfl, rfl⟩

theorem inv_of_reachable (h : Reachable (fun t c => Valid t c ∧ Ordered t c) t) : Inv t := by
  induction h with
  | initial => exact inv_initial
  | step _ hc hstep ih => exact inv_step ih hc.2 hstep

theorem Inv.exact (h : Inv t) : Exact t.core where
  tracked slot := by
    rw [trackedItems_eq, ← List.countP_eq_length_filter]; exact h.tracked.count slot
  increasing := h.frames.increasing

theorem Inv.callExact (h : Inv t) (c : Call) : CallExact t c := by
  cases c with
  | acquireBuffer expected =>
    intro item hitem
    obtain ⟨c₁, hdropped, -, heq | ⟨front, rest, item', -, hq, hnumber, heq⟩⟩ :=
      acquireBuffer_spec h.tracked expected
    · rw [heq] at hitem
      cases hitem
    · rw [heq] at hitem
      cases hitem
      rw [hnumber]
      exact ((h.frames.of_dropped hdropped).above front (by
        show front ∈ c₁.queue
        rw [hq]; simp)).1
  | dequeueBuffer args =>
    intro slot hacquired
    obtain ⟨m, c₁, hcore, -, hcase⟩ := dequeueBuffer_spec t.core args
    have hkept : c₁.slots slot = t.core.slots slot := by
      rcases hcore with rfl | rfl
      · rfl
      · rcases freeBeyond_slots t.core m slot with heq | ⟨hfree, -⟩
        · exact heq
        · rw [hfree] at hacquired; cases hacquired
    rcases hcase with ⟨hend, -, -⟩ | ⟨s, -, hfree, -, hcase⟩
    · rw [hend, hkept]
      exact hacquired
    · have hne : slot ≠ s := by
        intro heq
        rw [← heq, hkept, hacquired] at hfree; cases hfree
      rcases hcase with ⟨p, fence, -, heq⟩ | ⟨fence, n, r, -, heq⟩
      · rw [heq]
        dsimp only
        rw [modify_slots_ne _ _ hne, hkept]
        exact hacquired
      · rw [heq]
        dsimp only
        rw [modify_slots_ne _ _ hne, hkept]; exact hacquired
  | installBuffer pending =>
    intro hordered hok
    unfold BufferQueueCore.installBuffer at hok ⊢
    dsimp only at hok ⊢
    split at hok
    · cases hok
    · next habandoned =>
      -- the section changes only the number and the buffer of the slot
      rw [if_neg habandoned, modify_slots_self]
      rcases hordered (Bool.eq_false_of_not_eq_true habandoned) with hstate | hstate
      · exact hstate ▸ fun h => nomatch h
      · exact hstate ▸ fun h => nomatch h
  | releaseBuffer slot frameNumber =>
    intro s hslot hearlier
    unfold BufferQueueCore.releaseBuffer
    rw [hslot]
    dsimp only
    split
    · exact ⟨rfl, rfl⟩
    rename_i hframe
    split
    · exact ⟨rfl, rfl⟩
    split
    · next hacquired =>
      -- the slot's own frame number is not one of an earlier occupancy
      exfalso
      obtain ⟨rest, hrest⟩ := h.frames.current s (Or.inr hacquired)
      have hdecreasing := h.frames.decreasing s
      unfold earlier at hearlier
      rw [if_pos (Or.inr hacquired), hrest, List.tail_cons] at hearlier
      rw [hrest, List.pairwise_cons] at hdecreasing
      have := hdecreasing.1 frameNumber hearlier
      have heq : frameNumber = (t.core.slots s).frameNumber := not_not.mp hframe
      omega
    · split
      · constructor
        · rw [modify_slots_self]
        · rw [modify_slots_self]
      · exact ⟨rfl, rfl⟩
  | _ => trivial

/-- In every run whose sections meet the condition: a slot is queued exactly when it has one tracked
    item, frames come in order, acquired slots are not handed out, and a late release frees
    nothing. -/
theorem bufferQueue_exact_of_run {t : Run} (h : Reachable (fun t c => Valid t c ∧ Ordered t c) t) :
    Exact t.core ∧ ∀ c, CallExact t c := by
  have hi := inv_of_reachable h
  exact ⟨hi.exact, hi.callExact⟩

/-! ## Runs on given sections -/

instance (t : Run) (c : Call) : Decidable (Valid t c) :=
  match c with
  | .installBuffer p => inferInstanceAs (Decidable (p ∈ t.pending))
  | .requestBuffer _ | .setBufferCount _ | .dequeueBuffer _ | .detachBuffer _ | .queueBuffer _ _
  | .cancelBuffer _ _ | .connect _ _ | .disconnect _ | .setPreallocatedBuffer _ _
  | .acquireBuffer _ | .releaseBuffer _ _ | .consumerConnect _ | .consumerDisconnect =>
      inferInstanceAs (Decidable True)

/-- The queue has something behind a droppable front. -/
def behindDroppable : List BufferItem → Bool
  | front :: _ :: _ => front.isDroppable
  | _ => false

theorem ordered_of_queueBuffer {slot : Int} (h : behindDroppable t.core.queue = false) :
    Ordered t (.queueBuffer slot input) := by
  intro s mode _ front rest hq hdrop
  rw [hq] at h
  cases rest with
  | nil => rfl
  | cons next rest =>
    have hno : front.isDroppable = false := h
    rw [hdrop] at hno; cases hno

/-- A check that is enough for `Ordered`. -/
def orderedCheck (t : Run) : Call → Bool
  | .installBuffer p => t.core.isAbandoned || decide ((t.core.slots p.slot).bufferState = .dequeued)
  | .queueBuffer _ _ => !behindDroppable t.core.queue
  | _ => true

theorem ordered_of_check {c : Call} (h : orderedCheck t c = true) : Ordered t c := by
  cases c with
  | installBuffer p =>
    intro habandoned
    simp only [orderedCheck, habandoned, Bool.false_or, decide_eq_true_eq] at h
    exact Or.inr h
  | queueBuffer slot input =>
    exact ordered_of_queueBuffer (by simpa [orderedCheck] using h)
  | _ => trivial

/-- A list of sections of which each passes a check. -/
def Run.run (check : Run → Call → Bool) : Run → List Call → Option Run
  | t, [] => some t
  | t, c :: rest => if check t c then (t.step c).bind fun t' => run check t' rest else none

theorem reachable_of_run {P : Run → Call → Prop} {check : Run → Call → Bool}
    (hcheck : ∀ t c, check t c = true → P t c) : ∀ (calls : List Call) {t t' : Run}, Reachable P t →
      t.run check calls = some t' → Reachable P t' := by
  intro calls
  induction calls with
  | nil =>
    intro t t' ht h
    cases h
    exact ht
  | cons c rest ih =>
    intro t t' ht h
    unfold Run.run at h
    split at h
    · next hc =>
      obtain ⟨t₁, hstep, hrest⟩ := Option.bind_eq_some_iff.mp h
      exact ih (.step ht (hcheck t c hc) hstep) hrest
    · cases h

/-- Arguments for a buffer of the default size. -/
def defaultArgs : DequeueArgs := ⟨false, 0, 0, 0, 0⟩

/-- The input of a buffer that is queued whole. -/
def plainInput (async : Bool) : QueueBufferInput :=
  ⟨0, true, ⟨0, 0, 1, 1⟩, some .freeze, 0, 0, async, 1, .noFence⟩

/-- The sections with which a producer takes a slot and queues it. -/
def fillSlot (slot : Nat) (h : slot < 64) (async : Bool) : List Call :=
  [.dequeueBuffer defaultArgs, .installBuffer ⟨⟨slot, h⟩, 1, 1, 1, 0, false⟩,
    .requestBuffer slot, .queueBuffer slot (plainInput async)]

/-- Two frames are queued, one is acquired and released. -/
theorem bufferQueue_exact_of_run_release :
    ∃ t, Reachable (fun t c => Valid t c ∧ Ordered t c) t ∧ t.core.queue.length = 1 ∧
      t.acquired = 1 ∧ Exact t.core ∧ ∀ c, CallExact t c := by
  have hrun : (Run.initial.run (fun t c => decide (Valid t c) && orderedCheck t c)
      ([.consumerConnect false, .connect (some .egl) false, .setBufferCount 4] ++
        fillSlot 0 (by decide) false ++ fillSlot 1 (by decide) true ++
        [.acquireBuffer 0, .releaseBuffer 0 1])).map
      (fun t => (t.core.queue.length, t.acquired)) = some (1, 1) := by
    decide +kernel
  obtain ⟨t, ht, hvalues⟩ := Option.map_eq_some_iff.mp hrun
  have hreach : Reachable (fun t c => Valid t c ∧ Ordered t c) t := by
    refine reachable_of_run ?_ _ .initial ht
    intro t c hc
    obtain ⟨hvalid, hordered⟩ := Bool.and_eq_true_iff.mp hc
    exact ⟨of_decide_eq_true hvalid, ordered_of_check hordered⟩
  refine ⟨t, hreach, congrArg Prod.fst hvalues, congrArg Prod.snd hvalues, ?_⟩
  exact bufferQueue_exact_of_run hreach

/-- Frame 2 is droppable and frame 3 stands behind it when frame 4 is queued: the queue is 4, 3. -/
theorem not_bufferQueue_exact : ¬ ∀ t, Reachable Valid t → Exact t.core ∧ ∀ c, CallExact t c := by
  intro hall
  have hrun : (Run.initial.run (fun t c => decide (Valid t c))
      ([.consumerConnect false, .connect (some .egl) false, .setBufferCount 4] ++
        fillSlot 0 (by decide) false ++ fillSlot 1 (by decide) true ++
        fillSlot 2 (by decide) false ++ [.acquireBuffer 0] ++ fillSlot 3 (by decide) false)).map
      (fun t => t.core.queue.map (·.frameNumber)) = some [4, 3] := by
    decide +kernel
  obtain ⟨t, ht, hqueue⟩ := Option.map_eq_some_iff.mp hrun
  have hreach : Reachable Valid t :=
    reachable_of_run (fun _ _ hc => of_decide_eq_true hc) _ .initial ht
  have hexact := (hall t hreach).1
  have hincreasing := hexact.increasing
  rw [hqueue] at hincreasing
  revert hincreasing
  decide

end Suyu.Nvnflinger
