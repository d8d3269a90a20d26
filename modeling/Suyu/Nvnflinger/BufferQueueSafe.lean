import Mathlib
import Suyu.Nvnflinger.BufferQueueRuns

/-
  What can crash the buffer queue.

  1. **Specification (`Safe`, `CallSafe`)** - a dequeued slot whose buffer was requested has a buffer,
     so `QueueBuffer` does not read through a null pointer; both ASSERTs hold; and the slot that
     `DequeueBuffer` returns is dequeued.

  2. **When it goes wrong** - between the two sections of `DequeueBuffer` its slot is dequeued and has
     NO buffer: it can be requested and queued, or cancelled.  The maximum buffer count does not see
     slots that are acquired, and it can be set below slots that are in use.

  3. **The crux (`SlotSafe`)** - one statement for each slot on its own: a dequeued slot without a
     buffer is one that a `DequeueBuffer` is between its sections for.
-/

namespace Suyu.Nvnflinger

open BufferQueueCore

/-! ## Specification -/

/-- What may not fail in one state. -/
structure Safe (c : BufferQueueCore) : Prop where
  buffers : ∀ slot, (c.slots slot).bufferState = .dequeued →
    (c.slots slot).requestBufferCalled = true → (c.slots slot).graphicBuffer.isSome
  maxCount : ∀ async, c.maxCountAssert async
  beyondMax : ∀ async, c.beyondMaxAssert async

/-- What one section gives: it does not crash, and a slot that is returned is dequeued. -/
def CallSafe (t : Run) (call : Call) : Prop :=
  (t.step call).isSome ∧
  match call with
  | .dequeueBuffer args => ∀ slot fence needsRealloc released,
      (t.core.dequeueBuffer args).1 = .returned slot fence needsRealloc released →
      ((t.core.dequeueBuffer args).2.slots slot).bufferState = .dequeued
  | .installBuffer pending => (t.core.installBuffer pending).1 = .noError →
      ((t.core.installBuffer pending).2.slots pending.slot).bufferState = .dequeued
  | _ => True

/-- No `DequeueBuffer` is between its two sections for a slot. -/
def NotPending (t : Run) (slot : Int) : Prop :=
  ∀ s, slotIndex slot = some s → ∀ p ∈ t.pending, p.slot ≠ s

/-- The condition for safety. -/
def Careful (t : Run) : Call → Prop
  | .requestBuffer slot => NotPending t slot
  | .cancelBuffer slot _ => NotPending t slot
  | .disconnect api => t.core.isAbandoned = false → api.isSome → t.core.connectedApi = api →
      t.pending = []
  -- no slot that is in use is beyond the count of preallocated buffers
  | .setPreallocatedBuffer slot buffer => NotPending t slot ∧
      ∀ s, slotIndex slot = some s → buffer.isSome → ∀ s', s' ≠ s →
        (((List.finRange 64).countP fun i => decide (i = s) || (t.core.slots i).isPreallocated : Nat) :
          Int) ≤ s'.val → (t.core.slots s').bufferState = .free
  -- no slot in use beyond a count that is set, no acquired one beyond the default count
  | .setBufferCount bufferCount => (∀ s, (t.core.slots s).bufferState ≠ .dequeued) →
      (bufferCount = 0 → ∀ s : Fin 64, defaultMaxBufferCount ≤ s.val →
        (t.core.slots s).bufferState ≠ .acquired) ∧
      (0 < bufferCount → 0 < t.core.getPreallocatedBufferCount → ∀ s : Fin 64, bufferCount ≤ s.val →
        (t.core.slots s).bufferState = .free)
  -- no slot beyond the default count is acquired when no count is set
  | .acquireBuffer expected => t.core.overrideMaxBufferCount = 0 →
      ∀ front ∈ (t.core.acquireFront expected).queue.head?,
        (t.core.acquireFront expected).stillTracking front = true →
        (front.slot.val : Int) < defaultMaxBufferCount
  | _ => True

/-! ## The invariant -/

/-- One slot: `pending` are the slots of the `DequeueBuffer`s between their sections. -/
structure SlotSafe (abandoned : Bool) (pending : List (Fin 64)) (override : Int) (s : Fin 64)
    (slot : BufferSlot) : Prop where
  buffers : slot.bufferState = .dequeued → slot.requestBufferCalled = true →
    slot.graphicBuffer.isSome
  waiting : abandoned = false → s ∈ pending →
    slot.bufferState = .dequeued ∧ slot.requestBufferCalled = false
  missing : abandoned = false → slot.bufferState = .dequeued → slot.graphicBuffer = none →
    s ∈ pending
  beyond : override ≠ 0 → override ≤ s.val → slot.bufferState = .free
  default : override = 0 → defaultMaxBufferCount ≤ s.val → slot.bufferState ≠ .acquired

variable {s : Fin 64} {t : Run} {slot : Int}

theorem SlotSafe.of_free {abandoned : Bool} {pending : List (Fin 64)} {override : Int}
    {slot : BufferSlot} (hfree : slot.bufferState = .free) (hpending : abandoned = false → s ∉ pending) :
    SlotSafe abandoned pending override s slot where
  buffers h := by
    rw [hfree] at h; cases h
  waiting ha hs := absurd hs (hpending ha)
  missing _ h := by
    rw [hfree] at h; cases h
  beyond _ _ := hfree
  default _ _ := by
    rw [hfree]; simp

theorem SlotSafe.not_pending {abandoned : Bool} {pending : List (Fin 64)} {override : Int}
    {slot : BufferSlot} (h : SlotSafe abandoned pending override s slot)
    (hne : slot.bufferState ≠ .dequeued) : abandoned = false → s ∉ pending :=
  fun ha hs => hne (h.waiting ha hs).1

/-- The slots of the sections that are to come. -/
def Run.pendingSlots (t : Run) : List (Fin 64) := t.pending.map (·.slot)

structure SafeInv (t : Run) : Prop where
  tracked : Tracked t.core
  nodup : t.pendingSlots.Nodup
  override : 0 ≤ t.core.overrideMaxBufferCount
  slots : ∀ s, SlotSafe t.core.isAbandoned t.pendingSlots t.core.overrideMaxBufferCount s
    (t.core.slots s)

theorem not_mem_pendingSlots (h : NotPending t slot) (hs : slotIndex slot = some s) :
    s ∉ t.pendingSlots := by
  intro hmem
  obtain ⟨p, hp, heq⟩ := List.mem_map.mp hmem
  exact h s hs p hp heq

theorem SafeInv.of_slots (h : SafeInv t) {c' : BufferQueueCore} (htracked : Tracked c')
    (habandoned : c'.isAbandoned = t.core.isAbandoned)
    (hoverride : c'.overrideMaxBufferCount = t.core.overrideMaxBufferCount)
    (hslots : ∀ s, c'.slots s = t.core.slots s ∨
      SlotSafe t.core.isAbandoned t.pendingSlots t.core.overrideMaxBufferCount s (c'.slots s)) :
    SafeInv { t with core := c' } where
  tracked := htracked
  nodup := h.nodup
  override := by
    show 0 ≤ c'.overrideMaxBufferCount
    rw [hoverride]; exact h.override
  slots s := by
    show SlotSafe c'.isAbandoned t.pendingSlots c'.overrideMaxBufferCount s (c'.slots s)
    rw [habandoned, hoverride]
    rcases hslots s with heq | hsafe
    · rw [heq]
      exact h.slots s
    · exact hsafe

theorem SafeInv.modify (h : SafeInv t) {f : BufferSlot → BufferSlot}
    (htracked : Tracked (t.core.modify s f))
    (hslot : SlotSafe t.core.isAbandoned t.pendingSlots t.core.overrideMaxBufferCount s
      (f (t.core.slots s))) : SafeInv { t with core := t.core.modify s f } := by
  refine h.of_slots htracked rfl rfl fun s' => ?_
  by_cases hs : s' = s
  · rw [hs, modify_slots_self]
    exact Or.inr hslot
  · exact Or.inl (modify_slots_ne _ _ hs)

theorem safeInv_initial : SafeInv .initial where
  tracked := .cleared rfl fun _ => ⟨rfl, rfl⟩
  nodup := List.nodup_nil
  override := le_refl _
  slots _ := .of_free rfl fun _ => by simp [Run.initial, Run.pendingSlots]

/-! ## The maximum count -/

theorem foldl_count_ge {q : Fin 64 → Prop} [DecidablePred q] : ∀ (l : List (Fin 64)) (acc : Int),
    l.Pairwise (· < ·) → (∀ x ∈ l, q x → acc ≤ (x.val : Int) + 1) →
    acc ≤ l.foldl (fun count slot => if q slot then (slot.val : Int) + 1 else count) acc ∧
    ∀ x ∈ l, q x → (x.val : Int) + 1 ≤
      l.foldl (fun count slot => if q slot then (slot.val : Int) + 1 else count) acc := by
  intro l
  induction l with
  | nil =>
    intro acc _ _; exact ⟨le_refl _, fun x hx => nomatch hx⟩
  | cons y rest ih =>
    intro acc hsorted hacc
    obtain ⟨hlt, hrest⟩ := List.pairwise_cons.mp hsorted
    rw [List.foldl_cons]
    by_cases hq : q y
    · rw [if_pos hq]
      have hy := hacc y (by simp) hq
      obtain ⟨hge, hall⟩ := ih ((y.val : Int) + 1) hrest fun x hx _ => by
        have := hlt x hx
        omega
      refine ⟨by omega, fun x hx hqx => ?_⟩
      rcases List.mem_cons.mp hx with rfl | hx'
      · exact hge
      · exact hall x hx' hqx
    · rw [if_neg hq]
      obtain ⟨hge, hall⟩ := ih acc hrest fun x hx => hacc x (List.mem_cons_of_mem _ hx)
      refine ⟨hge, fun x hx hqx => ?_⟩
      rcases List.mem_cons.mp hx with rfl | hx'
      · exact absurd hqx hq
      · exact hall x hx' hqx

theorem getMaxBufferCount_override {c : BufferQueueCore} (h : c.overrideMaxBufferCount ≠ 0)
    (async : Bool) : c.getMaxBufferCount async = c.overrideMaxBufferCount := by
  simp [BufferQueueCore.getMaxBufferCount, h]

theorem getMaxBufferCount_default {c : BufferQueueCore} (h : c.overrideMaxBufferCount = 0)
    (async : Bool) : defaultMaxBufferCount ≤ c.getMaxBufferCount async ∧
    ∀ s : Fin 64, c.getMaxBufferCount async ≤ s.val →
      (c.slots s).bufferState ≠ .queued ∧ (c.slots s).bufferState ≠ .dequeued := by
  have hstart : max defaultMaxBufferCount (c.getMinMaxBufferCount async) =
      defaultMaxBufferCount := by
    simp [getMinMaxBufferCount, getMinUndequeuedBufferCount, useAsyncBuffer, defaultMaxBufferCount]
  simp only [BufferQueueCore.getMaxBufferCount, h, ne_eq, not_true_eq_false, if_false, hstart]
  obtain ⟨hge, hall⟩ := foldl_count_ge
    (q := fun slot => defaultMaxBufferCount ≤ (slot.val : Int) ∧
      ((c.slots slot).bufferState = .queued ∨ (c.slots slot).bufferState = .dequeued))
    (List.finRange 64) defaultMaxBufferCount (List.pairwise_lt_finRange 64)
    (fun x _ hx => by
      have := hx.1
      omega)
  refine ⟨hge, fun s hs => ?_⟩
  have hdefault : defaultMaxBufferCount ≤ (s.val : Int) := hge.trans hs
  constructor
  · intro hstate
    have := hall s (List.mem_finRange s) ⟨hdefault, Or.inl hstate⟩
    omega
  · intro hstate
    have := hall s (List.mem_finRange s) ⟨hdefault, Or.inr hstate⟩
    omega

theorem SafeInv.safe (h : SafeInv t) : Safe t.core where
  buffers slot := (h.slots slot).buffers
  maxCount async _ := by
    have := h.override
    simpa [getMinMaxBufferCount, getMinUndequeuedBufferCount, useAsyncBuffer] using this
  beyondMax async slot hslot := by
    by_cases hzero : t.core.overrideMaxBufferCount = 0
    · obtain ⟨hge, hall⟩ := getMaxBufferCount_default hzero async
      obtain ⟨hqueued, hdequeued⟩ := hall slot hslot
      have hacquired := (h.slots slot).default hzero (hge.trans hslot)
      cases hstate : (t.core.slots slot).bufferState with
      | free => rfl
      | dequeued => exact absurd hstate hdequeued
      | queued => exact absurd hstate hqueued
      | acquired => exact absurd hstate hacquired
    · rw [getMaxBufferCount_override hzero] at hslot; exact (h.slots slot).beyond hzero hslot

/-! ## The sections -/

theorem safe_requestBuffer (h : SafeInv t) (hc : NotPending t slot) :
    SafeInv { t with core := (t.core.requestBuffer slot).2.2 } := by
  have htracked := h.tracked.of_moved (requestBuffer_moved t.core slot)
  unfold BufferQueueCore.requestBuffer at *
  split
  · exact h
  rename_i habandoned
  split
  · exact h
  rename_i s hs
  split
  · exact h
  rename_i hstate
  have hd : (t.core.slots s).bufferState = .dequeued := not_not.mp hstate
  have hnot := not_mem_pendingSlots hc hs
  have hslot := h.slots s
  simp only [habandoned, hs, hstate, if_false, Bool.false_eq_true] at htracked
  refine h.modify htracked ⟨fun _ _ => ?_, fun _ hmem => absurd hmem hnot,
    hslot.missing, hslot.beyond, hslot.default⟩
  -- without a buffer the slot would be pending
  by_contra hnone
  exact hnot (hslot.missing (by simpa using habandoned) hd (by simpa using hnone))

theorem safe_setBufferCount (h : SafeInv t) {bufferCount : Int}
    (hc : Careful t (.setBufferCount bufferCount)) :
    SafeInv { t with core := (t.core.setBufferCount bufferCount).2 } := by
  unfold BufferQueueCore.setBufferCount
  split
  · exact h
  split
  · exact h
  split
  · exact h
  rename_i hdequeued
  have hnone : ∀ s, (t.core.slots s).bufferState ≠ .dequeued := fun s hs => hdequeued ⟨s, hs⟩
  obtain ⟨hzero, hpositive⟩ := hc hnone
  split
  · next hcount =>
    have htracked : Tracked { t.core with overrideMaxBufferCount := 0 } :=
      h.tracked.of_moved ⟨rfl, rfl, le_refl _, fun _ => .refl _ _ _⟩
    refine ⟨htracked, h.nodup, le_refl _, fun s => ?_⟩
    have hslot := h.slots s
    exact ⟨fun hd => absurd hd (hnone s), hslot.waiting,
      fun _ hd => absurd hd (hnone s), fun hne => absurd rfl hne, fun _ => hzero hcount s⟩
  · next hcount =>
    split
    · exact h
    rename_i hmin
    have hge : 0 ≤ bufferCount := by
      simpa [getMinMaxBufferCount, getMinUndequeuedBufferCount, useAsyncBuffer] using hmin
    dsimp only
    split
    · have htracked : Tracked { t.core.freeAllBuffers with
          overrideMaxBufferCount := bufferCount } :=
        h.tracked.of_moved ⟨rfl, rfl, le_refl _, fun _ => .freed _ _ _⟩
      refine ⟨htracked, h.nodup, hge, fun s => ?_⟩
      exact .of_free rfl ((h.slots s).not_pending (hnone s))
    · next hpre =>
      have htracked : Tracked { t.core with overrideMaxBufferCount := bufferCount } :=
        h.tracked.of_moved ⟨rfl, rfl, le_refl _, fun _ => .refl _ _ _⟩
      refine ⟨htracked, h.nodup, hge, fun s => ?_⟩
      exact ⟨fun hd => absurd hd (hnone s), (h.slots s).waiting,
        fun _ hd => absurd hd (hnone s), fun _ => hpositive (by omega) (by omega) s,
        fun heq => absurd heq hcount⟩

theorem slotSafe_freeBeyond (h : SafeInv t) {c₁ : BufferQueueCore} {m : Int}
    (hcore : c₁ = t.core ∨ c₁ = t.core.freeBeyond m) (s : Fin 64) :
    SlotSafe t.core.isAbandoned t.pendingSlots t.core.overrideMaxBufferCount s (c₁.slots s) := by
  have hslot := h.slots s
  rcases hcore with rfl | rfl
  · exact hslot
  rcases freeBeyond_slots t.core m s with heq | ⟨hfree, heq⟩
  · rw [heq]; exact hslot
  rw [heq]
  refine .of_free rfl (hslot.not_pending ?_)
  rw [hfree]
  simp

theorem safe_dequeueBuffer {t' : Run} (h : SafeInv t) {args : DequeueArgs}
    (hstep : t.step (.dequeueBuffer args) = some t') : SafeInv t' := by
  have htracked := h.tracked.of_moved (dequeueBuffer_moved t.core args)
  obtain ⟨m, c₁, hcore, hm, hcase⟩ := dequeueBuffer_spec t.core args
  have hfields : c₁.isAbandoned = t.core.isAbandoned ∧
      c₁.overrideMaxBufferCount = t.core.overrideMaxBufferCount := by
    rcases hcore with rfl | rfl <;> exact ⟨rfl, rfl⟩
  have hslots := slotSafe_freeBeyond h hcore
  rcases hcase with ⟨hend, hnot, -⟩ | ⟨s, habandoned, hfree, hlt, hcase⟩
  · have ht' : t' = { t with core := c₁ } := by
      simp only [Run.step] at hstep
      cases hstep
      rw [hend]
    rw [ht']
    rw [hend] at htracked
    exact h.of_slots htracked hfields.1 hfields.2 fun s => Or.inr (hslots s)
  · have hnot : s ∉ t.pendingSlots := (hslots s).not_pending (by rw [hfree]; simp) habandoned
    -- with an override the slot is below it
    have hbelow : t.core.overrideMaxBufferCount ≠ 0 →
        ¬ t.core.overrideMaxBufferCount ≤ (s.val : Int) := by
      intro hne
      rw [hm, getMaxBufferCount_override hne] at hlt; omega
    rcases hcase with ⟨p, fence, hp, heq⟩ | ⟨fence, n, r, hsome, heq⟩
    · have ht' : t' = { t with
          core := c₁.modify s fun s => { s with
            bufferState := .dequeued, acquireCalled := false, graphicBuffer := none,
            requestBufferCalled := false, fence := .noFence }
          pending := p :: t.pending } := by
        simp only [Run.step, heq, Option.some.injEq] at hstep; exact hstep.symm
      rw [heq] at htracked
      have hpendingSlots : t'.pendingSlots = s :: t.pendingSlots := by
        rw [ht', ← hp]; rfl
      rw [ht'] at hpendingSlots ⊢
      refine ⟨htracked, ?_, ?_, fun s' => ?_⟩
      · rw [hpendingSlots]
        exact List.nodup_cons.mpr ⟨hnot, h.nodup⟩
      · show 0 ≤ c₁.overrideMaxBufferCount
        rw [hfields.2]
        exact h.override
      · rw [hpendingSlots]
        show SlotSafe c₁.isAbandoned _ c₁.overrideMaxBufferCount s' _
        rw [hfields.1, hfields.2]
        by_cases hs : s' = s
        · rw [hs, modify_slots_self]
          refine ⟨fun _ hr => ?_, fun _ _ => ⟨rfl, rfl⟩, fun _ _ _ => List.mem_cons_self,
            fun hne hle => absurd hle (hbelow hne), fun _ _ hacquired => ?_⟩
          · cases hr
          · cases hacquired
        · rw [modify_slots_ne _ _ hs]
          have hslot := hslots s'
          refine ⟨hslot.buffers, fun ha hmem => hslot.waiting ha ?_,
            fun ha hd hn => List.mem_cons_of_mem _ (hslot.missing ha hd hn), hslot.beyond,
            hslot.default⟩
          exact (List.mem_cons.mp hmem).resolve_left hs
    · have ht' : t' = { t with
          core := c₁.modify s fun s => { s with bufferState := .dequeued, fence := .noFence } } := by
        simp only [Run.step, heq, Option.some.injEq] at hstep; exact hstep.symm
      rw [heq] at htracked
      rw [ht']
      refine h.of_slots htracked hfields.1 hfields.2 fun s' => Or.inr ?_
      by_cases hs : s' = s
      · rw [hs, modify_slots_self]
        refine ⟨fun _ _ => hsome, fun _ hmem => absurd hmem hnot, fun _ _ hn => ?_,
          fun hne hle => absurd hle (hbelow hne), fun _ _ hacquired => ?_⟩
        · have hnone : (c₁.slots s).graphicBuffer = none := hn
          rw [hnone] at hsome
          cases hsome
        · cases hacquired
      · rw [modify_slots_ne _ _ hs]; exact hslots s'

theorem mem_pendingSlots_erase (hnodup : t.pendingSlots.Nodup) {p : Pending} (hp : p ∈ t.pending)
    (s : Fin 64) : s ∈ (t.pending.erase p).map (·.slot) ↔ s ∈ t.pendingSlots ∧ s ≠ p.slot := by
  have hperm : t.pending.Perm (p :: t.pending.erase p) := List.perm_cons_erase hp
  have hslots : t.pendingSlots.Perm (p.slot :: (t.pending.erase p).map (·.slot)) := hperm.map _
  have hnodup' := hslots.nodup_iff.mp hnodup
  obtain ⟨hnotin, -⟩ := List.nodup_cons.mp hnodup'
  rw [hslots.mem_iff, List.mem_cons]
  constructor
  · intro hmem
    refine ⟨Or.inr hmem, ?_⟩
    intro heq
    rw [heq] at hmem
    exact hnotin hmem
  · rintro ⟨heq | hmem, hne⟩
    · exact absurd heq hne
    · exact hmem

section

variable (h : SafeInv t)
include h

theorem safe_installBuffer {p : Pending} (hp : p ∈ t.pending) :
    SafeInv { t with core := (t.core.installBuffer p).2, pending := t.pending.erase p } ∧
    ((t.core.installBuffer p).1 = .noError →
      ((t.core.installBuffer p).2.slots p.slot).bufferState = .dequeued) := by
  have hmem : p.slot ∈ t.pendingSlots := List.mem_map.mpr ⟨p, hp, rfl⟩
  have hslot := h.slots p.slot
  have htracked := h.tracked.of_moved (installBuffer_moved (c := t.core) (p := p)
    fun ha => Or.inr (hslot.waiting ha hmem).1)
  have hnodup : ((t.pending.erase p).map (·.slot)).Nodup :=
    h.nodup.sublist (List.erase_sublist.map _)
  unfold BufferQueueCore.installBuffer at *
  dsimp only at *
  split
  · next habandoned =>
    rw [if_pos habandoned] at htracked
    refine ⟨⟨htracked, hnodup, h.override, fun s => ?_⟩, fun hno => nomatch hno⟩
    have hs := h.slots s
    have htrue : t.core.isAbandoned = true := habandoned
    refine ⟨hs.buffers, fun ha => ?_, fun ha => ?_, hs.beyond, hs.default⟩
    · have ha' : t.core.isAbandoned = false := ha
      rw [htrue] at ha'
      cases ha'
    · have ha' : t.core.isAbandoned = false := ha
      rw [htrue] at ha'; cases ha'
  · next habandoned =>
    rw [if_neg habandoned] at htracked
    have hfalse : t.core.isAbandoned = false := by simpa using habandoned
    obtain ⟨hd, hr⟩ := hslot.waiting hfalse hmem
    refine ⟨⟨htracked, hnodup, h.override, fun s => ?_⟩, fun _ => ?_⟩
    · by_cases hs : s = p.slot
      · rw [hs]
        dsimp only
        rw [modify_slots_self]
        refine ⟨fun _ _ => rfl, fun _ hmem' => ?_, fun _ _ hn => (by cases hn), fun hne hle => ?_,
          fun _ _ => ?_⟩
        · exact absurd rfl ((mem_pendingSlots_erase h.nodup hp _).mp hmem').2
        · have := hslot.beyond hne hle
          rw [hd] at this
          cases this
        · show (t.core.slots p.slot).bufferState ≠ .acquired
          rw [hd]; simp
      · dsimp only
        rw [modify_slots_ne _ _ hs]
        have hs' := h.slots s
        refine ⟨hs'.buffers, fun ha hm => hs'.waiting ha ?_, fun ha hds hn => ?_, hs'.beyond,
          hs'.default⟩
        · exact ((mem_pendingSlots_erase h.nodup hp s).mp hm).1
        · exact (mem_pendingSlots_erase h.nodup hp s).mpr ⟨hs'.missing ha hds hn, hs⟩
    · rw [modify_slots_self]; exact hd

theorem SafeInv.not_pending_of_requested (hr : (t.core.slots s).requestBufferCalled = true) :
    t.core.isAbandoned = false → s ∉ t.pendingSlots := by
  intro ha hmem
  have := ((h.slots s).waiting ha hmem).2
  rw [hr] at this
  cases this

theorem safe_detachBuffer (slot : Int) :
    SafeInv { t with core := (t.core.detachBuffer slot).2 } := by
  unfold BufferQueueCore.detachBuffer
  split
  · exact h
  split
  · exact h
  rename_i s _
  split
  · exact h
  split
  · exact h
  rename_i hrequested
  have htracked := h.tracked.of_moved (.modify s .freed (.freed _ _ _))
  exact h.modify htracked (.of_free rfl (h.not_pending_of_requested (by simpa using hrequested)))

theorem safe_queueBuffer {t' : Run} {input : QueueBufferInput}
    (hstep : t.step (.queueBuffer slot input) = some t') : SafeInv t' := by
  cases hcheck : t.core.queueBufferCheck slot input with
  | none => simp [Run.step, BufferQueueCore.queueBuffer, hcheck] at hstep
  | some result =>
    cases result with
    | error status =>
      simp only [Run.step, BufferQueueCore.queueBuffer, hcheck, Option.some.injEq] at hstep
      cases hstep
      exact h
    | ok found =>
      obtain ⟨s, mode⟩ := found
      obtain ⟨hdequeued, hrequested, -⟩ := queueBufferCheck_ok hcheck
      obtain ⟨c', item, hresult, htracked, -, -, habandoned, hoverride, hqueued, -, hother, -⟩ :=
        queueBuffer_spec h.tracked hcheck
      simp only [Run.step, hresult, hcheck, Option.some.injEq] at hstep
      cases hstep
      have hinv : SafeInv { t with core := c' } := by
        refine h.of_slots htracked habandoned hoverride fun s' => ?_
        have hslot := h.slots s'
        by_cases hs : s' = s
        · rw [hs] at hslot ⊢
          refine Or.inr ⟨fun hd => ?_, fun ha hmem => ?_, fun _ hd => ?_, fun hne hle => ?_,
            fun _ _ => ?_⟩
          · rw [hqueued] at hd
            cases hd
          · exact absurd hmem (h.not_pending_of_requested hrequested ha)
          · rw [hqueued] at hd
            cases hd
          · have := hslot.beyond hne hle
            rw [hdequeued] at this
            cases this
          · rw [hqueued]; simp
        · rcases hother s' hs with heq | ⟨hq, heq⟩
          · exact Or.inl heq
          · refine Or.inr ?_
            rw [heq]; exact .of_free rfl (hslot.not_pending (by rw [hq]; simp))
      exact ⟨hinv.tracked, hinv.nodup, hinv.override, hinv.slots⟩

theorem safe_cancelBuffer (hc : NotPending t slot) (fence : Fence) :
    SafeInv { t with core := t.core.cancelBuffer slot fence } := by
  have htracked := h.tracked.of_moved (cancelBuffer_moved t.core slot fence)
  unfold BufferQueueCore.cancelBuffer at *
  split
  · exact h
  rename_i habandoned
  split
  · exact h
  rename_i s hs
  split
  · exact h
  · next hstate =>
    simp only [habandoned, hs, hstate, if_false, Bool.false_eq_true] at htracked
    exact h.modify htracked (.of_free rfl fun _ => not_mem_pendingSlots hc hs)

theorem safe_connect (api : Option NativeWindowApi) (byApp : Bool) :
    SafeInv { t with core := (t.core.connect api byApp).2 } := by
  have htracked := h.tracked.of_moved (connect_moved t.core api byApp)
  have hsame : (t.core.connect api byApp).2.slots = t.core.slots ∧
      (t.core.connect api byApp).2.isAbandoned = t.core.isAbandoned ∧
      (t.core.connect api byApp).2.overrideMaxBufferCount = t.core.overrideMaxBufferCount := by
    unfold BufferQueueCore.connect
    split
    · exact ⟨rfl, rfl, rfl⟩
    · split
      · exact ⟨rfl, rfl, rfl⟩
      · split
        · exact ⟨rfl, rfl, rfl⟩
        · cases api <;> exact ⟨rfl, rfl, rfl⟩
  exact h.of_slots htracked hsame.2.1 hsame.2.2 fun s => Or.inl (congrFun hsame.1 s)

theorem safe_disconnect {api : Option NativeWindowApi} (hc : Careful t (.disconnect api)) :
    SafeInv { t with core := (t.core.disconnect api).2 } := by
  unfold BufferQueueCore.disconnect
  split
  · exact h
  rename_i habandoned
  split
  · exact h
  rename_i api
  split
  · next hconnected =>
    have hpending : t.pending = [] := hc (by simpa using habandoned) rfl hconnected
    have htracked : Tracked { ({ t.core with queue := [] }).freeAllBuffers with
        connectedApi := none } := .cleared rfl fun _ => ⟨rfl, rfl⟩
    refine ⟨htracked, h.nodup, h.override, fun s => .of_free rfl fun _ => ?_⟩
    simp [Run.pendingSlots, hpending]
  · exact h

theorem safe_setPreallocatedBuffer {buffer : Option NvGraphicBuffer}
    (hc : Careful t (.setPreallocatedBuffer slot buffer)) :
    SafeInv { t with core := (t.core.setPreallocatedBuffer slot buffer).2 } := by
  obtain ⟨hnot, hbeyond⟩ := hc
  have htracked := h.tracked.of_moved (setPreallocatedBuffer_moved t.core slot buffer)
  unfold BufferQueueCore.setPreallocatedBuffer at *
  split
  · exact h
  rename_i s hs
  rw [hs] at htracked
  have hmem := not_mem_pendingSlots hnot hs
  cases buffer with
  | none =>
    refine h.of_slots htracked rfl rfl fun s' => ?_
    by_cases hs' : s' = s
    · refine Or.inr ?_
      dsimp only
      rw [hs', modify_slots_self]
      exact .of_free rfl fun _ => hmem
    · refine Or.inl ?_
      dsimp only
      rw [modify_slots_ne _ _ hs']
  | some b =>
    refine ⟨htracked, h.nodup, Int.natCast_nonneg _, fun s' => ?_⟩
    dsimp only
    by_cases hs' : s' = s
    · rw [hs', modify_slots_self]; exact .of_free rfl fun _ => hmem
    rw [modify_slots_ne _ _ hs']
    -- the count that is set: the slot itself, and those that were preallocated
    have hcount : ∀ f : BufferSlot → BufferSlot, (∀ x, (f x).isPreallocated = true) →
        (BufferQueueCore.modify { t.core with allocated := t.core.allocated + 1 } s
          f).getPreallocatedBufferCount =
        (List.finRange 64).countP fun i => decide (i = s) || (t.core.slots i).isPreallocated := by
      intro f hf
      unfold BufferQueueCore.getPreallocatedBufferCount
      apply List.countP_congr
      intro i _
      by_cases hi : i = s
      · rw [hi, modify_slots_self, hf]
        simp
      · rw [modify_slots_ne _ _ hi]; simp [hi]
    rw [hcount _ fun _ => rfl]
    have hpos : 0 < (List.finRange 64).countP
        fun i => decide (i = s) || (t.core.slots i).isPreallocated := by
      rw [List.countP_pos_iff]; exact ⟨s, List.mem_finRange s, by simp⟩
    have hslot := h.slots s'
    refine ⟨hslot.buffers, hslot.waiting, hslot.missing, fun _ hle => ?_, fun hzero => ?_⟩
    · exact hbeyond s hs rfl s' hs' hle
    · omega

theorem safe_acquireBuffer {t' : Run} {expected : Int} (hc : Careful t (.acquireBuffer expected))
    (hstep : t.step (.acquireBuffer expected) = some t') : SafeInv t' := by
  obtain ⟨c₁, hdropped, -, hresult⟩ := acquireBuffer_spec h.tracked expected
  have hslots : ∀ s, SlotSafe t.core.isAbandoned t.pendingSlots t.core.overrideMaxBufferCount s
      (c₁.slots s) := by
    intro s
    have hslot := h.slots s
    rcases hdropped.slot s with heq | ⟨hq, heq⟩
    · rw [heq]
      exact hslot
    · rw [heq]; exact .of_free rfl (hslot.not_pending (by rw [hq]; simp))
  simp only [Run.step, Option.some.injEq] at hstep
  cases hstep
  have hinv : SafeInv { t with core := (t.core.acquireBuffer expected).2.2 } := by
    rcases hresult with heq | ⟨front, rest, item, hfront, hq, -, heq⟩
    · rw [congrArg Prod.snd heq]
      exact h.of_slots hdropped.tracked hdropped.isAbandoned hdropped.override
        fun s => Or.inr (hslots s)
    · rw [congrArg Prod.snd heq]
      have hfields : ∀ f, (popFront c₁ front rest f).isAbandoned = c₁.isAbandoned ∧
          (popFront c₁ front rest f).overrideMaxBufferCount = c₁.overrideMaxBufferCount := by
        intro f
        unfold popFront
        split <;> exact ⟨rfl, rfl⟩
      refine h.of_slots (hdropped.tracked.popFront hq _ fun _ => ⟨rfl, by simp⟩)
        ((hfields _).1.trans hdropped.isAbandoned) ((hfields _).2.trans hdropped.override)
        fun s => Or.inr ?_
      by_cases hs : s = front.slot
      · rw [hs]
        dsimp only
        rw [popFront_slots_self]
        split
        · next ht =>
          have hqueued := hdropped.tracked.queued_of_mem (by rw [hq]; simp) ht
          have hslot := hslots front.slot
          refine ⟨fun hd => ?_, fun ha hmem => ?_, fun _ hd => ?_, fun hne hle => ?_,
            fun hzero hle => ?_⟩
          · cases hd
          · exact absurd hmem (hslot.not_pending (by rw [hqueued]; simp) ha)
          · cases hd
          · have := hslot.beyond hne hle
            rw [hqueued] at this
            cases this
          · have hlt := hc hzero front (by rw [← hfront, hq]; rfl) (by rw [← hfront]; exact ht)
            omega
        · exact hslots front.slot
      · dsimp only
        rw [popFront_slots_ne _ _ _ hs]; exact hslots s
  exact ⟨hinv.tracked, hinv.nodup, hinv.override, hinv.slots⟩

theorem safe_releaseBuffer (slot : Int) (frameNumber : Nat) :
    SafeInv { t with core := (t.core.releaseBuffer slot frameNumber).2 } := by
  unfold BufferQueueCore.releaseBuffer
  split
  · exact h
  rename_i s _
  have hslot := h.slots s
  split
  · exact h
  split
  · exact h
  split
  · next hacquired =>
    have htracked := h.tracked.of_moved (.modify s (fun s => { s with bufferState := .free })
      (Or.inr ⟨Or.inl rfl, Or.inr (Or.inr ⟨rfl, by rw [hacquired]; simp⟩)⟩))
    exact h.modify htracked (.of_free rfl (hslot.not_pending (by rw [hacquired]; simp)))
  · split
    · have htracked := h.tracked.of_moved
        (.modify s (fun s => { s with needsCleanupOnRelease := false }) (Or.inl ⟨rfl, rfl, rfl⟩))
      exact h.modify htracked
        ⟨hslot.buffers, hslot.waiting, hslot.missing, hslot.beyond, hslot.default⟩
    · exact h

theorem safe_consumerConnect (byApp : Bool) :
    SafeInv { t with core := (t.core.consumerConnect byApp).2 } := by
  have htracked := h.tracked.of_moved (consumerConnect_moved t.core byApp)
  unfold BufferQueueCore.consumerConnect at *
  split
  · exact h
  · next habandoned =>
    rw [if_neg habandoned] at htracked; exact h.of_slots htracked rfl rfl fun _ => Or.inl rfl

theorem safe_consumerDisconnect : SafeInv { t with core := t.core.consumerDisconnect.2 } := by
  unfold BufferQueueCore.consumerDisconnect
  split
  · exact h
  · have htracked : Tracked ({ t.core with
        isAbandoned := true, consumerListener := false, queue := [] }).freeAllBuffers :=
      .cleared rfl fun _ => ⟨rfl, rfl⟩
    exact ⟨htracked, h.nodup, h.override, fun s => .of_free rfl fun ha => nomatch ha⟩

theorem safeInv_step {t' : Run} {c : Call} (hv : Valid t c) (hc : Careful t c)
    (hstep : t.step c = some t') : SafeInv t' := by
  cases c with
  | requestBuffer slot =>
    cases hstep
    exact safe_requestBuffer h hc
  | setBufferCount bufferCount =>
    cases hstep
    exact safe_setBufferCount h hc
  | dequeueBuffer args => exact safe_dequeueBuffer h hstep
  | installBuffer p =>
    cases hstep
    exact (safe_installBuffer h hv).1
  | detachBuffer slot =>
    cases hstep
    exact safe_detachBuffer h slot
  | queueBuffer slot input => exact safe_queueBuffer h hstep
  | cancelBuffer slot fence =>
    cases hstep
    exact safe_cancelBuffer h hc fence
  | connect api byApp =>
    cases hstep
    exact safe_connect h api byApp
  | disconnect api =>
    cases hstep
    exact safe_disconnect h hc
  | setPreallocatedBuffer slot buffer =>
    cases hstep
    exact safe_setPreallocatedBuffer h hc
  | acquireBuffer expected => exact safe_acquireBuffer h hc hstep
  | releaseBuffer slot frameNumber =>
    cases hstep
    exact safe_releaseBuffer h slot frameNumber
  | consumerConnect byApp =>
    cases hstep
    exact safe_consumerConnect h byApp
  | consumerDisconnect =>
    cases hstep
    exact safe_consumerDisconnect h

end

theorem safeInv_of_reachable (h : Reachable (fun t c => Valid t c ∧ Careful t c) t) :
    SafeInv t := by
  induction h with
  | initial => exact safeInv_initial
  | step _ hc hstep ih => exact safeInv_step ih hc.1 hc.2 hstep

theorem SafeInv.callSafe (h : SafeInv t) {c : Call} (hv : Valid t c) : CallSafe t c := by
  cases c with
  | dequeueBuffer args =>
    refine ⟨?_, ?_⟩
    · simp only [Run.step]
      split <;> rfl
    · intro slot fence n r hresult
      obtain ⟨m, c₁, -, -, hcase⟩ := dequeueBuffer_spec t.core args
      rcases hcase with ⟨-, -, hnot⟩ | ⟨s, -, -, -, ⟨p, fence', -, heq⟩ | ⟨fence', n', r', -, heq⟩⟩
      · exact absurd hresult (hnot slot fence n r)
      · rw [heq] at hresult
        cases hresult
      · rw [heq] at hresult ⊢
        cases hresult
        rw [modify_slots_self]
  | installBuffer p => exact ⟨rfl, (safe_installBuffer h hv).2⟩
  | queueBuffer slot input =>
    refine ⟨?_, trivial⟩
    cases hcheck : t.core.queueBufferCheck slot input with
    | none =>
      obtain ⟨s, hd, hr, hnone⟩ := queueBufferCheck_none hcheck
      have := (h.slots s).buffers hd hr
      rw [hnone] at this; cases this
    | some result =>
      cases result with
      | error status => simp [Run.step, BufferQueueCore.queueBuffer, hcheck]
      | ok found =>
        obtain ⟨c', item, hresult, -⟩ := queueBuffer_spec h.tracked hcheck
        simp [Run.step, hresult, hcheck]
  | _ => exact ⟨rfl, trivial⟩

/-- In every run whose sections meet the condition, the state is safe, and every section that comes
    next runs without a crash and returns a dequeued slot. -/
theorem bufferQueue_safe_of_run {t : Run} (h : Reachable (fun t c => Valid t c ∧ Careful t c) t) :
    Safe t.core ∧ ∀ c, Valid t c → CallSafe t c := by
  have hi := safeInv_of_reachable h
  exact ⟨hi.safe, fun c hv => hi.callSafe hv⟩

/-! ## Runs on given sections -/

/-- A check that is enough for `Careful`. -/
def carefulCheck (t : Run) : Call → Bool
  | .requestBuffer _ | .cancelBuffer _ _ | .disconnect _ => t.pending.isEmpty
  | .setPreallocatedBuffer _ _ | .setBufferCount _ => false
  | .acquireBuffer expected =>
      (t.core.acquireFront expected).queue.head?.all fun front =>
        decide ((front.slot.val : Int) < defaultMaxBufferCount)
  | _ => true

theorem careful_of_check {c : Call} (h : carefulCheck t c = true) : Careful t c := by
  have hnone : t.pending.isEmpty = true → ∀ slot, NotPending t slot := by
    intro hempty slot s _ p hp
    rw [List.isEmpty_iff.mp hempty] at hp; cases hp
  cases c with
  | requestBuffer slot => exact hnone h slot
  | cancelBuffer slot fence => exact hnone h slot
  | disconnect api => exact fun _ _ _ => List.isEmpty_iff.mp h
  | setPreallocatedBuffer slot buffer => cases h
  | setBufferCount bufferCount => cases h
  | acquireBuffer expected =>
    intro _ front hfront _
    have hhead : (t.core.acquireFront expected).queue.head? = some front := hfront
    simp only [carefulCheck, hhead, Option.all_some, decide_eq_true_eq] at h; exact h
  | _ => trivial

/-- A frame goes through the queue and its slot is taken again. -/
theorem bufferQueue_safe_of_run_reuse :
    ∃ t, Reachable (fun t c => Valid t c ∧ Careful t c) t ∧ t.acquired = 1 ∧
      Safe t.core ∧ ∀ c, Valid t c → CallSafe t c := by
  have hrun : (Run.initial.run (fun t c => decide (Valid t c) && carefulCheck t c)
      ([.consumerConnect false, .connect (some .egl) false] ++ fillSlot 0 (by decide) false ++
        [.acquireBuffer 0, .releaseBuffer 0 1, .dequeueBuffer defaultArgs])).map
      (fun t => t.acquired) = some 1 := by
    decide +kernel
  obtain ⟨t, ht, hacquired⟩ := Option.map_eq_some_iff.mp hrun
  have hreach : Reachable (fun t c => Valid t c ∧ Careful t c) t := by
    refine reachable_of_run ?_ _ .initial ht
    intro t c hc
    obtain ⟨hvalid, hcareful⟩ := Bool.and_eq_true_iff.mp hc
    exact ⟨of_decide_eq_true hvalid, careful_of_check hcareful⟩
  exact ⟨t, hreach, hacquired, bufferQueue_safe_of_run hreach⟩

/-- Slot 0 is requested and queued while `DequeueBuffer` makes its buffer: `QueueBuffer` reads through
    a null pointer. -/
theorem not_bufferQueue_safe :
    ¬ ∀ t, Reachable Valid t → Safe t.core ∧ ∀ c, Valid t c → CallSafe t c := by
  intro hall
  have hrun : (Run.initial.run (fun t c => decide (Valid t c))
      [.consumerConnect false, .connect (some .egl) false, .dequeueBuffer defaultArgs,
        .requestBuffer 0]).map
      (fun t => (t.step (.queueBuffer 0 (plainInput false))).isSome) = some false := by
    decide +kernel
  obtain ⟨t, ht, hcrash⟩ := Option.map_eq_some_iff.mp hrun
  have hreach : Reachable Valid t :=
    reachable_of_run (fun _ _ hc => of_decide_eq_true hc) _ .initial ht
  have hsafe := ((hall t hreach).2 (.queueBuffer 0 (plainInput false)) trivial).1
  rw [hcrash] at hsafe
  cases hsafe

end Suyu.Nvnflinger
