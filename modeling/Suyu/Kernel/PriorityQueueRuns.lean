/-
  KPriorityQueue over whole runs: a faithful ready queue.

  1. **Spec** — `InSlot f i`: the lists a member with fields `f` belongs to.  On the abstract side
     `Lists` evolves by `place` (into all its slots), `withdraw` (out of all lists) and `relocate`
     (only where its slots change).
  2. **Runs** — `ReadyStep`: the mutators as the scheduler calls them, AFTER the member's field was
     written and with the previous value as argument.  Program and specification step together.
  3. **The crux** — the slots of a member lie on different cores, so the lemmas about several slots
     apply; what is removed is exactly what was there because the old fields are reassembled from
     the previous value and the unchanged ones.
-/
import Suyu.Kernel.PriorityQueue
import Mathlib.Data.Finset.Basic
import Mathlib.Logic.Relation

open Lib.Linked

namespace Suyu.Kernel

namespace KPriorityQueue

/-! ## The cores of an affinity mask -/

section Cores

theorem getLsbD_clearAffinityBit {a : BitVec 64} {core c : Nat} (hc : core < 64) :
    (clearAffinityBit a core).getLsbD c = (a.getLsbD c && decide (c ≠ core)) := by
  rw [clearAffinityBit, BitVec.getLsbD_and, BitVec.getLsbD_not, BitVec.getLsbD_shiftLeft,
    BitVec.getLsbD_one]
  by_cases hlt : c < 64
  · rcases Nat.lt_trichotomy c core with h | h | h
    · simp [hlt, h, Nat.ne_of_lt h]
    · subst h
      simp [hlt]
    · have h1 : ¬ c < core := by omega
      have h2 : c - core ≠ 0 := by omega
      have h3 : c ≠ core := by omega
      simp [hlt, h1, h2, h3]
  · rw [BitVec.getLsbD_of_ge a c (by omega)]; simp

theorem ctz_lt {a : BitVec 64} (ha : a ≠ 0) : a.ctz.toNat < 64 := by
  have h := BitVec.ctz_lt_iff_ne_zero.2 ha
  rw [BitVec.lt_def] at h
  exact h

theorem nextCores_eq (fuel lo : Nat) (a : BitVec 64) (hfuel : 64 ≤ lo + fuel)
    (hlo : ∀ c, c < lo → a.getLsbD c = false) :
    nextCores fuel a = (List.range' lo (64 - lo)).filter (a.getLsbD ·) := by
  induction fuel generalizing lo a with
  | zero =>
    have h : 64 - lo = 0 := by omega
    rw [h]; rfl
  | succ fuel ih =>
    rw [nextCores]
    split
    · rename_i ha
      rw [ha]
      simp
    · rename_i ha
      have hlt := ctz_lt ha
      have hbit := BitVec.getLsbD_true_ctz_of_ne_zero ha
      have hge : lo ≤ a.ctz.toNat := by
        by_contra h
        rw [hlo _ (by omega)] at hbit; cases hbit
      have hlen : 64 - lo = (a.ctz.toNat - lo) + ((64 - (a.ctz.toNat + 1)) + 1) := by omega
      have hsplit : List.range' lo (64 - lo) = List.range' lo (a.ctz.toNat - lo) ++
          a.ctz.toNat :: List.range' (a.ctz.toNat + 1) (64 - (a.ctz.toNat + 1)) := by
        rw [hlen, ← List.range'_append_1, List.range'_succ, Nat.add_sub_of_le hge]
      have hbefore : (List.range' lo (a.ctz.toNat - lo)).filter (a.getLsbD ·) = [] := by
        rw [List.filter_eq_nil_iff]
        intro c hc
        rw [List.mem_range'_1] at hc
        rw [BitVec.getLsbD_false_of_lt_ctz (by omega)]; simp
      rw [hsplit, List.filter_append, hbefore, List.nil_append, List.filter_cons_of_pos hbit]
      simp only [getNextCore]
      rw [ih (a.ctz.toNat + 1) _ (by omega) ?_]
      · congr 1
        refine List.filter_congr fun c hc => ?_
        rw [List.mem_range'_1] at hc
        have hne : c ≠ a.ctz.toNat := by omega
        rw [getLsbD_clearAffinityBit hlt]
        simp [hne]
      · intro c hc
        rw [getLsbD_clearAffinityBit hlt]
        rcases Nat.lt_succ_iff_lt_or_eq.1 hc with h | h
        · rw [BitVec.getLsbD_false_of_lt_ctz h]
          rfl
        · simp [h]

theorem coresOf_eq (a : BitVec 64) : coresOf a = (List.range 64).filter (a.getLsbD ·) := by
  rw [List.range_eq_range']
  exact nextCores_eq 64 0 a (by omega) fun c hc => absurd hc (Nat.not_lt_zero c)

theorem mem_coresOf {a : BitVec 64} {c : Nat} : c ∈ coresOf a ↔ a.getLsbD c = true := by
  rw [coresOf_eq, List.mem_filter, List.mem_range]
  refine ⟨And.right, fun h => ⟨?_, h⟩⟩
  by_contra hc
  rw [BitVec.getLsbD_of_ge a c (by omega)] at h
  cases h

theorem nodup_coresOf (a : BitVec 64) : (coresOf a).Nodup := by
  rw [coresOf_eq]; exact List.nodup_range.filter _

theorem getAffinity_eq {a : BitVec 64} {c : Nat} (hc : c < 64) : getAffinity a c = a.getLsbD c := by
  have hbit : ∀ j, (a &&& 1#64 <<< c).getLsbD j = (a.getLsbD j && decide (j = c)) := by
    intro j
    rw [← BitVec.twoPow_eq, BitVec.getLsbD_and, BitVec.getLsbD_twoPow]
    by_cases h : c = j
    · subst h
      simp [hc]
    · simp [h, Ne.symm h]
  rw [getAffinity]
  cases h : a.getLsbD c with
  | true =>
    rw [bne_iff_ne]
    intro h0
    have := hbit c
    rw [h0, h] at this; simp at this
  | false =>
    rw [bne_eq_false_iff_eq]
    apply BitVec.eq_of_getLsbD_eq
    intro j _
    rw [hbit j]
    by_cases hj : j = c
    · subst hj
      simp [h]
    · simp [hj]

end Cores

end KPriorityQueue

/-! ## The slots of a member -/

namespace MemberFields

/-- A thread of the scheduler: not a dummy, and its active core is `-1` or in its affinity mask. -/
structure Valid (f : MemberFields) : Prop where
  priority : f.priority ≤ LowestPriority + 1
  affinity : ∀ c, f.affinityMask.getLsbD c = true → c < NumCores
  activeCore : f.activeCore = -1 ∨ ∃ c : Nat, f.activeCore = c ∧ f.affinityMask.getLsbD c = true
  notDummy : f.isDummyThread = false

/-- The lists the member belongs to: scheduled on its active core, suggested on the others. -/
def InSlot (f : MemberFields) (i : Slot) : Prop :=
  i.priority = f.priority ∧ i.priority ≤ LowestPriority ∧ f.affinityMask.getLsbD i.core = true ∧
    (i.kind = .scheduled ↔ f.activeCore = i.core)

instance (f : MemberFields) (i : Slot) : Decidable (f.InSlot i) :=
  inferInstanceAs (Decidable (_ ∧ _ ∧ _ ∧ _))

theorem InSlot.eq {f : MemberFields} {i j : Slot} (hi : f.InSlot i) (hj : f.InSlot j)
    (hc : i.core = j.core) : i = j := by
  obtain ⟨hp, -, -, hk⟩ := hi
  obtain ⟨hp', -, -, hk'⟩ := hj
  rw [hc] at hk
  have hkind : i.kind = .scheduled ↔ j.kind = .scheduled := hk.trans hk'.symm
  refine KPriorityQueue.Slot.eq_of ?_ (hp.trans hp'.symm) hc
  cases hik : i.kind <;> cases hjk : j.kind <;> simp_all

end MemberFields

namespace KPriorityQueue

variable {M : Type} [DecidableEq M]

section Slots

variable {f : MemberFields} {i : Slot} {p : Nat}

theorem mem_suggestedSlots (hf : f.Valid) (hp : p ≤ LowestPriority) :
    i ∈ suggestedSlots p f ↔ { f with priority := p }.InSlot i ∧ i.kind = .suggested := by
  have hmem : ∀ core, core ∈ coresOf (if f.activeCore ≥ 0 then
      clearAffinityBit f.affinityMask f.activeCore.toNat else f.affinityMask) ↔
      f.affinityMask.getLsbD core = true ∧ f.activeCore ≠ core := by
    intro core
    rw [mem_coresOf]
    rcases hf.activeCore with h | ⟨c, h, hc⟩
    · rw [h, if_neg (by decide)]
      exact ⟨fun hb => ⟨hb, by omega⟩, And.left⟩
    · have hlt := hf.affinity c hc
      have hc64 : c < 64 := by unfold NumCores at hlt; omega
      rw [h, if_pos (by omega), Int.toNat_natCast, getLsbD_clearAffinityBit hc64]
      rw [Bool.and_eq_true, decide_eq_true_eq]; exact and_congr_right fun _ => by omega
  simp only [suggestedSlots, List.mem_map, hmem, MemberFields.InSlot]
  constructor
  · rintro ⟨core, ⟨hb, hne⟩, rfl⟩
    exact ⟨⟨rfl, hp, hb, by simp [hne]⟩, rfl⟩
  · rintro ⟨⟨h1, -, h3, h4⟩, h5⟩
    refine ⟨i.core, ⟨h3, fun h => ?_⟩, Slot.eq_of h5.symm h1.symm rfl⟩
    rw [h4.2 h] at h5; cases h5

theorem nodup_suggestedSlots : ((suggestedSlots p f).map Slot.core).Nodup := by
  unfold suggestedSlots
  rw [List.map_map]
  exact (List.map_id _).symm ▸ nodup_coresOf _

theorem priority_of_mem_suggestedSlots (hi : i ∈ suggestedSlots p f) : i.priority = p := by
  unfold suggestedSlots at hi
  obtain ⟨core, -, rfl⟩ := List.mem_map.1 hi
  rfl

/-- The scheduled slot, if there is one, and the suggested slots. -/
def slotsAt (p : Nat) (f : MemberFields) : List Slot :=
  (if f.activeCore ≥ 0 then [⟨.scheduled, p, f.activeCore.toNat⟩] else []) ++ suggestedSlots p f

theorem inSlot_scheduled_iff (hf : f.Valid) (hp : p ≤ LowestPriority) :
    ({ f with priority := p }.InSlot i ∧ i.kind = .scheduled) ↔
      f.activeCore ≥ 0 ∧ i = ⟨.scheduled, p, f.activeCore.toNat⟩ := by
  constructor
  · rintro ⟨⟨h1, -, -, h4⟩, h5⟩
    have hc : f.activeCore = i.core := h4.1 h5
    refine ⟨by omega, Slot.eq_of h5 h1 ?_⟩
    rw [hc]
    rfl
  · rintro ⟨hge, rfl⟩
    obtain ⟨c, hc, hb⟩ := hf.activeCore.resolve_left (by omega)
    refine ⟨⟨rfl, hp, ?_, ?_⟩, rfl⟩
    · show f.affinityMask.getLsbD f.activeCore.toNat = true
      rw [hc]
      exact hb
    · refine iff_of_true rfl ?_
      show f.activeCore = (f.activeCore.toNat : Int)
      omega

theorem mem_slotsAt (hf : f.Valid) (hp : p ≤ LowestPriority) :
    i ∈ slotsAt p f ↔ { f with priority := p }.InSlot i := by
  have hs := inSlot_scheduled_iff (i := i) hf hp
  have hg := mem_suggestedSlots (i := i) hf hp
  rw [slotsAt, List.mem_append, hg]
  have hsched : i ∈ (if f.activeCore ≥ 0 then [(⟨.scheduled, p, f.activeCore.toNat⟩ : Slot)] else [])
      ↔ f.activeCore ≥ 0 ∧ i = ⟨.scheduled, p, f.activeCore.toNat⟩ := by
    split
    · rename_i h
      simp [h]
    · rename_i h; simp [h]
  rw [hsched, ← hs, ← and_or_left]
  cases hk : i.kind <;> simp

theorem nodup_slotsAt (hf : f.Valid) (hp : p ≤ LowestPriority) :
    ((slotsAt p f).map Slot.core).Nodup := by
  rw [slotsAt, List.map_append, List.nodup_append']
  refine ⟨by split <;> simp, nodup_suggestedSlots, ?_⟩
  intro c hc hc'
  obtain ⟨i, hi, rfl⟩ := List.mem_map.1 hc
  obtain ⟨j, hj, hcore⟩ := List.mem_map.1 hc'
  have hi' : i ∈ slotsAt p f := List.mem_append_left _ hi
  have hj' : j ∈ slotsAt p f := List.mem_append_right _ hj
  rw [mem_slotsAt hf hp] at hi' hj'
  obtain rfl := hj'.eq hi' hcore
  have hkind := ((mem_suggestedSlots hf hp).1 hj).2
  split at hi
  · rw [List.mem_singleton] at hi
    rw [hi] at hkind
    cases hkind
  · cases hi

theorem pushBackAt_eq (s : KPriorityQueue M) (m : M) :
    s.pushBackAt p f m = (slotsAt p f).foldl (fun s i => Impl.pushBack s i m) s := by
  rw [slotsAt, List.foldl_append, pushBackAt]
  split <;> rfl

theorem removeAt_eq (s : KPriorityQueue M) (m : M) :
    s.removeAt p f m = (slotsAt p f).foldl (fun s i => Impl.remove s i m) s := by
  rw [slotsAt, List.foldl_append, removeAt]
  split <;> rfl

theorem mem_slotsByCore (hf : f.Valid) (hp : f.priority ≤ LowestPriority) :
    i ∈ slotsByCore f.priority f.activeCore f.affinityMask ↔ f.InSlot i := by
  simp only [slotsByCore, List.mem_map, List.mem_filter, List.mem_range]
  constructor
  · rintro ⟨c, ⟨hc, hb⟩, rfl⟩
    rw [getAffinity_eq (by unfold NumCores at hc; omega)] at hb
    refine ⟨rfl, hp, hb, ?_⟩
    show (if (c : Int) = f.activeCore then QueueKind.scheduled else .suggested) = .scheduled ↔
      f.activeCore = (c : Int)
    split
    · rename_i h
      exact iff_of_true rfl h.symm
    · rename_i h; exact iff_of_false nofun fun h' => h h'.symm
  · rintro ⟨h1, -, h3, h4⟩
    have hlt := hf.affinity _ h3
    refine ⟨i.core, ⟨hlt, ?_⟩, Slot.eq_of ?_ h1.symm rfl⟩
    · rw [getAffinity_eq (by unfold NumCores at hlt; omega)]
      exact h3
    · show (if (i.core : Int) = f.activeCore then QueueKind.scheduled else .suggested) = i.kind
      split
      · rename_i h
        exact (h4.2 h.symm).symm
      · rename_i h
        cases hk : i.kind with
        | scheduled => exact absurd (h4.1 hk).symm h
        | suggested => rfl

theorem nodup_slotsByCore (p : Nat) (core : Int) (mask : BitVec 64) :
    ((slotsByCore p core mask).map Slot.core).Nodup := by
  unfold slotsByCore
  rw [List.map_map]
  exact (List.map_id _).symm ▸ List.nodup_range.filter _

theorem priority_of_mem_slotsByCore {core : Int} {mask : BitVec 64}
    (hi : i ∈ slotsByCore p core mask) : i.priority = p := by
  unfold slotsByCore at hi
  obtain ⟨c, -, rfl⟩ := List.mem_map.1 hi
  rfl

end Slots

/-! ## The specification of the mutators -/

namespace Lists

/-- Into every list it belongs to; `toFront` concerns the scheduled one only. -/
def place (L : Lists M) (toFront : Bool) (f : MemberFields) (m : M) : Lists M := fun i =>
  if f.InSlot i then if toFront = true ∧ i.kind = .scheduled then m :: L i else L i ++ [m] else L i

/-- Out of every list. -/
def withdraw (L : Lists M) (m : M) : Lists M := fun i => (L i).erase m

/-- From the slots of `f` to those of `f'`, staying in place where they agree. -/
def relocate (L : Lists M) (toFront : Bool) (f f' : MemberFields) (m : M) : Lists M := fun i =>
  if f.InSlot i then if f'.InSlot i then L i else (L i).erase m else L.place toFront f' m i

/-- To an end of its scheduled list. -/
def moveScheduled (L : Lists M) (toFront : Bool) (f : MemberFields) (m : M) : Lists M := fun i =>
  if f.InSlot i ∧ i.kind = .scheduled then
    if toFront then m :: (L i).erase m else (L i).erase m ++ [m]
  else L i

end Lists

section Refine

variable {s : KPriorityQueue M} {L : Lists M} {f f' : MemberFields} {m : M} {is : List Slot}

omit [DecidableEq M] in
theorem place_of_gt (hp : LowestPriority < f.priority) (toFront : Bool) :
    L.place toFront f m = L := by
  funext i
  rw [Lists.place, if_neg]
  rintro ⟨h1, h2, -⟩
  omega

theorem represents_foldl_push (hR : Represents s L) (hfree : ∀ i, m ∉ L i)
    (hprio : ∀ i ∈ is, i.priority = f.priority)
    (hcores : f.priority ≤ LowestPriority → (is.map Slot.core).Nodup)
    (hmem : f.priority ≤ LowestPriority → ∀ i, i ∈ is ↔ f.InSlot i) :
    Represents (is.foldl (fun s i => Impl.pushBack s i m) s) (L.place false f m) := by
  rcases Nat.lt_or_ge LowestPriority f.priority with hp | hp
  · rw [place_of_gt hp, foldl_eq_self]
    · exact hR
    · exact fun s i h => if_pos h
    · intro i hi
      rw [hprio i hi]; exact hp
  · have hp' : ∀ i ∈ is, i.priority ≤ LowestPriority := fun i hi => (hprio i hi).symm ▸ hp
    refine (hR.foldl_pushBack (hcores hp) hp' fun i _ j _ => hfree j).of_eq fun j => ?_
    simp [Lists.place, hmem hp j]

theorem represents_foldl_remove (is : List Slot) (hR : Represents s L) (hm : ∀ i, m ∈ L i ↔ f.InSlot i)
    (hprio : ∀ i ∈ is, i.priority = f.priority)
    (hcores : f.priority ≤ LowestPriority → (is.map Slot.core).Nodup)
    (hmem : f.priority ≤ LowestPriority → ∀ i, i ∈ is ↔ f.InSlot i) :
    Represents (is.foldl (fun s i => Impl.remove s i m) s) (L.withdraw m) := by
  rcases Nat.lt_or_ge LowestPriority f.priority with hp | hp
  · rw [foldl_eq_self]
    · refine hR.of_eq fun j => List.erase_of_not_mem fun h => ?_
      obtain ⟨h1, h2, -⟩ := (hm j).1 h
      omega
    · exact fun s i h => if_pos h
    · intro i hi
      rw [hprio i hi]; exact hp
  · have hp' : ∀ i ∈ is, i.priority ≤ LowestPriority := fun i hi => (hprio i hi).symm ▸ hp
    refine (hR.foldl_remove (hcores hp) hp' fun i hi => (hm i).2 ((hmem hp i).1 hi)).of_eq
      fun j => ?_
    split
    · rfl
    · rename_i hj; exact List.erase_of_not_mem fun h => hj ((hmem hp j).2 ((hm j).1 h))

theorem priority_of_mem_slotsAt {i : Slot} (hi : i ∈ slotsAt f.priority f) :
    i.priority = f.priority := by
  rcases List.mem_append.1 hi with h | h
  · split at h
    · rw [List.mem_singleton.1 h]
    · cases h
  · exact priority_of_mem_suggestedSlots h

theorem represents_pushBackAt (hf : f.Valid) (hR : Represents s L) (hfree : ∀ i, m ∉ L i) :
    Represents (s.pushBackAt f.priority f m) (L.place false f m) := by
  rw [pushBackAt_eq]
  exact represents_foldl_push hR hfree (fun i => priority_of_mem_slotsAt)
    (nodup_slotsAt hf) fun hp i => mem_slotsAt hf hp

theorem represents_removeAt (hf : f.Valid) (hR : Represents s L)
    (hm : ∀ i, m ∈ L i ↔ f.InSlot i) : Represents (s.removeAt f.priority f m) (L.withdraw m) := by
  rw [removeAt_eq]
  exact represents_foldl_remove _ hR hm (fun i => priority_of_mem_slotsAt)
    (nodup_slotsAt hf) fun hp i => mem_slotsAt hf hp

theorem represents_pushFrontAt (hf : f.Valid) (hR : Represents s L) (hfree : ∀ i, m ∉ L i) :
    Represents (s.pushFrontAt f.priority f m) (L.place true f m) := by
  rcases Nat.lt_or_ge LowestPriority f.priority with hp | hp
  · have hself : s.pushFrontAt f.priority f m = s := by
      have h1 : ∀ c, Impl.pushFront s ⟨.scheduled, f.priority, c⟩ m = s := fun c => if_pos hp
      rw [pushFrontAt, h1, ite_self]
      refine foldl_eq_self (fun s i h => if_pos h) fun i hi => ?_
      rw [priority_of_mem_suggestedSlots hi]; exact hp
    rw [place_of_gt hp, hself]
    exact hR
  · have hsug : ∀ i ∈ suggestedSlots f.priority f, i.priority ≤ LowestPriority :=
      fun i hi => (priority_of_mem_suggestedSlots hi).symm ▸ hp
    have hmem : ∀ i, i ∈ suggestedSlots f.priority f ↔ f.InSlot i ∧ i.kind = .suggested :=
      fun i => mem_suggestedSlots hf hp
    have hsch : ∀ i, (f.InSlot i ∧ i.kind = .scheduled) ↔
        f.activeCore ≥ 0 ∧ i = ⟨.scheduled, f.priority, f.activeCore.toNat⟩ :=
      fun i => inSlot_scheduled_iff hf hp
    rw [pushFrontAt]
    split
    · rename_i hge
      have h0 := (hsch ⟨.scheduled, f.priority, f.activeCore.toNat⟩).2 ⟨hge, rfl⟩
      have hR' := hR.pushFront (i := ⟨.scheduled, f.priority, f.activeCore.toNat⟩) hp
        fun j _ => hfree j
      refine (hR'.foldl_pushBack nodup_suggestedSlots hsug ?_).of_eq fun j => ?_
      · intro i hi j hj
        have hne : j ≠ ⟨.scheduled, f.priority, f.activeCore.toNat⟩ := by
          rintro rfl
          have := (((hmem i).1 hi).1.eq h0.1 hj.symm)
          rw [this] at hi; cases ((hmem _).1 hi).2
        rw [Function.update_of_ne hne]
        exact hfree j
      · by_cases hj : j = ⟨.scheduled, f.priority, f.activeCore.toNat⟩
        · subst hj
          simp [Lists.place, h0.1, hmem]
        · have hns : ¬ (f.InSlot j ∧ j.kind = .scheduled) := fun h => hj ((hsch j).1 h).2
          rw [Function.update_of_ne hj]
          simp only [Lists.place, hmem, true_and]
          by_cases hin : f.InSlot j
          · have hk : j.kind ≠ .scheduled := fun h => hns ⟨hin, h⟩
            have hk' : j.kind = .suggested := by cases h : j.kind <;> simp_all
            simp [hin, hk']
          · simp [hin]
    · rename_i hlt
      refine (hR.foldl_pushBack nodup_suggestedSlots hsug fun i _ j _ => hfree j).of_eq fun j => ?_
      have hns : ¬ (f.InSlot j ∧ j.kind = .scheduled) := fun h => hlt ((hsch j).1 h).1
      simp only [Lists.place, hmem, true_and]
      by_cases hin : f.InSlot j
      · have hk : j.kind ≠ .scheduled := fun h => hns ⟨hin, h⟩
        have hk' : j.kind = .suggested := by cases h : j.kind <;> simp_all
        simp [hin, hk']
      · simp [hin]

omit [DecidableEq M] in
theorem FreeOn.update_of_ne {i : Slot} {c : Nat} (h : FreeOn L c m) (hc : i.core ≠ c)
    (l : List M) : FreeOn (Function.update L i l) c m := by
  intro j hj
  have hji : j ≠ i := by
    rintro rfl; exact hc hj
  rw [Function.update_of_ne hji]
  exact h j hj

/-! `ChangeCore` acts on two cores at most.  On either of them the member has one slot before and one
    after, so `relocate` is read off core by core. -/

omit [DecidableEq M] in
theorem MemberFields.InSlot.iff_eq {i j : Slot} (hi : f.InSlot i) (hc : j.core = i.core) :
    f.InSlot j ↔ j = i :=
  ⟨fun hj => hj.eq hi hc, fun h => h ▸ hi⟩

theorem relocate_on_core {i i' j : Slot} (toFront : Bool) (hi : f.InSlot i) (hi' : f'.InSlot i')
    (hii : i.core = i'.core) (hne : i ≠ i') (hj : j.core = i.core) :
    L.relocate toFront f f' m j =
      if j = i then (L j).erase m
      else if j = i' then
        if toFront = true ∧ j.kind = .scheduled then m :: L j else L j ++ [m]
      else L j := by
  have h1 := MemberFields.InSlot.iff_eq hi hj
  have h2 := MemberFields.InSlot.iff_eq hi' (hj.trans hii)
  rw [Lists.relocate]
  by_cases hji : j = i
  · subst hji
    have : ¬ f'.InSlot j := fun h => hne (h2.1 h)
    simp [hi, this]
  · have h3 : ¬ f.InSlot j := fun h => hji (h1.1 h)
    simp [h3, if_neg hji, Lists.place, h2]

theorem relocate_other {j : Slot} (toFront : Bool) (hsame : f' = { f with activeCore := f'.activeCore })
    (h : f.activeCore ≠ j.core) (h' : f'.activeCore ≠ j.core) :
    L.relocate toFront f f' m j = L j := by
  have hiff : f.InSlot j ↔ f'.InSlot j := by
    rw [hsame]; simp [MemberFields.InSlot, h, h']
  rw [Lists.relocate, Lists.place]
  by_cases hin : f.InSlot j
  · rw [if_pos hin, if_pos (hiff.1 hin)]
  · rw [if_neg hin, if_neg fun h => hin (hiff.2 h)]

omit [DecidableEq M] in
theorem inSlot_of_core {c : Nat} (hp : f.priority ≤ LowestPriority)
    (hbit : f.affinityMask.getLsbD c = true) :
    (f.activeCore = c → f.InSlot ⟨.scheduled, f.priority, c⟩) ∧
      (f.activeCore ≠ c → f.InSlot ⟨.suggested, f.priority, c⟩) := by
  refine ⟨fun h => ⟨rfl, hp, hbit, iff_of_true rfl h⟩, fun h => ⟨rfl, hp, hbit, ?_⟩⟩
  exact iff_of_false nofun h

theorem represents_changeCore {fields : M → MemberFields} (hf : f.Valid) (hf' : f'.Valid)
    (hfields : fields m = f') (hsame : f' = { f with activeCore := f'.activeCore })
    (hR : Represents s L) (hm : ∀ i, m ∈ L i ↔ f.InSlot i) (toFront : Bool) :
    Represents (s.changeCore fields f.activeCore m toFront) (L.relocate toFront f f' m) := by
  have hprio : f'.priority = f.priority := by rw [hsame]
  have hmask : f'.affinityMask = f.affinityMask := by rw [hsame]
  have hdummy : (fields m).isDummyThread = false := by rw [hfields]; exact hf'.notDummy
  rw [changeCore, if_neg (by rw [hdummy]; decide)]
  simp only [hfields, hprio]
  by_cases hcore : f.activeCore = f'.activeCore
  · rw [if_neg fun h => h hcore]
    refine hR.of_eq fun j => ?_
    have heq : f' = f := by rw [hsame, ← hcore]
    rw [Lists.relocate, Lists.place, heq]
    split <;> rfl
  rw [if_pos hcore]
  rcases Nat.lt_or_ge LowestPriority f.priority with hp | hp
  · have hrem : ∀ (s : KPriorityQueue M) k c, Impl.remove s ⟨k, f.priority, c⟩ m = s :=
      fun s k c => if_pos hp
    have hback : ∀ (s : KPriorityQueue M) k c, Impl.pushBack s ⟨k, f.priority, c⟩ m = s :=
      fun s k c => if_pos hp
    have hfront : ∀ (s : KPriorityQueue M) k c, Impl.pushFront s ⟨k, f.priority, c⟩ m = s :=
      fun s k c => if_pos hp
    simp only [hrem, hback, hfront, ite_self]
    refine hR.of_eq fun j => ?_
    have hno : ¬ f.InSlot j := fun h => by obtain ⟨h1, h2, -⟩ := h; omega
    rw [Lists.relocate, if_neg hno, place_of_gt (by omega)]
  -- the slots on the previous core `c` and on the new core `d`, where there is one
  have hold : ∀ c : Nat, f.activeCore = c → f.affinityMask.getLsbD c = true →
      f.InSlot ⟨.scheduled, f.priority, c⟩ ∧ f'.InSlot ⟨.suggested, f.priority, c⟩ := by
    intro c hc hbit
    refine ⟨(inSlot_of_core hp hbit).1 hc, ?_⟩
    rw [← hprio]
    refine (inSlot_of_core (by omega) (by rw [hmask]; exact hbit)).2 ?_
    rw [← hc]; exact fun h => hcore h.symm
  have hnew : ∀ d : Nat, f'.activeCore = d → f'.affinityMask.getLsbD d = true →
      f.InSlot ⟨.suggested, f.priority, d⟩ ∧ f'.InSlot ⟨.scheduled, f.priority, d⟩ := by
    intro d hd hbit
    refine ⟨(inSlot_of_core hp (by rw [← hmask]; exact hbit)).2 ?_, ?_⟩
    · rw [← hd]
      exact hcore
    · rw [← hprio]; exact (inSlot_of_core (by omega) hbit).1 hd
  -- pushing at the new core, as the flag says
  have hpush : ∀ {s : KPriorityQueue M} {L : Lists M} {d : Nat}, Represents s L →
      FreeOn L d m → Represents
        (if toFront = true then Impl.pushFront s ⟨.scheduled, f.priority, d⟩ m
          else Impl.pushBack s ⟨.scheduled, f.priority, d⟩ m)
        (Function.update L ⟨.scheduled, f.priority, d⟩
          (if toFront = true then m :: L ⟨.scheduled, f.priority, d⟩
            else L ⟨.scheduled, f.priority, d⟩ ++ [m])) := by
    intro s L d hR hfree
    cases toFront
    · exact hR.pushBack hp hfree
    · exact hR.pushFront hp hfree
  rcases hf.activeCore with hc | ⟨c, hc, hcbit⟩
  · rcases hf'.activeCore with hd | ⟨d, hd, hdbit⟩
    · exact absurd (hc.trans hd.symm) hcore
    · obtain ⟨hb, hb'⟩ := hnew d hd hdbit
      have hc0 : ¬ f.activeCore ≥ 0 := by omega
      have hd0 : f'.activeCore ≥ 0 := by omega
      simp only [if_neg hc0, if_pos hd0]
      rw [hd, Int.toNat_natCast]
      have hR₁ := hR.remove hp ((hm _).2 hb)
      refine (hpush hR₁ (hR.threaded.freeOn_erase ((hm _).2 hb))).of_eq fun j => ?_
      by_cases hj : j.core = d
      · rw [relocate_on_core toFront hb hb' rfl (by simp) hj]
        rcases eq_or_ne j ⟨.scheduled, f.priority, d⟩ with rfl | h1
        · simp
        · rcases eq_or_ne j ⟨.suggested, f.priority, d⟩ with rfl | h2
          · simp
          · simp [h1, h2]
      · have h1 : j ≠ ⟨.scheduled, f.priority, d⟩ := fun h => hj (congrArg Slot.core h)
        have h2 : j ≠ ⟨.suggested, f.priority, d⟩ := fun h => hj (congrArg Slot.core h)
        rw [relocate_other toFront hsame (by omega) (by omega)]; simp [h1, h2]
  · obtain ⟨ha, ha'⟩ := hold c hc hcbit
    have hR₁ := hR.remove hp ((hm _).2 ha)
    have hfree₁ := hR.threaded.freeOn_erase ((hm _).2 ha)
    rcases hf'.activeCore with hd | ⟨d, hd, hdbit⟩
    · have hc0 : f.activeCore ≥ 0 := by omega
      have hd0 : ¬ f'.activeCore ≥ 0 := by omega
      simp only [if_pos hc0, if_neg hd0]
      rw [hc, Int.toNat_natCast]
      refine (hR₁.pushBack (i := ⟨.suggested, f.priority, c⟩) hp hfree₁).of_eq fun j => ?_
      by_cases hj : j.core = c
      · rw [relocate_on_core toFront ha ha' rfl (by simp) hj]
        rcases eq_or_ne j ⟨.scheduled, f.priority, c⟩ with rfl | h1
        · simp
        · rcases eq_or_ne j ⟨.suggested, f.priority, c⟩ with rfl | h2
          · simp
          · simp [h1, h2]
      · have h1 : j ≠ ⟨.scheduled, f.priority, c⟩ := fun h => hj (congrArg Slot.core h)
        have h2 : j ≠ ⟨.suggested, f.priority, c⟩ := fun h => hj (congrArg Slot.core h)
        rw [relocate_other toFront hsame (by omega) (by omega)]; simp [h1, h2]
    · obtain ⟨hb, hb'⟩ := hnew d hd hdbit
      have hcd : c ≠ d := by
        rintro rfl; exact hcore (hc.trans hd.symm)
      have hc0 : f.activeCore ≥ 0 := by omega
      have hd0 : f'.activeCore ≥ 0 := by omega
      simp only [if_pos hc0, if_pos hd0]
      rw [hc, hd, Int.toNat_natCast, Int.toNat_natCast]
      have hmb : m ∈ Function.update L ⟨.scheduled, f.priority, c⟩
          ((L ⟨.scheduled, f.priority, c⟩).erase m) ⟨.suggested, f.priority, d⟩ := by
        rw [Function.update_of_ne (by simp)]; exact (hm _).2 hb
      have hR₂ := hR₁.remove hp hmb
      have hR₃ := hpush hR₂ (hR₁.threaded.freeOn_erase hmb)
      refine (hR₃.pushBack (i := ⟨.suggested, f.priority, c⟩) hp
        ((hfree₁.update_of_ne hcd.symm _).update_of_ne hcd.symm _)).of_eq fun j => ?_
      by_cases hjc : j.core = c
      · have h3 : j ≠ ⟨.scheduled, f.priority, d⟩ :=
          fun h => hcd (hjc.symm.trans (congrArg Slot.core h))
        have h4 : j ≠ ⟨.suggested, f.priority, d⟩ :=
          fun h => hcd (hjc.symm.trans (congrArg Slot.core h))
        rw [relocate_on_core toFront ha ha' rfl (by simp) hjc]
        rcases eq_or_ne j ⟨.scheduled, f.priority, c⟩ with rfl | h1
        · simp [hcd]
        · rcases eq_or_ne j ⟨.suggested, f.priority, c⟩ with rfl | h2
          · simp [hcd]
          · simp [h1, h2, h3, h4]
      · have h1 : j ≠ ⟨.scheduled, f.priority, c⟩ := fun h => hjc (congrArg Slot.core h)
        have h2 : j ≠ ⟨.suggested, f.priority, c⟩ := fun h => hjc (congrArg Slot.core h)
        by_cases hjd : j.core = d
        · rw [relocate_on_core toFront hb hb' rfl (by simp) hjd]
          rcases eq_or_ne j ⟨.scheduled, f.priority, d⟩ with rfl | h3
          · simp [hcd.symm]
          · rcases eq_or_ne j ⟨.suggested, f.priority, d⟩ with rfl | h4
            · simp [hcd.symm]
            · simp [h1, h2, h3, h4]
        · have h3 : j ≠ ⟨.scheduled, f.priority, d⟩ := fun h => hjd (congrArg Slot.core h)
          have h4 : j ≠ ⟨.suggested, f.priority, d⟩ := fun h => hjd (congrArg Slot.core h)
          rw [relocate_other toFront hsame (by omega) (by omega)]; simp [h1, h2, h3, h4]

end Refine

/-! ## Runs -/

/-- The members' fields, which members are queued, the queue, and what its lists should hold. -/
structure ReadyState (M : Type) where
  fields : M → MemberFields
  queued : Finset M
  queue : KPriorityQueue M
  lists : Lists M

namespace ReadyState

/-- The fields of one member were written. -/
def withFields (σ : ReadyState M) (m : M) (f : MemberFields) : ReadyState M :=
  { σ with fields := Function.update σ.fields m f }

/-- A new queue; no member is queued. -/
def init (fields : M → MemberFields) (entry : M → Nat → QueueEntry M) : ReadyState M :=
  ⟨fields, ∅, KPriorityQueue.init entry, fun _ => []⟩

end ReadyState

/-- One call of the scheduler.  A member's fields change before the call that reports it. -/
inductive ReadyStep : ReadyState M → ReadyState M → Prop where
  | setFields {σ : ReadyState M} (m : M) (f : MemberFields) (hq : m ∉ σ.queued) (hf : f.Valid) :
    ReadyStep σ (σ.withFields m f)
  | pushBack {σ : ReadyState M} (m : M) (hq : m ∉ σ.queued) :
    ReadyStep σ { σ with
      queued := insert m σ.queued
      queue := σ.queue.pushBack σ.fields m
      lists := σ.lists.place false (σ.fields m) m }
  | remove {σ : ReadyState M} (m : M) (hq : m ∈ σ.queued) :
    ReadyStep σ { σ with
      queued := σ.queued.erase m
      queue := σ.queue.remove σ.fields m
      lists := σ.lists.withdraw m }
  | moveToScheduledFront {σ : ReadyState M} (m : M) (hq : m ∈ σ.queued)
      (hcore : 0 ≤ (σ.fields m).activeCore) :
    ReadyStep σ { σ with
      queue := σ.queue.moveToScheduledFront σ.fields m
      lists := σ.lists.moveScheduled true (σ.fields m) m }
  | moveToScheduledBack {σ : ReadyState M} (m : M) (hq : m ∈ σ.queued)
      (hcore : 0 ≤ (σ.fields m).activeCore) :
    ReadyStep σ { σ with
      queue := (σ.queue.moveToScheduledBack σ.fields m).2
      lists := σ.lists.moveScheduled false (σ.fields m) m }
  | changePriority {σ : ReadyState M} (m : M) (f : MemberFields) (isRunning : Bool)
      (hq : m ∈ σ.queued) (hf : f.Valid)
      (hsame : f = { σ.fields m with priority := f.priority }) :
    ReadyStep σ { σ.withFields m f with
      queue := σ.queue.changePriority (σ.withFields m f).fields (σ.fields m).priority isRunning m
      lists := (σ.lists.withdraw m).place isRunning f m }
  | changeAffinityMask {σ : ReadyState M} (m : M) (f : MemberFields)
      (hq : m ∈ σ.queued) (hf : f.Valid)
      (hsame : f = { σ.fields m with
        activeCore := f.activeCore, affinityMask := f.affinityMask }) :
    ReadyStep σ { σ.withFields m f with
      queue := σ.queue.changeAffinityMask (σ.withFields m f).fields (σ.fields m).activeCore
        (σ.fields m).affinityMask m
      lists := (σ.lists.withdraw m).place false f m }
  | changeCore {σ : ReadyState M} (m : M) (f : MemberFields) (toFront : Bool)
      (hq : m ∈ σ.queued) (hf : f.Valid)
      (hsame : f = { σ.fields m with activeCore := f.activeCore }) :
    ReadyStep σ { σ.withFields m f with
      queue := σ.queue.changeCore (σ.withFields m f).fields (σ.fields m).activeCore m toFront
      lists := σ.lists.relocate toFront (σ.fields m) f m }

abbrev ReadyRun : ReadyState M → ReadyState M → Prop := Relation.ReflTransGen ReadyStep

/-- The queue holds the lists, and the queued members are in the lists they belong to. -/
structure ReadyInv (σ : ReadyState M) : Prop where
  valid : ∀ m, (σ.fields m).Valid
  represents : Represents σ.queue σ.lists
  placed : ∀ m i, m ∈ σ.lists i ↔ m ∈ σ.queued ∧ (σ.fields m).InSlot i

section Inv

variable {σ σ' : ReadyState M} {m a : M} {f : MemberFields} {L : Lists M} {i : Slot}

omit [DecidableEq M] in
theorem mem_place (toFront : Bool) :
    a ∈ L.place toFront f m i ↔ a ∈ L i ∨ (a = m ∧ f.InSlot i) := by
  rw [Lists.place]
  by_cases h : f.InSlot i
  · rw [if_pos h]
    split <;> simp [h, or_comm]
  · rw [if_neg h]; simp [h]

theorem mem_withdraw (hnd : (L i).Nodup) : a ∈ L.withdraw m i ↔ a ≠ m ∧ a ∈ L i :=
  hnd.mem_erase_iff

omit [DecidableEq M] in
theorem ReadyInv.nodup (hI : ReadyInv σ) (i : Slot) : (σ.lists i).Nodup :=
  (hI.represents.threaded.linked i).nodup

omit [DecidableEq M] in
theorem ReadyInv.not_mem (hI : ReadyInv σ) (hq : m ∉ σ.queued) (i : Slot) : m ∉ σ.lists i :=
  fun h => hq ((hI.placed m i).1 h).1

omit [DecidableEq M] in
theorem ReadyInv.mem_iff (hI : ReadyInv σ) (hq : m ∈ σ.queued) (i : Slot) :
    m ∈ σ.lists i ↔ (σ.fields m).InSlot i := by
  rw [hI.placed m i]; exact and_iff_right hq

theorem valid_withFields (hI : ReadyInv σ) (hf : f.Valid) (a : M) :
    ((σ.withFields m f).fields a).Valid := by
  show (Function.update σ.fields m f a).Valid
  by_cases h : a = m
  · subst h
    rwa [Function.update_self]
  · rw [Function.update_of_ne h]; exact hI.valid a

theorem withFields_self : (σ.withFields m f).fields m = f := Function.update_self _ _ _

theorem withFields_of_ne (h : a ≠ m) : (σ.withFields m f).fields a = σ.fields a :=
  Function.update_of_ne h _ _

theorem placed_again (hI : ReadyInv σ) (hq : m ∈ σ.queued) (toFront : Bool) (a : M) (i : Slot) :
    a ∈ (σ.lists.withdraw m).place toFront f m i ↔
      a ∈ σ.queued ∧ ((σ.withFields m f).fields a).InSlot i := by
  rw [mem_place, mem_withdraw (hI.nodup i), hI.placed a i]
  by_cases h : a = m
  · subst h
    simp [hq, withFields_self]
  · simp [h, withFields_of_ne h]

theorem not_mem_withdraw (hI : ReadyInv σ) (i : Slot) : m ∉ σ.lists.withdraw m i :=
  fun h => ((mem_withdraw (hI.nodup i)).1 h).1 rfl

theorem setFields_inv (hI : ReadyInv σ) (hq : m ∉ σ.queued) (hf : f.Valid) :
    ReadyInv (σ.withFields m f) := by
  refine ⟨valid_withFields hI hf, hI.represents, fun a i => ?_⟩
  show a ∈ σ.lists i ↔ a ∈ σ.queued ∧ _
  by_cases h : a = m
  · subst h
    exact iff_of_false (hI.not_mem hq i) fun h => hq h.1
  · rw [withFields_of_ne h]; exact hI.placed a i

theorem pushBack_inv (hI : ReadyInv σ) (hq : m ∉ σ.queued) :
    ReadyInv { σ with
      queued := insert m σ.queued
      queue := σ.queue.pushBack σ.fields m
      lists := σ.lists.place false (σ.fields m) m } := by
  refine ⟨hI.valid, ?_, fun a i => ?_⟩
  · show Represents (σ.queue.pushBack σ.fields m) _
    rw [KPriorityQueue.pushBack, if_neg (by rw [(hI.valid m).notDummy]; decide)]
    exact represents_pushBackAt (hI.valid m) hI.represents (hI.not_mem hq)
  · show a ∈ σ.lists.place false (σ.fields m) m i ↔ a ∈ insert m σ.queued ∧ _
    rw [mem_place, hI.placed a i, Finset.mem_insert]
    constructor
    · rintro (h | ⟨rfl, h⟩)
      · exact ⟨.inr h.1, h.2⟩
      · exact ⟨.inl rfl, h⟩
    · rintro ⟨rfl | h1, h2⟩
      · exact .inr ⟨rfl, h2⟩
      · exact .inl ⟨h1, h2⟩

theorem remove_inv (hI : ReadyInv σ) (hq : m ∈ σ.queued) :
    ReadyInv { σ with
      queued := σ.queued.erase m
      queue := σ.queue.remove σ.fields m
      lists := σ.lists.withdraw m } := by
  refine ⟨hI.valid, ?_, fun a i => ?_⟩
  · show Represents (σ.queue.remove σ.fields m) _
    rw [KPriorityQueue.remove, if_neg (by rw [(hI.valid m).notDummy]; decide)]
    exact represents_removeAt (hI.valid m) hI.represents (hI.mem_iff hq)
  · show a ∈ σ.lists.withdraw m i ↔ a ∈ σ.queued.erase m ∧ _
    rw [mem_withdraw (hI.nodup i), hI.placed a i, Finset.mem_erase, and_assoc]

omit [DecidableEq M] in
theorem inSlot_scheduled_iff_eq (hI : ReadyInv σ) (hcore : 0 ≤ (σ.fields m).activeCore)
    (hp : (σ.fields m).priority ≤ LowestPriority) (i : Slot) :
    ((σ.fields m).InSlot i ∧ i.kind = .scheduled) ↔
      i = ⟨.scheduled, (σ.fields m).priority, (σ.fields m).activeCore.toNat⟩ := by
  have h := inSlot_scheduled_iff (i := i) (hI.valid m) hp
  exact h.trans (and_iff_right hcore)

section

variable (hI : ReadyInv σ) (hq : m ∈ σ.queued)
include hI hq

theorem moveScheduled_inv (hcore : 0 ≤ (σ.fields m).activeCore) (toFront : Bool)
    {queue : KPriorityQueue M} (hgt : LowestPriority < (σ.fields m).priority → queue = σ.queue)
    (hrep : ∀ i : Slot, i = ⟨.scheduled, (σ.fields m).priority, (σ.fields m).activeCore.toNat⟩ →
      i.priority ≤ LowestPriority → m ∈ σ.lists i →
      Represents queue (Function.update σ.lists i
        (if toFront then m :: (σ.lists i).erase m else (σ.lists i).erase m ++ [m]))) :
    ReadyInv { σ with
      queue := queue
      lists := σ.lists.moveScheduled toFront (σ.fields m) m } := by
  refine ⟨hI.valid, ?_, fun a i => ?_⟩
  · show Represents queue (σ.lists.moveScheduled toFront (σ.fields m) m)
    rcases Nat.lt_or_ge LowestPriority (σ.fields m).priority with hp | hp
    · rw [hgt hp]
      refine hI.represents.of_eq fun j => if_neg ?_
      rintro ⟨⟨h1, h2, -⟩, -⟩
      omega
    · have hslot := inSlot_scheduled_iff_eq hI hcore hp
      have h0 := (hslot _).2 rfl
      refine (hrep _ rfl hp ((hI.mem_iff hq _).2 h0.1)).of_eq fun j => ?_
      simp only [Lists.moveScheduled, hslot j]
      by_cases hj : j = ⟨.scheduled, (σ.fields m).priority, (σ.fields m).activeCore.toNat⟩
      · rw [if_pos hj, hj, Function.update_self]
      · rw [if_neg hj, Function.update_of_ne hj]
  · show a ∈ σ.lists.moveScheduled toFront (σ.fields m) m i ↔ _
    rw [← hI.placed a i, Lists.moveScheduled]
    by_cases h : (σ.fields m).InSlot i ∧ i.kind = .scheduled
    · have hm := (hI.mem_iff hq i).2 h.1
      have hback : a ∈ m :: (σ.lists i).erase m ↔ a ∈ σ.lists i := by
        rw [List.mem_cons, (hI.nodup i).mem_erase_iff]
        by_cases ham : a = m
        · subst ham
          simp [hm]
        · simp [ham]
      rw [if_pos h]
      split
      · exact hback
      · rw [← hback]; simp [or_comm]
    · rw [if_neg h]

theorem changePriority_inv (hf : f.Valid) (hsame : f = { σ.fields m with priority := f.priority })
    (isRunning : Bool) : ReadyInv { σ.withFields m f with
      queue := σ.queue.changePriority (σ.withFields m f).fields (σ.fields m).priority isRunning m
      lists := (σ.lists.withdraw m).place isRunning f m } := by
  refine ⟨valid_withFields hI hf, ?_, placed_again hI hq isRunning⟩
  show Represents (σ.queue.changePriority (σ.withFields m f).fields (σ.fields m).priority
    isRunning m) _
  rw [changePriority, if_neg (by rw [withFields_self, hf.notDummy]; decide)]
  simp only [withFields_self]
  -- the slots under the previous priority are those of the previous fields
  have hslots : slotsAt (σ.fields m).priority f = slotsAt (σ.fields m).priority (σ.fields m) := by
    rw [hsame]; rfl
  have hrem : Represents (σ.queue.removeAt (σ.fields m).priority f m) (σ.lists.withdraw m) := by
    have h := represents_removeAt (hI.valid m) hI.represents (hI.mem_iff hq)
    rwa [removeAt_eq, ← hslots, ← removeAt_eq] at h
  cases isRunning with
  | true => exact represents_pushFrontAt hf hrem (not_mem_withdraw hI)
  | false => exact represents_pushBackAt hf hrem (not_mem_withdraw hI)

theorem changeAffinityMask_inv (hf : f.Valid)
    (hsame : f = { σ.fields m with activeCore := f.activeCore, affinityMask := f.affinityMask }) :
    ReadyInv { σ.withFields m f with
      queue := σ.queue.changeAffinityMask (σ.withFields m f).fields (σ.fields m).activeCore
        (σ.fields m).affinityMask m
      lists := (σ.lists.withdraw m).place false f m } := by
  refine ⟨valid_withFields hI hf, ?_, placed_again hI hq false⟩
  show Represents (σ.queue.changeAffinityMask (σ.withFields m f).fields (σ.fields m).activeCore
    (σ.fields m).affinityMask m) _
  rw [changeAffinityMask, if_neg (by rw [withFields_self, hf.notDummy]; decide)]
  simp only [withFields_self]
  have hprio : f.priority = (σ.fields m).priority := by rw [hsame]
  have hrem := represents_foldl_remove (f := σ.fields m)
    (slotsByCore f.priority (σ.fields m).activeCore (σ.fields m).affinityMask)
    hI.represents (hI.mem_iff hq)
    (fun i hi => (priority_of_mem_slotsByCore hi).trans hprio)
    (fun _ => nodup_slotsByCore _ _ _)
    (fun hp i => by rw [hprio]; exact mem_slotsByCore (hI.valid m) hp)
  exact represents_foldl_push hrem (not_mem_withdraw hI)
    (fun i => priority_of_mem_slotsByCore) (fun _ => nodup_slotsByCore _ _ _)
    (fun hp i => mem_slotsByCore hf hp)

theorem changeCore_inv (hf : f.Valid) (hsame : f = { σ.fields m with activeCore := f.activeCore })
    (toFront : Bool) : ReadyInv { σ.withFields m f with
      queue := σ.queue.changeCore (σ.withFields m f).fields (σ.fields m).activeCore m toFront
      lists := σ.lists.relocate toFront (σ.fields m) f m } := by
  refine ⟨valid_withFields hI hf, ?_, fun a i => ?_⟩
  · exact represents_changeCore (hI.valid m) hf withFields_self hsame hI.represents
      (hI.mem_iff hq) toFront
  · show a ∈ σ.lists.relocate toFront (σ.fields m) f m i ↔ _
    rw [Lists.relocate]
    have hm := hI.mem_iff hq i
    by_cases ham : a = m
    · subst ham
      rw [withFields_self, show (σ.withFields a f).queued = σ.queued from rfl, and_iff_right hq]
      by_cases h : (σ.fields a).InSlot i
      · by_cases h' : f.InSlot i
        · simp [h, h', hm]
        · simp [h, h', (hI.nodup i).mem_erase_iff]
      · rw [if_neg h, mem_place, hm]; simp [h]
    · rw [withFields_of_ne ham, show (σ.withFields m f).queued = σ.queued from rfl, ← hI.placed a i]
      by_cases h : (σ.fields m).InSlot i
      · by_cases h' : f.InSlot i
        · simp [h, h']
        · simp [h, h', (hI.nodup i).mem_erase_iff, ham]
      · rw [if_neg h, mem_place]; simp [ham]

end

theorem ReadyStep.inv (hstep : ReadyStep σ σ') (hI : ReadyInv σ) : ReadyInv σ' := by
  cases hstep with
  | setFields m f hq hf => exact setFields_inv hI hq hf
  | pushBack m hq => exact pushBack_inv hI hq
  | remove m hq => exact remove_inv hI hq
  | moveToScheduledFront m hq hcore =>
    refine moveScheduled_inv hI hq hcore true (fun hp => ?_) fun i hi hp hm => ?_
    · rw [KPriorityQueue.moveToScheduledFront,
        if_neg (by rw [(hI.valid m).notDummy]; decide), Impl.moveToFront,
        if_neg (Nat.not_le.2 hp)]
    · rw [KPriorityQueue.moveToScheduledFront,
        if_neg (by rw [(hI.valid m).notDummy]; decide), ← hi]
      exact hI.represents.moveToFront hp hm
  | moveToScheduledBack m hq hcore =>
    refine moveScheduled_inv hI hq hcore false (fun hp => ?_) fun i hi hp hm => ?_
    · rw [KPriorityQueue.moveToScheduledBack,
        if_neg (by rw [(hI.valid m).notDummy]; decide), Impl.moveToBack,
        if_neg (Nat.not_le.2 hp)]
    · rw [KPriorityQueue.moveToScheduledBack,
        if_neg (by rw [(hI.valid m).notDummy]; decide), ← hi]
      exact hI.represents.moveToBack hp hm
  | changePriority m f isRunning hq hf hsame => exact changePriority_inv hI hq hf hsame isRunning
  | changeAffinityMask m f hq hf hsame => exact changeAffinityMask_inv hI hq hf hsame
  | changeCore m f toFront hq hf hsame => exact changeCore_inv hI hq hf hsame toFront

theorem ReadyRun.inv (hrun : ReadyRun σ σ') (hI : ReadyInv σ) : ReadyInv σ' := by
  induction hrun with
  | refl => exact hI
  | tail _ hstep ih => exact hstep.inv ih

omit [DecidableEq M] in
theorem init_inv {fields : M → MemberFields} (hf : ∀ m, (fields m).Valid)
    (entry : M → Nat → QueueEntry M) : ReadyInv (ReadyState.init fields entry) := by
  refine ⟨hf, ⟨⟨fun i => ⟨rfl, rfl, List.nodup_nil⟩, ?_⟩, fun i => ?_⟩, fun m i => ?_⟩
  · intro i j m _ hm
    cases hm
  · show (Suyu.Common.BitSet.empty).test _ = true ↔ ([] : List M) ≠ []
    simp
  · show m ∈ ([] : List M) ↔ m ∈ (∅ : Finset M) ∧ _
    simp

end Inv

/-! ## A faithful ready queue -/

/-- `m` is the first element of the list of the numerically lowest priority that has one. -/
def IsFront (L : Lists M) (kind : QueueKind) (core : Nat) (m : M) : Prop :=
  ∃ p, p ≤ LowestPriority ∧ (L ⟨kind, p, core⟩).head? = some m ∧ ∀ q, q < p → L ⟨kind, q, core⟩ = []

structure IsReadyQueue (σ : ReadyState M) : Prop where
  /-- Each queued member is in the lists it belongs to, and in no other one. -/
  placed : ∀ m i, m ∈ σ.lists i ↔ m ∈ σ.queued ∧ (σ.fields m).InSlot i
  /-- The links form doubly linked lists, without repetition. -/
  linked : ∀ i, DoublyLinked (σ.queue.nextOf i) (σ.queue.prevOf i) (σ.lists i)
  bits : ∀ i : Slot, (σ.queue.availablePriorities i.kind i.core).test i.priority = true ↔
    σ.lists i ≠ []
  scheduledFront : ∀ core m, σ.queue.getScheduledFront core = some m ↔
    IsFront σ.lists .scheduled core m
  suggestedFront : ∀ core m, σ.queue.getSuggestedFront core = some m ↔
    IsFront σ.lists .suggested core m
  /-- Iterating visits the members by priority and position, and then stops. -/
  scheduledNext : ∀ core, Follows (σ.queue.getScheduledNext σ.fields core)
    (σ.queue.getScheduledFront core) (order σ.lists .scheduled core)
  suggestedNext : ∀ core, Follows (σ.queue.getSuggestedNext σ.fields core)
    (σ.queue.getSuggestedFront core) (order σ.lists .suggested core)
  once : ∀ kind core, (order σ.lists kind core).Nodup
  all : ∀ kind core m, m ∈ order σ.lists kind core ↔
    ∃ p, p ≤ LowestPriority ∧ m ∈ σ.lists ⟨kind, p, core⟩

section Spec

variable {σ σ' : ReadyState M} {L : Lists M} {kind : QueueKind} {core : Nat} {m : M}

omit [DecidableEq M] in
theorem head?_orderFrom {a k : Nat} (hk : a + k = LowestPriority + 1) :
    (orderFrom L kind core a).head? = some m ↔
      ∃ p, a ≤ p ∧ p ≤ LowestPriority ∧ (L ⟨kind, p, core⟩).head? = some m ∧
        ∀ q, a ≤ q → q < p → L ⟨kind, q, core⟩ = [] := by
  induction k generalizing a with
  | zero =>
    rw [orderFrom_of_gt (by omega)]
    refine iff_of_false nofun ?_
    rintro ⟨p, h1, h2, -⟩; omega
  | succ k ih =>
    rw [orderFrom_succ (by omega), List.head?_append]
    cases hL : L ⟨kind, a, core⟩ with
    | nil =>
      rw [List.head?_nil, Option.none_or, ih (by omega)]
      constructor
      · rintro ⟨p, h1, h2, h3, h4⟩
        refine ⟨p, by omega, h2, h3, fun q hq1 hq2 => ?_⟩
        rcases Nat.eq_or_lt_of_le hq1 with rfl | h
        · exact hL
        · exact h4 q h hq2
      · rintro ⟨p, h1, h2, h3, h4⟩
        have hne : p ≠ a := by
          rintro rfl
          rw [hL] at h3; cases h3
        exact ⟨p, by omega, h2, h3, fun q hq1 hq2 => h4 q (by omega) hq2⟩
    | cons b l =>
      constructor
      · intro h
        exact ⟨a, Nat.le_refl a, by omega, by rw [hL]; exact h, fun q h1 h2 => by omega⟩
      · rintro ⟨p, h1, h2, h3, h4⟩
        rcases Nat.eq_or_lt_of_le h1 with rfl | h
        · rw [hL] at h3
          exact h3
        · rw [h4 a (Nat.le_refl a) h] at hL; cases hL

omit [DecidableEq M] in
theorem ReadyInv.front_iff (hI : ReadyInv σ) :
    Impl.getFront σ.queue kind core = some m ↔ IsFront σ.lists kind core m := by
  rw [hI.represents.getFront_eq, order, head?_orderFrom (Nat.zero_add _)]
  simp [true_implies, IsFront]

omit [DecidableEq M] in
theorem ReadyInv.follows (hI : ReadyInv σ) (kind : QueueKind) (core : Nat) :
    Follows (Impl.getNext σ.queue σ.fields kind core) (Impl.getFront σ.queue kind core)
      (order σ.lists kind core) :=
  hI.represents.follows fun i m hm => ((hI.placed m i).1 hm).2.1.symm

/-- Whatever the scheduler calls, the queue stays a faithful ready queue. -/
theorem isReadyQueue_of_run {fields : M → MemberFields} (hf : ∀ m, (fields m).Valid)
    (entry : M → Nat → QueueEntry M) (hrun : ReadyRun (ReadyState.init fields entry) σ) :
    IsReadyQueue σ := by
  have hI := hrun.inv (init_inv hf entry)
  exact
    { placed := hI.placed
      linked := hI.represents.threaded.linked
      bits := hI.represents.bits
      scheduledFront := fun core m => hI.front_iff
      suggestedFront := fun core m => hI.front_iff
      scheduledNext := hI.follows .scheduled
      suggestedNext := hI.follows .suggested
      once := fun kind core => hI.represents.threaded.nodup_order kind core
      all := fun kind core m => mem_order }

end Spec

/-- Two threads on core 0, then one of them is moved to core 2. -/
theorem isReadyQueue_two_threads : ∃ σ : ReadyState Bool,
    ReadyRun (ReadyState.init (fun _ => ⟨44, 0, 0xF, false⟩) fun _ _ => ⟨none, none⟩) σ ∧
      σ.queued = {true, false} ∧ (σ.fields true).activeCore = 2 ∧ IsReadyQueue σ := by
  have hmask : ∀ c, (0xF : BitVec 64).getLsbD c = true → c < NumCores := by
    intro c hc
    by_contra hge
    have h64 : c < 64 := by
      by_contra h
      rw [BitVec.getLsbD_of_ge _ c (by omega)] at hc; cases hc
    have hall : ∀ c < 64, ¬ c < 4 → (0xF : BitVec 64).getLsbD c = false := by decide
    rw [hall c h64 hge] at hc; cases hc
  have hvalid : ∀ c : Nat, (0xF : BitVec 64).getLsbD c = true →
      (⟨44, c, 0xF, false⟩ : MemberFields).Valid :=
    fun c hc => ⟨by simp [LowestPriority], hmask, .inr ⟨c, rfl, hc⟩, rfl⟩
  let fields : Bool → MemberFields := fun _ => ⟨44, 0, 0xF, false⟩
  let entry : Bool → Nat → QueueEntry Bool := fun _ _ => ⟨none, none⟩
  obtain ⟨σ₁, h₁, hq₁, hf₁⟩ : ∃ σ₁, ReadyStep (ReadyState.init fields entry) σ₁ ∧
      σ₁.queued = {false} ∧ σ₁.fields = fields :=
    ⟨_, .pushBack false (Finset.notMem_empty _), rfl, rfl⟩
  obtain ⟨σ₂, h₂, hq₂, hf₂⟩ : ∃ σ₂, ReadyStep σ₁ σ₂ ∧
      σ₂.queued = {true, false} ∧ σ₂.fields = fields :=
    ⟨_, .pushBack true (by rw [hq₁]; decide), by rw [hq₁], hf₁⟩
  obtain ⟨σ₃, h₃, hq₃, hf₃⟩ : ∃ σ₃, ReadyStep σ₂ σ₃ ∧
      σ₃.queued = {true, false} ∧ (σ₃.fields true).activeCore = 2 :=
    ⟨_, .changeCore true ⟨44, 2, 0xF, false⟩ false (by rw [hq₂]; decide) (hvalid 2 (by decide))
      (by rw [hf₂]), hq₂, rfl⟩
  have hrun : ReadyRun (ReadyState.init fields entry) σ₃ :=
    ((Relation.ReflTransGen.single h₁).tail h₂).tail h₃
  exact ⟨σ₃, hrun, hq₃, hf₃, isReadyQueue_of_run (fun _ => hvalid 0 (by decide)) entry hrun⟩

end KPriorityQueue

end Suyu.Kernel
