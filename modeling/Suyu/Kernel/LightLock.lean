import Mathlib

/-
  `KLightLock`: the lock of the kernel's own threads.

  1. **Data** - `m_tag` is 0 or the pointer of the owner, with bit 0 for waiters; the kernel keeps the
     threads that wait for a lock with the thread that owns it.

  2. **Program** - the fast paths of `Lock` and `Unlock` are atomic operations on the tag, the slow
     paths are sections under the scheduler lock.  A step (`step`) is one of these.

  3. **Specification (`Excludes`)** - one owner, the tag names it, and every blocked thread is a waiter
     of the thread in the tag.

  4. **The crux (`Inv`)** - a thread is in the tag exactly from the operation that puts it there to the
     one that takes it out, and a waiter keeps bit 0 set.

  Left out: priorities and suspension, which decide only who runs and which waiter is the next.
-/

namespace Suyu.Kernel.KLightLock

open Function (update update_apply update_eq_self update_self update_of_ne)

variable {α : Type} [DecidableEq α]

/-! ## Data -/

/-- `m_tag`: the pointer of a thread, and its bit 0. -/
structure Tag (α : Type) where
  owner : Option α
  waiting : Bool
  deriving DecidableEq, Repr

/-- The tag 0. -/
def Tag.zero : Tag α := ⟨none, false⟩

/-- `tag | 1`. -/
def Tag.mark (tag : Tag α) : Tag α := { tag with waiting := true }

/-- Where a thread is. -/
inductive Pc (α : Type) where
  /-- In neither function. -/
  | outside
  /-- In `Lock`, before the load. -/
  | loading
  /-- In the loop of `compare_exchange_weak`, with `old_tag`. -/
  | exchanging (oldTag : Tag α)
  /-- Before the section of `LockSlowPath`, with `_owner`. -/
  | lockSlowPath (owner : Tag α)
  /-- Blocked in `LockSlowPath`. -/
  | waiting
  /-- Not blocked any more; `LockSlowPath` returns true. -/
  | woken
  /-- In `Unlock`, before `compare_exchange_strong`. -/
  | unlocking
  /-- Before the section of `UnlockSlowPath`. -/
  | unlockSlowPath
  deriving DecidableEq, Repr

/-- The lock and its threads; `holds` from the return of `Lock` to the call of `Unlock`. -/
structure State (α : Type) where
  tag : Tag α
  pc : α → Pc α
  holds : α → Bool
  waiters : α → List α
  terminationRequested : α → Bool

def State.initial : State α where
  tag := .zero
  pc := fun _ => .outside
  holds := fun _ => false
  waiters := fun _ => []
  terminationRequested := fun _ => false

inductive Action (α : Type) where
  | lock (t : α)
  | load (t : α)
  | exchange (t : α) (spurious : Bool)
  | lockSection (t : α)
  | lockReturn (t : α)
  | unlock (t : α)
  | release (t : α)
  | unlockSection (t : α) (next : Option α)
  | requestTerminate (t : α)
  deriving DecidableEq, Repr

/-! ## Program -/

/-- `compare_exchange_weak`, and where its loop goes on. -/
def exchange (s : State α) (t : α) (oldTag : Tag α) (spurious : Bool) : State α :=
  if s.tag = oldTag ∧ ¬ spurious then
    if oldTag = .zero then
      { s with
        tag := ⟨some t, false⟩
        pc := update s.pc t .outside
        holds := update s.holds t true }
    else { s with tag := oldTag.mark, pc := update s.pc t (.lockSlowPath oldTag.mark) }
  else { s with pc := update s.pc t (.exchanging s.tag) }

/-- The section of `LockSlowPath`. -/
def lockSlowPath (s : State α) (t : α) (owner : Tag α) : State α :=
  if s.tag ≠ owner then { s with pc := update s.pc t .loading }
  else
    match owner.owner with
    | none => s
    | some o =>
        { s with
          pc := update s.pc t .waiting
          waiters := update s.waiters o (s.waiters o ++ [t]) }

/-- The section of `UnlockSlowPath`; `RemoveKernelWaiterByKey` chooses by priority. -/
def unlockSlowPath (s : State α) (t : α) : Option α → Option (State α)
  | none =>
      if s.waiters t = [] then
        some { s with tag := .zero, pc := update s.pc t .outside }
      else none
  | some next =>
      if next ∈ s.waiters t then
        let rest := (s.waiters t).erase next
        some { s with
          tag := ⟨some next, !rest.isEmpty⟩
          pc := update (update s.pc t .outside) next .woken
          waiters := update (update s.waiters t []) next rest }
      else none

/-- `RequestTerminate`, with `CancelWait` of a thread that is waiting. -/
def requestTerminate (s : State α) (t : α) : State α :=
  if s.terminationRequested t then s
  else
    let s := { s with terminationRequested := update s.terminationRequested t true }
    if s.pc t = .waiting then
      { s with
        pc := update s.pc t .woken
        waiters := fun o => (s.waiters o).erase t }
    else s

/-- One step of a thread; `none` if it is elsewhere. -/
def step (s : State α) : Action α → Option (State α)
  | .lock t =>
      if s.pc t = .outside then some { s with pc := update s.pc t .loading } else none
  | .load t =>
      if s.pc t = .loading then some { s with pc := update s.pc t (.exchanging s.tag) }
      else none
  | .exchange t spurious =>
      match s.pc t with
      | .exchanging oldTag => some (exchange s t oldTag spurious)
      | _ => none
  | .lockSection t =>
      match s.pc t with
      | .lockSlowPath owner => some (lockSlowPath s t owner)
      | _ => none
  | .lockReturn t =>
      if s.pc t = .woken then
        some { s with
          pc := update s.pc t .outside
          holds := update s.holds t true }
      else none
  | .unlock t =>
      if s.pc t = .outside ∧ s.holds t = true then
        some { s with
          pc := update s.pc t .unlocking
          holds := update s.holds t false }
      else none
  | .release t =>
      if s.pc t = .unlocking then
        if s.tag = ⟨some t, false⟩ then
          some { s with tag := .zero, pc := update s.pc t .outside }
        else some { s with pc := update s.pc t .unlockSlowPath }
      else none
  | .unlockSection t next => if s.pc t = .unlockSlowPath then unlockSlowPath s t next else none
  | .requestTerminate t => some (requestTerminate s t)

/-! ## Specification -/

/-- One thread at most holds the lock, the tag names it until `Unlock` has released the lock, and a
    blocked thread is a waiter of exactly the thread in the tag, with bit 0 set. -/
structure Excludes (s : State α) : Prop where
  one : ∀ t u, s.holds t = true → s.holds u = true → t = u
  owner : ∀ t, s.holds t = true ∨ s.pc t = .unlocking ∨ s.pc t = .unlockSlowPath →
    s.tag.owner = some t
  blocked : ∀ w, s.pc w = .waiting → ∃ o, s.tag = ⟨some o, true⟩ ∧ w ∈ s.waiters o ∧
    ∀ o', w ∈ s.waiters o' → o' = o

/-! ## The invariant -/

/-- A thread that the lock belongs to, before or after it has returned from `Lock`. -/
def Owns (s : State α) (t : α) : Prop :=
  s.holds t = true ∨ s.pc t = .woken ∨ s.pc t = .unlocking ∨ s.pc t = .unlockSlowPath

/-- The tags that a thread has seen and keeps. -/
def Pc.sound : Pc α → Prop
  | .exchanging tag => tag.owner = none → tag.waiting = false
  | .lockSlowPath tag => tag.waiting = true ∧ tag.owner ≠ none
  | _ => True

structure Inv (s : State α) : Prop where
  owner : ∀ t, Owns s t ↔ s.tag.owner = some t
  free : s.tag.owner = none → s.tag.waiting = false
  sound : ∀ t, (s.pc t).sound
  marked : ∀ t, s.pc t = .unlockSlowPath → s.tag.waiting = true
  called : ∀ t, s.holds t = true → s.pc t ≠ .unlocking ∧ s.pc t ≠ .unlockSlowPath
  waiter : ∀ o w, w ∈ s.waiters o → s.tag = ⟨some o, true⟩ ∧ s.pc w = .waiting
  blocked : ∀ w, s.pc w = .waiting → ∃ o, w ∈ s.waiters o
  nodup : ∀ o, (s.waiters o).Nodup

omit [DecidableEq α] in
theorem inv_initial : Inv (State.initial : State α) where
  owner := fun t => by simp [Owns, State.initial, Tag.zero]
  free := fun _ => rfl
  sound := fun _ => trivial
  marked := fun _ h => (by cases h)
  called := fun _ h => (by cases h)
  waiter := fun _ _ h => (by cases h)
  blocked := fun _ h => (by cases h)
  nodup := fun _ => List.nodup_nil

omit [DecidableEq α] in
theorem Inv.excludes {s : State α} (h : Inv s) : Excludes s where
  one := by
    intro t u ht hu
    have htag := (h.owner t).mp (Or.inl ht)
    exact Option.some.inj (htag.symm.trans ((h.owner u).mp (Or.inl hu)))
  owner := by
    intro t ht
    refine (h.owner t).mp ?_
    rcases ht with ht | ht | ht
    · exact Or.inl ht
    · exact Or.inr (Or.inr (Or.inl ht))
    · exact Or.inr (Or.inr (Or.inr ht))
  blocked := by
    intro w hw
    obtain ⟨o, ho⟩ := h.blocked w hw
    obtain ⟨htag, -⟩ := h.waiter o w ho
    refine ⟨o, htag, ho, ?_⟩
    intro o' ho'
    have htag' := (h.waiter o' w ho').1
    rw [htag] at htag'
    cases htag'
    rfl

variable {t : α}

theorem update_cases {β : Type} {f : α → β} {u : α} {q p : β} (h : update f t q u = p) :
    (u = t ∧ q = p) ∨ (u ≠ t ∧ f u = p) := by
  by_cases hu : u = t
  · subst hu
    rw [update_self] at h
    exact Or.inl ⟨rfl, h⟩
  · rw [update_of_ne hu] at h; exact Or.inr ⟨hu, h⟩

theorem sound_update {pc : α → Pc α} (h : ∀ t, (pc t).sound) {q : Pc α} (hq : q.sound) (u : α) :
    (update pc t q u).sound := by
  rw [update_apply]
  split
  · exact hq
  · exact h u

theorem Inv.move {s : State α} (h : Inv s) {q : Pc α} {b : Bool} (hp : s.pc t ≠ .waiting)
    (hq : q ≠ .waiting) (hsound : q.sound) (hmarked : q = .unlockSlowPath → s.tag.waiting = true)
    (hcalled : b = true → q ≠ .unlocking ∧ q ≠ .unlockSlowPath)
    (howns : (b = true ∨ q = .woken ∨ q = .unlocking ∨ q = .unlockSlowPath) ↔ Owns s t) :
    Inv { s with pc := update s.pc t q, holds := update s.holds t b } where
  owner := by
    intro u
    rw [← h.owner u]
    by_cases hu : u = t
    · subst hu
      simp only [Owns, update_self]
      exact howns
    · simp [Owns, update_of_ne hu]
  free := h.free
  sound := sound_update h.sound hsound
  marked := by
    intro u hu
    rcases update_cases hu with ⟨-, hu⟩ | ⟨-, hu⟩
    · exact hmarked hu
    · exact h.marked u hu
  called := by
    intro u hu
    by_cases hut : u = t
    · subst hut
      simp only [update_self] at hu ⊢
      exact hcalled hu
    · simp only [update_of_ne hut] at hu ⊢; exact h.called u hu
  waiter := by
    intro o w hw
    obtain ⟨htag, hpc⟩ := h.waiter o w hw
    have hne : w ≠ t := fun heq => hp (heq ▸ hpc)
    exact ⟨htag, (update_of_ne hne _ _).trans hpc⟩
  blocked := by
    intro w hw
    rcases update_cases hw with ⟨-, hw⟩ | ⟨-, hw⟩
    · exact absurd hw hq
    · exact h.blocked w hw
  nodup := h.nodup

theorem Inv.moveTo {s : State α} (h : Inv s) {q : Pc α} (hp : s.pc t ≠ .waiting) (hq : q ≠ .waiting)
    (hsound : q.sound) (hmarked : q = .unlockSlowPath → s.tag.waiting = true)
    (hcalled : s.holds t = true → q ≠ .unlocking ∧ q ≠ .unlockSlowPath)
    (howns : (s.holds t = true ∨ q = .woken ∨ q = .unlocking ∨ q = .unlockSlowPath) ↔ Owns s t) :
    Inv { s with pc := update s.pc t q } := by
  have hmove := h.move hp hq hsound hmarked hcalled howns
  rw [update_eq_self] at hmove
  exact hmove

/-! ## The steps -/

omit [DecidableEq α] in
theorem Inv.same {s : State α} (h : Inv s) {u : α} (ht : Owns s t) (hu : Owns s u) : t = u :=
  Option.some.inj (((h.owner t).mp ht).symm.trans ((h.owner u).mp hu))

omit [DecidableEq α] in
theorem Inv.no_waiters {s : State α} (h : Inv s) (htag : s.tag.waiting = false) (o : α) :
    s.waiters o = [] := by
  refine List.eq_nil_iff_forall_not_mem.mpr ?_
  intro w hw
  rw [(h.waiter o w hw).1] at htag
  cases htag

omit [DecidableEq α] in
theorem Inv.not_waiting {s : State α} (h : Inv s) (htag : s.tag.waiting = false) (w : α) :
    s.pc w ≠ .waiting := by
  intro hw
  obtain ⟨o, ho⟩ := h.blocked w hw
  rw [h.no_waiters htag o] at ho
  cases ho

theorem Inv.take {s : State α} (h : Inv s) {t : α} (htag : s.tag = .zero) :
    Inv { s with
      tag := ⟨some t, false⟩
      pc := update s.pc t .outside
      holds := update s.holds t true } := by
  have hfree : s.tag.waiting = false := by rw [htag]; rfl
  have hnobody : ∀ u, ¬ Owns s u := by
    intro u hu
    have := (h.owner u).mp hu
    rw [htag] at this; cases this
  constructor
  · intro u
    show _ ↔ some t = some u
    by_cases hu : u = t
    · subst hu
      simp [Owns]
    · have hnot := hnobody u
      simp only [Owns, update_of_ne hu] at hnot ⊢
      exact ⟨fun hown => absurd hown hnot, fun heq => absurd (Option.some.inj heq).symm hu⟩
  · intro hnone
    cases hnone
  · exact sound_update h.sound trivial
  · intro u hu
    rcases update_cases hu with ⟨-, hu⟩ | ⟨-, hu⟩
    · cases hu
    · exact absurd (Or.inr (Or.inr (Or.inr hu))) (hnobody u)
  · intro u hu
    rcases update_cases hu with ⟨rfl, -⟩ | ⟨-, hu⟩
    · simp
    · exact absurd (Or.inl hu) (hnobody u)
  · intro o w hw
    rw [show s.waiters o = [] from h.no_waiters hfree o] at hw
    cases hw
  · intro w hw
    rcases update_cases hw with ⟨-, hw⟩ | ⟨-, hw⟩
    · cases hw
    · exact absurd hw (h.not_waiting hfree w)
  · exact h.nodup

theorem Inv.mark {s : State α} (h : Inv s) (hpc : s.pc t = .exchanging s.tag) (htag : s.tag ≠ .zero) :
    Inv { s with
      tag := s.tag.mark
      pc := update s.pc t (.lockSlowPath s.tag.mark) } := by
  have howner : s.tag.owner ≠ none := by
    intro hnone
    apply htag
    have hwaiting := h.free hnone
    generalize s.tag = tag at hnone hwaiting
    cases tag
    simp_all [Tag.zero]
  constructor
  · intro u
    refine Iff.trans ?_ (h.owner u)
    by_cases hu : u = t
    · subst hu
      simp [Owns, hpc]
    · simp [Owns, update_of_ne hu]
  · exact fun hnone => absurd hnone howner
  · exact sound_update h.sound ⟨rfl, howner⟩
  · exact fun _ _ => rfl
  · intro u hu
    by_cases hut : u = t
    · subst hut
      simp
    · simp only [update_of_ne hut]; exact h.called u hu
  · intro o w hw
    obtain ⟨hsame, hwait⟩ := h.waiter o w hw
    refine ⟨by rw [hsame]; rfl, ?_⟩
    have hne : w ≠ t := by
      rintro rfl
      rw [hpc] at hwait; cases hwait
    exact (update_of_ne hne _ _).trans hwait
  · intro w hw
    rcases update_cases hw with ⟨-, hw⟩ | ⟨-, hw⟩
    · cases hw
    · exact h.blocked w hw
  · exact h.nodup

theorem Inv.wait {s : State α} (h : Inv s) {o : α} (hpc : s.pc t = .lockSlowPath ⟨some o, true⟩)
    (htag : s.tag = ⟨some o, true⟩) : Inv { s with
      pc := update s.pc t .waiting
      waiters := update s.waiters o (s.waiters o ++ [t]) } := by
  have hnew : ∀ o', t ∉ s.waiters o' := by
    intro o' hmem
    have hwait := (h.waiter o' t hmem).2
    rw [hpc] at hwait; cases hwait
  constructor
  · intro u
    refine Iff.trans ?_ (h.owner u)
    by_cases hu : u = t
    · subst hu
      simp [Owns, hpc]
    · simp [Owns, update_of_ne hu]
  · exact h.free
  · exact sound_update h.sound trivial
  · intro u hu
    rcases update_cases hu with ⟨-, hu⟩ | ⟨-, hu⟩
    · cases hu
    · exact h.marked u hu
  · intro u hu
    by_cases hut : u = t
    · subst hut
      simp
    · simp only [update_of_ne hut]; exact h.called u hu
  · intro o' w hw
    have hold : w ∈ s.waiters o' → s.tag = ⟨some o', true⟩ ∧
        update s.pc t .waiting w = .waiting := by
      intro hmem
      have hne : w ≠ t := fun heq => hnew o' (heq ▸ hmem)
      exact ⟨(h.waiter o' w hmem).1, (update_of_ne hne _ _).trans (h.waiter o' w hmem).2⟩
    by_cases ho : o' = o
    · subst ho
      simp only [update_self] at hw
      rcases List.mem_append.mp hw with hw | hw
      · exact hold hw
      · rw [List.mem_singleton.mp hw]; exact ⟨htag, update_self _ _ _⟩
    · simp only [update_of_ne ho] at hw; exact hold hw
  · intro w hw
    rcases update_cases hw with ⟨rfl, -⟩ | ⟨-, hw⟩
    · refine ⟨o, ?_⟩
      simp only [update_self]
      exact List.mem_append_right _ (List.mem_singleton.mpr rfl)
    · obtain ⟨o', ho'⟩ := h.blocked w hw
      refine ⟨o', ?_⟩
      by_cases heq : o' = o
      · subst heq
        simp only [update_self]
        exact List.mem_append_left _ ho'
      · simp only [update_of_ne heq]; exact ho'
  · intro o'
    by_cases heq : o' = o
    · subst heq
      simp only [update_self]
      rw [← List.concat_eq_append]
      exact (List.nodup_concat _ _).mpr ⟨hnew o', h.nodup o'⟩
    · simp only [update_of_ne heq]; exact h.nodup o'

theorem Inv.release {s : State α} (h : Inv s) (hown : Owns s t) (hholds : s.holds t = false)
    (hnobody : ∀ o, s.waiters o = []) :
    Inv { s with tag := .zero, pc := update s.pc t .outside } := by
  have hothers : ∀ u, u ≠ t → ¬ Owns s u := fun u hu howns => hu (h.same howns hown)
  constructor
  · intro u
    show _ ↔ none = some u
    by_cases hu : u = t
    · subst hu
      simp [Owns, hholds]
    · have hnot := hothers u hu
      simp only [Owns, update_of_ne hu] at hnot ⊢
      exact ⟨fun howns => absurd howns hnot, fun heq => (by cases heq)⟩
  · exact fun _ => rfl
  · exact sound_update h.sound trivial
  · intro u hu
    rcases update_cases hu with ⟨-, hu⟩ | ⟨hne, hu⟩
    · cases hu
    · exact absurd (Or.inr (Or.inr (Or.inr hu))) (hothers u hne)
  · intro u hu
    by_cases hut : u = t
    · subst hut
      simp
    · simp only [update_of_ne hut]; exact h.called u hu
  · intro o w hw
    rw [show s.waiters o = [] from hnobody o] at hw
    cases hw
  · intro w hw
    rcases update_cases hw with ⟨-, hw⟩ | ⟨-, hw⟩
    · cases hw
    · obtain ⟨o, ho⟩ := h.blocked w hw
      rw [hnobody o] at ho; cases ho
  · exact h.nodup

theorem Inv.handOver {s : State α} (h : Inv s) {next : α} (hpc : s.pc t = .unlockSlowPath)
    (hnext : next ∈ s.waiters t) : Inv { s with
      tag := ⟨some next, !((s.waiters t).erase next).isEmpty⟩
      pc := update (update s.pc t .outside) next .woken
      waiters := update (update s.waiters t []) next
        ((s.waiters t).erase next) } := by
  have hown : Owns s t := Or.inr (Or.inr (Or.inr hpc))
  have hholds : s.holds t = false :=
    Bool.eq_false_of_not_eq_true fun htrue => (h.called t htrue).2 hpc
  have htag : s.tag = ⟨some t, true⟩ := (h.waiter t next hnext).1
  have hwaiting : s.pc next = .waiting := (h.waiter t next hnext).2
  have hne : next ≠ t := by
    rintro rfl
    rw [hpc] at hwaiting; cases hwaiting
  have hothers : ∀ u, u ≠ t → ¬ Owns s u := fun u hu howns => hu (h.same howns hown)
  -- Only the owner has waiters.
  have honly : ∀ o, o ≠ t → s.waiters o = [] := by
    intro o ho
    refine List.eq_nil_iff_forall_not_mem.mpr fun w hw => ho ?_
    have hsame := (h.waiter o w hw).1
    rw [htag] at hsame
    cases hsame
    rfl
  have hpcOther : ∀ u, u ≠ next → u ≠ t →
      update (update s.pc t .outside) next .woken u = s.pc u := by
    intro u hun hut
    rw [update_of_ne hun, update_of_ne hut]
  have hpcOwner : update (update s.pc t .outside) next .woken t = .outside := by
    rw [update_of_ne hne.symm, update_self]
  have hwaiters : ∀ o, update (update s.waiters t []) next
      ((s.waiters t).erase next) o = if o = next then (s.waiters t).erase next else [] := by
    intro o
    rw [update_apply, update_apply]
    split
    · rfl
    split
    · rfl
    · rename_i ho; exact honly o ho
  constructor
  · intro u
    show _ ↔ some next = some u
    by_cases hun : u = next
    · subst hun; simp [Owns]
    by_cases hut : u = t
    · subst hut
      simp only [Owns, hpcOwner]
      constructor
      · rintro (howns | howns | howns | howns)
        · rw [hholds] at howns; cases howns
        all_goals cases howns
      · exact fun heq => absurd (Option.some.inj heq).symm hun
    · have hnot := hothers u hut
      simp only [Owns, hpcOther u hun hut] at hnot ⊢
      exact ⟨fun howns => absurd howns hnot, fun heq => absurd (Option.some.inj heq).symm hun⟩
  · intro hnone
    cases hnone
  · have hout : Pc.sound (.outside : Pc α) := trivial
    exact sound_update (sound_update h.sound hout) trivial
  · intro u hu
    rcases update_cases hu with ⟨-, hu⟩ | ⟨hun, hu⟩
    · cases hu
    rcases update_cases hu with ⟨-, hu⟩ | ⟨hut, hu⟩
    · cases hu
    · exact absurd (Or.inr (Or.inr (Or.inr hu))) (hothers u hut)
  · intro u hu
    -- A thread that holds the lock would own it, and that is `t` alone.
    have hut : u = t := by
      by_contra hut
      exact hothers u hut (Or.inl hu)
    rw [hut] at hu
    rw [show s.holds t = true from hu] at hholds
    cases hholds
  · intro o w hw
    have hw' : w ∈ if o = next then (s.waiters t).erase next else [] := (hwaiters o) ▸ hw
    split at hw'
    · rename_i ho
      subst ho
      have hmem : w ∈ s.waiters t := List.mem_of_mem_erase hw'
      have hwn : w ≠ o := by
        rintro rfl; exact (h.nodup t).not_mem_erase hw'
      have hwt : w ≠ t := by
        rintro rfl
        have hpcw := (h.waiter w w hmem).2
        rw [hpc] at hpcw; cases hpcw
      refine ⟨?_, (hpcOther w hwn hwt).trans (h.waiter t w hmem).2⟩
      have hsome : ((s.waiters t).erase o).isEmpty = false := by
        rw [List.isEmpty_eq_false_iff]; exact List.ne_nil_of_mem hw'
      rw [hsome]
      rfl
    · cases hw'
  · intro w hw
    rcases update_cases hw with ⟨-, hw⟩ | ⟨hwn, hw⟩
    · cases hw
    rcases update_cases hw with ⟨-, hw⟩ | ⟨hwt, hw⟩
    · cases hw
    obtain ⟨o, ho⟩ := h.blocked w hw
    have hot : o = t := by
      by_contra hot
      rw [honly o hot] at ho; cases ho
    refine ⟨next, ?_⟩
    dsimp only
    rw [hwaiters next, if_pos rfl]
    exact (List.mem_erase_of_ne hwn).mpr (hot ▸ ho)
  · intro o
    dsimp only
    rw [hwaiters o]
    split
    · exact (h.nodup t).erase next
    · exact List.nodup_nil

theorem Inv.cancel {s : State α} (h : Inv s) (hpc : s.pc t = .waiting) (hholds : s.holds t = true)
    (requested : α → Bool) : Inv { s with
      pc := update s.pc t .woken
      waiters := fun o => (s.waiters o).erase t
      terminationRequested := requested } := by
  constructor
  · intro u
    refine Iff.trans ?_ (h.owner u)
    by_cases hu : u = t
    · subst hu
      simp [Owns, hholds]
    · simp [Owns, update_of_ne hu]
  · exact h.free
  · exact sound_update h.sound trivial
  · intro u hu
    rcases update_cases hu with ⟨-, hu⟩ | ⟨-, hu⟩
    · cases hu
    · exact h.marked u hu
  · intro u hu
    by_cases hut : u = t
    · subst hut
      simp
    · simp only [update_of_ne hut]; exact h.called u hu
  · intro o w hw
    obtain ⟨htag, hwait⟩ := h.waiter o w (List.mem_of_mem_erase hw)
    have hne : w ≠ t := by
      rintro rfl; exact (h.nodup o).not_mem_erase hw
    exact ⟨htag, (update_of_ne hne _ _).trans hwait⟩
  · intro w hw
    rcases update_cases hw with ⟨-, hw⟩ | ⟨hne, hw⟩
    · cases hw
    · obtain ⟨o, ho⟩ := h.blocked w hw; exact ⟨o, (List.mem_erase_of_ne hne).mpr ho⟩
  · exact fun o => (h.nodup o).erase t

/-- An action that does not cancel the wait of a thread that is blocked and does not hold the lock. -/
def Action.Uncancelled (s : State α) : Action α → Prop
  | .requestTerminate t =>
      s.pc t = .waiting → s.terminationRequested t = true ∨ s.holds t = true
  | _ => True

/-- **Every step** that cancels no wait keeps the invariant. -/
theorem Inv.step {s s' : State α} {a : Action α} (h : Inv s) (ha : a.Uncancelled s)
    (hs : step s a = some s') : Inv s' := by
  cases a with
  | lock t =>
    obtain ⟨hpc, ⟨⟩⟩ := Option.ite_none_right_eq_some.mp hs
    refine h.moveTo (by simp [hpc]) (by simp) trivial (by simp) (by simp) ?_
    simp [Owns, hpc]
  | load t =>
    obtain ⟨hpc, ⟨⟩⟩ := Option.ite_none_right_eq_some.mp hs
    refine h.moveTo (by simp [hpc]) (by simp) h.free (by simp) (by simp) ?_
    simp [Owns, hpc]
  | exchange t spurious =>
    simp only [KLightLock.step] at hs
    split at hs
    · rename_i oldTag hpc
      obtain rfl := Option.some.inj hs
      unfold KLightLock.exchange
      split
      · rename_i hsame
        obtain ⟨hsame, -⟩ := hsame
        subst hsame
        split
        · rename_i hzero
          exact h.take hzero
        · rename_i hzero; exact h.mark hpc hzero
      · refine h.moveTo (by simp [hpc]) (by simp) h.free (by simp) (by simp) ?_
        simp [Owns, hpc]
    · cases hs
  | lockSection t =>
    simp only [KLightLock.step] at hs
    split at hs
    · rename_i owner hpc
      obtain rfl := Option.some.inj hs
      have hsound := h.sound t
      rw [hpc] at hsound
      unfold KLightLock.lockSlowPath
      split
      · refine h.moveTo (by simp [hpc]) (by simp) trivial (by simp) (by simp) ?_
        simp [Owns, hpc]
      · rename_i hsame
        have htag : s.tag = owner := not_not.mp hsame
        obtain ⟨o, waiting⟩ := owner
        obtain ⟨hwaiting, howner⟩ := hsound
        simp only at hwaiting howner
        subst hwaiting
        cases o with
        | none => exact absurd rfl howner
        | some o => exact h.wait hpc htag
    · cases hs
  | lockReturn t =>
    obtain ⟨hpc, ⟨⟩⟩ := Option.ite_none_right_eq_some.mp hs
    refine h.move (by simp [hpc]) (by simp) trivial (by simp) (by simp) ?_
    simp [Owns, hpc]
  | unlock t =>
    obtain ⟨hpc, ⟨⟩⟩ := Option.ite_none_right_eq_some.mp hs
    refine h.move (by simp [hpc.1]) (by simp) trivial (by simp) (by simp) ?_
    simp [Owns, hpc]
  | release t =>
    obtain ⟨hpc, hs⟩ := Option.ite_none_right_eq_some.mp hs
    have hown : Owns s t := Or.inr (Or.inr (Or.inl hpc))
    have hholds : s.holds t = false :=
      Bool.eq_false_of_not_eq_true fun htrue => (h.called t htrue).1 hpc
    split at hs
    · rename_i htag
      obtain rfl := Option.some.inj hs
      exact h.release hown hholds (h.no_waiters (by rw [htag]))
    · rename_i htag
      obtain rfl := Option.some.inj hs
      refine h.moveTo (by simp [hpc]) (by simp) trivial ?_ (by simp [hholds]) ?_
      · intro _
        have howner := (h.owner t).mp hown
        by_contra hwaiting
        apply htag
        generalize s.tag = tag at howner hwaiting
        cases tag
        simp_all
      · simp [Owns, hpc]
  | unlockSection t next =>
    obtain ⟨hpc, hs⟩ := Option.ite_none_right_eq_some.mp hs
    cases next with
    | none =>
      obtain ⟨hnil, ⟨⟩⟩ := Option.ite_none_right_eq_some.mp hs
      have hown : Owns s t := Or.inr (Or.inr (Or.inr hpc))
      refine h.release hown (Bool.eq_false_of_not_eq_true fun htrue => (h.called t htrue).2 hpc) ?_
      intro o
      refine List.eq_nil_iff_forall_not_mem.mpr fun w hw => ?_
      have howner := (h.owner t).mp hown
      rw [(h.waiter o w hw).1] at howner
      obtain rfl := Option.some.inj howner
      rw [hnil] at hw; cases hw
    | some next =>
      obtain ⟨hnext, ⟨⟩⟩ := Option.ite_none_right_eq_some.mp hs; exact h.handOver hpc hnext
  | requestTerminate t =>
    obtain rfl := Option.some.inj hs
    unfold KLightLock.requestTerminate
    split
    · exact h
    · rename_i hfirst
      dsimp only
      split
      · rename_i hwaiting
        exact h.cancel hwaiting ((ha hwaiting).resolve_left hfirst) _
      · exact ⟨h.owner, h.free, h.sound, h.marked, h.called, h.waiter, h.blocked, h.nodup⟩

/-! ## Runs -/

/-- The states of the runs whose actions are all of a kind. -/
inductive Run (kind : State α → Action α → Prop) : State α → Prop
  | initial : Run kind State.initial
  | step {s s' : State α} {a : Action α} (h : Run kind s) (hkind : kind s a)
      (hs : step s a = some s') : Run kind s'

theorem Run.inv {s : State α} (h : Run (fun s a => a.Uncancelled s) s) : Inv s := by
  induction h with
  | initial => exact inv_initial
  | step _ hkind hs ih => exact ih.step hkind hs

/-- While a thread is blocked the holder's `Unlock` takes the slow path. -/
def TakesSlowPath (s : State α) : Prop :=
  ∀ t w, s.pc t = .unlocking → s.pc w = .waiting →
    step s (.release t) = some { s with pc := update s.pc t .unlockSlowPath }

/-- The slow path hands the lock to a thread that was blocked, and can do so. -/
def HandsOver (s : State α) : Prop :=
  ∀ t w, s.pc t = .unlockSlowPath → s.pc w = .waiting →
    (∃ s', step s (.unlockSection t (some w)) = some s') ∧
    ∀ next s', step s (.unlockSection t next) = some s' → ∃ n, next = some n ∧
      s.pc n = .waiting ∧ s'.tag.owner = some n ∧ s'.pc n = .woken

theorem Inv.takesSlowPath {s : State α} (h : Inv s) : TakesSlowPath s := by
  intro t w ht hw
  obtain ⟨o, htag, -, -⟩ := h.excludes.blocked w hw
  simp only [KLightLock.step]
  rw [if_pos ht, if_neg]
  rw [htag]
  simp

theorem Inv.handsOver {s : State α} (h : Inv s) : HandsOver s := by
  intro t w ht hw
  obtain ⟨o, htag, hmem, -⟩ := h.excludes.blocked w hw
  have howner := (h.owner t).mp (Or.inr (Or.inr (Or.inr ht)))
  rw [htag] at howner
  obtain rfl := Option.some.inj howner
  constructor
  · refine Option.isSome_iff_exists.mp ?_
    simp only [KLightLock.step, KLightLock.unlockSlowPath]
    rw [if_pos ht, if_pos hmem]
    rfl
  · intro next s' hs
    simp only [KLightLock.step] at hs
    rw [if_pos ht] at hs
    cases next with
    | none =>
      simp only [KLightLock.unlockSlowPath] at hs
      rw [if_neg (List.ne_nil_of_mem hmem)] at hs; cases hs
    | some n =>
      simp only [KLightLock.unlockSlowPath] at hs
      split at hs
      · rename_i hn
        obtain rfl := Option.some.inj hs
        exact ⟨n, rfl, (h.waiter o n hn).2, rfl, update_self _ _ _⟩
      · cases hs

theorem Inv.not_excludes {s : State α} (h : Inv s) {w : α} (hw : s.pc w = .waiting)
    (hfirst : s.terminationRequested w = false) (hholds : s.holds w = false) :
    ∃ s₁ s₂, KLightLock.step s (.requestTerminate w) = some s₁ ∧
      KLightLock.step s₁ (.lockReturn w) = some s₂ ∧ ¬ Excludes s₂ := by
  have hnot : s.tag.owner ≠ some w := by
    intro howner
    rcases (h.owner w).mpr howner with hown | hown
    · rw [hholds] at hown
      cases hown
    · rw [hw] at hown
      rcases hown with hown | hown | hown <;> cases hown
  refine ⟨requestTerminate s w, { requestTerminate s w with
    pc := update (requestTerminate s w).pc w .outside
    holds := update (requestTerminate s w).holds w true }, rfl, ?_, ?_⟩
  · simp only [KLightLock.step]
    rw [if_pos]
    simp [KLightLock.requestTerminate, hfirst, hw]
  · intro hexcludes
    have howner := hexcludes.owner w (Or.inl (update_self _ _ _))
    apply hnot
    simpa [KLightLock.requestTerminate, hfirst, hw] using howner

/-- **The light lock**: in every run that cancels no wait of a thread without the lock it excludes, and
    hands the lock over to the threads that wait; and every wait that is cancelled so lets a thread
    return that breaks the exclusion. -/
theorem lightLock_exact (α : Type) [DecidableEq α] (s : State α)
    (h : Run (fun s a => a.Uncancelled s) s) :
    Excludes s ∧ TakesSlowPath s ∧ HandsOver s ∧
    ∀ w, ¬ (Action.requestTerminate w).Uncancelled s →
      ∃ s₁ s₂, step s (.requestTerminate w) = some s₁ ∧ step s₁ (.lockReturn w) = some s₂ ∧
        ¬ Excludes s₂ := by
  have hinv := h.inv
  refine ⟨hinv.excludes, hinv.takesSlowPath, hinv.handsOver, ?_⟩
  intro w hw
  simp only [Action.Uncancelled, Classical.not_imp, not_or, Bool.not_eq_true] at hw
  exact hinv.not_excludes hw.1 hw.2.1 hw.2.2

/-! ## Two threads that have returned -/

/-- The state after some actions. -/
def runActions (s : State α) (actions : List (Action α)) : Option (State α) :=
  actions.foldlM step s

theorem runActions_run {actions : List (Action α)} {kind : State α → Action α → Prop} {s s' : State α}
    (h : Run kind s) (hkind : ∀ s, ∀ a ∈ actions, kind s a)
    (hs : runActions s actions = some s') : Run kind s' := by
  induction actions generalizing s with
  | nil =>
    obtain rfl := Option.some.inj hs; exact h
  | cons a actions ih =>
    obtain ⟨t, ht, hrest⟩ := Option.bind_eq_some_iff.mp hs
    exact ih (.step h (hkind s a List.mem_cons_self) ht)
      (fun s a ha => hkind s a (List.mem_cons_of_mem _ ha)) hrest

/-- Thread 0 takes the lock and thread 1 waits for it. -/
def oneWaits : List (Action Nat) :=
  [.lock 0, .load 0, .exchange 0 false, .lock 1, .load 1, .exchange 1 false, .lockSection 1]

theorem oneWaits_uncancelled (s : State Nat) : ∀ a ∈ oneWaits, a.Uncancelled s := by
  intro a ha
  fin_cases ha <;> exact trivial

theorem oneWaits_cancelled :
    (runActions State.initial (oneWaits ++ [.requestTerminate 1, .lockReturn 1])).map
      (fun s => (s.tag, s.holds 0, s.holds 1)) = some (⟨some 0, true⟩, true, true) := by
  decide +kernel

theorem lightLock_not_excludes : ¬ ∀ s : State Nat, Run (fun _ _ => True) s → Excludes s := by
  intro h
  obtain ⟨s, hs, hfields⟩ := Option.map_eq_some_iff.mp oneWaits_cancelled
  simp only [Prod.mk.injEq] at hfields
  have hone := (h s (runActions_run .initial (fun _ _ _ => trivial) hs)).one 0 1 hfields.2.1 hfields.2.2
  cases hone

/-- The wait of thread 1 is one that must not be cancelled. -/
theorem lightLock_exact_two : ∃ s : State Nat, Run (fun s a => a.Uncancelled s) s ∧ Excludes s ∧
    s.pc 1 = .waiting ∧ ∃ s₁ s₂, step s (.requestTerminate 1) = some s₁ ∧
      step s₁ (.lockReturn 1) = some s₂ ∧ ¬ Excludes s₂ := by
  have hfields : (runActions State.initial oneWaits).map
      (fun s => (s.pc 1, s.holds 1, s.terminationRequested 1)) =
      some (.waiting, false, false) := by
    decide +kernel
  obtain ⟨s, hs, hfields⟩ := Option.map_eq_some_iff.mp hfields
  simp only [Prod.mk.injEq] at hfields
  have hrun : Run (fun s a => a.Uncancelled s) s :=
    runActions_run .initial oneWaits_uncancelled hs
  obtain ⟨hexcludes, -, -, hcancel⟩ := lightLock_exact Nat s hrun
  refine ⟨s, hrun, hexcludes, hfields.1, hcancel 1 ?_⟩
  simp [Action.Uncancelled, hfields]

end Suyu.Kernel.KLightLock
