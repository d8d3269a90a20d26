/-
  KScheduler::UpdateHighestPriorityThreadsImpl — which thread each core runs next.

  1. **Program** — first every core takes the front of its scheduled list, or the pinned thread of
     that thread's process; then each IDLE core looks through the threads suggested for it and
     migrates one, or steals the top thread of a core that has another one to run.  A `none` result
     stands for the two ways the source could leave its arrays: writing past
     `migration_candidates`, and asking for the successor of a null thread.
  2. **Spec** — `Selection`: no thread is selected for two cores, each is runnable and allowed on
     its core, the ready queue stays in order, and every core that changed is in the mask.
  3. **The crux** — `Tops`: a selected thread is ACTIVE on its core, or it is active nowhere and its
     affinity is that core alone (a pinned thread that has yielded to any core).  Distinctness
     follows from that alone, and neither a migration nor a steal can break it: the thread that
     moves was not on top anywhere else, and the thread that replaces it stays where it is active.
-/
import Suyu.Kernel.PriorityQueueRuns

open Lib.Linked
open Suyu.Kernel.KPriorityQueue

namespace Suyu.Kernel

open Function (update update_self update_of_ne)

/-! ## The program -/

def HighestCoreMigrationAllowedPriority : Nat := 2

/-- What the update reads and never writes: processes, pinned threads, thread states, the clock. -/
structure SchedulerEnv (M P : Type) where
  ownerProcess : M → Option P
  pinnedThread : P → Nat → Option M
  numKernelWaiters : M → Nat
  /-- `GetRawState() == ThreadState::Runnable`. -/
  isRunnable : M → Bool
  clockTicks : Int

/-- `KScheduler::SchedulingState`, as far as the update goes. -/
structure SchedulingState (M : Type) where
  needsScheduling : Bool
  shouldCountIdle : Bool
  idleCount : Nat
  highestPriorityThread : Option M

/-- `m_running_threads[core]` of a process with its two counts. -/
structure RunningThread (M : Type) where
  thread : Option M
  idleCount : Nat
  switchCount : Nat

structure SchedulerState (M P : Type) where
  fields : M → MemberFields
  queue : KPriorityQueue M
  cores : Nat → SchedulingState M
  schedulerUpdateNeeded : Bool
  scheduledCount : P → Nat
  lastScheduledTick : M → Int
  runningThread : P → Nat → RunningThread M

namespace Scheduler

variable {M P : Type} [DecidableEq M] [DecidableEq P]

def incrementScheduledCount (env : SchedulerEnv M P) (s : SchedulerState M P) (thread : M) :
    SchedulerState M P :=
  match env.ownerProcess thread with
  | some process => { s with
      scheduledCount := update s.scheduledCount process (s.scheduledCount process + 1) }
  | none => s

def setRunningThread (s : SchedulerState M P) (process : P) (core : Nat) (r : RunningThread M) :
    SchedulerState M P :=
  { s with
    runningThread := update s.runningThread process (update (s.runningThread process) core r) }

/-- The bookkeeping of `UpdateHighestPriorityThread` for the thread that leaves the core. -/
def retireThread (env : SchedulerEnv M P) (s : SchedulerState M P) :
    Option M → SchedulerState M P
  | some prev =>
    let s := incrementScheduledCount env s prev
    { s with lastScheduledTick := update s.lastScheduledTick prev env.clockTicks }
  | none => s

/-- The bookkeeping for the thread that enters the core, when idle time is counted. -/
def countIdle (env : SchedulerEnv M P) (s : SchedulerState M P) (core : Nat)
    (highest : Option M) : SchedulerState M P :=
  if (s.cores core).shouldCountIdle then
    match highest with
    | some thread =>
      match env.ownerProcess thread with
      | some process => setRunningThread s process core ⟨some thread, (s.cores core).idleCount, 0⟩
      | none => s
    | none => { s with
        cores := update s.cores core
          { s.cores core with idleCount := (s.cores core).idleCount + 1 } }
  else s

def coreBit (core : Nat) : BitVec 64 := 1#64 <<< core

def updateHighestPriorityThread (env : SchedulerEnv M P) (s : SchedulerState M P) (core : Nat)
    (highest : Option M) : BitVec 64 × SchedulerState M P :=
  if (s.cores core).highestPriorityThread ≠ highest then
    let s := retireThread env s (s.cores core).highestPriorityThread
    let s := countIdle env s core highest
    (coreBit core, { s with
      cores := update s.cores core
        { s.cores core with highestPriorityThread := highest, needsScheduling := true } })
  else (0, s)

/-- The locals of `UpdateHighestPriorityThreadsImpl` and the state it works on. -/
structure Update (M P : Type) where
  state : SchedulerState M P
  coresNeedingScheduling : BitVec 64
  idleCores : BitVec 64
  topThreads : Nat → Option M

/-- `top_threads[core_id] = thread`, reported to that core's scheduler. -/
def setTop (env : SchedulerEnv M P) (u : Update M P) (core : Nat) (thread : Option M) :
    Update M P :=
  let (mask, s) := updateHighestPriorityThread env u.state core thread
  { u with
    state := s
    coresNeedingScheduling := u.coresNeedingScheduling ||| mask
    topThreads := update u.topThreads core thread }

/-- The thread for a core whose scheduled list starts with `top`: the pinned thread of its process
    is preferred to it, unless kernel waiters depend on `top`. -/
def preferPinned (env : SchedulerEnv M P) (core : Nat) (top : M) : Option M :=
  match env.ownerProcess top with
  | none => some top
  | some parent =>
    match env.pinnedThread parent core with
    | none => some top
    | some pinned =>
      if pinned ≠ top then
        if env.numKernelWaiters top = 0 then
          if env.isRunnable pinned then some pinned else none
        else some top
      else some top

/-- One iteration of the first loop. -/
def selectTop (env : SchedulerEnv M P) (u : Update M P) (core : Nat) : Update M P :=
  match u.state.queue.getScheduledFront core with
  | some top => setTop env u core (preferPinned env core top)
  | none => setTop env { u with idleCores := u.idleCores ||| coreBit core } core none

/-- `SetActiveCore(core_id)`, `ChangeCore`, and the thread is on top of its new core. -/
def migrate (env : SchedulerEnv M P) (u : Update M P) (thread : M) (core : Nat) : Update M P :=
  let prevCore := (u.state.fields thread).activeCore
  let fields := update u.state.fields thread
    { u.state.fields thread with activeCore := core }
  let s := { u.state with
    fields := fields
    queue := u.state.queue.changeCore fields prevCore thread false }
  setTop env { u with state := s } core (some thread)

/-- The loop over suggested threads.  `room` is what is left of `migration_candidates`.  It ends
    with the update done (`inl`), or with all suggestions turned into candidates (`inr`). -/
def searchSuggested (env : SchedulerEnv M P) (u : Update M P) (core : Nat) :
    Nat → List Nat → Option M → Option (Update M P ⊕ List Nat)
  | _, candidates, none => some (.inr candidates)
  | room, candidates, some suggested =>
    let suggestedCore := (u.state.fields suggested).activeCore
    let top := if suggestedCore ≥ 0 then u.topThreads suggestedCore.toNat else none
    if top ≠ some suggested then
      -- threads of too high a priority are not disturbed
      if top.any fun t => (u.state.fields t).priority < HighestCoreMigrationAllowedPriority then
        some (.inl u)
      else some (.inl (migrate env u suggested core))
    else
      match room with
      | 0 => none
      | room + 1 => searchSuggested env u core room (candidates ++ [suggestedCore.toNat])
          (u.state.queue.getSuggestedNext u.state.fields core suggested)

/-- The loop over the candidate cores: the first one with another thread to run loses its top. -/
def stealTop (env : SchedulerEnv M P) (u : Update M P) (core : Nat) :
    List Nat → Option (Update M P)
  | [] => some u
  | candidate :: candidates =>
    match u.topThreads candidate with
    | none => none
    | some suggested =>
      match u.state.queue.getScheduledNext u.state.fields candidate suggested with
      | some next => some (migrate env (setTop env u candidate (some next)) suggested core)
      | none => stealTop env u core candidates

/-- One iteration of the loop over idle cores. -/
def fillIdle (env : SchedulerEnv M P) (u : Update M P) (core : Nat) : Option (Update M P) :=
  match u.state.queue.getSuggestedFront core with
  | none => some u
  | some suggested => do
    match ← searchSuggested env u core NumCores [] (some suggested) with
    | .inl u => some u
    | .inr candidates => stealTop env u core candidates

/-- The loop over idle cores: the lowest one first, until none is left. -/
def fillIdles (env : SchedulerEnv M P) : List Nat → Update M P → Option (Update M P)
  | [], u => some u
  | core :: cores, u => do fillIdles env cores (← fillIdle env u core)

def updateHighestPriorityThreadsImpl (env : SchedulerEnv M P) (s : SchedulerState M P) :
    Option (BitVec 64 × SchedulerState M P) := do
  let u : Update M P :=
    { state := { s with schedulerUpdateNeeded := false }
      coresNeedingScheduling := 0
      idleCores := 0
      topThreads := fun _ => none }
  let u := (List.range NumCores).foldl (selectTop env) u
  let u ← fillIdles env (coresOf u.idleCores) u
  return (u.coresNeedingScheduling, u.state)

/-! ## What holds throughout the update -/

/-- The ready queue is in order and holds exactly the runnable threads. -/
def QueueInv (env : SchedulerEnv M P) (fields : M → MemberFields) (queue : KPriorityQueue M) :
    Prop :=
  ∃ (queued : Finset M) (lists : KPriorityQueue.Lists M),
    (∀ m, m ∈ queued ↔ env.isRunnable m = true) ∧
    ReadyInv ⟨fields, queued, queue, lists⟩

/-- The affinity of a pinned thread is its pinning core only. -/
def PinnedInv (env : SchedulerEnv M P) (fields : M → MemberFields) : Prop :=
  ∀ p core t, core < NumCores → env.pinnedThread p core = some t →
    ∀ c, (fields t).affinityMask.getLsbD c = true ↔ c = core

/-- `t` may be on top of `core`. -/
structure TopOk (env : SchedulerEnv M P) (fields : M → MemberFields) (core : Nat) (t : M) :
    Prop where
  runnable : env.isRunnable t = true
  affinity : (fields t).affinityMask.getLsbD core = true
  active : (fields t).activeCore = core ∨
    ((fields t).activeCore = -1 ∧ ∃ p, env.pinnedThread p core = some t)

omit [DecidableEq M] [DecidableEq P] in
theorem TopOk.congr {env : SchedulerEnv M P} {fields fields' : M → MemberFields} {core : Nat}
    {t : M} (h : TopOk env fields core t) (heq : fields' t = fields t) :
    TopOk env fields' core t := by
  obtain ⟨h1, h2, h3⟩ := h
  rw [← heq] at h2 h3
  exact ⟨h1, h2, h3⟩

/-- The invariant of both loops.  The cores below `k` have been reported to their schedulers. -/
structure UpdateInv (env : SchedulerEnv M P) (s₀ : SchedulerState M P) (k : Nat)
    (u : Update M P) : Prop where
  queue : QueueInv env u.state.fields u.state.queue
  pinned : PinnedInv env u.state.fields
  tops : ∀ c t, c < NumCores → u.topThreads c = some t → TopOk env u.state.fields c t
  reported : ∀ c, c < k → (u.state.cores c).highestPriorityThread = u.topThreads c
  changed : ∀ c, c < NumCores →
    (u.state.cores c).highestPriorityThread ≠ (s₀.cores c).highestPriorityThread →
    u.coresNeedingScheduling.getLsbD c = true
  idle : ∀ c, u.idleCores.getLsbD c = true → c < NumCores

variable {env : SchedulerEnv M P} {s s₀ : SchedulerState M P} {u : Update M P} {k core : Nat}

/-! ### Reporting a top thread -/

theorem getLsbD_coreBit {c : Nat} (hc : core < 64) :
    (coreBit core).getLsbD c = decide (core = c) := by
  rw [coreBit, ← BitVec.twoPow_eq, BitVec.getLsbD_twoPow]; simp [hc]

theorem retireThread_frame (env : SchedulerEnv M P) (s : SchedulerState M P) (t : Option M) :
    (retireThread env s t).fields = s.fields ∧ (retireThread env s t).queue = s.queue ∧
      (retireThread env s t).cores = s.cores := by
  cases t with
  | none => exact ⟨rfl, rfl, rfl⟩
  | some t =>
    simp only [retireThread, incrementScheduledCount]
    split <;> exact ⟨rfl, rfl, rfl⟩

omit [DecidableEq M] in
theorem countIdle_frame (env : SchedulerEnv M P) (s : SchedulerState M P) (core : Nat) (t : Option M) :
    (countIdle env s core t).fields = s.fields ∧ (countIdle env s core t).queue = s.queue ∧
      ∀ c, ((countIdle env s core t).cores c).highestPriorityThread =
        (s.cores c).highestPriorityThread := by
  unfold countIdle
  split
  · cases t with
    | some t =>
      simp only
      split <;> exact ⟨rfl, rfl, fun _ => rfl⟩
    | none =>
      refine ⟨rfl, rfl, fun c => ?_⟩
      by_cases hc : c = core
      · subst hc
        simp
      · simp [hc]
  · exact ⟨rfl, rfl, fun _ => rfl⟩

theorem updateHighestPriorityThread_spec (env : SchedulerEnv M P) (s : SchedulerState M P) (t : Option M) (hc : core < 64) :
    (updateHighestPriorityThread env s core t).2.fields = s.fields ∧
      (updateHighestPriorityThread env s core t).2.queue = s.queue ∧
      (∀ c, ((updateHighestPriorityThread env s core t).2.cores c).highestPriorityThread =
        if c = core then t else (s.cores c).highestPriorityThread) ∧
      ((s.cores core).highestPriorityThread ≠ t →
        (updateHighestPriorityThread env s core t).1.getLsbD core = true) := by
  unfold updateHighestPriorityThread
  split
  · rename_i hne
    obtain ⟨h1, h2, h3⟩ := retireThread_frame env s (s.cores core).highestPriorityThread
    obtain ⟨h4, h5, h6⟩ := countIdle_frame env
      (retireThread env s (s.cores core).highestPriorityThread) core t
    refine ⟨h4.trans h1, h5.trans h2, fun c => ?_, fun _ => ?_⟩
    · by_cases hcc : c = core
      · subst hcc
        simp
      · simp only [update_of_ne hcc, if_neg hcc]
        rw [h6, h3]
    · rw [getLsbD_coreBit hc]; simp
  · rename_i heq
    refine ⟨rfl, rfl, fun c => ?_, fun h => absurd h heq⟩
    split
    · rename_i h
      rw [h]
      simpa using heq
    · rfl

theorem setTop_fields (t : Option M) (hc : core < 64) :
    (setTop env u core t).state.fields = u.state.fields :=
  (updateHighestPriorityThread_spec _ _ t hc).1

theorem setTop_queue (t : Option M) (hc : core < 64) :
    (setTop env u core t).state.queue = u.state.queue :=
  (updateHighestPriorityThread_spec _ _ t hc).2.1

theorem setTop_topThreads (t : Option M) :
    (setTop env u core t).topThreads = update u.topThreads core t := rfl

theorem setTop_inv {k' : Nat} {t : Option M} (hI : UpdateInv env s₀ k u) (hc : core < NumCores)
    (ht : ∀ t', t = some t' → TopOk env u.state.fields core t')
    (hk : ∀ c, c < k' → c = core ∨ c < k) : UpdateInv env s₀ k' (setTop env u core t) := by
  have hc64 : core < 64 := by unfold NumCores at hc; omega
  obtain ⟨h1, h2, h3, h4⟩ := updateHighestPriorityThread_spec env u.state t hc64
  refine ⟨?_, ?_, fun c t' hcn htop => ?_, fun c hck => ?_, fun c hcn hne => ?_, hI.idle⟩
  · rw [setTop_fields t hc64, setTop_queue t hc64]
    exact hI.queue
  · rw [setTop_fields t hc64]
    exact hI.pinned
  · rw [setTop_fields t hc64]
    rw [setTop_topThreads] at htop
    by_cases hcc : c = core
    · subst hcc
      rw [update_self] at htop
      exact ht t' htop
    · rw [update_of_ne hcc] at htop; exact hI.tops c t' hcn htop
  · rw [setTop_topThreads, show ((setTop env u core t).state.cores c).highestPriorityThread = _
      from h3 c]
    by_cases hcc : c = core
    · subst hcc
      rw [if_pos rfl, update_self]
    · rw [if_neg hcc, update_of_ne hcc]; exact hI.reported c ((hk c hck).resolve_left hcc)
  · rw [show ((setTop env u core t).state.cores c).highestPriorityThread = _ from h3 c] at hne
    show (u.coresNeedingScheduling ||| _).getLsbD c = true
    rw [BitVec.getLsbD_or, Bool.or_eq_true]
    by_cases hold : (u.state.cores c).highestPriorityThread = (s₀.cores c).highestPriorityThread
    · right
      by_cases hcc : c = core
      · subst hcc
        rw [if_pos rfl] at hne
        exact h4 fun h => hne (h.symm.trans hold)
      · rw [if_neg hcc] at hne; exact absurd hold hne
    · exact .inl (hI.changed c hcn hold)

/-! ### The first loop -/

omit [DecidableEq M] [DecidableEq P] in
theorem topOk_of_mem {queued : Finset M} {lists : KPriorityQueue.Lists M}
    {fields : M → MemberFields}
    {queue : KPriorityQueue M} (hrun : ∀ m, m ∈ queued ↔ env.isRunnable m = true)
    (hR : ReadyInv ⟨fields, queued, queue, lists⟩) {t : M}
    (ht : t ∈ order lists .scheduled core) : TopOk env fields core t := by
  obtain ⟨p, -, hm⟩ := mem_order.1 ht
  obtain ⟨hq, -, -, hbit, hact⟩ := (hR.placed t ⟨.scheduled, p, core⟩).1 hm
  exact ⟨(hrun t).1 hq, hbit, .inl (hact.1 rfl)⟩

omit [DecidableEq P] in
theorem topOk_of_preferPinned {fields : M → MemberFields} {top t : M} (hc : core < NumCores)
    (hP : PinnedInv env fields) (hvalid : ∀ m, (fields m).Valid) (htop : TopOk env fields core top)
    (ht : preferPinned env core top = some t) : TopOk env fields core t := by
  have hself : some top = some t → TopOk env fields core t := by
    intro h
    rw [← Option.some.inj h]; exact htop
  unfold preferPinned at ht
  split at ht
  · exact hself ht
  split at ht
  · exact hself ht
  rename_i parent _ _ pinned hpinned
  split at ht
  · split at ht
    · split at ht
      · rename_i hrun
        obtain rfl := Option.some.inj ht
        have haff := hP parent core pinned hc hpinned
        refine ⟨hrun, (haff core).2 rfl, ?_⟩
        rcases (hvalid pinned).activeCore with h | ⟨c, h, hb⟩
        · exact .inr ⟨h, parent, hpinned⟩
        · rw [(haff c).1 hb] at h; exact .inl h
      · cases ht
    · exact hself ht
  · exact hself ht

theorem selectTop_inv (hI : UpdateInv env s₀ k u) (hk : k < NumCores) :
    UpdateInv env s₀ (k + 1) (selectTop env u k) := by
  have hnext : ∀ c, c < k + 1 → c = k ∨ c < k := fun c hc => by omega
  unfold selectTop
  split
  · rename_i top htop
    refine setTop_inv hI hk (fun t ht => ?_) hnext
    obtain ⟨queued, lists, hrun, hR⟩ := hI.queue
    have hfirst : (order lists .scheduled k).head? = some top := by
      rw [← hR.represents.getFront_eq]; exact htop
    exact topOk_of_preferPinned hk hI.pinned hR.valid
      (topOk_of_mem hrun hR (List.mem_of_mem_head? hfirst)) ht
  · have hI' : UpdateInv env s₀ k { u with idleCores := u.idleCores ||| coreBit k } := by
      refine ⟨hI.queue, hI.pinned, hI.tops, hI.reported, hI.changed, fun c hc => ?_⟩
      rw [BitVec.getLsbD_or, Bool.or_eq_true] at hc
      rcases hc with hc | hc
      · exact hI.idle c hc
      · rw [getLsbD_coreBit (by unfold NumCores at hk; omega)] at hc
        have : k = c := by simpa using hc
        omega
    exact setTop_inv hI' hk nofun hnext

theorem foldl_selectTop_inv (hI : UpdateInv env s₀ 0 u) :
    UpdateInv env s₀ NumCores ((List.range NumCores).foldl (selectTop env) u) := by
  have h : ∀ n, n ≤ NumCores → UpdateInv env s₀ n ((List.range n).foldl (selectTop env) u) := by
    intro n
    induction n with
    | zero => exact fun _ => hI
    | succ n ih =>
      intro hn
      rw [List.range_succ, List.foldl_append]
      exact selectTop_inv (ih (by omega)) (by omega)
  exact h NumCores (Nat.le_refl _)

/-! ### Migrations -/

theorem migrate_inv {t : M} (hI : UpdateInv env s₀ NumCores u) (hc : core < NumCores)
    (hrun : env.isRunnable t = true) (haff : (u.state.fields t).affinityMask.getLsbD core = true)
    (hnot : ∀ c, c < NumCores → c ≠ core → u.topThreads c ≠ some t) :
    UpdateInv env s₀ NumCores (migrate env u t core) := by
  obtain ⟨queued, lists, hq, hR⟩ := hI.queue
  have hvalid := hR.valid t
  have hf : ({ u.state.fields t with activeCore := core } : MemberFields).Valid :=
    ⟨hvalid.priority, hvalid.affinity, .inr ⟨core, rfl, haff⟩, hvalid.notDummy⟩
  have hR' := changeCore_inv hR ((hq t).2 hrun) hf rfl false
  have hother : ∀ t', t' ≠ t → update u.state.fields t
      { u.state.fields t with activeCore := core } t' = u.state.fields t' :=
    fun t' h => update_of_ne h _ _
  have hmask : ∀ t', (update u.state.fields t
      { u.state.fields t with activeCore := core } t').affinityMask =
        (u.state.fields t').affinityMask := by
    intro t'
    by_cases h : t' = t
    · subst h
      rw [update_self]
    · rw [hother t' h]
  have htop : TopOk env (update u.state.fields t
      { u.state.fields t with activeCore := core }) core t := by
    refine ⟨hrun, ?_, .inl ?_⟩
    · rw [hmask]
      exact haff
    · rw [update_self]
  refine setTop_inv (k := NumCores) ⟨⟨queued, _, hq, hR'⟩, ?_, ?_, hI.reported, hI.changed,
    hI.idle⟩ hc ?_ fun c hc => .inr hc
  · intro p c t' hcn hp c'
    rw [hmask t']
    exact hI.pinned p c t' hcn hp c'
  · intro c t' hcn ht'
    by_cases h : t' = t
    · subst h
      by_cases hcc : c = core
      · subst hcc
        exact htop
      · exact absurd ht' (hnot c hcn hcc)
    · exact (hI.tops c t' hcn ht').congr (hother t' h)
  · intro t' ht'
    obtain rfl := Option.some.inj ht'; exact htop

/-! ### The loop over idle cores -/

section Idle

variable {queued : Finset M} {lists : KPriorityQueue.Lists M}

/-- The thread is suggested for `core` and on top of the core where it is active. -/
def OnTop (lists : KPriorityQueue.Lists M) (u : Update M P) (core : Nat) (t : M) : Prop :=
  t ∈ order lists .suggested core ∧ (u.state.fields t).activeCore ≥ 0 ∧
    u.topThreads (u.state.fields t).activeCore.toNat = some t

omit [DecidableEq M] [DecidableEq P] in
theorem length_le_of_onTop {ts : List M} (hnd : ts.Nodup) (hvalid : ∀ m, (u.state.fields m).Valid)
    (hts : ∀ t ∈ ts, OnTop lists u core t) : ts.length ≤ NumCores := by
  let g : M → Nat := fun t => (u.state.fields t).activeCore.toNat
  have hinj : (ts.map g).Nodup := by
    refine hnd.map_on fun a ha b hb hab => ?_
    have h1 := (hts a ha).2.2
    have h2 := (hts b hb).2.2
    have hab' : (u.state.fields a).activeCore.toNat = (u.state.fields b).activeCore.toNat := hab
    rw [hab'] at h1; exact Option.some.inj (h1.symm.trans h2)
  have hsub : ts.map g ⊆ List.range NumCores := by
    intro c hc
    obtain ⟨t, ht, rfl⟩ := List.mem_map.1 hc
    obtain ⟨c, hact, hbit⟩ := (hvalid t).activeCore.resolve_left
      (by have := (hts t ht).2.1; omega)
    rw [List.mem_range]
    show (u.state.fields t).activeCore.toNat < NumCores
    rw [hact]; exact (hvalid t).affinity c hbit
  have hle := (List.subperm_of_subset hinj hsub).length_le
  rwa [List.length_map, List.length_range] at hle

omit [DecidableEq M] [DecidableEq P] in
theorem of_mem_suggested (hR : ReadyInv ⟨u.state.fields, queued, u.state.queue, lists⟩) {t : M}
    (ht : t ∈ order lists .suggested core) :
    t ∈ queued ∧ (u.state.fields t).affinityMask.getLsbD core = true ∧
      (u.state.fields t).activeCore ≠ core := by
  obtain ⟨p, -, hm⟩ := mem_order.1 ht
  obtain ⟨hq, -, -, hbit, hact⟩ := (hR.placed t ⟨.suggested, p, core⟩).1 hm
  exact ⟨hq, hbit, fun h => by cases hact.2 h⟩

/-- What the search returns. -/
def SearchResult (env : SchedulerEnv M P) (s₀ : SchedulerState M P)
    (lists : KPriorityQueue.Lists M)
    (u : Update M P) (core : Nat) : Update M P ⊕ List Nat → Prop
  | .inl u' => UpdateInv env s₀ NumCores u'
  | .inr candidates => ∀ c ∈ candidates, ∃ t, OnTop lists u core t ∧
      (u.state.fields t).activeCore = c

theorem searchSuggested_spec (hI : UpdateInv env s₀ NumCores u)
    (hrun : ∀ m, m ∈ queued ↔ env.isRunnable m = true)
    (hR : ReadyInv ⟨u.state.fields, queued, u.state.queue, lists⟩) (hc : core < NumCores)
    (rest : List M) (room : Nat) (done : List M) (candidates : List Nat) (suggested : Option M)
    (horder : order lists .suggested core = done ++ rest)
    (hfollow : Follows (u.state.queue.getSuggestedNext u.state.fields core) suggested rest)
    (hdone : ∀ t ∈ done, OnTop lists u core t) (hroom : room + done.length = NumCores)
    (hcand : ∀ c ∈ candidates, ∃ t, OnTop lists u core t ∧ (u.state.fields t).activeCore = c) :
    ∃ r, searchSuggested env u core room candidates suggested = some r ∧
      SearchResult env s₀ lists u core r := by
  induction rest generalizing room done candidates suggested with
  | nil =>
    obtain rfl : suggested = none := hfollow
    exact ⟨.inr candidates, by rw [searchSuggested], hcand⟩
  | cons t rest ih =>
    obtain ⟨rfl, hnext⟩ := hfollow
    have ht : t ∈ order lists .suggested core := by
      rw [horder]; simp
    obtain ⟨hq, haff, hact⟩ := of_mem_suggested hR ht
    rw [searchSuggested.eq_def]
    dsimp only
    by_cases htop : (if (u.state.fields t).activeCore ≥ 0 then
        u.topThreads (u.state.fields t).activeCore.toNat else none) = some t
    · -- on top where it is active: one more candidate
      have hge : (u.state.fields t).activeCore ≥ 0 := by
        by_contra h
        rw [if_neg h] at htop; cases htop
      rw [if_pos hge] at htop
      have hon : OnTop lists u core t := ⟨ht, hge, htop⟩
      have hdone' : ∀ t' ∈ done ++ [t], OnTop lists u core t' := by
        intro t' ht'
        rcases List.mem_append.1 ht' with h | h
        · exact hdone t' h
        · rw [List.mem_singleton.1 h]; exact hon
      have horder' : order lists .suggested core = (done ++ [t]) ++ rest := by
        rw [horder, List.append_assoc]; rfl
      have hnd : (done ++ [t]).Nodup := by
        have h := hR.represents.threaded.nodup_order .suggested core
        rw [horder'] at h; exact (List.nodup_append'.1 h).1
      have hlen := length_le_of_onTop hnd hR.valid hdone'
      rw [List.length_append, List.length_singleton] at hlen
      obtain ⟨room, rfl⟩ : ∃ r, room = r + 1 := ⟨room - 1, by omega⟩
      simp only [if_pos hge, htop, ne_eq, not_true_eq_false, if_false]
      refine ih room (done ++ [t]) _ _ horder' hnext hdone' ?_ ?_
      · rw [List.length_append, List.length_singleton]
        omega
      · intro c hc'
        rcases List.mem_append.1 hc' with h | h
        · exact hcand c h
        · refine ⟨t, hon, ?_⟩
          rw [List.mem_singleton.1 h]; omega
    · rw [if_pos htop]
      have hnot : ∀ c, c < NumCores → c ≠ core → u.topThreads c ≠ some t := by
        intro c hcn hcc hct
        rcases (hI.tops c t hcn hct).active with h | ⟨-, p, hp⟩
        · rw [h, if_pos (by omega), Int.toNat_natCast] at htop
          exact htop hct
        · exact hcc ((hI.pinned p c t hcn hp core).1 haff).symm
      generalize Option.any _ _ = tooHigh
      cases tooHigh with
      | true => exact ⟨.inl u, rfl, hI⟩
      | false => exact ⟨.inl _, rfl, migrate_inv hI hc ((hrun t).1 hq) haff hnot⟩

theorem stealTop_spec (hI : UpdateInv env s₀ NumCores u)
    (hrun : ∀ m, m ∈ queued ↔ env.isRunnable m = true)
    (hR : ReadyInv ⟨u.state.fields, queued, u.state.queue, lists⟩) (hc : core < NumCores)
    (candidates : List Nat)
    (hcand : ∀ c ∈ candidates, ∃ t, OnTop lists u core t ∧ (u.state.fields t).activeCore = c) :
    ∃ u', stealTop env u core candidates = some u' ∧ UpdateInv env s₀ NumCores u' := by
  induction candidates with
  | nil => exact ⟨u, rfl, hI⟩
  | cons c candidates ih =>
    obtain ⟨t, ⟨ht, hge, htop⟩, hact⟩ := hcand c List.mem_cons_self
    rw [hact, Int.toNat_natCast] at htop
    obtain ⟨hq, haff, hne⟩ := of_mem_suggested hR ht
    have hcn : c < NumCores := by
      obtain ⟨c', hact', hbit⟩ := (hR.valid t).activeCore.resolve_left
        (show (u.state.fields t).activeCore ≠ -1 by omega)
      have hcc : c' = c := by
        have hact'' : (u.state.fields t).activeCore = c' := hact'
        omega
      rw [hcc] at hbit; exact (hR.valid t).affinity c hbit
    rw [stealTop, htop]
    simp only
    split
    · rename_i next hnext
      refine ⟨_, rfl, ?_⟩
      -- `t` is in the scheduled list of its core, and `next` comes after it
      have hslot : t ∈ order lists .scheduled c := by
        obtain ⟨p, hp, hm⟩ := mem_order.1 ht
        obtain ⟨-, h1, h2, -, -⟩ := (hR.placed t ⟨.suggested, p, core⟩).1 hm
        refine mem_order.2 ⟨p, hp, (hR.placed t ⟨.scheduled, p, c⟩).2 ⟨hq, h1, h2, ?_, ?_⟩⟩
        · exact (hI.tops c t hcn htop).affinity
        · exact iff_of_true rfl hact
      obtain ⟨l₁, l₂, hsplit⟩ := List.append_of_mem hslot
      have hfollow := hR.follows .scheduled c
      have hnd := hR.represents.threaded.nodup_order .scheduled c
      rw [hsplit] at hfollow hnd
      have hhead : l₂.head? = some next := by
        rw [← hfollow.next_eq]; exact hnext
      have hnext2 : next ∈ l₂ := List.mem_of_mem_head? hhead
      have hnt : next ≠ t := by
        rintro rfl; exact (List.nodup_cons.1 (List.nodup_append'.1 hnd).2.1).1 hnext2
      have hnextOk : TopOk env u.state.fields c next := by
        refine topOk_of_mem hrun hR ?_
        rw [hsplit]; exact List.mem_append_right _ (List.mem_cons_of_mem _ hnext2)
      have hI' : UpdateInv env s₀ NumCores (setTop env u c (some next)) := setTop_inv hI hcn
        (fun t' h => Option.some.inj h ▸ hnextOk) fun c' h => .inr h
      have hc64 : c < 64 := by unfold NumCores at hcn; omega
      refine migrate_inv hI' hc ((hrun t).1 hq) ?_ ?_
      · rw [setTop_fields _ hc64]
        exact haff
      · intro c' hcn' hcc' htop'
        rw [setTop_topThreads] at htop'
        by_cases h : c' = c
        · subst h
          rw [update_self] at htop'
          exact hnt (Option.some.inj htop')
        · rw [update_of_ne h] at htop'
          rcases (hI.tops c' t hcn' htop').active with h' | ⟨h', -⟩
          · exact h (by omega)
          · omega
    · exact ih fun c' hc' => hcand c' (List.mem_cons_of_mem _ hc')

theorem fillIdle_spec (hI : UpdateInv env s₀ NumCores u) (hc : core < NumCores) :
    ∃ u', fillIdle env u core = some u' ∧ UpdateInv env s₀ NumCores u' := by
  obtain ⟨queued, lists, hrun, hR⟩ := hI.queue
  unfold fillIdle
  split
  · exact ⟨u, rfl, hI⟩
  · rename_i suggested hsug
    have hfollow := hR.follows .suggested core
    rw [show Impl.getFront _ .suggested core = some suggested from hsug] at hfollow
    obtain ⟨r, hr, hres⟩ := searchSuggested_spec hI hrun hR hc (order lists .suggested core)
      NumCores [] [] (some suggested) rfl hfollow nofun rfl nofun
    rw [hr]
    cases r with
    | inl u' => exact ⟨u', rfl, hres⟩
    | inr candidates => exact stealTop_spec hI hrun hR hc candidates hres

theorem fillIdles_spec (cores : List Nat) (hI : UpdateInv env s₀ NumCores u)
    (hc : ∀ c ∈ cores, c < NumCores) :
    ∃ u', fillIdles env cores u = some u' ∧ UpdateInv env s₀ NumCores u' := by
  induction cores generalizing u with
  | nil => exact ⟨u, rfl, hI⟩
  | cons c cores ih =>
    obtain ⟨u', h, hI'⟩ := fillIdle_spec hI (hc c List.mem_cons_self)
    obtain ⟨u'', h', hI''⟩ := ih hI' fun c' hc' => hc c' (List.mem_cons_of_mem _ hc')
    refine ⟨u'', ?_, hI''⟩
    rw [fillIdles, h]; exact h'

end Idle

/-! ## The selection -/

/-- What the update leaves behind. -/
structure Selection (env : SchedulerEnv M P) (s s' : SchedulerState M P) (mask : BitVec 64) :
    Prop where
  distinct : ∀ c c' t, c < NumCores → c' < NumCores →
    (s'.cores c).highestPriorityThread = some t →
    (s'.cores c').highestPriorityThread = some t → c = c'
  /-- Runnable, allowed on its core, and active there unless it is a pinned thread active nowhere. -/
  allowed : ∀ c t, c < NumCores → (s'.cores c).highestPriorityThread = some t →
    TopOk env s'.fields c t
  queue : QueueInv env s'.fields s'.queue
  changed : ∀ c, c < NumCores →
    (s'.cores c).highestPriorityThread ≠ (s.cores c).highestPriorityThread →
    mask.getLsbD c = true

omit [DecidableEq M] [DecidableEq P] in
theorem UpdateInv.selection (hI : UpdateInv env s₀ NumCores u) :
    Selection env s₀ u.state u.coresNeedingScheduling := by
  have hok : ∀ c t, c < NumCores → (u.state.cores c).highestPriorityThread = some t →
      TopOk env u.state.fields c t := by
    intro c t hc h
    rw [hI.reported c hc] at h; exact hI.tops c t hc h
  refine ⟨fun c c' t hc hc' h h' => ?_, hok, hI.queue, hI.changed⟩
  have h1 := hok c t hc h
  have h2 := hok c' t hc' h'
  rcases h1.active with ha | ⟨ha, p, hp⟩
  · rcases h2.active with hb | ⟨hb, -⟩
    · omega
    · omega
  · exact ((hI.pinned p c t hc hp c').1 h2.affinity).symm

/-- The update always comes to an end, and it never selects one thread for two cores. -/
theorem selection_of_update (env : SchedulerEnv M P) (s : SchedulerState M P)
    (hq : QueueInv env s.fields s.queue) (hp : PinnedInv env s.fields) :
    ∃ mask s', updateHighestPriorityThreadsImpl env s = some (mask, s') ∧
      Selection env s s' mask := by
  have hI : UpdateInv env s 0
      { state := { s with schedulerUpdateNeeded := false }
        coresNeedingScheduling := 0
        idleCores := 0
        topThreads := fun _ => none } := by
    refine ⟨hq, hp, nofun, nofun, fun c _ h => absurd rfl h, fun c hc => ?_⟩
    simp at hc
  have hI' := foldl_selectTop_inv hI
  obtain ⟨u, hu, hIu⟩ := fillIdles_spec (coresOf _) hI' fun c hc => hI'.idle c (mem_coresOf.1 hc)
  refine ⟨u.coresNeedingScheduling, u.state, ?_, hIu.selection⟩
  rw [updateHighestPriorityThreadsImpl]
  simp only [hu]
  rfl

/-! ### A pinned thread that has yielded

    Two threads of one process; `true` is pinned on core 0 and, after `YieldToAnyThread`, active on
    no core.  It is preferred to `false`, the front of core 0, and stays active on no core. -/

def yieldedEnv : SchedulerEnv Bool Unit where
  ownerProcess _ := some ()
  pinnedThread _ core := if core = 0 then some true else none
  numKernelWaiters _ := 0
  isRunnable _ := true
  clockTicks := 0

def yieldedFields (t : Bool) : MemberFields :=
  if t then ⟨44, -1, 1, false⟩ else ⟨44, 0, 0xF, false⟩

def yieldedState : SchedulerState Bool Unit where
  fields := yieldedFields
  queue := ((KPriorityQueue.init fun _ _ => ⟨none, none⟩).pushBack yieldedFields false).pushBack
    yieldedFields true
  cores _ := ⟨false, false, 0, none⟩
  schedulerUpdateNeeded := true
  scheduledCount _ := 0
  lastScheduledTick _ := 0
  runningThread _ _ := ⟨none, 0, 0⟩

theorem getLsbD_one_iff (c : Nat) : (1 : BitVec 64).getLsbD c = true ↔ c = 0 := by
  rw [BitVec.ofNat_eq_ofNat, BitVec.getLsbD_one]; simp

theorem yieldedFields_valid (t : Bool) : (yieldedFields t).Valid := by
  cases t with
  | true =>
    refine ⟨by simp [yieldedFields, LowestPriority], fun c hc => ?_, .inl rfl, rfl⟩
    rw [(getLsbD_one_iff c).1 hc]; decide
  | false =>
    refine ⟨by simp [yieldedFields, LowestPriority], fun c hc => ?_, .inr ⟨0, rfl, rfl⟩, rfl⟩
    have hlt : (0xF : BitVec 64).toNat < 2 ^ 4 := by decide
    by_contra hge
    have h0 : (0xF : BitVec 64).getLsbD c = false := by
      rw [BitVec.getLsbD]
      refine Nat.testBit_lt_two_pow (lt_of_lt_of_le hlt (Nat.pow_le_pow_right (by decide) ?_))
      unfold NumCores at hge; omega
    exact Bool.noConfusion (hc.symm.trans h0)

theorem yieldedState_queueInv : QueueInv yieldedEnv yieldedState.fields yieldedState.queue := by
  have h₀ := KPriorityQueue.init_inv yieldedFields_valid fun _ _ => ⟨none, none⟩
  have h₁ := pushBack_inv (m := false) h₀ (Finset.notMem_empty _)
  have hq : true ∉ insert false (∅ : Finset Bool) := by decide
  have h₂ := pushBack_inv (m := true) h₁ hq
  have hall : ∀ t, t ∈ insert true (insert false (∅ : Finset Bool)) ↔
      yieldedEnv.isRunnable t = true := by decide
  dsimp only [ReadyState.init] at h₂
  dsimp only [QueueInv, yieldedState]
  exact ⟨_, _, hall, h₂⟩

theorem yieldedState_pinnedInv : PinnedInv yieldedEnv yieldedState.fields := by
  intro p core t _ hp c
  simp only [yieldedEnv] at hp
  split at hp
  · rename_i h
    obtain rfl := Option.some.inj hp
    rw [h]
    exact getLsbD_one_iff c
  · cases hp

/-- The yielded thread is selected for core 0 and for no other core. -/
theorem selection_yielded : ∃ mask s', updateHighestPriorityThreadsImpl yieldedEnv yieldedState =
    some (mask, s') ∧ Selection yieldedEnv yieldedState s' mask :=
  selection_of_update yieldedEnv yieldedState yieldedState_queueInv yieldedState_pinnedInv

theorem update_yielded :
    (updateHighestPriorityThreadsImpl yieldedEnv yieldedState).map (fun r =>
      ((r.2.cores 0).highestPriorityThread, (r.2.fields true).activeCore)) =
      some (some true, -1) := by
  decide +kernel

/-- The selected thread need not be active on its core. -/
theorem not_active_on_selected_core : ¬ ∀ (env : SchedulerEnv Bool Unit)
    (s : SchedulerState Bool Unit), QueueInv env s.fields s.queue → PinnedInv env s.fields →
    ∃ mask s', updateHighestPriorityThreadsImpl env s = some (mask, s') ∧
      ∀ c t, c < NumCores → (s'.cores c).highestPriorityThread = some t →
        (s'.fields t).activeCore = c := by
  intro hall
  obtain ⟨mask, s', hs', hact⟩ :=
    hall yieldedEnv yieldedState yieldedState_queueInv yieldedState_pinnedInv
  have h := update_yielded
  rw [hs'] at h
  obtain ⟨htop, hcore⟩ := Prod.mk.inj (Option.some.inj h)
  have hbad := hact 0 true (by decide) htop
  rw [hcore] at hbad
  cases hbad

end Scheduler

end Suyu.Kernel
