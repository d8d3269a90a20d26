import Mathlib

/-
  `DeviceMemoryManager::UpdatePagesCachedCount`: counters of cached device pages, and the calls that
  protect the pages of the processes behind them.

  1. **Program** - a walk over the device pages of a range.  Two runs of virtual pages are PENDING, one to
     be uncached and one to be cached; a run is handed to `MarkRegionCaching` when the next page does not
     continue it.

  2. **Specification (`Protects`)** - the counters of the backed pages change, and the calls cover, for
     the process behind each page, exactly the pages whose counter became 1, or 0.

  3. **The crux (`foldl_visitPage`)** - what is marked and what is pending are together the pages that
     crossed, each with the process the walk HAD when it came by.

  4. **When it goes wrong** - the process changes where a page has another address space than the FIRST
     page of the range.  When the walk comes back to the space of the first page the process stays.

  The range is inside the address space of the device, so that no index is out of its table.
-/

namespace Suyu.Core

/-! ## Program -/

/-- What `UpdatePagesCachedCount` reads and writes; a process is the number of its `Memory`, and `none`
    is the null pointer. -/
structure PageCaching where
  cpuBackingAddress : Nat → Nat
  registeredProcesses : Nat → Option Nat
  cachedPages : Nat → BitVec 8

/-- A call of `MarkRegionCaching`. -/
structure MarkRegionCaching where
  process : Option Nat
  address : Nat
  size : Nat
  caching : Bool
  deriving DecidableEq, Repr

/-- `uncache_begin` and `uncache_bytes`, or `cache_begin` and `cache_bytes`. -/
structure PendingRun where
  start : Nat
  bytes : Nat
  deriving DecidableEq, Repr

/-- The variables of the loop, and the calls made so far. -/
structure CountWalk where
  cachedPages : Nat → BitVec 8
  memoryDeviceInter : Option Nat
  oldVpage : Nat
  uncache : PendingRun
  cache : PendingRun
  calls : List MarkRegionCaching

namespace PageCaching

def guestMaxAsBits : Nat := 39

def extractCPUBacking (m : PageCaching) (page : Nat) : Nat × Nat :=
  (m.cpuBackingAddress page >>> guestMaxAsBits, m.cpuBackingAddress page % 2 ^ guestMaxAsBits)

def insertCPUBacking (m : PageCaching) (page address asid : Nat) : PageCaching :=
  { m with cpuBackingAddress :=
      Function.update m.cpuBackingAddress page (address ||| asid <<< guestMaxAsBits) }

end PageCaching

/-- The call for a run, if there is one. -/
def PendingRun.mark (r : PendingRun) (process : Option Nat) (caching : Bool) : List MarkRegionCaching :=
  if 0 < r.bytes then [⟨process, r.start <<< 12, r.bytes, caching⟩] else []

/-- A page goes on with the run, or ends it. -/
def PendingRun.count (r : PendingRun) (process : Option Nat) (caching crosses : Bool) (vpage : Nat) :
    PendingRun × List MarkRegionCaching :=
  if crosses then (⟨if r.bytes = 0 then vpage else r.start, r.bytes + 0x1000⟩, [])
  else (⟨r.start, 0⟩, r.mark process caching)

namespace CountWalk

def releasePending (w : CountWalk) : CountWalk :=
  { w with
    uncache := ⟨w.uncache.start, 0⟩
    cache := ⟨w.cache.start, 0⟩
    calls := w.calls ++ if w.memoryDeviceInter.isSome then
        w.uncache.mark w.memoryDeviceInter false ++ w.cache.mark w.memoryDeviceInter true
      else [] }

/-- A page of another address space than the first one. -/
def changeProcess (w : CountWalk) (process : Option Nat) : CountWalk :=
  { w.releasePending with memoryDeviceInter := process }

/-- The counter of a page, and the two runs. -/
def countPage (w : CountWalk) (delta : Int) (page vpage : Nat) : CountWalk :=
  let count := w.cachedPages page + BitVec.ofInt 8 delta
  let uncached := w.uncache.count w.memoryDeviceInter false (decide (count = 0)) vpage
  let cached := w.cache.count w.memoryDeviceInter true (decide (count = 1) && decide (0 < delta)) vpage
  { w with
    cachedPages := Function.update w.cachedPages page count
    oldVpage := vpage
    uncache := uncached.1
    cache := cached.1
    calls := w.calls ++ uncached.2 ++ cached.2 }

end CountWalk

namespace PageCaching

/-- The body of the loop; `asid` is that of the first page of the range. -/
def visitPage (m : PageCaching) (delta : Int) (asid : Nat) (w : CountWalk) (page : Nat) : CountWalk :=
  let asid2 := (m.extractCPUBacking page).1
  let vpage := (m.extractCPUBacking page).2 >>> 12
  if vpage = 0 then w.releasePending
  else
    let w := if asid ≠ asid2 then w.changeProcess (m.registeredProcesses asid2) else w
    let w := if vpage ≠ (w.oldVpage + 1) % 2 ^ 64 then w.releasePending else w
    w.countPage delta page vpage

/-- The device pages of a range. -/
def rangePages (addr size : Nat) : List Nat :=
  List.range' (addr >>> 12) ((addr + size + 0xFFF) / 0x1000 - addr >>> 12)

def updatePagesCachedCount (m : PageCaching) (addr size : Nat) (delta : Int) :
    List MarkRegionCaching × PageCaching :=
  let asid := (m.extractCPUBacking (addr >>> 12)).1
  let baseVpage := (m.extractCPUBacking (addr >>> 12)).2 >>> 12
  let start : CountWalk := ⟨m.cachedPages, m.registeredProcesses asid, (baseVpage + 2 ^ 64 - 1) % 2 ^ 64,
    ⟨0, 0⟩, ⟨0, 0⟩, []⟩
  let w := ((rangePages addr size).foldl (m.visitPage delta asid) start).releasePending
  (w.calls, { m with cachedPages := w.cachedPages })

end PageCaching

/-! ## Specification -/

/-- The pages that a call is about. -/
def markedBy (c : MarkRegionCaching) : List (Option Nat × Nat) :=
  (List.range (c.size / 0x1000)).map fun i => (c.process, c.address / 0x1000 + i)

def marked (caching : Bool) (calls : List MarkRegionCaching) : List (Option Nat × Nat) :=
  (calls.filter fun c => c.caching == caching).flatMap markedBy

namespace PageCaching

/-- A device page is backed by a page of a process. -/
def Backed (m : PageCaching) (page : Nat) : Prop := m.cpuBackingAddress page ≠ 0

instance (m : PageCaching) (page : Nat) : Decidable (m.Backed page) := inferInstanceAs (Decidable (¬_))

def asidOf (m : PageCaching) (page : Nat) : Nat := (m.extractCPUBacking page).1
def vpageOf (m : PageCaching) (page : Nat) : Nat := (m.extractCPUBacking page).2 >>> 12

/-- The process behind a page, and the virtual page. -/
def behind (m : PageCaching) (page : Nat) : Option Nat × Nat :=
  (m.registeredProcesses (m.asidOf page), m.vpageOf page)

/-- What the function is to do: the counters of the backed pages change, and the calls cover exactly the
    pages whose counter became 1 by +1, or 0, each once, in the process behind it. -/
structure Protects (m : PageCaching) (addr size : Nat) (delta : Int)
    (r : List MarkRegionCaching × PageCaching) : Prop where
  counters : ∀ page, ((r.2.cachedPages page).toNat : Int) =
    (m.cachedPages page).toNat + if page ∈ rangePages addr size ∧ m.Backed page then delta else 0
  cached : (marked true r.1).Perm (((rangePages addr size).filter fun page =>
    decide (m.Backed page ∧ r.2.cachedPages page = 1 ∧ delta = 1)).map m.behind)
  uncached : (marked false r.1).Perm (((rangePages addr size).filter fun page =>
    decide (m.Backed page ∧ r.2.cachedPages page = 0)).map m.behind)

/-- The counter of a page becomes 0, or becomes 1 by +1. -/
def Crosses (m : PageCaching) (delta : Int) (page : Nat) : Prop :=
  (m.cachedPages page).toNat + delta = 0 ∨ (m.cachedPages page).toNat + delta = 1 ∧ delta = 1

/-- The process that the walk has after some pages: that of the last one with another address space than
    the first page of the range. -/
def processAfter (m : PageCaching) (asid : Nat) (pages : List Nat) : Option Nat :=
  pages.foldl (fun process page => if m.vpageOf page ≠ 0 ∧ asid ≠ m.asidOf page then
    m.registeredProcesses (m.asidOf page) else process) (m.registeredProcesses asid)

/-- The condition: no page is backed by virtual page 0, and wherever a counter crosses in the address
    space of the first page, the walk has come to no other process, or back by way of the same one. -/
structure Followed (m : PageCaching) (addr size : Nat) (delta : Int) : Prop where
  vpage : ∀ page ∈ rangePages addr size, m.Backed page → m.vpageOf page ≠ 0
  process : ∀ before page after, rangePages addr size = before ++ page :: after →
    m.Backed page → m.Crosses delta page → m.asidOf page = m.asidOf (addr >>> 12) →
      m.processAfter (m.asidOf (addr >>> 12)) before = m.registeredProcesses (m.asidOf page)

end PageCaching

/-! ## What is marked and what is pending -/

theorem marked_append (caching : Bool) (a b : List MarkRegionCaching) :
    marked caching (a ++ b) = marked caching a ++ marked caching b := by
  rw [marked, List.filter_append, List.flatMap_append]; rfl

namespace PendingRun

/-- The pages of a run that is not handed on yet. -/
def pages (r : PendingRun) (process : Option Nat) : List (Option Nat × Nat) :=
  (List.range (r.bytes / 0x1000)).map fun i => (process, r.start + i)

/-- A run ends where the next virtual page would continue it, and a process is at hand for it. -/
structure Open (r : PendingRun) (process : Option Nat) (next : Nat) : Prop where
  whole : r.bytes % 0x1000 = 0
  ends : 0 < r.bytes → r.start + r.bytes / 0x1000 = next ∧ process.isSome = true

variable {r : PendingRun} {process : Option Nat} {next : Nat}

theorem open_empty (start : Nat) (process : Option Nat) (next : Nat) : Open ⟨start, 0⟩ process next where
  whole := rfl
  ends := fun h => absurd h (Nat.lt_irrefl 0)

theorem pages_empty (start : Nat) (process : Option Nat) : pages ⟨start, 0⟩ process = [] := by
  simp [pages]

theorem marked_mark (r : PendingRun) (process : Option Nat) (caching : Bool) :
    marked caching (r.mark process caching) = r.pages process := by
  rw [mark]
  split
  · have hstart : r.start <<< 12 / 0x1000 = r.start := by
      rw [Nat.shiftLeft_eq]; omega
    simp [marked, markedBy, pages, hstart]
  · rename_i h
    have hbytes : r.bytes / 0x1000 = 0 := by omega
    rw [pages, hbytes]; rfl

theorem marked_mark_ne (r : PendingRun) (process : Option Nat) {caching other : Bool}
    (h : other ≠ caching) : marked caching (r.mark process other) = [] := by
  rw [mark]
  split
  · simp [marked, h]
  · rfl

theorem count_crosses (h : r.Open process next) (hsome : process.isSome = true) (caching : Bool) :
    (r.count process caching true next).2 = [] ∧
      (r.count process caching true next).1.Open process (next + 1) ∧
      (r.count process caching true next).1.pages process = r.pages process ++ [(process, next)] := by
  obtain ⟨hwhole, hends⟩ := h
  have hdiv : (r.bytes + 0x1000) / 0x1000 = r.bytes / 0x1000 + 1 := by omega
  have hstart : (if r.bytes = 0 then next else r.start) + r.bytes / 0x1000 = next := by
    split
    · rename_i hzero
      rw [hzero]
      rfl
    · rename_i hne; exact (hends (Nat.pos_of_ne_zero hne)).1
  refine ⟨rfl, ⟨?_, fun _ => ⟨?_, hsome⟩⟩, ?_⟩
  · show (r.bytes + 0x1000) % 0x1000 = 0
    omega
  · show (if r.bytes = 0 then next else r.start) + (r.bytes + 0x1000) / 0x1000 = next + 1
    rw [hdiv, ← Nat.add_assoc, hstart]
  · show (List.range ((r.bytes + 0x1000) / 0x1000)).map
        (fun i => (process, (if r.bytes = 0 then next else r.start) + i)) = _
    rw [hdiv, List.range_succ, List.map_append, List.map_singleton, hstart]
    congr 1
    by_cases hzero : r.bytes = 0
    · rw [pages, hzero]
      rfl
    · rw [if_neg hzero]; rfl

theorem count_ends (r : PendingRun) (process : Option Nat) (caching : Bool) (vpage : Nat) :
    r.count process caching false vpage = (⟨r.start, 0⟩, r.mark process caching) := rfl

end PendingRun

namespace CountWalk

/-- The run of one of the two classes. -/
def run (w : CountWalk) (caching : Bool) : PendingRun := if caching then w.cache else w.uncache

/-- What is marked, and what is pending. -/
def total (w : CountWalk) (caching : Bool) : List (Option Nat × Nat) :=
  marked caching w.calls ++ (w.run caching).pages w.memoryDeviceInter

/-- Both runs end where the next page would continue them. -/
def Ready (w : CountWalk) (next : Nat) : Prop :=
  ∀ caching, (w.run caching).Open w.memoryDeviceInter next

variable {w : CountWalk} {next : Nat}

theorem releasePending_ready (w : CountWalk) (next : Nat) : w.releasePending.Ready next := by
  intro caching; cases caching <;> exact PendingRun.open_empty _ _ _

theorem releasePending_pages (w : CountWalk) (process : Option Nat) (caching : Bool) :
    (w.releasePending.run caching).pages process = [] := by
  cases caching <;> exact PendingRun.pages_empty _ _

theorem releasePending_total (h : w.Ready next) (caching : Bool) :
    w.releasePending.total caching = w.total caching := by
  have hmarked : marked caching (if w.memoryDeviceInter.isSome then
      w.uncache.mark w.memoryDeviceInter false ++ w.cache.mark w.memoryDeviceInter true else []) =
        (w.run caching).pages w.memoryDeviceInter := by
    split
    · rw [marked_append]
      cases caching
      · rw [PendingRun.marked_mark, PendingRun.marked_mark_ne _ _ (by decide), List.append_nil]
        rfl
      · rw [PendingRun.marked_mark, PendingRun.marked_mark_ne _ _ (by decide), List.nil_append]; rfl
    · rename_i hnone
      have hbytes : (w.run caching).bytes = 0 := by
        by_contra hne
        exact hnone ((h caching).ends (Nat.pos_of_ne_zero hne)).2
      rw [PendingRun.pages, hbytes]; rfl
  rw [total, releasePending_pages, List.append_nil, total, ← hmarked]
  exact marked_append caching _ _

theorem changeProcess_total (h : w.Ready next) (process : Option Nat) (caching : Bool) :
    (w.changeProcess process).total caching = w.total caching := by
  rw [← releasePending_total h caching, total, total, releasePending_pages]
  show marked caching w.releasePending.calls ++ (w.releasePending.run caching).pages process = _
  rw [releasePending_pages]

theorem changeProcess_ready (w : CountWalk) (process : Option Nat) (next : Nat) :
    (w.changeProcess process).Ready next := by
  intro caching; cases caching <;> exact PendingRun.open_empty _ _ _

theorem count_total {r : PendingRun} {process : Option Nat} (h : r.Open process next)
    (hsome : process.isSome = true) (caching crosses : Bool) :
    (r.count process caching crosses next).1.Open process (next + 1) ∧
      marked caching (r.count process caching crosses next).2 ++
          (r.count process caching crosses next).1.pages process =
        r.pages process ++ if crosses then [(process, next)] else [] := by
  cases crosses with
  | true =>
    obtain ⟨hnil, hopen, hpages⟩ := PendingRun.count_crosses h hsome caching
    rw [hnil, hpages]; exact ⟨hopen, rfl⟩
  | false =>
    rw [PendingRun.count_ends, PendingRun.pages_empty, PendingRun.marked_mark, List.append_nil]
    exact ⟨PendingRun.open_empty _ _ _, (List.append_nil _).symm⟩

theorem count_other (r : PendingRun) (process : Option Nat) (crosses : Bool) (vpage : Nat)
    {caching other : Bool} (h : other ≠ caching) :
    marked caching (r.count process other crosses vpage).2 = [] := by
  cases crosses with
  | true => rfl
  | false => exact PendingRun.marked_mark_ne _ _ h

/-- Whether a new count belongs to one of the two classes. -/
def crossing (count : BitVec 8) (delta : Int) (caching : Bool) : Bool :=
  if caching then decide (count = 1) && decide (0 < delta) else decide (count = 0)

theorem countPage_spec (h : w.Ready next) (hsome : w.memoryDeviceInter.isSome = true) (delta : Int)
    (page : Nat) : (w.countPage delta page next).Ready (next + 1) ∧
      ∀ caching, (w.countPage delta page next).total caching = w.total caching ++
        if crossing (w.cachedPages page + BitVec.ofInt 8 delta) delta caching then
          [(w.memoryDeviceInter, next)] else [] := by
  obtain ⟨huncache, huncached⟩ := count_total (h false) hsome false
    (crossing (w.cachedPages page + BitVec.ofInt 8 delta) delta false)
  obtain ⟨hcache, hcached⟩ := count_total (h true) hsome true
    (crossing (w.cachedPages page + BitVec.ofInt 8 delta) delta true)
  refine ⟨fun caching => ?_, fun caching => ?_⟩
  · cases caching
    · exact huncache
    · exact hcache
  · show marked caching (w.calls ++ _ ++ _) ++ _ = _
    rw [marked_append, marked_append, total, List.append_assoc, List.append_assoc, List.append_assoc]
    congr 1
    cases caching
    · rw [count_other w.cache _ _ _ (show true ≠ false by decide), List.nil_append]
      exact huncached
    · rw [count_other w.uncache _ _ _ (show false ≠ true by decide), List.nil_append]; exact hcached

end CountWalk

/-! ## The walk -/

namespace PageCaching

variable {m : PageCaching} {delta : Int} {asid : Nat}

theorem vpageOf_lt (m : PageCaching) (page : Nat) : m.vpageOf page < 2 ^ 27 := by
  have hmod : m.cpuBackingAddress page % 2 ^ 39 < 2 ^ 39 := Nat.mod_lt _ (by decide)
  rw [vpageOf, extractCPUBacking, guestMaxAsBits, Nat.shiftRight_eq_div_pow]
  omega

theorem Backed.of_vpage {page : Nat} (h : m.vpageOf page ≠ 0) : m.Backed page := by
  intro hzero
  apply h
  rw [vpageOf, extractCPUBacking, hzero]
  rfl

/-- The process in hand when a page has been visited. -/
def nextProcess (m : PageCaching) (asid : Nat) (process : Option Nat) (page : Nat) : Option Nat :=
  if m.vpageOf page ≠ 0 ∧ asid ≠ m.asidOf page then m.registeredProcesses (m.asidOf page) else process

/-- The page is counted, and its new count belongs to one of the two classes. -/
def counted (m : PageCaching) (delta : Int) (caching : Bool) (page : Nat) : Bool :=
  decide (m.vpageOf page ≠ 0) &&
    CountWalk.crossing (m.cachedPages page + BitVec.ofInt 8 delta) delta caching

/-- What holds at the head of the loop. -/
structure Walking (m : PageCaching) (asid : Nat) (w : CountWalk) : Prop where
  ready : w.Ready ((w.oldVpage + 1) % 2 ^ 64)
  process : (m.registeredProcesses asid).isSome = true → w.memoryDeviceInter.isSome = true

/-- **One page.** -/
theorem visitPage_spec (delta : Int) {w : CountWalk} {page : Nat} (h : Walking m asid w)
    (hcount : w.cachedPages page = m.cachedPages page)
    (hregistered : m.vpageOf page ≠ 0 → (m.registeredProcesses (m.asidOf page)).isSome = true) :
    Walking m asid (m.visitPage delta asid w page) ∧
      (m.visitPage delta asid w page).memoryDeviceInter = m.nextProcess asid w.memoryDeviceInter page ∧
      (m.visitPage delta asid w page).cachedPages = (if m.vpageOf page ≠ 0 then
        Function.update w.cachedPages page (m.cachedPages page + BitVec.ofInt 8 delta)
        else w.cachedPages) ∧
      ∀ caching, (m.visitPage delta asid w page).total caching = w.total caching ++
        if m.counted delta caching page then
          [(m.nextProcess asid w.memoryDeviceInter page, m.vpageOf page)] else [] := by
  by_cases hzero : m.vpageOf page = 0
  · -- A hole: what is pending is handed on.
    have hvisit : m.visitPage delta asid w page = w.releasePending := if_pos hzero
    have hnext : m.nextProcess asid w.memoryDeviceInter page = w.memoryDeviceInter :=
      if_neg fun hand => hand.1 hzero
    rw [hvisit, hnext, if_neg (not_not.mpr hzero)]
    refine ⟨⟨w.releasePending_ready _, h.process⟩, rfl, rfl, fun caching => ?_⟩
    rw [CountWalk.releasePending_total h.ready]; simp [counted, hzero]
  -- The walk as it is when the page is counted.
  obtain ⟨w₁, hw₁, hready₁, hprocess₁, hcounts₁, htotal₁⟩ : ∃ w₁,
      w₁ = (if asid ≠ m.asidOf page then w.changeProcess (m.registeredProcesses (m.asidOf page)) else w) ∧
      w₁.Ready ((w₁.oldVpage + 1) % 2 ^ 64) ∧
      w₁.memoryDeviceInter = m.nextProcess asid w.memoryDeviceInter page ∧
      w₁.cachedPages = w.cachedPages ∧ ∀ caching, w₁.total caching = w.total caching := by
    refine ⟨_, rfl, ?_⟩
    by_cases hasid : asid = m.asidOf page
    · rw [if_neg (not_not.mpr hasid)]
      exact ⟨h.ready, (if_neg fun hand => hand.2 hasid).symm, rfl, fun _ => rfl⟩
    · rw [if_pos hasid]
      exact ⟨w.changeProcess_ready _ _, (if_pos ⟨hzero, hasid⟩).symm, rfl,
        w.changeProcess_total h.ready _⟩
  obtain ⟨w₂, hw₂, hready₂, hprocess₂, hcounts₂, htotal₂⟩ : ∃ w₂,
      w₂ = (if m.vpageOf page ≠ (w₁.oldVpage + 1) % 2 ^ 64 then w₁.releasePending else w₁) ∧
      w₂.Ready (m.vpageOf page) ∧ w₂.memoryDeviceInter = w₁.memoryDeviceInter ∧
      w₂.cachedPages = w₁.cachedPages ∧ ∀ caching, w₂.total caching = w₁.total caching := by
    refine ⟨_, rfl, ?_⟩
    by_cases hvpage : m.vpageOf page = (w₁.oldVpage + 1) % 2 ^ 64
    · rw [if_neg (not_not.mpr hvpage), hvpage]
      exact ⟨hready₁, rfl, rfl, fun _ => rfl⟩
    · rw [if_pos hvpage]
      exact ⟨w₁.releasePending_ready _, rfl, rfl, w₁.releasePending_total hready₁⟩
  have hvisit : m.visitPage delta asid w page = w₂.countPage delta page (m.vpageOf page) := by
    rw [hw₂, hw₁]; exact if_neg hzero
  have hsome : w₂.memoryDeviceInter.isSome = true := by
    rw [hprocess₂, hprocess₁, nextProcess]
    split
    · exact hregistered hzero
    · rename_i hsame
      have hasid : asid = m.asidOf page := by
        by_contra hne
        exact hsame ⟨hzero, hne⟩
      exact h.process (hasid ▸ hregistered hzero)
  obtain ⟨hready, htotal⟩ := CountWalk.countPage_spec hready₂ hsome delta page
  have hlt := m.vpageOf_lt page
  have hmod : (m.vpageOf page + 1) % 2 ^ 64 = m.vpageOf page + 1 := Nat.mod_eq_of_lt (by omega)
  rw [hvisit, if_pos hzero, ← hcount, ← hcounts₁, ← hcounts₂]
  refine ⟨⟨?_, fun _ => hsome⟩, hprocess₂.trans hprocess₁, rfl, fun caching => ?_⟩
  · show CountWalk.Ready _ ((m.vpageOf page + 1) % 2 ^ 64)
    rw [hmod]
    exact hready
  · rw [htotal, htotal₂, htotal₁, hprocess₂, hprocess₁, hcounts₂, hcounts₁, hcount]
    simp [counted, hzero]

/-- The pages that cross, each with the process in hand. -/
def crossed (m : PageCaching) (delta : Int) (asid : Nat) (caching : Bool) :
    Option Nat → List Nat → List (Nat × Option Nat)
  | _, [] => []
  | process, page :: pages =>
      (if m.counted delta caching page then [(page, m.nextProcess asid process page)] else []) ++
        crossed m delta asid caching (m.nextProcess asid process page) pages

/-- **The walk over a range.** -/
theorem foldl_visitPage (m : PageCaching) (delta : Int) (asid : Nat) {pages : List Nat}
    (hnodup : pages.Nodup) (hregistered : ∀ page ∈ pages, m.vpageOf page ≠ 0 →
      (m.registeredProcesses (m.asidOf page)).isSome = true) {w : CountWalk} (h : Walking m asid w)
    (hcount : ∀ page ∈ pages, w.cachedPages page = m.cachedPages page) :
    Walking m asid (pages.foldl (m.visitPage delta asid) w) ∧
      (∀ page, (pages.foldl (m.visitPage delta asid) w).cachedPages page =
        if page ∈ pages ∧ m.vpageOf page ≠ 0 then m.cachedPages page + BitVec.ofInt 8 delta
        else w.cachedPages page) ∧
      ∀ caching, (pages.foldl (m.visitPage delta asid) w).total caching = w.total caching ++
        (m.crossed delta asid caching w.memoryDeviceInter pages).map fun v => (v.2, m.vpageOf v.1) := by
  induction pages generalizing w with
  | nil =>
    refine ⟨h, fun page => ?_, fun caching => (List.append_nil _).symm⟩
    rw [if_neg fun hand => absurd hand.1 List.not_mem_nil]; rfl
  | cons first pages ih =>
    obtain ⟨hfirst, hnodup⟩ := List.nodup_cons.mp hnodup
    obtain ⟨hwalking, hprocess, hcounts, htotal⟩ := visitPage_spec delta h
      (hcount first List.mem_cons_self) (hregistered first List.mem_cons_self)
    have hother : ∀ page, page ≠ first →
        (m.visitPage delta asid w first).cachedPages page = w.cachedPages page := by
      intro page hne
      rw [hcounts]
      split
      · exact Function.update_of_ne hne _ _
      · rfl
    obtain ⟨hwalking', hcounts', htotal'⟩ := ih hnodup
      (fun page hpage => hregistered page (List.mem_cons_of_mem _ hpage)) hwalking
      (fun page hpage => (hother page fun heq => hfirst (heq ▸ hpage)).trans
        (hcount page (List.mem_cons_of_mem _ hpage)))
    rw [List.foldl_cons]
    refine ⟨hwalking', fun page => ?_, fun caching => ?_⟩
    · rw [hcounts' page]
      by_cases heq : page = first
      · subst heq
        rw [if_neg fun hand => hfirst hand.1, hcounts]
        by_cases hzero : m.vpageOf page = 0
        · rw [if_neg (not_not.mpr hzero), if_neg fun hand => hand.2 hzero]
        · rw [if_pos hzero, if_pos ⟨List.mem_cons_self, hzero⟩, Function.update_self]
      · rw [hother page heq]; simp [heq]
    · rw [htotal', htotal, crossed, List.map_append, List.append_assoc, hprocess]
      congr 2
      split <;> rfl

/-! ## The result -/

theorem processAfter_eq (m : PageCaching) (asid : Nat) (pages : List Nat) :
    m.processAfter asid pages = pages.foldl (m.nextProcess asid) (m.registeredProcesses asid) := rfl

theorem exists_of_mem_crossed {caching : Bool} {pages : List Nat} {process : Option Nat}
    {v : Nat × Option Nat} (hv : v ∈ m.crossed delta asid caching process pages) :
    ∃ before after, pages = before ++ v.1 :: after ∧ m.counted delta caching v.1 = true ∧
      v.2 = m.nextProcess asid (before.foldl (m.nextProcess asid) process) v.1 := by
  induction pages generalizing process with
  | nil => cases hv
  | cons page pages ih =>
    rcases List.mem_append.mp hv with hhere | hlater
    · split at hhere
      · rename_i hcounted
        obtain rfl := List.mem_singleton.mp hhere
        exact ⟨[], pages, rfl, hcounted, rfl⟩
      · cases hhere
    · obtain ⟨before, after, rfl, hcounted, heq⟩ := ih hlater
      exact ⟨page :: before, after, rfl, hcounted, heq⟩

theorem mem_crossed {caching : Bool} (asid : Nat) (process : Option Nat) (before : List Nat) {page : Nat}
    (after : List Nat) (hcounted : m.counted delta caching page = true) :
    (page, m.nextProcess asid (before.foldl (m.nextProcess asid) process) page) ∈
      m.crossed delta asid caching process (before ++ page :: after) := by
  induction before generalizing process with
  | nil =>
    apply List.mem_append_left
    rw [if_pos hcounted]; exact List.mem_singleton.mpr rfl
  | cons first before ih => exact List.mem_append_right _ (ih _)

theorem map_crossed (caching : Bool) (process : Option Nat) (pages : List Nat) :
    (m.crossed delta asid caching process pages).map (fun v => m.behind v.1) =
      (pages.filter (m.counted delta caching)).map m.behind := by
  induction pages generalizing process with
  | nil => rfl
  | cons page pages ih =>
    rw [crossed, List.map_append, ih, List.filter_cons]
    split <;> rfl

theorem updatePagesCachedCount_spec (m : PageCaching) (addr size : Nat) (delta : Int)
    (hregistered : ∀ page ∈ rangePages addr size, m.Backed page →
      (m.registeredProcesses (m.asidOf page)).isSome = true) :
    (∀ page, (m.updatePagesCachedCount addr size delta).2.cachedPages page =
      if page ∈ rangePages addr size ∧ m.vpageOf page ≠ 0 then
        m.cachedPages page + BitVec.ofInt 8 delta else m.cachedPages page) ∧
    ∀ caching, marked caching (m.updatePagesCachedCount addr size delta).1 =
      (m.crossed delta (m.asidOf (addr >>> 12)) caching
        (m.registeredProcesses (m.asidOf (addr >>> 12))) (rangePages addr size)).map
          fun v => (v.2, m.vpageOf v.1) := by
  obtain ⟨hwalking, hcounts, htotal⟩ := foldl_visitPage m delta (m.asidOf (addr >>> 12))
    (show (rangePages addr size).Nodup from List.nodup_range')
    (fun page hpage hvpage => hregistered page hpage (.of_vpage hvpage))
    (w := ⟨m.cachedPages, m.registeredProcesses (m.asidOf (addr >>> 12)),
      (m.vpageOf (addr >>> 12) + 2 ^ 64 - 1) % 2 ^ 64, ⟨0, 0⟩, ⟨0, 0⟩, []⟩)
    ⟨fun caching => by cases caching <;> exact PendingRun.open_empty _ _ _, fun h => h⟩
    (fun _ _ => rfl)
  refine ⟨hcounts, fun caching => ?_⟩
  have hstart : (CountWalk.mk m.cachedPages (m.registeredProcesses (m.asidOf (addr >>> 12)))
      ((m.vpageOf (addr >>> 12) + 2 ^ 64 - 1) % 2 ^ 64) ⟨0, 0⟩ ⟨0, 0⟩ []).total caching = [] :=
    List.append_eq_nil_iff.mpr ⟨rfl, by cases caching <;> exact PendingRun.pages_empty _ _⟩
  have hend := CountWalk.releasePending_total hwalking.ready caching
  rw [htotal, hstart, List.nil_append, CountWalk.total, CountWalk.releasePending_pages,
    List.append_nil] at hend
  exact hend

theorem toNat_count {count : BitVec 8}
    (hrange : 0 ≤ (count.toNat : Int) + delta ∧ count.toNat + delta ≤ 255) :
    ((count + BitVec.ofInt 8 delta).toNat : Int) = count.toNat + delta := by
  rw [BitVec.toNat_add, BitVec.toNat_ofInt]; omega

theorem counted_iff (hdelta : delta = 1 ∨ delta = -1) {page : Nat} (hvpage : m.vpageOf page ≠ 0)
    (hrange : 0 ≤ ((m.cachedPages page).toNat : Int) + delta ∧ (m.cachedPages page).toNat + delta ≤ 255)
    (caching : Bool) : m.counted delta caching page = true ↔
      if caching then (m.cachedPages page).toNat + delta = 1 ∧ delta = 1
      else (m.cachedPages page).toNat + delta = 0 := by
  have hcount := toNat_count hrange
  have heq : ∀ n : Nat, n < 256 → (m.cachedPages page + BitVec.ofInt 8 delta = BitVec.ofNat 8 n ↔
      (m.cachedPages page).toNat + delta = n) := by
    intro n hn
    rw [← BitVec.toNat_inj, BitVec.toNat_ofNat, Nat.mod_eq_of_lt hn]; omega
  have hzero := heq 0 (by decide)
  have hone := heq 1 (by decide)
  rw [counted, decide_eq_true hvpage, Bool.true_and]
  cases caching
  · exact decide_eq_true_iff.trans hzero
  · have hpos : 0 < delta ↔ delta = 1 := by omega
    show (decide _ && decide _) = true ↔ _
    rw [Bool.and_eq_true, decide_eq_true_iff, decide_eq_true_iff, hpos]
    exact and_congr_left fun _ => hone

theorem forall_of_map_perm {α β : Type} {f g : α → β} {l : List α} (hperm : (l.map f).Perm (l.map g))
    (p : β → Bool) (himp : ∀ v ∈ l, p (f v) = true → p (g v) = true) :
    ∀ v ∈ l, p (g v) = true → p (f v) = true := by
  have hcount := hperm.countP_eq p
  rw [List.countP_map, List.countP_map] at hcount
  clear hperm
  induction l with
  | nil => exact fun v hv => absurd hv List.not_mem_nil
  | cons a l ih =>
    have hmono := List.countP_mono_left (p := p ∘ f) (q := p ∘ g)
      fun v hv => himp v (List.mem_cons_of_mem _ hv)
    rw [List.countP_cons, List.countP_cons] at hcount
    have ha := himp a List.mem_cons_self
    by_cases hg : p (g a) = true
    · by_cases hf : p (f a) = true
      · simp only [Function.comp, hf, hg, if_true] at hcount
        intro v hv
        rcases List.mem_cons.mp hv with rfl | hv
        · exact fun _ => hf
        · exact ih (fun v hv => himp v (List.mem_cons_of_mem _ hv))
            (by simpa [Function.comp] using hcount) v hv
      · simp only [Function.comp, hf, hg, if_true] at hcount hmono
        simp only [Bool.false_eq_true, if_false, Nat.add_zero] at hcount; omega
    · have hf : ¬p (f a) = true := fun hf => hg (ha hf)
      simp only [Function.comp, hf, hg] at hcount
      intro v hv
      rcases List.mem_cons.mp hv with rfl | hv
      · exact fun h => absurd h hg
      · exact ih (fun v hv => himp v (List.mem_cons_of_mem _ hv))
          (by simpa [Function.comp] using hcount) v hv

section Result

variable {addr size : Nat}

theorem filter_counted (hdelta : delta = 1 ∨ delta = -1)
    (hvpage : ∀ page ∈ rangePages addr size, m.Backed page → m.vpageOf page ≠ 0)
    {counts : Nat → BitVec 8}
    (hcounts : ∀ page, counts page = if page ∈ rangePages addr size ∧ m.vpageOf page ≠ 0 then
      m.cachedPages page + BitVec.ofInt 8 delta else m.cachedPages page) :
    ((rangePages addr size).filter fun page =>
        decide (m.Backed page ∧ counts page = 1 ∧ delta = 1)) =
      (rangePages addr size).filter (m.counted delta true) ∧
    ((rangePages addr size).filter fun page => decide (m.Backed page ∧ counts page = 0)) =
      (rangePages addr size).filter (m.counted delta false) := by
  have hpos : 0 < delta ↔ delta = 1 := by omega
  constructor
  · refine List.filter_congr fun page hpage => ?_
    by_cases hbacked : m.Backed page
    · have hne := hvpage page hpage hbacked
      rw [hcounts, if_pos ⟨hpage, hne⟩]
      simp [hbacked, counted, CountWalk.crossing, hne, hpos]
    · have hzero : m.vpageOf page = 0 := by
        by_contra hne
        exact hbacked (.of_vpage hne)
      simp [hbacked, counted, hzero]
  · refine List.filter_congr fun page hpage => ?_
    by_cases hbacked : m.Backed page
    · have hne := hvpage page hpage hbacked
      rw [hcounts, if_pos ⟨hpage, hne⟩]
      simp [hbacked, counted, CountWalk.crossing, hne]
    · have hzero : m.vpageOf page = 0 := by
        by_contra hne
        exact hbacked (.of_vpage hne)
      simp [hbacked, counted, hzero]

theorem marked_of_followed (hdelta : delta = 1 ∨ delta = -1)
    (hrange : ∀ page ∈ rangePages addr size, m.Backed page →
      0 ≤ ((m.cachedPages page).toNat : Int) + delta ∧ (m.cachedPages page).toNat + delta ≤ 255)
    (h : m.Followed addr size delta) (caching : Bool) :
    (m.crossed delta (m.asidOf (addr >>> 12)) caching
        (m.registeredProcesses (m.asidOf (addr >>> 12))) (rangePages addr size)).map
          (fun v => (v.2, m.vpageOf v.1)) =
      ((rangePages addr size).filter (m.counted delta caching)).map m.behind := by
  rw [← map_crossed caching (m.registeredProcesses (m.asidOf (addr >>> 12)))]
  refine List.map_congr_left fun v hv => ?_
  obtain ⟨before, after, hsplit, hcounted, hprocess⟩ := exists_of_mem_crossed hv
  have hvpage : m.vpageOf v.1 ≠ 0 := by
    rw [counted, Bool.and_eq_true] at hcounted; exact of_decide_eq_true hcounted.1
  have hbacked := Backed.of_vpage hvpage
  have hmem : v.1 ∈ rangePages addr size := by
    rw [hsplit]; exact List.mem_append_right _ List.mem_cons_self
  have hcrosses : m.Crosses delta v.1 := by
    have hiff := (counted_iff hdelta hvpage (hrange v.1 hmem hbacked) caching).mp hcounted
    cases caching
    · exact .inl hiff
    · exact .inr hiff
  refine Prod.ext ?_ rfl
  show v.2 = m.registeredProcesses (m.asidOf v.1)
  rw [hprocess, nextProcess]
  by_cases hasid : m.asidOf (addr >>> 12) = m.asidOf v.1
  · rw [if_neg fun hand => hand.2 hasid, ← processAfter_eq]
    exact h.process before v.1 after hsplit hbacked hcrosses hasid.symm
  · exact if_pos ⟨hvpage, hasid⟩

/-- **`UpdatePagesCachedCount` protects the right pages of the right processes exactly if** no page is
    backed by virtual page 0, and at every page of the first page's address space whose counter crosses,
    the last page of another one before it, if any, belongs to the same process. -/
theorem updatePagesCachedCount_protects_iff (m : PageCaching) (addr size : Nat) {delta : Int}
    (hdelta : delta = 1 ∨ delta = -1) (hrange : ∀ page ∈ rangePages addr size, m.Backed page →
      0 ≤ ((m.cachedPages page).toNat : Int) + delta ∧ (m.cachedPages page).toNat + delta ≤ 255)
    (hregistered : ∀ page ∈ rangePages addr size, m.Backed page →
      (m.registeredProcesses (m.asidOf page)).isSome = true) :
    m.Protects addr size delta (m.updatePagesCachedCount addr size delta) ↔
      m.Followed addr size delta := by
  obtain ⟨hcounts, hmarked⟩ := updatePagesCachedCount_spec m addr size delta hregistered
  constructor
  · rintro ⟨hcounters, hcached, huncached⟩
    have hvpage : ∀ page ∈ rangePages addr size, m.Backed page → m.vpageOf page ≠ 0 := by
      intro page hpage hbacked hzero
      have hcounter := hcounters page
      rw [hcounts, if_neg fun hand => hand.2 hzero, if_pos ⟨hpage, hbacked⟩] at hcounter
      omega
    obtain ⟨hfilterCached, hfilterUncached⟩ := filter_counted hdelta hvpage hcounts
    refine ⟨hvpage, fun before page after hsplit hbacked hcrosses hasid => ?_⟩
    have hmem : page ∈ rangePages addr size := by
      rw [hsplit]; exact List.mem_append_right _ List.mem_cons_self
    have hne := hvpage page hmem hbacked
    have hiff := counted_iff hdelta hne (hrange page hmem hbacked)
    -- The class the page belongs to, and what was marked in it.
    obtain ⟨caching, hcounted, hperm⟩ : ∃ caching, m.counted delta caching page = true ∧
        (marked caching (m.updatePagesCachedCount addr size delta).1).Perm
          (((rangePages addr size).filter (m.counted delta caching)).map m.behind) := by
      rcases hcrosses with hzero | hone
      · exact ⟨false, (hiff false).mpr hzero, hfilterUncached ▸ huncached⟩
      · exact ⟨true, (hiff true).mpr hone, hfilterCached ▸ hcached⟩
    rw [hmarked, ← map_crossed caching (m.registeredProcesses (m.asidOf (addr >>> 12)))] at hperm
    have hin := mem_crossed (m.asidOf (addr >>> 12)) (m.registeredProcesses (m.asidOf (addr >>> 12)))
      before after hcounted
    rw [← hsplit] at hin
    have hsame := forall_of_map_perm hperm
      (fun x => decide (x.1 = m.registeredProcesses (m.asidOf (addr >>> 12)))) (fun v hv hfirst => by
        obtain ⟨before', after', -, hcounted', hprocess⟩ := exists_of_mem_crossed hv
        have hvpage' : m.vpageOf v.1 ≠ 0 := by
          rw [counted, Bool.and_eq_true] at hcounted'; exact of_decide_eq_true hcounted'.1
        have hfirst' := of_decide_eq_true hfirst
        apply decide_eq_true
        show m.registeredProcesses (m.asidOf v.1) = _
        by_cases hasid' : m.asidOf (addr >>> 12) = m.asidOf v.1
        · rw [hasid']
        · rw [hprocess, nextProcess, if_pos ⟨hvpage', hasid'⟩] at hfirst'
          exact hfirst') _ hin (decide_eq_true (congrArg m.registeredProcesses hasid))
    have hnext := of_decide_eq_true hsame
    rw [hasid, ← hnext]
    show _ = m.nextProcess _ _ page
    rw [nextProcess, if_neg fun hand => hand.2 hasid.symm]
    rfl
  · intro h
    obtain ⟨hfilterCached, hfilterUncached⟩ := filter_counted hdelta h.vpage hcounts
    refine ⟨fun page => ?_, ?_, ?_⟩
    · rw [hcounts]
      by_cases hpage : page ∈ rangePages addr size ∧ m.Backed page
      · rw [if_pos ⟨hpage.1, h.vpage page hpage.1 hpage.2⟩, if_pos hpage]
        exact toNat_count (hrange page hpage.1 hpage.2)
      · rw [if_neg fun hand => hpage ⟨hand.1, .of_vpage hand.2⟩, if_neg hpage]; omega
    · rw [hfilterCached, hmarked, marked_of_followed hdelta hrange h]
    · rw [hfilterUncached, hmarked, marked_of_followed hdelta hrange h]

end Result

/-! ## Processes that alternate -/

/-- Nothing is backed or cached; the address space `n` is that of process `n`. -/
def unbacked : PageCaching := ⟨fun _ => 0, some, fun _ => 0⟩

/-- Two neighbours of one process. -/
def neighbours : PageCaching := (unbacked.insertCPUBacking 1 0x10000 1).insertCPUBacking 2 0x11000 1

/-- A page of another process between two of one. -/
def alternating : PageCaching :=
  ((unbacked.insertCPUBacking 1 0x10000 1).insertCPUBacking 2 0x20000 2).insertCPUBacking 3 0x11000 1

theorem updatePagesCachedCount_protects_iff_neighbours :
    neighbours.Protects 0x1000 0x2000 1 (neighbours.updatePagesCachedCount 0x1000 0x2000 1) := by
  apply (updatePagesCachedCount_protects_iff neighbours 0x1000 0x2000 (.inl rfl) (by decide)
    (by decide)).mpr
  refine ⟨by decide, fun before page after hsplit _ _ _ => ?_⟩
  have hasid : ∀ p ∈ rangePages 0x1000 0x2000, neighbours.asidOf p = 1 := by decide
  have hbefore : ∀ p ∈ before, neighbours.asidOf p = 1 := fun p hp =>
    hasid p (hsplit ▸ List.mem_append_left _ hp)
  rw [hasid page (hsplit ▸ List.mem_append_right _ List.mem_cons_self)]
  clear hsplit
  -- No page in front changes the process.
  induction before using List.reverseRecOn with
  | nil => decide
  | append_singleton before p ih =>
    have hp := hbefore p (List.mem_append_right _ (List.mem_singleton.mpr rfl))
    rw [processAfter_eq, List.foldl_append, List.foldl_cons, List.foldl_nil, nextProcess, hp,
      if_neg fun hand => hand.2 (by decide)]
    exact ih fun q hq => hbefore q (List.mem_append_left _ hq)

/-- The second page of process 1 is cached in process 2. -/
theorem not_updatePagesCachedCount_protects : ¬∀ (m : PageCaching) (addr size : Nat) (delta : Int),
    delta = 1 ∨ delta = -1 → (∀ page ∈ rangePages addr size, m.Backed page →
      0 ≤ ((m.cachedPages page).toNat : Int) + delta ∧ (m.cachedPages page).toNat + delta ≤ 255) →
    (∀ page ∈ rangePages addr size, m.Backed page →
      (m.registeredProcesses (m.asidOf page)).isSome = true) →
    m.Protects addr size delta (m.updatePagesCachedCount addr size delta) := by
  intro h
  have hcached := (h alternating 0x1000 0x3000 1 (.inl rfl) (by decide) (by decide)).cached
  have hwrong : (some 2, 0x11) ∈ marked true (alternating.updatePagesCachedCount 0x1000 0x3000 1).1 := by
    decide
  have hin := hcached.mem_iff.mp hwrong
  revert hin
  decide

end PageCaching

end Suyu.Core
