import Mathlib
import Suyu.Audio.MixContext
import Suyu.Lib.FinishOrder

/-
  `NodeStates::Tsort`, called again and again.

  1. **Program** - `depthFirstSearch` with everything that survives a call: `ResetState` clears the
     states and the results, but NOT the stack.  An index behind the stack or the results is an error of
     its own.

  2. **Specification (`CallOk`)** - a call ends, answers false exactly at a cycle, and otherwise gives
     every node once and before the nodes it has an edge to.

  3. **The crux (`round_spec`)** - the nodes that are found form a PATH through the layers of the stack,
     the complete ones are finished in order.  A visit that finds one of `u` unknown nodes pushes `u -
     1` others at most, so what is on the stack and `u` over 2 together do not grow.

  4. **When it goes wrong (`HasRoom`)** - a call that answers false leaves its stack behind, and the
     next one pushes on top of it.

  A node is an index below the count; a matrix whose indices do not fit 32 bits cannot be made.  The
  work buffer has the size that `GetWorkBufferSize` gives, in `u32` where the source has it.
-/

namespace Suyu.Audio.Nodes

open Function (update update_apply update_self)

open Lib.FinishOrder Relation

/-! ## Program -/

/-- `EdgeMatrix::Connected`. -/
abbrev EdgeMatrix (n : Nat) := Fin n → Fin n → Bool

/-- `NodeStates` between two calls: the state of each node, the results in the order in which they are
    pushed, and the stack, its top first. -/
structure NodeStates (n : Nat) where
  state : Fin n → SearchState
  results : List (Fin n)
  stack : List (Fin n)

inductive Stop where
  | outOfRange
  | unfinished
deriving DecidableEq

abbrev Attempt := Except Stop

namespace NodeStates

/-- `Stack::CalcBufferSize`. -/
def calcBufferSize (count : Nat) : Nat := count * 4 % 2 ^ 32

/-- `AlignUp(count, 0x40) / sizeof(u64)`, the bytes of the bits of all nodes. -/
def numBlocks (count : Nat) : Nat := (count + 0x3F) / 0x40 * 0x40 / 8

/-- A `BitArray` has 48 bytes, a `std::vector<bool>` and a size.  The last product is one of two `u32`. -/
def getWorkBufferSize (count : Nat) : Nat :=
  numBlocks count * 2 + count * 48 + count * calcBufferSize count % 2 ^ 32

/-- The places of `stack` after `Initialize`: `count * count`, as far as they are inside the buffer behind
    the bits and the results. -/
def stackPlaces (count : Nat) : Nat :=
  min (count * count % 2 ^ 32) ((getWorkBufferSize count - (numBlocks count * 2 + count * 4)) / 4)

/-- Below `2^15` nodes the products do not wrap and all places are inside. -/
theorem stackPlaces_eq {count : Nat} (h : count < 2 ^ 15) : stackPlaces count = count * count := by
  have hsquare : count * count ≤ (2 ^ 15 - 1) * (2 ^ 15 - 1) :=
    Nat.mul_le_mul (Nat.le_pred_of_lt h) (Nat.le_pred_of_lt h)
  have hstack : calcBufferSize count = count * 4 := Nat.mod_eq_of_lt (by omega)
  have hproduct : count * calcBufferSize count = count * count * 4 := by
    rw [hstack, Nat.mul_assoc]
  rw [stackPlaces, getWorkBufferSize, hproduct]
  omega

-- from there on the buffer ends in the middle of the stack
example : stackPlaces (2 ^ 15) = 360448 := by decide

variable {n : Nat} (edgeMatrix : EdgeMatrix n)

/-- `Initialize`, for a new object. -/
def initialized (n : Nat) : NodeStates n := ⟨fun _ => .unknown, [], []⟩

def resetState (s : NodeStates n) : NodeStates n := { s with state := fun _ => .unknown, results := [] }

def setState (s : NodeStates n) (id : Fin n) (state : SearchState) : NodeStates n :=
  { s with state := update s.state id state }

/-- `PushTsortResult`: `results` has `n` places. -/
def pushTsortResult (s : NodeStates n) (id : Fin n) : Attempt (NodeStates n) :=
  if s.results.length < n then .ok { s with results := s.results ++ [id] } else .error .outOfRange

/-- `Stack::push`, at a place of `stack` in the work buffer. -/
def push (s : NodeStates n) (data : Fin n) : Attempt (NodeStates n) :=
  if s.stack.length < stackPlaces n then .ok { s with stack := data :: s.stack } else .error .outOfRange

def top (s : NodeStates n) : Attempt (Fin n) :=
  match s.stack with
  | node :: below => if below.length < stackPlaces n then .ok node else .error .outOfRange
  | [] => .error .outOfRange

def pop (s : NodeStates n) : Attempt (NodeStates n) :=
  match s.stack with
  | _ :: below => if below.length < stackPlaces n then .ok { s with stack := below } else .error .outOfRange
  | [] => .error .outOfRange

/-- The loop over the edges of a node, which ends at a found node with `false`. -/
def scanEdges (node : Fin n) : List (Fin n) → NodeStates n → Attempt (Bool × NodeStates n)
  | [], s => .ok (true, s)
  | edge :: edges, s =>
    if edgeMatrix node edge then
      match s.state edge with
      | .unknown => s.push edge >>= scanEdges node edges
      | .found => .ok (false, s)
      | .complete => scanEdges node edges s
    else scanEdges node edges s

/-- The body of the `while` loop for the node at the top. -/
def round (s : NodeStates n) (node : Fin n) : Attempt (Bool × NodeStates n) :=
  match s.state node with
  | .unknown => scanEdges edgeMatrix node (List.finRange n) (s.setState node .found)
  | .found => (s.setState node .complete).pushTsortResult node >>= fun s => s.pop >>= fun s =>
      .ok (true, s)
  | .complete => s.pop >>= fun s => .ok (true, s)

/-- The `while` loop. -/
def drain : Nat → NodeStates n → Attempt (Bool × NodeStates n)
  | 0, _ => .error .unfinished
  | fuel + 1, s =>
    if 0 < s.stack.length then
      s.top >>= fun node => s.round edgeMatrix node >>= fun r =>
        if r.1 then drain fuel r.2 else .ok (false, r.2)
    else .ok (true, s)

/-- The first lines of the `for` loop. -/
def enter (s : NodeStates n) (node : Fin n) : Attempt (NodeStates n) :=
  if s.state node = .unknown then s.push node else .ok s

/-- The `for` loop. The fuel is more than the inner loop needs. -/
def searchNodes : List (Fin n) → NodeStates n → Attempt (Bool × NodeStates n)
  | [], s => .ok (true, s)
  | node :: nodes, s =>
    s.enter node >>= fun s => s.drain edgeMatrix (n * (n + 1) + s.stack.length + 1) >>= fun r =>
      if r.1 then searchNodes nodes r.2 else .ok (false, r.2.resetState)

def depthFirstSearch (s : NodeStates n) : Attempt (Bool × NodeStates n) :=
  searchNodes edgeMatrix (List.finRange n) s.resetState

def tsort (s : NodeStates n) : Attempt (Bool × NodeStates n) := s.depthFirstSearch edgeMatrix

/-- `GetSortedResuls`: the results backwards, from the last place of the span on, and their number.  A
    place that is not filled holds `-1`. -/
def getSortedResuls (s : NodeStates n) : List (Option (Fin n)) × Nat :=
  (List.replicate (n - s.results.length) none ++ s.results.reverse.map some, s.results.length)

end NodeStates

/-! ## Specification -/

section Specification

variable {n : Nat}

def Edge (edgeMatrix : EdgeMatrix n) (a b : Fin n) : Prop := edgeMatrix a b = true

def HasCycle (edgeMatrix : EdgeMatrix n) : Prop := ∃ a, TransGen (Edge edgeMatrix) a a

/-- Every node once, and before the nodes it has an edge to. -/
def Sorted (edgeMatrix : EdgeMatrix n) (order : List (Fin n)) : Prop :=
  order.Perm (List.finRange n) ∧ ∀ a b, Edge edgeMatrix a b → order.idxOf a < order.idxOf b

/-- What a call of `Tsort` should do. -/
def CallOk (edgeMatrix : EdgeMatrix n) (s : NodeStates n) : Prop :=
  ∃ sorted s', s.tsort edgeMatrix = .ok (sorted, s') ∧ (sorted = false ↔ HasCycle edgeMatrix) ∧
    (sorted = true → ∃ order, Sorted edgeMatrix order ∧
      s'.getSortedResuls = (order.map some, order.length))

/-- The room of a search: what is left on the stack, the first node, and a place for each pair. -/
def HasRoom (s : NodeStates n) : Prop := s.stack.length + 1 + n.choose 2 ≤ NodeStates.stackPlaces n

/-- The states between calls. -/
inductive Reached (n : Nat) : NodeStates n → Prop where
  | initialized : Reached n (.initialized n)
  | tsort {s s' : NodeStates n} {sorted : Bool} (edgeMatrix : EdgeMatrix n) (hs : Reached n s)
      (hcall : s.tsort edgeMatrix = .ok (sorted, s')) : Reached n s'

/-- Every call of a sequence is fine. -/
def CallsOk : List (EdgeMatrix n) → NodeStates n → Prop
  | [], _ => True
  | edgeMatrix :: calls, s => CallOk edgeMatrix s ∧
    ∀ sorted s', s.tsort edgeMatrix = .ok (sorted, s') → CallsOk calls s'

/-- Every call of a sequence finds room. -/
def CallsHaveRoom : List (EdgeMatrix n) → NodeStates n → Prop
  | [], _ => True
  | edgeMatrix :: calls, s => HasRoom s ∧
    ∀ sorted s', s.tsort edgeMatrix = .ok (sorted, s') → CallsHaveRoom calls s'

end Specification

/-! ## The scan of the edges -/

section Search

variable {n : Nat} {edgeMatrix : EdgeMatrix n}

theorem ok_bind {α β : Type} (a : α) (f : α → Attempt β) : (Except.ok a >>= f) = f a := rfl

/-- The nodes that the search does not know yet. -/
def NodeStates.unknowns (s : NodeStates n) : Finset (Fin n) := Finset.univ.filter fun a =>
    s.state a = .unknown

variable {s : NodeStates n} {node : Fin n}

theorem NodeStates.push_eq {data : Fin n} (h : s.stack.length < NodeStates.stackPlaces n) :
    s.push data = .ok { s with stack := data :: s.stack } := if_pos h

/-- **The edges of a node** push unknown nodes, each once, up to a found one. -/
theorem NodeStates.scanEdges_spec {node : Fin n} {edges : List (Fin n)} {s : NodeStates n}
    (hroom : s.stack.length + edges.countP (fun a => s.state a = .unknown) ≤ NodeStates.stackPlaces n) :
    ∃ going pushed, s.scanEdges edgeMatrix node edges
        = .ok (going, { s with stack := pushed ++ s.stack }) ∧
      pushed.length ≤ edges.countP (fun a => s.state a = .unknown) ∧
      (∀ a ∈ pushed, Edge edgeMatrix node a ∧ s.state a = .unknown) ∧
      (going = false → ∃ a, Edge edgeMatrix node a ∧ s.state a = .found) ∧
      (going = true → ∀ a ∈ edges, Edge edgeMatrix node a → a ∈ pushed ∨ s.state a = .complete) := by
  induction edges generalizing s with
  | nil => exact ⟨true, [], rfl, Nat.le_refl _, nofun, nofun, nofun⟩
  | cons edge edges ih =>
    rw [List.countP_cons] at hroom
    rw [List.countP_cons, NodeStates.scanEdges]
    -- An edge that pushes nothing.
    have hskip : (Edge edgeMatrix node edge → s.state edge = .complete) →
        ∃ going pushed, s.scanEdges edgeMatrix node edges
            = .ok (going, { s with stack := pushed ++ s.stack }) ∧
          pushed.length ≤ edges.countP (fun a => s.state a = .unknown) ∧
          (∀ a ∈ pushed, Edge edgeMatrix node a ∧ s.state a = .unknown) ∧
          (going = false → ∃ a, Edge edgeMatrix node a ∧ s.state a = .found) ∧
          (going = true → ∀ a ∈ edge :: edges, Edge edgeMatrix node a → a ∈ pushed ∨
              s.state a = .complete) := by
      intro hcomplete
      obtain ⟨going, pushed, hscan, hlen, hpushed, hfound, hall⟩ := @ih s (by omega)
      refine ⟨going, pushed, hscan, hlen, hpushed, hfound, fun hgoing a ha hedge => ?_⟩
      rcases List.mem_cons.mp ha with rfl | ha
      · exact Or.inr (hcomplete hedge)
      · exact hall hgoing a ha hedge
    by_cases hedge : edgeMatrix node edge = true
    · rw [if_pos hedge]
      split
      · rename_i hstate
        have hone : decide (s.state edge = .unknown) = true := decide_eq_true hstate
        rw [if_pos hone] at hroom ⊢
        have hroom' : (edge :: s.stack).length + edges.countP (fun a =>
            s.state a = .unknown) ≤ NodeStates.stackPlaces n := by
          rw [List.length_cons]; omega
        rw [NodeStates.push_eq (by omega)]
        obtain ⟨going, pushed, hscan, hlen, hpushed, hfound, hall⟩ :=
          @ih { s with stack := edge :: s.stack } hroom'
        refine ⟨going, pushed ++ [edge], ?_, ?_, ?_, hfound, fun hgoing a ha hedge' => ?_⟩
        · rw [List.append_assoc]
          exact hscan
        · rw [List.length_append]
          exact Nat.add_le_add hlen (Nat.le_refl 1)
        · intro a ha
          rcases List.mem_append.mp ha with ha | ha
          · exact hpushed a ha
          · rw [List.mem_singleton.mp ha]; exact ⟨hedge, hstate⟩
        · rcases List.mem_cons.mp ha with rfl | ha
          · exact Or.inl (List.mem_append_right _ (List.mem_singleton.mpr rfl))
          · exact (hall hgoing a ha hedge').imp_left (List.mem_append_left _)
      · rename_i hstate
        exact ⟨false, [], rfl, Nat.zero_le _, nofun, fun _ => ⟨edge, hedge, hstate⟩, nofun⟩
      · rename_i hstate
        obtain ⟨going, pushed, hscan, hlen, hrest⟩ := hskip fun _ => hstate
        exact ⟨going, pushed, hscan, Nat.le_add_right_of_le hlen, hrest⟩
    · rw [if_neg hedge]
      obtain ⟨going, pushed, hscan, hlen, hrest⟩ := hskip fun h => absurd h hedge
      exact ⟨going, pushed, hscan, Nat.le_add_right_of_le hlen, hrest⟩

/-! ## One round -/

/-- Found nodes are the path, and the complete ones are finished. -/
structure Searching (edgeMatrix : EdgeMatrix n) (bound : Nat) (s : NodeStates n)
    (path : List (Fin n)) : Prop where
  layers : Layers (Edge edgeMatrix) (fun a => s.state a = .complete) s.stack path
  found : ∀ a, s.state a = .found ↔ a ∈ path
  finished : Finished (Edge edgeMatrix) s.results
  results : ∀ a, a ∈ s.results ↔ s.state a = .complete
  room : s.stack.length + s.unknowns.card.choose 2 ≤ bound

/-- No node becomes unknown, and none leaves the stack unknown. -/
structure Progress (s s' : NodeStates n) : Prop where
  known : ∀ a, s.state a ≠ .unknown → s'.state a ≠ .unknown
  stacked : ∀ a ∈ s.stack, a ∈ s'.stack ∨ s'.state a ≠ .unknown

theorem Progress.trans {s t u : NodeStates n} (h : Progress s t) (h' : Progress t u) : Progress s u where
  known := fun a ha => h'.known a (h.known a ha)
  stacked := by
    intro a ha
    rcases h.stacked a ha with ha | ha
    · exact h'.stacked a ha
    · exact Or.inr (h'.known a ha)

/-- A bound on the rounds that are left. -/
def NodeStates.work (s : NodeStates n) : Nat := s.unknowns.card * (n + 1) + s.stack.length

theorem update_known {state : Fin n → SearchState} {a : Fin n} {value : SearchState}
    (hvalue : value ≠ .unknown) (h : state a ≠ .unknown) :
    update state node value a ≠ .unknown := by
  rw [update_apply]
  split
  · exact hvalue
  · exact h

theorem NodeStates.mem_unknowns {a : Fin n} : a ∈ s.unknowns ↔ s.state a = .unknown := by
  rw [NodeStates.unknowns, Finset.mem_filter]; exact and_iff_right (Finset.mem_univ a)

theorem NodeStates.setState_apply (s : NodeStates n) (id : Fin n) (state : SearchState) (a : Fin n) :
    (s.setState id state).state a = if a = id then state else s.state a :=
  update_apply s.state id state a

theorem NodeStates.card_unknowns_le (s : NodeStates n) : s.unknowns.card ≤ n :=
  (Finset.card_le_univ _).trans_eq (Fintype.card_fin n)

theorem NodeStates.countP_finRange (s : NodeStates n) :
    (List.finRange n).countP (fun a => s.state a = .unknown) = s.unknowns.card := by
  rw [← (List.nodup_finRange n).card_eq_countP, List.toFinset_finRange]; rfl

theorem NodeStates.unknowns_found (h : s.state node = .unknown) :
    (s.setState node .found).unknowns.card + 1 = s.unknowns.card := by
  have herase : (s.setState node .found).unknowns = s.unknowns.erase node := by
    ext a
    rw [Finset.mem_erase, NodeStates.mem_unknowns, NodeStates.mem_unknowns, NodeStates.setState_apply]
    by_cases ha : a = node
    · simp [ha]
    · simp [ha]
  rw [herase, Finset.card_erase_add_one (NodeStates.mem_unknowns.mpr h)]

theorem NodeStates.unknowns_complete (h : s.state node ≠ .unknown) :
    (s.setState node .complete).unknowns = s.unknowns := by
  ext a
  rw [NodeStates.mem_unknowns, NodeStates.mem_unknowns, NodeStates.setState_apply]
  by_cases ha : a = node
  · simp [ha, h]
  · simp [ha]

theorem NodeStates.top_eq {below : List (Fin n)} (h : s.stack = node :: below)
    (hlen : s.stack.length ≤ NodeStates.stackPlaces n) : s.top = .ok node := by
  rw [h, List.length_cons] at hlen
  rw [NodeStates.top, h]
  exact if_pos hlen

theorem NodeStates.pop_eq {below : List (Fin n)} (h : s.stack = node :: below)
    (hlen : s.stack.length ≤ NodeStates.stackPlaces n) : s.pop = .ok { s with stack := below } := by
  rw [h, List.length_cons] at hlen
  rw [NodeStates.pop, h]
  exact if_pos hlen

section Round

variable {bound : Nat} {s : NodeStates n} {path : List (Fin n)} {node : Fin n} {below : List (Fin n)}

/-- What a round of the search makes sure of. -/
def RoundOk (edgeMatrix : EdgeMatrix n) (bound : Nat) (s : NodeStates n) (node : Fin n) : Prop :=
  ∃ going s', s.round edgeMatrix node = .ok (going, s') ∧ (going = false → HasCycle edgeMatrix) ∧
    (going = true → (∃ path', Searching edgeMatrix bound s' path') ∧ Progress s s' ∧ s'.work < s.work)

/-- **An unknown node** is found, and joins the path. -/
theorem round_unknown (h : Searching edgeMatrix bound s path) (hbound : bound ≤ NodeStates.stackPlaces n)
    (hstack : s.stack = node :: below) (hstate : s.state node = .unknown) :
    RoundOk edgeMatrix bound s node := by
  have hnot : node ∉ path := fun hmem => by
    have hfound := (h.found node).mpr hmem
    rw [hstate] at hfound; cases hfound
  have hcard := NodeStates.unknowns_found hstate
  have hpairs : s.unknowns.card.choose 2 = (s.setState node .found).unknowns.card +
      (s.setState node .found).unknowns.card.choose 2 := by
    rw [← hcard, Nat.choose_succ_succ', Nat.choose_one_right]
  have hfound : ∀ a, (s.setState node .found).state a = .found ↔ a ∈ node :: path := by
    intro a
    rw [NodeStates.setState_apply, List.mem_cons, ← h.found a]
    by_cases ha : a = node
    · simp [ha]
    · simp [ha]
  have hcomplete : ∀ a, (s.setState node .found).state a = .complete ↔ s.state a = .complete := by
    intro a
    rw [NodeStates.setState_apply]
    by_cases ha : a = node
    · simp [ha, hstate]
    · simp [ha]
  have hroom := h.room
  have hplaces : (s.setState node .found).stack.length +
      (List.finRange n).countP (fun a => (s.setState node .found).state a = .unknown) ≤
        NodeStates.stackPlaces n := by
    rw [NodeStates.countP_finRange]
    show s.stack.length + _ ≤ NodeStates.stackPlaces n
    omega
  obtain ⟨going, pushed, hscan, hlen, hpushed, hfalse, htrue⟩ :=
    @NodeStates.scanEdges_spec n edgeMatrix node _ _ hplaces
  rw [NodeStates.countP_finRange] at hlen
  refine ⟨going, { s.setState node .found with stack := pushed ++ s.stack }, ?_, fun hgoing =>
      ?_, fun hgoing => ⟨⟨node :: path, ?_, hfound, h.finished, ?_, ?_⟩, ?_, ?_⟩⟩
  · rw [NodeStates.round, hstate]
    exact hscan
  · -- The found node that the scan has met is on the path.
    obtain ⟨a, hedge, ha⟩ := hfalse hgoing
    have hlayers := h.layers
    rw [hstack] at hlayers
    exact ⟨a, hlayers.cycle hnot ((hfound a).mp ha) hedge⟩
  · have hlayers := h.layers.mono fun a ha => (hcomplete a).mpr ha
    show Layers _ _ (pushed ++ s.stack) _
    rw [hstack] at hlayers ⊢
    refine .frame hlayers hnot (fun a ha => ⟨(hpushed a ha).1, fun hmem => ?_⟩) fun a ha =>
      htrue hgoing a (List.mem_finRange a) ha
    have hcontra := (hfound a).mpr hmem
    rw [(hpushed a ha).2] at hcontra
    cases hcontra
  · exact fun a => (h.results a).trans (hcomplete a).symm
  · show (pushed ++ s.stack).length + (s.setState node .found).unknowns.card.choose 2 ≤ bound
    rw [List.length_append]
    omega
  · exact ⟨fun a ha => update_known (by decide) ha, fun a ha => Or.inl (List.mem_append_right _ ha)⟩
  · have hle := (s.setState node .found).card_unknowns_le
    show (s.setState node .found).unknowns.card * (n + 1) + (pushed ++ s.stack).length < _
    rw [NodeStates.work, ← hcard, List.length_append, Nat.add_mul, Nat.one_mul]; omega

theorem progress_pop {results : List (Fin n)} {state : Fin n → SearchState}
    (hstack : s.stack = node :: below) (hknown : ∀ a, s.state a ≠ .unknown → state a ≠ .unknown)
    (hnode : state node ≠ .unknown) : Progress s ⟨state, results, below⟩ where
  known := hknown
  stacked := by
    intro a ha
    rw [hstack] at ha
    rcases List.mem_cons.mp ha with rfl | ha
    · exact Or.inr hnode
    · exact Or.inl ha

/-- **A found node** is complete when the search comes back to it. -/
theorem round_found (h : Searching edgeMatrix bound s path) (hbound : bound ≤ NodeStates.stackPlaces n)
    (hstack : s.stack = node :: below) (hstate : s.state node = .found) :
    RoundOk edgeMatrix bound s node := by
  have hroom := h.room
  have hlayers := h.layers
  rw [hstack] at hlayers
  obtain ⟨rest, rfl, hrest, hbelow, hsucc⟩ := hlayers.leave ((h.found node).mp hstate)
  have hnew : node ∉ s.results := fun hmem => by
    have hcomplete := (h.results node).mp hmem
    rw [hstate] at hcomplete; cases hcomplete
  have hfinished : Finished (Edge edgeMatrix) (s.results ++ [node]) :=
    h.finished.snoc hnew fun a ha => (h.results a).mpr (hsucc a ha)
  have hplace : s.results.length < n := by
    have hle := hfinished.nodup.length_le_card
    rw [Fintype.card_fin, List.length_append] at hle; exact hle
  have hunknowns : (s.setState node .complete).unknowns = s.unknowns :=
    NodeStates.unknowns_complete (by rw [hstate]; decide)
  refine ⟨true, ⟨update s.state node .complete, s.results ++ [node], below⟩, ?_, nofun,
    fun _ => ⟨⟨rest, ?_, ?_, hfinished, ?_, ?_⟩, ?_, ?_⟩⟩
  · rw [NodeStates.round, hstate]
    show NodeStates.pushTsortResult _ _ >>= _ = _
    rw [NodeStates.pushTsortResult,
        if_pos (show (s.setState node .complete).results.length < n from hplace)]
    have hpop : NodeStates.pop ⟨update s.state node .complete, s.results ++ [node], s.stack⟩ =
        .ok ⟨update s.state node .complete, s.results ++ [node], below⟩ :=
      NodeStates.pop_eq hstack (Nat.le_trans (Nat.le_of_add_right_le hroom) hbound)
    show NodeStates.pop ⟨update s.state node .complete, s.results ++ [node], s.stack⟩ >>= _ = _
    rw [hpop]
    rfl
  · refine (hbelow.mono fun a ha => ?_).drop hrest (update_self ..)
    show (s.setState node .complete).state a = _
    rw [NodeStates.setState_apply, ha, ite_self]
  · intro a
    show (s.setState node .complete).state a = .found ↔ a ∈ rest
    rw [NodeStates.setState_apply]
    by_cases ha : a = node
    · simp [ha, hrest]
    · simp [ha, h.found a]
  · intro a
    show a ∈ s.results ++ [node] ↔ (s.setState node .complete).state a = .complete
    rw [NodeStates.setState_apply, List.mem_append, List.mem_singleton, h.results a]
    by_cases ha : a = node
    · simp [ha]
    · simp [ha]
  · show below.length + (s.setState node .complete).unknowns.card.choose 2 ≤ bound
    rw [hunknowns]
    rw [hstack, List.length_cons] at hroom
    omega
  · exact progress_pop hstack (fun a ha => update_known (by decide) ha) (by simp)
  · show (s.setState node .complete).unknowns.card * (n + 1) + below.length < _
    rw [NodeStates.work, hunknowns, hstack, List.length_cons]; omega

theorem round_complete (h : Searching edgeMatrix bound s path) (hbound : bound ≤ NodeStates.stackPlaces n)
    (hstack : s.stack = node :: below) (hstate : s.state node = .complete) :
    RoundOk edgeMatrix bound s node := by
  have hroom := h.room
  have hnot : node ∉ path := fun hmem => by
    have hfound := (h.found node).mpr hmem
    rw [hstate] at hfound; cases hfound
  have hlayers := h.layers
  rw [hstack] at hlayers
  refine ⟨true, { s with stack := below }, ?_, nofun,
    fun _ => ⟨⟨path, hlayers.drop hnot hstate, h.found, h.finished, h.results, ?_⟩, ?_, ?_⟩⟩
  · rw [NodeStates.round, hstate]
    show NodeStates.pop _ >>= _ = _
    rw [NodeStates.pop_eq hstack (by omega)]
    rfl
  · show below.length + s.unknowns.card.choose 2 ≤ bound
    rw [hstack, List.length_cons] at hroom
    omega
  · exact progress_pop hstack (fun _ ha => ha) (by rw [hstate]; decide)
  · show s.unknowns.card * (n + 1) + below.length < _
    rw [NodeStates.work, hstack, List.length_cons]; omega

theorem round_spec (h : Searching edgeMatrix bound s path) (hbound : bound ≤ NodeStates.stackPlaces n)
    (hstack : s.stack = node :: below) : RoundOk edgeMatrix bound s node := by
  cases hstate : s.state node with
  | unknown => exact round_unknown h hbound hstack hstate
  | found => exact round_found h hbound hstack hstate
  | complete => exact round_complete h hbound hstack hstate

end Round

/-! ## The loops -/

section Loops

variable {bound : Nat}

variable {s : NodeStates n}

theorem drain_spec {fuel : Nat} {path : List (Fin n)} (h : Searching edgeMatrix bound s path)
    (hbound : bound ≤ NodeStates.stackPlaces n) (hfuel : s.work < fuel) :
    ∃ going s', s.drain edgeMatrix fuel = .ok (going, s') ∧ (going = false → HasCycle edgeMatrix) ∧
      (going = true → Searching edgeMatrix bound s' [] ∧ s'.stack = [] ∧ Progress s s') := by
  induction fuel generalizing s path with
  | zero => omega
  | succ fuel ih =>
    rw [NodeStates.drain]
    cases hstack : s.stack with
    | nil =>
      have hlayers := h.layers
      rw [hstack] at hlayers
      obtain rfl := hlayers.path_eq_nil
      exact ⟨true, s, rfl, nofun, fun _ => ⟨h, hstack, fun _ ha => ha, fun _ ha => Or.inl ha⟩⟩
    | cons node below =>
      have htop : s.top = .ok node :=
        NodeStates.top_eq hstack (Nat.le_trans (Nat.le_of_add_right_le h.room) hbound)
      obtain ⟨going, t, hround, hcycle, hgoing⟩ := round_spec h hbound hstack
      rw [if_pos (by rw [List.length_cons]; omega), htop, ok_bind, hround, ok_bind]
      cases going with
      | false => exact ⟨false, t, rfl, hcycle, nofun⟩
      | true =>
        obtain ⟨⟨path', hsearch⟩, hprogress, hwork⟩ := hgoing rfl
        obtain ⟨going', s', hdrain, hcycle', hdone⟩ := ih hsearch (by omega)
        refine ⟨going', s', hdrain, hcycle', fun hgoing' => ?_⟩
        obtain ⟨hsearch', hnil, hprogress'⟩ := hdone hgoing'
        exact ⟨hsearch', hnil, hprogress.trans hprogress'⟩

theorem enter_spec (h : Searching edgeMatrix bound s []) (hbound : bound ≤ NodeStates.stackPlaces n)
    (hroom : s.stack.length + 1 + s.unknowns.card.choose 2 ≤ bound) (node : Fin n) :
    ∃ t, s.enter node = .ok t ∧ Searching edgeMatrix bound t [] ∧
        (∀ a, s.state a ≠ .unknown → t.state a ≠ .unknown) ∧
      (node ∈ t.stack ∨ t.state node ≠ .unknown) := by
  rw [NodeStates.enter]
  by_cases hstate : s.state node = .unknown
  · rw [if_pos hstate, NodeStates.push_eq (by omega)]
    refine ⟨_, rfl, ⟨.base _, h.found, h.finished, h.results, ?_⟩, fun _ ha =>
        ha, Or.inl List.mem_cons_self⟩
    show s.stack.length + 1 + s.unknowns.card.choose 2 ≤ bound
    exact hroom
  · rw [if_neg hstate]; exact ⟨s, rfl, h, fun _ ha => ha, Or.inr hstate⟩

/-- **The outer loop** ends at a cycle or knows all nodes. -/
theorem searchNodes_spec {nodes : List (Fin n)} {s : NodeStates n} (h : Searching edgeMatrix bound s [])
    (hbound : bound ≤ NodeStates.stackPlaces n) (hpairs : 1 + n.choose 2 ≤ bound)
    (hroom : s.stack.length + 1 + s.unknowns.card.choose 2 ≤ bound) :
    ∃ going s', s.searchNodes edgeMatrix nodes = .ok (going, s') ∧ (going = false → HasCycle edgeMatrix) ∧
      (going = true → Searching edgeMatrix bound s' [] ∧
          (∀ a, s.state a ≠ .unknown → s'.state a ≠ .unknown) ∧
        ∀ a ∈ nodes, s'.state a ≠ .unknown) := by
  induction nodes generalizing s with
  | nil => exact ⟨true, s, rfl, nofun, fun _ => ⟨h, fun _ ha => ha, nofun⟩⟩
  | cons node nodes ih =>
    obtain ⟨t, henter, hsearch, hknown, hnode⟩ := enter_spec h hbound hroom node
    have hfuel : t.work < n * (n + 1) + t.stack.length + 1 := by
      have hle := Nat.mul_le_mul_right (n + 1) t.card_unknowns_le
      rw [NodeStates.work]; omega
    obtain ⟨going, u, hdrain, hcycle, hdone⟩ := drain_spec hsearch hbound hfuel
    rw [NodeStates.searchNodes, henter, ok_bind, hdrain, ok_bind]
    cases going with
    | false => exact ⟨false, _, rfl, hcycle, nofun⟩
    | true =>
      obtain ⟨hsearch', hnil, hprogress⟩ := hdone rfl
      have hroom' : u.stack.length + 1 + u.unknowns.card.choose 2 ≤ bound := by
        have hle : u.unknowns.card.choose 2 ≤ n.choose 2 := Nat.choose_le_choose 2 u.card_unknowns_le
        rw [hnil, List.length_nil]; omega
      obtain ⟨going', s', hrest, hcycle', hdone'⟩ := ih hsearch' hroom'
      refine ⟨going', s', hrest, hcycle', fun hgoing' => ?_⟩
      obtain ⟨hsearch'', hknown', hnodes⟩ := hdone' hgoing'
      refine ⟨hsearch'', fun a ha => hknown' a (hprogress.known a (hknown a ha)), fun a ha => ?_⟩
      rcases List.mem_cons.mp ha with rfl | ha
      · -- The node has left the stack, so it is known.
        apply hknown'
        rcases hnode with hmem | hstate
        · rcases hprogress.stacked a hmem with hmem' | hstate
          · rw [hnil] at hmem'
            cases hmem'
          · exact hstate
        · exact hprogress.known a hstate
      · exact hnodes a ha

theorem callOk_of_hasRoom (h : HasRoom s) : CallOk edgeMatrix s := by
  have hunknowns : s.resetState.unknowns.card.choose 2 ≤ n.choose 2 :=
    Nat.choose_le_choose 2 s.resetState.card_unknowns_le
  have hstart : Searching edgeMatrix (s.stack.length + 1 + n.choose 2) s.resetState [] := by
    refine ⟨.base _, fun a => ⟨nofun, nofun⟩, .nil, fun a => ⟨nofun, nofun⟩, ?_⟩
    show s.stack.length + s.resetState.unknowns.card.choose 2 ≤ _
    omega
  obtain ⟨going, s', hsearch, hcycle, hdone⟩ :=
    @searchNodes_spec n edgeMatrix _ (List.finRange n) _ hstart h (by omega)
        (Nat.add_le_add_left hunknowns _)
  have hall : going = true → ∀ a, a ∈ s'.results := by
    intro hgoing a
    obtain ⟨hend, -, hknown⟩ := hdone hgoing
    rw [hend.results a]
    cases hstate : s'.state a with
    | unknown => exact absurd hstate (hknown a (List.mem_finRange a))
    | found => exact absurd ((hend.found a).mp hstate) List.not_mem_nil
    | complete => rfl
  refine ⟨going, s', hsearch, ⟨hcycle, fun ⟨a, hloop⟩ => ?_⟩, fun hgoing => ?_⟩
  · cases going with
    | false => rfl
    | true => exact absurd hloop ((hdone rfl).1.finished.acyclic (hall rfl a))
  · have hfinished := (hdone hgoing).1.finished
    have hperm : s'.results.reverse.Perm (List.finRange n) :=
      (List.reverse_perm _).trans
          ((List.perm_ext_iff_of_nodup hfinished.nodup (List.nodup_finRange n)).mpr
        fun a => iff_of_true (hall hgoing a) (List.mem_finRange a))
    refine ⟨s'.results.reverse, ⟨hperm, fun a b hab =>
        hfinished.idxOf_reverse_lt (hall hgoing a) hab⟩, ?_⟩
    have hlen : s'.results.length = n := by
      rw [← List.length_reverse, hperm.length_eq, List.length_finRange]
    rw [NodeStates.getSortedResuls, List.length_reverse, hlen, Nat.sub_self]; rfl

theorem callsOk_of_callsHaveRoom {calls : List (EdgeMatrix n)} (h : CallsHaveRoom calls s) :
    CallsOk calls s := by
  induction calls generalizing s with
  | nil => trivial
  | cons edgeMatrix calls ih =>
      exact ⟨callOk_of_hasRoom h.1, fun sorted s' hcall => ih (h.2 sorted s' hcall)⟩

end Loops

/-! ## Where the room is used up -/

section Widest

/-- The nodes below which a node leads to all but the first: the first one is above all others. -/
def rank (a : Fin n) : Nat := if a.val = 0 then n else a.val

/-- Every node leads to all nodes of a lower rank, except to the first. -/
def widest (n : Nat) : EdgeMatrix n := fun a b => 0 < b.val && b.val < rank a

theorem filter_widest {node : Fin n} (hrank : rank node ≤ n) :
    ((List.finRange n).filter (widest n node)).map Fin.val = List.range' 1 (rank node - 1) := by
  have hpos : 0 < rank node := by
    have := node.isLt
    rw [rank]
    split <;> omega
  have hfirst : ∀ m, 0 < m → List.range m = 0 :: List.range' 1 (m - 1) := by
    intro m hm
    cases m with
    | zero => omega
    | succ m => exact List.range_eq_range'
  have hsplit : List.range n = 0 :: (List.range' 1 (rank node - 1) ++ List.range' (rank node)
      (n - rank node)) := by
    have happend : List.range' 1 (rank node - 1) ++ List.range' (1 + (rank node - 1)) (n - rank node) =
        List.range' 1 (rank node - 1 + (n - rank node)) := List.range'_append_1
    rw [show 1 + (rank node - 1) = rank node by omega,
      show rank node - 1 + (n - rank node) = n - 1 by omega] at happend
    rw [happend, hfirst n (by omega)]
  have hmap : ((List.finRange n).filter (widest n node)).map Fin.val =
      (List.range n).filter fun b => 0 < b && b < rank node := by
    rw [← List.map_coe_finRange_eq_range, List.filter_map]; rfl
  rw [hmap, hsplit, List.filter_cons_of_neg (by simp), List.filter_append, List.filter_eq_self.mpr ?_,
    List.filter_eq_nil_iff.mpr ?_, List.append_nil]
  · intro b hb
    have := List.mem_range'_1.mp hb
    simp
    omega
  · intro b hb
    have := List.mem_range'_1.mp hb
    simp; omega

theorem scanEdges_unknown {node : Fin n} {edges : List (Fin n)} {s : NodeStates n}
    (hlen : s.stack.length ≤ NodeStates.stackPlaces n)
    (h : ∀ a ∈ edges, edgeMatrix node a = true → s.state a = .unknown) :
    s.scanEdges edgeMatrix node edges =
      if s.stack.length + (edges.filter (edgeMatrix node)).length ≤ NodeStates.stackPlaces n
      then .ok (true, { s with stack := (edges.filter (edgeMatrix node)).reverse ++ s.stack })
      else .error .outOfRange := by
  induction edges generalizing s with
  | nil => exact (if_pos hlen).symm
  | cons edge edges ih =>
    have hrest : ∀ a ∈ edges, edgeMatrix node a = true → s.state a = .unknown :=
      fun a ha => h a (List.mem_cons_of_mem _ ha)
    rw [NodeStates.scanEdges]
    by_cases hedge : edgeMatrix node edge = true
    · rw [if_pos hedge, h edge List.mem_cons_self hedge, List.filter_cons_of_pos hedge, List.length_cons]
      show NodeStates.push _ _ >>= _ = _
      by_cases hplace : s.stack.length < NodeStates.stackPlaces n
      · rw [NodeStates.push_eq hplace, ok_bind, @ih { s with stack := edge :: s.stack } hplace hrest,
          List.length_cons, List.reverse_cons, List.append_assoc, Nat.add_right_comm, Nat.add_assoc]
        rfl
      · rw [NodeStates.push, if_neg hplace, if_neg (by omega)]; rfl
    · rw [if_neg hedge, List.filter_cons_of_neg hedge]; exact ih hlen hrest

/-- **The widest search**: each node of its path pushes all that are left. -/
theorem drain_widest {t fuel : Nat} {s : NodeStates n} {node : Fin n} {below : List (Fin n)}
    (hrank : rank node = t) (ht : t ≤ n)
    (hstate : ∀ a, a = node ∨ (0 < a.val ∧ a.val < t) → s.state a = .unknown)
    (hstack : s.stack = node :: below) (hlen : s.stack.length ≤ NodeStates.stackPlaces n)
    (hroom : NodeStates.stackPlaces n < s.stack.length + t.choose 2) (hfuel : t ≤ fuel) :
    s.drain (widest n) fuel = .error .outOfRange := by
  induction t generalizing s node below fuel with
  | zero =>
    rw [Nat.choose_zero_succ] at hroom; omega
  | succ k ih =>
    obtain ⟨fuel, rfl⟩ : ∃ f, fuel = f + 1 := ⟨fuel - 1, by omega⟩
    have hpos : 0 < s.stack.length := by rw [hstack]; exact Nat.succ_pos _
    have hfilter := filter_widest (hrank.trans_le ht)
    rw [hrank, Nat.add_sub_cancel] at hfilter
    have hcount : ((List.finRange n).filter (widest n node)).length = k := by
      rw [← List.length_map Fin.val, hfilter, List.length_range']
    -- After the node is found, the nodes below its rank are unknown still.
    have hlower : ∀ a ∈ List.finRange n, widest n node a = true →
        (s.setState node .found).state a = .unknown := by
      intro a _ ha
      rw [widest, hrank, Bool.and_eq_true, decide_eq_true_eq, decide_eq_true_eq] at ha
      rw [NodeStates.setState_apply, if_neg, hstate a (Or.inr ha)]
      rintro rfl
      rw [rank] at hrank
      split at hrank <;> omega
    have hround : s.round (widest n) node = NodeStates.scanEdges (widest n) node (List.finRange n)
        (s.setState node .found) := by
      rw [NodeStates.round, hstate node (Or.inl rfl)]
    have hscan := @scanEdges_unknown n (widest n) node _ (s.setState node .found) hlen hlower
    rw [NodeStates.drain, if_pos hpos, NodeStates.top_eq hstack hlen, ok_bind, hround, hscan, hcount]
    have hpairs : (k + 1).choose 2 = k + k.choose 2 := by rw [Nat.choose_succ_succ', Nat.choose_one_right]
    by_cases hfits : (s.setState node .found).stack.length + k ≤ NodeStates.stackPlaces n
    · rw [if_pos hfits, ok_bind]
      have hplaces : (s.setState node .found).stack.length = s.stack.length := rfl
      cases k with
      | zero =>
        rw [hpairs, Nat.choose_zero_succ] at hroom; omega
      | succ k =>
        -- The next top is the node one rank below.
        rw [List.range'_1_concat] at hfilter
        obtain ⟨init, last, hsplit, hinit, hlast⟩ := List.map_eq_append_iff.mp hfilter
        obtain ⟨next, rest, rfl, hnext, hnil⟩ := List.map_eq_cons_iff.mp hlast
        obtain rfl := List.map_eq_nil_iff.mp hnil
        have htop : ((List.finRange n).filter (widest n node)).reverse = next :: init.reverse := by
          rw [hsplit, List.reverse_append]; rfl
        have hpushed : (init.reverse ++ s.stack).length = k + s.stack.length := by
          rw [hsplit, List.length_append, List.length_singleton] at hcount
          rw [List.length_append, List.length_reverse]; omega
        rw [htop]
        refine @ih fuel _ next (init.reverse ++ s.stack) ?_ (by omega) ?_ rfl ?_ ?_ (by omega)
        · rw [rank, if_neg (by omega)]
          omega
        · intro a ha
          refine hlower a (List.mem_finRange a) ?_
          rw [widest, hrank, Bool.and_eq_true, decide_eq_true_eq, decide_eq_true_eq]
          rcases ha with rfl | ha <;> omega
        · show (init.reverse ++ s.stack).length + 1 ≤ NodeStates.stackPlaces n
          omega
        · show NodeStates.stackPlaces n < (init.reverse ++ s.stack).length + 1 + (k + 1).choose 2
          omega
    · rw [if_neg hfits]; rfl

theorem not_callOk_widest {s : NodeStates n} (hn : 0 < n) (h : ¬ HasRoom s) : ¬ CallOk (widest n) s := by
  have hrun : s.tsort (widest n) = .error .outOfRange := by
    cases n with
    | zero => omega
    | succ m =>
      show NodeStates.searchNodes _ (List.finRange (m + 1)) s.resetState = _
      rw [List.finRange_succ, NodeStates.searchNodes, NodeStates.enter,
        if_pos (show s.resetState.state 0 = .unknown from rfl)]
      by_cases hplace : s.resetState.stack.length < NodeStates.stackPlaces (m + 1)
      · have hfuel : m + 1 ≤ (m + 1) * (m + 1 + 1) + (s.stack.length + 1) + 1 := by
          have hle : m + 1 ≤ (m + 1) * (m + 1 + 1) :=
            Nat.le_mul_of_pos_right (m + 1) (Nat.succ_pos (m + 1))
          omega
        have hdrain : NodeStates.drain (widest (m + 1)) ((m + 1) * (m + 1 + 1) + (s.stack.length + 1) + 1)
            { s.resetState with stack := 0 :: s.stack } = .error .outOfRange :=
          drain_widest rfl (Nat.le_refl _) (fun _ _ => rfl) rfl hplace (Nat.lt_of_not_le h) hfuel
        rw [NodeStates.push_eq hplace, ok_bind]
        show NodeStates.drain _ ((m + 1) * (m + 1 + 1) + (s.stack.length + 1) + 1)
          { s.resetState with stack := 0 :: s.stack } >>= _ = _
        rw [hdrain]
        rfl
      · rw [NodeStates.push, if_neg hplace]; rfl
  rintro ⟨sorted, s', hcall, -⟩
  rw [hrun] at hcall
  cases hcall

end Widest

end Search

/-! ## Result -/

/-- Below `2^15` nodes an empty stack has room. -/
theorem hasRoom_of_stack_nil {n : Nat} (hn : 0 < n) (hbuffer : n < 2 ^ 15) {s : NodeStates n}
    (h : s.stack = []) : HasRoom s := by
  rw [HasRoom, NodeStates.stackPlaces_eq hbuffer, h, List.length_nil, Nat.choose_two_right]
  have hdiv := Nat.div_le_self (n * (n - 1)) 2
  have hmul : n * (n - 1) + n = n * n := by
    rw [← Nat.mul_succ, Nat.succ_eq_add_one, Nat.sub_add_cancel hn]
  omega

/-- **`Tsort` can be called again and again as long as each call finds room on its stack.**  In a state
    between calls that has no room, there is a matrix for which the call leaves the stack. -/
theorem tsort_exact (n : Nat) (hn : 1 ≤ n) :
    (∀ calls : List (EdgeMatrix n), CallsHaveRoom calls (.initialized n) →
    CallsOk calls (.initialized n)) ∧
    ∀ s, Reached n s → ((∀ edgeMatrix, CallOk edgeMatrix s) ↔ HasRoom s) := by
  refine ⟨fun calls h => callsOk_of_callsHaveRoom h, fun s _ =>
      ⟨fun h => ?_, fun h edgeMatrix => callOk_of_hasRoom h⟩⟩
  by_contra hroom
  exact not_callOk_widest hn hroom (h (widest n))

/-- Two calls for two nodes, the first with a cycle. -/
theorem tsort_exact_two :
    CallsOk [fun _ _ => true, fun a b => decide (a < b)] (.initialized 2) := by
  refine (tsort_exact 2 (by decide)).1 _ ⟨hasRoom_of_stack_nil (by decide) (by decide) rfl,
      fun sorted s' hcall => ⟨?_, fun _ _ _ => trivial⟩⟩
  have hfirst : (NodeStates.initialized 2).tsort (fun _ _ =>
      true) = .ok (false, ⟨fun _ => .unknown, [], [0]⟩) := rfl
  rw [hfirst] at hcall
  cases hcall
  show 1 + 1 + Nat.choose 2 2 ≤ NodeStates.stackPlaces 2
  decide

/-- One node with an edge to itself, twice: the second call leaves the stack. -/
theorem not_tsort : ¬ CallsOk [fun _ _ => true, fun _ _ => true] (.initialized 1) := by
  rintro ⟨-, hsecond⟩
  have hfirst : (NodeStates.initialized 1).tsort (fun _ _ =>
      true) = .ok (false, ⟨fun _ => .unknown, [], [0]⟩) := rfl
  obtain ⟨⟨sorted, s', hcall, -⟩, -⟩ := hsecond _ _ hfirst
  have herror : NodeStates.tsort (fun _ _ => true) ⟨fun _ => .unknown, [], [0]⟩ =
      (.error .outOfRange : Attempt (Bool × NodeStates 1)) := rfl
  rw [herror] at hcall
  cases hcall

end Suyu.Audio.Nodes
