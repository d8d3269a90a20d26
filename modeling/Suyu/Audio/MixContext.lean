import Mathlib

/-
  `MixContext` and `InfoUpdater::UpdateMixes`: the mixes of the audio renderer.

  1. **Data** - a mix feeds the mix `dst_mix_id`, down to the final mix 0; with splitters it feeds all
     destinations of a splitter, and the edges stand in a matrix.

  2. **Program** - `UpdateMixes` writes the mixes that are in the input.  If a link or a use flag has
     changed the mixes are SORTED, by their distance from the final mix or by a depth-first search,
     and their buffers are laid out in that order.

  3. **What is left open** - `std::ranges::sort` may order equal keys as it likes (`Sorter`).

  Left out: volumes, node ids and the effect processing order, which decide nothing here.
-/

namespace Suyu.Audio

/-! ## Data -/

def finalMixId : Int := 0

def unusedMixId : Int := 2 ^ 31 - 1

def unusedSplitterId : Int := -1

def invalidDistanceFromFinalMix : Int := -2 ^ 31

/-- `static_cast<s16>`. -/
def toS16 (n : Int) : Int := (n + 2 ^ 15) % 2 ^ 16 - 2 ^ 15

structure MixInfo where
  bufferCount : Int
  inUse : Bool
  mixId : Int
  bufferOffset : Int
  distanceFromFinalMix : Int
  dstMixId : Int
  dstSplitterId : Int
  deriving DecidableEq, Repr

/-- The member initializers. -/
def MixInfo.initial : MixInfo where
  bufferCount := 0
  inUse := false
  mixId := unusedMixId
  bufferOffset := 0
  distanceFromFinalMix := invalidDistanceFromFinalMix
  dstMixId := unusedMixId
  dstSplitterId := unusedSplitterId

structure InParameter where
  bufferCount : Nat
  inUse : Bool
  mixId : Int
  destMixId : Int
  destSplitterId : Int
  deriving DecidableEq, Repr

/-- What `UpdateMixes` asks `BehaviorInfo`. -/
structure BehaviorInfo where
  isMixInParameterDirtyOnlyUpdateSupported : Bool
  isSplitterSupported : Bool
  deriving DecidableEq, Repr

/-- What it asks `SplitterContext`; a destination that is null is `none`. -/
structure SplitterContext where
  usingSplitter : Bool
  hasNewConnection : Int → Bool
  destinations : Int → List (Option Int)

/-- A sort by descending keys: any order of equal ones. -/
structure Sorter where
  sort : (Nat → Int) → List Nat → List Nat
  perm : ∀ key l, (sort key l).Perm l
  sorted : ∀ key l, (sort key l).Pairwise fun a b => key b ≤ key a

/-- The mixes by index, the order they are processed in, and the edges. -/
structure MixContext where
  count : Nat
  mixInfos : Nat → MixInfo
  sortedMixInfos : List Nat
  edgeMatrix : Nat → Nat → Bool

/-- `MixContext::Initialize` with fresh mixes. -/
def MixContext.initial (count : Nat) : MixContext :=
  ⟨count, fun _ => .initial, List.range count, fun _ _ => false⟩

/-! ## The distance from the final mix -/

/-- The `while` loop of `UpdateDistancesFromFinalMix`. -/
def distanceLoop (mixInfos : Nat → MixInfo) (count : Nat) : Nat → Int → Int → Int
  | 0, _, distance => distance
  | fuel + 1, mixId, distance =>
      if ¬ distance < count then distance
      else if mixId = finalMixId then distance
      else if mixId = unusedMixId then invalidDistanceFromFinalMix
      else if (mixInfos mixId.toNat).distanceFromFinalMix ≠ invalidDistanceFromFinalMix then
        (mixInfos mixId.toNat).distanceFromFinalMix + 1
      else distanceLoop mixInfos count fuel (mixInfos mixId.toNat).dstMixId (distance + 1)

/-- The distance of one mix; the loop ends before its fuel. -/
def distanceToFinalMix (mixInfos : Nat → MixInfo) (count i : Nat) : Int :=
  let distance := distanceLoop mixInfos count (count + 1) (mixInfos i).mixId finalMixId
  if distance ≥ count then invalidDistanceFromFinalMix else distance

/-- The body of the second loop. -/
def updateDistance (count : Nat) (mixInfos : Nat → MixInfo) (i : Nat) : Nat → MixInfo :=
  if (mixInfos i).inUse then
    Function.update mixInfos i
      { mixInfos i with distanceFromFinalMix := distanceToFinalMix mixInfos count i }
  else mixInfos

/-- The first loop. -/
def resetDistances (mixInfos : Nat → MixInfo) (i : Nat) : MixInfo :=
  { mixInfos i with distanceFromFinalMix := invalidDistanceFromFinalMix }

namespace MixContext

def updateDistancesFromFinalMix (c : MixContext) : MixContext :=
  { c with
    mixInfos := (List.range c.count).foldl (updateDistance c.count) (resetDistances c.mixInfos)
    sortedMixInfos := List.range c.count }

/-! ## The layout of the buffers -/

/-- The body of the loop of `CalcMixBufferOffset`, with the 16-bit `offset`. -/
def layoutMix (s : (Nat → MixInfo) × Int) (i : Nat) : (Nat → MixInfo) × Int :=
  if (s.1 i).inUse then
    (Function.update s.1 i { s.1 i with bufferOffset := s.2 }, toS16 (s.2 + (s.1 i).bufferCount))
  else s

def calcMixBufferOffset (c : MixContext) : MixContext :=
  { c with mixInfos := (c.sortedMixInfos.foldl layoutMix (c.mixInfos, 0)).1 }

def sortInfo (c : MixContext) (sorter : Sorter) : MixContext :=
  let c := c.updateDistancesFromFinalMix
  let order := sorter.sort (fun i => (c.mixInfos i).distanceFromFinalMix) c.sortedMixInfos
  { c with sortedMixInfos := order }.calcMixBufferOffset

end MixContext

/-! ## The depth-first search -/

inductive SearchState where
  | unknown
  | found
  | complete
  deriving DecidableEq, Repr

/-- `NodeStates`: the state of each node, the stack (its top first), and the results in the order in
    which they are pushed. -/
structure NodeStates where
  state : Nat → SearchState
  stack : List Nat
  results : List Nat

/-- The edges of a node that has just been found: unknown nodes are pushed, a found one is a
    cycle. -/
def pushEdges (edgeMatrix : Nat → Nat → Bool) (count : Nat) (state : Nat → SearchState)
    (node : Nat) (stack : List Nat) : Option (List Nat) :=
  (List.range count).foldlM (fun stack edge =>
    if edgeMatrix node edge then
      match state edge with
      | .unknown => some (edge :: stack)
      | .found => none
      | .complete => some stack
    else some stack) stack

/-- The body of the inner loop, for the top of the stack. -/
def NodeStates.visit (edgeMatrix : Nat → Nat → Bool) (count : Nat) (s : NodeStates) (node : Nat)
    (below : List Nat) : Option NodeStates :=
  match s.state node with
  | .unknown =>
      let state := Function.update s.state node .found
      (pushEdges edgeMatrix count state node s.stack).map fun stack => { s with state, stack }
  | .found => some {
      state := Function.update s.state node .complete
      stack := below
      results := s.results ++ [node] }
  | .complete => some { s with stack := below }

/-- The inner loop. -/
def NodeStates.drain (edgeMatrix : Nat → Nat → Bool) (count : Nat) :
    Nat → NodeStates → Option NodeStates
  | 0, s => some s
  | fuel + 1, s =>
      match s.stack with
      | [] => some s
      | node :: below => (s.visit edgeMatrix count node below).bind (drain edgeMatrix count fuel)

/-- The outer loop for one node.  The fuel is more than the inner loop needs. -/
def NodeStates.search (edgeMatrix : Nat → Nat → Bool) (count : Nat) (s : NodeStates) (node : Nat) :
    Option NodeStates :=
  let s := if s.state node = .unknown then { s with stack := node :: s.stack } else s
  s.drain edgeMatrix count ((count + 1) * (count + 2))

/-- `Tsort`: the results, or `none` at a cycle. -/
def tsort (edgeMatrix : Nat → Nat → Bool) (count : Nat) : Option (List Nat) :=
  ((List.range count).foldlM (NodeStates.search edgeMatrix count)
    ⟨fun _ => .unknown, [], []⟩).map (·.results)

namespace MixContext

def tSortInfo (c : MixContext) (splitter : SplitterContext) : Option MixContext :=
  if ¬ splitter.usingSplitter then some c.calcMixBufferOffset
  else (tsort c.edgeMatrix c.count).map fun results =>
    let resultSize := min c.count results.length
    let order := results.reverse.take resultSize ++ c.sortedMixInfos.drop resultSize
    { c with sortedMixInfos := order }.calcMixBufferOffset

end MixContext

/-! ## Updates -/

/-- The edges from a mix, after `RemoveEdges` and the connections of `UpdateConnection`. -/
def connectMix (edgeMatrix : Nat → Nat → Bool) (mixId : Nat) (param : InParameter)
    (splitter : SplitterContext) : Nat → Nat → Bool :=
  Function.update edgeMatrix mixId fun dest =>
    if param.destMixId = unusedMixId then
      decide (param.destSplitterId ≠ unusedSplitterId) &&
        (splitter.destinations param.destSplitterId).any fun d =>
          decide (d = some (dest : Int)) && decide (d ≠ some unusedMixId)
    else decide (param.destMixId = (dest : Int))

/-- `UpdateConnection`: the mix, the edges, and whether a sort is required. -/
def MixInfo.updateConnection (m : MixInfo) (edgeMatrix : Nat → Nat → Bool) (param : InParameter)
    (splitter : SplitterContext) : MixInfo × (Nat → Nat → Bool) × Bool :=
  let hasNewConnection := decide (m.dstSplitterId ≠ unusedSplitterId) &&
    splitter.hasNewConnection m.dstSplitterId
  if m.dstMixId = param.destMixId ∧ m.dstSplitterId = param.destSplitterId ∧
      hasNewConnection = false then
    (m, edgeMatrix, false)
  else
    ({ m with dstMixId := param.destMixId, dstSplitterId := param.destSplitterId },
      connectMix edgeMatrix m.mixId.toNat param splitter, true)

def MixInfo.update (m : MixInfo) (edgeMatrix : Nat → Nat → Bool) (param : InParameter)
    (splitter : SplitterContext) (behavior : BehaviorInfo) :
    MixInfo × (Nat → Nat → Bool) × Bool :=
  let m := { m with
    bufferCount := toS16 param.bufferCount
    inUse := param.inUse
    mixId := param.mixId }
  if behavior.isSplitterSupported then m.updateConnection edgeMatrix param splitter
  else
    ({ m with dstMixId := param.destMixId, dstSplitterId := unusedSplitterId }, edgeMatrix,
      decide (m.dstMixId ≠ param.destMixId))

namespace MixContext

/-- The body of the second loop of `UpdateMixes`, with `mix_dirty`. -/
def updateMix (behavior : BehaviorInfo) (splitter : SplitterContext) (s : MixContext × Bool)
    (indexed : Nat × InParameter) : MixContext × Bool :=
  let param := indexed.2
  let index := if behavior.isMixInParameterDirtyOnlyUpdateSupported then param.mixId.toNat
    else indexed.1
  let info := s.1.mixInfos index
  let dirty := s.2 || decide (info.inUse ≠ param.inUse)
  let info := { info with inUse := param.inUse }
  if param.inUse then
    let (info, edges, sortRequired) := info.update s.1.edgeMatrix param splitter behavior
    ({ s.1 with mixInfos := Function.update s.1.mixInfos index info, edgeMatrix := edges },
      dirty || sortRequired)
  else ({ s.1 with mixInfos := Function.update s.1.mixInfos index info }, dirty)

/-- The checks of the first loop: `total_buffer_count` is a `u32`. -/
def checkMixes (c : MixContext) (mixBufferCount : Nat) (params : List InParameter) : Bool :=
  decide (mixBufferCount ≠ 0) &&
  decide (((params.filter (·.inUse)).map (·.bufferCount)).sum % 2 ^ 32 ≤ mixBufferCount) &&
  params.all fun param => !param.inUse ||
    !(decide (param.destMixId > c.count) && decide (param.destMixId ≠ unusedMixId) &&
      decide (param.mixId ≠ finalMixId))

/-- The mixes after the second loop, and `mix_dirty`. -/
def writeMixes (c : MixContext) (behavior : BehaviorInfo) (splitter : SplitterContext)
    (params : List InParameter) : MixContext × Bool :=
  params.zipIdx.foldl (fun s p => updateMix behavior splitter s (p.2, p.1)) (c, false)

/-- `UpdateMixes` with an input of the right size; `none` is `ResultInvalidUpdateInfo`. -/
def updateMixes (c : MixContext) (behavior : BehaviorInfo) (splitter : SplitterContext)
    (sorter : Sorter) (mixBufferCount : Nat) (params : List InParameter) : Option MixContext :=
  if ¬ c.checkMixes mixBufferCount params then none
  else
    let (c, dirty) := c.writeMixes behavior splitter params
    if ¬ dirty then some c
    else if behavior.isSplitterSupported ∧ splitter.usingSplitter then c.tSortInfo splitter
    else some (c.sortInfo sorter)

end MixContext

end Suyu.Audio
