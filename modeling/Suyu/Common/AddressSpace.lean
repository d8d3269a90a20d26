/-
  FlatAddressSpaceMap — a generic VA → PA mapping kept as a sorted vector of blocks.

  A block starts at `virt` and reaches up to the next block; `phys` is the physical address it
  starts at (growing along with the virtual one when `PaContigSplit`), or `UnmappedPa`.

  1. **Program** — `mapLocked` and `unmapLocked`.  An iterator into the vector is a cut of the list:
     `std::lower_bound` on the sorted vector is `lowerBound`, the two loops that walk an iterator
     back are `walkBack`, and `none` is an iterator that left the vector.  `va_limit` only guards a
     log message and the callback reads nothing of the map, so both are left out.
  2. **Spec** — the plain address map: `resolve` reads the vector ("the last block at or before the
     address"), and the latest operation that covers an address decides.
  3. **Invariant** — `WellFormed`: sorted, first block at `UnmappedVa`, last block unmapped, no two
     unmapped neighbours, and no mapped block running over `UnmappedPa`.
-/
import Mathlib
import Suyu.Lib.StepMap

namespace Suyu.Common

open Lib.StepMap

/-! ## The program -/

structure Block (PA Extra : Type) where
  virt : Nat
  phys : PA
  extraInfo : Extra
deriving DecidableEq, Repr

/-- The template parameters the two functions read. -/
structure MapConfig (PA : Type) where
  unmappedPa : PA
  paContigSplit : Bool

/-- `UnmappedVa`: zero in every instantiation. -/
def UnmappedVa : Nat := 0

section Program

variable {PA Extra : Type} [DecidableEq PA] [AddAction ℕ PA] [Inhabited Extra] (cfg : MapConfig PA)

namespace Block

def unmapped (b : Block PA Extra) : Bool := b.phys == cfg.unmappedPa

def mapped (b : Block PA Extra) : Bool := b.phys != cfg.unmappedPa

end Block

/-- `std::lower_bound(blocks.begin(), blocks.end(), virt)`: the blocks before the iterator, and the
    blocks from it on. -/
def lowerBound (blocks : List (Block PA Extra)) (virt : Nat) :
    List (Block PA Extra) × List (Block PA Extra) :=
  blocks.span fun b => decide (b.virt < virt)

/-- Walk an iterator that stands behind `front` back over the blocks that start at or after `virt`:
    what is left in front of it, and what was passed. -/
def walkBack (front : List (Block PA Extra)) (virt : Nat) :
    List (Block PA Extra) × List (Block PA Extra) :=
  (front.rdropWhile fun b => decide (virt ≤ b.virt), front.rtakeWhile fun b => decide (virt ≤ b.virt))

/-- `tailPhys` of `MapLocked`: "Always propagate unmapped regions rather than calculating offset". -/
def mapTailPhys (pred : Block PA Extra) (virtEnd : Nat) : PA :=
  if !cfg.paContigSplit then pred.phys
  else if pred.unmapped cfg then pred.phys
  else (virtEnd - pred.virt) +ᵥ pred.phys

/-- `tailPhys` of `UnmapLocked`. -/
def unmapTailPhys (pred : Block PA Extra) (virtEnd : Nat) : PA :=
  if cfg.paContigSplit then (virtEnd - pred.virt) +ᵥ pred.phys else pred.phys

/-- The second half of `MapLocked`, with `block_end_successor` between `front` and `back`: find
    `block_start_successor` and put the new block there. -/
def mapStart (front back : List (Block PA Extra)) (virt virtEnd : Nat) (phys : PA)
    (extraInfo : Extra) : Option (List (Block PA Extra)) :=
  let (pre, ins) := walkBack front virt
  match pre.getLast?, ins, back with
  | none, _, _ => none
  | some _, [], [] => none
  | some _, [], startSuccessor :: _ =>
    if startSuccessor.virt > virtEnd then some (front ++ back)
    else if startSuccessor.virt = virtEnd then some (pre ++ ⟨virt, phys, extraInfo⟩ :: back)
    else none
  | some _, startSuccessor :: ins, _ =>
    if startSuccessor.virt > virtEnd then some (front ++ back)
    else if startSuccessor.virt = virtEnd then
      some (pre ++ ⟨virt, phys, extraInfo⟩ :: startSuccessor :: ins ++ back)
    else
      -- the blocks behind it are erased, and it is reused as the start block
      some (pre ++ { startSuccessor with virt := virt, phys := phys, extraInfo := extraInfo } :: back)

def mapLocked (blocks : List (Block PA Extra)) (virt : Nat) (phys : PA) (size : Nat)
    (extraInfo : Extra) : Option (List (Block PA Extra)) :=
  let virtEnd := virt + size
  let (front, back) := lowerBound blocks virtEnd
  match front.getLast? with
  | none => none
  | some endPredecessor =>
    let endPredecessorIsFirst := front.dropLast.isEmpty
    match back with
    | endSuccessor :: _ =>
      if endSuccessor.virt ≠ virtEnd then
        let tailPhys := mapTailPhys cfg endPredecessor virtEnd
        if !endPredecessorIsFirst ∧ endPredecessor.virt ≥ virt then
          mapStart front.dropLast ({ endPredecessor with virt := virtEnd, phys := tailPhys } :: back)
            virt virtEnd phys extraInfo
        else
          some (front ++ ⟨virt, phys, extraInfo⟩ :: ⟨virtEnd, tailPhys, endPredecessor.extraInfo⟩ ::
            back)
      else mapStart front back virt virtEnd phys extraInfo
    | [] =>
      if !endPredecessorIsFirst ∧ endPredecessor.virt ≥ virt then
        mapStart front.dropLast [{ endPredecessor with virt := virtEnd }] virt virtEnd phys extraInfo
      else
        some (front ++ [⟨virt, phys, extraInfo⟩, ⟨virtEnd, cfg.unmappedPa, default⟩])

/-- `erase_blocks_with_end_unmapped`: `unmappedEnd` stands between `front` and `back` and starts
    at or after `virt`.  The assertion in it only logs. -/
def eraseBlocksWithEndUnmapped (front : List (Block PA Extra)) (unmappedEnd : Block PA Extra)
    (back : List (Block PA Extra)) (virt : Nat) : Option (List (Block PA Extra)) :=
  match (walkBack front virt).1.getLast? with
  | none => none
  | some startPredecessor =>
    if startPredecessor.unmapped cfg then some ((walkBack front virt).1 ++ back)
    else some ((walkBack front virt).1 ++ { unmappedEnd with virt := virt } :: back)

/-- The second half of `UnmapLocked`, with `block_end_successor` between `front` and `back` and
    `block_end_predecessor` the last block of `front`. -/
def unmapStart (front back : List (Block PA Extra)) (virt virtEnd : Nat) :
    Option (List (Block PA Extra)) :=
  let (pre, ins) := walkBack front virt
  match pre.getLast?, ins, back with
  | none, _, _ => none
  | some _, [], [] => none
  | some startPredecessor, [], startSuccessor :: _ =>
    if startSuccessor.virt > virtEnd then some (front ++ back)
    else if startSuccessor.virt = virtEnd then
      if startPredecessor.mapped cfg then some (pre ++ ⟨virt, cfg.unmappedPa, default⟩ :: back)
      else some (front ++ back)
    else none
  | some startPredecessor, startSuccessor :: ins, _ =>
    if startSuccessor.virt > virtEnd then some (front ++ back)
    else if startSuccessor.virt = virtEnd then
      if startPredecessor.mapped cfg then
        some (pre ++ ⟨virt, cfg.unmappedPa, default⟩ :: startSuccessor :: ins ++ back)
      else some (front ++ back)
    else if startPredecessor.unmapped cfg then
      -- `blocks.erase(block_start_successor, block_end_predecessor)`: the predecessor stays
      some (pre ++ (startSuccessor :: ins).getLast (List.cons_ne_nil _ _) :: back)
    else
      some (pre ++ { startSuccessor with virt := virt, phys := cfg.unmappedPa } :: back)

def unmapLocked (blocks : List (Block PA Extra)) (virt size : Nat) :
    Option (List (Block PA Extra)) :=
  let virtEnd := virt + size
  let (front, back) := lowerBound blocks virtEnd
  match front.getLast? with
  | none => none
  | some endPredecessor =>
    if endPredecessor.unmapped cfg then
      if endPredecessor.virt > virt then
        eraseBlocksWithEndUnmapped cfg front.dropLast endPredecessor back virt
      else some blocks
    else
      match back with
      | [] => none
      | endSuccessor :: rest =>
        if endSuccessor.virt = virtEnd ∧ endSuccessor.unmapped cfg then
          eraseBlocksWithEndUnmapped cfg front endSuccessor rest virt
        else if endSuccessor.virt ≠ virtEnd then
          let tailPhys := unmapTailPhys cfg endPredecessor virtEnd
          if endPredecessor.virt ≥ virt then
            unmapStart cfg front.dropLast
              ({ endPredecessor with virt := virtEnd, phys := tailPhys } :: back) virt virtEnd
          else
            some (front ++ ⟨virt, cfg.unmappedPa, default⟩ ::
              ⟨virtEnd, tailPhys, endPredecessor.extraInfo⟩ :: back)
        else unmapStart cfg front back virt virtEnd

end Program

/-! ## The plain address map -/

section Spec

variable {PA Extra : Type} [AddAction ℕ PA] (cfg : MapConfig PA)

/-- The physical address `offset` bytes into a mapping of `phys`. -/
def shift (offset : Nat) (phys : PA) : PA := if cfg.paContigSplit then offset +ᵥ phys else phys

theorem shift_zero (phys : PA) : shift cfg 0 phys = phys := by
  unfold shift
  split
  · exact zero_vadd ℕ phys
  · rfl

theorem shift_shift (i j : Nat) (phys : PA) : shift cfg i (shift cfg j phys) = shift cfg (i + j) phys := by
  unfold shift
  split
  · exact (add_vadd i j phys).symm
  · rfl

variable [DecidableEq PA]

/-- What a block says about the address `x`: `none` is unmapped. -/
def Block.value (b : Block PA Extra) (x : Nat) : Option PA :=
  if b.unmapped cfg then none else some (shift cfg (x - b.virt) b.phys)

/-- The address `x` through the vector: the last block with `block.virt <= x`. -/
def resolve (blocks : List (Block PA Extra)) (x : Nat) : Option PA :=
  ((blocks.filter fun b => decide (b.virt ≤ x)).getLast?).bind fun b => b.value cfg x

/-- Neighbours of the vector: sorted, not both unmapped, and a mapped block does not run over
    `UnmappedPa` before the next one starts. -/
structure Linked (b c : Block PA Extra) : Prop where
  lt : b.virt < c.virt
  apart : b.unmapped cfg = true → c.unmapped cfg = false
  solid : b.unmapped cfg = false → ∀ i, b.virt + i < c.virt → shift cfg i b.phys ≠ cfg.unmappedPa

/-- The vector's invariant. -/
structure WellFormed (blocks : List (Block PA Extra)) : Prop where
  first : ∃ b ∈ blocks.head?, b.virt = UnmappedVa
  last : ∃ b ∈ blocks.getLast?, b.unmapped cfg = true
  chain : blocks.IsChain (Linked cfg)

end Spec

end Suyu.Common
