import Mathlib
import Suyu.Shader.SyntaxList

/-
  `TranslatePass` of `structured_control_flow.cpp`: from the goto-free statement tree to the
  abstract syntax list AND the IR block graph.

  1. **Program** - `visit` walks the children of a statement with the block under construction
     (`current_block`, null at the start of every body and after `Return` / `Unreachable`), the
     block a `Break` goes to and the block the end of the body falls into.  It appends nodes to the
     syntax list and branches between IR blocks.  The nodes of an `If` and a `Loop` are emplaced
     BEFORE their children are visited and filled in afterwards, at the saved index; the block the
     body starts with is read back from the list.

  2. **Spec** - reading the list and walking the graph visit the same blocks whatever the outcomes
     of the conditions; the recorded bodies start their bodies; every block has exactly one node.

  3. **The crux (`Progress`)** - at every statement `current_block` is the LAST node of what the
     body has produced so far (`trailing`), that block has no successor yet, and every earlier
     block is linked to what the node after it records.
-/

namespace Suyu.Shader

/-! ## Statements -/

/-- The statements that stand in a tree (`StatementType`, the condition statements apart); an
    `If` or a `Loop` owns its children. -/
inductive Statement where
  | code (begin «end» : Nat)
  | goto (cond : Expr) (label : Nat)
  | label (id : Nat)
  | ifStmt (cond : Expr) (children : List Statement)
  | loop (cond : Expr) (children : List Statement)
  | breakStmt (cond : Expr)
  | returnStmt
  | kill
  | unreachable
  | setVariable (id : Nat) (op : Expr)
  | setIndirectBranchVariable (branchReg : Nat) (branchOffset : Int)

def Statement.hasChildren : Statement → Bool
  | .ifStmt _ _ => true
  | .loop _ _ => true
  | _ => false

def Statement.isLabel : Statement → Bool
  | .label _ => true
  | _ => false

/-! ## The state of the pass -/

/-- What the pass appends to a block. -/
inductive Inst where
  | translate (begin «end» : Nat)
  | setGotoVariable (id : Nat) (value : Expr)
  | setIndirectBranchVariable (branchReg : Nat) (branchOffset : Int)
  | conditionRef (value : Expr)
  | epilogue
  | demoteToHelperInvocation
  | prologue
  deriving DecidableEq, Repr

/-- The block pool, the branches between the blocks, their instructions and the syntax list. -/
structure Translation where
  created : Nat
  immSuccessors : BlockRef → List BlockRef
  immPredecessors : BlockRef → List BlockRef
  insts : BlockRef → List Inst
  syntaxList : AbstractSyntaxList
  usesDemoteToHelper : Bool

namespace Translation

/-- Before the pass. -/
def empty : Translation where
  created := 0
  immSuccessors := fun _ => []
  immPredecessors := fun _ => []
  insts := fun _ => []
  syntaxList := []
  usesDemoteToHelper := false

/-- `block_pool.Create(inst_pool)`: blocks are numbered from 1, `0` being the null pointer. -/
def createBlock (t : Translation) : BlockRef × Translation :=
  (t.created + 1, { t with created := t.created + 1 })

/-- `IREmitter ir{*block}; ir.…`: append an instruction to a block. -/
def emit (t : Translation) (b : BlockRef) (i : Inst) : Translation :=
  { t with insts := Function.update t.insts b (t.insts b ++ [i]) }

/-- `syntax_list.emplace_back()` with the node it is set to. -/
def emplaceBack (t : Translation) (n : AbstractSyntaxNode) : Translation :=
  { t with syntaxList := t.syntaxList ++ [n] }

/-- `syntax_list[index] = …`. -/
def setNode (t : Translation) (index : Nat) (n : AbstractSyntaxNode) : Translation :=
  { t with syntaxList := t.syntaxList.set index n }

/-- The two `push_back`s of `Block::AddBranch`. -/
def branch (t : Translation) (b next : BlockRef) : Translation :=
  { t with
    immSuccessors := Function.update t.immSuccessors b (t.immSuccessors b ++ [next])
    immPredecessors := Function.update t.immPredecessors next (t.immPredecessors next ++ [b]) }

def addBranch (t : Translation) (b next : BlockRef) : Except String Translation :=
  if next ∈ t.immSuccessors b then .error "Successor already inserted"
  else if b ∈ t.immPredecessors next then .error "Predecessor already inserted"
  else .ok (t.branch b next)

/-- `syntax_list.at(index).data.block`: the union member `block` is only there to be read when the
    node is a `Block` node. -/
def blockAt (t : Translation) (index : Nat) : Except String BlockRef :=
  match t.syntaxList[index]? with
  | some (.block b) => .ok b
  | some _ => .error "data.block of another node"
  | none => .error "out_of_range"

end Translation

open Translation

/-! ## The pass -/

/-- `TryFindForwardBlock` on the siblings after the statement: is there a `Code` statement before
    the next one with children? -/
def tryFindForwardBlock : List Statement → Bool
  | [] => false
  | .code _ _ :: _ => true
  | s :: rest => if s.hasChildren then false else tryFindForwardBlock rest

/-- The statements for which `Visit` asks for a merge block. -/
def Statement.callsMergeBlock : Statement → Bool
  | .ifStmt _ _ => true
  | .loop _ _ => true
  | .breakStmt _ => true
  | .kill => true
  | _ => false

def ensureBlock (current : Option BlockRef) (t : Translation) : BlockRef × Translation :=
  match current with
  | some c => (c, t)
  | none =>
      let (c, t) := t.createBlock
      (c, t.emplaceBack (.block c))

/-- `Translate(env, block, begin, end)`: nothing is emitted for an empty range. -/
def translate (t : Translation) (b : BlockRef) (begin «end» : Nat) : Translation :=
  if begin = «end» then t else t.emit b (.translate begin «end»)

/-- The `Code` case of `Visit`. -/
def visitCode (begin «end» : Nat) (current : Option BlockRef) (t : Translation) :
    Option BlockRef × Translation :=
  let (c, t) := ensureBlock current t
  (some c, translate t c begin «end»)

/-- `MergeBlock` inserts `dummy_flow_block` right after the statement when no `Code` statement is
    found ahead, so the loop of `Visit` comes to it next; its range is empty. -/
def visitDummy (stmt : Statement) (rest : List Statement) (current : Option BlockRef)
    (t : Translation) : Option BlockRef × Translation :=
  if stmt.callsMergeBlock && !tryFindForwardBlock rest then visitCode 0 0 current t
  else (current, t)

/-- `if (current_block) { current_block->AddBranch(next); }`. -/
def branchFromCurrent (current : Option BlockRef) (next : BlockRef) (t : Translation) :
    Except String Translation :=
  match current with
  | some c => t.addBranch c next
  | none => .ok t

/-- A block that is dereferenced: null outside a loop. -/
def derefBlock : Option BlockRef → Except String BlockRef
  | some b => .ok b
  | none => .error "null block"

/-- The end of `Visit`: fall through, or mark the end of the program unreachable. -/
def finish (fallthrough current : Option BlockRef) (t : Translation) : Except String Translation :=
  match current, fallthrough with
  | none, _ => .ok t
  | some c, some f => t.addBranch c f
  | some _, none => .ok (t.emplaceBack .unreachable)

mutual

/-- One turn of the loop of `Visit`: the `switch` on the statement's type. -/
def visitStatement (stmt : Statement) (breakBlock current : Option BlockRef) (t : Translation) :
    Except String (Option BlockRef × Translation) :=
  match stmt with
  | .label _ => .ok (current, t)
  | .code begin «end» => .ok (visitCode begin «end» current t)
  | .setVariable id op =>
      let (c, t) := ensureBlock current t
      .ok (some c, t.emit c (.setGotoVariable id op))
  | .setIndirectBranchVariable reg offset =>
      let (c, t) := ensureBlock current t
      .ok (some c, t.emit c (.setIndirectBranchVariable reg offset))
  | .ifStmt cond children => do
      let (c, t) := ensureBlock current t
      let (merge, t) := t.createBlock
      let t := t.emit c (.conditionRef cond)
      let ifNodeIndex := t.syntaxList.length
      let t := t.emplaceBack .default
      let thenBlockIndex := t.syntaxList.length
      let t ← visit children breakBlock (some merge) none t
      let thenBlock ← t.blockAt thenBlockIndex
      let t ← t.addBranch c thenBlock
      let t ← t.addBranch c merge
      let t := t.setNode ifNodeIndex (.ifNode cond thenBlock merge)
      let t := t.emplaceBack (.endIf merge)
      let t := t.emplaceBack (.block merge)
      return (some merge, t)
  | .loop cond children => do
      let (header, t) := t.createBlock
      let t ← branchFromCurrent current header t
      let t := t.emplaceBack (.block header)
      let (cont, t) := t.createBlock
      let (merge, t) := t.createBlock
      let loopNodeIndex := t.syntaxList.length
      let t := t.emplaceBack .default
      let bodyBlockIndex := t.syntaxList.length
      let t ← visit children (some merge) (some cont) none t
      let t := t.emit cont (.conditionRef cond)
      let body ← t.blockAt bodyBlockIndex
      let t ← t.addBranch header body
      let t ← t.addBranch cont header
      let t ← t.addBranch cont merge
      let t := t.setNode loopNodeIndex (.loop body cont merge)
      let t := t.emplaceBack (.block cont)
      let t := t.emplaceBack (.repeatNode cond header merge)
      let t := t.emplaceBack (.block merge)
      return (some merge, t)
  | .breakStmt cond => do
      let (c, t) := ensureBlock current t
      let (skip, t) := t.createBlock
      let t := t.emit c (.conditionRef cond)
      let merge ← derefBlock breakBlock
      let t ← t.addBranch c merge
      let t ← t.addBranch c skip
      let t := t.emplaceBack (.breakNode cond merge skip)
      let t := t.emplaceBack (.block skip)
      return (some skip, t)
  | .returnStmt => do
      let (c, t) := ensureBlock current t
      let (ret, t) := t.createBlock
      let t := t.emit ret .epilogue
      let t ← t.addBranch c ret
      let t := t.emplaceBack (.block ret)
      return (none, t.emplaceBack .returnNode)
  | .kill => do
      let (c, t) := ensureBlock current t
      let (demote, t) := t.createBlock
      let t := t.emit c .demoteToHelperInvocation
      let t ← t.addBranch c demote
      let t := t.emplaceBack (.block demote)
      return (some demote, { t with usesDemoteToHelper := true })
  | .unreachable =>
      let (_, t) := ensureBlock current t
      .ok (none, t.emplaceBack .unreachable)
  | .goto _ _ => .error "Statement type Goto"

/-- `TranslatePass::Visit` from the statement under the loop's iterator on, `current` being
    `current_block`. -/
def visit (children : List Statement) (breakBlock fallthrough current : Option BlockRef)
    (t : Translation) : Except String Translation :=
  match children with
  | [] => finish fallthrough current t
  | stmt :: rest => do
      let (current, t) ← visitStatement stmt breakBlock current t
      let (current, t) := visitDummy stmt rest current t
      visit rest breakBlock fallthrough current t

end

/-- `Visit(root_stmt, nullptr, nullptr)`, as the constructor of `TranslatePass` calls it. -/
def translatePass (root : List Statement) : Except String Translation :=
  visit root none none none .empty

/-! ## The trees the pass is given -/

mutual

/-- Goto-free, every `Break` inside a `Loop`, and every body with a statement besides labels. -/
def Statement.structured (inLoop : Bool) : Statement → Bool
  | .goto _ _ => false
  | .breakStmt _ => inLoop
  | .ifStmt _ children => children.any (!·.isLabel) && allStructured inLoop children
  | .loop _ children => children.any (!·.isLabel) && allStructured true children
  | _ => true

/-- Every statement of a body is structured. -/
def allStructured (inLoop : Bool) : List Statement → Bool
  | [] => true
  | s :: rest => s.structured inLoop && allStructured inLoop rest

end

/-! ## What the small operations leave alone -/

namespace Translation

variable (t : Translation) (b next : Nat) (i : Inst) (n : AbstractSyntaxNode) (index : Nat)

@[simp] theorem createBlock_fst : t.createBlock.1 = t.created + 1 := rfl
@[simp] theorem createBlock_created : t.createBlock.2.created = t.created + 1 := rfl
@[simp] theorem createBlock_succs : t.createBlock.2.immSuccessors = t.immSuccessors := rfl
@[simp] theorem createBlock_list : t.createBlock.2.syntaxList = t.syntaxList := rfl
@[simp] theorem emit_created : (t.emit b i).created = t.created := rfl
@[simp] theorem emit_succs : (t.emit b i).immSuccessors = t.immSuccessors := rfl
@[simp] theorem emit_list : (t.emit b i).syntaxList = t.syntaxList := rfl
@[simp] theorem emplaceBack_created : (t.emplaceBack n).created = t.created := rfl
@[simp] theorem emplaceBack_succs : (t.emplaceBack n).immSuccessors = t.immSuccessors := rfl
@[simp] theorem emplaceBack_list : (t.emplaceBack n).syntaxList = t.syntaxList ++ [n] := rfl
@[simp] theorem setNode_created : (t.setNode index n).created = t.created := rfl
@[simp] theorem setNode_succs : (t.setNode index n).immSuccessors = t.immSuccessors := rfl
@[simp] theorem setNode_list : (t.setNode index n).syntaxList = t.syntaxList.set index n := rfl
@[simp] theorem branch_created : (t.branch b next).created = t.created := rfl
@[simp] theorem branch_list : (t.branch b next).syntaxList = t.syntaxList := rfl

@[simp] theorem branch_succs_self :
    (t.branch b next).immSuccessors b = t.immSuccessors b ++ [next] :=
  Function.update_self ..

theorem branch_succs_of_ne {b c : Nat} (h : c ≠ b) :
    (t.branch b next).immSuccessors c = t.immSuccessors c :=
  Function.update_of_ne h ..

/-- Predecessors mirror successors. -/
def Mirrored (t : Translation) : Prop :=
  ∀ a b, a ∈ t.immPredecessors b ↔ b ∈ t.immSuccessors a

theorem Mirrored.branch {t : Translation} (h : t.Mirrored) (b next : BlockRef) :
    (t.branch b next).Mirrored := by
  intro x y
  have hxy := h x y
  simp only [Translation.branch, Function.update_apply]
  split <;> split <;> simp_all

theorem addBranch_ok {t : Translation} (h : t.Mirrored) {b next : BlockRef}
    (hnew : next ∉ t.immSuccessors b) : t.addBranch b next = .ok (t.branch b next) := by
  have hpred : b ∉ t.immPredecessors next := fun hb => hnew ((h b next).mp hb)
  rw [addBranch, if_neg hnew, if_neg hpred]

end Translation

/-! ## The invariant -/

/-- Since `t₀` the pass has appended `seg` to the list and it is in order: nested inside the loop
    of `brk`, linked with `exits` past its end, and holding each block created since exactly once.
    The blocks of before keep their successors. -/
structure Grown (t₀ : Translation) (brk : Option BlockRef) (exits : List BlockRef)
    (t : Translation) (seg : AbstractSyntaxList) : Prop where
  list_eq : t.syntaxList = t₀.syntaxList ++ seg
  created_le : t₀.created ≤ t.created
  linked : Linked t.immSuccessors exits seg
  nested : Nested brk seg
  nodup : (blockNodes seg).Nodup
  blocks : ∀ b : Nat, b ∈ blockNodes seg ↔ t₀.created < b ∧ b ≤ t.created
  frame : ∀ b : Nat, b ≤ t₀.created → t.immSuccessors b = t₀.immSuccessors b
  unborn : ∀ b : Nat, t.created < b → t.immSuccessors b = []
  mirrored : t.Mirrored

/-- In the middle of a body: `current_block` is the last node, and nothing leaves it yet. -/
structure Progress (t₀ : Translation) (brk : Option BlockRef) (t : Translation)
    (current : Option BlockRef) (seg : AbstractSyntaxList) : Prop where
  grown : Grown t₀ brk [] t seg
  current_eq : current = trailing seg

theorem Linked.trailing_succs {succs : BlockRef → List BlockRef} {exits : List BlockRef}
    {l : AbstractSyntaxList} {c : BlockRef} (h : Linked succs exits l) (hc : trailing l = some c) :
    succs c = exits := by
  induction l with
  | nil => cases hc
  | cons n rest ih =>
    cases rest with
    | nil => cases n <;> simp_all [trailing, Linked, targets]
    | cons m more =>
      have hc' : trailing (m :: more) = some c := by
        cases n <;> simpa [trailing] using hc
      cases n with
      | block b => exact ih h.2 hc'
      | _ => exact ih h hc'

section Extend

variable {t₀ t t' : Translation} {brk current : Option BlockRef} {seg : AbstractSyntaxList}

theorem Progress.current_bounds (h : Progress t₀ brk t current seg) {c : Nat}
    (hc : current = some c) : t₀.created < c ∧ c ≤ t.created :=
  (h.grown.blocks c).mp (trailing_mem (h.current_eq ▸ hc))

theorem Progress.current_succs (h : Progress t₀ brk t current seg) {c : Nat}
    (hc : current = some c) : t.immSuccessors c = [] :=
  h.grown.linked.trailing_succs (h.current_eq ▸ hc)

/-- What a statement adds is in order after the body so far: only the current block gets
    successors, and they are what the added nodes begin with. -/
structure Extends (t : Translation) (brk current : Option BlockRef) (exits : List BlockRef)
    (t' : Translation) (ext : AbstractSyntaxList) : Prop where
  list_eq : t'.syntaxList = t.syntaxList ++ ext
  created_le : t.created ≤ t'.created
  leaves : ∀ c, current = some c → t'.immSuccessors c = targets exits ext
  others : ∀ b : Nat, b ≤ t.created → current ≠ some b → t'.immSuccessors b = t.immSuccessors b
  linked : Linked t'.immSuccessors exits ext
  nested : Nested brk ext
  nodup : (blockNodes ext).Nodup
  blocks : ∀ b : Nat, b ∈ blockNodes ext ↔ t.created < b ∧ b ≤ t'.created
  unborn : ∀ b : Nat, t'.created < b → t'.immSuccessors b = []
  mirrored : t'.Mirrored

variable {ext : AbstractSyntaxList}

theorem Progress.grow (h : Progress t₀ brk t current seg) {exits : List BlockRef}
    (he : Extends t brk current exits t' ext) : Grown t₀ brk exits t' (seg ++ ext) where
  list_eq := by rw [he.list_eq, h.grown.list_eq, List.append_assoc]
  created_le := h.grown.created_le.trans he.created_le
  linked := by
    have hle : ∀ b ∈ blockNodes seg, b ≤ t.created := fun b hb => ((h.grown.blocks b).mp hb).2
    refine (linked_append _ _).mpr ⟨?_, he.linked⟩
    cases hc : current with
    | some c =>
      rw [← he.leaves c hc]
      refine h.grown.linked.retarget (h.current_eq ▸ hc) h.grown.nodup fun b hb hne => ?_
      refine he.others b (hle b hb) fun hb' => hne ?_
      rw [hc] at hb'; exact (Option.some.inj hb').symm
    | none =>
      refine (h.grown.linked.of_trailing_none (h.current_eq ▸ hc) _).congr fun b hb => ?_
      exact he.others b (hle b hb) (by rw [hc]; exact nofun)
  nested := h.grown.nested.append he.nested
  nodup := by
    rw [blockNodes_append, List.nodup_append]
    refine ⟨h.grown.nodup, he.nodup, fun a ha b hb hab => ?_⟩
    subst hab
    have := (h.grown.blocks a).mp ha
    have := (he.blocks a).mp hb
    omega
  blocks := fun b => by
    have h1 := h.grown.created_le
    have h2 := he.created_le
    rw [blockNodes_append, List.mem_append, h.grown.blocks, he.blocks]; omega
  frame := fun b hb => by
    rw [← h.grown.frame b hb]
    refine he.others b (hb.trans h.grown.created_le) fun hc => ?_
    have := (h.current_bounds hc).1
    omega
  unborn := he.unborn
  mirrored := he.mirrored

theorem Progress.extend (h : Progress t₀ brk t current seg) (he : Extends t brk current [] t' ext)
    (hne : ext ≠ []) : Progress t₀ brk t' (trailing ext) (seg ++ ext) := by
  exact ⟨h.grow he, (trailing_append seg hne).symm⟩

theorem Progress.emit (h : Progress t₀ brk t current seg) (b : BlockRef) (i : Inst) :
    Progress t₀ brk (t.emit b i) current seg :=
  ⟨⟨h.grown.list_eq, h.grown.created_le, h.grown.linked, h.grown.nested, h.grown.nodup,
    h.grown.blocks, h.grown.frame, h.grown.unborn, h.grown.mirrored⟩, h.current_eq⟩

/-- The nodes begin with a block node. -/
def StartsBlock (l : AbstractSyntaxList) : Prop := ∃ b rest, l = .block b :: rest

theorem StartsBlock.append {l : AbstractSyntaxList} (h : StartsBlock l) (m : AbstractSyntaxList) :
    StartsBlock (l ++ m) := by
  obtain ⟨b, rest, rfl⟩ := h; exact ⟨b, rest ++ m, rfl⟩

theorem extends_fresh (h : Progress t₀ brk t none seg) :
    Extends t brk none [] (t.createBlock.2.emplaceBack (.block (t.created + 1)))
      [.block (t.created + 1)] where
  list_eq := rfl
  created_le := Nat.le_succ _
  leaves := nofun
  others := fun _ _ _ => rfl
  linked := ⟨h.grown.unborn _ (Nat.lt_succ_self _), trivial⟩
  nested := .block _
  nodup := List.nodup_singleton _
  blocks := fun b => by
    simp only [blockNodes, List.mem_singleton, emplaceBack_created, createBlock_created]; omega
  unborn := fun b hb => h.grown.unborn b (by
    simp only [emplaceBack_created, createBlock_created] at hb; omega)
  mirrored := h.grown.mirrored

theorem Progress.ensureBlock (h : Progress t₀ brk t current seg) :
    ∃ c t' ext, ensureBlock current t = (c, t') ∧ Progress t₀ brk t' (some c) (seg ++ ext) ∧
      (current = none → StartsBlock ext) := by
  cases current with
  | some c => exact ⟨c, t, [], rfl, by rwa [List.append_nil], nofun⟩
  | none =>
    exact ⟨_, _, [.block (t.created + 1)], rfl, h.extend (extends_fresh h) (List.cons_ne_nil _ _),
      fun _ => ⟨_, [], rfl⟩⟩

/-- What one statement does to the invariant: the body grows, and a statement that is not a label
    starts it with a block node. -/
def Steps (t₀ : Translation) (brk current : Option BlockRef) (seg : AbstractSyntaxList)
    (result : Except String (Option BlockRef × Translation)) : Prop :=
  ∃ current' t' ext, result = .ok (current', t') ∧ Progress t₀ brk t' current' (seg ++ ext) ∧
    (current = none → StartsBlock ext)

theorem steps_of_extends {ext₀ : AbstractSyntaxList} {current₀ : Option BlockRef}
    (h : Progress t₀ brk t current (seg ++ ext₀)) (hs : current₀ = none → StartsBlock ext₀)
    (he : Extends t brk current [] t' ext) (hne : ext ≠ []) {current' : Option BlockRef}
    (hcur : trailing ext = current') : Steps t₀ brk current₀ seg (.ok (current', t')) := by
  refine ⟨current', t', ext₀ ++ ext, rfl, ?_, fun hn => (hs hn).append ext⟩
  rw [← List.append_assoc, ← hcur]
  exact h.extend he hne

theorem extends_branch_fresh {c : Nat} (h : Progress t₀ brk t (some c) seg) (b : BlockRef)
    (i : Inst) :
    Extends t brk (some c) []
      (((t.createBlock.2.emit b i).branch c (t.created + 1)).emplaceBack (.block (t.created + 1)))
      [.block (t.created + 1)] where
  list_eq := rfl
  created_le := Nat.le_succ _
  leaves := fun c' hc' => by
    obtain rfl := Option.some.inj hc'; simp [targets, h.current_succs rfl]
  others := fun b' _ hne => branch_succs_of_ne _ _ fun hb => hne (hb ▸ rfl)
  linked := by
    have hc := (h.current_bounds rfl).2
    refine ⟨?_, trivial⟩
    rw [emplaceBack_succs, branch_succs_of_ne _ _ (by omega)]
    exact h.grown.unborn _ (Nat.lt_succ_self _)
  nested := .block _
  nodup := List.nodup_singleton _
  blocks := fun b' => by
    simp only [blockNodes, List.mem_singleton, emplaceBack_created, branch_created, emit_created,
      createBlock_created]
    omega
  unborn := fun b' hb' => by
    have hc := (h.current_bounds rfl).2
    simp only [emplaceBack_created, branch_created, emit_created, createBlock_created] at hb'
    rw [emplaceBack_succs, branch_succs_of_ne _ _ (by omega)]
    exact h.grown.unborn _ (by omega)
  mirrored := Mirrored.branch (t := t.createBlock.2.emit b i) h.grown.mirrored _ _

theorem extends_end (h : Progress t₀ brk t current seg) {n : AbstractSyntaxNode}
    (hn : n = .returnNode ∨ n = .unreachable) : Extends t brk current [] (t.emplaceBack n) [n] where
  list_eq := rfl
  created_le := le_rfl
  leaves := fun c hc => by
    rw [emplaceBack_succs, h.current_succs hc]
    rcases hn with rfl | rfl <;> rfl
  others := fun _ _ _ => rfl
  linked := by rcases hn with rfl | rfl <;> trivial
  nested := by
    rcases hn with rfl | rfl
    · exact .returnNode
    · exact .unreachable
  nodup := by rcases hn with rfl | rfl <;> exact List.nodup_nil
  blocks := fun b => by
    rcases hn with rfl | rfl
    all_goals
      simp only [blockNodes, List.not_mem_nil, emplaceBack_created, false_iff]; omega
  unborn := h.grown.unborn
  mirrored := h.grown.mirrored

theorem extends_break {c merge : Nat} (h : Progress t₀ (some merge) t (some c) seg)
    (cond : Expr) (i : Inst) :
    Extends t (some merge) (some c) []
      (((((t.createBlock.2.emit c i).branch c merge).branch c (t.created + 1)).emplaceBack
        (.breakNode cond merge (t.created + 1))).emplaceBack (.block (t.created + 1)))
      [.breakNode cond merge (t.created + 1), .block (t.created + 1)] where
  list_eq := by simp
  created_le := Nat.le_succ _
  leaves := fun c' hc' => by
    obtain rfl := Option.some.inj hc'; simp [targets, h.current_succs rfl]
  others := fun b' _ hne => by
    have hb : b' ≠ c := fun hb => hne (hb ▸ rfl)
    rw [emplaceBack_succs, emplaceBack_succs, branch_succs_of_ne _ _ hb,
      branch_succs_of_ne _ _ hb]
    rfl
  linked := by
    have hc := (h.current_bounds rfl).2
    refine ⟨?_, trivial⟩
    rw [emplaceBack_succs, emplaceBack_succs, branch_succs_of_ne _ _ (by omega),
      branch_succs_of_ne _ _ (by omega)]
    exact h.grown.unborn _ (Nat.lt_succ_self _)
  nested := .breakNode cond merge _
  nodup := List.nodup_singleton _
  blocks := fun b' => by
    simp only [blockNodes, List.mem_singleton, emplaceBack_created, branch_created, emit_created,
      createBlock_created]
    omega
  unborn := fun b' hb' => by
    have hc := (h.current_bounds rfl).2
    simp only [emplaceBack_created, branch_created, emit_created, createBlock_created] at hb'
    rw [emplaceBack_succs, emplaceBack_succs, branch_succs_of_ne _ _ (by omega),
      branch_succs_of_ne _ _ (by omega)]
    exact h.grown.unborn _ (by omega)
  mirrored :=
    (Mirrored.branch (t := t.createBlock.2.emit c i) h.grown.mirrored c merge).branch c _

theorem Grown.start {exits : List BlockRef} (h : Grown t₀ brk exits t seg)
    (brk' : Option BlockRef) {t₁ : Translation} (hs : t₁.immSuccessors = t.immSuccessors)
    (hc : t.created ≤ t₁.created) (hm : t₁.Mirrored) : Progress t₁ brk' t₁ none [] where
  grown :=
    { list_eq := (List.append_nil _).symm
      created_le := le_rfl
      linked := trivial
      nested := .nil
      nodup := List.nodup_nil
      blocks := fun b => by
        simp only [blockNodes, List.not_mem_nil, false_iff]; omega
      frame := fun _ _ => rfl
      unborn := fun b hb => by
        rw [hs]; exact h.unborn b (by omega)
      mirrored := hm }
  current_eq := rfl

theorem extends_if {c body : Nat} {t₁ t₂ : Translation} {inner : AbstractSyntaxList}
    (h : Progress t₀ brk t (some c) seg) (cond : Expr)
    (hlist : t₁.syntaxList = t.syntaxList ++ [.default]) (hcreated : t₁.created = t.created + 1)
    (hsuccs : t₁.immSuccessors = t.immSuccessors)
    (hbody : Grown t₁ brk [t.created + 1] t₂ (.block body :: inner)) :
    Extends t brk (some c) []
      (((((t₂.branch c body).branch c (t.created + 1)).setNode t.syntaxList.length
        (.ifNode cond body (t.created + 1))).emplaceBack (.endIf (t.created + 1))).emplaceBack
          (.block (t.created + 1)))
      (.ifNode cond body (t.created + 1) :: (.block body :: inner) ++
        [.endIf (t.created + 1), .block (t.created + 1)]) := by
  have hc := (h.current_bounds rfl).2
  have hle := hbody.created_le
  have hkeep : ∀ b, b ≠ c → (((t₂.branch c body).branch c (t.created + 1))).immSuccessors b =
      t₂.immSuccessors b := fun b hb => by
    rw [branch_succs_of_ne _ _ hb, branch_succs_of_ne _ _ hb]
  have hmerge : t₂.immSuccessors (t.created + 1) = [] := by
    rw [hbody.frame _ (by omega), hsuccs]; exact h.grown.unborn _ (Nat.lt_succ_self _)
  constructor
  case list_eq => simp [hbody.list_eq, hlist]
  case created_le =>
    simp only [emplaceBack_created, setNode_created, branch_created]; omega
  case leaves =>
    intro c' hc'
    obtain rfl := Option.some.inj hc'
    have hnil : t₂.immSuccessors c = [] := by
      rw [hbody.frame c (by omega), hsuccs, h.current_succs rfl]
    simp [targets, hnil]
  case others =>
    intro b hb hne
    have hbc : b ≠ c := fun hbc => hne (hbc ▸ rfl)
    simp only [emplaceBack_succs, setNode_succs]
    rw [hkeep b hbc, hbody.frame b (by omega), hsuccs]
  case linked =>
    simp only [emplaceBack_succs, setNode_succs]
    refine (linked_append _ _).mpr ⟨?_, ?_, trivial⟩
    · refine (show Linked _ [t.created + 1] (.block body :: inner) from hbody.linked).congr
        fun b hb => hkeep b ?_
      have := ((hbody.blocks b).mp hb).1
      omega
    · rw [hkeep _ (by omega), hmerge]; rfl
  case nested => exact .ifNode cond body _ hbody.nested
  case nodup =>
    show (blockNodes (.block body :: inner ++ [.endIf _, .block _])).Nodup
    rw [blockNodes_append, List.nodup_append]
    refine ⟨hbody.nodup, List.nodup_singleton _, fun a ha b hb hab => ?_⟩
    have ha' := ((hbody.blocks a).mp ha).1
    rw [hab, List.mem_singleton.mp hb] at ha'; omega
  case blocks =>
    intro b
    show b ∈ blockNodes (.block body :: inner ++ [.endIf _, .block _]) ↔ _
    rw [blockNodes_append, List.mem_append, hbody.blocks]
    simp only [blockNodes, List.mem_singleton, emplaceBack_created, setNode_created,
      branch_created]
    omega
  case unborn =>
    intro b hb
    simp only [emplaceBack_created, setNode_created, branch_created] at hb
    simp only [emplaceBack_succs, setNode_succs]
    rw [hkeep b (by omega)]; exact hbody.unborn b hb
  case mirrored => exact (hbody.mirrored.branch c body).branch c (t.created + 1)

section

variable (h : Progress t₀ brk t current seg)
include h

theorem extends_loop {body : Nat} {t₁ t₂ t₃ : Translation} {inner : AbstractSyntaxList} (cond : Expr)
    (i : Inst) (hlist : t₁.syntaxList = t.syntaxList ++ [.block (t.created + 1), .default])
    (hcreated : t₁.created = t.created + 3)
    (hleaves : ∀ c, current = some c → t₁.immSuccessors c = [t.created + 1])
    (hothers : ∀ b, current ≠ some b → t₁.immSuccessors b = t.immSuccessors b)
    (hbody : Grown t₁ (some (t.created + 3)) [t.created + 2] t₂ (.block body :: inner))
    (ht₃ : t₃ = ((t₂.emit (t.created + 2) i).branch (t.created + 1) body |>.branch
      (t.created + 2) (t.created + 1)).branch (t.created + 2) (t.created + 3)) :
    Extends t brk current []
      ((((t₃.setNode (t.syntaxList.length + 1)
        (.loop body (t.created + 2) (t.created + 3))).emplaceBack
          (.block (t.created + 2))).emplaceBack
            (.repeatNode cond (t.created + 1) (t.created + 3))).emplaceBack
              (.block (t.created + 3)))
      (.block (t.created + 1) :: .loop body (t.created + 2) (t.created + 3) ::
        (.block body :: inner) ++ [.block (t.created + 2),
          .repeatNode cond (t.created + 1) (t.created + 3), .block (t.created + 3)]) := by
  have hle := hbody.created_le
  have hcur : ∀ c : Nat, current = some c → c ≤ t.created := fun c hc => (h.current_bounds hc).2
  have hnew : ∀ b : Nat, t.created < b → current ≠ some b := fun b hb hc => by
    have := hcur b hc
    omega
  have hnil : ∀ b : Nat, t.created < b → b ≤ t.created + 3 → t₂.immSuccessors b = [] :=
    fun b hlo hhi => by
      rw [hbody.frame b (by omega), hothers b (hnew b hlo)]; exact h.grown.unborn b hlo
  -- the branches added after the body leave from the header and from the continue block only
  have hkeep : ∀ b, b ≠ t.created + 1 → b ≠ t.created + 2 →
      t₃.immSuccessors b = t₂.immSuccessors b := fun b h1 h2 => by
    rw [ht₃, branch_succs_of_ne _ _ h2, branch_succs_of_ne _ _ h2, branch_succs_of_ne _ _ h1]; rfl
  have hheader : t₃.immSuccessors (t.created + 1) = [body] := by
    rw [ht₃, branch_succs_of_ne _ _ (by omega), branch_succs_of_ne _ _ (by omega),
      branch_succs_self, emit_succs, hnil _ (by omega) (by omega)]
    rfl
  have hcont : t₃.immSuccessors (t.created + 2) = [t.created + 1, t.created + 3] := by
    rw [ht₃, branch_succs_self, branch_succs_self, branch_succs_of_ne _ _ (by omega), emit_succs,
      hnil _ (by omega) (by omega)]
    rfl
  have hcreated₃ : t₃.created = t₂.created := by rw [ht₃]; rfl
  constructor
  case list_eq =>
    have hlist₃ : t₃.syntaxList = t₁.syntaxList ++ .block body :: inner := by
      rw [ht₃]; exact hbody.list_eq
    simp [hlist₃, hlist]
  case created_le =>
    simp only [emplaceBack_created, setNode_created, hcreated₃]; omega
  case leaves =>
    intro c hc
    have := hcur c hc
    simp only [emplaceBack_succs, setNode_succs]
    rw [hkeep c (by omega) (by omega), hbody.frame c (by omega), hleaves c hc]; rfl
  case others =>
    intro b hb hne
    simp only [emplaceBack_succs, setNode_succs]
    rw [hkeep b (by omega) (by omega), hbody.frame b (by omega), hothers b hne]
  case linked =>
    simp only [emplaceBack_succs, setNode_succs]
    refine ⟨hheader, (linked_append _ _).mpr ⟨?_, hcont, ?_, trivial⟩⟩
    · refine (show Linked _ [t.created + 2] (.block body :: inner) from hbody.linked).congr
        fun b hb => ?_
      have := ((hbody.blocks b).mp hb).1
      exact hkeep b (by omega) (by omega)
    · rw [hkeep _ (by omega) (by omega), hnil _ (by omega) (by omega)]; rfl
  case nested => exact .loop cond _ body _ _ hbody.nested
  case nodup =>
    show ((t.created + 1) :: blockNodes (.block body :: inner ++
      [.block (t.created + 2), .repeatNode _ _ _, .block (t.created + 3)])).Nodup
    rw [blockNodes_append, List.nodup_cons, List.nodup_append]
    refine ⟨fun hmem => ?_, hbody.nodup, by simp [blockNodes], fun a ha b hb hab => ?_⟩
    · rcases List.mem_append.mp hmem with hmem | hmem
      · have := ((hbody.blocks _).mp hmem).1
        omega
      · simp [blockNodes] at hmem
    · have ha' := ((hbody.blocks a).mp ha).1
      rw [hab] at ha'
      simp only [blockNodes, List.mem_cons, List.not_mem_nil, or_false] at hb; omega
  case blocks =>
    intro b
    show b ∈ (t.created + 1) :: blockNodes (.block body :: inner ++
      [.block (t.created + 2), .repeatNode _ _ _, .block (t.created + 3)]) ↔ _
    rw [blockNodes_append, List.mem_cons, List.mem_append, hbody.blocks]
    simp only [blockNodes, List.mem_cons, List.not_mem_nil, or_false, emplaceBack_created,
      setNode_created, hcreated₃]
    omega
  case unborn =>
    intro b hb
    simp only [emplaceBack_created, setNode_created, hcreated₃] at hb
    simp only [emplaceBack_succs, setNode_succs]
    rw [hkeep b (by omega) (by omega)]; exact hbody.unborn b hb
  case mirrored =>
    rw [ht₃]
    exact ((Mirrored.branch (t := t₂.emit (t.created + 2) i) hbody.mirrored _ _).branch _ _).branch
      _ _

theorem Progress.translate (b : BlockRef) (x y : Nat) :
    Progress t₀ brk (translate t b x y) current seg := by
  unfold Shader.translate
  split
  · exact h
  · exact h.emit b _

theorem Progress.visitCode (x y : Nat) :
    Steps t₀ brk current seg (.ok (visitCode x y current t)) := by
  obtain ⟨c, t', ext, he, hp, hs⟩ := h.ensureBlock
  refine ⟨some c, Shader.translate t' c x y, ext, ?_, hp.translate c x y, hs⟩
  rw [Shader.visitCode, he]

theorem Progress.visitDummy (stmt : Statement) (rest : List Statement) :
    ∃ current' t' ext, visitDummy stmt rest current t = (current', t') ∧
      Progress t₀ brk t' current' (seg ++ ext) ∧ (stmt.isLabel = true → current' = current ∧
        t' = t ∧ ext = []) := by
  unfold Shader.visitDummy
  split
  · obtain ⟨current', t', ext, heq, hp, -⟩ := h.visitCode 0 0
    refine ⟨current', t', ext, Except.ok.inj heq, hp, fun hl => ?_⟩
    cases stmt <;> simp_all [Statement.isLabel, Statement.callsMergeBlock]
  · exact ⟨current, t, [], rfl, by rwa [List.append_nil], fun _ => ⟨rfl, rfl, rfl⟩⟩

end

/-- **The end of a body**: linked to the block it falls into. -/
theorem Progress.finish (h : Progress t₀ brk t current seg) (fallthrough : Option BlockRef) :
    ∃ t' ext, finish fallthrough current t = .ok t' ∧
      Grown t₀ brk fallthrough.toList t' (seg ++ ext) := by
  cases current with
  | none =>
    refine ⟨t, [], rfl, ?_⟩
    rw [List.append_nil]
    exact { h.grown with linked := h.grown.linked.of_trailing_none h.current_eq.symm _ }
  | some c =>
    cases fallthrough with
    | none =>
      exact ⟨t.emplaceBack .unreachable, [.unreachable], rfl,
        h.grow (extends_end h (Or.inr rfl))⟩
    | some f =>
      have hnil := h.current_succs rfl
      have hc := (h.current_bounds rfl).2
      refine ⟨t.branch c f, [], addBranch_ok h.grown.mirrored (by simp [hnil]), h.grow ?_⟩
      exact
        { list_eq := (List.append_nil _).symm
          created_le := le_rfl
          leaves := fun c' hc' => by
            obtain rfl := Option.some.inj hc'
            rw [branch_succs_self, hnil]; rfl
          others := fun b _ hne => branch_succs_of_ne _ _ fun hb => hne (hb ▸ rfl)
          linked := trivial
          nested := .nil
          nodup := List.nodup_nil
          blocks := fun b => by
            simp only [blockNodes, List.not_mem_nil, false_iff, branch_created]; omega
          unborn := fun b hb => by
            rw [branch_created] at hb
            rw [branch_succs_of_ne _ _ (by omega)]; exact h.grown.unborn b hb
          mirrored := h.grown.mirrored.branch c f }

end Extend

/-! ## Visiting a tree -/

/-- What visiting a list of statements does to the invariant. -/
def Visits (t₀ : Translation) (brk fallthrough current : Option BlockRef)
    (seg : AbstractSyntaxList) (children : List Statement)
    (result : Except String Translation) : Prop :=
  ∃ t' ext, result = .ok t' ∧ Grown t₀ brk fallthrough.toList t' (seg ++ ext) ∧
    (current = none → children.any (!·.isLabel) = true → StartsBlock ext)

variable {current brk : Option BlockRef} {seg : AbstractSyntaxList} {t t₀ : Translation}

theorem visitStatement_if (cond : Expr) (children : List Statement)
    (hne : children.any (!·.isLabel) = true)
    (ih : ∀ (t₁ : Translation) (fallthrough : Option BlockRef), t₀.created ≤ t₁.created →
      Progress t₁ brk t₁ none [] →
      Visits t₁ brk fallthrough none [] children (visit children brk fallthrough none t₁))
    (h : Progress t₀ brk t current seg) :
    Steps t₀ brk current seg (visitStatement (.ifStmt cond children) brk current t) := by
  obtain ⟨c, t, ext₀, he, hp, hs⟩ := h.ensureBlock
  have hstart : Progress ((t.createBlock.2.emit c (.conditionRef cond)).emplaceBack .default) brk
      ((t.createBlock.2.emit c (.conditionRef cond)).emplaceBack .default) none [] :=
    hp.grown.start brk rfl (Nat.le_succ _) hp.grown.mirrored
  obtain ⟨t₂, ext, hv, hbody, hstarts⟩ := ih _ (some (t.created + 1))
    (hp.grown.created_le.trans (Nat.le_succ _)) hstart
  obtain ⟨body, inner, rfl⟩ := hstarts rfl hne
  rw [List.nil_append] at hbody
  have hc := (hp.current_bounds rfl).2
  have hblocks := (hbody.blocks body).mp List.mem_cons_self
  have hnil : t₂.immSuccessors c = [] := by
    rw [hbody.frame c (hc.trans (Nat.le_succ _))]; exact hp.current_succs rfl
  have hat : t₂.blockAt (t.syntaxList ++ [AbstractSyntaxNode.default]).length = .ok body := by
    simp [blockAt, hbody.list_eq]
  have hthen : t₂.addBranch c body = .ok (t₂.branch c body) :=
    addBranch_ok hbody.mirrored (by simp [hnil])
  have hmerge : (t₂.branch c body).addBranch c (t.created + 1) =
      .ok ((t₂.branch c body).branch c (t.created + 1)) := by
    refine addBranch_ok (hbody.mirrored.branch c body) ?_
    have : t.created + 1 ≠ body := by
      simp only [emplaceBack_created, emit_created, createBlock_created] at hblocks; omega
    simp [hnil, this]
  simp only [visitStatement, he]
  simp only [hv, bind, Except.bind, emplaceBack_list, emit_list, createBlock_list,
    createBlock_fst, hat, hthen, hmerge]
  have hext := extends_if hp cond ?_ ?_ ?_ hbody
  · exact steps_of_extends hp hs hext (by simp)
      (trailing_append (.ifNode cond body (t.created + 1) :: .block body :: inner) (by simp))
  · rfl
  · rfl
  · rfl

theorem visitStatement_loop (cond : Expr) (children : List Statement)
    (hne : children.any (!·.isLabel) = true)
    (ih : ∀ (t₁ : Translation) (merge : Nat) (fallthrough : Option BlockRef),
      merge ≤ t₁.created → Progress t₁ (some merge) t₁ none [] →
      Visits t₁ (some merge) fallthrough none [] children
        (visit children (some merge) fallthrough none t₁)) (h : Progress t₀ brk t current seg) :
    Steps t₀ brk current seg (visitStatement (.loop cond children) brk current t) := by
  -- entering the loop: the current block, if any, branches to the header
  obtain ⟨th, hth, hlist, hcreated, hmirrored, hleaves, hothers⟩ : ∃ th,
      branchFromCurrent current (t.created + 1) t.createBlock.2 = .ok th ∧ th.syntaxList = t.syntaxList ∧
      th.created = t.created + 1 ∧ th.Mirrored ∧
      (∀ c, current = some c → th.immSuccessors c = [t.created + 1]) ∧
      ∀ b, current ≠ some b → th.immSuccessors b = t.immSuccessors b := by
    cases current with
    | none => exact ⟨_, rfl, rfl, rfl, h.grown.mirrored, nofun, fun _ _ => rfl⟩
    | some c =>
      have hnil := h.current_succs rfl
      refine ⟨t.createBlock.2.branch c (t.created + 1), ?_, rfl, rfl,
        Mirrored.branch (t := t.createBlock.2) h.grown.mirrored _ _, fun c' hc' => ?_,
        fun b hb => branch_succs_of_ne _ _ fun hbc => hb (hbc ▸ rfl)⟩
      · exact addBranch_ok (t := t.createBlock.2) h.grown.mirrored (by simp [hnil])
      · obtain rfl := Option.some.inj hc'; simp [hnil]
  have hfresh : ∀ b : Nat, t.created < b → th.immSuccessors b = [] := fun b hb => by
    have hne : current ≠ some b := fun hc => by
      have := (h.current_bounds hc).2
      omega
    rw [hothers b hne]; exact h.grown.unborn b hb
  -- the body starts from here
  obtain ⟨t₁, ht₁⟩ : ∃ t₁, t₁ = ((th.emplaceBack (.block (t.created + 1))).createBlock.2.createBlock.2
    ).emplaceBack .default := ⟨_, rfl⟩
  have hlist₁ : t₁.syntaxList = t.syntaxList ++ [.block (t.created + 1), .default] := by
    rw [ht₁]; simp [hlist]
  have hcreated₁ : t₁.created = t.created + 3 := by
    rw [ht₁]; simp [hcreated]
  have hsuccs₁ : t₁.immSuccessors = th.immSuccessors := by rw [ht₁]; rfl
  have hstart : Progress t₁ (some (t.created + 3)) t₁ none [] := by
    refine ⟨⟨(List.append_nil _).symm, le_rfl, trivial, .nil, List.nodup_nil, fun b => ?_,
      fun _ _ => rfl, fun b hb => ?_, by rw [ht₁]; exact hmirrored⟩, rfl⟩
    · simp only [blockNodes, List.not_mem_nil, false_iff]
      omega
    · rw [hsuccs₁]; exact hfresh b (by omega)
  obtain ⟨t₂, ext, hv, hbody, hstarts⟩ := ih t₁ (t.created + 3) (some (t.created + 2))
    hcreated₁.ge hstart
  obtain ⟨body, inner, rfl⟩ := hstarts rfl hne
  rw [List.nil_append] at hbody
  have hblocks := (hbody.blocks body).mp List.mem_cons_self
  have hat : (t₂.emit (t.created + 2) (.conditionRef cond)).blockAt t₁.syntaxList.length =
      .ok body := by
    simp [blockAt, hbody.list_eq]
  have hnil : ∀ b : Nat, t.created < b → b ≤ t.created + 3 → t₂.immSuccessors b = [] :=
    fun b hlo hhi => by
      rw [hbody.frame b (by omega), hsuccs₁]; exact hfresh b hlo
  -- the three branches added after the body
  have hm := hbody.mirrored
  have hto : (t₂.emit (t.created + 2) (.conditionRef cond)).addBranch (t.created + 1) body =
      .ok ((t₂.emit (t.created + 2) (.conditionRef cond)).branch (t.created + 1) body) :=
    addBranch_ok (t := t₂.emit (t.created + 2) (.conditionRef cond)) hm
      (by simp [hnil (t.created + 1) (by omega) (by omega)])
  obtain ⟨ta, hta⟩ : ∃ ta, ta =
    (t₂.emit (t.created + 2) (.conditionRef cond)).branch (t.created + 1) body := ⟨_, rfl⟩
  have hma : ta.Mirrored := by
    rw [hta]; exact Mirrored.branch (t := t₂.emit (t.created + 2) (.conditionRef cond)) hm _ _
  have hca : ta.immSuccessors (t.created + 2) = [] := by
    rw [hta, branch_succs_of_ne _ _ (by omega), emit_succs]; exact hnil _ (by omega) (by omega)
  have hback : ta.addBranch (t.created + 2) (t.created + 1) =
      .ok (ta.branch (t.created + 2) (t.created + 1)) := addBranch_ok hma (by simp [hca])
  have hout : (ta.branch (t.created + 2) (t.created + 1)).addBranch (t.created + 2)
      (t.created + 3) = .ok ((ta.branch (t.created + 2) (t.created + 1)).branch (t.created + 2)
        (t.created + 3)) := addBranch_ok (hma.branch _ _) (by simp [hca])
  have hext := extends_loop h cond (.conditionRef cond) hlist₁ hcreated₁
    (fun c hc => by rw [hsuccs₁]; exact hleaves c hc)
    (fun b hb => by rw [hsuccs₁]; exact hothers b hb) hbody rfl
  have hresult : visitStatement (.loop cond children) brk current t =
      .ok (some (t.created + 3), ((((((ta.branch (t.created + 2) (t.created + 1)).branch
        (t.created + 2) (t.created + 3)).setNode (t.syntaxList.length + 1)
          (.loop body (t.created + 2) (t.created + 3))).emplaceBack
            (.block (t.created + 2))).emplaceBack
              (.repeatNode cond (t.created + 1) (t.created + 3))).emplaceBack
                (.block (t.created + 3)))) := by
    simp only [visitStatement, createBlock_fst]
    rw [hth]
    simp only [bind, Except.bind, emplaceBack_created, createBlock_created, hcreated, ← ht₁]
    rw [hv]
    have hat' : (t₂.emit (t.created + 2) (.conditionRef cond)).blockAt (t.syntaxList ++
      [AbstractSyntaxNode.block (t.created + 1), .default]).length = .ok body := hlist₁ ▸ hat
    simp only [hlist₁, hat', hto, ← hta, hback, hout]; simp [hlist, pure, Except.pure]
  rw [hresult, hta]
  refine ⟨_, _, _, rfl, ⟨h.grow hext, ?_⟩, fun _ => ⟨_, _, rfl⟩⟩
  refine Eq.symm ((trailing_append seg (List.cons_ne_nil _ _)).trans ?_)
  exact trailing_append (.block (t.created + 1) :: .loop body (t.created + 2) (t.created + 3) ::
    .block body :: inner) (List.cons_ne_nil _ _)

theorem Progress.demote (h : Progress t₀ brk t current seg) :
    Progress t₀ brk { t with usesDemoteToHelper := true } current seg :=
  ⟨⟨h.grown.list_eq, h.grown.created_le, h.grown.linked, h.grown.nested, h.grown.nodup,
    h.grown.blocks, h.grown.frame, h.grown.unborn, h.grown.mirrored⟩, h.current_eq⟩

theorem visitStatement_leaf (stmt : Statement) (hchildren : stmt.hasChildren = false)
    (hlabel : stmt.isLabel = false) {inLoop : Bool} (hst : stmt.structured inLoop = true)
    (hbrk : inLoop = true → brk ≠ none) (hborn : ∀ m : Nat, brk = some m → m ≤ t₀.created)
    (h : Progress t₀ brk t current seg) :
    Steps t₀ brk current seg (visitStatement stmt brk current t) := by
  cases stmt with
  | label id => cases hlabel
  | ifStmt cond children => cases hchildren
  | loop cond children => cases hchildren
  | goto cond label => cases hst
  | code x y => exact h.visitCode x y
  | setVariable id op =>
    obtain ⟨c, t, ext, he, hp, hs⟩ := h.ensureBlock
    simp only [visitStatement, he]; exact ⟨_, _, ext, rfl, hp.emit c _, hs⟩
  | setIndirectBranchVariable reg offset =>
    obtain ⟨c, t, ext, he, hp, hs⟩ := h.ensureBlock
    simp only [visitStatement, he]; exact ⟨_, _, ext, rfl, hp.emit c _, hs⟩
  | unreachable =>
    obtain ⟨c, t, ext, he, hp, hs⟩ := h.ensureBlock
    simp only [visitStatement, he]
    exact steps_of_extends hp hs (extends_end hp (Or.inr rfl)) (List.cons_ne_nil _ _) rfl
  | returnStmt =>
    obtain ⟨c, t, ext, he, hp, hs⟩ := h.ensureBlock
    have hb : (t.createBlock.2.emit (t.created + 1) .epilogue).addBranch c (t.created + 1) = .ok _ :=
      addBranch_ok (t := t.createBlock.2.emit (t.created + 1) .epilogue) hp.grown.mirrored
        (by simp [hp.current_succs rfl])
    have hp' := hp.extend (extends_branch_fresh hp (t.created + 1) .epilogue) (List.cons_ne_nil _ _)
    simp only [visitStatement, he, createBlock_fst, bind, Except.bind, hb]
    rw [List.append_assoc] at hp'
    exact steps_of_extends hp' (fun hn => (hs hn).append _) (extends_end hp' (Or.inl rfl))
      (List.cons_ne_nil _ _) rfl
  | kill =>
    obtain ⟨c, t, ext, he, hp, hs⟩ := h.ensureBlock
    have hb : (t.createBlock.2.emit c .demoteToHelperInvocation).addBranch c (t.created + 1) =
        .ok _ :=
      addBranch_ok (t := t.createBlock.2.emit c .demoteToHelperInvocation) hp.grown.mirrored
        (by simp [hp.current_succs rfl])
    have hp' := hp.extend (extends_branch_fresh hp c .demoteToHelperInvocation)
      (List.cons_ne_nil _ _)
    simp only [visitStatement, he, createBlock_fst, bind, Except.bind, hb]
    rw [List.append_assoc] at hp'
    exact ⟨_, _, _, rfl, hp'.demote, fun hn => (hs hn).append _⟩
  | breakStmt cond =>
    obtain ⟨merge, rfl⟩ := Option.ne_none_iff_exists'.mp (hbrk hst)
    obtain ⟨c, t, ext, he, hp, hs⟩ := h.ensureBlock
    have hb : (t.createBlock.2.emit c (.conditionRef cond)).addBranch c merge = .ok _ :=
      addBranch_ok (t := t.createBlock.2.emit c (.conditionRef cond)) hp.grown.mirrored
        (by simp [hp.current_succs rfl])
    have hskip : t.created + 1 ≠ merge := by
      have := hborn merge rfl
      have := hp.grown.created_le
      omega
    have hb' : ((t.createBlock.2.emit c (.conditionRef cond)).branch c merge).addBranch c
        (t.created + 1) = .ok _ :=
      addBranch_ok (Mirrored.branch (t := t.createBlock.2.emit c (.conditionRef cond))
        hp.grown.mirrored c merge) (by simp [hp.current_succs rfl, hskip])
    simp only [visitStatement, he, createBlock_fst, bind, Except.bind, derefBlock, hb, hb']
    exact steps_of_extends hp hs (extends_break hp cond _) (List.cons_ne_nil _ _) rfl

theorem visits_cons_label {fallthrough : Option BlockRef} {stmt : Statement} {rest : List Statement}
    (hlabel : stmt.isLabel = true)
    (h : Visits t₀ brk fallthrough current seg rest (visit rest brk fallthrough current t)) :
    Visits t₀ brk fallthrough current seg (stmt :: rest)
      (visit rest brk fallthrough current t) := by
  obtain ⟨t', ext, hv, hg, hs⟩ := h
  refine ⟨t', ext, hv, hg, fun hn hany => hs hn ?_⟩
  simpa [List.any_cons, hlabel] using hany

mutual

theorem visitStatement_steps (stmt : Statement) (inLoop : Bool) {t₀ t : Translation}
    {brk current : Option BlockRef} {seg : AbstractSyntaxList} (hlabel : stmt.isLabel = false)
    (hst : stmt.structured inLoop = true) (hbrk : inLoop = true → brk ≠ none)
    (hborn : ∀ m : Nat, brk = some m → m ≤ t₀.created) (h : Progress t₀ brk t current seg) :
    Steps t₀ brk current seg (visitStatement stmt brk current t) := by
  match stmt with
  | .ifStmt cond children =>
    simp only [Statement.structured, Bool.and_eq_true] at hst
    exact visitStatement_if cond children hst.1 (fun t₁ fallthrough hle hp =>
      visit_visits children inLoop fallthrough hst.2 hbrk (fun m hm => (hborn m hm).trans hle) hp) h
  | .loop cond children =>
    simp only [Statement.structured, Bool.and_eq_true] at hst
    exact visitStatement_loop cond children hst.1 (fun t₁ merge fallthrough hle hp =>
      visit_visits children true fallthrough hst.2 (fun _ => Option.some_ne_none _)
        (fun m hm => Option.some.inj hm ▸ hle) hp) h
  | .label _ => cases hlabel
  | .goto _ _ => cases hst
  | .code x y => exact h.visitCode x y
  | .setVariable id op => exact visitStatement_leaf (.setVariable id op) rfl rfl hst hbrk hborn h
  | .setIndirectBranchVariable reg offset =>
    exact visitStatement_leaf (.setIndirectBranchVariable reg offset) rfl rfl hst hbrk hborn h
  | .breakStmt cond => exact visitStatement_leaf (.breakStmt cond) rfl rfl hst hbrk hborn h
  | .returnStmt => exact visitStatement_leaf .returnStmt rfl rfl hst hbrk hborn h
  | .kill => exact visitStatement_leaf .kill rfl rfl hst hbrk hborn h
  | .unreachable => exact visitStatement_leaf .unreachable rfl rfl hst hbrk hborn h

theorem visit_visits (children : List Statement) (inLoop : Bool) {t₀ t : Translation}
    {brk current : Option BlockRef} {seg : AbstractSyntaxList} (fallthrough : Option BlockRef)
    (hst : allStructured inLoop children = true) (hbrk : inLoop = true → brk ≠ none)
    (hborn : ∀ m : Nat, brk = some m → m ≤ t₀.created) (h : Progress t₀ brk t current seg) :
    Visits t₀ brk fallthrough current seg children
      (visit children brk fallthrough current t) := by
  match children with
  | [] =>
    obtain ⟨t', ext, hf, hg⟩ := h.finish fallthrough
    exact ⟨t', ext, hf, hg, fun _ hany => by cases hany⟩
  | stmt :: rest =>
    simp only [allStructured, Bool.and_eq_true] at hst
    cases hlabel : stmt.isLabel with
    | true =>
      have hvisit : visit (stmt :: rest) brk fallthrough current t =
          visit rest brk fallthrough current t := by
        cases stmt <;> simp_all [Statement.isLabel, visit, visitStatement, visitDummy,
          Statement.callsMergeBlock, bind, Except.bind]
      rw [hvisit]
      exact visits_cons_label hlabel (visit_visits rest inLoop fallthrough hst.2 hbrk hborn h)
    | false =>
      obtain ⟨current₁, t₁, ext₁, hv₁, hp₁, hs₁⟩ :=
        visitStatement_steps stmt inLoop hlabel hst.1 hbrk hborn h
      obtain ⟨current₂, t₂, ext₂, hv₂, hp₂, -⟩ := hp₁.visitDummy stmt rest
      obtain ⟨t', ext, hv, hg, -⟩ := visit_visits rest inLoop fallthrough hst.2 hbrk hborn hp₂
      refine ⟨t', ext₁ ++ (ext₂ ++ ext), ?_, ?_, fun hn _ => (hs₁ hn).append _⟩
      · simp only [visit, hv₁, bind, Except.bind, hv₂, hv]
      · simpa [List.append_assoc] using hg

end

/-! ## The two outputs describe the same runs -/

/-- The first `n` blocks (most recent first) visited by reading the syntax list from its front. -/
def Translation.readRun (t : Translation) (outcome : List BlockRef → Bool) (n : Nat) :
    List BlockRef :=
  readList outcome n ⟨[], t.syntaxList⟩ []

/-- The first `n` blocks (most recent first) visited by walking the graph from the first block of
    the list. -/
def Translation.walkRun (t : Translation) (outcome : List BlockRef → Bool) (n : Nat) :
    List BlockRef :=
  match t.syntaxList with
  | .block b :: _ => walkGraph t.immSuccessors outcome n b []
  | _ => []

theorem progress_empty : Progress .empty none .empty none [] where
  grown :=
    { list_eq := rfl
      created_le := le_rfl
      linked := trivial
      nested := .nil
      nodup := List.nodup_nil
      blocks := fun b => by
        simp only [blockNodes, List.not_mem_nil, false_iff]; omega
      frame := fun _ _ => rfl
      unborn := fun _ _ => rfl
      mirrored := fun _ _ => by simp [Translation.empty] }
  current_eq := rfl

theorem Grown.readRun_eq (h : Grown .empty none [] t t.syntaxList) (outcome : List BlockRef → Bool)
    (n : Nat) : t.readRun outcome n = t.walkRun outcome n := by
  unfold Translation.readRun Translation.walkRun
  split
  case h_1 b rest hlist =>
    exact readList_eq_walkGraph h.nested h.linked outcome n _ b [] ⟨rfl, rest, hlist⟩
  case h_2 hlist =>
    cases n with
    | zero => rfl
    | succ n =>
      simp only [readList]

/-- **The syntax list and the block graph describe the same runs.**  For every goto-free tree with
    each `Break` in a `Loop` and a statement besides labels in each body, the pass succeeds; for
    every outcome of the conditions and every length the list reads as the graph walks; the bodies
    recorded are the blocks that start the bodies; and every block created has exactly one node. -/
theorem list_and_graph_same_runs (root : List Statement) (hroot : allStructured false root = true) :
    ∃ t, translatePass root = .ok t ∧
      (root.any (!·.isLabel) = true → StartsBlock t.syntaxList) ∧
      (∀ outcome n, t.readRun outcome n = t.walkRun outcome n) ∧
      BodiesStart t.syntaxList ∧
      ∀ b, 1 ≤ b → b ≤ t.created → (blockNodes t.syntaxList).count b = 1 := by
  obtain ⟨t, ext, hv, hg, hs⟩ :=
    visit_visits root false none hroot (fun hf => by cases hf) (fun m hm => by cases hm)
      progress_empty
  have hlist : t.syntaxList = ext := hg.list_eq
  subst hlist
  refine ⟨t, hv, hs rfl, hg.readRun_eq, hg.nested.bodiesStart, fun b hlo hhi => ?_⟩
  exact List.count_eq_one_of_mem hg.nodup ((hg.blocks b).mpr ⟨hlo, hhi⟩)

/-- A loop that is left from inside a conditional, with dead code after a `Return`. -/
theorem list_and_graph_same_runs_break_loop : ∃ t,
    translatePass [.loop (.variable 0) [.ifStmt (.variable 1) [.label 3, .breakStmt (.variable 2),
      .returnStmt, .code 8 16], .kill], .unreachable] = .ok t ∧
      ([Statement.loop (.variable 0) [.ifStmt (.variable 1) [.label 3, .breakStmt (.variable 2),
        .returnStmt, .code 8 16], .kill], .unreachable].any (!·.isLabel) = true →
          StartsBlock t.syntaxList) ∧
      (∀ outcome n, t.readRun outcome n = t.walkRun outcome n) ∧
      BodiesStart t.syntaxList ∧
      ∀ b, 1 ≤ b → b ≤ t.created → (blockNodes t.syntaxList).count b = 1 :=
  list_and_graph_same_runs _ (by decide)

end Suyu.Shader
