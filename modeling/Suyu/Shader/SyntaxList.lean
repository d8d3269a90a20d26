import Mathlib

/-
  The abstract syntax list (`abstract_syntax_list.h`) and how it is READ.

  The recompiler hands its result over twice: as a flat list of nodes `Block`, `If … EndIf`,
  `Loop … Repeat`, `Break`, `Return`, `Unreachable`, which the backends print, and as a graph of
  IR blocks with successor lists, which the SSA passes walk.

  1. **Data** - `AbstractSyntaxNode`, with the blocks every node records (`body`, `merge`,
     `continue_block`, `loop_header`, `skip`).

  2. **Reading the list** - a CURSOR splits the list at a position.  `follow` moves it from a
     control node to the next block node BY THE NESTING of the list (a false `If` skips to its own
     `EndIf`, a taken `Break` leaves the innermost `Loop`, a taken `Repeat` goes back to its own
     `Loop`) and refuses to land unless the node found there is the block that was RECORDED.  So a
     reading that gets through has used both descriptions and they agreed.

  3. **The crux (`Nested.allLand`)** - a list built by the grammar `Nested` never refuses:
     wherever such a piece stands in a larger list, `follow` lands on the recorded target.
-/

namespace Suyu.Shader

/-! ## Conditions -/

/-- `IR::Condition`: a flow test, a predicate and whether the predicate is negated. -/
structure Condition where
  flowTest : Nat
  pred : Nat
  predNegated : Bool
  deriving DecidableEq, Repr

/-- The condition statements: `Identity`, `Not`, `Or`, `Variable`, `IndirectBranchCond`. -/
inductive Expr where
  | identity (guestCond : Condition)
  | not (op : Expr)
  | or (opA opB : Expr)
  | variable (id : Nat)
  | indirectBranchCond (location : Nat)
  deriving DecidableEq, Repr

/-! ## The abstract syntax list -/

/-- An IR block is a pointer into the block pool; `0` is the null pointer. -/
abbrev BlockRef := Nat

/-- `IR::AbstractSyntaxNode`: the type tag with the union member it selects. -/
inductive AbstractSyntaxNode where
  | block (block : BlockRef)
  | ifNode (cond : Expr) (body merge : BlockRef)
  | endIf (merge : BlockRef)
  | loop (body continueBlock merge : BlockRef)
  | repeatNode (cond : Expr) (loopHeader merge : BlockRef)
  | breakNode (cond : Expr) (merge skip : BlockRef)
  | returnNode
  | unreachable
  deriving DecidableEq, Repr

/-- `emplace_back()` value-initialises: tag `Block` with a null pointer. -/
def AbstractSyntaxNode.default : AbstractSyntaxNode := .block 0

abbrev AbstractSyntaxList := List AbstractSyntaxNode

/-- The blocks of the `Block` nodes, in list order. -/
def blockNodes : AbstractSyntaxList → List BlockRef
  | [] => []
  | .block b :: rest => b :: blockNodes rest
  | _ :: rest => blockNodes rest

@[simp] theorem blockNodes_append (l m : AbstractSyntaxList) :
    blockNodes (l ++ m) = blockNodes l ++ blockNodes m := by
  induction l with
  | nil => rfl
  | cons n rest ih => cases n <;> simp [blockNodes, ih]

/-! ## Reading the list

    A cursor holds the nodes already passed (most recent first) and the nodes still ahead. -/

/-- A position in the list. -/
structure Cursor where
  passed : List AbstractSyntaxNode
  ahead : List AbstractSyntaxNode
  deriving DecidableEq, Repr

/-- Accept the position only when the node there is the recorded block. -/
def land (b : BlockRef) (c : Cursor) : Option Cursor :=
  match c.ahead with
  | .block b' :: _ => if b' = b then some c else none
  | _ => none

/-- Move past the `EndIf` that closes the `depth`-th enclosing `If`. -/
def passEndIf (depth : Nat) (passed : List AbstractSyntaxNode) :
    List AbstractSyntaxNode → Option Cursor
  | [] => none
  | .ifNode e b m :: rest => passEndIf (depth + 1) (.ifNode e b m :: passed) rest
  | .endIf m :: rest =>
      match depth with
      | 0 => some ⟨.endIf m :: passed, rest⟩
      | d + 1 => passEndIf d (.endIf m :: passed) rest
  | n :: rest => passEndIf depth (n :: passed) rest

/-- Move past the `Repeat` that closes the `depth`-th enclosing `Loop`. -/
def passRepeat (depth : Nat) (passed : List AbstractSyntaxNode) :
    List AbstractSyntaxNode → Option Cursor
  | [] => none
  | .loop b c m :: rest => passRepeat (depth + 1) (.loop b c m :: passed) rest
  | .repeatNode e h m :: rest =>
      match depth with
      | 0 => some ⟨.repeatNode e h m :: passed, rest⟩
      | d + 1 => passRepeat d (.repeatNode e h m :: passed) rest
  | n :: rest => passRepeat depth (n :: passed) rest

/-- Move BACK to the node before the `Loop` that opens the `depth`-th enclosing loop: its header. -/
def backToHeader (depth : Nat) :
    List AbstractSyntaxNode → List AbstractSyntaxNode → Option Cursor
  | [], _ => none
  | .repeatNode e h m :: passed, ahead =>
      backToHeader (depth + 1) passed (.repeatNode e h m :: ahead)
  | .loop b c m :: passed, ahead =>
      match depth with
      | 0 =>
        match passed with
        | [] => none
        | header :: passed => some ⟨passed, header :: .loop b c m :: ahead⟩
      | d + 1 => backToHeader d passed (.loop b c m :: ahead)
  | n :: passed, ahead => backToHeader depth passed (n :: ahead)

/-- A `Loop` records its continue block, which stands right before its `Repeat`, and its merge
    block, which stands right after. -/
def closesAs (cont merge : BlockRef) : Option Cursor → Bool
  | some ⟨_ :: .block cont' :: _, .block merge' :: _⟩ => cont' = cont && merge' = merge
  | _ => false

/-- Where control goes from the node under the cursor, `taken` being the outcome of its condition:
    the next block node, or `none` when the run ends there. -/
def follow (taken : Bool) (c : Cursor) : Option Cursor :=
  match c.ahead with
  | [] => none
  | .block _ :: _ => some c
  | .ifNode e body merge :: rest =>
      if taken then land body ⟨.ifNode e body merge :: c.passed, rest⟩
      else (passEndIf 0 (.ifNode e body merge :: c.passed) rest).bind (land merge)
  | .endIf merge :: rest => land merge ⟨.endIf merge :: c.passed, rest⟩
  | .loop body cont merge :: rest =>
      if closesAs cont merge (passRepeat 0 [] rest) then
        land body ⟨.loop body cont merge :: c.passed, rest⟩
      else none
  | .repeatNode e header merge :: rest =>
      if taken then
        (backToHeader 0 c.passed (.repeatNode e header merge :: rest)).bind (land header)
      else land merge ⟨.repeatNode e header merge :: c.passed, rest⟩
  | .breakNode e merge skip :: rest =>
      if taken then
        (passRepeat 0 (.breakNode e merge skip :: c.passed) rest).bind (land merge)
      else land skip ⟨.breakNode e merge skip :: c.passed, rest⟩
  | .returnNode :: _ => none
  | .unreachable :: _ => none

/-- The blocks visited by reading the list, at most `n` more of them; `outcome` decides a condition
    from the blocks visited so far, most recent first. -/
def readList (outcome : List BlockRef → Bool) : Nat → Cursor → List BlockRef → List BlockRef
  | 0, _, visited => visited
  | n + 1, c, visited =>
      match c.ahead with
      | .block b :: rest =>
          match follow (outcome (b :: visited)) ⟨.block b :: c.passed, rest⟩ with
          | some next => readList outcome n next (b :: visited)
          | none => b :: visited
      | _ => visited

/-- The blocks visited by walking the graph: a two-way block takes its first successor when its
    condition holds and its second otherwise. -/
def walkGraph (immSuccessors : BlockRef → List BlockRef) (outcome : List BlockRef → Bool) :
    Nat → BlockRef → List BlockRef → List BlockRef
  | 0, _, visited => visited
  | n + 1, b, visited =>
      match immSuccessors b with
      | [] => b :: visited
      | [next] => walkGraph immSuccessors outcome n next (b :: visited)
      | ifTrue :: ifFalse :: _ =>
          walkGraph immSuccessors outcome n
            (if outcome (b :: visited) then ifTrue else ifFalse) (b :: visited)

/-! ## What the nodes record -/

/-- The blocks control may reach from the node at the head, the taken one first: what the nodes
    RECORD, with no regard to the nesting.  Past the end of the list it is `exits`. -/
def targets (exits : List BlockRef) : AbstractSyntaxList → List BlockRef
  | [] => exits
  | .block b :: _ => [b]
  | .ifNode _ body merge :: _ => [body, merge]
  | .endIf merge :: _ => [merge]
  | .loop body _ _ :: _ => [body]
  | .repeatNode _ header merge :: _ => [header, merge]
  | .breakNode _ merge skip :: _ => [merge, skip]
  | .returnNode :: _ => []
  | .unreachable :: _ => []

@[simp] theorem targets_append (exits : List BlockRef) (l m : AbstractSyntaxList) :
    targets exits (l ++ m) = targets (targets exits m) l := by
  cases l with
  | nil => rfl
  | cons n rest => cases n <;> rfl

/-- Every block node's successors are what the node AFTER it records. -/
def Linked (immSuccessors : BlockRef → List BlockRef) (exits : List BlockRef) :
    AbstractSyntaxList → Prop
  | [] => True
  | .block b :: rest => immSuccessors b = targets exits rest ∧ Linked immSuccessors exits rest
  | _ :: rest => Linked immSuccessors exits rest

variable {succs : BlockRef → List BlockRef} {exits : List BlockRef}

theorem linked_append (l m : AbstractSyntaxList) :
    Linked succs exits (l ++ m) ↔ Linked succs (targets exits m) l ∧ Linked succs exits m := by
  induction l with
  | nil => simp [Linked]
  | cons n rest ih => cases n <;> simp [Linked, ih, and_assoc]

variable {l : AbstractSyntaxList}

theorem Linked.congr {succs' : BlockRef → List BlockRef} (h : Linked succs exits l)
    (heq : ∀ b ∈ blockNodes l, succs' b = succs b) : Linked succs' exits l := by
  induction l with
  | nil => trivial
  | cons n rest ih =>
    cases n with
    | block b =>
      obtain ⟨hb, hrest⟩ := h
      refine ⟨?_, ih hrest fun b' hb' => heq b' (List.mem_cons_of_mem _ hb')⟩
      rw [heq b List.mem_cons_self, hb]
    | _ => exact ih h heq

/-- The block control is in after the list: the last node, when it is a block node. -/
def trailing : AbstractSyntaxList → Option BlockRef
  | [] => none
  | [.block b] => some b
  | _ :: n :: rest => trailing (n :: rest)
  | [_] => none

theorem trailing_append (l : AbstractSyntaxList) {m : AbstractSyntaxList} (hm : m ≠ []) :
    trailing (l ++ m) = trailing m := by
  induction l with
  | nil => rfl
  | cons n rest ih =>
    cases hrest : rest ++ m with
    | nil => exact absurd (List.append_eq_nil_iff.mp hrest).2 hm
    | cons k more =>
      rw [List.cons_append, hrest, ← ih, hrest]; cases n <;> rfl

theorem trailing_mem {c : BlockRef} (h : trailing l = some c) : c ∈ blockNodes l := by
  induction l with
  | nil => cases h
  | cons n rest ih =>
    cases rest with
    | nil =>
      cases n <;> simp_all [trailing, blockNodes]
    | cons m more =>
      have h' : trailing (m :: more) = some c := by
        cases n <;> simpa [trailing] using h
      cases n <;> simp [blockNodes, ih h']

theorem Linked.of_trailing_none (h : Linked succs exits l) (hn : trailing l = none)
    (exits' : List BlockRef) : Linked succs exits' l := by
  induction l with
  | nil => trivial
  | cons n rest ih =>
    cases rest with
    | nil => cases n <;> simp_all [trailing, Linked]
    | cons m more =>
      have hn' : trailing (m :: more) = none := by
        cases n <;> simpa [trailing] using hn
      have htargets : targets exits' (m :: more) = targets exits (m :: more) := by
        cases m <;> rfl
      cases n with
      | block b =>
        obtain ⟨hb, hrest⟩ := h; exact ⟨by rw [htargets, hb], ih hrest hn'⟩
      | _ => exact ih h hn'

theorem Linked.retarget {succs' : BlockRef → List BlockRef} {c : BlockRef} (h : Linked succs exits l)
    (hc : trailing l = some c) (hnodup : (blockNodes l).Nodup)
    (hother : ∀ b ∈ blockNodes l, b ≠ c → succs' b = succs b) : Linked succs' (succs' c) l := by
  induction l with
  | nil => trivial
  | cons n rest ih =>
    cases rest with
    | nil =>
      cases n with
      | block b =>
        have hbc : b = c := by simpa [trailing] using hc
        subst hbc; exact ⟨rfl, trivial⟩
      | _ => trivial
    | cons m more =>
      have hc' : trailing (m :: more) = some c := by
        cases n <;> simpa [trailing] using hc
      have htargets : targets (succs' c) (m :: more) = targets exits (m :: more) := by
        cases m <;> rfl
      cases n with
      | block b =>
        obtain ⟨hb, hrest⟩ := h
        obtain ⟨hnotin, hnodup'⟩ := List.nodup_cons.mp hnodup
        have hbc : b ≠ c := fun hbc => hnotin (hbc ▸ trailing_mem hc')
        refine ⟨?_, ih hrest hc' hnodup'
          fun b' hb' hne => hother b' (List.mem_cons_of_mem _ hb') hne⟩
        rw [htargets, hother b List.mem_cons_self hbc, hb]
      | _ => exact ih h hc' hnodup hother

/-! ## The nesting grammar -/

/-- `Nested brk l`: the list `l` is properly nested inside a loop whose merge block is `brk`
    (`none` outside every loop), and its nodes record the blocks that really stand at the ends of
    what they open. -/
inductive Nested : Option BlockRef → AbstractSyntaxList → Prop
  | nil {brk} : Nested brk []
  | append {brk l m} : Nested brk l → Nested brk m → Nested brk (l ++ m)
  | block {brk} (b : BlockRef) : Nested brk [.block b]
  | returnNode {brk} : Nested brk [.returnNode]
  | unreachable {brk} : Nested brk [.unreachable]
  | ifNode {brk inner} (e : Expr) (body merge : BlockRef) : Nested brk (.block body :: inner) →
      Nested brk (.ifNode e body merge :: (.block body :: inner) ++ [.endIf merge, .block merge])
  | loop {brk inner} (e : Expr) (header body cont merge : BlockRef) :
      Nested (some merge) (.block body :: inner) →
      Nested brk (.block header :: .loop body cont merge :: (.block body :: inner) ++
        [.block cont, .repeatNode e header merge, .block merge])
  | breakNode (e : Expr) (merge skip : BlockRef) :
      Nested (some merge) [.breakNode e merge skip, .block skip]

variable {brk : Option BlockRef}

theorem Nested.passEndIf (h : Nested brk l) : ∀ depth passed rest,
      passEndIf depth passed (l ++ rest) = passEndIf depth (l.reverse ++ passed) rest := by
  induction h with
  | append _ _ ihl ihm =>
    intro depth passed rest
    rw [List.append_assoc, ihl, ihm, List.reverse_append, List.append_assoc]
  | ifNode e body merge _ ih =>
    intro depth passed rest
    have := ih (depth + 1) (.ifNode e body merge :: passed) ([.endIf merge, .block merge] ++ rest)
    simp only [List.cons_append, List.append_assoc, Shader.passEndIf] at this ⊢
    rw [this]; simp
  | loop e header body cont merge _ ih =>
    intro depth passed rest
    have := ih depth (.loop body cont merge :: .block header :: passed)
      ([.block cont, .repeatNode e header merge, .block merge] ++ rest)
    simp only [List.cons_append, List.append_assoc, Shader.passEndIf] at this ⊢
    rw [this]; simp
  | _ => intros; rfl

theorem Nested.passRepeat (h : Nested brk l) : ∀ depth passed rest,
      passRepeat depth passed (l ++ rest) = passRepeat depth (l.reverse ++ passed) rest := by
  induction h with
  | append _ _ ihl ihm =>
    intro depth passed rest
    rw [List.append_assoc, ihl, ihm, List.reverse_append, List.append_assoc]
  | ifNode e body merge _ ih =>
    intro depth passed rest
    have := ih depth (.ifNode e body merge :: passed) ([.endIf merge, .block merge] ++ rest)
    simp only [List.cons_append, List.append_assoc, Shader.passRepeat] at this ⊢
    rw [this]; simp
  | loop e header body cont merge _ ih =>
    intro depth passed rest
    have := ih (depth + 1) (.loop body cont merge :: .block header :: passed)
      ([.block cont, .repeatNode e header merge, .block merge] ++ rest)
    simp only [List.cons_append, List.append_assoc, Shader.passRepeat] at this ⊢
    rw [this]; simp
  | _ => intros; rfl

/-- A nested piece is skipped whole by the search BACK for a `Loop`. -/
theorem Nested.backToHeader (h : Nested brk l) : ∀ depth passed ahead,
      backToHeader depth (l.reverse ++ passed) ahead = backToHeader depth passed (l ++ ahead) := by
  induction h with
  | append _ _ ihl ihm =>
    intro depth passed ahead
    rw [List.reverse_append, List.append_assoc, ihm, ihl, List.append_assoc]
  | ifNode e body merge _ ih =>
    intro depth passed ahead
    have := ih depth (.ifNode e body merge :: passed) (.endIf merge :: .block merge :: ahead)
    simp only [List.reverse_append, List.reverse_cons, List.reverse_nil, List.nil_append,
      List.cons_append, List.append_assoc, Shader.backToHeader] at this ⊢
    rw [this]
  | loop e header body cont merge _ ih =>
    intro depth passed ahead
    have := ih (depth + 1) (.loop body cont merge :: .block header :: passed)
      (.block cont :: .repeatNode e header merge :: .block merge :: ahead)
    simp only [List.reverse_append, List.reverse_cons, List.reverse_nil, List.nil_append,
      List.cons_append, List.append_assoc, Shader.backToHeader] at this ⊢
    rw [this]
  | _ => intros; rfl

/-! ## A nested list is read without refusal -/

/-- The cursor stands on the block node of `b` and the nodes around it are those of `whole`. -/
def StandsOn (whole : AbstractSyntaxList) (b : BlockRef) (c : Cursor) : Prop :=
  c.passed.reverse ++ c.ahead = whole ∧ ∃ rest, c.ahead = .block b :: rest

/-- From this cursor, each outcome leads to the block recorded for it: the taken one first. -/
def Lands (whole : AbstractSyntaxList) (c : Cursor) : List BlockRef → Prop
  | [] => ∀ taken, follow taken c = none
  | [next] => ∀ taken, ∃ c', follow taken c = some c' ∧ StandsOn whole next c'
  | ifTrue :: ifFalse :: _ =>
      (∃ c', follow true c = some c' ∧ StandsOn whole ifTrue c') ∧
      (∃ c', follow false c = some c' ∧ StandsOn whole ifFalse c')

/-- The rest of the list closes the loop whose merge block is `brk`: its `Repeat` is found and is
    followed by that block. -/
def Closes (brk : Option BlockRef) (rest : AbstractSyntaxList) : Prop :=
  ∀ merge, brk = some merge → ∃ closing more,
    rest = closing ++ .block merge :: more ∧
    ∀ passed, passRepeat 0 passed rest = some ⟨closing.reverse ++ passed, .block merge :: more⟩

theorem Closes.append {brk brk' : Option BlockRef} {l rest : AbstractSyntaxList}
    (h : Closes brk rest) (hl : Nested brk' l) : Closes brk (l ++ rest) := by
  intro merge hmerge
  obtain ⟨closing, more, hrest, hpass⟩ := h merge hmerge
  refine ⟨l ++ closing, more, by rw [hrest, List.append_assoc], fun passed => ?_⟩
  rw [hl.passRepeat, hpass, List.reverse_append, List.append_assoc]

theorem land_self (whole passed rest : AbstractSyntaxList) (b : BlockRef)
    (hw : passed.reverse ++ .block b :: rest = whole) :
    ∃ c', land b ⟨passed, .block b :: rest⟩ = some c' ∧ StandsOn whole b c' :=
  ⟨_, if_pos rfl, hw, rest, rfl⟩

/-- Every position of the piece `l`, with `passed` before it and `post` after it, lands. -/
def AllLand (whole : AbstractSyntaxList) (post : AbstractSyntaxList) :
    List AbstractSyntaxNode → AbstractSyntaxList → Prop
  | _, [] => True
  | passed, n :: l =>
      Lands whole ⟨passed, n :: l ++ post⟩ (targets [] (n :: l ++ post)) ∧
      AllLand whole post (n :: passed) l

theorem allLand_append (whole post : AbstractSyntaxList) (l m : AbstractSyntaxList) :
    ∀ passed, AllLand whole post passed (l ++ m) ↔
      AllLand whole (m ++ post) passed l ∧ AllLand whole post (l.reverse ++ passed) m := by
  induction l with
  | nil => intro passed; simp [AllLand]
  | cons n rest ih => intro passed; simp [AllLand, ih, and_assoc]

theorem lands_block (whole passed rest : AbstractSyntaxList) (b : BlockRef)
    (hw : passed.reverse ++ .block b :: rest = whole) :
    Lands whole ⟨passed, .block b :: rest⟩ [b] :=
  fun _ => ⟨_, rfl, hw, rest, rfl⟩

theorem Closes.cons_block {rest : AbstractSyntaxList} (h : Closes brk rest) (b : BlockRef) :
    Closes brk (.block b :: rest) :=
  h.append (Nested.block b : Nested none [.block b])

theorem Closes.cons_endIf {rest : AbstractSyntaxList} (h : Closes brk rest) (m : BlockRef) :
    Closes brk (.endIf m :: rest) := by
  intro merge hmerge
  obtain ⟨closing, more, hrest, hpass⟩ := h merge hmerge
  refine ⟨.endIf m :: closing, more, by rw [hrest]; rfl, fun passed => ?_⟩
  rw [List.reverse_cons, List.append_assoc]
  exact hpass (.endIf m :: passed)

theorem closes_loop_end (e : Expr) (header cont merge : BlockRef) (post : AbstractSyntaxList) :
    Closes (some merge) (.block cont :: .repeatNode e header merge :: .block merge :: post) := by
  intro m hm
  obtain rfl := Option.some.inj hm
  exact ⟨[.block cont, .repeatNode e header merge], post, rfl, fun passed => rfl⟩

/-- **A nested list is read without refusal**: wherever the piece stands, every node of it leads to
    the blocks it records.  Induction on the grammar; the context is the list before the piece and
    a rest that closes the enclosing loop. -/
theorem Nested.allLand (h : Nested brk l) :
    ∀ whole passed post, passed.reverse ++ (l ++ post) = whole → Closes brk post →
      AllLand whole post passed l := by
  induction h with
  | nil => intro whole passed post _ _; trivial
  | @append brk l m hl hm ihl ihm =>
    intro whole passed post hw hcl
    rw [allLand_append]
    constructor
    · exact ihl whole passed (m ++ post) (by rw [← hw, List.append_assoc]) (hcl.append hm)
    · refine ihm whole (l.reverse ++ passed) post ?_ hcl
      rw [← hw]; simp
  | block b =>
    intro whole passed post hw _; exact ⟨lands_block whole passed post b hw, trivial⟩
  | returnNode =>
    intro whole passed post _ _; exact ⟨fun _ => rfl, trivial⟩
  | unreachable =>
    intro whole passed post _ _; exact ⟨fun _ => rfl, trivial⟩
  | @ifNode brk inner e body merge hin ih =>
    intro whole passed post hw hcl
    have hbody := ih whole (.ifNode e body merge :: passed) (.endIf merge :: .block merge :: post)
      (by rw [← hw]; simp) ((hcl.cons_block merge).cons_endIf merge)
    refine ⟨⟨?_, ?_⟩, ?_⟩
    · exact land_self whole _ _ body (by rw [← hw]; simp)
    · -- not taken: the whole body is skipped and the `EndIf` found is the one that closes it
      have hskip := hin.passEndIf 0 (.ifNode e body merge :: passed)
        (.endIf merge :: .block merge :: post)
      have hfollow : follow false ⟨passed, .ifNode e body merge :: (.block body :: inner) ++
          [.endIf merge, .block merge] ++ post⟩ =
          land merge ⟨.endIf merge :: ((.block body :: inner).reverse ++
            .ifNode e body merge :: passed), .block merge :: post⟩ := by
        simp only [follow, List.cons_append, List.append_assoc, List.nil_append] at hskip ⊢
        rw [hskip]; rfl
      have hland := land_self whole (.endIf merge :: ((.block body :: inner).reverse ++
        .ifNode e body merge :: passed)) post merge (by rw [← hw]; simp)
      rw [← hfollow] at hland
      exact hland
    · refine (allLand_append whole post (.block body :: inner) _ _).mpr ⟨hbody, ?_, ?_, trivial⟩
      · exact fun _ => land_self whole _ _ merge (by rw [← hw]; simp)
      · exact lands_block whole _ _ merge (by rw [← hw]; simp)
  | @loop brk inner e header body cont merge hin ih =>
    intro whole passed post hw hcl
    have hbody := ih whole (.loop body cont merge :: .block header :: passed)
      (.block cont :: .repeatNode e header merge :: .block merge :: post)
      (by rw [← hw]; simp) (closes_loop_end e header cont merge post)
    refine ⟨lands_block whole _ _ header (by rw [← hw]; simp), ?_, ?_⟩
    · -- the search for the `Repeat` skips the body, so it finds the one after `cont`
      have hclose := hin.passRepeat 0 [] (.block cont :: .repeatNode e header merge ::
        .block merge :: post)
      have hfollow : ∀ taken, follow taken ⟨.block header :: passed,
          .loop body cont merge :: ((.block body :: inner) ++
            .block cont :: .repeatNode e header merge :: .block merge :: post)⟩ =
          land body ⟨.loop body cont merge :: .block header :: passed, (.block body :: inner) ++
            .block cont :: .repeatNode e header merge :: .block merge :: post⟩ := by
        intro taken
        simp only [follow]
        rw [hclose]; simp [closesAs, Shader.passRepeat]
      have hland := land_self whole (.loop body cont merge :: .block header :: passed) (inner ++
        .block cont :: .repeatNode e header merge :: .block merge :: post) body
        (by rw [← hw]; simp)
      intro taken
      obtain ⟨c', hc', hs⟩ := hland
      refine ⟨c', Eq.trans ?_ hc', hs⟩
      have hshape : ((.block body :: inner) ++ [.block cont, .repeatNode e header merge,
          .block merge]) ++ post = (.block body :: inner) ++
            .block cont :: .repeatNode e header merge :: .block merge :: post := by simp
      exact (congrArg (fun rest => follow taken ⟨.block header :: passed,
        .loop body cont merge :: rest⟩) hshape).trans (hfollow taken)
    · refine (allLand_append whole post (.block body :: inner) _ _).mpr
        ⟨hbody, lands_block whole _ _ cont (by rw [← hw]; simp), ⟨?_, ?_⟩, ?_, trivial⟩
      · -- taken: the search back skips the body and finds the `Loop` that opens it
        have hback := hin.backToHeader 0 (.loop body cont merge :: .block header :: passed)
          (.block cont :: .repeatNode e header merge :: .block merge :: post)
        have hfollow : follow true ⟨.block cont :: ((.block body :: inner).reverse ++
            .loop body cont merge :: .block header :: passed),
            .repeatNode e header merge :: .block merge :: post⟩ =
            land header ⟨passed, .block header :: .loop body cont merge :: (.block body :: inner) ++
              .block cont :: .repeatNode e header merge :: .block merge :: post⟩ := by
          simp only [follow, Shader.backToHeader] at hback ⊢
          rw [if_pos trivial, hback]; rfl
        have hland := land_self whole passed (.loop body cont merge :: (.block body :: inner) ++
          .block cont :: .repeatNode e header merge :: .block merge :: post) header
          (by rw [← hw]; simp)
        obtain ⟨c', hc', hs⟩ := hland
        exact ⟨c', hfollow.trans hc', hs⟩
      · exact land_self whole _ _ merge (by rw [← hw]; simp)
      · exact lands_block whole _ _ merge (by rw [← hw]; simp)
  | breakNode e merge skip =>
    intro whole passed post hw hcl
    refine ⟨⟨?_, ?_⟩, lands_block whole _ _ skip (by rw [← hw]; simp), trivial⟩
    · obtain ⟨closing, more, hrest, hpass⟩ := (hcl.cons_block skip) merge rfl
      have hfollow : follow true ⟨passed, [.breakNode e merge skip, .block skip] ++ post⟩ =
          land merge ⟨closing.reverse ++ .breakNode e merge skip :: passed,
            .block merge :: more⟩ := by
        simp only [follow, List.cons_append, List.nil_append]
        rw [if_pos trivial, hpass]; rfl
      rw [hfollow]
      refine land_self whole _ _ merge ?_
      rw [← hw]
      simp [hrest]
    · exact land_self whole _ _ skip (by rw [← hw]; simp)

theorem Nested.lands (h : Nested none l) (before after : AbstractSyntaxList) (hl : before ++ after = l) :
    Lands l ⟨before.reverse, after⟩ (targets [] after) := by
  have hall := h.allLand l [] [] (by simp) (by intro m hm; cases hm)
  cases after with
  | nil => exact fun _ => rfl
  | cons n rest =>
    subst hl
    obtain ⟨-, hn, -⟩ := (allLand_append _ _ before (n :: rest) _).mp hall
    simpa using hn

theorem Linked.at {before after : AbstractSyntaxList} {b : BlockRef}
    (h : Linked succs exits (before ++ .block b :: after)) : succs b = targets exits after :=
  ((linked_append _ _).mp h).2.1

theorem readList_eq_walkGraph (hn : Nested none l) (hlink : Linked succs [] l)
    (outcome : List BlockRef → Bool) :
    ∀ (n : Nat) (c : Cursor) (b : BlockRef) (visited : List BlockRef), StandsOn l b c →
      readList outcome n c visited = walkGraph succs outcome n b visited := by
  intro n
  induction n with
  | zero => intro c b visited _; rfl
  | succ n ih =>
    rintro ⟨passed, ahead⟩ b visited ⟨hw, rest, rfl⟩
    have hsucc : succs b = targets [] rest := Linked.at (hw ▸ hlink)
    have hlands := hn.lands (passed.reverse ++ [.block b]) rest (by rw [← hw]; simp)
    rw [← hsucc] at hlands
    simp only [List.reverse_append, List.reverse_reverse, List.reverse_cons, List.reverse_nil,
      List.nil_append, List.cons_append] at hlands
    simp only [readList, walkGraph]
    rcases hs : succs b with _ | ⟨next, _ | ⟨other, more⟩⟩
    · rw [hs] at hlands
      rw [hlands]
    · rw [hs] at hlands
      obtain ⟨c', hfollow, hstands⟩ := hlands (outcome (b :: visited))
      rw [hfollow]
      exact ih c' next _ hstands
    · rw [hs] at hlands
      obtain ⟨⟨ct, hft, hst⟩, cf, hff, hsf⟩ := hlands
      cases outcome (b :: visited) with
      | true =>
        rw [hft]; exact ih ct next _ hst
      | false =>
        rw [hff]; exact ih cf other _ hsf

/-- The node recorded as `body` by an `If` or a `Loop` is the block node right after it. -/
def BodiesStart : AbstractSyntaxList → Prop
  | [] => True
  | .ifNode _ body _ :: rest => rest.head? = some (.block body) ∧ BodiesStart rest
  | .loop body _ _ :: rest => rest.head? = some (.block body) ∧ BodiesStart rest
  | _ :: rest => BodiesStart rest

theorem bodiesStart_append {m : AbstractSyntaxList} (hl : BodiesStart l) (hm : BodiesStart m) :
    BodiesStart (l ++ m) := by
  induction l with
  | nil => exact hm
  | cons n rest ih =>
    cases n with
    | ifNode e body merge =>
      have hhead : (rest ++ m).head? = some (.block body) := by
        rw [List.head?_append, hl.1]; rfl
      exact ⟨hhead, ih hl.2⟩
    | loop body cont merge =>
      have hhead : (rest ++ m).head? = some (.block body) := by
        rw [List.head?_append, hl.1]; rfl
      exact ⟨hhead, ih hl.2⟩
    | _ => exact ih hl

theorem Nested.bodiesStart (h : Nested brk l) : BodiesStart l := by
  induction h with
  | nil => trivial
  | append _ _ ihl ihm => exact bodiesStart_append ihl ihm
  | block b => trivial
  | returnNode => trivial
  | unreachable => trivial
  | ifNode e body merge _ ih =>
    exact ⟨rfl, bodiesStart_append ih trivial⟩
  | loop e header body cont merge _ ih =>
    exact ⟨rfl, bodiesStart_append ih trivial⟩
  | breakNode e merge skip => trivial

end Suyu.Shader
