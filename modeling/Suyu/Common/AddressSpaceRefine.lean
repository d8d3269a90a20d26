/-
  FlatAddressSpaceMap refines a plain address map.

  With `pre` the blocks before the range (the last of them `p`), `ins` those starting inside it and
  `post` those at or behind its end (`Around`), EVERY branch of the two functions replaces `ins` by
  at most one block and touches `post` only at its front:

  1. **`mapLocked_eq`** — the new block, then `Tail`: what starts at the end of the range, or the
     rest of the block that was cut there;
  2. **`unmapLocked_eq`** — nothing or one unmapped block (`Cleared`), then `Vacated`: the tail, or
     what follows the unmapped block the range merges with;
  3. **`steps_splice`** — either way it is enough to compare the step maps right of `p`.

  **The crux** is the branch of `unmapLocked` this does NOT hold for: with an unmapped block in front
  it erases up to `block_end_predecessor` where it should erase up to `block_end_successor`, and
  leaves the last block of `ins` behind.  `StaleBlock` says exactly when that branch is taken.
-/
import Suyu.Common.AddressSpace

namespace Suyu.Common

open Lib.StepMap

/-! ## Cutting the vector at the two ends of a range -/

section Cut

variable {PA Extra : Type}

theorem lowerBound_append {l₁ l₂ : List (Block PA Extra)} {v : Nat} (h1 : ∀ b ∈ l₁, b.virt < v)
    (h2 : ∀ b ∈ l₂, v ≤ b.virt) : lowerBound (l₁ ++ l₂) v = (l₁, l₂) := by
  have hpos : ∀ b ∈ l₁, decide (b.virt < v) = true := fun b hb => decide_eq_true (h1 b hb)
  unfold lowerBound
  rw [List.span_eq_takeWhile_dropWhile, List.takeWhile_append_of_pos hpos,
    List.dropWhile_append_of_pos hpos]
  cases l₂ with
  | nil => simp
  | cons c l₂ =>
    have hc : ¬ c.virt < v := not_lt.mpr (h2 c List.mem_cons_self)
    simp [hc]

theorem walkBack_append {l₁ l₂ : List (Block PA Extra)} {v : Nat} (h1 : ∀ b ∈ l₁, b.virt < v)
    (h2 : ∀ b ∈ l₂, v ≤ b.virt) : walkBack (l₁ ++ l₂) v = (l₁, l₂) := by
  have hpos : ∀ b ∈ l₂.reverse, decide (v ≤ b.virt) = true := fun b hb =>
    decide_eq_true (h2 b (List.mem_reverse.mp hb))
  unfold walkBack List.rdropWhile List.rtakeWhile
  rw [List.reverse_append, List.dropWhile_append_of_pos hpos, List.takeWhile_append_of_pos hpos]
  cases hl : l₁.reverse with
  | nil =>
    obtain rfl := List.reverse_eq_nil_iff.mp hl; simp
  | cons c t =>
    have hc : ¬ v ≤ c.virt := not_le.mpr (h1 c (List.mem_reverse.mp (hl ▸ List.mem_cons_self)))
    rw [List.takeWhile_cons, List.dropWhile_cons, if_neg (by simpa using hc),
      if_neg (by simpa using hc), ← hl, List.reverse_reverse, List.append_nil, List.reverse_reverse]

variable [DecidableEq PA] [AddAction ℕ PA] {cfg : MapConfig PA}

/-- The three parts of the vector around a range: the blocks before it, the last of them being
    `p`, the blocks that start inside it, and the blocks at or behind its end. -/
structure Around (blocks : List (Block PA Extra)) (virt virtEnd : Nat)
    (pre : List (Block PA Extra)) (p : Block PA Extra) (ins post : List (Block PA Extra)) :
    Prop where
  blocks : blocks = pre ++ p :: (ins ++ post)
  pre : ∀ b ∈ pre, b.virt < virt
  pred : p.virt < virt
  ins : ∀ b ∈ ins, virt ≤ b.virt ∧ b.virt < virtEnd
  post : ∀ b ∈ post, virtEnd ≤ b.virt

theorem WellFormed.pairwise {blocks : List (Block PA Extra)} (h : WellFormed cfg blocks) :
    blocks.Pairwise fun b c => b.virt < c.virt := by
  have : IsTrans (Block PA Extra) fun b c => b.virt < c.virt := ⟨fun _ _ _ => Nat.lt_trans⟩
  exact List.isChain_iff_pairwise.1 (h.chain.imp fun b c hbc => hbc.lt)

theorem WellFormed.around {blocks : List (Block PA Extra)} {virt : Nat}
    (h : WellFormed cfg blocks) (hv : 0 < virt) (virtEnd : Nat) :
    ∃ pre p ins post, Around blocks virt virtEnd pre p ins post := by
  obtain ⟨l₁, l₂, rfl, h1, h2⟩ := exists_cut virt h.pairwise
  obtain ⟨ins, post, rfl, h3, h4⟩ := exists_cut virtEnd (List.pairwise_append.1 h.pairwise).2.1
  rcases List.eq_nil_or_concat l₁ with rfl | ⟨pre, p, rfl⟩
  · -- the first block starts at zero, so it is in front of the range
    obtain ⟨b, hb, hb0⟩ := h.first
    have := h2 b (List.mem_of_mem_head? hb)
    unfold UnmappedVa at hb0
    omega
  · rw [List.concat_eq_append] at h1 ⊢
    refine ⟨pre, p, ins, post, by simp, ?_, ?_, ?_, h4⟩
    · intro b hb
      exact h1 b (List.mem_append_left _ hb)
    · exact h1 p (List.mem_append_right _ List.mem_cons_self)
    · intro b hb; exact ⟨h2 b (List.mem_append_left _ hb), h3 b hb⟩

end Cut

/-! ## What the two functions do to the vector -/

section Outcome

variable {PA Extra : Type} {blocks pre ins post : List (Block PA Extra)} {p : Block PA Extra}
  {virt virtEnd : Nat}

/-- The block that holds the last address of the range. -/
def endBlock (p : Block PA Extra) (ins : List (Block PA Extra)) : Block PA Extra :=
  ins.getLast?.getD p

theorem endBlock_concat (e : Block PA Extra) : endBlock p (ins ++ [e]) = e := by
  unfold endBlock; simp

theorem endBlock_mem : endBlock p ins ∈ p :: ins := by
  refine List.mem_of_getLast? ?_
  rw [List.getLast?_cons]
  rfl

theorem getLast?_front : (pre ++ p :: ins).getLast? = some (endBlock p ins) := by
  rw [List.getLast?_append, List.getLast?_cons]; rfl

theorem getLast_front (h : pre ++ p :: ins ≠ []) : (pre ++ p :: ins).getLast h = endBlock p ins :=
  Option.some.inj ((List.getLast?_eq_some_getLast h).symm.trans getLast?_front)

theorem dropLast_front (e : Block PA Extra) :
    (pre ++ p :: (ins ++ [e])).dropLast = pre ++ p :: ins := by
  rw [show pre ++ p :: (ins ++ [e]) = (pre ++ p :: ins) ++ [e] by simp, List.dropLast_concat]

theorem walkBack_around (hpre : ∀ b ∈ pre, b.virt < virt) (hp : p.virt < virt)
    (hins : ∀ b ∈ ins, virt ≤ b.virt) : walkBack (pre ++ p :: ins) virt = (pre ++ [p], ins) := by
  rw [List.append_cons]
  refine walkBack_append (fun b hb => ?_) hins
  rcases List.mem_append.mp hb with hb | hb
  · exact hpre b hb
  · exact List.mem_singleton.mp hb ▸ hp

theorem lowerBound_around (ha : Around blocks virt virtEnd pre p ins post) (hle : virt ≤ virtEnd) :
    lowerBound blocks virtEnd = (pre ++ p :: ins, post) := by
  rw [ha.blocks, ← List.cons_append, ← List.append_assoc]
  refine lowerBound_append (fun b hb => ?_) ha.post
  rcases List.mem_append.mp hb with hb | hb
  · have := ha.pre b hb
    omega
  · rcases List.mem_cons.mp hb with rfl | hb
    · have := ha.pred
      omega
    · exact (ha.ins b hb).2

theorem endBlock_lt (ha : Around blocks virt virtEnd pre p ins post) (hlt : virt < virtEnd) :
    (endBlock p ins).virt < virtEnd := by
  rcases List.mem_cons.mp (endBlock_mem (p := p)) with h | h
  · have := ha.pred
    rw [h]
    omega
  · exact (ha.ins _ h).2

theorem mapStart_eq (hpre : ∀ b ∈ pre, b.virt < virt) (hp : p.virt < virt)
    (hins : ∀ b ∈ ins, virt ≤ b.virt ∧ b.virt < virtEnd) {s : Block PA Extra}
    (hs : s.virt = virtEnd) (t : List (Block PA Extra)) (phys : PA) (x : Extra) :
    mapStart (pre ++ p :: ins) (s :: t) virt virtEnd phys x =
      some (pre ++ p :: ⟨virt, phys, x⟩ :: s :: t) := by
  unfold mapStart
  rw [walkBack_around hpre hp fun b hb => (hins b hb).1]
  cases ins with
  | nil => simp [hs]
  | cons c ins =>
    have hc := (hins c List.mem_cons_self).2
    simp [Nat.not_lt.mpr (Nat.le_of_lt hc), Nat.ne_of_lt hc]

variable [DecidableEq PA] [AddAction ℕ PA] {cfg : MapConfig PA}

theorem WellFormed.endBlock_unmapped (hw : WellFormed cfg (pre ++ p :: (ins ++ []))) :
    (endBlock p ins).unmapped cfg = true := by
  obtain ⟨b, hb, hbu⟩ := hw.last
  rw [List.append_nil, getLast?_front] at hb
  exact Option.some.inj hb ▸ hbu

/-- The vector from the end of the range on: nothing changes when a block starts there, else a
    tail carries on the block `e` that was cut there. -/
def Tail (cfg : MapConfig PA) (e : Block PA Extra) (virtEnd : Nat)
    (post back : List (Block PA Extra)) : Prop :=
  (∃ s ∈ post.head?, s.virt = virtEnd ∧ back = post) ∨
    ((∀ s ∈ post.head?, virtEnd < s.virt) ∧ ∃ x, back =
      ⟨virtEnd, if e.unmapped cfg then cfg.unmappedPa else shift cfg (virtEnd - e.virt) e.phys, x⟩ ::
        post)

theorem mapTailPhys_eq (e : Block PA Extra) : mapTailPhys cfg e virtEnd =
    if e.unmapped cfg then cfg.unmappedPa else shift cfg (virtEnd - e.virt) e.phys := by
  unfold mapTailPhys shift
  by_cases hu : e.unmapped cfg = true
  · have : e.phys = cfg.unmappedPa := beq_iff_eq.1 hu
    simp only [hu, if_true, this, ite_self]
  · cases cfg.paContigSplit <;> simp [hu]

theorem unmapTailPhys_eq {e : Block PA Extra} (hu : e.unmapped cfg = false) :
    unmapTailPhys cfg e virtEnd =
      if e.unmapped cfg then cfg.unmappedPa else shift cfg (virtEnd - e.virt) e.phys := by
  simp only [hu, Bool.false_eq_true, if_false]; rfl

variable [Inhabited Extra]

/-- **`MapLocked`**: one new block between the blocks in front of the range and the tail. -/
theorem mapLocked_eq (hw : WellFormed cfg blocks) {size : Nat}
    (ha : Around blocks virt (virt + size) pre p ins post) (phys : PA) (x : Extra) :
    ∃ back, mapLocked cfg blocks virt phys size x = some (pre ++ p :: ⟨virt, phys, x⟩ :: back) ∧
      Tail cfg (endBlock p ins) (virt + size) post back := by
  obtain ⟨hblocks, hpre, hp, hins, hpost⟩ := ha
  have hpv : ¬ virt ≤ p.virt := not_le.mpr hp
  have hcut := lowerBound_around ⟨hblocks, hpre, hp, hins, hpost⟩ (Nat.le_add_right _ _)
  have htail : ∀ s t, post = s :: t → s.virt ≠ virt + size → ∀ s' ∈ post.head?, virt + size < s'.virt := by
    rintro s t rfl hs _ ⟨⟩
    have := hpost s List.mem_cons_self
    omega
  unfold mapLocked
  simp only [hcut, getLast?_front]
  rcases List.eq_nil_or_concat ins with rfl | ⟨ins, e, rfl⟩
  · have hno : ¬ ((!(pre ++ [p]).dropLast.isEmpty) = true ∧ (endBlock p []).virt ≥ virt) :=
      fun h => hpv h.2
    cases post with
    | nil =>
      refine ⟨[⟨virt + size, cfg.unmappedPa, default⟩], ?_, Or.inr ⟨by simp, default, ?_⟩⟩
      · simp only [if_neg hno, List.append_assoc]
        rfl
      · rw [if_pos (hblocks ▸ hw).endBlock_unmapped]
    | cons s t =>
      by_cases hs : s.virt = virt + size
      · refine ⟨s :: t, ?_, Or.inl ⟨s, rfl, hs, rfl⟩⟩
        simp only [hs, ne_eq, not_true_eq_false, if_false]
        exact mapStart_eq hpre hp hins hs t phys x
      · refine ⟨_, ?_, Or.inr ⟨htail s t rfl hs, p.extraInfo, rfl⟩⟩
        simp only [ne_eq, hs, not_false_eq_true, if_true, if_neg hno, mapTailPhys_eq,
          List.append_assoc]
        rfl
  · -- the last block inside the range becomes the tail
    rw [List.concat_eq_append] at hins hblocks ⊢
    have hinit : ∀ b ∈ ins, virt ≤ b.virt ∧ b.virt < virt + size := fun b hb =>
      hins b (List.mem_append_left _ hb)
    have hev := (hins e (List.mem_append_right _ List.mem_cons_self)).1
    have hyes : (!(pre ++ p :: ins).isEmpty) = true ∧ e.virt ≥ virt := ⟨by simp, hev⟩
    rw [dropLast_front, endBlock_concat]
    cases post with
    | nil =>
      have heq : endBlock p (ins ++ [e]) = e := endBlock_concat e
      have heu : e.unmapped cfg = true := heq ▸ (hblocks ▸ hw).endBlock_unmapped
      refine ⟨[{ e with virt := virt + size }], ?_, Or.inr ⟨by simp, e.extraInfo, ?_⟩⟩
      · simp only [if_pos hyes]
        exact mapStart_eq hpre hp hinit rfl [] phys x
      · rw [if_pos heu, ← show e.phys = cfg.unmappedPa from beq_iff_eq.1 heu]
    | cons s t =>
      by_cases hs : s.virt = virt + size
      · refine ⟨s :: t, ?_, Or.inl ⟨s, rfl, hs, rfl⟩⟩
        simp only [hs, ne_eq, not_true_eq_false, if_false]
        exact mapStart_eq hpre hp hins hs t phys x
      · refine ⟨_, ?_, Or.inr ⟨htail s t rfl hs, e.extraInfo, rfl⟩⟩
        simp only [ne_eq, hs, not_false_eq_true, if_true, if_pos hyes, mapTailPhys_eq]
        exact mapStart_eq hpre hp hinit rfl (s :: t) phys x

/-- Unmap leaves a block behind: the block in front of the range is unmapped, the range ends inside
    or at a mapped block, and a block that should go starts inside the range. -/
def StaleBlock (cfg : MapConfig PA) (blocks : List (Block PA Extra)) (virt size : Nat) : Prop :=
  let front := (lowerBound blocks (virt + size)).1
  let back := (lowerBound blocks (virt + size)).2
  let pre := (walkBack front virt).1
  let ins := (walkBack front virt).2
  (∃ b ∈ pre.getLast?, b.unmapped cfg = true) ∧ (∃ b ∈ ins.getLast?, b.unmapped cfg = false) ∧
    ∃ s ∈ back.head?, (s.virt = virt + size ∧ s.unmapped cfg = false) ∨
      (s.virt ≠ virt + size ∧ 2 ≤ ins.length)

instance (blocks : List (Block PA Extra)) (virt size : Nat) :
    Decidable (StaleBlock cfg blocks virt size) :=
  inferInstanceAs (Decidable (_ ∧ _ ∧ _))

/-- What is left of the range: nothing if the block in front of it is unmapped, else one unmapped
    block. -/
def Cleared (cfg : MapConfig PA) (virt : Nat) (p : Block PA Extra)
    (mid back : List (Block PA Extra)) : Prop :=
  (p.unmapped cfg = true ∧ mid = back) ∨
    (p.unmapped cfg = false ∧ ∃ x, mid = ⟨virt, cfg.unmappedPa, x⟩ :: back)

/-- The vector behind an unmapped range: the tail of a mapped block, or what follows the unmapped
    block the range merges with. -/
def Vacated (cfg : MapConfig PA) (e : Block PA Extra) (virtEnd : Nat)
    (post back : List (Block PA Extra)) : Prop :=
  (e.unmapped cfg = false ∧ Tail cfg e virtEnd post back ∧
      ∀ s ∈ post.head?, s.virt = virtEnd → s.unmapped cfg = false) ∨
    (e.unmapped cfg = true ∧ back = post) ∨
    ∃ s, post = s :: back ∧ s.virt = virtEnd ∧ s.unmapped cfg = true

omit [AddAction ℕ PA] [Inhabited Extra] in
theorem eraseBlocksWithEndUnmapped_eq (hpre : ∀ b ∈ pre, b.virt < virt) (hp : p.virt < virt)
    (hins : ∀ b ∈ ins, virt ≤ b.virt) {u : Block PA Extra} (hu : u.unmapped cfg = true)
    (back : List (Block PA Extra)) :
    ∃ mid, eraseBlocksWithEndUnmapped cfg (pre ++ p :: ins) u back virt = some (pre ++ p :: mid) ∧
      Cleared cfg virt p mid back := by
  have hphys : u.phys = cfg.unmappedPa := beq_iff_eq.1 hu
  unfold eraseBlocksWithEndUnmapped
  rw [walkBack_around hpre hp hins, List.getLast?_concat]
  cases hpu : p.unmapped cfg with
  | true => exact ⟨back, by simp [hpu], Or.inl ⟨hpu, rfl⟩⟩
  | false =>
    refine ⟨⟨virt, cfg.unmappedPa, u.extraInfo⟩ :: back, ?_, Or.inr ⟨hpu, u.extraInfo, rfl⟩⟩
    simp [hpu, hphys]

omit [AddAction ℕ PA] in
theorem unmapStart_eq (hpre : ∀ b ∈ pre, b.virt < virt) (hp : p.virt < virt)
    (hins : ∀ b ∈ ins, virt ≤ b.virt ∧ b.virt < virtEnd) {s : Block PA Extra}
    (hs : s.virt = virtEnd) (t : List (Block PA Extra)) (hok : ins = [] ∨ p.unmapped cfg = false) :
    ∃ mid, unmapStart cfg (pre ++ p :: ins) (s :: t) virt virtEnd = some (pre ++ p :: mid) ∧
      Cleared cfg virt p mid (s :: t) := by
  have hmapped : p.mapped cfg = !p.unmapped cfg := rfl
  unfold unmapStart
  simp only [walkBack_around hpre hp fun b hb => (hins b hb).1, List.getLast?_concat]
  cases ins with
  | nil =>
    cases hpu : p.unmapped cfg with
    | true => exact ⟨s :: t, by simp [hs, hmapped, hpu], Or.inl ⟨hpu, rfl⟩⟩
    | false =>
      exact ⟨⟨virt, cfg.unmappedPa, default⟩ :: s :: t, by simp [hs, hmapped, hpu],
        Or.inr ⟨hpu, default, rfl⟩⟩
  | cons c ins =>
    have hc := (hins c List.mem_cons_self).2
    have hpu : p.unmapped cfg = false := hok.resolve_left (List.cons_ne_nil c ins)
    refine ⟨⟨virt, cfg.unmappedPa, c.extraInfo⟩ :: s :: t, ?_, Or.inr ⟨hpu, c.extraInfo, rfl⟩⟩
    simp [Nat.not_lt.mpr (Nat.le_of_lt hc), Nat.ne_of_lt hc, hpu]

/-- **`UnmapLocked`**, unless it leaves a stale block behind. -/
theorem unmapLocked_eq (hw : WellFormed cfg blocks) {size : Nat}
    (ha : Around blocks virt (virt + size) pre p ins post) (hstale : ¬ StaleBlock cfg blocks virt size) :
    ∃ mid back, unmapLocked cfg blocks virt size = some (pre ++ p :: mid) ∧
      Cleared cfg virt p mid back ∧ Vacated cfg (endBlock p ins) (virt + size) post back := by
  have hcut := lowerBound_around ha (Nat.le_add_right _ _)
  have hwalk : walkBack (pre ++ p :: ins) virt = (pre ++ [p], ins) :=
    walkBack_around ha.pre ha.pred fun b hb => (ha.ins b hb).1
  have hchain := ha.blocks ▸ hw.chain
  simp only [StaleBlock, hcut, hwalk, List.getLast?_concat] at hstale
  obtain ⟨hblocks, hpre, hp, hins, hpost⟩ := ha
  unfold unmapLocked
  simp only [hcut, getLast?_front]
  cases heu : (endBlock p ins).unmapped cfg with
  | true =>
    -- the end of the range is unmapped already
    have hback : Vacated cfg (endBlock p ins) (virt + size) post post := Or.inr (Or.inl ⟨heu, rfl⟩)
    simp only [if_true]
    rcases List.eq_nil_or_concat ins with rfl | ⟨ins, e, rfl⟩
    · refine ⟨post, post, ?_, Or.inl ⟨heu, rfl⟩, hback⟩
      rw [if_neg (show ¬ (endBlock p []).virt > virt from not_lt.mpr (Nat.le_of_lt hp)), hblocks]
      rfl
    · rw [List.concat_eq_append] at *
      rw [endBlock_concat] at heu hback ⊢
      rw [dropLast_front]
      have hev := (hins e (List.mem_append_right _ List.mem_cons_self)).1
      by_cases hgt : e.virt > virt
      · rw [if_pos hgt]
        obtain ⟨mid, h1, h2⟩ := eraseBlocksWithEndUnmapped_eq hpre hp
          (fun b hb => (hins b (List.mem_append_left _ hb)).1) heu post
        exact ⟨mid, post, h1, h2, hback⟩
      · -- it starts where the range does, so it is the only block inside it
        obtain rfl : ins = [] := by
          refine List.eq_nil_iff_forall_not_mem.2 fun b hb => ?_
          have h1 := hins b (List.mem_append_left _ hb)
          have h2 := hw.pairwise
          rw [hblocks] at h2
          simp only [List.pairwise_append, List.pairwise_cons] at h2
          have h3 := h2.2.1.2.1.2.2 b hb e List.mem_cons_self
          omega
        have hpe : Linked cfg p e := (List.isChain_append.1 hchain).2.1.rel
        have hpu : p.unmapped cfg = false := Bool.eq_false_iff.2 fun hpu => by
          rw [hpe.apart hpu] at heu; cases heu
        refine ⟨e :: post, post, ?_, Or.inr ⟨hpu, e.extraInfo, ?_⟩, hback⟩
        · rw [if_neg hgt, hblocks]
          rfl
        · rw [← show e.phys = cfg.unmappedPa from beq_iff_eq.1 heu, show virt = e.virt by omega]
  | false =>
    simp only [Bool.false_eq_true, if_false]
    cases post with
    | nil =>
      have hw' : WellFormed cfg (pre ++ p :: (ins ++ [])) := hblocks ▸ hw
      rw [hw'.endBlock_unmapped] at heu; cases heu
    | cons s t =>
      have hse := hpost s List.mem_cons_self
      -- outside the wrong branch: an unmapped block in front and a mapped one inside do not meet
      have hok : ∀ init e, ins = init ++ [e] → e.unmapped cfg = false →
          (s.virt = virt + size ∧ s.unmapped cfg = false) ∨ (s.virt ≠ virt + size ∧ init ≠ []) →
          p.unmapped cfg = false := by
        rintro init e rfl heu hs
        refine Bool.eq_false_iff.2 fun hpu => hstale ⟨⟨p, rfl, hpu⟩, ⟨e, ?_, heu⟩, s, rfl, ?_⟩
        · rw [List.getLast?_concat]
          rfl
        · refine hs.imp_right fun h => ⟨h.1, ?_⟩
          have := List.length_pos_of_ne_nil h.2
          rw [List.length_append, List.length_singleton]; omega
      by_cases hs : s.virt = virt + size
      · cases hsu : s.unmapped cfg with
        | true =>
          simp only [hs, hsu, true_and, if_true]
          obtain ⟨mid, h1, h2⟩ := eraseBlocksWithEndUnmapped_eq hpre hp
            (fun b hb => (hins b hb).1) hsu t
          exact ⟨mid, t, h1, h2, Or.inr (Or.inr ⟨s, rfl, hs, hsu⟩)⟩
        | false =>
          simp only [hs, hsu, true_and, Bool.false_eq_true, if_false, ne_eq, not_true_eq_false]
          have hor : ins = [] ∨ p.unmapped cfg = false := by
            rcases List.eq_nil_or_concat ins with h | ⟨init, e, h⟩
            · exact Or.inl h
            · rw [List.concat_eq_append] at h
              rw [h, endBlock_concat] at heu
              exact Or.inr (hok init e h heu (Or.inl ⟨hs, hsu⟩))
          obtain ⟨mid, h1, h2⟩ := unmapStart_eq hpre hp hins hs t hor
          refine ⟨mid, s :: t, h1, h2, Or.inl ⟨heu, Or.inl ⟨s, rfl, hs, rfl⟩, ?_⟩⟩
          rintro _ ⟨⟩ _; exact hsu
      · have htail : ∀ s' ∈ (s :: t).head?, virt + size < s'.virt := by
          rintro _ ⟨⟩; omega
        have hnot : ∀ s' ∈ (s :: t).head?, s'.virt = virt + size → s'.unmapped cfg = false := by
          rintro _ ⟨⟩ h; exact absurd h hs
        simp only [hs, false_and, if_false, ne_eq, not_false_eq_true, if_true, unmapTailPhys_eq heu]
        rcases List.eq_nil_or_concat ins with rfl | ⟨ins, e, rfl⟩
        · rw [if_neg (show ¬ (endBlock p []).virt ≥ virt from not_le.mpr hp), List.append_assoc]
          exact ⟨_, _, rfl, Or.inr ⟨heu, default, rfl⟩, Or.inl ⟨heu, Or.inr ⟨htail, _, rfl⟩, hnot⟩⟩
        · rw [List.concat_eq_append] at *
          rw [endBlock_concat] at heu ⊢
          have hev := (hins e (List.mem_append_right _ List.mem_cons_self)).1
          rw [if_pos hev, dropLast_front]
          have hor : ins = [] ∨ p.unmapped cfg = false := by
            by_cases h : ins = []
            · exact Or.inl h
            · exact Or.inr (hok ins e rfl heu (Or.inr ⟨hs, h⟩))
          obtain ⟨mid, h1, h2⟩ := unmapStart_eq hpre hp
            (fun b hb => hins b (List.mem_append_left _ hb))
            (s := ⟨virt + size, if e.unmapped cfg then cfg.unmappedPa
              else shift cfg (virt + size - e.virt) e.phys, e.extraInfo⟩) rfl (s :: t) hor
          exact ⟨mid, _, h1, h2, Or.inl ⟨heu, Or.inr ⟨htail, e.extraInfo, rfl⟩, hnot⟩⟩

end Outcome

/-! ## The vector stays well formed and reads as the plain map -/

section Refine

variable {PA Extra : Type} [DecidableEq PA] [AddAction ℕ PA] {cfg : MapConfig PA}
  {blocks pre ins post mid back : List (Block PA Extra)} {p : Block PA Extra} {virt virtEnd : Nat}

theorem value_of_unmapped {b : Block PA Extra} (h : b.unmapped cfg = true) (x : Nat) :
    b.value cfg x = none :=
  if_pos h

theorem resolve_eq_steps (h : blocks.Pairwise fun b c => b.virt < c.virt) (x : Nat) :
    resolve cfg blocks x = steps Block.virt (Block.value cfg) (fun _ => none) blocks x := by
  rw [steps_eq_getLast h]
  unfold resolve
  cases (blocks.filter fun b => decide (b.virt ≤ x)).getLast? <;> rfl

/-- **Replacing everything from the range on**: it is enough to look right of the block `p` in front
    of the range. -/
theorem steps_splice (ha : Around blocks virt virtEnd pre p ins post) (hle : virt ≤ virtEnd)
    (hmid : ∀ b ∈ mid.head?, virt ≤ b.virt) {f : Nat → Option PA}
    (hval : ∀ x, virt ≤ x → steps Block.virt (Block.value cfg) (p.value cfg) mid x =
      if x < virtEnd then f x
      else steps Block.virt (Block.value cfg) ((endBlock p ins).value cfg) post x) (x : Nat) :
    steps Block.virt (Block.value cfg) (fun _ => none) (pre ++ p :: mid) x =
      if virt ≤ x ∧ x < virtEnd then f x
      else steps Block.virt (Block.value cfg) (fun _ => none) blocks x := by
  obtain ⟨rfl, hpre, hp, hins, hpost⟩ := ha
  by_cases hx : x < virt
  · have hrest : ∀ b ∈ (ins ++ post).head?, x < b.virt := by
      intro b hb
      rcases List.mem_append.mp (List.mem_of_mem_head? hb) with hb | hb
      · have := (hins b hb).1
        omega
      · have := hpost b hb
        omega
    rw [if_neg (by omega), List.append_cons, List.append_cons pre p (ins ++ post),
      steps_append_of_lt (fun b hb => by have := hmid b hb; omega), steps_append_of_lt hrest]
  · have hpre' : ∀ b ∈ pre ++ [p], b.virt ≤ x := by
      intro b hb
      rcases List.mem_append.mp hb with hb | hb
      · have := hpre b hb
        omega
      · have := List.mem_singleton.mp hb
        subst this; omega
    rw [List.append_cons, steps_append_of_le (by simp) hpre', List.getLast_concat, hval x (by omega)]
    by_cases hxe : x < virtEnd
    · rw [if_pos hxe, if_pos ⟨by omega, hxe⟩]
    · have hfront : ∀ b ∈ pre ++ p :: ins, b.virt ≤ x := by
        intro b hb
        rcases List.mem_append.mp hb with hb | hb
        · have := hpre b hb
          omega
        · rcases List.mem_cons.mp hb with rfl | hb
          · omega
          · have := (hins b hb).2
            omega
      rw [if_neg hxe, if_neg (by omega), ← List.cons_append, ← List.append_assoc,
        steps_append_of_le (by simp) hfront, getLast_front]

theorem linked_endBlock (hchain : (pre ++ p :: (ins ++ post)).IsChain (Linked cfg)) :
    ∀ s ∈ post.head?, Linked cfg (endBlock p ins) s := by
  have h : ((p :: ins) ++ post).IsChain (Linked cfg) := (List.isChain_append.1 hchain).2.1
  intro s hs
  refine (List.isChain_append.1 h).2.2 _ ?_ s hs
  rw [List.getLast?_cons]
  rfl

theorem tail_value {e : Block PA Extra} (he : e.virt ≤ virtEnd)
    (hsolid : e.unmapped cfg = false → shift cfg (virtEnd - e.virt) e.phys ≠ cfg.unmappedPa)
    {extra : Extra} {x : Nat} (hx : virtEnd ≤ x) :
    Block.value cfg ⟨virtEnd, if e.unmapped cfg then cfg.unmappedPa
      else shift cfg (virtEnd - e.virt) e.phys, extra⟩ x = e.value cfg x := by
  unfold Block.value
  cases heu : e.unmapped cfg with
  | true => simp [Block.unmapped]
  | false =>
    have hn := hsolid heu
    simp only [Block.unmapped, Bool.false_eq_true, if_false, beq_iff_eq, hn, shift_shift]
    rw [show x - virtEnd + (virtEnd - e.virt) = x - e.virt by omega]

theorem Tail.spec {e : Block PA Extra} (h : Tail cfg e virtEnd post back) (he : e.virt < virtEnd)
    (hlink : ∀ s ∈ post.head?, Linked cfg e s) (hpost : post.IsChain (Linked cfg))
    (hlast : ∀ b ∈ post.getLast?, b.unmapped cfg = true)
    (hend : post = [] → e.unmapped cfg = true) :
    back.IsChain (Linked cfg) ∧ (∃ b ∈ back.getLast?, b.unmapped cfg = true) ∧
      (∃ b ∈ back.head?, b.virt = virtEnd ∧
        (e.unmapped cfg = false → (∀ s ∈ post.head?, s.virt = virtEnd → s.unmapped cfg = false) →
          b.unmapped cfg = false)) ∧
      ∀ d x, virtEnd ≤ x → steps Block.virt (Block.value cfg) d back x =
        steps Block.virt (Block.value cfg) (e.value cfg) post x := by
  rcases h with ⟨s, hs, hsv, rfl⟩ | ⟨hgt, extra, rfl⟩
  · obtain ⟨t, rfl⟩ : ∃ t, back = s :: t := by
      cases back with
      | nil => cases hs
      | cons s' t => exact ⟨t, by rw [show s' = s from Option.some.inj hs]⟩
    refine ⟨hpost, ?_, ⟨s, rfl, hsv, fun _ h => h s rfl hsv⟩, fun d x hx => ?_⟩
    · have hg := List.getLast?_eq_some_getLast (List.cons_ne_nil s t)
      exact ⟨_, hg, hlast _ hg⟩
    · rw [steps_cons, steps_cons, if_neg (by omega), if_neg (by omega)]
  · have hsolid : ∀ s ∈ post.head?, e.unmapped cfg = false →
        ∀ i, virtEnd + i < s.virt → shift cfg (i + (virtEnd - e.virt)) e.phys ≠ cfg.unmappedPa := by
      intro s hs heu i hi; exact (hlink s hs).solid heu _ (by omega)
    have hmapped : e.unmapped cfg = false →
        shift cfg (virtEnd - e.virt) e.phys ≠ cfg.unmappedPa := by
      intro heu
      cases post with
      | nil =>
        rw [hend rfl] at heu; cases heu
      | cons s t =>
        have := hsolid s rfl heu 0 (by have := hgt s rfl; omega)
        rwa [Nat.zero_add] at this
    refine ⟨?_, ?_, ⟨_, rfl, rfl, fun heu _ => ?_⟩, fun d x hx => ?_⟩
    · refine List.IsChain.cons hpost fun s hs => ⟨hgt s hs, fun htu => ?_, fun htm i hi => ?_⟩
      · refine (hlink s hs).apart ?_
        cases heu : e.unmapped cfg with
        | true => rfl
        | false =>
          rw [heu] at htu; exact absurd (beq_iff_eq.1 htu) (hmapped heu)
      · cases heu : e.unmapped cfg with
        | true =>
          rw [heu] at htm; simp [Block.unmapped] at htm
        | false =>
          simp only [Bool.false_eq_true, if_false, shift_shift]; exact hsolid s hs heu i hi
    · cases post with
      | nil => exact ⟨_, rfl, by rw [if_pos (hend rfl)]; exact beq_self_eq_true _⟩
      | cons s t =>
        have hg := List.getLast?_eq_some_getLast (List.cons_ne_nil s t)
        exact ⟨_, by rw [List.getLast?_cons_cons]; exact hg, hlast _ hg⟩
    · rw [if_neg (by rw [heu]; exact Bool.false_ne_true)]
      exact beq_eq_false_iff_ne.2 (hmapped heu)
    · rw [steps_cons, if_neg (not_lt.mpr hx)]
      exact steps_congr (tail_value (Nat.le_of_lt he) hmapped hx) post

section

variable (hw : WellFormed cfg blocks) (ha : Around blocks virt virtEnd pre p ins post)
include hw ha

theorem Around.solid_pred (hle : virt ≤ virtEnd) (hpm : p.unmapped cfg = false) :
    ∀ i, p.virt + i < virt → shift cfg i p.phys ≠ cfg.unmappedPa := by
  have hchain := (List.isChain_append.1 (ha.blocks ▸ hw.chain)).2.1
  cases hrest : ins ++ post with
  | nil =>
    -- then it would be the terminating block
    obtain ⟨b, hb, hbu⟩ := hw.last
    rw [ha.blocks, hrest, List.getLast?_concat] at hb
    rw [Option.some.inj hb, hbu] at hpm; cases hpm
  | cons c t =>
    rw [hrest] at hchain
    intro i hi
    have hc : virt ≤ c.virt := by
      have hmem : c ∈ ins ++ post := hrest ▸ List.mem_cons_self
      rcases List.mem_append.mp hmem with h | h
      · exact (ha.ins c h).1
      · have := ha.post c h
        omega
    exact hchain.rel.solid hpm i (by omega)

theorem Around.wellFormed (hchain : (p :: mid).IsChain (Linked cfg))
    (hlast : ∃ b ∈ (p :: mid).getLast?, b.unmapped cfg = true) : WellFormed cfg (pre ++ p :: mid) := by
  obtain ⟨b, hb, hb0⟩ := hw.first
  refine ⟨⟨b, ?_, hb0⟩, ?_, ?_⟩
  · rw [ha.blocks] at hb
    cases pre <;> exact hb
  · obtain ⟨c, hc, hcu⟩ := hlast
    refine ⟨c, ?_, hcu⟩
    rw [List.getLast?_append, show (p :: mid).getLast? = some c from hc]
    rfl
  · exact List.isChain_split.2 ⟨(List.isChain_split.1 (ha.blocks ▸ hw.chain)).1, hchain⟩

theorem post_chain : post.IsChain (Linked cfg) ∧ (∀ b ∈ post.getLast?, b.unmapped cfg = true) ∧
      (post = [] → (endBlock p ins).unmapped cfg = true) := by
  have hall : (pre ++ p :: (ins ++ post)).IsChain (Linked cfg) := ha.blocks ▸ hw.chain
  have hsplit : pre ++ p :: (ins ++ post) = (pre ++ p :: ins) ++ post := by simp
  refine ⟨(List.isChain_append.1 (hsplit ▸ hall)).2.1, fun b hb => ?_, ?_⟩
  · obtain ⟨c, hc, hcu⟩ := hw.last
    rw [ha.blocks, hsplit, List.getLast?_append, show post.getLast? = some b from hb] at hc
    obtain rfl : b = c := Option.some.inj hc
    exact hcu
  · rintro rfl; exact (ha.blocks ▸ hw).endBlock_unmapped

end

end Refine

section Step

variable {PA Extra : Type} [DecidableEq PA] [AddAction ℕ PA] [Inhabited Extra] {cfg : MapConfig PA}
  {blocks : List (Block PA Extra)} {virt size : Nat}

/-- **`MapLocked` refines the plain map.** -/
theorem mapLocked_refines (hw : WellFormed cfg blocks) (hv : 0 < virt) (hs : 0 < size) {phys : PA}
    (hphys : ∀ i, i < size → shift cfg i phys ≠ cfg.unmappedPa) (extra : Extra) :
    ∃ blocks', mapLocked cfg blocks virt phys size extra = some blocks' ∧ WellFormed cfg blocks' ∧
      ∀ x, resolve cfg blocks' x = if virt ≤ x ∧ x < virt + size
        then some (shift cfg (x - virt) phys) else resolve cfg blocks x := by
  have hlt : virt < virt + size := by omega
  obtain ⟨pre, p, ins, post, ha⟩ := hw.around hv (virt + size)
  obtain ⟨back, hmap, htail⟩ := mapLocked_eq hw ha phys extra
  have hchain : (pre ++ p :: (ins ++ post)).IsChain (Linked cfg) := ha.blocks ▸ hw.chain
  obtain ⟨hpost, hplast, hend⟩ := post_chain hw ha
  obtain ⟨hback, ⟨l, hl, hlu⟩, ⟨h, hh, hhv, -⟩, hval⟩ :=
    htail.spec (endBlock_lt ha hlt) (linked_endBlock hchain) hpost hplast hend
  have hnew : phys ≠ cfg.unmappedPa := by
    have := hphys 0 hs
    rwa [shift_zero] at this
  have hnewm : Block.unmapped cfg ⟨virt, phys, extra⟩ = false := beq_eq_false_iff_ne.2 hnew
  have hw' : WellFormed cfg (pre ++ p :: ⟨virt, phys, extra⟩ :: back) := by
    refine ha.wellFormed hw ?_ ⟨l, ?_, hlu⟩
    · refine List.IsChain.cons (List.IsChain.cons hback fun c hc => ?_) ?_
      · obtain rfl : h = c := Option.some.inj (hh.symm.trans hc)
        refine ⟨by rw [hhv]; exact hlt, fun hu => ?_, fun _ i hi => hphys i ?_⟩
        · rw [hnewm] at hu
          cases hu
        · rw [hhv] at hi; exact Nat.lt_of_add_lt_add_left hi
      · rintro c ⟨⟩; exact ⟨ha.pred, fun _ => hnewm, ha.solid_pred hw (Nat.le_of_lt hlt)⟩
    · rw [List.getLast?_cons, List.getLast?_cons, show back.getLast? = some l from hl]; rfl
  refine ⟨_, hmap, hw', fun x => ?_⟩
  rw [resolve_eq_steps hw'.pairwise, resolve_eq_steps hw.pairwise]
  refine steps_splice (f := fun x => some (shift cfg (x - virt) phys)) ha (Nat.le_of_lt hlt)
    (fun b hb => ?_) (fun x hx => ?_) x
  · exact Nat.le_of_eq (congrArg Block.virt (Option.some.inj hb))
  rw [steps_cons, if_neg (not_lt.mpr hx)]
  by_cases hxe : x < virt + size
  · rw [if_pos hxe, steps_of_lt]
    · exact if_neg (by rw [hnewm]; exact Bool.false_ne_true)
    · intro c hc
      obtain rfl : h = c := Option.some.inj (hh.symm.trans hc); omega
  · rw [if_neg hxe]; exact hval _ x (not_lt.mp hxe)

omit [Inhabited Extra] in
theorem Vacated.spec {pre ins post back : List (Block PA Extra)} {p : Block PA Extra}
    {virtEnd : Nat} (hw : WellFormed cfg blocks) (ha : Around blocks virt virtEnd pre p ins post)
    (hlt : virt < virtEnd) (h : Vacated cfg (endBlock p ins) virtEnd post back) :
    back.IsChain (Linked cfg) ∧ (∀ b ∈ back.getLast?, b.unmapped cfg = true) ∧
      (∀ b ∈ back.head?, virtEnd ≤ b.virt ∧ b.unmapped cfg = false) ∧
      ∀ x, steps Block.virt (Block.value cfg) (fun _ => none) back x = if x < virtEnd then none
        else steps Block.virt (Block.value cfg) ((endBlock p ins).value cfg) post x := by
  have hchain : (pre ++ p :: (ins ++ post)).IsChain (Linked cfg) := ha.blocks ▸ hw.chain
  obtain ⟨hpost, hplast, hend⟩ := post_chain hw ha
  have hlink := linked_endBlock hchain
  rcases h with ⟨heu, htail, hmapped⟩ | ⟨heu, rfl⟩ | ⟨s, rfl, hsv, hsu⟩
  · obtain ⟨hback, ⟨l, hl, hlu⟩, ⟨h, hh, hhv, hhm⟩, hval⟩ :=
      htail.spec (endBlock_lt ha hlt) hlink hpost hplast hend
    refine ⟨hback, fun b hb => ?_, fun b hb => ?_, fun x => ?_⟩
    · obtain rfl : l = b := Option.some.inj (hl.symm.trans hb)
      exact hlu
    · obtain rfl : h = b := Option.some.inj (hh.symm.trans hb)
      exact ⟨Nat.le_of_eq hhv.symm, hhm heu hmapped⟩
    · by_cases hx : x < virtEnd
      · rw [if_pos hx, steps_of_lt]
        intro b hb
        obtain rfl : h = b := Option.some.inj (hh.symm.trans hb)
        omega
      · rw [if_neg hx]; exact hval _ x (not_lt.mp hx)
  · -- the end of the range was unmapped before
    refine ⟨hpost, hplast, fun b hb => ⟨ha.post b (List.mem_of_mem_head? hb), (hlink b hb).apart heu⟩,
      fun x => ?_⟩
    by_cases hx : x < virtEnd
    · rw [if_pos hx, steps_of_lt]
      intro b hb
      have := ha.post b (List.mem_of_mem_head? hb)
      omega
    · rw [if_neg hx]; exact steps_congr (value_of_unmapped heu x).symm _
  · -- the range merges with the unmapped block behind it
    have hnext : ∀ b ∈ back.head?, Linked cfg s b := by
      intro b hb
      cases back with
      | nil => cases hb
      | cons c t =>
        obtain rfl : c = b := Option.some.inj hb; exact hpost.rel
    refine ⟨hpost.of_cons, fun b hb => hplast b ?_, fun b hb => ⟨?_, (hnext b hb).apart hsu⟩,
      fun x => ?_⟩
    · rw [List.getLast?_cons, show back.getLast? = some b from hb]
      rfl
    · have := (hnext b hb).lt
      omega
    · by_cases hx : x < virtEnd
      · rw [if_pos hx, steps_of_lt]
        intro b hb
        have := (hnext b hb).lt
        omega
      · rw [if_neg hx, steps_cons, if_neg (by omega)]
        exact steps_congr (value_of_unmapped hsu x).symm _

/-- **`UnmapLocked` refines the plain map**, unless it leaves a stale block behind. -/
theorem unmapLocked_refines (hw : WellFormed cfg blocks) (hv : 0 < virt) (hs : 0 < size)
    (hstale : ¬ StaleBlock cfg blocks virt size) :
    ∃ blocks', unmapLocked cfg blocks virt size = some blocks' ∧ WellFormed cfg blocks' ∧
      ∀ x, resolve cfg blocks' x = if virt ≤ x ∧ x < virt + size then none
        else resolve cfg blocks x := by
  have hlt : virt < virt + size := by omega
  obtain ⟨pre, p, ins, post, ha⟩ := hw.around hv (virt + size)
  obtain ⟨mid, back, hunmap, hclear, hvac⟩ := unmapLocked_eq hw ha hstale
  obtain ⟨hback, hblast, hhead, hval⟩ := hvac.spec hw ha hlt
  have hlastof : ∀ b : Block PA Extra, b.unmapped cfg = true →
      ∃ c ∈ (b :: back).getLast?, c.unmapped cfg = true := by
    intro b hb
    rw [List.getLast?_cons]
    cases hg : back.getLast? with
    | none => exact ⟨b, rfl, hb⟩
    | some c => exact ⟨c, rfl, hblast c hg⟩
  rcases hclear with ⟨hpu, rfl⟩ | ⟨hpm, extra, rfl⟩
  · have hw' : WellFormed cfg (pre ++ p :: mid) := by
      refine ha.wellFormed hw (List.IsChain.cons hback fun c hc => ?_) (hlastof p hpu)
      refine ⟨?_, fun _ => (hhead c hc).2, fun hpm => ?_⟩
      · have := (hhead c hc).1
        have := ha.pred
        omega
      · rw [hpu] at hpm; cases hpm
    refine ⟨_, hunmap, hw', fun x => ?_⟩
    rw [resolve_eq_steps hw'.pairwise, resolve_eq_steps hw.pairwise]
    refine steps_splice (f := fun _ => none) ha (Nat.le_of_lt hlt) (fun b hb => ?_) (fun x hx => ?_) x
    · have := (hhead b hb).1
      omega
    · rw [← hval x]; exact steps_congr (value_of_unmapped hpu x) mid
  · have hgap : Block.unmapped cfg (⟨virt, cfg.unmappedPa, extra⟩ : Block PA Extra) = true :=
      beq_self_eq_true _
    have hw' : WellFormed cfg (pre ++ p :: ⟨virt, cfg.unmappedPa, extra⟩ :: back) := by
      refine ha.wellFormed hw (List.IsChain.cons (List.IsChain.cons hback fun c hc => ?_) ?_) ?_
      · refine ⟨Nat.lt_of_lt_of_le hlt (hhead c hc).1, fun _ => (hhead c hc).2, fun hm => ?_⟩
        rw [hgap] at hm
        cases hm
      · rintro c ⟨⟩
        refine ⟨ha.pred, fun hu => ?_, ha.solid_pred hw (Nat.le_of_lt hlt)⟩
        rw [hpm] at hu
        cases hu
      · obtain ⟨c, hc, hcu⟩ := hlastof _ hgap
        refine ⟨c, ?_, hcu⟩
        rw [List.getLast?_cons, hc]; rfl
    refine ⟨_, hunmap, hw', fun x => ?_⟩
    rw [resolve_eq_steps hw'.pairwise, resolve_eq_steps hw.pairwise]
    refine steps_splice (f := fun _ => none) ha (Nat.le_of_lt hlt) (fun b hb => ?_) (fun x hx => ?_) x
    · exact Nat.le_of_eq (congrArg Block.virt (Option.some.inj hb))
    rw [steps_cons, if_neg (not_lt.mpr hx), ← hval x]
    exact steps_congr (value_of_unmapped hgap x) back

end Step

/-! ## Runs -/

section Run

variable {PA Extra : Type}

inductive MapOp (PA Extra : Type) where
  | map (virt : Nat) (phys : PA) (size : Nat) (extraInfo : Extra)
  | unmap (virt size : Nat)
deriving DecidableEq, Repr

namespace MapOp

def virt : MapOp PA Extra → Nat
  | .map virt .. | .unmap virt _ => virt

def size : MapOp PA Extra → Nat
  | .map _ _ size _ | .unmap _ size => size

def covers (x : Nat) (op : MapOp PA Extra) : Bool := decide (op.virt ≤ x ∧ x < op.virt + op.size)

variable [DecidableEq PA] [AddAction ℕ PA] [Inhabited Extra] (cfg : MapConfig PA)

/-- What the operation gives to an address it covers. -/
def value (op : MapOp PA Extra) (x : Nat) : Option PA :=
  match op with
  | .map virt phys _ _ => some (shift cfg (x - virt) phys)
  | .unmap _ _ => none

def run (op : MapOp PA Extra) (blocks : List (Block PA Extra)) : Option (List (Block PA Extra)) :=
  match op with
  | .map virt phys size extraInfo => mapLocked cfg blocks virt phys size extraInfo
  | .unmap virt size => unmapLocked cfg blocks virt size

/-- The physical range handed to `Map` is mapped. -/
def MapsMapped : MapOp PA Extra → Prop
  | .map _ phys size _ => ∀ i < size, shift cfg i phys ≠ cfg.unmappedPa
  | .unmap _ _ => True

/-- A non-empty range inside the address space, not at address zero. -/
structure Valid (vaLimit : Nat) (op : MapOp PA Extra) : Prop where
  virt : 0 < op.virt
  size : 0 < op.size
  limit : op.virt + op.size ≤ vaLimit
  mapped : op.MapsMapped cfg

/-- An `Unmap` does not leave a stale block behind. -/
def NotStale (blocks : List (Block PA Extra)) : MapOp PA Extra → Prop
  | .map .. => True
  | .unmap virt size => ¬ StaleBlock cfg blocks virt size

end MapOp

variable [DecidableEq PA] [AddAction ℕ PA] [Inhabited Extra]

/-- `std::vector<Block> blocks{Block{}}`. -/
def initialBlocks (cfg : MapConfig PA) : List (Block PA Extra) :=
  [⟨UnmappedVa, cfg.unmappedPa, default⟩]

/-- The vector after the operations of `history`, the latest one first, each of which satisfied `P`
    when it was made. -/
inductive MapRun (cfg : MapConfig PA) (vaLimit : Nat)
    (P : List (Block PA Extra) → MapOp PA Extra → Prop) :
    List (MapOp PA Extra) → List (Block PA Extra) → Prop where
  | start : MapRun cfg vaLimit P [] (initialBlocks cfg)
  | step {history blocks blocks' op} (h : MapRun cfg vaLimit P history blocks)
      (hv : op.Valid cfg vaLimit) (hp : P blocks op) (hs : op.run cfg blocks = some blocks') :
      MapRun cfg vaLimit P (op :: history) blocks'

/-- What the latest operation that covers `x` gave it; unmapped if there is none. -/
def latest (cfg : MapConfig PA) (history : List (MapOp PA Extra)) (x : Nat) : Option PA :=
  (history.find? (MapOp.covers x)).bind fun op => op.value cfg x

omit [DecidableEq PA] [Inhabited Extra] in
theorem latest_cons (cfg : MapConfig PA) (op : MapOp PA Extra) (history : List (MapOp PA Extra))
    (x : Nat) : latest cfg (op :: history) x =
      if op.virt ≤ x ∧ x < op.virt + op.size then op.value cfg x else latest cfg history x := by
  unfold latest
  rw [List.find?_cons]
  by_cases h : op.virt ≤ x ∧ x < op.virt + op.size
  · rw [if_pos h, show MapOp.covers x op = true from decide_eq_true h]
    rfl
  · rw [if_neg h, show MapOp.covers x op = false from decide_eq_false h]

variable {cfg : MapConfig PA} {vaLimit : Nat} {history : List (MapOp PA Extra)}
  {blocks : List (Block PA Extra)}

theorem MapOp.run_refines {op : MapOp PA Extra} (hw : WellFormed cfg blocks)
    (hv : op.Valid cfg vaLimit) (hp : op.NotStale cfg blocks) :
    ∃ blocks', op.run cfg blocks = some blocks' ∧ WellFormed cfg blocks' ∧
      ∀ x, resolve cfg blocks' x = if op.virt ≤ x ∧ x < op.virt + op.size then op.value cfg x
        else resolve cfg blocks x := by
  obtain ⟨h1, h2, -, h3⟩ := hv
  cases op with
  | map virt phys size extra => exact mapLocked_refines hw h1 h2 h3 extra
  | unmap virt size => exact unmapLocked_refines hw h1 h2 hp

theorem initialBlocks_wellFormed : WellFormed cfg (initialBlocks cfg : List (Block PA Extra)) :=
  ⟨⟨_, rfl, rfl⟩, ⟨_, rfl, beq_self_eq_true _⟩, List.IsChain.singleton _⟩

theorem MapRun.refines (h : MapRun cfg vaLimit (fun blocks op => op.NotStale cfg blocks) history blocks) :
    WellFormed cfg blocks ∧ ∀ x, resolve cfg blocks x = latest cfg history x := by
  induction h with
  | start =>
    refine ⟨initialBlocks_wellFormed, fun x => ?_⟩
    rw [resolve_eq_steps initialBlocks_wellFormed.pairwise, initialBlocks, steps_cons,
      if_neg (show ¬ x < UnmappedVa from Nat.not_lt_zero x)]
    exact value_of_unmapped (beq_self_eq_true _) x
  | @step history blocks blocks' op h hv hp hs ih =>
    obtain ⟨b, hb, hw, hval⟩ := MapOp.run_refines ih.1 hv hp
    obtain rfl : b = blocks' := Option.some.inj (hb.symm.trans hs)
    refine ⟨hw, fun x => ?_⟩
    rw [hval, latest_cons, ih.2]

/-- The map meets its specification: every address resolves to what the latest operation covering
    it gave it, the vector is strictly sorted, starts at `UnmappedVa`, ends with an unmapped block
    and never holds two unmapped blocks in a row. -/
structure RefinesMap (cfg : MapConfig PA) (history : List (MapOp PA Extra))
    (blocks : List (Block PA Extra)) : Prop where
  resolve : ∀ x, resolve cfg blocks x = latest cfg history x
  sorted : blocks.Pairwise fun b c => b.virt < c.virt
  first : ∃ b ∈ blocks.head?, b.virt = UnmappedVa
  last : ∃ b ∈ blocks.getLast?, b.unmapped cfg = true
  apart : blocks.IsChain fun b c => ¬ (b.unmapped cfg = true ∧ c.unmapped cfg = true)

/-- **FlatAddressSpaceMap refines a plain address map** over every run in which no `Unmap` leaves a
    stale block behind, and such a run never gets stuck. -/
theorem refinesMap_of_run
    (h : MapRun cfg vaLimit (fun blocks op => op.NotStale cfg blocks) history blocks) :
    RefinesMap cfg history blocks ∧ ∀ op : MapOp PA Extra, op.Valid cfg vaLimit →
      op.NotStale cfg blocks → ∃ blocks', op.run cfg blocks = some blocks' := by
  obtain ⟨hw, hval⟩ := h.refines
  refine ⟨⟨hval, hw.pairwise, hw.first, hw.last, ?_⟩, fun op hv hp => ?_⟩
  · refine hw.chain.imp fun b c hbc hu => ?_
    rw [hbc.apart hu.1] at hu
    cases hu.2
  · obtain ⟨blocks', hb, -⟩ := MapOp.run_refines hw hv hp; exact ⟨blocks', hb⟩

end Run

section Examples

/-- Physical addresses with zero as `UnmappedPa`, growing along with the virtual ones. -/
def contigConfig : MapConfig ℕ := ⟨0, true⟩

theorem contigConfig_map_valid {virt phys size : Nat} (hv : 0 < virt) (hs : 0 < size)
    (hp : 0 < phys) (hl : virt + size ≤ 0xFFFFFFFF) :
    (MapOp.map virt phys size () : MapOp ℕ Unit).Valid contigConfig 0xFFFFFFFF := by
  refine ⟨hv, hs, hl, fun i _ => ?_⟩
  show i + phys ≠ 0
  omega

/-- Two pages mapped, then half a page cut out of their middle. -/
theorem refinesMap_hole_in_mapping :
    RefinesMap contigConfig [.unmap 0x1800 0x800, .map 0x1000 0x90000 0x2000 ()]
      [⟨0, 0, ()⟩, ⟨0x1000, 0x90000, ()⟩, ⟨0x1800, 0, ()⟩, ⟨0x2000, 0x91000, ()⟩, ⟨0x3000, 0, ()⟩] := by
  have h₁ : MapRun contigConfig 0xFFFFFFFF (fun blocks op => op.NotStale contigConfig blocks)
      [.map 0x1000 0x90000 0x2000 ()] [⟨0, 0, ()⟩, ⟨0x1000, 0x90000, ()⟩, ⟨0x3000, 0, ()⟩] :=
    .step .start (contigConfig_map_valid (by decide) (by decide) (by decide) (by decide)) trivial
      (by decide +kernel)
  have hns : ¬ StaleBlock contigConfig
      [(⟨0, 0, ()⟩ : Block ℕ Unit), ⟨0x1000, 0x90000, ()⟩, ⟨0x3000, 0, ()⟩] 0x1800 0x800 := by
    decide +kernel
  have h₂ : MapRun contigConfig 0xFFFFFFFF (fun blocks op => op.NotStale contigConfig blocks)
      [.unmap 0x1800 0x800, .map 0x1000 0x90000 0x2000 ()]
      [⟨0, 0, ()⟩, ⟨0x1000, 0x90000, ()⟩, ⟨0x1800, 0, ()⟩, ⟨0x2000, 0x91000, ()⟩, ⟨0x3000, 0, ()⟩] :=
    .step h₁ ⟨by decide, by decide, by decide, trivial⟩ hns (by decide +kernel)
  exact (refinesMap_of_run h₂).1

/-- Two neighbouring pages mapped one by one, then the first of them unmapped: it stays mapped. -/
theorem not_refinesMap_of_run : ¬ ∀ (history : List (MapOp ℕ Unit)) (blocks : List (Block ℕ Unit)),
    MapRun contigConfig 0xFFFFFFFF (fun _ _ => True) history blocks →
    RefinesMap contigConfig history blocks := by
  intro h
  have h₁ : MapRun contigConfig 0xFFFFFFFF (fun _ _ => True) [.map 0x1000 0x90000 0x1000 ()]
      [⟨0, 0, ()⟩, ⟨0x1000, 0x90000, ()⟩, ⟨0x2000, 0, ()⟩] :=
    .step .start (contigConfig_map_valid (by decide) (by decide) (by decide) (by decide)) trivial
      (by decide +kernel)
  have h₂ : MapRun contigConfig 0xFFFFFFFF (fun _ _ => True)
      [.map 0x2000 0x50000 0x1000 (), .map 0x1000 0x90000 0x1000 ()]
      [⟨0, 0, ()⟩, ⟨0x1000, 0x90000, ()⟩, ⟨0x2000, 0x50000, ()⟩, ⟨0x3000, 0, ()⟩] :=
    .step h₁ (contigConfig_map_valid (by decide) (by decide) (by decide) (by decide)) trivial
      (by decide +kernel)
  have h₃ : MapRun contigConfig 0xFFFFFFFF (fun _ _ => True)
      [.unmap 0x1000 0x1000, .map 0x2000 0x50000 0x1000 (), .map 0x1000 0x90000 0x1000 ()]
      [⟨0, 0, ()⟩, ⟨0x1000, 0x90000, ()⟩, ⟨0x2000, 0x50000, ()⟩, ⟨0x3000, 0, ()⟩] :=
    .step h₂ ⟨by decide, by decide, by decide, trivial⟩ trivial (by decide +kernel)
  exact absurd ((h _ _ h₃).resolve 0x1000) (by decide +kernel)

end Examples

end Suyu.Common
