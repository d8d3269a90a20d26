import Mathlib
import Suyu.Audio.MixRuns
import Suyu.Audio.MixSearch

/-
  Runs of `UpdateMixes`: the buffers of the mixes.

  1. **Program** - `calcMixBufferOffset` puts the buffers of the mixes in use one behind the other, in
     the order of the last sort.  `updateMixes` calls it only when a use flag or a link has changed.

  2. **Specification (`BuffersApart`)** - the buffers of the mixes in use are disjoint and lie below
     `mix_buffer_count`, and the 16-bit offset has not wrapped.

  3. **The crux (`layout_iff`)** - a layout is right exactly if the counts of ALL mixes in use, given
     or not, are not negative and add up to at most `mix_buffer_count` and less than 2^15.  Without a
     layout the new counts have to fit behind the old offsets.
-/

namespace Suyu.Audio

open Function (update update_self update_of_ne)

/-! ## Specification -/

/-- The mix buffers of a mix. -/
def MixInfo.buffers (m : MixInfo) : Set Int := Set.Ico m.bufferOffset (m.bufferOffset + m.bufferCount)

/-- Disjoint buffers below `mix_buffer_count`, from offsets that have not wrapped. -/
structure BuffersApart (mixBufferCount : Nat) (c : MixContext) : Prop where
  disjoint : ∀ i < c.count, ∀ j < c.count, i ≠ j → (c.mixInfos i).inUse = true →
    (c.mixInfos j).inUse = true → Disjoint (c.mixInfos i).buffers (c.mixInfos j).buffers
  inside : ∀ i < c.count, (c.mixInfos i).inUse = true →
    (c.mixInfos i).buffers ⊆ Set.Ico 0 (mixBufferCount : Int)
  noWrap : ∀ i < c.count, (c.mixInfos i).inUse = true → 0 ≤ (c.mixInfos i).bufferOffset ∧
    0 ≤ (c.mixInfos i).bufferCount ∧
    (c.mixInfos i).bufferOffset + (c.mixInfos i).bufferCount < 2 ^ 15

/-! ## The layout -/

/-- The buffers that the mixes in use of a list need. -/
def usedBuffers (inUse : Nat → Bool) (bufferCount : Nat → Int) (l : List Nat) : Int :=
  ((l.filter inUse).map bufferCount).sum

theorem usedBuffers_cons (inUse : Nat → Bool) (bufferCount : Nat → Int) (i : Nat) (l : List Nat) :
    usedBuffers inUse bufferCount (i :: l) =
      (if inUse i then bufferCount i else 0) + usedBuffers inUse bufferCount l := by
  unfold usedBuffers; cases hi : inUse i <;> simp [hi]

theorem usedBuffers_perm (inUse : Nat → Bool) (bufferCount : Nat → Int) {l l' : List Nat}
    (h : l.Perm l') : usedBuffers inUse bufferCount l = usedBuffers inUse bufferCount l' :=
  ((h.filter inUse).map bufferCount).sum_eq

theorem usedBuffers_congr {inUse inUse' : Nat → Bool} {bufferCount bufferCount' : Nat → Int}
    {l : List Nat} (huse : ∀ i ∈ l, inUse i = inUse' i)
    (hcount : ∀ i ∈ l, inUse i = true → bufferCount i = bufferCount' i) :
    usedBuffers inUse bufferCount l = usedBuffers inUse' bufferCount' l := by
  induction l with
  | nil => rfl
  | cons i l ih =>
    rw [usedBuffers_cons, usedBuffers_cons, huse i List.mem_cons_self,
      ih (fun j hj => huse j (List.mem_cons_of_mem i hj))
        (fun j hj => hcount j (List.mem_cons_of_mem i hj))]
    congr 1
    split
    · rename_i hi
      exact hcount i List.mem_cons_self ((huse i List.mem_cons_self).trans hi)
    · rfl

theorem toS16_eq_self {n : Int} (h : 0 ≤ n) (h' : n < 2 ^ 15) : toS16 n = n := by
  unfold toS16; omega

section Layout

variable {infos : Nat → MixInfo}

/-- The mixes with a mix put at an offset. -/
def placeMix (infos : Nat → MixInfo) (a : Nat) (offset : Int) : Nat → MixInfo :=
  update infos a { infos a with bufferOffset := offset }

theorem placeMix_of_ne {a i : Nat} (h : i ≠ a) (offset : Int) : placeMix infos a offset i = infos i :=
  update_of_ne h _ _

theorem placeMix_self (a : Nat) (offset : Int) :
    placeMix infos a offset a = { infos a with bufferOffset := offset } := update_self _ _ _

theorem layoutMix_used {a : Nat} {offset : Int} (huse : (infos a).inUse = true) :
    MixContext.layoutMix (infos, offset) a =
      (placeMix infos a offset, toS16 (offset + (infos a).bufferCount)) := if_pos huse

theorem layoutMix_unused {a : Nat} {offset : Int} (huse : ¬ (infos a).inUse = true) :
    MixContext.layoutMix (infos, offset) a = (infos, offset) := if_neg huse

theorem layout_not_mem {l : List Nat} {offset : Int} {i : Nat} (hi : i ∉ l) :
    (l.foldl MixContext.layoutMix (infos, offset)).1 i = infos i := by
  induction l generalizing infos offset with
  | nil => rfl
  | cons a l ih =>
    obtain ⟨hne, hrest⟩ := not_or.mp (List.mem_cons.not.mp hi)
    rw [List.foldl_cons]
    by_cases huse : (infos a).inUse = true
    · rw [layoutMix_used huse, ih hrest, placeMix_of_ne hne]
    · rw [layoutMix_unused huse, ih hrest]

theorem layout_inUse (infos : Nat → MixInfo) (l : List Nat) (offset : Int) (i : Nat) :
    ((l.foldl MixContext.layoutMix (infos, offset)).1 i).inUse = (infos i).inUse :=
  (MixInfo.mk.inj (foldl_layoutMix_fields l (infos, offset) i)).2.1

theorem layout_bufferCount (infos : Nat → MixInfo) (l : List Nat) (offset : Int) (i : Nat) :
    ((l.foldl MixContext.layoutMix (infos, offset)).1 i).bufferCount = (infos i).bufferCount :=
  (MixInfo.mk.inj (foldl_layoutMix_fields l (infos, offset) i)).1

/-- The buffers that the mixes in use of a list need. -/
def neededBuffers (infos : Nat → MixInfo) (l : List Nat) : Int :=
  usedBuffers (fun i => (infos i).inUse) (fun i => (infos i).bufferCount) l

theorem neededBuffers_cons (infos : Nat → MixInfo) (a : Nat) (l : List Nat) :
    neededBuffers infos (a :: l) =
      (if (infos a).inUse then (infos a).bufferCount else 0) + neededBuffers infos l :=
  usedBuffers_cons _ _ a l

theorem neededBuffers_placeMix {a : Nat} {l : List Nat} (ha : a ∉ l) (offset : Int) :
    neededBuffers (placeMix infos a offset) l = neededBuffers infos l := by
  have hsame : ∀ i ∈ l, placeMix infos a offset i = infos i :=
    fun i hi => placeMix_of_ne (fun h => ha (h.subst hi)) offset
  exact usedBuffers_congr (fun i hi => congrArg MixInfo.inUse (hsame i hi))
    (fun i hi _ => congrArg MixInfo.bufferCount (hsame i hi))

theorem neededBuffers_nonneg {l : List Nat}
    (hcounts : ∀ i ∈ l, (infos i).inUse = true → 0 ≤ (infos i).bufferCount) :
    0 ≤ neededBuffers infos l := by
  refine List.sum_nonneg ?_
  intro n hn
  obtain ⟨i, hi, rfl⟩ := List.mem_map.mp hn
  obtain ⟨hmem, huse⟩ := List.mem_filter.mp hi
  exact hcounts i hmem huse

/-- Buffers one behind the other from `offset` on, in `used` places. -/
structure LaidOut (infos : Nat → MixInfo) (l : List Nat) (offset used : Int) : Prop where
  within : ∀ i ∈ l, (infos i).inUse = true → offset ≤ (infos i).bufferOffset ∧
    (infos i).bufferOffset + (infos i).bufferCount ≤ offset + used
  apart : ∀ i ∈ l, ∀ j ∈ l, i ≠ j → (infos i).inUse = true → (infos j).inUse = true →
    (infos i).bufferOffset + (infos i).bufferCount ≤ (infos j).bufferOffset ∨
    (infos j).bufferOffset + (infos j).bufferCount ≤ (infos i).bufferOffset

/-- **A layout with enough room** puts the buffers one behind the other. -/
theorem layout_laidOut {l : List Nat} {offset : Int} (hnodup : l.Nodup)
    (hcounts : ∀ i ∈ l, (infos i).inUse = true → 0 ≤ (infos i).bufferCount) (hoffset : 0 ≤ offset)
    (hroom : offset + neededBuffers infos l < 2 ^ 15) :
    LaidOut (l.foldl MixContext.layoutMix (infos, offset)).1 l offset (neededBuffers infos l) := by
  induction l generalizing infos offset with
  | nil => exact ⟨List.forall_mem_nil _, List.forall_mem_nil _⟩
  | cons a l ih =>
    obtain ⟨ha, hl⟩ := List.nodup_cons.mp hnodup
    have hcounts' : ∀ i ∈ l, (infos i).inUse = true → 0 ≤ (infos i).bufferCount :=
      fun i hi => hcounts i (List.mem_cons_of_mem a hi)
    have hnonneg := neededBuffers_nonneg hcounts'
    rw [neededBuffers_cons] at hroom ⊢
    rw [List.foldl_cons]
    by_cases huse : (infos a).inUse = true
    · rw [if_pos huse] at hroom ⊢
      have hcount := hcounts a List.mem_cons_self huse
      -- The rest is laid out behind this mix, which it does not change.
      rw [layoutMix_used huse, toS16_eq_self (by omega) (by omega)]
      have hrest := @ih (placeMix infos a offset) (offset + (infos a).bufferCount) hl
        (fun i hi => by
          rw [placeMix_of_ne (fun h => ha (h.subst hi))]; exact hcounts' i hi)
        (by omega) (by rw [neededBuffers_placeMix ha]; omega)
      rw [neededBuffers_placeMix ha] at hrest
      have hhead := @layout_not_mem (placeMix infos a offset) l
        (offset + (infos a).bufferCount) a ha
      rw [placeMix_self] at hhead
      generalize (List.foldl MixContext.layoutMix (placeMix infos a offset,
        offset + (infos a).bufferCount) l).1 = out at hrest hhead ⊢
      have hheadOffset : (out a).bufferOffset = offset := by rw [hhead]
      have hheadCount : (out a).bufferCount = (infos a).bufferCount := by rw [hhead]
      constructor
      · intro i hi hiuse
        rcases List.mem_cons.mp hi with rfl | hi
        · omega
        · have hi' := hrest.within i hi hiuse
          omega
      · intro i hi j hj hne hiuse hjuse
        rcases List.mem_cons.mp hi with rfl | hi'
        · have hj' := hrest.within j ((List.mem_cons.mp hj).resolve_left hne.symm) hjuse
          omega
        · rcases List.mem_cons.mp hj with rfl | hj'
          · have hbehind := hrest.within i hi' hiuse
            omega
          · exact hrest.apart i hi' j hj' hne hiuse hjuse
    · rw [if_neg huse, zero_add] at hroom ⊢
      rw [layoutMix_unused huse]
      have hrest := ih hl hcounts' hoffset hroom
      have hmem : ∀ i ∈ a :: l,
          ((l.foldl MixContext.layoutMix (infos, offset)).1 i).inUse = true → i ∈ l := by
        intro i hi hiuse
        rcases List.mem_cons.mp hi with rfl | hi
        · exact absurd ((layout_inUse infos l offset i).symm.trans hiuse) huse
        · exact hi
      exact ⟨fun i hi hiuse => hrest.within i (hmem i hi hiuse) hiuse,
        fun i hi j hj hne hiuse hjuse =>
          hrest.apart i (hmem i hi hiuse) j (hmem j hj hjuse) hne hiuse hjuse⟩

/-- **A layout without a wrap** below `limit` needs no more than this. -/
theorem layout_room {l : List Nat} {offset limit : Int} (hnodup : l.Nodup) (hoffset : 0 ≤ offset)
    (hlimit : offset ≤ limit) (hsmall : offset < 2 ^ 15) (hout : ∀ i ∈ l, (infos i).inUse = true →
      0 ≤ (infos i).bufferCount ∧
      ((l.foldl MixContext.layoutMix (infos, offset)).1 i).bufferOffset + (infos i).bufferCount <
        2 ^ 15 ∧
      (0 < (infos i).bufferCount →
        ((l.foldl MixContext.layoutMix (infos, offset)).1 i).bufferOffset +
          (infos i).bufferCount ≤ limit)) :
    offset + neededBuffers infos l ≤ limit ∧ offset + neededBuffers infos l < 2 ^ 15 := by
  induction l generalizing infos offset with
  | nil =>
    show offset + 0 ≤ limit ∧ offset + 0 < 2 ^ 15
    omega
  | cons a l ih =>
    obtain ⟨ha, hl⟩ := List.nodup_cons.mp hnodup
    rw [neededBuffers_cons]
    rw [List.foldl_cons] at hout
    by_cases huse : (infos a).inUse = true
    · rw [if_pos huse]
      rw [layoutMix_used huse] at hout
      obtain ⟨hcount, hfits, hbelow⟩ := hout a List.mem_cons_self huse
      have hhead := @layout_not_mem (placeMix infos a offset) l
        (toS16 (offset + (infos a).bufferCount)) a ha
      rw [placeMix_self] at hhead
      rw [hhead] at hfits hbelow
      dsimp only at hfits hbelow
      have hbelow' : offset + (infos a).bufferCount ≤ limit := by
        rcases Int.lt_or_eq_of_le hcount with hpos | hzero
        · exact hbelow hpos
        · omega
      rw [toS16_eq_self (by omega) hfits] at hout
      have hrest := @ih (placeMix infos a offset) (offset + (infos a).bufferCount) hl (by omega)
        hbelow' hfits ?_
      · rw [neededBuffers_placeMix ha] at hrest
        omega
      · intro i hi
        rw [placeMix_of_ne (fun h => ha (h.subst hi))]
        exact hout i (List.mem_cons_of_mem a hi)
    · rw [if_neg huse, zero_add]
      rw [layoutMix_unused huse] at hout
      exact ih hl hoffset hlimit hsmall fun i hi => hout i (List.mem_cons_of_mem a hi)

end Layout

theorem disjoint_buffers_iff {m m' : MixInfo} (h : 0 ≤ m.bufferCount) (h' : 0 ≤ m'.bufferCount) :
    Disjoint m.buffers m'.buffers ↔ (0 < m.bufferCount → 0 < m'.bufferCount →
      m.bufferOffset + m.bufferCount ≤ m'.bufferOffset ∨
      m'.bufferOffset + m'.bufferCount ≤ m.bufferOffset) := by
  unfold MixInfo.buffers
  rw [Set.Ico_disjoint_Ico]
  omega

theorem buffers_subset_iff {m : MixInfo} {limit : Int} (h : 0 ≤ m.bufferOffset) :
    m.buffers ⊆ Set.Ico 0 limit ↔ (0 < m.bufferCount → m.bufferOffset + m.bufferCount ≤ limit) := by
  unfold MixInfo.buffers
  rcases Int.lt_or_le 0 m.bufferCount with hpos | hneg
  · rw [Set.Ico_subset_Ico_iff (by omega)]
    constructor
    · intro hsub _
      exact hsub.2
    · intro hle; exact ⟨h, hle hpos⟩
  · rw [Set.Ico_eq_empty (by omega)]
    constructor
    · intro _ hpos
      omega
    · intro _; exact Set.empty_subset _

/-- **The layout** of all mixes is right exactly if their buffers fit. -/
theorem layout_iff {c : MixContext} {mixBufferCount : Nat}
    (hperm : c.sortedMixInfos.Perm (List.range c.count)) :
    BuffersApart mixBufferCount c.calcMixBufferOffset ↔
      (∀ i < c.count, (c.mixInfos i).inUse = true → 0 ≤ (c.mixInfos i).bufferCount) ∧
      neededBuffers c.mixInfos (List.range c.count) ≤ mixBufferCount ∧
      neededBuffers c.mixInfos (List.range c.count) < 2 ^ 15 := by
  have hnodup : c.sortedMixInfos.Nodup := hperm.nodup_iff.mpr List.nodup_range
  have hmem : ∀ i, i ∈ c.sortedMixInfos ↔ i < c.count :=
    fun i => hperm.mem_iff.trans List.mem_range
  have hneeded : neededBuffers c.mixInfos (List.range c.count) =
      neededBuffers c.mixInfos c.sortedMixInfos := usedBuffers_perm _ _ hperm.symm
  have huse := layout_inUse c.mixInfos c.sortedMixInfos 0
  have hcount := layout_bufferCount c.mixInfos c.sortedMixInfos 0
  have hinfos : c.calcMixBufferOffset.mixInfos =
    (c.sortedMixInfos.foldl MixContext.layoutMix (c.mixInfos, 0)).1 := rfl
  rw [hneeded]
  constructor
  · intro h
    have hcounts : ∀ i < c.count, (c.mixInfos i).inUse = true → 0 ≤ (c.mixInfos i).bufferCount := by
      intro i hi hiuse
      have := (h.noWrap i hi ((huse i).trans hiuse)).2.1
      rw [hinfos, hcount i] at this; exact this
    refine ⟨hcounts, ?_⟩
    have hroom := @layout_room c.mixInfos c.sortedMixInfos 0 mixBufferCount hnodup
      (Int.le_refl 0) (Int.natCast_nonneg _) (by decide) ?_
    · rw [zero_add] at hroom
      exact hroom
    · intro i hi hiuse
      have hi' : i < c.count := (hmem i).mp hi
      obtain ⟨hoffset, -, hsmall⟩ := h.noWrap i hi' ((huse i).trans hiuse)
      have hinside := (buffers_subset_iff hoffset).mp (h.inside i hi' ((huse i).trans hiuse))
      rw [hinfos, hcount i] at hsmall hinside
      exact ⟨hcounts i hi' hiuse, hsmall, hinside⟩
  · rintro ⟨hcounts, hbelow, hsmall⟩
    have hlaid := @layout_laidOut c.mixInfos c.sortedMixInfos 0 hnodup
      (fun i hi => hcounts i ((hmem i).mp hi)) (Int.le_refl 0) (by omega)
    rw [← hinfos] at hlaid
    have hcounts' : ∀ i < c.count, (c.calcMixBufferOffset.mixInfos i).inUse = true →
        0 ≤ (c.calcMixBufferOffset.mixInfos i).bufferCount := by
      intro i hi hiuse
      rw [hinfos, hcount i]; exact hcounts i hi ((huse i).symm.trans hiuse)
    constructor
    · intro i hi j hj hne hiuse hjuse
      refine (disjoint_buffers_iff (hcounts' i hi hiuse) (hcounts' j hj hjuse)).mpr fun _ _ => ?_
      exact hlaid.apart i ((hmem i).mpr hi) j ((hmem j).mpr hj) hne hiuse hjuse
    · intro i hi hiuse
      obtain ⟨hlow, hhigh⟩ := hlaid.within i ((hmem i).mpr hi) hiuse
      refine (buffers_subset_iff hlow).mpr fun _ => ?_
      omega
    · intro i hi hiuse
      obtain ⟨hlow, hhigh⟩ := hlaid.within i ((hmem i).mpr hi) hiuse
      exact ⟨hlow, hcounts' i hi hiuse, by omega⟩

/-! ## What a call is given -/

/-- The last parameter for a mix. -/
def givenParam (behavior : BehaviorInfo) (params : List InParameter) (i : Nat) :
    Option InParameter :=
  ((params.zipIdx.filter fun p => targetIndex behavior p.2 p.1 = i).map (·.1)).getLast?

/-- The use flag of a mix after a call. -/
def inUseAfter (behavior : BehaviorInfo) (c : MixContext) (params : List InParameter) (i : Nat) :
    Bool :=
  ((givenParam behavior params i).map (·.inUse)).getD (c.mixInfos i).inUse

/-- The buffer count of a mix that is in use after a call. -/
def bufferCountAfter (behavior : BehaviorInfo) (c : MixContext) (params : List InParameter)
    (i : Nat) : Int :=
  ((givenParam behavior params i).map fun p => toS16 p.bufferCount).getD (c.mixInfos i).bufferCount

/-- A parameter with another use flag, another destination, or a splitter with a new connection. -/
def relinks (behavior : BehaviorInfo) (splitter : SplitterContext) (m : MixInfo)
    (param : InParameter) : Bool :=
  decide (m.inUse ≠ param.inUse) || (param.inUse && (decide (m.dstMixId ≠ param.destMixId) ||
    (behavior.isSplitterSupported && (decide (m.dstSplitterId ≠ param.destSplitterId) ||
      (decide (m.dstSplitterId ≠ unusedSplitterId) && splitter.hasNewConnection m.dstSplitterId)))))

/-- Some parameter relinks its mix, as the parameters before it have left that mix. -/
def Relinks (behavior : BehaviorInfo) (splitter : SplitterContext) (c : MixContext)
    (params : List InParameter) : Prop :=
  ∃ before param after, params = before ++ param :: after ∧
    relinks behavior splitter ((c.writeMixes behavior splitter before).1.mixInfos
      (targetIndex behavior before.length param)) param = true

theorem givenParam_concat (behavior : BehaviorInfo) (params : List InParameter)
    (param : InParameter) (i : Nat) :
    givenParam behavior (params ++ [param]) i =
      if targetIndex behavior params.length param = i then some param
      else givenParam behavior params i := by
  unfold givenParam
  rw [List.zipIdx_append, List.filter_append, List.map_append]
  by_cases h : targetIndex behavior params.length param = i
  · rw [if_pos h]
    simp [h]
  · rw [if_neg h]; simp [h]

theorem writeMixes_concat (c : MixContext) (behavior : BehaviorInfo) (splitter : SplitterContext)
    (params : List InParameter) (param : InParameter) :
    c.writeMixes behavior splitter (params ++ [param]) =
      MixContext.updateMix behavior splitter (c.writeMixes behavior splitter params)
        (params.length, param) := by
  unfold MixContext.writeMixes
  rw [List.zipIdx_append, List.foldl_append]
  simp

theorem relinks_concat (behavior : BehaviorInfo) (splitter : SplitterContext) (c : MixContext)
    (params : List InParameter) (param : InParameter) :
    Relinks behavior splitter c (params ++ [param]) ↔ Relinks behavior splitter c params ∨
      relinks behavior splitter ((c.writeMixes behavior splitter params).1.mixInfos
        (targetIndex behavior params.length param)) param = true := by
  constructor
  · rintro ⟨before, q, after, heq, hq⟩
    rcases List.eq_nil_or_concat after with rfl | ⟨after, r, rfl⟩
    · obtain ⟨rfl, hsame⟩ := List.append_inj' heq rfl
      cases hsame
      exact Or.inr hq
    · rw [List.concat_eq_append, ← List.cons_append, ← List.append_assoc] at heq
      obtain ⟨rfl, -⟩ := List.append_inj' heq rfl
      exact Or.inl ⟨before, q, after, rfl, hq⟩
  · rintro (⟨before, q, after, rfl, hq⟩ | hparam)
    · exact ⟨before, q, after ++ [param], by simp, hq⟩
    · exact ⟨params, param, [], rfl, hparam⟩

theorem update_fields (m : MixInfo) (edges : Nat → Nat → Bool) (param : InParameter)
    (splitter : SplitterContext) (behavior : BehaviorInfo) :
    (m.update edges param splitter behavior).1.bufferCount = toS16 param.bufferCount ∧
    (m.update edges param splitter behavior).1.inUse = param.inUse ∧
    (m.update edges param splitter behavior).1.bufferOffset = m.bufferOffset ∧
    (m.update edges param splitter behavior).2.2 = (decide (m.dstMixId ≠ param.destMixId) ||
      (behavior.isSplitterSupported && (decide (m.dstSplitterId ≠ param.destSplitterId) ||
        (decide (m.dstSplitterId ≠ unusedSplitterId) &&
          splitter.hasNewConnection m.dstSplitterId)))) := by
  unfold MixInfo.update
  dsimp only
  split
  · rename_i hsupported
    unfold MixInfo.updateConnection
    dsimp only
    split
    · rename_i hsame
      obtain ⟨hmix, hsplitter, hnew⟩ := hsame
      refine ⟨rfl, rfl, rfl, ?_⟩
      rw [hnew]
      simp [hmix, hsplitter]
    · rename_i hchanged
      refine ⟨rfl, rfl, rfl, ?_⟩
      symm
      by_contra hfalse
      apply hchanged
      simp only [Bool.not_eq_true, Bool.or_eq_false_iff, Bool.and_eq_false_iff,
        decide_eq_false_iff_not, not_not, hsupported, Bool.true_eq_false, false_or] at hfalse
      obtain ⟨hmix, hsplitter, hnew⟩ := hfalse
      refine ⟨hmix, hsplitter, ?_⟩
      rw [Bool.and_eq_false_iff, decide_eq_false_iff_not]; simpa using hnew
  · rename_i hsupported
    refine ⟨rfl, rfl, rfl, ?_⟩
    rw [Bool.eq_false_of_not_eq_true hsupported, Bool.false_and, Bool.or_false]

/-- What the second loop leaves. -/
structure Given (behavior : BehaviorInfo) (splitter : SplitterContext) (c : MixContext)
    (params : List InParameter) (s : MixContext × Bool) : Prop where
  count : s.1.count = c.count
  order : s.1.sortedMixInfos = c.sortedMixInfos
  offset : ∀ i, (s.1.mixInfos i).bufferOffset = (c.mixInfos i).bufferOffset
  inUse : ∀ i, (s.1.mixInfos i).inUse = inUseAfter behavior c params i
  bufferCount : ∀ i, (s.1.mixInfos i).inUse = true →
    (s.1.mixInfos i).bufferCount = bufferCountAfter behavior c params i
  dirty : s.2 = true ↔ Relinks behavior splitter c params

section Calls

variable {behavior : BehaviorInfo} {splitter : SplitterContext} {c : MixContext}
variable {params : List InParameter}

theorem updateMix_spec (s : MixContext × Bool) (k : Nat) (param : InParameter) :
    ∃ info edges, MixContext.updateMix behavior splitter s (k, param) =
        ({ s.1 with
          mixInfos := update s.1.mixInfos (targetIndex behavior k param) info
          edgeMatrix := edges },
          s.2 || relinks behavior splitter (s.1.mixInfos (targetIndex behavior k param)) param) ∧
      info.inUse = param.inUse ∧
      info.bufferOffset = (s.1.mixInfos (targetIndex behavior k param)).bufferOffset ∧
      (param.inUse = true → info.bufferCount = toS16 param.bufferCount) := by
  obtain ⟨t, ht⟩ : ∃ t, targetIndex behavior k param = t := ⟨_, rfl⟩
  rw [ht]
  unfold MixContext.updateMix relinks
  dsimp only
  rw [show (if behavior.isMixInParameterDirtyOnlyUpdateSupported = true then param.mixId.toNat
    else k) = t from ht]
  by_cases huse : param.inUse = true
  · rw [if_pos huse]
    have hfields := update_fields { s.1.mixInfos t with inUse := param.inUse } s.1.edgeMatrix
      param splitter behavior
    generalize MixInfo.update { s.1.mixInfos t with inUse := param.inUse } s.1.edgeMatrix
      param splitter behavior = u at hfields
    obtain ⟨info, edges, required⟩ := u
    obtain ⟨hcount, hinUse, hoffset, hrequired⟩ := hfields
    refine ⟨info, edges, ?_, hinUse, hoffset, fun _ => hcount⟩
    dsimp only at hrequired ⊢
    rw [hrequired, huse, Bool.true_and, Bool.or_assoc]
  · rw [if_neg huse]
    refine ⟨{ s.1.mixInfos t with inUse := param.inUse }, s.1.edgeMatrix, ?_, rfl, rfl,
      fun h => absurd h huse⟩
    rw [Bool.eq_false_of_not_eq_true huse, Bool.false_and, Bool.or_false]

theorem writeMixes_given : Given behavior splitter c params
    (c.writeMixes behavior splitter params) := by
  induction params using List.reverseRecOn with
  | nil =>
    refine ⟨rfl, rfl, fun _ => rfl, fun _ => rfl, fun _ _ => rfl, ?_⟩
    constructor
    · intro h
      cases h
    · rintro ⟨before, param, after, heq, -⟩
      exact absurd heq.symm (List.append_ne_nil_of_right_ne_nil _ (List.cons_ne_nil _ _))
  | append_singleton params param ih =>
    rw [writeMixes_concat]
    obtain ⟨info, edges, heq, hinUse, hoffset, hcount⟩ :=
      @updateMix_spec behavior splitter (c.writeMixes behavior splitter params) params.length param
    rw [heq]
    obtain ⟨t, ht⟩ : ∃ t, targetIndex behavior params.length param = t := ⟨_, rfl⟩
    rw [ht] at hoffset ⊢
    refine ⟨ih.count, ih.order, ?_, ?_, ?_, ?_⟩
    · intro i
      by_cases hi : i = t
      · subst hi
        simp only [update_self]
        exact hoffset.trans (ih.offset i)
      · simp only [update_of_ne hi]; exact ih.offset i
    · intro i
      unfold inUseAfter
      rw [givenParam_concat, ht]
      by_cases hi : i = t
      · subst hi
        rw [if_pos rfl]
        simp only [update_self]
        exact hinUse
      · simp only [update_of_ne hi]
        rw [if_neg (Ne.symm hi)]; exact ih.inUse i
    · intro i
      unfold bufferCountAfter
      rw [givenParam_concat, ht]
      by_cases hi : i = t
      · subst hi
        rw [if_pos rfl]
        simp only [update_self]
        rw [hinUse]
        exact hcount
      · simp only [update_of_ne hi]
        rw [if_neg (Ne.symm hi)]; exact ih.bufferCount i
    · rw [relinks_concat, ← ih.dirty, ht]; exact Bool.or_eq_true_iff

/-! ## Calls that keep the buffers apart -/

/-- The condition on a call.  Where it sorts, the buffers of all mixes that are then in use fit; where
    it does not, the new counts fit behind the offsets that stay. -/
structure Fits (behavior : BehaviorInfo) (splitter : SplitterContext) (mixBufferCount : Nat)
    (c : MixContext) (params : List InParameter) : Prop where
  sorted : Relinks behavior splitter c params →
    (∀ i < c.count, inUseAfter behavior c params i = true →
      0 ≤ bufferCountAfter behavior c params i) ∧
    usedBuffers (inUseAfter behavior c params) (bufferCountAfter behavior c params)
      (List.range c.count) ≤ mixBufferCount ∧
    usedBuffers (inUseAfter behavior c params) (bufferCountAfter behavior c params)
      (List.range c.count) < 2 ^ 15
  kept : ¬ Relinks behavior splitter c params → ∀ i < c.count, (c.mixInfos i).inUse = true →
    0 ≤ bufferCountAfter behavior c params i ∧
    (c.mixInfos i).bufferOffset + bufferCountAfter behavior c params i < 2 ^ 15 ∧
    (0 < bufferCountAfter behavior c params i →
      (c.mixInfos i).bufferOffset + bufferCountAfter behavior c params i ≤ mixBufferCount ∧
      ∀ j < c.count, j ≠ i → (c.mixInfos j).inUse = true → 0 < bufferCountAfter behavior c params j →
        (c.mixInfos i).bufferOffset ≤ (c.mixInfos j).bufferOffset →
          (c.mixInfos i).bufferOffset + bufferCountAfter behavior c params i ≤
            (c.mixInfos j).bufferOffset)

/-- Every mix stands once in the order. -/
def Ordered (c : MixContext) : Prop := c.sortedMixInfos.Perm (List.range c.count)

variable {mixBufferCount : Nat}

theorem updateMixes_cases {sorter : Sorter} {c' : MixContext} (hordered : Ordered c)
    (hc : c.updateMixes behavior splitter sorter mixBufferCount params = some c') :
    (¬ Relinks behavior splitter c params ∧ c' = (c.writeMixes behavior splitter params).1) ∨
    (Relinks behavior splitter c params ∧ ∃ e : MixContext, c' = e.calcMixBufferOffset ∧ Ordered e ∧
      e.count = c.count ∧
      (∀ i, (e.mixInfos i).inUse = ((c.writeMixes behavior splitter params).1.mixInfos i).inUse) ∧
      (∀ i, (e.mixInfos i).bufferCount =
        ((c.writeMixes behavior splitter params).1.mixInfos i).bufferCount)) := by
  have hgiven := @writeMixes_given behavior splitter c params
  unfold MixContext.updateMixes at hc
  split at hc
  · cases hc
  generalize c.writeMixes behavior splitter params = w at hgiven hc
  obtain ⟨d, dirty⟩ := w
  dsimp only at hc
  have hdcount : d.count = c.count := hgiven.count
  have horder : d.sortedMixInfos = c.sortedMixInfos := hgiven.order
  split at hc
  · rename_i hdirty
    obtain rfl := Option.some.inj hc
    exact Or.inl ⟨fun h => hdirty (hgiven.dirty.mpr h), rfl⟩
  · rename_i hdirty
    refine Or.inr ⟨hgiven.dirty.mp (not_not.mp hdirty), ?_⟩
    split at hc
    · -- With splitters the depth-first search has found all of them.
      rename_i husing
      unfold MixContext.tSortInfo at hc
      rw [if_neg (not_not.mpr husing.2)] at hc
      obtain ⟨results, hresults, rfl⟩ := Option.map_eq_some_iff.mp hc
      have hperm := tsort_perm hresults
      have hlen : results.length = d.count := by
        rw [hperm.length_eq, List.length_range]
      have hsorted : d.sortedMixInfos.length = d.count := by
        rw [horder, hdcount, List.Perm.length_eq hordered, List.length_range]
      refine ⟨_, rfl, ?_, hdcount, fun _ => rfl, fun _ => rfl⟩
      show (results.reverse.take (min d.count results.length) ++
        d.sortedMixInfos.drop (min d.count results.length)).Perm (List.range d.count)
      rw [hlen, Nat.min_self, List.take_of_length_le (by rw [List.length_reverse, hlen]),
        List.drop_of_length_le (by rw [hsorted]), List.append_nil]
      exact (List.reverse_perm results).trans hperm
    · obtain rfl := Option.some.inj hc
      have hfields := foldl_updateDistance_fields d.count (List.range d.count)
        (resetDistances d.mixInfos)
      refine ⟨_, rfl, sorter.perm _ _, hdcount, ?_, ?_⟩
      · intro i
        exact (MixInfo.mk.inj (hfields i)).2.1
      · intro i; exact (MixInfo.mk.inj (hfields i)).1

theorem Ordered.updateMixes {sorter : Sorter} {c' : MixContext} (h : Ordered c)
    (hc : c.updateMixes behavior splitter sorter mixBufferCount params = some c') : Ordered c' := by
  have hgiven := @writeMixes_given behavior splitter c params
  rcases updateMixes_cases h hc with ⟨-, rfl⟩ | ⟨-, e, rfl, he, -, -, -⟩
  · unfold Ordered
    rw [hgiven.order, hgiven.count]
    exact h
  · exact he

theorem inUse_of_not_relinks (h : ¬ Relinks behavior splitter c params) (i : Nat) :
    ((c.writeMixes behavior splitter params).1.mixInfos i).inUse = (c.mixInfos i).inUse := by
  induction params using List.reverseRecOn with
  | nil => rfl
  | append_singleton params param ih =>
    rw [relinks_concat, not_or] at h
    rw [writeMixes_concat]
    obtain ⟨info, edges, heq, hinUse, -, -⟩ :=
      @updateMix_spec behavior splitter (c.writeMixes behavior splitter params) params.length param
    rw [heq]
    obtain ⟨t, ht⟩ : ∃ t, targetIndex behavior params.length param = t := ⟨_, rfl⟩
    rw [ht] at h ⊢
    dsimp only
    by_cases hi : i = t
    · subst hi
      rw [update_self, hinUse, ← ih h.1]
      have hsame := Bool.eq_false_of_not_eq_true h.2
      unfold relinks at hsame
      exact (not_not.mp (of_decide_eq_false (Bool.or_eq_false_iff.mp hsame).1)).symm
    · rw [update_of_ne hi]; exact ih h.1

/-- **One call** from a state with its buffers apart: the buffers are apart after it exactly if it
    fits. -/
theorem updateMixes_apart_iff {sorter : Sorter} {c' : MixContext} (hordered : Ordered c)
    (hapart : BuffersApart mixBufferCount c)
    (hc : c.updateMixes behavior splitter sorter mixBufferCount params = some c') :
    BuffersApart mixBufferCount c' ↔ Fits behavior splitter mixBufferCount c params := by
  have hgiven := @writeMixes_given behavior splitter c params
  rcases updateMixes_cases hordered hc with
    ⟨hkeep, rfl⟩ | ⟨hrelink, e, rfl, he, hcount, heuse, hecount⟩
  · have huse := inUse_of_not_relinks hkeep
    have hcount : ∀ i, (c.mixInfos i).inUse = true →
        ((c.writeMixes behavior splitter params).1.mixInfos i).bufferCount =
          bufferCountAfter behavior c params i :=
      fun i hiuse => hgiven.bufferCount i ((huse i).trans hiuse)
    have hoffset := hgiven.offset
    have hnonneg : ∀ i < c.count, (c.mixInfos i).inUse = true → 0 ≤ (c.mixInfos i).bufferOffset :=
      fun i hi hiuse => (hapart.noWrap i hi hiuse).1
    have hdcount := hgiven.count
    generalize (c.writeMixes behavior splitter params).1 = d at huse hcount hoffset hdcount ⊢
    constructor
    · intro h
      refine ⟨fun hrelink => absurd hrelink hkeep, fun _ i hi hiuse => ?_⟩
      have hi' : i < d.count := by omega
      have hiuse' := (huse i).trans hiuse
      obtain ⟨hlow, hicount, hsmall⟩ := h.noWrap i hi' hiuse'
      have hinside := (buffers_subset_iff hlow).mp (h.inside i hi' hiuse')
      have hic := hcount i hiuse
      have hio := hoffset i
      refine ⟨by omega, by omega, fun hpos => ⟨by omega, ?_⟩⟩
      intro j hj hne hjuse hjpos hle
      have hjuse' := (huse j).trans hjuse
      have hjc := hcount j hjuse
      have hjo := hoffset j
      have hdisjoint := (disjoint_buffers_iff hicount (by omega)).mp
        (h.disjoint i hi' j (by omega) hne.symm hiuse' hjuse') (by omega) (by omega)
      omega
    · intro h
      have hkept := h.kept hkeep
      constructor
      · intro i hi j hj hne hiuse hjuse
        rw [huse] at hiuse hjuse
        obtain ⟨hi1, -, hi2⟩ := hkept i (by omega) hiuse
        obtain ⟨hj1, -, hj2⟩ := hkept j (by omega) hjuse
        have hic := hcount i hiuse
        have hjc := hcount j hjuse
        refine (disjoint_buffers_iff (by omega) (by omega)).mpr ?_
        rw [hoffset i, hoffset j, hic, hjc]
        intro hipos hjpos
        -- The mix with the smaller offset ends before the other begins.
        rcases Int.le_total (c.mixInfos i).bufferOffset (c.mixInfos j).bufferOffset with hle | hle
        · exact Or.inl ((hi2 hipos).2 j (by omega) hne.symm hjuse hjpos hle)
        · exact Or.inr ((hj2 hjpos).2 i (by omega) hne hiuse hipos hle)
      · intro i hi hiuse
        rw [huse] at hiuse
        have hlow := hnonneg i (by omega) hiuse
        obtain ⟨-, -, hi2⟩ := hkept i (by omega) hiuse
        refine (buffers_subset_iff (by rw [hoffset i]; exact hlow)).mpr ?_
        rw [hoffset i, hcount i hiuse]
        exact fun hpos => (hi2 hpos).1
      · intro i hi hiuse
        rw [huse] at hiuse
        obtain ⟨hi1, hi2, -⟩ := hkept i (by omega) hiuse
        rw [hoffset i, hcount i hiuse]; exact ⟨hnonneg i (by omega) hiuse, hi1, hi2⟩
  · -- The counts of the layout are those that the call leaves.
    have hneeded : neededBuffers e.mixInfos (List.range e.count) =
        usedBuffers (inUseAfter behavior c params) (bufferCountAfter behavior c params)
          (List.range c.count) := by
      rw [hcount]
      refine usedBuffers_congr ?_ ?_
      · intro i _
        exact (heuse i).trans (hgiven.inUse i)
      · intro i _ hiuse; exact (hecount i).trans (hgiven.bufferCount i ((heuse i).symm.trans hiuse))
    have hcounts : (∀ i < e.count, (e.mixInfos i).inUse = true →
        0 ≤ (e.mixInfos i).bufferCount) ↔
        ∀ i < c.count, inUseAfter behavior c params i = true →
          0 ≤ bufferCountAfter behavior c params i := by
      rw [hcount]
      refine forall₂_congr fun i _ => ?_
      rw [(heuse i).trans (hgiven.inUse i), hecount i]
      refine forall_congr' fun hiuse => ?_
      rw [hgiven.bufferCount i ((hgiven.inUse i).trans hiuse)]
    rw [layout_iff he, hneeded, hcounts]
    exact ⟨fun h => ⟨fun _ => h, fun hnot => absurd hrelink hnot⟩, fun h => h.sorted hrelink⟩

end Calls

/-! ## Runs -/

/-- The contexts of the runs of successful calls of a kind, with or without splitters. -/
inductive BufferRun (behavior : BehaviorInfo) (mixBufferCount : Nat)
    (kind : MixContext → SplitterContext → List InParameter → Prop) : MixContext → Prop
  | initial (count : Nat) : BufferRun behavior mixBufferCount kind (.initial count)
  | call {c c' : MixContext} {splitter : SplitterContext} {sorter : Sorter}
      {params : List InParameter} (h : BufferRun behavior mixBufferCount kind c)
      (hvalid : ValidParams behavior c.count params) (hkind : kind c splitter params)
      (hc : c.updateMixes behavior splitter sorter mixBufferCount params = some c') :
      BufferRun behavior mixBufferCount kind c'

theorem BufferRun.ordered {behavior : BehaviorInfo} {mixBufferCount : Nat}
    {kind : MixContext → SplitterContext → List InParameter → Prop} {c : MixContext}
    (h : BufferRun behavior mixBufferCount kind c) : Ordered c := by
  induction h with
  | initial count => exact List.Perm.refl _
  | call _ _ _ hc ih => exact ih.updateMixes hc

theorem buffersApart_initial (mixBufferCount count : Nat) :
    BuffersApart mixBufferCount (.initial count) where
  disjoint := fun _ _ _ _ _ h => (by cases h)
  inside := fun _ _ h => (by cases h)
  noWrap := fun _ _ h => (by cases h)

theorem BufferRun.apart {behavior : BehaviorInfo} {mixBufferCount : Nat} {c : MixContext}
    (h : BufferRun behavior mixBufferCount
      (fun c splitter params => Fits behavior splitter mixBufferCount c params) c) :
    BuffersApart mixBufferCount c := by
  induction h with
  | initial count => exact buffersApart_initial mixBufferCount count
  | call hrun _ hfits hc ih => exact (updateMixes_apart_iff hrun.ordered ih hc).mpr hfits

/-- **The buffers of the mixes**: runs of calls that fit keep them apart, and in any run the first call
    after which they are not apart is one that does not fit. -/
theorem mixBuffers_exact (behavior : BehaviorInfo) (mixBufferCount : Nat) :
    (∀ c, BufferRun behavior mixBufferCount
      (fun c splitter params => Fits behavior splitter mixBufferCount c params) c →
        BuffersApart mixBufferCount c) ∧
    (∀ c c' splitter sorter params, BufferRun behavior mixBufferCount (fun _ _ _ => True) c →
      BuffersApart mixBufferCount c → ValidParams behavior c.count params →
      c.updateMixes behavior splitter sorter mixBufferCount params = some c' →
        (BuffersApart mixBufferCount c' ↔ Fits behavior splitter mixBufferCount c params)) := by
  refine ⟨fun c h => h.apart, ?_⟩
  intro c c' splitter sorter params hrun hapart _ hc
  exact updateMixes_apart_iff hrun.ordered hapart hc

/-! ## A run that overlaps -/

/-- Two mixes before the final one, with a number of buffers for the last. -/
def threeMixes (bufferCount : Nat) : List InParameter :=
  [plainMix 0 unusedMixId, plainMix 1 0, ⟨bufferCount, true, 2, 0, unusedSplitterId⟩]

theorem threeMixes_valid (bufferCount : Nat) :
    ValidParams plainBehavior 3 (threeMixes bufferCount) where
  full := by
    refine fun _ => ⟨rfl, ?_⟩
    intro i param hget
    have hi : i < 3 := (List.getElem?_eq_some_iff.mp hget).1
    interval_cases i <;> (cases hget; exact fun _ => rfl)
  dirty := fun h => (by cases h)
  dest := by
    intro param hmem _
    fin_cases hmem
    · exact Or.inl rfl
    · exact Or.inr ⟨0, by decide, rfl⟩
    · exact Or.inr ⟨0, by decide, rfl⟩

/-- What the buffers of three mixes are. -/
def bufferTable (c : MixContext) : Nat × List (Bool × Int × Int) :=
  (c.count, (List.range 3).map fun i =>
    ((c.mixInfos i).inUse, (c.mixInfos i).bufferOffset, (c.mixInfos i).bufferCount))

theorem threeMixes_tables :
    (((MixContext.initial 3).updateMixes plainBehavior noSplitters (insertionSorter true) 24
      (threeMixes 1)).bind fun c => (c.updateMixes plainBehavior noSplitters (insertionSorter true) 24
        (threeMixes 3)).map fun c' => [bufferTable c, bufferTable c']) =
      some [(3, [(true, 2, 1), (true, 1, 1), (true, 0, 1)]),
        (3, [(true, 2, 1), (true, 1, 1), (true, 0, 3)])] := by
  decide +kernel

theorem apart_of_table {c : MixContext}
    (h : bufferTable c = (3, [(true, 2, 1), (true, 1, 1), (true, 0, 1)])) : BuffersApart 24 c := by
  obtain ⟨hcount, hmixes⟩ := Prod.mk.inj h
  have hget : ∀ i < 3, (c.mixInfos i).bufferOffset = 2 - i ∧ (c.mixInfos i).bufferCount = 1 := by
    intro i hi
    have hi' := congrArg (·[i]?) hmixes
    interval_cases i <;> simpa using (Prod.mk.inj (Option.some.inj hi')).2
  constructor
  · intro i hi j hj hne _ _
    obtain ⟨hio, hic⟩ := hget i (by omega)
    obtain ⟨hjo, hjc⟩ := hget j (by omega)
    refine (disjoint_buffers_iff (by omega) (by omega)).mpr ?_
    omega
  · intro i hi _
    obtain ⟨hio, hic⟩ := hget i (by omega)
    refine (buffers_subset_iff (by omega)).mpr ?_
    omega
  · intro i hi _
    obtain ⟨hio, hic⟩ := hget i (by omega); omega

theorem not_apart_of_table {c : MixContext}
    (h : bufferTable c = (3, [(true, 2, 1), (true, 1, 1), (true, 0, 3)])) : ¬ BuffersApart 24 c := by
  obtain ⟨hcount, hmixes⟩ := Prod.mk.inj h
  have h1 : ((c.mixInfos 1).inUse, (c.mixInfos 1).bufferOffset, (c.mixInfos 1).bufferCount) =
    (true, 1, 1) := Option.some.inj (congrArg (·[1]?) hmixes)
  have h2 : ((c.mixInfos 2).inUse, (c.mixInfos 2).bufferOffset, (c.mixInfos 2).bufferCount) =
    (true, 0, 3) := Option.some.inj (congrArg (·[2]?) hmixes)
  simp only [Prod.mk.injEq] at h1 h2
  intro hapart
  have hdisjoint := (disjoint_buffers_iff (by omega) (by omega)).mp
    (hapart.disjoint 1 (by omega) 2 (by omega) (by decide) h1.1 h2.1)
  omega

/-- After two successful full updates the buffers of the mixes 1 and 2 overlap. -/
theorem not_buffersApart : ¬ ∀ behavior mixBufferCount c,
    BufferRun behavior mixBufferCount (fun _ _ _ => True) c → BuffersApart mixBufferCount c := by
  intro h
  obtain ⟨c, hc, hc'⟩ := Option.bind_eq_some_iff.mp threeMixes_tables
  obtain ⟨c', hc', htables⟩ := Option.map_eq_some_iff.mp hc'
  obtain ⟨htable, hrest⟩ := List.cons.inj htables
  have htable' := (List.cons.inj hrest).1
  have hcount : c.count = 3 := (Prod.mk.inj htable).1
  refine not_apart_of_table htable' (h plainBehavior 24 c' ?_)
  refine .call (.call (.initial 3) (threeMixes_valid 1) trivial hc) ?_ trivial hc'
  rw [hcount]
  exact threeMixes_valid 3

/-- The first of these calls fits and the second does not. -/
theorem mixBuffers_exact_three : ∃ c c',
    (MixContext.initial 3).updateMixes plainBehavior noSplitters (insertionSorter true) 24
      (threeMixes 1) = some c ∧
    c.updateMixes plainBehavior noSplitters (insertionSorter true) 24 (threeMixes 3) = some c' ∧
    BuffersApart 24 c ∧ Fits plainBehavior noSplitters 24 (.initial 3) (threeMixes 1) ∧
    ¬ Fits plainBehavior noSplitters 24 c (threeMixes 3) := by
  obtain ⟨c, hc, hc'⟩ := Option.bind_eq_some_iff.mp threeMixes_tables
  obtain ⟨c', hc', htables⟩ := Option.map_eq_some_iff.mp hc'
  obtain ⟨htable, hrest⟩ := List.cons.inj htables
  have htable' := (List.cons.inj hrest).1
  have hcount : c.count = 3 := (Prod.mk.inj htable).1
  obtain ⟨hruns, hcalls⟩ := mixBuffers_exact plainBehavior 24
  have hfits := (hcalls (.initial 3) c noSplitters _ (threeMixes 1) (.initial 3)
    (buffersApart_initial 24 3) (threeMixes_valid 1) hc).mp (apart_of_table htable)
  have hrun : BufferRun plainBehavior 24 (fun _ _ _ => True) c :=
    .call (.initial 3) (threeMixes_valid 1) trivial hc
  have hapart : BuffersApart 24 c := hruns c (.call (.initial 3) (threeMixes_valid 1) hfits hc)
  refine ⟨c, c', hc, hc', hapart, hfits, fun hfits' => not_apart_of_table htable' ?_⟩
  exact (hcalls c c' noSplitters _ (threeMixes 3) hrun hapart (hcount ▸ threeMixes_valid 3)
    hc').mpr hfits'

end Suyu.Audio
