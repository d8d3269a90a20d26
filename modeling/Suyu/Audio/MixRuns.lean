import Mathlib
import Suyu.Audio.MixDistances

/-
  Runs of `UpdateMixes` without splitters: the order of the mixes.

  1. **Runs (`Run`)** - any number of successful calls, full or dirty-only, with ids that name mixes.

  2. **The crux (`Sorted`)** - a call that does not sort has changed no link and no use flag, so that
     the distances and the order of the last sort are still those of the links.
-/

namespace Suyu.Audio

open Function (update update_self update_of_ne)

/-! ## Inputs -/

/-- The mix a parameter is for. -/
def targetIndex (behavior : BehaviorInfo) (i : Nat) (param : InParameter) : Nat :=
  if behavior.isMixInParameterDirtyOnlyUpdateSupported then param.mixId.toNat else i

/-- Parameters whose ids name mixes: one for every mix in its own place, or the dirty ones. -/
structure ValidParams (behavior : BehaviorInfo) (count : Nat) (params : List InParameter) :
    Prop where
  full : behavior.isMixInParameterDirtyOnlyUpdateSupported = false → params.length = count ∧
    ∀ (i : Nat) (param : InParameter), params[i]? = some param → param.inUse = true → param.mixId = (i : Int)
  dirty : behavior.isMixInParameterDirtyOnlyUpdateSupported = true →
    ∀ param ∈ params, ∃ a : Nat, a < count ∧ param.mixId = (a : Int)
  dest : ∀ param ∈ params, param.inUse = true → param.destMixId = unusedMixId ∨
    ∃ a : Nat, a < count ∧ param.destMixId = (a : Int)

variable {behavior : BehaviorInfo} {params : List InParameter}

theorem ValidParams.target {count : Nat} (h : ValidParams behavior count params) {param : InParameter}
    {i : Nat} (hmem : (param, i) ∈ params.zipIdx) : targetIndex behavior i param < count ∧
    (param.inUse = true → param.mixId = (targetIndex behavior i param : Int)) := by
  have hget : params[i]? = some param := List.mem_zipIdx_iff_getElem?.mp hmem
  have hin : param ∈ params := List.mem_of_getElem? hget
  unfold targetIndex
  cases hb : behavior.isMixInParameterDirtyOnlyUpdateSupported with
  | true =>
    obtain ⟨a, ha, hid⟩ := h.dirty hb param hin
    rw [if_pos rfl, hid, Int.toNat_natCast]; exact ⟨ha, fun _ => rfl⟩
  | false =>
    obtain ⟨hlen, hids⟩ := h.full hb
    rw [if_neg Bool.false_ne_true]
    refine ⟨?_, fun huse => hids i param hget huse⟩
    have := (List.getElem?_eq_some_iff.mp hget).1
    omega

theorem writeMixes_induction {c : MixContext} {splitter : SplitterContext}
    {motive : MixContext × Bool → Prop} (h : motive (c, false))
    (hstep : ∀ s param i, (param, i) ∈ params.zipIdx → motive s →
      motive (MixContext.updateMix behavior splitter s (i, param))) :
    motive (c.writeMixes behavior splitter params) := by
  unfold MixContext.writeMixes
  generalize params.zipIdx = l at hstep
  generalize (c, false) = s at h
  induction l generalizing s with
  | nil => exact h
  | cons x l ih =>
    exact ih (fun s param i hmem => hstep s param i (List.mem_cons_of_mem x hmem)) _
      (hstep s x.1 x.2 List.mem_cons_self h)

/-! ## The layout leaves the links alone -/

theorem layoutMix_fields (s : (Nat → MixInfo) × Int) (i j : Nat) :
    { (MixContext.layoutMix s i).1 j with bufferOffset := 0 } = { s.1 j with bufferOffset := 0 } := by
  unfold MixContext.layoutMix
  split
  · by_cases hj : j = i
    · subst hj
      simp
    · simp [update_of_ne hj]
  · rfl

theorem foldl_layoutMix_fields (l : List Nat) (s : (Nat → MixInfo) × Int) (j : Nat) :
    { (l.foldl MixContext.layoutMix s).1 j with bufferOffset := 0 } =
      { s.1 j with bufferOffset := 0 } := by
  induction l generalizing s with
  | nil => rfl
  | cons i l ih => exact (ih _).trans (layoutMix_fields s i j)

theorem calcMixBufferOffset_fields (c : MixContext) (j : Nat) :
    { c.calcMixBufferOffset.mixInfos j with bufferOffset := 0 } =
      { c.mixInfos j with bufferOffset := 0 } :=
  foldl_layoutMix_fields c.sortedMixInfos (c.mixInfos, 0) j

theorem updateDistance_fields (count : Nat) (infos : Nat → MixInfo) (i j : Nat) :
    { updateDistance count infos i j with distanceFromFinalMix := 0 } =
      { infos j with distanceFromFinalMix := 0 } := by
  unfold updateDistance
  split
  · by_cases hj : j = i
    · subst hj
      simp
    · simp [update_of_ne hj]
  · rfl

theorem foldl_updateDistance_fields (count : Nat) (l : List Nat) (infos : Nat → MixInfo) (j : Nat) :
    { l.foldl (updateDistance count) infos j with distanceFromFinalMix := 0 } =
      { infos j with distanceFromFinalMix := 0 } := by
  induction l generalizing infos with
  | nil => rfl
  | cons i l ih => exact (ih _).trans (updateDistance_fields count infos i j)

/-! ## The invariant of the runs -/

/-- Links without splitters, and an order by the distances that belong to them. -/
structure Sorted (c : MixContext) : Prop where
  valid : ValidLinks c.mixInfos c.count
  noSplitter : ∀ i, (c.mixInfos i).dstSplitterId = unusedSplitterId
  current : DistancesCurrent c
  perm : c.sortedMixInfos.Perm (List.range c.count)
  sorted : c.sortedMixInfos.Pairwise fun a b =>
    (c.mixInfos b).distanceFromFinalMix ≤ (c.mixInfos a).distanceFromFinalMix

theorem sorted_initial (count : Nat) : Sorted (.initial count) where
  valid := ⟨fun _ _ h => (by cases h), fun _ _ => Or.inl rfl⟩
  noSplitter := fun _ => rfl
  current := ⟨fun _ => rfl, fun _ => rfl, fun _ => rfl, fun _ _ => rfl, fun _ _ h => (by cases h)⟩
  perm := List.Perm.refl _
  sorted := List.pairwise_iff_forall_sublist.mpr fun _ => Int.le_refl _

/-- What the second loop keeps of a context. -/
structure Written (c : MixContext) (s : MixContext × Bool) : Prop where
  count : s.1.count = c.count
  order : s.1.sortedMixInfos = c.sortedMixInfos
  distance : ∀ i, (s.1.mixInfos i).distanceFromFinalMix = (c.mixInfos i).distanceFromFinalMix
  valid : ValidLinks s.1.mixInfos c.count
  noSplitter : ∀ i, (s.1.mixInfos i).dstSplitterId = unusedSplitterId
  clean : s.2 = false → ∀ i, (s.1.mixInfos i).inUse = (c.mixInfos i).inUse ∧
    (s.1.mixInfos i).dstMixId = (c.mixInfos i).dstMixId

theorem update_noSplitter (m : MixInfo) (edges : Nat → Nat → Bool) (param : InParameter)
    (splitter : SplitterContext) (behavior : BehaviorInfo)
    (hm : m.dstSplitterId = unusedSplitterId) (hp : param.destSplitterId = unusedSplitterId) :
    (m.update edges param splitter behavior).1 = { m with
      bufferCount := toS16 param.bufferCount
      inUse := param.inUse
      mixId := param.mixId
      dstMixId := param.destMixId } ∧
    ((m.update edges param splitter behavior).2.2 = false → m.dstMixId = param.destMixId) := by
  unfold MixInfo.update
  dsimp only
  split
  · unfold MixInfo.updateConnection
    dsimp only
    split
    · rename_i heq
      obtain ⟨hd, -, -⟩ := heq
      refine ⟨?_, fun _ => hd⟩
      rw [← hd]
    · refine ⟨?_, fun h => by cases h⟩
      rw [hp, ← hm]
  · refine ⟨?_, fun h => ?_⟩
    · rw [← hm]
    · exact not_not.mp (of_decide_eq_false h)

theorem Written.update {c : MixContext} {s : MixContext × Bool} {t : Nat} {info : MixInfo}
    {edges : Nat → Nat → Bool} {dirty : Bool} (h : Written c s)
    (hdist : info.distanceFromFinalMix = (s.1.mixInfos t).distanceFromFinalMix)
    (hid : info.inUse = true → info.mixId = (t : Int))
    (hdst : t < c.count → info.dstMixId = unusedMixId ∨
      ∃ a : Nat, a < c.count ∧ info.dstMixId = (a : Int))
    (hsplit : info.dstSplitterId = unusedSplitterId)
    (hclean : dirty = false → s.2 = false ∧ info.inUse = (s.1.mixInfos t).inUse ∧
      info.dstMixId = (s.1.mixInfos t).dstMixId) :
    Written c ({ s.1 with
      mixInfos := update s.1.mixInfos t info, edgeMatrix := edges }, dirty) where
  count := h.count
  order := h.order
  distance := by
    intro j
    by_cases hj : j = t
    · subst hj
      simp only [update_self]
      exact hdist.trans (h.distance j)
    · simp only [update_of_ne hj]; exact h.distance j
  valid := by
    constructor
    · intro j hj huj
      by_cases hjt : j = t
      · subst hjt
        simp only [update_self] at huj ⊢
        exact hid huj
      · simp only [update_of_ne hjt] at huj ⊢; exact h.valid.id j hj huj
    · intro j hj
      by_cases hjt : j = t
      · subst hjt
        simp only [update_self]
        exact hdst hj
      · simp only [update_of_ne hjt]; exact h.valid.dst j hj
  noSplitter := by
    intro j
    by_cases hjt : j = t
    · subst hjt
      simp only [update_self]
      exact hsplit
    · simp only [update_of_ne hjt]; exact h.noSplitter j
  clean := by
    intro hflag j
    obtain ⟨hs, huse, hd⟩ := hclean hflag
    by_cases hjt : j = t
    · subst hjt
      simp only [update_self]
      obtain ⟨h1, h2⟩ := h.clean hs j
      exact ⟨huse.trans h1, hd.trans h2⟩
    · simp only [update_of_ne hjt]; exact h.clean hs j

theorem Written.step {c : MixContext} {behavior : BehaviorInfo} {splitter : SplitterContext}
    {s : MixContext × Bool} {param : InParameter} {i : Nat} (h : Written c s)
    (hid : param.inUse = true → param.mixId = (targetIndex behavior i param : Int))
    (hdest : param.inUse = true → param.destMixId = unusedMixId ∨
      ∃ a : Nat, a < c.count ∧ param.destMixId = (a : Int))
    (hsplit : param.inUse = true → param.destSplitterId = unusedSplitterId) :
    Written c (MixContext.updateMix behavior splitter s (i, param)) := by
  obtain ⟨t, ht⟩ : ∃ t, targetIndex behavior i param = t := ⟨_, rfl⟩
  rw [ht] at hid
  unfold MixContext.updateMix
  dsimp only
  rw [show (if behavior.isMixInParameterDirtyOnlyUpdateSupported = true then param.mixId.toNat
    else i) = t from ht]
  by_cases huse : param.inUse = true
  · rw [if_pos huse]
    obtain ⟨hnew, hclean⟩ := update_noSplitter { s.1.mixInfos t with inUse := param.inUse }
      s.1.edgeMatrix param splitter behavior (h.noSplitter t) (hsplit huse)
    generalize hu : MixInfo.update { s.1.mixInfos t with inUse := param.inUse } s.1.edgeMatrix
      param splitter behavior = u at hnew hclean
    obtain ⟨info, edges, required⟩ := u
    dsimp only at hnew hclean ⊢
    subst hnew
    refine h.update rfl (fun _ => hid huse) (fun _ => hdest huse) (h.noSplitter t) ?_
    intro hflag
    simp only [Bool.or_eq_false_iff] at hflag
    obtain ⟨⟨hs, hin⟩, hreq⟩ := hflag
    exact ⟨hs, (not_not.mp (of_decide_eq_false hin)).symm, (hclean hreq).symm⟩
  · rw [if_neg huse]
    refine h.update rfl (fun hc => absurd hc huse) (fun ht => h.valid.dst t ht) (h.noSplitter t) ?_
    intro hflag
    simp only [Bool.or_eq_false_iff] at hflag
    obtain ⟨hs, hin⟩ := hflag
    exact ⟨hs, (not_not.mp (of_decide_eq_false hin)).symm, rfl⟩

/-! ## Runs -/

/-- A call without splitters. -/
structure PlainCall (behavior : BehaviorInfo) (c : MixContext) (splitter : SplitterContext)
    (params : List InParameter) : Prop where
  valid : ValidParams behavior c.count params
  notUsing : splitter.usingSplitter = false
  noSplitter : ∀ param ∈ params, param.inUse = true → param.destSplitterId = unusedSplitterId

/-- The contexts of the runs of successful calls without splitters; the number of mixes is an `s32`
    and includes the final one. -/
inductive Run (behavior : BehaviorInfo) (mixBufferCount : Nat) : MixContext → Prop
  | initial {count : Nat} (hpos : 0 < count) (hlt : count < 2 ^ 31) :
      Run behavior mixBufferCount (.initial count)
  | call {c c' : MixContext} {splitter : SplitterContext} {sorter : Sorter}
      {params : List InParameter} (h : Run behavior mixBufferCount c)
      (hplain : PlainCall behavior c splitter params)
      (hc : c.updateMixes behavior splitter sorter mixBufferCount params = some c') :
      Run behavior mixBufferCount c'

theorem sortInfo_fields (c : MixContext) (sorter : Sorter) (i : Nat) :
    ((c.sortInfo sorter).mixInfos i).inUse = (c.mixInfos i).inUse ∧
    ((c.sortInfo sorter).mixInfos i).mixId = (c.mixInfos i).mixId ∧
    ((c.sortInfo sorter).mixInfos i).dstMixId = (c.mixInfos i).dstMixId ∧
    ((c.sortInfo sorter).mixInfos i).dstSplitterId = (c.mixInfos i).dstSplitterId ∧
    ((c.sortInfo sorter).mixInfos i).distanceFromFinalMix =
      (c.updateDistancesFromFinalMix.mixInfos i).distanceFromFinalMix := by
  have hlayout := calcMixBufferOffset_fields { c.updateDistancesFromFinalMix with
    sortedMixInfos := sorter.sort
      (fun i => (c.updateDistancesFromFinalMix.mixInfos i).distanceFromFinalMix)
      c.updateDistancesFromFinalMix.sortedMixInfos } i
  obtain ⟨-, h2, h3, -, h5, h6, h7⟩ := MixInfo.mk.inj hlayout
  obtain ⟨-, k2, k3, -, -, k6, k7⟩ := MixInfo.mk.inj
    (foldl_updateDistance_fields c.count (List.range c.count) (resetDistances c.mixInfos) i)
  exact ⟨h2.trans k2, h3.trans k3, h6.trans k6, h7.trans k7, h5⟩

theorem sortInfo_sorted {c : MixContext} (hvalid : ValidLinks c.mixInfos c.count)
    (hsplit : ∀ i, (c.mixInfos i).dstSplitterId = unusedSplitterId) (hcount : c.count < 2 ^ 31)
    (sorter : Sorter) : Sorted (c.sortInfo sorter) := by
  have hfields := sortInfo_fields c sorter
  have hloop : LoopInv c.mixInfos c.count c.count c.updateDistancesFromFinalMix.mixInfos :=
    loopInv_foldl hvalid hcount (Nat.le_refl _)
  constructor
  case valid =>
    constructor
    · intro i hi huse
      rw [(hfields i).2.1]
      exact hvalid.id i hi ((hfields i).1.symm.trans huse)
    · intro i hi
      rw [(hfields i).2.2.1]; exact hvalid.dst i hi
  case noSplitter =>
    intro i
    rw [(hfields i).2.2.2.1]; exact hsplit i
  case current =>
    exact hloop.rebase (fun i => (hfields i).1) (fun i => (hfields i).2.2.1)
      (fun i => (hfields i).2.2.2.2)
  case perm => exact sorter.perm _ _
  case sorted =>
    refine List.Pairwise.imp ?_ (sorter.sorted
      (fun i => (c.updateDistancesFromFinalMix.mixInfos i).distanceFromFinalMix)
      c.updateDistancesFromFinalMix.sortedMixInfos)
    intro a b hab
    rw [(hfields a).2.2.2.2, (hfields b).2.2.2.2]; exact hab

theorem Sorted.updateMixes {c c' : MixContext} {splitter : SplitterContext} {sorter : Sorter}
    {mixBufferCount : Nat} (h : Sorted c) (hcount : c.count < 2 ^ 31)
    (hplain : PlainCall behavior c splitter params)
    (hc : c.updateMixes behavior splitter sorter mixBufferCount params = some c') :
    Sorted c' ∧ c'.count = c.count := by
  have hwritten : Written c (c.writeMixes behavior splitter params) := by
    refine writeMixes_induction ?_ ?_
    · exact ⟨rfl, rfl, fun _ => rfl, h.valid, h.noSplitter, fun _ _ => ⟨rfl, rfl⟩⟩
    · intro s param i hmem hs
      have hin : param ∈ params :=
        List.mem_of_getElem? (List.mem_zipIdx_iff_getElem?.mp hmem)
      exact hs.step (hplain.valid.target hmem).2 (hplain.valid.dest param hin)
        (hplain.noSplitter param hin)
  unfold MixContext.updateMixes at hc
  split at hc
  · cases hc
  generalize c.writeMixes behavior splitter params = w at hwritten hc
  obtain ⟨d, dirty⟩ := w
  dsimp only at hc hwritten
  have hdcount : d.count = c.count := hwritten.count
  have hdvalid : ValidLinks d.mixInfos d.count := by
    rw [hdcount]; exact hwritten.valid
  split at hc
  · -- Nothing has changed that the order depends on.
    rename_i hdirty
    obtain rfl := Option.some.inj hc
    have hclean := hwritten.clean (Bool.eq_false_of_not_eq_true hdirty)
    refine ⟨⟨hdvalid, hwritten.noSplitter, ?_, ?_, ?_⟩, hdcount⟩
    · have hcur : LoopInv c.mixInfos c.count c.count c.mixInfos := h.current
      show LoopInv d.mixInfos d.count d.count d.mixInfos
      rw [hdcount]
      exact hcur.rebase (fun i => (hclean i).1) (fun i => (hclean i).2) hwritten.distance
    · have horder : d.sortedMixInfos = c.sortedMixInfos := hwritten.order
      rw [horder, hdcount]
      exact h.perm
    · have horder : d.sortedMixInfos = c.sortedMixInfos := hwritten.order
      rw [horder]
      refine h.sorted.imp ?_
      intro a b hab
      rw [show (d.mixInfos a).distanceFromFinalMix = _ from hwritten.distance a,
        show (d.mixInfos b).distanceFromFinalMix = _ from hwritten.distance b]
      exact hab
  split at hc
  · rename_i husing
    rw [hplain.notUsing] at husing
    cases husing.2
  · cases hc
    exact ⟨sortInfo_sorted hdvalid hwritten.noSplitter (hdcount ▸ hcount) sorter, hdcount⟩

theorem Run.sorted {mixBufferCount : Nat} {c : MixContext} (h : Run behavior mixBufferCount c) :
    Sorted c ∧ c.count < 2 ^ 31 := by
  induction h with
  | initial hpos hlt => exact ⟨sorted_initial _, hlt⟩
  | call _ hplain hc ih =>
    obtain ⟨hs, hn⟩ := ih.1.updateMixes ih.2 hplain hc; exact ⟨hs, hn ▸ ih.2⟩

/-- **The order of the mixes**: after every run of successful calls without splitters the distances
    are exact and the sources come first when, and only when, the links are well indexed. -/
theorem mixes_exact {behavior : BehaviorInfo} {mixBufferCount : Nat} {c : MixContext}
    (h : Run behavior mixBufferCount c) : (DistancesExact c ∧ SourcesFirst c) ↔ WellIndexed c := by
  obtain ⟨hs, -⟩ := h.sorted
  rw [← hs.current.exact_iff]
  exact ⟨fun hboth => hboth.1,
    fun hexact => ⟨hexact, sourcesFirst_of_exact hexact hs.current hs.perm hs.sorted⟩⟩

/-! ## Two runs -/

/-- Sorting that leaves equal keys in the order of their indices, or in the opposite one. -/
def insertionSorter (reversed : Bool) : Sorter where
  sort key l := (if reversed then l.reverse else l).insertionSort fun a b => key b ≤ key a
  perm key l := by
    refine (List.perm_insertionSort _ _).trans ?_
    split
    · exact List.reverse_perm l
    · exact List.Perm.refl l
  sorted key l := by
    have htotal : Std.Total fun a b : Nat => key b ≤ key a := ⟨fun a b => le_total (key b) (key a)⟩
    have htrans : IsTrans Nat fun a b => key b ≤ key a := ⟨fun _ _ _ h1 h2 => h2.trans h1⟩
    exact List.pairwise_insertionSort _ _

/-- A mix in use with one buffer. -/
def plainMix (mixId destMixId : Int) : InParameter := ⟨1, true, mixId, destMixId, unusedSplitterId⟩

def noSplitters : SplitterContext := ⟨false, fun _ => false, fun _ => []⟩

/-- Revisions without splitters and without dirty-only updates. -/
def plainBehavior : BehaviorInfo := ⟨false, false⟩

/-- 3 → 4 → 1 → 0: the distance of mix 1 is known when mix 3 is walked, that of mix 4 is not. -/
def crossedMixes : List InParameter :=
  [plainMix 0 unusedMixId, plainMix 1 0, ⟨0, false, 2, unusedMixId, unusedSplitterId⟩,
    plainMix 3 4, plainMix 4 1]

theorem crossedMixes_plain : PlainCall plainBehavior (.initial 5) noSplitters crossedMixes where
  valid := by
    refine ⟨fun _ => ⟨rfl, ?_⟩, fun h => (by cases h), ?_⟩
    · intro i param hget
      have hi : i < 5 := (List.getElem?_eq_some_iff.mp hget).1
      interval_cases i <;> (cases hget; decide)
    · intro param hmem huse
      fin_cases hmem
      · exact Or.inl rfl
      · exact Or.inr ⟨0, by decide, rfl⟩
      · cases huse
      · exact Or.inr ⟨4, by decide, rfl⟩
      · exact Or.inr ⟨1, by decide, rfl⟩
  notUsing := rfl
  noSplitter := by
    intro param hmem _
    fin_cases hmem <;> rfl

theorem crossedMixes_order :
    (((MixContext.initial 5).updateMixes plainBehavior noSplitters (insertionSorter true) 24
      crossedMixes).map fun c => (c.count, c.sortedMixInfos,
        (List.range 5).map fun i => ((c.mixInfos i).inUse, (c.mixInfos i).dstMixId))) =
      some (5, [4, 3, 1, 0, 2],
        [(true, unusedMixId), (true, 0), (false, unusedMixId), (true, 4), (true, 1)]) := by
  decide +kernel

theorem exists_crossed : ∃ c, Run plainBehavior 24 c ∧ c.count = 5 ∧
    c.sortedMixInfos = [4, 3, 1, 0, 2] ∧ (c.mixInfos 1).inUse = true ∧
    (c.mixInfos 3).inUse = true ∧ (c.mixInfos 4).inUse = true ∧ (c.mixInfos 1).dstMixId = 0 ∧
    (c.mixInfos 3).dstMixId = 4 ∧ (c.mixInfos 4).dstMixId = 1 := by
  obtain ⟨c, hc, hfields⟩ := Option.map_eq_some_iff.mp crossedMixes_order
  obtain ⟨hcount, horder, hmixes⟩ : c.count = 5 ∧ c.sortedMixInfos = [4, 3, 1, 0, 2] ∧
      (List.range 5).map (fun i => ((c.mixInfos i).inUse, (c.mixInfos i).dstMixId)) =
        [(true, unusedMixId), (true, 0), (false, unusedMixId), (true, 4), (true, 1)] := by
    simpa only [Prod.mk.injEq] using hfields
  have hrun : Run plainBehavior 24 c :=
    .call (.initial (by decide) (by decide)) crossedMixes_plain hc
  have hget := fun i : Nat => congrArg (·[i]?) hmixes
  have h1 : ((c.mixInfos 1).inUse, (c.mixInfos 1).dstMixId) = (true, 0) := Option.some.inj (hget 1)
  have h3 : ((c.mixInfos 3).inUse, (c.mixInfos 3).dstMixId) = (true, 4) := Option.some.inj (hget 3)
  have h4 : ((c.mixInfos 4).inUse, (c.mixInfos 4).dstMixId) = (true, 1) := Option.some.inj (hget 4)
  simp only [Prod.mk.injEq] at h1 h3 h4
  exact ⟨c, hrun, hcount, horder, h1.1, h3.1, h4.1, h1.2, h3.2, h4.2⟩

theorem chain_crossed {mixInfos : Nat → MixInfo} (h1 : (mixInfos 1).dstMixId = 0)
    (h3 : (mixInfos 3).dstMixId = 4) (h4 : (mixInfos 4).dstMixId = 1) :
    Chain mixInfos 5 ((3 : Nat) : Int) [3, 4, 1] := by
  have hone : Chain mixInfos 5 ((1 : Nat) : Int) [1] := by
    refine .feed (by decide) (by decide) ?_
    rw [h1]; exact .final
  have hfour : Chain mixInfos 5 ((4 : Nat) : Int) [4, 1] := by
    refine .feed (by decide) (by decide) ?_
    rw [h4]; exact hone
  refine .feed (by decide) (by decide) ?_
  rw [h3]
  exact hfour

/-- Mix 3 feeds mix 4 and is processed after it. -/
theorem not_sourcesFirst : ¬ ∀ behavior mixBufferCount c, Run behavior mixBufferCount c →
    DistancesExact c ∧ SourcesFirst c := by
  intro h
  obtain ⟨c, hrun, hcount, horder, -, huse, -, h1, h3, h4⟩ := exists_crossed
  have hchain := chain_crossed h1 h3 h4
  have hfirst := (h _ _ c hrun).2 3 (by omega) (by decide) huse ⟨_, hcount ▸ hchain⟩ 4 h3
  rw [horder] at hfirst
  exact absurd hfirst (by decide)

/-- The links of this context are not well indexed, and its order is not right. -/
theorem mixes_exact_crossed : ∃ c, Run plainBehavior 24 c ∧ c.sortedMixInfos = [4, 3, 1, 0, 2] ∧
    ((DistancesExact c ∧ SourcesFirst c) ↔ WellIndexed c) ∧ ¬ WellIndexed c := by
  obtain ⟨c, hrun, hcount, horder, huse1, huse3, -, h1, h3, h4⟩ := exists_crossed
  refine ⟨c, hrun, horder, mixes_exact hrun, ?_⟩
  intro hwell
  have hchain := chain_crossed h1 h3 h4
  rcases hwell 3 (by omega) huse3 4 [1] (hcount ▸ hchain) with ⟨-, hlt⟩ | hlater
  · exact absurd hlt (by decide)
  · exact hlater 1 List.mem_cons_self ⟨huse1, by decide⟩

end Suyu.Audio
