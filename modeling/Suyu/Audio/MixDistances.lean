import Mathlib
import Suyu.Audio.MixContext

/-
  `UpdateDistancesFromFinalMix`: the number of hops to the final mix, and when it is not.

  1. **Specification (`Chain`, `DistancesExact`, `SourcesFirst`)** - the chain of a mix is the list of
     the mixes it passes before the final one; its length is the distance.

  2. **The slip** - the walk down a chain stops at the first mix whose distance is known and takes
     that distance PLUS ONE, however many hops it has made to get there.  Known are the mixes in use
     with a smaller index, so it is right only when that mix is the very next one.

  3. **The crux (`distance_eq`)** - the distance a mix gets, by the first known mix of its chain.  It is
     never more than the length of the chain.
-/

namespace Suyu.Audio

/-! ## Chains -/

/-- The mixes from `id` down to the final mix, which is not in the list. -/
inductive Chain (mixInfos : Nat → MixInfo) (count : Nat) : Int → List Nat → Prop
  | final : Chain mixInfos count finalMixId []
  | feed {m : Nat} {l : List Nat} (hm : m ≠ 0) (hlt : m < count)
      (h : Chain mixInfos count (mixInfos m).dstMixId l) : Chain mixInfos count (m : Int) (m :: l)

section Chains

variable {mixInfos : Nat → MixInfo} {count : Nat}

variable {l : List Nat}

theorem Chain.unique {id : Int} {l' : List Nat} (h : Chain mixInfos count id l)
    (h' : Chain mixInfos count id l') : l = l' := by
  induction h generalizing l' with
  | final =>
    generalize hid : finalMixId = id at h'
    cases h' with
    | final => rfl
    | feed hm hlt h' =>
      unfold finalMixId at hid; omega
  | @feed m l hm hlt h ih =>
    generalize hid : (m : Int) = id at h'
    cases h' with
    | final =>
      unfold finalMixId at hid; omega
    | @feed m' l' hm' hlt' h' =>
      obtain rfl : m = m' := by omega
      rw [ih h']

theorem Chain.suffix {id : Int} (h : Chain mixInfos count id l) {m : Nat} (hm : m ∈ l) :
    ∃ before after, l = before ++ m :: after ∧ Chain mixInfos count (m : Int) (m :: after) := by
  induction h with
  | final => cases hm
  | @feed m' l hm' hlt h ih =>
    rcases List.mem_cons.mp hm with rfl | hm
    · exact ⟨[], l, rfl, .feed hm' hlt h⟩
    · obtain ⟨before, after, rfl, hchain⟩ := ih hm; exact ⟨m' :: before, after, rfl, hchain⟩

theorem Chain.nodup {id : Int} (h : Chain mixInfos count id l) : l.Nodup := by
  induction h with
  | final => exact List.nodup_nil
  | @feed m l hm hlt h ih =>
    refine List.nodup_cons.mpr ⟨fun hmem => ?_, ih⟩
    obtain ⟨before, after, hl, hchain⟩ := h.suffix hmem
    have heq := (Chain.feed hm hlt h).unique hchain
    have hlen := congrArg List.length heq
    rw [hl] at hlen
    simp at hlen; omega

theorem Chain.mem_range {id : Int} (h : Chain mixInfos count id l) {m : Nat} (hm : m ∈ l) :
    m ≠ 0 ∧ m < count := by
  induction h with
  | final => cases hm
  | @feed m' l hm' hlt h ih =>
    rcases List.mem_cons.mp hm with rfl | hm
    · exact ⟨hm', hlt⟩
    · exact ih hm

theorem Chain.length_lt {id : Int} (h : Chain mixInfos count id l) (hcount : 0 < count) :
    l.length < count := by
  have hnodup : (0 :: l).Nodup :=
    List.nodup_cons.mpr ⟨fun hm => (h.mem_range hm).1 rfl, h.nodup⟩
  have hsub : (0 :: l) ⊆ List.range count := by
    intro m hm
    rcases List.mem_cons.mp hm with rfl | hm
    · exact List.mem_range.mpr hcount
    · exact List.mem_range.mpr (h.mem_range hm).2
  have hle := (List.subperm_of_subset hnodup hsub).length_le
  rw [List.length_cons, List.length_range] at hle
  omega

end Chains

/-! ## Specification -/

/-- The distances of the mixes in use are the lengths of their chains, and invalid for the mixes that
    do not reach the final one. -/
def DistancesExact (c : MixContext) : Prop :=
  ∀ i < c.count, (c.mixInfos i).inUse = true →
    (∀ l, Chain c.mixInfos c.count (i : Int) l →
      (c.mixInfos i).distanceFromFinalMix = (l.length : Int)) ∧
    ((¬ ∃ l, Chain c.mixInfos c.count (i : Int) l) →
      (c.mixInfos i).distanceFromFinalMix = invalidDistanceFromFinalMix)

/-- A mix in use that reaches the final one is processed before the mix it feeds. -/
def SourcesFirst (c : MixContext) : Prop :=
  ∀ i < c.count, i ≠ 0 → (c.mixInfos i).inUse = true →
    (∃ l, Chain c.mixInfos c.count (i : Int) l) → ∀ a : Nat, (c.mixInfos i).dstMixId = (a : Int) →
      c.sortedMixInfos.idxOf i < c.sortedMixInfos.idxOf a

/-- A mix in use that reaches the final mix through at least one other: the mix it feeds is in use
    and has a smaller index, or no later one of its chain is so. -/
def WellIndexed (c : MixContext) : Prop :=
  ∀ i < c.count, (c.mixInfos i).inUse = true → ∀ a rest,
    Chain c.mixInfos c.count (i : Int) (i :: a :: rest) →
      (c.mixInfos a).inUse = true ∧ a < i ∨ ∀ m ∈ rest, ¬ ((c.mixInfos m).inUse = true ∧ m < i)

/-- Links that stay inside: a mix in use has its own index for an id, and a destination is a mix or
    `UnusedMixId`. -/
structure ValidLinks (mixInfos : Nat → MixInfo) (count : Nat) : Prop where
  id : ∀ i < count, (mixInfos i).inUse = true → (mixInfos i).mixId = (i : Int)
  dst : ∀ i < count, (mixInfos i).dstMixId = unusedMixId ∨
    ∃ a : Nat, a < count ∧ (mixInfos i).dstMixId = (a : Int)

/-! ## One walk -/

section Walk

variable {mixInfos : Nat → MixInfo} {count : Nat}

/-- The distance of a mix is known. -/
def Known (mixInfos : Nat → MixInfo) (m : Nat) : Bool :=
  decide ((mixInfos m).distanceFromFinalMix ≠ invalidDistanceFromFinalMix)

/-- What a walk of a chain gives: the first known mix decides. -/
def chainDistance (mixInfos : Nat → MixInfo) (l : List Nat) (distance : Int) : Int :=
  match l.find? (Known mixInfos) with
  | none => distance + l.length
  | some m => (mixInfos m).distanceFromFinalMix + 1

theorem distanceLoop_chain (hcount : count < 2 ^ 31) {id : Int} {l : List Nat}
    (h : Chain mixInfos count id l) (fuel : Nat) (distance : Int) (hfuel : l.length < fuel)
    (hlt : distance + l.length < count) :
    distanceLoop mixInfos count fuel id distance = chainDistance mixInfos l distance := by
  induction h generalizing fuel distance with
  | final =>
    obtain ⟨fuel, rfl⟩ : ∃ k, fuel = k + 1 := ⟨fuel - 1, by omega⟩
    simp only [List.length_nil, Nat.cast_zero, add_zero] at hlt
    rw [distanceLoop, if_neg (not_not.mpr hlt), if_pos rfl]; simp [chainDistance]
  | @feed m l hm hm' h ih =>
    obtain ⟨fuel, rfl⟩ : ∃ k, fuel = k + 1 := ⟨fuel - 1, by omega⟩
    rw [List.length_cons, Nat.cast_add, Nat.cast_one] at hlt
    rw [List.length_cons] at hfuel
    have hfinal : ¬ (m : Int) = finalMixId := by
      unfold finalMixId; omega
    have hunused : ¬ (m : Int) = unusedMixId := by
      unfold unusedMixId; omega
    rw [distanceLoop, if_neg (not_not.mpr (by omega)), if_neg hfinal, if_neg hunused,
      Int.toNat_natCast]
    by_cases hknown : (mixInfos m).distanceFromFinalMix ≠ invalidDistanceFromFinalMix
    · rw [if_pos hknown]
      have hk : Known mixInfos m = true := decide_eq_true hknown
      rw [chainDistance, List.find?_cons_of_pos hk]
    · rw [if_neg hknown, ih fuel (distance + 1) (by omega) (by omega)]
      have hk : ¬ Known mixInfos m = true := by
        simpa [Known] using hknown
      rw [chainDistance, chainDistance, List.find?_cons_of_neg hk]
      split
      · rw [List.length_cons]
        omega
      · rfl

theorem distanceLoop_lost (hdst : ∀ i < count, (mixInfos i).dstMixId = unusedMixId ∨
      ∃ a : Nat, a < count ∧ (mixInfos i).dstMixId = (a : Int))
    (hknown : ∀ m < count, Known mixInfos m = true → ∃ l, Chain mixInfos count (m : Int) l)
    (fuel : Nat) (id distance : Int) (hfuel : (count : Int) ≤ distance + fuel)
    (hid : id = unusedMixId ∨ ∃ a : Nat, a < count ∧ id = (a : Int))
    (hlost : ¬ ∃ l, Chain mixInfos count id l) :
    distanceLoop mixInfos count fuel id distance = invalidDistanceFromFinalMix ∨
      (count : Int) ≤ distanceLoop mixInfos count fuel id distance := by
  induction fuel generalizing id distance with
  | zero =>
    right
    simp only [distanceLoop]; omega
  | succ fuel ih =>
    rw [distanceLoop]
    split
    · right
      omega
    split
    · rename_i hfinal; exact absurd ⟨[], hfinal ▸ Chain.final⟩ hlost
    rename_i hfinal
    split
    · exact Or.inl rfl
    rename_i hunused
    obtain ⟨a, ha, rfl⟩ : ∃ a : Nat, a < count ∧ id = (a : Int) := hid.resolve_left hunused
    rw [Int.toNat_natCast]
    have hne : a ≠ 0 := by
      rintro rfl; exact hfinal rfl
    split
    · rename_i hk
      exact absurd (hknown a ha (decide_eq_true hk)) hlost
    · refine ih _ (distance + 1) (by omega) (hdst a ha) ?_
      rintro ⟨l, hl⟩; exact hlost ⟨a :: l, .feed hne ha hl⟩

end Walk

/-! ## The loop over the mixes -/

section Loop

variable {mixInfos infos : Nat → MixInfo} {count n : Nat}

theorem Chain.congr (h : ∀ m, (infos m).dstMixId = (mixInfos m).dstMixId) {id : Int} {l : List Nat}
    (hc : Chain mixInfos count id l) : Chain infos count id l := by
  induction hc with
  | final => exact .final
  | feed hm hlt _ ih =>
    refine .feed hm hlt ?_
    rw [h]; exact ih

/-- A mix whose distance is there when the mix `i` is processed, if it reaches the final one. -/
def Earlier (mixInfos : Nat → MixInfo) (i m : Nat) : Bool := (mixInfos m).inUse && decide (m < i)

/-- The mixes below `n` are done. -/
structure LoopInv (mixInfos : Nat → MixInfo) (count n : Nat) (infos : Nat → MixInfo) : Prop where
  inUse : ∀ i, (infos i).inUse = (mixInfos i).inUse
  mixId : ∀ i, (infos i).mixId = (mixInfos i).mixId
  dst : ∀ i, (infos i).dstMixId = (mixInfos i).dstMixId
  unknown : ∀ m, ¬ (m < n ∧ (mixInfos m).inUse = true ∧ ∃ l, Chain mixInfos count (m : Int) l) →
    (infos m).distanceFromFinalMix = invalidDistanceFromFinalMix
  formula : ∀ m < n, (mixInfos m).inUse = true → ∀ l, Chain mixInfos count (m : Int) l →
    (infos m).distanceFromFinalMix = match l.find? (Earlier mixInfos m) with
      | none => (l.length : Int)
      | some x => (infos x).distanceFromFinalMix + 1

theorem Chain.find_suffix {m x : Nat} {l : List Nat} (h : Chain mixInfos count (m : Int) l)
    (hx : l.find? (Earlier mixInfos m) = some x) : x < m ∧ (mixInfos x).inUse = true ∧
      ∃ after, Chain mixInfos count (x : Int) (x :: after) ∧ after.length + 2 ≤ l.length := by
  have hmem := List.mem_of_find?_eq_some hx
  have hp := List.find?_some hx
  simp only [Earlier, Bool.and_eq_true, decide_eq_true_eq] at hp
  obtain ⟨before, after, hl, hchain⟩ := h.suffix hmem
  refine ⟨hp.2, hp.1, after, hchain, ?_⟩
  cases before with
  | nil =>
    -- The head of the chain is the mix itself.
    rw [List.nil_append] at hl
    generalize hid : (m : Int) = id at h
    cases h with
    | final => cases hl
    | feed hm hlt h =>
      obtain ⟨rfl, -⟩ := List.cons.inj hl; omega
  | cons y before =>
    rw [hl, List.length_append, List.length_cons, List.length_cons]; omega

section

variable (h : LoopInv mixInfos count n infos)
include h

theorem LoopInv.bound (m : Nat) (hm : m < n) (huse : (mixInfos m).inUse = true) (l : List Nat)
    (hl : Chain mixInfos count (m : Int) l) :
    0 ≤ (infos m).distanceFromFinalMix ∧ (infos m).distanceFromFinalMix ≤ l.length := by
  induction m using Nat.strong_induction_on generalizing l with
  | _ m ih =>
    rw [h.formula m hm huse l hl]
    cases hfind : l.find? (Earlier mixInfos m) with
    | none => exact ⟨Int.natCast_nonneg _, Int.le_refl _⟩
    | some x =>
      obtain ⟨hlt, hux, after, hchain, hlen⟩ := hl.find_suffix hfind
      obtain ⟨h1, h2⟩ := ih x hlt (by omega) hux (x :: after) hchain
      rw [List.length_cons] at h2
      show 0 ≤ (infos x).distanceFromFinalMix + 1 ∧
        (infos x).distanceFromFinalMix + 1 ≤ (l.length : Int)
      omega

theorem LoopInv.known_eq {id : Int} {l : List Nat} (hl : Chain mixInfos count id l) {x : Nat}
    (hx : x ∈ l) : Known infos x = Earlier mixInfos n x := by
  obtain ⟨-, after, -, hchain⟩ := hl.suffix hx
  by_cases he : Earlier mixInfos n x = true
  · rw [he]
    simp only [Earlier, Bool.and_eq_true, decide_eq_true_eq] at he
    refine decide_eq_true ?_
    have hb := (h.bound x he.2 he.1 _ hchain).1
    unfold invalidDistanceFromFinalMix
    omega
  · have hne : ¬ (x < n ∧ (mixInfos x).inUse = true ∧ ∃ l, Chain mixInfos count (x : Int) l) := by
      rintro ⟨h1, h2, -⟩; exact he (by simp [Earlier, h1, h2])
    rw [Bool.eq_false_of_not_eq_true he, Known, h.unknown x hne]; simp

theorem LoopInv.distance_eq (hcount : count < 2 ^ 31) (hn : n < count)
    (hid : (mixInfos n).mixId = (n : Int)) {l : List Nat} (hl : Chain mixInfos count (n : Int) l) :
    distanceToFinalMix infos count n = match l.find? (Earlier mixInfos n) with
      | none => (l.length : Int)
      | some x => (infos x).distanceFromFinalMix + 1 := by
  have hlen := hl.length_lt (Nat.zero_lt_of_lt hn)
  have hloop := distanceLoop_chain hcount (hl.congr h.dst) (count + 1) finalMixId (by omega)
    (by unfold finalMixId; omega)
  have hfind : l.find? (Known infos) = l.find? (Earlier mixInfos n) :=
    List.find?_congr fun x hx => h.known_eq hl hx
  rw [distanceToFinalMix, h.mixId, hid, hloop, chainDistance, hfind]
  cases hx : l.find? (Earlier mixInfos n) with
  | none =>
    dsimp only
    unfold finalMixId
    rw [zero_add, if_neg (by omega)]
  | some x =>
    obtain ⟨hlt, hux, after, hchain, hle⟩ := hl.find_suffix hx
    obtain ⟨-, h2⟩ := h.bound x hlt hux _ hchain
    rw [List.length_cons] at h2
    dsimp only
    rw [if_neg (by omega)]

theorem LoopInv.distance_lost (hvalid : ValidLinks mixInfos count) (hn : n < count)
    (huse : (mixInfos n).inUse = true) (hlost : ¬ ∃ l, Chain mixInfos count (n : Int) l) :
    distanceToFinalMix infos count n = invalidDistanceFromFinalMix := by
  have hback : ∀ m, (mixInfos m).dstMixId = (infos m).dstMixId := fun m => (h.dst m).symm
  have hloop := @distanceLoop_lost infos count
    (fun i hi => by rw [h.dst]; exact hvalid.dst i hi)
    (fun m hm hk => by
      by_contra hno
      have hne : ¬ (m < n ∧ (mixInfos m).inUse = true ∧ ∃ l, Chain mixInfos count (m : Int) l) := by
        rintro ⟨-, -, l, hl⟩; exact hno ⟨l, hl.congr h.dst⟩
      rw [Known, h.unknown m hne] at hk; simp at hk)
    (count + 1) (n : Int) finalMixId (by unfold finalMixId; omega) (Or.inr ⟨n, hn, rfl⟩)
    (by
      rintro ⟨l, hl⟩; exact hlost ⟨l, hl.congr hback⟩)
  rw [distanceToFinalMix, h.mixId, hvalid.id n hn huse]
  rcases hloop with hinv | hfar
  · rw [hinv, if_neg (by unfold invalidDistanceFromFinalMix; omega)]
  · rw [if_pos hfar]

end

theorem LoopInv.step (h : LoopInv mixInfos count n infos) (hvalid : ValidLinks mixInfos count)
    (hcount : count < 2 ^ 31) (hn : n < count) :
    LoopInv mixInfos count (n + 1) (updateDistance count infos n) := by
  unfold updateDistance
  by_cases huse : (mixInfos n).inUse = true
  · rw [h.inUse, if_pos huse]
    have hother : ∀ m, m ≠ n → Function.update infos n
        { infos n with distanceFromFinalMix := distanceToFinalMix infos count n } m = infos m :=
      fun m hm => Function.update_of_ne hm _ _
    have hself : Function.update infos n
        { infos n with distanceFromFinalMix := distanceToFinalMix infos count n } n =
        { infos n with distanceFromFinalMix := distanceToFinalMix infos count n } :=
      Function.update_self ..
    constructor
    case inUse =>
      intro i
      by_cases hi : i = n
      · subst hi
        rw [hself]
        exact h.inUse i
      · rw [hother i hi]; exact h.inUse i
    case mixId =>
      intro i
      by_cases hi : i = n
      · subst hi
        rw [hself]
        exact h.mixId i
      · rw [hother i hi]; exact h.mixId i
    case dst =>
      intro i
      by_cases hi : i = n
      · subst hi
        rw [hself]
        exact h.dst i
      · rw [hother i hi]; exact h.dst i
    case unknown =>
      intro m hm
      by_cases hmn : m = n
      · subst hmn
        rw [hself]
        exact h.distance_lost hvalid hn huse fun hl => hm ⟨Nat.lt_succ_self _, huse, hl⟩
      · rw [hother m hmn]; exact h.unknown m fun hk => hm ⟨Nat.lt_succ_of_lt hk.1, hk.2⟩
    case formula =>
      intro m hm hum l hl
      -- A mix that is found earlier is not the one that is written.
      have hkeep : ∀ x, l.find? (Earlier mixInfos m) = some x →
          (Function.update infos n { infos n with
            distanceFromFinalMix := distanceToFinalMix infos count n } x).distanceFromFinalMix =
          (infos x).distanceFromFinalMix := by
        intro x hx
        rw [hother x (by have := (hl.find_suffix hx).1; omega)]
      by_cases hmn : m = n
      · subst hmn
        rw [hself]
        refine (h.distance_eq hcount hn (hvalid.id m hn huse) hl).trans ?_
        cases hx : l.find? (Earlier mixInfos m) with
        | none => rfl
        | some x => exact congrArg (· + 1) (hkeep x hx).symm
      · rw [hother m hmn, h.formula m (by omega) hum l hl]
        cases hx : l.find? (Earlier mixInfos m) with
        | none => rfl
        | some x => exact congrArg (· + 1) (hkeep x hx).symm
  · rw [h.inUse, if_neg huse]
    refine ⟨h.inUse, h.mixId, h.dst, fun m hm => ?_, fun m hm hum => ?_⟩
    · exact h.unknown m fun hk => hm ⟨Nat.lt_succ_of_lt hk.1, hk.2⟩
    · by_cases hmn : m = n
      · subst hmn
        exact absurd hum huse
      · exact h.formula m (by omega) hum

theorem loopInv_foldl (hvalid : ValidLinks mixInfos count) (hcount : count < 2 ^ 31)
    (hn : n ≤ count) : LoopInv mixInfos count n
      ((List.range n).foldl (updateDistance count) (resetDistances mixInfos)) := by
  induction n with
  | zero =>
    exact ⟨fun _ => rfl, fun _ => rfl, fun _ => rfl, fun _ _ => rfl,
      fun m hm => absurd hm (Nat.not_lt_zero m)⟩
  | succ n ih =>
    rw [List.range_succ, List.foldl_append]; exact (ih (by omega)).step hvalid hcount (by omega)

end Loop

theorem LoopInv.rebase {mixInfos infos infos' : Nat → MixInfo} {count n : Nat}
    (h : LoopInv mixInfos count n infos) (huse : ∀ i, (infos' i).inUse = (mixInfos i).inUse)
    (hdst : ∀ i, (infos' i).dstMixId = (mixInfos i).dstMixId)
    (hdist : ∀ i, (infos' i).distanceFromFinalMix = (infos i).distanceFromFinalMix) :
    LoopInv infos' count n infos' := by
  have hback : ∀ m, (mixInfos m).dstMixId = (infos' m).dstMixId := fun m => (hdst m).symm
  refine ⟨fun _ => rfl, fun _ => rfl, fun _ => rfl, ?_, ?_⟩
  · intro m hm
    rw [hdist]
    refine h.unknown m fun hk => hm ⟨hk.1, (huse m).trans hk.2.1, ?_⟩
    obtain ⟨l, hl⟩ := hk.2.2
    exact ⟨l, hl.congr hdst⟩
  · intro m hm hum l hl
    have hearlier : Earlier infos' m = Earlier mixInfos m := by
      funext x
      simp [Earlier, huse]
    rw [hdist, h.formula m hm ((huse m).symm.trans hum) l (hl.congr hback), hearlier]
    cases l.find? (Earlier mixInfos m) with
    | none => rfl
    | some x => exact congrArg (· + 1) (hdist x).symm

/-! ## When the distances are exact -/

/-- The distances of a context are those the loop writes for its links. -/
def DistancesCurrent (c : MixContext) : Prop := LoopInv c.mixInfos c.count c.count c.mixInfos

theorem Chain.head {mixInfos : Nat → MixInfo} {count m : Nat} {id : Int} {l : List Nat}
    (h : Chain mixInfos count id (m :: l)) :
    id = (m : Int) ∧ Chain mixInfos count (mixInfos m).dstMixId l := by
  cases h with
  | feed hm hlt h => exact ⟨rfl, h⟩

theorem Chain.next {mixInfos : Nat → MixInfo} {count m a : Nat} {id : Int} {l : List Nat}
    (h : Chain mixInfos count id (m :: a :: l)) :
    (mixInfos m).dstMixId = (a : Int) ∧ Chain mixInfos count (a : Int) (a :: l) := by
  have hdst := h.head.2.head.1
  exact ⟨hdst, hdst ▸ h.head.2⟩

variable {c : MixContext}

theorem WellIndexed.find_eq (hw : WellIndexed c) {i a x : Nat} {rest : List Nat} (hi : i < c.count)
    (huse : (c.mixInfos i).inUse = true) (hl : Chain c.mixInfos c.count (i : Int) (i :: a :: rest))
    (hx : (i :: a :: rest).find? (Earlier c.mixInfos i) = some x) : x = a := by
  have hself : ¬ Earlier c.mixInfos i i = true := by simp [Earlier]
  rw [List.find?_cons_of_neg hself] at hx
  rcases hw i hi huse a rest hl with ⟨hua, hai⟩ | hnone
  · have ha : Earlier c.mixInfos i a = true := by simp [Earlier, hua, hai]
    rw [List.find?_cons_of_pos ha] at hx
    exact (Option.some.inj hx).symm
  · have hp := List.find?_some hx
    simp only [Earlier, Bool.and_eq_true, decide_eq_true_eq] at hp
    rcases List.mem_cons.mp (List.mem_of_find?_eq_some hx) with rfl | hmem
    · rfl
    · exact absurd hp (hnone x hmem)

theorem DistancesCurrent.eq_length (h : DistancesCurrent c) (hw : WellIndexed c) {i : Nat}
    (hi : i < c.count) (huse : (c.mixInfos i).inUse = true) {l : List Nat}
    (hl : Chain c.mixInfos c.count (i : Int) l) :
    (c.mixInfos i).distanceFromFinalMix = (l.length : Int) := by
  induction i using Nat.strong_induction_on generalizing l with
  | _ i ih =>
    rw [h.formula i hi huse l hl]
    cases hx : l.find? (Earlier c.mixInfos i) with
    | none => rfl
    | some x =>
      obtain ⟨hlt, hux, after, hchain, hlen⟩ := hl.find_suffix hx
      match l, hl, hx, hlen with
      | [], _, hx, _ => cases hx
      | [b], _, _, hlen =>
        rw [List.length_singleton] at hlen; omega
      | b :: a :: rest, hl, hx, _ =>
        obtain rfl : i = b := by
          have := hl.head.1
          omega
        obtain rfl := hw.find_eq hi huse hl hx
        show (c.mixInfos x).distanceFromFinalMix + 1 = _
        rw [ih x hlt (by omega) hux hl.next.2]; simp

theorem DistancesCurrent.wellIndexed (h : DistancesCurrent c) (hexact : DistancesExact c) :
    WellIndexed c := by
  intro i hi huse a rest hl
  by_contra hbad
  obtain ⟨hnext, hrest⟩ := not_or.mp hbad
  obtain ⟨m, hm, hem⟩ : ∃ m ∈ rest, (c.mixInfos m).inUse = true ∧ m < i := by
    by_contra hno
    exact hrest fun m hm hem => hno ⟨m, hm, hem⟩
  have hself : ¬ Earlier c.mixInfos i i = true := by simp [Earlier]
  have ha : ¬ Earlier c.mixInfos i a = true := by
    intro he
    simp only [Earlier, Bool.and_eq_true, decide_eq_true_eq] at he; exact hnext he
  obtain ⟨x, hx⟩ : ∃ x, rest.find? (Earlier c.mixInfos i) = some x := by
    refine Option.isSome_iff_exists.mp (List.find?_isSome.mpr ⟨m, hm, ?_⟩)
    simp [Earlier, hem]
  have hfind : (i :: a :: rest).find? (Earlier c.mixInfos i) = some x := by
    rw [List.find?_cons_of_neg hself, List.find?_cons_of_neg ha, hx]
  -- The mix that is found is two hops away or more.
  have hp := List.find?_some hx
  simp only [Earlier, Bool.and_eq_true, decide_eq_true_eq] at hp
  obtain ⟨before, after, hsplit, hchain⟩ :=
    hl.next.2.head.2.suffix (List.mem_of_find?_eq_some hx)
  obtain ⟨-, hle⟩ := h.bound x (by omega) hp.1 _ hchain
  have hlen : (x :: after).length ≤ rest.length := by
    rw [hsplit, List.length_append]; omega
  have hdist := (hexact i hi huse).1 _ hl
  rw [h.formula i hi huse _ hl, hfind] at hdist
  simp only [List.length_cons, Nat.cast_add, Nat.cast_one] at hdist hle hlen
  omega

theorem DistancesCurrent.exact_iff (h : DistancesCurrent c) : DistancesExact c ↔ WellIndexed c := by
  refine ⟨h.wellIndexed, fun hw i hi huse => ⟨fun l hl => h.eq_length hw hi huse hl, fun hlost => ?_⟩⟩
  exact h.unknown i fun hk => hlost hk.2.2

/-! ## The order of the mixes -/

theorem idxOf_lt_of_key {key : Nat → Int} {l : List Nat} (hsorted : l.Pairwise fun a b => key b ≤ key a)
    {x y : Nat} (hx : x ∈ l) (hkey : key y < key x) : l.idxOf x < l.idxOf y := by
  induction l with
  | nil => cases hx
  | cons b l ih =>
    obtain ⟨hb, hl⟩ := List.pairwise_cons.mp hsorted
    by_cases hxb : b = x
    · subst hxb
      have hyb : b ≠ y := by
        rintro rfl; omega
      rw [List.idxOf_cons_self, List.idxOf_cons_ne _ hyb]
      exact Nat.succ_pos _
    · have hxl : x ∈ l := (List.mem_cons.mp hx).resolve_left (fun h => hxb h.symm)
      have hyb : b ≠ y := by
        rintro rfl
        have := hb x hxl
        omega
      rw [List.idxOf_cons_ne _ hxb, List.idxOf_cons_ne _ hyb]
      exact Nat.succ_lt_succ (ih hl hxl)

theorem sourcesFirst_of_exact (hexact : DistancesExact c) (hcur : DistancesCurrent c)
    (hperm : c.sortedMixInfos.Perm (List.range c.count)) (hsorted : c.sortedMixInfos.Pairwise fun a b =>
      (c.mixInfos b).distanceFromFinalMix ≤ (c.mixInfos a).distanceFromFinalMix) :
    SourcesFirst c := by
  intro i hi hne huse ⟨l, hl⟩ a ha
  refine idxOf_lt_of_key hsorted (hperm.mem_iff.mpr (List.mem_range.mpr hi)) ?_
  rw [(hexact i hi huse).1 l hl]
  obtain ⟨tail, rfl⟩ : ∃ tail, l = i :: tail := by
    generalize hid : (i : Int) = id at hl
    cases hl with
    | final =>
      unfold finalMixId at hid; omega
    | @feed m tail hm hlt h =>
      obtain rfl : i = m := by omega
      exact ⟨tail, rfl⟩
  have htail : Chain c.mixInfos c.count (a : Int) tail := ha ▸ hl.head.2
  by_cases hua : (c.mixInfos a).inUse = true
  · have halt : a < c.count := by
      cases tail with
      | nil =>
        generalize hid : (a : Int) = id at htail
        cases htail
        unfold finalMixId at hid; omega
      | cons b tail =>
        obtain rfl : a = b := by
          have := htail.head.1
          omega
        exact (htail.mem_range List.mem_cons_self).2
    rw [(hexact a halt hua).1 tail htail, List.length_cons]
    omega
  · rw [hcur.unknown a fun hk => hua hk.2.1]
    unfold invalidDistanceFromFinalMix; omega

end Suyu.Audio
