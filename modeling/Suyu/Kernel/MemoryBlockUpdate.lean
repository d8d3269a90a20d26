/-
  One call of `Update`, `UpdateIfMatch`, `UpdateLock` or `UpdateAttribute`: what the update loop and
  `CoalesceForUpdate` can do to the tree.

  1. **The loop** — `Updated`: every run of the update loop is a sequence of six primitive actions
     (stop, skip the last block, skip, cut before, cut after, apply the method), and
     `updateLoop_updated` shows that one unit of fuel per page suffices.  The arithmetic of the
     loop is looked at exactly there; each invariant below is one induction over `Updated`.
  2. **Coalescing** — `Merged`: neighbours that `CanMergeWith` are merged and nothing else happens.
     `coalesceLoop_apart` is the converse: nothing mergeable is left.
  3. **The call** — `updateWith_eq_some` / `updateWith_eq_none`: a call succeeds EXACTLY when it does
     not start strictly inside a first block it skips.

  **The crux** is that only boundaries inside the closed range can become mergeable
  (`Updated.apartOutside`), and that the coalescing loop visits every one of them.
-/
import Suyu.Kernel.MemoryBlockManager

namespace Suyu.Kernel

open KMemoryBlockDisableMergeAttribute (IpcLeft AllLeft AllRight)
open Lib.Tiling

/-! ## What a run of the update loop can do

  `A` and `E` are the two ends of the updated range, `cur` the address the loop has reached. -/

/-- The blocks tile `[a, e)`. -/
abbrev BlocksTile (a e : Nat) (l : List KMemoryBlock) : Prop :=
  Tiles KMemoryBlock.address KMemoryBlock.endAddress a e l

/-- One run of the update loop up to `E`, as a sequence of primitive actions. -/
inductive Updated (rule : UpdateRule) (E : Nat) :
    Nat → List KMemoryBlock → List KMemoryBlock → Nat → Bool → Prop where
  /-- the end of the range is reached -/
  | done {cur l} (h : E ≤ cur) : Updated rule E cur l l 0 true
  /-- a skipped block reaches beyond the range -/
  | skipLast {cur it rest} (hs : rule.skip it = true) (hlo : it.address ≤ cur)
      (hhi : E < it.endAddress) : Updated rule E cur (it :: rest) (it :: rest) 0 true
  /-- a skipped block ends inside the range -/
  | skip {cur it rest rest' n ok} (hs : rule.skip it = true) (hlo : it.address ≤ cur)
      (hcur : cur < it.endAddress) (hhi : it.endAddress ≤ E)
      (h : Updated rule E it.endAddress rest rest' n ok) :
      Updated rule E cur (it :: rest) (it :: rest') n ok
  /-- the block starts before the range: cut off its front -/
  | cutBefore {cur it rest l' n ok} (hs : rule.skip it = false) (hlo : it.address < cur)
      (hhi : cur < it.endAddress) (hdvd : PageSize ∣ cur - it.address) (hE : cur < E)
      (h : Updated rule E cur ((it.split cur).2 :: rest) l' n ok) :
      Updated rule E cur (it :: rest) ((it.split cur).1 :: l') (n + 1) ok
  /-- the block ends after the range: cut off its back -/
  | cutAfter {cur it rest l' n ok} (hlo : it.address = cur) (hcur : cur < E)
      (hhi : E < it.endAddress) (hdvd : PageSize ∣ E - it.address)
      (h : Updated rule E cur ((it.split E).1 :: (it.split E).2 :: rest) l' n ok) :
      Updated rule E cur (it :: rest) l' (n + 1) ok
  /-- the block lies inside the range: call the block method -/
  | apply {cur it rest rest' n ok} (hs : rule.skip it = false) (hlo : it.address = cur)
      (hcur : cur < it.endAddress) (hhi : it.endAddress ≤ E)
      (h : Updated rule E it.endAddress rest rest' n ok) :
      Updated rule E cur (it :: rest) (rule.apply it :: rest') n (rule.asserts it && ok)

theorem updateLoop_zero (rule : UpdateRule) (fuel : Nat) (l : List KMemoryBlock) (cur : Nat) :
    updateLoop rule fuel l cur 0 = ⟨l, 0, true⟩ := by
  cases fuel with
  | zero => rfl
  | succ fuel =>
    cases l with
    | nil => rfl
    | cons it rest => simp [updateLoop]

variable {b : KMemoryBlock}

theorem pageSize_dvd_endAddress (h : PageSize ∣ b.address) : PageSize ∣ b.endAddress :=
  Nat.dvd_add h (Nat.dvd_mul_left _ _)

variable {rule : UpdateRule} {it : KMemoryBlock} {rest : List KMemoryBlock} {cur E : Nat}

theorem updated_of_splits {rem : Nat} {r : UpdateResult} (hskip : rule.skip it = false)
    (hE : E = cur + rem * PageSize) (hrem : 0 < rem) (hlo : it.address ≤ cur)
    (hhi : cur < it.endAddress) (hit : PageSize ∣ it.address) (hcur : PageSize ∣ cur)
    (hr : Updated rule E
      ((splitBefore it cur).2.2 + (splitAfter (splitBefore it cur).2.1 (splitBefore it cur).2.2
        (rem * PageSize)).1.size)
      ((splitAfter (splitBefore it cur).2.1 (splitBefore it cur).2.2 (rem * PageSize)).2 ++ rest)
      r.blocks r.allocations r.asserts) : Updated rule E cur (it :: rest)
      ((splitBefore it cur).1 ++ rule.apply (splitAfter (splitBefore it cur).2.1
        (splitBefore it cur).2.2 (rem * PageSize)).1 :: r.blocks)
      ((splitBefore it cur).1.length + (splitAfter (splitBefore it cur).2.1
        (splitBefore it cur).2.2 (rem * PageSize)).2.length + r.allocations)
      (rule.asserts (splitAfter (splitBefore it cur).2.1 (splitBefore it cur).2.2
        (rem * PageSize)).1 && r.asserts) := by
  have hps : 0 < PageSize := by decide
  have hmul : 0 < rem * PageSize := Nat.mul_pos hrem hps
  have hEdvd : PageSize ∣ E := hE ▸ Nat.dvd_add hcur (Nat.dvd_mul_left _ _)
  -- the second cut and the call, for a block that starts at the current address
  have after : ∀ (b : KMemoryBlock), rule.skip b = false → b.address = cur → cur < b.endAddress →
      Updated rule E (cur + (splitAfter b cur (rem * PageSize)).1.size)
        ((splitAfter b cur (rem * PageSize)).2 ++ rest) r.blocks r.allocations r.asserts →
      Updated rule E cur (b :: rest)
        (rule.apply (splitAfter b cur (rem * PageSize)).1 :: r.blocks)
        ((splitAfter b cur (rem * PageSize)).2.length + r.allocations)
        (rule.asserts (splitAfter b cur (rem * PageSize)).1 && r.asserts) := by
    intro b hbs hb hbe hrest
    unfold splitAfter at hrest ⊢
    by_cases hsz : b.size > rem * PageSize
    · rw [if_pos hsz, ← hE] at hrest ⊢
      have hlt : E < b.endAddress := by unfold KMemoryBlock.endAddress; omega
      have hdvd : PageSize ∣ E - b.address := Nat.dvd_sub hEdvd (hb ▸ hcur)
      have hbd := KMemoryBlock.split_bounds (show b.address < E by omega) hlt hdvd
      have hend : (b.split E).1.address + (b.split E).1.size = E := hbd.2.1
      have hcut : cur + (b.split E).1.size = (b.split E).1.endAddress := by
        show _ = (b.split E).1.address + (b.split E).1.size
        rw [hbd.1, hb]
      simp only [hcut, List.cons_append, List.nil_append, List.length_cons, List.length_nil,
        Nat.zero_add] at hrest ⊢
      rw [Nat.add_comm]
      exact .cutAfter hb (by omega) hlt hdvd
        (.apply ((rule.skip_congr (b.split E).1 b rfl).trans hbs) (hbd.1.trans hb) (by omega) (by omega) hrest)
    · rw [if_neg hsz] at hrest ⊢
      have hcut : cur + b.size = b.endAddress := by unfold KMemoryBlock.endAddress; rw [hb]
      simp only [hcut, List.nil_append, List.length_nil, Nat.zero_add] at hrest ⊢
      exact .apply hbs hb hbe (by omega) hrest
  unfold splitBefore at hr ⊢
  by_cases hne : it.address ≠ cur
  · rw [if_pos hne] at hr ⊢
    have hdvd : PageSize ∣ cur - it.address := Nat.dvd_sub hcur hit
    have hbd := KMemoryBlock.split_bounds (show it.address < cur by omega) hhi hdvd
    simp only [List.cons_append, List.nil_append, List.length_cons, List.length_nil, Nat.zero_add,
      hbd.2.2.1] at hr ⊢
    rw [Nat.add_assoc, Nat.add_comm]
    exact .cutBefore hskip (by omega) hhi hdvd (by omega)
      (after _ ((rule.skip_congr (it.split cur).2 it rfl).trans hskip) hbd.2.2.1 (by rw [hbd.2.2.2]; exact hhi) hr)
  · rw [if_neg hne] at hr ⊢
    simp only [List.nil_append, List.length_nil, Nat.zero_add] at hr ⊢
    exact after it hskip (by omega) hhi hr

theorem splitBefore_spec (hlo : it.address ≤ cur) (hhi : cur < it.endAddress)
    (hdvd : PageSize ∣ cur - it.address) :
    (splitBefore it cur).2.2 = cur ∧ (splitBefore it cur).2.1.address = cur ∧
      (splitBefore it cur).2.1.endAddress = it.endAddress := by
  unfold splitBefore
  by_cases hne : it.address ≠ cur
  · have hbd := KMemoryBlock.split_bounds (show it.address < cur by omega) hhi hdvd
    rw [if_pos hne]
    exact ⟨hbd.2.2.1, hbd.2.2.1, hbd.2.2.2⟩
  · rw [if_neg hne]; exact ⟨rfl, not_not.mp hne, rfl⟩

theorem splitAfter_spec (rem : Nat) (hb : b.address = cur) (hbe : cur < b.endAddress) (hrem : 0 < rem) :
    (splitAfter b cur (rem * PageSize)).1.address = cur ∧
      cur < (splitAfter b cur (rem * PageSize)).1.endAddress ∧
      (splitAfter b cur (rem * PageSize)).1.endAddress ≤ cur + rem * PageSize ∧
      BlocksTile (splitAfter b cur (rem * PageSize)).1.endAddress b.endAddress
        (splitAfter b cur (rem * PageSize)).2 := by
  have hps : 0 < PageSize := by decide
  have hmul : 0 < rem * PageSize := Nat.mul_pos hrem hps
  unfold splitAfter
  by_cases hsz : b.size > rem * PageSize
  · have hlt : cur + rem * PageSize < b.endAddress := by unfold KMemoryBlock.endAddress; omega
    have hdvd : PageSize ∣ cur + rem * PageSize - b.address := by
      rw [hb, Nat.add_sub_cancel_left]; exact Nat.dvd_mul_left _ _
    have hbd := KMemoryBlock.split_bounds (show b.address < cur + rem * PageSize by omega) hlt hdvd
    rw [if_pos hsz]
    simp only [hbd.2.1]
    exact ⟨hb, by omega, Nat.le_refl _, hbd.2.2.1, by rw [hbd.2.2.2]; exact hlt, hbd.2.2.2⟩
  · rw [if_neg hsz]
    refine ⟨hb, hbe, ?_, rfl⟩
    show b.address + b.size ≤ cur + rem * PageSize
    omega

/-- **The loop refines `Updated`**: started at the block that contains the current address, with
    one unit of fuel per remaining page, it runs to the end of the range.  Induction on the fuel;
    every iteration consumes at least one page because blocks are not empty. -/
theorem updateLoop_updated (rule : UpdateRule) : ∀ (fuel : Nat) (l : List KMemoryBlock)
    (cur rem a e : Nat), BlocksTile a e l → PageSize ∣ a → PageSize ∣ cur → a ≤ cur →
    rem ≤ fuel → cur + rem * PageSize ≤ e → (∀ it ∈ l.head?, cur < it.endAddress) →
    Updated rule (cur + rem * PageSize) cur l (updateLoop rule fuel l cur rem).blocks
      (updateLoop rule fuel l cur rem).allocations (updateLoop rule fuel l cur rem).asserts := by
  have hps : 0 < PageSize := by decide
  intro fuel
  induction fuel with
  | zero =>
    intro l cur rem a e _ _ _ _ hfuel _ _
    obtain rfl : rem = 0 := by omega
    exact .done (by omega)
  | succ fuel ih =>
    intro l cur rem a e hl ha hcur hle hfuel hE hhead
    rcases Nat.eq_zero_or_pos rem with rfl | hrem
    · rw [updateLoop_zero]; exact .done (by omega)
    have hmul : PageSize ≤ rem * PageSize := Nat.le_mul_of_pos_left _ hrem
    cases l with
    | nil =>
      obtain rfl : a = e := hl; omega
    | cons it rest =>
      obtain ⟨hit, hne, hrest⟩ := hl
      have hce : cur < it.endAddress := hhead it rfl
      have hitdvd : PageSize ∣ it.address := hit ▸ ha
      have hedvd : PageSize ∣ it.endAddress := pageSize_dvd_endAddress hitdvd
      have hnil : ∀ {t : List KMemoryBlock} {x : Nat}, BlocksTile x e t →
          ∀ it ∈ t.head?, x < it.endAddress := by
        intro t x ht it' hit'
        cases t with
        | nil => cases hit'
        | cons b t =>
          obtain rfl : b = it' := Option.some.inj hit'; exact ht.2.1
      unfold updateLoop
      rw [if_neg (by omega)]
      by_cases hs : rule.skip it = true
      · simp only [hs, if_true]
        by_cases hlast : cur + rem * PageSize < it.endAddress
        · rw [if_pos hlast, updateLoop_zero]
          exact .skipLast hs (by omega) hlast
        · rw [if_neg hlast]
          -- the pages left after this block
          obtain ⟨k, hk⟩ : PageSize ∣ cur + rem * PageSize - it.endAddress :=
            Nat.dvd_sub (Nat.dvd_add hcur (Nat.dvd_mul_left _ _)) hedvd
          have hdiv : (cur + rem * PageSize - it.endAddress) / PageSize = k := by
            rw [hk, Nat.mul_div_cancel_left _ hps]
          have hkE : it.endAddress + k * PageSize = cur + rem * PageSize := by
            rw [Nat.mul_comm, ← hk]; omega
          have hklt : k < rem := by
            refine Nat.lt_of_mul_lt_mul_right (a := PageSize) ?_
            omega
          rw [hdiv]
          have hih := ih rest it.endAddress k it.endAddress e hrest hedvd hedvd (Nat.le_refl _)
            (by omega) (by omega) (hnil hrest)
          rw [hkE] at hih; exact .skip hs (by omega) hce (by omega) hih
      · rw [Bool.not_eq_true] at hs
        simp only [hs, if_false, Bool.false_eq_true]
        refine updated_of_splits hs rfl hrem (by omega) hce hitdvd hcur ?_
        obtain ⟨h22, h21, h21e⟩ := splitBefore_spec (by omega : it.address ≤ cur) hce
          (Nat.dvd_sub hcur hitdvd)
        rw [h22]
        obtain ⟨hlo, hlt, hhi, htile⟩ := splitAfter_spec rem h21 (by omega) hrem
        generalize (splitAfter (splitBefore it cur).2.1 cur (rem * PageSize)) = s at *
        have hend : cur + s.1.size = s.1.endAddress := by
          unfold KMemoryBlock.endAddress; rw [hlo]
        have hedvd' : PageSize ∣ s.1.endAddress := pageSize_dvd_endAddress (hlo ▸ hcur)
        have hnp : s.1.numPages * PageSize = s.1.endAddress - cur := by
          rw [← hend]; unfold KMemoryBlock.size; omega
        have hpos : 0 < s.1.numPages := Nat.pos_of_mul_pos_right (hnp ▸ (by omega : 0 < s.1.endAddress - cur))
        have hleft : s.1.endAddress + (rem - s.1.numPages) * PageSize = cur + rem * PageSize := by
          rw [Nat.sub_mul, hnp]; omega
        rw [hend, ← hleft]
        refine ih (s.2 ++ rest) s.1.endAddress (rem - s.1.numPages) s.1.endAddress e
          (htile.append (h21e ▸ hrest)) hedvd' hedvd' (Nat.le_refl _) (by omega) (by omega)
          (hnil (htile.append (h21e ▸ hrest)))

/-! ## Invariants of a run, one induction each -/

variable {a e : Nat}

theorem tiles_split_snd {c : Nat} {l : List KMemoryBlock} (h : BlocksTile a e (b :: l))
    (hlo : b.address < c) (hhi : c < b.endAddress) (hdvd : PageSize ∣ c - b.address) :
    BlocksTile c e ((b.split c).2 :: l) := by
  obtain ⟨_, _, h3, h4⟩ := KMemoryBlock.split_bounds hlo hhi hdvd; exact ⟨h3, by omega, h4 ▸ h.2.2⟩

theorem tiles_split {c : Nat} {l : List KMemoryBlock} (h : BlocksTile a e (b :: l))
    (hlo : b.address < c) (hhi : c < b.endAddress) (hdvd : PageSize ∣ c - b.address) :
    BlocksTile a e ((b.split c).1 :: (b.split c).2 :: l) := by
  obtain ⟨h1, h2, _, _⟩ := KMemoryBlock.split_bounds hlo hhi hdvd
  have ha := h.1
  refine ⟨h1.trans ha, by omega, ?_⟩
  rw [h2]
  exact tiles_split_snd h hlo hhi hdvd

theorem UpdateRule.apply_endAddress (rule : UpdateRule) (b : KMemoryBlock) :
    (rule.apply b).endAddress = b.endAddress := by
  unfold KMemoryBlock.endAddress KMemoryBlock.size
  rw [rule.apply_address, rule.apply_numPages]

/-- The rule acts on each page by `page`, and only skips blocks whose pages `page` would leave
    alone. -/
structure UpdateRule.Lawful (rule : UpdateRule) (page : KMemoryProperties → KMemoryProperties) :
    Prop where
  properties : ∀ b, rule.skip b = false → (rule.apply b).properties = page b.properties
  skip : ∀ b, rule.skip b = true → page b.properties = b.properties

section Updated

variable {rule : UpdateRule} {page : KMemoryProperties → KMemoryProperties} {E cur : Nat}
  {l l' : List KMemoryBlock} {n : Nat} {ok : Bool}

theorem Updated.tiles (h : Updated rule E cur l l' n ok) :
    ∀ {a e : Nat}, BlocksTile a e l → BlocksTile a e l' := by
  induction h with
  | done h => intro a e hl; exact hl
  | skipLast hs hlo hhi => intro a e hl; exact hl
  | skip hs hlo hcur hhi h ih => intro a e hl; exact ⟨hl.1, hl.2.1, ih hl.2.2⟩
  | cutBefore hs hlo hhi hdvd hE h ih =>
    intro a e hl
    have hcut := tiles_split hl hlo hhi hdvd
    exact ⟨hcut.1, hcut.2.1, ih hcut.2.2⟩
  | cutAfter hlo hcur hhi hdvd h ih =>
    intro a e hl; exact ih (tiles_split hl (by omega) hhi hdvd)
  | apply hs hlo hcur hhi h ih =>
    intro a e hl
    refine ⟨(rule.apply_address _).trans hl.1, ?_, ?_⟩
    · rw [rule.apply_endAddress]; exact hl.2.1
    · rw [rule.apply_endAddress]; exact ih hl.2.2

/-- `x` and `y` do not merge, unless they meet inside `[A, E]`. -/
def ApartOutside (A E : Nat) (x y : KMemoryBlock) : Prop :=
  (A ≤ y.address ∧ y.address ≤ E) ∨ x.canMergeWith y = false

theorem ApartOutside.congr {A : Nat} {x x' y y' : KMemoryBlock} (h : ApartOutside A E x y)
    (hx : x'.rightEdge = x.rightEdge) (hy : y'.leftEdge = y.leftEdge)
    (hya : y'.address = y.address) : ApartOutside A E x' y' := by
  unfold ApartOutside
  rw [hya, KMemoryBlock.canMergeWith_congr hx hy]
  exact h

theorem isChain_apart_head {A : Nat} {x x' : KMemoryBlock} {t : List KMemoryBlock}
    (h : (x :: t).IsChain (ApartOutside A E)) (hx : x'.rightEdge = x.rightEdge) :
    (x' :: t).IsChain (ApartOutside A E) := by
  cases t with
  | nil => exact List.IsChain.singleton _
  | cons y t =>
    rw [List.isChain_cons_cons] at h ⊢; exact ⟨h.1.congr hx rfl rfl, h.2⟩

/-- **Only boundaries inside the range can become mergeable.**  Stated with the block `x` in front
    of the iterator, because cutting or changing the block at the iterator is visible to it. -/
theorem Updated.apartOutside {A : Nat} (h : Updated rule E cur l l' n ok) : ∀ {a e : Nat},
    BlocksTile a e l → A ≤ cur → ∀ x, (x :: l).IsChain (ApartOutside A E) → (x :: l').IsChain (ApartOutside A E) := by
  induction h with
  | done h => intro a e _ _ x hx; exact hx
  | skipLast hs hlo hhi => intro a e _ _ x hx; exact hx
  | skip hs hlo hcur hhi h ih =>
    intro a e hl hA x hx
    rw [List.isChain_cons_cons] at hx ⊢; exact ⟨hx.1, ih hl.2.2 (by omega) _ hx.2⟩
  | @cutBefore cur it rest l' n ok hs hlo hhi hdvd hE h ih =>
    intro a e hl hA x hx
    obtain ⟨h1, h2, h3, h4⟩ := KMemoryBlock.split_bounds hlo hhi hdvd
    rw [List.isChain_cons_cons] at hx ⊢
    refine ⟨hx.1.congr rfl KMemoryBlock.split_fst_leftEdge h1,
      ih (tiles_split_snd hl hlo hhi hdvd) hA _ ?_⟩
    rw [List.isChain_cons_cons]
    refine ⟨Or.inl ⟨by omega, by omega⟩, ?_⟩
    exact isChain_apart_head hx.2 KMemoryBlock.split_snd_rightEdge
  | cutAfter hlo hcur hhi hdvd h ih =>
    intro a e hl hA x hx
    obtain ⟨h1, h2, h3, h4⟩ := KMemoryBlock.split_bounds (by omega) hhi hdvd
    rw [List.isChain_cons_cons] at hx
    refine ih (tiles_split hl (by omega) hhi hdvd) hA x ?_
    rw [List.isChain_cons_cons, List.isChain_cons_cons]
    refine ⟨hx.1.congr rfl KMemoryBlock.split_fst_leftEdge h1, Or.inl ⟨by omega, by omega⟩, ?_⟩
    exact isChain_apart_head hx.2 KMemoryBlock.split_snd_rightEdge
  | @apply cur it rest rest' n ok hs hlo hcur hhi h ih =>
    intro a e hl hA x hx
    rw [List.isChain_cons_cons] at hx ⊢
    refine ⟨Or.inl ⟨by rw [rule.apply_address]; omega, by rw [rule.apply_address]; omega⟩, ih hl.2.2 (by omega) _ ?_⟩
    -- the block behind it starts inside the range as well
    cases rest with
    | nil => exact List.IsChain.singleton _
    | cons z t =>
      rw [List.isChain_cons_cons] at hx ⊢
      have hz : z.address = it.endAddress := hl.2.2.1
      exact ⟨Or.inl ⟨by omega, by omega⟩, hx.2.2⟩

theorem Updated.forall_properties {Q : KMemoryProperties → Prop} (hr : rule.Lawful page)
    (hQ : ∀ b, rule.asserts b = true → Q b.properties → Q (page b.properties))
    (h : Updated rule E cur l l' n ok) : ok = true → (∀ b ∈ l, Q b.properties) →
    ∀ b ∈ l', Q b.properties := by
  induction h with
  | done h => intro _ hl; exact hl
  | skipLast hs hlo hhi => intro _ hl; exact hl
  | skip hs hlo hcur hhi h ih =>
    intro hok hl b hb
    rcases List.mem_cons.mp hb with rfl | hb
    · exact hl _ List.mem_cons_self
    · exact ih hok (fun c hc => hl c (List.mem_cons_of_mem _ hc)) b hb
  | @cutBefore cur it rest l' n ok hs hlo hhi hdvd hE h ih =>
    intro hok hl b hb
    have hit : Q it.properties := hl _ List.mem_cons_self
    rcases List.mem_cons.mp hb with rfl | hb
    · exact hit
    · refine ih hok (fun c hc => ?_) b hb
      rcases List.mem_cons.mp hc with rfl | hc
      · exact hit
      · exact hl c (List.mem_cons_of_mem _ hc)
  | @cutAfter cur it rest l' n ok hlo hcur hhi hdvd h ih =>
    intro hok hl b hb
    have hit : Q it.properties := hl _ List.mem_cons_self
    refine ih hok (fun c hc => ?_) b hb
    rcases List.mem_cons.mp hc with rfl | hc
    · exact hit
    · rcases List.mem_cons.mp hc with rfl | hc
      · exact hit
      · exact hl c (List.mem_cons_of_mem _ hc)
  | apply hs hlo hcur hhi h ih =>
    intro hok hl b hb
    rw [Bool.and_eq_true] at hok
    rcases List.mem_cons.mp hb with rfl | hb
    · rw [hr.properties _ hs]
      exact hQ _ hok.1 (hl _ List.mem_cons_self)
    · exact ih hok.2 (fun c hc => hl c (List.mem_cons_of_mem _ hc)) b hb

end Updated

/-! ## Pages -/

/-- The abstraction: the properties of the page holding the address `p`. -/
def propertiesAt (l : List KMemoryBlock) (p : Nat) : Option KMemoryProperties :=
  (lookup KMemoryBlock.address KMemoryBlock.endAddress l p).map KMemoryBlock.properties

theorem propertiesAt_cons {l : List KMemoryBlock} (h : BlocksTile a e (b :: l)) (p : Nat) :
    propertiesAt (b :: l) p = if p < b.address then none
      else if p < b.endAddress then some b.properties else propertiesAt l p := by
  unfold propertiesAt
  by_cases h1 : p < b.address
  · rw [if_pos h1, h.lookup_of_lt (h.1 ▸ h1)]
    rfl
  · rw [if_neg h1]
    by_cases h2 : p < b.endAddress
    · rw [if_pos h2, lookup_cons_of_lt (not_lt.mp h1) h2]
      rfl
    · rw [if_neg h2, lookup_cons_of_ge (not_lt.mp h2)]

theorem propertiesAt_split {c : Nat} {l : List KMemoryBlock} (h : BlocksTile a e (b :: l))
    (hlo : b.address < c) (hhi : c < b.endAddress) (hdvd : PageSize ∣ c - b.address) (p : Nat) :
    propertiesAt ((b.split c).1 :: (b.split c).2 :: l) p = propertiesAt (b :: l) p := by
  obtain ⟨h1, h2, h3, h4⟩ := KMemoryBlock.split_bounds hlo hhi hdvd
  have hfst := tiles_split h hlo hhi hdvd
  have hsnd := tiles_split_snd h hlo hhi hdvd
  rw [propertiesAt_cons hfst, propertiesAt_cons hsnd, propertiesAt_cons h, h1, h2, h3, h4,
    KMemoryBlock.split_fst_properties, KMemoryBlock.split_snd_properties]
  grind

section Updated

variable {rule : UpdateRule} {page : KMemoryProperties → KMemoryProperties} {E cur : Nat}
  {l l' : List KMemoryBlock} {n : Nat} {ok : Bool}

/-- **The loop is the page rule**: exactly the pages of the range go through `page`. -/
theorem Updated.propertiesAt (hr : rule.Lawful page) (h : Updated rule E cur l l' n ok) :
    ∀ {a e : Nat}, BlocksTile a e l → ∀ p, Kernel.propertiesAt l' p =
      if cur ≤ p ∧ p < E then (Kernel.propertiesAt l p).map page else Kernel.propertiesAt l p := by
  induction h with
  | done h =>
    intro a e hl p
    rw [if_neg (by omega)]
  | @skipLast cur it rest hs hlo hhi =>
    intro a e hl p
    rw [propertiesAt_cons hl]
    have := hr.skip _ hs
    grind
  | @skip cur it rest rest' n ok hs hlo hcur hhi h ih =>
    intro a e hl p
    have hl' : BlocksTile a e (it :: rest') := ⟨hl.1, hl.2.1, h.tiles hl.2.2⟩
    rw [propertiesAt_cons hl, propertiesAt_cons hl', ih hl.2.2]
    have := hr.skip _ hs
    grind
  | @cutBefore cur it rest l' n ok hs hlo hhi hdvd hE h ih =>
    intro a e hl p
    obtain ⟨h1, h2, h3, h4⟩ := KMemoryBlock.split_bounds hlo hhi hdvd
    have hsnd := tiles_split_snd hl hlo hhi hdvd
    have hfst := tiles_split hl hlo hhi hdvd
    have hl' : BlocksTile a e ((it.split cur).1 :: l') :=
      ⟨hfst.1, hfst.2.1, by rw [h2]; exact h.tiles hsnd⟩
    rw [← propertiesAt_split hl hlo hhi hdvd, propertiesAt_cons hl', propertiesAt_cons hfst,
      ih hsnd, h2]
    grind
  | @cutAfter cur it rest l' n ok hlo hcur hhi hdvd h ih =>
    intro a e hl p
    rw [← propertiesAt_split hl (by omega) hhi hdvd]
    exact ih (tiles_split hl (by omega) hhi hdvd) p
  | @apply cur it rest rest' n ok hs hlo hcur hhi h ih =>
    intro a e hl p
    have hl' : BlocksTile a e (rule.apply it :: rest') :=
      ⟨(rule.apply_address _).trans hl.1, rule.apply_endAddress it ▸ hl.2.1, rule.apply_endAddress it ▸ h.tiles hl.2.2⟩
    rw [propertiesAt_cons hl, propertiesAt_cons hl', ih hl.2.2, rule.apply_address, rule.apply_endAddress,
      hr.properties _ hs]
    grind

theorem Updated.allocations_eq_zero (h : Updated rule E cur l l' n ok) : ∀ {a e : Nat},
    BlocksTile a e l → cur ≤ a → (E = e ∨ ∃ b ∈ l, b.address = E) → n = 0 := by
  induction h with
  | done h => intro a e _ _ _; rfl
  | skipLast hs hlo hhi => intro a e _ _ _; rfl
  | skip hs hlo hcur hhi h ih =>
    intro a e hl ha hE
    refine ih hl.2.2 (Nat.le_refl _) ?_
    rcases hE with hE | ⟨b, hb, hbE⟩
    · exact Or.inl hE
    · rcases List.mem_cons.mp hb with rfl | hb
      · omega
      · exact Or.inr ⟨b, hb, hbE⟩
  | cutBefore hs hlo hhi hdvd hE h ih => intro a e hl ha _; have := hl.1; omega
  | cutAfter hlo hcur hhi hdvd h ih =>
    -- the end of the range is strictly inside the block at the iterator, so no boundary
    intro a e hl ha hE
    have hle := hl.2.2.le
    rcases hE with hE | ⟨b, hb, hbE⟩
    · omega
    · rcases List.mem_cons.mp hb with rfl | hb
      · omega
      · have := (hl.2.2.bounds hb).1
        omega
  | apply hs hlo hcur hhi h ih =>
    intro a e hl ha hE
    refine ih hl.2.2 (Nat.le_refl _) ?_
    rcases hE with hE | ⟨b, hb, hbE⟩
    · exact Or.inl hE
    · rcases List.mem_cons.mp hb with rfl | hb
      · omega
      · exact Or.inr ⟨b, hb, hbE⟩

end Updated

/-! ## Coalescing

  `Merged l l'`: `l'` comes from `l` by merging neighbours that `CanMergeWith`, in any places.
  That is all coalescing can do, and it is enough to see that it moves nothing. -/

inductive Merged : List KMemoryBlock → List KMemoryBlock → Prop where
  | refl (l) : Merged l l
  | keep {l l'} (x) (h : Merged l l') : Merged (x :: l) (x :: l')
  | merge {x y l l'} (hm : x.canMergeWith y = true) (h : Merged (x.add y :: l) l') :
      Merged (x :: y :: l) l'

theorem coalesceLoop_merged (E : Nat) : ∀ (rest : List KMemoryBlock) (prev : KMemoryBlock),
    Merged (prev :: rest) (coalesceLoop E prev rest) := by
  intro rest
  induction rest with
  | nil => intro prev; exact .refl _
  | cons it rest ih =>
    intro prev
    unfold coalesceLoop
    by_cases hm : prev.canMergeWith it = true
    · rw [if_pos hm]
      split
      · exact .merge hm (.refl _)
      · exact .merge hm (ih _)
    · rw [if_neg hm]
      split
      · exact .refl _
      · exact .keep _ (ih _)

theorem Merged.append {l l' : List KMemoryBlock} (pre : List KMemoryBlock) (h : Merged l l') :
    Merged (pre ++ l) (pre ++ l') := by
  induction pre with
  | nil => exact h
  | cons x pre ih => exact .keep x ih

theorem tiles_add {x y : KMemoryBlock} {l : List KMemoryBlock} (h : BlocksTile a e (x :: y :: l)) :
    BlocksTile a e (x.add y :: l) := by
  have hend : (x.add y).endAddress = y.endAddress := KMemoryBlock.add_endAddress h.2.2.1.symm
  have h1 := h.2.1
  have h2 := h.2.2.2.1
  refine ⟨h.1, by omega, ?_⟩
  rw [hend]
  exact h.2.2.2.2

section Merged

variable {l l' : List KMemoryBlock}

theorem Merged.tiles (h : Merged l l') : ∀ {a e : Nat}, BlocksTile a e l → BlocksTile a e l' := by
  induction h with
  | refl l => intro a e hl; exact hl
  | keep x h ih => intro a e hl; exact ⟨hl.1, hl.2.1, ih hl.2.2⟩
  | merge hm h ih => intro a e hl; exact ih (tiles_add hl)

theorem Merged.propertiesAt (h : Merged l l') : ∀ {a e : Nat}, BlocksTile a e l → ∀ p,
    Kernel.propertiesAt l' p = Kernel.propertiesAt l p := by
  induction h with
  | refl l => intro a e _ p; rfl
  | @keep l l' x h ih =>
    intro a e hl p
    have hl' : BlocksTile a e (x :: l') := ⟨hl.1, hl.2.1, h.tiles hl.2.2⟩
    rw [propertiesAt_cons hl, propertiesAt_cons hl', ih hl.2.2]
  | @merge x y l l' hm h ih =>
    intro a e hl p
    have hsum := tiles_add hl
    have hend : (x.add y).endAddress = y.endAddress := KMemoryBlock.add_endAddress hl.2.2.1.symm
    have hxy : x.properties = y.properties := (KMemoryBlock.canMergeWith_iff.1 hm).1
    have hmeet : y.address = x.endAddress := hl.2.2.1
    have hlt : x.endAddress < y.endAddress := hl.2.2.2.1
    rw [ih hsum, propertiesAt_cons hsum, propertiesAt_cons hl, propertiesAt_cons hl.2.2, hend,
      KMemoryBlock.add_properties, ← hxy, show (x.add y).address = x.address from rfl]
    grind

theorem Merged.forall_properties {Q : KMemoryProperties → Prop} (h : Merged l l') :
    (∀ b ∈ l, Q b.properties) → ∀ b ∈ l', Q b.properties := by
  induction h with
  | refl l => intro hl; exact hl
  | keep x h ih =>
    intro hl b hb
    rcases List.mem_cons.mp hb with rfl | hb
    · exact hl _ List.mem_cons_self
    · exact ih (fun c hc => hl c (List.mem_cons_of_mem _ hc)) b hb
  | @merge x y l l' hm h ih =>
    intro hl
    refine ih fun c hc => ?_
    rcases List.mem_cons.mp hc with rfl | hc
    · exact hl x List.mem_cons_self
    · exact hl c (List.mem_cons_of_mem _ (List.mem_cons_of_mem _ hc))

end Merged

/-- Neighbours that stay apart. -/
def Apart (x y : KMemoryBlock) : Prop := x.canMergeWith y = false

theorem isChain_apart_of_gt {l : List KMemoryBlock} (hl : BlocksTile a e l) (ha : E < a)
    (h : l.IsChain (fun x y => y.address ≤ E ∨ Apart x y)) : l.IsChain Apart := by
  refine List.IsChain.imp_of_mem_tail_imp ?_ h
  intro x y _ hy hxy
  have := (hl.bounds (List.mem_of_mem_tail hy)).1
  exact hxy.resolve_left (by omega)

/-- **The loop merges every boundary up to `E`**: if the blocks beyond `E` are apart, all blocks of
    the result are, and its first block shows the same left edge as before. -/
theorem coalesceLoop_apart : ∀ (rest : List KMemoryBlock) (prev : KMemoryBlock)
    {a e : Nat}, BlocksTile a e (prev :: rest) →
    (prev :: rest).IsChain (fun x y => y.address ≤ E ∨ Apart x y) →
    (coalesceLoop E prev rest).IsChain Apart ∧
      ∀ x ∈ (coalesceLoop E prev rest).head?, x.leftEdge = prev.leftEdge := by
  intro rest
  induction rest with
  | nil =>
    intro prev a e _ _; exact ⟨List.IsChain.singleton _, by rintro x ⟨⟩; rfl⟩
  | cons it rest ih =>
    intro prev a e hl hc
    rw [List.isChain_cons_cons] at hc
    have hmeet : prev.endAddress = it.address := hl.2.2.1.symm
    -- beyond `E` the old chain is already the wanted one
    have hrest : ∀ (z : KMemoryBlock), z.rightEdge = it.rightEdge → E < it.endAddress →
        (z :: rest).IsChain Apart := by
      intro z hz hE
      cases rest with
      | nil => exact List.IsChain.singleton _
      | cons w t =>
        rw [List.isChain_cons_cons] at hc
        have hw : w.address = it.endAddress := hl.2.2.2.2.1
        refine List.isChain_cons_cons.2 ⟨?_, isChain_apart_of_gt hl.2.2.2.2 hE hc.2.2⟩
        have := hc.2.1.resolve_left (by omega)
        unfold Apart at this ⊢
        rw [KMemoryBlock.canMergeWith_congr hz rfl]; exact this
    unfold coalesceLoop
    by_cases hm : prev.canMergeWith it = true
    · have hend : (prev.add it).endAddress = it.endAddress := KMemoryBlock.add_endAddress hmeet
      rw [if_pos hm, hend]
      split
      · next hE =>
        refine ⟨hrest _ (KMemoryBlock.add_rightEdge hm) hE, ?_⟩
        rintro x ⟨⟩
        exact KMemoryBlock.add_leftEdge hm
      · have hsum : (prev.add it :: rest).IsChain (fun x y => y.address ≤ E ∨ Apart x y) := by
          cases rest with
          | nil => exact List.IsChain.singleton _
          | cons w t =>
            rw [List.isChain_cons_cons] at hc ⊢
            refine ⟨hc.2.1.imp_right fun h => ?_, hc.2.2⟩
            unfold Apart at h ⊢
            rw [KMemoryBlock.canMergeWith_congr (KMemoryBlock.add_rightEdge hm) rfl]
            exact h
        obtain ⟨h1, h2⟩ := ih (prev.add it) (tiles_add hl) hsum
        exact ⟨h1, fun x hx => (h2 x hx).trans (KMemoryBlock.add_leftEdge hm)⟩
    · have hap : Apart prev it := Bool.eq_false_iff.2 hm
      rw [if_neg hm]
      split
      · next hE =>
        refine ⟨List.isChain_cons_cons.2 ⟨hap, hrest it rfl hE⟩, ?_⟩
        rintro x ⟨⟩
        rfl
      · obtain ⟨h1, h2⟩ := ih it hl.2.2 hc.2
        refine ⟨?_, by rintro x ⟨⟩; rfl⟩
        refine List.IsChain.cons h1 fun y hy => ?_
        unfold Apart at hap ⊢
        rw [KMemoryBlock.canMergeWith_congr rfl (h2 y hy)]; exact hap

/-! ## One call, from a tree that tiles the address space -/

theorem Updated.isChain_apartOutside {A : Nat} {l l' : List KMemoryBlock} {n : Nat} {ok : Bool}
    (h : Updated rule E A l l' n ok) (hl : BlocksTile a e l) (pre : List KMemoryBlock)
    (hc : (pre ++ l).IsChain (ApartOutside A E)) : (pre ++ l').IsChain (ApartOutside A E) := by
  rcases List.eq_nil_or_concat pre with rfl | ⟨pre, x, rfl⟩
  · -- put a block in front that merges with nothing
    cases l with
    | nil =>
      cases h with
      | done h => exact hc
    | cons it rest =>
      let wall : KMemoryBlock := { it with disableMergeAttribute := AllRight }
      have hwall : ApartOutside A E wall it := by
        refine Or.inr (Bool.eq_false_iff.2 fun hm => ?_)
        have := (KMemoryBlock.canMergeWith_iff.1 hm).2.1
        revert this
        show AllRight &&& AllRight ≠ 0
        decide
      exact (h.apartOutside hl (Nat.le_refl _) wall (List.isChain_cons_cons.2 ⟨hwall, hc⟩)).of_cons
  · rw [List.concat_eq_append, List.append_assoc, List.singleton_append, List.isChain_append] at hc ⊢
    refine ⟨hc.1, h.apartOutside hl (Nat.le_refl _) x hc.2.1, fun y hy z hz => ?_⟩
    exact hc.2.2 y hy z hz

theorem Updated.head_of_skip {l' : List KMemoryBlock} {n : Nat} {ok : Bool}
    (h : Updated rule E cur (it :: rest) l' n ok) (hs : rule.skip it = true) (hlo : it.address < cur) :
    ∃ t, l' = it :: t := by
  cases h with
  | done h => exact ⟨_, rfl⟩
  | skipLast hs hlo hhi => exact ⟨_, rfl⟩
  | skip hs hlo hcur hhi h => exact ⟨_, rfl⟩
  | cutBefore hs' => rw [hs] at hs'; cases hs'
  | cutAfter hlo' => omega
  | apply hs' => rw [hs] at hs'; cases hs'

theorem Updated.head_of_cut {l' : List KMemoryBlock} {n : Nat} {ok : Bool}
    (h : Updated rule E cur (it :: rest) l' n ok) (hs : rule.skip it = false) (hlo : it.address < cur)
    (hE : cur < E) : ∃ b t, l' = b :: t ∧ b.endAddress = cur := by
  cases h with
  | done h => omega
  | skipLast hs' => rw [hs] at hs'; cases hs'
  | skip hs' => rw [hs] at hs'; cases hs'
  | cutBefore _ _ hhi hdvd => exact ⟨_, _, rfl, (KMemoryBlock.split_bounds hlo hhi hdvd).2.1⟩
  | cutAfter hlo' => omega
  | apply _ hlo' => omega

theorem pageSize_dvd_of_tiles {l : List KMemoryBlock} : ∀ {a e : Nat}, PageSize ∣ a →
    BlocksTile a e l → PageSize ∣ e := by
  induction l with
  | nil => intro a e ha h; obtain rfl : a = e := h; exact ha
  | cons b l ih =>
    intro a e ha h; exact ih (pageSize_dvd_endAddress (h.1 ▸ ha)) h.2.2

namespace KMemoryBlockManager

/-- The blocks tile the managed address space. -/
structure Tiled (m : KMemoryBlockManager) : Prop where
  aligned : PageSize ∣ m.startAddress
  tiles : BlocksTile m.startAddress m.endAddress m.memoryBlockTree

section Step

variable {m : KMemoryBlockManager} {address numPages : Nat} {rule : UpdateRule}

/-- A page-aligned non-empty range inside the address space. -/
structure InRange (m : KMemoryBlockManager) (address numPages : Nat) : Prop where
  aligned : PageSize ∣ address
  pos : 0 < numPages
  start : m.startAddress ≤ address
  stop : address + numPages * PageSize ≤ m.endAddress

theorem InRange.lt (h : m.InRange address numPages) : address < m.endAddress := by
  have := Nat.le_mul_of_pos_left PageSize h.pos
  have := h.stop
  have : 0 < PageSize := by decide
  omega

theorem updateBlocks_updated (rule : UpdateRule) (hm : m.Tiled) (hr : m.InRange address numPages) :
    ∃ pre it post l' n ok a, m.memoryBlockTree = pre ++ it :: post ∧
      BlocksTile m.startAddress a pre ∧ BlocksTile a m.endAddress (it :: post) ∧
      it.address ≤ address ∧ address < it.endAddress ∧
      m.updateBlocks address numPages rule = ⟨pre ++ l', n, rule.entryAsserts && ok⟩ ∧
      Updated rule (address + numPages * PageSize) address (it :: post) l' n ok := by
  obtain ⟨pre, it, post, hspan, htree, hlo, hhi⟩ := hm.tiles.span_lookup hr.start hr.lt
  obtain ⟨a, hpre, hpost⟩ := (tiles_append_iff pre).1 (htree ▸ hm.tiles)
  have ha : PageSize ∣ a := pageSize_dvd_of_tiles hm.aligned hpre
  refine ⟨pre, it, post, _, _, _, a, htree, hpre, hpost, hlo, hhi, ?_,
    updateLoop_updated rule numPages (it :: post) address numPages a m.endAddress hpost ha
      hr.aligned (hpost.1 ▸ hlo) (Nat.le_refl _) hr.stop ?_⟩
  · unfold updateBlocks findIterator
    rw [hspan]
  · rintro _ ⟨⟩; exact hhi

theorem coalesceForUpdate_eq_some (hm : m.Tiled) (hr : m.InRange address numPages)
    (hback : address = m.startAddress ∨ ∃ b ∈ m.memoryBlockTree, b.endAddress ≤ address) :
    ∃ pre prev rest, m.memoryBlockTree = pre ++ prev :: rest ∧ (pre = [] ∨ prev.address < address) ∧
      m.coalesceForUpdate address numPages = some { m with
        memoryBlockTree := pre ++ coalesceLoop (address + numPages * PageSize) prev rest } := by
  obtain ⟨pre, it, post, hspan, htree, hlo, hhi⟩ := hm.tiles.span_lookup hr.start hr.lt
  obtain ⟨a, hpre, hpost⟩ := (tiles_append_iff pre).1 (htree ▸ hm.tiles)
  unfold coalesceForUpdate findIterator
  rw [hspan]
  by_cases hst : address = m.startAddress
  · -- the range starts where the address space does, so the iterator is the first block
    have hnil : pre = [] := by
      cases pre with
      | nil => rfl
      | cons b pre =>
        have h1 := (hpre.bounds List.mem_cons_self).2.2
        have h2 := hpre.2.1
        have h3 := hpost.1
        omega
    subst hnil
    refine ⟨[], it, post, htree, Or.inl rfl, ?_⟩
    simp [hst]
  · have hne : pre ≠ [] := by
      rintro rfl
      obtain ⟨b, hb, hbe⟩ := hback.resolve_left hst
      rw [htree] at hb
      rcases List.mem_cons.mp hb with rfl | hb
      · omega
      · have := hpost.2.2.bounds hb
        omega
    have hcut := List.dropLast_append_getLast hne
    have hlast := hpre.bounds (List.getLast_mem hne)
    refine ⟨pre.dropLast, pre.getLast hne, it :: post, ?_, Or.inr ?_, ?_⟩
    · rw [htree, List.append_cons pre.dropLast, hcut]
    · have := hpost.1
      omega
    · simp [hst, List.getLast?_eq_some_getLast hne]

theorem coalesceForUpdate_eq_none (numPages : Nat) {b : KMemoryBlock} {t : List KMemoryBlock}
    (htree : m.memoryBlockTree = b :: t) (hst : address ≠ m.startAddress)
    (hlo : b.address ≤ address) (hhi : address < b.endAddress) :
    m.coalesceForUpdate address numPages = none := by
  have hspan : findIterator m.memoryBlockTree address = ([], b :: t) := by
    rw [htree, findIterator, List.span_eq_takeWhile_dropWhile,
      List.takeWhile_cons_of_neg (by simp [hlo, hhi]), List.dropWhile_cons_of_neg (by simp [hlo, hhi])]
  simp [coalesceForUpdate, hspan, hst]

/-- The range starts strictly inside the first block and the loop skips that block: the case in
    which `CoalesceForUpdate` has no block to step back to. -/
def SkipsFirst (m : KMemoryBlockManager) (address : Nat) (rule : UpdateRule) : Prop :=
  address ≠ m.startAddress ∧
    ∃ b ∈ m.memoryBlockTree.head?, address < b.endAddress ∧ rule.skip b = true

theorem updateWith_eq_none (hm : m.Tiled) (hr : m.InRange address numPages)
    (hs : m.SkipsFirst address rule) : m.updateWith address numPages rule = none := by
  obtain ⟨pre, it, post, l', n, ok, a, htree, hpre, hpost, hlo, hhi, hup, h⟩ :=
    updateBlocks_updated rule hm hr
  obtain ⟨hst, b, hb, hbe, hskip⟩ := hs
  -- the first block contains the start of the range, so it is the block at the iterator
  have hnil : pre = [] := by
    cases pre with
    | nil => rfl
    | cons c pre =>
      rw [htree] at hb
      obtain rfl : c = b := by simpa using hb
      have h1 := hpre.2.2.le
      have h2 := hpost.1
      omega
  subst hnil
  obtain rfl : it = b := by simpa [htree] using hb
  obtain rfl : m.startAddress = a := hpre
  obtain ⟨t, rfl⟩ := h.head_of_skip hskip (by have := hpost.1; have := hr.start; omega)
  have hnone := coalesceForUpdate_eq_none (m := { m with memoryBlockTree := it :: t })
    numPages rfl hst hlo hhi
  simp [updateWith, hup, hnone]

theorem updateWith_eq_some (rule : UpdateRule) (hm : m.Tiled) (hr : m.InRange address numPages)
    (hs : ¬ m.SkipsFirst address rule) :
    ∃ m', m.updateWith address numPages rule = some (m', m.updateBlocks address numPages rule) ∧
      m'.startAddress = m.startAddress ∧ m'.endAddress = m.endAddress ∧
      Merged (m.updateBlocks address numPages rule).blocks m'.memoryBlockTree ∧
      (m.memoryBlockTree.IsChain Apart → m'.memoryBlockTree.IsChain Apart) := by
  obtain ⟨pre, it, post, l', n, ok, a, htree, hpre, hpost, hlo, hhi, hup, h⟩ :=
    updateBlocks_updated rule hm hr
  have hE : address < address + numPages * PageSize :=
    Nat.lt_add_of_pos_right (Nat.mul_pos hr.pos (by decide))
  have htiled : Tiled { m with memoryBlockTree := pre ++ l' } :=
    ⟨hm.aligned, hpre.append (h.tiles hpost)⟩
  have hback : address = m.startAddress ∨ ∃ b ∈ pre ++ l', b.endAddress ≤ address := by
    by_cases hst : address = m.startAddress
    · exact Or.inl hst
    refine Or.inr ?_
    cases pre with
    | cons c pre =>
      have h1 := hpre.2.2.le
      have h2 := hpost.1
      exact ⟨c, List.mem_cons_self, by omega⟩
    | nil =>
      obtain rfl : m.startAddress = a := hpre
      have hskip : rule.skip it = false := by
        refine Bool.eq_false_iff.2 fun hskip => hs ⟨hst, it, ?_, hhi, hskip⟩
        rw [htree]; rfl
      have h1 := hpost.1
      obtain ⟨b, t, rfl, hb⟩ := h.head_of_cut hskip (by omega) hE
      exact ⟨b, List.mem_cons_self, Nat.le_of_eq hb⟩
  obtain ⟨pre₂, prev, rest, htree₂, hfar, hco⟩ :=
    coalesceForUpdate_eq_some htiled ⟨hr.aligned, hr.pos, hr.start, hr.stop⟩ hback
  refine ⟨{ m with memoryBlockTree :=
      pre₂ ++ coalesceLoop (address + numPages * PageSize) prev rest }, ?_, rfl, rfl, ?_, ?_⟩
  · simp [updateWith, hup, hco]
  · rw [hup, show pre ++ l' = pre₂ ++ prev :: rest from htree₂]
    exact (coalesceLoop_merged _ rest prev).append pre₂
  · intro hchain
    have hmid : (pre ++ l').IsChain (ApartOutside address (address + numPages * PageSize)) :=
      h.isChain_apartOutside hpost pre ((htree ▸ hchain).imp fun x y hxy => Or.inr hxy)
    obtain ⟨b, hpre₂, hrest⟩ := (tiles_append_iff pre₂).1 (htree₂ ▸ htiled.tiles)
    rw [show pre ++ l' = pre₂ ++ prev :: rest from htree₂, List.isChain_append] at hmid
    obtain ⟨hc1, hc2, hc3⟩ := hmid
    obtain ⟨hco1, hco2⟩ := coalesceLoop_apart rest prev hrest
      (hc2.imp fun x y hxy => hxy.imp_left And.right)
    -- boundaries in front of the loop lie before the range, where nothing changed
    refine List.IsChain.append ?_ hco1 fun x hx y hy => ?_
    · refine List.IsChain.imp_of_mem_tail_imp (fun x y _ hy hxy => ?_) hc1
      have hy' := hpre₂.bounds (List.mem_of_mem_tail hy)
      have hp := hrest.1
      rcases hfar with rfl | hfar
      · exact absurd hy List.not_mem_nil
      · exact hxy.resolve_left (by omega)
    · rcases hfar with rfl | hfar
      · cases hx
      · have hap : Apart x prev := (hc3 x hx prev rfl).resolve_left (by omega)
        unfold Apart at hap ⊢
        rw [KMemoryBlock.canMergeWith_congr rfl (hco2 y hy)]; exact hap

theorem updateWith_cases {m' : KMemoryBlockManager} {r : UpdateResult} (hm : m.Tiled)
    (hr : m.InRange address numPages) (h : m.updateWith address numPages rule = some (m', r)) :
    r = m.updateBlocks address numPages rule ∧
      m'.startAddress = m.startAddress ∧ m'.endAddress = m.endAddress ∧
      Merged r.blocks m'.memoryBlockTree ∧
      (m.memoryBlockTree.IsChain Apart → m'.memoryBlockTree.IsChain Apart) := by
  by_cases hs : m.SkipsFirst address rule
  · rw [updateWith_eq_none hm hr hs] at h
    cases h
  · obtain ⟨m₁, h₁, hst, hnd, hmer, hap⟩ := updateWith_eq_some rule hm hr hs
    rw [h₁, Option.some.injEq, Prod.mk.injEq] at h
    obtain ⟨rfl, rfl⟩ := h; exact ⟨rfl, hst, hnd, hmer, hap⟩

end Step

end KMemoryBlockManager

end Suyu.Kernel
