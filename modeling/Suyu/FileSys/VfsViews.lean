import Suyu.FileSys.VfsFile

/-
  Views of the virtual file system read like slices: up to their end.

  1. **Program** - `VfsFile.read` over any nesting of the four classes.

  2. **Specification (`slice`)** - `min(length, max(0, size - offset))` bytes of the content from
     `offset` on.

  3. **The crux (`Reads`)** - a read that starts AT OR BEFORE the end is exact in every view, because the
     view below is then asked at or before its own end again. The entries of a concatenation are laid end
     to end (`Laid`), so that the one found by `upper_bound` covers the offset.

  4. **When it goes wrong** - past the end `size - offset` wraps: a vector copies bytes from behind its
     memory, a static file repeats its byte, and an `OffsetVfsFile` reads and WRITES the file below
     outside of its window. Only a concatenation checks for it (`TrimsAt`).
-/

namespace Suyu.FileSys.Vfs

/-! ## Slices -/

theorem length_slice (c : List UInt8) (n p : Nat) : (slice c n p).length = min n (c.length - p) := by
  simp [slice]

@[simp] theorem slice_zero (c : List UInt8) (p : Nat) : slice c 0 p = [] := by
  simp [slice]

variable {c : List UInt8} {f : VfsFile} {cs : List (List UInt8)} {map : List (Nat × Methods)}
    {start : Nat} (filler : UInt8)

theorem slice_past {p : Nat} (n : Nat) (h : c.length ≤ p) : slice c n p = [] := by
  simp [slice, List.drop_eq_nil_of_le h]

theorem slice_ne_nil {n p : Nat} (hn : 0 < n) (hp : p < c.length) : slice c n p ≠ [] := by
  intro h
  have hlen := length_slice c n p
  rw [h, List.length_nil] at hlen
  omega

theorem slice_min (c : List UInt8) (n p : Nat) : slice c (min n (c.length - p)) p = slice c n p := by
  unfold slice
  rw [← List.length_drop, ← List.take_take, List.take_length]

theorem slice_append_left {a : List UInt8} {p : Nat} (b : List UInt8) (n : Nat) (hp : p ≤ a.length) :
    slice (a ++ b) n p = slice a n p ++ slice b (n - (a.length - p)) 0 := by
  unfold slice
  rw [List.drop_append_of_le_length hp, List.take_append, List.length_drop, List.drop_zero]

theorem slice_append_right (a b : List UInt8) (n p : Nat) :
    slice (a ++ b) n (a.length + p) = slice b n p := by
  unfold slice
  rw [List.drop_append, List.drop_of_length_le (by omega), List.nil_append, Nat.add_sub_cancel_left]

theorem slice_slice (c : List UInt8) (s o n p : Nat) :
    slice (slice c s o) n p = slice c (min n (s - p)) (o + p) := by
  unfold slice
  rw [List.drop_take, List.drop_drop, List.take_take]

theorem slice_replicate (v : UInt8) (s n p : Nat) :
    slice (List.replicate s v) n p = List.replicate (min n (s - p)) v := by
  simp [slice]

/-! ## Reads that start inside -/

/-- What the functions of a view over `c` do wherever they are asked at or before the end. -/
structure Reads (m : Methods) (c : List UInt8) : Prop where
  getSize : m.getSize = c.length
  bounded : c.length < 2 ^ 64
  inside : ∀ n p, p ≤ c.length → m.read n p = some (slice c n p)
  nothing : ∀ p, m.read 0 p = some []

theorem vector_reads {data : List UInt8} (h : data.length < 2 ^ 63) :
    Reads (VfsFile.vector data).methods data := by
  refine ⟨rfl, by omega, fun n p hp => ?_, fun p => ?_⟩
  · have hsub : sizeSub data.length p = data.length - p := sizeSub_of_le hp (by omega)
    show vectorRead data n p = _
    rw [vectorRead, hsub, if_pos (by omega)]
    exact congrArg some (slice_min data n p)
  · show vectorRead data 0 p = _
    rw [vectorRead, if_pos (Or.inl (Nat.zero_min _)), Nat.zero_min, List.take_zero]

theorem static_reads (value : UInt8) {size : Nat} (h : size < 2 ^ 64) :
    Reads (VfsFile.static value size).methods (List.replicate size value) := by
  refine ⟨List.length_replicate.symm, by simpa using h, fun n p hp => ?_, fun p => ?_⟩
  · have hsub : sizeSub size p = size - p := sizeSub_of_le (by simpa using hp) h
    show staticRead value size n p = _
    rw [staticRead, hsub, slice_replicate]
  · show staticRead value size 0 p = _
    rw [staticRead, Nat.zero_min, List.replicate_zero]

theorem offset_reads {size offset : Nat} (h : Reads f.methods c) (hin : offset + size ≤ c.length) :
    Reads (VfsFile.offset f size offset).methods (slice c size offset) := by
  have hb := h.bounded
  have hlen : (slice c size offset).length = size := by rw [length_slice]; omega
  refine ⟨hlen.symm, by omega, fun n p hp => ?_, fun p => ?_⟩
  · show f.methods.read (trimToFit size n p) (sizeAdd offset p) = _
    have hp : p ≤ size := hlen ▸ hp
    rw [trimToFit, sizeSub_of_le hp (by omega), sizeAdd_of_lt (by omega), slice_slice]
    exact h.inside _ _ (by omega)
  · show f.methods.read (trimToFit size 0 p) (sizeAdd offset p) = _
    rw [trimToFit, Nat.zero_min]; exact h.nothing _

/-! ## The entries of a concatenation -/

/-- The entries lie end to end from `start` on, over these contents. -/
def Laid : Nat → List (Nat × Methods) → List (List UInt8) → Prop
  | _, [], [] => True
  | start, (offset, file) :: map, c :: cs =>
      offset = start ∧ Reads file c ∧ Laid (start + c.length) map cs
  | _, _, _ => False

theorem concatenatedLoop_zero (map : List (Nat × Methods)) (p : Nat) :
    concatenatedLoop map 0 p = some [] := by
  cases map with
  | nil => rfl
  | cons entry rest => exact if_pos rfl

theorem concatenatedLoop_laid (hlaid : Laid start map cs) (hend : start + cs.flatten.length < 2 ^ 64)
    (n p : Nat) (hcover : ∀ c ∈ cs.head?, p ≤ c.length ∨ map.length = 1) :
    concatenatedLoop map n (start + p) = some (slice cs.flatten n p) := by
  induction map generalizing cs start n p with
  | nil =>
    cases cs with
    | nil => exact congrArg some (slice_past n (Nat.zero_le p)).symm
    | cons c cs => exact hlaid.elim
  | cons entry rest ih =>
    obtain ⟨offset, file⟩ := entry
    cases cs with
    | nil => exact hlaid.elim
    | cons c cs =>
      obtain ⟨rfl, hreads, hrest⟩ := hlaid
      rw [List.flatten_cons, List.length_append] at hend
      by_cases hn : n = 0
      · rw [hn, concatenatedLoop_zero, slice_zero]
      rw [concatenatedLoop, if_neg hn, hreads.getSize, sizeAdd_of_lt (by omega), List.flatten_cons]
      by_cases hpast : offset + c.length < offset + p
      · -- the last entry, and the offset is behind it
        have hlast : (rest : List (Nat × Methods)) = [] := by
          have := (hcover c rfl).resolve_left (by omega)
          simpa using this
        have hnil : cs = [] := by
          subst hlast
          cases cs with
          | nil => rfl
          | cons d ds => exact hrest.elim
        subst hnil
        rw [if_pos hpast, slice_past n (by simpa using by omega)]
      · have hp : p ≤ c.length := by omega
        have hseek : sizeSub (offset + p) offset = p := by
          rw [sizeSub_of_le (by omega) (by omega), Nat.add_sub_cancel_left]
        have hlen : (slice c (min n (c.length - p)) p).length = min n (c.length - p) := by
          rw [length_slice]; omega
        rw [if_neg hpast]
        simp only [hseek, sizeSub_of_le hp (show c.length < 2 ^ 64 by omega), hreads.inside _ p hp,
          Option.bind_some, hlen, Nat.lt_irrefl, if_false]
        rw [slice_append_left _ n hp, slice_min]
        by_cases hmore : n ≤ c.length - p
        · rw [Nat.min_eq_left hmore, Nat.sub_self, concatenatedLoop_zero, Nat.sub_eq_zero_of_le hmore]
          simp
        · have hmin : min n (c.length - p) = c.length - p := by omega
          have hnext : sizeAdd (offset + p) (c.length - p) = offset + c.length + 0 := by
            rw [sizeAdd_of_lt (by omega)]; omega
          rw [hmin, hnext, ih hrest (by omega) _ 0 fun _ _ => Or.inl (Nat.zero_le _)]
          rfl

theorem prevUpperBound_laid {p : Nat} (hlaid : Laid start map cs) (hne : map ≠ []) (hle : start ≤ p) :
    ∃ map' cs' front, prevUpperBound map p = some map' ∧ cs.flatten = front ++ cs'.flatten ∧
      Laid (start + front.length) map' cs' ∧ start + front.length ≤ p ∧
      ∀ c ∈ cs'.head?, p ≤ start + front.length + c.length ∨ map'.length = 1 := by
  induction map generalizing cs start with
  | nil => exact absurd rfl hne
  | cons entry rest ih =>
    obtain ⟨offset, file⟩ := entry
    cases cs with
    | nil => exact hlaid.elim
    | cons c cs =>
      have hlaid' := hlaid
      obtain ⟨rfl, hreads, hrest⟩ := hlaid
      have hfirst : ¬ p < offset := by omega
      have hidx : (((offset, file) :: rest).findIdx fun entry => decide (p < entry.1)) =
          (rest.findIdx fun entry => decide (p < entry.1)) + 1 := by
        rw [List.findIdx_cons]; simp [hfirst]
      cases rest with
      | nil => exact ⟨_, _, [], by rw [prevUpperBound, hidx]; rfl, rfl, hlaid', hle, fun _ _ =>
          Or.inr rfl⟩
      | cons next rest =>
        obtain ⟨offset', file'⟩ := next
        cases cs with
        | nil => exact hrest.elim
        | cons c' cs =>
          obtain ⟨rfl, -⟩ := id hrest
          by_cases hin : offset + c.length ≤ p
          · -- the next entry does not start behind the offset either
            obtain ⟨map', cs', front, hfind, hcs, hlaid'', hle', hcover⟩ :=
              ih hrest (List.cons_ne_nil _ _) hin
            refine ⟨map', cs', c ++ front, ?_, ?_, ?_, ?_, ?_⟩
            · rw [prevUpperBound, hidx]
              rw [prevUpperBound] at hfind
              cases hk : (((offset + c.length, file') :: rest).findIdx fun entry =>
                  decide (p < entry.1)) with
              | zero => rw [hk] at hfind; cases hfind
              | succ k =>
                rw [hk] at hfind; exact hfind
            · rw [List.flatten_cons, hcs, List.append_assoc]
            · rwa [List.length_append, ← Nat.add_assoc]
            · rwa [List.length_append, ← Nat.add_assoc]
            · rwa [List.length_append, ← Nat.add_assoc]
          · have hzero : (((offset + c.length, file') :: rest).findIdx fun entry =>
                decide (p < entry.1)) = 0 := by
              rw [List.findIdx_cons]; simp [show p < offset + c.length by omega]
            refine ⟨_, _, [], by rw [prevUpperBound, hidx, hzero]; rfl, rfl, hlaid', hle, ?_⟩
            intro d hd
            obtain rfl : c = d := by simpa using hd
            left
            simp only [List.length_nil]; omega

theorem concatenatedRead_laid (hlaid : Laid 0 map cs) (hne : map ≠ [])
    (hend : cs.flatten.length < 2 ^ 64) (n p : Nat) :
    concatenatedRead map n p = some (slice cs.flatten n p) := by
  obtain ⟨map', cs', front, hfind, hcs, hlaid', hle, hcover⟩ :=
    prevUpperBound_laid hlaid hne (Nat.zero_le p)
  rw [Nat.zero_add] at hlaid' hle hcover
  obtain ⟨q, rfl⟩ := Nat.exists_eq_add_of_le hle
  have hend' : front.length + cs'.flatten.length < 2 ^ 64 := by
    rwa [hcs, List.length_append] at hend
  have hloop := concatenatedLoop_laid hlaid' hend' n q fun c hc => (hcover c hc).imp_left (by omega)
  rw [hcs, slice_append_right]
  cases map with
  | nil => exact absurd rfl hne
  | cons entry rest =>
    show (prevUpperBound (entry :: rest) _).bind _ = _
    rw [hfind]; exact hloop

theorem concatenatedGetSize_laid (hlaid : Laid start map cs) (hne : map ≠ [])
    (hend : start + cs.flatten.length < 2 ^ 64) :
    concatenatedGetSize map = start + cs.flatten.length := by
  induction map generalizing cs start with
  | nil => exact absurd rfl hne
  | cons entry rest ih =>
    obtain ⟨offset, file⟩ := entry
    cases cs with
    | nil => exact hlaid.elim
    | cons c cs =>
      obtain ⟨rfl, hreads, hrest⟩ := hlaid
      rw [List.flatten_cons, List.length_append] at hend ⊢
      cases rest with
      | nil =>
        cases cs with
        | nil =>
          show sizeAdd offset file.getSize = _
          rw [hreads.getSize, sizeAdd_of_lt (by simpa using hend)]; simp
        | cons d ds => exact hrest.elim
      | cons next rest =>
        have hlast : concatenatedGetSize ((offset, file) :: next :: rest) =
            concatenatedGetSize (next :: rest) := by
          simp [concatenatedGetSize]
        rw [hlast, ih hrest (List.cons_ne_nil _ _) (by omega)]; omega

/-! ## The makers -/

theorem makeConcatenatedFile_eq {files : List VfsFile} (hmake : makeConcatenatedFile files = some f) :
    files = [f] ∨ f = .concatenated (joinedMap 0 files) ∧ files ≠ [] := by
  match files with
  | [] => cases hmake
  | [file] => exact Or.inl (congrArg (fun x => [x]) (Option.some.inj hmake))
  | a :: b :: rest => exact Or.inr ⟨(Option.some.inj hmake).symm, List.cons_ne_nil _ _⟩

theorem makeFilledFile_eq {filler : UInt8} {files : List (Nat × VfsFile)}
    (hmake : makeFilledFile filler files = some f) :
    (∃ offset, files = [(offset, f)]) ∨ f = .concatenated (filledMap filler 0 files) ∧ files ≠ [] := by
  match files with
  | [] => cases hmake
  | [(offset, file)] => exact Or.inl ⟨offset, by rw [Option.some.inj hmake]⟩
  | a :: b :: rest => exact Or.inr ⟨(Option.some.inj hmake).symm, List.cons_ne_nil _ _⟩

theorem joinedMap_laid {pieces : List (VfsFile × List UInt8)}
    (hreads : ∀ p ∈ pieces, Reads p.1.methods p.2)
    (hend : start + (pieces.map Prod.snd).flatten.length < 2 ^ 64) :
    Laid start (entryMethods (joinedMap start (pieces.map Prod.fst))) (pieces.map Prod.snd) := by
  induction pieces generalizing start with
  | nil => trivial
  | cons piece rest ih =>
    obtain ⟨file, c⟩ := piece
    have hfile : Reads file.methods c := hreads _ List.mem_cons_self
    have hsize : file.getSize = c.length := hfile.getSize
    have hend : start + (c.length + (rest.map Prod.snd).flatten.length) < 2 ^ 64 := by
      rwa [List.map_cons, List.flatten_cons, List.length_append] at hend
    have hnext : sizeAdd start file.getSize = start + c.length := by
      rw [hsize, sizeAdd_of_lt (by omega)]
    refine ⟨rfl, hfile, ?_⟩
    show Laid _ (entryMethods (joinedMap (sizeAdd start file.getSize) _)) _
    rw [hnext]
    exact ih (fun p hp => hreads p (List.mem_cons_of_mem _ hp)) (by rw [Nat.add_assoc]; exact hend)

theorem placed_end {pieces : List (Nat × List UInt8)} {last : Nat} (h : Spaced last pieces) :
    last + (placed filler last pieces).length < 2 ^ 64 := by
  induction pieces generalizing last with
  | nil => exact h
  | cons piece rest ih =>
    obtain ⟨offset, c⟩ := piece
    have hend := ih h.2
    have hle : last ≤ offset := h.1
    simp only [placed, List.length_append, List.length_replicate]; omega

theorem filledMap_laid {pieces : List (Nat × VfsFile × List UInt8)}
    (hreads : ∀ p ∈ pieces, Reads p.2.1.methods p.2.2)
    (hspaced : Spaced start (pieces.map fun p => (p.1, p.2.2))) :
    ∃ cs, Laid start (entryMethods (filledMap filler start (pieces.map fun p => (p.1, p.2.1)))) cs ∧
      cs.flatten = placed filler start (pieces.map fun p => (p.1, p.2.2)) := by
  induction pieces generalizing start with
  | nil => exact ⟨[], trivial, rfl⟩
  | cons piece rest ih =>
    obtain ⟨offset, file, c⟩ := piece
    obtain ⟨hle, hrest⟩ := hspaced
    have hle : start ≤ offset := hle
    have hfile : Reads file.methods c := hreads _ List.mem_cons_self
    have hsize : file.getSize = c.length := hfile.getSize
    have hend := placed_end filler hrest
    obtain ⟨cs, hlaid, hcs⟩ := ih (fun p hp => hreads p (List.mem_cons_of_mem _ hp)) hrest
    have hnext : sizeAdd offset file.getSize = offset + c.length := by
      rw [hsize, sizeAdd_of_lt (Nat.lt_of_le_of_lt (Nat.le_add_right _ _) hend)]
    have hoffset : offset < 2 ^ 64 := by omega
    rw [List.map_cons, filledMap, hnext]
    by_cases hgap : start < offset
    · rw [if_pos hgap, sizeSub_of_le hle hoffset]
      have hfill : start + (List.replicate (offset - start) filler).length = offset := by
        rw [List.length_replicate]; omega
      refine ⟨List.replicate (offset - start) filler :: c :: cs, ⟨rfl, ?_, hfill.symm, hfile, ?_⟩, ?_⟩
      · exact static_reads filler (by omega)
      · rw [hfill]
        exact hlaid
      · rw [List.flatten_cons, List.flatten_cons, hcs, List.map_cons, placed, List.append_assoc]
    · obtain rfl : start = offset := by omega
      rw [if_neg hgap]
      refine ⟨c :: cs, ⟨rfl, hfile, hlaid⟩, ?_⟩
      rw [List.flatten_cons, hcs, List.map_cons, placed, Nat.sub_self]; rfl

theorem entryMethods_ne_nil {map : List (Nat × VfsFile)} (h : map ≠ []) : entryMethods map ≠ [] := by
  cases map with
  | nil => exact absurd rfl h
  | cons entry rest => exact List.cons_ne_nil _ _

theorem joinedMap_ne_nil {files : List VfsFile} (start : Nat) (h : files ≠ []) :
    joinedMap start files ≠ [] := by
  cases files with
  | nil => exact absurd rfl h
  | cons file rest => exact List.cons_ne_nil _ _

theorem filledMap_ne_nil {files : List (Nat × VfsFile)} (start : Nat) (h : files ≠ []) :
    filledMap filler start files ≠ [] := by
  cases files with
  | nil => exact absurd rfl h
  | cons file rest =>
    rw [filledMap]
    split <;> exact List.cons_ne_nil _ _

/-! ## Every view -/

theorem concatenated_reads {map : List (Nat × VfsFile)} (hlaid : Laid 0 (entryMethods map) cs)
    (hne : map ≠ []) (hend : cs.flatten.length < 2 ^ 64) :
    Reads (VfsFile.concatenated map).methods cs.flatten where
  getSize := by
    have h := concatenatedGetSize_laid hlaid (entryMethods_ne_nil hne) (by rwa [Nat.zero_add])
    rwa [Nat.zero_add] at h
  bounded := hend
  inside n p _ := concatenatedRead_laid hlaid (entryMethods_ne_nil hne) hend n p
  nothing p := by
    have h := concatenatedRead_laid hlaid (entryMethods_ne_nil hne) hend 0 p
    rwa [slice_zero] at h

/-- A VIEW IS ONE OF FOUR THINGS, so that later results need not look at the makers again. -/
@[elab_as_elim]
theorem View.byKind {motive : VfsFile → List UInt8 → Prop}
    (vector : ∀ data : List UInt8, data.length < 2 ^ 63 → motive (.vector data) data)
    (static : ∀ (value : UInt8) (size : Nat), size < 2 ^ 64 →
      motive (.static value size) (.replicate size value))
    (concatenated : ∀ (map : List (Nat × VfsFile)) (cs : List (List UInt8)),
      Laid 0 (entryMethods map) cs → map ≠ [] → cs.flatten.length < 2 ^ 64 →
      motive (.concatenated map) cs.flatten)
    (offset : ∀ (f : VfsFile) (c : List UInt8) (size offset : Nat), View f c →
      offset + size ≤ c.length → motive f c → motive (.offset f size offset) (slice c size offset))
    (h : View f c) : motive f c := by
  -- the pieces of a map are laid out because each of them reads its part
  suffices hboth : Reads f.methods c ∧ motive f c from hboth.2
  induction h with
  | vector data hsize => exact ⟨vector_reads hsize, vector data hsize⟩
  | static value size hsize => exact ⟨static_reads value hsize, static value size hsize⟩
  | joined pieces f _ hend hmake ih =>
    obtain hsingle | ⟨rfl, hne⟩ := makeConcatenatedFile_eq hmake
    · obtain ⟨⟨g, d⟩, rfl, hg⟩ := List.map_eq_singleton_iff.mp hsingle
      obtain rfl : g = f := hg
      have hflat : ([(g, d)].map Prod.snd).flatten = d := List.append_nil d
      rw [hflat]
      exact ih _ List.mem_cons_self
    · have hlaid := joinedMap_laid (fun p hp => (ih p hp).1) (by rwa [Nat.zero_add])
      have hne := joinedMap_ne_nil 0 hne
      exact ⟨concatenated_reads hlaid hne hend, concatenated _ _ hlaid hne hend⟩
  | filled filler pieces f _ hspaced hfirst hmake ih =>
    obtain ⟨o, hsingle⟩ | ⟨rfl, hne⟩ := makeFilledFile_eq hmake
    · obtain ⟨⟨o, g, d⟩, rfl, hg⟩ := List.map_eq_singleton_iff.mp hsingle
      obtain ⟨rfl, rfl⟩ := Prod.mk.inj hg
      obtain rfl : o = 0 := hfirst _ rfl
      have hflat : placed filler 0 ([(0, g, d)].map fun p => (p.1, p.2.2)) = d := List.append_nil d
      rw [hflat]
      exact ih _ List.mem_cons_self
    · obtain ⟨cs, hlaid, hcs⟩ := filledMap_laid filler (fun p hp => (ih p hp).1) hspaced
      have hne := filledMap_ne_nil filler 0 hne
      have hend := placed_end filler hspaced
      rw [← hcs] at hend ⊢
      rw [Nat.zero_add] at hend
      exact ⟨concatenated_reads hlaid hne hend, concatenated _ _ hlaid hne hend⟩
  | offset size offset' hf hin ih =>
    exact ⟨offset_reads ih.1 hin, offset _ _ size offset' hf hin ih.2⟩

theorem View.reads (h : View f c) : Reads f.methods c := by
  refine View.byKind ?vector ?static ?concatenated ?offset h
  case vector => exact fun data hsize => vector_reads hsize
  case static => exact fun value size hsize => static_reads value hsize
  case concatenated => exact fun map cs hlaid hne hend => concatenated_reads hlaid hne hend
  case offset => exact fun f c size offset _ hin ih => offset_reads ih hin

/-! ## Past the end -/

/-- At `p` a length is trimmed to the end of the object: inside always; behind the end only by a
    concatenation, or where the file below is asked behind (or at) ITS end and trims there. -/
def TrimsAt : VfsFile → Nat → Prop
  | .vector data, p => p ≤ data.length
  | .static _ size, p => p ≤ size
  | .concatenated _, _ => True
  | .offset f size offset, p =>
    p ≤ size ∨ f.getSize ≤ sizeAdd offset p ∧ TrimsAt f (sizeAdd offset p)

theorem View.trimsAt_inside (h : View f c) : ∀ p, p ≤ c.length → TrimsAt f p := by
  refine View.byKind ?vector ?static ?concatenated ?offset h
  case vector => exact fun data _ _ hp => hp
  case static => exact fun value size _ _ hp => by simpa [TrimsAt] using hp
  case concatenated => exact fun map cs _ _ _ _ _ => trivial
  case offset =>
    intro f c size offset _ hin _ p hp
    rw [length_slice] at hp; exact Or.inl (by omega)

theorem View.read_past (h : View f c) :
    ∀ n p, 0 < n → p < 2 ^ 64 → c.length ≤ p → (f.read n p = some [] ↔ TrimsAt f p) := by
  refine View.byKind ?vector ?static ?concatenated ?offset h
  case vector =>
    intro data hsize n p hn hp hle
    show vectorRead data n p = some [] ↔ p ≤ data.length
    obtain heq | hlt := Nat.eq_or_lt_of_le hle
    · have h0 : sizeSub data.length p = 0 := by rw [sizeSub_of_le (by omega) (by omega)]; omega
      refine iff_of_true ?_ (by omega)
      rw [vectorRead, h0, Nat.min_zero, if_pos (Or.inl rfl), List.take_zero]
    · -- the difference wraps, and the copy leaves the memory of the vector
      have hsub := sizeSub_of_lt hlt hp
      refine iff_of_false ?_ (by omega)
      rw [vectorRead, hsub, if_neg (by omega)]; exact fun h => nomatch h
  case static =>
    intro value size hsize n p hn hp hle
    rw [List.length_replicate] at hle
    show staticRead value size n p = some [] ↔ p ≤ size
    obtain heq | hlt := Nat.eq_or_lt_of_le hle
    · have h0 : sizeSub size p = 0 := by rw [sizeSub_of_le (by omega) hsize]; omega
      exact iff_of_true (by rw [staticRead, h0, Nat.min_zero, List.replicate_zero]) (by omega)
    · have hsub := sizeSub_of_lt hlt hp
      refine iff_of_false ?_ (by omega)
      rw [staticRead, hsub]
      intro h
      have hlen := congrArg List.length (Option.some.inj h)
      rw [List.length_replicate, List.length_nil] at hlen; omega
  case concatenated =>
    intro map cs hlaid hne hend n p _ _ hle
    have hread := concatenatedRead_laid hlaid (entryMethods_ne_nil hne) hend n p
    exact iff_of_true (hread.trans (congrArg some (slice_past n hle))) trivial
  case offset =>
    intro f c size offset hf hin ih n p hn hp hle
    have hb := hf.reads.bounded
    have hle : size ≤ p := by
      rw [length_slice] at hle; omega
    show f.methods.read (trimToFit size n p) (sizeAdd offset p) = some [] ↔ _ ∨ _
    obtain heq | hlt := Nat.eq_or_lt_of_le hle
    · have h0 : trimToFit size n p = 0 := by
        rw [trimToFit, sizeSub_of_le (by omega) (by omega)]; omega
      rw [h0]
      exact iff_of_true (hf.reads.nothing _) (Or.inl (by omega))
    · -- a length of one or more is handed on
      have htrim : 0 < trimToFit size n p := by
        rw [trimToFit, sizeSub_of_lt hlt hp]; omega
      have hsize : f.getSize = c.length := hf.reads.getSize
      rw [or_iff_right (by omega : ¬ p ≤ size), hsize]
      by_cases hbelow : c.length ≤ sizeAdd offset p
      · rw [and_iff_right hbelow]
        exact ih _ _ htrim (sizeAdd_lt _ _) hbelow
      · refine iff_of_false ?_ fun h => hbelow h.1
        rw [hf.reads.inside _ _ (by omega)]
        exact fun h => slice_ne_nil htrim (by omega) (Option.some.inj h)

theorem View.read_exact (h : View f c) {n p : Nat} (hp : p < 2 ^ 64) :
    f.read n p = some (slice c n p) ↔ n = 0 ∨ TrimsAt f p := by
  obtain rfl | hn := Nat.eq_zero_or_pos n
  · rw [slice_zero]; exact iff_of_true (h.reads.nothing p) (Or.inl rfl)
  by_cases hin : p ≤ c.length
  · exact iff_of_true (h.reads.inside n p hin) (Or.inr (h.trimsAt_inside p hin))
  · rw [slice_past n (by omega), or_iff_right (by omega)]; exact h.read_past n p hn hp (by omega)

end Suyu.FileSys.Vfs
