import Suyu.FileSys.VfsViews

/-
  The window of an `OffsetVfsFile`: which writes stay inside, and which reads and writes are exact.

  1. **Program** - `VfsFile.write`: an `OffsetVfsFile` trims the length to the rest of its window and
     hands the bytes on; only a vector takes them, and it GROWS when they end behind it, also for a
     write of no bytes.

  2. **Specification (`SameOutside`)** - nothing of the file below has changed outside of the window,
     down to the vector at the bottom.

  3. **When it goes wrong** - at a position behind the window the trimmed length is not zero, and the
     bytes go to the file below behind the window (or, where the position wraps, in front of it). They
     are lost only where a window further down ends exactly there, or nothing is writable (`Drops`).
-/

namespace Suyu.FileSys.Vfs

/-! ## What a write may change -/

/-- Nothing of the file outside of `[lo, hi)` has changed. -/
def SameOutside : Nat → Nat → VfsFile → VfsFile → Prop
  | lo, hi, .vector d, .vector d' => d'.length = d.length ∧ ∀ i, i < lo ∨ hi ≤ i → d'[i]? = d[i]?
  | lo, hi, .offset f s o, .offset f' s' o' => s' = s ∧ o' = o ∧ SameOutside (o + lo) (o + hi) f f'
  | _, _, f, f' => f' = f

/-- No `n` bytes written at `p` change the file outside of `[lo, hi)`. -/
def Confined (lo hi : Nat) (f : VfsFile) (n p : Nat) : Prop :=
  ∀ bytes : List UInt8, bytes.length = n → ∃ f' m, f.write bytes p = some (f', m) ∧ SameOutside lo hi f f'

/-- `OffsetVfsFile(f, size, offset)::Write` of `n` bytes at `p` never changes a byte of `f` outside of the
    window, whatever the bytes are. -/
def WritesInside (f : VfsFile) (size offset n p : Nat) : Prop :=
  ∀ bytes : List UInt8, bytes.length = n → ∃ f' m,
    (VfsFile.offset f size offset).write bytes p = some (.offset f' size offset, m) ∧
      SameOutside offset (offset + size) f f'

variable {f : VfsFile} {bytes data c : List UInt8} {p size offset n : Nat}

theorem offset_write_eq : (VfsFile.offset f size offset).write bytes p =
      (f.write (bytes.take (trimToFit size bytes.length p)) (sizeAdd offset p)).map
        fun (f', m) => (.offset f' size offset, m) := rfl

theorem trimToFit_le (size n p : Nat) : trimToFit size n p ≤ n := Nat.min_le_left _ _

theorem confined_offset {lo hi : Nat} : Confined lo hi (.offset f size offset) n p ↔
      Confined (offset + lo) (offset + hi) f (trimToFit size n p) (sizeAdd offset p) := by
  constructor
  · intro h bytes hlen
    have hle := trimToFit_le size n p
    obtain ⟨g, m, hwrite, hsame⟩ := h (bytes ++ List.replicate (n - bytes.length) 0) (by
      rw [List.length_append, List.length_replicate]; omega)
    rw [offset_write_eq, List.length_append, List.length_replicate,
      show bytes.length + (n - bytes.length) = n by omega, List.take_append_of_le_length (by omega),
      ← hlen, List.take_length] at hwrite
    obtain ⟨⟨f', k⟩, hf', heq⟩ := Option.map_eq_some_iff.mp hwrite
    obtain ⟨rfl, -⟩ := Prod.mk.inj heq
    exact ⟨f', k, hf', hsame.2.2⟩
  · intro h bytes hlen
    have hle := trimToFit_le size n p
    obtain ⟨f', m, hwrite, hsame⟩ := h (bytes.take (trimToFit size n p)) (by
      rw [List.length_take]; omega)
    refine ⟨.offset f' size offset, m, ?_, rfl, rfl, hsame⟩
    rw [offset_write_eq, hlen, hwrite]; rfl

theorem writesInside_iff : WritesInside f size offset n p ↔
      Confined offset (offset + size) f (trimToFit size n p) (sizeAdd offset p) := by
  have hwindow : Confined 0 size (.offset f size offset) n p ↔ _ := confined_offset
  rw [Nat.add_zero] at hwindow
  rw [← hwindow]
  constructor
  · intro h bytes hlen
    obtain ⟨f', m, hwrite, hsame⟩ := h bytes hlen
    exact ⟨_, m, hwrite, rfl, rfl, hsame⟩
  · intro h bytes hlen
    obtain ⟨g, m, hwrite, hsame⟩ := h bytes hlen
    obtain ⟨⟨f', k⟩, -, heq⟩ := Option.map_eq_some_iff.mp (offset_write_eq ▸ hwrite)
    obtain ⟨rfl, -⟩ := Prod.mk.inj heq; exact ⟨f', m, hwrite, hsame.2.2⟩

/-! ## Vectors -/

theorem length_overwrite (h : p + bytes.length ≤ data.length) :
    (overwrite data p bytes).length = data.length := by
  simp only [overwrite, List.length_append, List.length_take, List.length_drop]; omega

theorem getElem?_overwrite_outside {i : Nat} (h : p + bytes.length ≤ data.length)
    (hi : i < p ∨ p + bytes.length ≤ i) : (overwrite data p bytes)[i]? = data[i]? := by
  have hlen : (data.take p).length = p := by rw [List.length_take]; omega
  unfold overwrite
  obtain hlt | hge := hi
  · rw [List.append_assoc, List.getElem?_append_left (by omega), List.getElem?_take_of_lt hlt]
  · rw [List.getElem?_append_right (by rw [List.length_append]; omega), List.length_append,
      List.getElem?_drop]
    congr 1; omega

theorem getElem?_overwrite_first (h : p ≤ data.length) (hne : 0 < bytes.length) :
    (overwrite data p bytes)[p]? = bytes[0]? := by
  have hlen : (data.take p).length = p := by rw [List.length_take]; omega
  unfold overwrite
  rw [List.append_assoc, List.getElem?_append_right (by omega), hlen, Nat.sub_self,
    List.getElem?_append_left hne]

theorem length_resize (h : data.length ≤ n) : (resize data n).length = n := by
  simp only [resize, List.length_append, List.length_take, List.length_replicate]; omega

theorem vector_write_eq (data bytes : List UInt8) (p : Nat) :
    (VfsFile.vector data).write bytes p =
      (vectorWrite data bytes p).map fun (d, n) => (.vector d, n) := rfl

theorem vectorWrite_inside (hsize : data.length < 2 ^ 63) (h : p + bytes.length ≤ data.length) :
    vectorWrite data bytes p = some (overwrite data p bytes, bytes.length) := by
  have hadd : sizeAdd p bytes.length = p + bytes.length := sizeAdd_of_lt (by omega)
  have hsub : min bytes.length (sizeSub data.length p) = bytes.length := by
    rw [sizeSub_of_le (by omega) (by omega)]; omega
  have hroom : ¬ data.length < p + bytes.length := by omega
  rw [vectorWrite, hadd, if_neg hroom, hsub, if_pos (Or.inr h), List.take_length]

theorem vectorWrite_grown {d : List UInt8} {m : Nat} (hgrow : data.length < sizeAdd p bytes.length)
    (h : vectorWrite data bytes p = some (d, m)) : data.length < d.length := by
  have hlen := length_resize (Nat.le_of_lt hgrow)
  rw [vectorWrite, if_pos hgrow, hlen] at h
  obtain ⟨hin, heq⟩ := Option.ite_none_right_eq_some.mp h
  obtain ⟨rfl, rfl⟩ := Prod.mk.inj (Option.some.inj heq)
  simp only [overwrite, List.length_append, List.length_take, List.length_drop, hlen]
  omega

/-! ## Writes that stay inside -/

theorem View.confined_inside (h : View f c) :
    ∀ lo hi n p, p + n ≤ c.length → n = 0 ∨ lo ≤ p ∧ p + n ≤ hi → Confined lo hi f n p := by
  refine View.byKind ?vector ?static ?concatenated ?offset h
  case vector =>
    intro data hsize lo hi n p hin hwindow bytes hlen
    subst hlen
    refine ⟨.vector (overwrite data p bytes), bytes.length, ?_, length_overwrite hin, ?_⟩
    · rw [vector_write_eq, vectorWrite_inside hsize hin]; rfl
    intro i hi; exact getElem?_overwrite_outside hin (by omega)
  case static => exact fun value size _ lo hi n p _ _ bytes _ => ⟨_, _, rfl, rfl⟩
  case concatenated => exact fun map cs _ _ _ lo hi n p _ _ bytes _ => ⟨_, _, rfl, rfl⟩
  case offset =>
    intro f c size offset hf hin ih lo hi n p hp hwindow
    have hb := hf.reads.bounded
    rw [length_slice] at hp
    have htrim : trimToFit size n p = n := by
      rw [trimToFit, sizeSub_of_le (by omega) (by omega)]; omega
    rw [confined_offset, htrim, sizeAdd_of_lt (by omega)]
    exact ih _ _ _ _ (by omega) (by omega)

theorem View.confined_readOnly (h : View f c) :
    f.isWritable = false → ∀ lo hi n p, Confined lo hi f n p := by
  refine View.byKind ?vector ?static ?concatenated ?offset h
  case vector => exact fun data _ hwritable => nomatch hwritable
  case static => exact fun value size _ _ lo hi n p bytes _ => ⟨_, _, rfl, rfl⟩
  case concatenated => exact fun map cs _ _ _ _ lo hi n p bytes _ => ⟨_, _, rfl, rfl⟩
  case offset =>
    intro f c size offset _ _ ih hwritable lo hi n p
    exact confined_offset.mpr (ih hwritable _ _ _ _)

/-- A write of `n` bytes at `p`, outside of the window it comes from, gets lost: a window further down
    ends exactly there, or it has no byte and the vector need not grow for it. -/
def Drops : VfsFile → Nat → Nat → Prop
  | .vector data, n, p => n = 0 ∧ p ≤ data.length
  | .static _ _, _, _ => True
  | .concatenated _, _, _ => True
  | .offset f size offset, n, p => p = size ∨ (n = 0 ∨ size < p) ∧ Drops f n (sizeAdd offset p)

theorem drops_congr {m : Nat} (hnm : n = 0 ↔ m = 0) :
    ∀ (f : VfsFile) (p : Nat), Drops f n p ↔ Drops f m p
  | .vector _, _ => and_congr_left' hnm
  | .static _ _, _ => Iff.rfl
  | .concatenated _, _ => Iff.rfl
  | .offset f _ offset, p =>
    or_congr_right (and_congr (or_congr_left hnm) (drops_congr hnm f (sizeAdd offset p)))

theorem trimToFit_past (hlt : size < p) (hp : p < 2 ^ 64) : trimToFit size n p = 0 ↔ n = 0 := by
  rw [trimToFit, sizeSub_of_lt hlt hp]; omega

theorem View.confined_drops (h : View f c) :
    ∀ lo hi n p, p < 2 ^ 64 → Drops f n p → Confined lo hi f n p := by
  refine View.byKind ?vector ?static ?concatenated ?offset h
  case vector =>
    rintro data hsize lo hi n p - ⟨rfl, hle⟩
    exact (View.vector data hsize).confined_inside lo hi 0 p hle (Or.inl rfl)
  case static => exact fun value size _ lo hi n p _ _ bytes _ => ⟨_, _, rfl, rfl⟩
  case concatenated => exact fun map cs _ _ _ lo hi n p _ _ bytes _ => ⟨_, _, rfl, rfl⟩
  case offset =>
    intro f c size offset hf hin ih lo hi n p hp hdrops
    have hb := hf.reads.bounded
    rw [confined_offset]
    obtain rfl | ⟨hn, hbelow⟩ := hdrops
    · -- exactly at the end of the window: no byte is left, and the file below reaches that far
      have htrim : trimToFit p n p = 0 := by
        rw [trimToFit, sizeSub_of_le (Nat.le_refl p) hp]; omega
      rw [htrim, sizeAdd_of_lt (by omega)]
      exact hf.confined_inside _ _ _ _ (by omega) (Or.inl rfl)
    · refine ih _ _ _ _ (sizeAdd_lt _ _) ((drops_congr ?_ f _).mpr hbelow)
      obtain rfl | hlt := hn
      · exact iff_of_true (Nat.zero_min _) rfl
      · exact trimToFit_past hlt hp

/-! ## Writes that do not -/

theorem View.not_drops_inside (h : View f c) :
    f.isWritable = true → ∀ n p, 0 < n → p < c.length → ¬ Drops f n p := by
  refine View.byKind ?vector ?static ?concatenated ?offset h
  case vector => exact fun data _ _ n p hn _ hdrops => absurd hdrops.1 (by omega)
  case static => exact fun value size _ hwritable => nomatch hwritable
  case concatenated => exact fun map cs _ _ _ hwritable => nomatch hwritable
  case offset =>
    intro f c size offset _ _ _ _ n p hn hp hdrops
    rw [length_slice] at hp
    obtain heq | ⟨hpast, -⟩ := hdrops <;> omega

/-- What is not dropped changes the vector at the bottom OUTSIDE of the window: at its first byte, or by
    growing it. -/
theorem View.escapes (h : View f c) :
    f.isWritable = true → ∀ lo hi n p, hi ≤ c.length → p < lo ∨ hi ≤ p → p < 2 ^ 64 → n < 2 ^ 63 →
      ¬ Drops f n p → ¬ Confined lo hi f n p := by
  refine View.byKind ?vector ?static ?concatenated ?offset h
  case vector =>
    intro data hsize _ lo hi n p hhi hout hp hn hdrops hconfined
    -- bytes that differ from the one that is there
    obtain ⟨f', m, hwrite, hsame⟩ :=
      hconfined (List.replicate n (data[p]?.getD 0 + 1)) List.length_replicate
    rw [vector_write_eq] at hwrite
    obtain ⟨⟨d, k⟩, hvector, heq⟩ := Option.map_eq_some_iff.mp hwrite
    obtain ⟨rfl, -⟩ := Prod.mk.inj heq
    obtain ⟨hlen, hbytes⟩ := hsame
    by_cases hgrow : data.length < sizeAdd p n
    · have hlonger := vectorWrite_grown (by rwa [List.length_replicate]) hvector
      omega
    · by_cases hwrap : p + n < 2 ^ 64
      · -- one byte at `p` at least is copied
        rw [sizeAdd_of_lt hwrap] at hgrow
        have hn0 : n ≠ 0 := fun h0 => hdrops ⟨h0, by omega⟩
        rw [vectorWrite_inside hsize (by rw [List.length_replicate]; omega)] at hvector
        obtain ⟨rfl, -⟩ := Prod.mk.inj (Option.some.inj hvector)
        have hfirst := hbytes p hout
        rw [getElem?_overwrite_first (by omega) (by rw [List.length_replicate]; omega),
          List.getElem?_replicate, if_pos (by omega)] at hfirst
        have hself := congrArg (Option.getD · 0) hfirst
        simp at hself
      · -- the sum wraps: the vector stays as it is, and the copy leaves its memory
        have hsub : sizeSub data.length p = 2 ^ 64 - (p - data.length) := sizeSub_of_lt (by omega) hp
        rw [vectorWrite, List.length_replicate, if_neg hgrow, hsub, if_neg (by omega)] at hvector
        cases hvector
  case static => exact fun value size _ hwritable => nomatch hwritable
  case concatenated => exact fun map cs _ _ _ hwritable => nomatch hwritable
  case offset =>
    intro f c size offset hf hin ih hwritable lo hi n p hhi hout hp hn hdrops hconfined
    have hb := hf.reads.bounded
    rw [length_slice] at hhi
    rw [confined_offset] at hconfined
    have htrimle := trimToFit_le size n p
    have hdrops' : p ≠ size ∧ ((n = 0 ∨ size < p) → ¬ Drops f n (sizeAdd offset p)) :=
      ⟨fun h => hdrops (Or.inl h), fun h hd => hdrops (Or.inr ⟨h, hd⟩)⟩
    refine ih hwritable _ _ _ _ (by omega) ?_ (sizeAdd_lt _ _) (by omega) ?_ hconfined
    · unfold sizeAdd
      omega
    · by_cases hpast : size < p
      · exact fun hd => hdrops'.2 (Or.inr hpast) ((drops_congr (trimToFit_past hpast hp) f _).mp hd)
      · have htrim : trimToFit size n p = min n (size - p) := by
          rw [trimToFit, sizeSub_of_le (by omega) (by omega)]
        rw [htrim]
        obtain rfl | hpos := Nat.eq_zero_or_pos n
        · rw [Nat.zero_min]
          exact hdrops'.2 (Or.inl rfl)
        · rw [sizeAdd_of_lt (by omega)]
          exact hf.not_drops_inside hwritable _ _ (by omega) (by omega)

/-- EXACTLY WHICH WRITES STAY IN THE WINDOW. -/
theorem View.writesInside_exact (h : View f c) (hin : offset + size ≤ c.length) (hn : n < 2 ^ 63)
    (hp : p < 2 ^ 64) : WritesInside f size offset n p ↔
      p ≤ size ∨ f.isWritable = false ∨ Drops f n (sizeAdd offset p) := by
  have hb := h.reads.bounded
  rw [writesInside_iff]
  by_cases hwindow : p ≤ size
  · refine iff_of_true ?_ (Or.inl hwindow)
    rw [trimToFit, sizeSub_of_le hwindow (by omega), sizeAdd_of_lt (by omega)]
    exact h.confined_inside _ _ _ _ (by omega) (Or.inr (by omega))
  rw [or_iff_right hwindow]
  cases hwritable : f.isWritable with
  | false => exact iff_of_true (h.confined_readOnly hwritable _ _ _ _) (Or.inl rfl)
  | true =>
    have hpast : size < p := by omega
    have htrim : Drops f (trimToFit size n p) _ ↔ _ :=
      drops_congr (trimToFit_past hpast hp) f (sizeAdd offset p)
    rw [or_iff_right (by decide), ← htrim]
    constructor
    · intro hconfined
      by_contra hdrops
      have htrimle := trimToFit_le size n p
      refine h.escapes hwritable _ _ _ _ hin ?_ (sizeAdd_lt _ _) (by omega) hdrops hconfined
      unfold sizeAdd
      omega
    · exact h.confined_drops _ _ _ _ (sizeAdd_lt _ _)

/-! ## The result -/

/-- VIEWS READ LIKE SLICES, AND WRITE INSIDE THEIR WINDOW, EXACTLY WHERE THE LENGTH IS TRIMMED. -/
theorem vfs_views_exact (f : VfsFile) (c : List UInt8) (h : View f c) (p : Nat) (hp : p < 2 ^ 64) :
    (∀ n, f.read n p = some (slice c n p) ↔ n = 0 ∨ TrimsAt f p) ∧
    (∀ size offset n, offset + size ≤ c.length → n < 2 ^ 63 →
      (WritesInside f size offset n p ↔
        p ≤ size ∨ f.isWritable = false ∨ Drops f n (sizeAdd offset p))) :=
  ⟨fun _ => h.read_exact hp, fun _ _ _ hin hn => h.writesInside_exact hin hn hp⟩

/-- Four bytes of a vector of eight, from the third on. -/
def window : VfsFile := .offset (.vector [1, 2, 3, 4, 5, 6, 7, 8]) 4 2

theorem window_view : View window [3, 4, 5, 6] :=
  View.offset 4 2 (View.vector [1, 2, 3, 4, 5, 6, 7, 8] (by decide)) (by decide)

/-- One byte behind its end a window of four gives the eighth byte of the vector, and writes it. -/
theorem not_vfs_views :
    View window [3, 4, 5, 6] ∧ window.read 1 5 = some [8] ∧ slice [3, 4, 5, 6] 1 5 = [] ∧
    ¬ WritesInside (.vector [1, 2, 3, 4, 5, 6, 7, 8]) 4 2 1 5 := by
  refine ⟨window_view, by decide, by decide, fun h => ?_⟩
  obtain ⟨f', m, hwrite, hsame⟩ := h [0] rfl
  have hresult : (VfsFile.offset (.vector [1, 2, 3, 4, 5, 6, 7, 8]) 4 2).write [0] 5 =
      some (.offset (.vector [1, 2, 3, 4, 5, 6, 7, 0]) 4 2, 1) := rfl
  rw [hresult] at hwrite
  obtain ⟨hfile, -⟩ := Prod.mk.inj (Option.some.inj hwrite)
  obtain ⟨rfl, -, -⟩ := VfsFile.offset.inj hfile
  have hbyte := hsame.2 7 (by decide)
  revert hbyte
  decide

/-- The window above, asked behind its end. -/
theorem vfs_views_exact_window :
    (∀ n, window.read n 5 = some (slice [3, 4, 5, 6] n 5) ↔ n = 0 ∨ TrimsAt window 5) ∧
    (∀ size offset n, offset + size ≤ 4 → n < 2 ^ 63 →
      (WritesInside window size offset n 5 ↔
        5 ≤ size ∨ window.isWritable = false ∨ Drops window n (sizeAdd offset 5))) :=
  vfs_views_exact window [3, 4, 5, 6] window_view 5 (by decide)

end Suyu.FileSys.Vfs
