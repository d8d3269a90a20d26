import Mathlib
import Suyu.Core.MemoryMarks

/-
  The block accesses of the CPU's memory are accesses of single bytes.

  1. **Specification** - `readBytes` and `writeBytes` take the bytes of a range in turn, with `Read8` and
     `Write8`; `AllMapped` says that every page of the range is mapped.

  2. **The crux (`walkPages_inv`)** - `WalkBlock` cuts a range at the ends of its pages.  If `P k` holds
     after `k` bytes and the piece of a page leads from `P k` to `P (k + n)`, the walk leads from `P 0` to
     `P size`, however it is cut.
-/

namespace Suyu.Core.Memory

variable {backingBase : Pointer} {table : PageTable} {mapping : Mapping} {page offset : Nat}

/-! ## Pages of a walk -/

section Walk

variable {σ : Type} {walker : Walker σ} {copyAmount : Nat} {state : σ}

theorem walkPage_unmapped
    (h : GoodEntry backingBase page (table.pointers page) (table.backingAddr page) none) :
    walkPage backingBase table walker copyAmount page offset state =
      some (walker.onUnmapped copyAmount (page * 0x1000 + offset) state, false) := by
  unfold walkPage
  generalize table.pointers page = raw at h
  generalize table.backingAddr page = backing at h
  cases h
  rfl

theorem walkPage_mapped {target : Pointer}
    (h : GoodEntry backingBase page (table.pointers page) (table.backingAddr page) (some target))
    (hoffset : offset < 0x1000) :
    walkPage backingBase table walker copyAmount page offset state =
      (if PageInfo.extractType (table.pointers page) = .rasterizerCachedMemory then
          walker.onRasterizer (page * 0x1000 + offset) copyAmount
            (deviceGetPointer backingBase target + BitVec.ofNat 64 offset) state
        else
          walker.onMemory copyAmount
            (deviceGetPointer backingBase target + BitVec.ofNat 64 offset) state).map
        fun state => (state, true) := by
  unfold walkPage
  generalize hraw : table.pointers page = raw at h
  generalize hbacking : table.backingAddr page = backing at h
  cases h with
  | memory hs =>
    simp only [extractType_store hs.aligned_sub, extractPointer_store hs.aligned_sub, pointer_add]
    rfl
  | marked hs hne htype =>
    have hpointer := @backing_add backingBase _ table page hne offset hbacking hoffset
    simp only [extractType_store aligned_zero, getPointerFromDebugMemory,
      getPointerFromRasterizerCachedMemory, hpointer]
    rcases htype with rfl | rfl
    · rfl
    · rfl

/-- The pages of a range are mapped, from a byte on. -/
def AllMapped (mapping : Mapping) (addr k size : Nat) : Prop :=
  ∀ i, k ≤ i → i < size → (mapping ((addr + i) / 0x1000)).isSome = true

theorem walkPages_inv {P : Nat → σ → Prop} {addr size : Nat}
    (hpiece : ∀ k n state, P k state → 0 < n → k + n ≤ size → (addr + k) % 0x1000 + n ≤ 0x1000 →
      ∃ x, walkPage backingBase table walker n ((addr + k) / 0x1000) ((addr + k) % 0x1000) state =
          some (x, (mapping ((addr + k) / 0x1000)).isSome) ∧
        P (k + n) (walker.increment n x)) :
    ∀ fuel k accessible state, P k state → k ≤ size → size - k ≤ fuel →
      ∃ result ok, walkPages backingBase table walker fuel (size - k) ((addr + k) / 0x1000)
          ((addr + k) % 0x1000) accessible state = some (result, ok) ∧ P size result ∧
        (ok = true ↔ accessible = true ∧ AllMapped mapping addr k size) := by
  -- A range that is used up: no page is left.
  have hdone : ∀ accessible, accessible = true ↔ accessible = true ∧ AllMapped mapping addr size size := by
    intro accessible
    constructor
    · intro h
      exact ⟨h, fun i hle hlt => absurd hlt (Nat.not_lt.mpr hle)⟩
    · intro h; exact h.1
  intro fuel
  induction fuel with
  | zero =>
    intro k accessible state hstate hk hfuel
    obtain rfl : k = size := by omega
    exact ⟨state, accessible, rfl, hstate, hdone accessible⟩
  | succ fuel ih =>
    intro k accessible state hstate hk hfuel
    rcases Nat.eq_or_lt_of_le hk with rfl | hlt
    · refine ⟨state, accessible, ?_, hstate, hdone accessible⟩
      rw [walkPages, if_pos (Nat.sub_self k)]
    · have hne : size - k ≠ 0 := by omega
      obtain ⟨n, hn⟩ : ∃ n, n = min (0x1000 - (addr + k) % 0x1000) (size - k) := ⟨_, rfl⟩
      have hmod : (addr + k) % 0x1000 < 0x1000 := Nat.mod_lt _ (by decide)
      obtain ⟨x, hwalk, hincrement⟩ := hpiece k n state hstate (by omega) (by omega) (by omega)
      -- All bytes of the piece are in one page.
      have hsame : ∀ i, k ≤ i → i < k + n → (addr + i) / 0x1000 = (addr + k) / 0x1000 := by
        intro i hle hi; omega
      have hmapped : AllMapped mapping addr k size ↔
          (mapping ((addr + k) / 0x1000)).isSome = true ∧ AllMapped mapping addr (k + n) size := by
        constructor
        · intro h
          exact ⟨h k (Nat.le_refl k) hlt, fun i hle hi => h i (by omega) hi⟩
        · rintro ⟨hfirst, hrest⟩ i hle hi
          rcases Nat.lt_or_ge i (k + n) with hin | hout
          · rw [hsame i hle hin]
            exact hfirst
          · exact hrest i hout hi
      rw [walkPages, if_neg hne]
      simp only [← hn, hwalk, Option.bind_some]
      rcases Nat.eq_or_lt_of_le (show k + n ≤ size by omega) with hend | hmore
      · -- The last piece.
        have hzero : size - k - n = 0 := by omega
        refine ⟨_, accessible && (mapping ((addr + k) / 0x1000)).isSome, ?_, hend ▸ hincrement, ?_⟩
        · rw [hzero]
          cases fuel with
          | zero => rfl
          | succ fuel => rw [walkPages, if_pos rfl]
        · rw [hmapped, hend, Bool.and_eq_true]
          constructor
          · rintro ⟨ha, hm⟩
            exact ⟨ha, hm, ((hdone true).mp rfl).2⟩
          · rintro ⟨ha, hm, -⟩; exact ⟨ha, hm⟩
      · -- The piece ends with its page.
        have hpage : (addr + k) / 0x1000 + 1 = (addr + (k + n)) / 0x1000 := by omega
        have hoffset : 0 = (addr + (k + n)) % 0x1000 := by omega
        have hsub : size - k - n = size - (k + n) := by omega
        obtain ⟨result, ok, heq, hresult, hok⟩ := ih (k + n)
          (accessible && (mapping ((addr + k) / 0x1000)).isSome) _ hincrement (by omega) (by omega)
        refine ⟨result, ok, ?_, hresult, ?_⟩
        · rw [hsub, hpage]
          nth_rewrite 1 [hoffset]
          exact heq
        · rw [hok, hmapped, Bool.and_eq_true, and_assoc]

theorem walkBlock_inv {P : Nat → σ → Prop} {addr size : Nat} (hbits : table.addressSpaceBits ≤ 48)
    (hrange : addr + size ≤ 2 ^ table.addressSpaceBits) (hstate : P 0 state)
    (hpiece : ∀ k n state, P k state → 0 < n → k + n ≤ size → (addr + k) % 0x1000 + n ≤ 0x1000 →
      ∃ x, walkPage backingBase table walker n ((addr + k) / 0x1000) ((addr + k) % 0x1000) state =
          some (x, (mapping ((addr + k) / 0x1000)).isSome) ∧
        P (k + n) (walker.increment n x)) :
    ∃ result ok, walkBlock backingBase table walker addr size state = some (result, ok) ∧
      P size result ∧ (ok = true ↔ AllMapped mapping addr 0 size) := by
  obtain ⟨result, ok, heq, hresult, hok⟩ :=
    walkPages_inv hpiece size 0 true state hstate (Nat.zero_le _) (Nat.le_of_eq (Nat.sub_zero _))
  refine ⟨result, ok, ?_, hresult, ?_⟩
  · unfold walkBlock
    rw [addressSpaceContains_of_le hrange hbits]
    exact heq
  · rw [hok]; simp only [true_and]

end Walk

/-! ## Single bytes -/

/-- The bytes of a range, with `Read8` of each in turn. -/
def readBytes (backingBase : Pointer) (table : PageTable) (host : Host) (addr : Nat)
    (destBuffer : Nat → Byte) : Nat → Host × (Nat → Byte)
  | 0 => (host, destBuffer)
  | k + 1 =>
      let (host, dest) := readBytes backingBase table host addr destBuffer k
      let (byte, host) := read8 backingBase table host (addr + k)
      (host, Function.update dest k byte)

/-- The bytes of a range, with `Write8` of each in turn. -/
def writeBytes (backingBase : Pointer) (table : PageTable) (host : Host) (addr : Nat)
    (srcBuffer : Nat → Byte) : Nat → Host
  | 0 => host
  | k + 1 =>
      write8 backingBase table (writeBytes backingBase table host addr srcBuffer k) (addr + k)
        (srcBuffer k)

section Bytes

variable {target : Pointer} {host : Host}

/-- The GPU is told of the bytes of a cached page. -/
def Host.download (host : Host) (cached : Bool) (pointers : List Pointer) : Host :=
  { host with downloads := host.downloads ++ if cached then pointers else [] }

def Host.write (host : Host) (cached : Bool) (pointers : List Pointer) : Host :=
  { host with writes := host.writes ++ if cached then pointers else [] }

theorem Host.download_false (host : Host) (pointers : List Pointer) :
    host.download false pointers = host := by
  simp [Host.download]

theorem Host.write_false (host : Host) (pointers : List Pointer) :
    host.write false pointers = host := by
  simp [Host.write]

/-- A page is cached. -/
def isCached (table : PageTable) (page : Nat) : Bool :=
  decide (PageInfo.extractType (table.pointers page) = .rasterizerCachedMemory)

theorem span_one (pointer : Pointer) : span pointer 1 = [pointer] := by
  simp [span]

theorem span_succ (pointer : Pointer) (n : Nat) :
    span pointer (n + 1) = span pointer n ++ [pointer + BitVec.ofNat 64 n] := by
  rw [span, List.range_succ, List.map_append]; rfl

theorem copyBytes_succ (bytes : Pointer → Byte) (pointer : Pointer) (value : Nat → Byte) (n : Nat) :
    copyBytes bytes pointer value (n + 1) =
      Function.update (copyBytes bytes pointer value n) (pointer + BitVec.ofNat 64 n) (value n) := by
  rw [copyBytes, List.range_succ, List.foldl_append]; rfl

theorem fill_zero_bytes (buffer : Buffer) (value : Nat → Byte) :
    (buffer.fill 0 value).bytes = buffer.bytes := by
  funext i
  have hout : ¬ (buffer.position ≤ i ∧ i < buffer.position + 0) := by omega
  exact if_neg hout

theorem fill_succ_bytes (buffer : Buffer) (value : Nat → Byte) (n : Nat) :
    (buffer.fill (n + 1) value).bytes =
      Function.update (buffer.fill n value).bytes (buffer.position + n) (value n) := by
  funext i
  rcases eq_or_ne i (buffer.position + n) with rfl | hne
  · rw [Function.update_self]
    have hin : buffer.position ≤ buffer.position + n ∧
        buffer.position + n < buffer.position + (n + 1) := by omega
    show (if _ then _ else _) = _
    rw [if_pos hin, Nat.add_sub_cancel_left]
  · rw [Function.update_of_ne hne]
    refine if_congr ?_ rfl rfl
    omega

theorem read8_unmapped
    (h : GoodEntry backingBase page (table.pointers page) (table.backingAddr page) none)
    (hv : page * 0x1000 + offset < 2 ^ table.addressSpaceBits) (hoffset : offset < 0x1000)
    (hbits : table.addressSpaceBits ≤ 48) :
    read8 backingBase table host (page * 0x1000 + offset) = (0, host) := by
  unfold read8
  rw [h.getPointerImpl_unmapped hv hoffset hbits]
  rfl

theorem write8_unmapped {data : Byte}
    (h : GoodEntry backingBase page (table.pointers page) (table.backingAddr page) none)
    (hv : page * 0x1000 + offset < 2 ^ table.addressSpaceBits) (hoffset : offset < 0x1000)
    (hbits : table.addressSpaceBits ≤ 48) :
    write8 backingBase table host (page * 0x1000 + offset) data = host := by
  unfold write8
  rw [h.getPointerImpl_unmapped hv hoffset hbits]
  rfl

theorem GoodEntry.sound
    (h : GoodEntry backingBase page (table.pointers page) (table.backingAddr page) (some target)) :
    Sound backingBase page target := by
  generalize table.pointers page = raw at h
  generalize table.backingAddr page = backing at h
  cases h with
  | memory hs => exact hs
  | marked hs hne htype => exact hs

theorem read8_mapped
    (h : GoodEntry backingBase page (table.pointers page) (table.backingAddr page) (some target))
    (hv : page * 0x1000 + offset < 2 ^ table.addressSpaceBits) (hoffset : offset < 0x1000)
    (hbits : table.addressSpaceBits ≤ 48) :
    read8 backingBase table host (page * 0x1000 + offset) =
      (host.bytes (deviceGetPointer backingBase target + BitVec.ofNat 64 offset),
        host.download (isCached table page)
          [deviceGetPointer backingBase target + BitVec.ofNat 64 offset]) := by
  have himpl := h.getPointerImpl_mapped hv hoffset hbits
  have hne := h.sound.add_ne_zero hoffset
  unfold read8 handleRasterizerDownload getPointer
  rw [himpl]
  simp only [if_neg hne, span_one]
  cases hcached : isCached table page with
  | true =>
    unfold isCached at hcached
    rw [hcached]; rfl
  | false =>
    unfold isCached at hcached
    rw [hcached, Host.download_false]; rfl

theorem write8_mapped {data : Byte}
    (h : GoodEntry backingBase page (table.pointers page) (table.backingAddr page) (some target))
    (hv : page * 0x1000 + offset < 2 ^ table.addressSpaceBits) (hoffset : offset < 0x1000)
    (hbits : table.addressSpaceBits ≤ 48) :
    write8 backingBase table host (page * 0x1000 + offset) data =
      { host.write (isCached table page)
          [deviceGetPointer backingBase target + BitVec.ofNat 64 offset] with
        bytes := Function.update host.bytes
          (deviceGetPointer backingBase target + BitVec.ofNat 64 offset) data } := by
  have himpl := h.getPointerImpl_mapped hv hoffset hbits
  have hne := h.sound.add_ne_zero hoffset
  unfold write8 handleRasterizerWrite getPointer
  rw [himpl]
  simp only [if_neg hne, span_one]
  cases hcached : isCached table page with
  | true =>
    unfold isCached at hcached
    rw [hcached]; rfl
  | false =>
    unfold isCached at hcached
    rw [hcached, Host.write_false]; rfl

end Bytes

/-! ## The pieces of a block -/

section Pieces

variable {target : Pointer} {host : Host} {addr k n : Nat} {buffer : Nat → Byte}

theorem readBytes_unmapped
    (h : GoodEntry backingBase page (table.pointers page) (table.backingAddr page) none)
    (hbits : table.addressSpaceBits ≤ 48) (haddr : addr + k = page * 0x1000 + offset)
    (hpiece : offset + n ≤ 0x1000) (hrange : addr + k + n ≤ 2 ^ table.addressSpaceBits) :
    readBytes backingBase table host addr buffer (k + n) =
      ((readBytes backingBase table host addr buffer k).1,
        (Buffer.fill ⟨(readBytes backingBase table host addr buffer k).2, k⟩ n fun _ => 0).bytes) := by
  induction n with
  | zero =>
    rw [fill_zero_bytes]; rfl
  | succ n ih =>
    have hread : ∀ host, read8 backingBase table host (addr + (k + n)) = (0, host) := by
      intro host
      have hv : addr + (k + n) = page * 0x1000 + (offset + n) := by omega
      rw [hv]; exact read8_unmapped h (by omega) (by omega) hbits
    rw [← Nat.add_assoc, readBytes, ih (by omega) (by omega)]
    simp only [hread]
    rw [fill_succ_bytes]

theorem readBytes_mapped
    (h : GoodEntry backingBase page (table.pointers page) (table.backingAddr page) (some target))
    (hbits : table.addressSpaceBits ≤ 48) (haddr : addr + k = page * 0x1000 + offset)
    (hpiece : offset + n ≤ 0x1000) (hrange : addr + k + n ≤ 2 ^ table.addressSpaceBits) :
    readBytes backingBase table host addr buffer (k + n) =
      ((readBytes backingBase table host addr buffer k).1.download (isCached table page)
          (span (deviceGetPointer backingBase target + BitVec.ofNat 64 offset) n),
        (Buffer.fill ⟨(readBytes backingBase table host addr buffer k).2, k⟩ n fun i =>
          (readBytes backingBase table host addr buffer k).1.bytes
            (deviceGetPointer backingBase target + BitVec.ofNat 64 offset +
              BitVec.ofNat 64 i)).bytes) := by
  induction n with
  | zero =>
    rw [fill_zero_bytes]; simp [span, Host.download]
  | succ n ih =>
    have hpointer : deviceGetPointer backingBase target + BitVec.ofNat 64 (offset + n) =
        deviceGetPointer backingBase target + BitVec.ofNat 64 offset + BitVec.ofNat 64 n := by
      rw [BitVec.ofNat_add, BitVec.add_assoc]
    have hread : ∀ host : Host, read8 backingBase table host (addr + (k + n)) =
        (host.bytes (deviceGetPointer backingBase target + BitVec.ofNat 64 offset +
            BitVec.ofNat 64 n),
          host.download (isCached table page)
            [deviceGetPointer backingBase target + BitVec.ofNat 64 offset + BitVec.ofNat 64 n]) := by
      intro host
      have hv : addr + (k + n) = page * 0x1000 + (offset + n) := by omega
      rw [hv, ← hpointer]; exact read8_mapped h (by omega) (by omega) hbits
    rw [← Nat.add_assoc, readBytes, ih (by omega) (by omega)]
    simp only [hread]
    rw [fill_succ_bytes, span_succ]
    refine Prod.ext ?_ rfl
    cases hcached : isCached table page with
    | true => simp [Host.download]
    | false => simp [Host.download]

theorem writeBytes_unmapped
    (h : GoodEntry backingBase page (table.pointers page) (table.backingAddr page) none)
    (hbits : table.addressSpaceBits ≤ 48) (haddr : addr + k = page * 0x1000 + offset)
    (hpiece : offset + n ≤ 0x1000) (hrange : addr + k + n ≤ 2 ^ table.addressSpaceBits) :
    writeBytes backingBase table host addr buffer (k + n) =
      writeBytes backingBase table host addr buffer k := by
  induction n with
  | zero => rfl
  | succ n ih =>
    have hv : addr + (k + n) = page * 0x1000 + (offset + n) := by omega
    rw [← Nat.add_assoc, writeBytes, ih (by omega) (by omega), hv]
    exact write8_unmapped h (by omega) (by omega) hbits

theorem writeBytes_mapped
    (h : GoodEntry backingBase page (table.pointers page) (table.backingAddr page) (some target))
    (hbits : table.addressSpaceBits ≤ 48) (haddr : addr + k = page * 0x1000 + offset)
    (hpiece : offset + n ≤ 0x1000) (hrange : addr + k + n ≤ 2 ^ table.addressSpaceBits) :
    writeBytes backingBase table host addr buffer (k + n) =
      { (writeBytes backingBase table host addr buffer k).write (isCached table page)
          (span (deviceGetPointer backingBase target + BitVec.ofNat 64 offset) n) with
        bytes := copyBytes (writeBytes backingBase table host addr buffer k).bytes
          (deviceGetPointer backingBase target + BitVec.ofNat 64 offset) (fun i => buffer (k + i))
          n } := by
  induction n with
  | zero => simp [span, Host.write, copyBytes]
  | succ n ih =>
    have hpointer : deviceGetPointer backingBase target + BitVec.ofNat 64 (offset + n) =
        deviceGetPointer backingBase target + BitVec.ofNat 64 offset + BitVec.ofNat 64 n := by
      rw [BitVec.ofNat_add, BitVec.add_assoc]
    have hv : addr + (k + n) = page * 0x1000 + (offset + n) := by omega
    rw [← Nat.add_assoc, writeBytes, ih (by omega) (by omega), hv,
      write8_mapped h (by omega) (by omega) hbits, hpointer, copyBytes_succ, span_succ]
    cases hcached : isCached table page with
    | true => simp [Host.write]
    | false => simp [Host.write]

end Pieces

/-! ## Blocks -/

section Blocks

/-- **The walk over good entries**: what holds at each position is kept by the functions for an unmapped
    and for a mapped page. -/
theorem Good.walkBlock_inv {σ : Type} {walker : Walker σ} {P : Nat → σ → Prop} {addr size : Nat} {state : σ}
    (h : Good backingBase table mapping) (hbits : table.addressSpaceBits ≤ 48)
    (hrange : addr + size ≤ 2 ^ table.addressSpaceBits) (hstate : P 0 state)
    (hunmapped : ∀ k n page offset state, P k state → addr + k = page * 0x1000 + offset →
      offset + n ≤ 0x1000 → addr + k + n ≤ 2 ^ table.addressSpaceBits →
      GoodEntry backingBase page (table.pointers page) (table.backingAddr page) none →
      P (k + n) (walker.increment n (walker.onUnmapped n (page * 0x1000 + offset) state)))
    (hmapped : ∀ k n page offset target state, P k state → addr + k = page * 0x1000 + offset →
      offset + n ≤ 0x1000 → addr + k + n ≤ 2 ^ table.addressSpaceBits →
      GoodEntry backingBase page (table.pointers page) (table.backingAddr page) (some target) →
      deviceGetPointer backingBase target + BitVec.ofNat 64 offset ≠ 0 →
      getPointer backingBase table (page * 0x1000 + offset) =
        deviceGetPointer backingBase target + BitVec.ofNat 64 offset →
      ∃ x, (if isCached table page then
          walker.onRasterizer (page * 0x1000 + offset) n
            (deviceGetPointer backingBase target + BitVec.ofNat 64 offset) state
        else walker.onMemory n (deviceGetPointer backingBase target + BitVec.ofNat 64 offset) state) =
          some x ∧ P (k + n) (walker.increment n x)) :
    ∃ result ok, walkBlock backingBase table walker addr size state = some (result, ok) ∧
      P size result ∧ (ok = true ↔ AllMapped mapping addr 0 size) := by
  refine Memory.walkBlock_inv hbits hrange hstate fun k n state hstate hn hk hpiece => ?_
  have hoffset : (addr + k) % 0x1000 < 0x1000 := Nat.mod_lt _ (by decide)
  have haddr : addr + k = (addr + k) / 0x1000 * 0x1000 + (addr + k) % 0x1000 :=
    (Nat.div_add_mod' _ _).symm
  have hentry := h ((addr + k) / 0x1000)
  cases hmap : mapping ((addr + k) / 0x1000) with
  | none =>
    rw [hmap] at hentry
    exact ⟨_, walkPage_unmapped hentry, hunmapped k n _ _ state hstate haddr hpiece (by omega) hentry⟩
  | some target =>
    rw [hmap] at hentry
    obtain ⟨x, heq, hx⟩ := hmapped k n _ _ target state hstate haddr hpiece (by omega) hentry
      (hentry.sound.add_ne_zero hoffset)
      (congrArg Prod.fst (hentry.getPointerImpl_mapped (by omega) hoffset hbits))
    rw [walkPage_mapped hentry hoffset]
    unfold isCached at heq
    simp only [decide_eq_true_eq] at heq
    rw [heq]; exact ⟨x, rfl, hx⟩

variable {host : Host} {addr size : Nat} {buffer : Nat → Byte}

theorem Good.readBlock (h : Good backingBase table mapping) (hbits : table.addressSpaceBits ≤ 48)
    (hrange : addr + size ≤ 2 ^ table.addressSpaceBits) :
    ∃ ok, readBlock backingBase table host addr buffer size =
        some ((readBytes backingBase table host addr buffer size).1,
          (readBytes backingBase table host addr buffer size).2, ok) ∧
      (ok = true ↔ AllMapped mapping addr 0 size) := by
  let A : Nat → Host × Buffer := fun k =>
    ((readBytes backingBase table host addr buffer k).1,
      ⟨(readBytes backingBase table host addr buffer k).2, k⟩)
  obtain ⟨result, ok, heq, hresult, hok⟩ := @Good.walkBlock_inv backingBase table mapping _
    (readWalker backingBase table) (fun k state => state = A k) addr size (host, ⟨buffer, 0⟩) h hbits hrange rfl
    (by
      rintro k n page offset _ rfl haddr hpiece hle hentry
      simp only [A, readBytes_unmapped hentry hbits haddr hpiece hle]; rfl)
    (by
      rintro k n page offset target _ rfl haddr hpiece hle hentry hne hpointer
      simp only [A, readBytes_mapped hentry hbits haddr hpiece hle, readWalker, if_neg hne,
        handleRasterizerDownload, hpointer]
      cases hcached : isCached table page with
      | true => exact ⟨_, rfl, rfl⟩
      | false =>
        rw [Host.download_false]; exact ⟨_, rfl, rfl⟩)
  refine ⟨ok, ?_, hok⟩
  unfold Memory.readBlock
  rw [heq, hresult]
  rfl

theorem Good.writeBlock (h : Good backingBase table mapping) (hbits : table.addressSpaceBits ≤ 48)
    (hrange : addr + size ≤ 2 ^ table.addressSpaceBits) :
    ∃ ok, writeBlock backingBase table host addr buffer size =
        some (writeBytes backingBase table host addr buffer size, ok) ∧
      (ok = true ↔ AllMapped mapping addr 0 size) := by
  let A : Nat → Host × Buffer := fun k =>
    (writeBytes backingBase table host addr buffer k, ⟨buffer, k⟩)
  obtain ⟨result, ok, heq, hresult, hok⟩ := @Good.walkBlock_inv backingBase table mapping _
    (writeWalker backingBase table) (fun k state => state = A k) addr size (host, ⟨buffer, 0⟩) h hbits hrange
    rfl
    (by
      rintro k n page offset _ rfl haddr hpiece hle hentry
      simp only [A, writeBytes_unmapped hentry hbits haddr hpiece hle]; rfl)
    (by
      rintro k n page offset target _ rfl haddr hpiece hle hentry hne hpointer
      simp only [A, writeBytes_mapped hentry hbits haddr hpiece hle, writeWalker, if_neg hne,
        handleRasterizerWrite, hpointer]
      cases hcached : isCached table page with
      | true => exact ⟨_, rfl, rfl⟩
      | false =>
        rw [Host.write_false]; exact ⟨_, rfl, rfl⟩)
  refine ⟨ok, ?_, hok⟩
  unfold Memory.writeBlock
  rw [heq, hresult]
  rfl

theorem Good.zeroBlock (h : Good backingBase table mapping) (hbits : table.addressSpaceBits ≤ 48)
    (hrange : addr + size ≤ 2 ^ table.addressSpaceBits) :
    ∃ ok, zeroBlock backingBase table host addr size =
        some (writeBytes backingBase table host addr (fun _ => 0) size, ok) ∧
      (ok = true ↔ AllMapped mapping addr 0 size) := by
  let A : Nat → Host := fun k => writeBytes backingBase table host addr (fun _ => 0) k
  obtain ⟨result, ok, heq, hresult, hok⟩ := @Good.walkBlock_inv backingBase table mapping _
    (zeroWalker backingBase table) (fun k state => state = A k) addr size host h hbits hrange rfl
    (by
      rintro k n page offset _ rfl haddr hpiece hle hentry
      simp only [A, writeBytes_unmapped hentry hbits haddr hpiece hle]; rfl)
    (by
      rintro k n page offset target _ rfl haddr hpiece hle hentry hne hpointer
      simp only [A, writeBytes_mapped hentry hbits haddr hpiece hle, zeroWalker, if_neg hne,
        handleRasterizerWrite, hpointer]
      cases hcached : isCached table page with
      | true => exact ⟨_, rfl, rfl⟩
      | false =>
        rw [Host.write_false]; exact ⟨_, rfl, rfl⟩)
  rw [hresult] at heq
  exact ⟨ok, heq, hok⟩

end Blocks

/-! ## Runs -/

/-- The accesses depend on the mapping only. -/
structure MarksInvisible (backingBase : Pointer) (table : PageTable) (mapping : Mapping) : Prop where
  /-- A page is unmapped if its last map or unmap says so. -/
  types : ∀ page, (page + 1) * 0x1000 ≤ 2 ^ table.addressSpaceBits →
    (PageInfo.extractType (table.pointers page) = .unmapped ↔ mapping page = none)
  /-- A page without a mark has the pointer that was stored by the map. -/
  stored : ∀ page target, mapping page = some target →
    PageInfo.extractType (table.pointers page) = .memory →
    table.pointers page =
      PageInfo.store (deviceGetPointer backingBase target - pageAddress page) .memory
  /-- A mapped address has the pointer of its physical address. -/
  pointers : ∀ page target offset, mapping page = some target →
    (page + 1) * 0x1000 ≤ 2 ^ table.addressSpaceBits → offset < 0x1000 →
    getPointer backingBase table (page * 0x1000 + offset) =
      deviceGetPointer backingBase (target + BitVec.ofNat 64 offset)
  /-- An unmapped byte reads as zero and ignores writes. -/
  unmapped : ∀ host vaddr data, vaddr < 2 ^ table.addressSpaceBits →
    mapping (vaddr / 0x1000) = none →
    read8 backingBase table host vaddr = (0, host) ∧ write8 backingBase table host vaddr data = host
  reads : ∀ host addr buffer size, addr + size ≤ 2 ^ table.addressSpaceBits →
    ∃ ok, readBlock backingBase table host addr buffer size =
        some ((readBytes backingBase table host addr buffer size).1,
          (readBytes backingBase table host addr buffer size).2, ok) ∧
      (ok = true ↔ AllMapped mapping addr 0 size)
  writes : ∀ host addr buffer size, addr + size ≤ 2 ^ table.addressSpaceBits →
    ∃ ok, writeBlock backingBase table host addr buffer size =
        some (writeBytes backingBase table host addr buffer size, ok) ∧
      (ok = true ↔ AllMapped mapping addr 0 size)
  zeros : ∀ host addr size, addr + size ≤ 2 ^ table.addressSpaceBits →
    ∃ ok, zeroBlock backingBase table host addr size =
        some (writeBytes backingBase table host addr (fun _ => 0) size, ok) ∧
      (ok = true ↔ AllMapped mapping addr 0 size)

theorem deviceGetPointer_add (backingBase target : Pointer) (offset : Nat) :
    deviceGetPointer backingBase (target + BitVec.ofNat 64 offset) =
      deviceGetPointer backingBase target + BitVec.ofNat 64 offset := by
  unfold deviceGetPointer; ring

theorem GoodEntry.type_unmapped_iff {raw backing : Pointer} {mapped : Option Pointer}
    (h : GoodEntry backingBase page raw backing mapped) :
    PageInfo.extractType raw = .unmapped ↔ mapped = none := by
  cases h with
  | unmapped => exact ⟨fun _ => rfl, fun _ => rfl⟩
  | memory hs =>
    rw [extractType_store hs.aligned_sub]; simp
  | marked hs hne htype =>
    rw [extractType_store aligned_zero]
    rcases htype with rfl | rfl
    · simp
    · simp

theorem GoodEntry.stored_eq {raw backing target : Pointer}
    (h : GoodEntry backingBase page raw backing (some target))
    (htype : PageInfo.extractType raw = .memory) :
    raw = PageInfo.store (deviceGetPointer backingBase target - pageAddress page) .memory := by
  cases h with
  | memory hs => rfl
  | marked hs hne hmark =>
    rw [extractType_store aligned_zero] at htype
    rcases hmark with rfl | rfl
    · cases htype
    · cases htype

theorem Good.marksInvisible (h : Good backingBase table mapping)
    (hbits : table.addressSpaceBits ≤ 48) : MarksInvisible backingBase table mapping where
  types := fun page _ => (h page).type_unmapped_iff
  stored := fun page target hmap htype => (hmap ▸ h page : GoodEntry _ _ _ _ (some _)).stored_eq htype
  pointers := fun page target offset hmap hpage hoffset => by
    have hentry : GoodEntry _ _ _ _ (some target) := hmap ▸ h page
    rw [deviceGetPointer_add]
    exact congrArg Prod.fst (hentry.getPointerImpl_mapped (by omega) hoffset hbits)
  unmapped := fun host vaddr data hv hmap => by
    have hentry : GoodEntry _ _ _ _ none := hmap ▸ h (vaddr / 0x1000)
    have haddr : vaddr = vaddr / 0x1000 * 0x1000 + vaddr % 0x1000 := (Nat.div_add_mod' _ _).symm
    have hoffset : vaddr % 0x1000 < 0x1000 := Nat.mod_lt _ (by decide)
    have hread := @read8_unmapped backingBase table (vaddr / 0x1000) (vaddr % 0x1000) host hentry
      (haddr ▸ hv) hoffset hbits
    have hwrite := @write8_unmapped backingBase table (vaddr / 0x1000) (vaddr % 0x1000) host data
      hentry (haddr ▸ hv) hoffset hbits
    rw [← haddr] at hread hwrite; exact ⟨hread, hwrite⟩
  reads := fun host addr buffer size hrange => h.readBlock hbits hrange
  writes := fun host addr buffer size hrange => h.writeBlock hbits hrange
  zeros := fun host addr size hrange => h.zeroBlock hbits hrange

theorem good_initial (backingBase : Pointer) (bits : Nat) :
    Good backingBase (.initial bits) fun _ => none :=
  fun _ => .unmapped

theorem run_concat (table : PageTable) (actions : List Action) (a : Action) :
    run backingBase table (actions ++ [a]) = step backingBase (run backingBase table actions) a := by
  rw [run, List.foldl_append]; rfl

theorem mappingAfter_concat (actions : List Action) (a : Action) :
    mappingAfter (actions ++ [a]) = mapStep (mappingAfter actions) a := by
  rw [mappingAfter, List.foldl_append]; rfl

theorem run_addressSpaceBits {bits : Nat} {actions : List Action}
    (hvalid : ∀ a ∈ actions, a.Valid backingBase bits) :
    (run backingBase (.initial bits) actions).addressSpaceBits = bits := by
  induction actions using List.reverseRecOn with
  | nil => rfl
  | append_singleton actions a ih =>
    have hbits := ih fun b hb => hvalid b (List.mem_append_left _ hb)
    rw [run_concat, step_addressSpaceBits]
    · exact hbits
    · rw [hbits]; exact hvalid a (by simp)

theorem good_run {bits : Nat} {actions : List Action} (hbase : Aligned backingBase)
    (hvalid : ∀ a ∈ actions, a.Valid backingBase bits)
    (hkeeps : ∀ before a after, actions = before ++ a :: after →
      Keeps backingBase bits (mappingAfter before) a) :
    Good backingBase (run backingBase (.initial bits) actions) (mappingAfter actions) := by
  induction actions using List.reverseRecOn with
  | nil => exact good_initial backingBase bits
  | append_singleton actions a ih =>
    have hvalid' : ∀ b ∈ actions, b.Valid backingBase bits := fun b hb =>
      hvalid b (List.mem_append_left _ hb)
    have hbits := run_addressSpaceBits hvalid'
    have hgood := ih hvalid' fun before b after heq => by
      refine hkeeps before b (after ++ [a]) ?_
      rw [heq, List.append_assoc]; rfl
    rw [run_concat, mappingAfter_concat]
    refine good_step hbase hgood ?_ ?_
    · rw [hbits]
      exact hvalid a (by simp)
    · rw [hbits]; exact hkeeps actions a [] rfl

/-- EXACTLY WHEN the marks are invisible: after every part of a run the accesses depend only on the
    mapping if and only if no call maps a page where its host pointer is its virtual address, or marks
    a page that is mapped to its own address. -/
theorem memory_exact {bits : Nat} {actions : List Action} (hbase : Aligned backingBase)
    (hmin : 12 ≤ bits) (hbits : bits ≤ 48) (hvalid : ∀ a ∈ actions, a.Valid backingBase bits) :
    (∀ before after, actions = before ++ after →
      MarksInvisible backingBase (run backingBase (.initial bits) before) (mappingAfter before)) ↔
    ∀ before a after, actions = before ++ a :: after →
      Keeps backingBase bits (mappingAfter before) a := by
  constructor
  · intro hall before a after heq
    -- By induction on the calls before: they have kept clear, so the entries are good.
    induction hlen : before.length using Nat.strong_induction_on generalizing before a after with
    | _ length ih =>
      have hvalid' : ∀ b ∈ before, b.Valid backingBase bits := fun b hb =>
        hvalid b (heq ▸ List.mem_append_left _ hb)
      have hspace := run_addressSpaceBits hvalid'
      have hgood : Good backingBase (run backingBase (.initial bits) before) (mappingAfter before) := by
        refine good_run hbase hvalid' fun before' b after' heq' => ?_
        refine ih before'.length ?_ before' b (after' ++ a :: after) ?_ rfl
        · rw [← hlen, heq', List.length_append, List.length_cons]
          omega
        · rw [heq, heq', List.append_assoc]; rfl
      by_contra hnot
      have ha : a.Valid backingBase bits := hvalid a (heq ▸ by simp)
      rw [← hspace] at hnot ha
      obtain ⟨page, target, hmap, hpage, offset, hoffset, hne⟩ :=
        bad_step hgood ha (hspace.symm ▸ hmin) (hspace.symm ▸ hbits) hnot
      have hgoodAfter := hall (before ++ [a]) after (by rw [heq, List.append_assoc]; rfl)
      rw [run_concat, mappingAfter_concat] at hgoodAfter
      refine hne ?_
      rw [← deviceGetPointer_add]
      refine hgoodAfter.pointers page target offset hmap ?_ hoffset
      rw [step_addressSpaceBits ha]; exact hpage
  · intro hkeeps before after heq
    have hvalid' : ∀ b ∈ before, b.Valid backingBase bits := fun b hb =>
      hvalid b (heq ▸ List.mem_append_left _ hb)
    have hgood := good_run hbase hvalid' fun before' a after' heq' => by
      refine hkeeps before' a (after' ++ after) ?_
      rw [heq, heq', List.append_assoc]; rfl
    exact hgood.marksInvisible ((run_addressSpaceBits hvalid').symm ▸ hbits)

/-- A base pointer of the host's buffer. -/
def someBase : Pointer := 0x7f0000000000

/-- A page is mapped to the start of DRAM and marked as cached. -/
def mapAndMark (base : Nat) : List Action :=
  [.mapMemoryRegion base 0x1000 0x80000000, .rasterizerMarkRegionCached base 1 true]

theorem mapAndMark_valid {base : Nat} (halign : base % 0x1000 = 0) (hspace : base + 0x1000 ≤ 2 ^ 39) :
    ∀ a ∈ mapAndMark base, a.Valid someBase 39 := by
  intro a ha
  rcases List.mem_cons.mp ha with rfl | ha
  · refine ⟨halign, by decide, hspace, rfl, by decide, fun i hi => ?_⟩
    obtain rfl : i = 0 := by omega
    decide
  · obtain rfl := List.mem_singleton.mp ha; exact ⟨by omega, by decide⟩

/-- Mapped to an address that is not its own: the mark is invisible. -/
theorem memory_exact_apart :
    MarksInvisible someBase (run someBase (.initial 39) (mapAndMark 0x80001000))
      (mappingAfter (mapAndMark 0x80001000)) := by
  refine (memory_exact (show Aligned someBase from rfl) (by decide) (by decide)
    (mapAndMark_valid (by decide) (by decide))).mpr ?_ _ [] (List.append_nil _).symm
  intro before a after heq
  cases before with
  | nil =>
    obtain ⟨rfl, -⟩ := List.cons.inj heq
    intro i hi
    obtain rfl : i = 0 := by omega
    decide
  | cons b before =>
    obtain ⟨rfl, hrest⟩ := List.cons.inj heq
    cases before with
    | nil =>
      obtain ⟨rfl, -⟩ := List.cons.inj hrest
      rintro - page ⟨-, -, hle, hlt⟩
      have hcount : numPages 0x80001000 1 = 1 := rfl
      rw [hcount] at hlt
      obtain rfl : page = 0x80001 := by omega
      decide
    | cons c before =>
      have hnil := (List.cons.inj hrest).2
      simp at hnil

/-- Mapped to ITS OWN address, the page has no pointer once it is marked. -/
theorem not_marksInvisible :
    (∀ a ∈ mapAndMark 0x80000000, a.Valid someBase 39) ∧
      ¬ MarksInvisible someBase (run someBase (.initial 39) (mapAndMark 0x80000000))
        (mappingAfter (mapAndMark 0x80000000)) := by
  refine ⟨mapAndMark_valid (by decide) (by decide), fun h => ?_⟩
  have hpointer := h.pointers 0x80000 0x80000000 0 (by decide) (by decide) (by decide)
  exact absurd hpointer (by decide)

end Suyu.Core.Memory
