import Suyu.FileSys.VfsViews
import Suyu.FileSys.BlzDecompress

/-
  `KIP::KIP` and `INI::INI` of kernel_executable.cpp.

  1. **Program** - `KIP.make` reads the header and the six sections of a file; `INI.make` reads its header
     and then `kip_count` KIPs, each through an `OffsetVfsFile` of the rest of the file.

  2. **Specification (`Image`)** - a KIP1 image is a header and the bytes of its six sections;
     `Image.kip` is the KIP it stands for.

  3. **The crux (`kip_make_image`)** - a file that begins with a well-formed image gives the KIP of THAT
     image, whatever lies behind it.

  4. **When it goes wrong** - `offset` of the loop in `INI::INI` is never advanced: every round parses the
     FIRST image (`ini_make_images`).
-/

namespace Suyu.FileSys.KernelExecutable

open Vfs (VfsFile View slice sizeAdd sizeSub u32At)
open Blz (Stop decompressBLZ)

def iniMaxKips : Nat := 0x50

/-- The values of `Loader::ResultStatus` these constructors use. -/
inductive ResultStatus
  | success
  | errorNullFile
  | errorBadKIPHeader
  | errorBLZDecompressionFailed
  | errorBadINIHeader
  | errorINITooManyKIPs
  deriving DecidableEq, Repr

/-! ## Headers -/

/-- `KIPSectionHeader`; `attr` is `attribute`. -/
structure KIPSectionHeader where
  offset : Nat
  decompressedSize : Nat
  compressedSize : Nat
  attr : Nat
  deriving DecidableEq, Repr

structure KIPHeader where
  magic : Nat
  name : List UInt8
  titleId : Nat
  processCategory : Nat
  mainThreadPriority : UInt8
  defaultCore : UInt8
  flags : UInt8
  sections : List KIPSectionHeader
  capabilities : List Nat
  deriving DecidableEq, Repr

structure INIHeader where
  magic : Nat
  size : Nat
  kipCount : Nat
  deriving DecidableEq, Repr

/-- `sizeof(KIPHeader)`. -/
def sizeofKIPHeader : Nat := 0x100

/-- `sizeof(INIHeader)`. -/
def sizeofINIHeader : Nat := 0x10

/-- The section header at a position of the bytes of the header. -/
def KIPSectionHeader.ofBytes (bytes : List UInt8) (pos : Nat) : KIPSectionHeader where
  offset := u32At bytes pos
  decompressedSize := u32At bytes (pos + 4)
  compressedSize := u32At bytes (pos + 8)
  attr := u32At bytes (pos + 12)

/-- The fields of the `0x100` bytes that are read over `KIPHeader`. -/
def KIPHeader.ofBytes (bytes : List UInt8) : KIPHeader where
  magic := u32At bytes 0
  name := (bytes.drop 4).take 0xC
  titleId := u32At bytes 0x10 + 2 ^ 32 * u32At bytes 0x14
  processCategory := u32At bytes 0x18
  mainThreadPriority := bytes.getD 0x1C 0
  defaultCore := bytes.getD 0x1D 0
  flags := bytes.getD 0x1F 0
  sections := (List.range 6).map fun i => KIPSectionHeader.ofBytes bytes (0x20 + 0x10 * i)
  capabilities := (List.range 0x20).map fun i => u32At bytes (0x80 + 4 * i)

/-- The fields of the `0x10` bytes that are read over `INIHeader`. -/
def INIHeader.ofBytes (bytes : List UInt8) : INIHeader where
  magic := u32At bytes 0
  size := u32At bytes 4
  kipCount := u32At bytes 8

/-- `Common::MakeMagic('K', 'I', 'P', '1')`. -/
def kipMagic : Nat := u32At [0x4B, 0x49, 0x50, 0x31] 0

/-- `Common::MakeMagic('I', 'N', 'I', '1')`. -/
def iniMagic : Nat := u32At [0x49, 0x4E, 0x49, 0x31] 0

/-- `magic` of the header and the values before anything is read. -/
def KIPHeader.zero : KIPHeader := KIPHeader.ofBytes (List.replicate sizeofKIPHeader 0)

def INIHeader.zero : INIHeader := INIHeader.ofBytes (List.replicate sizeofINIHeader 0)

/-! ## KIP -/

structure KIP where
  status : ResultStatus
  header : KIPHeader
  decompressedSections : List (List UInt8)
  deriving DecidableEq, Repr

/-- `VfsFile::Read`, where a read outside of the memory of a vector is a stop. -/
def readBytes (file : VfsFile) (size offset : Nat) : Except Stop (List UInt8) :=
  match file.read size offset with
  | some bytes => .ok bytes
  | none => .error .outOfRange

/-- What a round of the loop over the sections puts into `decompressed_sections[i]`. -/
def decompressSection (sec : KIPSectionHeader) (compressed : List UInt8) : Except Stop (List UInt8) :=
  if sec.compressedSize = 0 ∧ sec.decompressedSize ≠ 0 then .ok (List.replicate sec.decompressedSize 0)
  else if sec.compressedSize = sec.decompressedSize then .ok compressed
  else decompressBLZ compressed

/-- The loop over the sections from `offset` on. It is `none` where BLZ returns false, and the constructor
    returns with that status. -/
def sectionLoop (file : VfsFile) : List KIPSectionHeader → Nat → Except Stop (Option (List (List UInt8)))
  | [], _ => .ok (some [])
  | sec :: rest, offset =>
    (readBytes file sec.compressedSize offset).bind fun compressed =>
      match decompressSection sec compressed with
      | .ok decompressed =>
        (sectionLoop file rest (sizeAdd offset sec.compressedSize)).map fun sections =>
          sections.map (decompressed :: ·)
      | .error .refused => .ok none
      | .error stop => .error stop

/-- `KIP::KIP`; the sections of a KIP that failed are of no use to anyone and left out. -/
def KIP.make (file : Option VfsFile) : Except Stop KIP :=
  match file with
  | none => .ok ⟨.errorNullFile, .zero, []⟩
  | some file =>
    if file.getSize < sizeofKIPHeader then .ok ⟨.errorBadKIPHeader, .zero, []⟩
    else (readBytes file sizeofKIPHeader 0).bind fun bytes =>
      let header := KIPHeader.ofBytes (bytes ++ List.replicate (sizeofKIPHeader - bytes.length) 0)
      if bytes.length ≠ sizeofKIPHeader then .ok ⟨.errorBadKIPHeader, header, []⟩
      else if header.magic ≠ kipMagic then .ok ⟨.errorBadKIPHeader, header, []⟩
      else (sectionLoop file header.sections sizeofKIPHeader).map fun
        | some sections => ⟨.success, header, sections⟩
        | none => ⟨.errorBLZDecompressionFailed, header, []⟩

/-! ## INI -/

structure INI where
  status : ResultStatus
  header : INIHeader
  kips : List KIP
  deriving DecidableEq, Repr

/-- The loop over the KIPs, with `todo` rounds left: `offset` is the same in all of them. -/
def kipLoop (file : VfsFile) (offset : Nat) : Nat → List KIP → Except Stop (List KIP)
  | 0, kips => .ok kips
  | todo + 1, kips =>
    let kipFile := VfsFile.offset file (sizeSub file.getSize offset) offset
    (KIP.make (some kipFile)).bind fun kip =>
      kipLoop file offset todo (if kip.status = .success then kips ++ [kip] else kips)

/-- `INI::INI`. -/
def INI.make (file : VfsFile) : Except Stop INI :=
  if file.getSize < sizeofINIHeader then .ok ⟨.errorBadINIHeader, .zero, []⟩
  else (readBytes file sizeofINIHeader 0).bind fun bytes =>
    let header := INIHeader.ofBytes (bytes ++ List.replicate (sizeofINIHeader - bytes.length) 0)
    if bytes.length ≠ sizeofINIHeader then .ok ⟨.errorBadINIHeader, header, []⟩
    else if header.magic ≠ iniMagic then .ok ⟨.errorBadINIHeader, header, []⟩
    else if header.kipCount > iniMaxKips then .ok ⟨.errorINITooManyKIPs, header, []⟩
    else (kipLoop file sizeofINIHeader header.kipCount []).map fun kips => ⟨.success, header, kips⟩

/-! ## Images -/

/-- The bytes of a KIP1 image: the header, and the bytes of each of its sections as they are stored. -/
structure Image where
  header : List UInt8
  payloads : List (List UInt8)

/-- The image as it lies in a file. -/
def Image.bytes (image : Image) : List UInt8 := image.header ++ image.payloads.flatten

/-- The sections with what is stored of them. -/
def Image.sections (image : Image) : List (KIPSectionHeader × List UInt8) :=
  (KIPHeader.ofBytes image.header).sections.zip image.payloads

/-- The image is well formed, and these are its sections, decompressed. -/
structure Image.Holds (image : Image) (decompressed : List (List UInt8)) : Prop where
  header_length : image.header.length = sizeofKIPHeader
  magic : (KIPHeader.ofBytes image.header).magic = kipMagic
  payloads_length : image.payloads.length = 6
  sizes : ∀ s ∈ image.sections, s.2.length = s.1.compressedSize
  decompressed : image.sections.map (fun s => decompressSection s.1 s.2) = decompressed.map .ok

/-- The KIP with these sections. -/
def Image.kip (image : Image) (decompressed : List (List UInt8)) : KIP :=
  ⟨.success, KIPHeader.ofBytes image.header, decompressed⟩

/-! ## A KIP -/

variable {file : VfsFile}

theorem readBytes_inside {c : List UInt8} (h : View file c) {size offset : Nat}
    (hle : offset ≤ c.length) : readBytes file size offset = .ok (slice c size offset) := by
  have hread : file.read size offset = some (slice c size offset) := h.reads.inside size offset hle
  rw [readBytes, hread]

theorem sectionLoop_eq {c : List UInt8} (h : View file c)
    (stored : List (KIPSectionHeader × List UInt8)) (decompressed : List (List UInt8)) (offset : Nat)
    (rest : List UInt8) (hle : offset ≤ c.length)
    (hdrop : c.drop offset = (stored.map Prod.snd).flatten ++ rest)
    (hsizes : ∀ s ∈ stored, s.2.length = s.1.compressedSize)
    (hsections : stored.map (fun s => decompressSection s.1 s.2) = decompressed.map .ok) :
    sectionLoop file (stored.map Prod.fst) offset = .ok (some decompressed) := by
  induction stored generalizing decompressed offset with
  | nil =>
    obtain rfl : decompressed = [] := List.map_eq_nil_iff.mp hsections.symm; rfl
  | cons s stored ih =>
    obtain ⟨sec, payload⟩ := s
    cases decompressed with
    | nil => cases hsections
    | cons d decompressed =>
      obtain ⟨hfirst, hrest⟩ := List.cons_eq_cons.mp hsections
      have hsize : payload.length = sec.compressedSize := hsizes _ List.mem_cons_self
      have hdrop' : c.drop offset = payload ++ ((stored.map Prod.snd).flatten ++ rest) := by
        rw [hdrop, List.map_cons, List.flatten_cons, List.append_assoc]
      have hslice : slice c sec.compressedSize offset = payload := by
        rw [slice, hdrop', ← hsize, List.take_left]
      have hlen := congrArg List.length hdrop'
      rw [List.length_drop, List.length_append, hsize] at hlen
      have hb := h.reads.bounded
      have hnext : c.drop (offset + sec.compressedSize) = (stored.map Prod.snd).flatten ++ rest := by
        rw [← List.drop_drop, hdrop', ← hsize, List.drop_left]
      have ihrest := ih decompressed (offset + sec.compressedSize) (by omega) hnext
        (fun t ht => hsizes t (List.mem_cons_of_mem _ ht)) hrest
      have hfirst : decompressSection sec payload = .ok d := hfirst
      show (readBytes file sec.compressedSize offset).bind _ = _
      rw [readBytes_inside h hle, hslice]
      show (match decompressSection sec payload with
        | .ok decompressed => _
        | .error .refused => _
        | .error stop => _) = _
      rw [hfirst]
      show (sectionLoop file (stored.map Prod.fst) (sizeAdd offset sec.compressedSize)).map _ = _
      rw [Vfs.sizeAdd_of_lt (by omega), ihrest]; rfl

/-- What begins with an image gives the KIP of the image. -/
theorem kip_make_image {image : Image} {decompressed : List (List UInt8)} {rest : List UInt8}
    (hview : View file (image.bytes ++ rest)) (h : image.Holds decompressed) :
    KIP.make (some file) = .ok (image.kip decompressed) := by
  have hbytes : image.bytes ++ rest = image.header ++ (image.payloads.flatten ++ rest) :=
    List.append_assoc _ _ _
  have hlen := congrArg List.length hbytes
  rw [List.length_append, List.length_append, h.header_length] at hlen
  have hsize : file.getSize = (image.bytes ++ rest).length := hview.reads.getSize
  have hheader : slice (image.bytes ++ rest) sizeofKIPHeader 0 = image.header := by
    rw [slice, List.drop_zero, hbytes, ← h.header_length, List.take_left]
  have hsections : (KIPHeader.ofBytes image.header).sections.length = 6 := by
    simp [KIPHeader.ofBytes]
  have hpayloads := h.payloads_length
  have hfst : image.sections.map Prod.fst = (KIPHeader.ofBytes image.header).sections :=
    List.map_fst_zip (by omega)
  have hsnd : image.sections.map Prod.snd = image.payloads :=
    List.map_snd_zip (by omega)
  have hdrop : (image.bytes ++ rest).drop sizeofKIPHeader =
      (image.sections.map Prod.snd).flatten ++ rest := by
    rw [hsnd, hbytes, ← h.header_length, List.drop_left]
  have hloop := sectionLoop_eq hview image.sections decompressed sizeofKIPHeader rest
    (by rw [List.length_append]; omega) hdrop h.sizes h.decompressed
  rw [hfst] at hloop
  have hroom : ¬ file.getSize < sizeofKIPHeader := by
    rw [hsize, List.length_append]; omega
  simp only [KIP.make]
  rw [if_neg hroom, readBytes_inside hview (Nat.zero_le _), hheader]
  show (if image.header.length ≠ sizeofKIPHeader then _ else _) = _
  rw [if_neg (not_not.mpr h.header_length), h.header_length, Nat.sub_self, List.replicate_zero,
    List.append_nil, if_neg (not_not.mpr h.magic), hloop]
  rfl

/-! ## An INI -/

/-- The file is an INI1 header with these well-formed images end to end behind it. -/
structure IsIni (file : VfsFile) (header : List UInt8) (images : List (Image × List (List UInt8))) :
    Prop where
  view : View file (header ++ images.flatMap fun i => i.1.bytes)
  header_length : header.length = sizeofINIHeader
  magic : (INIHeader.ofBytes header).magic = iniMagic
  count : (INIHeader.ofBytes header).kipCount = images.length
  count_le : images.length ≤ iniMaxKips
  holds : ∀ i ∈ images, i.1.Holds i.2

theorem kipLoop_eq {offset : Nat} {kip : KIP}
    (hmake : KIP.make (some (.offset file (sizeSub file.getSize offset) offset)) = .ok kip)
    (hstatus : kip.status = .success) (todo : Nat) (kips : List KIP) :
    kipLoop file offset todo kips = .ok (kips ++ List.replicate todo kip) := by
  induction todo generalizing kips with
  | zero => exact congrArg Except.ok (List.append_nil kips).symm
  | succ todo ih =>
    show (KIP.make _).bind _ = _
    rw [hmake]
    show kipLoop file offset todo (if kip.status = .success then kips ++ [kip] else kips) = _
    rw [if_pos hstatus, ih, List.append_assoc, List.replicate_succ]; rfl

/-- THE FIRST IMAGE, AS OFTEN AS THERE ARE IMAGES. -/
theorem ini_make_images {header : List UInt8} {image : Image} {decompressed : List (List UInt8)}
    {images : List (Image × List (List UInt8))}
    (h : IsIni file header ((image, decompressed) :: images)) :
    INI.make file = .ok ⟨.success, INIHeader.ofBytes header,
      List.replicate (images.length + 1) (image.kip decompressed)⟩ := by
  obtain ⟨hview, hlen, hmagic, hcount, hmax, hholds⟩ := h
  rw [List.flatMap_cons] at hview
  have hb := hview.reads.bounded
  have hsize : file.getSize = _ := hview.reads.getSize
  rw [List.length_append, hlen] at hsize hb
  have hslice : slice (header ++ (image.bytes ++ images.flatMap fun i => i.1.bytes))
      (sizeSub file.getSize sizeofINIHeader) sizeofINIHeader =
        image.bytes ++ images.flatMap fun i => i.1.bytes := by
    rw [hsize, Vfs.sizeSub_of_le (by omega) (by omega), Nat.add_sub_cancel_left, slice, ← hlen,
      List.drop_left, List.take_length]
  have hwindow := View.offset (sizeSub file.getSize sizeofINIHeader) sizeofINIHeader hview (by
    rw [List.length_append, hlen, hsize, Vfs.sizeSub_of_le (by omega) (by omega)]; omega)
  rw [hslice] at hwindow
  have hloop := kipLoop_eq (kip_make_image hwindow (hholds _ List.mem_cons_self)) rfl
    (images.length + 1) []
  have hheader : slice (header ++ (image.bytes ++ images.flatMap fun i => i.1.bytes)) sizeofINIHeader 0 =
      header := by
    rw [slice, List.drop_zero, ← hlen, List.take_left]
  simp only [INI.make]
  rw [if_neg (by omega), readBytes_inside hview (Nat.zero_le _), hheader]
  show (if header.length ≠ sizeofINIHeader then _ else _) = _
  rw [if_neg (not_not.mpr hlen), hlen, Nat.sub_self, List.replicate_zero, List.append_nil,
    if_neg (not_not.mpr hmagic), hcount, if_neg (Nat.not_lt.mpr hmax), List.length_cons, hloop]
  rfl

theorem ini_make_empty {header : List UInt8} (h : IsIni file header []) :
    INI.make file = .ok ⟨.success, INIHeader.ofBytes header, []⟩ := by
  obtain ⟨hview, hlen, hmagic, hcount, hmax, -⟩ := h
  have hsize : file.getSize = _ := hview.reads.getSize
  rw [List.length_append, hlen] at hsize
  have hheader : slice (header ++ [].flatMap fun i : Image × List (List UInt8) => i.1.bytes)
      sizeofINIHeader 0 = header := by
    rw [slice, List.drop_zero, ← hlen, List.take_left]
  simp only [INI.make]
  rw [if_neg (by omega), readBytes_inside hview (Nat.zero_le _), hheader]
  show (if header.length ≠ sizeofINIHeader then _ else _) = _
  rw [if_neg (not_not.mpr hlen), hlen, Nat.sub_self, List.replicate_zero, List.append_nil,
    if_neg (not_not.mpr hmagic), hcount, if_neg (Nat.not_lt.mpr hmax)]
  rfl

/-- `GetKIPs()` LISTS THE IMAGES EXACTLY WHERE THEY ARE ALL THE SAME KIP. -/
theorem ini_kips_exact (file : VfsFile) (header : List UInt8) (images : List (Image × List (List UInt8)))
    (h : IsIni file header images) :
    (∃ ini, INI.make file = .ok ini ∧ ini.status = .success ∧
        ini.kips = images.map fun i => i.1.kip i.2) ↔
      ∀ a ∈ images, ∀ b ∈ images, a.1.kip a.2 = b.1.kip b.2 := by
  cases images with
  | nil => exact iff_of_true ⟨_, ini_make_empty h, rfl, rfl⟩ fun a ha => nomatch ha
  | cons first images =>
    have hmake := ini_make_images h
    constructor
    · rintro ⟨ini, hini, -, hkips⟩
      obtain rfl : ini = _ := Except.ok.inj (hini.symm.trans hmake)
      have hall := (List.eq_replicate_iff.mp hkips.symm).2
      intro a ha b hb
      rw [hall _ (List.mem_map_of_mem ha), hall _ (List.mem_map_of_mem hb)]
    · intro hsame
      refine ⟨_, hmake, rfl, (List.eq_replicate_iff.mpr ⟨by simp, ?_⟩).symm⟩
      intro kip hkip
      obtain ⟨a, ha, rfl⟩ := List.mem_map.mp hkip; exact hsame a ha _ List.mem_cons_self

/-- An image without any section, and the first byte of its name. -/
def emptyImage (name : UInt8) : Image × List (List UInt8) :=
  (⟨[0x4B, 0x49, 0x50, 0x31, name] ++ List.replicate 251 0, List.replicate 6 []⟩, List.replicate 6 [])

theorem emptyImage_holds {name : UInt8} (hname : name = 0x41 ∨ name = 0x42) :
    (emptyImage name).1.Holds (emptyImage name).2 where
  header_length := by
    obtain rfl | rfl := hname <;> decide +kernel
  magic := rfl
  payloads_length := rfl
  sizes := by
    obtain rfl | rfl := hname <;> decide +kernel
  decompressed := by
    obtain rfl | rfl := hname <;> decide +kernel

/-- An INI header of two KIPs. -/
def headerOfTwo : List UInt8 := [0x49, 0x4E, 0x49, 0x31, 0, 0, 0, 0, 2, 0, 0, 0, 0, 0, 0, 0]

/-- The file of two KIPs named A and B. -/
def fileOfTwo : VfsFile :=
  .vector (headerOfTwo ++ [emptyImage 0x41, emptyImage 0x42].flatMap fun i => i.1.bytes)

theorem fileOfTwo_isIni : IsIni fileOfTwo headerOfTwo [emptyImage 0x41, emptyImage 0x42] where
  view := View.vector _ (by decide +kernel)
  header_length := rfl
  magic := rfl
  count := rfl
  count_le := by decide
  holds := fun i hi => by
    obtain rfl | rfl := List.mem_pair.mp hi
    · exact emptyImage_holds (Or.inl rfl)
    · exact emptyImage_holds (Or.inr rfl)

/-- Two KIPs named A and B: the INI has the first one twice. -/
theorem not_ini_kips : IsIni fileOfTwo headerOfTwo [emptyImage 0x41, emptyImage 0x42] ∧
    ¬ ∃ ini, INI.make fileOfTwo = .ok ini ∧ ini.status = .success ∧
      ini.kips = [emptyImage 0x41, emptyImage 0x42].map fun i => i.1.kip i.2 := by
  refine ⟨fileOfTwo_isIni, ?_⟩
  rintro ⟨ini, hini, -, hkips⟩
  obtain rfl : ini = _ := Except.ok.inj (hini.symm.trans (ini_make_images fileOfTwo_isIni))
  revert hkips
  decide +kernel

/-- The result for the two KIPs above. -/
theorem ini_kips_exact_two :
    (∃ ini, INI.make fileOfTwo = .ok ini ∧ ini.status = .success ∧
        ini.kips = [emptyImage 0x41, emptyImage 0x42].map fun i => i.1.kip i.2) ↔
      ∀ a ∈ [emptyImage 0x41, emptyImage 0x42], ∀ b ∈ [emptyImage 0x41, emptyImage 0x42],
        a.1.kip a.2 = b.1.kip b.2 :=
  ini_kips_exact fileOfTwo headerOfTwo _ fileOfTwo_isIni

end Suyu.FileSys.KernelExecutable
