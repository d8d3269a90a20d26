import Suyu.FileSys.VfsFile
import Suyu.Lib.Unfolding

/-
  `ExtractRomFS` of romfs.cpp.

  1. **Program** - `processFile` follows the siblings of a file entry, `processDirectory` those of a
     directory entry and goes down into its files and directories; both are given a number of levels
     they may go.

  2. **Specification (`Next`)** - the graph of the entries: siblings, first child directory, first child
     file. An offset out of the table gives an entry of ZEROS, whose sibling and children are the offset
     0.

  3. **The crux (`processDirectory_cases`)** - the traversal remembers nothing, so it unfolds this graph as
     a tree.

  4. **When it goes wrong** - a cycle: one of the image, or one that comes from an offset out of a table.
-/

namespace Suyu.FileSys.RomFs

open Vfs (VfsFile slice sizeAdd sizeSub trimToFit u32At)
open Relation (ReflTransGen TransGen)
open Lib.Unfolding (Depth depth_iff_acyclic)

/-- What C++ leaves undefined, what it answers with an exception, and a traversal that goes deeper than it
    may. -/
inductive Fault
  | outOfRange
  | lengthError
  | unfinished
  deriving DecidableEq, Repr

/-! ## The tables -/

def romfsEntryEmpty : Nat := 0xFFFFFFFF

/-- The little-endian `u64` at a position. -/
def u64At (bytes : List UInt8) (pos : Nat) : Nat := u32At bytes pos + 2 ^ 32 * u32At bytes (pos + 4)

structure TableLocation where
  offset : Nat
  size : Nat

def TableLocation.ofBytes (bytes : List UInt8) (pos : Nat) : TableLocation :=
  ⟨u64At bytes pos, u64At bytes (pos + 8)⟩

structure RomFSHeader where
  headerSize : Nat
  directoryHash : TableLocation
  directoryMeta : TableLocation
  fileHash : TableLocation
  fileMeta : TableLocation
  dataOffset : Nat

/-- `sizeof(RomFSHeader)`. -/
def sizeofRomFSHeader : Nat := 0x50

def RomFSHeader.ofBytes (bytes : List UInt8) : RomFSHeader where
  headerSize := u64At bytes 0
  directoryHash := .ofBytes bytes 0x08
  directoryMeta := .ofBytes bytes 0x18
  fileHash := .ofBytes bytes 0x28
  fileMeta := .ofBytes bytes 0x38
  dataOffset := u64At bytes 0x48

structure DirectoryEntry where
  parent : Nat
  sibling : Nat
  childDir : Nat
  childFile : Nat
  hash : Nat
  nameLength : Nat

/-- `sizeof(DirectoryEntry)`. -/
def sizeofDirectoryEntry : Nat := 0x18

def DirectoryEntry.ofBytes (bytes : List UInt8) : DirectoryEntry :=
  ⟨u32At bytes 0, u32At bytes 4, u32At bytes 8, u32At bytes 12, u32At bytes 16, u32At bytes 20⟩

structure FileEntry where
  parent : Nat
  sibling : Nat
  offset : Nat
  size : Nat
  hash : Nat
  nameLength : Nat

/-- `sizeof(FileEntry)`. -/
def sizeofFileEntry : Nat := 0x20

def FileEntry.ofBytes (bytes : List UInt8) : FileEntry :=
  ⟨u32At bytes 0, u32At bytes 4, u64At bytes 8, u64At bytes 16, u32At bytes 24, u32At bytes 28⟩

structure RomFSTraversalContext where
  header : RomFSHeader
  file : VfsFile
  directoryMeta : List UInt8
  fileMeta : List UInt8

/-! ## Entries -/

/-- So many bytes of a table from an offset on. -/
def bytesAt (vec : List UInt8) (offset size : Nat) : Except Fault (List UInt8) :=
  if offset + size ≤ vec.length then .ok (slice vec size offset) else .error .outOfRange

/-- `GetEntry`: the entry and its name. -/
def getEntry {Entry : Type} (sizeofEntry : Nat) (ofBytes : List UInt8 → Entry) (nameLength : Entry → Nat)
    (zero : Entry) (vec : List UInt8) (offset : Nat) : Except Fault (Entry × List UInt8) :=
  let entryEnd := offset + sizeofEntry
  if entryEnd > vec.length then .ok (zero, [])
  else (bytesAt vec offset sizeofEntry).bind fun raw =>
    let length := min (entryEnd + nameLength (ofBytes raw)) vec.length - entryEnd
    (bytesAt vec entryEnd length).map fun name => (ofBytes raw, name)

def getDirectoryEntry (ctx : RomFSTraversalContext) (offset : Nat) :
    Except Fault (DirectoryEntry × List UInt8) :=
  getEntry sizeofDirectoryEntry .ofBytes DirectoryEntry.nameLength ⟨0, 0, 0, 0, 0,
      0⟩ ctx.directoryMeta offset

def getFileEntry (ctx : RomFSTraversalContext) (offset : Nat) : Except Fault (FileEntry × List UInt8) :=
  getEntry sizeofFileEntry .ofBytes FileEntry.nameLength ⟨0, 0, 0, 0, 0, 0⟩ ctx.fileMeta offset

/-! ## The traversal -/

/-- A file in a `VectorVfsDirectory`, with its name. -/
abbrev NamedFile := List UInt8 × VfsFile

inductive VectorVfsDirectory
  | mk (name : List UInt8) (files : List NamedFile) (directories : List VectorVfsDirectory)

def VectorVfsDirectory.name : VectorVfsDirectory → List UInt8
  | .mk name _ _ => name

/-- `ProcessFile`, for at most so many entries: the files of `parent` afterwards. -/
def processFile (ctx : RomFSTraversalContext) : Nat → Nat → List NamedFile → Except Fault (List NamedFile)
  | fuel, thisFileOffset, files =>
    if thisFileOffset = romfsEntryEmpty then .ok files
    else match fuel with
      | 0 => .error .unfinished
      | fuel + 1 => (getFileEntry ctx thisFileOffset).bind fun (entry, name) =>
        let file := VfsFile.offset ctx.file entry.size (sizeAdd entry.offset ctx.header.dataOffset)
        processFile ctx fuel entry.sibling (files ++ [(name, file)])

/-- `ProcessDirectory`, for at most so many levels: the directories of `parent` afterwards. -/
def processDirectory (ctx : RomFSTraversalContext) :
    Nat → Nat → List VectorVfsDirectory → Except Fault (List VectorVfsDirectory)
  | fuel, thisDirOffset, directories =>
    if thisDirOffset = romfsEntryEmpty then .ok directories
    else match fuel with
      | 0 => .error .unfinished
      | fuel + 1 => (getDirectoryEntry ctx thisDirOffset).bind fun (entry, name) =>
        (if entry.childFile ≠ romfsEntryEmpty then processFile ctx fuel entry.childFile []
          else .ok []).bind fun files =>
        (if entry.childDir ≠ romfsEntryEmpty then processDirectory ctx fuel entry.childDir []
          else .ok []).bind fun children =>
        processDirectory ctx fuel entry.sibling (directories ++ [.mk name files children])

/-- `VfsFile::ReadBytes`: the vector has room for the length asked for, which an `OffsetVfsFile` and a
    `StaticVfsFile` trim first. -/
def readBytes : VfsFile → Nat → Nat → Except Fault (List UInt8)
  | .offset file size start, length, offset =>
    readBytes file (trimToFit size length offset) (sizeAdd start offset)
  | .static value size, length, offset =>
    let read := min length (sizeSub size offset)
    if 2 ^ 63 ≤ read then .error .lengthError else .ok (List.replicate read value)
  | file, length, offset =>
    if 2 ^ 63 ≤ length then .error .lengthError
    else match file.read length offset with
      | some bytes => .ok bytes
      | none => .error .outOfRange

/-- The context of `ExtractRomFS` for a header. -/
def readContext (file : VfsFile) (header : RomFSHeader) : Except Fault RomFSTraversalContext :=
  (readBytes file header.directoryMeta.size header.directoryMeta.offset).bind fun directoryMeta =>
    (readBytes file header.fileMeta.size header.fileMeta.offset).map fun fileMeta =>
      ⟨header, file, directoryMeta, fileMeta⟩

/-- `ExtractRomFS`: the first directory without a name, a null pointer, or for no file an empty
    directory. -/
def extractRomFS (fuel : Nat) (file : Option VfsFile) : Except Fault (Option VectorVfsDirectory) :=
  match file with
  | none => .ok (some (.mk [] [] []))
  | some file =>
    match file.read sizeofRomFSHeader 0 with
    | none => .error .outOfRange
    | some bytes =>
      if bytes.length ≠ sizeofRomFSHeader then .ok none
      else if (RomFSHeader.ofBytes bytes).headerSize ≠ sizeofRomFSHeader then .ok none
      else (readContext file (.ofBytes bytes)).bind fun ctx =>
        (processDirectory ctx fuel 0 []).map fun directories => directories.find? (·.name = [])

/-! ## The graph of the entries -/

/-- An entry of one of the tables. -/
inductive Node
  | directory (offset : Nat)
  | file (offset : Nat)

/-- The entry at an offset; ZEROS where it is not in the table. -/
def directoryEntry (ctx : RomFSTraversalContext) (offset : Nat) : DirectoryEntry :=
  if offset + sizeofDirectoryEntry > ctx.directoryMeta.length then ⟨0, 0, 0, 0, 0, 0⟩
  else .ofBytes (slice ctx.directoryMeta sizeofDirectoryEntry offset)

def fileEntry (ctx : RomFSTraversalContext) (offset : Nat) : FileEntry :=
  if offset + sizeofFileEntry > ctx.fileMeta.length then ⟨0, 0, 0, 0, 0, 0⟩
  else .ofBytes (slice ctx.fileMeta sizeofFileEntry offset)

/-- From an entry to its sibling, and from a directory to its first directory and its first file. -/
inductive Next (ctx : RomFSTraversalContext) : Node → Node → Prop
  | sibling (offset : Nat) : (directoryEntry ctx offset).sibling ≠ romfsEntryEmpty →
      Next ctx (.directory offset) (.directory (directoryEntry ctx offset).sibling)
  | childDir (offset : Nat) : (directoryEntry ctx offset).childDir ≠ romfsEntryEmpty →
      Next ctx (.directory offset) (.directory (directoryEntry ctx offset).childDir)
  | childFile (offset : Nat) : (directoryEntry ctx offset).childFile ≠ romfsEntryEmpty →
      Next ctx (.directory offset) (.file (directoryEntry ctx offset).childFile)
  | fileSibling (offset : Nat) : (fileEntry ctx offset).sibling ≠ romfsEntryEmpty →
      Next ctx (.file offset) (.file (fileEntry ctx offset).sibling)

/-- No entry that can be reached from the root directory can be reached from itself. -/
def Acyclic (ctx : RomFSTraversalContext) : Prop :=
  ∀ node, ReflTransGen (Next ctx) (.directory 0) node → ¬ TransGen (Next ctx) node node

/-! ## Every read is inside -/

theorem getEntry_eq {Entry : Type} (sizeofEntry : Nat) (ofBytes : List UInt8 → Entry)
    (nameLength : Entry → Nat) (zero : Entry) (vec : List UInt8) (offset : Nat) :
    ∃ name, getEntry sizeofEntry ofBytes nameLength zero vec offset =
      .ok (if offset + sizeofEntry > vec.length then zero
          else ofBytes (slice vec sizeofEntry offset), name) := by
  rw [getEntry]
  dsimp only
  by_cases hout : offset + sizeofEntry > vec.length
  · rw [if_pos hout, if_pos hout]
    exact ⟨[], rfl⟩
  · rw [if_neg hout, if_neg hout, bytesAt, if_pos (by omega)]
    show ∃ name, (bytesAt vec _ _).map _ = _
    rw [bytesAt, if_pos (by omega)]; exact ⟨_, rfl⟩

variable (ctx : RomFSTraversalContext)

theorem getDirectoryEntry_eq (offset : Nat) :
    ∃ name, getDirectoryEntry ctx offset = .ok (directoryEntry ctx offset, name) :=
  getEntry_eq _ _ _ _ _ _

theorem getFileEntry_eq (offset : Nat) :
    ∃ name, getFileEntry ctx offset = .ok (fileEntry ctx offset, name) :=
  getEntry_eq _ _ _ _ _ _

/-! ## The traversal unfolds the graph -/

section Traversal

variable (ctx : RomFSTraversalContext)

theorem depth_file {fuel offset : Nat} : Depth (Next ctx) (fuel + 1) (.file offset) ↔
    (fileEntry ctx offset).sibling = romfsEntryEmpty ∨
      Depth (Next ctx) fuel (.file (fileEntry ctx offset).sibling) := by
  constructor
  · intro h
    by_cases hend : (fileEntry ctx offset).sibling = romfsEntryEmpty
    · exact Or.inl hend
    · exact Or.inr (h _ (.fileSibling offset hend))
  · rintro h _ ⟨⟩
    case fileSibling hne => exact h.resolve_left hne

theorem depth_directory {fuel offset : Nat} : Depth (Next ctx) (fuel + 1) (.directory offset) ↔
    ((directoryEntry ctx offset).childFile = romfsEntryEmpty ∨
      Depth (Next ctx) fuel (.file (directoryEntry ctx offset).childFile)) ∧
    ((directoryEntry ctx offset).childDir = romfsEntryEmpty ∨
      Depth (Next ctx) fuel (.directory (directoryEntry ctx offset).childDir)) ∧
    ((directoryEntry ctx offset).sibling = romfsEntryEmpty ∨
      Depth (Next ctx) fuel (.directory (directoryEntry ctx offset).sibling)) := by
  constructor
  · intro h
    refine ⟨?_, ?_, ?_⟩
    · by_cases hend : (directoryEntry ctx offset).childFile = romfsEntryEmpty
      · exact Or.inl hend
      · exact Or.inr (h _ (.childFile offset hend))
    · by_cases hend : (directoryEntry ctx offset).childDir = romfsEntryEmpty
      · exact Or.inl hend
      · exact Or.inr (h _ (.childDir offset hend))
    · by_cases hend : (directoryEntry ctx offset).sibling = romfsEntryEmpty
      · exact Or.inl hend
      · exact Or.inr (h _ (.sibling offset hend))
  · rintro ⟨hfile, hdir, hsibling⟩ _ ⟨⟩
    case sibling hne => exact hsibling.resolve_left hne
    case childDir hne => exact hdir.resolve_left hne
    case childFile hne => exact hfile.resolve_left hne

theorem processFile_empty (fuel : Nat) (files : List NamedFile) :
    processFile ctx fuel romfsEntryEmpty files = .ok files := by
  cases fuel <;> exact if_pos rfl

theorem processDirectory_empty (fuel : Nat) (directories : List VectorVfsDirectory) :
    processDirectory ctx fuel romfsEntryEmpty directories = .ok directories := by
  cases fuel <;> exact if_pos rfl

theorem processDirectory_step (fuel : Nat) {offset : Nat} (hne : offset ≠ romfsEntryEmpty) :
    ∃ name, ∀ directories, processDirectory ctx (fuel + 1) offset directories =
      (processFile ctx fuel (directoryEntry ctx offset).childFile []).bind fun files =>
        (processDirectory ctx fuel (directoryEntry ctx offset).childDir []).bind fun children =>
          processDirectory ctx fuel (directoryEntry ctx offset).sibling
            (directories ++ [.mk name files children]) := by
  obtain ⟨name, hentry⟩ := getDirectoryEntry_eq ctx offset
  have hfiles : (if (directoryEntry ctx offset).childFile ≠ romfsEntryEmpty then
      processFile ctx fuel (directoryEntry ctx offset).childFile [] else .ok []) =
        processFile ctx fuel (directoryEntry ctx offset).childFile [] := by
    split
    · rfl
    · rename_i hempty
      rw [not_not.mp hempty, processFile_empty]
  have hdirs : (if (directoryEntry ctx offset).childDir ≠ romfsEntryEmpty then
      processDirectory ctx fuel (directoryEntry ctx offset).childDir [] else .ok []) =
        processDirectory ctx fuel (directoryEntry ctx offset).childDir [] := by
    split
    · rfl
    · rename_i hempty
      rw [not_not.mp hempty, processDirectory_empty]
  refine ⟨name, fun directories => ?_⟩
  rw [processDirectory, if_neg hne, hentry, ← hfiles, ← hdirs]
  rfl

theorem processFile_cases (fuel offset : Nat) (files : List NamedFile) :
    (∃ out, processFile ctx fuel offset files = .ok out) ∧
        (offset = romfsEntryEmpty ∨ Depth (Next ctx) fuel (.file offset)) ∨
      processFile ctx fuel offset files = .error .unfinished ∧
        ¬ (offset = romfsEntryEmpty ∨ Depth (Next ctx) fuel (.file offset)) := by
  induction fuel generalizing offset files with
  | zero =>
    rw [processFile]
    by_cases hend : offset = romfsEntryEmpty
    · rw [if_pos hend]
      exact Or.inl ⟨⟨_, rfl⟩, Or.inl hend⟩
    · rw [if_neg hend]; exact Or.inr ⟨rfl, fun h => h.elim hend id⟩
  | succ fuel ih =>
    rw [processFile]
    by_cases hend : offset = romfsEntryEmpty
    · rw [if_pos hend]
      exact Or.inl ⟨⟨_, rfl⟩, Or.inl hend⟩
    · obtain ⟨name, hentry⟩ := getFileEntry_eq ctx offset
      rw [if_neg hend, hentry, or_iff_right hend, depth_file]; exact ih _ _

/-- THE TRAVERSAL ENDS EXACTLY WHERE THE GRAPH UNFOLDS IN SO MANY LEVELS; else it runs out of them. -/
theorem processDirectory_cases (fuel offset : Nat) (directories : List VectorVfsDirectory) :
    (∃ out, processDirectory ctx fuel offset directories = .ok out) ∧
        (offset = romfsEntryEmpty ∨ Depth (Next ctx) fuel (.directory offset)) ∨
      processDirectory ctx fuel offset directories = .error .unfinished ∧
        ¬ (offset = romfsEntryEmpty ∨ Depth (Next ctx) fuel (.directory offset)) := by
  induction fuel generalizing offset directories with
  | zero =>
    rw [processDirectory]
    by_cases hend : offset = romfsEntryEmpty
    · rw [if_pos hend]
      exact Or.inl ⟨⟨_, rfl⟩, Or.inl hend⟩
    · rw [if_neg hend]; exact Or.inr ⟨rfl, fun h => h.elim hend id⟩
  | succ fuel ih =>
    by_cases hend : offset = romfsEntryEmpty
    · rw [hend, processDirectory_empty]; exact Or.inl ⟨⟨_, rfl⟩, Or.inl rfl⟩
    obtain ⟨name, hstep⟩ := processDirectory_step ctx fuel hend
    rw [hstep, or_iff_right hend, depth_directory]
    obtain ⟨⟨files, hfile⟩, hdepth⟩ | ⟨hfile, hdepth⟩ :=
      processFile_cases ctx fuel (directoryEntry ctx offset).childFile []
    · obtain ⟨⟨children, hchild⟩, hdepth'⟩ | ⟨hchild, hdepth'⟩ :=
        ih (directoryEntry ctx offset).childDir []
      · rw [hfile, hchild, and_iff_right hdepth, and_iff_right hdepth']
        exact ih _ _
      · rw [hfile, hchild]; exact Or.inr ⟨rfl, fun h => hdepth' h.2.1⟩
    · rw [hfile]; exact Or.inr ⟨rfl, fun h => hdepth h.1⟩

end Traversal

/-! ## The graph is finite -/

theorem u32At_lt (bytes : List UInt8) (pos : Nat) : u32At bytes pos < 2 ^ 32 := by
  have h0 := (bytes.getD pos 0).toNat_lt
  have h1 := (bytes.getD (pos + 1) 0).toNat_lt
  have h2 := (bytes.getD (pos + 2) 0).toNat_lt
  have h3 := (bytes.getD (pos + 3) 0).toNat_lt
  unfold u32At
  omega

def Node.offset : Node → Nat
  | .directory offset => offset
  | .file offset => offset

theorem next_offset_lt {ctx : RomFSTraversalContext} {a b : Node} (h : Next ctx a b) :
    b.offset < 2 ^ 32 := by
  cases h with
  | sibling offset _ =>
    show (directoryEntry ctx offset).sibling < _
    unfold directoryEntry
    split
    · exact Nat.two_pow_pos 32
    · exact u32At_lt _ _
  | childDir offset _ =>
    show (directoryEntry ctx offset).childDir < _
    unfold directoryEntry
    split
    · exact Nat.two_pow_pos 32
    · exact u32At_lt _ _
  | childFile offset _ =>
    show (directoryEntry ctx offset).childFile < _
    unfold directoryEntry
    split
    · exact Nat.two_pow_pos 32
    · exact u32At_lt _ _
  | fileSibling offset _ =>
    show (fileEntry ctx offset).sibling < _
    unfold fileEntry
    split
    · exact Nat.two_pow_pos 32
    · exact u32At_lt _ _

theorem finite_reachable : {node | ReflTransGen (Next ctx) (.directory 0) node}.Finite := by
  have hbelow : {offset : Nat | offset < 2 ^ 32}.Finite := Set.finite_lt_nat _
  refine ((hbelow.image Node.directory).union (hbelow.image Node.file)).subset fun node hnode => ?_
  have hlt : node.offset < 2 ^ 32 := by
    cases hnode with
    | refl => exact Nat.two_pow_pos 32
    | tail _ hlast => exact next_offset_lt hlast
  cases node with
  | directory offset => exact Or.inl ⟨offset, hlt, rfl⟩
  | file offset => exact Or.inr ⟨offset, hlt, rfl⟩

/-! ## The result -/

theorem processDirectory_ends_iff :
    (∃ fuel out, processDirectory ctx fuel 0 [] = .ok out) ↔ Acyclic ctx := by
  rw [Acyclic, ← depth_iff_acyclic (finite_reachable ctx)]
  have hroot : (0 : Nat) ≠ romfsEntryEmpty := by decide
  constructor
  · rintro ⟨fuel, out, hout⟩
    obtain ⟨-, hdepth⟩ | ⟨herror, -⟩ := processDirectory_cases ctx fuel 0 []
    · exact ⟨fuel, hdepth.resolve_left hroot⟩
    · rw [herror] at hout; cases hout
  · rintro ⟨fuel, hdepth⟩
    obtain ⟨hout, -⟩ | ⟨-, hnot⟩ := processDirectory_cases ctx fuel 0 []
    · exact ⟨fuel, hout⟩
    · exact absurd (Or.inr hdepth) hnot

/-- `ExtractRomFS` RETURNS EXACTLY WHERE NO CYCLE CAN BE REACHED FROM THE ROOT: for every file with a
    header of the right size, once its two tables can be read. The reads from the tables are inside in
    any case. -/
theorem extractRomFS_exact (file : VfsFile) (bytes : List UInt8)
    (hread : file.read sizeofRomFSHeader 0 = some bytes) (hlen : bytes.length = sizeofRomFSHeader)
    (hsize : (RomFSHeader.ofBytes bytes).headerSize = sizeofRomFSHeader) :
    ((∃ fuel result, extractRomFS fuel (some file) = .ok result) ↔
        ∃ ctx, readContext file (.ofBytes bytes) = .ok ctx ∧ Acyclic ctx) ∧
      ∀ ctx fuel offset directories files,
        processDirectory ctx fuel offset directories ≠ .error .outOfRange ∧
          processFile ctx fuel offset files ≠ .error .outOfRange := by
  have hextract : ∀ fuel, extractRomFS fuel (some file) =
      (readContext file (.ofBytes bytes)).bind fun ctx =>
        (processDirectory ctx fuel 0 []).map fun directories => directories.find? (·.name = []) := by
    intro fuel
    simp only [extractRomFS, hread]
    rw [if_neg (not_not.mpr hlen), if_neg (not_not.mpr hsize)]
  refine ⟨?_, ?_⟩
  · cases hcontext : readContext file (.ofBytes bytes) with
    | error fault =>
      refine iff_of_false ?_ fun ⟨ctx, h, _⟩ => nomatch h
      rintro ⟨fuel, result, hresult⟩
      rw [hextract, hcontext] at hresult; cases hresult
    | ok ctx =>
      constructor
      · rintro ⟨fuel, result, hresult⟩
        rw [hextract, hcontext] at hresult
        refine ⟨ctx, rfl, (processDirectory_ends_iff ctx).mp ⟨fuel, ?_⟩⟩
        obtain ⟨hout, -⟩ | ⟨herror, -⟩ := processDirectory_cases ctx fuel 0 []
        · exact hout
        · change (processDirectory ctx fuel 0 []).map _ = _ at hresult
          rw [herror] at hresult; cases hresult
      · rintro ⟨ctx', hctx, hacyclic⟩
        obtain rfl : ctx = ctx' := Except.ok.inj hctx
        obtain ⟨fuel, out, hout⟩ := (processDirectory_ends_iff ctx).mpr hacyclic
        refine ⟨fuel, out.find? (·.name = []), ?_⟩
        rw [hextract, hcontext]
        show (processDirectory ctx fuel 0 []).map _ = _
        rw [hout]; rfl
  · intro ctx fuel offset directories files
    constructor
    · obtain ⟨⟨out, hout⟩, -⟩ | ⟨herror, -⟩ := processDirectory_cases ctx fuel offset directories
      · rw [hout]
        exact fun h => nomatch h
      · rw [herror]; exact fun h => nomatch h
    · obtain ⟨⟨out, hout⟩, -⟩ | ⟨herror, -⟩ := processFile_cases ctx fuel offset files
      · rw [hout]
        exact fun h => nomatch h
      · rw [herror]; exact fun h => nomatch h

/-- The header of an image with empty tables. -/
def emptyTables : List UInt8 := 0x50 :: List.replicate 0x4F 0

/-- With empty tables the root is an entry of zeros: its `child_file` is the file at offset 0, which is
    its own sibling, so that `ProcessFile` never returns (and `ProcessDirectory` would not either: the
    root is its own sibling too, and already this breaks `Acyclic`). -/
theorem not_extractRomFS : (RomFSHeader.ofBytes emptyTables).headerSize = sizeofRomFSHeader ∧
    ¬ ∃ fuel result, extractRomFS fuel (some (.vector emptyTables)) = .ok result := by
  refine ⟨by decide +kernel, ?_⟩
  rintro ⟨fuel, result, hresult⟩
  have hcontext : readContext (.vector emptyTables) (.ofBytes emptyTables) =
      .ok ⟨.ofBytes emptyTables, .vector emptyTables, [], []⟩ := rfl
  have hextract : extractRomFS fuel (some (.vector emptyTables)) =
      (readContext (.vector emptyTables) (.ofBytes emptyTables)).bind fun ctx =>
        (processDirectory ctx fuel 0 []).map fun directories => directories.find? (·.name = []) := rfl
  rw [hextract, hcontext] at hresult
  change (processDirectory _ fuel 0 []).map _ = _ at hresult
  obtain ⟨hout, -⟩ | ⟨herror, -⟩ := processDirectory_cases
    ⟨.ofBytes emptyTables, .vector emptyTables, [], []⟩ fuel 0 []
  · refine (processDirectory_ends_iff _).mp ⟨fuel, hout⟩ (.directory 0) .refl (.single ?_)
    exact .sibling 0 (by decide)
  · rw [herror] at hresult; cases hresult

/-! ## An image with a file and a directory -/

/-- 32-bit words as the bytes of an image. -/
def littleEndian (words : List Nat) : List UInt8 :=
  words.flatMap fun word => [UInt8.ofNat word, UInt8.ofNat (word / 2 ^ 8), UInt8.ofNat (word / 2 ^ 16),
    UInt8.ofNat (word / 2 ^ 24)]

/-- The root has a directory `d` and a file `f` of three bytes. -/
def smallImage : List UInt8 :=
  -- the header: tables of 0x34 and of 0x24 bytes, the data behind them
  littleEndian [0x50, 0, 0, 0, 0, 0, 0x50, 0, 0x34, 0, 0, 0, 0, 0, 0x84, 0, 0x24, 0, 0xA8, 0] ++
  -- the root, and the entry of `d` at offset 0x18
  littleEndian [0, romfsEntryEmpty, 0x18, 0, romfsEntryEmpty, 0] ++
  littleEndian [0, romfsEntryEmpty, romfsEntryEmpty, romfsEntryEmpty, romfsEntryEmpty, 1] ++
  [0x64, 0, 0, 0] ++
  -- the entry of `f`
  littleEndian [0, romfsEntryEmpty, 0, 0, 3, 0, romfsEntryEmpty, 1] ++ [0x66, 0, 0, 0] ++ [1, 2, 3]

set_option maxRecDepth 4000 in
/-- Two levels are enough, so the tables can be read and no cycle is reached. -/
theorem extractRomFS_exact_smallImage :
    extractRomFS 2 (some (.vector smallImage)) =
      .ok (some (.mk [] [([0x66], .offset (.vector smallImage) 3 0xA8)] [.mk [0x64] [] []])) ∧
    ∃ ctx, readContext (.vector smallImage) (.ofBytes (smallImage.take 0x50)) = .ok ctx ∧
      Acyclic ctx := by
  have hextract : extractRomFS 2 (some (.vector smallImage)) =
      .ok (some (.mk [] [([0x66], .offset (.vector smallImage) 3 0xA8)] [.mk [0x64] [] []])) := by
    rfl
  exact ⟨hextract, (extractRomFS_exact (.vector smallImage) (smallImage.take 0x50) (by decide +kernel)
    (by decide +kernel) (by decide +kernel)).1.mp ⟨2, _, hextract⟩⟩

end Suyu.FileSys.RomFs
