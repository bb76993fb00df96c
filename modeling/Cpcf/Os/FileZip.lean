import Cpcf.Lib.ByteFile
import Cpcf.Lib.Run
import Cpcf.Lib.WordList
import Cpcf.Rt.Chars

/-!
`os::FileZip`: an archive in a file that is changed in place. The data of the entries comes first, the central
directory behind it is read when the archive is opened and written again by `Save`. The space of a removed entry is
kept in the entry itself, as a hole that a later entry may take the front of.
-/

namespace Cpcf.Os.Zip

open Cpcf.Lib Cpcf.Lib.ByteFile Cpcf.Lib.WordList Cpcf.Rt

/-! ### Texts in a record -/

/-- A text whose length fits into a `WORD`. -/
abbrev Text := {s : List UInt8 // s.length < 2 ^ 16}

/-- The first `n` bytes of `s`. -/
def Text.ofLength (n : UInt16) (s : List UInt8) : Text :=
  ⟨s.take n.toNat, by have := n.toNat_lt; rw [List.length_take]; omega⟩

def Text.empty : Text := ⟨[], by norm_num⟩

/-- The length as it is stored. -/
def Text.size (t : Text) : UInt16 := UInt16.ofNat t.1.length

@[simp] theorem Text.toNat_size (t : Text) : t.size.toNat = t.1.length := UInt16.toNat_ofNat_of_lt' t.2

@[simp] theorem Text.ofLength_size (t : Text) (r : List UInt8) : Text.ofLength t.size (t.1 ++ r) = t := by
  apply Subtype.ext
  change (t.1 ++ r).take t.size.toNat = t.1
  rw [Text.toNat_size]
  exact List.take_left' rfl

/-! ### `FileEntry` -/

/-- `FileEntry`, with the three texts behind it. -/
@[ext] structure FileEntry where
  signature : UInt32
  zipVersion : UInt16
  unzipVersion : UInt16
  flag : UInt16
  compression : UInt16
  fileTime : UInt16
  fileDate : UInt16
  crc32 : UInt32
  size : UInt32
  sizeOriginal : UInt32
  diskNumber : UInt16
  fileAttributes : UInt16
  fileAttributesOriginal : UInt32
  offsetToLocalFileHeader : UInt32
  fileName : Text
  extraField : Text
  fileComment : Text
  deriving DecidableEq

namespace FileEntry

def header_magic : UInt32 := 0x02014b50

/-- `GetTotalSize()`. -/
def getTotalSize (e : FileEntry) : UInt32 :=
  46 + e.fileName.size.toUInt32 + e.extraField.size.toUInt32 + e.fileComment.size.toUInt32

/-- `GetOffsetToLocalData()`. -/
def getOffsetToLocalData (e : FileEntry) : UInt32 := e.offsetToLocalFileHeader + 30 + e.fileName.size.toUInt32

/-- The record as it lies in memory and in the file. -/
def bytes (e : FileEntry) : List UInt8 :=
  word32 e.signature ++ (word16 e.zipVersion ++ (word16 e.unzipVersion ++ (word16 e.flag ++ (word16 e.compression ++
    (word16 e.fileTime ++ (word16 e.fileDate ++ (word32 e.crc32 ++ (word32 e.size ++ (word32 e.sizeOriginal ++
      (word16 e.fileName.size ++ (word16 e.extraField.size ++ (word16 e.fileComment.size ++
        (word16 e.diskNumber ++ (word16 e.fileAttributes ++ (word32 e.fileAttributesOriginal ++
          (word32 e.offsetToLocalFileHeader ++ (e.fileName.1 ++ (e.extraField.1 ++ e.fileComment.1))))))))))))))))))

/-- The record that `s` begins with, and what is behind it; nothing if `Open` does not accept it. -/
def read (s : List UInt8) : Option (FileEntry × List UInt8) :=
  if 47 ≤ s.length then
    let (signature, s) := get32 s
    let (zipVersion, s) := get16 s
    let (unzipVersion, s) := get16 s
    let (flag, s) := get16 s
    let (compression, s) := get16 s
    let (fileTime, s) := get16 s
    let (fileDate, s) := get16 s
    let (crc32, s) := get32 s
    let (size, s) := get32 s
    let (sizeOriginal, s) := get32 s
    let (fileNameLength, s) := get16 s
    let (extraFieldLength, s) := get16 s
    let (fileCommentLength, s) := get16 s
    let (diskNumber, s) := get16 s
    let (fileAttributes, s) := get16 s
    let (fileAttributesOriginal, s) := get32 s
    let (offsetToLocalFileHeader, s) := get32 s
    if signature = header_magic ∧
        fileNameLength.toNat + extraFieldLength.toNat + fileCommentLength.toNat ≤ s.length then
      let extra := s.drop fileNameLength.toNat
      let comment := extra.drop extraFieldLength.toNat
      some ({ signature, zipVersion, unzipVersion, flag, compression, fileTime, fileDate, crc32, size, sizeOriginal,
              diskNumber, fileAttributes, fileAttributesOriginal, offsetToLocalFileHeader
              fileName := .ofLength fileNameLength s
              extraField := .ofLength extraFieldLength extra
              fileComment := .ofLength fileCommentLength comment }, comment.drop fileCommentLength.toNat)
    else none
  else none

/-- How many bytes the record has. -/
theorem length_bytes (e : FileEntry) :
    e.bytes.length = 46 + e.fileName.1.length + e.extraField.1.length + e.fileComment.1.length := by
  simp only [bytes, List.length_append, length_word16, length_word32]
  omega

theorem toNat_getTotalSize (e : FileEntry) : e.getTotalSize.toNat = e.bytes.length := by
  have h1 := e.fileName.2
  have h2 := e.extraField.2
  have h3 := e.fileComment.2
  rw [length_bytes]
  simp only [getTotalSize, UInt32.toNat_add, UInt16.toNat_toUInt32, Text.toNat_size,
    show (46 : UInt32).toNat = 46 from rfl]
  omega

/-- A record that is written is read again, if a byte comes behind its fixed part. -/
theorem read_bytes (e : FileEntry) (r : List UInt8) (hs : e.signature = header_magic) (hl : 47 ≤ (e.bytes ++ r).length) :
    read (e.bytes ++ r) = some (e, r) := by
  unfold read
  rw [if_pos hl]
  simp only [bytes, List.append_assoc, get32_word32, get16_word16, Text.toNat_size, Text.ofLength_size,
    List.drop_left]
  rw [if_pos ⟨hs, by simp only [List.length_append]; omega⟩]

end FileEntry

/-- `count` records one after the other. -/
def readEntries : ℕ → List UInt8 → Option (List FileEntry)
  | 0, _ => some []
  | count + 1, s => (FileEntry.read s).bind fun (e, r) => (readEntries count r).map fun es => e :: es

/-! ### `CentralDirectory` -/

/-- `CentralDirectory`, without its signature and its comment. -/
structure CentralDirectory where
  thisDisk : UInt16
  diskWithCD : UInt16
  diskEntriesNo : UInt16
  entriesNumber : UInt16
  size : UInt32
  offset : UInt32
  zipCommentLength : UInt16
  deriving DecidableEq

namespace CentralDirectory

def header_magic : UInt32 := 0x06054b50

/-- `sizeof(CentralDirectory)`, which counts the first byte of the comment. -/
def sizeOf : ℕ := 23

def bytes (cd : CentralDirectory) : List UInt8 :=
  word32 header_magic ++ (word16 cd.thisDisk ++ (word16 cd.diskWithCD ++ (word16 cd.diskEntriesNo ++
    (word16 cd.entriesNumber ++ (word32 cd.size ++ (word32 cd.offset ++ word16 cd.zipCommentLength))))))

/-- The record that `s` begins with. Bytes behind the end of `s` count as zeros. -/
def ofBytes (s : List UInt8) : CentralDirectory :=
  let (_, s) := get32 s
  let (thisDisk, s) := get16 s
  let (diskWithCD, s) := get16 s
  let (diskEntriesNo, s) := get16 s
  let (entriesNumber, s) := get16 s
  let (size, s) := get32 s
  let (offset, s) := get32 s
  let (zipCommentLength, _) := get16 s
  { thisDisk, diskWithCD, diskEntriesNo, entriesNumber, size, offset, zipCommentLength }

@[simp] theorem length_bytes (cd : CentralDirectory) : cd.bytes.length = 22 := by
  simp only [bytes, List.length_append, length_word16, length_word32]

@[simp] theorem ofBytes_bytes (cd : CentralDirectory) (r : List UInt8) : ofBytes (cd.bytes ++ r) = cd := by
  simp only [ofBytes, bytes, List.append_assoc, get32_word32, get16_word16]

end CentralDirectory

/-- What `Open` looks for: the signature of a directory, with an offset inside the file. -/
def isDirectory (s : List UInt8) (filelen : UInt32) : Bool :=
  (get32 s).1 == CentralDirectory.header_magic && (CentralDirectory.ofBytes s).offset < filelen

/-- The loop of `Open` over the positions before `i`, from the last one down. -/
def scanBack (p : ℕ → Bool) : ℕ → Option ℕ
  | 0 => none
  | i + 1 => if p i then some i else scanBack p i

/-! ### The archive -/

/-- What is kept between the begin and the end of an entry, with the stream that writes its data. -/
structure Adding where
  entry : FileEntry
  holeFromEntry : Option ℕ
  holeTakenSize : UInt32
  centralDirectoryStartOld : UInt32
  claimedSize : UInt32
  baseInFile : UInt32
  written : UInt32
  deriving DecidableEq

structure FileZip where
  /-- The contents of the file. -/
  file : List UInt8
  fileEntries : List FileEntry
  zipComment : Text
  centralDirectoryStart : UInt32
  centralDirectoryModified : Bool
  adding : Option Adding
  deriving DecidableEq

/-- `ReindexAllEntries`: the entries in the order of their names. -/
def reindexAllEntries (es : List FileEntry) : List FileEntry :=
  es.mergeSort fun e f => decide (¬ f.fileName.1 < e.fileName.1)

/-- `Open` on an empty file, to create a new archive. -/
def create : FileZip := ⟨[], [], .empty, 0, false, none⟩

/-- How much of the end of the file `Open` searches. -/
def tailLength (file : List UInt8) : ℕ := min file.length (0xffff + CentralDirectory.sizeOf)

/-- Where the end of the file that `Open` searches begins. -/
def tailStart (file : List UInt8) : ℕ := file.length - tailLength file

/-- The place in the end of the file of the directory that `Open` takes: the last one. -/
def findDirectory (file : List UInt8) : Option ℕ :=
  let cdir := file.drop (tailStart file)
  scanBack (fun i => isDirectory (cdir.drop i) (UInt32.ofNat file.length))
    (tailLength file - CentralDirectory.sizeOf + 4)

/-- `Open` on an archive that exists, from the directory that it takes. -/
def openDirectory (file : List UInt8) (i : ℕ) (load_indexed : Bool) : Option FileZip :=
  let cdir := file.drop (tailStart file)
  let cd := CentralDirectory.ofBytes (cdir.drop i)
  if cd.thisDisk = 0 ∧ cd.diskWithCD = 0 ∧ cd.diskEntriesNo = cd.entriesNumber ∧
      cd.size + cd.offset < UInt32.ofNat file.length then
    let len := min cd.zipCommentLength (UInt16.ofInt (tailLength file - (i + 22)))
    let z : FileZip := ⟨file, [], .ofLength len (cdir.drop (i + 22)), cd.offset, false, none⟩
    let pool := readAt file cd.offset.toNat cd.size.toNat
    if pool.length = cd.size.toNat then
      (readEntries cd.entriesNumber.toNat pool).map fun es =>
        { z with fileEntries := if load_indexed then reindexAllEntries es else es }
    else some z
  else none

/-- `Open` on an archive that exists. The length of the file is cut to 32 bits. -/
def openFile (file : List UInt8) (load_indexed : Bool) : Option FileZip :=
  if (UInt32.ofNat file.length).toNat < CentralDirectory.sizeOf then none
  else (findDirectory file).bind fun i => openDirectory file i load_indexed

/-- `Replace('\\', '/')`. -/
def replaceSlashes (s : List UInt8) : List UInt8 := s.map fun c => if c = Ch.backslash then Ch.slash else c

def FILE_ATTRIBUTE_DIRECTORY : UInt32 := 0x10

def FILE_ATTRIBUTE_ARCHIVE : UInt32 := 0x20

/-- `AddZeroSizedEntry`. For an empty name the source looks at the byte that stands `before` it in memory. The length of
the name is cut to a `WORD` only after a slash was counted. -/
def addZeroSizedEntry (z : FileZip) (before : UInt8) (pathname : List UInt8) (fileTime fileDate : UInt16)
    (attrib : UInt32) : FileZip :=
  if 0xffff < pathname.length then z
  else if 0xffff ≤ z.fileEntries.length then z
  else
    let last := pathname.getLastD before
    let slash_add := if last ≠ Ch.slash ∧ last ≠ Ch.backslash ∧ attrib = FILE_ATTRIBUTE_DIRECTORY then 1 else 0
    let e : FileEntry :=
      { signature := FileEntry.header_magic
        zipVersion := 0x014
        unzipVersion := 0x000a
        flag := 0
        compression := 0
        fileTime := fileTime
        fileDate := fileDate
        crc32 := 0
        size := 0
        sizeOriginal := 0
        diskNumber := 0
        fileAttributes := 0
        fileAttributesOriginal := attrib
        offsetToLocalFileHeader := 0
        fileName := .ofLength (UInt16.ofNat pathname.length + UInt16.ofNat slash_add)
          (replaceSlashes pathname ++ List.replicate slash_add Ch.slash)
        extraField := .empty
        fileComment := .empty }
    { z with fileEntries := z.fileEntries ++ [e], centralDirectoryModified := true }

/-- The first hole of at least `LFlen` bytes. -/
def findHole (LFlen : UInt32) : List FileEntry → Option (ℕ × FileEntry)
  | [] => none
  | e :: es =>
    if e.signature = 0 ∧ LFlen ≤ e.size then some (0, e) else (findHole LFlen es).map fun (i, h) => (i + 1, h)

/-- The entry that is begun at `offset`. -/
def newEntry (pathname : List UInt8) (size : UInt32) (fileTime fileDate : UInt16) (offset : UInt32) : FileEntry where
  signature := FileEntry.header_magic
  zipVersion := 0x014
  unzipVersion := 0x000a
  flag := 0
  compression := 0
  fileTime := fileTime
  fileDate := fileDate
  crc32 := 0
  size := size
  sizeOriginal := size
  diskNumber := 0
  fileAttributes := 0
  fileAttributesOriginal := FILE_ATTRIBUTE_ARCHIVE
  offsetToLocalFileHeader := offset
  fileName := .ofLength (UInt16.ofNat pathname.length) (replaceSlashes pathname)
  extraField := .empty
  fileComment := .empty

/-- From `SAVE_ENTRY` on: the new entry, and its name in the file. -/
def saveEntry (z : FileZip) (pathname : List UInt8) (e : FileEntry) (LFlen : UInt32) (hole : Option ℕ)
    (start_old : UInt32) : FileZip :=
  let name_pos := e.offsetToLocalFileHeader + 30
  { z with
    file := writeAt z.file name_pos.toNat pathname
    adding := some ⟨e, hole, LFlen, start_old, e.size, e.getOffsetToLocalData, 0⟩ }

/-- What an entry takes or gives back at the front of a hole. -/
def FileEntry.takeFront (n : UInt32) (e : FileEntry) : FileEntry :=
  { e with size := e.size - n, offsetToLocalFileHeader := e.offsetToLocalFileHeader + n }

def FileEntry.giveFront (n : UInt32) (e : FileEntry) : FileEntry :=
  { e with size := e.size + n, offsetToLocalFileHeader := e.offsetToLocalFileHeader - n }

/-- `_AddNonZeroFileEntry_Begin`. -/
def addNonZeroFileEntryBegin (z : FileZip) (pathname : List UInt8) (size : UInt32) (fileTime fileDate : UInt16) :
    FileZip :=
  if 0xffff < pathname.length then z
  else if 0xffff ≤ z.fileEntries.length then z
  else
    let LFlen := UInt32.ofNat (30 + pathname.length) + size
    match findHole LFlen z.fileEntries with
    | some (i, e) =>
      saveEntry { z with fileEntries := z.fileEntries.modify i (FileEntry.takeFront LFlen) } pathname
        (newEntry pathname size fileTime fileDate e.offsetToLocalFileHeader) LFlen (some i) z.centralDirectoryStart
    | none =>
      if 0xffffffff - UInt32.ofNat CentralDirectory.sizeOf - 0xffff < z.centralDirectoryStart + LFlen then z
      else saveEntry { z with centralDirectoryStart := z.centralDirectoryStart + LFlen } pathname
        (newEntry pathname size fileTime fileDate z.centralDirectoryStart) LFlen none z.centralDirectoryStart

/-- `Write` of the streams: the bytes are written if they fit into what was claimed. -/
def streamWrite (z : FileZip) (a : Adding) (p : List UInt8) : FileZip :=
  let size := UInt32.ofNat p.length
  if a.written + size ≤ a.claimedSize then
    { z with
      file := writeAt z.file (a.baseInFile + a.written).toNat p
      adding := some { a with written := a.written + size } }
  else z

/-- The `LocalFileHeader` of an entry, without its name. -/
def localFileHeader (e : FileEntry) : List UInt8 :=
  word32 0x04034b50 ++ (word16 e.unzipVersion ++ (word16 e.flag ++ (word16 e.compression ++ (word16 e.fileTime ++
    (word16 e.fileDate ++ (word32 e.crc32 ++ (word32 e.size ++ (word32 e.sizeOriginal ++
      (word16 e.fileName.size ++ word16 0)))))))))

/-- `_AddNonZeroFileEntry_End(true)`. -/
def addNonZeroFileEntryCommit (z : FileZip) (a : Adding) : FileZip :=
  let e := a.entry
  let saved := a.claimedSize - e.size
  let z := { z with
    file := writeAt z.file e.offsetToLocalFileHeader.toNat (localFileHeader e)
    fileEntries := z.fileEntries ++ [e]
    centralDirectoryModified := true
    adding := none }
  if saved = 0 then z
  else match a.holeFromEntry with
    | some i => { z with fileEntries := z.fileEntries.modify i (FileEntry.giveFront saved) }
    | none => { z with centralDirectoryStart := z.centralDirectoryStart - saved }

/-- `_AddNonZeroFileEntry_End(false)`. -/
def addNonZeroFileEntryRollback (z : FileZip) (a : Adding) : FileZip :=
  match a.holeFromEntry with
  | some i =>
    { z with fileEntries := z.fileEntries.modify i (FileEntry.giveFront a.holeTakenSize), adding := none }
  | none => { z with centralDirectoryStart := a.centralDirectoryStartOld, adding := none }

/-- The members of the entry that are set when its data is written. -/
def Adding.finished (a : Adding) (compression : UInt16) (crc32 sizeOriginal : UInt32) : Adding :=
  { a with entry := { a.entry with compression, crc32, sizeOriginal, size := a.written } }

/-- `Finalize` of the streams. -/
def finalize (z : FileZip) (a : Adding) (compression : UInt16) (crc32 sizeOriginal : UInt32) (commit : Bool) : FileZip :=
  if commit then addNonZeroFileEntryCommit z (a.finished compression crc32 sizeOriginal)
  else addNonZeroFileEntryRollback z (a.finished compression crc32 sizeOriginal)

/-- `RemoveFile`. The directory is not marked as modified here. -/
def FileEntry.remove (e : FileEntry) : FileEntry :=
  { e with signature := 0, size := e.size + (30 + e.fileName.size.toUInt32) }

def removeFile (z : FileZip) (idx : ℕ) : FileZip :=
  { z with fileEntries := z.fileEntries.modify idx FileEntry.remove }

/-- The entries that were not removed. -/
def liveEntries (z : FileZip) : List FileEntry := z.fileEntries.filter fun e => e.signature ≠ 0

/-- The records of the entries, as `Save` writes them. -/
def records (z : FileZip) : List UInt8 := (liveEntries z).flatMap FileEntry.bytes

/-- The end record that `Save` writes. -/
def endRecord (z : FileZip) : CentralDirectory where
  thisDisk := 0
  diskWithCD := 0
  diskEntriesNo := UInt16.ofNat (liveEntries z).length
  entriesNumber := UInt16.ofNat (liveEntries z).length
  size := (liveEntries z).foldl (fun cdsize e => cdsize + e.getTotalSize) 0
  offset := z.centralDirectoryStart
  zipCommentLength := z.zipComment.size

/-- All that `Save` writes. -/
def directory (z : FileZip) : List UInt8 := records z ++ ((endRecord z).bytes ++ z.zipComment.1)

/-- `Save`. -/
def save (z : FileZip) : FileZip :=
  if z.centralDirectoryModified then
    { z with
      file := writeAt z.file z.centralDirectoryStart.toNat (directory z)
      centralDirectoryModified := false }
  else z

/-- The file that `Close` leaves. -/
def close (z : FileZip) : List UInt8 := (save z).file

/-! ### What the calls do -/

theorem findHole_eq_some {LFlen : UInt32} {es : List FileEntry} {i : ℕ} {h : FileEntry}
    (hf : findHole LFlen es = some (i, h)) : es[i]? = some h ∧ h.signature = 0 ∧ LFlen.toNat ≤ h.size.toNat := by
  induction es generalizing i with
  | nil => cases hf
  | cons e es ih =>
    rw [findHole] at hf
    split at hf
    · next hc =>
      obtain ⟨rfl, rfl⟩ := hf
      exact ⟨rfl, hc⟩
    · obtain ⟨⟨j, h'⟩, hj, hjeq⟩ := Option.map_eq_some_iff.mp hf
      obtain ⟨rfl, rfl⟩ := hjeq
      exact ih hj

/-- `AddZeroSizedEntry` refuses, or appends an empty entry. -/
theorem addZeroSizedEntry_cases (z : FileZip) (before : UInt8) (pathname : List UInt8) (fileTime fileDate : UInt16)
    (attrib : UInt32) :
    addZeroSizedEntry z before pathname fileTime fileDate attrib = z ∨
      z.fileEntries.length < 0xffff ∧ ∃ e : FileEntry, e.signature = FileEntry.header_magic ∧ e.size = 0 ∧
        addZeroSizedEntry z before pathname fileTime fileDate attrib =
          { z with fileEntries := z.fileEntries ++ [e], centralDirectoryModified := true } := by
  unfold addZeroSizedEntry
  by_cases h1 : 0xffff < pathname.length
  · left
    rw [if_pos h1]
  · by_cases h2 : 0xffff ≤ z.fileEntries.length
    · left
      rw [if_neg h1, if_pos h2]
    · right
      rw [if_neg h1, if_neg h2]
      exact ⟨Nat.not_le.mp h2, _, rfl, rfl, rfl⟩

/-- `_AddNonZeroFileEntry_Begin` refuses, or it begins an entry in a hole, or at the end of the data. -/
theorem addNonZeroFileEntryBegin_cases (z : FileZip) (pathname : List UInt8) (size : UInt32) (fileTime fileDate : UInt16) :
    let LFlen := UInt32.ofNat (30 + pathname.length) + size
    let begun := addNonZeroFileEntryBegin z pathname size fileTime fileDate
    begun = z ∨ pathname.length ≤ 0xffff ∧ z.fileEntries.length < 0xffff ∧
      ((∃ i h, findHole LFlen z.fileEntries = some (i, h) ∧
        begun = saveEntry { z with fileEntries := z.fileEntries.modify i (FileEntry.takeFront LFlen) } pathname
          (newEntry pathname size fileTime fileDate h.offsetToLocalFileHeader) LFlen (some i) z.centralDirectoryStart) ∨
      findHole LFlen z.fileEntries = none ∧
        begun = saveEntry { z with centralDirectoryStart := z.centralDirectoryStart + LFlen } pathname
          (newEntry pathname size fileTime fileDate z.centralDirectoryStart) LFlen none z.centralDirectoryStart) := by
  unfold addNonZeroFileEntryBegin
  dsimp only
  by_cases h1 : 0xffff < pathname.length
  · left
    rw [if_pos h1]
  by_cases h2 : 0xffff ≤ z.fileEntries.length
  · left
    rw [if_neg h1, if_pos h2]
  rw [if_neg h1, if_neg h2]
  split
  · next i h hf => exact .inr ⟨Nat.not_lt.mp h1, Nat.not_le.mp h2, .inl ⟨i, h, hf, rfl⟩⟩
  · next hf =>
    split
    · exact .inl rfl
    · exact .inr ⟨Nat.not_lt.mp h1, Nat.not_le.mp h2, .inr ⟨hf, rfl⟩⟩

theorem FileEntry.giveFront_zero : FileEntry.giveFront 0 = id := by
  funext e
  unfold FileEntry.giveFront
  rw [UInt32.add_zero, UInt32.sub_zero]
  rfl

section

variable {z : FileZip} {a : Adding}

/-- What `_AddNonZeroFileEntry_End(true)` writes and appends, with or without something to give back. -/
def committed (z : FileZip) (e : FileEntry) : FileZip :=
  { z with
    file := writeAt z.file e.offsetToLocalFileHeader.toNat (localFileHeader e)
    fileEntries := z.fileEntries ++ [e]
    centralDirectoryModified := true
    adding := none }

theorem commit_hole {i : ℕ} (hhole : a.holeFromEntry = some i) :
    addNonZeroFileEntryCommit z a = { committed z a.entry with
      fileEntries := (z.fileEntries ++ [a.entry]).modify i (FileEntry.giveFront (a.claimedSize - a.entry.size)) } := by
  unfold addNonZeroFileEntryCommit
  dsimp only
  split
  · next hz =>
    rw [hz, FileEntry.giveFront_zero, List.modify_id]
    rfl
  · rw [hhole]
    rfl

theorem commit_end (hhole : a.holeFromEntry = none) :
    addNonZeroFileEntryCommit z a = { committed z a.entry with
      centralDirectoryStart := z.centralDirectoryStart - (a.claimedSize - a.entry.size) } := by
  unfold addNonZeroFileEntryCommit
  dsimp only
  split
  · next hz =>
    rw [hz, UInt32.sub_zero]
    rfl
  · rw [hhole]
    rfl

theorem rollback_hole {i : ℕ} (hhole : a.holeFromEntry = some i) :
    addNonZeroFileEntryRollback z a =
      { z with fileEntries := z.fileEntries.modify i (FileEntry.giveFront a.holeTakenSize), adding := none } := by
  unfold addNonZeroFileEntryRollback
  rw [hhole]

theorem rollback_end (hhole : a.holeFromEntry = none) :
    addNonZeroFileEntryRollback z a = { z with centralDirectoryStart := a.centralDirectoryStartOld, adding := none } := by
  unfold addNonZeroFileEntryRollback
  rw [hhole]

end

/-! ### Sessions -/

/-- A call, with what the caller hands over. -/
inductive Act
  | addZero (before : UInt8) (pathname : List UInt8) (fileTime fileDate : UInt16) (attrib : UInt32)
  | begin (pathname : List UInt8) (size : UInt32) (fileTime fileDate : UInt16)
  | write (p : List UInt8)
  | finish (compression : UInt16) (crc32 sizeOriginal : UInt32) (commit : Bool)
  | remove (idx : ℕ)
  | save
  deriving DecidableEq

/-- One call. It needs what the source asserts: while an entry is being added there are only its stream and its end, an
entry of no bytes is not begun, and no entry is removed twice. -/
def step (z : FileZip) : Act → Option FileZip
  | .addZero before pathname fileTime fileDate attrib =>
    if z.adding = none then some (addZeroSizedEntry z before pathname fileTime fileDate attrib) else none
  | .begin pathname size fileTime fileDate =>
    if z.adding = none ∧ size ≠ 0 then some (addNonZeroFileEntryBegin z pathname size fileTime fileDate) else none
  | .write p => z.adding.bind fun a => if p.length < 2 ^ 32 then some (streamWrite z a p) else none
  | .finish compression crc32 sizeOriginal commit =>
    z.adding.map fun a => finalize z a compression crc32 sizeOriginal commit
  | .remove idx =>
    if z.adding = none ∧ ∃ e ∈ z.fileEntries[idx]?, e.signature ≠ 0 then some (removeFile z idx) else none
  | .save => if z.adding = none then some (save z) else none

end Cpcf.Os.Zip
