import Cpcf.Os.FileZipSpace

/-!
Adding an entry to an archive when the file does not obey: each seek and each write may fail.

What `_AddNonZeroFileEntry_Begin` takes from a hole or from the end of the data is remembered until
`_AddNonZeroFileEntry_End`. As long as the entry is pending, the directory that a rollback leaves is the one from before.
-/

namespace Cpcf.Os.Zip

open Cpcf.Lib Cpcf.Lib.ByteFile

/-! ### The code -/

/-- `SetCompressionMode`: `AddFile` asserts that it is one of these. -/
inductive CompressionMode
  | store
  | deflated
  deriving DecidableEq

/-- `m_CompressionMode`. -/
def CompressionMode.value : CompressionMode → UInt16
  | .store => 0
  | .deflated => 8

/-- An archive with the flag of its order, its mode and the checksum of the stream that writes. -/
structure Archive where
  zip : FileZip
  listSorted : Bool
  compressionMode : CompressionMode
  crc : UInt32
  deriving DecidableEq

/-- What a seek and the write behind it come to: the seek fails, or so many bytes are written. -/
abbrev Attempt := Option ℕ

/-- `Seek(pos) == pos && Write(p, size) == size`, with the file that is left. -/
def attempt (file : List UInt8) (pos : UInt32) (p : List UInt8) : Attempt → List UInt8 × Bool
  | none => (file, false)
  | some n => (writeAt file pos.toNat (p.take n), decide (n = p.length))

/-- The end of `_AddNonZeroFileEntry_End`. -/
def rollback (z : Archive) (a : Adding) : Archive := { z with zip := addNonZeroFileEntryRollback z.zip a }

/-- `_AddNonZeroFileEntry_End(commit)`, with what it returns. -/
def addNonZeroFileEntryEnd (z : Archive) (a : Adding) (commit : Bool) (t : Attempt) : Archive × Bool :=
  if commit then
    let r := attempt z.zip.file a.entry.offsetToLocalFileHeader (localFileHeader a.entry) t
    if r.2 then ({ z with zip := addNonZeroFileEntryCommit z.zip a, listSorted := false }, true)
    else (rollback { z with zip := { z.zip with file := r.1 } } a, false)
  else (rollback z a, true)

/-- From `SAVE_ENTRY` on: the new entry, and its name in the file. -/
def saveEntryAt (z : Archive) (pathname : List UInt8) (e : FileEntry) (LFlen : UInt32) (hole : Option ℕ)
    (start_old : UInt32) (t : Attempt) : Archive × Bool :=
  let a : Adding := ⟨e, hole, LFlen, start_old, e.size, e.getOffsetToLocalData, 0⟩
  let name_pos := e.offsetToLocalFileHeader + 30
  let r := attempt z.zip.file name_pos pathname t
  let z := { z with zip := { z.zip with file := r.1, adding := some a } }
  if r.2 then (z, true) else ((addNonZeroFileEntryEnd z a false none).1, false)

/-- `_AddNonZeroFileEntry_Begin`, with whether it returns an entry. -/
def addNonZeroFileEntry (z : Archive) (pathname : List UInt8) (size : UInt32) (fileTime fileDate : UInt16) (t : Attempt) :
    Archive × Bool :=
  if 0xffff < pathname.length then (z, false)
  else if 0xffff ≤ z.zip.fileEntries.length then (z, false)
  else
    let LFlen := UInt32.ofNat (30 + pathname.length) + size
    match findHole LFlen z.zip.fileEntries with
    | some (i, e) =>
      saveEntryAt { z with zip := { z.zip with fileEntries := z.zip.fileEntries.modify i (FileEntry.takeFront LFlen) } }
        pathname (newEntry pathname size fileTime fileDate e.offsetToLocalFileHeader) LFlen (some i)
        z.zip.centralDirectoryStart t
    | none =>
      if 0xffffffff - UInt32.ofNat CentralDirectory.sizeOf - 0xffff < z.zip.centralDirectoryStart + LFlen then (z, false)
      else
        saveEntryAt { z with zip := { z.zip with centralDirectoryStart := z.zip.centralDirectoryStart + LFlen } }
          pathname (newEntry pathname size fileTime fileDate z.zip.centralDirectoryStart) LFlen none
          z.zip.centralDirectoryStart t

/-- The entry that is pending is changed. -/
def setPending (z : Archive) (a : Adding) : Archive := { z with zip := { z.zip with adding := some a } }

/-- `INFINITE`. -/
def infinite : UInt32 := 0xffffffff

section Streams

variable (checksum : List UInt8 → UInt32)

/-- Where a stream writes: `Written + size <= _ClaimedSize`, and then the seek and the write. -/
def writePiece (z : Archive) (a : Adding) (p : List UInt8) (t : Attempt) : Archive × Adding × Bool :=
  let r := attempt z.zip.file (a.baseInFile + a.written) p t
  let a := if r.2 then { a with written := a.written + UInt32.ofNat p.length } else a
  (setPending { z with zip := { z.zip with file := r.1 } } a, a, r.2)

/-- `compress_store::Write(p, size)`. -/
def storeWrite (z : Archive) (a : Adding) (p : List UInt8) (t : Attempt) : Archive × Adding × UInt32 :=
  let size := UInt32.ofNat p.length
  if a.written + size ≤ a.claimedSize then
    let r := writePiece { z with crc := checksum p } a p t
    (r.1, r.2.1, if r.2.2 then size else infinite)
  else (z, a, infinite)

/-- What a call of `deflate` leaves: the input that was not taken, the bytes in the buffer, and whether the buffer is
full. -/
structure Deflated where
  availIn : ℕ
  out : List UInt8
  full : Bool

/-- The loop of `compress_zlib::Write`, over what each `deflate` leaves and what the write of it comes to. Where a seek or
a write fails the loop goes on. -/
def zlibLoop (size : UInt32) : List (Deflated × Attempt) → Archive → Adding → Option (Archive × Adding × UInt32)
  | [], _, _ => none
  | (d, t) :: ds, z, a =>
    if d.availIn = 0 ∨ d.full = true then
      if a.written + UInt32.ofNat d.out.length ≤ a.claimedSize then
        let r := writePiece z a d.out t
        if d.availIn = 0 then some (r.1, r.2.1, size) else zlibLoop size ds r.1 r.2.1
      else some (z, a, infinite)
    else some (z, a, 0)

/-- A call of `Write`: the bytes, what the write to the file comes to, whether `deflateInit2` succeeds, and the loop. -/
structure Writing where
  p : List UInt8
  t : Attempt
  deflateInit : Bool
  loop : List (Deflated × Attempt)

/-- `compress_zlib::Write(p, size)`. -/
def zlibWrite (z : Archive) (a : Adding) (w : Writing) : Option (Archive × Adding × UInt32) :=
  if a.written = 0 ∧ w.deflateInit = false then some (z, a, 0)
  else zlibLoop (UInt32.ofNat w.p.length) w.loop { z with crc := checksum w.p } a

/-- `Write` of the stream that `AddFile` returns. Nothing comes out where the loop does not end. -/
def streamWriteAt (z : Archive) (a : Adding) (w : Writing) : Option (Archive × Adding × UInt32) :=
  match z.compressionMode with
  | .store => some (storeWrite checksum z a w.p w.t)
  | .deflated => zlibWrite checksum z a w

/-- `compress_stream::Finalize(commit)`. -/
def streamFinalize (z : Archive) (a : Adding) (commit : Bool) (t : Attempt) : Archive × Bool :=
  addNonZeroFileEntryEnd z { a with entry := { a.entry with crc32 := z.crc, size := a.written } } commit t

/-- A call of `Finalize`: what the write of the header comes to; for the stream of `zlib`, whether `deflate` comes to the
end of the stream, what it leaves in the buffer, and what the write of that comes to. -/
structure Finishing where
  commit : Bool
  t : Attempt
  ended : Bool
  out : List UInt8
  last : Attempt

/-- `compress_zlib::Finalize(commit)`. -/
def zlibFinalize (z : Archive) (a : Adding) (f : Finishing) : Archive × Bool :=
  if f.commit then
    if f.ended = false then ((streamFinalize z a false none).1, false)
    else if f.out = [] then streamFinalize z a true f.t
    else if a.written + UInt32.ofNat f.out.length ≤ a.claimedSize then
      let r := writePiece z a f.out f.last
      if r.2.2 then streamFinalize r.1 r.2.1 true f.t else ((streamFinalize r.1 r.2.1 false none).1, false)
    else ((streamFinalize z a false none).1, false)
  else streamFinalize z a false f.t

/-- `Finalize` of the stream. -/
def finalizeAt (z : Archive) (a : Adding) (f : Finishing) : Archive × Bool :=
  match z.compressionMode with
  | .store => streamFinalize z a f.commit f.t
  | .deflated => zlibFinalize z a f

/-- The calls of `Write`, one after the other. -/
def streamWrites : List Writing → Archive → Adding → Option (Archive × Adding)
  | [], z, a => some (z, a)
  | w :: ws, z, a => (streamWriteAt checksum z a w).bind fun r => streamWrites ws r.1 r.2.1

/-- `AddFile(pathname, size, ftime)`: the entry with the members that are set before its stream is returned. -/
def addFileStream (z : Archive) (pathname : List UInt8) (size : UInt32) (fileTime fileDate : UInt16) (t : Attempt) :
    Archive × Option Adding :=
  let r := addNonZeroFileEntry z pathname size fileTime fileDate t
  match r.2, r.1.zip.adding with
  | true, some a =>
    let a := { a with entry := { a.entry with compression := z.compressionMode.value, sizeOriginal := size } }
    (setPending { r.1 with crc := 0 } a, some a)
  | _, _ => (r.1, none)

/-- An entry that is added through a stream: `AddFile`, calls of `Write`, and `Finalize`. It is added when `Finalize` is
asked to commit and returns true. -/
def streamedAdd (z : Archive) (pathname : List UInt8) (size : UInt32) (fileTime fileDate : UInt16) (t : Attempt)
    (ws : List Writing) (f : Finishing) : Option (Archive × Bool) :=
  let r := addFileStream z pathname size fileTime fileDate t
  match r.2 with
  | none => some (r.1, false)
  | some a => (streamWrites checksum ws r.1 a).map fun s =>
      let e := finalizeAt s.1 s.2 f
      (e.1, f.commit && e.2)

/-- The data that `AddFile` puts into the file: what `zlib_encode` makes of it where that succeeds and is shorter. -/
def storedData (mode : CompressionMode) (compressed : Option (List UInt8)) (pData : List UInt8) : List UInt8 :=
  match mode, compressed with
  | .deflated, some c => if c.length < pData.length then c else pData
  | _, _ => pData

/-- `AddFile(pathname, pData, size, ftime)`, with what it returns. `compressed` is what `zlib_encode` makes of the data;
`before` is the byte before an empty name. -/
def addFile (z : Archive) (before : UInt8) (pathname pData : List UInt8) (fileTime fileDate : UInt16)
    (compressed : Option (List UInt8)) (t tdata tend : Attempt) : Archive × Bool :=
  if pData = [] then
    ({ z with
        zip := addZeroSizedEntry z.zip before pathname fileTime fileDate FILE_ATTRIBUTE_ARCHIVE
        listSorted := if 0xffff < pathname.length ∨ 0xffff ≤ z.zip.fileEntries.length then z.listSorted else false },
      ¬ (0xffff < pathname.length ∨ 0xffff ≤ z.zip.fileEntries.length))
  else
    let size_org := UInt32.ofNat pData.length
    let data := storedData z.compressionMode compressed pData
    let size := UInt32.ofNat data.length
    let r := addNonZeroFileEntry z pathname size fileTime fileDate t
    match r.2, r.1.zip.adding with
    | true, some a =>
      let w := attempt r.1.zip.file a.entry.getOffsetToLocalData data tdata
      let z' : Archive := { r.1 with zip := { r.1.zip with file := w.1 } }
      if w.2 then
        addNonZeroFileEntryEnd z'
          { a with entry := { a.entry with
              crc32 := checksum pData
              sizeOriginal := size_org
              compression := if size = size_org then 0 else z.compressionMode.value } } true tend
      else ((addNonZeroFileEntryEnd z' a false none).1, false)
    | _, _ => (r.1, false)

end Streams

/-! ### A file that obeys -/

section

variable (z : Archive) (a : Adding)

@[simp] theorem attempt_length (file : List UInt8) (pos : UInt32) (p : List UInt8) :
    attempt file pos p (some p.length) = (writeAt file pos.toNat p, true) := by
  rw [attempt, List.take_length, decide_eq_true rfl]

/-- Where nothing fails, an entry is begun, written and ended as in `FileZip`. -/
theorem addNonZeroFileEntry_obeys (pathname : List UInt8) (size : UInt32) (fileTime fileDate : UInt16) :
    (addNonZeroFileEntry z pathname size fileTime fileDate (some pathname.length)).1.zip =
      addNonZeroFileEntryBegin z.zip pathname size fileTime fileDate := by
  unfold addNonZeroFileEntry addNonZeroFileEntryBegin saveEntryAt saveEntry
  simp only [attempt_length, if_true]
  split
  · rfl
  split
  · rfl
  cases findHole (UInt32.ofNat (30 + pathname.length) + size) z.zip.fileEntries with
  | some hole => rfl
  | none =>
    dsimp only
    split <;> rfl

theorem storeWrite_obeys (checksum : List UInt8 → UInt32) (p : List UInt8) :
    (storeWrite checksum z a p (some p.length)).1.zip = streamWrite z.zip a p := by
  unfold storeWrite streamWrite writePiece setPending
  simp only [attempt_length, if_true]
  split <;> rfl

theorem end_obeys : addNonZeroFileEntryEnd z a true (some (localFileHeader a.entry).length) =
    ({ z with zip := addNonZeroFileEntryCommit z.zip a, listSorted := false }, true) := by
  unfold addNonZeroFileEntryEnd
  simp only [attempt_length, if_true]

end

/-! ### What a rollback leaves -/

/-- `z'` has the directory of `z`, and no entry is pending. -/
structure SameDirectory (z z' : Archive) : Prop where
  fileEntries : z'.zip.fileEntries = z.zip.fileEntries
  centralDirectoryStart : z'.zip.centralDirectoryStart = z.zip.centralDirectoryStart
  centralDirectoryModified : z'.zip.centralDirectoryModified = z.zip.centralDirectoryModified
  listSorted : z'.listSorted = z.listSorted
  adding : z'.zip.adding = none

/-- A rollback of `a` leaves the directory of `z`. -/
def Reserved (z z' : Archive) (a : Adding) : Prop := SameDirectory z (rollback z' a)

section

variable {z z' z'' : Archive} {a b : Adding}

/-- A rollback looks at what was taken, and at nothing that is written. -/
theorem Reserved.congr (h : Reserved z z' a) (hentries : z''.zip.fileEntries = z'.zip.fileEntries)
    (hstart : z''.zip.centralDirectoryStart = z'.zip.centralDirectoryStart)
    (hmodified : z''.zip.centralDirectoryModified = z'.zip.centralDirectoryModified)
    (hsorted : z''.listSorted = z'.listSorted) (hhole : b.holeFromEntry = a.holeFromEntry)
    (htaken : b.holeTakenSize = a.holeTakenSize) (hold : b.centralDirectoryStartOld = a.centralDirectoryStartOld) :
    Reserved z z'' b := by
  obtain ⟨h1, h2, h3, h4, -⟩ := h
  unfold Reserved
  unfold rollback at *
  cases hi : a.holeFromEntry with
  | some i =>
    rw [rollback_hole hi] at h1 h2 h3
    rw [rollback_hole (hhole.trans hi)]
    exact ⟨by rw [hentries, htaken]; exact h1, hstart.trans h2, hmodified.trans h3, hsorted.trans h4, rfl⟩
  | none =>
    rw [rollback_end hi] at h1 h2 h3
    rw [rollback_end (hhole.trans hi)]
    exact ⟨hentries.trans h1, hold.trans h2, hmodified.trans h3, hsorted.trans h4, rfl⟩

/-- An end that does not commit, or fails to, is a rollback. -/
theorem end_fails (h : Reserved z z' a) {commit : Bool} {t : Attempt}
    (hfail : (commit && (addNonZeroFileEntryEnd z' a commit t).2) = false) :
    SameDirectory z (addNonZeroFileEntryEnd z' a commit t).1 := by
  unfold addNonZeroFileEntryEnd at hfail ⊢
  cases commit with
  | false => exact h
  | true =>
    rw [if_pos rfl] at hfail ⊢
    dsimp only at hfail ⊢
    split
    · next hok =>
      rw [if_pos hok] at hfail
      exact absurd hfail (by simp)
    · exact h.congr rfl rfl rfl rfl rfl rfl rfl

theorem end_rollback (h : Reserved z z' a) (t : Attempt) :
    SameDirectory z (addNonZeroFileEntryEnd z' a false t).1 := end_fails h rfl

/-- From `SAVE_ENTRY` on: the entry is given up, or it is pending. -/
theorem saveEntryAt_cases {pathname : List UInt8} {e : FileEntry} {LFlen : UInt32} {hole : Option ℕ} {start_old : UInt32}
    {t : Attempt} (h : Reserved z z' ⟨e, hole, LFlen, start_old, e.size, e.getOffsetToLocalData, 0⟩) :
    let r := saveEntryAt z' pathname e LFlen hole start_old t
    (r.2 = false ∧ SameDirectory z r.1) ∨ r.2 = true ∧ ∃ a, r.1.zip.adding = some a ∧ Reserved z r.1 a := by
  unfold saveEntryAt
  dsimp only
  split
  · exact .inr ⟨rfl, _, rfl, h.congr rfl rfl rfl rfl rfl rfl rfl⟩
  · refine .inl ⟨rfl, end_rollback ?_ none⟩
    exact h.congr rfl rfl rfl rfl rfl rfl rfl

/-- What is taken from a hole is given back. -/
theorem reserved_hole (z : Archive) {i : ℕ} (hi : a.holeFromEntry = some i) :
    Reserved z { z with zip := { z.zip with
      fileEntries := z.zip.fileEntries.modify i (FileEntry.takeFront a.holeTakenSize) } } a := by
  have hcomp : FileEntry.giveFront a.holeTakenSize ∘ FileEntry.takeFront a.holeTakenSize = id :=
    funext fun e => FileEntry.giveFront_self
  unfold Reserved rollback
  rw [rollback_hole hi]
  refine ⟨?_, rfl, rfl, rfl, rfl⟩
  dsimp only
  rw [List.modify_modify_eq, hcomp, List.modify_id]

/-- The end of the data is put back. -/
theorem reserved_end (z : Archive) (n : UInt32) (hhole : a.holeFromEntry = none)
    (hold : a.centralDirectoryStartOld = z.zip.centralDirectoryStart) :
    Reserved z { z with zip := { z.zip with centralDirectoryStart := z.zip.centralDirectoryStart + n } } a := by
  unfold Reserved rollback
  rw [rollback_end hhole]
  exact ⟨rfl, hold, rfl, rfl, rfl⟩

theorem sameDirectory_refl (hnone : z.zip.adding = none) : SameDirectory z z := ⟨rfl, rfl, rfl, rfl, hnone⟩

/-- `_AddNonZeroFileEntry_Begin` leaves the directory as it was, or an entry that is pending. -/
theorem addNonZeroFileEntry_cases (hnone : z.zip.adding = none) (pathname : List UInt8) (size : UInt32)
    (fileTime fileDate : UInt16) (t : Attempt) :
    let r := addNonZeroFileEntry z pathname size fileTime fileDate t
    (r.2 = false ∧ SameDirectory z r.1) ∨ r.2 = true ∧ ∃ a, r.1.zip.adding = some a ∧ Reserved z r.1 a := by
  unfold addNonZeroFileEntry
  dsimp only
  generalize UInt32.ofNat (30 + pathname.length) + size = LFlen
  split
  · exact .inl ⟨rfl, sameDirectory_refl hnone⟩
  split
  · exact .inl ⟨rfl, sameDirectory_refl hnone⟩
  split
  · next i e hfind =>
    refine saveEntryAt_cases ?_
    exact reserved_hole (a := ⟨_, some i, LFlen, _, _, _, 0⟩) z rfl
  · next hfind =>
    split
    · exact .inl ⟨rfl, sameDirectory_refl hnone⟩
    · refine saveEntryAt_cases ?_
      exact reserved_end (a := ⟨_, none, LFlen, _, _, _, 0⟩) z LFlen rfl rfl

/-! ### The streams -/

section Streams

variable {checksum : List UInt8 → UInt32} {t : Attempt}

theorem writePiece_reserved (h : Reserved z z' a) (p : List UInt8) :
    Reserved z (writePiece z' a p t).1 (writePiece z' a p t).2.1 := by
  unfold writePiece
  dsimp only
  split <;> exact h.congr rfl rfl rfl rfl rfl rfl rfl

theorem storeWrite_reserved (h : Reserved z z' a) (p : List UInt8) :
    Reserved z (storeWrite checksum z' a p t).1 (storeWrite checksum z' a p t).2.1 := by
  unfold storeWrite
  dsimp only
  split
  · refine writePiece_reserved ?_ p
    exact h.congr rfl rfl rfl rfl rfl rfl rfl
  · exact h

/-- The loop over `deflate`, from any state in which the entry is pending. -/
theorem zlibLoop_reserved {size : UInt32} {ds : List (Deflated × Attempt)} {r : Archive × Adding × UInt32}
    (h : Reserved z z' a) (hr : zlibLoop size ds z' a = some r) : Reserved z r.1 r.2.1 := by
  induction ds generalizing z' a with
  | nil => cases hr
  | cons d ds ih =>
    obtain ⟨d, t⟩ := d
    rw [zlibLoop] at hr
    dsimp only at hr
    split at hr
    · split at hr
      · split at hr
        · obtain rfl := Option.some.inj hr
          exact writePiece_reserved h _
        · exact ih (writePiece_reserved h _) hr
      · obtain rfl := Option.some.inj hr
        exact h
    · obtain rfl := Option.some.inj hr
      exact h

theorem streamWriteAt_reserved {w : Writing} {r : Archive × Adding × UInt32} (h : Reserved z z' a)
    (hr : streamWriteAt checksum z' a w = some r) : Reserved z r.1 r.2.1 := by
  unfold streamWriteAt at hr
  split at hr
  · obtain rfl := Option.some.inj hr
    exact storeWrite_reserved h _
  · unfold zlibWrite at hr
    split at hr
    · obtain rfl := Option.some.inj hr
      exact h
    · refine zlibLoop_reserved ?_ hr
      exact h.congr rfl rfl rfl rfl rfl rfl rfl

/-- The entry stays pending over all calls of `Write`. -/
theorem streamWrites_reserved {ws : List Writing} {r : Archive × Adding} (h : Reserved z z' a)
    (hr : streamWrites checksum ws z' a = some r) : Reserved z r.1 r.2 := by
  induction ws generalizing z' a with
  | nil =>
    obtain rfl := Option.some.inj hr
    exact h
  | cons w ws ih =>
    rw [streamWrites] at hr
    obtain ⟨s, hs, hr⟩ := Option.bind_eq_some_iff.mp hr
    exact ih (streamWriteAt_reserved h hs) hr

theorem streamFinalize_fails (h : Reserved z z' a) {commit : Bool}
    (hfail : (commit && (streamFinalize z' a commit t).2) = false) :
    SameDirectory z (streamFinalize z' a commit t).1 := by
  refine end_fails ?_ hfail
  exact h.congr rfl rfl rfl rfl rfl rfl rfl

theorem zlibFinalize_fails (h : Reserved z z' a) {f : Finishing} (hfail : (f.commit && (zlibFinalize z' a f).2) = false) :
    SameDirectory z (zlibFinalize z' a f).1 := by
  unfold zlibFinalize at hfail ⊢
  split
  · next hcommit =>
    rw [if_pos hcommit, hcommit, Bool.true_and] at hfail
    split
    · exact streamFinalize_fails h rfl
    next hended =>
    rw [if_neg hended] at hfail
    split
    · next hempty =>
      rw [if_pos hempty] at hfail
      exact streamFinalize_fails h hfail
    next hempty =>
    rw [if_neg hempty] at hfail
    split
    · next hfits =>
      rw [if_pos hfits] at hfail
      dsimp only at hfail ⊢
      split
      · next hok =>
        rw [if_pos hok] at hfail
        exact streamFinalize_fails (writePiece_reserved h _) hfail
      · exact streamFinalize_fails (writePiece_reserved h _) rfl
    · exact streamFinalize_fails h rfl
  · next hcommit => exact streamFinalize_fails h rfl

/-- An entry whose `Finalize` fails or does not commit is taken back. -/
theorem finalizeAt_fails (h : Reserved z z' a) {f : Finishing} (hfail : (f.commit && (finalizeAt z' a f).2) = false) :
    SameDirectory z (finalizeAt z' a f).1 := by
  unfold finalizeAt at hfail ⊢
  split
  · next hmode =>
    rw [hmode] at hfail
    exact streamFinalize_fails h hfail
  · next hmode =>
    rw [hmode] at hfail
    exact zlibFinalize_fails h hfail

/-! ### Adding as a whole -/

/-- `AddFile` for a stream leaves the directory as it was, or an entry that is pending. -/
theorem addFileStream_cases (hnone : z.zip.adding = none) (pathname : List UInt8) (size : UInt32)
    (fileTime fileDate : UInt16) (t : Attempt) :
    let r := addFileStream z pathname size fileTime fileDate t
    (r.2 = none ∧ SameDirectory z r.1) ∨ ∃ a, r.2 = some a ∧ Reserved z r.1 a := by
  unfold addFileStream
  dsimp only
  rcases addNonZeroFileEntry_cases hnone pathname size fileTime fileDate t with ⟨hfalse, hsame⟩ | ⟨htrue, a, ha, h⟩
  · rw [hfalse]
    exact .inl ⟨rfl, hsame⟩
  · rw [htrue, ha]
    refine .inr ⟨_, rfl, ?_⟩
    exact h.congr rfl rfl rfl rfl rfl rfl rfl

/-- An entry that is not added through a stream. -/
theorem streamedAdd_fails (hnone : z.zip.adding = none) {pathname : List UInt8} {size : UInt32}
    {fileTime fileDate : UInt16} {ws : List Writing} {f : Finishing} {r : Archive × Bool}
    (hr : streamedAdd checksum z pathname size fileTime fileDate t ws f = some r) (hfail : r.2 = false) :
    SameDirectory z r.1 := by
  unfold streamedAdd at hr
  dsimp only at hr
  rcases addFileStream_cases hnone pathname size fileTime fileDate t with ⟨hrefused, hsame⟩ | ⟨a, ha, h⟩
  · rw [hrefused] at hr
    obtain rfl := Option.some.inj hr
    exact hsame
  · rw [ha] at hr
    obtain ⟨s, hs, rfl⟩ := Option.map_eq_some_iff.mp hr
    exact finalizeAt_fails (streamWrites_reserved h hs) hfail

/-- An entry that is not added with its data. -/
theorem addFile_fails (hnone : z.zip.adding = none) {before : UInt8} {pathname pData : List UInt8}
    {fileTime fileDate : UInt16} {compressed : Option (List UInt8)} {tdata tend : Attempt}
    (hfail : (addFile checksum z before pathname pData fileTime fileDate compressed t tdata tend).2 = false) :
    SameDirectory z (addFile checksum z before pathname pData fileTime fileDate compressed t tdata tend).1 := by
  unfold addFile at hfail ⊢
  split
  · next hempty =>
    rw [if_pos hempty] at hfail
    have hrefused : 0xffff < pathname.length ∨ 0xffff ≤ z.zip.fileEntries.length :=
      not_not.mp (of_decide_eq_false hfail)
    have hsame : addZeroSizedEntry z.zip before pathname fileTime fileDate FILE_ATTRIBUTE_ARCHIVE = z.zip := by
      unfold addZeroSizedEntry
      rcases hrefused with h | h
      · rw [if_pos h]
      · rw [if_pos h, ite_self]
    rw [hsame, if_pos hrefused]
    exact sameDirectory_refl hnone
  · next hempty =>
    rw [if_neg hempty] at hfail
    dsimp only at hfail ⊢
    generalize storedData z.compressionMode compressed pData = data at hfail ⊢
    rcases addNonZeroFileEntry_cases hnone pathname (UInt32.ofNat data.length) fileTime fileDate t with
      ⟨hfalse, hsame⟩ | ⟨htrue, a, ha, h⟩
    · rw [hfalse]
      exact hsame
    · rw [htrue, ha] at hfail ⊢
      dsimp only at hfail ⊢
      split
      · next hok =>
        rw [if_pos hok] at hfail
        refine end_fails ?_ (by simpa using hfail)
        exact h.congr rfl rfl rfl rfl rfl rfl rfl
      · refine end_rollback ?_ none
        exact h.congr rfl rfl rfl rfl rfl rfl rfl

end Streams

end

/-- **Rollback.** An `AddFile` that returns false, and a streamed add that returns no stream, is finalised without
committing or fails to commit, leave the directory as it was, with no entry pending. -/
theorem add_rollback (checksum : List UInt8 → UInt32) (z : Archive) (hnone : z.zip.adding = none)
    (pathname : List UInt8) (fileTime fileDate : UInt16) :
    (∀ before pData compressed t tdata tend,
      (addFile checksum z before pathname pData fileTime fileDate compressed t tdata tend).2 = false →
        SameDirectory z (addFile checksum z before pathname pData fileTime fileDate compressed t tdata tend).1) ∧
    ∀ size t ws f z' added, streamedAdd checksum z pathname size fileTime fileDate t ws f = some (z', added) →
      added = false → SameDirectory z z' := by
  refine ⟨fun before pData compressed t tdata tend hfail => addFile_fails hnone hfail, ?_⟩
  intro size t ws f z' added hr hfail
  exact streamedAdd_fails hnone hr hfail

/-- An archive with a hole of 100 bytes. -/
def holed : Archive where
  zip := { create with
    fileEntries := [{ newEntry [0x61] 100 0 0 0 with signature := 0 }]
    centralDirectoryStart := 131 }
  listSorted := true
  compressionMode := .store
  crc := 0

/-- The data is not written, and a stream is finalised without committing after its second write has failed. -/
theorem add_rollback_holed :
    SameDirectory holed (addFile (fun _ => 7) holed 0 [0x62] [1, 2, 3] 0 0 none (some 1) none none).1 ∧
      ∃ z, streamedAdd (fun _ => 7) holed [0x62] 4 0 0 (some 1) [⟨[1, 2], some 2, true, []⟩, ⟨[3], some 0, true, []⟩]
        ⟨false, none, true, [], none⟩ = some (z, false) ∧ SameDirectory holed z := by
  have hadd := (add_rollback (fun _ => 7) holed rfl [0x62] 0 0).1 0 [1, 2, 3] none (some 1) none none
  have hstream := (add_rollback (fun _ => 7) holed rfl [0x62] 0 0).2 4 (some 1)
    [⟨[1, 2], some 2, true, []⟩, ⟨[3], some 0, true, []⟩] ⟨false, none, true, [], none⟩
  refine ⟨hadd (by decide), ?_⟩
  obtain ⟨z, hz⟩ : ∃ z, streamedAdd (fun _ => 7) holed [0x62] 4 0 0 (some 1)
      [⟨[1, 2], some 2, true, []⟩, ⟨[3], some 0, true, []⟩] ⟨false, none, true, [], none⟩ = some (z, false) :=
    ⟨_, rfl⟩
  exact ⟨z, hz, hstream z false hz rfl⟩

end Cpcf.Os.Zip
