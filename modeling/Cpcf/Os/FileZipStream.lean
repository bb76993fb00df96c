import Cpcf.Os.FileZipAdding

/-!
Writing an entry through the store stream of `os/file_zip.cpp` and reading it back through the other one.

`_crc_checksum` starts anew in each call, so that the checksum of an entry is the one of its last piece, and the reader
compares it with the one of the last piece that it reads. What remains of an entry does not limit a read.
-/

namespace Cpcf.Os.Zip

open Cpcf.Lib Cpcf.Lib.ByteFile Cpcf.Lib.WordList

/-! ### The code -/

/-- The members of a `LocalFileHeader` that `ExtractFile` looks at. -/
structure LocalFileHeader where
  signature : UInt32
  compression : UInt16
  fileNameLength : UInt16
  extraFieldLength : UInt16

/-- They stand at their places in the header. -/
def LocalFileHeader.ofBytes (s : List UInt8) : LocalFileHeader :=
  let (signature, s) := get32 s
  let (_, s) := get16 s
  let (_, s) := get16 s
  let (compression, s) := get16 s
  let (_, s) := get16 s
  let (_, s) := get16 s
  let (_, s) := get32 s
  let (_, s) := get32 s
  let (_, s) := get32 s
  let (fileNameLength, s) := get16 s
  let (extraFieldLength, _) := get16 s
  { signature, compression, fileNameLength, extraFieldLength }

/-- `decompress_store`. -/
structure ReadStream where
  totalOutput : UInt32
  outputed : UInt32
  baseInFile : UInt32
  targetCRC : UInt32
  crc : UInt32

/-- `decompress_stream::Init(total_size, base, target_CRC)`. -/
def ReadStream.init (total_size base target_CRC : UInt32) : ReadStream := ⟨total_size, 0, base, target_CRC, 0⟩

/-- `ExtractFile(idx)` for an entry that is stored. -/
def extractStored (file : List UInt8) (e : FileEntry) : Option ReadStream :=
  let s := readAt file e.offsetToLocalFileHeader.toNat 30
  let lfh := LocalFileHeader.ofBytes s
  if s.length = 30 ∧ lfh.signature = 0x04034b50 then
    if lfh.compression = 0 then
      some (.init e.sizeOriginal
        (e.offsetToLocalFileHeader + lfh.fileNameLength.toUInt32 + lfh.extraFieldLength.toUInt32 + 30) e.crc32)
    else none
  else none

section Read

variable (checksum : List UInt8 → UInt32)

/-- `CheckCRC(p, sz)`. -/
def checkCRC (s : ReadStream) (p : List UInt8) : ReadStream × Bool :=
  let s := { s with crc := checksum p }
  (s, if UInt32.ofNat p.length + s.outputed = s.totalOutput then s.crc = s.targetCRC else true)

/-- `decompress_store::Read(p, size)`: the bytes that are returned, and whether the checksum is refused. -/
def storeRead (file : List UInt8) (s : ReadStream) (size : UInt32) : ReadStream × List UInt8 × Bool :=
  if s.outputed < s.totalOutput then
    let p := readAt file (s.baseInFile + s.outputed).toNat size.toNat
    if p = [] then (s, [], false)
    else
      let r := checkCRC checksum s p
      if r.2 then ({ r.1 with outputed := s.outputed + UInt32.ofNat p.length }, p, false) else (r.1, [], true)
  else (s, [], false)

/-- Reads with buffers of these sizes: all that is returned, and whether a checksum is refused. -/
def storeReads (file : List UInt8) : List UInt32 → ReadStream → List UInt8 × Bool
  | [], _ => ([], false)
  | n :: ns, s =>
    let r := storeRead checksum file s n
    let t := storeReads file ns r.1
    (r.2.1 ++ t.1, r.2.2 || t.2)

/-- A `Write` of a file that obeys. -/
def obeying (p : List UInt8) : Writing := ⟨p, some p.length, true, []⟩

/-- The pieces `ws` are written to a new entry, which is then read with buffers of the sizes `ns`. -/
def storeRoundTrip (z : Archive) (pathname : List UInt8) (fileTime fileDate : UInt16) (ws : List (List UInt8))
    (ns : List UInt32) : Option (List UInt8 × Bool) :=
  (streamedAdd checksum z pathname (UInt32.ofNat ws.flatten.length) fileTime fileDate (some pathname.length)
    (ws.map obeying) ⟨true, some 30, true, [], none⟩).bind fun r =>
      if r.2 then
        r.1.zip.fileEntries.getLast?.bind fun e => (extractStored r.1.zip.file e).map (storeReads checksum r.1.zip.file ns)
      else none

end Read

/-! ### Reading -/

section

variable {checksum : List UInt8 → UInt32} {file : List UInt8} {s : ReadStream} {data rest : List UInt8}

/-- The stream stands before `data`, the rest of its entry; behind that the file has `rest`. -/
structure Stands (file : List UInt8) (s : ReadStream) (data rest : List UInt8) : Prop where
  total : s.outputed.toNat + data.length = s.totalOutput.toNat
  fits : s.baseInFile.toNat + s.totalOutput.toNat ≤ 2 ^ 32
  here : file.drop (s.baseInFile.toNat + s.outputed.toNat) = data ++ rest

/-- The reads do not go beyond the data, and the last of them has the checksum that is expected. -/
def ReadsRight (checksum : List UInt8 → UInt32) (target : UInt32) (ended : Prop) : List UInt32 → List UInt8 → Prop
  | [], _ => True
  | n :: ns, data =>
    if data = [] then True
    else if n.toNat < data.length then ReadsRight checksum target ended ns (data.drop n.toNat)
    else (n.toNat = data.length ∨ ended) ∧ checksum data = target

/-- At the end nothing is returned. -/
theorem storeReads_end (h : s.outputed.toNat = s.totalOutput.toNat) (ns : List UInt32) :
    storeReads checksum file ns s = ([], false) := by
  induction ns with
  | nil => rfl
  | cons n ns ih =>
    have hnot : ¬ s.outputed < s.totalOutput := fun hlt => by
      have := UInt32.lt_iff_toNat_lt.mp hlt
      omega
    rw [storeReads, storeRead, if_neg hnot]
    simp only [ih, List.nil_append, Bool.or_self]

/-- The bytes a read comes to. -/
theorem Stands.readAt_eq (h : Stands file s data rest) (hne : data ≠ []) (n : ℕ) :
    readAt file (s.baseInFile + s.outputed).toNat n = (data ++ rest).take n := by
  have hpos := List.length_pos_iff.mpr hne
  have htotal := h.total
  have hfits := h.fits
  have hplace : (s.baseInFile + s.outputed).toNat = s.baseInFile.toNat + s.outputed.toNat := by
    rw [UInt32.toNat_add]
    omega
  rw [readAt, hplace, h.here]

theorem checkCRC_before {p : List UInt8} (h : ¬ UInt32.ofNat p.length + s.outputed = s.totalOutput) :
    checkCRC checksum s p = ({ s with crc := checksum p }, true) := by
  simp only [checkCRC, if_neg h]

theorem checkCRC_end {p : List UInt8} (h : UInt32.ofNat p.length + s.outputed = s.totalOutput) :
    checkCRC checksum s p = ({ s with crc := checksum p }, decide (checksum p = s.targetCRC)) := by
  simp only [checkCRC, if_pos h]

/-- A read that stays before the end of the data. -/
theorem storeRead_before (checksum : List UInt8 → UInt32) (h : Stands file s data rest) {n : UInt32}
    (hn : n.toNat < data.length) :
    ∃ s', storeRead checksum file s n = (s', data.take n.toNat, false) ∧ s'.targetCRC = s.targetCRC ∧
      Stands file s' (data.drop n.toNat) rest := by
  have hne : data ≠ [] := List.ne_nil_of_length_pos (by omega)
  have htotal := h.total
  have hfits := h.fits
  have hlt : s.outputed < s.totalOutput := UInt32.lt_iff_toNat_lt.mpr (by omega)
  have hread := h.readAt_eq hne n.toNat
  rw [List.take_append_of_le_length hn.le] at hread
  have hlen : (data.take n.toNat).length = n.toNat := by rw [List.length_take]; omega
  unfold storeRead
  rw [if_pos hlt]
  dsimp only
  rw [hread]
  split
  · next hempty =>
    have hzero : n.toNat = 0 := by rw [← hlen, hempty, List.length_nil]
    rw [hempty, hzero, List.drop_zero]
    exact ⟨s, rfl, rfl, h⟩
  · next hmore =>
    have hsum : ¬ UInt32.ofNat (data.take n.toNat).length + s.outputed = s.totalOutput := by
      intro heq
      have := congrArg UInt32.toNat heq
      rw [UInt32.toNat_add, hlen, UInt32.ofNat_toNat] at this
      omega
    have hout : (s.outputed + UInt32.ofNat (data.take n.toNat).length).toNat = s.outputed.toNat + n.toNat := by
      rw [UInt32.toNat_add, hlen, UInt32.ofNat_toNat]
      omega
    rw [checkCRC_before hsum, if_pos rfl]
    refine ⟨_, rfl, rfl, ?_, hfits, ?_⟩
    · dsimp only
      rw [hout, List.length_drop]
      omega
    · dsimp only
      rw [hout, ← Nat.add_assoc, ← List.drop_drop, h.here, List.drop_append_of_le_length hn.le]

/-- A read of the rest of the data, and of nothing behind it. -/
theorem storeRead_rest (checksum : List UInt8 → UInt32) (h : Stands file s data rest) (hne : data ≠ []) {n : UInt32}
    (hn : data.length ≤ n.toNat)
    (hstop : n.toNat = data.length ∨ rest = []) :
    (checksum data = s.targetCRC → ∃ s', storeRead checksum file s n = (s', data, false) ∧
        s'.outputed.toNat = s'.totalOutput.toNat) ∧
      (checksum data ≠ s.targetCRC → (storeRead checksum file s n).2.2 = true) := by
  have hpos := List.length_pos_iff.mpr hne
  have htotal := h.total
  have hfits := h.fits
  have hlt : s.outputed < s.totalOutput := UInt32.lt_iff_toNat_lt.mpr (by omega)
  have hread : readAt file (s.baseInFile + s.outputed).toNat n.toNat = data := by
    rw [h.readAt_eq hne n.toNat]
    rcases hstop with heq | hrest
    · rw [heq, List.take_left]
    · rw [hrest, List.append_nil, List.take_of_length_le hn]
  have hword := s.totalOutput.toNat_lt
  have hsmall : data.length < 2 ^ 32 := by omega
  have hsum : UInt32.ofNat data.length + s.outputed = s.totalOutput := by
    apply UInt32.toNat_inj.mp
    rw [UInt32.toNat_add, UInt32.toNat_ofNat_of_lt' hsmall]
    omega
  unfold storeRead
  rw [if_pos hlt]
  dsimp only
  rw [hread, if_neg hne, checkCRC_end hsum]
  constructor
  · intro hcrc
    rw [if_pos (decide_eq_true hcrc)]
    refine ⟨_, rfl, ?_⟩
    dsimp only
    rw [UInt32.add_comm, hsum]
  · intro hcrc
    rw [if_neg (by simpa using hcrc)]

/-- A read that goes beyond the data returns what is behind it. -/
theorem storeRead_beyond (checksum : List UInt8 → UInt32) (h : Stands file s data rest) (hne : data ≠ [])
    {n : UInt32} (hn : data.length < n.toNat)
    (hrest : rest ≠ []) : data.length < (storeRead checksum file s n).2.1.length := by
  have hpos := List.length_pos_iff.mpr hne
  have hbehind := List.length_pos_iff.mpr hrest
  have htotal := h.total
  have hfits := h.fits
  have hnlt := n.toNat_lt
  have hlt : s.outputed < s.totalOutput := UInt32.lt_iff_toNat_lt.mpr (by omega)
  have hlen : data.length < ((data ++ rest).take n.toNat).length ∧ ((data ++ rest).take n.toNat).length ≤ n.toNat := by
    rw [List.length_take, List.length_append]
    omega
  unfold storeRead
  rw [if_pos hlt]
  dsimp only
  rw [h.readAt_eq hne n.toNat, if_neg (List.ne_nil_of_length_pos (by omega))]
  have hsum : ¬ UInt32.ofNat ((data ++ rest).take n.toNat).length + s.outputed = s.totalOutput := by
    intro heq
    have := congrArg UInt32.toNat heq
    rw [UInt32.toNat_add, UInt32.toNat_ofNat_of_lt' (show _ < 2 ^ 32 by omega)] at this
    omega
  rw [checkCRC_before hsum, if_pos rfl]
  exact hlen.1

/-- The reads return the data and refuse no checksum exactly when they are right. -/
theorem storeReads_iff (h : Stands file s data rest) (ns : List UInt32) :
    storeReads checksum file ns s = (data.take (ns.map UInt32.toNat).sum, false) ↔
      ReadsRight checksum s.targetCRC (rest = []) ns data := by
  induction ns generalizing s data with
  | nil => simp [storeReads, ReadsRight]
  | cons n ns ih =>
    rw [ReadsRight]
    by_cases hne : data = []
    · rw [if_pos hne, hne, List.take_nil]
      have htotal := h.total
      rw [hne, List.length_nil, Nat.add_zero] at htotal
      exact iff_of_true (storeReads_end htotal _) trivial
    rw [if_neg hne, List.map_cons, List.sum_cons]
    by_cases hn : n.toNat < data.length
    · obtain ⟨s', hread, htarget, hs'⟩ := storeRead_before checksum h hn
      rw [if_pos hn, storeReads, hread, ← htarget, ← ih hs', List.take_add]
      simp only [Bool.false_or, Prod.ext_iff, List.append_cancel_left_eq]
    · rw [if_neg hn]
      have hall : data.take (n.toNat + (ns.map UInt32.toNat).sum) = data := List.take_of_length_le (by omega)
      rw [hall, storeReads]
      by_cases hstop : n.toNat = data.length ∨ rest = []
      · obtain ⟨hgood, hbad⟩ := storeRead_rest checksum h hne (not_lt.mp hn) hstop
        by_cases hcrc : checksum data = s.targetCRC
        · obtain ⟨s', hread, hend⟩ := hgood hcrc
          rw [hread, storeReads_end hend]
          exact iff_of_true (by simp) ⟨hstop, hcrc⟩
        · refine iff_of_false (fun heq => ?_) fun hr => hcrc hr.2
          have := congrArg Prod.snd heq
          rw [hbad hcrc, Bool.true_or] at this
          exact Bool.false_ne_true this.symm
      · obtain ⟨hnot, hrest⟩ := not_or.mp hstop
        refine iff_of_false (fun heq => ?_) fun hr => hstop hr.1
        have hlong := storeRead_beyond checksum (n := n) h hne (by omega) hrest
        have := congrArg (fun r => r.1.length) heq
        dsimp only at this
        rw [List.length_append] at this
        omega

end

/-! ### Writing -/

section

variable {checksum : List UInt8 → UInt32} {z : Archive} {a : Adding}

/-- What calls of `Write` leave that all succeed. -/
structure Wrote (checksum : List UInt8 → UInt32) (z : Archive) (a : Adding) (ws : List (List UInt8)) (z' : Archive)
    (a' : Adding) : Prop where
  adding : a' = { a with written := a.written + UInt32.ofNat ws.flatten.length }
  file : z'.zip.file = writeAt z.zip.file (a.baseInFile.toNat + a.written.toNat) ws.flatten
  crc : z'.crc = (ws.getLast?.map checksum).getD z.crc
  fileEntries : z'.zip.fileEntries = z.zip.fileEntries
  mode : z'.compressionMode = .store

/-- One `Write` that succeeds. -/
theorem storeWrite_succeeds (checksum : List UInt8 → UInt32) (hmode : z.compressionMode = .store) {p : List UInt8}
    (hfits : a.written.toNat + p.length ≤ a.claimedSize.toNat) (hspan : a.baseInFile.toNat + a.claimedSize.toNat ≤ 2 ^ 32) :
    ∃ z', storeWrite checksum z a p (some p.length) =
      (z', { a with written := a.written + UInt32.ofNat p.length }, UInt32.ofNat p.length) ∧
      z'.zip.file = writeAt z.zip.file (a.baseInFile.toNat + a.written.toNat) p ∧ z'.crc = checksum p ∧
      z'.zip.fileEntries = z.zip.fileEntries ∧ z'.compressionMode = .store := by
  have hword := a.claimedSize.toNat_lt
  have hlen : (UInt32.ofNat p.length).toNat = p.length := UInt32.toNat_ofNat_of_lt' (show _ < 2 ^ 32 by omega)
  have hclaims : a.written + UInt32.ofNat p.length ≤ a.claimedSize := by
    rw [UInt32.le_iff_toNat_le, UInt32.toNat_add, hlen]
    omega
  have hplace : writeAt z.zip.file (a.baseInFile + a.written).toNat p =
      writeAt z.zip.file (a.baseInFile.toNat + a.written.toNat) p := by
    by_cases hp : p = []
    · rw [hp, writeAt, writeAt, if_pos rfl, if_pos rfl]
    · have := List.length_pos_iff.mpr hp
      rw [UInt32.toNat_add, Nat.mod_eq_of_lt (by omega)]
  unfold storeWrite writePiece
  dsimp only
  rw [if_pos hclaims]
  simp only [attempt_length, if_true]
  exact ⟨_, rfl, hplace, rfl, rfl, hmode⟩

/-- All of them. -/
theorem streamWrites_succeed (checksum : List UInt8 → UInt32) (hmode : z.compressionMode = .store) (ws : List (List UInt8))
    (hfits : a.written.toNat + ws.flatten.length ≤ a.claimedSize.toNat)
    (hspan : a.baseInFile.toNat + a.claimedSize.toNat ≤ 2 ^ 32) :
    ∃ z' a', streamWrites checksum (ws.map obeying) z a = some (z', a') ∧ Wrote checksum z a ws z' a' := by
  induction ws generalizing z a with
  | nil =>
    refine ⟨z, a, rfl, ?_, ?_, rfl, rfl, hmode⟩
    · rw [List.flatten_nil, List.length_nil]
      exact congrArg (fun w => { a with written := w }) (UInt32.add_zero a.written).symm
    · exact (if_pos rfl).symm
  | cons w ws ih =>
    rw [List.flatten_cons, List.length_append] at hfits
    have hword := a.claimedSize.toNat_lt
    obtain ⟨z₁, hwrite, hfile, hcrc, hentries, hmode₁⟩ :=
      storeWrite_succeeds checksum hmode (p := w) (by omega) hspan
    have hwritten : (a.written + UInt32.ofNat w.length).toNat = a.written.toNat + w.length := by
      rw [UInt32.toNat_add, UInt32.toNat_ofNat_of_lt' (show _ < 2 ^ 32 by omega)]
      omega
    obtain ⟨z', a', hrest, hadding, hfile', hcrc', hentries', hmode'⟩ :=
      ih (z := z₁) (a := { a with written := a.written + UInt32.ofNat w.length }) hmode₁
        (by dsimp only; omega) hspan
    have hstep : streamWriteAt checksum z a (obeying w) =
        some (z₁, { a with written := a.written + UInt32.ofNat w.length }, UInt32.ofNat w.length) := by
      unfold streamWriteAt
      rw [hmode, ← hwrite]
      rfl
    refine ⟨z', a', ?_, ?_, ?_, ?_, hentries'.trans hentries, hmode'⟩
    · rw [List.map_cons, streamWrites, hstep]
      exact hrest
    · rw [hadding, List.flatten_cons, List.length_append, UInt32.ofNat_add, UInt32.add_assoc]
    · rw [hfile', hfile, hwritten, List.flatten_cons, ← writeAt_append, Nat.add_assoc]
    · rw [hcrc', hcrc]
      cases ws with
      | nil => rfl
      | cons v vs => rfl

/-- What `AddFile` leaves for a stream. -/
structure Begun (z : Archive) (pathname : List UInt8) (size : UInt32) (z' : Archive) (a : Adding) : Prop where
  name : pathname.length ≤ 0xffff
  entry : ∃ fileTime fileDate offset, a.entry =
    { newEntry pathname size fileTime fileDate offset with compression := z.compressionMode.value, sizeOriginal := size }
  written : a.written = 0
  claimedSize : a.claimedSize = size
  baseInFile : a.baseInFile = a.entry.getOffsetToLocalData
  file : z'.zip.file = writeAt z.zip.file (a.entry.offsetToLocalFileHeader + 30).toNat pathname
  mode : z'.compressionMode = z.compressionMode

theorem addFileStream_begun {pathname : List UInt8} {size : UInt32} {fileTime fileDate : UInt16}
    (h : (addFileStream z pathname size fileTime fileDate (some pathname.length)).2 = some a) :
    Begun z pathname size (addFileStream z pathname size fileTime fileDate (some pathname.length)).1 a := by
  unfold addFileStream addNonZeroFileEntry saveEntryAt at h ⊢
  dsimp only at h ⊢
  by_cases hname : 0xffff < pathname.length
  · rw [if_pos hname] at h
    cases h
  by_cases hcount : 0xffff ≤ z.zip.fileEntries.length
  · rw [if_neg hname, if_pos hcount] at h
    cases h
  rw [if_neg hname, if_neg hcount] at h ⊢
  generalize UInt32.ofNat (30 + pathname.length) + size = LFlen at h ⊢
  cases hfind : findHole LFlen z.zip.fileEntries with
  | some hole =>
    rw [hfind] at h
    simp only [attempt_length, if_true] at h ⊢
    obtain rfl := Option.some.inj h
    exact ⟨not_lt.mp hname, ⟨_, _, _, rfl⟩, rfl, rfl, rfl, rfl, rfl⟩
  | none =>
    rw [hfind] at h
    dsimp only at h ⊢
    by_cases hroom : 0xffffffff - UInt32.ofNat CentralDirectory.sizeOf - 0xffff < z.zip.centralDirectoryStart + LFlen
    · rw [if_pos hroom] at h
      cases h
    · rw [if_neg hroom] at h ⊢
      simp only [attempt_length, if_true] at h ⊢
      obtain rfl := Option.some.inj h
      exact ⟨not_lt.mp hname, ⟨_, _, _, rfl⟩, rfl, rfl, rfl, rfl, rfl⟩

/-- The data come behind the header and the name. -/
theorem Begun.toNat_baseInFile {size : UInt32} {pathname : List UInt8} {z' : Archive} (h : Begun z pathname size z' a)
    (hspan : a.entry.offsetToLocalFileHeader.toNat + 30 + pathname.length < 2 ^ 32) :
    a.baseInFile.toNat = a.entry.offsetToLocalFileHeader.toNat + 30 + pathname.length := by
  obtain ⟨ft, fd, offset, hentry⟩ := h.entry
  have hname := h.name
  have hnameLength : a.entry.fileName.size.toNat = pathname.length := by
    rw [hentry, Text.toNat_size]
    change ((replaceSlashes pathname).take (UInt16.ofNat pathname.length).toNat).length = _
    rw [UInt16.toNat_ofNat_of_lt' (show _ < 2 ^ 16 by omega), replaceSlashes, List.length_take, List.length_map,
      Nat.min_self]
  rw [h.baseInFile, FileEntry.getOffsetToLocalData, UInt32.toNat_add, UInt32.toNat_add, UInt16.toNat_toUInt32,
    hnameLength, show (30 : UInt32).toNat = 30 from rfl]
  omega

@[simp] theorem length_localFileHeader (e : FileEntry) : (localFileHeader e).length = 30 := by
  simp only [localFileHeader, List.length_append, length_word16, length_word32]

/-- The header is read as it was written. -/
theorem ofBytes_localFileHeader (e : FileEntry) :
    LocalFileHeader.ofBytes (localFileHeader e) = ⟨0x04034b50, e.compression, e.fileName.size, 0⟩ := by
  have hlast : get16 (word16 0) = (0, []) := get16_word16 0 []
  simp only [LocalFileHeader.ofBytes, localFileHeader, get32_word32, get16_word16, hlast]

/-- `Finalize(true)` appends the entry, with its header in the file, when all that was claimed is written. -/
theorem finalizeAt_obeys (hmode : z.compressionMode = .store) (hall : a.written = a.claimedSize) :
    finalizeAt z a ⟨true, some 30, true, [], none⟩ =
      ({ z with
          zip := committed z.zip { a.entry with crc32 := z.crc, size := a.written }
          listSorted := false }, true) := by
  unfold finalizeAt streamFinalize
  rw [hmode]
  dsimp only
  have h := end_obeys z { a with entry := { a.entry with crc32 := z.crc, size := a.written } }
  rw [length_localFileHeader] at h
  rw [h]
  refine Prod.ext ?_ rfl
  dsimp only
  unfold addNonZeroFileEntryCommit
  dsimp only
  rw [if_pos (by rw [hall, UInt32.sub_self]), hmode]
  rfl

/-- A stored entry is opened behind its header and its name. -/
theorem extractStored_eq {f : List UInt8} {e : FileEntry} (hstored : e.compression = 0) :
    extractStored (writeAt f e.offsetToLocalFileHeader.toNat (localFileHeader e)) e =
      some (.init e.sizeOriginal e.getOffsetToLocalData e.crc32) := by
  have hread : readAt (writeAt f e.offsetToLocalFileHeader.toNat (localFileHeader e)) e.offsetToLocalFileHeader.toNat 30 =
      localFileHeader e := by
    have h : readAt (writeAt f e.offsetToLocalFileHeader.toNat (localFileHeader e ++ [])) e.offsetToLocalFileHeader.toNat
        (localFileHeader e).length = localFileHeader e := readAt_writeAt f (localFileHeader e) []
    rwa [List.append_nil, length_localFileHeader] at h
  unfold extractStored
  dsimp only
  rw [hread, ofBytes_localFileHeader]
  dsimp only
  rw [if_pos ⟨length_localFileHeader e, rfl⟩, if_pos hstored, FileEntry.getOffsetToLocalData]
  congr 2
  rw [show (0 : UInt16).toUInt32 = 0 from rfl, UInt32.add_zero, UInt32.add_assoc, UInt32.add_assoc, UInt32.add_comm 30]

end

/-! ### Writing and reading -/

section

variable (checksum : List UInt8 → UInt32) {z : Archive} {a : Adding} {pathname : List UInt8}
  {fileTime fileDate : UInt16} {ws : List (List UInt8)}

theorem exists_getLast (hne : ws.flatten ≠ []) : ∃ w, ws.getLast? = some w := by
  cases hws : ws.getLast? with
  | none =>
    rw [List.getLast?_eq_none_iff.mp hws] at hne
    exact absurd rfl hne
  | some w => exact ⟨w, rfl⟩

/-- What is read from an entry that was written, before the reads. -/
theorem storeRoundTrip_eq (hmode : z.compressionMode = .store) (hlen : ws.flatten.length < 2 ^ 32)
    (hadd : (addFileStream z pathname (UInt32.ofNat ws.flatten.length) fileTime fileDate (some pathname.length)).2 = some a)
    (hspan : a.entry.offsetToLocalFileHeader.toNat + 30 + pathname.length + ws.flatten.length ≤ 2 ^ 32)
    (hne : ws.flatten ≠ []) (ns : List UInt32) :
    ∃ file s, storeRoundTrip checksum z pathname fileTime fileDate ws ns = some (storeReads checksum file ns s) ∧
      s.targetCRC = checksum (ws.getLast?.getD []) ∧
      Stands file s ws.flatten (z.zip.file.drop
        (a.entry.offsetToLocalFileHeader.toNat + 30 + pathname.length + ws.flatten.length)) := by
  have hbegun := addFileStream_begun hadd
  have hdata := List.length_pos_iff.mpr hne
  have hsize : (UInt32.ofNat ws.flatten.length).toNat = ws.flatten.length := UInt32.toNat_ofNat_of_lt' hlen
  have hplace := hbegun.toNat_baseInFile (by omega)
  obtain ⟨hname, ⟨ft, fd, offset, hentry⟩, hwritten, hclaimed, hbase, hfile, hmode₁⟩ := hbegun
  have hzero : a.written.toNat = 0 := by
    rw [hwritten]
    rfl
  obtain ⟨z₂, a₂, hrun, hadding, hfile₂, hcrc, -, hmode₂⟩ :=
    streamWrites_succeed checksum (hmode₁.trans hmode) ws (by rw [hclaimed, hsize]; omega)
      (by rw [hclaimed, hsize]; omega)
  have hall : a₂.written = a₂.claimedSize := by
    rw [hadding]
    dsimp only
    rw [hwritten, UInt32.zero_add, hclaimed]
  have hfinal := finalizeAt_obeys hmode₂ hall
  rw [hadding] at hfinal
  dsimp only at hfinal
  generalize he : { a.entry with crc32 := z₂.crc, size := a.written + UInt32.ofNat ws.flatten.length } = e at hfinal
  have hoffset : e.offsetToLocalFileHeader = a.entry.offsetToLocalFileHeader := by rw [← he]
  have hbase₂ : e.getOffsetToLocalData = a.baseInFile := by rw [hbase, ← he]; rfl
  have hstored : e.compression = 0 := by
    rw [← he]
    change a.entry.compression = 0
    rw [hentry, hmode]
    rfl
  have hcrc₂ : e.crc32 = checksum (ws.getLast?.getD []) := by
    obtain ⟨w, hw⟩ := exists_getLast hne
    rw [← he, hw]
    change z₂.crc = _
    rw [hcrc, hw]
    rfl
  have horiginal : e.sizeOriginal = UInt32.ofNat ws.flatten.length := by
    rw [← he]
    change a.entry.sizeOriginal = _
    rw [hentry]
  refine ⟨writeAt z₂.zip.file e.offsetToLocalFileHeader.toNat (localFileHeader e),
    .init e.sizeOriginal e.getOffsetToLocalData e.crc32, ?_, hcrc₂, ?_, ?_, ?_⟩
  · unfold storeRoundTrip streamedAdd
    dsimp only
    rw [hadd]
    dsimp only
    rw [hrun, Option.map_some, Option.bind_some, hadding, hfinal]
    dsimp only
    rw [Bool.and_self, if_pos rfl, committed, List.getLast?_append, List.getLast?_singleton]
    dsimp only [Option.or, Option.bind_some]
    rw [extractStored_eq hstored]
    rfl
  · change 0 + _ = e.sizeOriginal.toNat
    rw [horiginal, hsize, Nat.zero_add]
  · change e.getOffsetToLocalData.toNat + e.sizeOriginal.toNat ≤ _
    rw [hbase₂, horiginal, hsize, hplace]
    exact hspan
  · change List.drop (e.getOffsetToLocalData.toNat + 0) _ = _
    have hname₂ : (a.entry.offsetToLocalFileHeader + 30).toNat = a.entry.offsetToLocalFileHeader.toNat + 30 := by
      rw [UInt32.toNat_add, show (30 : UInt32).toNat = 30 from rfl]
      omega
    rw [hzero, Nat.add_zero] at hfile₂
    rw [Nat.add_zero, hbase₂, drop_writeAt_behind _ _ (by rw [length_localFileHeader, hoffset]; omega), hfile₂,
      drop_writeAt _ hne, hfile, drop_writeAt_behind _ _ (by omega), hplace]

/-- **Writing and reading a stored entry.** All of the data is read as far as the buffers go, and no checksum is refused,
if and only if the reads do not go beyond the data, unless the file ends there, and the last of them has the checksum of
the last piece that was written. -/
theorem storeRoundTrip_iff (hmode : z.compressionMode = .store) (hne : ws.flatten ≠ [])
    (hlen : ws.flatten.length < 2 ^ 32)
    (hadd : (addFileStream z pathname (UInt32.ofNat ws.flatten.length) fileTime fileDate (some pathname.length)).2 = some a)
    (hspan : a.entry.offsetToLocalFileHeader.toNat + 30 + pathname.length + ws.flatten.length ≤ 2 ^ 32)
    (ns : List UInt32) :
    storeRoundTrip checksum z pathname fileTime fileDate ws ns =
        some (ws.flatten.take (ns.map UInt32.toNat).sum, false) ↔
      ReadsRight checksum (checksum (ws.getLast?.getD []))
        (z.zip.file.length ≤ a.entry.offsetToLocalFileHeader.toNat + 30 + pathname.length + ws.flatten.length) ns
        ws.flatten := by
  obtain ⟨file, s, hread, htarget, hstands⟩ := storeRoundTrip_eq checksum hmode hlen hadd hspan hne ns
  rw [hread, Option.some.injEq, storeReads_iff hstands, htarget, List.drop_eq_nil_iff]

end

/-- A new archive that stores. -/
def fresh : Archive := ⟨create, false, .store, 0⟩

/-- `1 2` and `3` are written, and are read in the same pieces. -/
theorem storeRoundTrip_iff_pieces :
    storeRoundTrip (fun p => UInt32.ofNat p.length) fresh [0x61] 0 0 [[1, 2], [3]] [2, 1] = some ([1, 2, 3], false) := by
  obtain ⟨a, ha, hplace⟩ : ∃ a, (addFileStream fresh [0x61] 3 0 0 (some 1)).2 = some a ∧
      a.entry.offsetToLocalFileHeader = 0 := ⟨_, rfl, rfl⟩
  refine (storeRoundTrip_iff (fun p => UInt32.ofNat p.length) rfl (show [[1, 2], [3]].flatten ≠ [] by decide)
    (by decide) ha ?_ [2, 1]).mpr ?_
  · rw [hplace]
    decide
  · exact ⟨.inl rfl, rfl⟩

/-- `1` and `2` are written, and read at once. -/
theorem storeRoundTrip_fails :
    storeRoundTrip (fun p => UInt32.ofNat p.length) fresh [0x61] 0 0 [[1], [2]] [2] ≠ some ([1, 2], false) := by
  decide

end Cpcf.Os.Zip
