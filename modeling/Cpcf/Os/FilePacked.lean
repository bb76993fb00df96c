import Cpcf.Lib.ByteFile
import Cpcf.Lib.WordList

/-!
`os::FilePacked_Writer` and `os::FilePacked_Reader`: a file of entries, each behind a header that has its name, its
size and the offset of the header itself.

The file has no directory. The reader walks from header to header, and goes on as long as the offset in the header is
the one it has come to.
-/

namespace Cpcf.Os.FilePacked

open Cpcf.Lib.ByteFile Cpcf.Lib.WordList

structure FilePackedEntry where
  fileName : UInt64
  offset : UInt32
  size : UInt32
  deriving DecidableEq

namespace FilePackedEntry

/-- `sizeof(FilePackedEntry)`. -/
def sizeOf : ℕ := 16

def bytes (e : FilePackedEntry) : List UInt8 := word64 e.fileName ++ (word32 e.offset ++ word32 e.size)

def ofBytes (s : List UInt8) : FilePackedEntry :=
  let (fileName, s) := get64 s
  let (offset, s) := get32 s
  let (size, _) := get32 s
  { fileName, offset, size }

@[simp] theorem length_bytes (e : FilePackedEntry) : e.bytes.length = sizeOf := by
  rw [bytes, List.length_append, List.length_append, length_word64, length_word32, length_word32]
  rfl

@[simp] theorem ofBytes_bytes (e : FilePackedEntry) : ofBytes e.bytes = e := by
  have h := get32_word32 e.size []
  rw [List.append_nil] at h
  simp only [ofBytes, bytes, get64_word64, get32_word32, h]

end FilePackedEntry

def FilePackedMagic : UInt32 := 0x50444b43

def INFINITE : UInt32 := 0xffffffff

/-! ### The writer -/

/-- `FilePacked_Writer::Open`: what is in the file then. The position is at its end all the time. -/
def Writer.open : List UInt8 := word32 FilePackedMagic

/-- `FilePacked_Writer::Write`, all of whose writes to the file succeed. -/
def Writer.write (file : List UInt8) (name : UInt64) (data : List UInt8) : List UInt8 :=
  let e : FilePackedEntry := ⟨name, UInt32.ofNat file.length, UInt32.ofNat data.length⟩
  file ++ e.bytes ++ data

/-- The file after all of the pairs were written. -/
def pack (ps : List (UInt64 × List UInt8)) : List UInt8 :=
  ps.foldl (fun file p => Writer.write file p.1 p.2) Writer.open

/-! ### The reader -/

structure Reader where
  file : List UInt8
  entries : List FilePackedEntry
  fileSearchName : UInt64
  fileSearchMask : UInt64
  fileSearchLast : ℤ

/-- The loop of `Open` from `offset` on. It fails only if it takes more steps than it was given. -/
def walk (file : List UInt8) : ℕ → ℕ → Option (List FilePackedEntry)
  | 0, _ => none
  | fuel + 1, offset =>
    let s := readAt file offset FilePackedEntry.sizeOf
    let e := FilePackedEntry.ofBytes s
    let next := offset + FilePackedEntry.sizeOf + e.size.toNat
    if offset ≠ 0 ∧ s.length = FilePackedEntry.sizeOf ∧ e.offset.toNat = offset ∧ next ≠ 0 then
      (walk file fuel next).map fun es =>
        { e with offset := e.offset + UInt32.ofNat FilePackedEntry.sizeOf } :: es
    else some []

/-- `FilePacked_Reader::Open`. The file is walked in fewer steps than it has bytes. -/
def Reader.open (file : List UInt8) : Option Reader :=
  let hdr := readAt file 0 4
  if hdr.length = 4 ∧ (get32 hdr).1 = FilePackedMagic then
    (walk file (file.length + 1) 4).map fun es => ⟨file, es, 0, 0, 0⟩
  else none

namespace Reader

variable (r : Reader)

/-- `FindNextFile`: the loop over the entries behind the last one. -/
def findNextFile : Reader × UInt32 :=
  let i := (r.fileSearchLast + 1).toNat
  match (r.entries.drop i).findIdx? fun e => e.fileName &&& r.fileSearchMask == r.fileSearchName with
  | some k => ({ r with fileSearchLast := (i + k : ℕ) }, UInt32.ofNat (i + k))
  | none => ({ r with fileSearchLast := (max i r.entries.length : ℕ) }, INFINITE)

/-- `FindFirstFile`. -/
def findFirstFile (name mask : UInt64) : Reader × UInt32 :=
  findNextFile { r with fileSearchName := name &&& mask, fileSearchMask := mask, fileSearchLast := -1 }

/-- `_FindFile`. -/
def findFile (name : UInt64) : UInt32 :=
  match r.entries.findIdx? fun e => e.fileName == name with
  | some i => UInt32.ofNat i
  | none => INFINITE

def getFileSize (idx : UInt32) : Option UInt32 := r.entries[idx.toNat]?.map fun e => e.size

def getFileName (idx : UInt32) : Option UInt64 := r.entries[idx.toNat]?.map fun e => e.fileName

def getFileCount : UInt32 := UInt32.ofNat r.entries.length

/-- `Read`: what is put at `pout`, nothing if it returns `false`. -/
def read (idx : UInt32) : Option (List UInt8) :=
  r.entries[idx.toNat]?.bind fun e =>
    let pout := readAt r.file e.offset.toNat e.size.toNat
    if pout.length = e.size.toNat then some pout else none

/-- `Load`: the text that is read, nothing if it returns `false`. -/
def load (name : UInt64) : Option (List UInt8) :=
  let idx := r.findFile name
  if idx ≠ INFINITE then r.read idx else none

/-- `FindFirstFile`, and after it `FindNextFile` as often as said. -/
def find (name mask : UInt64) : ℕ → Reader × UInt32
  | 0 => r.findFirstFile name mask
  | k + 1 => (find name mask k).1.findNextFile

end Reader

/-! ### The walk -/

/-- The walk ends, on any file. -/
theorem exists_walk (file : List UInt8) (fuel offset : ℕ) (h : file.length < fuel + offset) (hf : 0 < fuel) :
    ∃ es, walk file fuel offset = some es := by
  induction fuel generalizing offset with
  | zero => exact absurd hf (Nat.lt_irrefl 0)
  | succ fuel ih =>
    unfold walk
    dsimp only
    split
    · next hc =>
      have hlen := hc.2.1
      rw [readAt, List.length_take, List.length_drop, show FilePackedEntry.sizeOf = 16 from rfl] at hlen
      have h16 : FilePackedEntry.sizeOf = 16 := rfl
      obtain ⟨es, hes⟩ := ih
        (offset + FilePackedEntry.sizeOf +
          (FilePackedEntry.ofBytes (readAt file offset FilePackedEntry.sizeOf)).size.toNat) (by omega) (by omega)
      rw [hes]
      exact ⟨_, rfl⟩
    · exact ⟨[], rfl⟩

/-- So the magic alone decides whether a file is opened. -/
theorem open_isSome_iff (file : List UInt8) : (Reader.open file).isSome ↔
    (readAt file 0 4).length = 4 ∧ (get32 (readAt file 0 4)).1 = FilePackedMagic := by
  obtain ⟨es, hes⟩ := exists_walk file (file.length + 1) 4 (by omega) (Nat.succ_pos _)
  unfold Reader.open
  dsimp only
  rw [hes]
  split
  · next h => exact iff_of_true rfl h
  · next h => exact iff_of_false Bool.false_ne_true h

/-- What is written for the pairs, from the position `off` on. -/
def body : ℕ → List (UInt64 × List UInt8) → List UInt8
  | _, [] => []
  | off, p :: ps =>
    (⟨p.1, UInt32.ofNat off, UInt32.ofNat p.2.length⟩ : FilePackedEntry).bytes ++
      (p.2 ++ body (off + FilePackedEntry.sizeOf + p.2.length) ps)

/-- The entries of the pairs, with the offsets of their data. -/
def entriesOf : ℕ → List (UInt64 × List UInt8) → List FilePackedEntry
  | _, [] => []
  | off, p :: ps =>
    ⟨p.1, UInt32.ofNat (off + FilePackedEntry.sizeOf), UInt32.ofNat p.2.length⟩ ::
      entriesOf (off + FilePackedEntry.sizeOf + p.2.length) ps

theorem pack_eq (ps : List (UInt64 × List UInt8)) : pack ps = Writer.open ++ body Writer.open.length ps := by
  unfold pack
  generalize Writer.open = file
  induction ps generalizing file with
  | nil => exact (List.append_nil file).symm
  | cons p ps ih =>
    have hlen : (Writer.write file p.1 p.2).length = file.length + FilePackedEntry.sizeOf + p.2.length := by
      rw [Writer.write, List.length_append, List.length_append, FilePackedEntry.length_bytes]
    rw [List.foldl_cons, ih, hlen, Writer.write, body, List.append_assoc, List.append_assoc]

section

variable {pre : List UInt8} {ps : List (UInt64 × List UInt8)}

theorem readAt_append (pre bs rest : List UInt8) : readAt (pre ++ (bs ++ rest)) pre.length bs.length = bs := by
  rw [readAt, List.drop_left' rfl]
  exact List.take_left' rfl

/-- The walk stays on the headers that were written, and ends behind the last data. -/
theorem walk_body {fuel : ℕ} (h0 : pre ≠ []) (hlt : (pre ++ body pre.length ps).length < 2 ^ 32)
    (hfuel : ps.length < fuel) : walk (pre ++ body pre.length ps) fuel pre.length = some (entriesOf pre.length ps) := by
  induction ps generalizing pre fuel with
  | nil =>
    cases fuel with
    | zero => exact absurd hfuel (Nat.lt_irrefl 0)
    | succ fuel =>
      have hend : readAt (pre ++ body pre.length []) pre.length FilePackedEntry.sizeOf = [] := by
        rw [body, List.append_nil, readAt, List.drop_length, List.take_nil]
      unfold walk
      dsimp only
      rw [hend, if_neg (fun h => by cases h.2.1)]
      rfl
  | cons p ps ih =>
    cases fuel with
    | zero => cases hfuel
    | succ fuel =>
      have h16 : FilePackedEntry.sizeOf = 16 := rfl
      let e : FilePackedEntry := ⟨p.1, UInt32.ofNat pre.length, UInt32.ofNat p.2.length⟩
      have hnext : (pre ++ (e.bytes ++ p.2)).length = pre.length + FilePackedEntry.sizeOf + p.2.length := by
        rw [List.length_append, List.length_append, e.length_bytes]
        omega
      have hfile : pre ++ body pre.length (p :: ps) =
          pre ++ (e.bytes ++ p.2) ++ body (pre ++ (e.bytes ++ p.2)).length ps := by
        rw [hnext, body, List.append_assoc, List.append_assoc]
      have hread : readAt (pre ++ body pre.length (p :: ps)) pre.length FilePackedEntry.sizeOf = e.bytes := by
        rw [body, ← e.length_bytes]
        exact readAt_append pre e.bytes _
      have hpre : pre.length ≠ 0 := fun h => h0 (List.eq_nil_of_length_eq_zero h)
      rw [hfile] at hlt
      have hle : (pre ++ (e.bytes ++ p.2)).length < 2 ^ 32 := by
        rw [List.length_append] at hlt
        omega
      have hoffset : e.offset.toNat = pre.length := UInt32.toNat_ofNat_of_lt' (show pre.length < 2 ^ 32 by omega)
      have hsize : e.size.toNat = p.2.length := UInt32.toNat_ofNat_of_lt' (show p.2.length < 2 ^ 32 by omega)
      have hne : pre ++ (e.bytes ++ p.2) ≠ [] := fun h => h0 (List.append_eq_nil_iff.mp h).1
      have hrest := ih hne hlt (Nat.lt_of_succ_lt_succ hfuel)
      rw [← hfile, hnext] at hrest
      unfold walk
      dsimp only
      rw [hread, e.ofBytes_bytes, hsize, if_pos ⟨hpre, e.length_bytes, hoffset, by omega⟩, hrest, Option.map_some,
        entriesOf, UInt32.ofNat_add]

/-- An entry has the name and the size of its pair, and its offset is where the data is. -/
theorem entriesOf_getElem? (pre : List UInt8) {i : ℕ} {p : UInt64 × List UInt8} (hp : ps[i]? = some p) :
    ∃ o, (entriesOf pre.length ps)[i]? = some ⟨p.1, UInt32.ofNat o, UInt32.ofNat p.2.length⟩ ∧
      readAt (pre ++ body pre.length ps) o p.2.length = p.2 ∧
        o + p.2.length ≤ (pre ++ body pre.length ps).length := by
  induction ps generalizing pre i with
  | nil => cases hp
  | cons q ps ih =>
    let e : FilePackedEntry := ⟨q.1, UInt32.ofNat pre.length, UInt32.ofNat q.2.length⟩
    have hhead : (pre ++ e.bytes).length = pre.length + FilePackedEntry.sizeOf := by
      rw [List.length_append, e.length_bytes]
    have hnext : (pre ++ e.bytes ++ q.2).length = pre.length + FilePackedEntry.sizeOf + q.2.length := by
      rw [List.length_append, hhead]
    have hfile : pre ++ body pre.length (q :: ps) =
        pre ++ e.bytes ++ (q.2 ++ body (pre ++ e.bytes ++ q.2).length ps) := by
      rw [hnext, body, List.append_assoc]
    cases i with
    | zero =>
      obtain rfl := Option.some.inj hp
      refine ⟨pre.length + FilePackedEntry.sizeOf, rfl, ?_, ?_⟩
      · rw [hfile, ← hhead]
        exact readAt_append (pre ++ e.bytes) q.2 _
      · rw [hfile, List.length_append, hhead, List.length_append]
        omega
    | succ i =>
      obtain ⟨o, h1, h2, h3⟩ := ih (pre ++ e.bytes ++ q.2) (i := i) hp
      rw [hfile, ← List.append_assoc]
      rw [hnext] at h1
      exact ⟨o, h1, h2, h3⟩

theorem length_entriesOf (off : ℕ) (ps : List (UInt64 × List UInt8)) : (entriesOf off ps).length = ps.length := by
  induction ps generalizing off with
  | nil => rfl
  | cons p ps ih => rw [entriesOf, List.length_cons, List.length_cons, ih]

theorem fileName_entriesOf (off : ℕ) (ps : List (UInt64 × List UInt8)) :
    (entriesOf off ps).map FilePackedEntry.fileName = ps.map Prod.fst := by
  induction ps generalizing off with
  | nil => rfl
  | cons p ps ih => rw [entriesOf, List.map_cons, List.map_cons, ih]

theorem length_le_body (off : ℕ) (ps : List (UInt64 × List UInt8)) : ps.length ≤ (body off ps).length := by
  induction ps generalizing off with
  | nil => exact Nat.zero_le _
  | cons p ps ih =>
    have h := ih (off + FilePackedEntry.sizeOf + p.2.length)
    have h16 : FilePackedEntry.sizeOf = 16 := rfl
    rw [body, List.length_cons, List.length_append, List.length_append, FilePackedEntry.length_bytes]
    omega

/-- What is opened. -/
theorem open_pack (h : (pack ps).length < 2 ^ 32) :
    Reader.open (pack ps) = some ⟨pack ps, entriesOf Writer.open.length ps, 0, 0, 0⟩ := by
  have hlen : Writer.open.length = 4 := length_word32 _
  have hhdr : readAt (pack ps) 0 4 = Writer.open := by
    rw [pack_eq, ← hlen]
    exact readAt_append [] Writer.open _
  have hmagic : (get32 Writer.open).1 = FilePackedMagic := by decide
  have hcount := length_le_body Writer.open.length ps
  have hwalk : walk (pack ps) ((pack ps).length + 1) 4 = some (entriesOf Writer.open.length ps) := by
    rw [pack_eq] at h ⊢
    rw [← hlen]
    refine walk_body (fun h0 => by rw [h0] at hlen; cases hlen) h ?_
    rw [List.length_append]
    omega
  unfold Reader.open
  dsimp only
  rw [hhdr, if_pos ⟨hlen, hmagic⟩, hwalk]
  rfl

end

/-! ### Searching -/

/-- The indices of the elements that `p` accepts, counted from `i` on. -/
def indices {α : Type*} (p : α → Bool) : ℕ → List α → List ℕ
  | _, [] => []
  | i, a :: as => if p a then i :: indices p (i + 1) as else indices p (i + 1) as

section

variable {α : Type*} {p : α → Bool}

theorem indices_eq_range' (i : ℕ) (as : List α) :
    indices p i as = (List.range' i as.length).filter fun j => as[j - i]?.any p := by
  induction as generalizing i with
  | nil => rfl
  | cons a as ih =>
    have htail : (List.range' (i + 1) as.length).filter (fun j => as[j - (i + 1)]?.any p) =
        (List.range' (i + 1) as.length).filter fun j => (a :: as)[j - i]?.any p := by
      refine List.filter_congr fun j hj => ?_
      obtain ⟨h1, -⟩ := List.mem_range'_1.mp hj
      have hj : j - i = j - (i + 1) + 1 := by omega
      rw [hj, List.getElem?_cons_succ]
    rw [indices, ih, htail, List.length_cons, List.range'_succ, List.filter_cons, Nat.sub_self, List.getElem?_cons_zero]
    rfl

/-- They are those that are accepted, in ascending order. -/
theorem indices_zero (p : α → Bool) (as : List α) :
    indices p 0 as = (List.range as.length).filter fun i => as[i]?.any p := by
  rw [indices_eq_range', List.range_eq_range']
  rfl

/-- The first of them is the one that is found, the others are counted from behind it. -/
theorem indices_findIdx? (i : ℕ) (as : List α) : indices p i as =
    match as.findIdx? p with
    | some k => (i + k) :: indices p (i + k + 1) (as.drop (k + 1))
    | none => [] := by
  induction as generalizing i with
  | nil => rfl
  | cons a as ih =>
    rw [indices, List.findIdx?_cons]
    by_cases ha : p a = true
    · rw [if_pos ha, if_pos ha]
      rfl
    · rw [if_neg ha, if_neg ha, ih]
      cases as.findIdx? p with
      | none => rfl
      | some k =>
        dsimp only [Option.map_some]
        rw [List.drop_succ_cons, show i + 1 + k = i + (k + 1) by omega]

end

section

variable {r : Reader} {name mask : UInt64}

/-- What a search looks for. -/
def Reader.sought (r : Reader) (e : FilePackedEntry) : Bool := e.fileName &&& r.fileSearchMask == r.fileSearchName

/-- The indices that a search still has to find. -/
def Reader.pending (r : Reader) : List ℕ :=
  indices r.sought (r.fileSearchLast + 1).toNat (r.entries.drop (r.fileSearchLast + 1).toNat)

/-- `FindNextFile` gives the first of them, and the others remain. -/
theorem findNextFile_spec (r : Reader) :
    r.findNextFile.2 = (r.pending.head?.map UInt32.ofNat).getD INFINITE ∧ r.findNextFile.1.pending = r.pending.tail ∧
      r.findNextFile.1.entries = r.entries ∧ r.findNextFile.1.sought = r.sought := by
  have hp := indices_findIdx? (p := r.sought) (r.fileSearchLast + 1).toNat (r.entries.drop (r.fileSearchLast + 1).toNat)
  unfold Reader.findNextFile
  dsimp only
  split
  · next k hk =>
    have hk' : (r.entries.drop (r.fileSearchLast + 1).toNat).findIdx? r.sought = some k := hk
    rw [hk'] at hp
    dsimp only at hp
    have hnext : (((r.fileSearchLast + 1).toNat + k : ℕ) + 1 : ℤ).toNat = (r.fileSearchLast + 1).toNat + k + 1 := by omega
    refine ⟨?_, ?_, rfl, rfl⟩
    · rw [Reader.pending, hp]
      rfl
    · rw [Reader.pending, Reader.pending, hp]
      dsimp only
      rw [hnext, List.tail_cons, List.drop_drop, Nat.add_assoc]
      rfl
  · next hk =>
    have hk' : (r.entries.drop (r.fileSearchLast + 1).toNat).findIdx? r.sought = none := hk
    rw [hk'] at hp
    refine ⟨?_, ?_, rfl, rfl⟩
    · rw [Reader.pending, hp]
      rfl
    · rw [Reader.pending, Reader.pending, hp]
      dsimp only
      rw [List.drop_eq_nil_of_le (by omega)]
      rfl

/-- A search gives the indices one after the other, and `INFINITE` when there is none left. -/
theorem find_spec (r : Reader) (name mask : UInt64) (k : ℕ) :
    let all := indices (fun e => e.fileName &&& mask == name &&& mask) 0 r.entries
    (r.find name mask k).2 = (all[k]?.map UInt32.ofNat).getD INFINITE ∧
      (r.find name mask k).1.pending = all.drop (k + 1) := by
  intro all
  induction k with
  | zero =>
    obtain ⟨h1, h2, -, -⟩ := findNextFile_spec
      { r with fileSearchName := name &&& mask, fileSearchMask := mask, fileSearchLast := -1 }
    have hall : Reader.pending { r with fileSearchName := name &&& mask, fileSearchMask := mask, fileSearchLast := -1 } =
        all := rfl
    rw [hall] at h1 h2
    rw [List.head?_eq_getElem?] at h1
    rw [← List.drop_one] at h2
    exact ⟨h1, h2⟩
  | succ k ih =>
    obtain ⟨h1, h2, -, -⟩ := findNextFile_spec (r.find name mask k).1
    rw [ih.2, List.head?_drop] at h1
    rw [ih.2, List.tail_drop] at h2
    exact ⟨h1, h2⟩

end

/-! ### The round trip -/

section

variable {ps : List (UInt64 × List UInt8)}

theorem any_entriesOf (off : ℕ) (f : UInt64 → Bool) (i : ℕ) :
    ((entriesOf off ps)[i]?.any fun e => f e.fileName) = ps[i]?.any fun p => f p.1 := by
  have h := congrArg (fun l => l[i]?.any f) (fileName_entriesOf off ps)
  rw [List.getElem?_map, List.getElem?_map, Option.any_map, Option.any_map] at h
  exact h

theorem findIdx?_entriesOf (off : ℕ) (name : UInt64) :
    ((entriesOf off ps).findIdx? fun e => e.fileName == name) = ps.findIdx? fun p => p.1 == name := by
  have h := congrArg (fun l => l.findIdx? fun n => n == name) (fileName_entriesOf off ps)
  rw [List.findIdx?_map, List.findIdx?_map] at h
  exact h

/-- An entry is found at its index, and has what was written. -/
theorem read_open {r : Reader} {i : ℕ} {p : UInt64 × List UInt8} (h : (pack ps).length < 2 ^ 32)
    (hr : r.file = pack ps ∧ r.entries = entriesOf Writer.open.length ps) (hp : ps[i]? = some p) :
    r.getFileName (UInt32.ofNat i) = some p.1 ∧ r.getFileSize (UInt32.ofNat i) = some (UInt32.ofNat p.2.length) ∧
      p.2.length < 2 ^ 32 ∧ r.read (UInt32.ofNat i) = some p.2 := by
  obtain ⟨hfile, hentries⟩ := hr
  obtain ⟨o, h1, h2, h3⟩ := entriesOf_getElem? Writer.open hp
  have hi := (List.getElem?_eq_some_iff.mp hp).1
  have hcount := length_le_body Writer.open.length ps
  rw [← pack_eq] at h2 h3
  have hlen : (pack ps).length = Writer.open.length + (body Writer.open.length ps).length := by
    rw [pack_eq, List.length_append]
  have hidx : (UInt32.ofNat i).toNat = i := UInt32.toNat_ofNat_of_lt' (show i < 2 ^ 32 by omega)
  have ho : (UInt32.ofNat o).toNat = o := UInt32.toNat_ofNat_of_lt' (show o < 2 ^ 32 by omega)
  have hs : (UInt32.ofNat p.2.length).toNat = p.2.length := UInt32.toNat_ofNat_of_lt' (show p.2.length < 2 ^ 32 by omega)
  have hget : r.entries[(UInt32.ofNat i).toNat]? = some ⟨p.1, UInt32.ofNat o, UInt32.ofNat p.2.length⟩ := by
    rw [hidx, hentries]
    exact h1
  unfold Reader.getFileName Reader.getFileSize Reader.read
  rw [hget]
  refine ⟨rfl, rfl, by omega, ?_⟩
  dsimp only [Option.bind_some]
  rw [hfile, ho, hs, h2, if_pos rfl]

/-- Three entries, two of a name, one of them empty. -/
def threePairs : List (UInt64 × List UInt8) := [(0x1001, [1, 2, 3]), (2, []), (0x1001, [4])]

end

end Cpcf.Os.FilePacked
