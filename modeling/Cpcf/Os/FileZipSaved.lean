import Cpcf.Os.FileZip

/-!
What an archive is when it is opened again.

`Save` writes the directory at the end of the data and never cuts the file; `Open` takes the last directory that it
finds. So what `Save` has written is found again only if nothing behind it looks like a directory, and what `Save` did
not write is found again only if neither the entries nor the bytes of the old directory have changed.
-/

namespace Cpcf.Os.Zip

open Cpcf.Lib Cpcf.Lib.ByteFile Cpcf.Lib.Run Cpcf.Lib.WordList

/-! ### Looking for the directory -/

theorem scanBack_eq_some {p : ℕ → Bool} {n i : ℕ} :
    scanBack p n = some i ↔ i < n ∧ p i = true ∧ ∀ j, i < j → j < n → p j = false := by
  induction n with
  | zero =>
    constructor
    · intro h
      cases h
    · rintro ⟨h, -⟩
      exact absurd h (Nat.not_lt_zero i)
  | succ n ih =>
    unfold scanBack
    by_cases hp : p n = true
    · rw [if_pos hp, Option.some.injEq]
      constructor
      · rintro rfl
        exact ⟨Nat.lt_succ_self _, hp, fun j h1 h2 => by omega⟩
      · rintro ⟨h1, -, h3⟩
        by_contra hne
        rw [h3 n (by omega) (Nat.lt_succ_self n)] at hp
        cases hp
    · rw [if_neg hp, ih]
      constructor
      · rintro ⟨h1, h2, h3⟩
        refine ⟨by omega, h2, fun j hj1 hj2 => ?_⟩
        by_cases hjn : j = n
        · exact hjn ▸ Bool.not_eq_true _ ▸ hp
        · exact h3 j hj1 (by omega)
      · rintro ⟨h1, h2, h3⟩
        have hin : i ≠ n := fun hin => hp (hin ▸ h2)
        exact ⟨by omega, h2, fun j hj1 hj2 => h3 j hj1 (by omega)⟩

theorem tailStart_add (file : List UInt8) : tailStart file + tailLength file = file.length := by
  have : tailLength file ≤ file.length := Nat.min_le_left _ _
  unfold tailStart
  omega

theorem tailLength_congr {f g : List UInt8} (h : f.length = g.length) : tailLength f = tailLength g := by
  unfold tailLength
  rw [h]

theorem tailStart_congr {f g : List UInt8} (h : f.length = g.length) : tailStart f = tailStart g := by
  unfold tailStart
  rw [tailLength_congr h, h]

/-- From a byte on the files are the same, also from any later one on. -/
theorem drop_congr {f g : List UInt8} {b k : ℕ} (h : f.drop b = g.drop b) (hb : b ≤ k) : f.drop k = g.drop k := by
  have hk : k = b + (k - b) := by omega
  rw [hk, ← List.drop_drop, ← List.drop_drop, h]

section

variable {f g : List UInt8} {b i : ℕ} {load_indexed : Bool} {z : FileZip}

theorem tail_congr {j : ℕ} (hlen : f.length = g.length) (hdrop : f.drop b = g.drop b) (hb : b ≤ tailStart f + j) :
    (g.drop (tailStart g)).drop j = (f.drop (tailStart f)).drop j := by
  rw [List.drop_drop, List.drop_drop, ← tailStart_congr hlen]
  exact (drop_congr hdrop hb).symm

/-- `Open` takes the same directory if nothing has changed from it on. -/
theorem findDirectory_congr (hlen : f.length = g.length) (hdrop : f.drop b = g.drop b)
    (hf : findDirectory f = some i) (hb : b ≤ tailStart f + i) : findDirectory g = some i := by
  unfold findDirectory at hf ⊢
  dsimp only at hf ⊢
  obtain ⟨h1, h2, h3⟩ := scanBack_eq_some.mp hf
  have hsame : ∀ j, i ≤ j → (g.drop (tailStart g)).drop j = (f.drop (tailStart f)).drop j :=
    fun j hj => tail_congr hlen hdrop (by omega)
  rw [← tailLength_congr hlen, ← hlen]
  refine scanBack_eq_some.mpr ⟨h1, ?_, fun j hj1 hj2 => ?_⟩
  · rw [hsame i le_rfl]
    exact h2
  · rw [hsame j hj1.le]
    exact h3 j hj1 hj2

theorem openDirectory_start (h : openDirectory f i load_indexed = some z) :
    z.centralDirectoryStart = (CentralDirectory.ofBytes ((f.drop (tailStart f)).drop i)).offset := by
  unfold openDirectory at h
  dsimp only at h
  split at h
  · split at h
    · obtain ⟨es, -, rfl⟩ := Option.map_eq_some_iff.mp h
      rfl
    · obtain rfl := Option.some.inj h
      rfl
  · cases h

/-- It reads the same from it if nothing has changed from the records on. -/
theorem openDirectory_congr (hlen : f.length = g.length) (hdrop : f.drop b = g.drop b)
    (hf : openDirectory f i load_indexed = some z) (hb : b ≤ tailStart f + i)
    (hstart : b ≤ z.centralDirectoryStart.toNat) : openDirectory g i load_indexed = some { z with file := g } := by
  have hs := openDirectory_start hf
  have hsame : ∀ j, i ≤ j → (g.drop (tailStart g)).drop j = (f.drop (tailStart f)).drop j :=
    fun j hj => tail_congr hlen hdrop (by omega)
  have hpool := readAt_congr (n := (CentralDirectory.ofBytes ((f.drop (tailStart f)).drop i)).size.toNat) hdrop
    (hs ▸ hstart)
  unfold openDirectory at hf ⊢
  dsimp only at hf ⊢
  rw [hsame i le_rfl, hsame (i + 22) (by omega), ← tailLength_congr hlen, ← hlen, ← hpool]
  split at hf
  · next hc =>
    rw [if_pos hc]
    split at hf
    · next hp =>
      rw [if_pos hp]
      obtain ⟨es, hes, rfl⟩ := Option.map_eq_some_iff.mp hf
      rw [hes]
      rfl
    · next hp =>
      rw [if_neg hp]
      obtain rfl := Option.some.inj hf
      rfl
  · cases hf

theorem loaded_perm (load_indexed : Bool) (es : List FileEntry) :
    (if load_indexed then reindexAllEntries es else es).Perm es := by
  cases load_indexed with
  | true => exact List.mergeSort_perm _ _
  | false => exact List.Perm.refl _

/-- Sorting does not change what the entries are. -/
theorem openDirectory_perm (load_indexed' : Bool) (h : openDirectory f i load_indexed = some z) :
    ∃ z', openDirectory f i load_indexed' = some z' ∧ z'.fileEntries.Perm z.fileEntries ∧
      z'.centralDirectoryStart = z.centralDirectoryStart := by
  unfold openDirectory at h ⊢
  dsimp only at h ⊢
  split at h
  · next hc =>
    rw [if_pos hc]
    split at h
    · next hp =>
      rw [if_pos hp]
      obtain ⟨es, hes, rfl⟩ := Option.map_eq_some_iff.mp h
      rw [hes]
      exact ⟨_, rfl, (loaded_perm _ es).trans (loaded_perm _ es).symm, rfl⟩
    · next hp =>
      rw [if_neg hp]
      obtain rfl := Option.some.inj h
      exact ⟨_, rfl, List.Perm.refl _, rfl⟩
  · cases h

/-! ### A directory in a file -/

/-- Opened, the file gives the entries `es` and the start of the directory, and this depends on nothing before `base`. -/
structure OpensAs (f : List UInt8) (base : ℕ) (es : List FileEntry) (start : UInt32) : Prop where
  long : CentralDirectory.sizeOf ≤ (UInt32.ofNat f.length).toNat
  opens : ∃ i z, findDirectory f = some i ∧ base ≤ tailStart f + i ∧ openDirectory f i false = some z ∧
    z.fileEntries.Perm es ∧ z.centralDirectoryStart = start ∧ base ≤ start.toNat

variable {es : List FileEntry} {start : UInt32}

theorem OpensAs.openFile (h : OpensAs f b es start) (load_indexed : Bool) :
    ∃ z, Zip.openFile f load_indexed = some z ∧ z.fileEntries.Perm es ∧ z.centralDirectoryStart = start := by
  obtain ⟨i, z, hi, -, hz, hes, hs, -⟩ := h.opens
  obtain ⟨z', hz', hperm, hs'⟩ := openDirectory_perm load_indexed hz
  refine ⟨z', ?_, hperm.trans hes, hs'.trans hs⟩
  unfold Zip.openFile
  rw [if_neg (Nat.not_lt.mpr h.long), hi]
  exact hz'

theorem OpensAs.sizeOf_le (h : OpensAs f b es start) : CentralDirectory.sizeOf ≤ f.length := by
  have hl := h.long
  rw [UInt32.toNat_ofNat'] at hl
  exact hl.trans (Nat.mod_le _ _)

/-- There are bytes from a directory on. -/
theorem findDirectory_lt (hl : CentralDirectory.sizeOf ≤ f.length) (h : findDirectory f = some i) :
    tailStart f + i < f.length := by
  have h1 := (scanBack_eq_some.mp h).1
  have h2 := tailStart_add f
  have h3 : CentralDirectory.sizeOf = 23 := rfl
  have h4 : CentralDirectory.sizeOf ≤ tailLength f := le_min hl (by omega)
  omega

/-- What is changed before the directory does not matter. -/
theorem OpensAs.congr (h : OpensAs f b es start) (hdrop : g.drop b = f.drop b) : OpensAs g b es start := by
  obtain ⟨i, z, hi, hb, hz, hes, hs, hbs⟩ := h.opens
  have hlt := findDirectory_lt h.sizeOf_le hi
  have hlen : f.length = g.length := by
    have hd := congrArg List.length hdrop
    rw [List.length_drop, List.length_drop] at hd
    omega
  refine ⟨hlen ▸ h.long, i, _, findDirectory_congr hlen hdrop.symm hi hb, tailStart_congr hlen ▸ hb,
    openDirectory_congr hlen hdrop.symm hz hb (hs ▸ hbs), hes, hs, hbs⟩

end

/-! ### A directory that is written -/

/-- What the file has from the end record of the directory on, once `Save` has written it: the end record, the comment
and what was in the file behind them. -/
def behind (z : FileZip) : List UInt8 :=
  (directory z).drop (records z).length ++ z.file.drop (z.centralDirectoryStart.toNat + (directory z).length)

/-- A directory that is written now can be found again. The file is shorter than 4 GiB and longer than the least that
`Open` takes; the end record is among the bytes that are searched, and nothing behind it looks like one; and the last
record has a byte behind its fixed part. -/
structure DirectoryFits (z : FileZip) : Prop where
  short : z.centralDirectoryStart.toNat + (records z).length + (behind z).length < 2 ^ 32
  long : CentralDirectory.sizeOf ≤ z.centralDirectoryStart.toNat + (records z).length + (behind z).length
  near : (behind z).length ≤ 0xffff + CentralDirectory.sizeOf
  last : ∀ i < (behind z).length, 0 < i → i + 20 ≤ (behind z).length → isDirectory ((behind z).drop i)
    (UInt32.ofNat (z.centralDirectoryStart.toNat + (records z).length + (behind z).length)) = false
  tail : ∀ e ∈ (liveEntries z).getLast?, 47 ≤ e.bytes.length

instance (z : FileZip) : Decidable (DirectoryFits z) :=
  decidable_of_iff (_ ∧ _ ∧ _ ∧ _ ∧ _)
    ⟨fun ⟨h1, h2, h3, h4, h5⟩ => ⟨h1, h2, h3, h4, h5⟩, fun h => ⟨h.short, h.long, h.near, h.last, h.tail⟩⟩

/-- Records one after the other are read back. -/
theorem readEntries_flatMap {es : List FileEntry} (hsig : ∀ e ∈ es, e.signature = FileEntry.header_magic)
    (hlast : ∀ e ∈ es.getLast?, 47 ≤ e.bytes.length) :
    readEntries es.length (es.flatMap FileEntry.bytes) = some es := by
  induction es with
  | nil => rfl
  | cons e es ih =>
    have hrest := ih (fun d hd => hsig d (List.mem_cons_of_mem e hd)) fun d hd => hlast d (by
      cases es with
      | nil => cases hd
      | cons c cs => exact hd)
    have hl : 47 ≤ (e.bytes ++ es.flatMap FileEntry.bytes).length := by
      cases es with
      | nil =>
        have := hlast e rfl
        rw [List.length_append]
        omega
      | cons c cs =>
        rw [List.flatMap_cons, List.length_append, List.length_append, e.length_bytes, c.length_bytes]
        omega
    rw [List.flatMap_cons, List.length_cons, readEntries, FileEntry.read_bytes e _ (hsig e List.mem_cons_self) hl,
      Option.bind_some]
    dsimp only
    rw [hrest]
    rfl

/-- The sum of the sizes, as it is stored. -/
theorem foldl_getTotalSize (es : List FileEntry) (c : UInt32) :
    (es.foldl (fun cdsize e => cdsize + e.getTotalSize) c).toNat =
      (c.toNat + (es.flatMap FileEntry.bytes).length) % 2 ^ 32 := by
  induction es generalizing c with
  | nil =>
    have := c.toNat_lt
    rw [List.foldl_nil, List.flatMap_nil, List.length_nil]
    omega
  | cons e es ih =>
    rw [List.foldl_cons, ih, UInt32.toNat_add, e.toNat_getTotalSize, List.flatMap_cons, List.length_append]
    omega

section

variable {z : FileZip}

/-- What the file is from the records on, when `Save` has written. -/
theorem drop_written (z : FileZip) :
    (writeAt z.file z.centralDirectoryStart.toNat (directory z)).drop
      (z.centralDirectoryStart.toNat + (records z).length) = behind z := by
  have hne : directory z ≠ [] := by
    intro h
    have hl := congrArg List.length h
    rw [directory, List.length_append, List.length_append, CentralDirectory.length_bytes, List.length_nil] at hl
    omega
  rw [← List.drop_drop, drop_writeAt _ hne, behind, List.drop_append_of_le_length]
  rw [directory, List.length_append]
  omega

theorem behind_eq (z : FileZip) : behind z = (endRecord z).bytes ++ (z.zipComment.1 ++
    z.file.drop (z.centralDirectoryStart.toNat + (directory z).length)) := by
  unfold behind
  rw [directory, List.drop_left' rfl, List.append_assoc]

theorem le_length_behind (z : FileZip) : 22 ≤ (behind z).length := by
  rw [behind_eq, List.length_append, CentralDirectory.length_bytes]
  omega

theorem length_written (z : FileZip) :
    (writeAt z.file z.centralDirectoryStart.toNat (directory z)).length =
      z.centralDirectoryStart.toNat + (records z).length + (behind z).length := by
  have h1 := congrArg List.length (drop_written z)
  have h2 := le_length_behind z
  rw [List.length_drop] at h1
  omega

/-- **What `Save` writes is found again.** -/
theorem opensAs_written (hfits : DirectoryFits z) (hcount : z.fileEntries.length ≤ 0xffff)
    (hsig : ∀ e ∈ z.fileEntries, e.signature = 0 ∨ e.signature = FileEntry.header_magic) :
    OpensAs (writeAt z.file z.centralDirectoryStart.toNat (directory z)) z.centralDirectoryStart.toNat (liveEntries z)
      z.centralDirectoryStart := by
  have hlen := length_written z
  have hdrop := drop_written z
  have hbehind := behind_eq z
  have h22 := le_length_behind z
  have hshort := hfits.short
  have hnear := hfits.near
  have hlong := hfits.long
  have hsize : CentralDirectory.sizeOf = 23 := rfl
  generalize hg : writeAt z.file z.centralDirectoryStart.toNat (directory z) = g at hlen hdrop ⊢
  -- the end record stands in what is searched
  have hstart := tailStart_add g
  have htail : tailLength g = min g.length (0xffff + 23) := rfl
  obtain ⟨i, hi⟩ : ∃ i, tailStart g + i = z.centralDirectoryStart.toNat + (records z).length :=
    ⟨z.centralDirectoryStart.toNat + (records z).length - tailStart g, by omega⟩
  have hfilelen : (UInt32.ofNat g.length).toNat = g.length := UInt32.toNat_ofNat_of_lt' (by
    rw [hlen]
    exact hshort)
  have hat : ∀ k, (g.drop (tailStart g)).drop (i + k) = (behind z).drop k := by
    intro k
    rw [List.drop_drop, ← Nat.add_assoc, hi, ← List.drop_drop, hdrop]
  have hat0 : (g.drop (tailStart g)).drop i = behind z := hat 0
  have hoffset : (endRecord z).offset < UInt32.ofNat g.length := by
    rw [UInt32.lt_iff_toNat_lt, hfilelen]
    change z.centralDirectoryStart.toNat < _
    omega
  have hfind : findDirectory g = some i := by
    unfold findDirectory
    dsimp only
    refine scanBack_eq_some.mpr ⟨by omega, ?_, fun j hj1 hj2 => ?_⟩
    · unfold isDirectory
      rw [hat0, hbehind, CentralDirectory.ofBytes_bytes, CentralDirectory.bytes, List.append_assoc, get32_word32,
        decide_eq_true hoffset]
      rfl
    · obtain ⟨k, rfl⟩ : ∃ k, j = i + k := ⟨j - i, by omega⟩
      rw [hat, hlen]
      exact hfits.last k (by omega) (by omega) (by omega)
  -- the records are those of the live entries
  have hlive : ∀ e ∈ liveEntries z, e.signature = FileEntry.header_magic := by
    intro e he
    obtain ⟨hmem, hne⟩ := List.mem_filter.mp he
    exact (hsig e hmem).resolve_left (of_decide_eq_true hne)
  have hcountLive : (liveEntries z).length < 2 ^ 16 := by
    have := List.length_filter_le (fun e : FileEntry => decide (e.signature ≠ 0)) z.fileEntries
    unfold liveEntries
    omega
  have hcd : (endRecord z).size.toNat = (records z).length := by
    have h : (endRecord z).size.toNat = (0 + (records z).length) % 2 ^ 32 := foldl_getTotalSize (liveEntries z) 0
    rw [h, Nat.zero_add]
    exact Nat.mod_eq_of_lt (by omega)
  have hpool : readAt g (endRecord z).offset.toNat (endRecord z).size.toNat = records z := by
    rw [hcd, ← hg, directory]
    exact readAt_writeAt z.file (records z) _
  have hnumber : (endRecord z).entriesNumber.toNat = (liveEntries z).length := UInt16.toNat_ofNat_of_lt' hcountLive
  have hsum : (endRecord z).size + (endRecord z).offset < UInt32.ofNat g.length := by
    rw [UInt32.lt_iff_toNat_lt, hfilelen, UInt32.toNat_add, hcd]
    change ((records z).length + z.centralDirectoryStart.toNat) % 2 ^ 32 < _
    omega
  have hopen : ∃ z', openDirectory g i false = some z' ∧ z'.fileEntries = liveEntries z ∧
      z'.centralDirectoryStart = z.centralDirectoryStart := by
    unfold openDirectory
    dsimp only
    rw [hat0, hbehind, CentralDirectory.ofBytes_bytes, if_pos ⟨rfl, rfl, rfl, hsum⟩, hpool, if_pos hcd.symm, hnumber]
    have hread : readEntries (liveEntries z).length (records z) = some (liveEntries z) :=
      readEntries_flatMap hlive hfits.tail
    rw [hread]
    exact ⟨_, rfl, rfl, rfl⟩
  obtain ⟨z', hz', hes, hs⟩ := hopen
  exact ⟨by omega, i, z', hfind, by omega, hz', hes ▸ List.Perm.refl _, hs, le_rfl⟩

end

/-! ### Sessions -/

/-- A session, with a note whether the directory in the file is still good: it was read, or written so that it is found
again, and since then no entry has been removed and nothing has changed in the file from `base` on, where it begins. -/
structure Watch where
  zip : FileZip
  intact : Bool
  base : ℕ
  deriving DecidableEq

/-- A new archive, which has no directory yet. -/
def Watch.create : Watch := ⟨Zip.create, false, 0⟩

/-- An archive that exists. -/
def Watch.open (file : List UInt8) (load_indexed : Bool) : Option Watch :=
  (openFile file load_indexed).map fun z =>
    ⟨z, true, min z.centralDirectoryStart.toNat ((findDirectory file).elim 0 fun i => tailStart file + i)⟩

def Act.isRemove : Act → Bool
  | .remove _ => true
  | _ => false

/-- One call. -/
def Watch.step (w : Watch) (a : Act) : Option Watch :=
  (Zip.step w.zip a).map fun z =>
    if a = .save ∧ w.zip.centralDirectoryModified = true then
      ⟨z, decide (DirectoryFits w.zip), z.centralDirectoryStart.toNat⟩
    else ⟨z, w.intact && !a.isRemove && z.file.drop w.base == w.zip.file.drop w.base, w.base⟩

/-- At the end the directory is marked as modified and will be found again where it is written, or the one in the file
is still good. -/
structure ClosesWell (w : Watch) : Prop where
  idle : w.zip.adding = none
  good : if w.zip.centralDirectoryModified then DirectoryFits w.zip else w.intact = true

/-- The start of the directory as it is once the entry is given up that is being added. -/
def restStart (z : FileZip) : UInt32 :=
  match z.adding with
  | some a => if a.holeFromEntry = none then a.centralDirectoryStartOld else z.centralDirectoryStart
  | none => z.centralDirectoryStart

/-- What is known of the entries, and of the one that is being added. -/
structure Entries (z : FileZip) : Prop where
  signatures : ∀ e ∈ z.fileEntries, e.signature = 0 ∨ e.signature = FileEntry.header_magic
  count : z.fileEntries.length ≤ 0xffff
  adding : ∀ a, z.adding = some a → a.entry.signature = FileEntry.header_magic ∧ z.fileEntries.length < 0xffff ∧
    ∀ (i : ℕ) (e : FileEntry), a.holeFromEntry = some i → z.fileEntries[i]? = some e → e.signature = 0

/-- What holds in every session. -/
structure Watched (w : Watch) : Prop where
  entries : Entries w.zip
  stored : w.zip.centralDirectoryModified = false → w.intact = true →
    OpensAs w.zip.file w.base (liveEntries w.zip) (restStart w.zip)

section

variable {f : FileEntry → FileEntry} {p : FileEntry → Bool} {es : List FileEntry} {i : ℕ}

/-- A hole does not count among the live entries, whatever its size is. -/
theorem filter_modify (h : ∀ e, es[i]? = some e → p e = false ∧ p (f e) = false) :
    (es.modify i f).filter p = es.filter p := by
  induction es generalizing i with
  | nil => rw [List.modify_nil]
  | cons e es ih =>
    cases i with
    | zero =>
      obtain ⟨h1, h2⟩ := h e rfl
      rw [List.modify_zero_cons, List.filter_cons_of_neg (by rw [h2]; decide), List.filter_cons_of_neg (by rw [h1]; decide)]
    | succ i =>
      rw [List.modify_succ_cons, List.filter_cons, List.filter_cons, ih h]

theorem mem_modify {e : FileEntry} (h : e ∈ es.modify i f) : e ∈ es ∨ ∃ d, es[i]? = some d ∧ e = f d := by
  obtain ⟨j, hj⟩ := List.getElem?_of_mem h
  by_cases hij : i = j
  · subst hij
    rw [List.getElem?_modify_eq] at hj
    obtain ⟨d, hd, hde⟩ := Option.map_eq_some_iff.mp hj
    exact .inr ⟨d, hd, hde.symm⟩
  · rw [List.getElem?_modify_ne _ _ hij] at hj
    exact .inl (List.mem_of_getElem? hj)

/-- A change that keeps the signatures. -/
theorem signatures_modify (hf : ∀ e, (f e).signature = e.signature)
    (h : ∀ e ∈ es, e.signature = 0 ∨ e.signature = FileEntry.header_magic) :
    ∀ e ∈ es.modify i f, e.signature = 0 ∨ e.signature = FileEntry.header_magic := by
  intro e he
  rcases mem_modify he with he | ⟨d, hd, rfl⟩
  · exact h e he
  · rw [hf]
    exact h d (List.mem_of_getElem? hd)

end

section

variable {w : Watch}

theorem Watched.create : Watched Watch.create := by
  refine ⟨⟨?_, Nat.zero_le _, ?_⟩, ?_⟩
  · intro e he
    cases he
  · intro a ha
    cases ha
  · intro _ h
    cases h

theorem read_signature {s r : List UInt8} {e : FileEntry} (h : FileEntry.read s = some (e, r)) :
    e.signature = FileEntry.header_magic := by
  unfold FileEntry.read at h
  split at h
  · dsimp only at h
    split at h
    · next hc =>
      obtain ⟨rfl, -⟩ := Prod.mk.inj (Option.some.inj h)
      exact hc.1
    · cases h
  · cases h

theorem readEntries_signature {n : ℕ} {s : List UInt8} {es : List FileEntry} (h : readEntries n s = some es) :
    es.length = n ∧ ∀ e ∈ es, e.signature = FileEntry.header_magic := by
  induction n generalizing s es with
  | zero =>
    obtain rfl := Option.some.inj h
    exact ⟨rfl, fun e he => absurd he List.not_mem_nil⟩
  | succ n ih =>
    obtain ⟨⟨e, r⟩, he, hrest⟩ := Option.bind_eq_some_iff.mp h
    obtain ⟨es', hes', rfl⟩ := Option.map_eq_some_iff.mp hrest
    obtain ⟨hlen, hsig⟩ := ih hes'
    refine ⟨by rw [List.length_cons, hlen], fun d hd => ?_⟩
    rcases List.mem_cons.mp hd with rfl | hd
    · exact read_signature he
    · exact hsig d hd

/-- What `Open` gives. -/
theorem openDirectory_spec {file : List UInt8} {i : ℕ} {load_indexed : Bool} {z : FileZip}
    (h : openDirectory file i load_indexed = some z) : z.file = file ∧ z.adding = none ∧
      z.centralDirectoryModified = false ∧ z.fileEntries.length ≤ 0xffff ∧
      ∀ e ∈ z.fileEntries, e.signature = FileEntry.header_magic := by
  unfold openDirectory at h
  dsimp only at h
  split at h
  · split at h
    · obtain ⟨es, hes, rfl⟩ := Option.map_eq_some_iff.mp h
      obtain ⟨hlen, hsig⟩ := readEntries_signature hes
      have hperm := loaded_perm load_indexed es
      refine ⟨rfl, rfl, rfl, ?_, fun e he => hsig e (hperm.mem_iff.mp he)⟩
      rw [hperm.length_eq, hlen]
      exact Nat.le_of_lt_succ (UInt16.toNat_lt _)
    · obtain rfl := Option.some.inj h
      exact ⟨rfl, rfl, rfl, Nat.zero_le _, fun e he => absurd he List.not_mem_nil⟩
  · cases h

theorem Watched.open {file : List UInt8} {load_indexed : Bool} (h : Watch.open file load_indexed = some w) :
    Watched w := by
  obtain ⟨z, hz, rfl⟩ := Option.map_eq_some_iff.mp h
  unfold openFile at hz
  split at hz
  · cases hz
  · next hlong =>
    obtain ⟨i, hi, hdir⟩ := Option.bind_eq_some_iff.mp hz
    obtain ⟨hfile, hadding, -, hcount, hsig⟩ := openDirectory_spec hdir
    refine ⟨⟨fun e he => .inr (hsig e he), hcount, fun a ha => ?_⟩, fun _ _ => ?_⟩
    · rw [hadding] at ha
      cases ha
    · obtain ⟨z', hz', hperm, hs⟩ := openDirectory_perm false hdir
      have hlive : liveEntries z = z.fileEntries :=
        List.filter_eq_self.mpr fun e he => decide_eq_true (hsig e he ▸ by decide)
      have hrest : restStart z = z.centralDirectoryStart := by
        unfold restStart
        rw [hadding]
      dsimp only
      rw [hlive, hrest, hfile, hi]
      exact ⟨Nat.not_lt.mp hlong, i, z', hi, Nat.min_le_right _ _, hz', hperm, hs, Nat.min_le_left _ _⟩

/-- A call that leaves the live entries as they are, and the mark. -/
theorem Watched.keep {z : FileZip} {b : Bool} (hw : Watched w) (he : Entries z)
    (hlive : liveEntries z = liveEntries w.zip) (hrest : restStart z = restStart w.zip)
    (hmod : z.centralDirectoryModified = w.zip.centralDirectoryModified) :
    Watched ⟨z, w.intact && b && z.file.drop w.base == w.zip.file.drop w.base, w.base⟩ := by
  refine ⟨he, fun hz hi => ?_⟩
  obtain ⟨hi, hfile⟩ := Bool.and_eq_true_iff.mp hi
  obtain ⟨hi, -⟩ := Bool.and_eq_true_iff.mp hi
  have hs := (hw.stored (hmod ▸ hz) hi).congr (beq_iff_eq.mp hfile)
  rwa [← hlive, ← hrest] at hs

/-- A call that marks the directory as modified. -/
theorem Watched.mark {z : FileZip} {b : Bool} {base : ℕ} (he : Entries z) (hmod : z.centralDirectoryModified = true) :
    Watched ⟨z, b, base⟩ :=
  ⟨he, fun hz => by rw [hmod] at hz; cases hz⟩

theorem Entries.snoc {z z' : FileZip} {e : FileEntry} (h : Entries z) (hlt : z.fileEntries.length < 0xffff)
    (he : e.signature = FileEntry.header_magic) (hz : z'.fileEntries = z.fileEntries ++ [e]) (ha : z'.adding = none) :
    Entries z' := by
  constructor
  · intro d hd
    rw [hz] at hd
    rcases List.mem_append.mp hd with hd | hd
    · exact h.signatures d hd
    · exact .inr (List.mem_singleton.mp hd ▸ he)
  · rw [hz, List.length_append, List.length_singleton]
    omega
  · intro a ha'
    rw [ha] at ha'
    cases ha'

/-- `_AddNonZeroFileEntry_Begin`. -/
theorem Watched.begin {b : Bool} {pathname : List UInt8} {size : UInt32} {fileTime fileDate : UInt16} (hw : Watched w)
    (hadding : w.zip.adding = none) :
    let z := addNonZeroFileEntryBegin w.zip pathname size fileTime fileDate
    Watched ⟨z, w.intact && b && z.file.drop w.base == w.zip.file.drop w.base, w.base⟩ := by
  have hrest : restStart w.zip = w.zip.centralDirectoryStart := by
    unfold restStart
    rw [hadding]
  intro z
  rcases addNonZeroFileEntryBegin_cases w.zip pathname size fileTime fileDate with h | ⟨-, hcount, h⟩
  · have hz : z = w.zip := h
    rw [hz]
    exact hw.keep hw.entries rfl rfl rfl
  rcases h with ⟨i, e, hf, heq⟩ | ⟨hf, heq⟩
  · obtain ⟨hget, hfree, -⟩ := findHole_eq_some hf
    have hz : z = _ := heq
    rw [hz]
    refine hw.keep ⟨?_, ?_, ?_⟩ ?_ hrest.symm rfl
    · exact signatures_modify (fun _ => rfl) hw.entries.signatures
    · exact (List.length_modify _ _ _).trans_le hw.entries.count
    · intro a ha
      obtain rfl := Option.some.inj ha
      refine ⟨rfl, (List.length_modify _ _ _).trans_lt hcount, fun j d hj hd => ?_⟩
      obtain rfl := Option.some.inj hj
      change (w.zip.fileEntries.modify _ _)[_]? = _ at hd
      rw [List.getElem?_modify_eq, hget] at hd
      obtain rfl := Option.some.inj hd
      exact hfree
    · refine filter_modify fun d hd => ?_
      rw [hget] at hd
      obtain rfl := Option.some.inj hd
      exact ⟨decide_eq_false (not_not.mpr hfree), decide_eq_false (not_not.mpr hfree)⟩
  · have hz : z = _ := heq
    rw [hz]
    refine hw.keep ⟨hw.entries.signatures, hw.entries.count, fun a ha => ?_⟩ rfl hrest.symm rfl
    obtain rfl := Option.some.inj ha
    exact ⟨rfl, hcount, fun j d hj => by cases hj⟩

/-- `Write`. -/
theorem Watched.write {b : Bool} {a : Adding} {p : List UInt8} (hw : Watched w) (hadding : w.zip.adding = some a) :
    let z := streamWrite w.zip a p
    Watched ⟨z, w.intact && b && z.file.drop w.base == w.zip.file.drop w.base, w.base⟩ := by
  obtain ⟨h1, h2, h3⟩ := hw.entries.adding a hadding
  have hrest : restStart w.zip = if a.holeFromEntry = none then a.centralDirectoryStartOld else w.zip.centralDirectoryStart := by
    unfold restStart
    rw [hadding]
  unfold streamWrite
  dsimp only
  split
  · refine hw.keep ⟨hw.entries.signatures, hw.entries.count, fun a' ha' => ?_⟩ rfl hrest.symm rfl
    obtain rfl := Option.some.inj ha'
    exact ⟨h1, h2, h3⟩
  · exact hw.keep hw.entries rfl rfl rfl

/-- `_AddNonZeroFileEntry_End(false)`. -/
theorem Watched.rollback {b : Bool} {a : Adding} {compression : UInt16} {crc32 sizeOriginal : UInt32} (hw : Watched w)
    (hadding : w.zip.adding = some a) :
    let z := addNonZeroFileEntryRollback w.zip (a.finished compression crc32 sizeOriginal)
    Watched ⟨z, w.intact && b && z.file.drop w.base == w.zip.file.drop w.base, w.base⟩ := by
  obtain ⟨-, -, h3⟩ := hw.entries.adding a hadding
  have hrest : restStart w.zip = if a.holeFromEntry = none then a.centralDirectoryStartOld else w.zip.centralDirectoryStart := by
    unfold restStart
    rw [hadding]
  intro z
  cases hhole : a.holeFromEntry with
  | some i =>
    have hz : z = _ := rollback_hole (a := a.finished compression crc32 sizeOriginal) hhole
    rw [hhole, if_neg (Option.some_ne_none i)] at hrest
    rw [hz]
    refine hw.keep ⟨?_, ?_, ?_⟩ ?_ hrest.symm rfl
    · exact signatures_modify (fun _ => rfl) hw.entries.signatures
    · exact (List.length_modify _ _ _).trans_le hw.entries.count
    · intro a' ha'
      cases ha'
    · refine filter_modify fun d hd => ?_
      have hfree := h3 i d hhole hd
      exact ⟨decide_eq_false (not_not.mpr hfree), decide_eq_false (not_not.mpr hfree)⟩
  | none =>
    have hz : z = _ := rollback_end (a := a.finished compression crc32 sizeOriginal) hhole
    rw [hhole, if_pos rfl] at hrest
    rw [hz]
    exact hw.keep ⟨hw.entries.signatures, hw.entries.count, fun a' ha' => by cases ha'⟩ rfl hrest.symm rfl

/-- `_AddNonZeroFileEntry_End(true)`. -/
theorem Entries.commit {z : FileZip} {a : Adding} (h : Entries z) (compression : UInt16) (crc32 sizeOriginal : UInt32)
    (hadding : z.adding = some a) :
    Entries (addNonZeroFileEntryCommit z (a.finished compression crc32 sizeOriginal)) ∧
      (addNonZeroFileEntryCommit z (a.finished compression crc32 sizeOriginal)).centralDirectoryModified = true := by
  obtain ⟨h1, h2, h3⟩ := h.adding a hadding
  have hc : Entries (committed z (a.finished compression crc32 sizeOriginal).entry) :=
    h.snoc (e := (a.finished compression crc32 sizeOriginal).entry) h2 h1 rfl rfl
  cases hhole : a.holeFromEntry with
  | some i =>
    rw [commit_hole (a := a.finished compression crc32 sizeOriginal) hhole]
    refine ⟨⟨?_, ?_, ?_⟩, rfl⟩
    · exact signatures_modify (fun _ => rfl) hc.signatures
    · exact (List.length_modify _ _ _).trans_le hc.count
    · intro a' ha'
      cases ha'
  | none =>
    rw [commit_end (a := a.finished compression crc32 sizeOriginal) hhole]
    exact ⟨⟨hc.signatures, hc.count, fun a' ha' => by cases ha'⟩, rfl⟩

theorem live_save (z : FileZip) : liveEntries (save z) = liveEntries z ∧
    (save z).centralDirectoryStart = z.centralDirectoryStart ∧ (save z).adding = z.adding ∧
      (save z).fileEntries = z.fileEntries := by
  unfold save
  split
  · exact ⟨rfl, rfl, rfl, rfl⟩
  · exact ⟨rfl, rfl, rfl, rfl⟩

/-- Every call keeps what is known of a session. -/
theorem Watched.step {w' : Watch} {a : Act} (hw : Watched w) (hst : w.step a = some w') :
    Watched w' := by
  obtain ⟨z, hz, rfl⟩ := Option.map_eq_some_iff.mp hst
  cases a with
  | addZero before pathname fileTime fileDate attrib =>
    obtain ⟨hadding, heq⟩ := Option.ite_none_right_eq_some.mp hz
    obtain rfl := Option.some.inj heq
    rw [if_neg (fun h => by cases h.1)]
    rcases addZeroSizedEntry_cases w.zip before pathname fileTime fileDate attrib with h | ⟨hlt, e, hsig, -, h⟩
    · rw [h]
      exact hw.keep hw.entries rfl rfl rfl
    · rw [h]
      exact .mark (hw.entries.snoc hlt hsig rfl hadding) rfl
  | begin pathname size fileTime fileDate =>
    obtain ⟨⟨hadding, -⟩, heq⟩ := Option.ite_none_right_eq_some.mp hz
    obtain rfl := Option.some.inj heq
    rw [if_neg (fun h => by cases h.1)]
    exact hw.begin hadding
  | write p =>
    obtain ⟨a, ha, hp⟩ := Option.bind_eq_some_iff.mp hz
    obtain ⟨-, heq⟩ := Option.ite_none_right_eq_some.mp hp
    obtain rfl := Option.some.inj heq
    rw [if_neg (fun h => by cases h.1)]
    exact hw.write ha
  | finish compression crc32 sizeOriginal commit =>
    obtain ⟨a, ha, rfl⟩ := Option.map_eq_some_iff.mp hz
    rw [if_neg (fun h => by cases h.1)]
    cases commit with
    | true =>
      obtain ⟨he, hmod⟩ := hw.entries.commit compression crc32 sizeOriginal ha
      exact .mark he hmod
    | false => exact hw.rollback ha
  | remove idx =>
    obtain ⟨⟨hadding, -⟩, heq⟩ := Option.ite_none_right_eq_some.mp hz
    obtain rfl := Option.some.inj heq
    rw [if_neg (fun h => by cases h.1)]
    refine ⟨⟨?_, (List.length_modify _ _ _).trans_le hw.entries.count, fun a ha => ?_⟩, fun _ hi => ?_⟩
    · intro e he
      rcases mem_modify he with he | ⟨d, -, rfl⟩
      · exact hw.entries.signatures e he
      · exact .inl rfl
    · change w.zip.adding = _ at ha
      rw [hadding] at ha
      cases ha
    · obtain ⟨hi, -⟩ := Bool.and_eq_true_iff.mp hi
      obtain ⟨-, hi⟩ := Bool.and_eq_true_iff.mp hi
      cases hi
  | save =>
    obtain ⟨hadding, heq⟩ := Option.ite_none_right_eq_some.mp hz
    obtain rfl := Option.some.inj heq
    obtain ⟨hlive, hstart, hidle, hes⟩ := live_save w.zip
    by_cases hmod : w.zip.centralDirectoryModified = true
    · rw [if_pos ⟨rfl, hmod⟩]
      have hrest : restStart (save w.zip) = w.zip.centralDirectoryStart := by
        unfold restStart
        rw [hidle, hadding, hstart]
      have hfile : (save w.zip).file = writeAt w.zip.file w.zip.centralDirectoryStart.toNat (directory w.zip) := by
        unfold save
        rw [if_pos hmod]
      refine ⟨⟨?_, ?_, fun a ha => ?_⟩, fun _ hfits => ?_⟩
      · rw [hes]
        exact hw.entries.signatures
      · rw [hes]
        exact hw.entries.count
      · rw [hidle, hadding] at ha
        cases ha
      · dsimp only
        rw [hlive, hrest, hstart, hfile]
        exact opensAs_written (of_decide_eq_true hfits) hw.entries.count hw.entries.signatures
    · rw [if_neg (fun h => hmod h.2)]
      have hsame : save w.zip = w.zip := by
        unfold save
        rw [if_neg hmod]
      rw [hsame]
      exact hw.keep hw.entries rfl rfl rfl

/-- Opened again, the file that `Close` leaves has the live entries, and the start of the directory as it was. -/
def Reopened (z : FileZip) : Prop :=
  ∀ load_indexed, ∃ z', openFile (Zip.close z) load_indexed = some z' ∧ z'.fileEntries.Perm (liveEntries z) ∧
    z'.centralDirectoryStart = z.centralDirectoryStart

theorem Watched.close (hw : Watched w) (hc : ClosesWell w) : Reopened w.zip := by
  intro load_indexed
  have hgood := hc.good
  unfold Zip.close save
  by_cases hmod : w.zip.centralDirectoryModified = true
  · rw [if_pos hmod] at hgood ⊢
    exact (opensAs_written hgood hw.entries.count hw.entries.signatures).openFile load_indexed
  · rw [if_neg hmod] at hgood ⊢
    have hrest : restStart w.zip = w.zip.centralDirectoryStart := by
      unfold restStart
      rw [hc.idle]
    have h := (hw.stored (Bool.eq_false_iff.mpr hmod) hgood).openFile load_indexed
    rwa [hrest] at h

/-- How a session begins. -/
def Begins (w : Watch) : Prop := w = Watch.create ∨ ∃ file load_indexed, Watch.open file load_indexed = some w

/-- **An archive is the same when it is opened again.** For every session, on any file that is an archive or on a new
one, at whose end the directory is marked as modified and will be found again, or the one in the file is still good: the
file that `Close` leaves opens, with the live entries and the start of the directory as they were. -/
theorem reopened_of_closesWell {w₀ w : Watch} (h₀ : Begins w₀) (h : Reachable Watch.step anyStep w₀ w)
    (hc : ClosesWell w) : Reopened w.zip := by
  have hw₀ : Watched w₀ := by
    rcases h₀ with rfl | ⟨file, load_indexed, hopen⟩
    · exact Watched.create
    · exact Watched.open hopen
  have hw : Watched w := h.invariant hw₀ fun _ _ _ hi _ hst => hi.step hst
  exact hw.close hc

/-- Two entries, a directory that is written, the removal of one, and an empty entry. -/
def kept : List Act :=
  [.begin [0x61] 3 0 0, .write [1, 2, 3], .finish 0 7 3 true, .addZero 0 [0x62] 0 0 FILE_ATTRIBUTE_ARCHIVE, .save,
    .remove 0, .addZero 0 [0x63] 0 0 FILE_ATTRIBUTE_DIRECTORY]

theorem reopened_kept : ∃ w, run Watch.step .create kept = some w ∧ Reopened w.zip := by
  have hrun : (run Watch.step .create kept).map
      (fun w => (w.zip.adding, w.zip.centralDirectoryModified, decide (DirectoryFits w.zip))) =
        some (none, true, true) := by decide +kernel
  obtain ⟨w, hw, hv⟩ := Option.map_eq_some_iff.mp hrun
  simp only [Prod.mk.injEq] at hv
  have hc : ClosesWell w := ⟨hv.1, by rw [hv.2.1]; exact of_decide_eq_true hv.2.2⟩
  exact ⟨w, hw, reopened_of_closesWell (.inl rfl) (reachable_of_run kept hw) hc⟩

/-! ### What is not found again -/

/-- A file that opens with another number of entries. -/
theorem not_reopened {z z' : FileZip} (h : openFile (Zip.close z) false = some z')
    (hn : z'.fileEntries.length ≠ (liveEntries z).length) : ¬ Reopened z := by
  intro hz
  obtain ⟨z'', h'', hperm, -⟩ := hz false
  rw [h] at h''
  obtain rfl := Option.some.inj h''
  exact hn hperm.length_eq

/-- An empty entry, a directory that is written, and the removal of the entry. -/
def removal : List Act := [.addZero 0 [0x61] 0 0 FILE_ATTRIBUTE_ARCHIVE, .save, .remove 0]

/-- `RemoveFile` does not mark the directory as modified, and the entry is there again. -/
theorem not_reopened_of_removal : ¬ ∀ w₀ w, Begins w₀ → Reachable Watch.step anyStep w₀ w → w.zip.adding = none →
    Reopened w.zip := by
  intro h
  have hrun : (run Watch.step .create removal).map (fun w =>
      (w.zip.adding, (openFile (Zip.close w.zip) false).map fun z => z.fileEntries.length, (liveEntries w.zip).length)) =
        some (none, some 1, 0) := by decide +kernel
  obtain ⟨w, hw, hv⟩ := Option.map_eq_some_iff.mp hrun
  simp only [Prod.mk.injEq] at hv
  obtain ⟨hidle, hopen, hlive⟩ := hv
  obtain ⟨z', hz', hlen⟩ := Option.map_eq_some_iff.mp hopen
  exact not_reopened hz' (by rw [hlen, hlive]; decide) (h _ w (.inl rfl) (reachable_of_run removal hw) hidle)

/-- Three empty entries of which two are removed again, between two directories that are written. -/
def shorter : List Act :=
  [.addZero 0 [0x61] 0 0 FILE_ATTRIBUTE_ARCHIVE, .addZero 0 [0x62] 0 0 FILE_ATTRIBUTE_ARCHIVE,
    .addZero 0 [0x63] 0 0 FILE_ATTRIBUTE_ARCHIVE, .save, .remove 0, .remove 1, .addZero 0 [0x64] 0 0 FILE_ATTRIBUTE_ARCHIVE]

/-- An empty entry, a directory that is written, and an entry that is begun and given up. -/
def givenUp : List Act :=
  [.addZero 0 [0x61] 0 0 FILE_ATTRIBUTE_ARCHIVE, .save, .begin [0x62, 0x63] 1 0 0, .finish 0 0 1 false]

/-- A file that does not open. -/
theorem not_reopened_of_none {acts : List Act}
    (h : (run Watch.step .create acts).map (fun w => openFile (Zip.close w.zip) false) = some none) :
    ∃ w, run Watch.step .create acts = some w ∧ ¬ Reopened w.zip := by
  obtain ⟨w, hw, hv⟩ := Option.map_eq_some_iff.mp h
  refine ⟨w, hw, fun hz => ?_⟩
  obtain ⟨z', hz', -⟩ := hz false
  rw [hv] at hz'
  cases hz'

/-- The end of the longer directory is behind the shorter one and is found in its place. -/
theorem not_reopened_of_shorter : ∃ w, run Watch.step .create shorter = some w ∧ ¬ Reopened w.zip :=
  not_reopened_of_none (by set_option maxRecDepth 20000 in decide)

/-- The name of the entry that is given up stays in the directory. -/
theorem not_reopened_of_givenUp : ∃ w, run Watch.step .create givenUp = some w ∧ ¬ Reopened w.zip :=
  not_reopened_of_none (by set_option maxRecDepth 20000 in decide)

end

end Cpcf.Os.Zip
