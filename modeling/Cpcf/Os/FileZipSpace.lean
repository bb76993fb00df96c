import Cpcf.Lib.Regions
import Cpcf.Os.FileZip

/-!
The space of an archive: where the data of its entries lies, and the holes that removed entries leave.

Each entry that has data has a stretch of the file, below the central directory, and keeps it as a hole when it is
removed. A begun entry takes the front of a hole, or grows the file; what it does not need in the end it gives back.
-/

namespace Cpcf.Os.Zip

open Cpcf.Lib Cpcf.Lib.Regions Cpcf.Lib.Run

/-! ### Stretches of the file -/

namespace FileEntry

/-- The header, the name and the data of a live entry; what a removed one has left. -/
def region (e : FileEntry) : Span where
  pos := e.offsetToLocalFileHeader.toNat
  stop := e.offsetToLocalFileHeader.toNat +
    if e.signature = 0 then e.size.toNat else 30 + e.fileName.1.length + e.size.toNat

/-- The entry is a hole, or it is live and not empty. -/
def HoldsSpace (e : FileEntry) : Prop := e.signature = 0 ∨ e.size ≠ 0

variable {e : FileEntry} {n m : UInt32}

theorem region_live (h : e.signature ≠ 0) :
    e.region = ⟨e.offsetToLocalFileHeader.toNat, e.offsetToLocalFileHeader.toNat + (30 + e.fileName.1.length + e.size.toNat)⟩ := by
  unfold region
  rw [if_neg h]

theorem region_hole (h : e.signature = 0) :
    e.region = ⟨e.offsetToLocalFileHeader.toNat, e.offsetToLocalFileHeader.toNat + e.size.toNat⟩ := by
  unfold region
  rw [if_pos h]

/-- A removed entry keeps its place as a hole. -/
theorem region_remove (h : e.signature ≠ 0) (hlt : e.region.stop < 2 ^ 32) : e.remove.region = e.region := by
  have hname := e.fileName.2
  rw [region_live h] at hlt ⊢
  rw [region_hole rfl]
  simp only [remove, UInt32.toNat_add, UInt16.toNat_toUInt32, Text.toNat_size, show (30 : UInt32).toNat = 30 from rfl]
  congr 2
  dsimp only at hlt
  omega

/-- The front of a hole is taken. -/
theorem region_takeFront (h : e.signature = 0) (hlt : e.region.stop < 2 ^ 32) (hn : n.toNat ≤ e.size.toNat) :
    (e.takeFront n).region = ⟨e.region.pos + n.toNat, e.region.stop⟩ := by
  have hregion := region_hole (e := e.takeFront n) h
  rw [region_hole h] at hlt ⊢
  rw [hregion]
  dsimp only at hlt
  simp only [takeFront, UInt32.toNat_add, UInt32.toNat_sub_of_le e.size n hn]
  rw [Nat.mod_eq_of_lt (by omega)]
  congr 1
  omega

/-- Some of it is given back. -/
theorem giveFront_takeFront : (e.takeFront n).giveFront m = e.takeFront (n - m) := by
  unfold giveFront takeFront
  congr 1
  · grind
  · grind

theorem giveFront_self : (e.takeFront n).giveFront n = e := by
  unfold giveFront takeFront
  rw [UInt32.sub_add_cancel, UInt32.add_sub_cancel]

end FileEntry

/-! ### Sessions -/

/-- A session, with a note for each entry whether it was given a place in the file. -/
structure Session where
  zip : FileZip
  placed : List Bool
  deriving DecidableEq

/-- A new archive. -/
def Session.start : Session := ⟨create, []⟩

/-- One call. The entries of `AddZeroSizedEntry` get no place. -/
def Session.step (s : Session) (a : Act) : Option Session :=
  (Zip.step s.zip a).map fun z =>
    let isPlaced := match a with
      | .addZero .. => false
      | _ => true
    ⟨z, s.placed ++ List.replicate (z.fileEntries.length - s.placed.length) isPlaced⟩

/-- The sums that `_AddNonZeroFileEntry_Begin` makes do not exceed 32 bits. -/
def SumsFit (z : FileZip) (pathname : List UInt8) (size : UInt32) : Prop :=
  let LFlen := UInt32.ofNat (30 + pathname.length) + size
  pathname.length ≤ 0xffff → z.fileEntries.length < 0xffff → 30 + pathname.length + size.toNat < 2 ^ 32 ∧
    (findHole LFlen z.fileEntries = none → z.centralDirectoryStart.toNat + LFlen.toNat < 2 ^ 32)

/-- A call for which the space is kept: no 32-bit sum is cut, and an entry is removed only if it has a place. -/
def KeepsSpace (s : Session) : Act → Prop
  | .begin pathname size _ _ => SumsFit s.zip pathname size
  | .remove idx => s.placed[idx]? = some true
  | _ => True

instance (z : FileZip) (pathname : List UInt8) (size : UInt32) : Decidable (SumsFit z pathname size) :=
  inferInstanceAs (Decidable (_ → _ → _ ∧ (_ → _)))

instance (s : Session) (a : Act) : Decidable (KeepsSpace s a) := by
  unfold KeepsSpace
  cases a <;> infer_instance

/-- The data of the live entries and the holes lie apart, below the central directory. -/
structure SpaceManaged (z : FileZip) : Prop where
  apart : ∀ (i j : ℕ) (e f : FileEntry), i ≠ j → z.fileEntries[i]? = some e → z.fileEntries[j]? = some f → e.HoldsSpace → f.HoldsSpace →
    Apart e.region f.region
  below : ∀ e ∈ z.fileEntries, e.HoldsSpace → e.region.stop ≤ z.centralDirectoryStart.toNat

/-! ### Entries and their places -/

/-- The place of an entry. -/
def span (placed : Bool) (e : FileEntry) : Span := if placed then e.region else ⟨0, 0⟩

def spans (placed : List Bool) (es : List FileEntry) : List Span := List.zipWith span placed es

/-- The entries have places apart from each other; those without a place are live and empty. -/
structure Ground (placed : List Bool) (es : List FileEntry) (start : ℕ) : Prop where
  length_eq : placed.length = es.length
  unplaced : ∀ (i : ℕ) (e : FileEntry), placed[i]? = some false → es[i]? = some e → e.signature ≠ 0 ∧ e.size = 0
  laid : Laid start (spans placed es)

section

variable {placed : List Bool} {es : List FileEntry} {start start' i : ℕ} {e h : FileEntry}

theorem getElem?_spans {b : Bool} (hb : placed[i]? = some b) (he : es[i]? = some e) :
    (spans placed es)[i]? = some (span b e) := by
  rw [spans, List.getElem?_zipWith, hb, he]

theorem Ground.exists_placed (g : Ground placed es start) (he : es[i]? = some e) : ∃ b, placed[i]? = some b := by
  have hi := (List.getElem?_eq_some_iff.mp he).1
  rw [← g.length_eq] at hi
  exact ⟨_, List.getElem?_eq_getElem hi⟩

/-- What holds space has a place. -/
theorem Ground.placed_of_holdsSpace (g : Ground placed es start) (he : es[i]? = some e) (hs : e.HoldsSpace) :
    placed[i]? = some true := by
  obtain ⟨b, hb⟩ := g.exists_placed he
  cases b with
  | true => exact hb
  | false =>
    obtain ⟨h1, h2⟩ := g.unplaced i e hb he
    rcases hs with hs | hs
    · exact absurd hs h1
    · exact absurd h2 hs

theorem span_of_placed (he : es[i]? = some e) (hp : placed[i]? = some true) :
    (spans placed es)[i]? = some e.region := getElem?_spans hp he

/-- A place ends below the limit. -/
theorem Ground.stop_le (g : Ground placed es start) (he : es[i]? = some e) (hp : placed[i]? = some true) :
    e.region.stop ≤ start := g.laid.below i _ (span_of_placed he hp)

theorem Ground.mono (g : Ground placed es start) (hs : start ≤ start') : Ground placed es start' :=
  ⟨g.length_eq, g.unplaced, g.laid.mono hs⟩

/-- One entry is changed and keeps a part of its place. -/
theorem spans_modify {f : FileEntry → FileEntry} (he : es[i]? = some e) (hp : placed[i]? = some true) :
    spans placed (es.modify i f) = (spans placed es).set i (f e).region := by
  apply List.ext_getElem?
  intro j
  by_cases hij : i = j
  · subst hij
    have hlen := (List.getElem?_eq_some_iff.mp (span_of_placed he hp)).1
    rw [List.getElem?_set_self hlen]
    refine span_of_placed ?_ hp
    rw [List.getElem?_modify_eq, he]
    rfl
  · rw [List.getElem?_set_ne hij, spans, spans, List.getElem?_zipWith, List.getElem?_zipWith,
      List.getElem?_modify_ne _ _ hij]

theorem Ground.modify {f : FileEntry → FileEntry} (g : Ground placed es start) (he : es[i]? = some e)
    (hp : placed[i]? = some true) (hl : Laid start' ((spans placed es).set i (f e).region)) :
    Ground placed (es.modify i f) start' := by
  refine ⟨by rw [List.length_modify]; exact g.length_eq, ?_, by rwa [spans_modify he hp]⟩
  intro j d hj hd
  by_cases hij : i = j
  · subst hij
    rw [hp] at hj
    cases hj
  · rw [List.getElem?_modify_ne _ _ hij] at hd
    exact g.unplaced j d hj hd

/-- One more entry, with its place. -/
theorem Ground.snoc {b : Bool} (g : Ground placed es start) (he : b = false → e.signature ≠ 0 ∧ e.size = 0)
    (hl : Laid start' (spans placed es ++ [span b e])) : Ground (placed ++ [b]) (es ++ [e]) start' := by
  constructor
  · rw [List.length_append, List.length_append, g.length_eq]
    rfl
  · intro i d hi hd
    rcases Nat.lt_or_ge i es.length with hlt | hge
    · rw [List.getElem?_append_left hlt] at hd
      rw [List.getElem?_append_left (g.length_eq ▸ hlt)] at hi
      exact g.unplaced i d hi hd
    · rw [List.getElem?_append_right hge] at hd
      rw [List.getElem?_append_right (g.length_eq ▸ hge), g.length_eq] at hi
      have hb := List.mem_singleton.mp (List.mem_of_getElem? hi)
      have hde := List.mem_singleton.mp (List.mem_of_getElem? hd)
      exact hde ▸ he hb.symm
  · rwa [spans, List.zipWith_append g.length_eq]

/-- The places give what is said of the data and the holes. -/
theorem Ground.spaceManaged {z : FileZip} (g : Ground placed z.fileEntries z.centralDirectoryStart.toNat) :
    SpaceManaged z := by
  constructor
  · intro i j e f hij he hf hse hsf
    exact g.laid.apart i j _ _ hij (span_of_placed he (g.placed_of_holdsSpace he hse))
      (span_of_placed hf (g.placed_of_holdsSpace hf hsf))
  · intro e he hse
    obtain ⟨i, hi⟩ := List.getElem?_of_mem he
    exact g.stop_le hi (g.placed_of_holdsSpace hi hse)

end

/-! ### The invariant -/

/-- What is known of an entry that is being added. -/
structure Claims (a : Adding) : Prop where
  taken : a.holeTakenSize.toNat = 30 + a.entry.fileName.1.length + a.claimedSize.toNat
  written : a.written.toNat ≤ a.claimedSize.toNat
  live : a.entry.signature ≠ 0

/-- Entries and limit as they were before the entry was begun that is being added. -/
inductive Inv (s : Session) : Prop
  /-- No entry is being added. -/
  | idle (hadding : s.zip.adding = none)
      (hground : Ground s.placed s.zip.fileEntries s.zip.centralDirectoryStart.toNat)
  /-- The entry has the front of a hole. -/
  | tookHole (a : Adding) (es : List FileEntry) (i : ℕ) (h : FileEntry) (hadding : s.zip.adding = some a)
      (hclaims : Claims a) (hhole : a.holeFromEntry = some i)
      (hground : Ground s.placed es s.zip.centralDirectoryStart.toNat) (hget : es[i]? = some h) (hfree : h.signature = 0)
      (hlarge : a.holeTakenSize.toNat ≤ h.size.toNat)
      (hoffset : a.entry.offsetToLocalFileHeader = h.offsetToLocalFileHeader)
      (hentries : s.zip.fileEntries = es.modify i (FileEntry.takeFront a.holeTakenSize))
  /-- The file has grown for the entry. -/
  | tookEnd (a : Adding) (hadding : s.zip.adding = some a) (hclaims : Claims a) (hhole : a.holeFromEntry = none)
      (hground : Ground s.placed s.zip.fileEntries a.centralDirectoryStartOld.toNat)
      (hstart : s.zip.centralDirectoryStart.toNat = a.centralDirectoryStartOld.toNat + a.holeTakenSize.toNat)
      (hoffset : a.entry.offsetToLocalFileHeader = a.centralDirectoryStartOld)

theorem Ground.takeFront {placed : List Bool} {es : List FileEntry} {start : UInt32} {i : ℕ} {h : FileEntry} {n : UInt32}
    (g : Ground placed es start.toNat) (hget : es[i]? = some h) (hfree : h.signature = 0)
    (hlarge : n.toNat ≤ h.size.toNat) :
    Ground placed (es.modify i (FileEntry.takeFront n)) start.toNat := by
  have hp := g.placed_of_holdsSpace hget (.inl hfree)
  have hstop := (g.stop_le hget hp).trans_lt start.toNat_lt
  refine g.modify hget hp ?_
  rw [FileEntry.region_takeFront hfree hstop hlarge]
  exact g.laid.shrink (span_of_placed hget hp) ⟨Nat.le_add_right _ _, le_rfl⟩

/-- At any time the entries of the archive have their places. -/
theorem Inv.ground {s : Session} (hi : Inv s) :
    Ground s.placed s.zip.fileEntries s.zip.centralDirectoryStart.toNat := by
  cases hi with
  | idle _ hground => exact hground
  | tookHole a es i h _ _ _ hground hget hfree hlarge _ hentries =>
    rw [hentries]
    exact hground.takeFront hget hfree hlarge
  | tookEnd a _ _ _ hground hstart _ => exact hground.mono (by omega)

theorem Inv.start : Inv Session.start := by
  refine .idle rfl ⟨rfl, ?_, Laid.nil⟩
  intro i e h
  cases h

/-! ### What the calls do -/

section

variable {s : Session} {z : FileZip}

/-- A new entry claims its header, its name and its data. -/
theorem claims_newEntry {pathname : List UInt8} {LFlen size start_old offset base : UInt32} {fileTime fileDate : UInt16}
    {hole : Option ℕ} (hname : pathname.length ≤ 0xffff) (hlen : LFlen.toNat = 30 + pathname.length + size.toNat) :
    Claims ⟨newEntry pathname size fileTime fileDate offset, hole, LFlen, start_old, size, base, 0⟩ := by
  refine ⟨?_, Nat.zero_le _, show FileEntry.header_magic ≠ 0 by decide⟩
  change LFlen.toNat = 30 + ((replaceSlashes pathname).take (UInt16.ofNat pathname.length).toNat).length + size.toNat
  rw [List.length_take, replaceSlashes, List.length_map, UInt16.toNat_ofNat_of_lt' (Nat.lt_succ_of_le hname),
    Nat.min_self]
  exact hlen

/-- `_AddNonZeroFileEntry_Begin`. -/
theorem Inv.begin {pathname : List UInt8} {size : UInt32} {fileTime fileDate : UInt16} (hi : Inv s) (hfit : SumsFit s.zip pathname size) :
    Inv ⟨addNonZeroFileEntryBegin s.zip pathname size fileTime fileDate, s.placed⟩ := by
  have hground := hi.ground
  rcases addNonZeroFileEntryBegin_cases s.zip pathname size fileTime fileDate with h | ⟨hname, hcount, h⟩
  · rw [h]
    exact hi
  obtain ⟨hsum, hnone⟩ := hfit hname hcount
  have hlen : (UInt32.ofNat (30 + pathname.length) + size).toNat = 30 + pathname.length + size.toNat := by
    rw [UInt32.toNat_add, UInt32.toNat_ofNat_of_lt' (show 30 + pathname.length < 2 ^ 32 by omega)]
    exact Nat.mod_eq_of_lt hsum
  rcases h with ⟨i, h, hf, heq⟩ | ⟨hf, heq⟩
  · obtain ⟨hget, hfree, hlarge⟩ := findHole_eq_some hf
    rw [heq]
    exact .tookHole _ s.zip.fileEntries i h rfl (claims_newEntry hname hlen) rfl hground hget hfree hlarge rfl rfl
  · have hstart := hnone hf
    rw [heq]
    refine .tookEnd _ rfl (claims_newEntry hname hlen) rfl hground ?_ rfl
    rw [UInt32.toNat_add]
    exact Nat.mod_eq_of_lt hstart

/-- `Write`. -/
theorem Inv.write {a : Adding} {p : List UInt8} (hi : Inv s) (hadding : s.zip.adding = some a) :
    Inv ⟨streamWrite s.zip a p, s.placed⟩ := by
  unfold streamWrite
  dsimp only
  split
  · next hle =>
    cases hi with
    | idle hnone _ =>
      rw [hnone] at hadding
      cases hadding
    | tookHole b es i h hb hclaims hhole hground hget hfree hlarge hoffset hentries =>
      obtain rfl : b = a := Option.some.inj (hb.symm.trans hadding)
      exact .tookHole _ es i h rfl ⟨hclaims.taken, hle, hclaims.live⟩ hhole hground hget hfree hlarge hoffset hentries
    | tookEnd b hb hclaims hhole hground hstart hoffset =>
      obtain rfl : b = a := Option.some.inj (hb.symm.trans hadding)
      exact .tookEnd _ rfl ⟨hclaims.taken, hle, hclaims.live⟩ hhole hground hstart hoffset
  · exact hi

/-- What the entry has, and what it gives back, are what was taken. -/
theorem Claims.saved {a : Adding} (hc : Claims a) (hsize : a.entry.size.toNat ≤ a.claimedSize.toNat) :
    (a.claimedSize - a.entry.size).toNat + (30 + a.entry.fileName.1.length + a.entry.size.toNat) =
      a.holeTakenSize.toNat := by
  rw [hc.taken, UInt32.toNat_sub_of_le _ _ hsize]
  omega

theorem modify_append_of_lt {es fs : List FileEntry} {i : ℕ} (f : FileEntry → FileEntry) (hi : i < es.length) :
    (es ++ fs).modify i f = es.modify i f ++ fs := by
  rw [List.modify_eq_take_cons_drop (by rw [List.length_append]; omega), List.modify_eq_take_cons_drop hi,
    List.take_append_of_le_length hi.le, List.drop_append_of_le_length hi, List.getElem_append_left hi,
    List.append_assoc, List.cons_append]

/-- An entry in a hole stays there, and the hole begins behind what it keeps. -/
theorem Ground.commit_hole {placed : List Bool} {a : Adding} {es : List FileEntry} {start : UInt32} {i : ℕ}
    {h : FileEntry} (hc : Claims a) (hsize : a.entry.size.toNat ≤ a.claimedSize.toNat)
    (g : Ground placed es start.toNat) (hget : es[i]? = some h) (hfree : h.signature = 0)
    (hlarge : a.holeTakenSize.toNat ≤ h.size.toNat)
    (hoffset : a.entry.offsetToLocalFileHeader = h.offsetToLocalFileHeader) :
    Ground (placed ++ [true])
      (es.modify i (FileEntry.takeFront (a.holeTakenSize - (a.claimedSize - a.entry.size))) ++ [a.entry])
      start.toNat := by
  have hsaved := hc.saved hsize
  have hp := g.placed_of_holdsSpace hget (.inl hfree)
  have hplace := span_of_placed hget hp
  have hstop := (g.stop_le hget hp).trans_lt start.toNat_lt
  have hkept : (a.holeTakenSize - (a.claimedSize - a.entry.size)).toNat =
      30 + a.entry.fileName.1.length + a.entry.size.toNat := by
    rw [UInt32.toNat_sub_of_le _ _ (UInt32.le_iff_toNat_le.mpr (by omega))]
    omega
  have hless : (a.holeTakenSize - (a.claimedSize - a.entry.size)).toNat ≤ h.size.toNat := by omega
  refine (g.takeFront hget hfree hless).snoc (fun hb => Bool.noConfusion hb) ?_
  have hregion : span true a.entry = ⟨h.region.pos, h.region.pos + (30 + a.entry.fileName.1.length + a.entry.size.toNat)⟩ := by
    change a.entry.region = _
    rw [FileEntry.region_live hc.live, hoffset]
    rfl
  rw [spans_modify hget hp, FileEntry.region_takeFront hfree hstop hless, hkept, hregion]
  have hlen : h.region.stop = h.region.pos + h.size.toNat := by rw [FileEntry.region_hole hfree]
  exact g.laid.split hplace (Nat.le_add_right _ _) (by omega)

/-- `_AddNonZeroFileEntry_End(true)`. -/
theorem Inv.commit {placed : List Bool} {a : Adding} (hi : Inv ⟨{ z with adding := some a }, placed⟩)
    (hsize : a.entry.size.toNat ≤ a.claimedSize.toNat) :
    Inv ⟨addNonZeroFileEntryCommit z a, placed ++ [true]⟩ := by
  cases hi with
  | idle hnone _ => cases hnone
  | tookHole b es i h hb hclaims hhole hground hget hfree hlarge hoffset hentries =>
    obtain rfl : b = a := (Option.some.inj hb).symm
    have hlt : i < (es.modify i (FileEntry.takeFront b.holeTakenSize)).length := by
      rw [List.length_modify]
      exact (List.getElem?_eq_some_iff.mp hget).1
    have hg := hground.commit_hole hclaims hsize hget hfree hlarge hoffset
    have hcomp : FileEntry.giveFront (b.claimedSize - b.entry.size) ∘ FileEntry.takeFront b.holeTakenSize =
        FileEntry.takeFront (b.holeTakenSize - (b.claimedSize - b.entry.size)) :=
      funext fun e => FileEntry.giveFront_takeFront
    rw [Zip.commit_hole hhole]
    refine .idle rfl ?_
    change Ground _ ((z.fileEntries ++ [b.entry]).modify i _) _
    change z.fileEntries = _ at hentries
    rw [hentries, modify_append_of_lt _ hlt, List.modify_modify_eq, hcomp]
    exact hg
  | tookEnd b hb hclaims hhole hground hstart hoffset =>
    obtain rfl : b = a := (Option.some.inj hb).symm
    have hsaved := hclaims.saved hsize
    change z.centralDirectoryStart.toNat = _ at hstart
    have hend : (z.centralDirectoryStart - (b.claimedSize - b.entry.size)).toNat =
        b.centralDirectoryStartOld.toNat + (30 + b.entry.fileName.1.length + b.entry.size.toNat) := by
      rw [UInt32.toNat_sub_of_le _ _ (UInt32.le_iff_toNat_le.mpr (by omega))]
      omega
    have hregion : span true b.entry = ⟨b.centralDirectoryStartOld.toNat,
        b.centralDirectoryStartOld.toNat + (30 + b.entry.fileName.1.length + b.entry.size.toNat)⟩ := by
      change b.entry.region = _
      rw [FileEntry.region_live hclaims.live, hoffset]
    rw [commit_end hhole]
    refine .idle rfl (hground.snoc (fun hf => Bool.noConfusion hf) ?_)
    rw [hregion]
    change Laid (z.centralDirectoryStart - (b.claimedSize - b.entry.size)).toNat _
    rw [hend]
    exact hground.laid.grow (Nat.le_add_right _ _)

/-- `_AddNonZeroFileEntry_End(false)`. -/
theorem Inv.rollback {placed : List Bool} {a : Adding} (hi : Inv ⟨{ z with adding := some a }, placed⟩) :
    Inv ⟨addNonZeroFileEntryRollback z a, placed⟩ := by
  cases hi with
  | idle hnone _ => cases hnone
  | tookHole b es i h hb hclaims hhole hground hget hfree hlarge hoffset hentries =>
    obtain rfl : b = a := (Option.some.inj hb).symm
    have hcomp : FileEntry.giveFront b.holeTakenSize ∘ FileEntry.takeFront b.holeTakenSize = id :=
      funext fun e => FileEntry.giveFront_self
    rw [rollback_hole hhole]
    refine .idle rfl ?_
    change Ground _ (z.fileEntries.modify i _) _
    change z.fileEntries = _ at hentries
    rw [hentries, List.modify_modify_eq, hcomp, List.modify_id]
    exact hground
  | tookEnd b hb hclaims hhole hground hstart hoffset =>
    obtain rfl : b = a := (Option.some.inj hb).symm
    rw [rollback_end hhole]
    exact .idle rfl hground

/-- What is written to the entry before its end does not matter for its place. -/
theorem Inv.finished {a : Adding} (hi : Inv s) (compression : UInt16) (crc32 sizeOriginal : UInt32)
    (hadding : s.zip.adding = some a) :
    Inv ⟨{ s.zip with adding := some (a.finished compression crc32 sizeOriginal) }, s.placed⟩ ∧
      a.written.toNat ≤ a.claimedSize.toNat := by
  cases hi with
  | idle hnone _ =>
    rw [hnone] at hadding
    cases hadding
  | tookHole b es i h hb hclaims hhole hground hget hfree hlarge hoffset hentries =>
    obtain rfl : b = a := Option.some.inj (hb.symm.trans hadding)
    exact ⟨.tookHole _ es i h rfl ⟨hclaims.taken, hclaims.written, hclaims.live⟩ hhole hground hget hfree hlarge hoffset
      hentries, hclaims.written⟩
  | tookEnd b hb hclaims hhole hground hstart hoffset =>
    obtain rfl : b = a := Option.some.inj (hb.symm.trans hadding)
    exact ⟨.tookEnd _ rfl ⟨hclaims.taken, hclaims.written, hclaims.live⟩ hhole hground hstart hoffset, hclaims.written⟩

/-- `RemoveFile` of an entry with a place. -/
theorem Inv.remove {idx : ℕ} {e : FileEntry} (hi : Inv s) (hadding : s.zip.adding = none)
    (he : s.zip.fileEntries[idx]? = some e) (hlive : e.signature ≠ 0) (hp : s.placed[idx]? = some true) :
    Inv ⟨removeFile s.zip idx, s.placed⟩ := by
  have g := hi.ground
  have hstop := (g.stop_le he hp).trans_lt s.zip.centralDirectoryStart.toNat_lt
  refine .idle hadding (g.modify he hp ?_)
  rw [FileEntry.region_remove hlive hstop]
  exact g.laid.shrink (span_of_placed he hp) ⟨le_rfl, le_rfl⟩

/-- `AddZeroSizedEntry`. -/
theorem Inv.addZero {before : UInt8} {pathname : List UInt8} {fileTime fileDate : UInt16} {attrib : UInt32} (hi : Inv s)
    (hadding : s.zip.adding = none) :
    let z := addZeroSizedEntry s.zip before pathname fileTime fileDate attrib
    Inv ⟨z, s.placed ++ List.replicate (z.fileEntries.length - s.placed.length) false⟩ := by
  have g := hi.ground
  rcases addZeroSizedEntry_cases s.zip before pathname fileTime fileDate attrib with h | ⟨-, e, hsig, hsize, h⟩
  · rw [h]
    dsimp only
    rw [g.length_eq, Nat.sub_self, List.replicate_zero, List.append_nil]
    exact hi
  · rw [h]
    dsimp only
    rw [g.length_eq, List.length_append, Nat.add_sub_cancel_left]
    exact .idle hadding (g.snoc (fun _ => ⟨hsig ▸ by decide, hsize⟩) g.laid.snoc_empty)

/-- The notes grow with the entries. -/
theorem Inv.noted {placed : List Bool} {b : Bool} (k : ℕ) (hi : Inv ⟨z, placed ++ List.replicate k b⟩) :
    Inv ⟨z, placed ++ List.replicate (z.fileEntries.length - placed.length) b⟩ := by
  have h : (placed ++ List.replicate k b).length = z.fileEntries.length := hi.ground.length_eq
  rw [List.length_append, List.length_replicate] at h
  rw [← h, Nat.add_sub_cancel_left]
  exact hi

theorem Inv.noted_nil {placed : List Bool} {b : Bool} (hi : Inv ⟨z, placed⟩) :
    Inv ⟨z, placed ++ List.replicate (z.fileEntries.length - placed.length) b⟩ :=
  Inv.noted 0 (by rwa [List.replicate_zero, List.append_nil])

/-- Every call that keeps the space keeps the invariant. -/
theorem Inv.step {t : Session} {a : Act} (hi : Inv s) (hok : KeepsSpace s a) (hst : s.step a = some t) : Inv t := by
  obtain ⟨z, hz, rfl⟩ := Option.map_eq_some_iff.mp hst
  cases a with
  | addZero before pathname fileTime fileDate attrib =>
    obtain ⟨hadding, heq⟩ := Option.ite_none_right_eq_some.mp hz
    obtain rfl := Option.some.inj heq
    exact hi.addZero hadding
  | begin pathname size fileTime fileDate =>
    obtain ⟨-, heq⟩ := Option.ite_none_right_eq_some.mp hz
    obtain rfl := Option.some.inj heq
    exact (hi.begin hok).noted_nil
  | write p =>
    obtain ⟨a, ha, hw⟩ := Option.bind_eq_some_iff.mp hz
    obtain ⟨-, heq⟩ := Option.ite_none_right_eq_some.mp hw
    obtain rfl := Option.some.inj heq
    exact (hi.write ha).noted_nil
  | finish compression crc32 sizeOriginal commit =>
    obtain ⟨a, ha, rfl⟩ := Option.map_eq_some_iff.mp hz
    obtain ⟨hf, hwritten⟩ := hi.finished compression crc32 sizeOriginal ha
    cases commit with
    | true => exact Inv.noted 1 (hf.commit hwritten)
    | false => exact hf.rollback.noted_nil
  | remove idx =>
    obtain ⟨⟨hadding, e, he, hlive⟩, heq⟩ := Option.ite_none_right_eq_some.mp hz
    obtain rfl := Option.some.inj heq
    exact (hi.remove hadding he hlive hok).noted_nil
  | save =>
    obtain ⟨hadding, heq⟩ := Option.ite_none_right_eq_some.mp hz
    obtain rfl := Option.some.inj heq
    have g := hi.ground
    refine Inv.noted_nil (.idle ?_ ?_)
    · change (Zip.save s.zip).adding = none
      unfold Zip.save
      split <;> exact hadding
    · change Ground s.placed (Zip.save s.zip).fileEntries (Zip.save s.zip).centralDirectoryStart.toNat
      unfold Zip.save
      split <;> exact g

end

/-- **The space of an archive is kept apart.** In every session on a new archive that removes no entry of
`AddZeroSizedEntry`, and begins no entry for which a 32-bit sum of `_AddNonZeroFileEntry_Begin` is cut, the data of the
live entries and the holes of the removed ones lie apart, below the central directory, after every call. -/
theorem space_managed_of_keepsSpace {s : Session} (h : Reachable Session.step KeepsSpace .start s) :
    SpaceManaged s.zip := by
  have hi : Inv s := h.invariant Inv.start fun _ _ _ hi hok hst => hi.step hok hst
  exact hi.ground.spaceManaged

/-- An entry, its removal, and one that takes a part of the hole. -/
def reuse : List Act :=
  [.begin [0x61] 8 0 0, .write [1, 2, 3, 4, 5, 6, 7, 8], .finish 0 0 8 true, .begin [0x62] 2 0 0, .write [1, 2],
    .finish 0 0 2 true, .remove 0, .begin [0x63] 4 0 0, .write [1], .finish 0 0 1 true, .save]

theorem space_managed_reuse : ∃ s : Session, run Session.step .start reuse = some s ∧ SpaceManaged s.zip ∧
    s.zip.fileEntries.map FileEntry.region = [⟨32, 39⟩, ⟨39, 72⟩, ⟨0, 32⟩] := by
  have hrun : (run Session.step .start reuse).map (fun s => s.zip.fileEntries.map FileEntry.region) =
      some [⟨32, 39⟩, ⟨39, 72⟩, ⟨0, 32⟩] := by decide
  obtain ⟨s, hs, hr⟩ := Option.map_eq_some_iff.mp hrun
  have hok : Along Session.step KeepsSpace .start reuse := by decide
  exact ⟨s, hs, space_managed_of_keepsSpace (Reachable.start.of_run reuse hok hs), hr⟩

/-! ### Where the space is lost -/

/-- An entry of three bytes, a directory, and the directory removed. -/
def phantom : List Act :=
  [.begin [0x61] 3 0 0, .write [1, 2, 3], .finish 0 0 3 true, .addZero 0 [0x64] 0 0 FILE_ATTRIBUTE_DIRECTORY, .remove 1]

/-- The removed directory, which had no place, leaves a hole at the offset 0, over the entry that is there. -/
theorem space_not_managed : ¬ ∀ s, Reachable Session.step anyStep .start s → SpaceManaged s.zip := by
  intro h
  have hrun : (run Session.step .start phantom).map
      (fun s => s.zip.fileEntries.map fun e : FileEntry => (e.signature, e.size, e.region)) =
        some [(FileEntry.header_magic, 3, ⟨0, 34⟩), (0, 32, ⟨0, 32⟩)] := by decide
  obtain ⟨s, hs, hv⟩ := Option.map_eq_some_iff.mp hrun
  have hget : ∀ (i : ℕ) v, [(FileEntry.header_magic, 3, (⟨0, 34⟩ : Span)), (0, 32, ⟨0, 32⟩)][i]? = some v →
      ∃ e : FileEntry, s.zip.fileEntries[i]? = some e ∧ (e.signature, e.size, e.region) = v := by
    intro i v hi
    rw [← hv, List.getElem?_map] at hi
    exact Option.map_eq_some_iff.mp hi
  obtain ⟨e, he, hev⟩ := hget 0 _ rfl
  obtain ⟨f, hf, hfv⟩ := hget 1 _ rfl
  simp only [Prod.mk.injEq] at hev hfv
  have ha := (h s (reachable_of_run phantom hs)).apart 0 1 e f (by decide) he hf (.inr (by rw [hev.2.1]; decide))
    (.inl hfv.1)
  rw [hev.2.2, hfv.2.2] at ha
  exact absurd ha (by decide)

/-- An entry of three bytes, removed, and one in its hole that claims nearly 4 GiB and has ten bytes. -/
def cutSum : List Act :=
  [.begin [0x61] 3 0 0, .write [1, 2, 3], .finish 0 0 3 true, .remove 0, .begin [0x62] 0xfffffff0 0 0,
    .write [1, 2, 3, 4, 5, 6, 7, 8, 9, 10], .finish 0 0 10 true]

/-- A sum that is cut to 32 bits finds a hole that is too small, and the entry in it reaches into the directory. -/
theorem space_not_managed_of_cutSum : ∃ s, run Session.step .start cutSum = some s ∧ ¬ SpaceManaged s.zip := by
  have hrun : (run Session.step .start cutSum).map
      (fun s => (s.zip.fileEntries[1]?.map fun e : FileEntry => (e.size, e.region), s.zip.centralDirectoryStart)) =
        some (some (10, ⟨0, 41⟩), 34) := by decide
  obtain ⟨s, hs, hv⟩ := Option.map_eq_some_iff.mp hrun
  obtain ⟨he, hstart⟩ := Prod.mk.inj hv
  obtain ⟨e, he, hev⟩ := Option.map_eq_some_iff.mp he
  obtain ⟨hsize, hregion⟩ := Prod.mk.inj hev
  refine ⟨s, hs, fun hm => ?_⟩
  have hb := hm.below e (List.mem_of_getElem? he) (.inr (by rw [hsize]; decide))
  rw [hregion, hstart] at hb
  exact absurd hb (by decide)

end Cpcf.Os.Zip
