import Cpcf.Lib.ByteFile
import Cpcf.Lib.WordList

/-!
`FileGzip::Open` of `os/file_zip.cpp`.

The offset of the data is advanced over the optional fields one by one, and for `FEXTRA` by what the field holds, without
the two bytes that give its length. What is scanned behind it begins two bytes early, and comes to the right end where
neither of the two bytes before it is zero.
-/

namespace Cpcf.Os.Gzip

open Cpcf.Lib.ByteFile Cpcf.Lib.WordList

/-! ### The code -/

def GZF_FEXTRA : UInt8 := 0x04
def GZF_FNAME : UInt8 := 0x08
def GZF_FCOMMENT : UInt8 := 0x10
def GZF_FHCRC : UInt8 := 0x02

/-- `sizeof(gz_header)`. -/
def headerSize : ℕ := 512

/-- `sizeof(gz_tail)`. -/
def tailSize : ℕ := 8

/-- The memory of a `gz_header`. -/
structure Block where
  bytes : List UInt8
  size : bytes.length = headerSize

/-- The beginning of the file is read to the block, where a short file leaves the rest as it was. -/
def Block.read (hdr : Block) (file : List UInt8) : Block where
  bytes := readAt file 0 headerSize ++ hdr.bytes.drop (readAt file 0 headerSize).length
  size := by
    have := hdr.size
    have : (readAt file 0 headerSize).length ≤ headerSize := List.length_take_le _ _
    rw [List.length_append, List.length_drop]
    omega

/-- The members of a `gz_header` that `Open` looks at. -/
structure GzHeader where
  magic : UInt16
  compression : UInt8
  flag : UInt8
  extraLength : UInt16

def GzHeader.ofBytes (s : List UInt8) : GzHeader :=
  let (magic, s) := get16 s
  let compression := s.headD 0
  let flag := s.tail.headD 0
  let (_, s) := get32 (s.drop 2)
  let (extraLength, _) := get16 (s.drop 2)
  { magic, compression, flag, extraLength }

/-- A `FileGzip`. The offset stays below `70000`, so that it is a number. -/
structure FileGzip where
  zipFile : Bool
  filename : List UInt8
  archiveOffset : ℕ
  archiveSize : UInt32
  originalSize : UInt32

def FileGzip.close (g : FileGzip) : FileGzip := { g with zipFile := false }

/-- `while(end < sizeof(gz_header) && p[end]) end++`, which is `none` where the byte is not one of the block. -/
def textEnd (p : List UInt8) (stop : ℕ) : Option ℕ :=
  if stop < headerSize then
    p[stop]?.bind fun c => if c ≠ 0 then textEnd p (stop + 1) else some stop
  else some stop
termination_by headerSize - stop

/-- The branch of `GZF_FNAME`. -/
def FileGzip.openName (g : FileGzip) (hdr : Block) (flag : UInt8) : Option (FileGzip × Bool) :=
  if GZF_FNAME &&& flag ≠ 0 then
    (textEnd hdr.bytes g.archiveOffset).map fun stop =>
      if stop = headerSize then (g.close, false)
      else
        ({ g with filename := (hdr.bytes.take stop).drop g.archiveOffset, archiveOffset := stop + 1 }, true)
  else some (g, true)

/-- The branch of `GZF_FCOMMENT`. -/
def FileGzip.openComment (g : FileGzip) (hdr : Block) (flag : UInt8) : Option (FileGzip × Bool) :=
  if GZF_FCOMMENT &&& flag ≠ 0 then
    (textEnd hdr.bytes g.archiveOffset).map fun stop =>
      if stop = headerSize then ({ g with archiveOffset := stop }.close, false)
      else ({ g with archiveOffset := stop + 1 }, true)
  else some (g, true)

/-- The position that `Seek(-sizeof(gz_tail), Seek_End)` returns, where a short file stays at `pos`. -/
def seekTail (file : List UInt8) (pos : ℕ) : ℕ := if tailSize ≤ file.length then file.length - tailSize else pos

/-- `Open(pFile)`, where `hdr` is the block before anything is read to it. It is `none` where a byte is read that is not
one of the block. -/
def FileGzip.openFile (g : FileGzip) (hdr : Block) (file : List UInt8) : Option (FileGzip × Bool) :=
  let g := { g with zipFile := true }
  let hdr := hdr.read file
  let h := GzHeader.ofBytes hdr.bytes
  let pos := seekTail file (min headerSize file.length)
  let tail := readAt file pos tailSize
  if h.magic = 0x8b1f ∧ h.compression = 8 ∧ pos ≠ 0 ∧ tail.length = tailSize then
    let g := { g with archiveOffset := 10 }
    let g := if GZF_FEXTRA &&& h.flag ≠ 0 then { g with archiveOffset := g.archiveOffset + h.extraLength.toNat } else g
    (g.openName hdr h.flag).bind fun (g, ok) =>
      if ok then
        (g.openComment hdr h.flag).map fun (g, ok) =>
          if ok then
            let g := if GZF_FHCRC &&& h.flag ≠ 0 then { g with archiveOffset := g.archiveOffset + 2 } else g
            let size := UInt64.ofNat file.length - UInt64.ofNat tailSize - UInt64.ofNat g.archiveOffset
            ({ g with archiveSize := size.toUInt32, originalSize := (get32 (get32 tail).2).1 }, true)
          else (g, false)
      else some (g, false)
  else some (g, false)

/-! ### Scanning -/

section Scan

variable {p : List UInt8} {i z : ℕ} {c : UInt8}

theorem textEnd_stop (h : headerSize ≤ i) : textEnd p i = some i := by rw [textEnd, if_neg (by omega)]

theorem textEnd_zero (h : i < headerSize) (hget : p[i]? = some 0) : textEnd p i = some i := by
  rw [textEnd, if_pos h, hget, Option.bind_some, if_neg (by simp)]

theorem textEnd_next (h : i < headerSize) (hget : p[i]? = some c) (hc : c ≠ 0) : textEnd p i = textEnd p (i + 1) := by
  rw [textEnd, if_pos h, hget, Option.bind_some, if_pos hc]

/-- The scan stays within the block. -/
theorem textEnd_isSome (hp : p.length = headerSize) (i : ℕ) : ∃ e, textEnd p i = some e := by
  induction hn : headerSize - i generalizing i with
  | zero => exact ⟨i, textEnd_stop (by omega)⟩
  | succ n ih =>
    have hlt : i < headerSize := by omega
    have hget : p[i]? = some p[i] := List.getElem?_eq_getElem (by omega)
    by_cases hc : p[i] = 0
    · exact ⟨i, textEnd_zero hlt (by rw [hget, hc])⟩
    · rw [textEnd_next hlt hget hc]
      exact ih (i + 1) (by omega)

/-- It comes to the first zero from its place on. -/
theorem textEnd_spec (hp : p.length = headerSize) (hz : p[z]? = some 0) (hi : i ≤ z) :
    ∃ e, textEnd p i = some e ∧ i ≤ e ∧ e ≤ z ∧ p[e]? = some 0 := by
  obtain ⟨hzlt, -⟩ := List.getElem?_eq_some_iff.mp hz
  induction hn : z - i generalizing i with
  | zero =>
    have heq : i = z := by omega
    exact ⟨i, textEnd_zero (by omega) (heq ▸ hz), le_rfl, hi, heq ▸ hz⟩
  | succ n ih =>
    have hget : p[i]? = some p[i] := List.getElem?_eq_getElem (by omega)
    by_cases hc : p[i] = 0
    · have h0 : p[i]? = some 0 := by rw [hget, hc]
      exact ⟨i, textEnd_zero (by omega) h0, le_rfl, hi, h0⟩
    · obtain ⟨e, he, h1, h2, h3⟩ := ih (i := i + 1) (by omega) (by omega)
      exact ⟨e, by rw [textEnd_next (by omega) hget hc, he], by omega, h2, h3⟩

end Scan

/-! ### Members -/

/-- A text without a zero. -/
abbrev Text := { t : List UInt8 // 0 ∉ t }

/-- A text is followed by a zero. -/
def textField (t : Option Text) : List UInt8 := t.elim [] fun t => t.val ++ [0]

/-- A member of a gzip file, whose fields may hold anything. -/
structure Member where
  text : Bool
  mtime : UInt32
  extraFlag : UInt8
  platform : UInt8
  extra : Option { x : List UInt8 // x.length < 2 ^ 16 }
  name : Option Text
  comment : Option Text
  hcrc : Option UInt16
  compressed : List UInt8
  crc32 : UInt32
  originalSize : UInt32

/-- The flags of the fields that are present. -/
def flagOf (text hcrc extra name comment : Bool) : UInt8 :=
  text.toNat.toUInt8 ||| hcrc.toNat.toUInt8 <<< 1 ||| extra.toNat.toUInt8 <<< 2 ||| name.toNat.toUInt8 <<< 3 |||
    comment.toNat.toUInt8 <<< 4

namespace Member

variable (m : Member)

def flag : UInt8 := flagOf m.text m.hcrc.isSome m.extra.isSome m.name.isSome m.comment.isSome

/-- The length of the extra field and what it holds. -/
def extraField : List UInt8 := m.extra.elim [] fun x => word16 (UInt16.ofNat x.val.length) ++ x.val

def hcrcField : List UInt8 := m.hcrc.elim [] word16

/-- The ten bytes that are always present. -/
def front : List UInt8 := word16 0x8b1f ++ ([8, m.flag] ++ (word32 m.mtime ++ [m.extraFlag, m.platform]))

def header : List UInt8 := m.front ++ m.extraField ++ textField m.name ++ textField m.comment ++ m.hcrcField

def bytes : List UInt8 := m.header ++ (m.compressed ++ (word32 m.crc32 ++ word32 m.originalSize))

end Member

theorem flagOf_spec : ∀ text hcrc extra name comment : Bool,
    (GZF_FEXTRA &&& flagOf text hcrc extra name comment ≠ 0 ↔ extra = true) ∧
      (GZF_FNAME &&& flagOf text hcrc extra name comment ≠ 0 ↔ name = true) ∧
      (GZF_FCOMMENT &&& flagOf text hcrc extra name comment ≠ 0 ↔ comment = true) ∧
      (GZF_FHCRC &&& flagOf text hcrc extra name comment ≠ 0 ↔ hcrc = true) := by
  decide

/-! ### One field after the other -/

/-- The position behind a text, where there is one. -/
def skipText (p : List UInt8) (present : Bool) (i : ℕ) : Option ℕ :=
  if present then (textEnd p i).map (· + 1) else some i

section Fields

variable {x y : List UInt8} {t : Option Text} {g : FileGzip} {hdr : Block} {flag : UInt8} {i j : ℕ}

/-- A text is skipped from a place before it. The end is the right one if no zero is on the way to the text. -/
theorem skipText_field (hp : (x ++ textField t ++ y).length = headerSize) (hi : i ≤ x.length) :
    ∃ j, skipText (x ++ textField t ++ y) t.isSome i = some j ∧ j ≤ (x ++ textField t).length ∧
      (j = (x ++ textField t).length ↔ if t.isSome then 0 ∉ x.drop i else i = x.length) := by
  cases t with
  | none =>
    refine ⟨i, rfl, ?_, ?_⟩
    · rwa [textField, Option.elim_none, List.append_nil]
    · rw [textField, Option.elim_none, List.append_nil]
      rfl
  | some t =>
    have hlen : (x ++ textField (some t)).length = x.length + t.val.length + 1 := by
      rw [textField, Option.elim_some, List.length_append, List.length_append]
      rfl
    have hshape : x ++ textField (some t) ++ y = x ++ (t.val ++ 0 :: y) := by
      rw [textField, Option.elim_some, List.append_assoc, List.append_assoc]
      rfl
    have hend : (x ++ (t.val ++ 0 :: y))[x.length + t.val.length]? = some 0 := by
      rw [List.getElem?_append_right (by omega), Nat.add_sub_cancel_left, List.getElem?_append_right le_rfl, Nat.sub_self]
      rfl
    rw [hshape] at hp ⊢
    obtain ⟨e, he, hie, hez, h0⟩ := textEnd_spec hp hend (i := i) (by omega)
    refine ⟨e + 1, by rw [Option.isSome_some, skipText, if_pos rfl, he, Option.map_some], by omega, ?_⟩
    rw [hlen, Option.isSome_some, if_pos rfl]
    constructor
    · intro hright hmem
      obtain ⟨k, hk⟩ := List.mem_iff_getElem?.mp hmem
      rw [List.getElem?_drop] at hk
      obtain ⟨hlt, -⟩ := List.getElem?_eq_some_iff.mp hk
      have hk' : (x ++ (t.val ++ 0 :: y))[i + k]? = some 0 := by rw [List.getElem?_append_left hlt, hk]
      obtain ⟨e', he', -, hle, -⟩ := textEnd_spec hp hk' (i := i) (by omega)
      have : e = e' := Option.some.inj (he.symm.trans he')
      omega
    · intro hmem
      by_contra hne
      by_cases hx : e < x.length
      · rw [List.getElem?_append_left hx] at h0
        refine hmem (List.mem_iff_getElem?.mpr ⟨e - i, ?_⟩)
        rw [List.getElem?_drop, Nat.add_sub_cancel' hie, h0]
      · rw [List.getElem?_append_right (by omega), List.getElem?_append_left (by omega)] at h0
        exact t.property (List.mem_of_getElem? h0)

theorem openName_eq {present : Bool} (hflag : GZF_FNAME &&& flag ≠ 0 ↔ present = true)
    (hskip : skipText hdr.bytes present g.archiveOffset = some j) (hj : j ≤ headerSize) :
    ∃ g', g.openName hdr flag = some (g', true) ∧ g'.archiveOffset = j := by
  cases present with
  | false =>
    rw [FileGzip.openName, if_neg (by simp [hflag])]
    exact ⟨g, rfl, Option.some.inj hskip⟩
  | true =>
    obtain ⟨e, he, rfl⟩ := Option.map_eq_some_iff.mp hskip
    rw [FileGzip.openName, if_pos (hflag.mpr rfl), he, Option.map_some, if_neg (by omega)]
    exact ⟨_, rfl, rfl⟩

theorem openComment_eq {present : Bool} (hflag : GZF_FCOMMENT &&& flag ≠ 0 ↔ present = true)
    (hskip : skipText hdr.bytes present g.archiveOffset = some j) (hj : j ≤ headerSize) :
    ∃ g', g.openComment hdr flag = some (g', true) ∧ g'.archiveOffset = j := by
  cases present with
  | false =>
    rw [FileGzip.openComment, if_neg (by simp [hflag])]
    exact ⟨g, rfl, Option.some.inj hskip⟩
  | true =>
    obtain ⟨e, he, rfl⟩ := Option.map_eq_some_iff.mp hskip
    rw [FileGzip.openComment, if_pos (hflag.mpr rfl), he, Option.map_some, if_neg (by omega)]
    exact ⟨_, rfl, rfl⟩

end Fields

theorem flag_spec (m : Member) :
    (GZF_FEXTRA &&& m.flag ≠ 0 ↔ m.extra.isSome = true) ∧ (GZF_FNAME &&& m.flag ≠ 0 ↔ m.name.isSome = true) ∧
      (GZF_FCOMMENT &&& m.flag ≠ 0 ↔ m.comment.isSome = true) ∧ (GZF_FHCRC &&& m.flag ≠ 0 ↔ m.hcrc.isSome = true) :=
  flagOf_spec _ _ _ _ _

/-- Whatever the file holds, no byte is read that is not one of the block. -/
theorem openFile_inside (g : FileGzip) (hdr : Block) (file : List UInt8) : (g.openFile hdr file).isSome = true := by
  have hname : ∀ g : FileGzip, (g.openName (hdr.read file) (GzHeader.ofBytes (hdr.read file).bytes).flag).isSome = true := by
    intro g
    rw [FileGzip.openName]
    split
    · obtain ⟨e, he⟩ := textEnd_isSome (hdr.read file).size g.archiveOffset
      rw [he, Option.map_some, Option.isSome_some]
    · rfl
  have hcomment : ∀ g : FileGzip,
      (g.openComment (hdr.read file) (GzHeader.ofBytes (hdr.read file).bytes).flag).isSome = true := by
    intro g
    rw [FileGzip.openComment]
    split
    · obtain ⟨e, he⟩ := textEnd_isSome (hdr.read file).size g.archiveOffset
      rw [he, Option.map_some, Option.isSome_some]
    · rfl
  unfold FileGzip.openFile
  dsimp only
  split
  · obtain ⟨r, hr⟩ := Option.isSome_iff_exists.mp (hname _)
    rw [hr, Option.bind_some]
    split
    · rw [Option.isSome_map]
      exact hcomment _
    · rfl
  · rfl

/-! ### Opening a member -/

section Opening

variable {m : Member} {g : FileGzip} {hdr : Block} {r : List UInt8}

theorem ofBytes_front (m : Member) (r : List UInt8) :
    GzHeader.ofBytes (m.front ++ r) = ⟨0x8b1f, 8, m.flag, (get16 r).1⟩ := by
  rw [Member.front, List.append_assoc, List.append_assoc, List.append_assoc, GzHeader.ofBytes]
  dsimp only
  rw [get16_word16]
  change GzHeader.mk _ 8 m.flag (get16 ((get32 (word32 m.mtime ++ _)).2.drop 2)).1 = _
  rw [get32_word32]
  rfl

@[simp] theorem length_front (m : Member) : m.front.length = 10 := by
  simp [Member.front]

/-- The block begins with the header. -/
theorem read_header (hfits : m.header.length ≤ headerSize) (hdr : Block) :
    ∃ r, (hdr.read m.bytes).bytes = m.header ++ r := by
  refine ⟨(m.compressed ++ (word32 m.crc32 ++ word32 m.originalSize)).take (headerSize - m.header.length) ++
    hdr.bytes.drop (readAt m.bytes 0 headerSize).length, ?_⟩
  have htake : readAt m.bytes 0 headerSize = m.header ++
      (m.compressed ++ (word32 m.crc32 ++ word32 m.originalSize)).take (headerSize - m.header.length) := by
    rw [readAt, List.drop_zero, Member.bytes, List.take_append, List.take_of_length_le hfits]
  rw [Block.read, ← List.append_assoc, ← htake]

/-- The length of what the extra field holds. -/
def Member.extraLength (m : Member) : ℕ := m.extra.elim 0 (·.val.length)

/-- The bytes of the member before its texts. -/
def Member.fixed (m : Member) : List UInt8 := m.front ++ m.extraField

/-- Where the code takes the texts to begin. -/
def Member.start (m : Member) : ℕ := 10 + m.extraLength

/-- The two bytes before the texts that the code does not count. -/
theorem length_fixed (m : Member) : m.fixed.length = m.start + if m.extra.isSome then 2 else 0 := by
  rw [Member.fixed, Member.start, Member.extraField, Member.extraLength, List.length_append, length_front]
  cases m.extra with
  | none => rfl
  | some x =>
    rw [Option.elim_some, Option.elim_some, List.length_append, length_word16, Option.isSome_some, if_pos rfl]
    omega

/-- The bytes of the trailer and of what is compressed remain when the header and the trailer are taken off. -/
theorem size_eq (a c : ℕ) :
    (UInt64.ofNat (a + (c + 8)) - UInt64.ofNat 8 - UInt64.ofNat a).toUInt32.toNat = c % 2 ^ 32 := by
  have h : UInt64.ofNat (a + (c + 8)) - UInt64.ofNat 8 - UInt64.ofNat a = UInt64.ofNat c := by
    rw [UInt64.ofNat_add, UInt64.ofNat_add, ← UInt64.add_assoc, UInt64.add_sub_cancel, UInt64.add_comm,
      UInt64.add_sub_cancel]
  rw [h, UInt64.toNat_toUInt32, UInt64.toNat_ofNat']
  omega

theorem ofBytes_member (hfits : m.header.length ≤ headerSize) (hdr : Block) :
    ∃ n : UInt16, GzHeader.ofBytes (hdr.read m.bytes).bytes = ⟨0x8b1f, 8, m.flag, n⟩ ∧
      (m.extra.isSome = true → n.toNat = m.extraLength) := by
  obtain ⟨r, hr⟩ := read_header hfits hdr
  rw [hr, Member.header, List.append_assoc, List.append_assoc, List.append_assoc, List.append_assoc, ofBytes_front]
  refine ⟨_, rfl, fun hsome => ?_⟩
  obtain ⟨x, hx⟩ := Option.isSome_iff_exists.mp hsome
  rw [Member.extraField, Member.extraLength, hx, Option.elim_some, Option.elim_some, List.append_assoc, get16_word16]
  exact UInt16.toNat_ofNat_of_lt' x.property

theorem length_bytes (m : Member) : m.bytes.length = m.header.length + (m.compressed.length + 8) := by
  rw [Member.bytes, List.length_append, List.length_append, List.length_append, length_word32, length_word32]

/-- The trailer is found. -/
theorem tail_member (m : Member) (pos : ℕ) :
    seekTail m.bytes pos ≠ 0 ∧ readAt m.bytes (seekTail m.bytes pos) tailSize = word32 m.crc32 ++ word32 m.originalSize := by
  have hlen := length_bytes m
  have hfront : 10 ≤ m.header.length := by
    rw [Member.header, List.length_append, List.length_append, List.length_append, List.length_append, length_front]
    omega
  have htail : tailSize = 8 := rfl
  have hseek : seekTail m.bytes pos = m.header.length + m.compressed.length := by
    rw [seekTail, if_pos (by omega)]
    omega
  refine ⟨by omega, ?_⟩
  rw [hseek, readAt, Member.bytes, ← List.append_assoc, List.drop_left' List.length_append]
  exact List.take_of_length_le (by rw [List.length_append, length_word32, length_word32]; rfl)

/-- `Open` of a member goes over the texts from where it takes them to begin. -/
theorem openFile_member (hfits : m.header.length ≤ headerSize) {b c : ℕ}
    (hname : skipText (hdr.read m.bytes).bytes m.name.isSome m.start = some b) (hb : b ≤ headerSize)
    (hcomment : skipText (hdr.read m.bytes).bytes m.comment.isSome b = some c) (hc : c ≤ headerSize) :
    ∃ g', g.openFile hdr m.bytes = some (g', true) ∧ g'.archiveOffset = c + m.hcrcField.length ∧
      g'.archiveSize = (UInt64.ofNat m.bytes.length - UInt64.ofNat tailSize -
        UInt64.ofNat (c + m.hcrcField.length)).toUInt32 ∧ g'.originalSize = m.originalSize := by
  obtain ⟨n, hof, hn⟩ := ofBytes_member hfits hdr
  obtain ⟨hpos, htail⟩ := tail_member m (min headerSize m.bytes.length)
  obtain ⟨hextra, hnameFlag, hcommentFlag, hcrcFlag⟩ := flag_spec m
  unfold FileGzip.openFile
  dsimp only
  rw [hof, htail]
  dsimp only
  rw [if_pos ⟨rfl, rfl, hpos, rfl⟩]
  generalize hg : (if GZF_FEXTRA &&& m.flag ≠ 0 then _ else _ : FileGzip) = g₀
  have hstart : g₀.archiveOffset = m.start := by
    rw [← hg, Member.start]
    split
    · rename_i h
      rw [hn (hextra.mp h)]
    · rename_i h
      have hnone : m.extra = none := by
        rw [← Option.not_isSome_iff_eq_none]
        exact fun hsome => h (hextra.mpr hsome)
      rw [Member.extraLength, hnone]
      rfl
  obtain ⟨g₁, hg₁, h₁⟩ := openName_eq (g := g₀) hnameFlag (by rw [hstart]; exact hname) hb
  obtain ⟨g₂, hg₂, h₂⟩ := openComment_eq (g := g₁) hcommentFlag (by rw [h₁]; exact hcomment) hc
  rw [hg₁, Option.bind_some, if_pos rfl, hg₂, Option.map_some, if_pos rfl]
  have hcrc : (if GZF_FHCRC &&& m.flag ≠ 0 then { g₂ with archiveOffset := g₂.archiveOffset + 2 } else g₂).archiveOffset =
      c + m.hcrcField.length := by
    rw [Member.hcrcField, ← h₂]
    cases h : m.hcrc with
    | none =>
      rw [h, Option.isSome_none] at hcrcFlag
      rw [if_neg (by simp [hcrcFlag])]
      rfl
    | some v =>
      rw [h, Option.isSome_some] at hcrcFlag
      rw [if_pos (hcrcFlag.mpr rfl), Option.elim_some, length_word16]
  refine ⟨_, rfl, hcrc, ?_, ?_⟩
  · rw [← hcrc]
  · rw [get32_word32, ← List.append_nil (word32 m.originalSize), get32_word32]

/-! ### The condition -/

/-- There is no extra field, or a text follows it and neither of its last two bytes is zero. -/
def Member.Understood (m : Member) : Prop :=
  m.extra = none ∨ (m.name.isSome = true ∨ m.comment.isSome = true) ∧
    ∃ x a b, m.extra.map Subtype.val = some (x ++ [a, b]) ∧ a ≠ 0 ∧ b ≠ 0

/-- The two bytes before the texts are the last two of the extra field, if it has as many. -/
theorem uncounted_iff (hsome : m.extra.isSome = true) :
    0 ∉ m.fixed.drop m.start ↔ ∃ x a b, m.extra.map Subtype.val = some (x ++ [a, b]) ∧ a ≠ 0 ∧ b ≠ 0 := by
  obtain ⟨⟨e, he⟩, hm⟩ := Option.isSome_iff_exists.mp hsome
  have hdrop : m.fixed.drop m.start = (word16 (UInt16.ofNat e.length) ++ e).drop e.length := by
    rw [Member.fixed, Member.start, Member.extraField, Member.extraLength, hm, ← List.drop_drop,
      List.drop_left' (length_front m)]
    rfl
  rw [hdrop, hm, Option.map_some]
  obtain rfl | ⟨c, rfl⟩ | hlong : e = [] ∨ (∃ c, e = [c]) ∨ 2 ≤ e.length := by
    rcases e with _ | ⟨c, _ | ⟨d, e⟩⟩
    · exact .inl rfl
    · exact .inr (.inl ⟨c, rfl⟩)
    · exact .inr (.inr (by simp))
  · refine iff_of_false (fun h => h (by decide)) ?_
    rintro ⟨x, a, b, h, -⟩
    simpa using congrArg List.length (Option.some.inj h)
  · refine iff_of_false (fun h => h ?_) ?_
    · have hone : word16 1 = [1, 0] := by decide
      change 0 ∈ (word16 1 ++ [c]).drop 1
      rw [hone]
      exact List.mem_cons_self
    · rintro ⟨x, a, b, h, -⟩
      simpa using congrArg List.length (Option.some.inj h)
  · obtain ⟨x, a, b, rfl⟩ : ∃ x a b, e = x ++ [a, b] := by
      have htwo : (e.drop (e.length - 2)).length = 2 := by
        rw [List.length_drop]
        omega
      obtain ⟨a, b, hab⟩ := List.length_eq_two.mp htwo
      exact ⟨e.take (e.length - 2), a, b, by rw [← hab, List.take_append_drop]⟩
    have hsplit : (word16 (UInt16.ofNat (x ++ [a, b]).length) ++ (x ++ [a, b])).drop (x ++ [a, b]).length = [a, b] := by
      rw [← List.append_assoc]
      exact List.drop_left' (by rw [List.length_append, length_word16, List.length_append]; simp [Nat.add_comm])
    rw [hsplit]
    constructor
    · intro h
      exact ⟨x, a, b, rfl, fun h0 => h (by simp [h0]), fun h0 => h (by simp [h0])⟩
    · rintro ⟨x', a', b', h, ha, hb⟩ hmem
      obtain ⟨-, h2⟩ := List.append_inj' (Option.some.inj h) rfl
      obtain ⟨rfl, rfl⟩ : a = a' ∧ b = b' := by simpa using h2
      simp only [List.mem_cons, List.not_mem_nil, or_false] at hmem
      rcases hmem with h0 | h0
      · exact ha h0.symm
      · exact hb h0.symm

/-- Behind a text every way to its end meets its zero. -/
theorem zero_before_end (x : List UInt8) (t : Text) {i : ℕ} (hi : i ≤ (x ++ textField (some t)).length) :
    0 ∉ (x ++ textField (some t)).drop i ↔ i = (x ++ textField (some t)).length := by
  constructor
  · intro h
    by_contra hne
    rw [textField, Option.elim_some, ← List.append_assoc] at h hi hne
    have hlt : i ≤ (x ++ t.val).length := by
      rw [List.length_append, List.length_singleton] at hi hne
      omega
    rw [List.drop_append_of_le_length hlt] at h
    exact h (List.mem_append_right _ List.mem_cons_self)
  · rintro rfl
    rw [List.drop_length]
    exact List.not_mem_nil

/-- The second text ends right when the first one does, or when it is reached without a zero before it. -/
theorem texts_right_iff {b c : ℕ} (hb : skipText (hdr.read m.bytes).bytes m.name.isSome m.start = some b)
    (hble : b ≤ (m.fixed ++ textField m.name).length)
    (hbright : b = (m.fixed ++ textField m.name).length ↔
      if m.name.isSome then 0 ∉ m.fixed.drop m.start else m.start = m.fixed.length)
    (hcright : c = (m.fixed ++ textField m.name ++ textField m.comment).length ↔
      if m.comment.isSome then 0 ∉ (m.fixed ++ textField m.name).drop b else b = (m.fixed ++ textField m.name).length) :
    c = (m.fixed ++ textField m.name ++ textField m.comment).length ↔ m.Understood := by
  have hfixed := length_fixed m
  rw [hcright]
  cases hextra : m.extra with
  | none =>
    -- every scan begins where its text does
    rw [hextra, Option.isSome_none, if_neg Bool.false_ne_true, Nat.add_zero] at hfixed
    have hb' : b = (m.fixed ++ textField m.name).length := by
      rw [hbright, ← hfixed, List.drop_length]
      split
      · exact List.not_mem_nil
      · rfl
    refine iff_of_true ?_ (.inl hextra)
    rw [hb', List.drop_length]
    split
    · exact List.not_mem_nil
    · rfl
  | some x =>
    have hsome : m.extra.isSome = true := by rw [hextra, Option.isSome_some]
    have hshort : m.start ≠ m.fixed.length := by
      rw [hfixed, if_pos hsome]
      omega
    rw [Member.Understood, or_iff_right (by rw [hextra]; simp), ← uncounted_iff hsome]
    cases hn : m.name with
    | none =>
      have hb' : b = m.start := by
        rw [hn] at hb
        exact (Option.some.inj hb).symm
      rw [hb', textField, Option.elim_none, List.append_nil, Option.isSome_none]
      cases hm : m.comment.isSome <;> simp [hshort]
    | some t =>
      rw [hn, Option.isSome_some, if_pos rfl] at hbright
      rw [hn] at hble
      rw [zero_before_end m.fixed t hble, ite_self, hbright, Option.isSome_some]
      simp

/-- Where the code comes to behind the texts. -/
theorem texts_spec (hfits : m.header.length ≤ headerSize) (hdr : Block) :
    ∃ b c, skipText (hdr.read m.bytes).bytes m.name.isSome m.start = some b ∧ b ≤ headerSize ∧
      skipText (hdr.read m.bytes).bytes m.comment.isSome b = some c ∧ c ≤ headerSize ∧
      (c = (m.fixed ++ textField m.name ++ textField m.comment).length ↔ m.Understood) := by
  obtain ⟨r, hr⟩ := read_header hfits hdr
  have hsize := (hdr.read m.bytes).size
  have hheader : m.header = m.fixed ++ textField m.name ++ textField m.comment ++ m.hcrcField := rfl
  have hname : (hdr.read m.bytes).bytes =
      m.fixed ++ textField m.name ++ (textField m.comment ++ (m.hcrcField ++ r)) := by
    simp only [hr, hheader, List.append_assoc]
  have hcomment : (hdr.read m.bytes).bytes =
      m.fixed ++ textField m.name ++ textField m.comment ++ (m.hcrcField ++ r) := by
    simp only [hr, hheader, List.append_assoc]
  have hfixed := length_fixed m
  obtain ⟨b, hb, hble, hbright⟩ := skipText_field (i := m.start) (hname ▸ hsize) (by omega)
  obtain ⟨c, hc, hcle, hcright⟩ := skipText_field (i := b) (hcomment ▸ hsize) hble
  have hlen : (m.fixed ++ textField m.name ++ textField m.comment).length ≤ headerSize := by
    rw [hheader, List.length_append] at hfits
    omega
  have hlen' : (m.fixed ++ textField m.name).length ≤ (m.fixed ++ textField m.name ++ textField m.comment).length := by
    simp only [List.length_append]
    omega
  rw [← hname] at hb
  rw [← hcomment] at hc
  exact ⟨b, c, hb, by omega, hc, by omega, texts_right_iff hb hble hbright hcright⟩

/-- `Open` succeeds with the length of the header and the length of the compressed data. -/
def OpensRight (g : FileGzip) (hdr : Block) (m : Member) : Prop :=
  ∃ g', g.openFile hdr m.bytes = some (g', true) ∧ g'.archiveOffset = m.header.length ∧
    g'.archiveSize.toNat = m.compressed.length

/-- The offset is the right one for the members that are understood, and with it the size as far as it is kept. -/
theorem openFile_spec (hfits : m.header.length ≤ headerSize) (g : FileGzip) (hdr : Block) :
    ∃ g', g.openFile hdr m.bytes = some (g', true) ∧ (g'.archiveOffset = m.header.length ↔ m.Understood) ∧
      (g'.archiveOffset = m.header.length → g'.archiveSize.toNat = m.compressed.length % 2 ^ 32) ∧
      g'.originalSize = m.originalSize := by
  obtain ⟨b, c, hname, hb, hcomment, hc, hright⟩ := texts_spec hfits hdr
  obtain ⟨g', hopen, hoffset, hsize, horiginal⟩ := openFile_member (g := g) hfits hname hb hcomment hc
  have hheader : m.header.length = (m.fixed ++ textField m.name ++ textField m.comment).length + m.hcrcField.length :=
    List.length_append
  refine ⟨g', hopen, ?_, fun h => ?_, horiginal⟩
  · rw [← hright, hoffset, hheader, Nat.add_right_cancel_iff]
  · rw [hsize, ← hoffset, h, length_bytes]
    exact size_eq _ _

end Opening

/-- A member is opened right when its data are shorter than four gigabytes and its extra field, if it has one, is
followed by a text and does not end in two bytes of which one is zero. -/
theorem opensRight_iff (g : FileGzip) (hdr : Block) (m : Member) (hfits : m.header.length ≤ headerSize) :
    OpensRight g hdr m ↔ m.compressed.length < 2 ^ 32 ∧ m.Understood := by
  obtain ⟨g', hopen, hoffset, hsize, -⟩ := openFile_spec hfits g hdr
  constructor
  · rintro ⟨r, hr, hrOffset, hrSize⟩
    obtain rfl : r = g' := congrArg Prod.fst (Option.some.inj (hr.symm.trans hopen))
    refine ⟨?_, hoffset.mp hrOffset⟩
    rw [← hrSize]
    exact r.archiveSize.toNat_lt
  · rintro ⟨hlt, hm⟩
    have h := hoffset.mpr hm
    exact ⟨g', hopen, h, (hsize h).trans (Nat.mod_eq_of_lt hlt)⟩

/-- A member with an extra field, a name and a comment. -/
def namedMember : Member where
  text := false
  mtime := 0
  extraFlag := 0
  platform := 3
  extra := some ⟨[0x41, 0x70, 0x02, 0x00, 0x01, 0x02], by decide⟩
  name := some ⟨[0x61], by decide⟩
  comment := some ⟨[0x62, 0x63], by decide⟩
  hcrc := none
  compressed := [3, 0]
  crc32 := 0
  originalSize := 0

/-- An object and a block before anything was read. -/
def emptyGzip : FileGzip := ⟨false, [], 0, 0, 0⟩

def emptyBlock : Block := ⟨List.replicate headerSize 0, List.length_replicate⟩

/-- The two bytes before the name are not zero. -/
theorem opensRight_iff_named : OpensRight emptyGzip emptyBlock namedMember :=
  (opensRight_iff emptyGzip emptyBlock namedMember (by decide)).mpr
    ⟨by decide, .inr ⟨.inl rfl, [0x41, 0x70, 0x02, 0x00], 0x01, 0x02, rfl, by decide, by decide⟩⟩

/-- The empty block that ends a file of `bgzip`: an extra field and no text. -/
def blockMember : Member where
  text := false
  mtime := 0
  extraFlag := 0
  platform := 0xff
  extra := some ⟨[0x42, 0x43, 0x02, 0x00, 0x1b, 0x00], by decide⟩
  name := none
  comment := none
  hcrc := none
  compressed := [3, 0]
  crc32 := 0
  originalSize := 0

theorem opensRight_fails : ¬ ∀ (g : FileGzip) (hdr : Block) (m : Member), m.header.length ≤ headerSize →
    OpensRight g hdr m := by
  intro h
  obtain ⟨g', hopen, hoffset, -⟩ := h emptyGzip emptyBlock blockMember (by decide)
  obtain ⟨r, hr, hiff, -⟩ := openFile_spec (m := blockMember) (by decide) emptyGzip emptyBlock
  obtain rfl : r = g' := congrArg Prod.fst (Option.some.inj (hr.symm.trans hopen))
  obtain h | ⟨h | h, -⟩ := hiff.mp hoffset
  · exact Option.some_ne_none _ h
  · exact Bool.false_ne_true h
  · exact Bool.false_ne_true h

end Cpcf.Os.Gzip
