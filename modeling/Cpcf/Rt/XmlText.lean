import Mathlib.Data.FinEnum
import Cpcf.Lib.Sink
import Cpcf.Os.Utf8
import Cpcf.Rt.XmlParser

/-!
`XMLParser::_convert_xml_to_text` with the buffer that it writes to, and what it makes of entities.

The text is never longer than what it is made from, so it stays in its buffer. Behind a character reference, the place
that is written next is moved on for a character of two bytes alone; any other one is lost.
-/

namespace Cpcf.Rt.Xml

open Cpcf.Lib Cpcf.Lib.Word Cpcf.Os.Utf8

/-! ### The conversion -/

/-- `d[-1]`, where `before` stands in front of the buffer. -/
def lastByte (before : UInt8) (d : Sink UInt8) : UInt8 := d.written.getLast?.getD before

/-- `while(d[-1] == ' ')d--;`. Nothing where it goes out of the buffer. -/
def dropSpaces (before : UInt8) (d : Sink UInt8) : Option (Sink UInt8) :=
  let spaces := (d.written.reverse.takeWhile fun b => b = Ch.space).length
  if spaces = d.written.length ∧ before = Ch.space then none else some { d with pos := d.pos - spaces }

/-- The four bytes that an entity is told by, its character, and how many bytes it is taken to have. -/
def namedEntities : List (Text × UInt8 × ℕ) :=
  [([0x26, 0x6c, 0x74, 0x3b], Ch.lt, 4), ([0x26, 0x61, 0x6d, 0x70], 0x26, 5), ([0x26, 0x67, 0x74, 0x3b], Ch.gt, 4),
    ([0x26, 0x71, 0x75, 0x6f], Ch.dquote, 6), ([0x26, 0x61, 0x70, 0x6f], Ch.squote, 6)]

/-- `switch(*((DWORD*)s))`: the character, and how far to go on. -/
def namedEntity (doc : Text) (s : ℕ) : UInt8 × ℕ :=
  ((namedEntities.find? fun e => e.1.isPrefixOf (doc.drop s)).map Prod.snd).getD (byteAt doc s, 1)

/-- The number that a reference begins with, as an `int`. -/
def referenceNumber (digits : Text) : ℤ := digits.foldl (fun a c => intOf (a * 10 + (c.toNat - 0x30))) 0

/-- A reference whose digits begin at `s`: where it ends, and the buffer. -/
def convertReference (doc : Text) (s : ℕ) (d : Sink UInt8) : Option (ℕ × Sink UInt8) :=
  let digits := (doc.drop s).takeWhile isDigit
  let a := referenceNumber digits
  let s := s + digits.length
  let s := if byteAt doc s = 0x3b then s + 1 else s
  -- `a++` and `p+=3` stand where the other branch has `d+=2`
  (if a ≤ 0x7f then d.put [UInt8.ofInt a]
    else if 0x7ff < a then d.put (leBytes 4 (threeBytes a.toNat))
    else d.emit (leBytes 2 (twoBytes a.toNat))).map fun d => (s, d)

/-- A tag that begins at `s`: the buffer, and where to go on unless the conversion ends there. -/
def convertTag (doc : Text) (TrimSubnodes : Bool) (sep before : UInt8) (s : ℕ) (d : Sink UInt8) :
    Option (Sink UInt8 × Option ℕ) :=
  (dropSpaces before d).bind fun d =>
    match strchr doc (s + 1) Ch.gt with
    | none => some (d, none)
    | some close =>
      let c := byteAt doc (s + 1)
      let newline := (c = 0x62 ∨ c = 0x42) ∧ (byteAt doc (s + 2) = 0x72 ∨ byteAt doc (s + 2) = 0x52) ∧
          schar (byteAt doc (s + 3)) < 0x40 ∨
        (c = 0x70 ∨ c = 0x50) ∧ schar (byteAt doc (s + 2)) < 0x40
      (if newline then d.emit [0x0d, 0x0a] else if lastByte before d ≠ sep then d.emit [sep] else some d).map fun d =>
        let p :=
          if TrimSubnodes ∧ byteAt doc (close - 1) ≠ Ch.slash then
            let tag_end := seekSymbolEnd doc (s + 1)
            match searchNodeClose doc close ((doc.drop (s + 1)).take (tag_end - (s + 1))) with
            | .ok (close_tag, _) => close_tag + 1
            | .error _ => close + 1
          else close + 1
        (d, some p)

/-- The loop of `_convert_xml_to_text`, in which `s` goes on by one byte at least. -/
def convertTextLoop (doc : Text) (TrimXMLCode TrimSubnodes : Bool) (sep before : UInt8) (pend : ℕ) :
    ℕ → ℕ → Sink UInt8 → Option (Sink UInt8)
  | 0, _, d => some d
  | n + 1, s, d =>
    let loop := convertTextLoop doc TrimXMLCode TrimSubnodes sep before pend n
    if pend ≤ s then some d
    else
      let b := byteAt doc s
      if b = 0x26 then
        if byteAt doc (s + 1) = 0x23 then
          if isDigit (byteAt doc (s + 2)) then (convertReference doc (s + 2) d).bind fun (s, d) => loop s d
          else (d.emit [0x26, 0x23]).bind fun d => loop (s + 2) d
        else
          let e := namedEntity doc s
          (d.emit [e.1]).bind fun d => loop (s + e.2) d
      else if TrimXMLCode ∧ b = Ch.lt then
        (convertTag doc TrimSubnodes sep before s d).bind fun (d, p) =>
          match p with
          | none => some d
          | some p => loop p d
      else if 0x20 < schar b ∨ b = Ch.space ∧ lastByte before d ≠ Ch.space ∧ lastByte before d ≠ sep then
        (d.emit [b]).bind fun d => loop (s + 1) d
      else loop (s + 1) d

/-- `_convert_xml_to_text` of the text from `p` to `pend`; `cells` are in the buffer that `text` was given for it, and
`before` in front of it. Nothing where a byte outside of the buffer is written. -/
def convertText (doc : Text) (TrimXMLCode TrimSubnodes : Bool) (sep before : UInt8) (cells : Text) (p pend : ℕ) :
    Option Text :=
  let trim := TrimXMLCode || TrimSubnodes
  (convertTextLoop doc trim TrimSubnodes sep before pend (pend - p) p ⟨cells, 0⟩).map fun d =>
    if trim then trimSpace d.written else d.written

/-! ### Texts with entities -/

/-- The five entities with a name. -/
inductive Entity
  | lt
  | amp
  | gt
  | quot
  | apos
  deriving DecidableEq

def Entity.text : Entity → Text
  | .lt => [0x26, 0x6c, 0x74, 0x3b]
  | .amp => [0x26, 0x61, 0x6d, 0x70, 0x3b]
  | .gt => [0x26, 0x67, 0x74, 0x3b]
  | .quot => [0x26, 0x71, 0x75, 0x6f, 0x74, 0x3b]
  | .apos => [0x26, 0x61, 0x70, 0x6f, 0x73, 0x3b]

def Entity.char : Entity → UInt8
  | .lt => Ch.lt
  | .amp => 0x26
  | .gt => Ch.gt
  | .quot => Ch.dquote
  | .apos => Ch.squote

/-- The number that decimal digits stand for. -/
def decimal (digits : Text) : ℕ := digits.foldl (fun a c => a * 10 + (c.toNat - 0x30)) 0

/-- The digits of a reference to one of the characters 1 to 0xffff. -/
structure Reference where
  digits : Text
  isDigits : ∀ c ∈ digits, isDigit c = true
  pos : 1 ≤ decimal digits
  le : decimal digits ≤ 0xffff

/-- The character that is referred to. -/
def Reference.unit (r : Reference) : UInt16 := UInt16.ofNat (decimal r.digits)

/-- A printable character other than the space, `&` and `<`. -/
abbrev PlainChar := { b : UInt8 // 0x21 ≤ b ∧ b ≤ 0x7e ∧ b ≠ 0x26 ∧ b ≠ Ch.lt }

inductive Piece
  | char (b : PlainChar)
  | named (e : Entity)
  | reference (r : Reference)

def Piece.text : Piece → Text
  | .char b => [b.1]
  | .named e => e.text
  | .reference r => 0x26 :: 0x23 :: (r.digits ++ [0x3b])

/-- What a piece stands for. -/
def Piece.meaning : Piece → Text
  | .char b => [b.1]
  | .named e => [e.char]
  | .reference r => encodeUnit r.unit

/-- It is of two bytes. -/
def Reference.Kept (r : Reference) : Prop := 0x80 ≤ decimal r.digits ∧ decimal r.digits ≤ 0x7ff

instance (r : Reference) : Decidable r.Kept := inferInstanceAs (Decidable (_ ∧ _))

/-- What is written for a piece. -/
def Piece.kept : Piece → Text
  | .reference r => if r.Kept then encodeUnit r.unit else []
  | x => x.meaning

/-! ### One piece -/

section Steps

variable {doc rest : Text} {s n : ℕ} {d : Sink UInt8}

theorem plainChar_facts : ∀ b : UInt8, 0x21 ≤ b → b ≤ 0x7e → 0x20 < schar b ∧ isSkipped b = false := by
  set_option maxRecDepth 20000 in decide

theorem Entity.namedEntity_eq (e : Entity) (h : doc.drop s = e.text ++ rest) :
    namedEntity doc s = (e.char, e.text.length) := by
  unfold namedEntity
  rw [h]
  cases e <;> rfl

theorem le_foldl_decimal (digits : Text) (a : ℕ) : a ≤ digits.foldl (fun a c => a * 10 + (c.toNat - 0x30)) a := by
  induction digits generalizing a with
  | nil => exact le_rfl
  | cons c digits ih =>
    have hstep : a ≤ a * 10 + (c.toNat - 0x30) := by omega
    exact hstep.trans (ih _)

/-- A number of 16 bits is read without an overflow. -/
theorem foldl_referenceNumber {digits : Text} {a : ℕ} (hd : ∀ c ∈ digits, isDigit c = true)
    (h : digits.foldl (fun a c => a * 10 + (c.toNat - 0x30)) a ≤ 0xffff) :
    digits.foldl (fun a c => intOf (a * 10 + (c.toNat - 0x30))) (a : ℤ) =
      (digits.foldl (fun a c => a * 10 + (c.toNat - 0x30)) a : ℕ) := by
  induction digits generalizing a with
  | nil => rfl
  | cons c digits ih =>
    have hle := (le_foldl_decimal digits (a * 10 + (c.toNat - 0x30))).trans h
    have hc : 0x30 ≤ c.toNat := by
      have hc := hd c List.mem_cons_self
      simp only [isDigit, Bool.and_eq_true, decide_eq_true_eq] at hc
      exact UInt8.le_iff_toNat_le.mp hc.1
    have hstep : intOf ((a : ℤ) * 10 + (c.toNat - 0x30)) = ((a * 10 + (c.toNat - 0x30) : ℕ) : ℤ) := by
      rw [intOf_eq] <;> omega
    rw [List.foldl_cons, List.foldl_cons, hstep]
    exact ih (fun c hc => hd c (List.mem_cons_of_mem _ hc)) h

theorem Reference.referenceNumber_eq (r : Reference) : referenceNumber r.digits = decimal r.digits :=
  foldl_referenceNumber r.isDigits r.le

theorem Reference.toNat_unit (r : Reference) : r.unit.toNat = decimal r.digits := by
  have := r.le
  rw [Reference.unit, UInt16.toNat_ofNat']
  omega

theorem Reference.digits_ne_nil (r : Reference) : r.digits ≠ [] := by
  intro hnil
  have := r.pos
  rw [hnil] at this
  exact absurd this (by decide)

theorem length_kept_le (x : Piece) : x.kept.length ≤ x.text.length := by
  cases x with
  | char b => exact le_rfl
  | named e => cases e <;> decide
  | reference r =>
    have hne := List.length_pos_iff.mpr r.digits_ne_nil
    have hlen : (encodeUnit r.unit).length ≤ 3 := by
      rw [length_encodeUnit]
      split_ifs <;> omega
    simp only [Piece.kept, Piece.text, List.length_cons, List.length_append, List.length_nil]
    split_ifs
    · omega
    · exact Nat.zero_le _

/-- A reference is written over the place, and kept if it is of two bytes. -/
theorem Reference.convertReference_eq (r : Reference) (h : doc.drop s = r.digits ++ 0x3b :: rest)
    (hroom : d.pos + 4 ≤ d.cells.length) :
    ∃ d', convertReference doc s d = some (s + r.digits.length + 1, d') ∧ d.Follows d' (Piece.reference r).kept := by
  have hdigits : (doc.drop s).takeWhile isDigit = r.digits := by
    rw [h, List.takeWhile_append_of_pos r.isDigits, List.takeWhile_cons_of_neg (by decide), List.append_nil]
  have hend : byteAt doc (s + r.digits.length) = 0x3b := by
    have hd : doc[s + r.digits.length]? = some 0x3b := by
      rw [← List.getElem?_drop, h]
      simp
    rw [byteAt, List.getD_eq_getElem?_getD, hd]
    rfl
  have hunit := r.toNat_unit
  have hpos := r.pos
  -- what is written, in each of the branches
  have hwrite : ∃ d', (if (decimal r.digits : ℤ) ≤ 0x7f then d.put [UInt8.ofInt (decimal r.digits)]
      else if (0x7ff : ℤ) < decimal r.digits then d.put (leBytes 4 (threeBytes (decimal r.digits : ℤ).toNat))
      else d.emit (leBytes 2 (twoBytes (decimal r.digits : ℤ).toNat))) = some d' ∧
      d.Follows d' (Piece.reference r).kept := by
    by_cases hlow : decimal r.digits ≤ 0x7f
    · have hkept : (Piece.reference r).kept = [] := if_neg fun hk => by have := hk.1; omega
      rw [if_pos (by exact_mod_cast hlow), hkept]
      exact Sink.put_eq (by simp only [List.length_singleton]; omega)
    rw [if_neg (by exact_mod_cast hlow)]
    by_cases hhigh : 0x7ff < decimal r.digits
    · have hkept : (Piece.reference r).kept = [] := if_neg fun hk => by have := hk.2; omega
      rw [if_pos (by exact_mod_cast hhigh), hkept]
      exact Sink.put_eq (by rw [length_leBytes]; omega)
    · have hkept : (Piece.reference r).kept = leBytes 2 (twoBytes (decimal r.digits)) := by
        rw [← hunit, leBytes_twoBytes (by omega) (by omega)]
        exact if_pos ⟨by omega, by omega⟩
      rw [if_neg (by exact_mod_cast hhigh), hkept]
      exact Sink.emit_eq (by rw [length_leBytes]; omega)
  obtain ⟨d', hput, hfollows⟩ := hwrite
  refine ⟨d', ?_, hfollows⟩
  unfold convertReference
  simp only [hdigits, r.referenceNumber_eq, hend, if_true, hput, Option.map_some]

variable (TrimXMLCode TrimSubnodes : Bool) (sep before : UInt8) {pend : ℕ}

/-- A round of the loop takes a piece. -/
theorem convertTextLoop_piece (x : Piece) (h : doc.drop s = x.text ++ rest) (hs : s < pend)
    (hroom : d.pos + x.text.length ≤ d.cells.length) : ∃ d', d.Follows d' x.kept ∧ ∀ n,
      convertTextLoop doc TrimXMLCode TrimSubnodes sep before pend (n + 1) s d =
        convertTextLoop doc TrimXMLCode TrimSubnodes sep before pend n (s + x.text.length) d' := by
  have hbyte : ∀ i, byteAt doc (s + i) = (x.text ++ rest).getD i 0 := by
    intro i
    rw [← h, byteAt, List.getD_eq_getElem?_getD, List.getD_eq_getElem?_getD, List.getElem?_drop]
  have hfirst := hbyte 0
  rw [Nat.add_zero] at hfirst
  cases x with
  | char b =>
    obtain ⟨d', hemit, hfollows⟩ := Sink.emit_eq hroom
    refine ⟨d', hfollows, fun n => ?_⟩
    have hb : byteAt doc s = b.1 := hfirst
    rw [convertTextLoop, if_neg (Nat.not_le_of_gt hs)]
    simp only [hb, b.2.2.2.1, b.2.2.2.2, if_false, and_false, (plainChar_facts b.1 b.2.1 b.2.2.1).1, true_or, if_true]
    exact congrArg (Option.bind · _) hemit
  | named e =>
    obtain ⟨d', hemit, hfollows⟩ : ∃ d', d.emit [e.char] = some d' ∧ d.Follows d' [e.char] := Sink.emit_eq (by
      have := length_kept_le (.named e)
      simp only [Piece.kept, Piece.meaning, Piece.text] at this hroom
      omega)
    refine ⟨d', hfollows, fun n => ?_⟩
    have hentity := e.namedEntity_eq h
    have hb : byteAt doc s = 0x26 := by cases e <;> exact hfirst
    have hb' : byteAt doc (s + 1) ≠ 0x23 := by
      have h1 : byteAt doc (s + 1) = e.text.getD 1 0 := by
        rw [hbyte]
        cases e <;> rfl
      rw [h1]
      cases e <;> decide
    rw [convertTextLoop, if_neg (Nat.not_le_of_gt hs)]
    simp only [hb, hb', if_true, if_false, hentity, hemit, Option.bind_some]
    rfl
  | reference r =>
    have hne := List.length_pos_iff.mpr r.digits_ne_nil
    have hlen : (Piece.reference r).text.length = r.digits.length + 3 := by simp [Piece.text]
    have hdigits : doc.drop (s + 2) = r.digits ++ 0x3b :: rest := by
      rw [← List.drop_drop, h]
      simp [Piece.text]
    obtain ⟨d', hconvert, hfollows⟩ := r.convertReference_eq hdigits (d := d) (by omega)
    refine ⟨d', hfollows, fun n => ?_⟩
    have hb : byteAt doc s = 0x26 := hfirst
    have hb' : byteAt doc (s + 1) = 0x23 := hbyte 1
    have hdigit : isDigit (byteAt doc (s + 2)) = true := by
      obtain ⟨c, digits, hc⟩ := List.exists_cons_of_ne_nil r.digits_ne_nil
      rw [hbyte 2]
      simp only [Piece.text, hc, List.cons_append, List.getD_cons_succ, List.getD_cons_zero]
      exact r.isDigits c (hc ▸ List.mem_cons_self)
    rw [convertTextLoop, if_neg (Nat.not_le_of_gt hs)]
    simp only [hb, hb', hdigit, if_true, hconvert, Option.bind_some]
    rw [hlen, show s + 2 + r.digits.length + 1 = s + (r.digits.length + 3) by omega]

theorem length_text_pos (x : Piece) : 0 < x.text.length := by
  cases x with
  | char b => exact Nat.one_pos
  | named e => cases e <;> decide
  | reference r => exact Nat.succ_pos _

/-- The loop over all of the pieces. -/
theorem convertTextLoop_pieces : ∀ (ps : List Piece) {s n : ℕ} {d : Sink UInt8},
    doc.drop s = ps.flatMap Piece.text ++ rest → pend = s + (ps.flatMap Piece.text).length →
    (ps.flatMap Piece.text).length ≤ n → d.pos + (ps.flatMap Piece.text).length ≤ d.cells.length →
    ∃ d', convertTextLoop doc TrimXMLCode TrimSubnodes sep before pend n s d = some d' ∧
      d.Follows d' (ps.flatMap Piece.kept)
  | [], s, n, d, _, hpend, _, _ => by
    refine ⟨d, ?_, Sink.Follows.refl d⟩
    cases n with
    | zero => rfl
    | succ n => rw [convertTextLoop, if_pos (by simp [hpend])]
  | x :: ps, s, n, d, h, hpend, hn, hroom => by
    have hpos := length_text_pos x
    have hkept := length_kept_le x
    rw [List.flatMap_cons, List.append_assoc] at h
    rw [List.flatMap_cons, List.length_append] at hpend hn hroom
    obtain ⟨n, rfl⟩ := Nat.exists_eq_add_one.mpr (hpos.trans_le (by omega : x.text.length ≤ n))
    obtain ⟨d₁, hfollows, hstep⟩ := convertTextLoop_piece TrimXMLCode TrimSubnodes sep before (d := d) x h
      (by omega : s < pend) (by omega)
    have hrest : doc.drop (s + x.text.length) = ps.flatMap Piece.text ++ rest := by
      rw [← List.drop_drop, h, List.drop_left]
    obtain ⟨d₂, hrun, hfollows'⟩ := convertTextLoop_pieces ps (n := n) (d := d₁) hrest (by omega) (by omega) (by
      rw [hfollows.pos, hfollows.length]
      omega)
    exact ⟨d₂, (hstep n).trans hrun, hfollows.trans hfollows'⟩

end Steps

/-! ### The whole text -/

section Whole

variable {doc rest : Text} {p : ℕ} {ps : List Piece} {cells : Text}

/-- No byte outside of the buffer is written, and what is kept of the pieces comes out. -/
theorem convertText_eq (h : doc.drop p = ps.flatMap Piece.text ++ rest)
    (hcells : cells.length = (ps.flatMap Piece.text).length) (TrimXMLCode TrimSubnodes : Bool) (sep before : UInt8) :
    convertText doc TrimXMLCode TrimSubnodes sep before cells p (p + (ps.flatMap Piece.text).length) =
      some (if TrimXMLCode || TrimSubnodes then trimSpace (ps.flatMap Piece.kept) else ps.flatMap Piece.kept) := by
  obtain ⟨d, hrun, hfollows⟩ := convertTextLoop_pieces (TrimXMLCode || TrimSubnodes) TrimSubnodes sep before
    (n := (ps.flatMap Piece.text).length)
    (d := ⟨cells, 0⟩) ps h rfl le_rfl (by simp [hcells])
  have hwritten : d.written = ps.flatMap Piece.kept := hfollows.written
  rw [convertText, Nat.add_sub_cancel_left, hrun, ← hwritten]
  rfl

theorem encodeUnit_not_skipped (c : UInt16) (hc : 0x80 ≤ c.toNat) : ∀ b ∈ encodeUnit c, isSkipped b = false := by
  have hhigh : ∀ b : UInt8, 0x80 ≤ b → isSkipped b = false := by set_option maxRecDepth 20000 in decide
  have hlt := c.toNat_lt
  intro b hb
  refine hhigh b (UInt8.le_iff_toNat_le.mpr ?_)
  unfold encodeUnit at hb
  simp only [if_neg (Nat.not_lt.mpr hc)] at hb
  split at hb
  · simp only [List.mem_cons, List.not_mem_nil, or_false] at hb
    rcases hb with rfl | rfl <;> simp <;> omega
  · simp only [List.mem_cons, List.not_mem_nil, or_false] at hb
    rcases hb with rfl | rfl | rfl <;> simp <;> omega

theorem kept_not_skipped (x : Piece) : ∀ b ∈ x.kept, isSkipped b = false := by
  cases x with
  | char c =>
    intro b hb
    rw [List.mem_singleton.mp hb]
    exact (plainChar_facts c.1 c.2.1 c.2.2.1).2
  | named e =>
    intro b hb
    rw [List.mem_singleton.mp hb]
    cases e <;> decide
  | reference r =>
    by_cases hkept : r.Kept
    · rw [show (Piece.reference r).kept = encodeUnit r.unit from if_pos hkept]
      exact encodeUnit_not_skipped _ (by rw [r.toNat_unit]; exact hkept.1)
    · rw [show (Piece.reference r).kept = [] from if_neg hkept]
      exact fun b hb => absurd hb List.not_mem_nil

/-- No reference is lost. -/
def NoneLost (ps : List Piece) : Prop := ∀ r, Piece.reference r ∈ ps → r.Kept

theorem kept_eq_meaning (x : Piece) (h : NoneLost [x]) : x.kept = x.meaning := by
  cases x with
  | char b => rfl
  | named e => rfl
  | reference r => exact if_pos (h r List.mem_cons_self)

theorem length_kept_le_meaning (x : Piece) : x.kept.length ≤ x.meaning.length := by
  cases x with
  | char b => exact le_rfl
  | named e => exact le_rfl
  | reference r =>
    simp only [Piece.kept, Piece.meaning]
    split
    · exact le_rfl
    · exact Nat.zero_le _

/-- A reference that is lost is missing in the length. -/
theorem noneLost_of_length (h : (ps.flatMap Piece.meaning).length ≤ (ps.flatMap Piece.kept).length) : NoneLost ps := by
  have hle : ∀ ps : List Piece, (ps.flatMap Piece.kept).length ≤ (ps.flatMap Piece.meaning).length := by
    intro ps
    induction ps with
    | nil => exact le_rfl
    | cons x ps ih =>
      have := length_kept_le_meaning x
      simp only [List.flatMap_cons, List.length_append]
      omega
  induction ps with
  | nil => exact fun r hr => absurd hr List.not_mem_nil
  | cons x ps ih =>
    have h1 := length_kept_le_meaning x
    have h2 := hle ps
    simp only [List.flatMap_cons, List.length_append] at h
    intro r hr
    rcases List.mem_cons.mp hr with rfl | hr
    · by_contra hlost
      have hkept : (Piece.reference r).kept = [] := if_neg hlost
      have hpos : 0 < (Piece.reference r).meaning.length := encodeUnit_pos r.unit
      rw [hkept, List.length_nil] at h
      omega
    · exact ih (by omega) r hr

end Whole

/-- `&#233;`. -/
def eAcute : Reference := ⟨[0x32, 0x33, 0x33], by simp [isDigit], by decide, by decide⟩

/-- `&#65;`. -/
def capitalA : Reference := ⟨[0x36, 0x35], by simp [isDigit], by decide, by decide⟩

end Cpcf.Rt.Xml
