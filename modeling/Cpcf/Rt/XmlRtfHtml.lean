import Mathlib
import Cpcf.Lib.Sink
import Cpcf.Rt.XmlParser

/-!
`XMLParser::GetInnerRtfHtml` with the buffer that it writes to, which has the length of the inner text of the node.

A tag is written in a form of its own, which may be longer than the tag. What is written fits if and only if the tags
that get longer are made up for by those that get shorter and by the blanks that are left out.
-/

namespace Cpcf.Rt.Xml

open Cpcf.Lib Cpcf.Lib.Word

/-! ### The conversion -/

section Conversion

variable {σ : Type}

/-- `GetInnerXML`: where the text begins and ends. -/
def Parser.getInnerXML (s : Parser σ) : (ℕ × ℕ) × Parser σ :=
  match s.nodePath with
  | [] => ((0, 0), s)
  | node :: _ =>
    if node.isCompactNode then ((0, 0), s)
    else
      match searchNodeClose s.doc node.innerXML_Start node.tagName with
      | .error (e, p) => ((0, 0), s.setLastSyntaxError e p)
      | .ok (_, inner_end) =>
        let inner := (s.doc.drop node.innerXML_Start).take (inner_end - node.innerXML_Start)
        let start := node.innerXML_Start + (inner.takeWhile isSkipped).length
        ((start, start + (trimSpace inner).length), s)

/-- `br` and `hr`. -/
def lineTags : List Text := [[0x62, 0x72], [0x68, 0x72]]

/-- The tags that are written without their attributes: `p`, `b`, `i`, `q`, `s`, `u`, `em`, `ol`, `ul`, `li`, `hr`, `h1`
to `h6`, `strong`, `code`, `big`, `pre`, `sub`, `sup` and `small`. -/
def formatTags : List Text :=
  [[0x70], [0x62], [0x69], [0x71], [0x73], [0x75], [0x65, 0x6d], [0x6f, 0x6c], [0x75, 0x6c], [0x6c, 0x69], [0x68, 0x72],
    [0x68, 0x31], [0x68, 0x32], [0x68, 0x33], [0x68, 0x34], [0x68, 0x35], [0x68, 0x36],
    [0x73, 0x74, 0x72, 0x6f, 0x6e, 0x67], [0x63, 0x6f, 0x64, 0x65], [0x62, 0x69, 0x67], [0x70, 0x72, 0x65],
    [0x73, 0x75, 0x62], [0x73, 0x75, 0x70], [0x73, 0x6d, 0x61, 0x6c, 0x6c]]

/-- `script`. -/
def scriptTag : Text := [0x73, 0x63, 0x72, 0x69, 0x70, 0x74]

/-- `href`. -/
def href : Text := [0x68, 0x72, 0x65, 0x66]

/-- `<a href="`. -/
def linkOpen : Text := [Ch.lt, 0x61, 0x20, 0x68, 0x72, 0x65, 0x66, Ch.equals, Ch.dquote]

/-- What is written for a tag, the last byte that is gone over, and the error that is set. -/
structure RtfTag where
  written : Text
  close : ℕ
  error : Option (XMLParseError × ℕ)

/-- Tags are looked for by comparing them. -/
local instance lawfulTag : LawfulBEq Text := inferInstance

/-- The tag that begins at `s` and ends at `close`; `last` is the byte that was written last. -/
def rtfTag (doc : Text) (s close : ℕ) (last : Option UInt8) : RtfTag :=
  let tag_start := if byteAt doc (s + 1) = Ch.slash then s + 2 else s + 1
  let tag_end := seekSymbolEnd doc tag_start
  let tag := (doc.drop tag_start).take (tag_end - tag_start)
  let slash := byteAt doc (tag_start - 1) = Ch.slash
  let other : RtfTag :=
    ⟨if last.all fun b => schar b < 0 || 0x20 < schar b || b ≠ Ch.gt then [Ch.space] else [], close, none⟩
  if tag ∈ lineTags then ⟨[Ch.lt, byteAt doc tag_start, 0x72, Ch.space, Ch.slash, Ch.gt], close, none⟩
  else if tag = [0x61] then
    if slash then ⟨[Ch.lt, Ch.slash, 0x61, Ch.gt], close, none⟩
    else
      let r := searchAttrib doc href (doc.length + 1) tag_end none
      let url := (r.1.map fun v => (doc.drop v.1).take (v.2 - v.1)).getD []
      ⟨linkOpen ++ url ++ [Ch.dquote, Ch.gt], close, r.2⟩
  else if tag ∈ formatTags then ⟨Ch.lt :: (if slash then [Ch.slash] else []) ++ tag ++ [Ch.gt], close, none⟩
  else if tag = scriptTag ∧ byteAt doc (tag_start - 1) = Ch.lt then
    match searchNodeClose doc (close + 1) tag with
    | .ok (js_close, _) => ⟨[], js_close, none⟩
    | .error _ => other
  else other

/-- A blank that is left out, `last` being the byte that was written last. -/
def squeezed (last : Option UInt8) (b : UInt8) : Bool := isBlank b && last.any fun c => isBlank c || c = Ch.gt

/-- Where the tag that begins at `s` ends. -/
def tagCloseAt (doc : Text) (s : ℕ) : Option ℕ := if byteAt doc s = Ch.lt then strchr doc (s + 1) Ch.gt else none

/-- The loop of `GetInnerRtfHtml`, in which `s` goes on by one byte at least, with the error that was set last. Nothing
where a byte outside of the buffer is written. -/
def rtfLoop (doc : Text) (pend : ℕ) :
    ℕ → ℕ → Sink UInt8 → Option (XMLParseError × ℕ) → Option (Sink UInt8 × Option (XMLParseError × ℕ))
  | 0, _, p, err => some (p, err)
  | n + 1, s, p, err =>
    if pend ≤ s then some (p, err)
    else
      match tagCloseAt doc s with
      | some close =>
        let t := rtfTag doc s close p.written.getLast?
        (p.emit t.written).bind fun p => rtfLoop doc pend n (t.close + 1) p (t.error.or err)
      | none =>
        if squeezed p.written.getLast? (byteAt doc s) then rtfLoop doc pend n (s + 1) p err
        else (p.emit [byteAt doc s]).bind fun p => rtfLoop doc pend n (s + 1) p err

/-- `GetInnerRtfHtml`: what it returns, the text, and the parser; `cells` is what stands in a new buffer. Nothing where
a byte outside of the buffer is written. -/
def Parser.getInnerRtfHtml (s : Parser σ) (cells : ℕ → UInt8) : Option (Bool × Text × Parser σ) :=
  match s.nodePath with
  | [] => none
  | node :: _ =>
    if node.isCompactNode then some (false, [], s)
    else
      let xml := s.getInnerXML
      let out : Sink UInt8 := ⟨(List.range (xml.1.2 - xml.1.1)).map cells, 0⟩
      (rtfLoop s.doc xml.1.2 (xml.1.2 - xml.1.1) xml.1.1 out none).map fun r =>
        (true, r.1.written, (r.2.map fun e => xml.2.setLastSyntaxError e.1 e.2).getD xml.2)

end Conversion

/-! ### The pieces of the text -/

/-- A tag, with what is written for it and its length in the text, or a character. -/
inductive RtfPiece
  | tag (written : Text) (length : ℕ)
  | char (b : UInt8)

/-- The pieces of the text from `s` to `pend`, of which there are no more than `n`. -/
def rtfPieces (doc : Text) (pend : ℕ) : ℕ → ℕ → List RtfPiece
  | 0, _ => []
  | n + 1, s =>
    if pend ≤ s then []
    else
      match tagCloseAt doc s with
      | some close =>
        let t := rtfTag doc s close none
        .tag t.written (min (t.close + 1) pend - s) :: rtfPieces doc pend n (t.close + 1)
      | none => .char (byteAt doc s) :: rtfPieces doc pend n (s + 1)

/-- The pieces of the inner text of the node. -/
def Parser.rtfPieces {σ : Type} (s : Parser σ) : List RtfPiece :=
  let xml := s.getInnerXML.1
  Xml.rtfPieces s.doc xml.2 (xml.2 - xml.1) xml.1

/-- By how much tags get longer. -/
def grown : List RtfPiece → ℕ
  | [] => 0
  | .tag written length :: xs => (written.length - length) + grown xs
  | .char _ :: xs => grown xs

/-- By how much tags get shorter, and the blanks that are left out; `last` is what was written last. -/
def shrunk : Option UInt8 → List RtfPiece → ℕ
  | _, [] => 0
  | last, .tag written length :: xs => (length - written.length) + shrunk (written.getLast?.or last) xs
  | last, .char b :: xs => if squeezed last b then 1 + shrunk last xs else shrunk (some b) xs

/-- How much is written. -/
def rtfLength : Option UInt8 → List RtfPiece → ℕ
  | _, [] => 0
  | last, .tag written _ :: xs => written.length + rtfLength (written.getLast?.or last) xs
  | last, .char b :: xs => if squeezed last b then rtfLength last xs else 1 + rtfLength (some b) xs

/-- The length of a piece in the text. -/
def RtfPiece.length : RtfPiece → ℕ
  | .tag _ length => length
  | .char _ => 1

theorem rtfLength_add_shrunk (last : Option UInt8) (xs : List RtfPiece) :
    rtfLength last xs + shrunk last xs = (xs.map RtfPiece.length).sum + grown xs := by
  induction xs generalizing last with
  | nil => rfl
  | cons x xs ih =>
    cases x with
    | tag written length =>
      have := ih (written.getLast?.or last)
      simp only [rtfLength, shrunk, grown, RtfPiece.length, List.map_cons, List.sum_cons]
      omega
    | char b =>
      simp only [rtfLength, shrunk, grown, RtfPiece.length, List.map_cons, List.sum_cons]
      split
      · have := ih last
        omega
      · have := ih (some b)
        omega

/-! ### Going on in the document -/

section Progress

variable {doc : Text} {p start i : ℕ} {b c : UInt8}

theorem le_of_strchr (h : strchr doc start c = some p) : start ≤ p := by
  obtain ⟨i, -, rfl⟩ := Option.map_eq_some_iff.mp h
  exact Nat.le_add_right _ _

theorem le_of_searchEnding {start_pos : ℕ} {symbol : Text} {err : XMLParseError} (hs : symbol ≠ [])
    (h : searchEnding doc start start_pos symbol err = .ok p) : start_pos ≤ p := by
  have hpos := List.length_pos_iff.mpr hs
  unfold searchEnding at h
  split at h
  · rename_i q hq
    obtain ⟨i, -, rfl⟩ := Option.map_eq_some_iff.mp hq
    cases h
    omega
  · cases h

theorem le_of_searchSpecialNodeClose (h : searchSpecialNodeClose doc start = .ok p) : start ≤ p := by
  unfold searchSpecialNodeClose at h
  split at h
  · have := le_of_searchEnding (by decide) h
    omega
  split at h
  · have := le_of_searchEnding (by decide) h
    omega
  split at h
  · have := le_of_searchEnding (by decide) h
    omega
  split at h
  · cases h
  · simp only at h
    split at h
    · cases h
    split at h
    · cases h
      omega
    · have := le_of_searchEnding (by decide) h
      omega

theorem le_of_searchNodeCloseLoop {tag : Text} {inner q : ℕ} : ∀ {n start : ℕ} {enclosure : ℤ},
    searchNodeCloseLoop doc inner tag n enclosure start = .ok (p, q) → start ≤ p
  | 0, _, _, h => by cases h
  | n + 1, start, enclosure, h => by
    unfold searchNodeCloseLoop at h
    split at h
    · cases h
    rename_i open_ hopen
    have hle := le_of_strchr hopen
    split at h
    · split at h
      · cases h
      rename_i pend hpend
      have hle' := le_of_strchr hpend
      -- the tag ends there, or the search goes on behind it
      split at h
      · split at h
        · cases h
        split at h
        · cases h
          omega
        · have := le_of_searchNodeCloseLoop h
          omega
      split at h
      · have := le_of_searchNodeCloseLoop h
        omega
      · have := le_of_searchNodeCloseLoop h
        omega
    · split at h
      · cases h
      rename_i close hclose
      have := le_of_searchSpecialNodeClose hclose
      have := le_of_searchNodeCloseLoop h
      omega

/-- A space is written for any other tag: what was written last is not at once a blank and `>`. -/
theorem rtfTag_last (doc : Text) (s close : ℕ) (last : Option UInt8) :
    rtfTag doc s close last = rtfTag doc s close none := by
  have hall : last.all (fun b => schar b < 0 || 0x20 < schar b || b ≠ Ch.gt) = true := by
    have hgt : ∀ b : UInt8, (schar b < 0 || 0x20 < schar b || b ≠ Ch.gt) = true := by
      intro b
      by_cases hb : b = Ch.gt
      · rw [hb]
        rfl
      · rw [decide_eq_true (p := b ≠ Ch.gt) hb, Bool.or_true]
    cases last with
    | none => rfl
    | some b => exact hgt b
  simp only [rtfTag, hall, if_true, Option.all_none]

theorem lt_rtfTag_close {s close : ℕ} (h : tagCloseAt doc s = some close) : s < (rtfTag doc s close none).close := by
  have hlt : s < close := by
    unfold tagCloseAt at h
    split at h
    · exact le_of_strchr h
    · cases h
  have hjs : ∀ {tag : Text} {js_close q : ℕ}, searchNodeClose doc (close + 1) tag = .ok (js_close, q) →
      s < js_close := by
    intro tag js_close q hjs
    have := le_of_searchNodeCloseLoop hjs
    omega
  unfold rtfTag
  simp only
  generalize (if byteAt doc (s + 1) = Ch.slash then s + 2 else s + 1) = tag_start
  split
  · exact hlt
  split
  · split
    · exact hlt
    · exact hlt
  split
  · exact hlt
  split
  · split
    · rename_i hfound
      exact hjs hfound
    · exact hlt
  · exact hlt

end Progress

/-! ### The loop -/

section Loop

variable {doc : Text} {pend : ℕ}

theorem sum_length_rtfPieces : ∀ {n s : ℕ}, pend - s ≤ n → ((rtfPieces doc pend n s).map RtfPiece.length).sum = pend - s
  | 0, s, h => by
    rw [Nat.le_zero.mp h]
    rfl
  | n + 1, s, h => by
    unfold rtfPieces
    split
    · simp only [List.map_nil, List.sum_nil]
      omega
    split
    · rename_i close hclose
      have hlt := lt_rtfTag_close hclose
      have ih := sum_length_rtfPieces (n := n) (s := (rtfTag doc s close none).close + 1) (by omega)
      simp only [List.map_cons, List.sum_cons, RtfPiece.length, ih]
      omega
    · have ih := sum_length_rtfPieces (n := n) (s := s + 1) (by omega)
      simp only [List.map_cons, List.sum_cons, RtfPiece.length, ih]
      omega

/-- The loop stays in the buffer if and only if what is written of the pieces fits. -/
theorem isSome_rtfLoop_iff : ∀ {n s : ℕ} {p : Sink UInt8} (err : Option (XMLParseError × ℕ)),
    p.pos ≤ p.cells.length → ((rtfLoop doc pend n s p err).isSome ↔
      p.pos + rtfLength p.written.getLast? (rtfPieces doc pend n s) ≤ p.cells.length)
  | 0, s, p, err, hp => by simpa [rtfLoop, rtfPieces, rtfLength] using hp
  | n + 1, s, p, err, hp => by
    -- one piece is written, and the rest of the pieces behind it
    have hemit : ∀ (ys : Text) (next : ℕ) (err : Option (XMLParseError × ℕ)),
        ((p.emit ys).bind fun p => rtfLoop doc pend n next p err).isSome ↔
          p.pos + (ys.length + rtfLength (ys.getLast?.or p.written.getLast?) (rtfPieces doc pend n next)) ≤
            p.cells.length := by
      intro ys next err
      by_cases hroom : p.pos + ys.length ≤ p.cells.length
      · obtain ⟨p', hp', hfollows⟩ := Sink.emit_eq hroom
        have hpos : p'.pos ≤ p'.cells.length := by
          rw [hfollows.pos, hfollows.length]
          exact hroom
        have ih := isSome_rtfLoop_iff (n := n) (s := next) err hpos
        rw [hfollows.pos, hfollows.length, hfollows.written, List.getLast?_append] at ih
        rw [hp', Option.bind_some, ih, Nat.add_assoc]
      · rw [Sink.emit_eq_none (by omega)]
        simp only [Option.bind_none, Option.isSome_none, Bool.false_eq_true, false_iff]
        omega
    unfold rtfLoop rtfPieces
    split
    · simpa [rtfLength] using hp
    split
    · rename_i close hclose
      rw [rtfTag_last]
      exact hemit _ _ _
    · simp only [rtfLength]
      split
      · exact isSome_rtfLoop_iff err hp
      · exact hemit [byteAt doc s] _ _

end Loop

/-- `<x><br/>  <i>a</i></x>`. -/
def breakAndBlanks : Text :=
  [0x3c, 0x78, 0x3e, 0x3c, 0x62, 0x72, 0x2f, 0x3e, 0x20, 0x20, 0x3c, 0x69, 0x3e, 0x61, 0x3c, 0x2f, 0x69, 0x3e,
    0x3c, 0x2f, 0x78, 0x3e]

/-- `<x><br/></x>`. -/
def singleBreak : Text := [0x3c, 0x78, 0x3e, 0x3c, 0x62, 0x72, 0x2f, 0x3e, 0x3c, 0x2f, 0x78, 0x3e]

end Cpcf.Rt.Xml
