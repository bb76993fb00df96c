import Cpcf.Lib.Word
import Cpcf.Rt.XmlComposer

/-!
`rt::XMLParser`: going through the elements of a document, and reading their attributes.

The parser keeps no tree. A pointer into the document is the number of bytes before it; the document ends with a zero
byte, which is what is read behind it.
-/

namespace Cpcf.Rt.Xml

open Cpcf.Lib.Word

/-! ### Searching in the document -/

/-- `*p`. -/
def byteAt (doc : Text) (p : ℕ) : UInt8 := doc.getD p 0

/-- `strchr(start, c)`. -/
def strchr (doc : Text) (start : ℕ) (c : UInt8) : Option ℕ :=
  ((doc.drop start).findIdx? fun b => b = c).map (start + ·)

/-- Where a text first stands in another one. -/
def findText (s : Text) : Text → Option ℕ
  | [] => if s.isEmpty then some 0 else none
  | b :: t => if s.isPrefixOf (b :: t) then some 0 else (findText s t).map (· + 1)

/-- `strstr(start, s)`. -/
def strstr (doc : Text) (start : ℕ) (s : Text) : Option ℕ := (findText s (doc.drop start)).map (start + ·)

/-- `0 < b && b <= ' '`. -/
def isBlank (b : UInt8) : Bool := 0 < schar b && schar b ≤ 0x20

/-- The characters that `_seek_symbol_end` goes over. -/
def isSymbol (b : UInt8) : Bool :=
  (0x2d ≤ schar b || b = 0x23 || schar b < 0) && b ≠ Ch.slash && b ≠ Ch.lt && b ≠ Ch.gt && b ≠ Ch.equals &&
    b ≠ Ch.lbracket && b ≠ Ch.rbracket

/-- `_seek_symbol_end`. -/
def seekSymbolEnd (doc : Text) (start : ℕ) : ℕ := start + ((doc.drop start).takeWhile isSymbol).length

/-- `XMLParseError`, as far as it is set here. -/
inductive XMLParseError
  | ok
  | unexpectedEndOfFile
  | symbolUnexpected
  | attributeEqualsignNotFound
  | attributeNameNotFound
  | attributeQuotationNotMatched
  | nodeClosureNotMatched
  | tagClosureNotMatched
  | cdataClosureNotMatched
  | commentClosureNotMatched
  | procInstClosureNotMatched
  | tagNameNotFound
  deriving DecidableEq

/-- The end of a special node: the last byte of `ending_symbol`. -/
def searchEnding (doc : Text) (start start_pos : ℕ) (ending_symbol : Text) (errnum : XMLParseError) :
    Except (XMLParseError × ℕ) ℕ :=
  match strstr doc start_pos ending_symbol with
  | some p => .ok (p + ending_symbol.length - 1)
  | none => .error (errnum, start)

/-- `<!--`. -/
def commentOpen : Text := [Ch.lt, 0x21, Ch.minus, Ch.minus]

/-- `_search_special_node_close`. -/
def searchSpecialNodeClose (doc : Text) (start : ℕ) : Except (XMLParseError × ℕ) ℕ :=
  if commentOpen.isPrefixOf (doc.drop start) then
    searchEnding doc start (start + 4) [Ch.minus, Ch.minus, Ch.gt] .commentClosureNotMatched
  else if List.isPrefixOf [Ch.lt, 0x3f] (doc.drop start) then
    searchEnding doc start (start + 2) [0x3f, Ch.gt] .procInstClosureNotMatched
  else if cdataOpen.tail.isPrefixOf (doc.drop (start + 1)) then
    searchEnding doc start (start + 9) cdataClose .cdataClosureNotMatched
  else
    match (doc.drop (start + 1)).findIdx? fun b => b = Ch.gt || b = Ch.lbracket || b = Ch.lt with
    | none => .error (.unexpectedEndOfFile, start)
    | some i =>
      let p := start + 1 + i
      if byteAt doc p = Ch.lt then .error (.symbolUnexpected, p)
      else if byteAt doc p = Ch.gt then .ok p
      else searchEnding doc start (start + 2) [Ch.rbracket, Ch.gt] .procInstClosureNotMatched

/-- The loop of `_search_node_close`, for a document that has no more than `n` tags from `start` on: the `>` of the
closing tag, and its `<`. -/
def searchNodeCloseLoop (doc : Text) (start_inner : ℕ) (tag_name : Text) :
    ℕ → ℤ → ℕ → Except (XMLParseError × ℕ) (ℕ × ℕ)
  | 0, _, _ => .error (.unexpectedEndOfFile, start_inner)
  | n + 1, enclosure, start =>
    match strchr doc start Ch.lt with
    | none => .error (.unexpectedEndOfFile, start_inner)
    | some start =>
      if byteAt doc (start + 1) ≠ 0x21 ∧ byteAt doc (start + 1) ≠ 0x3f then
        match strchr doc (start + 1) Ch.gt with
        | none => .error (.tagClosureNotMatched, start)
        | some pend =>
          if byteAt doc (start + 1) = Ch.slash then
            if byteAt doc (pend - 1) = Ch.slash then .error (.symbolUnexpected, pend - 1)
            else if enclosure - 1 = -1 ∧ tag_name.isPrefixOf (doc.drop (start + 2)) then .ok (pend, start)
            else searchNodeCloseLoop doc start_inner tag_name n (enclosure - 1) (pend + 1)
          else if byteAt doc (pend - 1) ≠ Ch.slash then
            searchNodeCloseLoop doc start_inner tag_name n (enclosure + 1) (pend + 1)
          else searchNodeCloseLoop doc start_inner tag_name n enclosure (pend + 1)
      else
        match searchSpecialNodeClose doc start with
        | .error e => .error e
        | .ok p => searchNodeCloseLoop doc start_inner tag_name n enclosure (p + 1)

/-- `_search_node_close`. -/
def searchNodeClose (doc : Text) (start_inner : ℕ) (tag_name : Text) : Except (XMLParseError × ℕ) (ℕ × ℕ) :=
  searchNodeCloseLoop doc start_inner tag_name (doc.length + 1) 0 start_inner

/-! ### Going through the document -/

/-- `_node`. -/
structure Node where
  tagName : Text
  attributesBegin : ℕ
  attributes : Text
  outerXML_Start : ℕ
  innerXML_Start : ℕ
  isCompactNode : Bool

/-- `_TagTest(tag_name, attributes, DescendantLevel)` of a `_XML_Tag_Filter`, which may keep a state. -/
abbrev TagFilter (σ : Type) := Text → ℕ → ℕ → σ → Bool × σ

structure Parser (σ : Type) where
  doc : Text
  /-- `m_pDocument`. -/
  pDocument : ℕ
  rootNodeXmlStart : ℕ
  rootNodeXmlEnd : ℕ
  error : XMLParseError
  errorPosition : ℕ
  /-- `m_NodePath`, the last one first. -/
  nodePath : List Node
  /-- `m_pCurTagFilter`. -/
  curTagFilter : Option (TagFilter σ)
  filterState : σ

variable {σ : Type} (s : Parser σ)

/-- `SetLastSyntaxError`. -/
def Parser.setLastSyntaxError (errnum : XMLParseError) (pos : ℕ) : Parser σ :=
  { s with error := errnum, errorPosition := pos - s.pDocument }

/-- `GetDescendantLevel`. -/
def Parser.getDescendantLevel : ℕ := s.nodePath.length

/-- `GetNodeName`. -/
def Parser.getNodeName : Text := (s.nodePath.head?.map Node.tagName).getD []

/-- `!pFilter || pFilter->_TagTest(..)`. -/
def Parser.tagTest (pFilter : Option (TagFilter σ)) (tag : Text) (patt level : ℕ) : Bool × Parser σ :=
  match pFilter with
  | none => (true, s)
  | some f =>
    let r := f tag patt level s.filterState
    (r.1, { s with filterState := r.2 })

/-- The node that `_EnterNextNode` makes for a tag. -/
def makeNode (doc tag : Text) (ptag patt pend : ℕ) : Node :=
  let compact : Bool := byteAt doc (pend - 1) = Ch.slash
  let attributes := (doc.drop patt).take (if compact then pend - patt - 1 else pend - patt)
  { tagName := tag
    attributesBegin := patt + (attributes.takeWhile isSkipped).length
    attributes := trimSpace attributes
    outerXML_Start := ptag
    innerXML_Start := pend + 1
    isCompactNode := compact }

/-- The node becomes the last one of the path, in the place of the last one or behind it. -/
def Parser.putNode (replace_node : Bool) (node : Node) : Parser σ :=
  { s with nodePath := node :: if replace_node then s.nodePath.tail else s.nodePath }

/-- The loop of `_EnterNextNode`, for a document that has no more than `n` tags from `start` on. -/
def enterNextNodeLoop (pFilter : Option (TagFilter σ)) (replace_node : Bool) :
    ℕ → ℕ → Parser σ → Bool × Parser σ
  | 0, _, s => (false, s)
  | n + 1, start, s =>
    match strchr s.doc start Ch.lt with
    | none => (false, s)
    | some ptag =>
      if byteAt s.doc (ptag + 1) = Ch.slash then (false, s)
      else if s.rootNodeXmlEnd ≤ ptag then (false, s)
      else if byteAt s.doc (ptag + 1) = 0x21 ∨ byteAt s.doc (ptag + 1) = 0x3f then
        match searchSpecialNodeClose s.doc ptag with
        | .error (e, p) => (false, s.setLastSyntaxError e p)
        | .ok p => enterNextNodeLoop pFilter replace_node n (p + 1) s
      else
        let patt := seekSymbolEnd s.doc (ptag + 1)
        let tag := (s.doc.drop (ptag + 1)).take (patt - (ptag + 1))
        if tag.isEmpty then (false, s.setLastSyntaxError .tagNameNotFound (ptag + 1))
        else
          match strchr s.doc patt Ch.gt with
          | none => (false, s.setLastSyntaxError .tagClosureNotMatched ptag)
          | some pend =>
            match s.tagTest pFilter tag patt (s.getDescendantLevel + if replace_node then 0 else 1) with
            | (true, s) => (true, s.putNode replace_node (makeNode s.doc tag ptag patt pend))
            | (false, s) =>
              if byteAt s.doc (pend - 1) = Ch.slash then enterNextNodeLoop pFilter replace_node n (pend + 1) s
              else
                match searchNodeClose s.doc (pend + 1) tag with
                | .error (e, p) =>
                  (false, (s.setLastSyntaxError e p).setLastSyntaxError .nodeClosureNotMatched ptag)
                | .ok (close, _) => enterNextNodeLoop pFilter replace_node n (close + 1) s

/-- `_EnterNextNode`. -/
def Parser.enterNextNode (start : ℕ) (pFilter : Option (TagFilter σ)) (replace_node : Bool) : Bool × Parser σ :=
  if s.rootNodeXmlEnd ≤ start then (false, s)
  else enterNextNodeLoop pFilter replace_node (s.doc.length + 1) start s

/-- The loop of `Load` over what stands before the root. -/
def loadLoop : ℕ → ℕ → Parser σ → Bool × Parser σ
  | 0, _, s => (false, s)
  | n + 1, start, s =>
    match strchr s.doc start Ch.lt with
    | none => (false, s)
    | some start =>
      if byteAt s.doc (start + 1) = 0x21 ∨ byteAt s.doc (start + 1) = 0x3f then
        match searchSpecialNodeClose s.doc start with
        | .error (e, p) => (false, s.setLastSyntaxError e p)
        | .ok p => loadLoop n (p + 1) s
      else { s with rootNodeXmlStart := start }.enterNextNode start none false

/-- `Load(text, true, len)` of a new parser; the filter that is set later on starts with `x`. -/
def load (x : σ) (text : Text) (len : ℕ) : Bool × Parser σ :=
  let pDocument := if List.isPrefixOf [0xef, 0xbb, 0xbf] text then 3 else 0
  loadLoop (text.length + 1) pDocument ⟨text, pDocument, 0, len, .ok, 0, [], none, x⟩

/-- `EnterFirstChildNode`. -/
def Parser.enterFirstChildNode (tag_name : Option Text) : Bool × Parser σ :=
  let pfilter : Option (TagFilter σ) :=
    match tag_name with
    | none => s.curTagFilter
    | some name => some fun tag attributes level x =>
      if tag ≠ name then (false, x)
      else
        match s.curTagFilter with
        | none => (true, x)
        | some f => f tag attributes level x
  match s.nodePath with
  | [] => s.enterNextNode s.rootNodeXmlStart pfilter false
  | node :: _ => if node.isCompactNode then (false, s) else s.enterNextNode node.innerXML_Start pfilter false

/-- `EnterNextSiblingNode`. -/
def Parser.enterNextSiblingNode : Bool × Parser σ :=
  match s.nodePath with
  | [] => (false, s)
  | node :: _ =>
    if node.isCompactNode then s.enterNextNode node.innerXML_Start s.curTagFilter true
    else
      match searchNodeClose s.doc node.innerXML_Start node.tagName with
      | .error (e, p) => (false, s.setLastSyntaxError e p)
      | .ok (close, _) => s.enterNextNode (close + 1) s.curTagFilter true

/-- `EnterParentNode`. -/
def Parser.enterParentNode : Bool × Parser σ :=
  if 1 < s.getDescendantLevel then (true, { s with nodePath := s.nodePath.tail }) else (false, s)

/-- The loop of `EnterSucceedNode`, from a node that is no deeper than `n`. -/
def climb : ℕ → Parser σ → Bool × Parser σ
  | 0, s => (false, s)
  | n + 1, s =>
    if s.error ≠ .ok then (false, s)
    else
      match s.enterParentNode with
      | (false, s) => (false, s)
      | (true, s) =>
        match s.enterNextSiblingNode with
        | (true, s) => (true, s)
        | (false, s) => climb n s

/-- `EnterSucceedNode`, without an XPath. -/
def Parser.enterSucceedNode : Bool × Parser σ :=
  match s.enterFirstChildNode none with
  | (true, s) => (true, s)
  | (false, s) =>
    if s.error ≠ .ok then (false, s)
    else
      match s.enterNextSiblingNode with
      | (true, s) => (true, s)
      | (false, s) => climb s.getDescendantLevel s

/-- The parser at each node that it comes to, from the one that it is at, in at most `n` calls of `EnterSucceedNode`,
and after the call that returns false. -/
def walk : ℕ → Parser σ → List (Parser σ) × Option (Parser σ)
  | 0, s => ([s], none)
  | n + 1, s =>
    match s.enterSucceedNode with
    | (false, s') => ([s], some s')
    | (true, s') => (s :: (walk n s').1, (walk n s').2)

/-! ### Attributes -/

/-- `_seek_next_attrib`, with the error that was set last: where it stopped, the name, and where the value begins and
ends. -/
def seekNextAttrib (doc : Text) : ℕ → ℕ → Option (XMLParseError × ℕ) →
    Option (ℕ × Text × ℕ × ℕ) × Option (XMLParseError × ℕ)
  | 0, _, err => (none, err)
  | n + 1, start, err =>
    let b := byteAt doc start
    if b = 0 ∨ b = Ch.gt ∨ b = Ch.slash ∧ byteAt doc (start + 1) = Ch.gt then (none, err)
    else if schar (byteAt doc (start - 1)) < 0x2d ∧ (0x2d ≤ schar b ∨ schar b < 0) then
      let stop := seekSymbolEnd doc start
      if stop = start then (none, some (.attributeNameNotFound, stop))
      else
        match strchr doc stop Ch.equals with
        | none => (none, some (.attributeEqualsignNotFound, stop))
        | some p =>
          -- the first quote, unless the tag ends before
          let q := p + 1 + (doc.drop (p + 1)).findIdx fun b => b = Ch.dquote || b = Ch.squote || b = Ch.gt || b = 0
          if byteAt doc q = Ch.dquote ∨ byteAt doc q = Ch.squote then
            match strchr doc (q + 1) (byteAt doc q) with
            | none => seekNextAttrib doc n (q + 1) (some (.attributeQuotationNotMatched, q))
            | some e => (some (e + 1, (doc.drop start).take (stop - start), q + 1, e), err)
          else seekNextAttrib doc n (q + 1) err
    else seekNextAttrib doc n (start + 1) err

/-- `_search_attrib`, in a document that has no more than `n` attributes from `start` on. -/
def searchAttrib (doc attrib_name : Text) : ℕ → ℕ → Option (XMLParseError × ℕ) →
    Option (ℕ × ℕ) × Option (XMLParseError × ℕ)
  | 0, _, err => (none, err)
  | n + 1, start, err =>
    match seekNextAttrib doc (doc.length + 1) start err with
    | (none, err) => (none, err)
    | (some (next, name, value), err) =>
      if name.isEmpty then (none, err)
      else if name = attrib_name then (some value, err)
      else searchAttrib doc attrib_name n next err

/-- `0x30 <= b <= 0x39`. -/
def isDigit (b : UInt8) : Bool := 0x30 ≤ b && b ≤ 0x39

/-- The loop of `_convert_xml_to_text` without `TrimXMLCode`. The text that was written stands in reverse; `before` is
the byte in front of the place it is written to. -/
def convertLoop (doc : Text) (sep before : UInt8) (pend : ℕ) : ℕ → ℕ → Text → Text
  | 0, _, d => d
  | n + 1, s, d =>
    if pend ≤ s then d
    else
      let b := byteAt doc s
      if b ≠ 0x26 then
        let last := d.headD before
        convertLoop doc sep before pend n (s + 1)
          (if 0x20 < schar b ∨ b = Ch.space ∧ last ≠ Ch.space ∧ last ≠ sep then b :: d else d)
      else if byteAt doc (s + 1) = 0x23 then
        if isDigit (byteAt doc (s + 2)) then
          let digits := (doc.drop (s + 2)).takeWhile isDigit
          let a := digits.foldl (fun a c => intOf (a * 10 + (c.toNat - 0x30))) 0
          let e := s + 2 + digits.length
          -- a character below 0x80 or from 0x800 on is written without going on behind it
          convertLoop doc sep before pend n (if byteAt doc e = 0x3b then e + 1 else e)
            (if 0x7f < a ∧ a ≤ 0x7ff then
              UInt8.ofNat (0x80 ||| a.toNat &&& 0x3f) :: UInt8.ofNat (0xc0 ||| a.toNat >>> 6 &&& 0x1f) :: d
            else d)
        else convertLoop doc sep before pend n (s + 2) (0x23 :: 0x26 :: d)
      else if List.isPrefixOf [0x6c, 0x74, 0x3b] (doc.drop (s + 1)) then
        convertLoop doc sep before pend n (s + 4) (Ch.lt :: d)
      else if List.isPrefixOf [0x61, 0x6d, 0x70] (doc.drop (s + 1)) then
        convertLoop doc sep before pend n (s + 5) (0x26 :: d)
      else if List.isPrefixOf [0x67, 0x74, 0x3b] (doc.drop (s + 1)) then
        convertLoop doc sep before pend n (s + 4) (Ch.gt :: d)
      else if List.isPrefixOf [0x71, 0x75, 0x6f] (doc.drop (s + 1)) then
        convertLoop doc sep before pend n (s + 6) (Ch.dquote :: d)
      else if List.isPrefixOf [0x61, 0x70, 0x6f] (doc.drop (s + 1)) then
        convertLoop doc sep before pend n (s + 6) (Ch.squote :: d)
      else convertLoop doc sep before pend n (s + 1) (b :: d)

/-- `_convert_xml_to_text(string, text)` for the text from `p` to `pend`. -/
def convertXmlToText (doc : Text) (sep before : UInt8) (p pend : ℕ) : Text :=
  (convertLoop doc sep before pend (pend - p) p []).reverse

/-- `GetAttribute`; `before` is the byte in front of the place that the value is written to. -/
def Parser.getAttribute (before : UInt8) (name : Text) : Option Text × Parser σ :=
  match s.nodePath with
  | [] => (none, s)
  | node :: _ =>
    if node.attributes.isEmpty then (none, s)
    else
      let r := searchAttrib s.doc name (s.doc.length + 1) node.attributesBegin none
      let s' := match r.2 with
        | none => s
        | some (e, p) => s.setLastSyntaxError e p
      (r.1.map fun v => convertXmlToText s.doc Ch.space before v.1 v.2, s')

end Cpcf.Rt.Xml
