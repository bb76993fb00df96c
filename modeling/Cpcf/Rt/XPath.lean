import Mathlib
import Cpcf.Rt.StringRef
import Cpcf.Rt.XmlParser

/-!
`rt::XPathParser`, and the navigation of `rt::XMLParser` with it.

An XPath is a zero-terminated text, with `front` the byte in front of it. `before` is the byte in front of a buffer that
a value is converted into.
-/

namespace Cpcf.Rt.Xml

open Cpcf.Lib.Memory Cpcf.Lib.Word

/-! ### Qualifiers -/

/-- `XPathParseError`, as far as it is set here. -/
inductive XPathParseError
  | ok
  | descendantInHalfway
  | attributeSetNotSupported
  | nodenameNotFound
  | unexpectedSymbol
  | conditionNotSupported
  | valueNotSupported
  | badOrdinal
  | quotationNotMatched
  | operatorNotSupported
  deriving DecidableEq

/-- The `_QualifierType` of a tag name. -/
inductive NameType
  | notParsed
  | any
  | exact
  deriving DecidableEq

/-- The `_QualifierType` of an attribute. -/
inductive AttributeType
  | any
  | have_
  | equal
  | notEqual
  | startWith
  | endWith
  | contain
  | haveWord
  deriving DecidableEq

/-- `_Qualifier`. -/
structure Qualifier where
  qt_TagName : NameType
  tagName : Text
  qt_Attribute : AttributeType
  attributeName : Text
  value : Text
  /-- `-1` for none. -/
  qt_Ordinal : ℤ
  lastOrdinalTestPast : ℤ
  deriving DecidableEq

/-- What `ParseQualifier` sets, and the error. -/
structure QualifierText where
  error : XPathParseError
  qt_TagName : Option NameType
  tagName : Option Text
  qt_Attribute : Option AttributeType
  attributeName : Option Text
  value : Option Text
  qt_Ordinal : Option ℤ

/-- `_skip_whitespace`. -/
def skipWhitespace (t : Text) : Text := t.dropWhile isBlank

/-- `@`. -/
def atSign : UInt8 := 0x40

/-- `ToNumber` of a text that begins with a digit. -/
def ordinalOf (t : Text) : ℤ := (t.takeWhile isDigit).foldl (fun a c => intOf (a * 10 + (c.toNat - 0x30))) 0

/-- The value of a condition, from the operator on. -/
def readValue (before : UInt8) (patt : Text) : Option Text × XPathParseError :=
  match skipWhitespace patt with
  | [] => (none, .valueNotSupported)
  | quote :: t =>
    if quote = Ch.squote ∨ quote = Ch.dquote then
      match t.findIdx? fun b => b = quote with
      | none => (none, .quotationNotMatched)
      | some pend =>
        (some (convertXmlToText t Ch.space before 0 pend),
          if (skipWhitespace (t.drop (pend + 1))).head? = some Ch.rbracket then .ok else .conditionNotSupported)
    else (none, .valueNotSupported)

/-- The test that `=` stands for behind the character `c`; a character of the test belongs to the attribute so far. -/
def equalType (c : Option UInt8) : AttributeType :=
  if c = some 0x3a then .startWith
  else if c = some 0x3f then .endWith
  else if c = some 0x7e then .contain
  else if c = some 0x5e then .haveWord
  else .equal

/-- A condition on an attribute, behind the `@`, for a name that was read so far. -/
def readAttribute (before : UInt8) (qt_TagName : NameType) (tagName : Option Text) (patt : Text) : QualifierText :=
  let patt := skipWhitespace patt
  let name := patt.takeWhile isSymbol
  let rest := patt.dropWhile isSymbol
  let patt := skipWhitespace rest
  if patt.head? = some Ch.equals then
    let type := equalType (name ++ rest.takeWhile isBlank).getLast?
    let v := readValue before patt.tail
    ⟨v.2, qt_TagName, tagName, type, if type = .equal then name else name.dropLast, v.1, some (-1)⟩
  else if [0x21, Ch.equals].isPrefixOf patt then
    let v := readValue before (patt.drop 2)
    ⟨v.2, qt_TagName, tagName, some .notEqual, name, v.1, some (-1)⟩
  else if patt.head? = some Ch.rbracket then ⟨.ok, qt_TagName, tagName, some .have_, name, none, some (-1)⟩
  else ⟨.operatorNotSupported, qt_TagName, tagName, some .have_, name, none, some (-1)⟩

/-- What stands behind the name. -/
def readCondition (before : UInt8) (qt_TagName : NameType) (tagName : Option Text) (patt : Text) : QualifierText :=
  match skipWhitespace patt with
  | [] => ⟨.ok, qt_TagName, tagName, some .any, none, none, some (-1)⟩
  | c :: patt =>
    if c = Ch.lbracket then
      let patt := skipWhitespace patt
      if patt.head?.any isDigit then
        if (patt.dropWhile isSymbol).head? = some Ch.rbracket then
          ⟨.ok, qt_TagName, tagName, some .any, none, none, ordinalOf (patt.takeWhile isSymbol)⟩
        else ⟨.badOrdinal, qt_TagName, tagName, some .any, none, none, none⟩
      else if patt.head? = some atSign then readAttribute before qt_TagName tagName patt.tail
      else ⟨.conditionNotSupported, qt_TagName, tagName, none, none, none, none⟩
    else ⟨.unexpectedSymbol, qt_TagName, tagName, none, none, none, none⟩

/-- `ParseQualifier` of a text. -/
def readQualifier (before : UInt8) (qt : Text) : QualifierText :=
  let failed (e : XPathParseError) : QualifierText := ⟨e, none, none, none, none, none, none⟩
  match skipWhitespace qt with
  | [] => failed .nodenameNotFound
  | c :: t =>
    if c = atSign then failed .attributeSetNotSupported
    else if c = 0x2a then readCondition before .any none t
    else
      let name := (c :: t).takeWhile isSymbol
      if name.isEmpty then failed .nodenameNotFound
      else readCondition before .exact name ((c :: t).dropWhile isSymbol)

/-- The qualifier with what was set. -/
def QualifierText.writeTo (w : QualifierText) (q : Qualifier) : Qualifier :=
  { qt_TagName := w.qt_TagName.getD q.qt_TagName
    tagName := w.tagName.getD q.tagName
    qt_Attribute := w.qt_Attribute.getD q.qt_Attribute
    attributeName := w.attributeName.getD q.attributeName
    value := w.value.getD q.value
    qt_Ordinal := w.qt_Ordinal.getD q.qt_Ordinal
    lastOrdinalTestPast := 0 }

/-- `Load` of a qualifier, and `ParseQualifier`. -/
def Qualifier.parse (before : UInt8) (q : Qualifier) (qualify : Text) : XPathParseError × Qualifier :=
  let w := readQualifier before qualify
  (w.error, w.writeTo { q with qt_TagName := .notParsed, tagName := qualify })

/-! ### Paths -/

/-- `XPathParser`. -/
structure XPathParser where
  lastNodeSatificated : Bool
  error : XPathParseError
  qualifiers : List Qualifier
  bRelativePath : Bool
  bIncludeDescendants : Bool
  finalQualifier : Qualifier
  upLevelCount : ℕ
  qualifierShifts : ℕ
  /-- The error that a test set last in the parser of the document, since it was cleared. -/
  attribError : Option (XMLParseError × ℕ)
  /-- A qualifier was read that is not in the list. -/
  outside : Bool

/-- A new one; what stands in `m_FinalQualifier` is not set. -/
def XPathParser.new (q : Qualifier) : XPathParser := ⟨true, .ok, [], false, false, q, 0, 0, none, false⟩

variable (x : XPathParser)

/-- `Clear`. -/
def XPathParser.clear : XPathParser :=
  { x with
    bRelativePath := false
    bIncludeDescendants := false
    finalQualifier := { x.finalQualifier with qt_TagName := .notParsed }
    lastNodeSatificated := true
    upLevelCount := 0
    qualifierShifts := 0
    qualifiers := [] }

/-- The loop of `Load` over the steps in front of the last one, with the texts of the qualifiers and
`m_UpLevelCount`. -/
def stepsLoop : ℕ → Text → List Text → ℕ → XPathParseError × List Text × ℕ
  | 0, _, qualifiers, up => (.ok, qualifiers, up)
  | n + 1, xpath, qualifiers, up =>
    if xpath.isEmpty then (.ok, qualifiers, up)
    else if xpath.head? = some Ch.slash then (.descendantInHalfway, qualifiers, up)
    else
      let step := xpath.takeWhile fun b => b ≠ Ch.slash
      let xpath := (xpath.dropWhile fun b => b ≠ Ch.slash).tail
      if step = [0x2e] then stepsLoop n xpath qualifiers up
      else if step = [0x2e, 0x2e] then
        if qualifiers.isEmpty then stepsLoop n xpath qualifiers (up + 1)
        else stepsLoop n xpath qualifiers.dropLast up
      else stepsLoop n xpath (qualifiers ++ [step]) up

/-- What a new qualifier holds is read by nothing. -/
def Qualifier.blank : Qualifier := ⟨.notParsed, [], .any, [], [], -1, 0⟩

/-- `ParseQualifier` of each one, up to one that fails. -/
def parseQualifiers (before : UInt8) : List Text → XPathParseError × List Qualifier
  | [] => (.ok, [])
  | t :: ts =>
    let r := Qualifier.blank.parse before t
    if r.1 = .ok then ((parseQualifiers before ts).1, r.2 :: (parseQualifiers before ts).2) else (r.1, [r.2])

/-- An error is set, or none. -/
def XPathParser.setLastSyntaxError (e : XPathParseError) : XPathParser := if e = .ok then x else { x with error := e }

/-- `strrchr(xpath, '/')`. -/
def lastSlash (xpath : Text) : Option ℕ :=
  (xpath.reverse.findIdx? fun b => b = Ch.slash).map fun i => xpath.length - 1 - i

/-- `Load`. -/
def XPathParser.load (before front : UInt8) (text : Text) : Bool × XPathParser :=
  let x := { x with qualifiers := [], upLevelCount := 0, lastNodeSatificated := true }
  let xpath := skipWhitespace text
  match lastSlash xpath with
  | none =>
    let q := x.finalQualifier.parse before xpath
    (decide (q.1 = .ok),
      { x with bRelativePath := true, bIncludeDescendants := false, finalQualifier := q.2 }.setLastSyntaxError q.1)
  | some pLastSep =>
    let descendants : Bool := ((front :: text.takeWhile isBlank) ++ xpath.take pLastSep).getLast? = some Ch.slash
    let q := x.finalQualifier.parse before (xpath.drop (pLastSep + 1))
    let x := { x with bIncludeDescendants := descendants, finalQualifier := q.2 }.setLastSyntaxError q.1
    -- the steps in front are left out where the last one fails, and the path is taken for loaded
    if q.1 ≠ .ok then (true, x)
    else
      let absolute : Bool := xpath.head? = some Ch.slash
      let x := { x with bRelativePath := !absolute }
      let steps := (xpath.take (if descendants then pLastSep - 1 else pLastSep)).drop (if absolute then 1 else 0)
      let r := stepsLoop steps.length steps [] 0
      let qs := parseQualifiers before r.2.1
      let x := { x with upLevelCount := r.2.2 }
      if r.1 ≠ .ok then (false, x.setLastSyntaxError r.1)
      else (decide (qs.1 = .ok), { x with qualifiers := qs.2 }.setLastSyntaxError qs.1)

/-! ### Tests -/

/-- `CharacterSet_ControlChar(" ")`. -/
def controlChars : StringRef.CharacterSet := fun i => if i.val < 0x20 then 1 else 0

/-- The words of `t.Split(f, 256, sep)`. -/
def splitWords (t : Text) : List Text :=
  let m : Mem := fun i => byteAt t (i - 1)
  (StringRef.split m ⟨1, t.length + 1⟩ false Ch.dquote Ch.squote 256 controlChars).map fun r => r.text m

/-- Words are looked for by comparing them. -/
local instance lawfulWord : LawfulBEq Text := inferInstance

/-- The outcome of a test at an attribute with the name and the value from `v.1` to `v.2`, if it ends there. -/
def Qualifier.attributeTest (q : Qualifier) (doc : Text) (before : UInt8) (name : Text) (v : ℕ × ℕ) : Option Bool :=
  let value := convertXmlToText doc Ch.space before v.1 v.2
  let named : Bool := name = q.attributeName
  let long : Bool := q.value.length ≤ v.2 - v.1
  match q.qt_Attribute with
  | .any => none
  | .have_ => if named then some true else none
  | .equal => if named && long then some (value = q.value) else none
  | .notEqual => if named then some (value ≠ q.value) else none
  | .startWith => if named && long then some (q.value.isPrefixOf value) else none
  | .endWith => if named && long then some (q.value.isSuffixOf value) else none
  | .contain => if named && long then some (findText q.value value).isSome else none
  | .haveWord => if named && long then some (q.value ∈ splitWords value) else none

/-- The loop over the attributes, in a document that has no more than `n` of them from `attributes` on. -/
def Qualifier.attributesLoop (q : Qualifier) (doc : Text) (before : UInt8) (error : XPathParseError) :
    ℕ → ℕ → Option (XMLParseError × ℕ) → Bool × Option (XMLParseError × ℕ)
  | 0, _, err => (q.qt_Attribute = .notEqual, err)
  | n + 1, attributes, err =>
    match seekNextAttrib doc (doc.length + 1) attributes err with
    | (none, err) => (decide (error = .ok) && decide (q.qt_Attribute = .notEqual), err)
    | (some (next, name, v), err) =>
      match q.attributeTest doc before name v with
      | some b => (b, err)
      | none => q.attributesLoop doc before error n next err

/-- `QualifierTest`. -/
def XPathParser.qualifierTest (doc : Text) (before : UInt8) (q : Qualifier) (tag_name : Text) (attributes : ℕ) :
    Bool × Option (XMLParseError × ℕ) :=
  if q.qt_TagName = .exact ∧ tag_name ≠ q.tagName then (false, x.attribError)
  else if q.qt_Attribute = .any then (true, x.attribError)
  else q.attributesLoop doc before x.error (doc.length + 1) attributes x.attribError

/-- `_ClearLastOrdinalTestPast`. -/
def XPathParser.clearLastOrdinalTestPast (level : ℕ) : XPathParser :=
  if level < x.qualifiers.length then
    { x with qualifiers := x.qualifiers.modify level fun q => { q with lastOrdinalTestPast := 0 } }
  else { x with finalQualifier := { x.finalQualifier with lastOrdinalTestPast := 0 } }

/-- It has an ordinal that was gone past. -/
def Qualifier.isPast (q : Qualifier) : Bool := 0 ≤ q.qt_Ordinal && q.qt_Ordinal < q.lastOrdinalTestPast

/-- A node that passes the other tests: whether it has the ordinal, and the qualifier behind it. -/
def Qualifier.count (q : Qualifier) : Bool × Qualifier :=
  if 0 ≤ q.qt_Ordinal then
    (q.lastOrdinalTestPast = q.qt_Ordinal, { q with lastOrdinalTestPast := intOf (q.lastOrdinalTestPast + 1) })
  else (true, q)

/-- `_TagTest`, without a filter of the user's. -/
def XPathParser.tagTest (doc : Text) (before : UInt8) (tag_name : Text) (attributes level : ℕ) (x : XPathParser) :
    Bool × XPathParser :=
  if level ≤ x.qualifierShifts + x.qualifiers.length then
    match if x.qualifierShifts < level then x.qualifiers[level - x.qualifierShifts - 1]? else none with
    | none => (false, { x with outside := true })
    | some qu =>
      let x := x.clearLastOrdinalTestPast (level - x.qualifierShifts)
      if qu.isPast then (false, x)
      else
        let r := x.qualifierTest doc before qu tag_name attributes
        let x := { x with lastNodeSatificated := false, attribError := r.2 }
        if r.1 then
          (qu.count.1, { x with qualifiers := x.qualifiers.set (level - x.qualifierShifts - 1) qu.count.2 })
        else (false, x)
  else if x.bIncludeDescendants = false ∧ x.qualifierShifts + x.qualifiers.length + 1 < level then
    (false, { x with lastNodeSatificated := false })
  else if x.finalQualifier.isPast then (false, x)
  else
    let r := x.qualifierTest doc before x.finalQualifier tag_name attributes
    let x := { x with lastNodeSatificated := r.1, attribError := r.2 }
    if x.bIncludeDescendants || r.1 then
      (x.finalQualifier.count.1, { x with finalQualifier := x.finalQualifier.count.2 })
    else (false, x)

/-! ### Navigation -/

namespace Parser

variable (s : Parser XPathParser)

/-- `GetLastSyntaxError() != ERR_XML_OK`. -/
def hasError : Bool := s.error ≠ .ok || s.filterState.attribError.isSome

/-- The way up from a node that is no deeper than `n`, to a next sibling of one that is deeper than `floor`. -/
def climbAbove (floor : ℕ) : ℕ → Parser XPathParser → Bool × Parser XPathParser
  | 0, s => (false, s)
  | n + 1, s =>
    if s.getDescendantLevel ≤ floor then (false, s)
    else if s.hasError then (false, s)
    else
      match s.enterParentNode with
      | (false, s) => (false, s)
      | (true, s) =>
        match s.enterNextSiblingNode with
        | (true, s) => (true, s)
        | (false, s) => climbAbove floor n s

/-- What follows when there is no child: the next sibling, or one of a node above. -/
def enterNextAbove (floor : ℕ) : Bool × Parser XPathParser :=
  match s.enterNextSiblingNode with
  | (true, s) => (true, s)
  | (false, s) => climbAbove floor s.getDescendantLevel s

/-- The next node that passes the filter of the path, or lies on the way to one. -/
def enterNextNodeOfXPath : Bool × Parser XPathParser :=
  let x := s.filterState
  let floor := x.qualifierShifts + 1
  if x.bIncludeDescendants ∨ s.nodePath.length < x.qualifierShifts + x.qualifiers.length + 1 then
    match s.enterFirstChildNode none with
    | (true, s) => (true, s)
    | (false, s) => if s.hasError then (false, s) else s.enterNextAbove floor
  else s.enterNextAbove floor

/-- The loop of `EnterSucceedNode` with an XPath, which goes over `n` nodes at most. -/
def succeedLoop : ℕ → Parser XPathParser → Bool × Parser XPathParser
  | 0, s => (false, s)
  | n + 1, s =>
    match s.enterNextNodeOfXPath with
    | (false, s) => (false, s)
    | (true, s) => if s.filterState.lastNodeSatificated then (true, s) else succeedLoop n s

/-- `EnterSucceedNode`; there is no filter but the one of the XPath. -/
def enterSucceedNodeOfXPath : Bool × Parser XPathParser :=
  if s.curTagFilter.isNone then
    match s.enterFirstChildNode none with
    | (true, s) => (true, s)
    | (false, s) => if s.hasError then (false, s) else s.enterNextAbove 0
  else succeedLoop (s.doc.length + 1) s

/-- `EnterRootNode`. Nothing where there is no node at all. -/
def enterRootNode : Option (Parser XPathParser) :=
  if s.nodePath.isEmpty then none
  else some { s with nodePath := s.nodePath.drop (s.nodePath.length - 1), curTagFilter := none }

/-- `EscapeXPath`. -/
def escapeXPath : Parser XPathParser := { s with curTagFilter := none, filterState := s.filterState.clear }

/-- `ClearSyntaxError`. -/
def clearSyntaxError : Parser XPathParser :=
  { s with error := .ok, errorPosition := 0, filterState := { s.filterState with attribError := none } }

/-- `while(m_UpLevelCount > 0){ m_UpLevelCount--; if(!EnterParentNode())goto XPATH_ERROR; }`. -/
def upLoop : ℕ → Parser XPathParser → Bool × Parser XPathParser
  | 0, s => (true, s)
  | n + 1, s =>
    match { s with filterState := { s.filterState with upLevelCount := n } }.enterParentNode with
    | (false, s) => (false, s)
    | (true, s) => upLoop n s

/-- The filter of the XPath is set. -/
def withXPath (before : UInt8) : Parser XPathParser :=
  { s with curTagFilter := some (XPathParser.tagTest s.doc before) }

/-- `EnterXPath`. Nothing where there is no node that could be gone back to. -/
def enterXPath (before front : UInt8) (xpath : Text) : Option (Bool × Parser XPathParser) :=
  let s := s.escapeXPath.clearSyntaxError
  let r := s.filterState.load before front xpath
  let s := { s with filterState := r.2 }
  let x := r.2
  if r.1 then
    if x.bRelativePath then
      if x.upLevelCount = s.getDescendantLevel then
        let x := { x with upLevelCount := 0, qualifierShifts := 0, bRelativePath := false }
        some ({ s with filterState := x, nodePath := [] }.withXPath before).enterSucceedNodeOfXPath
      else
        match upLoop x.upLevelCount s with
        | (false, s) => s.enterRootNode.map fun s => (false, s)
        | (true, s) =>
          let x := { s.filterState with qualifierShifts := s.getDescendantLevel }
          let start := (s.nodePath.head?.map Node.outerXML_Start).getD 0
          some ({ s with filterState := x, rootNodeXmlStart := start }.withXPath before).enterSucceedNodeOfXPath
    else
      let x := { x with qualifierShifts := 0 }
      some ({ s with filterState := x, nodePath := [] }.withXPath before).enterSucceedNodeOfXPath
  else some (false, s)

end Parser

end Cpcf.Rt.Xml
