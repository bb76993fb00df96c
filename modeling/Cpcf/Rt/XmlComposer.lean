import Cpcf.Rt.Chars

/-!
`rt::XMLComposer`, writing into memory, and the trees of elements that are written with it.

A C string is the list of the bytes before its end.
-/

namespace Cpcf.Rt.Xml

abbrev Text := List UInt8

/-! ### The composer -/

/-- `_TagCache`. -/
structure TagCache where
  tag : Text
  tag_pos : ℕ

structure Composer where
  /-- `m_Output`. -/
  output : Text
  /-- `_EnteringNodeTag`. -/
  enteringNodeTag : Option Text
  /-- `_DepthMax`. -/
  depthMax : ℕ
  /-- `m_NestLevelTag`, the last one first. -/
  nestLevelTag : List TagCache

variable (s : Composer)

/-- `Output`. -/
def Composer.write (x : Text) : Composer := { s with output := s.output ++ x }

/-- What `Linebreak` puts out at a level. -/
def lineBreak (level : ℕ) : Text := 0xd :: 0xa :: List.replicate (4 * level) 0x20

/-- `Linebreak(vary)`. -/
def Composer.linebreak (vary : ℤ) : Composer := s.write (lineBreak (s.nestLevelTag.length + vary).toNat)

/-- `g_XML_Header`. -/
def g_XML_Header : Text :=
  [0x3c, 0x3f, 0x78, 0x6d, 0x6c, 0x20, 0x76, 0x65, 0x72, 0x73, 0x69, 0x6f, 0x6e, 0x3d, 0x22, 0x31, 0x2e, 0x30, 0x22,
    0x20, 0x65, 0x6e, 0x63, 0x6f, 0x64, 0x69, 0x6e, 0x67, 0x3d, 0x22, 0x75, 0x74, 0x66, 0x2d, 0x38, 0x22, 0x20, 0x3f,
    0x3e]

/-- `ResetContent()` of a new composer. -/
def resetContent : Composer := ⟨g_XML_Header, none, 0, []⟩

/-- What `_InsertPlainText` puts out for a character. -/
def escape (b : UInt8) : Text :=
  if b = Ch.lt then [0x26, 0x6c, 0x74, 0x3b]
  else if b = 0x26 then [0x26, 0x61, 0x6d, 0x70, 0x3b]
  else if b = Ch.gt then [0x26, 0x67, 0x74, 0x3b]
  else if b = Ch.dquote then [0x26, 0x71, 0x75, 0x6f, 0x74, 0x3b]
  else if b = Ch.squote then [0x26, 0x61, 0x70, 0x6f, 0x73, 0x3b]
  else [b]

/-- `_InsertPlainText`. -/
def Composer.insertPlainText (text : Text) : Composer := s.write (text.flatMap escape)

/-- `EnteringNode`. -/
def Composer.enteringNode (tag : Text) : Composer :=
  { ((s.linebreak 0).write [Ch.lt]).write tag with enteringNodeTag := some tag }

/-- `SetAttribute`. -/
def Composer.setAttribute (name value : Text) : Composer :=
  if s.enteringNodeTag.isSome then
    (((s.write [Ch.space]).write name).write [Ch.equals, Ch.dquote] |>.insertPlainText value).write [Ch.dquote]
  else s

/-- `EnteringNodeDone`. -/
def Composer.enteringNodeDone (compact : Bool) : Composer :=
  if compact then
    { s.write [Ch.space, Ch.slash, Ch.gt] with depthMax := 1 + s.nestLevelTag.length, enteringNodeTag := none }
  else
    { s.write [Ch.gt] with
      nestLevelTag := ⟨s.enteringNodeTag.getD [], s.output.length⟩ :: s.nestLevelTag
      depthMax := s.nestLevelTag.length + 1
      enteringNodeTag := none }

/-- `<![CDATA[`. -/
def cdataOpen : Text := [Ch.lt, 0x21, Ch.lbracket, 0x43, 0x44, 0x41, 0x54, 0x41, Ch.lbracket]

/-- `]]>`. -/
def cdataClose : Text := [Ch.rbracket, Ch.rbracket, Ch.gt]

/-- `AddCData`. -/
def Composer.addCData (cdata : Text) : Composer :=
  if s.enteringNodeTag.isNone then (((s.linebreak 0).write cdataOpen).write cdata).write cdataClose else s

/-- `AddText`. -/
def Composer.addText (text : Text) : Composer := if s.enteringNodeTag.isNone then s.insertPlainText text else s

/-- `ExitNode`. -/
def Composer.exitNode : Composer :=
  match s.nestLevelTag with
  | [] => s
  | t :: rest =>
    if t.tag_pos = s.output.length then { s.write [Ch.space, Ch.slash, Ch.gt] with nestLevelTag := rest }
    else
      let s' := if s.nestLevelTag.length < s.depthMax then s.linebreak (-1) else s
      { ((s'.write [Ch.lt, Ch.slash]).write t.tag).write [Ch.gt] with nestLevelTag := rest }

/-! ### Trees -/

/-- A letter, a digit, one of `_-.:`, or a byte of a character that is not in ASCII. -/
def isNameChar (b : UInt8) : Bool :=
  0x61 ≤ b && b ≤ 0x7a || 0x41 ≤ b && b ≤ 0x5a || 0x30 ≤ b && b ≤ 0x39 || b = 0x5f || b = Ch.minus || b = 0x2e ||
    b = Ch.colon || 0x80 ≤ b

/-- The name of an element or an attribute. -/
structure Name where
  text : Text
  ne_nil : text ≠ []
  chars : ∀ b ∈ text, isNameChar b = true

/-- What may stand in a CDATA section. -/
structure CData where
  text : Text
  noClose : ¬cdataClose <:+: text

/-- An attribute, by its name and its value. -/
abbrev Attribute := Name × Text

/-- What stands between the tags of an element, each part with the ones that follow it. -/
inductive Content
  | nil
  | text (t : Text) (rest : Content)
  | cdata (t : CData) (rest : Content)
  /-- An element without content, written as one tag. -/
  | compact (tag : Name) (atts : List Attribute) (rest : Content)
  | element (tag : Name) (atts : List Attribute) (inner rest : Content)

/-- The attributes of an element, each one set. -/
def Composer.setAttributes (atts : List Attribute) : Composer :=
  atts.foldl (fun s a => s.setAttribute a.1.text a.2) s

/-- The calls that write a content. -/
def Composer.writeContent : Content → Composer → Composer
  | .nil, s => s
  | .text t rest, s => writeContent rest (s.addText t)
  | .cdata t rest, s => writeContent rest (s.addCData t.text)
  | .compact tag atts rest, s =>
    writeContent rest (((s.enteringNode tag.text).setAttributes atts).enteringNodeDone true)
  | .element tag atts inner rest, s =>
    writeContent rest
      (writeContent inner (((s.enteringNode tag.text).setAttributes atts).enteringNodeDone false)).exitNode

/-- A tree of elements: its root, which has a content or is written as one tag. -/
structure Tree where
  tag : Name
  atts : List Attribute
  inner : Option Content

/-- The root as a content. -/
def Tree.content (t : Tree) : Content :=
  match t.inner with
  | none => .compact t.tag t.atts .nil
  | some inner => .element t.tag t.atts inner .nil

/-- `GetDocument()` after a tree has been written. -/
def document (t : Tree) : Text := (Composer.writeContent t.content resetContent).output

/-! ### The text of a document -/

/-- The text of an attribute. -/
def attributeText (a : Attribute) : Text :=
  Ch.space :: (a.1.text ++ Ch.equals :: Ch.dquote :: (a.2.flatMap escape ++ [Ch.dquote]))

/-- There is an element in the content. -/
def Content.hasElement : Content → Bool
  | .nil => false
  | .text _ rest => rest.hasElement
  | .cdata _ rest => rest.hasElement
  | .compact _ _ _ => true
  | .element _ _ _ _ => true

/-- The end of an element at a level. -/
def closing (level : ℕ) (inner : Content) (tag : Name) : Text :=
  (if inner.hasElement then lineBreak level else []) ++ Ch.lt :: Ch.slash :: (tag.text ++ [Ch.gt])

/-- The tag an element starts with. -/
def startTag (compact : Bool) (tag : Name) (atts : List Attribute) : Text :=
  Ch.lt :: (tag.text ++ (atts.flatMap attributeText ++ if compact then [Ch.space, Ch.slash] else [])) ++ [Ch.gt]

/-- The text of a content at a level. -/
def render : ℕ → Content → Text
  | _, .nil => []
  | level, .text t rest => t.flatMap escape ++ render level rest
  | level, .cdata t rest => lineBreak level ++ (cdataOpen ++ t.text ++ cdataClose) ++ render level rest
  | level, .compact tag atts rest => lineBreak level ++ startTag true tag atts ++ render level rest
  | level, .element tag atts inner rest =>
    lineBreak level ++ startTag false tag atts ++ (render (level + 1) inner ++ closing level inner tag) ++
      render level rest

attribute [local simp] render

variable {s}

theorem Composer.setAttributes_eq : ∀ (atts : List Attribute) {s : Composer}, s.enteringNodeTag.isSome = true →
    s.setAttributes atts = s.write (atts.flatMap attributeText)
  | [], s, _ => by simp [setAttributes, write]
  | a :: atts, s, h => by
    have hset : s.setAttribute a.1.text a.2 = s.write (attributeText a) := by
      simp [setAttribute, h, write, insertPlainText, attributeText]
    rw [setAttributes, List.foldl_cons, hset]
    refine (setAttributes_eq atts (s := s.write (attributeText a)) h).trans ?_
    simp [write]

/-- What the calls for a start tag put out. -/
theorem Composer.startTag_eq (s : Composer) (tag : Name) (atts : List Attribute) :
    (s.enteringNode tag.text).setAttributes atts =
      { s with
        output := s.output ++ (lineBreak s.nestLevelTag.length ++ Ch.lt :: (tag.text ++ atts.flatMap attributeText))
        enteringNodeTag := some tag.text } := by
  rw [setAttributes_eq atts rfl]
  simp [enteringNode, linebreak, write]

/-- Something stands between the start of an element and its end, so the end is always written in full. -/
theorem Composer.exitNode_eq {t : TagCache} {rest : List TagCache} (hs : s.nestLevelTag = t :: rest)
    (hpos : t.tag_pos < s.output.length) : s.exitNode =
      { s with
        output := s.output ++ ((if rest.length + 1 < s.depthMax then lineBreak rest.length else []) ++
          Ch.lt :: Ch.slash :: (t.tag ++ [Ch.gt]))
        nestLevelTag := rest } := by
  unfold exitNode
  rw [hs]
  simp only [hpos.ne, if_false, List.length_cons]
  split
  · simp [linebreak, write, hs]
  · simp [write]

/-- A content has been written. -/
structure Composer.Wrote (c : Content) (s s' : Composer) : Prop where
  output : s'.output = s.output ++ render s.nestLevelTag.length c
  entering : s'.enteringNodeTag = none
  nest : s'.nestLevelTag = s.nestLevelTag
  deep : c.hasElement = true → s.nestLevelTag.length < s'.depthMax
  flat : c.hasElement = false → s'.depthMax = s.depthMax

/-- The end of an element whose content has been written. -/
theorem Composer.Wrote.exitNode {s s' : Composer} {inner : Content} {tag : Name} {pos : ℕ} {rest : List TagCache}
    (hw : Wrote inner s s') (hs : s.nestLevelTag = ⟨tag.text, pos⟩ :: rest) (hpos : pos < s.output.length)
    (hd : s.depthMax = rest.length + 1) : s'.exitNode =
      { s' with
        output := s.output ++ (render (rest.length + 1) inner ++ closing rest.length inner tag)
        nestLevelTag := rest } := by
  have hlen : s.nestLevelTag.length = rest.length + 1 := by rw [hs, List.length_cons]
  have hbreak : (if rest.length + 1 < s'.depthMax then lineBreak rest.length else []) =
      if inner.hasElement then lineBreak rest.length else [] := by
    cases hinner : inner.hasElement
    · rw [hw.flat hinner, hd]
      simp
    · rw [if_pos (hlen ▸ hw.deep hinner), if_pos rfl]
  have hpos' : pos < s'.output.length := by
    rw [hw.output, List.length_append]
    exact hpos.trans_le (Nat.le_add_right _ _)
  rw [exitNode_eq (hw.nest.trans hs) hpos', hbreak, hw.output, hlen, closing, List.append_assoc]

theorem Composer.wrote_writeContent : ∀ (c : Content) {s : Composer}, s.enteringNodeTag = none →
    Wrote c s (writeContent c s)
  | .nil, s, h => ⟨by simp [writeContent], h, rfl, by simp [Content.hasElement], fun _ => rfl⟩
  | .text t rest, s, h => by
    have hs : s.addText t = s.write (t.flatMap escape) := by simp [addText, h, insertPlainText]
    obtain ⟨hout, hent, hnest, hdeep, hflat⟩ := wrote_writeContent rest (s := s.addText t) (by rw [hs]; exact h)
    rw [hs] at hout hent hnest hdeep hflat
    refine ⟨?_, by rw [writeContent, hs, hent], by rw [writeContent, hs, hnest]; rfl, ?_, ?_⟩
    · rw [writeContent, hs, hout]
      simp [write]
    · rw [writeContent, hs]
      exact hdeep
    · rw [writeContent, hs]
      exact hflat
  | .cdata t rest, s, h => by
    have hs : s.addCData t.text =
        s.write (lineBreak s.nestLevelTag.length ++ (cdataOpen ++ t.text ++ cdataClose)) := by
      simp [addCData, h, linebreak, write]
    obtain ⟨hout, hent, hnest, hdeep, hflat⟩ := wrote_writeContent rest (s := s.addCData t.text) (by rw [hs]; exact h)
    rw [hs] at hout hent hnest hdeep hflat
    refine ⟨?_, by rw [writeContent, hs, hent], by rw [writeContent, hs, hnest]; rfl, ?_, ?_⟩
    · rw [writeContent, hs, hout]
      simp [write]
    · rw [writeContent, hs]
      exact hdeep
    · rw [writeContent, hs]
      exact hflat
  | .compact tag atts rest, s, h => by
    obtain ⟨hout, hent, hnest, hdeep, hflat⟩ := wrote_writeContent rest
      (s := ((s.enteringNode tag.text).setAttributes atts).enteringNodeDone true) rfl
    rw [startTag_eq] at hout hent hnest hdeep hflat
    refine ⟨?_, by rw [writeContent, startTag_eq, hent], by rw [writeContent, startTag_eq, hnest]; rfl, ?_, ?_⟩
    · rw [writeContent, startTag_eq, hout]
      simp [enteringNodeDone, write, startTag]
    · intro _
      rw [writeContent, startTag_eq]
      cases hrest : rest.hasElement
      · rw [hflat hrest]
        exact Nat.lt_add_of_pos_left Nat.one_pos
      · exact hdeep hrest
    · intro hno
      cases hno
  | .element tag atts inner rest, s, h => by
    obtain ⟨s₁, hs₁⟩ : ∃ s₁, ((s.enteringNode tag.text).setAttributes atts).enteringNodeDone false = s₁ := ⟨_, rfl⟩
    have hw := wrote_writeContent inner (s := s₁) (by rw [← hs₁]; rfl)
    have hnest₁ : s₁.nestLevelTag = ⟨tag.text, (s.output ++ (lineBreak s.nestLevelTag.length ++
        Ch.lt :: (tag.text ++ atts.flatMap attributeText))).length⟩ :: s.nestLevelTag := by
      rw [← hs₁, startTag_eq]
      simp [enteringNodeDone]
    have hexit := hw.exitNode hnest₁
      (by rw [← hs₁, startTag_eq]; simp [enteringNodeDone, write])
      (by rw [← hs₁, startTag_eq]; rfl)
    obtain ⟨s₂, hs₂⟩ : ∃ s₂, (writeContent inner s₁).exitNode = s₂ := ⟨_, rfl⟩
    have hent : s₂.enteringNodeTag = none := by rw [← hs₂, hexit]; exact hw.entering
    have hnest : s₂.nestLevelTag = s.nestLevelTag := by rw [← hs₂, hexit]
    have hw₂ := wrote_writeContent rest (s := s₂) hent
    rw [writeContent, hs₁, hs₂]
    refine ⟨?_, hw₂.entering, hw₂.nest.trans hnest, fun _ => ?_, fun hno => by cases hno⟩
    · rw [hw₂.output, ← hs₂, hexit, ← hs₁, startTag_eq]
      simp [enteringNodeDone, write, startTag]
    · cases hrest : rest.hasElement
      · have hlen : s₁.nestLevelTag.length = s.nestLevelTag.length + 1 := by rw [← hs₁, startTag_eq]; rfl
        have hdepth : s₁.depthMax = s.nestLevelTag.length + 1 := by rw [← hs₁, startTag_eq]; rfl
        have hdeep : s.nestLevelTag.length < (writeContent inner s₁).depthMax := by
          cases hinner : inner.hasElement
          · have := hw.flat hinner
            omega
          · have := hw.deep hinner
            omega
        rw [hw₂.flat hrest, ← hs₂, hexit]
        exact hdeep
      · exact hnest ▸ hw₂.deep hrest

/-- A document is the header, and the root at the first level. -/
theorem document_eq (t : Tree) : document t = g_XML_Header ++ render 0 t.content :=
  (Composer.wrote_writeContent t.content rfl).output

end Cpcf.Rt.Xml
