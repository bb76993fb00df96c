import Cpcf.Rt.XmlScan

/-!
That `XMLParser` goes through the elements of a document of `XMLComposer` in the order in which they were written.

Each node of the path is described by what stands behind its start tag: its content and its end, what follows it in its
parent, and so on for its ancestors. What is still to be visited can be read off the elements of the path.
-/

namespace Cpcf.Rt.Xml

/-! ### The elements of a tree -/

/-- An element as it is visited: its depth, its name and its attributes. -/
structure Visit where
  depth : ℕ
  tag : Name
  atts : List Attribute

/-- The elements of a content in document order, each one before those in it. -/
def Content.elements : ℕ → Content → List Visit
  | _, .nil => []
  | depth, .text _ rest => rest.elements depth
  | depth, .cdata _ rest => rest.elements depth
  | depth, .compact tag atts rest => ⟨depth, tag, atts⟩ :: rest.elements depth
  | depth, .element tag atts inner rest =>
    ⟨depth, tag, atts⟩ :: (inner.elements (depth + 1) ++ rest.elements depth)

attribute [local simp] Content.elements

/-- The elements of a tree; the root has depth 1. -/
def Tree.elements (t : Tree) : List Visit := t.content.elements 1

/-- The elements in an element. -/
def Elem.descendants (depth : ℕ) (e : Elem) : List Visit := (e.inner.map (Content.elements (depth + 1))).getD []

theorem Content.elements_next (depth : ℕ) : ∀ c : Content, c.elements depth =
    match c.next with
    | none => []
    | some e => ⟨depth, e.tag, e.atts⟩ :: (e.descendants depth ++ e.rest.elements depth)
  | .nil => rfl
  | .text _ rest => elements_next depth rest
  | .cdata _ rest => elements_next depth rest
  | .compact .. => rfl
  | .element .. => rfl

/-! ### The path -/

/-- What stands behind the last element of a content, up to the end of the document, where `es` are the elements
around it, the innermost one first. -/
def closer : List Elem → Text
  | [] => []
  | e :: es => lineBreak es.length ++ (endTag e.tag ++ (render es.length e.rest ++ closer es))

/-- The nodes stand for the elements. -/
inductive Path (doc : Text) : List Node → List Elem → Prop
  | nil : Path doc [] []
  | cons {node nodes e es} : Shows doc es.length e (render es.length e.rest ++ closer es) node → Path doc nodes es →
    Path doc (node :: nodes) (e :: es)

/-- The parser is at the first of the elements, the others are its ancestors, and nothing was wrong so far. -/
structure Stands {σ : Type} (s : Parser σ) (es : List Elem) : Prop where
  error : s.error = .ok
  filter : s.curTagFilter = none
  stop : s.rootNodeXmlEnd = s.doc.length
  path : Path s.doc s.nodePath es

/-- What is to be visited behind the first of the elements. -/
def todo : List Elem → List Visit
  | [] => []
  | e :: es => e.rest.elements (es.length + 1) ++ todo es

attribute [local simp] todo

theorem ends_closer (es : List Elem) : Ends (closer es) := by
  cases es with
  | nil => exact .inl rfl
  | cons e es => exact .inr ⟨_, e.tag, _, lt_not_mem_lineBreak _, rfl⟩

theorem Path.length {doc : Text} {nodes : List Node} {es : List Elem} (h : Path doc nodes es) :
    nodes.length = es.length := by
  induction h with
  | nil => rfl
  | cons _ _ ih => rw [List.length_cons, List.length_cons, ih]

section Steps

variable {σ : Type} {s : Parser σ} {e : Elem} {es : List Elem}

theorem Stands.level (h : Stands s es) : s.getDescendantLevel = es.length := h.path.length

/-- `EnterFirstChildNode`. -/
theorem Stands.firstChild (h : Stands s (e :: es)) :
    match e.inner.bind Content.next with
    | none => s.enterFirstChildNode none = (false, s)
    | some e' => ∃ s', s.enterFirstChildNode none = (true, s') ∧ Stands s' (e' :: e :: es) := by
  obtain ⟨herr, hfilter, hstop, hpath⟩ := h
  unfold Parser.enterFirstChildNode
  generalize hnodes : s.nodePath = nodes at hpath
  cases hpath with
  | @cons node nodes _ _ hshow htail =>
    have hcompact := hshow.compact
    have hinner := hshow.inner
    cases he : e.inner with
    | none =>
      rw [he] at hcompact
      simp only [Option.bind_none, hcompact, Option.isNone_none, if_true]
    | some c =>
      rw [he] at hcompact
      simp only [innerText, he, List.append_assoc] at hinner
      simp only [Option.bind_some, hcompact, Option.isNone_some, Bool.false_eq_true, if_false, hfilter]
      have hends : Ends (closing es.length c e.tag ++ (render es.length e.rest ++ closer es)) := by
        rw [closing_eq, List.append_assoc]
        refine .inr ⟨_, e.tag, _, ?_, rfl⟩
        split
        · exact lt_not_mem_lineBreak _
        · exact List.not_mem_nil
      have hnext := enterNextNode_content false hstop hinner hends
      cases hc : c.next with
      | none =>
        rw [hc] at hnext
        exact hnext
      | some e' =>
        rw [hc] at hnext
        obtain ⟨node', hrun, hshow'⟩ := hnext
        refine ⟨_, hrun, herr, hfilter, hstop, ?_⟩
        rw [closing_eq, Content.hasElement_of_next hc, if_pos rfl, List.append_assoc] at hshow'
        simp only [Parser.putNode, Bool.false_eq_true, if_false, hnodes]
        exact .cons hshow' (.cons hshow htail)

/-- `EnterNextSiblingNode`. -/
theorem Stands.nextSibling (h : Stands s (e :: es)) :
    match e.rest.next with
    | none => s.enterNextSiblingNode = (false, s)
    | some e' => ∃ s', s.enterNextSiblingNode = (true, s') ∧ Stands s' (e' :: es) := by
  obtain ⟨herr, hfilter, hstop, hpath⟩ := h
  generalize hnodes : s.nodePath = nodes at hpath
  cases hpath with
  | @cons node nodes _ _ hshow htail =>
    -- where the search for the sibling starts
    have hstart : ∃ q, s.enterNextSiblingNode = s.enterNextNode q none true ∧
        s.doc.drop q = render es.length e.rest ++ closer es := by
      have hcompact := hshow.compact
      have hinner := hshow.inner
      unfold Parser.enterNextSiblingNode
      rw [hnodes]
      cases he : e.inner with
      | none =>
        rw [he] at hcompact
        simp only [innerText, he, List.nil_append] at hinner
        simp only [hcompact, Option.isNone_none, if_true, hfilter]
        exact ⟨_, rfl, hinner⟩
      | some c =>
        rw [he] at hcompact
        simp only [innerText, he, List.append_assoc] at hinner
        obtain ⟨q, start, hclose, hq⟩ := searchNodeClose_closing hinner
        simp only [hcompact, Option.isNone_some, Bool.false_eq_true, if_false, hfilter, hshow.tagName, hclose]
        exact ⟨_, rfl, hq⟩
    obtain ⟨q, heq, hq⟩ := hstart
    have hnext := enterNextNode_content true hstop hq (ends_closer es)
    rw [heq]
    cases hc : e.rest.next with
    | none =>
      rw [hc] at hnext
      exact hnext
    | some e' =>
      rw [hc] at hnext
      obtain ⟨node', hrun, hshow'⟩ := hnext
      refine ⟨_, hrun, herr, hfilter, hstop, ?_⟩
      simp only [Parser.putNode, if_true, hnodes, List.tail_cons]
      exact .cons hshow' htail

theorem Stands.parent {g : Elem} (h : Stands s (e :: g :: es)) :
    ∃ s', s.enterParentNode = (true, s') ∧ Stands s' (g :: es) := by
  have hlevel : 1 < s.getDescendantLevel := by simp [h.level]
  obtain ⟨herr, hfilter, hstop, hpath⟩ := h
  refine ⟨{ s with nodePath := s.nodePath.tail }, by rw [Parser.enterParentNode, if_pos hlevel], herr, hfilter, hstop,
    ?_⟩
  generalize s.nodePath = nodes at hpath
  cases hpath with
  | cons _ htail => exact htail

/-- A call has come to the first one of the visits that are left, or there is none and it returns false. -/
def Advances (r : Bool × Parser σ) : List Visit → Prop
  | [] => r.1 = false ∧ r.2.error = .ok
  | x :: xs => r.1 = true ∧ ∃ e es, Stands r.2 (e :: es) ∧ x = ⟨es.length + 1, e.tag, e.atts⟩ ∧
      xs = e.descendants (es.length + 1) ++ todo (e :: es)

/-- Climbing from a node without further siblings. -/
theorem climb_advances : ∀ (es : List Elem) {n : ℕ} {s : Parser σ} {e : Elem}, Stands s (e :: es) → es.length < n →
    Advances (climb n s) (todo es)
  | _, 0, _, _, _, hn => absurd hn (Nat.not_lt_zero _)
  | [], n + 1, s, e, h, _ => by
    have hlevel : ¬1 < s.getDescendantLevel := by simp [h.level]
    rw [climb, if_neg (not_not.mpr h.error), Parser.enterParentNode, if_neg hlevel]
    exact ⟨rfl, h.error⟩
  | g :: gs, n + 1, s, e, h, hn => by
    obtain ⟨s₁, hparent, h₁⟩ := h.parent
    rw [climb, if_neg (not_not.mpr h.error), hparent, todo, Content.elements_next]
    have hsibling := h₁.nextSibling
    cases hnext : g.rest.next with
    | none =>
      rw [hnext] at hsibling
      simp only [hsibling, List.nil_append]
      exact climb_advances gs h₁ (by simpa using hn)
    | some e' =>
      rw [hnext] at hsibling
      obtain ⟨s₂, hrun, h₂⟩ := hsibling
      simp only [hrun]
      exact ⟨rfl, e', gs, h₂, rfl, by simp⟩

/-- `EnterSucceedNode`. -/
theorem Stands.succeed (h : Stands s (e :: es)) :
    Advances s.enterSucceedNode (e.descendants (es.length + 1) ++ todo (e :: es)) := by
  have hchild := h.firstChild
  have hsibling := h.nextSibling
  have hclimb := climb_advances es (n := s.getDescendantLevel) h (by rw [h.level]; exact Nat.lt_succ_self _)
  unfold Parser.enterSucceedNode
  cases hinner : e.inner.bind Content.next with
  | some e' =>
    rw [hinner] at hchild
    obtain ⟨s', hrun, h'⟩ := hchild
    obtain ⟨c, hc, hnext⟩ := Option.bind_eq_some_iff.mp hinner
    simp only [hrun, Elem.descendants, hc, Option.map_some, Option.getD_some]
    rw [Content.elements_next, hnext]
    exact ⟨rfl, e', e :: es, h', rfl, by simp [Elem.descendants]⟩
  | none =>
    rw [hinner] at hchild
    have hnone : e.descendants (es.length + 1) = [] := by
      unfold Elem.descendants
      cases hc : e.inner with
      | none => rfl
      | some c =>
        rw [hc] at hinner
        rw [Option.map_some, Option.getD_some, Content.elements_next, show c.next = none from hinner]
    simp only [hchild, h.error, ne_eq, not_true_eq_false, if_false, hnone, List.nil_append, todo]
    rw [Content.elements_next]
    cases hnext : e.rest.next with
    | none =>
      rw [hnext] at hsibling
      simp only [hsibling, List.nil_append]
      exact hclimb
    | some e' =>
      rw [hnext] at hsibling
      obtain ⟨s', hrun, h'⟩ := hsibling
      simp only [hrun]
      exact ⟨rfl, e', es, h', rfl, by simp⟩

/-- The parser is at the element of a visit. -/
def VisitedAt (s : Parser σ) (x : Visit) : Prop :=
  ∃ e es, Stands s (e :: es) ∧ x = ⟨es.length + 1, e.tag, e.atts⟩

theorem VisitedAt.name {x : Visit} (h : VisitedAt s x) :
    (s.getNodeName, s.getDescendantLevel) = (x.tag.text, x.depth) := by
  obtain ⟨e, es, h, rfl⟩ := h
  have hlevel := h.level
  have hpath := h.path
  rw [hlevel, Parser.getNodeName]
  generalize s.nodePath = nodes at hpath
  cases hpath with
  | cons hshow _ => exact congrArg (·, _) hshow.tagName

theorem map_name {visited : List (Parser σ)} {l : List Visit} (h : List.Forall₂ VisitedAt visited l) :
    visited.map (fun s => (s.getNodeName, s.getDescendantLevel)) = l.map (fun v => (v.tag.text, v.depth)) := by
  induction h with
  | nil => rfl
  | cons hv _ ih => rw [List.map_cons, List.map_cons, ih, hv.name]

/-- The walk comes to each of the elements that are left, in order, and then to its end. -/
theorem Stands.walk : ∀ {l : List Visit} {s : Parser σ} {e : Elem} {es : List Elem}, Stands s (e :: es) →
    l = e.descendants (es.length + 1) ++ todo (e :: es) →
    ∃ visited s', s'.error = .ok ∧ List.Forall₂ VisitedAt visited (⟨es.length + 1, e.tag, e.atts⟩ :: l) ∧
      ∀ n, l.length < n → Xml.walk n s = (visited, some s')
  | [], s, e, es, h, hl => by
    obtain ⟨hfalse, herr⟩ := hl ▸ h.succeed
    refine ⟨[s], _, herr, .cons ⟨e, es, h, rfl⟩ .nil, fun n hn => ?_⟩
    obtain ⟨n, rfl⟩ := Nat.exists_eq_add_one.mpr hn
    rw [Xml.walk]
    generalize s.enterSucceedNode = r at hfalse herr
    obtain ⟨b, s'⟩ := r
    obtain rfl : b = false := hfalse
    rfl
  | x :: xs, s, e, es, h, hl => by
    obtain ⟨htrue, e', es', h', hx, hxs⟩ := hl ▸ h.succeed
    obtain ⟨visited, s', herr, hall, hrun⟩ := Stands.walk h' hxs
    refine ⟨s :: visited, s', herr, .cons ⟨e, es, h, rfl⟩ (hx ▸ hall), fun n hn => ?_⟩
    obtain ⟨n, rfl⟩ := Nat.exists_eq_add_one.mpr (Nat.zero_lt_of_lt hn)
    have hwalk := hrun n (by simpa using hn)
    rw [Xml.walk]
    generalize s.enterSucceedNode = r at htrue hwalk
    obtain ⟨b, s₁⟩ := r
    obtain rfl : b = true := htrue
    simp only [hwalk]

end Steps

/-! ### Loading -/

/-- The root with nothing behind it. -/
def Tree.root (t : Tree) : Elem := ⟨t.tag, t.atts, t.inner, .nil⟩

theorem Tree.content_next (t : Tree) : t.content.next = some t.root := by
  obtain ⟨tag, atts, inner⟩ := t
  cases inner <;> rfl

theorem Tree.elements_eq (t : Tree) : t.elements = ⟨1, t.tag, t.atts⟩ :: (t.root.descendants 1 ++ todo [t.root]) := by
  rw [elements, Content.elements_next, t.content_next]
  simp [root]

/-- The text of a tree from its first tag on. -/
theorem render_content (t : Tree) : ∃ r, render 0 t.content = lineBreak 0 ++ (startTag t.inner.isNone t.tag t.atts ++ r) := by
  obtain ⟨tag, atts, inner⟩ := t
  cases inner with
  | none => exact ⟨_, List.append_assoc _ _ _⟩
  | some c => exact ⟨_, by rw [Tree.content, render, List.append_assoc, List.append_assoc]; rfl⟩

variable {σ : Type}

/-- `Load` goes over the header and enters the root. -/
theorem load_document (t : Tree) (x : σ) :
    ∃ s, load x (document t) (document t).length = (true, s) ∧ Stands s [t.root] := by
  obtain ⟨doc, hdoc⟩ : ∃ doc, document t = doc := ⟨_, rfl⟩
  obtain ⟨r, hr⟩ := render_content t
  have hheader : doc = g_XML_Header ++ render 0 t.content := by rw [← hdoc, document_eq]
  have h₁ : doc.drop 39 = render 0 t.content := by rw [hheader]; rfl
  have h₂ : doc.drop 41 = startTag t.inner.isNone t.tag t.atts ++ r := by
    rw [hr] at h₁
    exact drop_add_of_drop (p := 39) h₁
  have hspecial : searchSpecialNodeClose doc 0 = .ok 38 := by rw [hheader]; rfl
  have hlt₁ : strchr doc 0 Ch.lt = some 0 := by rw [hheader]; rfl
  have hinst : byteAt doc 1 = 0x3f := by rw [hheader]; rfl
  have hbom : List.isPrefixOf [0xef, 0xbb, 0xbf] doc = false := by rw [hheader]; rfl
  have hlt₂ : strchr doc 39 Ch.lt = some 41 := by
    rw [hr, startTag_eq] at h₁
    exact strchr_of_drop h₁ (lt_not_mem_lineBreak 0)
  obtain ⟨-, -, -, -, hbang', hinst', -⟩ := isNameChar_facts _ (byteAt_startTag h₂)
  obtain ⟨n, hn⟩ : ∃ n, doc.length = n + 1 := ⟨doc.length - 1, by rw [hheader]; simp [g_XML_Header]⟩
  -- the parser when the root is looked for
  obtain ⟨s₁, hs₁⟩ : ∃ s₁ : Parser σ, s₁ = ⟨doc, 0, 41, doc.length, .ok, 0, [], none, x⟩ := ⟨_, rfl⟩
  have hload : load x doc doc.length = s₁.enterNextNode 41 none false := by
    rw [load, hbom, hn, loadLoop]
    simp only [Bool.false_eq_true, if_false, hlt₁, hinst, or_true, if_true, hspecial]
    rw [loadLoop]
    simp only [hlt₂, hbang', hinst', or_self, if_false]
    rw [hs₁, hn]
  have hstart : ¬s₁.rootNodeXmlEnd ≤ 41 := by
    rw [hs₁]
    intro hle
    rw [List.drop_eq_nil_of_le hle] at h₂
    cases h₂
  have hdoc₁ : s₁.doc.drop 39 = render 0 t.content ++ [] := by rw [hs₁, List.append_nil]; exact h₁
  have hlen : (render 0 t.content).length < s₁.doc.length + 1 := by
    rw [hs₁, hheader, List.length_append]
    omega
  have hskip : enterNextNodeLoop none false (s₁.doc.length + 1) 41 s₁ =
      enterNextNodeLoop none false (s₁.doc.length + 1) 39 s₁ :=
    (enterLoop_skip (p := 39) (a := lineBreak 0) (by rw [hdoc₁, hr, List.append_nil]) (lt_not_mem_lineBreak 0)).symm
  have hroot := enterLoop_content false (by rw [hs₁]) t.content hdoc₁ hlen (.inl rfl)
  rw [t.content_next] at hroot
  obtain ⟨node, hrun, hshow⟩ := hroot
  refine ⟨s₁.putNode false node, ?_, by rw [hs₁]; rfl, by rw [hs₁]; rfl, by rw [hs₁]; rfl, ?_⟩
  · rw [hdoc, hload, Parser.enterNextNode, if_neg hstart, hskip, hrun]
  · have hpath : (s₁.putNode false node).nodePath = [node] := by rw [hs₁]; rfl
    rw [hpath]
    exact .cons hshow .nil

/-- The parser at the visits of a tree, one after the other. -/
theorem visited_getElem? (t : Tree) (x : σ) (i : ℕ) (v : Visit) (hv : t.elements[i]? = some v) :
    ∃ s, (walk t.elements.length (load x (document t) (document t).length).2).1[i]? = some s ∧ VisitedAt s v := by
  obtain ⟨s, hload, hs⟩ := load_document t x
  obtain ⟨visited, s', -, hall, hrun⟩ := hs.walk rfl
  rw [hload]
  rw [t.elements_eq] at hv ⊢
  obtain ⟨hi, rfl⟩ := List.getElem?_eq_some_iff.mp hv
  have hi' : i < visited.length := by
    rw [hall.length_eq]
    exact hi
  rw [hrun _ (by simp)]
  exact ⟨visited[i], List.getElem?_eq_getElem hi', hall.get hi' hi⟩

end Cpcf.Rt.Xml
