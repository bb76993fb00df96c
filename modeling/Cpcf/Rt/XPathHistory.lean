import Cpcf.Rt.XPath

/-!
Queries with an absolute path after other calls.

`EnterXPath` resets all that the calls before it have left, but for the start of the document, which a relative query
moves, and the error of the XPath, which nothing clears.
-/

namespace Cpcf.Rt.Xml

/-! ### Parsers that differ in the state of the filter -/

section Beside

variable {σ : Type}

/-- The same parser with another state of the filter. -/
def Parser.withState (s : Parser σ) (y : σ) : Parser σ := { s with filterState := y }

/-- The filter does the same in states that are related. -/
def Respects (r : σ → σ → Prop) (f : Option (TagFilter σ)) : Prop :=
  ∀ g ∈ f, ∀ tag attributes level x y, r x y →
    (g tag attributes level x).1 = (g tag attributes level y).1 ∧
      r (g tag attributes level x).2 (g tag attributes level y).2

/-- Two parsers with the filter `f` that differ in its states, which are related. -/
structure Beside (r : σ → σ → Prop) (f : Option (TagFilter σ)) (s t : Parser σ) : Prop where
  filter : s.curTagFilter = f
  state : r s.filterState t.filterState
  rest : t = s.withState t.filterState

/-- The same is returned, and the parsers are beside each other. -/
def Matches (r : σ → σ → Prop) (f : Option (TagFilter σ)) (a b : Bool × Parser σ) : Prop :=
  a.1 = b.1 ∧ Beside r f a.2 b.2

variable {r : σ → σ → Prop} {f : Option (TagFilter σ)} {s t : Parser σ}

theorem Matches.elim {a b : Bool × Parser σ} (h : Matches r f a b) :
    ∃ c s t, a = (c, s) ∧ b = (c, t) ∧ Beside r f s t :=
  ⟨a.1, a.2, b.2, rfl, Prod.ext h.1.symm rfl, h.2⟩

theorem Beside.putNode (h : Beside r f s t) (replace_node : Bool) (node : Node) :
    Beside r f (s.putNode replace_node node) (t.putNode replace_node node) := by
  refine ⟨h.filter, h.state, ?_⟩
  rw [h.rest]
  rfl

theorem Beside.setLastSyntaxError (h : Beside r f s t) (e : XMLParseError) (p : ℕ) :
    Beside r f (s.setLastSyntaxError e p) (t.setLastSyntaxError e p) := by
  refine ⟨h.filter, h.state, ?_⟩
  rw [h.rest]
  rfl

theorem Beside.doc (h : Beside r f s t) : t.doc = s.doc := by rw [h.rest]; rfl

theorem Beside.nodePath (h : Beside r f s t) : t.nodePath = s.nodePath := by rw [h.rest]; rfl

theorem Beside.error (h : Beside r f s t) : t.error = s.error := by rw [h.rest]; rfl

theorem Beside.rootNodeXmlStart (h : Beside r f s t) : t.rootNodeXmlStart = s.rootNodeXmlStart := by rw [h.rest]; rfl

theorem Beside.rootNodeXmlEnd (h : Beside r f s t) : t.rootNodeXmlEnd = s.rootNodeXmlEnd := by rw [h.rest]; rfl

theorem Beside.curTagFilter (h : Beside r f s t) : t.curTagFilter = f := by rw [h.rest]; exact h.filter

theorem Beside.level (h : Beside r f s t) : t.getDescendantLevel = s.getDescendantLevel := by
  rw [Parser.getDescendantLevel, h.nodePath]
  rfl

theorem Beside.tagTest (h : Beside r f s t) (hf : Respects r f) (tag : Text) (patt level : ℕ) :
    Matches r f (s.tagTest f tag patt level) (t.tagTest f tag patt level) := by
  cases f with
  | none => exact ⟨rfl, h⟩
  | some g =>
    obtain ⟨heq, hr⟩ := hf g rfl tag patt level _ _ h.state
    refine ⟨heq, h.filter, hr, ?_⟩
    simp only [Parser.tagTest]
    rw [h.rest]
    rfl

theorem Beside.enterNextNodeLoop (hf : Respects r f) (replace_node : Bool) : ∀ {n start : ℕ} {s t : Parser σ},
    Beside r f s t →
      Matches r f (enterNextNodeLoop f replace_node n start s) (enterNextNodeLoop f replace_node n start t)
  | 0, _, _, _, h => ⟨rfl, h⟩
  | n + 1, start, s, t, h => by
    unfold Xml.enterNextNodeLoop
    rw [h.doc, h.rootNodeXmlEnd]
    split
    · exact ⟨rfl, h⟩
    rename_i ptag _
    split
    · exact ⟨rfl, h⟩
    split
    · exact ⟨rfl, h⟩
    split
    · split
      · exact ⟨rfl, h.setLastSyntaxError _ _⟩
      · exact Beside.enterNextNodeLoop hf replace_node h
    simp only
    split
    · exact ⟨rfl, h.setLastSyntaxError _ _⟩
    split
    · exact ⟨rfl, h.setLastSyntaxError _ _⟩
    rename_i pend _
    rw [h.level]
    -- the test of the tag, and what is done with a tag that does not pass
    generalize seekSymbolEnd s.doc (ptag + 1) = patt
    obtain ⟨c, s', t', hs, ht, h'⟩ := (h.tagTest hf ((s.doc.drop (ptag + 1)).take (patt - (ptag + 1))) patt
      (s.getDescendantLevel + if replace_node = true then 0 else 1)).elim
    rw [hs, ht]
    cases c with
    | true =>
      simp only [h'.doc]
      exact ⟨rfl, h'.putNode _ _⟩
    | false =>
      simp only [h'.doc]
      split
      · exact Beside.enterNextNodeLoop hf replace_node h'
      split
      · exact ⟨rfl, (h'.setLastSyntaxError _ _).setLastSyntaxError _ _⟩
      · exact Beside.enterNextNodeLoop hf replace_node h'

theorem Beside.enterNextNode (h : Beside r f s t) (hf : Respects r f) (start : ℕ) (replace_node : Bool) :
    Matches r f (s.enterNextNode start f replace_node) (t.enterNextNode start f replace_node) := by
  unfold Parser.enterNextNode
  rw [h.doc, h.rootNodeXmlEnd]
  split
  · exact ⟨rfl, h⟩
  · exact Beside.enterNextNodeLoop hf replace_node h

theorem Beside.enterFirstChildNode (h : Beside r f s t) (hf : Respects r f) :
    Matches r f (s.enterFirstChildNode none) (t.enterFirstChildNode none) := by
  simp only [Parser.enterFirstChildNode, h.nodePath, h.filter, h.curTagFilter, h.rootNodeXmlStart]
  split
  · exact h.enterNextNode hf _ _
  · split
    · exact ⟨rfl, h⟩
    · exact h.enterNextNode hf _ _

theorem Beside.enterNextSiblingNode (h : Beside r f s t) (hf : Respects r f) :
    Matches r f s.enterNextSiblingNode t.enterNextSiblingNode := by
  simp only [Parser.enterNextSiblingNode, h.nodePath, h.filter, h.curTagFilter, h.doc]
  split
  · exact ⟨rfl, h⟩
  split
  · exact h.enterNextNode hf _ _
  split
  · exact ⟨rfl, h.setLastSyntaxError _ _⟩
  · exact h.enterNextNode hf _ _

theorem Beside.enterParentNode (h : Beside r f s t) : Matches r f s.enterParentNode t.enterParentNode := by
  simp only [Parser.enterParentNode, h.level, h.nodePath]
  split
  · refine ⟨rfl, h.filter, h.state, ?_⟩
    rw [h.rest]
    rfl
  · exact ⟨rfl, h⟩

end Beside

/-! ### What navigation leaves as it is -/

section Stays

variable {σ β : Type}

/-- The same document and filter, with `k` of the state of the filter. -/
structure Stays (k : σ → β) (s t : Parser σ) : Prop where
  doc : t.doc = s.doc
  pDocument : t.pDocument = s.pDocument
  rootNodeXmlStart : t.rootNodeXmlStart = s.rootNodeXmlStart
  rootNodeXmlEnd : t.rootNodeXmlEnd = s.rootNodeXmlEnd
  curTagFilter : t.curTagFilter = s.curTagFilter
  kept : k t.filterState = k s.filterState

/-- The filter leaves `k` of its state as it is. -/
def Keeps (k : σ → β) (f : Option (TagFilter σ)) : Prop :=
  ∀ g ∈ f, ∀ tag attributes level x, k (g tag attributes level x).2 = k x

variable {k : σ → β} {f : Option (TagFilter σ)} {s t u : Parser σ}

theorem keeps_none : Keeps k none := fun g hg => by cases hg

/-- A filter that leaves `k` as it is or does what another one does. -/
theorem keeps_by (hf : Keeps k f) {g : TagFilter σ} (h : ∀ tag attributes level x,
    k (g tag attributes level x).2 = k x ∨ ∃ g' ∈ f, g tag attributes level x = g' tag attributes level x) :
    Keeps k (some g) := by
  rintro g' hg tag attributes level x
  obtain rfl := Option.mem_some_iff.mp hg
  obtain hsame | ⟨g', hg', heq⟩ := h tag attributes level x
  · exact hsame
  · rw [heq]
    exact hf g' hg' tag attributes level x

theorem Stays.refl (s : Parser σ) : Stays k s s := ⟨rfl, rfl, rfl, rfl, rfl, rfl⟩

theorem Stays.trans (h : Stays k s t) (h' : Stays k t u) : Stays k s u :=
  ⟨h'.doc.trans h.doc, h'.pDocument.trans h.pDocument, h'.rootNodeXmlStart.trans h.rootNodeXmlStart,
    h'.rootNodeXmlEnd.trans h.rootNodeXmlEnd, h'.curTagFilter.trans h.curTagFilter, h'.kept.trans h.kept⟩

theorem tagTest_stays (hf : Keeps k f) {tag : Text} {patt level : ℕ} {b : Bool}
    (h : s.tagTest f tag patt level = (b, t)) : Stays k s t := by
  have hsnd : (s.tagTest f tag patt level).2 = t := congrArg Prod.snd h
  rw [← hsnd]
  cases f with
  | none => exact Stays.refl s
  | some g => exact ⟨rfl, rfl, rfl, rfl, rfl, hf g rfl tag patt level s.filterState⟩

theorem enterNextNodeLoop_stays (hf : Keeps k f) (replace_node : Bool) : ∀ {n start : ℕ} {s : Parser σ},
    Stays k s (enterNextNodeLoop f replace_node n start s).2
  | 0, _, s => Stays.refl s
  | n + 1, start, s => by
    unfold Xml.enterNextNodeLoop
    split
    · exact Stays.refl s
    rename_i ptag _
    split
    · exact Stays.refl s
    split
    · exact Stays.refl s
    split
    · split
      · exact ⟨rfl, rfl, rfl, rfl, rfl, rfl⟩
      · exact enterNextNodeLoop_stays hf replace_node
    simp only
    split
    · exact ⟨rfl, rfl, rfl, rfl, rfl, rfl⟩
    split
    · exact ⟨rfl, rfl, rfl, rfl, rfl, rfl⟩
    split
    · rename_i s' htest
      have h := tagTest_stays hf htest
      exact ⟨h.doc, h.pDocument, h.rootNodeXmlStart, h.rootNodeXmlEnd, h.curTagFilter, h.kept⟩
    · rename_i s' htest
      have h := tagTest_stays hf htest
      split
      · exact h.trans (enterNextNodeLoop_stays hf replace_node)
      split
      · exact ⟨h.doc, h.pDocument, h.rootNodeXmlStart, h.rootNodeXmlEnd, h.curTagFilter, h.kept⟩
      · exact h.trans (enterNextNodeLoop_stays hf replace_node)

theorem enterNextNode_stays (hf : Keeps k f) (start : ℕ) (replace_node : Bool) :
    Stays k s (s.enterNextNode start f replace_node).2 := by
  unfold Parser.enterNextNode
  split
  · exact Stays.refl s
  · exact enterNextNodeLoop_stays hf replace_node

theorem enterFirstChildNode_stays (hf : Keeps k s.curTagFilter) (tag_name : Option Text) :
    Stays k s (s.enterFirstChildNode tag_name).2 := by
  unfold Parser.enterFirstChildNode
  cases tag_name with
  | none =>
    simp only
    split
    · exact enterNextNode_stays hf _ _
    split
    · exact Stays.refl s
    · exact enterNextNode_stays hf _ _
  | some name =>
    simp only
    split
    · refine enterNextNode_stays (keeps_by hf fun tag attributes level x => ?_) _ _
      split
      · exact .inl rfl
      split
      · exact .inl rfl
      · exact .inr ⟨_, by assumption, rfl⟩
    split
    · exact Stays.refl s
    · refine enterNextNode_stays (keeps_by hf fun tag attributes level x => ?_) _ _
      split
      · exact .inl rfl
      split
      · exact .inl rfl
      · exact .inr ⟨_, by assumption, rfl⟩

theorem enterNextSiblingNode_stays (hf : Keeps k s.curTagFilter) : Stays k s s.enterNextSiblingNode.2 := by
  unfold Parser.enterNextSiblingNode
  split
  · exact Stays.refl s
  split
  · exact enterNextNode_stays hf _ _
  split
  · exact ⟨rfl, rfl, rfl, rfl, rfl, rfl⟩
  · exact enterNextNode_stays hf _ _

theorem enterParentNode_stays : Stays k s s.enterParentNode.2 := by
  unfold Parser.enterParentNode
  split
  · exact ⟨rfl, rfl, rfl, rfl, rfl, rfl⟩
  · exact Stays.refl s

end Stays

/-! ### Filters that differ in what they do not read -/

/-- The qualifiers agree in what is read of them. -/
structure Qualifier.Alike (q r : Qualifier) : Prop where
  qt_TagName : r.qt_TagName = q.qt_TagName
  tagName : q.qt_TagName = .exact → r.tagName = q.tagName
  qt_Attribute : r.qt_Attribute = q.qt_Attribute
  attributeName : q.qt_Attribute ≠ .any → r.attributeName = q.attributeName
  value : q.qt_Attribute ≠ .any → q.qt_Attribute ≠ .have_ → r.value = q.value
  qt_Ordinal : r.qt_Ordinal = q.qt_Ordinal
  lastOrdinalTestPast : r.lastOrdinalTestPast = q.lastOrdinalTestPast

/-- No qualifier has a test `!=`, which is the only one that reads the error of the XPath. -/
def XPathParser.NoNotEqual (x : XPathParser) : Prop :=
  (∀ q ∈ x.qualifiers, q.qt_Attribute ≠ .notEqual) ∧ x.finalQualifier.qt_Attribute ≠ .notEqual

instance (x : XPathParser) : Decidable x.NoNotEqual := inferInstanceAs (Decidable (_ ∧ _))

/-- The filters agree in what is read of them. -/
structure XPathParser.Alike (x y : XPathParser) : Prop where
  lastNodeSatificated : y.lastNodeSatificated = x.lastNodeSatificated
  qualifiers : y.qualifiers = x.qualifiers
  bIncludeDescendants : y.bIncludeDescendants = x.bIncludeDescendants
  finalQualifier : x.finalQualifier.Alike y.finalQualifier
  qualifierShifts : y.qualifierShifts = x.qualifierShifts
  attribError : y.attribError = x.attribError
  outside : y.outside = x.outside
  error : y.error = x.error ∨ x.NoNotEqual

section Alike

variable {x y : XPathParser} {q r : Qualifier} {doc : Text} {before : UInt8}

theorem Qualifier.Alike.refl (q : Qualifier) : q.Alike q :=
  ⟨rfl, fun _ => rfl, rfl, fun _ => rfl, fun _ _ => rfl, rfl, rfl⟩

theorem Qualifier.Alike.attributeTest (h : q.Alike r) (hq : q.qt_Attribute ≠ .any) (name : Text) (v : ℕ × ℕ) :
    r.attributeTest doc before name v = q.attributeTest doc before name v := by
  have hname := h.attributeName hq
  have hvalue := h.value hq
  simp only [Qualifier.attributeTest, h.qt_Attribute, hname]
  cases htype : q.qt_Attribute with
  | any => exact absurd htype hq
  | have_ => rfl
  | equal => rw [hvalue (by simp [htype])]
  | notEqual => rw [hvalue (by simp [htype])]
  | startWith => rw [hvalue (by simp [htype])]
  | endWith => rw [hvalue (by simp [htype])]
  | contain => rw [hvalue (by simp [htype])]
  | haveWord => rw [hvalue (by simp [htype])]

theorem Qualifier.Alike.attributesLoop (h : q.Alike r) (hq : q.qt_Attribute ≠ .any) {e e' : XPathParseError}
    (he : e' = e ∨ q.qt_Attribute ≠ .notEqual) : ∀ (n attributes : ℕ) (err : Option (XMLParseError × ℕ)),
    r.attributesLoop doc before e' n attributes err = q.attributesLoop doc before e n attributes err
  | 0, _, _ => by rw [Qualifier.attributesLoop, Qualifier.attributesLoop, h.qt_Attribute]
  | n + 1, attributes, err => by
    unfold Qualifier.attributesLoop
    split
    · rw [h.qt_Attribute]
      rcases he with rfl | he
      · rfl
      · rw [decide_eq_false he, Bool.and_false, Bool.and_false]
    · rw [h.attributeTest hq]
      split
      · rfl
      · exact h.attributesLoop hq he n _ _

theorem XPathParser.Alike.qualifierTest (hx : x.Alike y) (doc : Text) (before : UInt8) (h : q.Alike r)
    (he : y.error = x.error ∨ q.qt_Attribute ≠ .notEqual) (tag_name : Text) (attributes : ℕ) :
    y.qualifierTest doc before r tag_name attributes = x.qualifierTest doc before q tag_name attributes := by
  have hname : (r.qt_TagName = .exact ∧ tag_name ≠ r.tagName) ↔ (q.qt_TagName = .exact ∧ tag_name ≠ q.tagName) := by
    rw [h.qt_TagName]
    exact and_congr_right fun hexact => by rw [h.tagName hexact]
  simp only [XPathParser.qualifierTest, hname, h.qt_Attribute, hx.attribError]
  split
  · rfl
  split
  · rfl
  · rename_i hq
    exact h.attributesLoop hq he _ _ _

theorem Qualifier.Alike.isPast (h : q.Alike r) : r.isPast = q.isPast := by
  rw [Qualifier.isPast, h.qt_Ordinal, h.lastOrdinalTestPast]
  rfl

theorem Qualifier.Alike.count (h : q.Alike r) : r.count.1 = q.count.1 ∧ q.count.2.Alike r.count.2 := by
  unfold Qualifier.count
  rw [h.qt_Ordinal, h.lastOrdinalTestPast]
  split
  · exact ⟨rfl, h.qt_TagName, h.tagName, h.qt_Attribute, h.attributeName, h.value, rfl, rfl⟩
  · exact ⟨rfl, h⟩

theorem qt_Attribute_count (q : Qualifier) : q.count.2.qt_Attribute = q.qt_Attribute := by
  unfold Qualifier.count
  split <;> rfl

theorem mem_modify {α : Type} {g : α → α} {a : α} : ∀ {l : List α} {i : ℕ}, a ∈ l.modify i g → ∃ b ∈ l, a = b ∨ a = g b
  | [], i, h => by simp at h
  | b :: l, 0, h => by
    rw [List.modify_zero_cons, List.mem_cons] at h
    rcases h with rfl | h
    · exact ⟨b, List.mem_cons_self, .inr rfl⟩
    · exact ⟨a, List.mem_cons_of_mem _ h, .inl rfl⟩
  | b :: l, i + 1, h => by
    rw [List.modify_succ_cons, List.mem_cons] at h
    rcases h with rfl | h
    · exact ⟨a, List.mem_cons_self, .inl rfl⟩
    · obtain ⟨c, hc, hac⟩ := mem_modify h
      exact ⟨c, List.mem_cons_of_mem _ hc, hac⟩

theorem XPathParser.NoNotEqual.clearLast (h : x.NoNotEqual) (level : ℕ) :
    (x.clearLastOrdinalTestPast level).NoNotEqual := by
  unfold XPathParser.clearLastOrdinalTestPast
  split
  · refine ⟨fun q hq => ?_, h.2⟩
    obtain ⟨b, hb, rfl | rfl⟩ := mem_modify hq
    · exact h.1 q hb
    · exact h.1 b hb
  · exact ⟨h.1, h.2⟩

theorem XPathParser.error_clearLast (x : XPathParser) (level : ℕ) :
    (x.clearLastOrdinalTestPast level).error = x.error := by
  unfold XPathParser.clearLastOrdinalTestPast
  split <;> rfl

theorem XPathParser.Alike.clearLast (h : x.Alike y) (level : ℕ) :
    (x.clearLastOrdinalTestPast level).Alike (y.clearLastOrdinalTestPast level) := by
  have herror : (y.clearLastOrdinalTestPast level).error = (x.clearLastOrdinalTestPast level).error ∨
      (x.clearLastOrdinalTestPast level).NoNotEqual := by
    rw [XPathParser.error_clearLast, XPathParser.error_clearLast]
    exact h.error.imp_right fun hne => hne.clearLast level
  by_cases hlt : level < x.qualifiers.length
  · simp only [XPathParser.clearLastOrdinalTestPast, h.qualifiers, if_pos hlt] at herror ⊢
    exact ⟨h.lastNodeSatificated, rfl, h.bIncludeDescendants, h.finalQualifier, h.qualifierShifts, h.attribError,
      h.outside, herror⟩
  · simp only [XPathParser.clearLastOrdinalTestPast, h.qualifiers, if_neg hlt] at herror ⊢
    have hq := h.finalQualifier
    exact ⟨h.lastNodeSatificated, rfl, h.bIncludeDescendants, ⟨hq.qt_TagName, hq.tagName, hq.qt_Attribute,
      hq.attributeName, hq.value, hq.qt_Ordinal, rfl⟩, h.qualifierShifts, h.attribError, h.outside, herror⟩

/-- The test of a tag does the same, and the filters still agree. -/
theorem XPathParser.Alike.tagTest (h : x.Alike y) (tag_name : Text) (attributes level : ℕ) :
    (y.tagTest doc before tag_name attributes level).1 = (x.tagTest doc before tag_name attributes level).1 ∧
      (x.tagTest doc before tag_name attributes level).2.Alike (y.tagTest doc before tag_name attributes level).2 := by
  unfold XPathParser.tagTest
  rw [h.qualifiers, h.qualifierShifts, h.bIncludeDescendants]
  split
  · split
    · exact ⟨rfl, h.lastNodeSatificated, rfl, rfl, h.finalQualifier, rfl, h.attribError, rfl, h.error⟩
    · -- a step in front of the last one
      rename_i qu hqu
      have hmem : qu ∈ x.qualifiers := by
        split at hqu
        · exact List.mem_of_getElem? hqu
        · cases hqu
      have hc := h.clearLast (level - x.qualifierShifts)
      have herror : (y.clearLastOrdinalTestPast (level - x.qualifierShifts)).error =
          (x.clearLastOrdinalTestPast (level - x.qualifierShifts)).error ∨
            (x.clearLastOrdinalTestPast (level - x.qualifierShifts)).NoNotEqual ∧ qu.qt_Attribute ≠ .notEqual := by
        rw [XPathParser.error_clearLast, XPathParser.error_clearLast]
        exact h.error.imp_right fun hne => ⟨hne.clearLast _, hne.1 qu hmem⟩
      have htest := hc.qualifierTest doc before (Qualifier.Alike.refl qu) (herror.imp_right And.right) tag_name
        attributes
      simp only [htest]
      split
      · exact ⟨rfl, hc⟩
      split
      · refine ⟨rfl, rfl, by rw [hc.qualifiers, hc.qualifierShifts], hc.bIncludeDescendants, hc.finalQualifier,
          hc.qualifierShifts, rfl, hc.outside, herror.imp_right fun hne => ⟨fun q hq => ?_, hne.1.2⟩⟩
        rcases List.mem_or_eq_of_mem_set hq with hq | rfl
        · exact hne.1.1 q hq
        · rw [qt_Attribute_count]
          exact hne.2
      · exact ⟨rfl, rfl, hc.qualifiers, hc.bIncludeDescendants, hc.finalQualifier, hc.qualifierShifts, rfl, hc.outside,
          hc.error⟩
  split
  · exact ⟨rfl, rfl, rfl, rfl, h.finalQualifier, rfl, h.attribError, h.outside, h.error⟩
  -- the last step
  have hfinal := h.finalQualifier
  have htest := h.qualifierTest doc before hfinal (h.error.imp_right And.right) tag_name attributes
  simp only [htest, hfinal.isPast]
  split
  · exact ⟨rfl, h⟩
  split
  · exact ⟨hfinal.count.1, rfl, rfl, rfl, hfinal.count.2, rfl, rfl, h.outside,
      h.error.imp_right fun hne => ⟨hne.1, by rw [qt_Attribute_count]; exact hne.2⟩⟩
  · exact ⟨rfl, rfl, rfl, rfl, hfinal, rfl, rfl, h.outside, h.error⟩

theorem respects_tagTest : Respects XPathParser.Alike (some (XPathParser.tagTest doc before)) := by
  rintro g hg tag attributes level x y h
  obtain rfl := Option.mem_some_iff.mp hg
  exact ⟨(h.tagTest tag attributes level).1.symm, (h.tagTest tag attributes level).2⟩

theorem keeps_tagTest : Keeps XPathParser.error (some (XPathParser.tagTest doc before)) := by
  rintro g hg tag attributes level x
  obtain rfl := Option.mem_some_iff.mp hg
  have hclear := x.error_clearLast (level - x.qualifierShifts)
  unfold XPathParser.tagTest
  split
  · split
    · rfl
    simp only
    split
    · exact hclear
    split
    · exact hclear
    · exact hclear
  split
  · rfl
  split
  · rfl
  simp only
  split
  · rfl
  · rfl

end Alike

/-! ### Navigation with the filter of the XPath -/

section Navigation

variable {f : Option (TagFilter XPathParser)} {s t : Parser XPathParser}

theorem Beside.hasError (h : Beside XPathParser.Alike f s t) : t.hasError = s.hasError := by
  rw [Parser.hasError, h.error, h.state.attribError]
  rfl

theorem Beside.climbAbove (hf : Respects XPathParser.Alike f) (floor : ℕ) : ∀ {n : ℕ} {s t : Parser XPathParser},
    Beside XPathParser.Alike f s t →
      Matches XPathParser.Alike f (Parser.climbAbove floor n s) (Parser.climbAbove floor n t)
  | 0, _, _, h => ⟨rfl, h⟩
  | n + 1, s, t, h => by
    unfold Parser.climbAbove
    rw [h.level, h.hasError]
    split
    · exact ⟨rfl, h⟩
    split
    · exact ⟨rfl, h⟩
    obtain ⟨c, s', t', hs, ht, h'⟩ := h.enterParentNode.elim
    rw [hs, ht]
    cases c with
    | false => exact ⟨rfl, h'⟩
    | true =>
      obtain ⟨c, s'', t'', hs, ht, h''⟩ := (h'.enterNextSiblingNode hf).elim
      simp only [hs, ht]
      cases c with
      | true => exact ⟨rfl, h''⟩
      | false => exact Beside.climbAbove hf floor h''

theorem Beside.enterNextAbove (h : Beside XPathParser.Alike f s t) (hf : Respects XPathParser.Alike f) (floor : ℕ) :
    Matches XPathParser.Alike f (s.enterNextAbove floor) (t.enterNextAbove floor) := by
  obtain ⟨c, s', t', hs, ht, h'⟩ := (h.enterNextSiblingNode hf).elim
  unfold Parser.enterNextAbove
  rw [hs, ht]
  cases c with
  | true => exact ⟨rfl, h'⟩
  | false =>
    simp only [h'.level]
    exact Beside.climbAbove hf floor h'

/-- The first child, or what follows the node. -/
theorem Beside.enterFirstOr (h : Beside XPathParser.Alike f s t) (hf : Respects XPathParser.Alike f) (floor : ℕ) :
    Matches XPathParser.Alike f
      (match s.enterFirstChildNode none with
        | (true, s) => (true, s)
        | (false, s) => if s.hasError then (false, s) else s.enterNextAbove floor)
      (match t.enterFirstChildNode none with
        | (true, s) => (true, s)
        | (false, s) => if s.hasError then (false, s) else s.enterNextAbove floor) := by
  obtain ⟨c, s', t', hs, ht, h'⟩ := (h.enterFirstChildNode hf).elim
  rw [hs, ht]
  cases c with
  | true => exact ⟨rfl, h'⟩
  | false =>
    simp only [h'.hasError]
    split
    · exact ⟨rfl, h'⟩
    · exact h'.enterNextAbove hf floor

theorem Beside.enterNextNodeOfXPath (h : Beside XPathParser.Alike f s t) (hf : Respects XPathParser.Alike f) :
    Matches XPathParser.Alike f s.enterNextNodeOfXPath t.enterNextNodeOfXPath := by
  simp only [Parser.enterNextNodeOfXPath, h.nodePath, h.state.bIncludeDescendants, h.state.qualifierShifts,
    h.state.qualifiers]
  split
  · exact h.enterFirstOr hf _
  · exact h.enterNextAbove hf _

theorem Beside.succeedLoop (hf : Respects XPathParser.Alike f) : ∀ {n : ℕ} {s t : Parser XPathParser},
    Beside XPathParser.Alike f s t → Matches XPathParser.Alike f (Parser.succeedLoop n s) (Parser.succeedLoop n t)
  | 0, _, _, h => ⟨rfl, h⟩
  | n + 1, s, t, h => by
    obtain ⟨c, s', t', hs, ht, h'⟩ := (h.enterNextNodeOfXPath hf).elim
    unfold Parser.succeedLoop
    rw [hs, ht]
    cases c with
    | false => exact ⟨rfl, h'⟩
    | true =>
      simp only [h'.state.lastNodeSatificated]
      split
      · exact ⟨rfl, h'⟩
      · exact Beside.succeedLoop hf h'

theorem Beside.enterSucceedNode (h : Beside XPathParser.Alike f s t) (hf : Respects XPathParser.Alike f) :
    Matches XPathParser.Alike f s.enterSucceedNodeOfXPath t.enterSucceedNodeOfXPath := by
  unfold Parser.enterSucceedNodeOfXPath
  rw [h.filter, h.curTagFilter, h.doc]
  split
  · exact h.enterFirstOr hf 0
  · exact Beside.succeedLoop hf h

theorem climbAbove_stays (floor : ℕ) : ∀ {n : ℕ} {s : Parser XPathParser}, Keeps XPathParser.error s.curTagFilter →
    Stays XPathParser.error s (Parser.climbAbove floor n s).2
  | 0, s, _ => Stays.refl s
  | n + 1, s, hf => by
    unfold Parser.climbAbove
    split
    · exact Stays.refl s
    split
    · exact Stays.refl s
    have hparent := enterParentNode_stays (k := XPathParser.error) (s := s)
    rcases hres : s.enterParentNode with ⟨c, s'⟩
    rw [hres] at hparent
    cases c with
    | false => exact hparent
    | true =>
      have hf' : Keeps XPathParser.error s'.curTagFilter := hparent.curTagFilter ▸ hf
      have hnext := enterNextSiblingNode_stays hf'
      simp only
      rcases hres' : s'.enterNextSiblingNode with ⟨c, s''⟩
      rw [hres'] at hnext
      cases c with
      | true => exact hparent.trans hnext
      | false => exact (hparent.trans hnext).trans (climbAbove_stays floor (hnext.curTagFilter ▸ hf'))

theorem enterNextAbove_stays (floor : ℕ) (hf : Keeps XPathParser.error s.curTagFilter) :
    Stays XPathParser.error s (s.enterNextAbove floor).2 := by
  have hnext := enterNextSiblingNode_stays hf
  unfold Parser.enterNextAbove
  rcases hres : s.enterNextSiblingNode with ⟨c, s'⟩
  rw [hres] at hnext
  cases c with
  | true => exact hnext
  | false => exact hnext.trans (climbAbove_stays floor (hnext.curTagFilter ▸ hf))

theorem enterFirstOr_stays (floor : ℕ) (hf : Keeps XPathParser.error s.curTagFilter) : Stays XPathParser.error s
    (match s.enterFirstChildNode none with
      | (true, s) => (true, s)
      | (false, s) => if s.hasError then (false, s) else s.enterNextAbove floor).2 := by
  have hfirst := enterFirstChildNode_stays hf none
  rcases hres : s.enterFirstChildNode none with ⟨c, s'⟩
  rw [hres] at hfirst
  cases c with
  | true => exact hfirst
  | false =>
    simp only
    split
    · exact hfirst
    · exact hfirst.trans (enterNextAbove_stays floor (hfirst.curTagFilter ▸ hf))

theorem succeedLoop_stays : ∀ {n : ℕ} {s : Parser XPathParser}, Keeps XPathParser.error s.curTagFilter →
    Stays XPathParser.error s (Parser.succeedLoop n s).2
  | 0, s, _ => Stays.refl s
  | n + 1, s, hf => by
    have hnext : Stays XPathParser.error s s.enterNextNodeOfXPath.2 := by
      unfold Parser.enterNextNodeOfXPath
      simp only
      split
      · exact enterFirstOr_stays _ hf
      · exact enterNextAbove_stays _ hf
    unfold Parser.succeedLoop
    rcases hres : s.enterNextNodeOfXPath with ⟨c, s'⟩
    rw [hres] at hnext
    cases c with
    | false => exact hnext
    | true =>
      simp only
      split
      · exact hnext
      · exact hnext.trans (succeedLoop_stays (hnext.curTagFilter ▸ hf))

theorem enterSucceedNode_stays (hf : Keeps XPathParser.error s.curTagFilter) :
    Stays XPathParser.error s s.enterSucceedNodeOfXPath.2 := by
  unfold Parser.enterSucceedNodeOfXPath
  split
  · exact enterFirstOr_stays 0 hf
  · exact succeedLoop_stays hf

end Navigation

/-! ### Loading a path -/

section Load

variable {before front : UInt8} {xpath : Text}

/-- All that is read of a qualifier is set. -/
structure QualifierText.Complete (w : QualifierText) : Prop where
  qt_Attribute : w.qt_Attribute ≠ none
  attributeName : w.qt_Attribute ≠ some .any → w.attributeName ≠ none
  value : w.qt_Attribute ≠ some .any → w.qt_Attribute ≠ some .have_ → w.value ≠ none
  qt_Ordinal : w.qt_Ordinal ≠ none

theorem value_of_readValue {patt : Text} {v : Option Text × XPathParseError} (hv : readValue before patt = v)
    (h : v.2 = .ok) : v.1 ≠ none := by
  unfold readValue at hv
  split at hv
  · subst hv
    cases h
  split at hv
  · split at hv
    · subst hv
      cases h
    · subst hv
      exact Option.some_ne_none _
  · subst hv
    cases h

variable {qt_TagName : NameType} {tagName : Option Text} {patt qt : Text} {w : QualifierText}

theorem complete_readAttribute (hw : readAttribute before qt_TagName tagName patt = w) (h : w.error = .ok) :
    w.Complete := by
  unfold readAttribute at hw
  simp only at hw
  split at hw
  · subst hw
    refine ⟨by simp, fun _ => ?_, fun _ _ => value_of_readValue rfl h, by simp⟩
    simp only
    split
    · exact Option.some_ne_none _
    · exact Option.some_ne_none _
  split at hw
  · subst hw
    exact ⟨by simp, by simp, fun _ _ => value_of_readValue rfl h, by simp⟩
  split at hw
  · subst hw
    exact ⟨by simp, by simp, fun _ hne => absurd rfl hne, by simp⟩
  · subst hw
    cases h

theorem complete_readCondition (hw : readCondition before qt_TagName tagName patt = w) (h : w.error = .ok) :
    w.Complete := by
  unfold readCondition at hw
  split at hw
  · subst hw
    exact ⟨by simp, fun hne => absurd rfl hne, fun hne => absurd rfl hne, by simp⟩
  simp only at hw
  split at hw
  · split at hw
    · split at hw
      · subst hw
        exact ⟨by simp, fun hne => absurd rfl hne, fun hne => absurd rfl hne, by simp⟩
      · subst hw
        cases h
    split at hw
    · exact complete_readAttribute hw h
    · subst hw
      cases h
  · subst hw
    cases h

theorem complete_readQualifier (hw : readQualifier before qt = w) (h : w.error = .ok) : w.Complete := by
  unfold readQualifier at hw
  simp only at hw
  split at hw
  · subst hw
    cases h
  split at hw
  · subst hw
    cases h
  split at hw
  · exact complete_readCondition hw h
  split at hw
  · subst hw
    cases h
  · exact complete_readCondition hw h

/-- What a qualifier held before is of no account. -/
theorem parse_alike (q r : Qualifier) (h : (readQualifier before qt).error = .ok) :
    (q.parse before qt).2.Alike (r.parse before qt).2 := by
  obtain ⟨htype, hname, hvalue, hordinal⟩ := complete_readQualifier rfl h
  unfold Qualifier.parse QualifierText.writeTo
  generalize readQualifier before qt = w at htype hname hvalue hordinal
  obtain ⟨type, heq⟩ := Option.ne_none_iff_exists'.mp htype
  obtain ⟨ordinal, heq'⟩ := Option.ne_none_iff_exists'.mp hordinal
  rw [heq] at hname hvalue
  refine ⟨rfl, fun _ => rfl, by simp [heq], fun hany => ?_, fun hany hhave => ?_, by simp [heq'], rfl⟩
  · simp only [heq, Option.getD_some] at hany
    obtain ⟨name, hname⟩ := Option.ne_none_iff_exists'.mp (hname (by simpa using hany))
    simp [hname]
  · simp only [heq, Option.getD_some] at hany hhave
    obtain ⟨value, hvalue⟩ := Option.ne_none_iff_exists'.mp (hvalue (by simpa using hany) (by simpa using hhave))
    simp [hvalue]

variable {x y : XPathParser}

theorem setLastSyntaxError_eq (x : XPathParser) (e : XPathParseError) :
    x.setLastSyntaxError e = { x with error := if e = .ok then x.error else e } := by
  unfold XPathParser.setLastSyntaxError
  split
  · rfl
  · rfl

/-- What a filter is after the path was loaded, `e` being the error of the path. -/
structure LoadedFrom (x : XPathParser) (e : XPathParseError) (x' : XPathParser) : Prop where
  error : x'.error = if e = .ok then x.error else e
  lastNodeSatificated : x'.lastNodeSatificated = true
  qualifierShifts : x'.qualifierShifts = x.qualifierShifts
  attribError : x'.attribError = x.attribError
  outside : x'.outside = x.outside

/-- Two loads of the same path. -/
structure LoadAlike (e : XPathParseError) (a b : Bool × XPathParser) : Prop where
  result : b.1 = a.1
  bRelativePath : b.2.bRelativePath = a.2.bRelativePath
  upLevelCount : b.2.upLevelCount = a.2.upLevelCount
  qualifiers : e = .ok → b.2.qualifiers = a.2.qualifiers
  bIncludeDescendants : e = .ok → b.2.bIncludeDescendants = a.2.bIncludeDescendants
  finalQualifier : e = .ok → a.2.finalQualifier.Alike b.2.finalQualifier

/-- What a filter held before is of no account for a path without errors. -/
theorem load_alike (before front : UInt8) (text : Text) (hrel : y.bRelativePath = x.bRelativePath) : ∃ e,
    LoadedFrom x e (x.load before front text).2 ∧ LoadedFrom y e (y.load before front text).2 ∧
      LoadAlike e (x.load before front text) (y.load before front text) := by
  simp only [XPathParser.load, setLastSyntaxError_eq]
  split
  · refine ⟨(readQualifier before (skipWhitespace text)).error, ⟨rfl, rfl, rfl, rfl, rfl⟩, ⟨rfl, rfl, rfl, rfl, rfl⟩,
      rfl, rfl, rfl, fun _ => rfl, fun _ => rfl, fun h => parse_alike _ _ h⟩
  · rename_i pLastSep _
    generalize hqt : (skipWhitespace text).drop (pLastSep + 1) = qt
    have herr : ∀ q : Qualifier, (q.parse before qt).1 = (readQualifier before qt).error := fun _ => rfl
    simp only [herr]
    generalize (readQualifier before qt).error = e at herr
    by_cases hok : e = .ok
    · -- the steps in front of the last one
      simp only [hok, if_true, ne_eq, not_true_eq_false, if_false]
      generalize stepsLoop _ _ [] 0 = r
      generalize parseQualifiers before r.2.1 = qs
      split
      · rename_i hne
        exact ⟨r.1, ⟨(if_neg hne).symm, rfl, rfl, rfl, rfl⟩, ⟨(if_neg hne).symm, rfl, rfl, rfl, rfl⟩, rfl, rfl, rfl,
          fun h => absurd h hne, fun h => absurd h hne, fun h => absurd h hne⟩
      · exact ⟨qs.1, ⟨rfl, rfl, rfl, rfl, rfl⟩, ⟨rfl, rfl, rfl, rfl, rfl⟩, rfl, rfl, rfl,
          fun _ => rfl, fun _ => rfl, fun _ => parse_alike _ _ ((herr Qualifier.blank).trans hok)⟩
    · simp only [ne_eq, hok, not_false_eq_true, if_true]
      exact ⟨e, ⟨(if_neg hok).symm, rfl, rfl, rfl, rfl⟩, ⟨(if_neg hok).symm, rfl, rfl, rfl, rfl⟩, rfl, hrel, rfl,
        fun h => absurd h hok, fun h => absurd h hok, fun h => absurd h hok⟩

end Load

/-! ### Histories -/

/-- The calls that go through the document. -/
inductive Call
  | enterXPath (front : UInt8) (xpath : Text)
  | enterSucceedNode
  | enterFirstChildNode (tag_name : Option Text)
  | enterNextSiblingNode
  | enterParentNode
  | enterRootNode
  | escapeXPath

/-- The parser after a call. -/
def Parser.after (before : UInt8) (s : Parser XPathParser) : Call → Option (Parser XPathParser)
  | .enterXPath front xpath => (s.enterXPath before front xpath).map Prod.snd
  | .enterSucceedNode => some s.enterSucceedNodeOfXPath.2
  | .enterFirstChildNode tag_name => some (s.enterFirstChildNode tag_name).2
  | .enterNextSiblingNode => some s.enterNextSiblingNode.2
  | .enterParentNode => some s.enterParentNode.2
  | .enterRootNode => s.enterRootNode
  | .escapeXPath => some s.escapeXPath

/-- What a new filter is after the path was loaded. -/
def loadedPath (before front : UInt8) (xpath : Text) : Bool × XPathParser :=
  (XPathParser.new Qualifier.blank).load before front xpath

/-- The path has no errors. -/
def IsPath (before front : UInt8) (xpath : Text) : Prop :=
  (loadedPath before front xpath).1 = true ∧ (loadedPath before front xpath).2.error = .ok

/-- The call keeps the start of the document: a relative path begins at the root element, or goes up to it or beyond. -/
def Call.StaysAtRoot (before : UInt8) (s : Parser XPathParser) : Call → Prop
  | .enterXPath front xpath =>
    (loadedPath before front xpath).1 = true → (loadedPath before front xpath).2.bRelativePath = true →
      ∀ node ∈ s.nodePath[(loadedPath before front xpath).2.upLevelCount]?, node.outerXML_Start = s.rootNodeXmlStart
  | _ => True

/-- The call sets no error of the XPath. -/
def Call.HasNoError (before : UInt8) : Call → Prop
  | .enterXPath front xpath => IsPath before front xpath
  | _ => True

/-- Calls that meet the condition `P`, none of which is undefined. -/
inductive Run (before : UInt8) (P : Parser XPathParser → Call → Prop) :
    Parser XPathParser → Parser XPathParser → Prop
  | nil (s : Parser XPathParser) : Run before P s s
  | cons {s t u : Parser XPathParser} (c : Call) : P s c → s.after before c = some t → t.filterState.outside = false →
    Run before P t u → Run before P s u

/-- `EnterXPath`, and `n` calls of `EnterSucceedNode` behind it. -/
def enumerate (before front : UInt8) (xpath : Text) (s : Parser XPathParser) : ℕ → Option (Bool × Parser XPathParser)
  | 0 => s.enterXPath before front xpath
  | n + 1 => (enumerate before front xpath s n).map fun r => r.2.enterSucceedNodeOfXPath

section History

variable {before front : UInt8} {xpath : Text} {s t : Parser XPathParser}

/-- A filter against a new one that has loaded the same path. -/
theorem load_loadedPath (before front : UInt8) (xpath : Text) {x : XPathParser} (hrel : x.bRelativePath = false) :
    LoadedFrom x (loadedPath before front xpath).2.error (x.load before front xpath).2 ∧
      LoadAlike (loadedPath before front xpath).2.error (loadedPath before front xpath)
        (x.load before front xpath) := by
  obtain ⟨e, hnew, hx, halike⟩ := load_alike (x := XPathParser.new Qualifier.blank) (y := x) before front xpath hrel
  have he : (loadedPath before front xpath).2.error = e := by
    rw [loadedPath, hnew.error]
    split
    · rename_i h
      exact h.symm
    · rfl
  rw [he]
  exact ⟨hx, halike⟩

/-- The parser of a query with an absolute path, in front of its first `EnterSucceedNode`. -/
def Parser.entered (before front : UInt8) (xpath : Text) (s : Parser XPathParser) : Parser XPathParser :=
  { s with
    error := .ok
    errorPosition := 0
    nodePath := []
    curTagFilter := some (XPathParser.tagTest s.doc before)
    filterState := { (loadedPath before front xpath).2 with qualifierShifts := 0 } }

/-- A query with an absolute path starts beside the one of a new filter. -/
theorem enterXPath_absolute (hp : IsPath before front xpath)
    (habs : (loadedPath before front xpath).2.bRelativePath = false) (hout : s.filterState.outside = false)
    (herror : s.filterState.error = .ok ∨ (loadedPath before front xpath).2.NoNotEqual) :
    ∃ u, s.enterXPath before front xpath = some u.enterSucceedNodeOfXPath ∧
      Beside XPathParser.Alike (some (XPathParser.tagTest s.doc before)) (s.entered before front xpath) u := by
  obtain ⟨hfrom, halike⟩ := load_loadedPath before front xpath (x := s.escapeXPath.clearSyntaxError.filterState) rfl
  obtain ⟨hnew, -⟩ := load_loadedPath before front xpath (x := XPathParser.new Qualifier.blank) rfl
  have hnew : LoadedFrom (XPathParser.new Qualifier.blank) (loadedPath before front xpath).2.error
    (loadedPath before front xpath).2 := hnew
  refine ⟨(s.entered before front xpath).withState
    { (s.escapeXPath.clearSyntaxError.filterState.load before front xpath).2 with qualifierShifts := 0 },
    ?_, rfl, ?_, rfl⟩
  · simp only [Parser.enterXPath, halike.result, hp.1, halike.bRelativePath, habs]
    rfl
  · refine ⟨hfrom.lastNodeSatificated.trans hnew.lastNodeSatificated.symm, halike.qualifiers hp.2,
      halike.bIncludeDescendants hp.2, halike.finalQualifier hp.2, rfl, hfrom.attribError.trans hnew.attribError.symm,
      (hfrom.outside.trans hout).trans hnew.outside.symm, herror.imp_left fun hok => ?_⟩
    have herr := hfrom.error
    rw [hp.2, if_pos rfl] at herr
    exact (herr.trans hok).trans hp.2.symm

/-- What is seen of a parser after a call. -/
def visible (r : Bool × Parser XPathParser) : Bool × List Node := (r.1, r.2.nodePath)

/-- The calls of `EnterSucceedNode` behind it give what they give with a new filter. -/
theorem enumerate_entered (hp : IsPath before front xpath)
    (habs : (loadedPath before front xpath).2.bRelativePath = false) (hout : s.filterState.outside = false)
    (herror : s.filterState.error = .ok ∨ (loadedPath before front xpath).2.NoNotEqual) (n : ℕ) :
    (enumerate before front xpath s n).map visible = some (visible
      ((fun r => r.2.enterSucceedNodeOfXPath)^[n] (s.entered before front xpath).enterSucceedNodeOfXPath)) := by
  have hrun : ∃ r, enumerate before front xpath s n = some r ∧
      Matches XPathParser.Alike (some (XPathParser.tagTest s.doc before))
        ((fun r => r.2.enterSucceedNodeOfXPath)^[n] (s.entered before front xpath).enterSucceedNodeOfXPath) r := by
    induction n with
    | zero =>
      obtain ⟨u, hu, hbeside⟩ := enterXPath_absolute hp habs hout herror
      exact ⟨_, hu, hbeside.enterSucceedNode respects_tagTest⟩
    | succ n ih =>
      obtain ⟨r, hr, hmatches⟩ := ih
      refine ⟨r.2.enterSucceedNodeOfXPath, by rw [enumerate, hr]; rfl, ?_⟩
      rw [Function.iterate_succ_apply']
      exact hmatches.2.enterSucceedNode respects_tagTest
  obtain ⟨r, hr, hmatches⟩ := hrun
  rw [hr, Option.map_some]
  exact congrArg some (Prod.ext hmatches.1.symm hmatches.2.nodePath)

/-- What every call that meets the condition keeps, against the parser `s₀` of the new document. -/
structure Kept (ok : Prop) (s₀ s : Parser XPathParser) : Prop where
  doc : s.doc = s₀.doc
  pDocument : s.pDocument = s₀.pDocument
  rootNodeXmlStart : s.rootNodeXmlStart = s₀.rootNodeXmlStart
  rootNodeXmlEnd : s.rootNodeXmlEnd = s₀.rootNodeXmlEnd
  filter : Keeps XPathParser.error s.curTagFilter
  error : s.filterState.error = .ok ∨ ok

variable {ok : Prop} {s₀ : Parser XPathParser}

theorem Kept.stays (h : Kept ok s₀ s) (hs : Stays XPathParser.error s t) : Kept ok s₀ t :=
  ⟨hs.doc.trans h.doc, hs.pDocument.trans h.pDocument, hs.rootNodeXmlStart.trans h.rootNodeXmlStart,
    hs.rootNodeXmlEnd.trans h.rootNodeXmlEnd, hs.curTagFilter ▸ h.filter, hs.kept ▸ h.error⟩

theorem upLoop_stays : ∀ {n : ℕ} {s : Parser XPathParser}, Stays XPathParser.error s (Parser.upLoop n s).2
  | 0, s => Stays.refl s
  | n + 1, s => by
    have hparent := enterParentNode_stays (k := XPathParser.error)
      (s := { s with filterState := { s.filterState with upLevelCount := n } })
    have hparent : Stays XPathParser.error s
        ({ s with filterState := { s.filterState with upLevelCount := n } } : Parser XPathParser).enterParentNode.2 :=
      ⟨hparent.doc, hparent.pDocument, hparent.rootNodeXmlStart, hparent.rootNodeXmlEnd, hparent.curTagFilter,
        hparent.kept⟩
    unfold Parser.upLoop
    rcases hres : Parser.enterParentNode { s with filterState := { s.filterState with upLevelCount := n } } with ⟨c, s'⟩
    rw [hres] at hparent
    cases c with
    | false => exact hparent
    | true => exact hparent.trans upLoop_stays

/-- The way up ends at the node that is `n` levels above. -/
theorem nodePath_upLoop : ∀ {n : ℕ} {s : Parser XPathParser}, (Parser.upLoop n s).1 = true →
    (Parser.upLoop n s).2.nodePath = s.nodePath.drop n ∧ n ≤ s.nodePath.length
  | 0, _, _ => ⟨rfl, Nat.zero_le _⟩
  | n + 1, s, h => by
    unfold Parser.upLoop at h ⊢
    rcases hres : Parser.enterParentNode { s with filterState := { s.filterState with upLevelCount := n } } with ⟨c, s'⟩
    rw [hres] at h
    cases c with
    | false => cases h
    | true =>
      have hs' : s'.nodePath = s.nodePath.tail ∧ 1 < s.nodePath.length := by
        unfold Parser.enterParentNode at hres
        split at hres
        · rename_i hlevel
          cases hres
          exact ⟨rfl, hlevel⟩
        · cases hres
      obtain ⟨hpath, hle⟩ := nodePath_upLoop h
      rw [hs'.1] at hpath hle
      rw [List.length_tail] at hle
      refine ⟨hpath.trans List.drop_tail, ?_⟩
      have := hs'.2
      omega

/-- A query keeps the document if it keeps its start. -/
theorem Kept.enterXPath (h : Kept ok s₀ s) (hroot : (Call.enterXPath front xpath).StaysAtRoot before s)
    (hok : IsPath before front xpath ∨ ok) {r : Bool × Parser XPathParser}
    (hr : s.enterXPath before front xpath = some r) : Kept ok s₀ r.2 := by
  obtain ⟨hfrom, halike⟩ := load_loadedPath before front xpath (x := s.escapeXPath.clearSyntaxError.filterState) rfl
  simp only [Call.StaysAtRoot, ← halike.bRelativePath, ← halike.upLevelCount, ← halike.result] at hroot
  unfold Parser.enterXPath at hr
  simp only at hr
  have herror : (s.escapeXPath.clearSyntaxError.filterState.load before front xpath).2.error = .ok ∨ ok := by
    rw [hfrom.error]
    split
    · exact h.error
    · rename_i hne
      exact .inr (hok.resolve_left fun hp => hne hp.2)
  generalize s.escapeXPath.clearSyntaxError.filterState.load before front xpath = l at herror hroot hr
  -- the filter of the path is set, and the first node is looked for
  have hkept : ∀ u : Parser XPathParser, u.doc = s.doc → u.pDocument = s.pDocument →
      u.rootNodeXmlStart = s.rootNodeXmlStart → u.rootNodeXmlEnd = s.rootNodeXmlEnd → u.filterState.error = l.2.error →
        Kept ok s₀ (u.withXPath before).enterSucceedNodeOfXPath.2 :=
    fun u hdoc hstart hroot hend herr =>
      have hset : Kept ok s₀ (u.withXPath before) := ⟨hdoc.trans h.doc, hstart.trans h.pDocument,
        hroot.trans h.rootNodeXmlStart, hend.trans h.rootNodeXmlEnd, keeps_tagTest, herr.symm ▸ herror⟩
      hset.stays (enterSucceedNode_stays keeps_tagTest)
  split at hr
  · rename_i hres
    split at hr
    · rename_i hrel
      split at hr
      · obtain rfl := Option.some.inj hr
        exact hkept _ rfl rfl rfl rfl rfl
      rename_i hlevel
      -- the way up
      have hup := upLoop_stays (n := l.2.upLevelCount) (s := { s.escapeXPath.clearSyntaxError with filterState := l.2 })
      have hpath := nodePath_upLoop (n := l.2.upLevelCount)
        (s := { s.escapeXPath.clearSyntaxError with filterState := l.2 })
      split at hr
      · rename_i u hres
        rw [hres] at hup
        obtain ⟨v, hv, rfl⟩ := Option.map_eq_some_iff.mp hr
        unfold Parser.enterRootNode at hv
        split at hv
        · cases hv
        · obtain rfl := Option.some.inj hv
          exact ⟨hup.doc.trans h.doc, hup.pDocument.trans h.pDocument, hup.rootNodeXmlStart.trans h.rootNodeXmlStart,
            hup.rootNodeXmlEnd.trans h.rootNodeXmlEnd, keeps_none, hup.kept.symm ▸ herror⟩
      · rename_i u hres'
        rw [hres'] at hup hpath
        obtain rfl := Option.some.inj hr
        refine hkept _ hup.doc hup.pDocument ?_ hup.rootNodeXmlEnd hup.kept
        have hnodes : u.nodePath = s.nodePath.drop l.2.upLevelCount ∧ l.2.upLevelCount ≤ s.nodePath.length := hpath rfl
        have hlevel : l.2.upLevelCount ≠ s.nodePath.length := hlevel
        have hlt : l.2.upLevelCount < s.nodePath.length := by omega
        simp only [hnodes.1, List.head?_drop, List.getElem?_eq_getElem hlt, Option.map_some, Option.getD_some]
        exact hroot hres hrel _ (List.getElem?_eq_getElem hlt)
    · obtain rfl := Option.some.inj hr
      exact hkept _ rfl rfl rfl rfl rfl
  · obtain rfl := Option.some.inj hr
    exact ⟨h.doc, h.pDocument, h.rootNodeXmlStart, h.rootNodeXmlEnd, keeps_none, herror⟩

/-- A call that meets the condition keeps the document. -/
theorem Kept.after (h : Kept ok s₀ s) {c : Call} (hroot : c.StaysAtRoot before s) (hok : c.HasNoError before ∨ ok)
    (ht : s.after before c = some t) : Kept ok s₀ t := by
  cases c with
  | enterXPath front xpath =>
    obtain ⟨r, hr, rfl⟩ := Option.map_eq_some_iff.mp ht
    exact h.enterXPath hroot hok hr
  | enterSucceedNode =>
    obtain rfl := Option.some.inj ht
    exact h.stays (enterSucceedNode_stays h.filter)
  | enterFirstChildNode tag_name =>
    obtain rfl := Option.some.inj ht
    exact h.stays (enterFirstChildNode_stays h.filter tag_name)
  | enterNextSiblingNode =>
    obtain rfl := Option.some.inj ht
    exact h.stays (enterNextSiblingNode_stays h.filter)
  | enterParentNode =>
    obtain rfl := Option.some.inj ht
    exact h.stays enterParentNode_stays
  | enterRootNode =>
    simp only [Parser.after, Parser.enterRootNode] at ht
    split at ht
    · cases ht
    · obtain rfl := Option.some.inj ht
      exact ⟨h.doc, h.pDocument, h.rootNodeXmlStart, h.rootNodeXmlEnd, keeps_none, h.error⟩
  | escapeXPath =>
    obtain rfl := Option.some.inj ht
    exact ⟨h.doc, h.pDocument, h.rootNodeXmlStart, h.rootNodeXmlEnd, keeps_none, h.error⟩

/-- The document is kept over all of the calls. -/
theorem Kept.run {P : Parser XPathParser → Call → Prop}
    (hP : ∀ s c, P s c → c.StaysAtRoot before s ∧ (c.HasNoError before ∨ ok)) (h : Kept ok s₀ s)
    (hout : s.filterState.outside = false) (hrun : Run before P s t) :
    Kept ok s₀ t ∧ t.filterState.outside = false := by
  induction hrun with
  | nil s => exact ⟨h, hout⟩
  | cons c hc ht hout' _ ih => exact ih (h.after (hP _ c hc).1 (hP _ c hc).2 ht) hout'

/-- The new document has nothing in its filter. -/
theorem load_filter {x : XPathParser} (text : Text) (len : ℕ) :
    (load x text len).2.curTagFilter = none ∧ (load x text len).2.filterState = x := by
  have hloop : ∀ (n start : ℕ) (s : Parser XPathParser), s.curTagFilter = none →
      (loadLoop n start s).2.curTagFilter = none ∧ (loadLoop n start s).2.filterState = s.filterState := by
    intro n
    induction n with
    | zero => exact fun start s hs => ⟨hs, rfl⟩
    | succ n ih =>
      intro start s hs
      unfold loadLoop
      split
      · exact ⟨hs, rfl⟩
      split
      · split
        · exact ⟨hs, rfl⟩
        · exact ih _ s hs
      · rename_i start' _ _
        have hstays := enterNextNode_stays (k := id) (s := { s with rootNodeXmlStart := start' }) keeps_none start'
          false
        exact ⟨hstays.curTagFilter.trans hs, hstays.kept⟩
  exact hloop _ _ _ rfl

end History

/-- After calls that set no error of the XPath (or for a path without `!=`) and keep the start of the document, a query
with an absolute path enumerates what it enumerates in the new document. -/
theorem enumerate_eq (q : Qualifier) (text : Text) (len : ℕ) (before front : UInt8) (xpath : Text)
    (hp : IsPath before front xpath) (habs : (loadedPath before front xpath).2.bRelativePath = false)
    (s : Parser XPathParser)
    (hrun : Run before (fun s c => c.StaysAtRoot before s ∧
      (c.HasNoError before ∨ (loadedPath before front xpath).2.NoNotEqual)) (load (XPathParser.new q) text len).2 s)
    (n : ℕ) :
    (enumerate before front xpath s n).map visible =
      (enumerate before front xpath (load (XPathParser.new q) text len).2 n).map visible := by
  obtain ⟨hfilter, hstate⟩ := load_filter (x := XPathParser.new q) text len
  have hnew : (load (XPathParser.new q) text len).2.filterState.error = .ok := by rw [hstate]; rfl
  have hout : (load (XPathParser.new q) text len).2.filterState.outside = false := by rw [hstate]; rfl
  obtain ⟨hkept, hout'⟩ := Kept.run (fun _ _ => id) ⟨rfl, rfl, rfl, rfl, hfilter ▸ keeps_none, .inl hnew⟩ hout hrun
  rw [enumerate_entered hp habs hout' hkept.error, enumerate_entered hp habs hout (.inl hnew)]
  have hentered : s.entered before front xpath = (load (XPathParser.new q) text len).2.entered before front xpath := by
    unfold Parser.entered
    rw [hkept.doc, hkept.pDocument, hkept.rootNodeXmlStart, hkept.rootNodeXmlEnd]
  rw [hentered]

/-- `<x><a/></x>`. -/
def oneChild : Text := [0x3c, 0x78, 0x3e, 0x3c, 0x61, 0x2f, 0x3e, 0x3c, 0x2f, 0x78, 0x3e]

/-- The parser of this document. -/
def oneChildParser : Parser XPathParser := (load (XPathParser.new Qualifier.blank) oneChild oneChild.length).2

/-- `/x/a`. -/
def pathXA : Text := [0x2f, 0x78, 0x2f, 0x61]

/-- `/x/a[@k!='v']`. -/
def pathNotEqual : Text := [0x2f, 0x78, 0x2f, 0x61, 0x5b, 0x40, 0x6b, 0x21, 0x3d, 0x27, 0x76, 0x27, 0x5d]

/-- The query `a` begins at the root element. -/
theorem enumerate_eq_child : ∃ s, oneChildParser.after 0 (.enterXPath 0 [0x61]) = some s ∧
    (enumerate 0 0 pathXA s 1).map visible = (enumerate 0 0 pathXA oneChildParser 1).map visible := by
  obtain ⟨s, hs⟩ := Option.isSome_iff_exists.mp
    (show (oneChildParser.after 0 (.enterXPath 0 [0x61])).isSome = true by decide)
  have hout : (oneChildParser.after 0 (.enterXPath 0 [0x61])).map (fun s => s.filterState.outside) = some false := by
    decide
  rw [hs] at hout
  refine ⟨s, hs, enumerate_eq Qualifier.blank oneChild oneChild.length 0 0 pathXA (by unfold IsPath; decide)
    (by decide) s (.cons _ ⟨?_, .inl ?_⟩ hs (Option.some.inj hout) (.nil s)) 1⟩
  · intro _ _
    decide
  · unfold Call.HasNoError IsPath
    decide

/-- `b` is looked for from the node `a` on, which moves the start of the document there; `[` sets an error that makes
`!=` fail. -/
theorem enumerate_depends :
    ((enumerate 0 0 pathXA oneChildParser 0).map Prod.fst = some true ∧
      ((oneChildParser.after 0 (.enterXPath 0 pathXA)).bind fun s => (s.after 0 (.enterXPath 0 [0x62])).bind fun s =>
        (enumerate 0 0 pathXA s 0).map Prod.fst) = some false) ∧
    (enumerate 0 0 pathNotEqual oneChildParser 0).map Prod.fst = some true ∧
      ((oneChildParser.after 0 (.enterXPath 0 [0x5b])).bind fun s =>
        (enumerate 0 0 pathNotEqual s 0).map Prod.fst) = some false := by
  decide

end Cpcf.Rt.Xml
