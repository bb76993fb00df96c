import Mathlib.Data.FinEnum
import Mathlib.Data.List.TakeWhile
import Cpcf.Rt.XmlParser

/-!
What the searches of `XMLParser` find in a document of `XMLComposer`.

What a search finds depends on the text from its start on, so the lemmas are about that text. The end of an element is
looked for by counting tags; those in a content match, so the search comes out behind it as it went in.
-/

namespace Cpcf.Rt.Xml

/-! ### Characters -/

theorem isNameChar_facts : ∀ b : UInt8, isNameChar b = true → isSymbol b = true ∧ b ≠ Ch.lt ∧ b ≠ Ch.gt ∧
    b ≠ Ch.slash ∧ b ≠ 0x21 ∧ b ≠ 0x3f ∧ b ≠ Ch.equals := by set_option maxRecDepth 20000 in decide

theorem isNameChar_not_skipped : ∀ b : UInt8, isNameChar b = true → isSkipped b = false := by
  set_option maxRecDepth 20000 in decide

theorem isSkipped_space : isSkipped 0x20 = true := by decide

/-- What is put out for a character has none of `<`, `>` and `"`. -/
theorem escape_facts : ∀ b : UInt8, Ch.lt ∉ escape b ∧ Ch.gt ∉ escape b ∧ Ch.dquote ∉ escape b := by
  set_option maxRecDepth 20000 in decide

theorem not_mem_flatMap_escape (t : Text) : Ch.lt ∉ t.flatMap escape ∧ Ch.gt ∉ t.flatMap escape ∧
    Ch.dquote ∉ t.flatMap escape := by
  simp only [List.mem_flatMap, not_exists, not_and]
  exact ⟨fun b _ => (escape_facts b).1, fun b _ => (escape_facts b).2.1, fun b _ => (escape_facts b).2.2⟩

theorem Name.not_mem (n : Name) {b : UInt8} (hb : isNameChar b = false) : b ∉ n.text := by
  intro h
  rw [n.chars b h] at hb
  cases hb

theorem lt_not_mem_lineBreak (level : ℕ) : Ch.lt ∉ lineBreak level := by
  simp [lineBreak]

theorem gt_not_mem_attributes (atts : List Attribute) : Ch.gt ∉ atts.flatMap attributeText := by
  rw [List.mem_flatMap]
  rintro ⟨⟨n, v⟩, -, h⟩
  have hn := n.not_mem (b := Ch.gt) (by decide)
  have hv := (not_mem_flatMap_escape v).2.1
  simp only [attributeText, List.mem_cons, List.mem_append, List.not_mem_nil, or_false] at h
  rcases h with h | h | h | h | h | h
  · exact absurd h (by decide)
  · exact hn h
  · exact absurd h (by decide)
  · exact absurd h (by decide)
  · exact hv h
  · exact absurd h (by decide)

/-! ### Searches -/

variable {doc a r : Text} {p : ℕ} {b c : UInt8}

theorem drop_add_of_drop (h : doc.drop p = a ++ r) : doc.drop (p + a.length) = r := by
  rw [← List.drop_drop, h, List.drop_left]

theorem drop_succ_of_drop (h : doc.drop p = b :: r) : doc.drop (p + 1) = r := drop_add_of_drop (a := [b]) h

theorem byteAt_of_drop (h : doc.drop p = a ++ b :: r) : byteAt doc (p + a.length) = b := by
  have hd : doc[p + a.length]? = some b := by
    rw [← List.getElem?_drop, h]
    simp
  rw [byteAt, List.getD_eq_getElem?_getD, hd]
  rfl

theorem strchr_of_drop (h : doc.drop p = a ++ c :: r) (ha : c ∉ a) : strchr doc p c = some (p + a.length) := by
  have hf : (doc.drop p).findIdx? (fun b => b = c) = some a.length := by
    rw [h, List.findIdx?_append, List.findIdx?_eq_none_iff.mpr]
    · simp [List.findIdx?_cons]
    · intro x hx
      exact decide_eq_false fun hxc => ha (hxc ▸ hx)
  rw [strchr, hf]
  rfl

theorem strchr_eq_none (h : c ∉ doc.drop p) : strchr doc p c = none := by
  rw [strchr, List.findIdx?_eq_none_iff.mpr]
  · rfl
  · intro x hx
    exact decide_eq_false fun hxc => h (hxc ▸ hx)

/-- A search goes over what does not have the character. -/
theorem strchr_skip (h : doc.drop p = a ++ r) (ha : c ∉ a) : strchr doc p c = strchr doc (p + a.length) c := by
  by_cases hr : c ∈ r
  · obtain ⟨r₁, r₂, rfl, hr₁⟩ := List.eq_append_cons_of_mem hr
    rw [strchr_of_drop (a := a ++ r₁) (r := r₂) (by rw [h, List.append_assoc]) (by simp [ha, hr₁]),
      strchr_of_drop (drop_add_of_drop h) hr₁, List.length_append, Nat.add_assoc]
  · rw [strchr_eq_none, strchr_eq_none]
    · rwa [drop_add_of_drop h]
    · rw [h]
      simp [ha, hr]

/-- The first end of a CDATA section is the one that was written for it. -/
theorem findText_cdataClose (r : Text) : ∀ t : Text, ¬cdataClose <:+: t →
    findText cdataClose (t ++ (cdataClose ++ r)) = some t.length
  | [], _ => rfl
  | x :: t, h => by
    have hno : cdataClose.isPrefixOf (x :: t ++ (cdataClose ++ r)) = false := by
      rw [Bool.eq_false_iff]
      intro hp
      obtain ⟨u, hu⟩ := List.isPrefixOf_iff_prefix.mp hp
      match t with
      | [] => cases hu
      | [y] => cases hu
      | y :: z :: t =>
        obtain ⟨rfl, rfl, rfl, -⟩ : Ch.rbracket = x ∧ Ch.rbracket = y ∧ Ch.gt = z ∧ u = t ++ (cdataClose ++ r) := by
          simpa [cdataClose] using hu
        exact h ⟨[], t, rfl⟩
    have hrec := findText_cdataClose r t fun hi => h (hi.trans (List.suffix_cons x t).isInfix)
    rw [List.cons_append, findText, ← List.cons_append, hno, hrec]
    rfl

theorem searchSpecialNodeClose_cdata (t : CData) (h : doc.drop p = (cdataOpen ++ t.text ++ cdataClose) ++ r) :
    ∃ q, searchSpecialNodeClose doc p = .ok q ∧ q + 1 = p + (cdataOpen ++ t.text ++ cdataClose).length := by
  refine ⟨p + 9 + t.text.length + 2, ?_, ?_⟩
  · have hopen : doc.drop (p + 9) = t.text ++ (cdataClose ++ r) :=
      drop_add_of_drop (a := cdataOpen) (by rw [h]; simp)
    have htail : doc.drop (p + 1) = cdataOpen.tail ++ (t.text ++ (cdataClose ++ r)) :=
      drop_succ_of_drop (b := Ch.lt) (by rw [h]; simp [cdataOpen])
    have hcomment : commentOpen.isPrefixOf (doc.drop p) = false := by
      rw [h]
      rfl
    have hinst : List.isPrefixOf [Ch.lt, 0x3f] (doc.drop p) = false := by
      rw [h]
      rfl
    have hcdata : cdataOpen.tail.isPrefixOf (doc.drop (p + 1)) = true := by
      rw [htail]
      exact List.isPrefixOf_iff_prefix.mpr (List.prefix_append _ _)
    rw [searchSpecialNodeClose, hcomment, hinst, hcdata]
    simp only [Bool.false_eq_true, if_false, if_true]
    rw [searchEnding, strstr, hopen, findText_cdataClose r t.text t.noClose]
    rfl
  · simp only [cdataOpen, cdataClose, List.length_append, List.length_cons, List.length_nil]
    omega

/-! ### Tags -/

variable {compact : Bool} {tag : Name} {atts : List Attribute}

/-- What stands in a start tag behind the name. -/
def tagRest (compact : Bool) (atts : List Attribute) : Text :=
  atts.flatMap attributeText ++ if compact then [Ch.space, Ch.slash] else []

theorem startTag_eq (compact : Bool) (tag : Name) (atts : List Attribute) (r : Text) :
    startTag compact tag atts ++ r = Ch.lt :: (tag.text ++ (tagRest compact atts ++ Ch.gt :: r)) := by
  simp [startTag, tagRest]

theorem gt_not_mem_tagRest (compact : Bool) (atts : List Attribute) : Ch.gt ∉ tagRest compact atts := by
  have := gt_not_mem_attributes atts
  cases compact <;> simpa [tagRest] using this

/-- Something that is no symbol stands behind the name. -/
theorem takeWhile_isSymbol (compact : Bool) (tag : Name) (atts : List Attribute) (r : Text) :
    (tag.text ++ (tagRest compact atts ++ Ch.gt :: r)).takeWhile isSymbol = tag.text := by
  have htag : ∀ b ∈ tag.text, isSymbol b = true := fun b hb => (isNameChar_facts b (tag.chars b hb)).1
  rw [List.takeWhile_append_of_pos htag]
  have hnil : (tagRest compact atts ++ Ch.gt :: r).takeWhile isSymbol = [] := by
    cases atts with
    | nil => cases compact <;> rfl
    | cons a atts => rfl
  rw [hnil, List.append_nil]

theorem seekSymbolEnd_startTag (h : doc.drop p = startTag compact tag atts ++ r) :
    seekSymbolEnd doc (p + 1) = p + 1 + tag.text.length := by
  rw [startTag_eq] at h
  rw [seekSymbolEnd, drop_succ_of_drop h, takeWhile_isSymbol]

/-- The character behind the `<` is one of the name. -/
theorem byteAt_startTag (h : doc.drop p = startTag compact tag atts ++ r) :
    isNameChar (byteAt doc (p + 1)) = true := by
  rw [startTag_eq] at h
  obtain ⟨b, t, ht⟩ := List.exists_cons_of_ne_nil tag.ne_nil
  rw [ht] at h
  have hbyte : byteAt doc (p + 1) = b := byteAt_of_drop (a := []) (drop_succ_of_drop h)
  rw [hbyte]
  exact tag.chars b (ht ▸ List.mem_cons_self ..)

/-- The byte before the `>` tells how the element was written. -/
theorem getLast_tag (compact : Bool) (tag : Name) (atts : List Attribute) :
    ∃ u b, tag.text ++ tagRest compact atts = u ++ [b] ∧ (b = Ch.slash ↔ compact = true) := by
  cases compact with
  | true => exact ⟨tag.text ++ (atts.flatMap attributeText ++ [Ch.space]), Ch.slash, by simp [tagRest], by simp⟩
  | false =>
    rcases List.eq_nil_or_concat atts with rfl | ⟨l, x, rfl⟩
    · obtain ⟨u, b, hu⟩ := (List.eq_nil_or_concat tag.text).resolve_left tag.ne_nil
      rw [List.concat_eq_append] at hu
      have hb := (isNameChar_facts b (tag.chars b (by simp [hu]))).2.2.2.1
      exact ⟨u, b, by simpa [tagRest] using hu, by simpa using hb⟩
    · refine ⟨tag.text ++ (l.flatMap attributeText ++ (Ch.space :: (x.1.text ++ Ch.equals :: Ch.dquote ::
        x.2.flatMap escape))), Ch.dquote, ?_, by decide⟩
      simp [tagRest, attributeText]

/-- Where a start tag ends. -/
theorem strchr_startTag (h : doc.drop p = startTag compact tag atts ++ r) :
    ∃ pend, pend + 1 = p + (startTag compact tag atts).length ∧
      pend = p + 1 + tag.text.length + (tagRest compact atts).length ∧
      strchr doc (p + 1) Ch.gt = some pend ∧ strchr doc (p + 1 + tag.text.length) Ch.gt = some pend ∧
      (byteAt doc (pend - 1) = Ch.slash ↔ compact = true) := by
  rw [startTag_eq] at h
  have h₁ := drop_succ_of_drop h
  have h₂ := drop_add_of_drop h₁
  have hgt := strchr_of_drop h₂ (gt_not_mem_tagRest compact atts)
  refine ⟨_, ?_, rfl, (strchr_skip h₁ (tag.not_mem (by decide))).trans hgt, hgt, ?_⟩
  · simp only [startTag, tagRest, List.length_append, List.length_cons, List.length_nil]
    omega
  · obtain ⟨u, b, hu, hb⟩ := getLast_tag compact tag atts
    have hbyte : byteAt doc (p + 1 + u.length) = b := by
      refine byteAt_of_drop (r := Ch.gt :: r) ?_
      rw [h₁, ← List.append_assoc, hu]
      simp
    have hlen := congrArg List.length hu
    simp only [List.length_append, List.length_singleton] at hlen
    rw [show p + 1 + tag.text.length + (tagRest compact atts).length - 1 = p + 1 + u.length by omega, hbyte]
    exact hb

/-- `</tag>`. -/
def endTag (tag : Name) : Text := Ch.lt :: Ch.slash :: (tag.text ++ [Ch.gt])

/-- Where an end tag ends. -/
theorem strchr_endTag (h : doc.drop p = endTag tag ++ r) :
    ∃ pend, pend + 1 = p + (endTag tag).length ∧ strchr doc (p + 1) Ch.gt = some pend ∧
      byteAt doc (p + 1) = Ch.slash ∧ byteAt doc (pend - 1) ≠ Ch.slash ∧
      tag.text.isPrefixOf (doc.drop (p + 2)) = true := by
  have h₁ : doc.drop (p + 1) = Ch.slash :: tag.text ++ Ch.gt :: r :=
    drop_succ_of_drop (b := Ch.lt) (by rw [h]; simp [endTag])
  have h₂ : doc.drop (p + 2) = tag.text ++ Ch.gt :: r := drop_succ_of_drop h₁
  have hgt : Ch.gt ∉ Ch.slash :: tag.text := by
    have := tag.not_mem (b := Ch.gt) (by decide)
    simpa using this
  refine ⟨_, ?_, strchr_of_drop h₁ hgt, byteAt_of_drop (a := []) h₁, ?_, ?_⟩
  · simp only [endTag, List.length_append, List.length_cons, List.length_nil]
    omega
  · obtain ⟨u, b, hu⟩ := (List.eq_nil_or_concat tag.text).resolve_left tag.ne_nil
    rw [List.concat_eq_append] at hu
    have hbyte : byteAt doc (p + 2 + u.length) = b := byteAt_of_drop (r := Ch.gt :: r) (by rw [h₂, hu]; simp)
    have hlen := congrArg List.length hu
    simp only [List.length_append, List.length_singleton] at hlen
    rw [List.length_cons, show p + 1 + (tag.text.length + 1) - 1 = p + 2 + u.length by omega, hbyte]
    exact (isNameChar_facts b (tag.chars b (by simp [hu]))).2.2.2.1
  · rw [h₂]
    exact List.isPrefixOf_iff_prefix.mpr (List.prefix_append _ _)

theorem closing_eq (level : ℕ) (inner : Content) (tag : Name) :
    closing level inner tag = (if inner.hasElement then lineBreak level else []) ++ endTag tag := rfl

/-! ### The end of an element -/

section Close

variable {si n : ℕ} {tg : Text} {enc : ℤ} {level : ℕ}

attribute [local simp] searchNodeCloseLoop

theorem closeLoop_skip (h : doc.drop p = a ++ r) (ha : Ch.lt ∉ a) :
    searchNodeCloseLoop doc si tg n enc p = searchNodeCloseLoop doc si tg n enc (p + a.length) := by
  cases n with
  | zero => rfl
  | succ n => rw [searchNodeCloseLoop, strchr_skip h ha, searchNodeCloseLoop]

theorem closeLoop_cdata (t : CData) (h : doc.drop p = (cdataOpen ++ t.text ++ cdataClose) ++ r) :
    searchNodeCloseLoop doc si tg (n + 1) enc p =
      searchNodeCloseLoop doc si tg n enc (p + (cdataOpen ++ t.text ++ cdataClose).length) := by
  obtain ⟨q, hq, hlen⟩ := searchSpecialNodeClose_cdata t h
  have hlt : strchr doc p Ch.lt = some p := strchr_of_drop (a := []) (r := _) (by rw [h]; rfl) List.not_mem_nil
  have hbang : byteAt doc (p + 1) = 0x21 :=
    byteAt_of_drop (a := []) (drop_succ_of_drop (b := Ch.lt) (r := _) (by rw [h]; rfl))
  rw [searchNodeCloseLoop, hlt]
  simp only [hbang, ne_eq, not_true_eq_false, false_and, if_false, hq, hlen]

theorem closeLoop_startTag (h : doc.drop p = startTag compact tag atts ++ r) :
    searchNodeCloseLoop doc si tg (n + 1) enc p = searchNodeCloseLoop doc si tg n (if compact then enc else enc + 1)
      (p + (startTag compact tag atts).length) := by
  obtain ⟨pend, hlen, -, hgt, -, hcompact⟩ := strchr_startTag h
  have hlt : strchr doc p Ch.lt = some p := strchr_of_drop (a := []) (r := _) (by rw [h]; rfl) List.not_mem_nil
  obtain ⟨-, -, -, hslash, hbang, hinst, -⟩ := isNameChar_facts _ (byteAt_startTag h)
  rw [searchNodeCloseLoop, hlt]
  simp only [hbang, hinst, ne_eq, not_false_eq_true, and_self, if_true, hgt, hslash, if_false, hcompact, hlen]
  cases compact <;> rfl

theorem closeLoop_endTag (h : doc.drop p = endTag tag ++ r) (henc : 0 < enc) :
    searchNodeCloseLoop doc si tg (n + 1) enc p =
      searchNodeCloseLoop doc si tg n (enc - 1) (p + (endTag tag).length) := by
  obtain ⟨pend, hlen, hgt, hslash, hlast, -⟩ := strchr_endTag h
  have hlt : strchr doc p Ch.lt = some p := strchr_of_drop (a := []) (r := _) (by rw [h]; rfl) List.not_mem_nil
  have hne : enc - 1 ≠ -1 := by omega
  rw [searchNodeCloseLoop, hlt]
  simp only [hslash, hgt, hlast, hne, false_and, if_false, if_true, hlen]
  rfl

theorem closeLoop_found (si n : ℕ) (h : doc.drop p = endTag tag ++ r) :
    ∃ pend, searchNodeCloseLoop doc si tag.text (n + 1) 0 p = .ok (pend, p) ∧ doc.drop (pend + 1) = r := by
  obtain ⟨pend, hlen, hgt, hslash, hlast, hname⟩ := strchr_endTag h
  have hlt : strchr doc p Ch.lt = some p := strchr_of_drop (a := []) (r := _) (by rw [h]; rfl) List.not_mem_nil
  refine ⟨pend, ?_, by rw [hlen, drop_add_of_drop h]⟩
  rw [searchNodeCloseLoop, hlt]
  simp only [hslash, hgt, hlast, hname, if_false, if_true]
  rfl

/-- The tags in a content match, so the search goes over it. -/
theorem closeLoop_content (si : ℕ) (tg : Text) : ∀ (c : Content) {level : ℕ} {enc : ℤ} {p : ℕ} {r : Text}, 0 ≤ enc →
    doc.drop p = render level c ++ r → ∃ k ≤ (render level c).length, ∀ n,
      searchNodeCloseLoop doc si tg (n + k) enc p = searchNodeCloseLoop doc si tg n enc (p + (render level c).length)
  | .nil, _, _, _, _, _, _ => ⟨0, Nat.le_refl _, fun _ => rfl⟩
  | .text t rest, level, enc, p, r, henc, h => by
    rw [render, List.append_assoc] at h
    obtain ⟨k, hk, hrec⟩ := closeLoop_content si tg rest henc (drop_add_of_drop h)
    refine ⟨k, ?_, fun n => ?_⟩
    · rw [render, List.length_append]
      omega
    · rw [closeLoop_skip h (not_mem_flatMap_escape t).1, hrec, render, List.length_append, Nat.add_assoc]
  | .cdata t rest, level, enc, p, r, henc, h => by
    rw [render, List.append_assoc, List.append_assoc] at h
    have h₁ := drop_add_of_drop h
    obtain ⟨k, hk, hrec⟩ := closeLoop_content si tg rest henc (drop_add_of_drop h₁)
    refine ⟨k + 1, ?_, fun n => ?_⟩
    · simp only [render, List.length_append, cdataOpen, List.length_cons]
      omega
    · rw [closeLoop_skip h (lt_not_mem_lineBreak level), ← Nat.add_assoc, closeLoop_cdata t h₁, hrec]
      congr 1
      simp only [render, List.length_append]
      omega
  | .compact tag atts rest, level, enc, p, r, henc, h => by
    rw [render, List.append_assoc, List.append_assoc] at h
    have h₁ := drop_add_of_drop h
    obtain ⟨k, hk, hrec⟩ := closeLoop_content si tg rest henc (drop_add_of_drop h₁)
    refine ⟨k + 1, ?_, fun n => ?_⟩
    · simp only [render, List.length_append, startTag, List.length_cons]
      omega
    · rw [closeLoop_skip h (lt_not_mem_lineBreak level), ← Nat.add_assoc, closeLoop_startTag h₁, if_pos rfl, hrec]
      congr 1
      simp only [render, List.length_append]
      omega
  | .element tag atts inner rest, level, enc, p, r, henc, h => by
    rw [render, List.append_assoc, List.append_assoc, List.append_assoc, List.append_assoc, closing_eq,
      List.append_assoc] at h
    have h₁ := drop_add_of_drop h
    have h₂ := drop_add_of_drop h₁
    have henc' : 0 ≤ enc + 1 := by omega
    obtain ⟨k₁, hk₁, hinner⟩ := closeLoop_content si tg inner henc' h₂
    have h₃ := drop_add_of_drop h₂
    have h₄ := drop_add_of_drop h₃
    obtain ⟨k₂, hk₂, hrest⟩ := closeLoop_content si tg rest henc (drop_add_of_drop h₄)
    have hbreak : Ch.lt ∉ (if inner.hasElement then lineBreak level else []) := by
      split
      · exact lt_not_mem_lineBreak level
      · exact List.not_mem_nil
    refine ⟨k₂ + 1 + k₁ + 1, ?_, fun n => ?_⟩
    · simp only [render, closing_eq, List.length_append, startTag, endTag, List.length_cons]
      omega
    · rw [closeLoop_skip h (lt_not_mem_lineBreak level), show n + (k₂ + 1 + k₁ + 1) = n + k₂ + 1 + k₁ + 1 by omega,
        closeLoop_startTag h₁, if_neg Bool.false_ne_true, hinner, closeLoop_skip h₃ hbreak,
        closeLoop_endTag h₄ (by omega), Int.add_sub_cancel, hrest]
      congr 1
      simp only [render, closing_eq, List.length_append]
      omega

theorem searchNodeClose_closing {c : Content} (h : doc.drop p = render (level + 1) c ++ (closing level c tag ++ r)) :
    ∃ q start, searchNodeClose doc p tag.text = .ok (q, start) ∧ doc.drop (q + 1) = r := by
  rw [closing_eq, List.append_assoc] at h
  obtain ⟨k, hk, hcontent⟩ := closeLoop_content p tag.text c (Int.le_refl 0) h
  have h₁ := drop_add_of_drop h
  have h₂ := drop_add_of_drop h₁
  have hbreak : Ch.lt ∉ (if c.hasElement then lineBreak level else []) := by
    split
    · exact lt_not_mem_lineBreak level
    · exact List.not_mem_nil
  have hlen : k ≤ doc.length := by
    have := congrArg List.length h
    simp only [List.length_drop, List.length_append] at this
    omega
  obtain ⟨q, hq, hrest⟩ := closeLoop_found p (doc.length - k) h₂
  refine ⟨q, _, Eq.trans ?_ hq, hrest⟩
  rw [searchNodeClose, show doc.length + 1 = doc.length - k + 1 + k by omega, hcontent, closeLoop_skip h₁ hbreak]

end Close

/-! ### Elements -/

/-- An element with what follows it in its parent. -/
structure Elem where
  tag : Name
  atts : List Attribute
  inner : Option Content
  rest : Content

/-- The first element of a content. -/
def Content.next : Content → Option Elem
  | .nil => none
  | .text _ rest => rest.next
  | .cdata _ rest => rest.next
  | .compact tag atts rest => some ⟨tag, atts, none, rest⟩
  | .element tag atts inner rest => some ⟨tag, atts, some inner, rest⟩

theorem Content.hasElement_of_next {e : Elem} : ∀ {c : Content}, c.next = some e → c.hasElement = true
  | .nil, h => by cases h
  | .text _ rest, h => hasElement_of_next (c := rest) h
  | .cdata _ rest, h => hasElement_of_next (c := rest) h
  | .compact .., _ => rfl
  | .element .., _ => rfl

theorem next_of_render_nil {level : ℕ} : ∀ {c : Content}, render level c = [] → c.next = none
  | .nil, _ => rfl
  | .text _ rest, h => next_of_render_nil (c := rest) (List.append_eq_nil_iff.mp h).2
  | .cdata _ rest, h => next_of_render_nil (c := rest) (List.append_eq_nil_iff.mp h).2
  | .compact .., h => by simp [render, startTag] at h
  | .element .., h => by simp [render, startTag] at h

/-- The text behind the start tag of an element, up to its end. -/
def innerText (level : ℕ) (e : Elem) : Text :=
  match e.inner with
  | none => []
  | some c => render (level + 1) c ++ closing level c e.tag

/-- Where the attributes of a node stand. -/
def AttributesAt (doc : Text) (atts : List Attribute) (node : Node) : Prop :=
  atts = [] ∧ node.attributes = [] ∨ atts ≠ [] ∧ node.attributes ≠ [] ∧ ∃ p r, node.attributesBegin = p + 1 ∧
    doc.drop p = atts.flatMap attributeText ++ r ∧
      (r.head? = some Ch.gt ∨ [Ch.space, Ch.slash, Ch.gt] <+: r)

/-- The node is the element, with the text `r` behind it. -/
structure Shows (doc : Text) (level : ℕ) (e : Elem) (r : Text) (node : Node) : Prop where
  tagName : node.tagName = e.tag.text
  compact : node.isCompactNode = e.inner.isNone
  inner : doc.drop node.innerXML_Start = innerText level e ++ r
  atts : AttributesAt doc e.atts node

theorem trimSpace_ne_nil {x : Text} (hb : b ∈ x) (hs : isSkipped b = false) : trimSpace x ≠ [] := by
  have hleft : trimLeftSpace x ≠ [] := by
    rw [trimLeftSpace, ne_eq, List.dropWhile_eq_nil_iff]
    intro hall
    rw [hall b hb] at hs
    cases hs
  have hloop : ∀ y : Text, y ≠ [] → trimRightLoop y ≠ [] := by
    intro y
    fun_induction trimRightLoop y with
    | case1 b c t hb ih => exact fun _ => ih (List.cons_ne_nil _ _)
    | case2 => exact id
    | case3 => exact id
  rw [trimSpace, trimRightSpace, ne_eq, List.reverse_eq_nil_iff]
  exact hloop _ (by simpa using hleft)

theorem makeNode_atts {ptag pend : ℕ} {compact : Bool} (h : doc.drop p = tagRest compact atts ++ Ch.gt :: r)
    (hpend : pend = p + (tagRest compact atts).length) (hc : byteAt doc (pend - 1) = Ch.slash ↔ compact = true) :
    AttributesAt doc atts (makeNode doc a ptag p pend) := by
  have htext : (doc.drop p).take (if byteAt doc (pend - 1) = Ch.slash then pend - p - 1 else pend - p) =
      atts.flatMap attributeText ++ if compact then [Ch.space] else [] := by
    rw [h, hpend]
    cases compact with
    | true =>
      rw [if_pos (hpend ▸ hc.mpr rfl)]
      simp [tagRest, List.take_append]
    | false =>
      rw [if_neg (hpend ▸ fun hs => Bool.false_ne_true (hc.mp hs))]
      simp [tagRest]
  have hrest : ∃ r', doc.drop p = atts.flatMap attributeText ++ r' ∧
      (r'.head? = some Ch.gt ∨ [Ch.space, Ch.slash, Ch.gt] <+: r') := by
    cases compact with
    | true => exact ⟨[Ch.space, Ch.slash] ++ Ch.gt :: r, by rw [h]; simp [tagRest], .inr ⟨r, rfl⟩⟩
    | false => exact ⟨Ch.gt :: r, by rw [h]; simp [tagRest], .inl rfl⟩
  have htrim : (makeNode doc a ptag p pend).attributes =
      trimSpace (atts.flatMap attributeText ++ if compact then [Ch.space] else []) := by
    simp only [makeNode, decide_eq_true_eq, htext]
  have hbegin : (makeNode doc a ptag p pend).attributesBegin =
      p + ((atts.flatMap attributeText ++ if compact then [Ch.space] else []).takeWhile isSkipped).length := by
    simp only [makeNode, decide_eq_true_eq, htext]
  cases atts with
  | nil =>
    refine .inl ⟨rfl, htrim.trans ?_⟩
    cases compact <;> rfl
  | cons x atts =>
    obtain ⟨b, t, ht⟩ := List.exists_cons_of_ne_nil x.1.ne_nil
    have hb := isNameChar_not_skipped b (x.1.chars b (ht ▸ List.mem_cons_self ..))
    obtain ⟨r', hr', hend⟩ := hrest
    refine .inr ⟨List.cons_ne_nil _ _, htrim ▸ trimSpace_ne_nil (b := b) ?_ hb, p, r', ?_, hr', hend⟩
    · simp [attributeText, ht]
    · rw [hbegin]
      simp [attributeText, ht, hb, isSkipped_space]

/-! ### The next element -/

section Enter

variable {σ : Type} {s : Parser σ} {replace_node : Bool} {n level : ℕ}

attribute [local simp] enterNextNodeLoop

theorem enterLoop_skip (h : s.doc.drop p = a ++ r) (ha : Ch.lt ∉ a) :
    enterNextNodeLoop none replace_node n p s = enterNextNodeLoop none replace_node n (p + a.length) s := by
  cases n with
  | zero => rfl
  | succ n => rw [enterNextNodeLoop, strchr_skip h ha, enterNextNodeLoop]

theorem enterLoop_cdata (t : CData) (h : s.doc.drop p = (cdataOpen ++ t.text ++ cdataClose) ++ r)
    (hend : s.rootNodeXmlEnd = s.doc.length) : enterNextNodeLoop none replace_node (n + 1) p s =
      enterNextNodeLoop none replace_node n (p + (cdataOpen ++ t.text ++ cdataClose).length) s := by
  obtain ⟨q, hq, hlen⟩ := searchSpecialNodeClose_cdata t h
  have hlt : strchr s.doc p Ch.lt = some p := strchr_of_drop (a := []) (r := _) (by rw [h]; rfl) List.not_mem_nil
  have hbang : byteAt s.doc (p + 1) = 0x21 :=
    byteAt_of_drop (a := []) (drop_succ_of_drop (b := Ch.lt) (r := _) (by rw [h]; rfl))
  have hlast : ¬s.doc.length ≤ p := by
    intro hle
    rw [List.drop_eq_nil_of_le hle] at h
    cases h
  have hslash : (0x21 : UInt8) ≠ Ch.slash := by decide
  rw [enterNextNodeLoop, hlt]
  simp only [hbang, hslash, hend, hlast, if_false, true_or, if_true, hq, hlen]

/-- A start tag is entered. -/
theorem enterLoop_startTag (h : s.doc.drop p = startTag compact tag atts ++ r)
    (hend : s.rootNodeXmlEnd = s.doc.length) : ∃ node,
      enterNextNodeLoop none replace_node (n + 1) p s = (true, s.putNode replace_node node) ∧
        node.tagName = tag.text ∧ node.isCompactNode = compact ∧ s.doc.drop node.innerXML_Start = r ∧
          AttributesAt s.doc atts node := by
  obtain ⟨pend, hlen, hpend, -, hgt, hcompact⟩ := strchr_startTag h
  have hlt : strchr s.doc p Ch.lt = some p := strchr_of_drop (a := []) (r := _) (by rw [h]; rfl) List.not_mem_nil
  have hlast : ¬s.doc.length ≤ p := by
    intro hle
    rw [List.drop_eq_nil_of_le hle] at h
    cases h
  obtain ⟨-, -, -, hslash, hbang, hinst, -⟩ := isNameChar_facts _ (byteAt_startTag h)
  have hsymbol := seekSymbolEnd_startTag h
  have h₁ := drop_succ_of_drop ((startTag_eq compact tag atts r) ▸ h)
  have htag : (s.doc.drop (p + 1)).take (p + 1 + tag.text.length - (p + 1)) = tag.text := by
    rw [h₁, Nat.add_sub_cancel_left, List.take_left]
  have hne : tag.text.isEmpty = false := by simpa using tag.ne_nil
  refine ⟨makeNode s.doc tag.text p (p + 1 + tag.text.length) pend, ?_, rfl, ?_, ?_,
    makeNode_atts (drop_add_of_drop h₁) hpend hcompact⟩
  · rw [enterNextNodeLoop, hlt]
    simp only [hslash, hend, hlast, hbang, hinst, or_self, if_false, hsymbol, htag, hne, Bool.false_eq_true, hgt,
      Parser.tagTest]
  · simp only [makeNode, hcompact]
    cases compact <;> rfl
  · simp only [makeNode]
    rw [hlen, drop_add_of_drop h]

/-- What may follow the last part of a content: the end of the document or the end of an element. -/
def Ends (tail : Text) : Prop := tail = [] ∨ ∃ u tag r, Ch.lt ∉ u ∧ tail = u ++ (endTag tag ++ r)

theorem enterLoop_ends (h : s.doc.drop p = r) (hr : Ends r) :
    enterNextNodeLoop none replace_node n p s = (false, s) := by
  cases n with
  | zero => rfl
  | succ n =>
    rcases hr with rfl | ⟨u, tag, r', hu, rfl⟩
    · rw [enterNextNodeLoop, strchr_eq_none (by rw [h]; exact List.not_mem_nil)]
    · have h₁ := drop_add_of_drop h
      obtain ⟨-, -, -, hslash, -⟩ := strchr_endTag h₁
      have hlt := strchr_of_drop (a := u) (c := Ch.lt) (r := _) (by rw [h]; rfl) hu
      rw [enterNextNodeLoop, hlt]
      simp only [hslash, if_true]

/-- The search comes to the first element of a content, or to its end. -/
theorem enterLoop_content (replace_node : Bool) (hend : s.rootNodeXmlEnd = s.doc.length) : ∀ (c : Content) {n p : ℕ} {tail : Text},
    s.doc.drop p = render level c ++ tail → (render level c).length < n → Ends tail →
    match c.next with
    | none => enterNextNodeLoop none replace_node n p s = (false, s)
    | some e => ∃ node, enterNextNodeLoop none replace_node n p s = (true, s.putNode replace_node node) ∧
        Shows s.doc level e (render level e.rest ++ tail) node
  | .nil, n, p, tail, h, _, htail => enterLoop_ends h htail
  | .text t rest, n, p, tail, h, hn, htail => by
    rw [render, List.append_assoc] at h
    rw [render, List.length_append] at hn
    rw [enterLoop_skip h (not_mem_flatMap_escape t).1]
    exact enterLoop_content replace_node hend rest (drop_add_of_drop h) (by omega) htail
  | .cdata t rest, n, p, tail, h, hn, htail => by
    rw [render, List.append_assoc, List.append_assoc] at h
    simp only [render, List.length_append, cdataOpen, List.length_cons] at hn
    obtain ⟨n, rfl⟩ := Nat.exists_eq_add_one.mpr (Nat.zero_lt_of_lt hn)
    have h₁ := drop_add_of_drop h
    rw [enterLoop_skip h (lt_not_mem_lineBreak level), enterLoop_cdata t h₁ hend]
    exact enterLoop_content replace_node hend rest (drop_add_of_drop h₁) (by omega) htail
  | .compact tag atts rest, n, p, tail, h, hn, _ => by
    rw [render, List.append_assoc, List.append_assoc] at h
    obtain ⟨n, rfl⟩ := Nat.exists_eq_add_one.mpr (Nat.zero_lt_of_lt hn)
    rw [enterLoop_skip h (lt_not_mem_lineBreak level)]
    obtain ⟨node, hnode, htag, hcompact, hdrop, hatts⟩ := enterLoop_startTag (drop_add_of_drop h) hend
    exact ⟨node, hnode, ⟨htag, hcompact, hdrop, hatts⟩⟩
  | .element tag atts inner rest, n, p, tail, h, hn, _ => by
    rw [render, List.append_assoc, List.append_assoc, List.append_assoc] at h
    obtain ⟨n, rfl⟩ := Nat.exists_eq_add_one.mpr (Nat.zero_lt_of_lt hn)
    rw [enterLoop_skip h (lt_not_mem_lineBreak level)]
    obtain ⟨node, hnode, htag, hcompact, hdrop, hatts⟩ := enterLoop_startTag (drop_add_of_drop h) hend
    exact ⟨node, hnode, ⟨htag, hcompact, hdrop, hatts⟩⟩

/-- `_EnterNextNode` with no filter. -/
theorem enterNextNode_content (replace_node : Bool) (hend : s.rootNodeXmlEnd = s.doc.length) {c : Content} {tail : Text}
    (h : s.doc.drop p = render level c ++ tail) (htail : Ends tail) :
    match c.next with
    | none => s.enterNextNode p none replace_node = (false, s)
    | some e => ∃ node, s.enterNextNode p none replace_node = (true, s.putNode replace_node node) ∧
        Shows s.doc level e (render level e.rest ++ tail) node := by
  unfold Parser.enterNextNode
  by_cases hp : s.rootNodeXmlEnd ≤ p
  · rw [hend] at hp
    have hnil : render level c = [] := by
      rw [List.drop_eq_nil_of_le hp] at h
      exact (List.append_eq_nil_iff.mp h.symm).1
    have hnext : c.next = none := next_of_render_nil hnil
    rw [hnext, if_pos (hend ▸ hp)]
  · rw [if_neg hp]
    refine enterLoop_content replace_node hend c h ?_ htail
    have := congrArg List.length h
    simp only [List.length_drop, List.length_append] at this
    omega

end Enter

end Cpcf.Rt.Xml
