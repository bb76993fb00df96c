import Cpcf.Rt.XmlTraverse

/-!
What `XMLParser::GetAttribute` returns for an element that was written with `XMLComposer::SetAttribute`.

The search and the entities give the value back; the loop that copies it compares signed characters, so it leaves out
every byte from 0x80 on.
-/

namespace Cpcf.Rt.Xml

/-! ### Characters -/

theorem isNameChar_starts : ∀ b : UInt8, isNameChar b = true →
    b ≠ 0 ∧ (0x2d ≤ schar b ∨ schar b < 0) := by set_option maxRecDepth 20000 in decide

theorem attribute_cases (b : UInt8) : b = Ch.lt ∨ b = 0x26 ∨ b = Ch.gt ∨ b = Ch.dquote ∨ b = Ch.squote ∨
    escape b = [b] ∧ b ≠ 0x26 := by
  unfold escape
  split_ifs <;> simp_all

theorem schar_low : ∀ b : UInt8, 0x20 < schar b ∨ b = Ch.space → b < 0x80 := by set_option maxRecDepth 20000 in decide

theorem schar_plain : ∀ b : UInt8, ¬(b < 0x20 ∨ b = 0x7f) → b < 0x80 → b ≠ Ch.space → 0x20 < schar b := by
  set_option maxRecDepth 20000 in decide

/-! ### The text of a value -/

variable {doc r : Text} {p n : ℕ} {before : UInt8}

/-- What is left of a text that is written behind the byte `before`: no byte from 0x80 on and no control character, and
of spaces that follow one another the first. -/
def keep (before : UInt8) : Text → Text
  | [] => []
  | b :: t => if 0x20 < schar b ∨ b = Ch.space ∧ before ≠ Ch.space then b :: keep b t else keep before t

/-- An entity is read back. -/
theorem convertLoop_entity {b : UInt8} {d : Text} {pend : ℕ} (hb : escape b ≠ [b]) (hp : p < pend)
    (h : doc.drop p = escape b ++ r) : convertLoop doc Ch.space before pend (n + 1) p d =
      convertLoop doc Ch.space before pend n (p + (escape b).length) (b :: d) := by
  have hbyte : ∀ c t, escape b = 0x26 :: c :: t → byteAt doc p = 0x26 ∧ byteAt doc (p + 1) = c ∧
      doc.drop (p + 1) = c :: t ++ r := by
    intro c t he
    rw [he] at h
    exact ⟨byteAt_of_drop (a := []) h, byteAt_of_drop (a := []) (drop_succ_of_drop h), drop_succ_of_drop h⟩
  rw [convertLoop, if_neg (Nat.not_le_of_gt hp)]
  rcases attribute_cases b with rfl | rfl | rfl | rfl | rfl | ⟨he, -⟩
  · obtain ⟨h₀, h₁, h₂⟩ := hbyte 0x6c [0x74, 0x3b] rfl
    simp only [h₀, h₁, h₂]
    rfl
  · obtain ⟨h₀, h₁, h₂⟩ := hbyte 0x61 [0x6d, 0x70, 0x3b] rfl
    simp only [h₀, h₁, h₂]
    rfl
  · obtain ⟨h₀, h₁, h₂⟩ := hbyte 0x67 [0x74, 0x3b] rfl
    simp only [h₀, h₁, h₂]
    rfl
  · obtain ⟨h₀, h₁, h₂⟩ := hbyte 0x71 [0x75, 0x6f, 0x74, 0x3b] rfl
    simp only [h₀, h₁, h₂]
    rfl
  · obtain ⟨h₀, h₁, h₂⟩ := hbyte 0x61 [0x70, 0x6f, 0x73, 0x3b] rfl
    simp only [h₀, h₁, h₂]
    rfl
  · exact absurd he hb

theorem escape_pos : ∀ b : UInt8, 0 < (escape b).length := by set_option maxRecDepth 20000 in decide

theorem escape_kept : ∀ b : UInt8, escape b ≠ [b] → 0x20 < schar b := by set_option maxRecDepth 20000 in decide

/-- The loop of `_convert_xml_to_text` over the text of a value. -/
theorem convertLoop_escape {pend : ℕ} : ∀ (v : Text) {n p : ℕ} {d : Text}, doc.drop p = v.flatMap escape ++ r →
    pend = p + (v.flatMap escape).length → (v.flatMap escape).length ≤ n →
    convertLoop doc Ch.space before pend n p d = (keep (d.headD before) v).reverse ++ d
  | [], n, p, d, _, hpend, _ => by
    cases n with
    | zero => rfl
    | succ n => rw [convertLoop, if_pos (by simp [hpend])]; rfl
  | b :: v, n, p, d, h, hpend, hn => by
    rw [List.flatMap_cons, List.append_assoc] at h
    rw [List.flatMap_cons, List.length_append] at hpend hn
    have hrest := drop_add_of_drop h
    have hpos := escape_pos b
    obtain ⟨n, rfl⟩ := Nat.exists_eq_add_one.mpr (hpos.trans_le (by omega : (escape b).length ≤ n))
    by_cases hb : escape b = [b]
    · have hamp : b ≠ 0x26 := by
        rintro rfl
        exact absurd hb (by decide)
      rw [hb] at h hrest hpend hn
      rw [List.length_singleton] at hrest hpend hn
      have hbyte : byteAt doc p = b := byteAt_of_drop (a := []) h
      have hrec : ∀ d, convertLoop doc Ch.space before pend n (p + 1) d =
          (keep (d.headD before) v).reverse ++ d := fun d =>
        convertLoop_escape v hrest (by omega) (by omega)
      rw [convertLoop, if_neg (by omega)]
      simp only [hbyte, ne_eq, hamp, not_false_eq_true, if_true, and_self, hrec, keep]
      split
      · simp
      · rfl
    · rw [convertLoop_entity hb (by omega) h, convertLoop_escape v hrest (by omega) (by omega), keep,
        if_pos (.inl (escape_kept b hb))]
      simp

/-- `_convert_xml_to_text` of a value. -/
theorem convertXmlToText_escape (v : Text) (h : doc.drop p = v.flatMap escape ++ r) :
    convertXmlToText doc Ch.space before p (p + (v.flatMap escape).length) = keep before v := by
  rw [convertXmlToText, convertLoop_escape v h rfl (by omega)]
  simp

/-! ### The attributes of an element -/

variable {err : Option (XMLParseError × ℕ)}

/-- At the name of an attribute. -/
theorem seekNextAttrib_name (a : Attribute) (h : doc.drop p = attributeText a ++ r) :
    ∃ q, seekNextAttrib doc (n + 1) (p + 1) err =
        (some (p + (attributeText a).length, a.1.text, q, q + (a.2.flatMap escape).length), err) ∧
      doc.drop q = a.2.flatMap escape ++ Ch.dquote :: r := by
  obtain ⟨b, t, ht⟩ := List.exists_cons_of_ne_nil a.1.ne_nil
  have hb : isNameChar b = true := a.1.chars b (ht ▸ List.mem_cons_self ..)
  obtain ⟨hsymbol, -, hgt, hslash, -⟩ := isNameChar_facts b hb
  obtain ⟨hzero, hstart⟩ := isNameChar_starts b hb
  have h₀ : doc.drop p = Ch.space :: (a.1.text ++ Ch.equals :: Ch.dquote :: (a.2.flatMap escape ++ Ch.dquote :: r)) := by
    rw [h, attributeText]
    simp
  have h₁ := drop_succ_of_drop h₀
  have h₂ := drop_add_of_drop h₁
  have h₃ := drop_succ_of_drop h₂
  have h₄ := drop_succ_of_drop h₃
  have hspace : byteAt doc p = Ch.space := byteAt_of_drop (a := []) h₀
  have hbyte : byteAt doc (p + 1) = b := by
    rw [ht] at h₁
    exact byteAt_of_drop (a := []) h₁
  have htake : (doc.drop (p + 1)).takeWhile isSymbol = a.1.text := by
    have hname : ∀ c ∈ a.1.text, isSymbol c = true := fun c hc => (isNameChar_facts c (a.1.chars c hc)).1
    rw [h₁, List.takeWhile_append_of_pos hname]
    simp [isSymbol]
  have hfirst : ¬(b = 0 ∨ b = Ch.gt ∨ b = Ch.slash ∧ byteAt doc (p + 1 + 1) = Ch.gt) := by
    rintro (hb | hb | ⟨hb, -⟩)
    · exact hzero hb
    · exact hgt hb
    · exact hslash hb
  have hbefore : schar Ch.space < 0x2d := by decide
  have hne : p + 1 + a.1.text.length ≠ p + 1 := by
    have := List.length_pos_iff.mpr a.1.ne_nil
    omega
  have hequals : strchr doc (p + 1 + a.1.text.length) Ch.equals = some (p + 1 + a.1.text.length) :=
    strchr_of_drop (a := []) h₂ List.not_mem_nil
  have hquote : (doc.drop (p + 1 + a.1.text.length + 1)).findIdx
      (fun b => b = Ch.dquote || b = Ch.squote || b = Ch.gt || b = 0) = 0 := by
    rw [h₃, List.findIdx_cons]
    rfl
  have hbyte₃ : byteAt doc (p + 1 + a.1.text.length + 1) = Ch.dquote := byteAt_of_drop (a := []) h₃
  have hclose := strchr_of_drop h₄ (not_mem_flatMap_escape a.2).2.2
  have hname : (doc.drop (p + 1)).take (p + 1 + a.1.text.length - (p + 1)) = a.1.text := by
    rw [h₁, Nat.add_sub_cancel_left, List.take_left]
  have hlen : p + 1 + a.1.text.length + 1 + 1 + (a.2.flatMap escape).length + 1 = p + (attributeText a).length := by
    simp only [attributeText, List.length_cons, List.length_append, List.length_nil]
    omega
  refine ⟨p + 1 + a.1.text.length + 1 + 1, ?_, h₄⟩
  rw [seekNextAttrib]
  simp only [hbyte, hfirst, if_false, Nat.add_sub_cancel, hspace, hbefore, hstart, and_self, if_true, seekSymbolEnd,
    htake, hne, hequals, hquote, Nat.add_zero, hbyte₃, true_or, hclose, hname, hlen]

/-- At a space. -/
theorem seekNextAttrib_space (h : doc.drop p = Ch.space :: r) :
    seekNextAttrib doc (n + 1) p err = seekNextAttrib doc n (p + 1) err := by
  have hbyte : byteAt doc p = Ch.space := byteAt_of_drop (a := []) h
  have hfirst : ¬(Ch.space = 0 ∨ Ch.space = Ch.gt ∨ Ch.space = Ch.slash ∧ byteAt doc (p + 1) = Ch.gt) := by
    simp
  have hstart : ¬(0x2d ≤ schar Ch.space ∨ schar Ch.space < 0) := by decide
  rw [seekNextAttrib]
  simp only [hbyte, hfirst, hstart, and_false, if_false]

/-- At the end of the attributes. -/
theorem seekNextAttrib_end (h : doc.drop p = r)
    (hend : r.head? = some Ch.gt ∨ [Ch.space, Ch.slash, Ch.gt] <+: r) :
    seekNextAttrib doc n p err = (none, err) := by
  rcases n with _ | n
  · rfl
  · rcases hend with hr | ⟨r', rfl⟩
    · obtain ⟨r', rfl⟩ := List.head?_eq_some_iff.mp hr
      have hbyte : byteAt doc p = Ch.gt := byteAt_of_drop (a := []) h
      rw [seekNextAttrib]
      simp only [hbyte, true_or, or_true, if_true]
    · rw [seekNextAttrib_space h]
      rcases n with _ | n
      · rfl
      · have h₁ := drop_succ_of_drop h
        have hbyte : byteAt doc (p + 1) = Ch.slash := byteAt_of_drop (a := []) h₁
        have hbyte₂ : byteAt doc (p + 1 + 1) = Ch.gt := byteAt_of_drop (a := []) (drop_succ_of_drop h₁)
        rw [seekNextAttrib]
        simp only [hbyte, hbyte₂, and_self, or_true, if_true]

/-- `_search_attrib` finds the first attribute of the name. -/
theorem searchAttrib_attributes (err : Option (XMLParseError × ℕ)) (name : Text)
    (hend : r.head? = some Ch.gt ∨ [Ch.space, Ch.slash, Ch.gt] <+: r) :
    ∀ (atts : List Attribute) {n p start : ℕ}, doc.drop p = atts.flatMap attributeText ++ r →
    start = p ∨ start = p + 1 ∧ atts ≠ [] → atts.length < n →
    match atts.find? fun a => a.1.text = name with
    | none => searchAttrib doc name n start err = (none, err)
    | some a => ∃ q r', searchAttrib doc name n start err = (some (q, q + (a.2.flatMap escape).length), err) ∧
        doc.drop q = a.2.flatMap escape ++ r'
  | _, 0, _, _, _, _, hn => absurd hn (Nat.not_lt_zero _)
  | [], n + 1, p, start, h, hstart, _ => by
    obtain rfl : start = p := hstart.resolve_right fun hs => hs.2 rfl
    rw [List.find?_nil]
    exact by rw [searchAttrib, seekNextAttrib_end h hend]
  | a :: atts, n + 1, p, start, h, hstart, hn => by
    rw [List.flatMap_cons, List.append_assoc] at h
    obtain ⟨m, hm⟩ : ∃ m, doc.length = m + 1 := by
      refine Nat.exists_eq_add_one.mpr (Nat.pos_of_ne_zero fun h0 => ?_)
      rw [List.drop_eq_nil_of_le (by omega)] at h
      cases h
    -- the space in front of the name makes no difference
    obtain ⟨q, hq, hvalue⟩ : ∃ q, seekNextAttrib doc (doc.length + 1) start err =
        (some (p + (attributeText a).length, a.1.text, q, q + (a.2.flatMap escape).length), err) ∧
          doc.drop q = a.2.flatMap escape ++ Ch.dquote :: (atts.flatMap attributeText ++ r) := by
      rcases hstart with rfl | ⟨rfl, -⟩
      · rw [hm, seekNextAttrib_space (r := _) (by rw [h]; rfl)]
        exact seekNextAttrib_name a h
      · exact seekNextAttrib_name a h
    have hne : a.1.text.isEmpty = false := by simpa using a.1.ne_nil
    by_cases hname : a.1.text = name
    · subst hname
      rw [List.find?_cons_of_pos (by simp)]
      refine ⟨q, _, ?_, hvalue⟩
      rw [searchAttrib, hq]
      simp only [hne, Bool.false_eq_true, if_false, if_true]
    · rw [List.find?_cons_of_neg (by simpa using hname)]
      have hrec : searchAttrib doc name (n + 1) start err =
          searchAttrib doc name n (p + (attributeText a).length) err := by
        rw [searchAttrib, hq]
        simp only [hne, Bool.false_eq_true, if_false, hname]
      rw [hrec]
      exact searchAttrib_attributes err name hend atts (drop_add_of_drop h) (.inl rfl) (by simpa using hn)

theorem length_le_attributes : ∀ atts : List Attribute, atts.length ≤ (atts.flatMap attributeText).length
  | [] => Nat.le_refl _
  | a :: atts => by
    have := length_le_attributes atts
    simp only [List.length_cons, List.flatMap_cons, List.length_append, attributeText]
    omega

/-- `GetAttribute` at an element: what is left of the value of the first attribute of the name. -/
theorem VisitedAt.getAttribute {σ : Type} {s : Parser σ} {v : Visit} (h : VisitedAt s v) (before : UInt8)
    (name : Text) : s.getAttribute before name =
      ((v.atts.find? fun a => a.1.text = name).map fun a => keep before a.2, s) := by
  obtain ⟨e, es, h, rfl⟩ := h
  have hpath := h.path
  unfold Parser.getAttribute
  generalize s.nodePath = nodes at hpath
  cases hpath with
  | @cons node _ _ _ hshow _ =>
    rcases hshow.atts with ⟨hnil, hempty⟩ | ⟨hatts, hne, p, r, hbegin, hdrop, hend⟩
    · simp [hnil, hempty]
    · have hisEmpty : node.attributes.isEmpty = false := by simpa using hne
      have hlen : e.atts.length < s.doc.length + 1 := by
        have hle := length_le_attributes e.atts
        have := congrArg List.length hdrop
        simp only [List.length_drop, List.length_append] at this
        omega
      have hsearch := searchAttrib_attributes none name hend e.atts hdrop (.inr ⟨hbegin, hatts⟩) hlen
      simp only [hisEmpty, Bool.false_eq_true, if_false]
      cases hfind : e.atts.find? fun a => a.1.text = name with
      | none =>
        rw [hfind] at hsearch
        simp only [hsearch, Option.map_none]
      | some a =>
        rw [hfind] at hsearch
        obtain ⟨q, r', hrun, hvalue⟩ := hsearch
        simp only [hrun, Option.map_some, convertXmlToText_escape a.2 hvalue]

/-! ### What comes back -/

/-- A value without control characters and without leading or repeated spaces. -/
structure Plain (v : Text) : Prop where
  noControl : ∀ b ∈ v, ¬(b < 0x20 ∨ b = 0x7f)
  leading : v.head? ≠ some Ch.space
  repeated : ¬[Ch.space, Ch.space] <:+: v

/-- Only bytes below 0x80 are kept. -/
theorem keep_sublist : ∀ (v : Text) (before : UInt8), List.Sublist (keep before v) (v.filter fun b => b < 0x80)
  | [], _ => .slnil
  | b :: v, before => by
    unfold keep
    split
    · rename_i hb
      have hlow : b < 0x80 := schar_low b (hb.imp_right And.left)
      rw [List.filter_cons_of_pos (by simpa using hlow)]
      exact (keep_sublist v b).cons_cons b
    · refine (keep_sublist v before).trans ?_
      exact (List.sublist_cons_self b v).filter _

theorem keep_eq_self : ∀ (v : Text) (before : UInt8), (∀ b ∈ v, ¬(b < 0x20 ∨ b = 0x7f)) → (∀ b ∈ v, b < 0x80) →
    (v.head? = some Ch.space → before ≠ Ch.space) → ¬[Ch.space, Ch.space] <:+: v → keep before v = v
  | [], _, _, _, _, _ => rfl
  | b :: v, before, hcontrol, hlow, hbefore, hrepeated => by
    have hkept : 0x20 < schar b ∨ b = Ch.space ∧ before ≠ Ch.space := by
      by_cases hb : b = Ch.space
      · exact .inr ⟨hb, hbefore (by rw [hb]; rfl)⟩
      · exact .inl (schar_plain b (hcontrol b (List.mem_cons_self ..)) (hlow b (List.mem_cons_self ..)) hb)
    rw [keep, if_pos hkept, keep_eq_self v b (fun c hc => hcontrol c (List.mem_cons_of_mem _ hc))
      (fun c hc => hlow c (List.mem_cons_of_mem _ hc)) ?_ fun hi => hrepeated (hi.trans (List.suffix_cons b v).isInfix)]
    rintro hv rfl
    obtain ⟨t, rfl⟩ := List.head?_eq_some_iff.mp hv
    exact hrepeated ⟨[], t, rfl⟩

/-- A value comes back if and only if it is in ASCII. -/
theorem keep_eq_self_iff {v : Text} (hv : Plain v) : keep before v = v ↔ ∀ b ∈ v, b < 0x80 := by
  constructor
  · intro h b hb
    have hsub := keep_sublist v before
    rw [h] at hsub
    have hmem := hsub.subset hb
    rw [List.mem_filter] at hmem
    simpa using hmem.2
  · intro hlow
    exact keep_eq_self v before hv.noControl hlow (fun hs => absurd hs hv.leading) hv.repeated

theorem find?_name {atts : List Attribute} (h : (atts.map fun a => a.1.text).Nodup) {a : Attribute} (ha : a ∈ atts) :
    atts.find? (fun a' => a'.1.text = a.1.text) = some a := by
  induction atts with
  | nil => cases ha
  | cons x atts ih =>
    rw [List.map_cons, List.nodup_cons] at h
    rcases List.mem_cons.mp ha with rfl | ha
    · rw [List.find?_cons_of_pos (by simp)]
    · have hne : x.1.text ≠ a.1.text := fun heq => h.1 (heq ▸ List.mem_map_of_mem ha)
      rw [List.find?_cons_of_neg (by simpa using hne)]
      exact ih h.2 ha

/-- `a`. -/
def nameA : Name := ⟨[0x61], by decide, by decide +kernel⟩

/-- An empty element with one attribute. -/
def single (value : Text) : Tree := ⟨nameA, [(nameA, value)], some .nil⟩

end Cpcf.Rt.Xml
