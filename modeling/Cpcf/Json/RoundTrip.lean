import Cpcf.Json.Compose

/-!
A composed text read back.

The text of an expression without binary values is the text of a tree: members stand behind a newline
each, and nothing else is put between the pieces. With this the enumeration of a composed text is the
enumeration of a tree that `GetNextKeyValuePair` handles without loss: its first key is never tight
against the brace, its keys are non-empty and its strings are in double quotes.
-/

namespace Cpcf.Json

open Cpcf.Rt Cpcf.Lib.Memory

/-! ### Expressions that can be read back -/

/-- A character of a key that needs no escape. -/
def isKeyChar (b : UInt8) : Bool := b != Ch.dquote && b != Ch.backslash

mutual
/-- The text of the expression is well-formed: keys need no escapes, strings are escaped already, numbers are
words, and what is taken over as it is is a value. Of a ghost nothing is asked. -/
def JVar.Valid : JVar → Prop
  | .first tagname value => tagname ≠ [] → tagname.all isKeyChar = true ∧ value.Valid
  | .next prev tagname value => prev.Valid ∧ (tagname ≠ [] → tagname.all isKeyChar = true ∧ value.Valid)
/-- The same for a value. -/
def JVal.Valid : JVal → Prop
  | .string s => escaped Ch.dquote s = true
  | .real x => x.text.all isBare = true
  | .jobj (.text str) => trimSpace str = [] ∨ ∃ v : Value, v.text = trimSpace str
  | .array a => a.Valid
  | .object e => e.Valid
  | _ => True
/-- The same for an array. -/
def JArray.Valid : JArray → Prop
  | .nil => True
  | .append a x => a.Valid ∧ x.Valid
end

attribute [local simp] JVar.Valid JVal.Valid JArray.Valid

mutual
/-- No `_JObj`, so no binary value, in the expression. -/
def JVar.Plain : JVar → Prop
  | .first tagname value => tagname ≠ [] → value.Plain
  | .next prev tagname value => prev.Plain ∧ (tagname ≠ [] → value.Plain)
/-- The same for a value. -/
def JVal.Plain : JVal → Prop
  | .jobj _ => False
  | .array a => a.Plain
  | .object e => e.Plain
  | _ => True
/-- The same for an array. -/
def JArray.Plain : JArray → Prop
  | .nil => True
  | .append a x => a.Plain ∧ x.Plain
end

/-- The members of a chain that are not ghosts: their keys, and the texts of their values. -/
def JVar.rawMembers : JVar → List (List UInt8 × List UInt8)
  | .first tagname value => if tagname.isEmpty then [] else [(tagname, value.serial)]
  | .next prev tagname value =>
    if tagname.isEmpty then prev.rawMembers else prev.rawMembers ++ [(tagname, value.serial)]

/-- The members of a chain that are not ghosts: their keys, and their values without quotes. -/
def JVar.members : JVar → List (List UInt8 × List UInt8)
  | .first tagname value => if tagname.isEmpty then [] else [(tagname, value.inner)]
  | .next prev tagname value => if tagname.isEmpty then prev.members else prev.members ++ [(tagname, value.inner)]

/-! ### Trees without layout of their own -/

/-- A line break. -/
def Ws.newline : Ws := ⟨[Ch.newline], rfl⟩

/-- The items of an array with commas between them. -/
def itemEntries : Value → List Value → Entries .array
  | v, [] => .one (.item .none) v .none
  | v, w :: l => .cons (.item .none) v .none (itemEntries w l)

/-- The members of an object on a line each. -/
def memberEntries : Str × Value → List (Str × Value) → Entries .object
  | kv, [] => .one (.member .newline (.quoted kv.1) .none .none) kv.2 .newline
  | kv, kv' :: l => .cons (.member .newline (.quoted kv.1) .none .none) kv.2 .none (memberEntries kv' l)

attribute [local simp] memberEntries

/-- An array of values. -/
def Value.ofItems : List Value → Value
  | [] => .empty .array .none
  | v :: l => .node .array (itemEntries v l)

/-- An object of keys and values. -/
def Value.ofMembers : List (Str × Value) → Value
  | [] => .empty .object .none
  | kv :: l => .node .object (memberEntries kv l)

theorem itemEntries_text (v : Value) (l : List Value) :
    (itemEntries v l).text = joinWith [Ch.comma] ((v :: l).map Value.text) := by
  induction l generalizing v with
  | nil => simp [itemEntries, Entries.text, Head.text, Ws.none, joinWith]
  | cons w l ih => simp [itemEntries, Entries.text, Head.text, Ws.none, joinWith, ih]

theorem itemEntries_noBinary {v : Value} {l : List Value} (h : ∀ w ∈ v :: l, w.noBinary = true) :
    (itemEntries v l).noBinary = true := by
  induction l generalizing v with
  | nil => simpa [itemEntries, Entries.noBinary] using h v (by simp)
  | cons w l ih =>
    simp only [itemEntries, Entries.noBinary, Bool.and_eq_true]
    exact ⟨h v (by simp), ih fun u hu => h u (by simp [hu])⟩

theorem Value.ofItems_text (l : List Value) :
    (Value.ofItems l).text = Ch.lbracket :: (joinWith [Ch.comma] (l.map Value.text) ++ [Ch.rbracket]) := by
  cases l with
  | nil => rfl
  | cons v l => rw [Value.ofItems, Value.text, itemEntries_text]; rfl

theorem Value.ofItems_noBinary {l : List Value} (h : ∀ w ∈ l, w.noBinary = true) :
    (Value.ofItems l).noBinary = true := by
  cases l with
  | nil => rfl
  | cons v l => exact itemEntries_noBinary h

/-- The text of a member in a tree. -/
def pairText (kv : Str × Value) : List UInt8 := kv.1.text ++ Ch.colon :: kv.2.text

theorem memberEntries_text (kv : Str × Value) (l : List (Str × Value)) :
    (memberEntries kv l).text =
      Ch.newline :: (joinWith [Ch.comma, Ch.newline] ((kv :: l).map pairText) ++ [Ch.newline]) := by
  induction l generalizing kv with
  | nil => simp [Entries.text, Head.text, Key.text, Ws.none, Ws.newline, joinWith, pairText]
  | cons kv' l ih =>
    simp [Entries.text, Head.text, Key.text, Ws.none, Ws.newline, joinWith, pairText, ih]

theorem memberEntries_noBinary {kv : Str × Value} {l : List (Str × Value)}
    (h : ∀ kv' ∈ kv :: l, kv'.2.noBinary = true) : (memberEntries kv l).noBinary = true := by
  induction l generalizing kv with
  | nil => simpa [Entries.noBinary] using h kv (by simp)
  | cons kv' l ih =>
    simp only [memberEntries, Entries.noBinary, Bool.and_eq_true]
    exact ⟨h kv (by simp), ih fun u hu => h u (by simp [hu])⟩

theorem memberEntries_members (kv : Str × Value) (l : List (Str × Value)) :
    (memberEntries kv l).members = (kv :: l).map fun kv => (Key.quoted kv.1, kv.2) := by
  induction l generalizing kv with
  | nil => simp [Entries.members, Head.key]
  | cons kv' l ih => simp [Entries.members, Head.key, ih]

theorem memberEntries_pre (kv : Str × Value) (l : List (Str × Value)) : (memberEntries kv l).pre = .newline := by
  cases l <;> rfl

theorem Value.ofMembers_text (l : List (Str × Value)) : (Value.ofMembers l).text = objectText (l.map pairText) := by
  cases l with
  | nil => rfl
  | cons kv l => simp [Value.ofMembers, Value.text, memberEntries_text, objectText, Kind.opening, Kind.closing]

theorem Value.ofMembers_isObject (l : List (Str × Value)) : (Value.ofMembers l).isObject = true := by
  cases l <;> rfl

theorem Value.ofMembers_noBinary {l : List (Str × Value)} (h : ∀ kv ∈ l, kv.2.noBinary = true) :
    (Value.ofMembers l).noBinary = true := by
  cases l with
  | nil => rfl
  | cons kv l => exact memberEntries_noBinary h

theorem Value.ofMembers_members (l : List (Str × Value)) :
    (Value.ofMembers l).members = l.map fun kv => (Key.quoted kv.1, kv.2) := by
  cases l with
  | nil => rfl
  | cons kv l => exact memberEntries_members kv l

theorem Value.ofMembers_legible (l : List (Str × Value)) : (Value.ofMembers l).Legible := by
  cases l with
  | nil => trivial
  | cons kv l => exact Or.inl (by rw [memberEntries_pre]; decide)

/-! ### The tree of an expression -/

theorem escaped_of_isKeyChar {s : List UInt8} (h : s.all isKeyChar = true) : escaped Ch.dquote s = true := by
  induction s using escaped.induct with
  | case1 => rfl
  | case2 b => simp_all [escaped, isKeyChar]
  | case3 c s ih => simp [isKeyChar] at h
  | case4 b c s hne ih =>
    rw [List.all_cons, Bool.and_eq_true] at h
    rw [escaped, if_neg hne, ih h.2, Bool.and_true]
    simp only [isKeyChar, Bool.and_eq_true] at h
    exact h.1.1

theorem isBare_of_isDigit : ∀ b : UInt8, isDigit b = true → isBare b = true := by set_option maxRecDepth 20000 in decide

theorem itoa_isBare (n : ℤ) : (itoa n).all isBare = true := by
  rw [List.all_eq_true]
  intro b hb
  rcases lt_or_ge n 0 with h | h
  · rw [itoa_of_neg h] at hb
    rcases List.mem_cons.mp hb with rfl | hb
    · decide
    · exact isBare_of_isDigit b (isDigit_of_mem_itoaUnsigned hb)
  · rw [itoa_of_nonneg h] at hb
    exact isBare_of_isDigit b (isDigit_of_mem_itoaUnsigned hb)

theorem pairText_double {tagname : List UInt8} (h : escaped Ch.dquote tagname = true) {w : Value} :
    pairText (⟨.double, tagname, h⟩, w) = memberText tagname w.text := by
  simp [pairText, memberText, Str.text, Quote.char]

/-- The tree that a value of the composer stands for, with what is known of it when there is no `_JObj`. -/
structure Models (w : Value) (v : JVal) : Prop where
  text : w.text = v.serial
  plain : v.Plain → w.noBinary = true ∧ w.cooked = v.inner ∧ w.visible = true

/-- A container shows its text. -/
theorem Models.of_text {w : Value} {v : JVal} (htext : w.text = v.serial) (hn : v.Plain → w.noBinary = true)
    (hs : v.isString = false) (hw : w.cooked = w.text) (hv : w.visible = true) : Models w v := by
  refine ⟨htext, fun hp => ⟨hn hp, ?_, hv⟩⟩
  rw [hw, htext, v.serial_eq, hs]
  rfl

mutual
/-- The members of a chain are members of a tree: keys in double quotes that are not empty. -/
theorem JVar.exists_members (e : JVar) (hf : e.Fits) (hv : e.Valid) : ∃ l : List (Str × Value),
    l.map pairText = e.memberTexts ∧ l.map (fun kv => (kv.1.body, kv.2.text)) = e.rawMembers ∧
      (∀ kv ∈ l, kv.1.body ≠ []) ∧
      (e.Plain → l.map (fun kv => (kv.1.body, kv.2.cooked)) = e.members ∧
        ∀ kv ∈ l, kv.2.noBinary = true ∧ kv.2.visible = true) := by
  match e with
  | .first tagname value =>
    rw [JVar.Valid] at hv
    rw [JVar.Fits] at hf
    by_cases h0 : tagname = []
    · exact ⟨[], by simp [JVar.memberTexts, JVar.rawMembers, JVar.members, h0]⟩
    · obtain ⟨hkey, hval⟩ := hv h0
      obtain ⟨w, htext, hplain⟩ := value.exists_value (hf h0) hval
      have hesc := escaped_of_isKeyChar hkey
      refine ⟨[(⟨.double, tagname, hesc⟩, w)], ?_, ?_, ?_, fun hp => ?_⟩
      · simp [JVar.memberTexts, h0, pairText_double hesc, htext]
      · simp [JVar.rawMembers, h0, htext]
      · simpa using h0
      · obtain ⟨hn, hcook, hvis⟩ := hplain (hp h0)
        simp [JVar.members, h0, hcook, hn, hvis]
  | .next prev tagname value =>
    rw [JVar.Valid] at hv
    rw [JVar.Fits] at hf
    obtain ⟨l, h1, h2, h3, h4⟩ := prev.exists_members hf.1 hv.1
    by_cases h0 : tagname = []
    · refine ⟨l, by simpa [JVar.memberTexts, h0] using h1, by simpa [JVar.rawMembers, h0] using h2, h3, ?_⟩
      intro hp
      exact ⟨by simpa [JVar.members, h0] using (h4 hp.1).1, (h4 hp.1).2⟩
    · obtain ⟨hkey, hval⟩ := hv.2 h0
      obtain ⟨w, htext, hplain⟩ := value.exists_value (hf.2 h0) hval
      have hesc := escaped_of_isKeyChar hkey
      refine ⟨l ++ [(⟨.double, tagname, hesc⟩, w)], ?_, ?_, ?_, fun hp => ?_⟩
      · simp [JVar.memberTexts, h0, pairText_double hesc, htext, h1]
      · simp [JVar.rawMembers, h0, htext, h2]
      · intro kv hkv
        rcases List.mem_append.mp hkv with hkv | hkv
        · exact h3 kv hkv
        · rw [List.mem_singleton.mp hkv]
          exact h0
      · obtain ⟨hn, hcook, hvis⟩ := hplain (hp.2 h0)
        refine ⟨by simp [JVar.members, h0, hcook, (h4 hp.1).1], fun kv hkv => ?_⟩
        rcases List.mem_append.mp hkv with hkv | hkv
        · exact (h4 hp.1).2 kv hkv
        · rw [List.mem_singleton.mp hkv]
          exact ⟨hn, hvis⟩
/-- A value of the composer is a value of the dialect. -/
theorem JVal.exists_value (v : JVal) (hf : v.Fits) (hv : v.Valid) : ∃ w : Value, Models w v := by
  match v with
  | .string s =>
    rw [JVal.Valid] at hv
    refine ⟨.str ⟨.double, s, hv⟩, ?_, fun _ => ⟨rfl, rfl, ?_⟩⟩
    · simp [Value.text, Str.text, JVal.serial, quote, Quote.char]
    · simp [Value.visible]
  | .int n =>
    have hne : itoa n ≠ [] := by simpa [JVal.serial] using (JVal.int n).serial_ne_nil
    exact ⟨.lit ⟨itoa n, hne, itoa_isBare n⟩, rfl, fun _ => ⟨rfl, rfl, rfl⟩⟩
  | .bool b =>
    refine ⟨.lit ⟨toSBool b, ?_, ?_⟩, rfl, fun _ => ⟨rfl, rfl, rfl⟩⟩
    · cases b <;> simp [toSBool]
    · cases b <;> rfl
  | .real x => exact ⟨.lit ⟨x.text, x.ne_nil, hv⟩, rfl, fun _ => ⟨rfl, rfl, rfl⟩⟩
  | .jobj (.binary str) =>
    rw [JVal.Fits] at hf
    exact ⟨.bin ⟨str, by omega⟩, rfl, fun hp => hp.elim⟩
  | .jobj (.text str) =>
    rw [JVal.Valid] at hv
    by_cases h0 : trimSpace str = []
    · refine ⟨.lit ⟨[0x6e, 0x75, 0x6c, 0x6c], by simp, rfl⟩, ?_, fun hp => hp.elim⟩
      simp [Value.text, JVal.serial, JObj.serial, h0]
    · obtain ⟨w, hw⟩ := hv.resolve_left h0
      refine ⟨w, ?_, fun hp => hp.elim⟩
      simp [hw, JVal.serial, JObj.serial, h0]
  | .array a =>
    rw [JVal.Valid] at hv
    rw [JVal.Fits] at hf
    obtain ⟨l, h1, h2⟩ := a.exists_items hf hv
    refine ⟨.ofItems l, .of_text ?_ (fun hp => Value.ofItems_noBinary (h2 hp)) rfl ?_ ?_⟩
    · rw [Value.ofItems_text, h1, JVal.serial]
    · cases l <;> rfl
    · cases l <;> rfl
  | .object e =>
    rw [JVal.Valid] at hv
    rw [JVal.Fits] at hf
    obtain ⟨l, h1, -, -, h4⟩ := e.exists_members hf hv
    refine ⟨.ofMembers l,
      .of_text ?_ (fun hp => Value.ofMembers_noBinary fun kv hkv => ((h4 hp).2 kv hkv).1) rfl ?_ ?_⟩
    · rw [Value.ofMembers_text, h1, JVal.serial]
    · cases l <;> rfl
    · cases l <;> rfl
theorem JArray.exists_items (a : JArray) (hf : a.Fits) (hv : a.Valid) : ∃ l : List Value,
    l.map Value.text = a.itemTexts ∧ (a.Plain → ∀ w ∈ l, w.noBinary = true) := by
  match a with
  | .nil => exact ⟨[], by simp [JArray.itemTexts]⟩
  | .append a x =>
    rw [JArray.Valid] at hv
    rw [JArray.Fits] at hf
    obtain ⟨l, h1, h2⟩ := a.exists_items hf.1 hv.1
    obtain ⟨w, htext, hplain⟩ := x.exists_value hf.2.1 hv.2
    refine ⟨l ++ [w], by simp [JArray.itemTexts, h1, htext], fun hp u hu => ?_⟩
    rcases List.mem_append.mp hu with hu | hu
    · exact h2 hp.1 u hu
    · rw [List.mem_singleton.mp hu]
      exact (hplain hp.2).1
end

end Cpcf.Json
