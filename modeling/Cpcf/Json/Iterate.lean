import Cpcf.Json.ScanValue

/-!
`JsonObject::Attach`, `JsonObject::GetNextKeyValuePair`, `JsonKeyValuePair::GetValueRaw` and the loop
`while(doc.GetNextKeyValuePair(kv))` that callers write around it.

The iterator keeps nothing but the slices of the last key and value. It finds its place again from
the end of that value, stepping over one quote or `>` if it stands there. On the first call it stands
behind the opening brace and does the same, so the opening quote of a key that follows the brace
directly is taken for the closing quote of a value.
-/

namespace Cpcf.Json

open Cpcf.Rt Cpcf.Lib.Memory

/-! ### The source -/

/-- A `String_Ref`: its address and `GetLength()`. The default one is at address zero. -/
structure StringRef where
  p : ℕ
  len : ℕ
  deriving DecidableEq, Repr

namespace StringRef

/-- The null reference. -/
def null : StringRef := ⟨0, 0⟩

/-- `End()`. -/
def tail (s : StringRef) : ℕ := s.p + s.len

/-- `IsEmpty()`. -/
def isEmpty (s : StringRef) : Bool := s.p == 0 || s.len == 0

theorem isEmpty_of_pos {s : StringRef} (hp : 0 < s.p) (hlen : 0 < s.len) : s.isEmpty = false := by
  rw [isEmpty, Bool.or_eq_false_iff, beq_eq_false_iff_ne, beq_eq_false_iff_ne]
  exact ⟨hp.ne', hlen.ne'⟩

/-- The text referred to. -/
def bytes (m : Mem) (s : StringRef) : List UInt8 := read m s.p s.len

/-- `String_Ref(p, end)`. -/
def ofRange (p e : ℕ) : StringRef := ⟨p, e - p⟩

end StringRef

/-- A `JsonKeyValuePair`. -/
structure KeyValuePair where
  key : StringRef
  value : StringRef
  deriving DecidableEq, Repr

/-- A fresh pair. -/
def KeyValuePair.fresh : KeyValuePair := ⟨.null, .null⟩

/-- `JsonObject::Attach`: the document starts at the first opening brace. -/
def attach (m : Mem) (doc : StringRef) : StringRef :=
  let s := seekChar m doc.p doc.tail Ch.lbrace
  if s = doc.tail then .null else .ofRange s doc.tail

/-- `_cook_raw_value`. The loop to the slash of a binary value is asserted to end before the tail. -/
def cookRawValue (m : Mem) (p tail : ℕ) : ℕ × ℕ :=
  if m p = Ch.dquote ∨ m p = Ch.squote then (p + 1, tail - 1)
  else if m p = Ch.lt then (seekChar m (p + 2) tail Ch.slash + 1, tail - 1)
  else (p, tail)

/-- Where the iterator takes up the document: behind the value of the last pair, or behind the opening
brace when the pair is not one of this document; then behind one quote or `>`. -/
def resumeAt (m : Mem) (doc : StringRef) (kvp : KeyValuePair) : ℕ :=
  let p := doc.p + 1
  let p := if p ≤ kvp.key.p ∧ kvp.value.tail ≤ doc.tail then kvp.value.tail else p
  if m p = Ch.dquote ∨ m p = Ch.squote ∨ m p = Ch.gt then p + 1 else p

/-- The key at `p`: where it starts and where it ends. -/
def readName (m : Mem) (p e : ℕ) : ℕ × ℕ :=
  if m p = Ch.dquote ∨ m p = Ch.squote then (p + 1, seekCharEscape m (p + 1) e (m p))
  else (p, scanText m p e)

/-- The place of the next key, or `none` at the closing brace. -/
def seekName (m : Mem) (p e : ℕ) : Option ℕ :=
  let p := skipWhitespace m p e
  if m p = Ch.rbrace then none
  else if m p = Ch.comma then some (skipWhitespace m (p + 1) e)
  else some p

/-- The rest of `GetNextKeyValuePair` from the key on: the pair found and whether true is returned. A
`return false` that leaves the pair alone is `none`. -/
def readPair (m : Mem) (p e : ℕ) : Option (Bool × KeyValuePair) :=
  let (p, name_end) := readName m p e
  if e = name_end ∨ p = name_end then none
  else
    let value := seekChar m name_end e Ch.colon
    if value = e then none
    else
      let value := skipWhitespace m (value + 1) e
      match seekJsonObjectClosure m value e with
      | none => none
      | some tail =>
        let (value, tail) := cookRawValue m value tail
        let v := StringRef.ofRange value tail
        some (!v.isEmpty || m tail == Ch.dquote, ⟨.ofRange p name_end, v⟩)

/-- `GetNextKeyValuePair`: the return value and the pair left behind. -/
def getNextKeyValuePair (m : Mem) (doc : StringRef) (kvp : KeyValuePair) : Bool × KeyValuePair :=
  if doc.isEmpty then (false, kvp)
  else
    match seekName m (resumeAt m doc kvp) doc.tail with
    | none => (false, kvp)
    | some p =>
      match readPair m p doc.tail with
      | none => (false, kvp)
      | some r => r

/-- `GetValueRaw`: the value with its quotes. The walk back to the `<` of a binary value is asserted to
end behind the key. -/
def getValueRaw (m : Mem) (kvp : KeyValuePair) : StringRef :=
  let before := m (kvp.value.p - 1)
  if before = Ch.dquote ∨ before = Ch.squote then .ofRange (kvp.value.p - 1) (kvp.value.tail + 1)
  else if before = Ch.slash then
    let back := ((List.range (kvp.value.p - 1 - kvp.key.tail)).find? fun i =>
      m (kvp.value.p - 1 - i) == Ch.lt).getD (kvp.value.p - 1 - kvp.key.tail)
    .ofRange (kvp.value.p - 1 - back) (kvp.value.tail + 1)
  else kvp.value

/-- `while(doc.GetNextKeyValuePair(kv)) ...`: the pairs seen, `none` when `n` calls are not enough. -/
def pairsFrom (m : Mem) (doc : StringRef) : ℕ → KeyValuePair → Option (List KeyValuePair)
  | 0, _ => none
  | n + 1, kvp =>
    match getNextKeyValuePair m doc kvp with
    | (false, _) => some []
    | (true, kvp) => (pairsFrom m doc n kvp).map (kvp :: ·)

/-- Iterating over `doc` from a fresh pair ends and sees exactly these pairs. -/
def Iterates (m : Mem) (doc : StringRef) (kvps : List KeyValuePair) : Prop :=
  ∃ n, pairsFrom m doc n .fresh = some kvps

/-- Iterating over `doc` from a fresh pair ends and sees exactly these keys and values. -/
def Enumerates (m : Mem) (doc : StringRef) (kvs : List (List UInt8 × List UInt8)) : Prop :=
  ∃ kvps, Iterates m doc kvps ∧ kvps.map (fun kvp => (kvp.key.bytes m, kvp.value.bytes m)) = kvs

/-! ### Values without binary parts -/

mutual
/-- No binary value at any depth. -/
def Value.noBinary : Value → Bool
  | .bin _ => false
  | .node _ es => es.noBinary
  | _ => true
/-- No binary value at any depth of the entries. -/
def Entries.noBinary : {k : Kind} → Entries k → Bool
  | _, .one _ v _ => v.noBinary
  | _, .cons _ v _ rest => v.noBinary && rest.noBinary
end

theorem Value.overrun_of_noBinary {v : Value} (h : v.noBinary = true) : v.overrun = 0 := by
  cases v <;> first | rfl | simp [Value.noBinary] at h

theorem Entries.overrun_of_noBinary : ∀ {k : Kind} {es : Entries k}, es.noBinary = true → es.overrun = 0
  | _, .one _ v _, h => by
    rw [Entries.overrun, Value.overrun_of_noBinary (by simpa [Entries.noBinary] using h), ite_self]
  | _, .cons _ _ _ rest, h => by
    rw [Entries.overrun]
    exact Entries.overrun_of_noBinary (by simp [Entries.noBinary] at h; exact h.2)

mutual
theorem Value.missed_of_noBinary (k : Kind) (v : Value) (h : v.noBinary = true) : v.missed k = 0 := by
  match v with
  | .str _ | .lit _ | .bin _ | .empty _ _ => simp [Value.missed]
  | .node k' es =>
    rw [Value.noBinary] at h
    rw [Value.missed, Entries.missed_of_noBinary k es h, Entries.overrun_of_noBinary h, ite_self]
theorem Entries.missed_of_noBinary (k : Kind) : ∀ {k' : Kind} (es : Entries k'), es.noBinary = true →
    es.missed k = 0
  | _, .one _ v _, h => by
    rw [Entries.missed]
    exact Value.missed_of_noBinary k v (by simpa [Entries.noBinary] using h)
  | _, .cons _ v _ rest, h => by
    simp only [Entries.noBinary, Bool.and_eq_true] at h
    rw [Entries.missed, Value.missed_of_noBinary k v h.1, Entries.missed_of_noBinary k rest h.2]
end

theorem Value.clean_of_noBinary {v : Value} (h : v.noBinary = true) : v.Clean := by
  cases v with
  | node k es => exact Value.missed_of_noBinary k _ h
  | _ => trivial

/-! ### One member -/

/-- How many bytes the quotes take on either side of a key. -/
def Key.offset : Key → ℕ
  | .quoted _ => 1
  | .bare _ => 0

attribute [local simp] Key.offset

/-- What stands between the name and the whitespace behind the key. -/
def Key.rest : Key → List UInt8
  | .quoted s => [s.quote.char]
  | .bare _ => []

/-- The key stands in double quotes. -/
def Key.mark : Key → Bool
  | .quoted s => s.quote == .double
  | .bare _ => false

/-- How many bytes the quotes take on either side of a value. -/
def Value.offset : Value → ℕ
  | .str _ => 1
  | _ => 0

/-- The value makes `GetNextKeyValuePair` return true: it is not an empty string in single quotes. -/
def Value.visible : Value → Bool
  | .str s => !(s.body.isEmpty && s.quote == .single)
  | _ => true

/-- What a pair tells of a member: the key, the value without and with its quotes, and whether the key
stands behind a double quote. -/
structure Shows (m : Mem) (kvp : KeyValuePair) (kv : Key × Value) : Prop where
  key : kvp.key.bytes m = kv.1.name
  value : kvp.value.bytes m = kv.2.cooked
  raw : (getValueRaw m kvp).bytes m = kv.2.text
  pos : 0 < (getValueRaw m kvp).p
  mark : (m (kvp.key.p - 1) == Ch.dquote) = kv.1.mark
  marked : kv.1.mark = true → read m (kvp.key.p - 1) (kvp.key.len + 2) = kv.1.text

theorem Key.length_text (k : Key) : k.text.length = k.name.length + 2 * k.offset := by
  cases k with
  | quoted s => simp [Key.text, Key.name, Str.length_text]
  | bare w => rfl

theorem Value.length_text {v : Value} (h : v.noBinary = true) :
    v.text.length = v.cooked.length + 2 * v.offset := by
  cases v with
  | str s => simp [Value.text, Value.cooked, Value.offset, Str.length_text]
  | bin b => simp [Value.noBinary] at h
  | _ => rfl

section Member

variable {m : Mem} {p q e : ℕ} {doc : StringRef} {kvp : KeyValuePair}

theorem Key.holds_name {k : Key} (h : Holds m p k.text) : Holds m (p + k.offset) k.name := by
  cases k with
  | quoted s => exact (holds_append.mp h.2).1
  | bare w => exact h

theorem Value.holds_cooked {v : Value} (hn : v.noBinary = true) (h : Holds m p v.text) :
    Holds m (p + v.offset) v.cooked := by
  cases v with
  | str s => exact (holds_append.mp h.2).1
  | bin b => simp [Value.noBinary] at hn
  | _ => exact h

/-- The first byte of a value says which kind it is of. -/
theorem Value.first_byte {v : Value} (hn : v.noBinary = true) (h : Holds m p v.text) :
    m p ≠ Ch.lt ∧ isSkipped (m p) = false ∧ (v.offset = 1 → m p = Ch.dquote ∨ m p = Ch.squote) ∧
      (v.offset = 0 → m p ≠ Ch.dquote ∧ m p ≠ Ch.squote) := by
  cases v with
  | str s =>
    rw [show m p = s.quote.char from h.1]
    simp only [Value.offset]
    cases s.quote <;> decide
  | lit w =>
    obtain ⟨b, t, hw, hb⟩ := w.exists_cons
    simp only [Value.text, hw] at h
    obtain ⟨h1, -, h2, h3, h4, -⟩ := isBare_facts b hb
    rw [h.1]
    exact ⟨h4, h1, fun h => by simp [Value.offset] at h, fun _ => ⟨h2, h3⟩⟩
  | bin b => simp [Value.noBinary] at hn
  | empty k ws =>
    rw [show m p = k.opening from h.1]
    simp only [Value.offset]
    cases k <;> decide
  | node k es =>
    rw [show m p = k.opening from h.1]
    simp only [Value.offset]
    cases k <;> decide

/-- `_cook_raw_value` takes the quotes off. -/
theorem cookRawValue_value {v : Value} (hn : v.noBinary = true) (h : Holds m p v.text) :
    cookRawValue m p (p + v.text.length) = (p + v.offset, p + v.offset + v.cooked.length) := by
  obtain ⟨h1, -, h2, h3⟩ := v.first_byte hn h
  have hl := v.length_text hn
  have ho : v.offset = 0 ∨ v.offset = 1 := by cases v <;> simp [Value.offset]
  rw [cookRawValue]
  rcases ho with ho | ho
  · rw [if_neg (not_or.mpr (h3 ho)), if_neg h1, hl, ho]
    rfl
  · rw [if_pos (h2 ho), hl, ho]
    congr 1
    omega

theorem Key.holds_rest {k : Key} (h : Holds m p k.text) : Holds m (p + k.offset + k.name.length) k.rest := by
  cases k with
  | quoted s => exact (holds_append.mp h.2).2
  | bare w => trivial

theorem Key.rest_ne_colon {k : Key} {b : UInt8} (h : b ∈ k.rest) : b ≠ Ch.colon := by
  cases k with
  | quoted s =>
    rw [List.mem_singleton.mp h]
    cases s.quote <;> decide
  | bare w => simp [Key.rest] at h

theorem Key.length_rest (k : Key) : k.rest.length = k.offset := by cases k <;> rfl

/-- The value makes the call return true exactly when it is visible. -/
theorem visible_eq {v : Value} (hn : v.noBinary = true) (h : Holds m p v.text) (hp : 0 < p)
    (hb : isDelimiter (m (p + v.text.length)) = true) :
    (!(StringRef.ofRange (p + v.offset) (p + v.offset + v.cooked.length)).isEmpty ||
      m (p + v.offset + v.cooked.length) == Ch.dquote) = v.visible := by
  have hl := v.length_text hn
  have hp' : (p + v.offset == 0) = false := by
    rw [beq_eq_false_iff_ne]
    omega
  simp only [StringRef.isEmpty, StringRef.ofRange, hp', Nat.add_sub_cancel_left, Bool.false_or]
  cases v with
  | str s =>
    have hq : m (p + 1 + s.body.length) = s.quote.char := (holds_append.mp h.2).2.1
    simp only [Value.offset, Value.cooked, hq, Value.visible]
    cases s.quote <;> cases s.body <;> rfl
  | bin b => simp [Value.noBinary] at hn
  | lit w | empty k ws | node k es =>
    simp only [Value.visible, Value.cooked, Bool.or_eq_true, Bool.not_eq_true', beq_eq_false_iff_ne,
      ne_eq, List.length_eq_zero_iff]
    exact Or.inl (Value.text_ne_nil _)

/-- From the end of the name the colon is found. -/
theorem seekChar_colon {x : ℕ} {key : Key} {mid : Ws} {rest : List UInt8}
    (h : Holds m x (key.text ++ (mid.text ++ Ch.colon :: rest))) (he : x + key.text.length + mid.text.length < e) :
    seekChar m (x + key.offset + key.name.length) e Ch.colon = x + key.text.length + mid.text.length := by
  have hkl := key.length_text
  simp only [holds_append, holds_cons] at h
  obtain ⟨h1, h2, h3, -⟩ := h
  have hgap : Holds m (x + key.offset + key.name.length) (key.rest ++ mid.text) := by
    rw [holds_append]
    refine ⟨key.holds_rest h1, ?_⟩
    rw [show x + key.offset + key.name.length + key.rest.length = x + key.text.length by
      rw [key.length_rest, hkl]; omega]
    exact h2
  have hlen : x + key.offset + key.name.length + (key.rest ++ mid.text).length =
      x + key.text.length + mid.text.length := by
    rw [List.length_append, key.length_rest, hkl]
    omega
  rw [← hlen, seekChar]
  refine scanWhile_eq hgap ?_ (by omega) (fun _ => by rw [hlen, h3]; rfl)
  intro b hb
  rcases List.mem_append.mp hb with hb | hb
  · simpa using Key.rest_ne_colon hb
  · simpa using (isWs_facts b (mid.isWs_of_mem hb)).2.2.2.2.2.2.2.2.2.2.2.1

/-- From a key that is read right, the call goes on to find the value. -/
theorem readPair_member {a x : ℕ} {key : Key} {mid post : Ws} {v : Value}
    (hname : readName m a e = (x + key.offset, x + key.offset + key.name.length)) (hk : key.name ≠ [])
    (hn : v.noBinary = true)
    (h : Holds m x (key.text ++ (mid.text ++ Ch.colon :: (post.text ++ v.text))))
    (he : x + (key.text ++ (mid.text ++ Ch.colon :: (post.text ++ v.text))).length < e)
    (hb : isDelimiter (m (x + (key.text ++ (mid.text ++ Ch.colon :: (post.text ++ v.text))).length)) = true) :
    readPair m a e = some (v.visible, ⟨⟨x + key.offset, key.name.length⟩,
      ⟨x + key.text.length + mid.text.length + 1 + post.text.length + v.offset, v.cooked.length⟩⟩) := by
  have hkl := key.length_text
  have hk0 : 0 < key.name.length := List.length_pos_of_ne_nil hk
  simp only [List.length_append, List.length_cons] at he hb
  have hcolon := seekChar_colon (e := e) h (by omega)
  simp only [holds_append, holds_cons] at h
  obtain ⟨-, -, -, h4, h5⟩ := h
  have hpost : skipWhitespace m (x + key.text.length + mid.text.length + 1) e =
      x + key.text.length + mid.text.length + 1 + post.text.length :=
    scanWhile_eq h4 (fun b hb => (isWs_facts b (post.isWs_of_mem hb)).1) (by omega)
      (fun _ => (v.first_byte hn h5).2.1)
  have hbv :
      isDelimiter (m (x + key.text.length + mid.text.length + 1 + post.text.length + v.text.length)) = true := by
    rw [← hb]
    congr 2
    omega
  have hseek := (seek_value (e := e) v h5 (by omega) hbv).mpr (Value.clean_of_noBinary hn)
  rw [readPair, hname]
  simp only
  rw [if_neg (by omega), hcolon, if_neg (by omega), hpost, hseek]
  simp only
  rw [cookRawValue_value hn h5]
  simp only
  rw [visible_eq hn h5 (by omega) hbv]
  simp only [StringRef.ofRange, Nat.add_sub_cancel_left]

/-- The byte before a value is its opening quote, or the colon or whitespace. -/
theorem before_value {y : ℕ} {post : Ws} {v : Value} (h3 : m y = Ch.colon) (h4 : Holds m (y + 1) post.text)
    (h5 : Holds m (y + 1 + post.text.length) v.text) :
    (v.offset = 1 → m (y + 1 + post.text.length + v.offset - 1) = Ch.dquote ∨
      m (y + 1 + post.text.length + v.offset - 1) = Ch.squote) ∧
    (v.offset = 0 → m (y + 1 + post.text.length + v.offset - 1) ≠ Ch.dquote ∧
      m (y + 1 + post.text.length + v.offset - 1) ≠ Ch.squote ∧
      m (y + 1 + post.text.length + v.offset - 1) ≠ Ch.slash) := by
  refine ⟨fun ho => ?_, fun ho => ?_⟩
  · rw [ho, Nat.add_sub_cancel]
    cases v with
    | str s =>
      rw [show m (y + 1 + post.text.length) = s.quote.char from h5.1]
      cases s.quote <;> decide
    | _ => simp [Value.offset] at ho
  · have hc : Holds m y (Ch.colon :: post.text) := ⟨h3, h4⟩
    have hget := hc.get (i := post.text.length) (by simp)
    rw [ho, show y + 1 + post.text.length + 0 - 1 = y + post.text.length by omega, hget]
    rcases List.mem_cons.mp (List.getElem_mem (l := Ch.colon :: post.text) (n := post.text.length) (by simp))
      with hm | hm
    · rw [hm]
      decide
    · obtain ⟨-, -, -, g1, g2, -, -, -, -, -, -, -, -, g3, -⟩ := isWs_facts _ (post.isWs_of_mem hm)
      exact ⟨g1, g2, g3⟩

/-- The slices found show the member. -/
theorem shows_member {x : ℕ} {key : Key} {mid post : Ws} {v : Value} (hn : v.noBinary = true)
    (h : Holds m x (key.text ++ (mid.text ++ Ch.colon :: (post.text ++ v.text))))
    (hx : key.offset = 0 → m (x - 1) ≠ Ch.dquote) :
    Shows m ⟨⟨x + key.offset, key.name.length⟩,
      ⟨x + key.text.length + mid.text.length + 1 + post.text.length + v.offset, v.cooked.length⟩⟩ (key, v) := by
  simp only [holds_append, holds_cons] at h
  obtain ⟨h1, h2, h3, h4, h5⟩ := h
  obtain ⟨hq, hnq⟩ := before_value h3 h4 h5
  have hl := v.length_text hn
  have hraw : getValueRaw m ⟨⟨x + key.offset, key.name.length⟩,
      ⟨x + key.text.length + mid.text.length + 1 + post.text.length + v.offset, v.cooked.length⟩⟩ =
      ⟨x + key.text.length + mid.text.length + 1 + post.text.length, v.text.length⟩ := by
    simp only [getValueRaw, StringRef.tail, StringRef.ofRange]
    have ho : v.offset = 0 ∨ v.offset = 1 := by cases v <;> simp [Value.offset]
    rcases ho with ho | ho
    · obtain ⟨n1, n2, n3⟩ := hnq ho
      rw [if_neg (not_or.mpr ⟨n1, n2⟩), if_neg n3]
      simp only [ho, add_zero]
      rw [show v.cooked.length = v.text.length by omega]
    · rw [if_pos (hq ho)]
      simp only [ho, Nat.add_sub_cancel]
      rw [show ∀ y, y + 1 + v.cooked.length + 1 - y = v.text.length by omega]
  refine ⟨(key.holds_name h1).read_eq, (v.holds_cooked hn h5).read_eq, ?_, ?_, ?_, ?_⟩
  · rw [hraw]
    exact h5.read_eq
  · rw [hraw]
    simp only
    omega
  · cases key with
    | quoted s =>
      simp only [Key.offset, Nat.add_sub_cancel, show m x = s.quote.char from h1.1, Key.mark]
      cases s.quote <;> rfl
    | bare w =>
      simp only [Key.offset, add_zero, Key.mark, beq_eq_false_iff_ne]
      exact hx rfl
  · intro hm
    cases key with
    | quoted s =>
      simp only [Key.offset, Nat.add_sub_cancel]
      rw [show (Key.quoted s).name.length + 2 = (Key.quoted s).text.length from
        (Key.length_text (.quoted s)).symm]
      exact h1.read_eq
    | bare w => simp [Key.mark] at hm

/-- A pair of the document is taken up behind its value and one quote or `>`. -/
theorem resumeAt_of_mem (h1 : doc.p < kvp.key.p) (h2 : kvp.value.tail ≤ doc.tail) :
    resumeAt m doc kvp = if m kvp.value.tail = Ch.dquote ∨ m kvp.value.tail = Ch.squote ∨
      m kvp.value.tail = Ch.gt then kvp.value.tail + 1 else kvp.value.tail := by
  have hin : doc.p + 1 ≤ kvp.key.p ∧ kvp.value.tail ≤ doc.tail := ⟨h1, h2⟩
  simp only [resumeAt, hin, and_self, if_true]

/-- Behind a member the iterator takes up the document at the end of the value. -/
theorem resumeAt_member {x y : ℕ} {v : Value} {n : ℕ} (hn : v.noBinary = true) (hx : doc.p < x)
    (h5 : Holds m y v.text) (he : y + v.text.length ≤ doc.tail)
    (hb : isDelimiter (m (y + v.text.length)) = true) :
    resumeAt m doc ⟨⟨x, n⟩, ⟨y + v.offset, v.cooked.length⟩⟩ = y + v.text.length := by
  have hl := v.length_text hn
  have htail : y + v.offset + v.cooked.length ≤ doc.tail := by omega
  have hmem := @resumeAt_of_mem m doc ⟨⟨x, n⟩, ⟨y + v.offset, v.cooked.length⟩⟩ hx htail
  rw [hmem]
  simp only [StringRef.tail]
  cases v with
  | str s =>
    have hq : m (y + 1 + s.body.length) = s.quote.char := (holds_append.mp h5.2).2.1
    have hc : s.quote.char = Ch.dquote ∨ s.quote.char = Ch.squote ∨ s.quote.char = Ch.gt := by
      cases s.quote <;> decide
    simp only [Value.offset, Value.cooked, hq]
    rw [if_pos hc, Value.text, s.length_text]
    omega
  | bin b => simp [Value.noBinary] at hn
  | lit w | empty k ws | node k es =>
    obtain ⟨-, g1, g2, g3⟩ := isDelimiter_facts _ hb
    simp only [Value.offset, Value.cooked, add_zero]
    rw [if_neg (by simp only [not_or]; exact ⟨g1, g2, g3⟩)]

/-! ### From member to member -/

/-- A key starts with a quote or a character of a bare word. -/
theorem Key.first_byte {k : Key} (h : Holds m p k.text) :
    isSkipped (m p) = false ∧ m p ≠ Ch.rbrace ∧ m p ≠ Ch.comma := by
  cases k with
  | quoted s =>
    rw [show m p = s.quote.char from h.1]
    cases s.quote <;> decide
  | bare w =>
    obtain ⟨b, t, hw, hb⟩ := w.exists_cons
    simp only [Key.text, hw] at h
    obtain ⟨h1, -, -, -, -, -, -, -, h2, h3, -⟩ := isBare_facts b hb
    rw [h.1]
    exact ⟨h1, h2, h3⟩

theorem skipWhitespace_ws {ws : Ws} (h : Holds m p ws.text) (he : p + ws.text.length ≤ e)
    (hs : isSkipped (m (p + ws.text.length)) = false) : skipWhitespace m p e = p + ws.text.length :=
  scanWhile_eq h (fun b hb => (isWs_facts b (ws.isWs_of_mem hb)).1) (by omega) (fun _ => hs)

/-- At the whitespace before a key. -/
theorem seekName_key {ws : Ws} {k : Key} (h : Holds m p (ws.text ++ k.text)) (he : p + ws.text.length ≤ e) :
    seekName m p e = some (p + ws.text.length) := by
  obtain ⟨h1, h2⟩ := holds_append.mp h
  obtain ⟨f1, f2, f3⟩ := k.first_byte h2
  simp only [seekName, skipWhitespace_ws h1 he f1]
  rw [if_neg f2, if_neg f3]

/-- At the whitespace and the comma before a key. -/
theorem seekName_comma {ws pre : Ws} {k : Key} (h : Holds m p (ws.text ++ Ch.comma :: (pre.text ++ k.text)))
    (he : p + ws.text.length + 1 + pre.text.length ≤ e) :
    seekName m p e = some (p + ws.text.length + 1 + pre.text.length) := by
  simp only [holds_append, holds_cons] at h
  obtain ⟨h1, h2, h3, h4⟩ := h
  have hskip : skipWhitespace m p e = p + ws.text.length :=
    skipWhitespace_ws h1 (by omega) (by rw [h2]; decide)
  simp only [seekName, hskip]
  rw [h2, if_neg (by decide), if_pos rfl, skipWhitespace_ws h3 (by omega) (k.first_byte h4).1]

/-- At the whitespace before the closing brace. -/
theorem seekName_rbrace {ws : Ws} (h : Holds m p (ws.text ++ [Ch.rbrace])) (he : p + ws.text.length ≤ e) :
    seekName m p e = none := by
  obtain ⟨h1, h2, -⟩ := holds_append.mp h
  simp only [seekName, skipWhitespace_ws h1 he (by rw [h2]; decide)]
  rw [h2, if_pos rfl]

/-- From its first byte on, a key is read as it is. -/
theorem readName_key {k : Key} (h : Holds m p k.text) (he : p + k.text.length < e)
    (hs : isText (m (p + k.text.length)) = false) :
    readName m p e = (p + k.offset, p + k.offset + k.name.length) := by
  cases k with
  | quoted s =>
    have hq : m p = s.quote.char := h.1
    have hc : s.quote.char = Ch.dquote ∨ s.quote.char = Ch.squote := by cases s.quote <;> decide
    rw [readName, hq, if_pos hc, seekCharEscape_str h (by simp only [Key.text] at he; omega)]
    rfl
  | bare w =>
    obtain ⟨b, t, hw, hb⟩ := w.exists_cons
    have hp : m p = b := by
      simp only [Key.text, hw] at h
      exact h.1
    obtain ⟨-, -, h1, h2, -⟩ := isBare_facts b hb
    rw [readName, hp, if_neg (not_or.mpr ⟨h1, h2⟩)]
    simp only [Key.offset, add_zero, Key.name, scanText]
    rw [scanWhile_eq (show Holds m p w.text from h) (fun x hx => (isBare_facts x (w.isBare_of_mem hx)).2.1)
      (by simp only [Key.text] at he; omega) (fun _ => hs)]

/-- Whitespace and the colon are not part of a name. -/
theorem not_isText_after_key {x : ℕ} {mid : Ws} {rest : List UInt8} (h : Holds m x (mid.text ++ Ch.colon :: rest)) :
    isText (m x) = false := by
  rcases hm : mid.text with _ | ⟨b, t⟩
  · rw [hm] at h
    rw [show m x = Ch.colon from h.1]
    decide
  · rw [hm] at h
    rw [show m x = b from h.1]
    exact (isWs_facts b (mid.isWs_of_mem (by rw [hm]; simp))).2.1

end Member

/-! ### All members -/

/-- The member makes `GetNextKeyValuePair` return true: its key is not empty and its value is visible. -/
def shown (kv : Key × Value) : Bool := !kv.1.name.isEmpty && kv.2.visible

/-- The members before the first that is not shown. -/
def Entries.seen (es : Entries .object) : List (Key × Value) := es.members.takeWhile shown

/-- The whitespace before the first key. -/
def Entries.pre : Entries .object → Ws
  | .one (.member pre _ _ _) _ _ => pre
  | .cons (.member pre _ _ _) _ _ _ => pre

/-- The first key. -/
def Entries.firstKey : Entries .object → Key
  | .one h _ _ => h.key
  | .cons h _ _ _ => h.key

/-- The first value. -/
def Entries.firstValue : Entries .object → Value
  | .one _ v _ => v
  | .cons _ v _ _ => v

theorem Entries.members_eq (es : Entries .object) : ∃ l, es.members = (es.firstKey, es.firstValue) :: l := by
  match es with
  | .one h v post => exact ⟨[], by simp only [members, firstKey, firstValue]⟩
  | .cons h v post rest => exact ⟨rest.members, by simp only [members, firstKey, firstValue]⟩

/-- The next call finds the key of `es`, whose text stands at `x`. -/
def Ready (m : Mem) (doc : StringRef) (kvp : KeyValuePair) (x : ℕ) (pre : Ws) (key : Key) : Prop :=
  ∃ a, seekName m (resumeAt m doc kvp) doc.tail = some a ∧
    readName m a doc.tail = (x + pre.text.length + key.offset, x + pre.text.length + key.offset + key.name.length)

section Members

variable {m : Mem} {doc : StringRef} {kvp : KeyValuePair} {x : ℕ}

/-- **One call.** From a place where the key is found, the call returns the member, true unless the value
is invisible, and the pair leaves the iterator at the end of the value. -/
theorem getNext_member {pre mid post : Ws} {key : Key} {v : Value} (hdoc : doc.isEmpty = false)
    (hr : Ready m doc kvp x pre key) (hk : key.name ≠ []) (hn : v.noBinary = true)
    (hx : doc.p < x) (hprev : m (x - 1) ≠ Ch.dquote)
    (h : Holds m x ((Head.member pre key mid post).text ++ v.text))
    (he : x + ((Head.member pre key mid post).text ++ v.text).length < doc.tail)
    (hb : isDelimiter (m (x + ((Head.member pre key mid post).text ++ v.text).length)) = true) :
    ∃ kvp', getNextKeyValuePair m doc kvp = (v.visible, kvp') ∧ Shows m kvp' (key, v) ∧
      resumeAt m doc kvp' = x + ((Head.member pre key mid post).text ++ v.text).length := by
  obtain ⟨a, hs, hname⟩ := hr
  have htext : (Head.member pre key mid post).text ++ v.text =
      pre.text ++ (key.text ++ (mid.text ++ Ch.colon :: (post.text ++ v.text))) := by
    simp [Head.text]
  rw [htext] at h he hb ⊢
  rw [List.length_append] at he hb
  obtain ⟨h0, h⟩ := holds_append.mp h
  have hb' : isDelimiter (m (x + pre.text.length +
      (key.text ++ (mid.text ++ Ch.colon :: (post.text ++ v.text))).length)) = true := by
    rw [← hb]
    congr 2
    omega
  have hpair := readPair_member hname hk hn h (by omega) hb'
  have hx' : key.offset = 0 → m (x + pre.text.length - 1) ≠ Ch.dquote := by
    intro _
    rcases Nat.eq_zero_or_pos pre.text.length with hl | hl
    · rw [hl]
      exact hprev
    · rw [show x + pre.text.length - 1 = x + (pre.text.length - 1) by omega, h0.get (by omega)]
      exact (isWs_facts _ (pre.isWs_of_mem (List.getElem_mem _))).2.2.2.1
  have hshow := shows_member hn h hx'
  simp only [holds_append, holds_cons] at h
  obtain ⟨-, -, -, -, h5⟩ := h
  refine ⟨_, ?_, hshow, ?_⟩
  · rw [getNextKeyValuePair, hdoc, hs]
    simp only [Bool.false_eq_true, if_false, hpair]
  · simp only [List.length_append, List.length_cons] at he hb ⊢
    have e1 : x + pre.text.length + key.text.length + mid.text.length + 1 + post.text.length + v.text.length =
        x + (pre.text.length + (key.text.length + (mid.text.length + (post.text.length + v.text.length + 1)))) := by
      omega
    rw [resumeAt_member hn (by omega) h5 (by omega) (by rw [e1]; exact hb), e1]

theorem isDelimiter_of_isWs {b : UInt8} (h : isWs b = true) : isDelimiter b = true := by
  simp [isDelimiter, h]

theorem isDelimiter_after {ws : Ws} {b : UInt8} {rest : List UInt8} (h : Holds m x (ws.text ++ b :: rest))
    (hb : isDelimiter b = true) : isDelimiter (m x) = true := by
  rcases hw : ws.text with _ | ⟨c, t⟩
  · rw [hw] at h
    rw [show m x = b from h.1]
    exact hb
  · rw [hw] at h
    rw [show m x = c from h.1]
    exact isDelimiter_of_isWs (ws.isWs_of_mem (by rw [hw]; simp))

theorem Entries.text_eq (es : Entries .object) : ∃ (mid : Ws) (t : List UInt8),
    es.text = es.pre.text ++ (es.firstKey.text ++ (mid.text ++ Ch.colon :: t)) := by
  match es with
  | .one (.member pre key mid post) v ws =>
    refine ⟨mid, post.text ++ (v.text ++ ws.text), ?_⟩
    simp only [Entries.text, Head.text, Entries.pre, Entries.firstKey, Head.key, List.append_assoc, List.cons_append]
  | .cons (.member pre key mid post) v ws rest =>
    refine ⟨mid, post.text ++ (v.text ++ (ws.text ++ Ch.comma :: rest.text)), ?_⟩
    simp only [Entries.text, Head.text, Entries.pre, Entries.firstKey, Head.key, List.append_assoc, List.cons_append]

/-- The first key of the entries is read as it is. -/
theorem readName_entries {es : Entries .object} {e : ℕ} (h : Holds m x es.text) (he : x + es.text.length ≤ e) :
    readName m (x + es.pre.text.length) e = (x + es.pre.text.length + es.firstKey.offset,
      x + es.pre.text.length + es.firstKey.offset + es.firstKey.name.length) := by
  obtain ⟨mid, t, ht⟩ := es.text_eq
  rw [ht] at h he
  simp only [List.length_append, List.length_cons] at he
  obtain ⟨-, h1⟩ := holds_append.mp h
  obtain ⟨h2, h3⟩ := holds_append.mp h1
  exact readName_key h2 (by omega) (not_isText_after_key h3)

/-- At the whitespace before the first key. -/
theorem ready_entries {es : Entries .object} (hres : resumeAt m doc kvp = x) (h : Holds m x es.text)
    (he : x + es.text.length ≤ doc.tail) : Ready m doc kvp x es.pre es.firstKey := by
  refine ⟨_, ?_, readName_entries h he⟩
  obtain ⟨mid, t, ht⟩ := es.text_eq
  rw [ht] at h he
  simp only [List.length_append, List.length_cons] at he
  rw [← List.append_assoc, holds_append] at h
  rw [hres, seekName_key h.1 (by omega)]

/-- Behind a value, at the whitespace before the comma. -/
theorem ready_comma {es : Entries .object} {post : Ws} (hres : resumeAt m doc kvp = x)
    (h : Holds m x (post.text ++ Ch.comma :: es.text)) (he : x + post.text.length + 1 + es.text.length ≤ doc.tail) :
    Ready m doc kvp (x + post.text.length + 1) es.pre es.firstKey := by
  have h' := h
  simp only [holds_append, holds_cons] at h'
  refine ⟨_, ?_, readName_entries h'.2.2 he⟩
  obtain ⟨mid, t, ht⟩ := es.text_eq
  have hc : Holds m x (post.text ++ Ch.comma :: (es.pre.text ++ es.firstKey.text)) := by
    rw [ht] at h
    simp only [holds_append, holds_cons] at h ⊢
    exact ⟨h.1, h.2.1, h.2.2.1, h.2.2.2.1⟩
  rw [ht] at he
  simp only [List.length_append, List.length_cons] at he
  rw [hres, seekName_comma hc (by omega)]

/-- An empty key ends the iteration. -/
theorem getNext_unnamed {pre : Ws} {key : Key} (hdoc : doc.isEmpty = false) (hr : Ready m doc kvp x pre key)
    (hk : key.name = []) : getNextKeyValuePair m doc kvp = (false, kvp) := by
  obtain ⟨a, hs, hname⟩ := hr
  have hpair : readPair m a doc.tail = none := by
    rw [readPair, hname, hk]
    simp
  rw [getNextKeyValuePair, hdoc, hs]
  simp only [Bool.false_eq_true, if_false, hpair]

/-- **The whole loop.** From a place where the first key is found, the loop sees exactly the members
before the first that is not shown, and ends. -/
theorem pairsFrom_entries (hdoc : doc.isEmpty = false) : ∀ (es : Entries .object) {x n : ℕ} {kvp : KeyValuePair},
    es.noBinary = true → Holds m x (es.text ++ [Ch.rbrace]) →
    x + es.text.length < doc.tail → doc.p < x → m (x - 1) ≠ Ch.dquote →
    Ready m doc kvp x es.pre es.firstKey → es.members.length < n →
    ∃ kvps, pairsFrom m doc n kvp = some kvps ∧ List.Forall₂ (Shows m) kvps es.seen
  | .one (.member pre key mid mpost) v post, x, n, kvp, hn, h, he, hx, hprev, hr, hlen => by
    obtain ⟨n, rfl⟩ : ∃ k, n = k + 2 := ⟨n - 2, by simp [Entries.members] at hlen; omega⟩
    replace hr : Ready m doc kvp x pre key := hr
    by_cases hk : key.name = []
    · refine ⟨[], ?_, by simp [Entries.seen, Entries.members, shown, Head.key, hk]⟩
      rw [pairsFrom, getNext_unnamed hdoc hr hk]
    simp only [Entries.noBinary, Entries.text] at hn h he
    rw [← List.append_assoc] at h he
    rw [List.append_assoc, holds_append] at h
    rw [List.length_append] at he
    obtain ⟨h1, h2⟩ := h
    obtain ⟨kvp', hnext, hshow, hres⟩ := getNext_member hdoc hr hk hn hx hprev h1 (by omega)
      (isDelimiter_after h2 (by decide))
    rw [pairsFrom, hnext]
    cases hv : v.visible with
    | false => exact ⟨[], rfl, by simp [Entries.seen, Entries.members, shown, hv]⟩
    | true =>
      have hend : getNextKeyValuePair m doc kvp' = (false, kvp') := by
        rw [getNextKeyValuePair, hdoc, hres, seekName_rbrace h2 (by omega)]
        rfl
      refine ⟨[kvp'], ?_, ?_⟩
      · simp [pairsFrom, hend]
      · simpa [Entries.seen, Entries.members, shown, hv, hk, Head.key] using hshow
  | .cons (.member pre key mid mpost) v post rest, x, n, kvp, hn, h, he, hx, hprev, hr, hlen => by
    obtain ⟨n, rfl⟩ : ∃ k, n = k + 1 := ⟨n - 1, by omega⟩
    replace hr : Ready m doc kvp x pre key := hr
    by_cases hk : key.name = []
    · refine ⟨[], ?_, by simp [Entries.seen, Entries.members, shown, Head.key, hk]⟩
      rw [pairsFrom, getNext_unnamed hdoc hr hk]
    simp only [Entries.noBinary, Entries.text, Entries.members, Bool.and_eq_true, List.length_cons] at hn h he hlen
    rw [← List.append_assoc] at h he
    rw [List.append_assoc, holds_append, List.append_assoc, List.cons_append] at h
    have hl : (post.text ++ Ch.comma :: rest.text).length = post.text.length + rest.text.length + 1 := by
      simp [Nat.add_assoc]
    rw [List.length_append, hl] at he
    obtain ⟨h1, h2⟩ := h
    obtain ⟨kvp', hnext, hshow, hres⟩ := getNext_member hdoc hr hk hn.1 hx hprev h1 (by omega)
      (isDelimiter_after h2 (by decide))
    rw [pairsFrom, hnext]
    cases hv : v.visible with
    | false => exact ⟨[], rfl, by simp [Entries.seen, Entries.members, shown, hv]⟩
    | true =>
      rw [← List.cons_append, ← List.append_assoc] at h2
      have hready := ready_comma hres (holds_append.mp h2).1 (by omega)
      rw [List.append_assoc, List.cons_append] at h2
      rw [holds_append, holds_cons] at h2
      obtain ⟨-, hc, hrest⟩ := h2
      obtain ⟨kvps, hpairs, hshows⟩ := pairsFrom_entries hdoc rest (n := n) hn.2 hrest (by omega)
        (by omega) (by rw [Nat.add_sub_cancel, hc]; decide) hready (by omega)
      refine ⟨kvp' :: kvps, by simp [hpairs], ?_⟩
      simpa [Entries.seen, Entries.members, shown, hv, hk, Head.key] using ⟨hshow, hshows⟩

end Members

end Cpcf.Json
