import Cpcf.Json.Enumerate

/-!
The composer of `rt/json.h`: `_JVar`, `_JArray` and `_JObj`.

`J(a) = 1, J(b) = "x"` builds a chain of `_JVar`, nested to the left, and `GetLength` and `CopyTo` are
two recursions over it. The caller allocates `GetLength()` bytes and `CopyTo` fills them through a
pointer. Each decides by the running length whether a separator is due; a member with an empty tag is a
ghost and leaves no trace. An array is written into a buffer of fixed capacity as it is built, and what
no longer fits is dropped without a word.
-/

namespace Cpcf.Json

open Cpcf.Rt Cpcf.Lib.Memory

/-! ### Values and chains -/

/-- A `_JObj`: a text to be taken over as it is but for blanks around it, or binary. -/
inductive JObj
  | text (str : List UInt8)
  | binary (str : List UInt8)
  deriving DecidableEq, Repr

/-- The text of a floating-point number as `ftoa` gives it: not empty. -/
structure RealText where
  text : List UInt8
  ne_nil : text ≠ []

mutual
/-- A `_JVar`: the first member of a chain, or one more. -/
inductive JVar
  | first (tagname : List UInt8) (value : JVal)
  | next (prev : JVar) (tagname : List UInt8) (value : JVal)
/-- A value of a member or an item of an array. Only `string` is of type `VARTYPE_STRING`. -/
inductive JVal
  | string (s : List UInt8)
  | int (n : ℤ)
  | bool (b : Bool)
  | real (x : RealText)
  | jobj (o : JObj)
  | array (a : JArray)
  | object (e : JVar)
/-- A `_JArray` with the calls of `Append` that built it. -/
inductive JArray
  | nil
  | append (a : JArray) (x : JVal)
end

/-- `value_type == VARTYPE_STRING`, and `need_quote` of an item. -/
def JVal.isString : JVal → Bool
  | .string _ => true
  | _ => false

/-! ### Texts of fixed form -/

/-- `__toS` of a bool. -/
def toSBool (b : Bool) : List UInt8 := if b then [0x74, 0x72, 0x75, 0x65] else [0x66, 0x61, 0x6c, 0x73, 0x65]

/-- `String_Ref::CopyTo`. -/
def copyText (s : List UInt8) (m : Mem) (p : ℕ) : Mem × ℕ := (memcpy m p s, s.length)

/-- `_JObj::GetLength`. -/
def JObj.getLength : JObj → ℕ
  | .binary str => 2 + (itoaUnsigned str.length).length + str.length + 1
  | .text str => if (trimSpace str).isEmpty then 4 else (trimSpace str).length

/-- `_JObj::CopyTo`. -/
def JObj.copyTo : JObj → Mem → ℕ → Mem × ℕ
  | .binary str, m, p =>
    let binLen := itoaUnsigned str.length
    let m := poke m p Ch.lt
    let m := memcpy m (p + 1) binLen
    let p := p + 2 + binLen.length
    let m := poke m (p - 1) Ch.slash
    let m := memcpy m p str
    let m := poke m (p + str.length) Ch.gt
    (m, 2 + binLen.length + str.length + 1)
  | .text str, m, p =>
    if (trimSpace str).isEmpty then (memcpy m p [0x6e, 0x75, 0x6c, 0x6c], 4) else copyText (trimSpace str) m p

/-! ### The array buffer -/

/-- The capacity of `StringFixed<1024>`. -/
def bufLen : ℕ := 1024

/-- `_buf += x` for a character. -/
def appendChar (buf : List UInt8) (x : UInt8) : List UInt8 :=
  if buf.length + 1 ≤ bufLen then buf ++ [x] else buf

/-- An expression copied behind a text: the length is set from its `GetLength()`, whatever `CopyTo` does. -/
def copyBehind (buf : List UInt8) (len : ℕ) (copyTo : Mem → ℕ → Mem × ℕ) : List UInt8 :=
  read (copyTo (ofBytes 0 buf) buf.length).1 0 (len + buf.length)

/-- `_buf += string_expr`. -/
def appendExpr (buf : List UInt8) (len : ℕ) (copyTo : Mem → ℕ → Mem × ℕ) : List UInt8 :=
  if len + (buf.length + 1) < bufLen then copyBehind buf len copyTo else buf

/-! ### `GetLength` and `CopyTo` -/

/-- The end of `_JVar::GetLength`. -/
def closeLength (len : ℕ) : ℕ := if len ≠ 0 then len + 4 else 2

/-- The end of `_JVar::CopyTo`, with `p` behind the opening brace and newline. -/
def closeObject (r : Mem × ℕ) (p : ℕ) : Mem × ℕ :=
  if r.2 ≠ 0 then (memcpy r.1 (p + r.2) [Ch.newline, Ch.rbrace], r.2 + 4)
  else (poke r.1 (p - 1) Ch.rbrace, 2)

/-- One member's part of `_JVar::_GetLength`. -/
def memberLength (tagname : List UInt8) (isString : Bool) (valueLength len : ℕ) : ℕ :=
  if tagname.isEmpty then len
  else
    let len := if len ≠ 0 then len + 2 else len
    let len := len + (tagname.length + 3)
    len + (valueLength + if isString then 2 else 0)

/-- One member's part of `_JVar::_CopyTo`. -/
def memberCopy (tagname : List UInt8) (isString : Bool) (copyTo : Mem → ℕ → Mem × ℕ) (m : Mem) (p len : ℕ) :
    Mem × ℕ :=
  if tagname.isEmpty then (m, len)
  else
    let (m, p, len) :=
      if len ≠ 0 then (memcpy m (p + (len + 2) - 2) [Ch.comma, Ch.newline], p + (len + 2), len + 2)
      else (m, p, len)
    let m := poke m p Ch.dquote
    let p := p + 1
    let (m, l) := copyText tagname m p
    let p := p + l
    let m := poke m p Ch.dquote
    let p := p + 1
    let m := poke m p Ch.colon
    let p := p + 1
    let len := len + (l + 3)
    if isString then
      let m := poke m p Ch.dquote
      let p := p + 1
      let (m, l) := copyTo m p
      let p := p + l
      let m := poke m p Ch.dquote
      (m, len + (l + 2))
    else
      let (m, l) := copyTo m p
      (m, len + l)

mutual
/-- `_JVar::_GetLength`: `len` after the members of the chain. -/
def JVar.addLength : JVar → ℕ → ℕ
  | .first tagname value, len => memberLength tagname value.isString value.getLength len
  | .next prev tagname value, len => memberLength tagname value.isString value.getLength (prev.addLength len)
/-- `GetLength` of a value. -/
def JVal.getLength : JVal → ℕ
  | .string s => s.length
  | .int n => (itoa n).length
  | .bool b => (toSBool b).length
  | .real x => x.text.length
  | .jobj o => o.getLength
  | .array a => a.buf.length + 1
  | .object e => closeLength (e.addLength 0)
/-- `_JVar::_CopyTo`: the memory and `len` after the members of the chain. -/
def JVar.copyMembers : JVar → Mem → ℕ → ℕ → Mem × ℕ
  | .first tagname value, m, p, len => memberCopy tagname value.isString value.copyTo m p len
  | .next prev tagname value, m, p, len =>
    let (m, len) := prev.copyMembers m p len
    memberCopy tagname value.isString value.copyTo m p len
/-- `CopyTo` of a value. -/
def JVal.copyTo : JVal → Mem → ℕ → Mem × ℕ
  | .string s, m, p => copyText s m p
  | .int n, m, p => copyText (itoa n) m p
  | .bool b, m, p => copyText (toSBool b) m p
  | .real x, m, p => copyText x.text m p
  | .jobj o, m, p => o.copyTo m p
  | .array a, m, p =>
    let (m, l) := copyText a.buf m p
    (poke m (p + l) Ch.rbracket, l + 1)
  | .object e, m, p => closeObject (e.copyMembers (memcpy m p [Ch.lbrace, Ch.newline]) (p + 2) 0) (p + 2)
/-- The text in the buffer of a `_JArray`, from the opening bracket on. -/
def JArray.buf : JArray → List UInt8
  | .nil => [Ch.lbracket]
  | .append a x =>
    let buf := a.buf
    let buf := if buf.length ≠ 1 then appendChar buf Ch.comma else buf
    if x.isString then appendChar (appendExpr (appendChar buf Ch.dquote) x.getLength x.copyTo) Ch.dquote
    else appendExpr buf x.getLength x.copyTo
end

/-- `_JVar::GetLength`. -/
def JVar.getLength (e : JVar) : ℕ := closeLength (e.addLength 0)

/-- `_JVar::CopyTo`: the memory it leaves and the number it returns. -/
def JVar.copyTo (e : JVar) (m : Mem) (p : ℕ) : Mem × ℕ :=
  closeObject (e.copyMembers (memcpy m p [Ch.lbrace, Ch.newline]) (p + 2) 0) (p + 2)

/-! ### The reference serialisation -/

/-- Texts with a separator between each two of them. -/
def joinWith (sep : List UInt8) : List (List UInt8) → List UInt8
  | [] => []
  | [s] => s
  | s :: t :: l => s ++ (sep ++ joinWith sep (t :: l))

attribute [local simp] joinWith

/-- An object with the given members as texts. -/
def objectText (members : List (List UInt8)) : List UInt8 :=
  if members.isEmpty then [Ch.lbrace, Ch.rbrace]
  else [Ch.lbrace, Ch.newline] ++ joinWith [Ch.comma, Ch.newline] members ++ [Ch.newline, Ch.rbrace]

/-- `"key":value`. -/
def memberText (tagname value : List UInt8) : List UInt8 :=
  Ch.dquote :: (tagname ++ Ch.dquote :: Ch.colon :: value)

/-- A text in double quotes. -/
def quote (s : List UInt8) : List UInt8 := Ch.dquote :: (s ++ [Ch.dquote])

/-- The text of a `_JObj`. -/
def JObj.serial : JObj → List UInt8
  | .binary str => Ch.lt :: (itoaUnsigned str.length ++ Ch.slash :: (str ++ [Ch.gt]))
  | .text str => if (trimSpace str).isEmpty then [0x6e, 0x75, 0x6c, 0x6c] else trimSpace str

mutual
/-- The members of a chain that are not ghosts, as texts. -/
def JVar.memberTexts : JVar → List (List UInt8)
  | .first tagname value => if tagname.isEmpty then [] else [memberText tagname value.serial]
  | .next prev tagname value =>
    if tagname.isEmpty then prev.memberTexts else prev.memberTexts ++ [memberText tagname value.serial]
/-- The text of a value. -/
def JVal.serial : JVal → List UInt8
  | .string s => quote s
  | .int n => itoa n
  | .bool b => toSBool b
  | .real x => x.text
  | .jobj o => o.serial
  | .array a => Ch.lbracket :: (joinWith [Ch.comma] a.itemTexts ++ [Ch.rbracket])
  | .object e => objectText e.memberTexts
/-- The items of an array, as texts. -/
def JArray.itemTexts : JArray → List (List UInt8)
  | .nil => []
  | .append a x => a.itemTexts ++ [x.serial]
end

attribute [local simp] JVal.serial

/-- The text of an object expression. -/
def JVar.serial (e : JVar) : List UInt8 := objectText e.memberTexts

/-- `CopyTo` of the value writes this text: a string is put in quotes by its owner. -/
def JVal.inner : JVal → List UInt8
  | .string s => s
  | v => v.serial

mutual
/-- Every array that is written fits its buffer and every binary value has the size `CopyTo` asserts. Of a
ghost nothing is asked. -/
def JVar.Fits : JVar → Prop
  | .first tagname value => tagname ≠ [] → value.Fits
  | .next prev tagname value => prev.Fits ∧ (tagname ≠ [] → value.Fits)
/-- The same for a value. -/
def JVal.Fits : JVal → Prop
  | .jobj (.binary str) => str.length ≤ 0xffffff
  | .array a => a.Fits
  | .object e => e.Fits
  | _ => True
/-- No item was refused by `_buf +=` when it was appended: the text before it, with its separator and quote,
and the item itself stay below the capacity. -/
def JArray.Fits : JArray → Prop
  | .nil => True
  | .append a x => a.Fits ∧ x.Fits ∧
    x.inner.length + ((1 + (joinWith [Ch.comma] a.itemTexts).length + (if a.itemTexts = [] then 0 else 1) +
      (if x.isString then 1 else 0)) + 1) < bufLen
end

attribute [local simp] JVar.Fits JVal.Fits JArray.Fits

/-! ### Joining -/

theorem joinWith_concat (sep x : List UInt8) (l : List (List UInt8)) :
    joinWith sep (l ++ [x]) = if l = [] then x else joinWith sep l ++ (sep ++ x) := by
  induction l with
  | nil => rfl
  | cons s l ih =>
    cases l with
    | nil => simp
    | cons t l =>
      rw [List.cons_append, List.cons_append, joinWith, ← List.cons_append, ih]
      simp

theorem joinWith_eq_nil {sep : List UInt8} {l : List (List UInt8)} (h : ∀ s ∈ l, s ≠ []) :
    joinWith sep l = [] ↔ l = [] := by
  match l with
  | [] => simp
  | [s] => simpa using h s (by simp)
  | s :: t :: l => simpa using fun hs => absurd hs (h s (by simp))

/-! ### What `CopyTo` writes -/

/-- The function writes `text` at the place it is given and returns its length. -/
def Writes (copyTo : Mem → ℕ → Mem × ℕ) (text : List UInt8) : Prop :=
  ∀ m p, copyTo m p = (memcpy m p text, text.length)

theorem writes_copyText (s : List UInt8) : Writes (copyText s) s := fun _ _ => rfl

theorem JObj.writes (o : JObj) : Writes o.copyTo o.serial ∧ o.getLength = o.serial.length := by
  cases o with
  | binary str =>
    refine ⟨fun m p => ?_, ?_⟩
    · simp only [JObj.copyTo, JObj.serial, memcpy_cons, memcpy_append, memcpy_nil]
      rw [show p + 2 + (itoaUnsigned str.length).length = p + 1 + (itoaUnsigned str.length).length + 1 by omega,
        Nat.add_sub_cancel]
      congr 1
      simp only [List.length_append, List.length_cons, List.length_nil]
      omega
    · simp only [JObj.getLength, JObj.serial, List.length_append, List.length_cons, List.length_nil]
      omega
  | text str =>
    simp only [JObj.copyTo, JObj.serial, JObj.getLength, Writes]
    split
    · exact ⟨fun _ _ => rfl, rfl⟩
    · exact ⟨fun _ _ => rfl, rfl⟩

/-- The separator before a member when `len` bytes are written already. -/
def separator (len : ℕ) : List UInt8 := if len ≠ 0 then [Ch.comma, Ch.newline] else []

section Member

variable {tagname inner : List UInt8} {isString : Bool} {copyTo : Mem → ℕ → Mem × ℕ}

/-- A member is written behind the `len` bytes before it, with a separator if there are any. -/
theorem memberCopy_eq (hw : Writes copyTo inner) (h : tagname ≠ []) (m : Mem) (p len : ℕ) :
    memberCopy tagname isString copyTo m p len =
      (memcpy m (p + len) (separator len ++ memberText tagname (if isString then quote inner else inner)),
        len + (separator len ++ memberText tagname (if isString then quote inner else inner)).length) := by
  have h' : tagname.isEmpty = false := by simpa using h
  have hmember : ∀ m p, memcpy m p (memberText tagname (if isString then quote inner else inner)) =
      memcpy (poke (poke (memcpy (poke m p Ch.dquote) (p + 1) tagname) (p + 1 + tagname.length) Ch.dquote)
        (p + 1 + tagname.length + 1) Ch.colon) (p + 1 + tagname.length + 1 + 1)
        (if isString then quote inner else inner) := by
    intro m p
    simp only [memberText, memcpy_cons, memcpy_append]
  have hlen : (memberText tagname (if isString then quote inner else inner)).length =
      tagname.length + 3 + (if isString then inner.length + 2 else inner.length) := by
    simp only [memberText, List.length_cons, List.length_append]
    cases isString <;> simp [quote] <;> omega
  rw [memcpy_append, hmember, List.length_append, hlen]
  by_cases hl : len = 0
  · subst hl
    cases isString <;>
      simp [memberCopy, h', copyText, hw _ _, separator, quote, memcpy_cons, memcpy_append, memcpy_nil]
  · have hsep : p + (len + 2) = p + len + 2 := by omega
    cases isString <;>
      simp [memberCopy, h', copyText, hw _ _, separator, hl, quote, hsep, memcpy_cons, memcpy_append, memcpy_nil] <;>
        omega

theorem memberLength_eq (h : tagname ≠ []) (len : ℕ) :
    memberLength tagname isString inner.length len =
      len + (separator len ++ memberText tagname (if isString then quote inner else inner)).length := by
  have h' : tagname.isEmpty = false := by simpa using h
  simp only [memberLength, h', separator, memberText, quote]
  cases isString <;> by_cases hl : len = 0 <;> simp [hl] <;> omega

end Member

theorem JVal.serial_eq (v : JVal) : v.serial = if v.isString then quote v.inner else v.inner := by
  cases v <;> simp [JVal.isString, JVal.inner]

theorem JVal.serial_ne_nil : ∀ v : JVal, v.serial ≠ []
  | .string s => by simp [quote]
  | .int n => by
    rw [JVal.serial]
    rcases lt_or_ge n 0 with h | h
    · simp [itoa_of_neg h]
    · rw [itoa_of_nonneg h]
      exact itoaUnsigned_ne_nil _
  | .bool b => by cases b <;> simp [toSBool]
  | .real x => by simpa using x.ne_nil
  | .jobj (.binary str) => by simp [JObj.serial]
  | .jobj (.text str) => by
    rw [JVal.serial, JObj.serial]
    split
    · simp
    · rename_i h
      simpa using h
  | .array a => by simp
  | .object e => by
    rw [JVal.serial, objectText]
    split <;> simp

/-- An object is closed behind its members, or behind the opening brace when there are none. -/
theorem closeObject_eq (m : Mem) (p : ℕ) {l : List (List UInt8)} (hl : ∀ s ∈ l, s ≠ []) :
    closeObject (memcpy (memcpy m p [Ch.lbrace, Ch.newline]) (p + 2) (joinWith [Ch.comma, Ch.newline] l),
      (joinWith [Ch.comma, Ch.newline] l).length) (p + 2) = (memcpy m p (objectText l), (objectText l).length) := by
  rw [closeObject, objectText]
  by_cases h0 : l = []
  · subst h0
    simp [memcpy_cons, memcpy_nil, poke]
  · have h1 : (joinWith [Ch.comma, Ch.newline] l).length ≠ 0 := by
      rw [Ne, List.length_eq_zero_iff, joinWith_eq_nil hl]
      exact h0
    have h2 : l.isEmpty = false := by simpa using h0
    rw [if_pos h1, h2]
    simp only [Bool.false_eq_true, if_false, memcpy_append, List.length_append, List.length_cons, List.length_nil]
    rw [show p + (0 + 1 + 1 + (joinWith [Ch.comma, Ch.newline] l).length) =
      p + 2 + (joinWith [Ch.comma, Ch.newline] l).length by omega]
    refine Prod.ext rfl ?_
    simp only
    omega

theorem closeLength_eq {l : List (List UInt8)} (hl : ∀ s ∈ l, s ≠ []) :
    closeLength (joinWith [Ch.comma, Ch.newline] l).length = (objectText l).length := by
  calc closeLength (joinWith [Ch.comma, Ch.newline] l).length
      = (closeObject (memcpy (memcpy (fun _ => 0) 0 [Ch.lbrace, Ch.newline]) (0 + 2)
          (joinWith [Ch.comma, Ch.newline] l), (joinWith [Ch.comma, Ch.newline] l).length) (0 + 2)).2 := by
        rw [closeObject, closeLength]
        split <;> rfl
    _ = (objectText l).length := by rw [closeObject_eq _ _ hl]

theorem JVar.memberTexts_ne_nil (e : JVar) : ∀ s ∈ e.memberTexts, s ≠ [] := by
  match e with
  | .first tagname value =>
    rw [JVar.memberTexts]
    split <;> simp [memberText]
  | .next prev tagname value =>
    rw [JVar.memberTexts]
    split
    · exact prev.memberTexts_ne_nil
    · intro s hs
      rcases List.mem_append.mp hs with hs | hs
      · exact prev.memberTexts_ne_nil s hs
      · rw [List.mem_singleton.mp hs]
        simp [memberText]

theorem JArray.itemTexts_ne_nil (a : JArray) : ∀ s ∈ a.itemTexts, s ≠ [] := by
  match a with
  | .nil => simp [JArray.itemTexts]
  | .append a x =>
    rw [JArray.itemTexts]
    intro s hs
    rcases List.mem_append.mp hs with hs | hs
    · exact a.itemTexts_ne_nil s hs
    · rw [List.mem_singleton.mp hs]
      exact x.serial_ne_nil

theorem copyBehind_eq {buf text : List UInt8} {copyTo : Mem → ℕ → Mem × ℕ} (hw : Writes copyTo text) :
    copyBehind buf text.length copyTo = buf ++ text := by
  rw [copyBehind, hw]
  have hold : Holds (memcpy (ofBytes 0 buf) buf.length text) 0 (buf ++ text) := by
    rw [holds_append, Nat.zero_add]
    exact ⟨(holds_ofBytes 0 buf).memcpy (by omega), holds_memcpy _ _ _⟩
  rw [Nat.add_comm, ← List.length_append]
  exact hold.read_eq

/-- An expression that fits is put behind the text of the buffer. -/
theorem appendExpr_eq {buf text : List UInt8} {copyTo : Mem → ℕ → Mem × ℕ} (hw : Writes copyTo text)
    (h : text.length + (buf.length + 1) < bufLen) : appendExpr buf text.length copyTo = buf ++ text := by
  rw [appendExpr, if_pos h, copyBehind_eq hw]

theorem appendChar_eq {buf : List UInt8} {x : UInt8} (h : buf.length + 1 ≤ bufLen) :
    appendChar buf x = buf ++ [x] := if_pos h

mutual
/-- The members of a chain are written joined by separators, and counted the same. -/
theorem JVar.copyMembers_eq (e : JVar) (hf : e.Fits) :
    (∀ m p, e.copyMembers m p 0 = (memcpy m p (joinWith [Ch.comma, Ch.newline] e.memberTexts),
      (joinWith [Ch.comma, Ch.newline] e.memberTexts).length)) ∧
    e.addLength 0 = (joinWith [Ch.comma, Ch.newline] e.memberTexts).length := by
  match e with
  | .first tagname value =>
    rw [JVar.Fits] at hf
    simp only [JVar.copyMembers, JVar.addLength, JVar.memberTexts]
    by_cases h0 : tagname = []
    · simp [h0, memberCopy, memberLength, memcpy_nil]
    · have ⟨hw, hlen⟩ := value.writes (hf h0)
      rw [hlen]
      simp only [memberCopy_eq hw h0, memberLength_eq h0, ← value.serial_eq, List.isEmpty_iff, h0, if_false, joinWith]
      simp [separator]
  | .next prev tagname value =>
    rw [JVar.Fits] at hf
    have ⟨hprev, hplen⟩ := prev.copyMembers_eq hf.1
    simp only [JVar.copyMembers, JVar.addLength, JVar.memberTexts, hprev, hplen]
    by_cases h0 : tagname = []
    · simp [h0, memberCopy, memberLength]
    · have ⟨hw, hlen⟩ := value.writes (hf.2 h0)
      have hsep : separator (joinWith [Ch.comma, Ch.newline] prev.memberTexts).length =
          if prev.memberTexts = [] then [] else [Ch.comma, Ch.newline] := by
        rw [separator]
        simp only [ne_eq, List.length_eq_zero_iff, joinWith_eq_nil prev.memberTexts_ne_nil, ite_not]
      rw [hlen]
      simp only [memberCopy_eq hw h0, memberLength_eq h0, ← value.serial_eq, List.isEmpty_iff, h0, if_false,
        joinWith_concat, hsep]
      by_cases hp : prev.memberTexts = []
      · simp [hp, memcpy_nil]
      · simp [hp, memcpy_append]
/-- A value writes its text, without the quotes of a string, and counts it the same. -/
theorem JVal.writes (v : JVal) (hf : v.Fits) : Writes v.copyTo v.inner ∧ v.getLength = v.inner.length := by
  match v with
  | .string s => exact ⟨writes_copyText s, rfl⟩
  | .int n => exact ⟨writes_copyText _, rfl⟩
  | .bool b => exact ⟨writes_copyText _, rfl⟩
  | .real x => exact ⟨writes_copyText _, rfl⟩
  | .jobj o =>
    have ⟨h1, h2⟩ := o.writes
    exact ⟨h1, h2⟩
  | .array a =>
    rw [JVal.Fits] at hf
    have hbuf := a.buf_eq hf
    simp only [Writes, JVal.copyTo, JVal.getLength, JVal.inner, JVal.serial, hbuf, copyText]
    refine ⟨fun m p => ?_, ?_⟩
    · rw [show Ch.lbracket :: (joinWith [Ch.comma] a.itemTexts ++ [Ch.rbracket]) =
        (Ch.lbracket :: joinWith [Ch.comma] a.itemTexts) ++ [Ch.rbracket] from rfl, memcpy_append, List.length_append]
      rfl
    · simp
  | .object e =>
    rw [JVal.Fits] at hf
    have ⟨h1, h2⟩ := e.copyMembers_eq hf
    simp only [Writes, JVal.copyTo, JVal.getLength, JVal.inner, JVal.serial, h1, h2]
    exact ⟨fun m p => closeObject_eq m p e.memberTexts_ne_nil, closeLength_eq e.memberTexts_ne_nil⟩
/-- The buffer of an array that fits holds the items with commas between them. -/
theorem JArray.buf_eq (a : JArray) (hf : a.Fits) : a.buf = Ch.lbracket :: joinWith [Ch.comma] a.itemTexts := by
  match a with
  | .nil => simp [JArray.buf, JArray.itemTexts]
  | .append a x =>
    rw [JArray.Fits] at hf
    obtain ⟨ha, hx, hlen⟩ := hf
    have hbuf := a.buf_eq ha
    have ⟨hw, hxlen⟩ := x.writes hx
    -- the text before the item, with its separator
    have hsep : (if a.buf.length ≠ 1 then appendChar a.buf Ch.comma else a.buf) =
        Ch.lbracket :: (joinWith [Ch.comma] a.itemTexts ++ if a.itemTexts = [] then [] else [Ch.comma]) := by
      have h1 : a.buf.length ≠ 1 ↔ a.itemTexts ≠ [] := by
        rw [hbuf, List.length_cons, Ne, Nat.add_eq_right, List.length_eq_zero_iff,
          joinWith_eq_nil a.itemTexts_ne_nil]
      by_cases h0 : a.itemTexts = []
      · rw [if_neg (by simpa [h1] using h0), hbuf, if_pos h0]
        simp
      · rw [if_neg h0] at hlen
        rw [if_pos (h1.mpr h0), if_neg h0, appendChar_eq (by rw [hbuf, List.length_cons]; omega), hbuf]
        rfl
    have hseplen : (Ch.lbracket :: (joinWith [Ch.comma] a.itemTexts ++
        if a.itemTexts = [] then [] else [Ch.comma])).length =
          1 + (joinWith [Ch.comma] a.itemTexts).length + (if a.itemTexts = [] then 0 else 1) := by
      by_cases h0 : a.itemTexts = [] <;> simp [h0] <;> omega
    have hjoin : Ch.lbracket :: joinWith [Ch.comma] (a.itemTexts ++ [x.serial]) =
        (Ch.lbracket :: (joinWith [Ch.comma] a.itemTexts ++ if a.itemTexts = [] then [] else [Ch.comma])) ++
          x.serial := by
      rw [joinWith_concat]
      by_cases h0 : a.itemTexts = [] <;> simp [h0]
    simp only [JArray.buf, JArray.itemTexts, hsep, hjoin, hxlen]
    rw [x.serial_eq]
    generalize Ch.lbracket :: (joinWith [Ch.comma] a.itemTexts ++
      if a.itemTexts = [] then [] else [Ch.comma]) = before at hseplen
    rw [← hseplen] at hlen
    cases hs : x.isString with
    | true =>
      simp only [hs, if_true] at hlen
      simp only [if_true]
      rw [appendChar_eq (show before.length + 1 ≤ bufLen by omega),
        appendExpr_eq hw (by simp only [List.length_append, List.length_cons, List.length_nil]; omega),
        appendChar_eq (by simp only [List.length_append, List.length_cons, List.length_nil]; omega)]
      simp [quote]
    | false =>
      simp only [hs, Bool.false_eq_true, if_false] at hlen
      simp only [Bool.false_eq_true, if_false]
      rw [appendExpr_eq hw (by omega)]
end

theorem JVar.copyTo_eq_memcpy {e : JVar} (hf : e.Fits) (m : Mem) (p : ℕ) :
    e.copyTo m p = (memcpy m p e.serial, e.serial.length) := by
  rw [JVar.copyTo, (e.copyMembers_eq hf).1]
  exact closeObject_eq m p e.memberTexts_ne_nil

theorem JVar.getLength_eq {e : JVar} (hf : e.Fits) : e.getLength = e.serial.length := by
  rw [JVar.getLength, (e.copyMembers_eq hf).2]
  exact closeLength_eq e.memberTexts_ne_nil

/-- `J_IF(false, J(x)=..), J(a)=JA(1,"b"), J_IF(false, J(y)=..), J(c)=(J_IF(false, J(z)=..))`: a ghost in
front, one in the middle and one alone in a nested object, whose values are not there. -/
def ghostly : JVar :=
  .next (.next (.next (.first [] (.string [])) [0x61]
    (.array (.append (.append .nil (.int 1)) (.string [0x62])))) [] (.string []))
    [0x63] (.object (.first [] (.string [])))

end Cpcf.Json
