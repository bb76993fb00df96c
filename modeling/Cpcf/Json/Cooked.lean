import Cpcf.Json.Items

/-!
`JsonArray::GetNextObject` and `JsonArray::GetSize`.

`GetNextObject` takes the quotes and the header of a binary value off the item it returns, and the next call has
nothing but that item to find its place. It recognizes a string in double quotes and steps over the closing quote.
Behind a string in single quotes or a binary value it stands before the closing quote or bracket, finds no comma
there and ends the iteration. `GetNextObjectRaw` goes wrong only where the scanner does.
-/

namespace Cpcf.Json

open Cpcf.Rt Cpcf.Lib.Memory

/-! ### The source -/

/-- `GetNextObject`. -/
def getNextObject (m : Mem) (doc obj : StringRef) : Bool × StringRef :=
  match getNextObjectRaw m doc obj with
  | (false, obj) => (false, obj)
  | (true, obj) =>
    let (p, tail) := cookRawValue m obj.p obj.tail
    (true, .ofRange p tail)

/-- `while(next(obj)) ...`: the items seen, `none` when `n` calls are not enough. -/
def visited (next : StringRef → Bool × StringRef) : ℕ → StringRef → Option (List StringRef)
  | 0, _ => none
  | n + 1, obj =>
    match next obj with
    | (false, _) => some []
    | (true, obj) => (visited next n obj).map (obj :: ·)

/-- The loop of `GetSize`. -/
def getSizeLoop (m : Mem) (doc : StringRef) : ℕ → StringRef → ℕ → Option ℕ
  | 0, _, _ => none
  | n + 1, obj, c =>
    match getNextObjectRaw m doc obj with
    | (false, _) => some c
    | (true, obj) => getSizeLoop m doc n obj (c + 1)

/-- `GetSize`; the loop is over after as many turns as the document has bytes. -/
def getSize (m : Mem) (doc : StringRef) : Option ℕ := getSizeLoop m doc (doc.len + 1) .null 0

/-! ### Texts of arrays -/

/-- The text of an array, with the whitespace around it. -/
structure ArrayText where
  pre : Ws
  body : Ws ⊕ Entries .array
  post : Ws

/-- The array. -/
def ArrayText.value (a : ArrayText) : Value := a.body.elim (.empty .array) (.node .array)

def ArrayText.text (a : ArrayText) : List UInt8 := a.pre.text ++ (a.value.text ++ a.post.text)

/-- Its elements. -/
def ArrayText.elements (a : ArrayText) : List Value := a.body.elim (fun _ => []) Entries.values

/-- The reference stands at the text. -/
def TextAt (m : Mem) (ref : StringRef) (t : List UInt8) : Prop := 0 < ref.p ∧ ref.len = t.length ∧ Holds m ref.p t

theorem TextAt.isEmpty {m : Mem} {ref : StringRef} {t : List UInt8} (h : TextAt m ref t) (h0 : t ≠ []) :
    ref.isEmpty = false :=
  StringRef.isEmpty_of_pos h.1 (h.2.1 ▸ List.length_pos_of_ne_nil h0)

/-- The item is the element, or its text without quotes or header. -/
def CookedAt (m : Mem) (ref : StringRef) (v : Value) : Prop := TextAt m ref v.cooked

/-- The iteration from a fresh item ends and sees these values. -/
def Visits (next : StringRef → Bool × StringRef) (R : StringRef → Value → Prop) (n : ℕ) (obj : StringRef)
    (vs : List Value) : Prop :=
  ∃ refs, visited next n obj = some refs ∧ List.Forall₂ R refs vs

/-- The place of the next item is found from the item without quotes. -/
def Value.resumes : Value → Bool
  | .str s => s.quote == .double
  | .bin _ => false
  | _ => true

/-! ### Iterations -/

section Visits

variable {next : StringRef → Bool × StringRef} {R : StringRef → Value → Prop} {n : ℕ} {obj : StringRef}

theorem visits_nil : Visits next R (n + 1) obj [] ↔ (next obj).1 = false := by
  unfold Visits visited
  rcases next obj with ⟨b, obj'⟩
  cases b with
  | false => simp
  | true =>
    simp only [List.forall₂_nil_right_iff, exists_eq_right, Option.map_eq_some_iff, reduceCtorEq, and_false,
      exists_false]

theorem visits_cons {v : Value} {vs : List Value} :
    Visits next R (n + 1) obj (v :: vs) ↔ ∃ ref, next obj = (true, ref) ∧ R ref v ∧ Visits next R n ref vs := by
  unfold Visits
  rw [visited]
  constructor
  · rintro ⟨refs, hrefs, hall⟩
    obtain ⟨ref, refs, hR, hrest, rfl⟩ := List.forall₂_cons_right_iff.mp hall
    rcases hnext : next obj with ⟨_ | _, obj'⟩
    · rw [hnext] at hrefs
      simp at hrefs
    · rw [hnext] at hrefs
      obtain ⟨refs', hrefs', heq⟩ := Option.map_eq_some_iff.mp hrefs
      obtain ⟨rfl, rfl⟩ := List.cons.inj heq
      exact ⟨obj', rfl, hR, refs', hrefs', hrest⟩
  · rintro ⟨ref, hnext, hR, refs, hrefs, hall⟩
    rw [hnext]
    exact ⟨ref :: refs, by simp [hrefs], List.Forall₂.cons hR hall⟩

end Visits

/-! ### One item -/

section Item

variable {m : Mem} {p x : ℕ} {doc obj : StringRef}

/-- No value starts with whitespace or a closing bracket. -/
theorem Value.not_skipped (v : Value) (h : Holds m p v.text) : isSkipped (m p) = false ∧ m p ≠ Ch.rbracket := by
  cases v with
  | str s =>
    rw [show m p = s.quote.char from h.1]
    cases s.quote <;> decide
  | lit w =>
    obtain ⟨b, t, hw, hb⟩ := w.exists_cons
    simp only [Value.text, hw] at h
    rw [h.1]
    exact ⟨(isBare_facts b hb).1, (isBare_facts b hb).2.2.2.2.2.2.1⟩
  | bin b =>
    rw [show m p = Ch.lt from h.1]
    decide
  | empty k ws =>
    rw [show m p = k.opening from h.1]
    cases k <;> decide
  | node k es =>
    rw [show m p = k.opening from h.1]
    cases k <;> decide

/-- One call, from a place behind the bracket or a comma: it finds the element exactly where the scanner finds the end
of the element. -/
theorem getNextObjectRaw_iff {pre : Ws} {v : Value} (hdoc : doc.isEmpty = false)
    (hnext : nextItemAt m doc obj = some x) (h : Holds m x (pre.text ++ v.text))
    (he : x + (pre.text.length + v.text.length) < doc.tail) (hx : 0 < x)
    (hb : isDelimiter (m (x + pre.text.length + v.text.length)) = true) (ref : StringRef) :
    getNextObjectRaw m doc obj = (true, ref) ∧ TextAt m ref v.text ↔
      v.Clean ∧ ref = ⟨x + pre.text.length, v.text.length⟩ := by
  obtain ⟨h1, h2⟩ := holds_append.mp h
  obtain ⟨hfirst, hopen⟩ := v.not_skipped h2
  have hskip : skipWhitespace m x doc.tail = x + pre.text.length := skipWhitespace_ws h1 (by omega) hfirst
  have hseek := seek_value (e := doc.tail) v h2 (by omega) hb
  have hpos := List.length_pos_of_ne_nil v.text_ne_nil
  rw [getNextObjectRaw, hdoc, hnext]
  simp only [Bool.false_eq_true, if_false, hskip, if_neg hopen]
  constructor
  · rintro ⟨hcall, -, hlen, -⟩
    cases hs : seekJsonObjectClosure m (x + pre.text.length) doc.tail with
    | none =>
      rw [hs] at hcall
      cases hcall
    | some tail =>
      rw [hs] at hcall
      obtain rfl := (Prod.mk.inj hcall).2
      simp only [StringRef.ofRange] at hlen
      obtain rfl : tail = x + pre.text.length + v.text.length := by omega
      refine ⟨hseek.mp hs, ?_⟩
      rw [StringRef.ofRange, Nat.add_sub_cancel_left]
  · rintro ⟨hclean, rfl⟩
    rw [hseek.mpr hclean]
    simp only [StringRef.ofRange, Nat.add_sub_cancel_left, true_and]
    exact ⟨Nat.add_pos_left hx _, rfl, h2⟩

/-- How many bytes are taken off the front of a value. -/
def Value.header : Value → ℕ
  | .str _ => 1
  | .bin p => (itoaUnsigned p.bytes.length).length + 2
  | _ => 0

theorem Payload.length_text (b : Payload) :
    b.text.length = (itoaUnsigned b.bytes.length).length + 2 + b.bytes.length + 1 := by
  simp only [Payload.text, List.length_cons, List.length_append, List.length_nil]
  omega

/-- `_cook_raw_value` takes off the quotes, or the header and the bracket of a binary value. -/
theorem cookRawValue_at (v : Value) (h : Holds m p v.text) :
    cookRawValue m p (p + v.text.length) = (p + v.header, p + v.header + v.cooked.length) ∧
      Holds m (p + v.header) v.cooked := by
  cases v with
  | str s => exact ⟨cookRawValue_value rfl h, Value.holds_cooked rfl h⟩
  | lit w => exact ⟨cookRawValue_value rfl h, h⟩
  | bin b =>
    have hlt : m p = Ch.lt := h.1
    have hdigits : Holds m (p + 1) (itoaUnsigned b.bytes.length ++ Ch.slash :: (b.bytes ++ [Ch.gt])) := h.2
    obtain ⟨d, ds, hd⟩ := List.exists_cons_of_ne_nil (itoaUnsigned_ne_nil b.bytes.length)
    have hlen := b.length_text
    have hdig : ∀ c ∈ itoaUnsigned b.bytes.length, isDigit c = true := fun c hc => isDigit_of_mem_itoaUnsigned hc
    have hcooked : Holds m (p + (Value.bin b).header) b.bytes := by
      have h2 := (holds_append.mp hdigits).2.2
      rw [show p + 1 + (itoaUnsigned b.bytes.length).length + 1 = p + (Value.bin b).header by
        rw [Value.header]; omega] at h2
      exact (holds_append.mp h2).1
    rw [hd] at hdigits hdig hlen
    simp only [List.length_cons] at hlen
    obtain ⟨h1, h2⟩ := holds_append.mp hdigits.2
    have hseek : seekChar m (p + 2) (p + (Value.bin b).text.length) Ch.slash = p + 2 + ds.length := by
      apply scanWhile_eq h1
      · intro c hc
        have hc' := isDigit_iff.mp (hdig c (List.mem_cons_of_mem _ hc))
        rw [bne_iff_ne]
        rintro rfl
        exact absurd hc'.1 (by decide)
      · rw [Value.text, hlen]
        omega
      · intro _
        rw [show m (p + 2 + ds.length) = Ch.slash from h2.1]
        rfl
    refine ⟨?_, hcooked⟩
    rw [cookRawValue, hlt, if_neg (by decide), if_pos rfl, hseek]
    simp only [Value.header, Value.cooked, Value.text, hd, hlen, List.length_cons, Prod.mk.injEq]
    omega
  | empty k ws => exact ⟨cookRawValue_value rfl h, h⟩
  | node k es =>
    refine ⟨?_, h⟩
    rw [cookRawValue, show m p = k.opening from h.1]
    cases k with
    | array => rfl
    | object => rfl

/-- The item that is left behind by `GetNextObject` at an element. -/
def cookedRef (y : ℕ) (v : Value) : StringRef := ⟨y + v.header, v.cooked.length⟩

theorem cookedAt_cookedRef {v : Value} {y : ℕ} (hy : 0 < y) (h : Holds m y v.text) : CookedAt m (cookedRef y v) v :=
  ⟨Nat.add_pos_left hy _, rfl, (cookRawValue_at v h).2⟩

theorem getNextObject_eq {v : Value} {y : ℕ} (h : Holds m y v.text)
    (hcall : getNextObjectRaw m doc obj = (true, ⟨y, v.text.length⟩)) :
    getNextObject m doc obj = (true, cookedRef y v) := by
  rw [getNextObject, hcall]
  simp only [StringRef.tail, (cookRawValue_at v h).1, StringRef.ofRange, Nat.add_sub_cancel_left]
  rfl

/-- An item that is not followed by whitespace or a comma is the last one. -/
theorem nextItemAt_stuck {b : UInt8} (hin : doc.p ≤ obj.tail ∧ obj.tail ≤ doc.tail) (hb : m obj.tail = b)
    (hq : b ≠ Ch.dquote) (hs : isSkipped b = false) (hc : b ≠ Ch.comma) : nextItemAt m doc obj = none := by
  have hskip : skipWhitespace m obj.tail doc.tail = obj.tail :=
    scanWhile_eq (show Holds m obj.tail [] from trivial) (by simp) (Nat.zero_le _) (fun _ => by
      rw [List.length_nil, Nat.add_zero, hb]
      exact hs)
  have hcur : ¬ (m obj.tail = Ch.dquote ∧ m (obj.p - 1) = Ch.dquote) := fun h => hq (hb.symm.trans h.1)
  simp only [nextItemAt, if_pos hin, if_neg hcur, hskip]
  exact if_neg (fun h => hc (hb.symm.trans h))

/-- Behind a string in double quotes, at its closing quote, and behind that quote. -/
theorem nextItemAt_dquote {y n : ℕ} (hin : doc.p ≤ y ∧ y + n + 2 ≤ doc.tail) (h1 : m y = Ch.dquote)
    (h2 : m (y + 1 + n) = Ch.dquote) (h3 : m (y + n + 2) ≠ Ch.dquote) :
    nextItemAt m doc ⟨y + 1, n⟩ = nextItemAt m doc ⟨y, n + 2⟩ := by
  have hcooked : doc.p ≤ (StringRef.mk (y + 1) n).tail ∧ (StringRef.mk (y + 1) n).tail ≤ doc.tail := by
    rw [StringRef.tail] at hin ⊢
    simp only [StringRef.tail]
    omega
  have hraw : doc.p ≤ (StringRef.mk y (n + 2)).tail ∧ (StringRef.mk y (n + 2)).tail ≤ doc.tail := by
    rw [StringRef.tail] at hin ⊢
    simp only [StringRef.tail]
    omega
  have hq1 : m (StringRef.mk (y + 1) n).tail = Ch.dquote ∧ m (y + 1 - 1) = Ch.dquote := ⟨h2, h1⟩
  have hq2 : ¬ (m (StringRef.mk y (n + 2)).tail = Ch.dquote ∧ m (y - 1) = Ch.dquote) := fun h => h3 h.1
  have htail : (StringRef.mk (y + 1) n).tail + 1 = (StringRef.mk y (n + 2)).tail := by
    simp only [StringRef.tail]
    omega
  simp only [nextItemAt, if_pos hcooked, if_pos hraw, if_pos hq1, if_neg hq2, htail]

/-- The next call finds its place from the item that is left behind, or ends the iteration there. -/
theorem nextItemAt_cookedRef {v : Value} {y : ℕ} {post : Ws} {b : UInt8} (hy : doc.p ≤ y) (h : Holds m y v.text)
    (he : y + v.text.length + post.text.length < doc.tail) (hpost : Holds m (y + v.text.length) (post.text ++ [b]))
    (hb : isDelimiter b = true) (hs : isSkipped b = false) :
    nextItemAt m doc (cookedRef y v) =
      if v.resumes = true ∧ b = Ch.comma then some (y + v.text.length + post.text.length + 1) else none := by
  have hraw := nextItemAt_item doc hy he hpost hb hs
  cases v with
  | str s =>
    have hclose : m (y + 1 + s.body.length) = s.quote.char := (holds_append.mp h.2).2.1
    have hlen : (Value.str s).text.length = s.body.length + 2 := s.length_text
    have hin : doc.p ≤ y ∧ y + s.body.length + 2 ≤ doc.tail := by omega
    rcases hq : s.quote with _ | _
    · rw [hq] at hclose
      have h1 : m y = Ch.dquote := by
        rw [show m y = s.quote.char from h.1, hq]
        rfl
      have h3 : m (y + s.body.length + 2) ≠ Ch.dquote := by
        have := (isDelimiter_facts _ (isDelimiter_after hpost hb)).2.1
        rwa [hlen] at this
      have heq : nextItemAt m doc (cookedRef y (.str s)) = nextItemAt m doc ⟨y, s.body.length + 2⟩ :=
        nextItemAt_dquote hin h1 hclose h3
      have hres : (Value.str s).resumes = true := by
        rw [Value.resumes, hq]
        rfl
      rw [heq, ← hlen, hraw]
      simp only [hres, true_and]
    · rw [hq] at hclose
      have htail : (cookedRef y (.str s)).tail = y + 1 + s.body.length := rfl
      rw [if_neg (by simp [Value.resumes, hq])]
      exact nextItemAt_stuck (b := Ch.squote) (by rw [htail]; omega) hclose (by decide) (by decide) (by decide)
  | bin b =>
    have hlen : (Value.bin b).text.length = (Value.bin b).header + b.bytes.length + 1 := b.length_text
    have hclose : m (y + (Value.bin b).header + b.bytes.length) = Ch.gt := by
      have hend := (holds_append.mp (holds_append.mp h.2).2.2).2.1
      rwa [show y + 1 + (itoaUnsigned b.bytes.length).length + 1 = y + (Value.bin b).header by
        rw [Value.header]; omega] at hend
    have htail : (cookedRef y (.bin b)).tail = y + (Value.bin b).header + b.bytes.length := rfl
    rw [if_neg (by simp [Value.resumes])]
    exact nextItemAt_stuck (b := Ch.gt) (by rw [htail]; omega) hclose (by decide) (by decide) (by decide)
  | lit w | empty k ws | node k es =>
    simp only [Value.resumes, true_and]
    exact hraw

end Item

/-! ### All items -/

theorem Entries.values_ne_nil : ∀ {k : Kind} (es : Entries k), es.values ≠ []
  | _, .one _ _ _ => List.cons_ne_nil _ _
  | _, .cons _ _ _ _ => List.cons_ne_nil _ _

section Entries

variable {m : Mem} {doc : StringRef}

/-- The last element, and what the next call finds behind it. -/
theorem last_element {x : ℕ} {pre : Ws} {v : Value} {post : Ws}
    (h : Holds m x ((Entries.one (.item pre) v post).text ++ [Ch.rbracket]))
    (he : x + (Entries.one (.item pre) v post).text.length < doc.tail) (hx : doc.p < x) :
    Holds m x (pre.text ++ v.text) ∧ isDelimiter (m (x + pre.text.length + v.text.length)) = true ∧
      x + (pre.text.length + v.text.length) < doc.tail ∧
      nextItemAt m doc ⟨x + pre.text.length, v.text.length⟩ = none ∧
      nextItemAt m doc (cookedRef (x + pre.text.length) v) = none := by
  simp only [Entries.text, Head.text, List.length_append] at h he
  rw [← List.append_assoc, List.append_assoc, holds_append, List.length_append, ← Nat.add_assoc] at h
  obtain ⟨h1, h2⟩ := h
  have hraw := nextItemAt_item doc (by omega) (by omega) h2 (by decide) (by decide)
  have hcooked := @nextItemAt_cookedRef m doc v _ _ _ (by omega) (holds_append.mp h1).2 (by omega) h2 (by decide)
    (by decide)
  rw [if_neg (by decide)] at hraw
  rw [if_neg (fun hc => absurd hc.2 (by decide))] at hcooked
  exact ⟨h1, isDelimiter_after h2 (by decide), by omega, hraw, hcooked⟩

/-- An element before the last, and what the next call finds behind it. -/
theorem next_element {x y : ℕ} {pre : Ws} {v : Value} {post : Ws} {rest : Entries .array}
    (h : Holds m x ((Entries.cons (.item pre) v post rest).text ++ [Ch.rbracket]))
    (he : x + (Entries.cons (.item pre) v post rest).text.length < doc.tail) (hx : doc.p < x)
    (hy : y = x + pre.text.length + v.text.length + post.text.length + 1) :
    Holds m x (pre.text ++ v.text) ∧ isDelimiter (m (x + pre.text.length + v.text.length)) = true ∧
      x + (pre.text.length + v.text.length) < doc.tail ∧ doc.p < y ∧
      nextItemAt m doc ⟨x + pre.text.length, v.text.length⟩ = some y ∧
      nextItemAt m doc (cookedRef (x + pre.text.length) v) = (if v.resumes = true then some y else none) ∧
      Holds m y (rest.text ++ [Ch.rbracket]) ∧ y + rest.text.length < doc.tail := by
  subst hy
  simp only [Entries.text, Head.text, List.length_append, List.length_cons] at h he
  rw [← List.append_assoc, List.append_assoc, holds_append, List.length_append, ← Nat.add_assoc, List.append_assoc,
    List.cons_append] at h
  obtain ⟨h1, h2⟩ := h
  have hdelim := isDelimiter_after h2 (by decide)
  rw [holds_append, holds_cons] at h2
  have h3 : Holds m (x + pre.text.length + v.text.length) (post.text ++ [Ch.comma]) :=
    holds_append.mpr ⟨h2.1, h2.2.1, trivial⟩
  have hraw := nextItemAt_item doc (by omega) (by omega) h3 (by decide) (by decide)
  have hcooked := @nextItemAt_cookedRef m doc v _ _ _ (by omega) (holds_append.mp h1).2 (by omega) h3 (by decide)
    (by decide)
  rw [if_pos rfl] at hraw
  simp only [and_true] at hcooked
  exact ⟨h1, hdelim, by omega, by omega, hraw, hcooked, h2.2.2, by omega⟩

/-- The iteration over the raw items sees the elements exactly where the scanner finds the end of each. -/
theorem visits_raw (hdoc : doc.isEmpty = false) : ∀ (es : Entries .array) {x n : ℕ} {obj : StringRef},
    Holds m x (es.text ++ [Ch.rbracket]) → x + es.text.length < doc.tail → doc.p < x →
    nextItemAt m doc obj = some x → es.values.length < n →
    (Visits (getNextObjectRaw m doc) (At m) n obj es.values ↔ ∀ v ∈ es.values, v.Clean)
  | .one (.item pre) v post, x, n, obj, h, he, hx, hnext, hlen => by
    obtain ⟨n, rfl⟩ : ∃ k, n = k + 2 := ⟨n - 2, by simp [Entries.values] at hlen; omega⟩
    obtain ⟨h1, hdelim, hlt, hend, -⟩ := last_element h he hx
    have hcall := getNextObjectRaw_iff hdoc hnext h1 hlt (by omega) hdelim
    have hstop : (getNextObjectRaw m doc ⟨x + pre.text.length, v.text.length⟩).1 = false := by
      rw [getNextObjectRaw, hdoc, hend]
      rfl
    rw [Entries.values, visits_cons, List.forall_mem_singleton]
    constructor
    · rintro ⟨ref, hcall', hat, -⟩
      exact ((hcall ref).mp ⟨hcall', hat⟩).1
    · intro hclean
      obtain ⟨hcall', hat⟩ := (hcall _).mpr ⟨hclean, rfl⟩
      exact ⟨_, hcall', hat, visits_nil.mpr hstop⟩
  | .cons (.item pre) v post rest, x, n, obj, h, he, hx, hnext, hlen => by
    obtain ⟨n, rfl⟩ : ∃ k, n = k + 1 := ⟨n - 1, by omega⟩
    obtain ⟨h1, hdelim, hlt, hy, hnext', -, hrest, hlt'⟩ := next_element h he hx rfl
    have hcall := getNextObjectRaw_iff hdoc hnext h1 hlt (by omega) hdelim
    simp only [Entries.values, List.length_cons] at hlen
    have ih := visits_raw hdoc rest (n := n) hrest hlt' hy hnext' (by omega)
    rw [Entries.values, visits_cons, List.forall_mem_cons, ← ih]
    constructor
    · rintro ⟨ref, hcall', hat, hvisits⟩
      obtain ⟨hclean, rfl⟩ := (hcall ref).mp ⟨hcall', hat⟩
      exact ⟨hclean, hvisits⟩
    · rintro ⟨hclean, hvisits⟩
      obtain ⟨hcall', hat⟩ := (hcall _).mpr ⟨hclean, rfl⟩
      exact ⟨_, hcall', hat, hvisits⟩

/-- Where the raw items are the elements, the iteration over the cooked ones sees all of them exactly where it finds
its place behind each but the last. -/
theorem visits_cooked (hdoc : doc.isEmpty = false) : ∀ (es : Entries .array) {x n : ℕ} {obj : StringRef},
    Holds m x (es.text ++ [Ch.rbracket]) → x + es.text.length < doc.tail → doc.p < x →
    nextItemAt m doc obj = some x → es.values.length < n → (∀ v ∈ es.values, v.Clean) →
    (Visits (getNextObject m doc) (CookedAt m) n obj es.values ↔ ∀ v ∈ es.values.dropLast, v.resumes = true)
  | .one (.item pre) v post, x, n, obj, h, he, hx, hnext, hlen, hclean => by
    obtain ⟨n, rfl⟩ : ∃ k, n = k + 2 := ⟨n - 2, by simp [Entries.values] at hlen; omega⟩
    obtain ⟨h1, hdelim, hlt, -, hend⟩ := last_element h he hx
    have hv := (holds_append.mp h1).2
    have hraw := ((getNextObjectRaw_iff hdoc hnext h1 hlt (by omega) hdelim _).mpr
      ⟨hclean v (List.mem_singleton_self v), rfl⟩).1
    have hstop : (getNextObject m doc (cookedRef (x + pre.text.length) v)).1 = false := by
      rw [getNextObject, getNextObjectRaw, hdoc, hend]
      rfl
    refine iff_of_true ?_ (fun v hv => absurd hv List.not_mem_nil)
    rw [Entries.values, visits_cons]
    exact ⟨_, getNextObject_eq hv hraw, cookedAt_cookedRef (by omega) hv, visits_nil.mpr hstop⟩
  | .cons (.item pre) v post rest, x, n, obj, h, he, hx, hnext, hlen, hclean => by
    obtain ⟨n, rfl⟩ : ∃ k, n = k + 1 := ⟨n - 1, by omega⟩
    obtain ⟨h1, hdelim, hlt, hy, -, hnext', hrest, hlt'⟩ := next_element h he hx rfl
    have hv := (holds_append.mp h1).2
    simp only [Entries.values, List.length_cons, List.forall_mem_cons] at hlen hclean
    have hraw := ((getNextObjectRaw_iff hdoc hnext h1 hlt (by omega) hdelim _).mpr ⟨hclean.1, rfl⟩).1
    have hcall := getNextObject_eq hv hraw
    have hat := cookedAt_cookedRef (show 0 < x + pre.text.length by omega) hv
    obtain ⟨w, ws, hws⟩ := List.exists_cons_of_ne_nil rest.values_ne_nil
    rw [Entries.values, visits_cons, List.dropLast_cons_of_ne_nil rest.values_ne_nil, List.forall_mem_cons]
    by_cases hres : v.resumes = true
    · rw [if_pos hres] at hnext'
      have ih := visits_cooked hdoc rest (n := n) hrest hlt' hy hnext' (by omega) hclean.2
      rw [← ih]
      constructor
      · rintro ⟨ref, hcall', -, hvisits⟩
        rw [hcall] at hcall'
        obtain rfl := (Prod.mk.inj hcall').2
        exact ⟨hres, hvisits⟩
      · rintro ⟨-, hvisits⟩
        exact ⟨_, hcall, hat, hvisits⟩
    · rw [if_neg hres] at hnext'
      have hstop : getNextObject m doc (cookedRef (x + pre.text.length) v) =
          (false, cookedRef (x + pre.text.length) v) := by
        rw [getNextObject, getNextObjectRaw, hdoc, hnext']
        rfl
      refine iff_of_false ?_ (fun h => hres h.1)
      rintro ⟨ref, hcall', -, hvisits⟩
      rw [hcall] at hcall'
      obtain rfl := (Prod.mk.inj hcall').2
      obtain ⟨n, rfl⟩ : ∃ k, n = k + 1 := ⟨n - 1, by omega⟩
      rw [hws, visits_cons, hstop] at hvisits
      obtain ⟨ref, hfalse, -⟩ := hvisits
      cases hfalse

/-- `GetSize` counts the raw items. -/
theorem getSizeLoop_eq (n : ℕ) (obj : StringRef) (c : ℕ) :
    getSizeLoop m doc n obj c = (visited (getNextObjectRaw m doc) n obj).map fun refs => c + refs.length := by
  induction n generalizing obj c with
  | zero => rfl
  | succ n ih =>
    rw [getSizeLoop, visited]
    rcases getNextObjectRaw m doc obj with ⟨_ | _, obj'⟩
    · rfl
    · simp only [ih, Option.map_map]
      congr 1
      funext refs
      simp only [Function.comp_apply, List.length_cons]
      omega

end Entries

/-! ### The array -/

/-- The three ways over the elements agree: `GetNextObjectRaw` and `GetNextObject` see them all, in order, and
`GetSize` counts them. -/
def Agrees (m : Mem) (arr : StringRef) (elements : List Value) : Prop :=
  Visits (getNextObjectRaw m arr) (At m) (arr.len + 1) .null elements ∧
    Visits (getNextObject m arr) (CookedAt m) (arr.len + 1) .null elements ∧ getSize m arr = some elements.length

section Document

variable {m : Mem} {ref : StringRef}

theorem ArrayText.value_text (a : ArrayText) : ∃ t, a.value.text = Ch.lbracket :: t := by
  obtain ⟨pre, ws | es, post⟩ := a
  · exact ⟨_, rfl⟩
  · exact ⟨_, rfl⟩

/-- `JsonArray` finds the array behind the whitespace. -/
theorem attachArray_text {a : ArrayText} (h : TextAt m ref a.text) :
    attachArray m ref = ⟨ref.p + a.pre.text.length, a.value.text.length + a.post.text.length⟩ ∧
      Holds m (ref.p + a.pre.text.length) a.value.text := by
  obtain ⟨hp, hlen, hholds⟩ := h
  obtain ⟨t, ht⟩ := a.value_text
  have hvalue := (holds_append.mp (holds_append.mp hholds).2).1
  have hpos : 0 < a.value.text.length := List.length_pos_of_ne_nil a.value.text_ne_nil
  simp only [ArrayText.text, List.length_append] at hlen
  have htail : ref.tail = ref.p + a.pre.text.length + (a.value.text.length + a.post.text.length) := by
    rw [StringRef.tail, hlen, Nat.add_assoc]
  have hseek : seekChar m ref.p ref.tail Ch.lbracket = ref.p + a.pre.text.length := by
    apply scanWhile_eq (holds_append.mp hholds).1
    · intro b hb
      exact bne_iff_ne.mpr (isWs_facts b (a.pre.isWs_of_mem hb)).2.2.2.2.2.2.1
    · omega
    · intro _
      rw [ht] at hvalue
      rw [hvalue.1]
      rfl
  refine ⟨?_, hvalue⟩
  simp only [attachArray, hseek]
  rw [if_neg (by omega), StringRef.ofRange, htail, Nat.add_sub_cancel_left]

theorem getSize_of_visits {arr : StringRef} {vs : List Value}
    (h : Visits (getNextObjectRaw m arr) (At m) (arr.len + 1) .null vs) : getSize m arr = some vs.length := by
  obtain ⟨refs, hrefs, hall⟩ := h
  rw [getSize, getSizeLoop_eq, hrefs, Option.map_some, Nat.zero_add, hall.length_eq]

end Document

/-- `['',1]`. -/
def singleFirst : ArrayText :=
  ⟨.none, .inr (.cons (.item .none) (.str (.empty .single)) .none (.one (.item .none) (.lit .one) .none)), .none⟩

end Cpcf.Json
