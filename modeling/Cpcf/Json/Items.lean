import Cpcf.Json.Enumerate

/-!
`JsonArray`: the iteration over the items of an array.

`GetNextObjectRaw` finds its place from the end of the last item and returns the item with its quotes. On
an array without binary values it returns every item, in order: it looks for the comma itself and does
not guess what stands before it.
-/

namespace Cpcf.Json

open Cpcf.Rt Cpcf.Lib.Memory

/-! ### The source -/

/-- `JsonArray(doc)`: the document starts at the first opening bracket. -/
def attachArray (m : Mem) (doc : StringRef) : StringRef :=
  let s := seekChar m doc.p doc.tail Ch.lbracket
  if s = doc.tail then .null else .ofRange s doc.tail

/-- Where `GetNextObjectRaw` looks for the next item: behind the opening bracket, or behind the comma after
the last item. -/
def nextItemAt (m : Mem) (doc obj : StringRef) : Option ℕ :=
  if doc.p ≤ obj.tail ∧ obj.tail ≤ doc.tail then
    let cur := if m obj.tail = Ch.dquote ∧ m (obj.p - 1) = Ch.dquote then obj.tail + 1 else obj.tail
    let cur := skipWhitespace m cur doc.tail
    if m cur = Ch.comma then some (cur + 1) else none
  else some (doc.p + 1)

/-- `GetNextObjectRaw`: the return value and the item left behind. -/
def getNextObjectRaw (m : Mem) (doc obj : StringRef) : Bool × StringRef :=
  if doc.isEmpty then (false, obj)
  else
    match nextItemAt m doc obj with
    | none => (false, obj)
    | some cur =>
      let p := skipWhitespace m cur doc.tail
      if m p = Ch.rbracket then (false, obj)
      else
        match seekJsonObjectClosure m p doc.tail with
        | none => (false, obj)
        | some tail => (true, .ofRange p tail)

/-- `while(arr.GetNextObjectRaw(obj)) ...`: the items seen, `none` when `n` calls are not enough. -/
def itemsFrom (m : Mem) (doc : StringRef) : ℕ → StringRef → Option (List StringRef)
  | 0, _ => none
  | n + 1, obj =>
    match getNextObjectRaw m doc obj with
    | (false, _) => some []
    | (true, obj) => (itemsFrom m doc n obj).map (obj :: ·)

attribute [local simp] itemsFrom

/-- The items the loop runs over; it is over after as many turns as the document has bytes. -/
def enumerateItems (m : Mem) (doc : StringRef) : Option (List StringRef) := itemsFrom m doc (doc.len + 1) .null

/-! ### All items -/

/-- The values of the entries. -/
def Entries.values : {k : Kind} → Entries k → List Value
  | _, .one _ v _ => [v]
  | _, .cons _ v _ rest => v :: rest.values

attribute [local simp] Entries.values

/-- The reference stands at the text of the value. -/
def At (m : Mem) (ref : StringRef) (v : Value) : Prop := 0 < ref.p ∧ ref.len = v.text.length ∧ Holds m ref.p v.text

section Items

variable {m : Mem} {doc obj : StringRef} {x : ℕ}

/-- One call, from a place behind the bracket or a comma. -/
theorem getNextObjectRaw_item {pre : Ws} {v : Value} (hdoc : doc.isEmpty = false)
    (hnext : nextItemAt m doc obj = some x) (hn : v.noBinary = true) (h : Holds m x (pre.text ++ v.text))
    (he : x + (pre.text.length + v.text.length) < doc.tail)
    (hb : isDelimiter (m (x + pre.text.length + v.text.length)) = true) :
    getNextObjectRaw m doc obj = (true, ⟨x + pre.text.length, v.text.length⟩) := by
  obtain ⟨h1, h2⟩ := holds_append.mp h
  have hskip : skipWhitespace m x doc.tail = x + pre.text.length :=
    skipWhitespace_ws h1 (by omega) (v.first_byte hn h2).2.1
  have hopen : m (x + pre.text.length) ≠ Ch.rbracket := by
    cases v with
    | str s => rw [show m (x + pre.text.length) = s.quote.char from h2.1]; cases s.quote <;> decide
    | lit w =>
      obtain ⟨b, t, hw, hbare⟩ := w.exists_cons
      simp only [Value.text, hw] at h2
      rw [h2.1]
      exact (isBare_facts b hbare).2.2.2.2.2.2.1
    | bin p => simp [Value.noBinary] at hn
    | empty k ws => rw [show m (x + pre.text.length) = k.opening from h2.1]; cases k <;> decide
    | node k es => rw [show m (x + pre.text.length) = k.opening from h2.1]; cases k <;> decide
  have hseek := (seek_value (e := doc.tail) v h2 (by omega) hb).mpr (Value.clean_of_noBinary hn)
  rw [getNextObjectRaw, hdoc, hnext]
  simp only [Bool.false_eq_true, if_false, hskip, hseek]
  rw [if_neg hopen, StringRef.ofRange, Nat.add_sub_cancel_left]

/-- Behind an item, at the whitespace before a comma or the closing bracket. -/
theorem nextItemAt_item (doc : StringRef) {y len : ℕ} {post : Ws} {b : UInt8} (hx : doc.p ≤ y)
    (he : y + len + post.text.length < doc.tail)
    (h : Holds m (y + len) (post.text ++ [b])) (hb : isDelimiter b = true) (hs : isSkipped b = false) :
    nextItemAt m doc ⟨y, len⟩ = if b = Ch.comma then some (y + len + post.text.length + 1) else none := by
  obtain ⟨h1, h2, -⟩ := holds_append.mp h
  have hq : m (y + len) ≠ Ch.dquote := (isDelimiter_facts _ (isDelimiter_after h hb)).2.1
  have hin : doc.p ≤ (StringRef.mk y len).tail ∧ (StringRef.mk y len).tail ≤ doc.tail := by
    simp only [StringRef.tail] at he ⊢
    omega
  have hcur : ¬ (m (StringRef.mk y len).tail = Ch.dquote ∧ m (y - 1) = Ch.dquote) := fun hh => hq hh.1
  have hskip : skipWhitespace m (y + len) doc.tail = y + len + post.text.length :=
    skipWhitespace_ws h1 (by omega) (by rw [h2]; exact hs)
  have hskip' : skipWhitespace m (StringRef.mk y len).tail doc.tail = y + len + post.text.length := hskip
  simp only [nextItemAt, if_pos hin, if_neg hcur, hskip', h2]

/-- The loop sees all items and ends. -/
theorem itemsFrom_entries (hdoc : doc.isEmpty = false) : ∀ (es : Entries .array) {x n : ℕ} {obj : StringRef},
    es.noBinary = true → Holds m x (es.text ++ [Ch.rbracket]) → x + es.text.length < doc.tail → doc.p < x →
    nextItemAt m doc obj = some x → es.values.length < n →
    ∃ refs, itemsFrom m doc n obj = some refs ∧ List.Forall₂ (At m) refs es.values
  | .one (.item pre) v post, x, n, obj, hn, h, he, hx, hnext, hlen => by
    obtain ⟨n, rfl⟩ : ∃ k, n = k + 2 := ⟨n - 2, by simp at hlen; omega⟩
    simp only [Entries.noBinary, Entries.text, Head.text, List.length_append] at hn h he
    rw [← List.append_assoc, List.append_assoc, holds_append, List.length_append] at h
    obtain ⟨h1, h2⟩ := h
    rw [← Nat.add_assoc] at h2
    have hcall := getNextObjectRaw_item hdoc hnext hn h1 (by omega) (isDelimiter_after h2 (by decide))
    have hend := nextItemAt_item doc (by omega) (by omega) h2 (by decide) (by decide)
    rw [if_neg (by decide)] at hend
    refine ⟨[⟨x + pre.text.length, v.text.length⟩], ?_, ?_⟩
    · have hlast : getNextObjectRaw m doc ⟨x + pre.text.length, v.text.length⟩ =
          (false, ⟨x + pre.text.length, v.text.length⟩) := by
        rw [getNextObjectRaw, hdoc, hend]
        rfl
      simp [hcall, hlast]
    · simp only [Entries.values, List.forall₂_cons, List.forall₂_nil_left_iff, and_true]
      exact ⟨by simp only; omega, rfl, (holds_append.mp h1).2⟩
  | .cons (.item pre) v post rest, x, n, obj, hn, h, he, hx, hnext, hlen => by
    obtain ⟨n, rfl⟩ : ∃ k, n = k + 1 := ⟨n - 1, by omega⟩
    simp only [Entries.noBinary, Entries.text, Head.text, List.length_append, List.length_cons, Bool.and_eq_true,
      Entries.values] at hn h he hlen
    rw [← List.append_assoc, List.append_assoc, holds_append, List.length_append] at h
    obtain ⟨h1, h2⟩ := h
    rw [← Nat.add_assoc, List.append_assoc, List.cons_append] at h2
    have hcall := getNextObjectRaw_item hdoc hnext hn.1 h1 (by omega) (isDelimiter_after h2 (by decide))
    have h3 : Holds m (x + pre.text.length + v.text.length) (post.text ++ [Ch.comma]) := by
      rw [holds_append, holds_cons] at h2
      exact holds_append.mpr ⟨h2.1, h2.2.1, trivial⟩
    have hnext' := nextItemAt_item doc (by omega) (by omega) h3 (by decide) (by decide)
    rw [if_pos rfl] at hnext'
    rw [holds_append, holds_cons] at h2
    obtain ⟨refs, hitems, hat⟩ := itemsFrom_entries hdoc rest (n := n) hn.2 h2.2.2 (by omega) (by omega) hnext'
      (by omega)
    refine ⟨⟨x + pre.text.length, v.text.length⟩ :: refs, by simp [hcall, hitems], ?_⟩
    simp only [Entries.values, List.forall₂_cons]
    exact ⟨⟨by simp only; omega, rfl, (holds_append.mp h1).2⟩, hat⟩

end Items

theorem Entries.length_values_le : ∀ {k : Kind} (es : Entries k), es.values.length ≤ es.text.length
  | _, .one h v post => by
    have := List.length_pos_of_ne_nil v.text_ne_nil
    simp only [Entries.values, Entries.text, List.length_cons, List.length_nil, List.length_append]
    omega
  | _, .cons h v post rest => by
    have := rest.length_values_le
    simp only [Entries.values, Entries.text, List.length_cons, List.length_append]
    omega

theorem Entries.values_eq : ∀ es : Entries .object, es.values = es.members.map Prod.snd
  | .one h v post => rfl
  | .cons h v post rest => by rw [Entries.values, Entries.members, rest.values_eq, List.map_cons]

section Document

variable {m : Mem} {ref : StringRef}

/-- `JsonArray` finds an array where it stands. -/
theorem attachArray_at {t : List UInt8} (hlen : 0 < ref.len) (h : Holds m ref.p (Ch.lbracket :: t)) :
    attachArray m ref = ref := by
  have hseek : seekChar m ref.p ref.tail Ch.lbracket = ref.p :=
    scanWhile_eq (show Holds m ref.p [] from trivial) (by simp) (by simp)
      (fun _ => by rw [List.length_nil, add_zero, h.1]; rfl)
  simp only [attachArray, hseek]
  rw [if_neg (by simp only [StringRef.tail]; omega), StringRef.ofRange, StringRef.tail, Nat.add_sub_cancel_left]

theorem nextItemAt_null (hp : 0 < ref.p) : nextItemAt m ref .null = some (ref.p + 1) := by
  rw [nextItemAt, if_neg (by simp only [StringRef.null, StringRef.tail]; omega)]

theorem At.isEmpty {v : Value} (h : At m ref v) : ref.isEmpty = false := by
  have hpos := List.length_pos_of_ne_nil v.text_ne_nil
  obtain ⟨hp, hlen, -⟩ := h
  exact StringRef.isEmpty_of_pos hp (by omega)

/-- **The items of an array.** Where an array without binary values stands, `JsonArray` finds it and the loop
sees exactly its items. -/
theorem enumerateItems_array {es : Entries .array} (hn : es.noBinary = true) (h : At m ref (.node .array es)) :
    ∃ refs, enumerateItems m (attachArray m ref) = some refs ∧ List.Forall₂ (At m) refs es.values := by
  have hdoc := h.isEmpty
  obtain ⟨hp, hlen, htext⟩ := h
  simp only [Value.text, List.length_cons, List.length_append, List.length_nil] at hlen
  have hvals := es.length_values_le
  rw [attachArray_at (by omega) htext, enumerateItems]
  exact itemsFrom_entries hdoc es hn htext.2 (by simp only [StringRef.tail]; omega) (by omega) (nextItemAt_null hp)
    (by omega)

/-- An empty array has no items. -/
theorem enumerateItems_empty {ws : Ws} (h : At m ref (.empty .array ws)) :
    enumerateItems m (attachArray m ref) = some [] := by
  have hdoc := h.isEmpty
  obtain ⟨hp, hlen, htext⟩ := h
  simp only [Value.text, List.length_cons, List.length_append, List.length_nil] at hlen
  rw [attachArray_at (by omega) htext, enumerateItems, itemsFrom]
  obtain ⟨hws, hend, -⟩ := holds_append.mp htext.2
  have hskip : skipWhitespace m (ref.p + 1) ref.tail = ref.p + 1 + ws.text.length :=
    skipWhitespace_ws hws (by simp only [StringRef.tail]; omega) (by rw [hend]; rfl)
  have hcall : getNextObjectRaw m ref .null = (false, .null) := by
    rw [getNextObjectRaw, hdoc, nextItemAt_null hp]
    simp only [Bool.false_eq_true, if_false, hskip]
    exact if_pos hend
  rw [hcall]

end Document

end Cpcf.Json
