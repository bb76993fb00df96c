import Mathlib.Data.List.TakeWhile
import Cpcf.Json.Iterate

/-!
Which objects `GetNextKeyValuePair` enumerates completely.

Three things go wrong, and nothing else does. A key is never found empty. An empty string in single
quotes makes the call return false, since only a double quote behind an empty value is taken for the
end of a string. And a quoted first key that directly follows the opening brace is read from behind its
opening quote, as if it were a bare word: it comes out as it is only when it looks like one.
-/

namespace Cpcf.Json

open Cpcf.Rt Cpcf.Lib.Memory

/-! ### The condition -/

/-- The value is an object. -/
def Value.isObject : Value → Bool
  | .empty .object _ => true
  | .node .object _ => true
  | _ => false

/-- The members of an object, in order. -/
def Value.members : Value → List (Key × Value)
  | .node .object es => es.members
  | _ => []

/-- The members of an object before the first that is not shown. -/
def Value.seen : Value → List (Key × Value)
  | .node .object es => es.seen
  | _ => []

/-- A key that is read the same from behind its opening quote: not empty, no separator inside, and no
character that is skipped in front. -/
def Key.plain : Key → Bool
  | .quoted s => !s.body.isEmpty && (s.body.all isText && !s.body.head?.any isSkipped)
  | .bare _ => true

/-- The first key is read right: there is whitespace between the brace and the key, or the key is plain. -/
def Entries.Legible (es : Entries .object) : Prop := es.pre.text ≠ [] ∨ es.firstKey.plain = true

/-- The first key of an object, if there is one, is read right. -/
def Value.Legible : Value → Prop
  | .node .object es => es.Legible
  | _ => True

/-- The members of an object are all enumerated: every key is non-empty, no value is an empty string in
single quotes, and the first key is plain if it follows the brace directly. -/
def Value.Iterable (v : Value) : Prop :=
  (∀ kv ∈ v.members, kv.1.name ≠ [] ∧ kv.2.visible = true) ∧ v.Legible

theorem Value.seen_eq (v : Value) : v.seen = v.members.takeWhile shown := by
  match v with
  | .node .object es => rfl
  | .node .array _ | .str _ | .lit _ | .bin _ | .empty _ _ => rfl

theorem shown_iff {kv : Key × Value} : shown kv = true ↔ kv.1.name ≠ [] ∧ kv.2.visible = true := by
  simp [shown]

theorem Value.seen_eq_members (v : Value) (h : ∀ kv ∈ v.members, shown kv = true) : v.seen = v.members := by
  rw [v.seen_eq, List.takeWhile_eq_self_iff]
  exact h

theorem Value.seen_eq_of_length (v : Value) (h : v.seen.length = v.members.length) : v.seen = v.members := by
  rw [v.seen_eq] at h ⊢
  exact (List.takeWhile_prefix _).eq_of_length h

theorem Value.shown_of_mem_seen (v : Value) {kv : Key × Value} (h : kv ∈ v.seen) : shown kv = true := by
  rw [v.seen_eq] at h
  exact List.mem_takeWhile_imp h

theorem Entries.noBinary_of_mem : ∀ {es : Entries .object}, es.noBinary = true → ∀ {kv : Key × Value},
    kv ∈ es.members → kv.2.noBinary = true
  | .one h v post, hn, kv, hkv => by
    rw [Entries.members, List.mem_singleton] at hkv
    rw [hkv]
    simpa [Entries.noBinary] using hn
  | .cons h v post rest, hn, kv, hkv => by
    simp only [Entries.noBinary, Bool.and_eq_true] at hn
    rw [Entries.members, List.mem_cons] at hkv
    rcases hkv with rfl | hkv
    · exact hn.1
    · exact rest.noBinary_of_mem hn.2 hkv

theorem Value.noBinary_of_mem (v : Value) (hn : v.noBinary = true) {kv : Key × Value} (h : kv ∈ v.members) :
    kv.2.noBinary = true := by
  match v with
  | .node .object es => exact es.noBinary_of_mem hn h
  | .node .array _ | .str _ | .lit _ | .bin _ | .empty _ _ => simp [Value.members] at h

/-! ### The first call -/

theorem isText_facts : ∀ b : UInt8, isText b = true →
    b ≠ Ch.dquote ∧ b ≠ Ch.squote ∧ b ≠ Ch.comma ∧ b ≠ Ch.rbrace ∧ b ≠ Ch.colon := by
  set_option maxRecDepth 20000 in decide

theorem Quote.char_facts (q : Quote) : (q.char = Ch.dquote ∨ q.char = Ch.squote) ∧ isText q.char = false ∧
    isSkipped q.char = false ∧ q.char ≠ Ch.comma := by
  cases q <;> decide

section First

variable {m : Mem} {doc : StringRef}

/-- A fresh pair is not one of the document. -/
theorem resumeAt_fresh : resumeAt m doc .fresh =
    if m (doc.p + 1) = Ch.dquote ∨ m (doc.p + 1) = Ch.squote ∨ m (doc.p + 1) = Ch.gt then doc.p + 2
    else doc.p + 1 := by
  have hin : ¬ (doc.p + 1 ≤ KeyValuePair.fresh.key.p ∧ KeyValuePair.fresh.value.tail ≤ doc.tail) := by
    simp [KeyValuePair.fresh, StringRef.null]
  simp only [resumeAt, if_neg hin]

/-- With whitespace behind the brace, or with a bare first key, the iterator starts at the entries. -/
theorem resumeAt_fresh_of_not_quote {es : Entries .object} (h : Holds m (doc.p + 1) es.text)
    (hq : es.pre.text ≠ [] ∨ es.firstKey.offset = 0) : resumeAt m doc .fresh = doc.p + 1 := by
  obtain ⟨mid, t, ht⟩ := es.text_eq
  rw [resumeAt_fresh, if_neg]
  rw [ht] at h
  rcases hpre : es.pre.text with _ | ⟨b, s⟩
  · rw [hpre] at h hq
    obtain ⟨h1, -⟩ := holds_append.mp h
    cases hk : es.firstKey with
    | quoted s => simp [hk, Key.offset] at hq
    | bare w =>
      rw [hk] at h
      obtain ⟨b, s, hw, hb⟩ := w.exists_cons
      simp only [Key.text, hw, List.nil_append, List.cons_append, holds_cons] at h
      obtain ⟨-, -, h1, h2, -, -, -, -, -, -, -, h3⟩ := isBare_facts b hb
      rw [h.1]
      simp only [not_or]
      exact ⟨h1, h2, h3⟩
  · rw [hpre] at h
    obtain ⟨-, -, -, h1, h2, -, -, -, -, -, -, -, h3, -⟩ :=
      isWs_facts b (es.pre.isWs_of_mem (by rw [hpre]; simp))
    rw [show m (doc.p + 1) = b from h.1]
    simp only [not_or]
    exact ⟨h1, h2, h3⟩

/-- A plain key that follows the brace directly is found from behind its opening quote. -/
theorem ready_plain {es : Entries .object} {s : Str} (h : Holds m (doc.p + 1) es.text)
    (he : doc.p + 1 + es.text.length ≤ doc.tail) (hpre : es.pre.text = []) (hk : es.firstKey = .quoted s)
    (hs : (Key.quoted s).plain = true) :
    Ready m doc .fresh (doc.p + 1) es.pre es.firstKey := by
  obtain ⟨mid, t, ht⟩ := es.text_eq
  simp only [ht, hpre, hk, Key.text, List.nil_append, List.length_append, s.length_text] at h he
  obtain ⟨h1, -⟩ := holds_append.mp h
  obtain ⟨hq, hrest⟩ := h1
  obtain ⟨hbody, hclose, -⟩ := holds_append.mp hrest
  obtain ⟨c1, c2, -, -⟩ := s.quote.char_facts
  have hres : resumeAt m doc .fresh = doc.p + 1 + 1 := by
    rw [resumeAt_fresh, hq, if_pos (by tauto)]
  have h0 : s.body ≠ [] := by
    intro h0
    simp [Key.plain, h0] at hs
  obtain ⟨b, body, hb⟩ := List.exists_cons_of_ne_nil h0
  simp only [Key.plain, hb, Bool.and_eq_true, List.all_eq_true, List.head?_cons, Option.any_some,
    Bool.not_eq_true'] at hs
  replace hs := hs.2
  obtain ⟨f1, f2, f3, f4, -⟩ := isText_facts b (hs.1 b (by simp))
  have hfirst : m (doc.p + 1 + 1) = b := by
    rw [hb] at hbody
    exact hbody.1
  refine ⟨doc.p + 1 + 1, ?_, ?_⟩
  · have hskip : skipWhitespace m (doc.p + 1 + 1) doc.tail = doc.p + 1 + 1 :=
      scanWhile_eq (show Holds m (doc.p + 1 + 1) [] from trivial) (by simp) (by simp)
        (fun _ => by rw [List.length_nil, hfirst]; exact hs.2)
    simp only [hres, seekName, hskip]
    rw [hfirst, if_neg f4, if_neg f3]
  · rw [readName, hfirst, if_neg (not_or.mpr ⟨f1, f2⟩), hpre, hk]
    simp only [List.length_nil, add_zero, Key.offset, Key.name, scanText]
    rw [scanWhile_eq hbody (by rw [hb]; exact hs.1) (by omega) (fun _ => by rw [hclose]; exact c2)]

/-! ### What a call that returns true has found -/

section Found

variable {a e : ℕ} {kvp kvp' : KeyValuePair} {b : Bool}

theorem seekCharEscapeLoop_spec {c : UInt8} {n p : ℕ} (hp : p + n = e) :
    (∀ i, p ≤ i → i < seekCharEscapeLoop m c e n p → m i = c → backslashes m i % 2 ≠ 0) ∧
      (seekCharEscapeLoop m c e n p ≠ e → m (seekCharEscapeLoop m c e n p) = c) := by
  induction n generalizing p with
  | zero => exact ⟨fun i h1 h2 => by rw [seekCharEscapeLoop] at h2; omega, fun h => absurd rfl h⟩
  | succ n ih =>
    rw [seekCharEscapeLoop]
    split
    · rename_i hc
      exact ⟨fun i h1 h2 => by omega, fun _ => hc.1⟩
    · rename_i hc
      obtain ⟨h1, h2⟩ := ih (p := p + 1) (by omega)
      refine ⟨fun i hi hi' hic => ?_, h2⟩
      rcases Nat.eq_or_lt_of_le hi with rfl | hlt
      · exact fun h0 => hc ⟨hic, h0⟩
      · exact h1 i hlt hi' hic

/-- A name read that does not run to the end does not end before it starts. -/
theorem readName_le (h : (readName m a e).2 ≠ e) : (readName m a e).1 ≤ (readName m a e).2 := by
  unfold readName at h ⊢
  split
  · rename_i hq
    rw [if_pos hq] at h
    simp only at h ⊢
    by_cases ha : a + 1 ≤ e
    · exact seekCharEscape_ge ha
    · exact absurd (by rw [seekCharEscape, show e - (a + 1) = 0 by omega, seekCharEscapeLoop]) h
  · exact le_scanWhile _ _ _ _

/-- The key of a pair found is the name read, which is not empty. -/
theorem readPair_name (h : readPair m a e = some (b, kvp)) :
    kvp.key = .ofRange (readName m a e).1 (readName m a e).2 ∧ (readName m a e).2 ≠ e ∧
      (readName m a e).1 < (readName m a e).2 := by
  have hle := readName_le (m := m) (a := a) (e := e)
  rw [readPair] at h
  simp only at h
  split at h
  · simp at h
  · rename_i hne
    rw [not_or] at hne
    split at h
    · simp at h
    · split at h
      · simp at h
      · simp only [Option.some.injEq, Prod.mk.injEq] at h
        obtain ⟨-, rfl⟩ := h
        have h1 := hle (Ne.symm hne.1)
        exact ⟨rfl, Ne.symm hne.1, by have := hne.2; omega⟩

theorem getNext_found (h : getNextKeyValuePair m doc kvp = (true, kvp')) :
    ∃ a, seekName m (resumeAt m doc kvp) doc.tail = some a ∧ readPair m a doc.tail = some (true, kvp') := by
  rw [getNextKeyValuePair] at h
  split at h
  · simp at h
  · cases hs : seekName m (resumeAt m doc kvp) doc.tail with
    | none => simp [hs] at h
    | some a =>
      cases hr : readPair m a doc.tail with
      | none => simp [hs, hr] at h
      | some r => exact ⟨a, rfl, by rw [hr]; simpa [hs, hr] using h⟩

/-- A key found is never empty. -/
theorem key_ne_nil (h : getNextKeyValuePair m doc kvp = (true, kvp')) : kvp'.key.bytes m ≠ [] := by
  obtain ⟨a, -, ha⟩ := getNext_found h
  obtain ⟨hkey, -, hlt⟩ := readPair_name ha
  rw [hkey, StringRef.bytes, StringRef.ofRange, ← List.length_pos_iff, length_read]
  exact Nat.sub_pos_of_lt hlt

/-- Before a name only skipped characters and one comma are passed. -/
theorem seekName_spec {p : ℕ} (h : seekName m p e = some a) :
    p ≤ a ∧ (∀ i, p ≤ i → i < a → isSkipped (m i) = true ∨ m i = Ch.comma) ∧
      (a < e → isSkipped (m a) = false) := by
  have hle := le_scanWhile m isSkipped p (e - p)
  obtain ⟨-, h2, h3⟩ := scanWhile_spec m isSkipped p (e - p)
  obtain ⟨x, hx⟩ : ∃ x, skipWhitespace m p e = x := ⟨_, rfl⟩
  simp only [seekName, hx] at h
  rw [← skipWhitespace, hx] at hle h2 h3
  split at h
  · simp at h
  · split at h
    · rename_i hc
      simp only [Option.some.injEq] at h
      have hle' := le_scanWhile m isSkipped (x + 1) (e - (x + 1))
      obtain ⟨-, h5, h6⟩ := scanWhile_spec m isSkipped (x + 1) (e - (x + 1))
      rw [← skipWhitespace, h] at hle' h5 h6
      refine ⟨by omega, fun i hi hi' => ?_, fun hlt => h6 (by omega)⟩
      rcases Nat.lt_trichotomy i x with hix | rfl | hix
      · exact Or.inl (h2 i hi hix)
      · exact Or.inr hc
      · exact Or.inl (h5 i hix hi')
    · simp only [Option.some.injEq] at h
      rw [h] at hle h2 h3
      exact ⟨hle, fun i hi hi' => Or.inl (h2 i hi hi'), fun hlt => h3 (by omega)⟩

end Found

/-! ### A first key that is not plain -/

theorem skipped_ne_backslash : ∀ b : UInt8, isSkipped b = true ∨ b = Ch.comma →
    b ≠ Ch.backslash ∧ b ≠ Ch.colon ∧ b ≠ Ch.dquote ∧ b ≠ Ch.squote := by
  set_option maxRecDepth 20000 in decide

section Again

variable {p a e n : ℕ} (hgap : ∀ i, p ≤ i → i < a → isSkipped (m i) = true ∨ m i = Ch.comma)

include hgap

/-- A quoted name that starts at the closing quote of the body: the colon is met too early, or the end of the
name is not a quote. -/
theorem not_again_at_close {mid : Ws} {t : List UInt8} (hac : a = p + n) (hq : m a = Ch.dquote ∨ m a = Ch.squote)
    (hafter : Holds m (a + 1) (mid.text ++ Ch.colon :: t)) (hend : seekCharEscape m (a + 1) e (m a) ≠ e)
    (hae : a + 1 ≤ e) (hlen : seekCharEscape m (a + 1) e (m a) = a + 1 + n)
    (hsame : ∀ i, i < n → m (a + 1 + i) = m (p + i)) : False := by
  obtain ⟨hmid, hcolon, -⟩ := holds_append.mp hafter
  rcases Nat.lt_or_ge mid.text.length n with hm | hm
  · rw [hsame _ hm] at hcolon
    exact (skipped_ne_backslash _ (hgap _ (by omega) (by omega))).2.1 hcolon
  · have hlast := (seekCharEscapeLoop_spec (m := m) (c := m a) (Nat.add_sub_cancel' hae)).2 hend
    rw [← seekCharEscape, hlen] at hlast
    have hclose : Holds m (a + 1) (mid.text ++ [Ch.colon]) := holds_append.mpr ⟨hmid, hcolon, trivial⟩
    have hn : n < (mid.text ++ [Ch.colon]).length := by
      rw [List.length_append, List.length_singleton]
      omega
    rw [hclose.get hn] at hlast
    rcases List.mem_append.mp (List.getElem_mem hn) with hmem | hmem
    · have hws := isWs_facts _ (mid.isWs_of_mem hmem)
      rw [hlast] at hws
      rcases hq with hq | hq
      · exact hws.2.2.2.1 hq
      · exact hws.2.2.2.2.1 hq
    · rw [hlast, List.mem_singleton] at hmem
      rw [hmem] at hq
      exact absurd hq (by decide)

/-- A quoted name that starts inside the body: its quote is found again as far behind `a` as `a` is behind `p`,
and not escaped, so the name ends there. -/
theorem not_again_in_body (hle : p ≤ a) (hac : a < p + n) (hq : m a = Ch.dquote ∨ m a = Ch.squote)
    (hae : a + 1 ≤ e) (hlen : seekCharEscape m (a + 1) e (m a) = a + 1 + n)
    (hsame : ∀ i, i < n → m (a + 1 + i) = m (p + i)) : False := by
  have hspec := (seekCharEscapeLoop_spec (m := m) (c := m a) (Nat.add_sub_cancel' hae)).1
  rw [← seekCharEscape, hlen] at hspec
  have hagain : m (a + 1 + (a - p)) = m a := by
    rw [hsame _ (by omega)]
    congr 1
    omega
  refine hspec (a + 1 + (a - p)) (by omega) (by omega) hagain ?_
  rw [show a + 1 + (a - p) = a + (a - p) + 1 by omega, backslashes_succ_of_ne]
  rcases Nat.eq_or_lt_of_le hle with rfl | hlt
  · rw [Nat.sub_self, add_zero]
    intro hb
    rw [hb] at hq
    exact absurd hq (by decide)
  · rw [show a + (a - p) = a + 1 + (a - p - 1) by omega, hsame _ (by omega)]
    exact (skipped_ne_backslash _ (hgap _ (by omega) (by omega))).1

/-- A bare name: it starts with a visible character, so it starts with the body, which is plain then. -/
theorem not_again_bare {s : Str} (h0 : s.body ≠ []) (hs : (Key.quoted s).plain = false) (hK : Holds m p s.body)
    (hle : p ≤ a) (hfirst : isSkipped (m a) = false) (hlen : scanText m a e = a + s.body.length)
    (hsame : ∀ i, i < s.body.length → m (a + i) = m (p + i)) : False := by
  have hK0 : 0 < s.body.length := List.length_pos_of_ne_nil h0
  obtain ⟨-, htext, -⟩ := scanWhile_spec m isText a (e - a)
  rw [← scanText, hlen] at htext
  rcases Nat.eq_or_lt_of_le hle with rfl | hlt
  · have hall : s.body.all isText = true := by
      rw [List.all_eq_true]
      intro b hb
      obtain ⟨i, hi, rfl⟩ := List.getElem_of_mem hb
      rw [← hK.get hi]
      exact htext _ (by omega) (by omega)
    obtain ⟨b, body, hbody⟩ := List.exists_cons_of_ne_nil h0
    have hhead : m p = b := by
      rw [hbody] at hK
      exact hK.1
    rw [Key.plain, hall, hbody, List.head?_cons, Option.any_some, List.isEmpty_cons, Bool.not_false,
      Bool.true_and, Bool.true_and, Bool.not_eq_false'] at hs
    rw [hhead, hs] at hfirst
    cases hfirst
  · have hp := hsame 0 hK0
    simp only [add_zero] at hp
    rcases hgap p le_rfl hlt with hg | hg
    · rw [hp, hg] at hfirst
      cases hfirst
    · have := htext a le_rfl (by omega)
      rw [hp, hg] at this
      exact absurd this (by decide)

end Again

/-- The text of a string is not found again from behind its opening quote unless it is plain. Here `p` is
the first byte of the body, and `a` the place where the name is looked for. -/
theorem name_ne_body {p a e : ℕ} {s : Str} {mid : Ws} {t : List UInt8}
    (h : Holds m p (s.body ++ s.quote.char :: (mid.text ++ Ch.colon :: t))) (h0 : s.body ≠ [])
    (hs : (Key.quoted s).plain = false) (ha : seekName m p e = some a) (hend : (readName m a e).2 ≠ e)
    (hpe : p + s.body.length < e)
    (hlen : (readName m a e).2 = (readName m a e).1 + s.body.length) :
    ¬ Holds m (readName m a e).1 s.body := by
  intro hr
  obtain ⟨hle, hgap, hstop⟩ := seekName_spec ha
  obtain ⟨hK, hclose, hafter⟩ := holds_append.mp h
  obtain ⟨-, -, c3, c4⟩ := s.quote.char_facts
  -- the closing quote is not passed
  have hac : a ≤ p + s.body.length := by
    by_contra hlt
    rcases hgap _ (by omega) (Nat.lt_of_not_le hlt) with hg | hg
    · rw [hclose, c3] at hg
      cases hg
    · rw [hclose] at hg
      exact c4 hg
  -- the name read and the body hold the same bytes
  have hsame : ∀ i, i < s.body.length → m ((readName m a e).1 + i) = m (p + i) := by
    intro i hi
    rw [hr.get hi, hK.get hi]
  by_cases hq : m a = Ch.dquote ∨ m a = Ch.squote
  · have hname : readName m a e = (a + 1, seekCharEscape m (a + 1) e (m a)) := if_pos hq
    rw [hname] at hlen hsame hend
    rcases Nat.eq_or_lt_of_le hac with heq | hlt
    · subst heq
      exact not_again_at_close hgap rfl hq hafter hend (by omega) hlen hsame
    · exact not_again_in_body hgap hle hlt hq (by omega) hlen hsame
  · have hname : readName m a e = (a, scanText m a e) := if_neg hq
    rw [hname] at hlen hsame
    exact not_again_bare hgap h0 hs hK hle (hstop (by omega)) hlen hsame

end First

/-! ### The whole document -/

section Document

variable {m : Mem} {doc : StringRef}

theorem pairsFrom_unique {n n' : ℕ} {kvp : KeyValuePair} {l l' : List KeyValuePair}
    (h : pairsFrom m doc n kvp = some l) (h' : pairsFrom m doc n' kvp = some l') : l = l' := by
  induction n generalizing n' kvp l l' with
  | zero => simp [pairsFrom] at h
  | succ n ih =>
    cases n' with
    | zero => simp [pairsFrom] at h'
    | succ n' =>
      rw [pairsFrom] at h h'
      rcases hnext : getNextKeyValuePair m doc kvp with ⟨_ | _, kvp'⟩
      · simp_all
      · simp only [hnext, Option.map_eq_some_iff] at h h'
        obtain ⟨t, ht, rfl⟩ := h
        obtain ⟨t', ht', rfl⟩ := h'
        rw [ih ht ht']

theorem Iterates.unique {l l' : List KeyValuePair} (h : Iterates m doc l) (h' : Iterates m doc l') : l = l' :=
  pairsFrom_unique h.choose_spec h'.choose_spec

theorem pairsFrom_key_ne_nil {n : ℕ} {kvp : KeyValuePair} {l : List KeyValuePair}
    (h : pairsFrom m doc n kvp = some l) : ∀ kvp' ∈ l, kvp'.key.bytes m ≠ [] := by
  induction n generalizing kvp l with
  | zero => simp [pairsFrom] at h
  | succ n ih =>
    rw [pairsFrom] at h
    rcases hnext : getNextKeyValuePair m doc kvp with ⟨_ | _, kvp'⟩
    · simp_all
    · simp only [hnext, Option.map_eq_some_iff] at h
      obtain ⟨t, ht, rfl⟩ := h
      intro k hk
      rcases List.mem_cons.mp hk with rfl | hk
      · exact key_ne_nil hnext
      · exact ih ht k hk

/-- The first pair seen is the one the first call returns. -/
theorem Iterates.head {kvp : KeyValuePair} {l : List KeyValuePair} (h : Iterates m doc (kvp :: l)) :
    getNextKeyValuePair m doc .fresh = (true, kvp) := by
  obtain ⟨n, h⟩ := h
  cases n with
  | zero => simp [pairsFrom] at h
  | succ n =>
    rw [pairsFrom] at h
    rcases hnext : getNextKeyValuePair m doc .fresh with ⟨_ | _, kvp'⟩
    · simp [hnext] at h
    · simp only [hnext, Option.map_eq_some_iff, List.cons.injEq] at h
      obtain ⟨t, -, rfl, -⟩ := h
      rfl

/-- `Attach` finds the object behind leading whitespace. -/
theorem attach_object {p : ℕ} {v : Value} {pre : Ws} {rest : List UInt8} (ho : v.isObject = true)
    (h : Holds m p (pre.text ++ (v.text ++ rest))) :
    attach m ⟨p, (pre.text ++ (v.text ++ rest)).length⟩ = ⟨p + pre.text.length, (v.text ++ rest).length⟩ := by
  obtain ⟨h1, h2⟩ := holds_append.mp h
  obtain ⟨t, ht⟩ : ∃ t, v.text ++ rest = Ch.lbrace :: t := by
    cases v with
    | empty k ws | node k es =>
      cases k with
      | array => simp [Value.isObject] at ho
      | object => exact ⟨_, rfl⟩
    | _ => simp [Value.isObject] at ho
  have hseek : seekChar m p (p + (pre.text ++ (v.text ++ rest)).length) Ch.lbrace = p + pre.text.length := by
    refine scanWhile_eq h1 (fun b hb => ?_) (by rw [List.length_append]; omega) (fun _ => ?_)
    · simpa using (isWs_facts b (pre.isWs_of_mem hb)).2.2.2.2.2.2.2.2.1
    · rw [ht] at h2
      rw [h2.1]
      rfl
  simp only [attach, StringRef.tail, hseek]
  rw [ht, List.length_append, List.length_cons, if_neg (by omega), StringRef.ofRange]
  congr 1
  omega

/-- **What is enumerated.** On an object whose first key is read right, the loop ends and has seen the
members before the first that is not shown. -/
theorem iterates_object {v : Value} {rest : List UInt8} (hp : 0 < doc.p) (ho : v.isObject = true)
    (hn : v.noBinary = true) (h : Holds m doc.p (v.text ++ rest)) (he : doc.len = (v.text ++ rest).length)
    (hl : v.Legible) :
    ∃ kvps, Iterates m doc kvps ∧ List.Forall₂ (Shows m) kvps v.seen := by
  obtain ⟨h, -⟩ := holds_append.mp h
  have hpos : 0 < v.text.length := List.length_pos_of_ne_nil v.text_ne_nil
  rw [List.length_append] at he
  have hdoc : doc.isEmpty = false := StringRef.isEmpty_of_pos (by omega) (by omega)
  have htail : doc.tail = doc.p + doc.len := rfl
  cases v with
  | empty k ws =>
    cases k with
    | array => simp [Value.isObject] at ho
    | object =>
      simp only [Value.text, List.length_cons, List.length_append, List.length_nil] at he
      obtain ⟨-, hws⟩ := h
      refine ⟨[], ⟨1, ?_⟩, by simp [Value.seen]⟩
      have hres : resumeAt m doc .fresh = doc.p + 1 := by
        have hd : isDelimiter (m (doc.p + 1)) = true := isDelimiter_after hws (by decide)
        obtain ⟨-, g1, g2, g3⟩ := isDelimiter_facts _ hd
        rw [resumeAt_fresh, if_neg (by simp only [not_or]; exact ⟨g1, g2, g3⟩)]
      have hend : getNextKeyValuePair m doc .fresh = (false, .fresh) := by
        rw [getNextKeyValuePair, hdoc, hres, seekName_rbrace hws (by omega)]
        rfl
      simp only [pairsFrom, hend]
  | node k es =>
    cases k with
    | array => simp [Value.isObject] at ho
    | object =>
      simp only [Value.text, List.length_cons, List.length_append, List.length_nil] at he
      obtain ⟨hb, hes⟩ := h
      have hes' := (holds_append.mp hes).1
      have hready : Ready m doc .fresh (doc.p + 1) es.pre es.firstKey := by
        by_cases hq : es.pre.text ≠ [] ∨ es.firstKey.offset = 0
        · exact ready_entries (resumeAt_fresh_of_not_quote hes' hq) hes' (by omega)
        · simp only [not_or, not_not] at hq
          cases hfk : es.firstKey with
          | bare w => simp [hfk, Key.offset] at hq
          | quoted s =>
            have hplain : (Key.quoted s).plain = true := hfk ▸ hl.resolve_left (not_not.mpr hq.1)
            exact hfk ▸ ready_plain hes' (by omega) hq.1 hfk hplain
      obtain ⟨kvps, hpairs, hshows⟩ := pairsFrom_entries hdoc es (n := es.members.length + 1) hn hes (by omega)
        (by omega) (by rw [Nat.add_sub_cancel, hb]; decide) hready (by omega)
      exact ⟨kvps, ⟨_, hpairs⟩, hshows⟩
  | _ => simp [Value.isObject] at ho

theorem iterates_attach {p : ℕ} {v : Value} {pre : Ws} {rest : List UInt8} (hp : 0 < p) (ho : v.isObject = true)
    (hn : v.noBinary = true) (h : Holds m p (pre.text ++ (v.text ++ rest))) (hl : v.Legible) :
    ∃ kvps, Iterates m (attach m ⟨p, (pre.text ++ (v.text ++ rest)).length⟩) kvps ∧
      List.Forall₂ (Shows m) kvps v.seen := by
  rw [attach_object ho h]
  exact iterates_object (Nat.add_pos_left hp _) ho hn (holds_append.mp h).2 rfl hl

/-- When the first key comes out as it is, it was read right. -/
theorem legible_of_iterates {es : Entries .object} {kvp : KeyValuePair} {l : List KeyValuePair}
    (h : Holds m (doc.p + 1) es.text) (he : doc.p + 1 + es.text.length ≤ doc.tail)
    (hi : Iterates m doc (kvp :: l)) (hkey : kvp.key.bytes m = es.firstKey.name) (h0 : es.firstKey.name ≠ []) :
    es.Legible := by
  rw [Entries.Legible, or_iff_not_imp_left, not_not]
  intro hpre
  cases hk : es.firstKey with
  | bare w => rfl
  | quoted s =>
    rw [hk] at hkey h0
    simp only [Key.name] at hkey h0
    by_contra hplain
    obtain ⟨a, ha, hpair⟩ := getNext_found hi.head
    obtain ⟨hname, hend, hlt⟩ := readPair_name hpair
    obtain ⟨mid, t, ht⟩ := es.text_eq
    simp only [ht, hpre, hk, Key.text, Str.text, List.nil_append, List.append_assoc, List.cons_append,
      List.length_append, List.length_cons] at h he
    obtain ⟨hq, hbody⟩ := h
    have hres : resumeAt m doc .fresh = doc.p + 1 + 1 := by
      rw [resumeAt_fresh, hq, if_pos]
      rcases s.quote.char_facts.1 with hc | hc <;> tauto
    rw [hres] at ha
    rw [hname, StringRef.bytes, StringRef.ofRange] at hkey
    have hlen : (readName m a doc.tail).2 - (readName m a doc.tail).1 = s.body.length := by
      rw [← hkey, length_read]
    refine name_ne_body hbody h0 (by simpa using hplain) ha hend (by omega) (by omega) ?_
    rw [← hkey]
    exact holds_read _ _ _

/-- An object that satisfies the condition is enumerated completely. -/
theorem enumerates_of_iterable {p : ℕ} {v : Value} {pre post : Ws} (hp : 0 < p) (ho : v.isObject = true)
    (hn : v.noBinary = true) (h : Holds m p (pre.text ++ (v.text ++ post.text))) (hi : v.Iterable) :
    Enumerates m (attach m ⟨p, (pre.text ++ (v.text ++ post.text)).length⟩)
      (v.members.map fun kv => (kv.1.name, kv.2.cooked)) := by
  obtain ⟨kvps, hit, hshows⟩ := iterates_attach hp ho hn h hi.2
  refine ⟨kvps, hit, ?_⟩
  rw [v.seen_eq_members fun kv hkv => shown_iff.mpr (hi.1 kv hkv)] at hshows
  rw [← List.forall₂_eq_eq_eq, List.forall₂_map_left_iff, List.forall₂_map_right_iff]
  exact hshows.imp fun kvp kv hs => by rw [hs.key, hs.value]

end Document

/-- `{ 'a b':"",c:[]}`: everything that is read right. -/
def legibleObject : Value :=
  .node .object (.cons (.member .blank (.quoted ⟨.single, [0x61, 0x20, 0x62], rfl⟩) .none .none)
    (.str (.empty .double)) .none
    (.one (.member .none (.bare ⟨[0x63], List.cons_ne_nil _ _, rfl⟩) .none .none) (.empty .array .none) .none))

/-- `{"a b":1}`. -/
def compactObject : Value :=
  .node .object (.one (.member .none (.quoted ⟨.double, [0x61, 0x20, 0x62], rfl⟩) .none .none)
    (.lit .one) .none)

end Cpcf.Json
