import Cpcf.Json.Tokens

/-!
A container on one line.

`_AppendAsSingleLine` copies a text, drops what is not visible and puts one blank behind each comma and colon. It
does so outside of double quotes only, as far as it can tell: a double quote opens or closes unless, inside, the
character before it is a backslash. Single quotes are nothing to it, an escaped backslash at the end of a string
keeps the string open, and characters from 128 on count as not visible.

So a token may be changed. `tidy` says of the text of a token when it is not, and `Kept` of all tokens, along the
quotes as the code sees them. The result is a text of the same tree if and only if the tokens are kept.
-/

namespace Cpcf.Json

open Cpcf.Rt

/-! ### The source -/

/-- The loop of `_count_seps`; `prev` is the character before the text. -/
def countSepsLoop : Bool → UInt8 → List UInt8 → ℕ
  | _, _, [] => 0
  | true, prev, c :: s => countSepsLoop (!(c == Ch.dquote && prev != Ch.backslash)) c s
  | false, _, c :: s => (if c = Ch.comma then 1 else 0) + countSepsLoop (c == Ch.dquote) c s

/-- `_count_seps`. -/
def countSeps (doc : List UInt8) : ℕ := countSepsLoop false 0 doc

/-- The loop of `_AppendAsSingleLine`: what is appended. Characters from 128 on are negative and dropped with
the blanks. -/
def singleLineLoop : Bool → UInt8 → List UInt8 → List UInt8
  | _, _, [] => []
  | true, prev, c :: s => c :: singleLineLoop (!(c == Ch.dquote && prev != Ch.backslash)) c s
  | false, _, c :: s =>
    if schar c ≤ 0x20 then singleLineLoop false c s
    else if c = Ch.comma ∨ c = Ch.colon then c :: Ch.space :: singleLineLoop false c s
    else c :: singleLineLoop (c == Ch.dquote) c s

attribute [local simp] singleLineLoop

/-- What `_AppendAsSingleLine` appends. -/
def singleLine (doc : List UInt8) : List UInt8 := singleLineLoop false 0 doc

/-- A container is put on one line. -/
def isSingleLine (doc : List UInt8) (line_remain : ℤ) : Bool :=
  doc.length < line_remain &&
    (countSeps doc == 0 || (decide (doc.length < (countSeps doc + 1) * 16) && decide (countSeps doc ≤ 3)))

/-! ### Quotes as they are seen -/

/-- Whether the end of the text is seen as inside of double quotes. -/
def quoteAfter : Bool → UInt8 → List UInt8 → Bool
  | inq, _, [] => inq
  | true, prev, c :: s => quoteAfter (!(c == Ch.dquote && prev != Ch.backslash)) c s
  | false, _, c :: s => quoteAfter (c == Ch.dquote) c s

attribute [local simp] quoteAfter

/-- The text is copied as it is: where it is seen as outside of double quotes, every character is visible, but for
exactly one blank behind each comma and colon. -/
def tidy : Bool → UInt8 → List UInt8 → Bool
  | _, _, [] => true
  | true, prev, c :: s => tidy (!(c == Ch.dquote && prev != Ch.backslash)) c s
  | false, _, [c] => isVisible c && !(c == Ch.comma || c == Ch.colon)
  | false, _, c :: d :: s =>
    if c = Ch.comma ∨ c = Ch.colon then d == Ch.space && tidy false d s
    else isVisible c && tidy (c == Ch.dquote) c (d :: s)

/-- Whether the end of a token is seen as inside of double quotes. A mark or a word holds no quote. -/
def Token.after (inq : Bool) : Token → Bool
  | .str s => quoteAfter inq 0 s.text
  | _ => inq

/-- A string or a word is copied as it is. -/
def Token.kept (inq : Bool) : Token → Bool
  | .mark _ => true
  | .str s => tidy inq 0 s.text
  | .word w => inq || w.text.all isVisible

/-- Every string and word is copied as it is, with the quotes as they are seen. -/
def Kept : Bool → List Token → Bool
  | _, [] => true
  | inq, t :: ts => t.kept inq && Kept (t.after inq) ts

/-! ### The loop -/

theorem isBare_not_separator : ∀ b : UInt8, isBare b = true → ¬ (b = Ch.comma ∨ b = Ch.colon) := by
  set_option maxRecDepth 20000 in decide

theorem isWs_ne_backslash : ∀ b : UInt8, isWs b = true → b ≠ Ch.backslash := by set_option maxRecDepth 20000 in decide

section Loop

variable {inq : Bool} {prev : UInt8} {s t : List UInt8}

theorem isVisible_iff {b : UInt8} : isVisible b = true ↔ ¬ schar b ≤ 0x20 := by
  simp [isVisible]

theorem isVisible_eq_false {b : UInt8} : isVisible b = false ↔ schar b ≤ 0x20 := by
  simp [isVisible]

theorem singleLineLoop_false (prev : UInt8) (s : List UInt8) :
    singleLineLoop false prev s = singleLineLoop false 0 s := by
  cases s <;> rfl

theorem singleLineLoop_append (inq : Bool) (prev : UInt8) (s t : List UInt8) :
    singleLineLoop inq prev (s ++ t) =
      singleLineLoop inq prev s ++ singleLineLoop (quoteAfter inq prev s) (s.getLastD prev) t := by
  induction s generalizing inq prev with
  | nil => simp
  | cons c s ih =>
    rw [List.getLastD_cons, List.cons_append]
    cases inq with
    | true => rw [singleLineLoop, singleLineLoop, quoteAfter, ih, List.cons_append]
    | false =>
      rw [singleLineLoop, singleLineLoop, quoteAfter]
      split
      · rename_i hc
        have hq : (c == Ch.dquote) = false := by
          rw [beq_eq_false_iff_ne]
          rintro rfl
          exact absurd hc (by decide)
        rw [ih, hq]
      · split
        · rename_i hc
          have hq : (c == Ch.dquote) = false := by
            rw [beq_eq_false_iff_ne]
            rintro rfl
            exact absurd hc (by decide)
          rw [ih, hq, List.cons_append, List.cons_append]
        · rw [ih, List.cons_append]

/-- Only what is not visible comes and goes. -/
theorem visible_singleLineLoop (inq : Bool) (prev : UInt8) (s : List UInt8) :
    visible (singleLineLoop inq prev s) = visible s := by
  induction s generalizing inq prev with
  | nil => rfl
  | cons c s ih =>
    have hcons : ∀ l, visible l = visible s → visible (c :: l) = visible (c :: s) := by
      intro l hl
      rw [visible, visible, List.filter_cons, List.filter_cons, ← visible, ← visible, hl]
    cases inq with
    | true =>
      rw [singleLineLoop]
      exact hcons _ (ih _ _)
    | false =>
      rw [singleLineLoop]
      split
      · rename_i hc
        have hv : ¬ isVisible c = true := by simpa using isVisible_eq_false.mpr hc
        rw [ih, visible, visible, List.filter_cons_of_neg hv]
      · split
        · refine hcons _ ?_
          rw [visible, List.filter_cons_of_neg (by decide), ← visible, ih]
        · exact hcons _ (ih _ _)

/-- Outside of quotes a visible character comes first. -/
theorem isVisible_of_singleLineLoop {b : UInt8} (h : singleLineLoop false prev s = b :: t) : isVisible b = true := by
  induction s generalizing prev with
  | nil => simp at h
  | cons c s ih =>
    rw [singleLineLoop] at h
    split at h
    · exact ih h
    · rename_i hc
      split at h <;> exact (List.cons.inj h).1 ▸ isVisible_iff.mpr hc

theorem tidy_iff (inq : Bool) (prev : UInt8) (s : List UInt8) :
    tidy inq prev s = true ↔ singleLineLoop inq prev s = s := by
  induction inq, prev, s using tidy.induct with
  | case1 inq prev => simp [tidy]
  | case2 prev c s ih => rw [tidy, singleLineLoop, List.cons_inj_right, ih]
  | case3 prev c =>
    rw [tidy, singleLineLoop]
    split
    · rename_i hc
      simp [isVisible_eq_false.mpr hc]
    · rename_i hv
      rw [isVisible_iff.mpr hv, Bool.true_and, Bool.not_eq_true', Bool.or_eq_false_iff, beq_eq_false_iff_ne,
        beq_eq_false_iff_ne]
      split
      · rename_i hc
        simp only [singleLineLoop, List.cons.injEq, reduceCtorEq, and_false, iff_false]
        tauto
      · rename_i hc
        simpa only [singleLineLoop, iff_true, not_or] using hc
  | case4 prev c d s hc ih =>
    have hv : ¬ schar c ≤ 0x20 := by rcases hc with rfl | rfl <;> decide
    rw [tidy, if_pos hc, singleLineLoop, if_neg hv, if_pos hc, List.cons_inj_right, Bool.and_eq_true, beq_iff_eq, ih]
    constructor
    · rintro ⟨rfl, h⟩
      rw [singleLineLoop, if_pos (by decide), h]
    · intro h
      obtain ⟨hd, hs⟩ := List.cons.inj h
      subst hd
      rw [singleLineLoop, if_pos (by decide)] at hs
      exact ⟨rfl, hs⟩
  | case5 prev c d s hc ih =>
    rw [tidy, if_neg hc, singleLineLoop]
    split
    · rename_i hv
      have hvis := isVisible_eq_false.mpr hv
      rw [hvis, Bool.false_and]
      constructor
      · simp
      · intro h
        rw [isVisible_of_singleLineLoop h] at hvis
        cases hvis
    · rename_i hv
      rw [List.cons_inj_right, isVisible_iff.mpr hv, Bool.true_and, ih]

/-- Whitespace is dropped outside of quotes and copied inside. -/
theorem singleLineLoop_ws (inq : Bool) (prev : UInt8) (ws : Ws) (s : List UInt8) :
    singleLineLoop inq prev (ws.text ++ s) =
      (if inq then ws else .none).text ++ singleLineLoop inq (ws.text.getLastD prev) s := by
  rw [singleLineLoop_append]
  suffices h : ∀ l : List UInt8, (∀ b ∈ l, isWs b = true) → ∀ prev,
      singleLineLoop inq prev l = (if inq then l else []) ∧ quoteAfter inq prev l = inq by
    obtain ⟨h1, h2⟩ := h ws.text (fun b hb => ws.isWs_of_mem hb) prev
    rw [h1, h2]
    cases inq <;> rfl
  intro l hl
  induction l with
  | nil => cases inq <;> exact fun prev => ⟨rfl, rfl⟩
  | cons c l ih =>
    intro prev
    have hc := hl c (by simp)
    obtain ⟨h1, h2⟩ := ih (fun b hb => hl b (by simp [hb])) c
    have hv : schar c ≤ 0x20 := isVisible_eq_false.mp (isWs_not_isVisible c hc)
    have hq : (c == Ch.dquote) = false := beq_eq_false_iff_ne.mpr (isWs_facts c hc).2.2.2.1
    cases inq with
    | true => simp only [singleLineLoop, quoteAfter, hq, Bool.false_and, Bool.not_false, h1, h2, if_true, and_self]
    | false => simpa only [singleLineLoop, quoteAfter, hq, if_pos hv, Bool.false_eq_true, if_false] using ⟨h1, h2⟩

/-- A word is copied inside of quotes; outside it loses what is not visible. -/
theorem singleLineLoop_word (inq : Bool) (prev : UInt8) (w : Word) :
    singleLineLoop inq prev w.text = (if inq then w.text else visible w.text) ∧ quoteAfter inq prev w.text = inq := by
  suffices h : ∀ l : List UInt8, (∀ b ∈ l, isBare b = true) → ∀ prev,
      singleLineLoop inq prev l = (if inq then l else visible l) ∧ quoteAfter inq prev l = inq from
    h w.text (fun b hb => w.isBare_of_mem hb) prev
  intro l hl
  induction l with
  | nil => cases inq <;> exact fun prev => ⟨rfl, rfl⟩
  | cons c l ih =>
    intro prev
    have hc := hl c (by simp)
    obtain ⟨h1, h2⟩ := ih (fun b hb => hl b (by simp [hb])) c
    have hq : (c == Ch.dquote) = false := beq_eq_false_iff_ne.mpr (isBare_facts c hc).2.2.1
    cases inq with
    | true => simp only [singleLineLoop, quoteAfter, hq, Bool.false_and, Bool.not_false, h1, h2, if_true, and_self]
    | false =>
      refine ⟨?_, by rw [quoteAfter, hq, h2]⟩
      rw [singleLineLoop, hq, h1]
      simp only [Bool.false_eq_true, if_false]
      split
      · rename_i hv
        have hv : ¬ isVisible c = true := by simpa using isVisible_eq_false.mpr hv
        rw [visible, visible, List.filter_cons_of_neg hv]
      · rename_i hv
        rw [if_neg (isBare_not_separator c hc), visible_cons (isVisible_iff.mpr hv)]

end Loop

/-! ### Tokens in the loop -/

/-- A string is not read as escaped from the start. -/
def Token.Starts (prev : UInt8) : Token → Prop
  | .str _ => prev ≠ Ch.backslash
  | _ => True

/-- What stands behind a token in a text: a mark behind a word, and something behind a comma or a colon. -/
def Token.Before : Token → List Token → Prop
  | .word _, ts => ∃ c us, ts = .mark c :: us
  | .mark c, ts => c = .comma ∨ c = .colon → ts ≠ []
  | .str _, _ => True

/-- Tokens as they stand in a text. -/
def Separated : List Token → Prop
  | [] => True
  | t :: ts => t.Before ts ∧ Separated ts

section Tokens

variable {inq : Bool} {prev : UInt8} {t : Token} {ts : List Token}

theorem Mark.char_facts (c : Mark) : c.char ≠ Ch.dquote ∧ c.char ≠ Ch.backslash ∧ isWs c.char = false ∧
    isBare c.char = false := by
  rcases c with (_ | _) | (_ | _) | _ | _ <;> decide

theorem Token.exists_cons (t : Token) (prev : UInt8) :
    ∃ c s, t.text = c :: s ∧ isWs c = false ∧ (t.Starts prev → c ≠ Ch.dquote ∨ prev ≠ Ch.backslash) := by
  cases t with
  | mark c => exact ⟨c.char, [], rfl, c.char_facts.2.2.1, fun _ => Or.inl c.char_facts.1⟩
  | str s => exact ⟨_, _, rfl, by cases s.quote <;> decide, Or.inr⟩
  | word w =>
    obtain ⟨b, s, hw, hb⟩ := w.exists_cons
    exact ⟨b, s, hw, (isBare_opens b hb).1, fun _ => Or.inl (isBare_facts b hb).2.2.1⟩

theorem singleLineLoop_start {c : UInt8} (h : c ≠ Ch.dquote ∨ prev ≠ Ch.backslash) (inq : Bool) (s : List UInt8) :
    singleLineLoop inq prev (c :: s) = singleLineLoop inq 0 (c :: s) := by
  cases inq with
  | false => rw [singleLineLoop_false]
  | true =>
    rw [singleLineLoop, singleLineLoop]
    rcases h with h | h
    · rw [beq_eq_false_iff_ne.mpr h, Bool.false_and, Bool.false_and]
    · rw [bne_iff_ne.mpr h, show ((0 : UInt8) != Ch.backslash) = true from rfl]

theorem quoteAfter_token (inq : Bool) (t : Token) : quoteAfter inq 0 t.text = t.after inq := by
  cases t with
  | mark c =>
    have hq : (c.char == Ch.dquote) = false := beq_eq_false_iff_ne.mpr c.char_facts.1
    cases inq <;> simp only [Token.text, quoteAfter, Token.after, hq, Bool.false_and, Bool.not_false]
  | str s => rfl
  | word w => exact (singleLineLoop_word inq 0 w).2

/-- Whitespace and a token: some whitespace, and what becomes of the token. -/
theorem singleLineLoop_step (h : t.Starts prev) (inq : Bool) (ws : Ws) (r : List UInt8) :
    ∃ ws' : Ws, singleLineLoop inq prev (ws.text ++ (t.text ++ r)) =
      ws'.text ++ (singleLineLoop inq 0 t.text ++ singleLineLoop (t.after inq) (t.text.getLastD 0) r) := by
  refine ⟨if inq then ws else .none, ?_⟩
  have hlast : t.Starts (ws.text.getLastD prev) := by
    cases t with
    | str s =>
      rcases List.eq_nil_or_concat ws.text with h0 | ⟨l, b, hb⟩
      · rw [h0]
        exact h
      · rw [hb, List.concat_eq_append, List.getLastD_concat]
        exact isWs_ne_backslash b (ws.isWs_of_mem (by rw [hb]; simp))
    | _ => trivial
  obtain ⟨c, s, ht, -, hc⟩ := t.exists_cons (ws.text.getLastD prev)
  rw [singleLineLoop_ws, ht, List.cons_append, singleLineLoop_start (hc hlast), ← List.cons_append, ← ht,
    singleLineLoop_append, quoteAfter_token]

/-- The string that comes next, if one does, does not start behind a backslash. -/
theorem starts_of_before (h : t.Before ts) : ∀ u us, ts = u :: us → u.Starts (t.text.getLastD 0) := by
  rintro u us rfl
  cases u with
  | str s =>
    cases t with
    | mark c => exact c.char_facts.2.1
    | str s' =>
      have hlast : (Token.str s').text.getLastD 0 = s'.quote.char := by
        rw [Token.text, Str.text, ← List.cons_append, List.getLastD_concat]
      rw [hlast]
      exact s'.quote.char_ne_backslash
    | word w =>
      obtain ⟨c, us, h⟩ := h
      cases h
  | _ => trivial

/-- A token that is kept is copied, with a blank behind a separator. -/
theorem singleLineLoop_kept (h : t.kept inq = true) (hb : t.Before ts) :
    ∃ b : Ws, singleLineLoop inq 0 t.text = t.text ++ b.text ∧ (b.text ≠ [] → ts ≠ []) := by
  cases t with
  | mark c =>
    cases inq with
    | true => exact ⟨.none, rfl, fun h => absurd rfl h⟩
    | false =>
      by_cases hc : c = .comma ∨ c = .colon
      · refine ⟨.blank, ?_, fun _ => hb hc⟩
        rcases hc with rfl | rfl <;> decide
      · refine ⟨.none, ?_, fun h => absurd rfl h⟩
        rcases c with (_ | _) | (_ | _) | _ | _
        all_goals first | decide | exact absurd (Or.inl rfl) hc | exact absurd (Or.inr rfl) hc
  | str s =>
    refine ⟨.none, ?_, fun h => absurd rfl h⟩
    rw [Ws.none_text, List.append_nil]
    exact (tidy_iff _ _ s.text).mp h
  | word w =>
    refine ⟨.none, ?_, fun h => absurd rfl h⟩
    rw [Token.text, (singleLineLoop_word inq 0 w).1]
    cases inq with
    | true => simp
    | false =>
      have hall : w.text.all isVisible = true := h
      simpa [visible] using hall

/-- Kept tokens are still spread. -/
theorem spread_singleLineLoop : ∀ (ts : List Token) {inq : Bool} {prev : UInt8} {s : List UInt8}, Separated ts →
    (∀ u us, ts = u :: us → u.Starts prev) → Kept inq ts = true → Spread [] ts s →
    Spread [] ts (singleLineLoop inq prev s)
  | [], inq, prev, s, _, _, _, hs => by
    rw [show s = [] from hs]
    rfl
  | t :: ts, inq, prev, s, hsep, hstart, hk, hs => by
    obtain ⟨ws, r, rfl, hs⟩ := hs
    rw [Kept, Bool.and_eq_true] at hk
    obtain ⟨ws', hstep⟩ := singleLineLoop_step (hstart t ts rfl) inq ws r
    obtain ⟨b, hb, h0⟩ := singleLineLoop_kept hk.1 hsep.1
    have ih := spread_singleLineLoop ts hsep.2 (starts_of_before hsep.1) hk.2 hs
    rw [hstep, hb, List.append_assoc]
    refine ⟨ws', _, rfl, ?_⟩
    by_cases hbt : b.text = []
    · rw [hbt]
      exact ih
    · exact ih.ws b (h0 hbt)

theorem eq_of_ws {a b : Ws} {x y : List UInt8} (h : a.text ++ x = b.text ++ y) (hx : Stops isWs x)
    (hy : Stops isWs y) : x = y := by
  calc
    x = dropWs (a.text ++ x) := (dropWs_append hx).symm
    _ = dropWs (b.text ++ y) := by rw [h]
    _ = y := dropWs_append hy

/-- Where two texts that end with the same visible character have the same visible characters and start the
same text, they are the same. -/
theorem eq_of_visible_end {q : UInt8} {s t x y : List UInt8} (hq : isVisible q = true)
    (hv : visible (s ++ [q]) = visible (t ++ [q])) (h : (s ++ [q]) ++ x = (t ++ [q]) ++ y) :
    s ++ [q] = t ++ [q] ∧ x = y := by
  have hnil : ∀ s t c : List UInt8, visible (s ++ [q]) = visible (t ++ [q]) → s ++ [q] = (t ++ [q]) ++ c →
      c = [] := by
    intro s t c hv hc
    rcases List.eq_nil_or_concat c with h0 | ⟨l, b, rfl⟩
    · exact h0
    · rw [List.concat_eq_append, ← List.append_assoc] at hc
      obtain rfl : q = b := by simpa using (List.append_inj' hc rfl).2
      rw [hc, visible_append, visible_append, visible_cons hq] at hv
      have := congrArg List.length hv
      simp at this
  rcases List.append_eq_append_iff.mp h with ⟨c, h1, h2⟩ | ⟨c, h1, h2⟩
  · obtain rfl := hnil t s c hv.symm h1
    rw [List.append_nil] at h1
    exact ⟨h1.symm, h2⟩
  · obtain rfl := hnil s t c hv h1
    rw [List.append_nil] at h1
    exact ⟨h1, h2.symm⟩

/-- A string that is found again is kept. -/
theorem str_aligned {st : Str} {a b : Ws} {x y : List UInt8}
    (h : a.text ++ (singleLineLoop inq 0 st.text ++ x) = b.text ++ (st.text ++ y)) :
    tidy inq 0 st.text = true ∧ x = y := by
  have hq := st.quote.isVisible_char
  have hsep : ¬ (st.quote.char = Ch.comma ∨ st.quote.char = Ch.colon) := by cases st.quote <;> decide
  have hone : ∀ inq prev, singleLineLoop inq prev [st.quote.char] = [st.quote.char] := by
    intro inq prev
    cases inq with
    | true => rfl
    | false => rw [singleLineLoop, if_neg (isVisible_iff.mp hq), if_neg hsep, singleLineLoop]
  have hend : ∃ s, singleLineLoop inq 0 st.text = s ++ [st.quote.char] := by
    rw [Str.text, ← List.cons_append, singleLineLoop_append, hone]
    exact ⟨_, rfl⟩
  have hfirst : ∃ l, singleLineLoop inq 0 st.text = st.quote.char :: l := by
    rw [Str.text]
    cases inq with
    | true => exact ⟨_, rfl⟩
    | false =>
      rw [singleLineLoop, if_neg (isVisible_iff.mp hq), if_neg hsep]
      exact ⟨_, rfl⟩
  have hws : ∀ l, Stops isWs (st.quote.char :: l) := by
    intro l
    cases st.quote <;> rfl
  have heq : singleLineLoop inq 0 st.text ++ x = st.text ++ y := by
    refine eq_of_ws h ?_ (hws _)
    obtain ⟨l, hl⟩ := hfirst
    rw [hl]
    exact hws _
  obtain ⟨l, hl⟩ := hend
  have hvis := visible_singleLineLoop inq 0 st.text
  rw [hl] at heq hvis
  rw [tidy_iff, hl]
  exact eq_of_visible_end (t := st.quote.char :: st.body) hq hvis heq

/-- A word that is found again in front of a mark is kept. -/
theorem word_aligned {w : Word} {a b : Ws} {x y : List UInt8} (hx : inq = false → ∃ c x', x = Mark.char c :: x')
    (hy : Stops isBare y) (h : a.text ++ (singleLineLoop inq 0 w.text ++ x) = b.text ++ (w.text ++ y)) :
    (Token.word w).kept inq = true ∧ x = y := by
  rw [(singleLineLoop_word inq 0 w).1] at h
  have hopens : ∀ y, Stops isWs (w.text ++ y) := fun y => (w.opens.append y).stops
  cases inq with
  | true => exact ⟨rfl, List.append_cancel_left (eq_of_ws h (hopens x) (hopens y))⟩
  | false =>
    obtain ⟨c, x, rfl⟩ := hx rfl
    have hbare : ∀ b ∈ visible w.text, isBare b = true := fun b hb => w.isBare_of_mem (List.mem_of_mem_filter hb)
    have hstop : Stops isWs (visible w.text ++ c.char :: x) := by
      cases hv : visible w.text with
      | nil => simpa [Stops] using c.char_facts.2.2.1
      | cons b l => simpa [Stops] using (isBare_opens b (hbare b (by rw [hv]; simp))).1
    have heq : visible w.text ++ c.char :: x = w.text ++ y := eq_of_ws h hstop (hopens y)
    obtain ⟨h1, h2⟩ := takeWhile_append_stops hbare
      (show Stops isBare (c.char :: x) by simpa [Stops] using c.char_facts.2.2.2)
    obtain ⟨h3, h4⟩ := takeWhile_append_stops (fun _ hb => w.isBare_of_mem hb) hy
    rw [heq] at h1 h2
    refine ⟨?_, h2.symm.trans h4⟩
    have hall : visible w.text = w.text := h1.symm.trans h3
    simpa [Token.kept, visible] using hall

/-- Outside of quotes nothing is left before a mark. -/
theorem exists_of_spread_mark {c : Mark} {rest r : List UInt8} (h : Spread rest (.mark c :: ts) r) (prev : UInt8) :
    ∃ l, singleLineLoop false prev r = c.char :: l := by
  obtain ⟨ws, r, rfl, -⟩ := h
  rw [singleLineLoop_ws, if_neg Bool.false_ne_true, Ws.none_text, List.nil_append, Token.text,
    List.singleton_append, singleLineLoop, if_neg (isVisible_iff.mp c.isVisible_char)]
  split <;> exact ⟨_, rfl⟩

/-- A token that is found again is kept, and what is behind it is found again behind a blank at most. -/
theorem token_aligned {s z x y : List UInt8} {a b : Ws} (hb : t.Before ts) (hs : Spread [] ts s)
    (hz : Spread y ts z)
    (h : a.text ++ (singleLineLoop inq 0 t.text ++ (singleLineLoop (t.after inq) prev s ++ x)) =
      b.text ++ (t.text ++ z)) :
    t.kept inq = true ∧ ∃ c : Ws, c.text ++ (singleLineLoop (t.after inq) prev s ++ x) = z ∧
      (c.text ≠ [] → ts ≠ []) := by
  cases t with
  | mark c =>
    refine ⟨rfl, ?_⟩
    obtain ⟨d, hd, h0⟩ := singleLineLoop_kept (show (Token.mark c).kept inq = true from rfl) hb
    rw [hd, List.append_assoc] at h
    have hws : ∀ l, Stops isWs ((Token.mark c).text ++ l) := by
      intro l
      simpa [Stops, Token.text] using c.char_facts.2.2.1
    exact ⟨d, List.append_cancel_left (eq_of_ws h (hws _) (hws _)), h0⟩
  | str st =>
    obtain ⟨h1, h2⟩ := str_aligned h
    exact ⟨h1, .none, h2, fun h => absurd rfl h⟩
  | word w =>
    obtain ⟨c, us, rfl⟩ := hb
    have hx : inq = false → ∃ (c : Mark) (x' : List UInt8),
        singleLineLoop ((Token.word w).after inq) prev s ++ x = c.char :: x' := by
      rintro rfl
      obtain ⟨l, hl⟩ := exists_of_spread_mark hs prev
      rw [show (Token.word w).after false = false from rfl, hl]
      exact ⟨c, l ++ x, rfl⟩
    have hy : Stops isBare z := by
      obtain ⟨wz, r, rfl, -⟩ := hz
      exact stops_isBare c.char_facts.2.2.2
    obtain ⟨h1, h2⟩ := word_aligned hx hy h
    exact ⟨h1, .none, h2, fun h => absurd rfl h⟩

/-- **Tokens that are found again are kept.** -/
theorem kept_of_aligned : ∀ (ts : List Token) {inq : Bool} {prev : UInt8} {s z x y : List UInt8} {a b : Ws},
    Separated ts → (∀ u us, ts = u :: us → u.Starts prev) → Spread [] ts s → Spread y ts z →
    a.text ++ (singleLineLoop inq prev s ++ x) = b.text ++ z →
    Kept inq ts = true ∧ (if ts = [] then a.text ++ x = b.text ++ y else x = y)
  | [], inq, prev, s, z, x, y, a, b, _, _, hs, hz, h => by
    rw [show s = [] from hs, show z = y from hz] at h
    exact ⟨rfl, h⟩
  | t :: ts, inq, prev, s, z, x, y, a, b, hsep, hstart, hs, hz, h => by
    obtain ⟨ws, r, rfl, hs⟩ := hs
    obtain ⟨wz, r', rfl, hz⟩ := hz
    obtain ⟨ws', hstep⟩ := singleLineLoop_step (hstart t ts rfl) inq ws r
    rw [hstep, List.append_assoc, List.append_assoc, ← List.append_assoc a.text, ← List.append_assoc b.text,
      ← Ws.append_text, ← Ws.append_text] at h
    obtain ⟨hk, c, hc, h0⟩ := token_aligned hsep.1 hs hz h
    obtain ⟨ih, hxy⟩ := kept_of_aligned ts (b := .none) hsep.2 (starts_of_before hsep.1) hs hz hc
    rw [Kept, hk, ih, if_neg (List.cons_ne_nil t ts)]
    refine ⟨rfl, ?_⟩
    split at hxy
    · rename_i hnil
      have : c.text = [] := by
        by_contra hne
        exact h0 hne hnil
      rw [this] at hxy
      exact hxy
    · exact hxy

end Tokens

/-! ### Values on one line -/

theorem Head.separated {k : Kind} (h : Head k) {ts : List Token} (h0 : ts ≠ []) (hs : Separated ts) :
    Separated (h.tokens ++ ts) := by
  match h with
  | .item _ => exact hs
  | .member _ (.quoted s) _ _ => exact ⟨trivial, fun _ => h0, hs⟩
  | .member _ (.bare w) _ _ => exact ⟨⟨.colon, ts, rfl⟩, fun _ => h0, hs⟩

mutual
theorem Value.separated (v : Value) (hn : v.noBinary = true) {c : Mark} {us : List Token}
    (h : Separated (.mark c :: us)) : Separated (v.tokens ++ .mark c :: us) := by
  match v with
  | .str s => exact ⟨trivial, h⟩
  | .lit w => exact ⟨⟨c, us, rfl⟩, h⟩
  | .bin b => simp [Value.noBinary] at hn
  | .empty k ws => exact ⟨by simp [Token.Before], by simp [Token.Before], h⟩
  | .node k es =>
    rw [Value.tokens, List.cons_append, List.append_assoc]
    refine ⟨by simp [Token.Before], ?_⟩
    exact es.separated hn ⟨by simp [Token.Before], h⟩
theorem Entries.separated : ∀ {k : Kind} (es : Entries k), es.noBinary = true → ∀ {c : Mark} {us : List Token},
    Separated (.mark c :: us) → Separated (es.tokens ++ .mark c :: us)
  | _, .one h v _, hn, c, us, hs => by
    rw [Entries.tokens, List.append_assoc]
    exact h.separated (by simp) (v.separated hn hs)
  | _, .cons h v _ es, hn, c, us, hs => by
    simp only [Entries.noBinary, Bool.and_eq_true] at hn
    rw [Entries.tokens, List.append_assoc, List.append_assoc]
    exact h.separated (by simp) (v.separated hn.1 ⟨by simp [Token.Before], es.separated hn.2 hs⟩)
end

/-- A container. -/
def Value.isContainer : Value → Bool
  | .empty _ _ | .node _ _ => true
  | _ => false

/-- The tokens of a container start and end with a bracket. -/
theorem Value.separated_container {v : Value} (hc : v.isContainer = true) (hn : v.noBinary = true) :
    Separated v.tokens ∧ ∃ k ts, v.tokens = .mark (.opening k) :: ts := by
  cases v with
  | empty k ws => exact ⟨⟨by simp [Token.Before], by simp [Token.Before], trivial⟩, k, _, rfl⟩
  | node k es =>
    refine ⟨⟨by simp [Token.Before], es.separated hn ⟨by simp [Token.Before], trivial⟩⟩, k, _, rfl⟩
  | _ => simp [Value.isContainer] at hc

section Container

variable {v w : Value}

theorem Value.starts (hc : v.isContainer = true) (hn : v.noBinary = true) :
    ∀ u us, v.tokens = u :: us → u.Starts 0 := by
  obtain ⟨-, k, ts, hts⟩ := v.separated_container hc hn
  intro u us hu
  rw [hts] at hu
  cases hu
  trivial

/-- When the tokens are kept, the line is a text of the same tree. -/
theorem exists_of_kept (hc : v.isContainer = true) (hn : v.noBinary = true) (hk : Kept false v.tokens = true) :
    ∃ (ws : Ws) (w : Value), singleLine v.text = ws.text ++ w.text ∧ w.tree = v.tree := by
  have hs := v.spread hn []
  rw [List.append_nil] at hs
  obtain ⟨ws, w, hw, ht⟩ := v.exists_of_spread hn
    (spread_singleLineLoop v.tokens (v.separated_container hc hn).1 (Value.starts hc hn) hk hs)
  rw [List.append_nil] at hw
  exact ⟨ws, w, hw, ht⟩

/-- When the line is read as the same tree, the tokens are kept. -/
theorem kept_of_singleLine {a b : Ws} {x y : List UInt8} (hc : v.isContainer = true) (hn : v.noBinary = true)
    (hw : w.noBinary = true) (ht : w.tree = v.tree)
    (h : a.text ++ (singleLine v.text ++ x) = b.text ++ (w.text ++ y)) : Kept false v.tokens = true ∧ x = y := by
  obtain ⟨hsep, k, ts, hts⟩ := v.separated_container hc hn
  have hvis : visible v.text ++ visible x = visible w.text ++ visible y := by
    have := congrArg visible h
    simpa [singleLine, visible_singleLineLoop] using this
  have hs := v.spread hn []
  rw [List.append_nil] at hs
  have hz := w.spread hw y
  rw [← (v.tokens_eq w ht hvis).1] at hz
  obtain ⟨hk, hxy⟩ := kept_of_aligned v.tokens hsep (Value.starts hc hn) hs hz h
  rw [if_neg (by rw [hts]; simp)] at hxy
  exact ⟨hk, hxy⟩

end Container

end Cpcf.Json
