import Cpcf.Json.ReaderSound

/-!
Texts as tokens with whitespace between them.

The tokens of a value are its brackets, commas and colons, its strings and its words, in order. A text of the value
is the tokens with whitespace before each (`Value.spread`), and every such text is one of a value with the same
tree (`Value.exists_of_spread`). The tokens can be found again without the whitespace: two values with the
same tree whose texts agree up to what is not visible have the same tokens (`Value.tokens_eq`).
-/

namespace Cpcf.Json

open Cpcf.Rt

/-! ### Tokens -/

/-- The brackets and separators. -/
inductive Mark
  | opening (k : Kind)
  | closing (k : Kind)
  | comma
  | colon
  deriving DecidableEq

/-- The character of a mark. -/
def Mark.char : Mark → UInt8
  | .opening k => k.opening
  | .closing k => k.closing
  | .comma => Ch.comma
  | .colon => Ch.colon

/-- A token. -/
inductive Token
  | mark (c : Mark)
  | str (s : Str)
  | word (w : Word)

/-- The text of a token. -/
def Token.text : Token → List UInt8
  | .mark c => [c.char]
  | .str s => s.text
  | .word w => w.text

/-- The token of a key. -/
def Key.token : Key → Token
  | .quoted s => .str s
  | .bare w => .word w

/-- The tokens before the value of an entry. -/
def Head.tokens : {k : Kind} → Head k → List Token
  | _, .item _ => []
  | _, .member _ key _ _ => [key.token, .mark .colon]

mutual
/-- The tokens of a value without binary parts. -/
def Value.tokens : Value → List Token
  | .str s => [.str s]
  | .lit w => [.word w]
  | .bin _ => []
  | .empty k _ => [.mark (.opening k), .mark (.closing k)]
  | .node k es => .mark (.opening k) :: (es.tokens ++ [.mark (.closing k)])
/-- The tokens between the brackets. -/
def Entries.tokens : {k : Kind} → Entries k → List Token
  | _, .one h v _ => h.tokens ++ v.tokens
  | _, .cons h v _ rest => h.tokens ++ (v.tokens ++ .mark .comma :: rest.tokens)
end

/-- The text is the tokens with whitespace before each, and then `rest`. -/
def Spread (rest : List UInt8) : List Token → List UInt8 → Prop
  | [], s => s = rest
  | t :: ts, s => ∃ (ws : Ws) (r : List UInt8), s = ws.text ++ (t.text ++ r) ∧ Spread rest ts r

/-- Two stretches of whitespace. -/
def Ws.append (a b : Ws) : Ws := ⟨a.text ++ b.text, by simp [a.wf, b.wf]⟩

@[simp] theorem Ws.append_text (a b : Ws) : (a.append b).text = a.text ++ b.text := rfl

@[simp] theorem Ws.none_text : Ws.none.text = [] := rfl

theorem Key.token_text (key : Key) : key.token.text = key.text := by cases key <;> rfl

section Spread

variable {ts us : List Token} {rest s : List UInt8}

theorem spread_append : Spread rest (ts ++ us) s ↔ ∃ r, Spread r ts s ∧ Spread rest us r := by
  induction ts generalizing s with
  | nil => simp [Spread]
  | cons t ts ih =>
    simp only [List.cons_append, Spread, ih]
    constructor
    · rintro ⟨ws, r, rfl, r', h1, h2⟩
      exact ⟨r', ⟨ws, r, rfl, h1⟩, h2⟩
    · rintro ⟨r', ⟨ws, r, rfl, h1⟩, h2⟩
      exact ⟨ws, r, rfl, r', h1, h2⟩

/-- Whitespace may stand before the first token. -/
theorem Spread.ws (ws : Ws) (h0 : ts ≠ []) (h : Spread rest ts s) : Spread rest ts (ws.text ++ s) := by
  cases ts with
  | nil => exact absurd rfl h0
  | cons t ts =>
    obtain ⟨ws', r, rfl, h⟩ := h
    exact ⟨ws.append ws', r, by simp, h⟩

theorem spread_head {k : Kind} (h : Head k) (h0 : ts ≠ []) (hs : Spread rest ts s) :
    Spread rest (h.tokens ++ ts) (h.text ++ s) := by
  cases h with
  | item pre => exact hs.ws pre h0
  | member pre key mid post =>
    refine ⟨pre, mid.text ++ Ch.colon :: (post.text ++ s), ?_, mid, _, rfl, hs.ws post h0⟩
    simp [Head.text, Key.token_text]

/-- More whitespace before the value of an entry. -/
def Head.pad : {k : Kind} → Head k → Ws → Head k
  | _, .item pre, ws => .item (pre.append ws)
  | _, .member pre key mid post, ws => .member pre key mid (post.append ws)

theorem Head.pad_text {k : Kind} (h : Head k) (ws : Ws) : (h.pad ws).text = h.text ++ ws.text := by
  cases h <;> simp [Head.pad, Head.text]

theorem Head.pad_name {k : Kind} (h : Head k) (ws : Ws) : (h.pad ws).name = h.name := by cases h <;> rfl

theorem exists_head_of_spread {k : Kind} {h : Head k} (hs : Spread rest (h.tokens ++ ts) s) :
    ∃ (h' : Head k) (r : List UInt8), s = h'.text ++ r ∧ h'.name = h.name ∧ Spread rest ts r := by
  cases h with
  | item pre => exact ⟨.item .none, s, rfl, rfl, hs⟩
  | member pre key mid post =>
    obtain ⟨pre', r, rfl, mid', r', rfl, hs⟩ := hs
    refine ⟨.member pre' key mid' .none, r', ?_, rfl, hs⟩
    rw [Key.token_text]
    simp [Head.text, Token.text, Mark.char]

end Spread

theorem Value.tokens_ne_nil {v : Value} (hn : v.noBinary = true) : v.tokens ≠ [] := by
  cases v <;> simp [Value.tokens, Value.noBinary] at hn ⊢

mutual
/-- A text of a value is its tokens with whitespace before each. -/
theorem Value.spread (v : Value) (hn : v.noBinary = true) (rest : List UInt8) :
    Spread rest v.tokens (v.text ++ rest) := by
  match v with
  | .str s => exact ⟨.none, rest, rfl, rfl⟩
  | .lit w => exact ⟨.none, rest, rfl, rfl⟩
  | .bin b => simp [Value.noBinary] at hn
  | .empty k ws => exact ⟨.none, _, rfl, ws, rest, by simp [Token.text, Mark.char], rfl⟩
  | .node k es =>
    obtain ⟨post, hes⟩ := es.spread hn (k.closing :: rest)
    refine ⟨.none, es.text ++ (k.closing :: rest), by simp [Token.text, Mark.char, Value.text], ?_⟩
    exact spread_append.mpr ⟨_, hes, post, rest, rfl, rfl⟩
theorem Entries.spread : ∀ {k : Kind} (es : Entries k), es.noBinary = true → ∀ rest : List UInt8,
    ∃ post : Ws, Spread (post.text ++ rest) es.tokens (es.text ++ rest)
  | _, .one h v post, hn, rest => by
    refine ⟨post, ?_⟩
    rw [Entries.text, Entries.tokens, List.append_assoc, List.append_assoc]
    exact spread_head h (Value.tokens_ne_nil hn) (v.spread hn _)
  | _, .cons h v post es, hn, rest => by
    simp only [Entries.noBinary, Bool.and_eq_true] at hn
    obtain ⟨post', hes⟩ := es.spread hn.2 rest
    refine ⟨post', ?_⟩
    rw [Entries.text, Entries.tokens]
    simp only [List.append_assoc, List.cons_append]
    refine spread_head h (by simp) (spread_append.mpr ⟨_, v.spread hn.1 _, post, _, rfl, hes⟩)
end

mutual
/-- The tokens of a value with whitespace before each are a text of the same tree. -/
theorem Value.exists_of_spread (v : Value) (hn : v.noBinary = true) {rest s : List UInt8}
    (h : Spread rest v.tokens s) : ∃ (ws : Ws) (w : Value), s = ws.text ++ (w.text ++ rest) ∧ w.tree = v.tree := by
  match v with
  | .str st =>
    obtain ⟨ws, r, rfl, rfl⟩ := h
    exact ⟨ws, .str st, rfl, rfl⟩
  | .lit w =>
    obtain ⟨ws, r, rfl, rfl⟩ := h
    exact ⟨ws, .lit w, rfl, rfl⟩
  | .bin b => simp [Value.noBinary] at hn
  | .empty k ws' =>
    obtain ⟨ws, r, rfl, ws', r', rfl, rfl⟩ := h
    exact ⟨ws, .empty k ws', by simp [Value.text, Token.text, Mark.char], rfl⟩
  | .node k es =>
    obtain ⟨ws, r, rfl, h⟩ := h
    obtain ⟨r', hes, post, r'', rfl, rfl⟩ := spread_append.mp h
    obtain ⟨es', rfl, ht⟩ := es.exists_of_spread hn hes
    exact ⟨ws, .node k es', by simp [Value.text, Token.text, Mark.char], by rw [Value.tree, Value.tree, ht]⟩
theorem Entries.exists_of_spread : ∀ {k : Kind} (es : Entries k), es.noBinary = true → ∀ {post : Ws}
    {rest s : List UInt8}, Spread (post.text ++ rest) es.tokens s →
    ∃ es' : Entries k, s = es'.text ++ rest ∧ es'.trees = es.trees
  | _, .one h v _, hn, post, rest, s, hs => by
    obtain ⟨h', r, rfl, hname, hv⟩ := exists_head_of_spread hs
    obtain ⟨ws, w, rfl, ht⟩ := v.exists_of_spread hn hv
    refine ⟨.one (h'.pad ws) w post, by simp [Entries.text, Head.pad_text], ?_⟩
    simp only [Entries.trees, Head.pad_name, hname, ht]
  | _, .cons h v _ es, hn, post, rest, s, hs => by
    simp only [Entries.noBinary, Bool.and_eq_true] at hn
    obtain ⟨h', r, rfl, hname, hv⟩ := exists_head_of_spread hs
    obtain ⟨r', hv, post', r'', rfl, hes⟩ := spread_append.mp hv
    obtain ⟨ws, w, rfl, ht⟩ := v.exists_of_spread hn.1 hv
    obtain ⟨es', rfl, hts⟩ := es.exists_of_spread hn.2 hes
    refine ⟨.cons (h'.pad ws) w post' es', ?_, ?_⟩
    · simp [Entries.text, Head.pad_text, Token.text, Mark.char]
    · simp only [Entries.trees, Head.pad_name, hname, ht, hts]
end

/-! ### Tokens without whitespace -/

/-- A visible character. -/
def isVisible (b : UInt8) : Bool := decide (0x20 < schar b)

/-- The visible characters of a text. -/
def visible (s : List UInt8) : List UInt8 := s.filter isVisible

@[simp] theorem visible_append (s t : List UInt8) : visible (s ++ t) = visible s ++ visible t := List.filter_append ..

theorem isWs_not_isVisible : ∀ b : UInt8, isWs b = true → isVisible b = false := by
  set_option maxRecDepth 20000 in decide

@[simp] theorem visible_ws (ws : Ws) : visible ws.text = [] := by
  rw [visible, List.filter_eq_nil_iff]
  intro b hb
  simp [isWs_not_isVisible b (ws.isWs_of_mem hb)]

theorem Mark.isVisible_char (c : Mark) : isVisible c.char = true := by
  rcases c with (_ | _) | (_ | _) | _ | _ <;> decide

theorem Quote.isVisible_char (q : Quote) : isVisible q.char = true := by cases q <;> decide

theorem visible_cons {b : UInt8} (h : isVisible b = true) (s : List UInt8) : visible (b :: s) = b :: visible s := by
  rw [visible, List.filter_cons_of_pos h]
  rfl

theorem Str.visible_text (st : Str) : visible st.text = st.quote.char :: (visible st.body ++ [st.quote.char]) := by
  rw [Str.text, visible_cons st.quote.isVisible_char, visible_append, visible_cons st.quote.isVisible_char]
  rfl

/-- Two strings with the same body are told apart by the visible characters. -/
theorem Str.eq_of_visible {s t : Str} {x y : List UInt8} (hb : s.body = t.body)
    (h : visible s.text ++ x = visible t.text ++ y) : s = t ∧ x = y := by
  rw [Str.visible_text, Str.visible_text, hb, List.cons_append, List.cons_append, List.cons.injEq] at h
  obtain ⟨sq, sb, swf⟩ := s
  obtain ⟨tq, tb, twf⟩ := t
  simp only at h hb
  obtain rfl : sq = tq := by
    cases sq <;> cases tq <;> first | rfl | exact absurd h.1 (by decide)
  subst hb
  exact ⟨rfl, List.append_cancel_left h.2⟩

theorem isBare_ne_quote : ∀ b : UInt8, isBare b = true → ∀ q : Quote, b ≠ q.char := by
  intro b hb q
  obtain ⟨-, -, h1, h2, -⟩ := isBare_facts b hb
  cases q
  · exact h1
  · exact h2

/-- A word and a string are told apart by the visible characters. -/
theorem visible_word_ne_str {w : Word} {s : Str} {x y : List UInt8} :
    visible w.text ++ Ch.colon :: x ≠ visible s.text ++ y := by
  intro h
  rw [Str.visible_text, List.cons_append] at h
  rcases hv : visible w.text with _ | ⟨b, t⟩
  · rw [hv] at h
    exact absurd (List.cons.inj h).1 (by cases s.quote <;> decide)
  · rw [hv] at h
    have hmem : b ∈ visible w.text := by rw [hv]; simp
    exact isBare_ne_quote b (w.isBare_of_mem (List.mem_of_mem_filter hmem)) s.quote (List.cons.inj h).1

theorem Key.eq_of_visible {k l : Key} {x y : List UInt8} (hn : k.name = l.name)
    (h : visible k.text ++ Ch.colon :: x = visible l.text ++ Ch.colon :: y) : k = l ∧ x = y := by
  match k, l with
  | .quoted s, .quoted t =>
    obtain ⟨rfl, h'⟩ := Str.eq_of_visible hn h
    exact ⟨rfl, (List.cons.inj h').2⟩
  | .quoted s, .bare w => exact absurd h.symm visible_word_ne_str
  | .bare w, .quoted s => exact absurd h visible_word_ne_str
  | .bare w, .bare w' =>
    obtain ⟨t, h0, hw⟩ := w
    obtain ⟨t', h0', hw'⟩ := w'
    obtain rfl : t = t' := hn
    exact ⟨rfl, (List.cons.inj (List.append_cancel_left h)).2⟩

theorem visible_opening (k : Kind) (s : List UInt8) : visible (k.opening :: s) = k.opening :: visible s :=
  visible_cons (Mark.isVisible_char (.opening k)) s

theorem visible_closing (k : Kind) (s : List UInt8) : visible (k.closing :: s) = k.closing :: visible s :=
  visible_cons (Mark.isVisible_char (.closing k)) s

theorem Head.eq_of_visible {k : Kind} {h h' : Head k} {x y : List UInt8} (hn : h.name = h'.name)
    (hv : visible h.text ++ x = visible h'.text ++ y) : h.tokens = h'.tokens ∧ x = y := by
  match h, h' with
  | .item _, .item _ =>
    simp only [Head.text, visible_ws, List.nil_append] at hv
    exact ⟨rfl, hv⟩
  | .member _ key _ post, .member _ key' _ post' =>
    have hcolon : ∀ ws : Ws, visible (Ch.colon :: ws.text) = [Ch.colon] := by
      intro ws
      rw [visible_cons (b := Ch.colon) (by decide), visible_ws]
    simp only [Head.text, visible_append, visible_ws, List.nil_append, hcolon, List.append_assoc] at hv
    obtain ⟨rfl, hx⟩ := Key.eq_of_visible hn hv
    exact ⟨rfl, hx⟩

mutual
/-- **Tokens are found without whitespace.** Where texts of the same tree have the same visible characters, they have
the same tokens. -/
theorem Value.tokens_eq (v w : Value) (ht : w.tree = v.tree) {x y : List UInt8}
    (h : visible v.text ++ x = visible w.text ++ y) : v.tokens = w.tokens ∧ x = y := by
  match v with
  | .str s =>
    obtain ⟨t, rfl, hb⟩ := Value.exists_str ht
    obtain ⟨rfl, hx⟩ := Str.eq_of_visible hb.symm h
    exact ⟨rfl, hx⟩
  | .lit ⟨t, h0, hw⟩ =>
    obtain ⟨⟨t', h0', hw'⟩, rfl, hb⟩ := Value.exists_lit ht
    subst hb
    exact ⟨rfl, List.append_cancel_left h⟩
  | .bin ⟨b, hb⟩ =>
    obtain ⟨⟨c, hc⟩, rfl, hb⟩ := Value.exists_bin ht
    subst hb
    exact ⟨rfl, List.append_cancel_left h⟩
  | .empty k ws =>
    obtain ⟨ws', rfl⟩ := Value.exists_empty ht
    simp only [Value.text, visible_opening, visible_append, visible_ws, visible_closing] at h
    exact ⟨rfl, List.append_cancel_left h⟩
  | .node k es =>
    obtain ⟨es', rfl, hts⟩ := Value.exists_node ht
    simp only [Value.text, visible_opening, visible_append, visible_closing, List.append_assoc, List.cons_append,
      List.cons.injEq, true_and] at h
    obtain ⟨h1, h2⟩ := Entries.tokens_eq es es' hts h
    exact ⟨by rw [Value.tokens, Value.tokens, h1], (List.cons.inj h2).2⟩
theorem Entries.tokens_eq : ∀ {k : Kind} (es es' : Entries k), es'.trees = es.trees → ∀ {x y : List UInt8},
    visible es.text ++ x = visible es'.text ++ y → es.tokens = es'.tokens ∧ x = y
  | _, .one h v _, es', ht, x, y, hx => by
    obtain ⟨h', v', post, rfl, hname, ht⟩ := Entries.exists_one ht
    simp only [Entries.text, visible_append, visible_ws, List.append_nil, List.append_assoc] at hx
    obtain ⟨h1, hx⟩ := Head.eq_of_visible hname.symm hx
    obtain ⟨h2, hx⟩ := Value.tokens_eq v v' ht hx
    exact ⟨by rw [Entries.tokens, Entries.tokens, h1, h2], hx⟩
  | _, .cons h v _ es, es', ht, x, y, hx => by
    obtain ⟨h', v', post, rest, rfl, hname, hv, ht⟩ := Entries.exists_cons ht
    simp only [Entries.text, visible_append, visible_ws, List.nil_append, List.append_assoc,
      visible_cons (b := Ch.comma) (by decide), List.cons_append] at hx
    obtain ⟨h1, hx⟩ := Head.eq_of_visible hname.symm hx
    obtain ⟨h2, hx⟩ := Value.tokens_eq v v' hv hx
    obtain ⟨h3, hx⟩ := Entries.tokens_eq es rest ht (List.cons.inj hx).2
    exact ⟨by rw [Entries.tokens, Entries.tokens, h1, h2, h3], hx⟩
end

end Cpcf.Json
