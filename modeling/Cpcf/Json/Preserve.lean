import Cpcf.Json.Beautify

/-!
What `JsonBeautified` preserves.

The text that is printed for a value is one of the same tree if and only if `Value.preserved` holds of the value. A
container on one line has to keep its tokens (`Kept`). One in lines has to be indented by a number that is not
negative, every member has to be one the iterator returns, and a key in single quotes has to be a bare word, as it is
printed without them. The direction from the printed text to the value is by alignment: the printed text is
followed along a text of the tree it is read as, and each token has to be found in its place.
-/

namespace Cpcf.Json

open Cpcf.Rt Cpcf.Lib.Memory

/-! ### The condition -/

/-- The key reads the same as it is printed. -/
def Key.reprinted : Key → Bool
  | .quoted s => s.quote == .double || (!s.body.isEmpty && s.body.all isBare)
  | .bare _ => true

/-- The key, if there is one, reads the same as it is printed. -/
def Head.reprinted : {k : Kind} → Head k → Bool
  | _, .item _ => true
  | _, .member _ key _ _ => key.reprinted

mutual
/-- The text printed for the value is one of the same tree. -/
def Value.preserved (indent : ℤ) (depth : ℕ) (line_remain : ℤ) : Value → Bool
  | .empty k ws => isSingleLine (Value.empty k ws).text line_remain || decide (0 ≤ indent * depth)
  | .node k es =>
    if isSingleLine (Value.node k es).text line_remain then Kept false (Value.node k es).tokens
    else decide (0 ≤ indent) && es.preserved indent (depth + 1)
  | _ => true
/-- All entries are printed, and preserved. -/
def Entries.preserved (indent : ℤ) (depth : ℕ) : {k : Kind} → Entries k → Bool
  | _, .one h v _ => h.shown v && h.reprinted && v.preserved indent depth (h.lineRemain indent depth)
  | _, .cons h v _ rest =>
    h.shown v && h.reprinted && v.preserved indent depth (h.lineRemain indent depth) && rest.preserved indent depth
end

/-! ### What is preserved -/

section Prints

variable {indent : ℤ}

theorem spaces_eq_some {count : ℤ} {ind : List UInt8} :
    spaces count = some ind → 0 ≤ count ∧ ∃ ws : Ws, ws.text = ind := by
  rw [spaces]
  split
  · rename_i h
    intro hind
    cases hind
    refine ⟨h, ⟨_, List.all_eq_true.mpr fun b hb => ?_⟩, rfl⟩
    rw [List.eq_of_mem_replicate hb]
    rfl
  · simp

theorem exists_spaces {count : ℤ} (h : 0 ≤ count) : ∃ ws : Ws, spaces count = some ws.text := by
  obtain ⟨-, ws, hws⟩ := spaces_eq_some (show spaces count = some _ from if_pos h)
  exact ⟨ws, by rw [hws]; exact if_pos h⟩

/-- The line break before a container, and the blanks before its closing bracket. -/
theorem exists_lead {depth : ℕ} (h : 0 ≤ indent * depth) (newline : Bool) :
    ∃ lead' ind : Ws, lead indent newline depth = some lead'.text ∧ spaces (indent * depth) = some ind.text := by
  obtain ⟨ind, hind⟩ := exists_spaces h
  cases newline with
  | true => exact ⟨.none, ind, rfl, hind⟩
  | false => exact ⟨Ws.newline.append ind, ind, by rw [lead, hind]; rfl, hind⟩

/-- What is printed before a value, with whitespace on both sides, is a head of the same name. -/
theorem Head.exists_of_reprinted {k : Kind} (h : Head k) (hr : h.reprinted = true) (pre post : Ws) :
    ∃ h' : Head k, pre.text ++ (h.printed ++ post.text) = h'.text ∧ h'.name = h.name := by
  match h with
  | .item _ => exact ⟨.item (pre.append post), rfl, rfl⟩
  | .member _ (.bare w) _ _ =>
    exact ⟨.member pre (.bare w) .none (Ws.blank.append post),
      by simp [Head.printed, Key.printed, Head.text, Key.text, Ws.blank], rfl⟩
  | .member _ (.quoted s) _ _ =>
    by_cases hq : s.quote = .double
    · exact ⟨.member pre (.quoted s) .none (Ws.blank.append post),
        by simp [Head.printed, Key.printed, Head.text, Key.text, Ws.blank, hq], rfl⟩
    · have hw : (!s.body.isEmpty && s.body.all isBare) = true := by
        simpa [Head.reprinted, Key.reprinted, hq] using hr
      rw [Bool.and_eq_true] at hw
      exact ⟨.member pre (.bare ⟨s.body, by simpa using hw.1, hw.2⟩) .none (Ws.blank.append post),
        by simp [Head.printed, Key.printed, Head.text, Key.text, Ws.blank, hq], rfl⟩

/-- The lines of some entries with their brackets, as a text. -/
theorem inLines_eq {k : Kind} {lead ind : Ws} {entries : List (List UInt8)} (h : entries ≠ []) :
    inLines k lead.text ind.text entries = lead.text ++ k.opening ::
      ((Ws.newline.text ++ (joinWith [Ch.comma, Ch.newline] entries ++ (Ws.newline.append ind).text)) ++
        [k.closing]) := by
  rw [inLines, if_neg (by simpa using h)]
  simp [Ws.newline]

mutual
/-- The text printed for a value that is preserved is one of the same tree. -/
theorem Value.exists_of_preserved (v : Value) (hn : v.noBinary = true) (newline : Bool) {depth : ℕ}
    {line_remain : ℤ} (h : v.preserved indent depth line_remain = true) :
    ∃ (ws : Ws) (w : Value), v.beautified indent newline depth line_remain = some (ws.text ++ w.text) ∧
      w.tree = v.tree := by
  match v with
  | .str s => exact ⟨.none, .str s, rfl, rfl⟩
  | .lit w => exact ⟨.none, .lit w, rfl, rfl⟩
  | .bin b => simp [Value.noBinary] at hn
  | .empty k ws =>
    rw [Value.beautified]
    by_cases hl : isSingleLine (Value.empty k ws).text line_remain = true
    · obtain ⟨ws', w, hw, ht⟩ := exists_of_kept (v := .empty k ws) rfl rfl rfl
      exact ⟨ws', w, by rw [if_pos hl, hw], ht⟩
    · have h0 : 0 ≤ indent * depth := by simpa [Value.preserved, hl] using h
      obtain ⟨lead', ind, hlead, hind⟩ := exists_lead h0 newline
      refine ⟨lead', .empty k (Ws.newline.append ind), ?_, rfl⟩
      rw [if_neg hl, hlead, hind]
      simp [inLines, Value.text, Ws.newline]
  | .node k es =>
    rw [Value.beautified]
    rw [Value.preserved] at h
    by_cases hl : isSingleLine (Value.node k es).text line_remain = true
    · rw [if_pos hl] at h
      obtain ⟨ws', w, hw, ht⟩ := exists_of_kept (v := .node k es) rfl hn h
      exact ⟨ws', w, by rw [if_pos hl, hw], ht⟩
    · rw [if_neg hl, Bool.and_eq_true, decide_eq_true_eq] at h
      obtain ⟨lead', ind, hlead, hind⟩ := exists_lead (Int.mul_nonneg h.1 (Int.natCast_nonneg depth)) newline
      obtain ⟨lines, hlines, h0, hes⟩ := es.exists_of_preserved hn h.1 h.2
      obtain ⟨es', hes', ht⟩ := hes .newline (Ws.newline.append ind)
      refine ⟨lead', .node k es', ?_, by rw [Value.tree, Value.tree, ht]⟩
      rw [if_neg hl, hlead, hind, hlines]
      simp only [Option.bind_eq_bind, Option.bind_some, Option.pure_def, inLines_eq h0, hes']
      rfl
theorem Entries.exists_of_preserved : ∀ {k : Kind} (es : Entries k), es.noBinary = true → ∀ {depth : ℕ}, 0 ≤ indent →
    es.preserved indent depth = true →
    ∃ lines, es.printed indent depth = some lines ∧ lines ≠ [] ∧ ∀ pre post : Ws, ∃ es' : Entries k,
      pre.text ++ (joinWith [Ch.comma, Ch.newline] lines ++ post.text) = es'.text ∧ es'.trees = es.trees
  | _, .one h v _, hn, depth, h0, hp => by
    simp only [Entries.preserved, Bool.and_eq_true] at hp
    obtain ⟨⟨hs, hr⟩, hv⟩ := hp
    obtain ⟨ind, hind⟩ := exists_spaces (Int.mul_nonneg h0 (Int.natCast_nonneg depth))
    obtain ⟨ws, w, hw, ht⟩ := v.exists_of_preserved hn h.newline hv
    refine ⟨[ind.text ++ (h.printed ++ (ws.text ++ w.text))], ?_, by simp, fun pre post => ?_⟩
    · rw [Entries.printed, if_pos hs, hind, hw]
      rfl
    · obtain ⟨h', hh, hname⟩ := h.exists_of_reprinted hr (pre.append ind) ws
      refine ⟨.one h' w post, ?_, by simp only [Entries.trees, hname, ht]⟩
      rw [Entries.text, ← hh]
      simp [joinWith]
  | _, .cons h v _ rest, hn, depth, h0, hp => by
    simp only [Entries.noBinary, Bool.and_eq_true] at hn
    simp only [Entries.preserved, Bool.and_eq_true] at hp
    obtain ⟨⟨⟨hs, hr⟩, hv⟩, hp⟩ := hp
    obtain ⟨ind, hind⟩ := exists_spaces (Int.mul_nonneg h0 (Int.natCast_nonneg depth))
    obtain ⟨ws, w, hw, ht⟩ := v.exists_of_preserved hn.1 h.newline hv
    obtain ⟨lines, hlines, hl0, hes⟩ := rest.exists_of_preserved hn.2 h0 hp
    refine ⟨(ind.text ++ (h.printed ++ (ws.text ++ w.text))) :: lines, ?_, by simp, fun pre post => ?_⟩
    · rw [Entries.printed, if_pos hs, hind, hw, hlines]
      rfl
    · obtain ⟨h', hh, hname⟩ := h.exists_of_reprinted hr (pre.append ind) ws
      obtain ⟨es', hes', hts⟩ := hes .newline post
      refine ⟨.cons h' w .none es', ?_, by simp only [Entries.trees, hname, ht, hts]⟩
      obtain ⟨l, lines, rfl⟩ := List.exists_cons_of_ne_nil hl0
      rw [Entries.text, ← hh, ← hes', joinWith]
      simp [Ws.newline]
end

end Prints

/-! ### Alignment -/

/-- A text does not start with itself behind a character and other ones before it. -/
theorem not_shifted {c : UInt8} {p : List UInt8} (hp : p ≠ []) (hc : c ∉ p) (x y n : List UInt8) :
    n ++ c :: x ≠ p ++ (n ++ y) := by
  induction hl : n.length using Nat.strong_induction_on generalizing n with
  | _ len ih =>
    intro h
    rcases List.append_eq_append_iff.mp h with ⟨u, h1, h2⟩ | ⟨u, h1, h2⟩
    · rcases u with _ | ⟨b, u⟩
      · rw [List.append_nil] at h1
        rw [List.nil_append] at h2
        subst h1
        obtain ⟨b, p', rfl⟩ := List.exists_cons_of_ne_nil hp
        rw [List.cons_append] at h2
        exact hc (by rw [(List.cons.inj h2).1]; simp)
      · rw [List.cons_append] at h2
        exact hc (by rw [h1, (List.cons.inj h2).1]; simp)
    · have hlt : u.length < len := by
        have h3 := congrArg List.length h1
        have h4 := List.length_pos_of_ne_nil hp
        rw [List.length_append] at h3
        omega
      rw [h1, List.append_assoc] at h2
      exact ih u.length hlt u rfl h2.symm

section Aligned

variable {a b : Ws} {x y : List UInt8}

theorem Mark.stops (c : Mark) (x : List UInt8) : Stops isWs (c.char :: x) := by simpa [Stops] using c.char_facts.2.2.1

/-- The same mark behind whitespace: what is behind it is the same. -/
theorem mark_aligned (c : Mark) (h : a.text ++ c.char :: x = b.text ++ c.char :: y) : x = y :=
  (List.cons.inj (eq_of_ws h (c.stops x) (c.stops y))).2

theorem Key.stops (k : Key) (x : List UInt8) : Stops isWs (k.text ++ x) := (k.opens.append x).stops

/-- Two texts of the same name with a colon behind them: the colons are at the same place. -/
theorem colon_aligned {mid : Ws} {s : List UInt8} (h : s ++ Ch.colon :: x = s ++ (mid.text ++ Ch.colon :: y)) :
    x = y :=
  mark_aligned (a := .none) .colon (List.append_cancel_left h)

theorem Quote.char_ne (q : Quote) : q.char ≠ Ch.colon ∧ isWs q.char = false := by cases q <;> decide

/-- A text in front of a colon is not found again behind a quote. -/
theorem not_quoted {q : Quote} (a b : Ws) {n : List UInt8} :
    a.text ++ (n ++ Ch.colon :: x) ≠ b.text ++ (q.char :: (n ++ y)) := by
  intro h
  rcases List.append_eq_append_iff.mp h with ⟨u, h1, h2⟩ | ⟨u, h1, h2⟩
  · -- `n` would start with `u`, the quote and itself
    refine not_shifted (p := u ++ [q.char]) (by simp) ?_ x y n (by simpa using h2)
    rw [List.mem_append, List.mem_singleton, not_or]
    refine ⟨fun hmem => ?_, q.char_ne.1.symm⟩
    exact absurd (b.isWs_of_mem (b := Ch.colon) (by rw [h1]; simp [hmem])) (by decide)
  · rcases u with _ | ⟨c, u⟩
    · exact not_shifted (p := [q.char]) (by simp) (by simpa using q.char_ne.1.symm) x y n (by simpa using h2.symm)
    · rw [List.cons_append] at h2
      have hc := a.isWs_of_mem (b := c) (by rw [h1]; simp)
      rw [← (List.cons.inj h2).1, q.char_ne.2] at hc
      cases hc

/-- A key that is found again in front of a colon reads the same as it is printed. -/
theorem key_aligned {key key' : Key} {mid : Ws} (hname : key.name = key'.name) (h0 : key.name ≠ [])
    (h : a.text ++ (key.printed ++ Ch.colon :: x) = b.text ++ (key'.text ++ (mid.text ++ Ch.colon :: y))) :
    key.reprinted = true ∧ x = y := by
  match key, key' with
  | .bare w, .bare w' =>
    have hw : w.text = w'.text := hname
    have heq := eq_of_ws h ((Key.bare w).stops _) (Key.stops _ _)
    rw [show (Key.bare w').text = w.text from hw.symm] at heq
    exact ⟨rfl, colon_aligned heq⟩
  | .bare w, .quoted t =>
    obtain ⟨c, s, hw, hc⟩ := w.exists_cons
    have heq := eq_of_ws h ((Key.bare w).stops _) (Key.stops _ _)
    rw [show (Key.bare w).printed = c :: s from hw] at heq
    exact absurd (List.cons.inj heq).1 (isBare_ne_quote c hc t.quote)
  | .quoted s, key' =>
    by_cases hq : s.quote = .double
    · have hp : (Key.quoted s).printed = s.text := if_pos hq
      rw [hp] at h
      have heq := eq_of_ws h ((Key.quoted s).stops _) (Key.stops _ _)
      cases key' with
      | bare w =>
        obtain ⟨c, t, hw, hc⟩ := w.exists_cons
        rw [Key.text, hw] at heq
        exact absurd (List.cons.inj heq).1.symm (isBare_ne_quote c hc s.quote)
      | quoted t =>
        have hst : s.text = t.text := by
          have hc : s.quote.char = t.quote.char := (List.cons.inj heq).1
          have hb : s.body = t.body := hname
          rw [Str.text, Str.text, hc, hb]
        rw [Key.text, ← hst] at heq
        exact ⟨by simp [Key.reprinted, hq], colon_aligned heq⟩
    · have hp : (Key.quoted s).printed = s.body := if_neg hq
      rw [hp] at h
      cases key' with
      | bare w =>
        have hw : s.body = w.text := hname
        refine ⟨by simp [Key.reprinted, hw, w.ne_nil, w.wf], ?_⟩
        rw [hw] at h
        exact colon_aligned (eq_of_ws h ((Key.bare w).stops _) ((Key.bare w).stops _))
      | quoted t =>
        have hb : s.body = t.body := hname
        rw [hb, Key.text, Str.text, List.cons_append, List.append_assoc] at h
        exact absurd h (not_quoted _ _)

/-- An entry that is found again: the key reads the same as it is printed, and the value is found again. -/
theorem head_aligned {k : Kind} {h h' : Head k} {v : Value} (hs : h.shown v = true) (hname : h.name = h'.name)
    (heq : a.text ++ (h.printed ++ x) = h'.text ++ y) :
    h.reprinted = true ∧ ∃ c d : Ws, c.text ++ x = d.text ++ y := by
  match h, h' with
  | .item _, .item pre => exact ⟨rfl, a, pre, heq⟩
  | .member _ key _ _, .member pre key' mid post =>
    have h0 : key.name ≠ [] := (shown_iff.mp hs).1
    simp only [Head.printed, Head.text, List.append_assoc, List.cons_append, List.nil_append] at heq
    obtain ⟨h1, h2⟩ := key_aligned hname h0 heq
    exact ⟨h1, .blank, post, h2⟩

/-- The lines, each with its separator or the line break, and what is behind them. -/
def closed (lines : List (List UInt8)) (rest : List UInt8) : List UInt8 :=
  if lines.isEmpty then rest else joinWith [Ch.comma, Ch.newline] lines ++ Ch.newline :: rest

theorem closed_cons (l : List UInt8) (lines : List (List UInt8)) (rest : List UInt8) :
    closed (l :: lines) rest =
      l ++ (if lines.isEmpty then Ch.newline :: rest else Ch.comma :: Ch.newline :: closed lines rest) := by
  cases lines with
  | nil => simp [closed, joinWith]
  | cons l' lines => simp [closed, joinWith]

theorem inLines_append (k : Kind) (lead ind : List UInt8) (lines : List (List UInt8)) (x : List UInt8) :
    inLines k lead ind lines ++ x = lead ++ k.opening :: Ch.newline :: closed lines (ind ++ k.closing :: x) := by
  cases lines with
  | nil => simp [inLines, closed]
  | cons l lines => simp [inLines, closed]


/-- Where nothing is printed, no entry is found. -/
theorem entries_not_closed {k : Kind} {es : Entries k} {ind : Ws} :
    a.text ++ closed [] (ind.text ++ k.closing :: x) ≠ es.text ++ y := by
  intro h
  refine es.dropWs_ne y ?_
  rw [← h, closed, List.isEmpty_nil, if_pos rfl, ← List.append_assoc, ← Ws.append_text]
  exact congrArg List.head? (dropWs_append ((Mark.closing k).stops x))

/-- A container in lines that is found again: so is what stands between its brackets. -/
theorem inLines_aligned {k : Kind} {lead ind : Ws} {lines : List (List UInt8)} {body : List UInt8}
    (h : a.text ++ (inLines k lead.text ind.text lines ++ x) =
      b.text ++ ((k.opening :: (body ++ [k.closing])) ++ y)) :
    Ws.newline.text ++ closed lines (ind.text ++ k.closing :: x) = body ++ k.closing :: y := by
  rw [inLines_append, ← List.append_assoc, ← Ws.append_text] at h
  simpa [Ws.newline] using mark_aligned (.opening k) h

end Aligned

section Recursion

variable {indent : ℤ}

theorem lead_eq_some {newline : Bool} {depth : ℕ} {l : List UInt8} (h : lead indent newline depth = some l) :
    ∃ ws : Ws, ws.text = l := by
  cases newline with
  | true =>
    cases h
    exact ⟨.none, rfl⟩
  | false =>
    simp only [lead, Bool.false_eq_true, if_false, Option.map_eq_some_iff] at h
    obtain ⟨ind, hind, rfl⟩ := h
    obtain ⟨-, ws, rfl⟩ := spaces_eq_some hind
    exact ⟨Ws.newline.append ws, rfl⟩

/-- What was printed of a container in lines. -/
theorem inLines_eq_some {k : Kind} {newline : Bool} {depth : ℕ} (printed : Option (List (List UInt8)))
    {out : List UInt8}
    (h : (do
      let lead ← lead indent newline depth
      let entries ← printed
      let ind ← spaces (indent * depth)
      return inLines k lead ind entries) = some out) :
    ∃ (lead ind : Ws) (lines : List (List UInt8)), printed = some lines ∧ 0 ≤ indent * depth ∧
      out = inLines k lead.text ind.text lines := by
  simp only [Option.bind_eq_bind, Option.bind_eq_some_iff, Option.pure_def, Option.some.injEq] at h
  obtain ⟨l, hl, lines, hlines, i, hi, rfl⟩ := h
  obtain ⟨lead, rfl⟩ := lead_eq_some hl
  obtain ⟨h0, ind, rfl⟩ := spaces_eq_some hi
  exact ⟨lead, ind, lines, hlines, h0, rfl⟩

/-- What was printed of an entry that is shown. -/
theorem line_eq_some {k : Kind} {h : Head k} {v : Value} {depth : ℕ} {α : Type} {f : List UInt8 → Option α} {r : α}
    (hl : (do
      let ind ← spaces (indent * depth)
      let t ← v.beautified indent h.newline depth (h.lineRemain indent depth)
      f (ind ++ (h.printed ++ t))) = some r) :
    0 ≤ indent * depth ∧ ∃ (ind : Ws) (t : List UInt8),
      v.beautified indent h.newline depth (h.lineRemain indent depth) = some t ∧
        f (ind.text ++ (h.printed ++ t)) = some r := by
  simp only [Option.bind_eq_bind, Option.bind_eq_some_iff] at hl
  obtain ⟨i, hi, t, ht, hf⟩ := hl
  obtain ⟨h0, ind, rfl⟩ := spaces_eq_some hi
  exact ⟨h0, ind, t, ht, hf⟩

/-- A line that is found again, given that the value is preserved where it is. -/
theorem entry_aligned {k : Kind} {h h' : Head k} {v v' : Value} {depth : ℕ} {t x y : List UInt8} {a ind : Ws}
    (hs : h.shown v = true) (hname : h'.name = h.name)
    (hv : ∀ {a b : Ws}, a.text ++ (t ++ x) = b.text ++ (v'.text ++ y) →
      v.preserved indent depth (h.lineRemain indent depth) = true ∧ x = y)
    (heq : a.text ++ ((ind.text ++ (h.printed ++ t)) ++ x) = h'.text ++ (v'.text ++ y)) :
    (h.shown v && h.reprinted && v.preserved indent depth (h.lineRemain indent depth)) = true ∧ x = y := by
  have heq : (a.append ind).text ++ (h.printed ++ (t ++ x)) = h'.text ++ (v'.text ++ y) := by simpa using heq
  obtain ⟨hr, c, d, heq⟩ := head_aligned hs hname.symm heq
  obtain ⟨hp, hx⟩ := hv heq
  exact ⟨by rw [hs, hr, hp]; rfl, hx⟩

mutual
/-- A printed value that is found again is preserved, and what is behind it is found again. -/
theorem Value.preserved_of_aligned (v w : Value) {newline : Bool} {depth : ℕ} {line_remain : ℤ}
    {out x y : List UInt8} {a b : Ws} (hn : v.noBinary = true) (hw : w.noBinary = true) (ht : w.tree = v.tree)
    (hout : v.beautified indent newline depth line_remain = some out)
    (h : a.text ++ (out ++ x) = b.text ++ (w.text ++ y)) :
    v.preserved indent depth line_remain = true ∧ x = y := by
  match v with
  | .str s =>
    obtain ⟨t, rfl, hb⟩ := Value.exists_str ht
    obtain rfl : s.text = out := by simpa [Value.beautified, Value.text] using hout
    have heq := eq_of_ws h (s.opens.append x).stops (t.opens.append y).stops
    have hst : t.text = s.text := by
      have hc : s.quote.char = t.quote.char := (List.cons.inj heq).1
      rw [Str.text, Str.text, hc, hb]
    rw [Value.text, hst] at heq
    exact ⟨rfl, List.append_cancel_left heq⟩
  | .lit s =>
    obtain ⟨t, rfl, hst⟩ := Value.exists_lit ht
    obtain rfl : s.text = out := by simpa [Value.beautified, Value.text] using hout
    have heq := eq_of_ws h (s.opens.append x).stops (t.opens.append y).stops
    rw [Value.text, hst] at heq
    exact ⟨rfl, List.append_cancel_left heq⟩
  | .bin b => simp [Value.noBinary] at hn
  | .empty k ws =>
    obtain ⟨ws', rfl⟩ := Value.exists_empty ht
    rw [Value.beautified] at hout
    by_cases hl : isSingleLine (Value.empty k ws).text line_remain = true
    · rw [if_pos hl] at hout
      cases hout
      exact ⟨by simp [Value.preserved, hl], (kept_of_singleLine rfl rfl rfl ht h).2⟩
    · rw [if_neg hl] at hout
      obtain ⟨lead, ind, lines, hlines, h0, rfl⟩ := inLines_eq_some (some []) hout
      cases hlines
      refine ⟨by simp [Value.preserved, h0], ?_⟩
      exact mark_aligned (a := Ws.newline.append ind) (.closing k) (inLines_aligned h)
  | .node k es =>
    obtain ⟨es', rfl, hts⟩ := Value.exists_node ht
    rw [Value.beautified] at hout
    rw [Value.preserved]
    by_cases hl : isSingleLine (Value.node k es).text line_remain = true
    · rw [if_pos hl] at hout ⊢
      cases hout
      exact kept_of_singleLine rfl hn hw ht h
    · rw [if_neg hl] at hout ⊢
      obtain ⟨lead, ind, lines, hlines, -, rfl⟩ := inLines_eq_some _ hout
      obtain ⟨h1, h2, h3⟩ := es.preserved_of_aligned es' hn hw hts hlines (inLines_aligned h)
      have h0 : 0 ≤ indent := nonneg_of_mul_nonneg_left h1 (by omega)
      exact ⟨by rw [h2, decide_eq_true h0]; rfl, h3⟩
theorem Entries.preserved_of_aligned : ∀ {k : Kind} (es es' : Entries k) {depth : ℕ} {lines : List (List UInt8)}
    {x y : List UInt8} {a ind : Ws}, es.noBinary = true → es'.noBinary = true → es'.trees = es.trees →
    es.printed indent depth = some lines →
    a.text ++ closed lines (ind.text ++ k.closing :: x) = es'.text ++ k.closing :: y →
    0 ≤ indent * depth ∧ es.preserved indent depth = true ∧ x = y
  | k, .one h v _, es', depth, lines, x, y, a, ind, hn, hn', ht, hl, heq => by
    obtain ⟨h', v', post, rfl, hname, hv⟩ := Entries.exists_one ht
    rw [Entries.printed] at hl
    split at hl
    · rename_i hs
      obtain ⟨h0, i, t, ht', hf⟩ := line_eq_some (f := fun l => some [l]) hl
      cases hf
      simp only [closed_cons, List.isEmpty_nil, if_true, Entries.text, List.append_assoc] at heq
      obtain ⟨hp, hx⟩ := entry_aligned hs hname (v.preserved_of_aligned v' hn hn' hv ht') (by simpa using heq)
      exact ⟨h0, hp, mark_aligned (a := Ws.newline.append ind) (.closing k) hx⟩
    · cases hl
      exact absurd heq entries_not_closed
  | k, .cons h v _ rest, es', depth, lines, x, y, a, ind, hn, hn', ht, hl, heq => by
    obtain ⟨h', v', post, rest', rfl, hname, hv, hts⟩ := Entries.exists_cons ht
    simp only [Entries.noBinary, Bool.and_eq_true] at hn hn'
    rw [Entries.printed] at hl
    split at hl
    · rename_i hs
      obtain ⟨h0, i, t, ht', hf⟩ :=
        line_eq_some (f := fun l => (rest.printed indent depth).bind fun ls => some (l :: ls)) hl
      simp only [Option.bind_eq_some_iff, Option.some.injEq] at hf
      obtain ⟨lines, hlines, rfl⟩ := hf
      simp only [closed_cons, Entries.text, List.append_assoc] at heq
      obtain ⟨hp, hx⟩ := entry_aligned hs hname (v.preserved_of_aligned v' hn.1 hn'.1 hv ht') (by simpa using heq)
      cases lines with
      | nil =>
        have hc := eq_of_ws (a := Ws.newline.append ind) hx ((Mark.closing k).stops x) (Mark.comma.stops _)
        exact absurd (List.cons.inj hc).1 k.closing_facts.1
      | cons l lines =>
        rw [if_neg (by simp)] at hx
        obtain ⟨-, h2, h3⟩ := rest.preserved_of_aligned rest' (a := .newline) hn.2 hn'.2 hts hlines
          (mark_aligned (a := .none) .comma hx)
        exact ⟨h0, by rw [Entries.preserved, hp, h2]; rfl, h3⟩
    · cases hl
      exact absurd heq entries_not_closed
end

end Recursion

/-! ### The whole document -/

/-- `{ 'a':[ "b c" ] }`: in lines, with a key that loses its quotes. -/
def laidOut : Value :=
  .node .object (.one (.member .blank (.quoted (.a .single)) .none .none)
    (.node .array (.one (.item .blank) (.str ⟨.double, [0x62, 0x20, 0x63], rfl⟩) .blank)) .blank)

/-- `[ "\\", "b c" ]`: a string that ends with an escaped backslash. -/
def spoilt : Value :=
  .node .array (.cons (.item .blank) (.str ⟨.double, [0x5c, 0x5c], rfl⟩) .none
    (.one (.item .blank) (.str ⟨.double, [0x62, 0x20, 0x63], rfl⟩) .blank))

/-- The line for `spoilt`: the blank in the second string is gone. -/
def spoiltLine : List UInt8 :=
  [0x5b, 0x22, 0x5c, 0x5c, 0x22, 0x2c, 0x20, 0x22, 0x62, 0x63, 0x22, 0x20, 0x5d]

end Cpcf.Json
