import Cpcf.Json.Dialect
import Cpcf.Json.ScanValue

/-!
A reference parser for the dialect.

`Tree` is a value without its layout: the bytes of keys and strings without their quotes, words as they
are, and entries in order. `readText` reads a text into a tree by recursive descent over a list of bytes, with
none of the shortcuts of the library. `readText_value` says that it reads every well-formed text as the tree it
was written from, so a text has one tree at most, and a text it rejects is not well-formed.
-/

namespace Cpcf.Json

open Cpcf.Rt

/-! ### Trees -/

/-- A value without its layout. The entries of an array have an empty key. -/
inductive Tree
  | str (body : List UInt8)
  | lit (text : List UInt8)
  | bin (bytes : List UInt8)
  | node (k : Kind) (entries : List (List UInt8 × Tree))

/-- The key of an entry, empty in an array. -/
def Head.name : {k : Kind} → Head k → List UInt8
  | _, .item _ => []
  | _, .member _ key _ _ => key.name

mutual
/-- The tree of a value. -/
def Value.tree : Value → Tree
  | .str s => .str s.body
  | .lit w => .lit w.text
  | .bin p => .bin p.bytes
  | .empty k _ => .node k []
  | .node k es => .node k es.trees
/-- The trees of the entries with their keys. -/
def Entries.trees : {k : Kind} → Entries k → List (List UInt8 × Tree)
  | _, .one h v _ => [(h.name, v.tree)]
  | _, .cons h v _ rest => (h.name, v.tree) :: rest.trees
end

attribute [local simp] Value.tree Entries.trees

theorem Entries.trees_ne_nil {k : Kind} (es : Entries k) : es.trees ≠ [] := by cases es <;> simp

section Inversion

variable {w : Value} {k : Kind}

theorem Value.exists_str {body : List UInt8} (h : w.tree = .str body) : ∃ s, w = .str s ∧ s.body = body := by
  cases w <;> simp_all [Value.tree]

theorem Value.exists_lit {text : List UInt8} (h : w.tree = .lit text) : ∃ t, w = .lit t ∧ t.text = text := by
  cases w <;> simp_all [Value.tree]

theorem Value.exists_bin {bytes : List UInt8} (h : w.tree = .bin bytes) : ∃ p, w = .bin p ∧ p.bytes = bytes := by
  cases w <;> simp_all [Value.tree]

theorem Value.exists_empty (h : w.tree = .node k []) : ∃ ws, w = .empty k ws := by
  cases w <;> simp_all [Value.tree, Entries.trees_ne_nil]

theorem Value.exists_node {es : Entries k} (h : w.tree = .node k es.trees) :
    ∃ es' : Entries k, w = .node k es' ∧ es'.trees = es.trees := by
  cases w with
  | node k' es' =>
    simp only [Value.tree, Tree.node.injEq] at h
    obtain ⟨rfl, h⟩ := h
    exact ⟨es', rfl, h⟩
  | empty k' ws =>
    simp only [Value.tree, Tree.node.injEq] at h
    exact absurd h.2.symm es.trees_ne_nil
  | _ => simp at h

theorem Entries.exists_one {es : Entries k} {name : List UInt8} {t : Tree} (h : es.trees = [(name, t)]) :
    ∃ hd v post, es = .one hd v post ∧ hd.name = name ∧ v.tree = t := by
  cases es with
  | one hd v post => exact ⟨hd, v, post, rfl, by simpa using h⟩
  | cons hd v post rest =>
    rw [Entries.trees] at h
    exact absurd (List.cons.inj h).2 rest.trees_ne_nil

theorem Entries.exists_cons {es rest : Entries k} {name : List UInt8} {t : Tree}
    (h : es.trees = (name, t) :: rest.trees) :
    ∃ hd v post rest', es = .cons hd v post rest' ∧ hd.name = name ∧ v.tree = t ∧ rest'.trees = rest.trees := by
  cases es with
  | one hd v post =>
    rw [Entries.trees] at h
    exact absurd (List.cons.inj h).2.symm rest.trees_ne_nil
  | cons hd v post rest' =>
    simp only [Entries.trees, List.cons.injEq, Prod.mk.injEq] at h
    exact ⟨hd, v, post, rest', rfl, h.1.1, h.1.2, h.2⟩

end Inversion

/-! ### The parser -/

/-- The text behind leading whitespace. -/
def dropWs (s : List UInt8) : List UInt8 := s.dropWhile isWs

/-- A string from behind its opening quote `q`: the body and the text behind the closing quote. -/
def readString (q : UInt8) : List UInt8 → Option (List UInt8 × List UInt8)
  | [] => none
  | [b] => if b = q then some ([], []) else none
  | b :: c :: s =>
    if b = q then some ([], c :: s)
    else if b = Ch.backslash then (readString q s).map fun r => (b :: c :: r.1, r.2)
    else (readString q (c :: s)).map fun r => (b :: r.1, r.2)

attribute [local simp] readString

/-- A bare word. -/
def readWord (s : List UInt8) : Option (List UInt8 × List UInt8) :=
  if (s.takeWhile isBare).isEmpty then none else some (s.takeWhile isBare, s.dropWhile isBare)

/-- A binary value from behind the `<`. -/
def readBinary (s : List UInt8) : Option (List UInt8 × List UInt8) :=
  let n := digitsValue 0 (s.takeWhile isDigit)
  match s.dropWhile isDigit with
  | [] => none
  | b :: t => if b = Ch.slash ∧ (t.drop n).head? = some Ch.gt then some (t.take n, t.drop (n + 1)) else none

/-- A key. -/
def readKey : List UInt8 → Option (List UInt8 × List UInt8)
  | [] => none
  | b :: t => if b = Ch.dquote ∨ b = Ch.squote then readString b t else readWord (b :: t)

/-- What stands before a value: the key, and the text from the value on. -/
def readHead : Kind → List UInt8 → Option (List UInt8 × List UInt8)
  | .array, s => some ([], dropWs s)
  | .object, s =>
    match readKey (dropWs s) with
    | none => none
    | some (key, t) =>
      match dropWs t with
      | [] => none
      | b :: u => if b = Ch.colon then some (key, dropWs u) else none

mutual
/-- A value: its tree and the text behind it. The first argument bounds the depth of the recursion. -/
def readValue : ℕ → List UInt8 → Option (Tree × List UInt8)
  | 0, _ => none
  | _ + 1, [] => none
  | n + 1, b :: s =>
    if b = Ch.dquote ∨ b = Ch.squote then (readString b s).map fun r => (.str r.1, r.2)
    else if b = Ch.lt then (readBinary s).map fun r => (.bin r.1, r.2)
    else if b = Ch.lbracket then readNode n .array s
    else if b = Ch.lbrace then readNode n .object s
    else (readWord (b :: s)).map fun r => (.lit r.1, r.2)
/-- A container from behind its opening bracket. -/
def readNode : ℕ → Kind → List UInt8 → Option (Tree × List UInt8)
  | 0, _, _ => none
  | n + 1, k, s =>
    if (dropWs s).head? = some k.closing then some (.node k [], (dropWs s).tail)
    else (readEntries n k s).map fun r => (.node k r.1, r.2)
/-- The entries of a container and its closing bracket. -/
def readEntries : ℕ → Kind → List UInt8 → Option (List (List UInt8 × Tree) × List UInt8)
  | 0, _, _ => none
  | n + 1, k, s =>
    match readHead k s with
    | none => none
    | some (key, s) =>
      match readValue n s with
      | none => none
      | some (t, s) =>
        match dropWs s with
        | [] => none
        | b :: s =>
          if b = Ch.comma then (readEntries n k s).map fun r => ((key, t) :: r.1, r.2)
          else if b = k.closing then some ([(key, t)], s)
          else none
end

attribute [local simp] readValue readNode readEntries

/-- The tree of a text, with whitespace around it. -/
def readText (s : List UInt8) : Option Tree :=
  match readValue (2 * s.length + 1) (dropWs s) with
  | none => none
  | some (t, rest) => if rest.all isWs then some t else none

/-! ### Pieces -/

theorem readString_body {q : UInt8} (hq : q ≠ Ch.backslash) {body : List UInt8} (hb : escaped q body = true)
    (rest : List UInt8) : readString q (body ++ q :: rest) = some (body, rest) := by
  induction body using escaped.induct with
  | case1 => cases rest <;> simp
  | case2 b =>
    simp only [escaped, Bool.and_eq_true, bne_iff_ne] at hb
    have ih : readString q (q :: rest) = some ([], rest) := by cases rest <;> simp
    rw [List.singleton_append, readString, if_neg hb.2, if_neg hb.1, ih]
    rfl
  | case3 c s ih =>
    simp only [escaped, if_true] at hb
    rw [List.cons_append, List.cons_append, readString, if_neg hq.symm, if_pos rfl, ih hb]
    rfl
  | case4 b c s hne ih =>
    simp only [escaped, if_neg hne, Bool.and_eq_true, bne_iff_ne] at hb
    rw [List.cons_append, List.cons_append, readString, if_neg hb.1, if_neg hne, ← List.cons_append, ih hb.2]
    rfl

/-- The text does not go on with a character of the given kind. -/
def Stops (c : UInt8 → Bool) (s : List UInt8) : Prop := s.head?.any c = false

theorem takeWhile_append_stops {c : UInt8 → Bool} {xs rest : List UInt8} (h : ∀ b ∈ xs, c b = true)
    (hs : Stops c rest) : (xs ++ rest).takeWhile c = xs ∧ (xs ++ rest).dropWhile c = rest := by
  induction xs with
  | nil =>
    cases rest with
    | nil => simp
    | cons b t =>
      have hb : c b = false := by simpa [Stops] using hs
      simp [hb]
  | cons b xs ih =>
    have hb : c b = true := h b (by simp)
    obtain ⟨h1, h2⟩ := ih fun x hx => h x (by simp [hx])
    simp [hb, h1, h2]

theorem dropWs_append {ws : Ws} {rest : List UInt8} (hs : Stops isWs rest) : dropWs (ws.text ++ rest) = rest :=
  (takeWhile_append_stops (fun _ hb => ws.isWs_of_mem hb) hs).2

theorem readWord_word {w : Word} {rest : List UInt8} (hs : Stops isBare rest) :
    readWord (w.text ++ rest) = some (w.text, rest) := by
  obtain ⟨h1, h2⟩ := takeWhile_append_stops (fun _ hb => w.isBare_of_mem hb) hs
  rw [readWord, h1, h2, if_neg (by simpa using w.ne_nil)]

theorem readBinary_payload (p : Payload) (rest : List UInt8) :
    readBinary (itoaUnsigned p.bytes.length ++ Ch.slash :: (p.bytes ++ Ch.gt :: rest)) = some (p.bytes, rest) := by
  have hstop : Stops isDigit (Ch.slash :: (p.bytes ++ Ch.gt :: rest)) := rfl
  obtain ⟨h1, h2⟩ := takeWhile_append_stops
    (fun b (hb : b ∈ itoaUnsigned p.bytes.length) => isDigit_of_mem_itoaUnsigned hb) hstop
  rw [readBinary, h1, h2, digitsValue_itoaUnsigned]
  simp

/-! ### First bytes -/

/-- The first byte of a value or a key: neither whitespace nor a closing bracket. -/
def Opens (s : List UInt8) : Prop :=
  ∃ b t, s = b :: t ∧ isWs b = false ∧ b ≠ Ch.rbracket ∧ b ≠ Ch.rbrace

theorem isBare_opens : ∀ b : UInt8, isBare b = true → isWs b = false ∧ b ≠ Ch.rbracket ∧ b ≠ Ch.rbrace := by
  set_option maxRecDepth 20000 in decide

theorem Opens.append {s : List UInt8} (h : Opens s) (t : List UInt8) : Opens (s ++ t) := by
  obtain ⟨b, u, rfl, hb⟩ := h
  exact ⟨b, u ++ t, rfl, hb⟩

theorem Opens.stops {s : List UInt8} (h : Opens s) : Stops isWs s := by
  obtain ⟨b, u, rfl, hb, -⟩ := h
  simpa [Stops] using hb

theorem Opens.head_ne {s : List UInt8} (h : Opens s) (k : Kind) : s.head? ≠ some k.closing := by
  obtain ⟨b, u, rfl, -, h1, h2⟩ := h
  cases k
  · simpa [Kind.closing] using h1
  · simpa [Kind.closing] using h2

theorem Word.opens (w : Word) : Opens w.text := by
  obtain ⟨b, s, hw, hb⟩ := w.exists_cons
  exact ⟨b, s, hw, isBare_opens b hb⟩

theorem Str.opens (s : Str) : Opens s.text := ⟨_, _, rfl, by cases s.quote <;> decide⟩

theorem Key.opens (k : Key) : Opens k.text := by
  cases k with
  | quoted s => exact s.opens
  | bare w => exact w.opens

theorem Value.opens (v : Value) : Opens v.text := by
  cases v with
  | str s => exact s.opens
  | lit w => exact w.opens
  | bin p => exact ⟨_, _, rfl, by decide⟩
  | empty k ws => exact ⟨_, _, rfl, by cases k <;> decide⟩
  | node k es => exact ⟨_, _, rfl, by cases k <;> decide⟩

theorem isWs_not_isBare {b : UInt8} (h : isWs b = true) : isBare b = false := (isWs_facts b h).2.2.1

/-- Whitespace and then a byte that does not belong to a word end a word. -/
theorem stops_isBare {ws : Ws} {b : UInt8} {rest : List UInt8} (hb : isBare b = false) :
    Stops isBare (ws.text ++ b :: rest) := by
  rcases hw : ws.text with _ | ⟨c, t⟩
  · simpa [Stops] using hb
  · simpa [Stops] using isWs_not_isBare (ws.isWs_of_mem (b := c) (by rw [hw]; simp))

/-- A key is read up to the whitespace or the colon behind it. -/
theorem readKey_key (k : Key) {rest : List UInt8} (hs : Stops isBare rest) :
    readKey (k.text ++ rest) = some (k.name, rest) := by
  cases k with
  | quoted s =>
    have hq : s.quote.char = Ch.dquote ∨ s.quote.char = Ch.squote := by cases s.quote <;> decide
    rw [Key.text, Str.text, List.cons_append, List.append_assoc, readKey, if_pos hq]
    exact readString_body s.quote.char_ne_backslash s.wf rest
  | bare w =>
    obtain ⟨b, t, hw, hb⟩ := w.exists_cons
    obtain ⟨-, -, h1, h2, -⟩ := isBare_facts b hb
    have hread := readWord_word (w := w) hs
    rw [hw, List.cons_append] at hread
    rw [Key.text, hw, List.cons_append, readKey, if_neg (not_or.mpr ⟨h1, h2⟩), hread, Key.name, hw]

theorem readHead_text {k : Kind} (h : Head k) {rest : List UInt8} (ho : Opens rest) :
    readHead k (h.text ++ rest) = some (h.name, rest) := by
  cases h with
  | item pre => rw [readHead, Head.text, dropWs_append ho.stops]; rfl
  | member pre key mid post =>
    have hcolon : Stops isWs (Ch.colon :: (post.text ++ rest)) := by simp [Stops]; rfl
    simp only [Head.text, List.append_assoc, List.cons_append, readHead]
    rw [dropWs_append (key.opens.append _).stops, readKey_key key (stops_isBare (by decide))]
    simp only
    rw [dropWs_append hcolon]
    simp only [if_true]
    rw [dropWs_append ho.stops]
    rfl

/-- Behind its whitespace an entry does not start with the closing bracket. -/
theorem Head.dropWs_ne {k : Kind} (h : Head k) (v : Value) (rest : List UInt8) :
    (dropWs (h.text ++ (v.text ++ rest))).head? ≠ some k.closing := by
  cases h with
  | item pre =>
    rw [Head.text, dropWs_append (v.opens.append _).stops]
    exact (v.opens.append _).head_ne _
  | member pre key mid post =>
    rw [Head.text, List.append_assoc, List.append_assoc, dropWs_append (key.opens.append _).stops]
    exact (key.opens.append _).head_ne _

theorem Entries.dropWs_ne : ∀ {k : Kind} (es : Entries k) (rest : List UInt8),
    (dropWs (es.text ++ rest)).head? ≠ some k.closing
  | _, .one h v post, rest => by
    rw [Entries.text, List.append_assoc, List.append_assoc]
    exact h.dropWs_ne v _
  | _, .cons h v post es, rest => by
    rw [Entries.text, List.append_assoc, List.append_assoc]
    exact h.dropWs_ne v _

/-! ### Every text is read -/

mutual
/-- The depth of recursion a value needs. -/
def Value.size : Value → ℕ
  | .node _ es => es.size + 2
  | _ => 2
/-- The depth of recursion the entries need. -/
def Entries.size : {k : Kind} → Entries k → ℕ
  | _, .one _ v _ => v.size + 1
  | _, .cons _ v _ rest => v.size + rest.size + 1
end

attribute [local simp] Value.size Entries.size

/-- The number of entries. -/
def Entries.count : {k : Kind} → Entries k → ℕ
  | _, .one _ _ _ => 1
  | _, .cons _ _ _ rest => rest.count + 1

theorem Kind.closing_facts (k : Kind) : k.closing ≠ Ch.comma ∧ isBare k.closing = false ∧ isWs k.closing = false := by
  cases k <;> decide

/-- What is read from behind some entries: with a comma the rest, else nothing more. -/
def continueEntries (k : Kind) (n : ℕ) (trees : List (List UInt8 × Tree)) (b : UInt8) (rest : List UInt8) :
    Option (List (List UInt8 × Tree) × List UInt8) :=
  if b = Ch.comma then (readEntries n k rest).map fun r => (trees ++ r.1, r.2) else some (trees, rest)

mutual
/-- A value is read as its tree, up to the end of its text. -/
theorem readValue_text (v : Value) {n : ℕ} {rest : List UInt8} (hn : v.size ≤ n) (hs : Stops isBare rest) :
    readValue n (v.text ++ rest) = some (v.tree, rest) := by
  match v, n with
  | .str s, n + 1 =>
    have hq : s.quote.char = Ch.dquote ∨ s.quote.char = Ch.squote := by cases s.quote <;> decide
    rw [Value.text, Str.text, List.cons_append, List.append_assoc, readValue, if_pos hq, List.singleton_append,
      readString_body s.quote.char_ne_backslash s.wf]
    rfl
  | .lit w, n + 1 =>
    obtain ⟨b, t, hw, hb⟩ := w.exists_cons
    obtain ⟨-, -, h1, h2, h3, h4, -, h5, -⟩ := isBare_facts b hb
    have hread := readWord_word (w := w) hs
    rw [hw, List.cons_append] at hread
    rw [Value.text, hw, List.cons_append, readValue, if_neg (not_or.mpr ⟨h1, h2⟩), if_neg h3, if_neg h4, if_neg h5,
      hread, Value.tree, hw]
    rfl
  | .bin p, n + 1 =>
    rw [Value.text, Payload.text, List.cons_append, readValue, if_neg (by decide), if_pos rfl]
    simp only [List.append_assoc, List.cons_append, List.nil_append, readBinary_payload]
    rfl
  | .empty k ws, n + 2 =>
    have hnode : readNode (n + 1) k (ws.text ++ k.closing :: rest) = some (.node k [], rest) := by
      rw [readNode, dropWs_append (by simpa [Stops] using k.closing_facts.2.2)]
      simp
    rw [Value.text, List.cons_append, List.append_assoc]
    cases k <;> simpa [Kind.opening] using hnode
  | .node k es, n + 2 =>
    rw [Value.size] at hn
    have hes : readEntries n k (es.text ++ k.closing :: rest) =
        continueEntries k (n - es.count) es.trees k.closing rest :=
      readEntries_text es (by omega) (Or.inr rfl)
    rw [continueEntries, if_neg k.closing_facts.1] at hes
    have hnode : readNode (n + 1) k (es.text ++ k.closing :: rest) = some (.node k es.trees, rest) := by
      rw [readNode, if_neg (es.dropWs_ne _), hes]
      rfl
    rw [Value.text, List.cons_append, List.append_assoc]
    cases k <;> simpa [Kind.opening] using hnode
/-- Entries followed by a comma or the closing bracket are read, and what is behind the comma after them. -/
theorem readEntries_text : ∀ {k : Kind} (es : Entries k) {n : ℕ} {b : UInt8} {rest : List UInt8}, es.size ≤ n →
    b = Ch.comma ∨ b = k.closing →
    readEntries n k (es.text ++ b :: rest) = continueEntries k (n - es.count) es.trees b rest
  | k, .one h v post, n, b, rest, hn, hb => by
    rw [Entries.size] at hn
    obtain ⟨n, rfl⟩ : ∃ j, n = j + 1 := ⟨n - 1, by omega⟩
    have hbf : isBare b = false ∧ isWs b = false := by
      rcases hb with rfl | rfl
      · decide
      · exact k.closing_facts.2
    have hval : readValue n (v.text ++ (post.text ++ b :: rest)) = some (v.tree, post.text ++ b :: rest) :=
      readValue_text v (by omega) (stops_isBare hbf.1)
    have hws : dropWs (post.text ++ b :: rest) = b :: rest := dropWs_append (by simpa [Stops] using hbf.2)
    rw [Entries.text, List.append_assoc, List.append_assoc, readEntries, readHead_text h (v.opens.append _)]
    simp only [hval, hws]
    rw [continueEntries, Entries.count, Nat.add_sub_cancel, Entries.trees]
    by_cases hc : b = Ch.comma
    · rw [if_pos hc, if_pos hc]
      rfl
    · rw [if_neg hc, if_neg hc, if_pos (hb.resolve_left hc)]
  | k, .cons h v post es, n, b, rest, hn, hb => by
    rw [Entries.size] at hn
    obtain ⟨n, rfl⟩ : ∃ j, n = j + 1 := ⟨n - 1, by omega⟩
    have hval : readValue n (v.text ++ (post.text ++ Ch.comma :: (es.text ++ b :: rest))) =
        some (v.tree, post.text ++ Ch.comma :: (es.text ++ b :: rest)) :=
      readValue_text v (by omega) (stops_isBare (by decide))
    have hws : dropWs (post.text ++ Ch.comma :: (es.text ++ b :: rest)) = Ch.comma :: (es.text ++ b :: rest) :=
      dropWs_append (by rfl)
    have hes : readEntries n k (es.text ++ b :: rest) = continueEntries k (n - es.count) es.trees b rest :=
      readEntries_text es (by omega) hb
    rw [Entries.text, List.append_assoc, List.append_assoc, List.append_assoc, List.cons_append, readEntries,
      readHead_text h (v.opens.append _)]
    simp only [hval, hws]
    rw [if_pos trivial, hes, continueEntries, continueEntries, Entries.count, Entries.trees, Nat.add_sub_add_right]
    by_cases hc : b = Ch.comma
    · rw [if_pos hc, if_pos hc, Option.map_map]
      rfl
    · rw [if_neg hc, if_neg hc]
      rfl
end

mutual
theorem Value.size_le (v : Value) : v.size ≤ 2 * v.text.length := by
  match v with
  | .str s => simp [Value.text, Str.length_text]
  | .lit w =>
    have := List.length_pos_of_ne_nil w.ne_nil
    simp only [Value.size, Value.text]
    omega
  | .bin p => simp [Value.text, Payload.text]
  | .empty k ws => simp [Value.text]
  | .node k es =>
    have := es.size_le
    simp [Value.text]
    omega
theorem Entries.size_le : ∀ {k : Kind} (es : Entries k), es.size ≤ 2 * es.text.length + 2
  | _, .one h v post => by
    have := v.size_le
    simp [Entries.text]
    omega
  | _, .cons h v post es => by
    have h1 := v.size_le
    have h2 := es.size_le
    simp [Entries.text]
    omega
end

/-- **The parser reads what is well-formed.** -/
theorem readText_value (v : Value) (pre post : Ws) : readText (pre.text ++ (v.text ++ post.text)) = some v.tree := by
  have hsize := v.size_le
  have hs : Stops isBare post.text := by
    rcases hp : post.text with _ | ⟨b, t⟩
    · rfl
    · simpa [Stops] using isWs_not_isBare (post.isWs_of_mem (b := b) (by rw [hp]; simp))
  rw [readText, dropWs_append (v.opens.append _).stops, readValue_text v (by simp; omega) hs]
  simp [post.wf]

/-- A text is written from one tree only. -/
theorem Value.tree_eq_of_text_eq {v w : Value} (h : v.text = w.text) : v.tree = w.tree := by
  have hv := readText_value v .none .none
  rw [h, readText_value w .none .none] at hv
  exact (Option.some.inj hv).symm

end Cpcf.Json
