import Cpcf.Json.Override
import Cpcf.Json.SingleLine

/-!
`JsonBeautified`: a text laid out anew.

`_Beautify` writes a short container on one line and any other with an entry on each line, recursively. It
decides by the length of the text and by the commas that `_count_seps` finds outside of double quotes;
`_AppendAsSingleLine` drops blanks and puts one behind each comma and colon, again outside of double
quotes; and the members and items to lay out are the ones the iterators return.

`Value.beautified` says what comes out, in terms of the tree that went in, and `beautifyAt_eq` that the code
does this.
-/

namespace Cpcf.Json

open Cpcf.Rt Cpcf.Lib.Memory

/-! ### Blanks around a reference -/

/-- `TrimLeftSpace` of a reference. -/
def StringRef.trimLeftSpace (m : Mem) (s : StringRef) : StringRef :=
  if s.isEmpty then s else .ofRange (skipWhitespace m s.p s.tail) s.tail

/-- The loop of `TrimRightSpace` over the length. -/
def trimRightLength (m : Mem) (p : ℕ) : ℕ → ℕ
  | 0 => 0
  | 1 => 1
  | l + 2 => if isSkipped (m (p + (l + 1))) then trimRightLength m p (l + 1) else l + 2

/-- `TrimRightSpace` of a reference. -/
def StringRef.trimRightSpace (m : Mem) (s : StringRef) : StringRef :=
  if s.isEmpty then s else ⟨s.p, trimRightLength m s.p s.len⟩

/-- `TrimSpace` of a reference. -/
def StringRef.trimSpace (m : Mem) (s : StringRef) : StringRef :=
  if s.isEmpty then s else (s.trimLeftSpace m).trimRightSpace m

/-! ### The recursion -/

/-- The spaces that `_AppendSpace(count)` appends. A negative number becomes a count of more than `2^31`, and
the loop writes behind the buffer: `none`. -/
def spaces (count : ℤ) : Option (List UInt8) :=
  if 0 ≤ count then some (List.replicate count.toNat Ch.space) else none

/-- `_Line_max`. -/
def lineMax : ℤ := 80

/-- The key of a pair as it is printed: with its quotes if the character before it is a double quote. -/
def printedKey (m : Mem) (kv : KeyValuePair) : StringRef :=
  if m (kv.key.p - 1) = Ch.dquote then ⟨kv.key.p - 1, kv.key.len + 2⟩ else kv.key

/-- The body of the loop over the members. -/
def printMember (m : Mem) (indent : ℤ) (beautify : StringRef → Bool → ℕ → ℤ → List UInt8 → Option (List UInt8))
    (depth : ℕ) (out : List UInt8) (kv : KeyValuePair) : Option (List UInt8) := do
  let ind ← spaces (indent * depth)
  let k := printedKey m kv
  let out := out ++ ind ++ k.bytes m ++ [Ch.colon] ++ [Ch.space]
  let out ← beautify (getValueRaw m kv) false depth (lineMax - indent * depth - k.len + 3) out
  return out ++ [Ch.comma] ++ [Ch.newline]

/-- The body of the loop over the items. -/
def printItem (indent : ℤ) (beautify : StringRef → Bool → ℕ → ℤ → List UInt8 → Option (List UInt8))
    (depth : ℕ) (out : List UInt8) (obj : StringRef) : Option (List UInt8) := do
  let ind ← spaces (indent * depth)
  let out ← beautify obj true depth (lineMax - indent * depth - 2) (out ++ ind)
  return out ++ [Ch.comma] ++ [Ch.newline]

/-- The two loops of `_Beautify`, and `not_empty` behind them. -/
def printEntries (m : Mem) (indent : ℤ) (beautify : StringRef → Bool → ℕ → ℤ → List UInt8 → Option (List UInt8))
    (doc : StringRef) (depth : ℕ) (out : List UInt8) : Option (List UInt8 × Bool) :=
  if m doc.p = Ch.lbrace then do
    let kvs ← enumerate m (attach m doc)
    let out ← kvs.foldlM (printMember m indent beautify depth) out
    return (out, !kvs.isEmpty)
  else do
    let objs ← enumerateItems m (attachArray m doc)
    let out ← objs.foldlM (printItem indent beautify depth) out
    return (out, !objs.isEmpty)

/-- `_Beautify`: `out` with the text appended. The number bounds the depth of the recursion. -/
def beautifyAt (m : Mem) (indent : ℤ) : ℕ → StringRef → Bool → ℕ → ℤ → List UInt8 → Option (List UInt8)
  | 0, _, _, _, _, _ => none
  | n + 1, json_string, newline, depth, line_remain, out =>
    let doc := json_string.trimSpace m
    if doc.isEmpty then some out
    else if m doc.p ≠ Ch.lbrace ∧ m doc.p ≠ Ch.lbracket then some (out ++ doc.bytes m)
    else if isSingleLine (doc.bytes m) line_remain then some (out ++ singleLine (doc.bytes m))
    else do
      let out ← if newline then some out else (spaces (indent * depth)).map fun ind => out ++ (Ch.newline :: ind)
      let (out, not_empty) ←
        printEntries m indent (beautifyAt m indent n) doc (depth + 1) (out ++ [m doc.p] ++ [Ch.newline])
      let out := if not_empty then out.take (out.length - 2) ++ [Ch.newline] else out
      let ind ← spaces (indent * depth)
      return out ++ ind ++ [m (doc.tail - 1)]

/-- `JsonBeautified(json_string, indent, line_remain)`. -/
def beautify (m : Mem) (json_string : StringRef) (indent line_remain : ℤ) : Option (List UInt8) :=
  beautifyAt m indent (2 * json_string.len + 1) json_string true 0 line_remain []

/-! ### What comes out -/

/-- A key as it is printed. -/
def Key.printed : Key → List UInt8
  | .quoted s => if s.quote = .double then s.text else s.body
  | .bare w => w.text

/-- The entry is one the iterator returns. -/
def Head.shown : {k : Kind} → Head k → Value → Bool
  | _, .item _, _ => true
  | _, .member _ key _ _, v => Json.shown (key, v)

/-- What is printed before the value. -/
def Head.printed : {k : Kind} → Head k → List UInt8
  | _, .item _ => []
  | _, .member _ key _ _ => key.printed ++ [Ch.colon, Ch.space]

/-- The value of an item starts where it is; that of a member may start a line of its own. -/
def Head.newline : {k : Kind} → Head k → Bool
  | _, .item _ => true
  | _, .member _ _ _ _ => false

/-- The space left on the line for the value. -/
def Head.lineRemain (indent : ℤ) (depth : ℕ) : {k : Kind} → Head k → ℤ
  | _, .item _ => lineMax - indent * depth - 2
  | _, .member _ key _ _ => lineMax - indent * depth - key.printed.length + 3

/-- A line of its own for a container, unless it is there already. -/
def lead (indent : ℤ) (newline : Bool) (depth : ℕ) : Option (List UInt8) :=
  if newline then some [] else (spaces (indent * depth)).map (Ch.newline :: ·)

/-- A container with the given entries, printed in lines. -/
def inLines (k : Kind) (lead ind : List UInt8) (entries : List (List UInt8)) : List UInt8 :=
  lead ++ k.opening :: Ch.newline ::
    ((if entries.isEmpty then [] else joinWith [Ch.comma, Ch.newline] entries ++ [Ch.newline]) ++
      (ind ++ [k.closing]))

mutual
/-- The text printed for a value. -/
def Value.beautified (indent : ℤ) (newline : Bool) (depth : ℕ) (line_remain : ℤ) : Value → Option (List UInt8)
  | .empty k ws =>
    if isSingleLine (Value.empty k ws).text line_remain then some (singleLine (Value.empty k ws).text)
    else do
      let lead ← lead indent newline depth
      let ind ← spaces (indent * depth)
      return inLines k lead ind []
  | .node k es =>
    if isSingleLine (Value.node k es).text line_remain then some (singleLine (Value.node k es).text)
    else do
      let lead ← lead indent newline depth
      let entries ← es.printed indent (depth + 1)
      let ind ← spaces (indent * depth)
      return inLines k lead ind entries
  | v => some v.text
/-- The texts printed for the entries. -/
def Entries.printed (indent : ℤ) (depth : ℕ) : {k : Kind} → Entries k → Option (List (List UInt8))
  | _, .one h v _ =>
    if h.shown v then do
      let ind ← spaces (indent * depth)
      let t ← v.beautified indent h.newline depth (h.lineRemain indent depth)
      return [ind ++ (h.printed ++ t)]
    else some []
  | _, .cons h v _ rest =>
    if h.shown v then do
      let ind ← spaces (indent * depth)
      let t ← v.beautified indent h.newline depth (h.lineRemain indent depth)
      let entries ← rest.printed indent depth
      return (ind ++ (h.printed ++ t)) :: entries
    else some []
end

/-- There is whitespace before the first key. -/
def Entries.spacedFirst : {k : Kind} → Entries k → Bool
  | .object, .one (.member pre _ _ _) _ _ => !pre.text.isEmpty
  | .object, .cons (.member pre _ _ _) _ _ _ => !pre.text.isEmpty
  | .array, _ => true

mutual
/-- Every object with members has whitespace behind its brace. -/
def Value.spaced : Value → Bool
  | .node _ es => es.spacedFirst && es.spaced
  | _ => true
/-- The same, inside entries. -/
def Entries.spaced : {k : Kind} → Entries k → Bool
  | _, .one _ v _ => v.spaced
  | _, .cons _ v _ rest => v.spaced && rest.spaced
end

/-! ### Trimming -/

section Trim

variable {m : Mem} {p : ℕ}

theorem trimRightLength_eq {L n : ℕ} (hL : 0 < L) (hlast : isSkipped (m (p + (L - 1))) = false)
    (hn : ∀ i, L ≤ i → i < L + n → isSkipped (m (p + i)) = true) : trimRightLength m p (L + n) = L := by
  induction n with
  | zero =>
    match L, hL with
    | 1, _ => rfl
    | l + 2, _ =>
      have h' : isSkipped (m (p + (l + 1))) = false := hlast
      simp [trimRightLength, h']
  | succ n ih =>
    obtain ⟨l, rfl⟩ : ∃ l, L = l + 1 := ⟨L - 1, by omega⟩
    have h' : isSkipped (m (p + (l + n + 1))) = true := hn (l + n + 1) (by omega) (by omega)
    rw [show l + 1 + (n + 1) = l + n + 2 by omega, trimRightLength, if_pos h', show l + n + 1 = l + 1 + n by omega]
    exact ih fun i h1 h2 => hn i h1 (by omega)

/-- A value ends with a visible byte. -/
theorem Value.last_byte {v : Value} (hn : v.noBinary = true) (h : Holds m p v.text) :
    isSkipped (m (p + (v.text.length - 1))) = false := by
  obtain ⟨s, b, hs, hb⟩ : ∃ s b, v.text = s ++ [b] ∧ isSkipped b = false := by
    cases v with
    | str s => exact ⟨s.quote.char :: s.body, s.quote.char, by simp [Value.text, Str.text], s.quote.char_facts.2.2.1⟩
    | lit w =>
      refine ⟨w.text.dropLast, w.text.getLast w.ne_nil, (List.dropLast_append_getLast w.ne_nil).symm, ?_⟩
      exact (isBare_facts _ (w.isBare_of_mem (List.getLast_mem w.ne_nil))).1
    | bin b => simp [Value.noBinary] at hn
    | empty k ws => exact ⟨k.opening :: ws.text, k.closing, by simp [Value.text], by cases k <;> decide⟩
    | node k es => exact ⟨k.opening :: es.text, k.closing, by simp [Value.text], by cases k <;> decide⟩
  rw [hs] at h ⊢
  have := (holds_append.mp h).2.1
  rw [List.length_append, List.length_singleton, Nat.add_sub_cancel, this]
  exact hb

theorem trimSpace_ref {v : Value} (pre post : Ws) (hp : 0 < p) (hn : v.noBinary = true)
    (h : Holds m p (pre.text ++ (v.text ++ post.text))) :
    StringRef.trimSpace m ⟨p, (pre.text ++ (v.text ++ post.text)).length⟩ = ⟨p + pre.text.length, v.text.length⟩ := by
  have hpos : 0 < v.text.length := List.length_pos_of_ne_nil v.text_ne_nil
  obtain ⟨h1, h2⟩ := holds_append.mp h
  obtain ⟨h2, h3⟩ := holds_append.mp h2
  simp only [List.length_append]
  have he : ∀ q len, 0 < q → 0 < len → (StringRef.mk q len).isEmpty = false := fun q len =>
    StringRef.isEmpty_of_pos (s := ⟨q, len⟩)
  have hleft : StringRef.trimLeftSpace m ⟨p, pre.text.length + (v.text.length + post.text.length)⟩ =
      ⟨p + pre.text.length, v.text.length + post.text.length⟩ := by
    rw [StringRef.trimLeftSpace, he _ _ hp (by omega)]
    simp only [Bool.false_eq_true, if_false, StringRef.tail]
    rw [skipWhitespace_ws h1 (by omega) (v.first_byte hn h2).2.1, StringRef.ofRange]
    congr 1
    omega
  rw [StringRef.trimSpace, he _ _ hp (by omega), hleft, StringRef.trimRightSpace, he _ _ (by omega) (by omega)]
  simp only [Bool.false_eq_true, if_false]
  rw [trimRightLength_eq hpos (v.last_byte hn h2)]
  intro i hi hi'
  have := h3.get (i := i - v.text.length) (by omega)
  rw [show p + pre.text.length + i = p + pre.text.length + v.text.length + (i - v.text.length) by omega, this]
  exact (isWs_facts _ (post.isWs_of_mem (List.getElem_mem _))).1

end Trim

/-! ### The code prints what it should -/

section Refines

variable {m : Mem} {indent : ℤ}

/-- The recursive calls print the values they are given. -/
def Prints (m : Mem) (indent : ℤ) (n : ℕ)
    (beautify : StringRef → Bool → ℕ → ℤ → List UInt8 → Option (List UInt8)) : Prop :=
  ∀ (v : Value) (ref : StringRef) (newline : Bool) (depth : ℕ) (line_remain : ℤ) (out : List UInt8),
    v.size ≤ n → At m ref v → v.noBinary = true → v.spaced = true →
    beautify ref newline depth line_remain out = (v.beautified indent newline depth line_remain).map (out ++ ·)

/-- The entries as the loops leave them in the buffer, each with its separator. -/
def printedLines (entries : List (List UInt8)) : List UInt8 :=
  (entries.map fun t => t ++ [Ch.comma, Ch.newline]).flatten

theorem printedKey_eq {kvp : KeyValuePair} {kv : Key × Value} (h : Shows m kvp kv) :
    (printedKey m kvp).bytes m = kv.1.printed ∧ (printedKey m kvp).len = kv.1.printed.length := by
  have hbytes : (printedKey m kvp).bytes m = kv.1.printed := by
    rw [printedKey]
    cases hk : kv.1 with
    | quoted s =>
      have hm := h.mark
      rw [hk, Key.mark] at hm
      cases hq : s.quote with
      | double =>
        rw [hq] at hm
        rw [if_pos (by simpa using hm), Key.printed, if_pos hq]
        have := h.marked (by simp [hk, Key.mark, hq])
        simpa [hk, Key.text, StringRef.bytes] using this
      | single =>
        rw [hq] at hm
        rw [if_neg (by simpa using hm), Key.printed, if_neg (by simp [hq])]
        simpa [hk, Key.name] using h.key
    | bare w =>
      have hm := h.mark
      rw [hk, Key.mark] at hm
      rw [if_neg (by simpa using hm)]
      simpa [hk, Key.name, Key.printed] using h.key
  refine ⟨hbytes, ?_⟩
  rw [← hbytes, StringRef.bytes, length_read]

theorem at_raw {kvp : KeyValuePair} {kv : Key × Value} (h : Shows m kvp kv) : At m (getValueRaw m kvp) kv.2 := by
  have hraw := h.raw
  rw [StringRef.bytes] at hraw
  have hlen : (getValueRaw m kvp).len = kv.2.text.length := by rw [← hraw, length_read]
  exact ⟨h.pos, hlen, by rw [← hraw]; exact holds_read _ _ _⟩

theorem mem_values_facts : ∀ {k : Kind} {es : Entries k} {v : Value}, es.noBinary = true → es.spaced = true →
    v ∈ es.values → v.size < es.size ∧ v.noBinary = true ∧ v.spaced = true
  | _, .one h w post, v, hn, hs, hv => by
    rw [Entries.values, List.mem_singleton] at hv
    rw [hv, Entries.size]
    exact ⟨by omega, hn, hs⟩
  | _, .cons h w post rest, v, hn, hs, hv => by
    simp only [Entries.noBinary, Entries.spaced, Bool.and_eq_true] at hn hs
    rw [Entries.values, List.mem_cons] at hv
    rw [Entries.size]
    rcases hv with rfl | hv
    · exact ⟨by omega, hn.1, hs.1⟩
    · obtain ⟨h1, h2⟩ := mem_values_facts hn.2 hs.2 hv
      exact ⟨by omega, h2⟩

/-- Where an object with whitespace behind its brace stands, the loop runs over the members shown. -/
theorem enumerate_at {ref : StringRef} {v : Value} (h : At m ref v) (ho : v.isObject = true)
    (hn : v.noBinary = true) (hs : v.spaced = true) :
    ∃ kvps, enumerate m (attach m ref) = some kvps ∧ List.Forall₂ (Shows m) kvps v.seen := by
  obtain ⟨p, len⟩ := ref
  obtain ⟨hp, hlen, htext⟩ := h
  simp only at hp hlen htext
  subst hlen
  have hl : v.Legible := by
    match v, ho with
    | .empty .object ws, _ => trivial
    | .node .object es, _ =>
      refine Or.inl fun h0 => ?_
      rw [Value.spaced, Bool.and_eq_true] at hs
      cases es with
      | one hd w post => cases hd; simp [Entries.spacedFirst, Entries.pre] at hs h0; exact hs.1 h0
      | cons hd w post rest => cases hd; simp [Entries.spacedFirst, Entries.pre] at hs h0; exact hs.1 h0
  have htext' : Holds m p (Ws.none.text ++ (v.text ++ [])) := by simpa [Ws.none] using htext
  obtain ⟨kvps, henum, hshows⟩ := enumerate_attach hp ho hn htext' hl
  exact ⟨kvps, by simpa [Ws.none] using henum, hshows⟩

/-- The line of a member. -/
def memberLine (indent : ℤ) (depth : ℕ) (kv : Key × Value) : Option (List UInt8) := do
  let ind ← spaces (indent * depth)
  let t ← kv.2.beautified indent false depth (lineMax - indent * depth - kv.1.printed.length + 3)
  return ind ++ ((kv.1.printed ++ [Ch.colon, Ch.space]) ++ t)

/-- The line of an item. -/
def itemLine (indent : ℤ) (depth : ℕ) (v : Value) : Option (List UInt8) := do
  let ind ← spaces (indent * depth)
  let t ← v.beautified indent true depth (lineMax - indent * depth - 2)
  return ind ++ ([] ++ t)

theorem printed_members (depth : ℕ) : ∀ es : Entries .object,
    es.printed indent depth = es.seen.mapM (memberLine indent depth)
  | .one (.member pre key mid post) v ws => by
    rw [Entries.printed, Entries.seen, Entries.members, Head.shown, Head.key, List.takeWhile_cons]
    cases shown (key, v) with
    | false => rfl
    | true =>
      simp only [if_true, List.takeWhile_nil, List.mapM_cons, List.mapM_nil, memberLine, bind_assoc, pure_bind]
      rfl
  | .cons (.member pre key mid post) v ws rest => by
    have ih := printed_members depth rest
    rw [Entries.seen] at ih
    rw [Entries.printed, Entries.seen, Entries.members, Head.shown, Head.key, List.takeWhile_cons]
    cases shown (key, v) with
    | false => rfl
    | true =>
      simp only [if_true, List.mapM_cons, memberLine, bind_assoc, pure_bind, ih]
      rfl

theorem printed_items (depth : ℕ) : ∀ es : Entries .array,
    es.printed indent depth = es.values.mapM (itemLine indent depth)
  | .one (.item pre) v ws => by
    simp only [Entries.printed, Entries.values, Head.shown, if_true, List.mapM_cons, List.mapM_nil, itemLine,
      bind_assoc, pure_bind]
    rfl
  | .cons (.item pre) v ws rest => by
    have ih := printed_items depth rest
    simp only [Entries.printed, Entries.values, Head.shown, if_true, List.mapM_cons, itemLine, bind_assoc, pure_bind,
      ih]
    rfl

/-- A loop that appends a line for each entry leaves the lines of all of them, each with its separator. -/
theorem foldlM_lines {α β : Type} {R : α → β → Prop} {step : List UInt8 → α → Option (List UInt8)}
    {line : β → Option (List UInt8)} {as : List α} {bs : List β} (hR : List.Forall₂ R as bs)
    (h : ∀ out a b, b ∈ bs → R a b → step out a = (line b).map fun t => out ++ (t ++ [Ch.comma, Ch.newline]))
    (out : List UInt8) : as.foldlM step out = (bs.mapM line).map fun entries => out ++ printedLines entries := by
  induction hR generalizing out with
  | nil => simp [printedLines]
  | cons hab hR ih =>
    rename_i a b as bs
    rw [List.foldlM_cons, h out a b (by simp) hab, List.mapM_cons]
    cases line b with
    | none => rfl
    | some t =>
      have ih := ih (fun out a b hb => h out a b (by simp [hb])) (out ++ (t ++ [Ch.comma, Ch.newline]))
      simp only [Option.map_some, Option.bind_eq_bind, Option.bind_some, ih]
      cases bs.mapM line with
      | none => rfl
      | some entries => simp [printedLines]

/-- The same with `not_empty`. -/
theorem foldlM_lines_isEmpty {α β : Type} {R : α → β → Prop} {step : List UInt8 → α → Option (List UInt8)}
    {line : β → Option (List UInt8)} {as : List α} {bs : List β} (hR : List.Forall₂ R as bs)
    (h : ∀ out a b, b ∈ bs → R a b → step out a = (line b).map fun t => out ++ (t ++ [Ch.comma, Ch.newline]))
    (out : List UInt8) :
    ((as.foldlM step out).bind fun out => some (out, !as.isEmpty)) =
      (bs.mapM line).map fun entries => (out ++ printedLines entries, !entries.isEmpty) := by
  rw [foldlM_lines hR h out]
  cases hR with
  | nil => rfl
  | cons hab hR =>
    rename_i a b as bs
    rw [List.mapM_cons]
    cases line b with
    | none => rfl
    | some t =>
      cases bs.mapM line with
      | none => simp
      | some entries => simp

/-- One turn of the loop over the members. -/
theorem printMember_eq {n depth : ℕ} {out : List UInt8} {kvp : KeyValuePair} {kv : Key × Value}
    {beautify : StringRef → Bool → ℕ → ℤ → List UInt8 → Option (List UInt8)} (hb : Prints m indent n beautify)
    (h : Shows m kvp kv) (hsize : kv.2.size ≤ n) (hn : kv.2.noBinary = true) (hs : kv.2.spaced = true) :
    printMember m indent beautify depth out kvp =
      (memberLine indent depth kv).map fun t => out ++ (t ++ [Ch.comma, Ch.newline]) := by
  obtain ⟨hkey, hlen⟩ := printedKey_eq h
  rw [printMember, memberLine]
  cases spaces (indent * depth) with
  | none => rfl
  | some ind =>
    simp only [Option.bind_eq_bind, Option.bind_some, hkey, hlen, hb _ _ _ _ _ _ hsize (at_raw h) hn hs]
    cases kv.2.beautified indent false depth (lineMax - indent * depth - kv.1.printed.length + 3) with
    | none => rfl
    | some t => simp

/-- One turn of the loop over the items. -/
theorem printItem_eq {n depth : ℕ} {out : List UInt8} {obj : StringRef} {v : Value}
    {beautify : StringRef → Bool → ℕ → ℤ → List UInt8 → Option (List UInt8)} (hb : Prints m indent n beautify)
    (h : At m obj v) (hsize : v.size ≤ n) (hn : v.noBinary = true) (hs : v.spaced = true) :
    printItem indent beautify depth out obj =
      (itemLine indent depth v).map fun t => out ++ (t ++ [Ch.comma, Ch.newline]) := by
  rw [printItem, itemLine]
  cases spaces (indent * depth) with
  | none => rfl
  | some ind =>
    simp only [Option.bind_eq_bind, Option.bind_some, hb _ _ _ _ _ _ hsize h hn hs]
    cases v.beautified indent true depth (lineMax - indent * depth - 2) with
    | none => rfl
    | some t => simp

/-- The loops of `_Beautify` print the entries. -/
theorem printEntries_eq {n depth : ℕ} {doc : StringRef} {k : Kind} {es : Entries k} {out : List UInt8}
    {beautify : StringRef → Bool → ℕ → ℤ → List UInt8 → Option (List UInt8)} (hb : Prints m indent n beautify)
    (h : At m doc (.node k es)) (hsize : es.size ≤ n) (hn : es.noBinary = true)
    (hs : (Value.node k es).spaced = true) :
    printEntries m indent beautify doc depth out =
      (es.printed indent depth).map fun entries => (out ++ printedLines entries, !entries.isEmpty) := by
  have hopen : m doc.p = k.opening := h.2.2.1
  have hs' : es.spacedFirst = true ∧ es.spaced = true := by simpa [Value.spaced] using hs
  rw [printEntries, hopen]
  cases k with
  | object =>
    obtain ⟨kvps, henum, hshows⟩ := enumerate_at h rfl hn hs
    rw [if_pos (by rfl), henum, printed_members]
    refine foldlM_lines_isEmpty hshows (fun out kvp kv hkv hsh => ?_) out
    have hmem : kv.2 ∈ es.values := by
      rw [es.values_eq]
      exact List.mem_map_of_mem ((List.takeWhile_sublist _).subset hkv)
    obtain ⟨h1, h2, h3⟩ := mem_values_facts hn hs'.2 hmem
    exact printMember_eq hb hsh (by omega) h2 h3
  | array =>
    obtain ⟨refs, henum, hat⟩ := enumerateItems_array hn h
    rw [if_neg (by decide), henum, printed_items]
    refine foldlM_lines_isEmpty hat (fun out ref v hv hr => ?_) out
    obtain ⟨h1, h2, h3⟩ := mem_values_facts hn hs'.2 hv
    exact printItem_eq hb hr (by omega) h2 h3

theorem printEntries_empty {depth : ℕ} {doc : StringRef} {k : Kind} {ws : Ws} {out : List UInt8}
    {beautify : StringRef → Bool → ℕ → ℤ → List UInt8 → Option (List UInt8)} (h : At m doc (.empty k ws)) :
    printEntries m indent beautify doc depth out = some (out, false) := by
  have hopen : m doc.p = k.opening := h.2.2.1
  rw [printEntries, hopen]
  cases k with
  | object =>
    obtain ⟨kvps, henum, hshows⟩ := enumerate_at h rfl rfl rfl
    cases hshows
    rw [if_pos (by rfl), henum]
    rfl
  | array =>
    rw [if_neg (by decide), enumerateItems_empty h]
    rfl

theorem printedLines_eq {entries : List (List UInt8)} (h : entries ≠ []) :
    printedLines entries = joinWith [Ch.comma, Ch.newline] entries ++ [Ch.comma, Ch.newline] := by
  induction entries with
  | nil => exact absurd rfl h
  | cons t entries ih =>
    cases entries with
    | nil => simp [printedLines, joinWith]
    | cons u entries =>
      have ih := ih (by simp)
      rw [printedLines, List.map_cons, List.flatten_cons, ← printedLines, ih, joinWith]
      simp

/-- The buffer once the last separator is gone. -/
theorem closeLines (out : List UInt8) (entries : List (List UInt8)) :
    (if (!entries.isEmpty) = true then
        (out ++ printedLines entries).take ((out ++ printedLines entries).length - 2) ++ [Ch.newline]
      else out ++ printedLines entries) =
      out ++ (if entries.isEmpty then [] else joinWith [Ch.comma, Ch.newline] entries ++ [Ch.newline]) := by
  cases entries with
  | nil => simp [printedLines]
  | cons t entries =>
    rw [printedLines_eq (by simp), ← List.append_assoc]
    have hlen : ((out ++ joinWith [Ch.comma, Ch.newline] (t :: entries)) ++ [Ch.comma, Ch.newline]).length - 2 =
        (out ++ joinWith [Ch.comma, Ch.newline] (t :: entries)).length := by
      simp only [List.length_append, List.length_cons, List.length_nil]
      omega
    rw [hlen, List.take_left]
    simp

/-- A text that is not a container is copied. -/
theorem beautifyAt_scalar {n depth : ℕ} {line_remain : ℤ} {newline : Bool} {out : List UInt8} {v : Value}
    {ref : StringRef} (hdoc : ref.trimSpace m = ref) (h : At m ref v)
    (hv : m ref.p ≠ Ch.lbrace ∧ m ref.p ≠ Ch.lbracket) :
    beautifyAt m indent (n + 1) ref newline depth line_remain out = some (out ++ v.text) := by
  have hbytes : ref.bytes m = v.text := by rw [StringRef.bytes, h.2.1, h.2.2.read_eq]
  rw [beautifyAt, hdoc, h.isEmpty]
  simp only [Bool.false_eq_true, if_false]
  rw [if_pos hv, hbytes]

/-- A container is printed on one line, or in lines if its entries can be. -/
theorem beautifyAt_container {n depth : ℕ} {line_remain : ℤ} {newline : Bool} {out : List UInt8} {k : Kind}
    {ref : StringRef} {v : Value} (body : List UInt8) (printed : Option (List (List UInt8)))
    (hdoc : ref.trimSpace m = ref) (h : At m ref v) (hv : v.text = k.opening :: (body ++ [k.closing]))
    (hp : ∀ out, printEntries m indent (beautifyAt m indent n) ref (depth + 1) out =
      printed.map fun entries => (out ++ printedLines entries, !entries.isEmpty)) :
    beautifyAt m indent (n + 1) ref newline depth line_remain out =
      (if isSingleLine v.text line_remain then some (singleLine v.text)
        else do
          let lead ← lead indent newline depth
          let entries ← printed
          let ind ← spaces (indent * depth)
          return inLines k lead ind entries).map (out ++ ·) := by
  have hbytes : ref.bytes m = v.text := by rw [StringRef.bytes, h.2.1, h.2.2.read_eq]
  have hopen : m ref.p = k.opening := by
    have := h.2.2
    rw [hv] at this
    exact this.1
  have hclose : m (ref.tail - 1) = k.closing := by
    have := h.2.2
    rw [hv] at this
    have hlast := (holds_append.mp this.2).2.1
    rw [StringRef.tail, h.2.1, hv, ← hlast]
    congr 1
    simp
    omega
  rw [beautifyAt, hdoc, h.isEmpty]
  simp only [Bool.false_eq_true, if_false, hbytes, hopen, hclose]
  rw [if_neg (by cases k <;> decide)]
  cases isSingleLine v.text line_remain with
  | true => rfl
  | false =>
    simp only [Bool.false_eq_true, if_false, hp]
    have key : ∀ l, ((printed.map fun entries => (out ++ l ++ [k.opening] ++ [Ch.newline] ++ printedLines entries,
        !entries.isEmpty)).bind fun r => (spaces (indent * depth)).bind fun ind =>
          some ((if r.2 = true then r.1.take (r.1.length - 2) ++ [Ch.newline] else r.1) ++ ind ++ [k.closing])) =
        (printed.bind fun entries => (spaces (indent * depth)).bind fun ind =>
          some (inLines k l ind entries)).map (out ++ ·) := by
      intro l
      cases printed with
      | none => rfl
      | some entries =>
        cases spaces (indent * depth) with
        | none => rfl
        | some ind =>
          simp only [Option.map_some, Option.bind_some, closeLines]
          simp [inLines]
    cases newline with
    | true => simpa [lead] using key []
    | false =>
      rw [lead]
      cases hsp : spaces (indent * depth) with
      | none => rfl
      | some ind => simpa [hsp] using key (Ch.newline :: ind)

theorem At.trimSpace {ref : StringRef} {v : Value} (h : At m ref v) (hn : v.noBinary = true) :
    ref.trimSpace m = ref := by
  obtain ⟨p, len⟩ := ref
  obtain ⟨hp, hlen, htext⟩ := h
  simp only at hp hlen htext
  have := trimSpace_ref .none .none hp hn (by simpa [Ws.none] using htext)
  simpa [Ws.none, hlen] using this

/-- **The code prints the tree.** With recursion deep enough, `_Beautify` appends what `Value.beautified` says. -/
theorem prints_beautifyAt (n : ℕ) : Prints m indent n (beautifyAt m indent n) := by
  induction n with
  | zero =>
    intro v ref newline depth line_remain out hsize
    cases v <;> simp [Value.size] at hsize
  | succ n ih =>
    intro v ref newline depth line_remain out hsize h hn hs
    have hdoc := h.trimSpace hn
    cases v with
    | str s =>
      refine beautifyAt_scalar hdoc h ?_
      rw [show m ref.p = s.quote.char from h.2.2.1]
      cases s.quote <;> decide
    | lit w =>
      refine beautifyAt_scalar hdoc h ?_
      obtain ⟨b, t, hw, hb⟩ := w.exists_cons
      have hfirst : Holds m ref.p w.text := h.2.2
      rw [hw] at hfirst
      obtain ⟨-, -, -, -, -, h4, -, h5, -⟩ := isBare_facts b hb
      rw [hfirst.1]
      exact ⟨h5, h4⟩
    | bin b => simp [Value.noBinary] at hn
    | empty k ws =>
      rw [beautifyAt_container ws.text (some []) hdoc h rfl, Value.beautified]
      · rfl
      · intro out
        rw [printEntries_empty h]
        simp [printedLines]
    | node k es =>
      rw [beautifyAt_container es.text (es.printed indent (depth + 1)) hdoc h rfl,
        Value.beautified]
      intro out
      rw [Value.size] at hsize
      exact printEntries_eq ih h (by omega) hn hs

end Refines

/-- `JsonBeautified` of a text: what is printed for its tree. -/
theorem beautify_eq {m : Mem} {p : ℕ} {v : Value} {pre post : Ws} (indent line_remain : ℤ) (hp : 0 < p)
    (hn : v.noBinary = true) (hs : v.spaced = true) (h : Holds m p (pre.text ++ (v.text ++ post.text))) :
    beautify m ⟨p, (pre.text ++ (v.text ++ post.text)).length⟩ indent line_remain =
      v.beautified indent true 0 line_remain := by
  have hsize := v.size_le
  have hat : At m ⟨p + pre.text.length, v.text.length⟩ v :=
    ⟨Nat.add_pos_left hp _, rfl, (holds_append.mp (holds_append.mp h).2).1⟩
  have hdoc := trimSpace_ref pre post hp hn h
  have hsame : ∀ n,
      beautifyAt m indent (n + 1) ⟨p, (pre.text ++ (v.text ++ post.text)).length⟩ true 0 line_remain [] =
      beautifyAt m indent (n + 1) ⟨p + pre.text.length, v.text.length⟩ true 0 line_remain [] := by
    intro n
    simp only [beautifyAt, hdoc, hat.trimSpace hn]
  rw [beautify, hsame, prints_beautifyAt _ v _ true 0 line_remain [] (by simp; omega) hat hn hs]
  simp

end Cpcf.Json
