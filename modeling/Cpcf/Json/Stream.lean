import Cpcf.Json.Reader
import Cpcf.Json.RoundTrip

/-!
`_JObject`: an object built piece by piece with `<<`.

The first piece replaces a text of two bytes. Every other one is written over the closing brace of the
text held, and its opening brace is then turned into a comma. That is right when there are members on
both sides of the comma. A piece whose members are all ghosts leaves a comma before the closing brace, and
a text such as `{ }`, which is longer than two bytes, leaves one behind the opening brace.
-/

namespace Cpcf.Json

open Cpcf.Rt Cpcf.Lib.Memory

/-! ### The source -/

/-- `_JObject(rt::String& out)`. A `_JObject` without a string of its own starts as with an empty one. -/
def JObject.start (out : List UInt8) : List UInt8 :=
  trimSpace (if out.isEmpty then [Ch.lbrace, Ch.rbrace] else out)

/-- `operator <<`. -/
def JObject.push (save : List UInt8) (json : JVar) : List UInt8 :=
  if save.length ≤ 2 then copyBehind [] json.getLength json.copyTo
  else
    let save := save.dropLast
    let e := save.length
    (copyBehind save json.getLength json.copyTo).set e Ch.comma

/-- The text held after all of `es` are streamed into it. -/
def JObject.stream (save : List UInt8) (es : List JVar) : List UInt8 := es.foldl JObject.push save

/-! ### What is asked -/

/-- The members of an object as keys and texts of values. -/
def Value.rawMembers (v : Value) : List (List UInt8 × List UInt8) := v.members.map fun kv => (kv.1.name, kv.2.text)

/-- The text is a well-formed object with these keys and texts of values, in order. -/
def HasMembers (s : List UInt8) (ms : List (List UInt8 × List UInt8)) : Prop :=
  ∃ v : Value, v.isObject = true ∧ v.text = s ∧ v.rawMembers = ms

/-- The string a `_JObject` is started on: empty, or the object `v` with whitespace around it. -/
def Starts (out : List UInt8) (v : Value) : Prop :=
  (out = [] ∧ v = .empty .object .none) ∨ ∃ pre post : Ws, out = pre.text ++ (v.text ++ post.text)

/-- No expression is all ghosts, from the first member on. The flag says whether there is one already. -/
def NoGhostAfter : Bool → List JVar → Prop
  | _, [] => True
  | true, e :: es => e.rawMembers ≠ [] ∧ NoGhostAfter true es
  | false, e :: es => NoGhostAfter (!e.rawMembers.isEmpty) es

/-- The sequence can be streamed into the object: there is nothing to stream, or the text is `{}`, or it has a
member, and from the first member on no expression is all ghosts. -/
def Streamable (v : Value) (es : List JVar) : Prop :=
  es = [] ∨ (v.text.length ≤ 2 ∧ NoGhostAfter false es) ∨ (v.members ≠ [] ∧ NoGhostAfter true es)

/-! ### Entries put together -/

/-- Entries behind entries, with a comma between them. -/
def Entries.append : {k : Kind} → Entries k → Entries k → Entries k
  | _, .one h v post, es => .cons h v post es
  | _, .cons h v post rest, es => .cons h v post (rest.append es)

theorem Entries.append_text : ∀ {k : Kind} (es es' : Entries k),
    (es.append es').text = es.text ++ Ch.comma :: es'.text
  | _, .one h v post, es' => by simp [Entries.append, Entries.text]
  | _, .cons h v post rest, es' => by simp [Entries.append, Entries.text, rest.append_text es']

theorem Entries.append_members : ∀ (es es' : Entries .object), (es.append es').members = es.members ++ es'.members
  | .one h v post, es' => by simp [Entries.append, Entries.members]
  | .cons h v post rest, es' => by simp [Entries.append, Entries.members, rest.append_members es']

theorem Entries.text_ne_nil {k : Kind} (es : Entries k) : es.text ≠ [] := by
  cases es with
  | one h v post => simp [Entries.text, v.text_ne_nil]
  | cons h v post rest => simp [Entries.text]

/-! ### One step -/

theorem JVar.rawMembers_eq_nil (e : JVar) : e.rawMembers = [] ↔ e.memberTexts = [] := by
  match e with
  | .first tagname value => by_cases h : tagname = [] <;> simp [JVar.rawMembers, JVar.memberTexts, h]
  | .next prev tagname value =>
    by_cases h : tagname = [] <;> simp [JVar.rawMembers, JVar.memberTexts, h, prev.rawMembers_eq_nil]

theorem copyBehind_expr {e : JVar} (hf : e.Fits) (s : List UInt8) :
    copyBehind s e.getLength e.copyTo = s ++ e.serial := by
  rw [JVar.getLength_eq hf]
  exact copyBehind_eq fun m p => JVar.copyTo_eq_memcpy hf m p

theorem push_short {s : List UInt8} (hs : s.length ≤ 2) {e : JVar} (hf : e.Fits) : JObject.push s e = e.serial := by
  rw [JObject.push, if_pos hs, copyBehind_expr hf]
  rfl

/-- The closing brace is overwritten with the comma. -/
theorem push_long {s t : List UInt8} (hs : 2 ≤ s.length) {e : JVar} (hf : e.Fits) (ht : e.serial = Ch.lbrace :: t) :
    JObject.push (s ++ [Ch.rbrace]) e = s ++ Ch.comma :: t := by
  have hlen : ¬ (s ++ [Ch.rbrace]).length ≤ 2 := by
    simp only [List.length_append, List.length_cons, List.length_nil]
    omega
  rw [JObject.push, if_neg hlen]
  simp [copyBehind_expr hf, ht]

/-- An expression whose text is well-formed is an object with the members of the expression. -/
theorem hasMembers_serial {e : JVar} (hf : e.Fits) (hv : e.Valid) : HasMembers e.serial e.rawMembers := by
  obtain ⟨l, htext, hraw, -, -⟩ := e.exists_members hf hv
  refine ⟨.ofMembers l, Value.ofMembers_isObject l, ?_, ?_⟩
  · rw [Value.ofMembers_text, htext, JVar.serial]
  · rw [Value.rawMembers, Value.ofMembers_members, List.map_map, ← hraw]
    rfl

/-- An expression with a member, written behind the members held. -/
theorem hasMembers_push (es : Entries .object) {e : JVar} (hf : e.Fits) (hv : e.Valid) (hne : e.rawMembers ≠ []) :
    ∃ es' : Entries .object, (Value.node .object es').text = JObject.push (Value.node .object es).text e ∧
      es'.members.map (fun kv => (kv.1.name, kv.2.text)) =
        es.members.map (fun kv => (kv.1.name, kv.2.text)) ++ e.rawMembers := by
  obtain ⟨l, htext, hraw, -, -⟩ := e.exists_members hf hv
  cases l with
  | nil => exact absurd hraw.symm hne
  | cons kv l =>
    have hserial : e.serial = Ch.lbrace :: ((memberEntries kv l).text ++ [Ch.rbrace]) := by
      rw [JVar.serial, ← htext, ← Value.ofMembers_text]
      rfl
    have hlen : 2 ≤ (Ch.lbrace :: es.text).length := by
      have := List.length_pos_of_ne_nil es.text_ne_nil
      rw [List.length_cons]
      omega
    refine ⟨es.append (memberEntries kv l), ?_, ?_⟩
    · have hpush := push_long hlen hf hserial
      rw [List.cons_append, List.cons_append] at hpush
      rw [Value.text, Value.text, Kind.opening, Kind.closing, hpush, Entries.append_text]
      simp
    · rw [Entries.append_members, List.map_append, memberEntries_members, List.map_map, ← hraw]
      rfl

theorem readHead_none {s : List UInt8} (hs : Stops isWs s) (hb : Stops isBare s) (hq : s.head? ≠ some Ch.dquote)
    (hq' : s.head? ≠ some Ch.squote) : readHead .object s = none := by
  have hkey : readKey s = none := by
    cases s with
    | nil => rfl
    | cons b t =>
      have h0 : isBare b = false := by simpa [Stops] using hb
      simp only [List.head?_cons, ne_eq, Option.some.injEq] at hq hq'
      rw [readKey, if_neg (not_or.mpr ⟨hq, hq'⟩), readWord]
      simp [h0]
  have hdrop : dropWs (Ws.none.text ++ s) = s := dropWs_append hs
  rw [Ws.none, List.nil_append] at hdrop
  rw [readHead, hdrop, hkey]

/-- A text that starts like an object but whose entries cannot be read is not well-formed. -/
theorem not_hasMembers {s : List UInt8} {ms : List (List UInt8 × List UInt8)} {N : ℕ}
    (hne : (dropWs s).head? ≠ some Kind.object.closing) (h : ∀ n, N ≤ n → readEntries n .object s = none) :
    ¬ HasMembers (Ch.lbrace :: s) ms := by
  rintro ⟨v, -, htext, -⟩
  have hread : readValue (v.size + N + 1 + 1) (v.text ++ []) = some (v.tree, []) := readValue_text v (by omega) rfl
  rw [List.append_nil, htext, readValue, if_neg (by decide), if_neg (by decide), if_neg (by decide), if_pos rfl,
    readNode, if_neg hne, h _ (by omega)] at hread
  simp at hread

/-- An expression of ghosts leaves a comma before the closing brace. -/
theorem not_hasMembers_push_ghosts {es : Entries .object} {e : JVar} {ms : List (List UInt8 × List UInt8)}
    (hf : e.Fits) (hg : e.rawMembers = []) : ¬ HasMembers (JObject.push (Value.node .object es).text e) ms := by
  have hserial : e.serial = Ch.lbrace :: [Ch.rbrace] := by
    rw [JVar.serial, e.rawMembers_eq_nil.mp hg]
    rfl
  have hlen : 2 ≤ (Ch.lbrace :: es.text).length := by
    have := List.length_pos_of_ne_nil es.text_ne_nil
    rw [List.length_cons]
    omega
  have hpush := push_long hlen hf hserial
  rw [List.cons_append, List.cons_append] at hpush
  rw [Value.text, Kind.opening, Kind.closing, hpush]
  refine not_hasMembers (N := es.size + 1) (es.dropWs_ne _) fun n hn => ?_
  rw [readEntries_text es (by omega) (Or.inl rfl), continueEntries, if_pos rfl]
  cases n - es.count with
  | zero => rfl
  | succ n =>
    have hnone : readHead .object [Ch.rbrace] = none := readHead_none rfl rfl (by decide) (by decide)
    rw [readEntries, hnone]
    rfl

/-- An empty object with whitespace in it leaves a comma behind the opening brace. -/
theorem not_hasMembers_push_empty {ws : Ws} {e : JVar} {ms : List (List UInt8 × List UInt8)} (hf : e.Fits)
    (hws : ws.text ≠ []) : ¬ HasMembers (JObject.push (Value.empty .object ws).text e) ms := by
  obtain ⟨t, ht⟩ : ∃ t, e.serial = Ch.lbrace :: t := by
    rw [JVar.serial, objectText]
    split
    · exact ⟨_, rfl⟩
    · exact ⟨_, rfl⟩
  have hlen : 2 ≤ (Ch.lbrace :: ws.text).length := by
    have := List.length_pos_of_ne_nil hws
    rw [List.length_cons]
    omega
  have hpush := push_long hlen hf ht
  rw [List.cons_append, List.cons_append] at hpush
  have hdrop : dropWs (ws.text ++ Ch.comma :: t) = Ch.comma :: t := dropWs_append (by simp [Stops]; rfl)
  rw [Value.text, Kind.opening, Kind.closing, hpush]
  refine not_hasMembers (N := 1) (by rw [hdrop]; simp [Kind.closing]) fun n hn => ?_
  obtain ⟨n, rfl⟩ : ∃ j, n = j + 1 := ⟨n - 1, by omega⟩
  have hkey : readKey (Ch.comma :: t) = none := by
    rw [readKey, if_neg (by decide), readWord]
    simp
    rfl
  rw [readEntries, readHead, hdrop, hkey]

/-! ### The whole run -/

theorem Value.text_length_le_two {v : Value} (ho : v.isObject = true) :
    v.text.length ≤ 2 ↔ v = .empty .object .none := by
  match v, ho with
  | .empty .object ws, _ =>
    simp only [Value.text, List.length_cons, List.length_append, List.length_nil, Value.empty.injEq, true_and,
      Ws.ext_iff, Ws.none, ← List.length_eq_zero_iff]
    omega
  | .node .object es, _ =>
    have := List.length_pos_of_ne_nil es.text_ne_nil
    simp only [Value.text, List.length_cons, List.length_append, List.length_nil]
    exact iff_of_false (by omega) (by simp)

/-- Every text held while `es` is streamed into the object `v` is well-formed and has the right members. -/
def StaysObject (v : Value) (es : List JVar) : Prop :=
  ∀ k ≤ es.length, HasMembers (JObject.stream v.text (es.take k)) (v.rawMembers ++ (es.take k).flatMap JVar.rawMembers)

/-- Only the texts matter. -/
theorem StaysObject.cons {v w : Value} {e : JVar} {es : List JVar} (ho : v.isObject = true)
    (hw : w.text = JObject.push v.text e) (hm : w.rawMembers = v.rawMembers ++ e.rawMembers) :
    StaysObject v (e :: es) ↔ StaysObject w es := by
  constructor
  · intro h k hk
    have := h (k + 1) (by simpa using hk)
    simpa [JObject.stream, hw, hm] using this
  · intro h k hk
    cases k with
    | zero => exact ⟨v, ho, rfl, by simp [Value.rawMembers]⟩
    | succ k =>
      have := h k (by simpa using hk)
      simpa [JObject.stream, hw, hm] using this

theorem staysObject_nil {v : Value} (ho : v.isObject = true) : StaysObject v [] := by
  intro k hk
  exact ⟨v, ho, by simp [JObject.stream], by simp [Value.rawMembers]⟩

theorem StaysObject.first {v : Value} {e : JVar} {es : List JVar} (h : StaysObject v (e :: es)) :
    HasMembers (JObject.push v.text e) (v.rawMembers ++ e.rawMembers) := by
  simpa [JObject.stream] using h 1 (by simp)

/-- Streaming into an object that has a member. -/
theorem staysObject_node_iff {es : List JVar} (hes : ∀ e ∈ es, e.Fits ∧ e.Valid) (es₀ : Entries .object) :
    StaysObject (.node .object es₀) es ↔ NoGhostAfter true es := by
  induction es generalizing es₀ with
  | nil => exact iff_of_true (staysObject_nil rfl) trivial
  | cons e es ih =>
    obtain ⟨hf, hv⟩ := hes e (by simp)
    by_cases hg : e.rawMembers = []
    · exact iff_of_false (fun h => not_hasMembers_push_ghosts hf hg h.first) fun h => h.1 hg
    · obtain ⟨es', htext, hmem⟩ := hasMembers_push es₀ hf hv hg
      rw [StaysObject.cons rfl htext hmem, ih (fun e' he' => hes e' (by simp [he'])), NoGhostAfter]
      exact (and_iff_right hg).symm

/-- Streaming into `{}`. -/
theorem staysObject_empty_iff {es : List JVar} (hes : ∀ e ∈ es, e.Fits ∧ e.Valid) :
    StaysObject (.empty .object .none) es ↔ NoGhostAfter false es := by
  induction es with
  | nil => exact iff_of_true (staysObject_nil rfl) trivial
  | cons e es ih =>
    obtain ⟨hf, hv⟩ := hes e (by simp)
    have hrest : ∀ e' ∈ es, e'.Fits ∧ e'.Valid := fun e' he' => hes e' (by simp [he'])
    have hpush : JObject.push (Value.empty .object .none).text e = e.serial := push_short (by decide) hf
    obtain ⟨w, ho, htext, hmem⟩ := hasMembers_serial hf hv
    rw [StaysObject.cons (v := .empty .object .none) (w := w) rfl (by rw [htext, hpush]) hmem, NoGhostAfter]
    match w, ho with
    | .empty .object ws, _ =>
      have hnil : e.rawMembers = [] := hmem.symm
      have hserial : e.serial = (Value.empty .object .none).text := by
        rw [JVar.serial, e.rawMembers_eq_nil.mp hnil]
        rfl
      rw [(Value.text_length_le_two (v := .empty .object ws) rfl).mp (by rw [htext, hserial]; decide), ih hrest, hnil]
      rfl
    | .node .object es', _ =>
      have hne : e.rawMembers ≠ [] := by
        rw [← hmem]
        obtain ⟨l, hl⟩ := es'.members_eq
        simp [Value.rawMembers, Value.members, hl]
      rw [staysObject_node_iff hrest es', show (!e.rawMembers.isEmpty) = true by simpa using hne]

theorem staysObject_iff {v : Value} (ho : v.isObject = true) {es : List JVar} (hes : ∀ e ∈ es, e.Fits ∧ e.Valid) :
    StaysObject v es ↔ Streamable v es := by
  match v, ho with
  | .node .object es₀, _ =>
    obtain ⟨l, hl⟩ := es₀.members_eq
    have hlong : ¬ (Value.node .object es₀).text.length ≤ 2 := by
      rw [Value.text_length_le_two rfl]
      simp
    rw [staysObject_node_iff hes es₀, Streamable]
    simp only [hlong, false_and, false_or, Value.members, hl, ne_eq, reduceCtorEq, not_false_eq_true, true_and]
    refine ⟨Or.inr, ?_⟩
    rintro (rfl | h)
    · trivial
    · exact h
  | .empty .object ws, _ =>
    rw [Streamable]
    rw [Value.text_length_le_two (v := .empty .object ws) rfl]
    simp only [Value.members, ne_eq, not_true_eq_false, false_and, or_false, Value.empty.injEq, true_and]
    by_cases hws : ws = .none
    · subst hws
      rw [staysObject_empty_iff hes]
      refine ⟨fun h => Or.inr ⟨rfl, h⟩, ?_⟩
      rintro (rfl | h)
      · trivial
      · exact h.2
    · have hne : ws.text ≠ [] := fun h => hws (Ws.ext h)
      simp only [hws, false_and, or_false]
      constructor
      · intro h
        cases es with
        | nil => rfl
        | cons e es => exact absurd h.first (not_hasMembers_push_empty (hes e (by simp)).1 hne)
      · rintro rfl
        exact staysObject_nil rfl

/-! ### The start -/

/-- A text that starts with a visible byte and is followed by blanks is trimmed to its last visible one. -/
theorem trimRightLoop_blanks {s t : List UInt8} (hs : s.all isSkipped = true) {b : UInt8} (hb : isSkipped b = false) :
    trimRightLoop (s ++ b :: t) = b :: t := by
  induction s with
  | nil =>
    cases t with
    | nil => rfl
    | cons c t => simp [trimRightLoop, hb]
  | cons c s ih =>
    simp only [List.all_cons, Bool.and_eq_true] at hs
    rcases hs' : s ++ b :: t with _ | ⟨d, u⟩
    · simp at hs'
    · rw [List.cons_append, hs', trimRightLoop, if_pos hs.1, ← hs', ih hs.2]

theorem Ws.all_isSkipped (ws : Ws) : ws.text.all isSkipped = true := by
  rw [List.all_eq_true]
  intro b hb
  exact (isWs_facts b (ws.isWs_of_mem hb)).1

/-- Whitespace around a text that starts and ends with visible bytes is trimmed off. -/
theorem trimSpace_ws {pre post : Ws} {a b : UInt8} {s : List UInt8} (ha : isSkipped a = false)
    (hb : isSkipped b = false) : trimSpace (pre.text ++ (a :: (s ++ [b]) ++ post.text)) = a :: (s ++ [b]) := by
  have hleft : trimLeftSpace (pre.text ++ (a :: (s ++ [b]) ++ post.text)) = a :: (s ++ [b]) ++ post.text :=
    (takeWhile_append_stops (fun x hx => List.all_eq_true.mp pre.all_isSkipped x hx)
      (by simpa [Stops] using ha)).2
  have hrev : (a :: (s ++ [b]) ++ post.text).reverse = post.text.reverse ++ b :: (s.reverse ++ [a]) := by simp
  rw [trimSpace, hleft, trimRightSpace, hrev, trimRightLoop_blanks (by simpa using post.all_isSkipped) hb]
  simp

theorem start_eq {out : List UInt8} {v : Value} (ho : v.isObject = true) (h : Starts out v) :
    JObject.start out = v.text := by
  rcases h with ⟨rfl, rfl⟩ | ⟨pre, post, rfl⟩
  · decide
  · obtain ⟨s, hs⟩ : ∃ s, v.text = Ch.lbrace :: (s ++ [Ch.rbrace]) := by
      match v, ho with
      | .empty .object ws, _ => exact ⟨_, rfl⟩
      | .node .object es, _ => exact ⟨_, rfl⟩
    rw [JObject.start, if_neg, hs]
    · exact trimSpace_ws (by decide) (by decide)
    · rw [hs]
      simp

/-- `{"a":1}`. -/
def oneMember : Value :=
  .node .object (.one (.member .none (.quoted (.a .double)) .none .none) (.lit .one) .none)

/-- `J(b) = 2`. -/
def oneMore : JVar := .first [0x62] (.int 2)

/-- `J_IF(false, J(c) = 3)`. -/
def oneGhost : JVar := .first [] (.int 3)

end Cpcf.Json
