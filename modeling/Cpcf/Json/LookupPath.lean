import Cpcf.Json.PathText

/-!
`GetValue` with a path of names and indices.

A path leads through the tree of the document: a name to a member of an object, an index to an item of an array. The
pointer of `_LocateValue` follows it as long as every name comes to an object, or to a value behind a name that is no
container. At an array the search for a name reads the items as if they were members and goes on to whatever follows
the array, and so it does at an item that is no object.
-/

namespace Cpcf.Json

open Cpcf.Rt Cpcf.Lib.Memory Cpcf.Lib.Word

/-! ### The tree -/

/-- The item of an array that stands at `y`, and where it stands. -/
def Value.itemAt (y : ℕ) : Value → ℕ → Option (ℕ × Value)
  | .node .array es, i => (es.spots (y + 1))[i]?
  | _, _ => none

/-- Where the path leads from a value that stands at `y`. -/
def resolve : ℕ → Value → List Seg → Option (ℕ × Value)
  | y, v, [] => some (y, v)
  | y, v, .name k :: segs => (v.memberAt y k.text).bind fun s => resolve s.1 s.2 segs
  | y, v, .index i :: segs => (v.itemAt y i.value).bind fun s => resolve s.1 s.2 segs

/-- The items of an array. -/
def Value.elements : Value → List Value
  | .node .array es => es.values
  | _ => []

def Value.isNested : Value → Bool
  | .empty _ _ => true
  | .node _ _ => true
  | _ => false

/-- No name is found in the value: it is an array that is empty or starts with a container. -/
def Value.Barred : Value → Prop
  | .empty .array _ => True
  | .node .array es => (es.values.head?.any Value.isNested) = true
  | _ => False

/-- The index as `_LocateValue` takes it: read as a `UINT`, compared as an `int`, and 0 where that is negative. -/
def PathIndex.cut (i : PathIndex) : ℕ := (intOf ((i.value % 2 ^ 32 : ℕ) : ℤ)).toNat

/-- The pointer follows the path. A name comes to an object, in which it can be looked up, or to an array in which no
name is found; an index comes to no array, or is not cut, and the scanner finds the ends of the items up to it. -/
def Followed : Value → List Seg → Prop
  | v, [] => v.Clean
  | v, .name k :: segs =>
    if v.isObject = true then
      Findable k.text v.members ∧ ∀ kv, (v.members.find? fun kv => decide (kv.1.name = k.text)) = some kv →
        kv.2.isNested = true → Followed kv.2 segs
    else v.Barred
  | v, .index i :: segs =>
    (∀ w ∈ v.elements.take (i.cut + 1), w.Clean) ∧ (i.cut = i.value ∨ v.elements.length ≤ i.cut) ∧
      ∀ w, v.elements[i.cut]? = some w → Followed w segs

attribute [local simp] Followed

section Tree

theorem spots_inside : ∀ {k : Kind} (es : Entries k) (x : ℕ), ∀ s ∈ es.spots x,
    x ≤ s.1 ∧ s.1 + s.2.text.length ≤ x + es.text.length
  | _, .one h v post, x, s, hs => by
    obtain rfl := List.mem_singleton.mp hs
    simp only [Entries.text, List.length_append]
    omega
  | _, .cons h v post rest, x, s, hs => by
    simp only [Entries.text, List.length_append, List.length_cons]
    rcases List.mem_cons.mp hs with rfl | hs
    · simp only
      omega
    · have := spots_inside rest _ s hs
      omega

variable {y : ℕ} {v : Value}

theorem memberAt_inside {k : List UInt8} {s : ℕ × Value} (h : v.memberAt y k = some s) :
    y ≤ s.1 ∧ s.1 + s.2.text.length ≤ y + v.text.length := by
  match v, h with
  | .node .object es, h =>
    obtain ⟨t, ht, rfl⟩ := Option.map_eq_some_iff.mp h
    have hmem : t.2 ∈ es.spots (y + 1) := by
      rw [← es.memberSpots_snd]
      exact List.mem_map_of_mem (List.mem_of_find?_eq_some ht)
    have := spots_inside es (y + 1) t.2 hmem
    simp only [Value.text, List.length_cons, List.length_append]
    omega

theorem itemAt_inside {i : ℕ} {s : ℕ × Value} (h : v.itemAt y i = some s) :
    y ≤ s.1 ∧ s.1 + s.2.text.length ≤ y + v.text.length := by
  match v, h with
  | .node .array es, h =>
    have := spots_inside es (y + 1) s (List.mem_of_getElem? h)
    simp only [Value.text, List.length_cons, List.length_append]
    omega

theorem resolve_append : ∀ (segs segs' : List Seg) (y : ℕ) (v : Value),
    resolve y v (segs ++ segs') = (resolve y v segs).bind fun s => resolve s.1 s.2 segs'
  | [], segs', y, v => by rw [List.nil_append, resolve, Option.bind_some]
  | .name k :: segs, segs', y, v => by
    rw [List.cons_append, resolve, resolve, Option.bind_assoc]
    simp only [resolve_append segs segs']
  | .index i :: segs, segs', y, v => by
    rw [List.cons_append, resolve, resolve, Option.bind_assoc]
    simp only [resolve_append segs segs']

/-- A value the path leads to is inside the value where it starts. -/
theorem resolve_inside : ∀ (segs : List Seg) {y : ℕ} {v : Value} {s : ℕ × Value}, resolve y v segs = some s →
    y ≤ s.1 ∧ s.1 + s.2.text.length ≤ y + v.text.length
  | [], y, v, s, h => by
    obtain rfl := Option.some_injective _ h
    exact ⟨le_rfl, le_rfl⟩
  | .name k :: segs, y, v, s, h => by
    obtain ⟨t, ht, hs⟩ := Option.bind_eq_some_iff.mp h
    have h1 := memberAt_inside ht
    have h2 := resolve_inside segs hs
    omega
  | .index i :: segs, y, v, s, h => by
    obtain ⟨t, ht, hs⟩ := Option.bind_eq_some_iff.mp h
    have h1 := itemAt_inside ht
    have h2 := resolve_inside segs hs
    omega

end Tree

/-! ### An index -/

section Index

variable {m : Mem} {arr : StringRef}

theorem digitsValue_mod (n : ℕ) (s : List UInt8) (x : ℕ) : digitsValue (x % n) s % n = digitsValue x s % n := by
  induction s generalizing x with
  | nil => exact Nat.mod_mod x n
  | cons b s ih =>
    rw [digitsValue_cons, digitsValue_cons, ← ih, ← ih (x * 10 + (b.toNat - 48)), Nat.add_mod (x % n * 10),
      Nat.mul_mod, Nat.mod_mod, ← Nat.mul_mod, ← Nat.add_mod]

/-- A text of digits is read to its end, in a `UINT`. -/
theorem toNumberLoop_all {s : List UInt8} {d x : ℕ} (h : Holds m d s) (hs : ∀ b ∈ s, isDigit b = true)
    (hx : x < 2 ^ 32) : (toNumberLoop m s.length d x).1 = digitsValue x s % 2 ^ 32 := by
  induction s generalizing d x with
  | nil => exact (Nat.mod_eq_of_lt hx).symm
  | cons b s ih =>
    obtain ⟨hb, hs⟩ := List.forall_mem_cons.mp hs
    obtain ⟨hval, hlt⟩ := toNum_of_isDigit hb
    have hcomma : b ≠ Ch.comma := by
      rintro rfl
      exact absurd hb (by decide)
    rw [List.length_cons, toNumberLoop, h.1, if_neg hcomma, if_pos hlt, ih h.2 hs (Nat.mod_lt _ (by decide)), hval,
      Int.toNat_natCast, digitsValue_mod, digitsValue_cons]

/-- The number that is read. -/
theorem toNumber_index {r : StringRef} {i : PathIndex} (h : SegAt m r (.index i)) :
    (toNumber m r.p r.tail).1 = i.value % 2 ^ 32 := by
  obtain ⟨⟨hp, hlen, hholds⟩, -⟩ := h
  have hlen' : r.len = i.text.length := hlen
  have hall : ∀ b ∈ i.text, isDigit b = true := List.all_eq_true.mp i.wf
  obtain ⟨b, t, ht⟩ := List.exists_cons_of_ne_nil i.ne_nil
  have hpos := List.length_pos_of_ne_nil i.ne_nil
  have htail : r.tail = r.p + i.text.length := by rw [StringRef.tail, hlen']
  have hfirst : isDigit (m r.p) = true := by
    have hm : Holds m r.p (b :: t) := ht ▸ hholds
    rw [hm.1]
    exact hall b (ht ▸ List.mem_cons_self ..)
  have hscan : scanWhile m (fun b => decide (10 ≤ toNum b)) r.p (r.tail - r.p) = r.p :=
    scanWhile_eq (show Holds m r.p [] from trivial) (fun b hb => absurd hb List.not_mem_nil) (Nat.zero_le _)
      (fun _ => decide_eq_false (not_le.mpr (toNum_of_isDigit hfirst).2))
  simp only [toNumber, hscan]
  rw [if_neg (by omega), if_neg (by omega), htail, Nat.add_sub_cancel_left, PathIndex.value]
  exact toNumberLoop_all hholds hall (by decide)

/-- **The search for an item.** -/
theorem findItem_entries (hdoc : arr.isEmpty = false) {c : ℤ} : ∀ (es : Entries .array) {x n : ℕ} {s : ℤ}
    {obj : StringRef}, Holds m x (es.text ++ [Ch.rbracket]) → x + es.text.length < arr.tail → arr.p < x →
    nextItemAt m arr obj = some x → es.values.length < n →
    (∀ v ∈ es.values.take ((c - (s + 1)).toNat + 1), v.Clean) →
    findItem m arr c n s obj =
      some (((es.spots x)[(c - (s + 1)).toNat]?).map fun t => ⟨t.1, t.2.text.length⟩)
  | .one (.item pre) v post, x, n, s, obj, h, he, hx, hnext, hlen, hclean => by
    obtain ⟨n, rfl⟩ : ∃ k, n = k + 2 := ⟨n - 2, by simp [Entries.values] at hlen; omega⟩
    obtain ⟨h1, hdelim, hlt, hend, -⟩ := last_element h he hx
    have hcall := ((getNextObjectRaw_iff hdoc hnext h1 hlt (by omega) hdelim _).mpr
      ⟨hclean v (List.mem_cons_self ..), rfl⟩).1
    have hstop : getNextObjectRaw m arr ⟨x + pre.text.length, v.text.length⟩ =
        (false, ⟨x + pre.text.length, v.text.length⟩) := by
      rw [getNextObjectRaw, hdoc, hend]
      rfl
    rw [findItem, hcall]
    simp only [Entries.spots, Head.text]
    by_cases hc : s + 1 < c
    · obtain ⟨j, hj⟩ : ∃ j, (c - (s + 1)).toNat = j + 1 := ⟨(c - (s + 1)).toNat - 1, by omega⟩
      rw [if_pos hc, findItem, hstop, hj]
      rfl
    · rw [if_neg hc, show (c - (s + 1)).toNat = 0 by omega]
      rfl
  | .cons (.item pre) v post rest, x, n, s, obj, h, he, hx, hnext, hlen, hclean => by
    obtain ⟨n, rfl⟩ : ∃ k, n = k + 1 := ⟨n - 1, by omega⟩
    obtain ⟨h1, hdelim, hlt, hy, hnext', -, hrest, hlt'⟩ := next_element h he hx rfl
    simp only [Entries.values, List.length_cons, List.take_succ_cons, List.forall_mem_cons] at hlen hclean
    have hcall := ((getNextObjectRaw_iff hdoc hnext h1 hlt (by omega) hdelim _).mpr ⟨hclean.1, rfl⟩).1
    rw [findItem, hcall]
    simp only [Entries.spots, Head.text]
    by_cases hc : s + 1 < c
    · obtain ⟨j, hj⟩ : ∃ j, (c - (s + 1)).toNat = j + 1 := ⟨(c - (s + 1)).toNat - 1, by omega⟩
      have hj' : (c - (s + 1 + 1)).toNat = j := by omega
      have ih := findItem_entries hdoc (c := c) rest (s := s + 1) (n := n) hrest hlt' hy hnext' (by omega)
        (by rw [hj', ← hj]; exact hclean.2)
      rw [if_pos hc, ih, hj, hj', List.getElem?_cons_succ]
    · rw [if_neg hc, show (c - (s + 1)).toNat = 0 by omega]
      rfl

end Index

/-! ### One segment -/

section Segment

variable {m : Mem} {e y : ℕ} {v : Value} {name : StringRef}

/-- In front of a bracket the search for a name ends. -/
theorem findMember_bracket {n q : ℕ} {b : UInt8} (hskip : skipWhitespace m (y + 1) e = q) (hb : m q = b)
    (hbrace : b ≠ Ch.rbrace) (hquote : ¬ (b = Ch.dquote ∨ b = Ch.squote)) (htext : isText b = false) :
    findMember m e name (n + 1) y = some none := by
  have hscan : scanText m q e = q :=
    scanWhile_eq (show Holds m q [] from trivial) (fun b hb => absurd hb List.not_mem_nil) (Nat.zero_le _)
      (fun _ => by
        rw [List.length_nil, Nat.add_zero, hb]
        exact htext)
  have hread : readName m q e = (q, q) := by rw [readName, hb, if_neg hquote, hscan]
  rw [findMember, hskip, hb, if_neg hbrace, hread]
  simp

theorem Kind.opening_facts (k : Kind) : k.opening ≠ Ch.rbrace ∧ ¬ (k.opening = Ch.dquote ∨ k.opening = Ch.squote) ∧
    isText k.opening = false ∧ isSkipped k.opening = false := by
  cases k <;> decide

/-- A container starts with its bracket. -/
theorem Value.nested_byte {p : ℕ} (hv : v.isNested = true) (h : Holds m p v.text) : ∃ k : Kind, m p = k.opening := by
  cases v with
  | empty k ws => exact ⟨k, h.1⟩
  | node k es => exact ⟨k, h.1⟩
  | _ => cases hv

/-- An array that is empty or starts with a container has no member. -/
theorem findMember_barred {n : ℕ} (hv : v.Barred) (h : Holds m y v.text) (he : y + v.text.length ≤ e) :
    findMember m e name (n + 1) y = some none := by
  match v, hv with
  | .empty .array ws, _ =>
    simp only [Value.text, List.length_cons, List.length_append, List.length_nil] at he
    obtain ⟨hws, hend, -⟩ := holds_append.mp h.2
    have hb : m (y + 1 + ws.text.length) = Ch.rbracket := hend
    exact findMember_bracket (skipWhitespace_ws hws (by omega) (by rw [hb]; rfl)) hb (by decide) (by decide) (by decide)
  | .node .array es, hv =>
    simp only [Value.text, List.length_cons, List.length_append, List.length_nil] at he
    obtain ⟨pre, w, t, ht, hw⟩ : ∃ (pre : Ws) (w : Value) (t : List UInt8), es.text = pre.text ++ (w.text ++ t) ∧
        w.isNested = true := by
      match es, hv with
      | .one (.item pre) w post, hv => exact ⟨pre, w, post.text, rfl, hv⟩
      | .cons (.item pre) w post rest, hv => exact ⟨pre, w, post.text ++ Ch.comma :: rest.text, rfl, hv⟩
    have hes := (holds_append.mp h.2).1
    rw [ht] at hes he
    simp only [List.length_append] at he
    obtain ⟨hpre, hwt⟩ := holds_append.mp hes
    obtain ⟨k, hk⟩ := w.nested_byte hw (holds_append.mp hwt).1
    obtain ⟨h1, h2, h3, h4⟩ := k.opening_facts
    exact findMember_bracket (skipWhitespace_ws hpre (by omega) (by rw [hk]; exact h4)) hk h1 h2 h3

theorem memberAt_eq_none (hv : v.isObject ≠ true) (k : List UInt8) : v.memberAt y k = none := by
  match v, hv with
  | .node .object es, hv => exact absurd rfl hv
  | .node .array _, _ | .str _, _ | .lit _, _ | .bin _, _ | .empty _ _, _ => rfl

/-- Only an array starts with its bracket. -/
theorem Value.array_cases (hb : m y = Ch.lbracket) (h : Holds m y v.text) :
    (∃ ws, v = .empty .array ws) ∨ ∃ es, v = .node .array es := by
  cases v with
  | str s =>
    rw [show m y = s.quote.char from h.1] at hb
    cases hq : s.quote with
    | double => exact absurd (hq ▸ hb) (by decide)
    | single => exact absurd (hq ▸ hb) (by decide)
  | lit w =>
    obtain ⟨b, t, hw, hbare⟩ := w.exists_cons
    simp only [Value.text, hw] at h
    exact absurd (h.1.symm.trans hb) (isBare_facts b hbare).2.2.2.2.2.1
  | bin p => exact absurd (h.1.symm.trans hb) (by decide)
  | empty k ws =>
    cases k with
    | array => exact Or.inl ⟨ws, rfl⟩
    | object => exact absurd (h.1.symm.trans hb) (by decide)
  | node k es =>
    cases k with
    | array => exact Or.inr ⟨es, rfl⟩
    | object => exact absurd (h.1.symm.trans hb) (by decide)

/-- The item of an array, with the index as it is cut. -/
theorem findItem_array {c : ℤ} (hy : 0 < y) (hb : m y = Ch.lbracket) (h : Holds m y v.text)
    (he : y + v.text.length ≤ e) (hclean : ∀ w ∈ v.elements.take (c.toNat + 1), w.Clean) :
    findItem m (attachArray m (.ofRange y e)) c (e - y + 1) (-1) .null =
      some ((v.itemAt y c.toNat).map fun t => ⟨t.1, t.2.text.length⟩) := by
  have hpos := List.length_pos_of_ne_nil v.text_ne_nil
  obtain ⟨b, t, ht⟩ := List.exists_cons_of_ne_nil v.text_ne_nil
  obtain rfl : b = Ch.lbracket := by
    have hfirst : Holds m y (b :: t) := ht ▸ h
    exact hfirst.1.symm.trans hb
  have hlen : 0 < (StringRef.ofRange y e).len := by
    simp only [StringRef.ofRange]
    omega
  have hp : 0 < (StringRef.ofRange y e).p := hy
  have htail : (StringRef.ofRange y e).tail = e := by
    simp only [StringRef.tail, StringRef.ofRange]
    omega
  have hdoc : (StringRef.ofRange y e).isEmpty = false := StringRef.isEmpty_of_pos hp (by omega)
  have hnext : nextItemAt m (.ofRange y e) .null = some (y + 1) := nextItemAt_null hp
  rw [attachArray_at hlen (show Holds m (StringRef.ofRange y e).p (Ch.lbracket :: t) from ht ▸ h)]
  rcases v.array_cases hb h with ⟨ws, rfl⟩ | ⟨es, rfl⟩
  · simp only [Value.text, List.length_cons, List.length_append, List.length_nil] at he
    obtain ⟨hws, hend, -⟩ := holds_append.mp h.2
    have hend' : m (y + 1 + ws.text.length) = Ch.rbracket := hend
    have hskip : skipWhitespace m (y + 1) (StringRef.ofRange y e).tail = y + 1 + ws.text.length :=
      skipWhitespace_ws hws (by omega) (by rw [hend']; rfl)
    have hcall : getNextObjectRaw m (.ofRange y e) .null = (false, .null) := by
      rw [getNextObjectRaw, hdoc, hnext]
      simp only [Bool.false_eq_true, if_false, hskip, if_pos hend']
    rw [findItem, hcall]
    rfl
  · simp only [Value.text, List.length_cons, List.length_append, List.length_nil] at he
    have hvals := es.length_values_le
    have hsearch := findItem_entries hdoc (c := c) es (s := -1) (n := e - y + 1) h.2 (by omega) (Nat.lt_succ_self y)
      hnext (by omega)
    rw [show c - (-1 + 1) = c by omega] at hsearch
    exact hsearch hclean

theorem itemAt_placed {i : ℕ} (h : Holds m y v.text) (he : y + v.text.length ≤ e) {s : ℕ × Value}
    (hs : v.itemAt y i = some s) : Placed m e s.1 s.2 := by
  match v, hs with
  | .node .array es, hs =>
    simp only [Value.text, List.length_cons, List.length_append, List.length_nil] at he
    exact placed_spots es y.succ_pos h.2 (by omega) _ (List.mem_of_getElem? hs)

theorem itemAt_snd (v : Value) (y i : ℕ) : (v.itemAt y i).map Prod.snd = v.elements[i]? := by
  match v with
  | .node .array es => rw [Value.itemAt, Value.elements, ← es.map_spots (y + 1), List.getElem?_map]
  | .node .object _ | .str _ | .lit _ | .bin _ | .empty _ _ => rfl

end Segment

/-! ### The whole path -/

section Path

variable {m : Mem} {e : ℕ}

theorem PathIndex.cut_le (i : PathIndex) : i.cut ≤ i.value := by
  have h1 := intOf_le (Nat.mod_lt i.value (show 0 < 2 ^ 32 by decide))
  have h2 := Nat.mod_le i.value (2 ^ 32)
  rw [PathIndex.cut]
  omega

theorem itemAt_eq_none {v : Value} {j : ℕ} (h : v.elements.length ≤ j) (y : ℕ) : v.itemAt y j = none := by
  have hsnd := itemAt_snd v y j
  rwa [List.getElem?_eq_none h, Option.map_eq_none_iff] at hsnd

/-- Where the cut index goes beyond the array, so does the index. -/
theorem itemAt_cut {v : Value} {i : PathIndex} (h : i.cut = i.value ∨ v.elements.length ≤ i.cut) (y : ℕ) :
    v.itemAt y i.value = v.itemAt y i.cut := by
  rcases h with h | h
  · rw [h]
  · rw [itemAt_eq_none (h.trans i.cut_le), itemAt_eq_none h]

/-- Only an array that starts with its bracket has items. -/
theorem elements_eq_nil {v : Value} {y : ℕ} (h : Holds m y v.text) (hy : m y ≠ Ch.lbracket) : v.elements = [] := by
  cases v with
  | node k es =>
    cases k with
    | array => exact absurd h.1 hy
    | object => rfl
  | _ => rfl

/-- A value that is no container has no brackets. -/
theorem scalar_byte {v : Value} {y : ℕ} (hv : v.isNested = false) (h : Holds m y v.text) :
    m y ≠ Ch.lbrace ∧ m y ≠ Ch.lbracket := by
  cases v with
  | str s =>
    rw [show m y = s.quote.char from h.1]
    cases s.quote <;> decide
  | lit w =>
    obtain ⟨b, t, hw, hbare⟩ := w.exists_cons
    simp only [Value.text, hw] at h
    obtain ⟨-, -, -, -, -, h1, -, h2, -⟩ := isBare_facts b hbare
    rw [h.1]
    exact ⟨h2, h1⟩
  | bin p =>
    rw [show m y = Ch.lt from h.1]
    decide
  | empty k ws => cases hv
  | node k es => cases hv

/-- A container starts with one of the brackets that are tested for. -/
theorem nested_bracket {v : Value} {y : ℕ} (hv : v.isNested = true) (h : Holds m y v.text) :
    ¬ (m y ≠ Ch.lbrace ∧ m y ≠ Ch.lbracket) := by
  obtain ⟨kd, hkd⟩ := v.nested_byte hv h
  rw [hkd]
  cases kd with
  | array => exact fun h => h.2 rfl
  | object => exact fun h => h.1 rfl

/-- No path leads into a value that is no container. -/
theorem resolve_scalar {v : Value} {y : ℕ} (hv : v.isNested = false) (s : Seg) (segs : List Seg) :
    resolve y v (s :: segs) = none := by
  cases s with
  | name k =>
    have hobj : v.isObject ≠ true := by
      intro h
      rcases v.object_cases h with ⟨ws, rfl⟩ | ⟨es, rfl⟩
      · cases hv
      · cases hv
    rw [resolve, memberAt_eq_none hobj, Option.bind_none]
  | index i =>
    have hitems : v.elements = [] := by
      cases v with
      | node k es => cases hv
      | _ => rfl
    rw [resolve, itemAt_eq_none (hitems ▸ Nat.zero_le _), Option.bind_none]

section Step

variable {segs : List Seg} {r : StringRef} {refs : List StringRef} {y : ℕ} {v : Value}

/-- A name, if the pointer follows the segments behind it. -/
theorem locateSegs_name {k : PathName} (hr : SegAt m r (.name k)) (hrefs : List.Forall₂ (SegAt m) refs segs)
    (ih : segs ≠ [] → ∀ {y : ℕ} {v : Value}, 0 < y → Holds m y v.text → y + v.text.length ≤ e → Followed v segs →
      locateSegs m e refs y = some ((resolve y v segs).map Prod.fst))
    (h : Holds m y v.text) (he : y + v.text.length ≤ e) (hf : Followed v (.name k :: segs)) :
    locateSegs m e (r :: refs) y = some ((resolve y v (.name k :: segs)).map Prod.fst) := by
  have hb : m (r.p - 1) ≠ Ch.lbracket := fun h => Bool.false_ne_true (hr.2.mp h)
  have hname : r.bytes m = k.text := by
    rw [StringRef.bytes, hr.1.2.1]
    exact hr.1.2.2.read_eq
  rw [locateSegs, if_pos hb, resolve]
  rw [Followed] at hf
  by_cases hobj : v.isObject = true
  · rw [if_pos hobj] at hf
    rw [findMember_object k.ne_nil hname hobj h he hf.1]
    cases hat : v.memberAt y k.text with
    | none => rfl
    | some t =>
      have hplaced := memberAt_placed h he hat
      have hsnd := memberAt_snd v y k.text
      rw [hat, Option.map_some] at hsnd
      obtain ⟨kv, hkv, hkt⟩ := Option.map_eq_some_iff.mp hsnd.symm
      have hnext := hf.2 kv hkv
      rw [hkt] at hnext
      simp only [Option.map_some, Option.bind_some]
      cases hrefs with
      | nil => rfl
      | cons hs hrefs =>
        rw [if_neg (List.cons_ne_nil _ _)]
        cases hn : t.2.isNested with
        | true =>
          rw [if_neg (nested_bracket hn hplaced.holds)]
          exact ih (List.cons_ne_nil _ _) hplaced.pos hplaced.holds hplaced.inside.le (hnext hn)
        | false =>
          rw [if_pos (scalar_byte hn hplaced.holds), resolve_scalar hn]
          rfl
  · rw [if_neg hobj] at hf
    rw [findMember_barred hf h he, memberAt_eq_none hobj]
    rfl

/-- An index, if the pointer follows the segments behind it. -/
theorem locateSegs_index {i : PathIndex} (hr : SegAt m r (.index i)) (hrefs : List.Forall₂ (SegAt m) refs segs)
    (ih : segs ≠ [] → ∀ {y : ℕ} {v : Value}, 0 < y → Holds m y v.text → y + v.text.length ≤ e → Followed v segs →
      locateSegs m e refs y = some ((resolve y v segs).map Prod.fst))
    (hy : 0 < y) (h : Holds m y v.text) (he : y + v.text.length ≤ e) (hf : Followed v (.index i :: segs)) :
    locateSegs m e (r :: refs) y = some ((resolve y v (.index i :: segs)).map Prod.fst) := by
  have hb : ¬ m (r.p - 1) ≠ Ch.lbracket := not_not.mpr (hr.2.mpr rfl)
  rw [Followed] at hf
  obtain ⟨hclean, hcut, hnext⟩ := hf
  rw [locateSegs, if_neg hb, resolve, itemAt_cut hcut]
  by_cases harr : m y = Ch.lbracket
  · have hsearch := findItem_array (c := intOf ((i.value % 2 ^ 32 : ℕ) : ℤ)) hy harr h he hclean
    have hsnd := itemAt_snd v y i.cut
    rw [if_neg (not_not.mpr harr), toNumber_index hr]
    simp only [hsearch]
    cases hat : v.itemAt y i.cut with
    | none =>
      rw [show v.itemAt y (intOf ((i.value % 2 ^ 32 : ℕ) : ℤ)).toNat = none from hat]
      rfl
    | some t =>
      have hplaced := itemAt_placed h he hat
      rw [hat, Option.map_some] at hsnd
      rw [show v.itemAt y (intOf ((i.value % 2 ^ 32 : ℕ) : ℤ)).toNat = some t from hat]
      simp only [Option.map_some, Option.bind_some]
      cases hrefs with
      | nil => rfl
      | cons hs hrefs =>
        rw [if_neg (List.cons_ne_nil _ _)]
        exact ih (List.cons_ne_nil _ _) hplaced.pos hplaced.holds hplaced.inside.le (hnext t.2 hsnd.symm)
  · rw [if_pos harr, itemAt_eq_none (elements_eq_nil h harr ▸ Nat.zero_le _)]
    rfl

end Step

/-- **The pointer follows the path.** -/
theorem locateSegs_eq (segs : List Seg) (s : Seg) {refs : List StringRef} {y : ℕ} {v : Value}
    (hrefs : List.Forall₂ (SegAt m) refs (s :: segs)) (hy : 0 < y) (h : Holds m y v.text)
    (he : y + v.text.length ≤ e) (hf : Followed v (s :: segs)) :
    locateSegs m e refs y = some ((resolve y v (s :: segs)).map Prod.fst) := by
  induction segs generalizing s refs y v with
  | nil =>
    obtain ⟨r, rest, hr, hrest, rfl⟩ := List.forall₂_cons_right_iff.mp hrefs
    cases s with
    | name k => exact locateSegs_name hr hrest (fun hne => absurd rfl hne) h he hf
    | index i => exact locateSegs_index hr hrest (fun hne => absurd rfl hne) hy h he hf
  | cons s' segs ih =>
    obtain ⟨r, rest, hr, hrest, rfl⟩ := List.forall₂_cons_right_iff.mp hrefs
    cases s with
    | name k => exact locateSegs_name hr hrest (fun _ => ih s' hrest) h he hf
    | index i => exact locateSegs_index hr hrest (fun _ => ih s' hrest) hy h he hf

theorem clean_of_scalar {v : Value} (hv : v.isNested = false) : v.Clean := by
  cases v with
  | node k es => cases hv
  | _ => trivial

/-- The value the path leads to is clean. -/
theorem clean_of_followed : ∀ (segs : List Seg) {y : ℕ} {v : Value} {s : ℕ × Value}, Followed v segs →
    resolve y v segs = some s → s.2.Clean
  | [], y, v, s, hf, h => by
    obtain rfl := Option.some_injective _ h
    exact hf
  | .name k :: segs, y, v, s, hf, h => by
    obtain ⟨t, ht, hs⟩ := Option.bind_eq_some_iff.mp h
    rw [Followed] at hf
    by_cases hobj : v.isObject = true
    · rw [if_pos hobj] at hf
      have hsnd := memberAt_snd v y k.text
      rw [ht, Option.map_some] at hsnd
      obtain ⟨kv, hkv, hkt⟩ := Option.map_eq_some_iff.mp hsnd.symm
      have hnext := hf.2 kv hkv
      rw [hkt] at hnext
      cases hn : t.2.isNested with
      | true => exact clean_of_followed segs (hnext hn) hs
      | false =>
        cases segs with
        | nil =>
          obtain rfl := Option.some_injective _ hs
          exact clean_of_scalar hn
        | cons s' segs =>
          rw [resolve_scalar hn] at hs
          cases hs
    · rw [memberAt_eq_none hobj] at ht
      cases ht
  | .index i :: segs, y, v, s, hf, h => by
    rw [Followed] at hf
    rw [resolve, itemAt_cut hf.2.1] at h
    obtain ⟨t, ht, hs⟩ := Option.bind_eq_some_iff.mp h
    have hsnd := itemAt_snd v y i.cut
    rw [ht, Option.map_some] at hsnd
    exact clean_of_followed segs (hf.2.2 t.2 hsnd.symm) hs

/-- The value the path leads to is in the document. -/
theorem resolve_placed : ∀ (segs : List Seg) (s : Seg) {y : ℕ} {v : Value} {t : ℕ × Value}, Holds m y v.text →
    y + v.text.length ≤ e → resolve y v (s :: segs) = some t → Placed m e t.1 t.2
  | segs, .name k, y, v, t, h, he, ht => by
    obtain ⟨u, hu, hut⟩ := Option.bind_eq_some_iff.mp ht
    have hplaced := memberAt_placed h he hu
    match segs, hut with
    | [], hut =>
      obtain rfl := Option.some_injective _ hut
      exact hplaced
    | s :: segs, hut => exact resolve_placed segs s hplaced.holds hplaced.inside.le hut
  | segs, .index i, y, v, t, h, he, ht => by
    obtain ⟨u, hu, hut⟩ := Option.bind_eq_some_iff.mp ht
    have hplaced := itemAt_placed h he hu
    match segs, hut with
    | [], hut =>
      obtain rfl := Option.some_injective _ hut
      exact hplaced
    | s :: segs, hut => exact resolve_placed segs s hplaced.holds hplaced.inside.le hut

theorem header_cooked_le (v : Value) : v.header + v.cooked.length ≤ v.text.length := by
  cases v with
  | str s =>
    rw [Value.text, s.length_text, Value.header, Value.cooked]
    omega
  | bin b =>
    rw [Value.text, b.length_text, Value.header, Value.cooked]
    omega
  | lit w | empty k ws | node k es => exact (Nat.zero_add _).le

/-- `GetValue` gives the value the path leads to, inside every value on the way to it, and the default where it leads
nowhere. -/
def GetsPath (m : Mem) (doc xpath : StringRef) (v : Value) (segs : List Seg) : Prop :=
  ∀ default_val, ∃ r, getValue m doc xpath default_val false = some r ∧
    (resolve doc.p v segs = none → r = default_val) ∧
    ∀ t, resolve doc.p v segs = some t → CookedAt m r t.2 ∧
      ∀ first rest, segs = first ++ rest → ∀ u, resolve doc.p v first = some u →
        u.1 ≤ r.p ∧ r.tail ≤ u.1 + u.2.text.length

end Path

/-- `["b"]`. -/
def itemB : Value := .node .array (.one (.item .none) (.str ⟨.double, [0x62], rfl⟩) .none)

theorem letterA_ne_nil : ([0x61] : List UInt8) ≠ [] := List.cons_ne_nil _ _

theorem letterA_isBare : ([0x61] : List UInt8).all isBare = true := rfl

theorem letterC_ne_nil : ([0x63] : List UInt8) ≠ [] := List.cons_ne_nil _ _

theorem letterC_isBare : ([0x63] : List UInt8).all isBare = true := rfl

/-- `{a:["b"],c:1}`. -/
def arrayThenMember : Value :=
  .node .object (.cons (.member .none (.bare ⟨[0x61], letterA_ne_nil, letterA_isBare⟩) .none .none) itemB .none
    (.one (.member .none (.bare ⟨[0x63], letterC_ne_nil, letterC_isBare⟩) .none .none) (.lit .one) .none))

def nameA : PathName := ⟨[0x61], letterA_ne_nil, rfl⟩

def nameB : PathName := ⟨[0x62], List.cons_ne_nil _ _, rfl⟩

def indexZero : PathIndex := ⟨[0x30], List.cons_ne_nil _ _, rfl⟩

/-- The document, and a path behind it. -/
def docAndPath (s : Seg) (segs : List Seg) : Mem := ofBytes 16 (arrayThenMember.text ++ Ch.comma :: pathText s segs)

theorem textAt_document (s : Seg) (segs : List Seg) :
    TextAt (docAndPath s segs) ⟨16, 13⟩ (Ws.none.text ++ (arrayThenMember.text ++ Ws.none.text)) := by
  rw [show Ws.none.text = [] from rfl, List.nil_append, List.append_nil]
  exact ⟨by decide, rfl, (holds_append.mp (holds_ofBytes 16 _)).1⟩

theorem textAt_path (s : Seg) (segs : List Seg) :
    TextAt (docAndPath s segs) ⟨30, (pathText s segs).length⟩ (pathText s segs) :=
  ⟨Nat.succ_pos 29, rfl, (holds_append.mp (holds_ofBytes 16 (arrayThenMember.text ++ Ch.comma :: pathText s segs))).2.2⟩

end Cpcf.Json
