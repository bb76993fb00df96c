import Cpcf.Lib.AssocMap
import Cpcf.Json.Items
import Cpcf.Json.RoundTrip

/-!
`JsonObject::Override`: the members of one object over those of another.

Both documents are read into one hash map from keys to raw values, the second over the first, and the map
is written out as a new object. The map is a finite map with some order of iteration, which is a
parameter here. What is lost is lost in reading: `GetNextKeyValuePair` returns false at an empty string in
single quotes, and the members from there on never get into the map.
-/

namespace Cpcf.Json

open Cpcf.Rt Cpcf.Lib.Memory Cpcf.Lib.AssocMap

/-! ### The source -/

/-- The pairs `while(doc.GetNextKeyValuePair(kv))` runs over. A key takes a byte at least, so the loop is over
after as many turns as the document has bytes. -/
def enumerate (m : Mem) (doc : StringRef) : Option (List KeyValuePair) := pairsFrom m doc (doc.len + 1) .fresh

/-- The key and the raw value that go into the map. -/
def KeyValuePair.raw (m : Mem) (kvp : KeyValuePair) : List UInt8 × List UInt8 :=
  (kvp.key.bytes m, (getValueRaw m kvp).bytes m)

/-- One turn of the loop that writes the map. -/
def appendMember (derived : List UInt8) (kv : List UInt8 × List UInt8) : List UInt8 :=
  if derived.isEmpty then
    [Ch.lbrace, Ch.space, Ch.dquote] ++ kv.1 ++ [Ch.dquote, Ch.space, Ch.colon, Ch.space] ++ kv.2
  else
    derived ++ ([Ch.comma, Ch.newline, Ch.space, Ch.space, Ch.dquote] ++ kv.1 ++
      [Ch.dquote, Ch.space, Ch.colon, Ch.space] ++ kv.2)

/-- What is done to `derived` behind the loops over the documents; `vals` is the map in the order of its
iterator. -/
def writeMap (derived : List UInt8) (vals : List (List UInt8 × List UInt8)) : List UInt8 :=
  let derived := vals.foldl appendMember derived
  if derived.isEmpty then [Ch.lbrace, Ch.rbrace] else derived ++ [Ch.rbrace]

/-- `Override`. The order in which the map is iterated over is `order`. -/
def override (order : List (List UInt8 × List UInt8) → List (List UInt8 × List UInt8)) (m : Mem)
    (base sub : StringRef) (derived : List UInt8) (append : Bool) : Option (List UInt8) := do
  let kvs ← enumerate m (attach m base)
  let kvs' ← enumerate m (attach m sub)
  let vals := assignAll (assignAll [] (kvs.map (KeyValuePair.raw m))) (kvs'.map (KeyValuePair.raw m))
  let derived := if append then derived else []
  return writeMap derived (order vals)

/-! ### The text written -/

/-- The line break and indentation before a member. -/
def Ws.indent : Ws := ⟨[Ch.newline, Ch.space, Ch.space], rfl⟩

/-- Members as `writeMap` lays them out. -/
def writtenEntries : Ws → Str × Value → List (Str × Value) → Entries .object
  | ws, kv, [] => .one (.member ws (.quoted kv.1) .blank .blank) kv.2 .none
  | ws, kv, kv' :: l => .cons (.member ws (.quoted kv.1) .blank .blank) kv.2 .none (writtenEntries .indent kv' l)

attribute [local simp] writtenEntries

/-- An object as `writeMap` lays it out. -/
def Value.written : List (Str × Value) → Value
  | [] => .empty .object .none
  | kv :: l => .node .object (writtenEntries .blank kv l)

/-- The text of a member behind its whitespace. -/
def writtenText (kv : List UInt8 × List UInt8) : List UInt8 :=
  Ch.dquote :: (kv.1 ++ ([Ch.dquote, Ch.space, Ch.colon, Ch.space] ++ kv.2))

theorem foldl_appendMember {derived : List UInt8} (h : derived ≠ []) (l : List (List UInt8 × List UInt8)) :
    l.foldl appendMember derived =
      derived ++ (l.map fun kv => Ch.comma :: (Ws.indent.text ++ writtenText kv)).flatten := by
  induction l generalizing derived with
  | nil => simp
  | cons kv l ih =>
    have h1 : appendMember derived kv = derived ++ Ch.comma :: (Ws.indent.text ++ writtenText kv) := by
      simp [appendMember, h, Ws.indent, writtenText]
    rw [List.foldl_cons, h1, ih (by simp)]
    simp

/-- A member for the map: a key in double quotes and a value. -/
def pairRaw (kv : Str × Value) : List UInt8 × List UInt8 := (kv.1.body, kv.2.text)

theorem writtenEntries_text (ws : Ws) {kv : Str × Value} {l : List (Str × Value)}
    (hq : ∀ kv' ∈ kv :: l, kv'.1.quote = .double) :
    (writtenEntries ws kv l).text = ws.text ++ (writtenText (pairRaw kv) ++
      (l.map fun kv => Ch.comma :: (Ws.indent.text ++ writtenText (pairRaw kv))).flatten) := by
  induction l generalizing ws kv with
  | nil =>
    have h := hq kv (by simp)
    simp [Entries.text, Head.text, Key.text, Str.text, h, Quote.char, writtenText, pairRaw, Ws.blank,
      Ws.none]
  | cons kv' l ih =>
    have h := hq kv (by simp)
    rw [writtenEntries, Entries.text, ih _ fun u hu => hq u (by simp [hu])]
    simp [Head.text, Key.text, Str.text, h, Quote.char, writtenText, pairRaw, Ws.blank, Ws.none]

theorem writtenEntries_members (ws : Ws) (kv : Str × Value) (l : List (Str × Value)) :
    (writtenEntries ws kv l).members = (kv :: l).map fun kv => (Key.quoted kv.1, kv.2) := by
  induction l generalizing ws kv with
  | nil => simp [Entries.members, Head.key]
  | cons kv' l ih => simp [Entries.members, Head.key, ih]

theorem writtenEntries_noBinary {ws : Ws} {kv : Str × Value} {l : List (Str × Value)}
    (h : ∀ kv' ∈ kv :: l, kv'.2.noBinary = true) : (writtenEntries ws kv l).noBinary = true := by
  induction l generalizing ws kv with
  | nil => simpa [Entries.noBinary] using h kv (by simp)
  | cons kv' l ih =>
    simp only [writtenEntries, Entries.noBinary, Bool.and_eq_true]
    exact ⟨h kv (by simp), ih fun u hu => h u (by simp [hu])⟩

/-- A member that survives being written out and read again. -/
structure Readable (kv : Str × Value) : Prop where
  double : kv.1.quote = .double
  ne_nil : kv.1.body ≠ []
  noBinary : kv.2.noBinary = true
  visible : kv.2.visible = true

/-- What is written for members is the text of a tree with these members. -/
theorem writeMap_eq {l : List (Str × Value)} (h : ∀ kv ∈ l, Readable kv) :
    writeMap [] (l.map pairRaw) = (Value.written l).text := by
  cases l with
  | nil => rfl
  | cons kv l =>
    have h1 : appendMember [] (pairRaw kv) = Ch.lbrace :: (Ws.blank.text ++ writtenText (pairRaw kv)) := by
      simp [appendMember, Ws.blank, writtenText]
    have h2 := writtenEntries_text .blank fun kv' hkv' => (h kv' hkv').double
    rw [writeMap, List.map_cons, List.foldl_cons, h1, foldl_appendMember (by simp), Value.written, Value.text, h2]
    simp [Kind.opening, Kind.closing, Function.comp_def]

theorem Value.written_iterable {l : List (Str × Value)} (h : ∀ kv ∈ l, Readable kv) :
    (Value.written l).isObject = true ∧ (Value.written l).noBinary = true ∧ (Value.written l).Iterable ∧
      (Value.written l).members = l.map fun kv => (Key.quoted kv.1, kv.2) := by
  cases l with
  | nil => exact ⟨rfl, rfl, ⟨by simp [Value.written, Value.members], trivial⟩, rfl⟩
  | cons kv l =>
    have hmem : (Value.written (kv :: l)).members = (kv :: l).map fun kv => (Key.quoted kv.1, kv.2) :=
      writtenEntries_members .blank kv l
    refine ⟨rfl, writtenEntries_noBinary fun kv' hkv' => (h kv' hkv').noBinary, ⟨?_, Or.inl ?_⟩, hmem⟩
    · rw [hmem]
      intro kv' hkv'
      obtain ⟨u, hu, rfl⟩ := List.mem_map.mp hkv'
      exact ⟨(h u hu).ne_nil, (h u hu).visible⟩
    · cases l <;> simp [Entries.pre, Ws.blank]

/-! ### The documents read -/

theorem pairsFrom_length {m : Mem} {doc : StringRef} {n k : ℕ} {kvp : KeyValuePair} {l : List KeyValuePair}
    (h : pairsFrom m doc n kvp = some l) (hk : l.length < k) : pairsFrom m doc k kvp = some l := by
  induction n generalizing k kvp l with
  | zero => simp [pairsFrom] at h
  | succ n ih =>
    obtain ⟨k, rfl⟩ : ∃ j, k = j + 1 := ⟨k - 1, by omega⟩
    rw [pairsFrom] at h ⊢
    rcases hnext : getNextKeyValuePair m doc kvp with ⟨_ | _, kvp'⟩
    · simpa [hnext] using h
    · simp only [hnext, Option.map_eq_some_iff] at h ⊢
      obtain ⟨t, ht, rfl⟩ := h
      exact ⟨t, ih ht (by simpa using hk), rfl⟩

theorem Iterates.enumerate {m : Mem} {doc : StringRef} {l : List KeyValuePair} (h : Iterates m doc l)
    (hl : l.length ≤ doc.len) : enumerate m doc = some l :=
  pairsFrom_length h.choose_spec (by omega)

theorem Value.length_members_le (v : Value) : v.members.length ≤ v.text.length := by
  match v with
  | .node .object es =>
    have := es.length_values_le
    rw [es.values_eq, List.length_map] at this
    simp only [Value.members, Value.text, List.length_cons, List.length_append]
    omega
  | .node .array _ | .str _ | .lit _ | .bin _ | .empty _ _ => simp [Value.members]

/-- The loop over an object is over in time, and has seen the members shown. -/
theorem enumerate_attach {m : Mem} {p : ℕ} {v : Value} {pre : Ws} {rest : List UInt8} (hp : 0 < p)
    (ho : v.isObject = true) (hn : v.noBinary = true) (h : Holds m p (pre.text ++ (v.text ++ rest)))
    (hl : v.Legible) :
    ∃ kvps, enumerate m (attach m ⟨p, (pre.text ++ (v.text ++ rest)).length⟩) = some kvps ∧
      List.Forall₂ (Shows m) kvps v.seen := by
  obtain ⟨kvps, hi, hshows⟩ := iterates_attach hp ho hn h hl
  refine ⟨kvps, hi.enumerate ?_, hshows⟩
  have hmembers := v.length_members_le
  have hseen := (List.takeWhile_sublist shown (l := v.members)).length_le
  rw [← v.seen_eq, ← hshows.length_eq] at hseen
  rw [attach_object ho h]
  simp only [List.length_append]
  omega

/-- The key and the text of the value of a member. -/
def rawMember (kv : Key × Value) : List UInt8 × List UInt8 := (kv.1.name, kv.2.text)

/-- A document that can be overridden: an object without binary values, with whitespace behind the brace, and
with keys that are not empty, need no escapes and are distinct. -/
structure Document (v : Value) : Prop where
  isObject : v.isObject = true
  noBinary : v.noBinary = true
  spaced : ∀ es, v = .node .object es → es.pre.text ≠ []
  named : ∀ kv ∈ v.members, kv.1.name ≠ [] ∧ kv.1.name.all isKeyChar = true
  distinct : (v.members.map fun kv => kv.1.name).Nodup

theorem Document.legible {v : Value} (h : Document v) : v.Legible := by
  match v with
  | .node .object es => exact Or.inl (h.spaced es rfl)
  | .node .array _ | .str _ | .lit _ | .bin _ | .empty _ _ => trivial

/-- In a document only the values decide what is seen. -/
theorem Document.seen_eq {v : Value} (hv : Document v) : v.seen = v.members.takeWhile fun kv => kv.2.visible := by
  rw [v.seen_eq]
  have hnamed := fun kv hkv => (hv.named kv hkv).1
  generalize v.members = l at hnamed
  induction l with
  | nil => rfl
  | cons kv l ih =>
    have h0 : kv.1.name.isEmpty = false := by simpa using hnamed kv (by simp)
    rw [List.takeWhile_cons, List.takeWhile_cons, shown, h0, ih fun kv' h => hnamed kv' (by simp [h])]
    rfl

theorem Document.seen_eq_members {v : Value} (hv : Document v) (h : ∀ kv ∈ v.members, kv.2.visible = true) :
    v.seen = v.members :=
  v.seen_eq_members fun kv hkv => shown_iff.mpr ⟨(hv.named kv hkv).1, h kv hkv⟩

/-- Of a document the members before the first invisible value are read. -/
theorem Document.enumerate {v : Value} (hv : Document v) {m : Mem} {p : ℕ} {pre post : Ws} (hp : 0 < p)
    (h : Holds m p (pre.text ++ (v.text ++ post.text))) :
    ∃ kvps, enumerate m (attach m ⟨p, (pre.text ++ (v.text ++ post.text)).length⟩) = some kvps ∧
      kvps.map (KeyValuePair.raw m) = v.seen.map rawMember := by
  obtain ⟨kvps, henum, hshows⟩ := enumerate_attach hp hv.isObject hv.noBinary h hv.legible
  refine ⟨kvps, henum, ?_⟩
  rw [← List.forall₂_eq_eq_eq, List.forall₂_map_left_iff, List.forall₂_map_right_iff]
  exact hshows.imp fun kvp kv hs => Prod.ext hs.key hs.raw

/-! ### What is asked -/

/-- Iterating over `doc` ends and sees exactly these keys and raw values. -/
def EnumeratesRaw (m : Mem) (doc : StringRef) (kvs : List (List UInt8 × List UInt8)) : Prop :=
  ∃ kvps, Iterates m doc kvps ∧ kvps.map (KeyValuePair.raw m) = kvs

/-- Wherever the text stands, iterating over it sees these keys and raw values, in some order. -/
def ShowsMembers (text : List UInt8) (kvs : List (List UInt8 × List UInt8)) : Prop :=
  ∀ (m : Mem) (p : ℕ), 0 < p → Holds m p text →
    ∃ kvs', EnumeratesRaw m (attach m ⟨p, text.length⟩) kvs' ∧ kvs'.Perm kvs

/-- The members of `sub`, and those of `base` whose key is not in `sub`. -/
def overridden (base sub : Value) : List (List UInt8 × List UInt8) :=
  sub.members.map rawMember ++ without (base.members.map rawMember) (sub.members.map rawMember)

/-- No value of `sub` is an empty string in single quotes, and the members of `base` from the first such
value on have their keys in `sub`. -/
def Overridable (base sub : Value) : Prop :=
  (∀ kv ∈ sub.members, kv.2.visible = true) ∧
    ∀ kv ∈ base.members.dropWhile (fun kv => kv.2.visible), kv.1.name ∈ sub.members.map fun kv => kv.1.name

/-! ### The derived text -/

theorem exists_map_eq {α β : Type*} {f : α → β} {P : α → Prop} {l : List β} (h : ∀ y ∈ l, ∃ x, f x = y ∧ P x) :
    ∃ l' : List α, l'.map f = l ∧ ∀ x ∈ l', P x := by
  induction l with
  | nil => exact ⟨[], rfl, by simp⟩
  | cons y l ih =>
    obtain ⟨x, hx, hP⟩ := h y (by simp)
    obtain ⟨l', hl', hPl⟩ := ih fun z hz => h z (by simp [hz])
    exact ⟨x :: l', by simp [hx, hl'], by simpa using ⟨hP, hPl⟩⟩

/-- Members that are not invisible are read from the derived text as they were put into the map. -/
theorem enumeratesRaw_writeMap {vals : List (List UInt8 × List UInt8)}
    (h : ∀ kv ∈ vals, ∃ kv', pairRaw kv' = kv ∧ Readable kv') {m : Mem} {p : ℕ} (hp : 0 < p)
    (hold : Holds m p (writeMap [] vals)) : EnumeratesRaw m (attach m ⟨p, (writeMap [] vals).length⟩) vals := by
  obtain ⟨l, rfl, hl⟩ := exists_map_eq h
  obtain ⟨ho, hn, hi, hmem⟩ := Value.written_iterable hl
  rw [writeMap_eq hl] at hold ⊢
  have hold' : Holds m p (Ws.none.text ++ ((Value.written l).text ++ [])) := by simpa [Ws.none] using hold
  obtain ⟨kvps, hit, hshows⟩ := iterates_attach hp ho hn hold' hi.2
  refine ⟨kvps, by simpa [Ws.none] using hit, ?_⟩
  rw [Value.seen_eq_members _ fun kv hkv => shown_iff.mpr (hi.1 kv hkv), hmem] at hshows
  rw [← List.forall₂_eq_eq_eq, List.forall₂_map_left_iff, List.forall₂_map_right_iff]
  rw [List.forall₂_map_right_iff] at hshows
  exact hshows.imp fun kvp kv hs => Prod.ext hs.key hs.raw

/-- A member read from a document goes into the map as one that can be written out. -/
theorem Document.readable {v : Value} (hv : Document v) {kv : Key × Value} (h : kv ∈ v.seen) :
    ∃ kv', pairRaw kv' = rawMember kv ∧ Readable kv' := by
  have hmem : kv ∈ v.members := by
    rw [v.seen_eq] at h
    exact (List.takeWhile_sublist _).mem h
  obtain ⟨h0, hkey⟩ := hv.named kv hmem
  exact ⟨(⟨.double, kv.1.name, escaped_of_isKeyChar hkey⟩, kv.2), rfl, rfl, h0, v.noBinary_of_mem hv.noBinary hmem,
    (shown_iff.mp (v.shown_of_mem_seen h)).2⟩

/-- The derived text shows what is in the map. -/
theorem showsMembers_writeMap_iff {vals kvs : List (List UInt8 × List UInt8)}
    (h : ∀ kv ∈ vals, ∃ kv', pairRaw kv' = kv ∧ Readable kv') :
    ShowsMembers (writeMap [] vals) kvs ↔ vals.Perm kvs := by
  constructor
  · intro hs
    have hold := holds_ofBytes 16 (writeMap [] vals)
    obtain ⟨kvs', ⟨kvps', hi', rfl⟩, hperm⟩ := hs _ 16 (by decide) hold
    obtain ⟨kvps, hi, hmap⟩ := enumeratesRaw_writeMap h (by decide) hold
    rw [← hmap, hi.unique hi']
    exact hperm
  · intro hperm m p hp hold
    exact ⟨vals, enumeratesRaw_writeMap h hp hold, hperm⟩

theorem Document.nodup_seen {v : Value} (hv : Document v) : ((v.seen.map rawMember).map Prod.fst).Nodup := by
  rw [List.map_map, v.seen_eq]
  exact hv.distinct.sublist ((List.takeWhile_sublist _).map _)

/-- The map after both documents are read: the members of `sub` read, and those of `base` read whose key is
not among them. -/
theorem vals_perm {base sub : Value} (hb : Document base) (hs : Document sub) :
    (assignAll (assignAll [] (base.seen.map rawMember)) (sub.seen.map rawMember)).Perm
      (sub.seen.map rawMember ++ without (base.seen.map rawMember) (sub.seen.map rawMember)) := by
  have h1 : (assignAll [] (base.seen.map rawMember)).Perm (base.seen.map rawMember) := by
    simpa [without_nil_left] using assignAll_perm (l := []) hb.nodup_seen
  exact (assignAll_perm hs.nodup_seen).trans ((h1.filter _).append_left _)

theorem visible_iff (v : Value) : v.visible = false ↔ v.text = [Ch.squote, Ch.squote] := by
  cases v with
  | str s =>
    obtain ⟨q, body, wf⟩ := s
    cases q with
    | double => simp [Value.visible, Value.text, Str.text, Quote.char]
    | single =>
      cases body with
      | nil => simp [Value.visible, Value.text, Str.text, Quote.char]
      | cons b t => simp [Value.visible, Value.text, Str.text]
  | lit w =>
    obtain ⟨b, t, hw, hb⟩ := w.exists_cons
    have := (isBare_facts b hb).2.2.2.1
    simp only [Value.visible, Value.text, hw, List.cons.injEq]
    exact iff_of_false (by simp) fun h => this h.1
  | bin p => simp [Value.visible, Value.text, Payload.text]
  | empty k ws => cases k <;> simp [Value.visible, Value.text, Kind.opening]
  | node k es => cases k <;> simp [Value.visible, Value.text, Kind.opening]

/-- What is read of two documents is what is asked for exactly when nothing that matters is lost. -/
theorem seen_perm_iff {base sub : Value} (hb : Document base) (hs : Document sub) :
    (sub.seen.map rawMember ++ without (base.seen.map rawMember) (sub.seen.map rawMember)).Perm (overridden base sub) ↔
      Overridable base sub := by
  have hsplit : base.members.map rawMember =
      base.seen.map rawMember ++ (base.members.dropWhile fun kv => kv.2.visible).map rawMember := by
    rw [← List.map_append, hb.seen_eq, List.takeWhile_append_dropWhile]
  have hkeys : (sub.members.map rawMember).map Prod.fst = sub.members.map fun kv => kv.1.name := by
    rw [List.map_map]
    rfl
  -- the part of `base` that is lost must be overridden
  have hlost :
      without ((base.members.dropWhile fun kv => kv.2.visible).map rawMember) (sub.members.map rawMember) = [] ↔
      ∀ kv ∈ base.members.dropWhile (fun kv => kv.2.visible), kv.1.name ∈ sub.members.map fun kv => kv.1.name := by
    rw [without, List.filter_eq_nil_iff, hkeys]
    simp only [List.mem_map (f := rawMember), decide_not, Bool.not_eq_true', decide_eq_false_iff_not, not_not]
    constructor
    · intro h kv hkv
      exact h _ ⟨kv, hkv, rfl⟩
    · rintro h _ ⟨kv, hkv, rfl⟩
      exact h kv hkv
  have happ : without (base.members.map rawMember) (sub.members.map rawMember) =
      without (base.seen.map rawMember) (sub.members.map rawMember) ++
        without ((base.members.dropWhile fun kv => kv.2.visible).map rawMember) (sub.members.map rawMember) := by
    rw [hsplit, without, List.filter_append]
    rfl
  constructor
  · intro hperm
    have hsub : ∀ kv ∈ sub.members, kv.2.visible = true := by
      intro kv hkv
      by_contra hv
      have htext := (visible_iff kv.2).mp (by simpa using hv)
      -- a member with this value was read, which is not possible
      have hin : rawMember kv ∈ overridden base sub :=
        List.mem_append_left _ (List.mem_map_of_mem hkv)
      have hread : ∃ kv', kv'.2.visible = true ∧ rawMember kv' = rawMember kv := by
        rcases List.mem_append.mp (hperm.mem_iff.mpr hin) with h | h
        · obtain ⟨kv', h', heq⟩ := List.mem_map.mp h
          exact ⟨kv', (shown_iff.mp (sub.shown_of_mem_seen h')).2, heq⟩
        · obtain ⟨kv', h', heq⟩ := List.mem_map.mp (List.mem_filter.mp h).1
          exact ⟨kv', (shown_iff.mp (base.shown_of_mem_seen h')).2, heq⟩
      obtain ⟨kv', hv', heq⟩ := hread
      rw [(visible_iff kv'.2).mpr ((congrArg Prod.snd heq).trans htext)] at hv'
      simp at hv'
    refine ⟨hsub, hlost.mp ?_⟩
    rw [overridden, hs.seen_eq_members hsub, happ] at hperm
    have hlen := hperm.length_eq
    simp only [List.length_append] at hlen
    exact List.eq_nil_of_length_eq_zero (by omega)
  · rintro ⟨hsub, hbase⟩
    rw [overridden, hs.seen_eq_members hsub, happ, hlost.mpr hbase, List.append_nil]

/-- `{ "a":'' }`. -/
def lostValue : Value :=
  .node .object (.one (.member .blank (.quoted (.a .double)) .none .none) (.str (.empty .single)) .blank)

/-- `{ "a":1 }`. -/
def newValue : Value :=
  .node .object (.one (.member .blank (.quoted (.a .double)) .none .none) (.lit .one) .blank)

theorem document_lostValue : Document lostValue := by
  refine ⟨rfl, rfl, ?_, by decide, by decide⟩
  rintro es h
  obtain rfl := (Value.node.inj h).2
  decide

theorem document_newValue : Document newValue := by
  refine ⟨rfl, rfl, ?_, by decide, by decide⟩
  rintro es h
  obtain rfl := (Value.node.inj h).2
  decide

/-- The two texts one behind the other. -/
def twoTexts (base sub : Value) : Mem := ofBytes 16 (base.text ++ sub.text)

theorem holds_twoTexts (base sub : Value) :
    Holds (twoTexts base sub) 16 (Ws.none.text ++ (base.text ++ Ws.none.text)) ∧
    Holds (twoTexts base sub) (16 + base.text.length) (Ws.none.text ++ (sub.text ++ Ws.none.text)) := by
  simpa [Ws.none, twoTexts] using holds_ofBytes 16 (base.text ++ sub.text)

end Cpcf.Json
