import Cpcf.Json.Lookup

/-!
The text of a path of names and indices, and what `Split` makes of it.

A name stands behind a dot and an index between brackets. Adjacent separators count as one, so that a path gives one
field for each segment, an empty one behind an index at the end and, where an index comes first, an empty one before
it. `_LocateValue` looks that empty name up as it does any other.
-/

namespace Cpcf.Json

open Cpcf.Rt Cpcf.Lib.Memory Cpcf.Lib.Word
open Cpcf.Rt.StringRef (CharacterSet dot)

/-! ### Paths -/

/-- A character of a name in a path. -/
def isPathName (b : UInt8) : Bool :=
  b != dot && b != Ch.lbracket && b != Ch.rbracket && b != Ch.dquote && b != Ch.squote

/-- A name in a path. -/
structure PathName where
  text : List UInt8
  ne_nil : text ≠ []
  wf : text.all isPathName = true

/-- An index in a path. -/
structure PathIndex where
  text : List UInt8
  ne_nil : text ≠ []
  wf : text.all isDigit = true

def PathIndex.value (i : PathIndex) : ℕ := digitsValue 0 i.text

/-- A segment of a path. -/
inductive Seg
  | name (k : PathName)
  | index (i : PathIndex)

def Seg.text : Seg → List UInt8
  | .name k => k.text
  | .index i => i.text

def Seg.isIndex : Seg → Bool
  | .name _ => false
  | .index _ => true

/-- The byte before a segment. -/
def Seg.opening : Seg → UInt8
  | .name _ => dot
  | .index _ => Ch.lbracket

/-- What stands behind a segment. -/
def Seg.closing : Seg → List UInt8
  | .name _ => []
  | .index _ => [Ch.rbracket]

/-- A segment behind another one. -/
def Seg.full (s : Seg) : List UInt8 := s.opening :: (s.text ++ s.closing)

/-- The text of a path. -/
def pathText (s : Seg) (segs : List Seg) : List UInt8 :=
  (if s.isIndex then s.full else s.text) ++ segs.flatMap Seg.full

/-- The field is the segment; what it is is told by the byte before it. -/
def SegAt (m : Mem) (r : StringRef) (s : Seg) : Prop :=
  TextAt m r s.text ∧ (m (r.p - 1) = Ch.lbracket ↔ s.isIndex = true)

/-! ### Splitting -/

theorem isPathName_facts : ∀ b : UInt8, isPathName b = true →
    (pathSeps false).has b = false ∧ b ≠ Ch.dquote ∧ b ≠ Ch.squote := by
  set_option maxRecDepth 20000 in decide

theorem isDigit_facts : ∀ b : UInt8, isDigit b = true →
    (pathSeps false).has b = false ∧ b ≠ Ch.dquote ∧ b ≠ Ch.squote := by
  set_option maxRecDepth 20000 in decide

theorem Seg.text_ne_nil (s : Seg) : s.text ≠ [] := by
  cases s with
  | name k => exact k.ne_nil
  | index i => exact i.ne_nil

theorem pathText_ne_nil (s : Seg) (segs : List Seg) : pathText s segs ≠ [] := by
  cases s with
  | name k => exact List.append_ne_nil_of_left_ne_nil k.ne_nil _
  | index i => exact List.cons_ne_nil _ _

theorem Seg.plain (s : Seg) : PlainField (pathSeps false) s.text := by
  cases s with
  | name k => exact fun b hb => isPathName_facts b (List.all_eq_true.mp k.wf b hb)
  | index i => exact fun b hb => isDigit_facts b (List.all_eq_true.mp i.wf b hb)

/-- The bytes around a segment are separators and no quotes. -/
theorem separator_facts : ∀ b ∈ [dot, Ch.lbracket, Ch.rbracket],
    (pathSeps false).has b = true ∧ b ≠ Ch.dquote ∧ b ≠ Ch.squote := by
  set_option maxRecDepth 20000 in decide

theorem Seg.opening_mem (s : Seg) : s.opening ∈ [dot, Ch.lbracket, Ch.rbracket] := by
  cases s with
  | name k => exact List.mem_cons_self ..
  | index i => exact List.mem_cons_of_mem _ (List.mem_cons_self ..)

theorem Seg.closing_subset (s : Seg) : ∀ b ∈ s.closing, b ∈ [dot, Ch.lbracket, Ch.rbracket] := by
  intro b hb
  cases s with
  | name k => exact absurd hb List.not_mem_nil
  | index i =>
    rw [List.mem_singleton.mp hb]
    decide

theorem Seg.opening_eq (s : Seg) : s.opening = Ch.lbracket ↔ s.isIndex = true := by
  cases s with
  | name k => exact iff_of_false (show dot ≠ Ch.lbracket by decide) Bool.false_ne_true
  | index i => exact iff_of_true rfl rfl

section Split

variable {m : Mem} {tail p n count : ℕ} {xs ss : List UInt8} {b : UInt8}

/-- A field before a separator. -/
theorem pathLoop_sep {seps : CharacterSet} (h : Holds m p xs) (hplain : PlainField seps xs) (hlt : p + xs.length < tail)
    (hn : xs.length < n) (hb : m (p + xs.length) = b) (hsep : seps.has b = true) (hd : b ≠ Ch.dquote)
    (hs : b ≠ Ch.squote) :
    pathLoop m tail seps n count p p 0 =
      if count ≤ 1 then [⟨p, xs.length⟩]
      else ⟨p, xs.length⟩ ::
        pathLoop m tail seps (n - xs.length - 1) (count - 1)
          (scanWhile m seps.has (p + xs.length + 1) (tail - (p + xs.length + 1)))
          (scanWhile m seps.has (p + xs.length + 1) (tail - (p + xs.length + 1))) 0 := by
  obtain ⟨k, hk⟩ : ∃ k, n - xs.length = k + 1 := ⟨n - xs.length - 1, by omega⟩
  have hquote : ¬ (p + xs.length < tail ∧ (b = Ch.dquote ∨ Ch.squote = b)) := by
    rintro ⟨-, hq | hq⟩
    · exact hd hq
    · exact hs hq.symm
  have hhas : ¬ (p + xs.length < tail ∧ seps.has b = false) := by
    rw [hsep]
    exact fun h => Bool.noConfusion h.2
  rw [pathLoop_field h hplain hlt.le hn.le, hk, pathLoop, if_neg (fun h => h.2 rfl), hb, if_neg hquote, if_neg hhas,
    pathField_eq h hplain, Nat.add_sub_cancel]
  simp only [hlt.ne, or_false]

/-- A field before some separators and another field. -/
theorem pathLoop_seps {ys : List UInt8} (h : Holds m p (xs ++ (ss ++ ys))) (hplain : PlainField (pathSeps false) xs)
    (hlt : p + xs.length + ss.length + ys.length ≤ tail) (hn : xs.length < n)
    (hss : ∀ b ∈ ss, b ∈ [dot, Ch.lbracket, Ch.rbracket]) (h0 : ss ≠ []) (hys : PlainField (pathSeps false) ys)
    (hyn : ys = [] → p + xs.length + ss.length = tail) :
    pathLoop m tail (pathSeps false) n count p p 0 =
      if count ≤ 1 then [⟨p, xs.length⟩]
      else ⟨p, xs.length⟩ ::
        pathLoop m tail (pathSeps false) (n - xs.length - 1) (count - 1) (p + xs.length + ss.length)
          (p + xs.length + ss.length) 0 := by
  obtain ⟨b, ss, rfl⟩ := List.exists_cons_of_ne_nil h0
  obtain ⟨h1, h2⟩ := holds_append.mp h
  obtain ⟨h3, h4⟩ := holds_append.mp h2
  obtain ⟨hsep, hd, hs⟩ := separator_facts b (hss b (List.mem_cons_self ..))
  rw [List.length_cons] at hlt hyn
  have hscan : scanWhile m (pathSeps false).has (p + xs.length + 1) (tail - (p + xs.length + 1)) =
      p + xs.length + 1 + ss.length := by
    apply scanWhile_eq h3.2
    · exact fun c hc => (separator_facts c (hss c (List.mem_cons_of_mem _ hc))).1
    · omega
    · intro hin
      rcases ys with _ | ⟨c, ys⟩
      · have := hyn rfl
        omega
      · have hc : m (p + xs.length + 1 + ss.length) = c := by
          have := h4.1
          rwa [List.length_cons, Nat.add_comm ss.length, ← Nat.add_assoc] at this
        rw [hc]
        exact (hys c (List.mem_cons_self ..)).1
  rw [pathLoop_sep h1 hplain (by omega) hn h3.1 hsep hd hs, hscan, List.length_cons, Nat.add_right_comm,
    ← Nat.add_assoc]

/-- The last segment of a path. -/
theorem pathLoop_end {s : Seg} (h : Holds m p (s.text ++ s.closing)) (he : p + (s.text ++ s.closing).length = tail)
    (hn : tail - p < n) : pathLoop m tail (pathSeps false) n count p p 0 = [⟨p, s.text.length⟩] ∨
      pathLoop m tail (pathSeps false) n count p p 0 = [⟨p, s.text.length⟩] ++ [⟨tail, 0⟩] := by
  cases s with
  | name k =>
    left
    simp only [Seg.closing, List.append_nil] at h he
    exact pathLoop_last h (Seg.plain (.name k)) he (by omega)
  | index i =>
    have hone : ∀ n, 0 < n → pathLoop m tail (pathSeps false) n (count - 1) tail tail 0 = [⟨tail, 0⟩] :=
      fun n hn => @pathLoop_last m tail _ _ tail n [] trivial (fun b hb => absurd hb List.not_mem_nil) rfl hn
    simp only [List.length_append, Seg.closing, List.length_singleton] at he
    have hlt : p + (Seg.index i).text.length + [Ch.rbracket].length + ([] : List UInt8).length ≤ tail := by
      simp only [List.length_singleton, List.length_nil]
      omega
    have hloop := @pathLoop_seps m tail p n count _ _ [] h (Seg.plain (.index i)) hlt (by omega)
      (Seg.closing_subset (.index i)) (List.cons_ne_nil _ _) (fun b hb => absurd hb List.not_mem_nil)
      (fun _ => by simp only [List.length_singleton]; omega)
    rw [List.length_singleton, show p + (Seg.index i).text.length + 1 = tail by omega, hone _ (by omega)] at hloop
    rw [hloop]
    by_cases hcount : count ≤ 1
    · rw [if_pos hcount]
      exact Or.inl rfl
    · rw [if_neg hcount]
      exact Or.inr rfl

/-- A segment before another one. -/
theorem pathLoop_next {s t : Seg} (h : Holds m p (s.text ++ ((s.closing ++ [t.opening]) ++ t.text)))
    (he : p + s.text.length + (s.closing ++ [t.opening]).length + t.text.length ≤ tail) (hn : tail - p < n)
    (hc : 1 < count) : pathLoop m tail (pathSeps false) n count p p 0 =
      ⟨p, s.text.length⟩ :: pathLoop m tail (pathSeps false) (n - s.text.length - 1) (count - 1)
        (p + s.text.length + (s.closing ++ [t.opening]).length)
        (p + s.text.length + (s.closing ++ [t.opening]).length) 0 := by
  have hss : ∀ b ∈ s.closing ++ [t.opening], b ∈ [dot, Ch.lbracket, Ch.rbracket] := by
    intro b hb
    rcases List.mem_append.mp hb with hb | hb
    · exact s.closing_subset b hb
    · rw [List.mem_singleton.mp hb]
      exact t.opening_mem
  have hpos := List.length_pos_of_ne_nil t.text_ne_nil
  have hloop := @pathLoop_seps m tail p n count _ _ _ h s.plain he (by omega) hss (by simp) t.plain
    (fun h0 => absurd h0 t.text_ne_nil)
  rwa [if_neg (by omega)] at hloop

/-- **The fields of a path** from a segment on: the segments, and behind an index an empty field. -/
theorem pathLoop_segs : ∀ (segs : List Seg) (s : Seg) {p n c : ℕ},
    Holds m p (s.text ++ (s.closing ++ segs.flatMap Seg.full)) →
    p + (s.text ++ (s.closing ++ segs.flatMap Seg.full)).length = tail → tail - p < n → segs.length < c → 0 < p →
    (m (p - 1) = Ch.lbracket ↔ s.isIndex = true) →
    ∃ refs, List.Forall₂ (SegAt m) refs (s :: segs) ∧
      (pathLoop m tail (pathSeps false) n c p p 0 = refs ∨
        pathLoop m tail (pathSeps false) n c p p 0 = refs ++ [⟨tail, 0⟩])
  | [], s, p, n, c, h, he, hn, hc, hp, hs => by
    have hat : SegAt m ⟨p, s.text.length⟩ s := ⟨⟨hp, rfl, (holds_append.mp h).1⟩, hs⟩
    rw [List.flatMap_nil, List.append_nil] at h he
    exact ⟨[⟨p, s.text.length⟩], List.Forall₂.cons hat List.Forall₂.nil, pathLoop_end h he hn⟩
  | t :: segs, s, p, n, c, h, he, hn, hc, hp, hs => by
    rw [List.length_cons] at hc
    have hsplit : s.text ++ (s.closing ++ (t :: segs).flatMap Seg.full) =
        s.text ++ ((s.closing ++ [t.opening]) ++ (t.text ++ (t.closing ++ segs.flatMap Seg.full))) := by
      simp only [List.flatMap_cons, Seg.full, List.append_assoc, List.cons_append, List.nil_append]
    rw [hsplit] at h he
    obtain ⟨h1, h2⟩ := holds_append.mp h
    obtain ⟨h3, h4⟩ := holds_append.mp h2
    have hfirst : Holds m p (s.text ++ ((s.closing ++ [t.opening]) ++ t.text)) :=
      holds_append.mpr ⟨h1, holds_append.mpr ⟨h3, (holds_append.mp h4).1⟩⟩
    simp only [List.length_append, List.length_singleton] at he
    have hpos := List.length_pos_of_ne_nil t.text_ne_nil
    have hloop := pathLoop_next (m := m) (n := n) hfirst
      (by rw [List.length_append, List.length_singleton]; omega) hn (by omega : 1 < c)
    have hbefore : m (p + s.text.length + (s.closing ++ [t.opening]).length - 1) = t.opening := by
      have hopening := (holds_append.mp h3).2.1
      rwa [List.length_append, List.length_singleton, ← Nat.add_assoc, Nat.add_sub_cancel]
    obtain ⟨refs, hall, hrefs⟩ := pathLoop_segs segs t (n := n - s.text.length - 1) (c := c - 1) h4
      (by simp only [List.length_append, List.length_singleton]; omega)
      (by rw [List.length_append, List.length_singleton]; omega) (by omega) (by omega)
      (by rw [hbefore]; exact t.opening_eq)
    refine ⟨⟨p, s.text.length⟩ :: refs, List.Forall₂.cons ⟨⟨hp, rfl, h1⟩, hs⟩ hall, ?_⟩
    rw [hloop]
    rcases hrefs with hrefs | hrefs
    · rw [hrefs]
      exact Or.inl rfl
    · rw [hrefs]
      exact Or.inr rfl

end Split

section Segments

variable {m : Mem} {xpath : StringRef}

theorem SegAt.isEmpty {r : StringRef} {s : Seg} (h : SegAt m r s) : r.isEmpty = false :=
  TextAt.isEmpty h.1 s.text_ne_nil

theorem isEmpty_of_segAt {refs : List StringRef} {segs : List Seg} (h : List.Forall₂ (SegAt m) refs segs) :
    ∀ r ∈ refs, r.isEmpty = false := by
  induction h with
  | nil => exact fun r hr => absurd hr List.not_mem_nil
  | cons hat _ ih => exact List.forall_mem_cons.mpr ⟨hat.isEmpty, ih⟩

/-- A path that starts with a name is split into its segments. -/
theorem pathSegs_name {k : PathName} {segs : List Seg} (h : TextAt m xpath (pathText (.name k) segs))
    (hlen : segs.length < 256) (hbefore : m (xpath.p - 1) ≠ Ch.lbracket) :
    List.Forall₂ (SegAt m) (pathSegs m xpath false) (.name k :: segs) := by
  obtain ⟨hp, hl, hholds⟩ := h
  have htail : xpath.p + (pathText (.name k) segs).length = xpath.tail := by rw [StringRef.tail, hl]
  obtain ⟨refs, hall, hrefs⟩ := @pathLoop_segs m xpath.tail segs (.name k) xpath.p (xpath.len + 1) 256 hholds htail
    (by rw [StringRef.tail]; omega) hlen hp (iff_of_false hbefore Bool.false_ne_true)
  rw [pathSegs]
  rcases hrefs with hrefs | hrefs
  · have hlast : refs.getLast?.any StringRef.isEmpty = false := by
      cases hr : refs.getLast? with
      | none => rfl
      | some r => exact isEmpty_of_segAt hall r (List.mem_of_getLast? hr)
    simp only [hrefs, hlast]
    exact hall
  · have hlast : (refs ++ [(⟨xpath.tail, 0⟩ : StringRef)]).getLast?.any StringRef.isEmpty = true := by
      rw [List.getLast?_concat]
      exact Bool.or_true _
    simp only [hrefs, hlast, if_true, List.dropLast_concat]
    exact hall

/-- Of a path that starts with an index the first field is empty. -/
theorem pathSegs_index {i : PathIndex} {segs : List Seg} (h : TextAt m xpath (pathText (.index i) segs)) :
    pathSegs m xpath false = [] ∨ ∃ l, pathSegs m xpath false = ⟨xpath.p, 0⟩ :: l := by
  obtain ⟨hp, hl, hholds⟩ := h
  have hpos : 0 < xpath.len := by
    rw [hl]
    exact Nat.succ_pos _
  have hbracket : m (xpath.p + ([] : List UInt8).length) = Ch.lbracket := hholds.1
  have hloop := @pathLoop_sep m xpath.tail xpath.p (xpath.len + 1) 256 [] _ (pathSeps false) trivial
    (fun b hb => absurd hb List.not_mem_nil) (by rw [StringRef.tail]; exact Nat.lt_add_of_pos_right hpos)
    (Nat.succ_pos _) hbracket (by decide) (by decide) (by decide)
  rw [if_neg (by decide)] at hloop
  rw [pathSegs, hloop]
  generalize pathLoop m xpath.tail (pathSeps false) _ _ _ _ 0 = l
  simp only [List.length_nil]
  split_ifs
  · cases l with
    | nil => exact Or.inl rfl
    | cons r l => exact Or.inr ⟨(r :: l).dropLast, rfl⟩
  · exact Or.inr ⟨l, rfl⟩

end Segments

/-! ### The search for no name -/

section NoName

variable {m : Mem} {p e n : ℕ}

/-- The scanner does not go back. -/
theorem le_of_seekJsonObjectClosure {q : ℕ} (h : seekJsonObjectClosure m p e = some q) : p ≤ q := by
  by_cases hopen : ∃ k : Kind, m p = k.opening
  · obtain ⟨k, hk⟩ := hopen
    rw [seek_opening hk] at h
    have := lt_of_closureScan h
    omega
  rw [seekJsonObjectClosure] at h
  by_cases hquote : m p = Ch.dquote ∨ m p = Ch.squote
  · simp only [if_pos hquote] at h
    split_ifs at h with hne
    obtain rfl := Option.some_injective _ h
    rcases Nat.lt_or_ge e (p + 1) with hlt | hge
    · rw [seekCharEscape, Nat.sub_eq_zero_of_le hlt.le] at hne
      exact absurd rfl hne
    · have := seekCharEscape_ge (m := m) (c := m p) hge
      omega
  by_cases hlt : m p = Ch.lt
  · rw [if_neg hquote, if_pos hlt] at h
    exact (lt_of_seekBinaryClosure h).le
  have hno : ¬ matchClosure (m p) ≠ 0 := by
    have h1 : m p ≠ Ch.lbracket := fun h => hopen ⟨.array, h⟩
    have h2 : m p ≠ Ch.lbrace := fun h => hopen ⟨.object, h⟩
    rw [matchClosure, if_neg hquote, if_neg h1, if_neg h2]
    exact fun h => h rfl
  simp only [if_neg hquote, if_neg hlt, if_neg hno] at h
  obtain rfl := Option.some_injective _ h
  exact le_scanWhile m isText p (e - p)

/-- A name is read inside the document only, and forward. -/
theorem readName_inside {a : ℕ} (h1 : e ≠ (readName m a e).2) (h2 : (readName m a e).1 ≠ (readName m a e).2) :
    (readName m a e).1 < (readName m a e).2 ∧ a < e ∧ a ≤ (readName m a e).2 := by
  have hlt : (readName m a e).1 < (readName m a e).2 := lt_of_le_of_ne (readName_le (Ne.symm h1)) h2
  have ha : a ≤ (readName m a e).1 := by
    unfold readName
    split
    · exact Nat.le_succ a
    · exact le_rfl
  refine ⟨hlt, ?_, by omega⟩
  by_contra hge
  unfold readName at h1 h2
  by_cases hquote : m a = Ch.dquote ∨ m a = Ch.squote
  · rw [if_pos hquote, seekCharEscape, Nat.sub_eq_zero_of_le (by omega)] at h1
    exact h1 rfl
  · rw [if_neg hquote, scanText, Nat.sub_eq_zero_of_le (by omega)] at h2
    exact h2 rfl

/-- An empty name is never found. -/
theorem findMember_noName {name : StringRef} (hname : name.len = 0) (hn : e - p < n) :
    findMember m e name n p = some none := by
  induction n generalizing p with
  | zero => exact absurd hn (Nat.not_lt_zero _)
  | succ n ih =>
    have hskip : p + 1 ≤ skipWhitespace m (p + 1) e := le_scanWhile m isSkipped (p + 1) _
    rw [findMember]
    generalize skipWhitespace m (p + 1) e = a at hskip
    simp only
    split_ifs with h1 h2 h3 h4
    · rfl
    · rfl
    · rfl
    · obtain ⟨hlt, -, -⟩ := readName_inside (not_or.mp h2).1 (not_or.mp h2).2
      have hlen := congrArg List.length h4
      rw [StringRef.bytes, StringRef.bytes, length_read, length_read, hname, StringRef.ofRange] at hlen
      simp only at hlen
      omega
    · obtain ⟨-, hae, hle⟩ := readName_inside (not_or.mp h2).1 (not_or.mp h2).2
      cases hseek : seekJsonObjectClosure m
        (skipWhitespace m (seekChar m (readName m a e).2 e Ch.colon + 1) e) e with
      | none => rfl
      | some q =>
        have hq := le_of_seekJsonObjectClosure hseek
        have h5 : (readName m a e).2 ≤ seekChar m (readName m a e).2 e Ch.colon := le_scanWhile m _ _ _
        have h6 : seekChar m (readName m a e).2 e Ch.colon + 1 ≤
          skipWhitespace m (seekChar m (readName m a e).2 e Ch.colon + 1) e := le_scanWhile m _ _ _
        have h7 : q ≤ skipWhitespace m q e := le_scanWhile m _ _ _
        simp only
        split_ifs
        · exact ih (by omega)
        · rfl

end NoName

end Cpcf.Json
