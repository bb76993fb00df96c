import Cpcf.Inet.HeaderLines
import Cpcf.Inet.ResponseHeader

/-!
What `ParseHeader` reads from a header that is well formed.

A field is found under its name in any case of letters, and with its value stands the rest of the header, since numbers
are searched from there on.
-/

namespace Cpcf.Inet

open Cpcf.Lib.Search Cpcf.Rt Cpcf.Rt.Lines

/-- A field of a header. -/
structure Field where
  name : Text
  value : Text
  deriving DecidableEq

/-- Names are of visible characters without the colon. -/
def IsFieldName (n : Text) : Prop := n ≠ [] ∧ ∀ b ∈ n, 0x20 < b ∧ b < 0x7f ∧ b ≠ Ch.colon

instance (n : Text) : Decidable (IsFieldName n) := inferInstanceAs (Decidable (_ ∧ _))

namespace Field

def line (f : Field) : Text := f.name ++ Ch.colon :: f.value

/-- The field has this name, given in lower case. -/
def Named (n : Text) (f : Field) : Prop := makeLower f.name = n

instance (n : Text) (f : Field) : Decidable (f.Named n) := inferInstanceAs (Decidable (_ = _))

/-- A value stands on one line. -/
structure WellFormed (f : Field) : Prop where
  name_ok : IsFieldName f.name
  value_ok : 0 ∉ f.value ∧ CR ∉ f.value ∧ LF ∉ f.value

instance (f : Field) : Decidable f.WellFormed :=
  decidable_of_iff (IsFieldName f.name ∧ 0 ∉ f.value ∧ CR ∉ f.value ∧ LF ∉ f.value)
    ⟨fun h => ⟨h.1, h.2⟩, fun h => ⟨h.name_ok, h.value_ok⟩⟩

/-- The name is looked through once, not every byte for being in it. -/
theorem isFieldName_of_all {n : Text} (hne : n ≠ [])
    (h : n.all (fun b => 0x20 < b && b < 0x7f && b != Ch.colon) = true) : IsFieldName n := by
  refine ⟨hne, fun b hb => ?_⟩
  have hb := List.all_eq_true.mp h b hb
  simp only [Bool.and_eq_true, decide_eq_true_eq, bne_iff_ne] at hb
  exact ⟨hb.1.1, hb.1.2, hb.2⟩

/-- A value with blanks around it. -/
def Padded (value word : Text) : Prop :=
  ∃ l r : Text, value = l ++ word ++ r ∧ (∀ b ∈ l, b = 0x20 ∨ b = 0x09) ∧ ∀ b ∈ r, b = 0x20 ∨ b = 0x09

end Field

/-- The header of a response. -/
structure ResponseHead where
  versionMajor : UInt8
  versionMinor : UInt8
  code : Text
  reason : Text
  fields : List Field
  version_ok : isDigit versionMajor = true ∧ isDigit versionMinor = true
  code_ok : code.length = 3 ∧ ∀ b ∈ code, isDigit b = true
  reason_ok : (∀ b ∈ reason.head?, b = 0x20) ∧ 0 ∉ reason ∧ CR ∉ reason ∧ LF ∉ reason
  fields_ok : ∀ f ∈ fields, f.WellFormed

namespace ResponseHead

def statusLine (h : ResponseHead) : Text :=
  ascii "HTTP/" ++ h.versionMajor :: 0x2e :: h.versionMinor :: 0x20 :: (h.code ++ h.reason)

def lines (h : ResponseHead) : List Text := h.statusLine :: h.fields.map Field.line

def bytes (h : ResponseHead) : Text := joinLines h.lines ++ CRLF

/-- The body comes in chunks. -/
def Chunked (h : ResponseHead) : Prop :=
  (∃ f ∈ h.fields, f.Named (ascii "transfer-encoding")) ∧
  (∀ f ∈ h.fields, f.Named (ascii "transfer-encoding") →
    ∃ word, Field.Padded f.value word ∧ makeLower word = ascii "chunked") ∧
  ∀ f ∈ h.fields, ¬ f.Named (ascii "content-length")

/-- The body has this length, written with these digits. -/
def ContentLength (h : ResponseHead) (digits : Text) : Prop :=
  (∃ f ∈ h.fields, f.Named (ascii "content-length")) ∧
  (∀ f ∈ h.fields, f.Named (ascii "content-length") → Field.Padded f.value digits) ∧
  (digits ≠ [] ∧ ∀ b ∈ digits, isDigit b = true) ∧
  ∀ f ∈ h.fields, ¬ f.Named (ascii "transfer-encoding")

end ResponseHead

/-- The header of a plain answer with these fields. -/
def okHead (fields : List Field) (fields_ok : ∀ f ∈ fields, f.WellFormed) : ResponseHead where
  versionMajor := 0x31
  versionMinor := 0x31
  code := ascii "200"
  reason := ascii " OK"
  fields := fields
  version_ok := by decide
  code_ok := by decide +kernel
  reason_ok := by decide +kernel
  fields_ok := fields_ok

/-! ### The fields of a header -/

/-- What is found for these fields. -/
def fieldsOf : List Field → List HeaderField
  | [] => []
  | f :: fs =>
    ⟨makeLower f.name, trimLeftSpace f.value, trimLeftSpace f.value ++ CR :: LF :: joinLines (fs.map Field.line)⟩ ::
      fieldsOf fs

variable {f : Field} {fs : List Field} {h : ResponseHead} {n s t value word digits : Text} {b : UInt8}

theorem isNewline_iff : isNewline b = true ↔ b = CR ∨ b = LF := by
  simp only [isNewline, Bool.or_eq_true, decide_eq_true_eq]
  rfl

theorem Field.WellFormed.isLine (h : f.WellFormed) : IsLine f.line := by
  obtain ⟨v0, vcr, vlf⟩ := h.value_ok
  have hn : ∀ b ∈ f.name, b ≠ 0 ∧ b ≠ CR ∧ b ≠ LF := by
    intro b hb
    obtain ⟨hlt, -⟩ := h.name_ok.2 b hb
    refine ⟨?_, ?_, ?_⟩ <;> rintro rfl <;> exact absurd hlt (by decide)
  unfold line
  refine ⟨by simp, ?_, ?_, ?_⟩
  · rw [List.mem_append, List.mem_cons, not_or, not_or]
    exact ⟨fun hb => (hn _ hb).1 rfl, by decide, v0⟩
  · rw [List.mem_append, List.mem_cons, not_or, not_or]
    exact ⟨fun hb => (hn _ hb).2.1 rfl, by decide, vcr⟩
  · rw [List.mem_append, List.mem_cons, not_or, not_or]
    exact ⟨fun hb => (hn _ hb).2.2 rfl, by decide, vlf⟩

theorem length_le_joinLines (ls : List Text) : ls.length ≤ (joinLines ls).length := by
  induction ls with
  | nil => simp
  | cons l ls ih =>
    rw [joinLines_cons]
    simp only [List.length_append, List.length_cons]
    omega

theorem dropWhile_joinLines {l : Text} {ls : List Text} (hl : IsLine l) :
    (joinLines (l :: ls)).dropWhile isNewline = joinLines (l :: ls) := by
  obtain ⟨hne, -, hcr, hlf⟩ := hl
  obtain ⟨b, t, rfl⟩ := List.exists_cons_of_ne_nil hne
  rw [joinLines_cons, List.cons_append, List.dropWhile_cons_of_neg]
  rw [isNewline_iff]
  rintro (rfl | rfl)
  · exact hcr List.mem_cons_self
  · exact hlf List.mem_cons_self

/-- The next line, from the end of a line on or from the begin of the text. -/
theorem getNextLine_eq {l : Text} {ls : List Text} (hl : IsLine l) (ht : t.dropWhile isNewline = joinLines (l :: ls)) :
    getNextLine true t = some (l, CR :: LF :: joinLines ls) := by
  obtain ⟨-, -, hcr, hlf⟩ := hl
  have hall : ∀ b ∈ l, (!isNewline b) = true := by
    intro b hb
    rw [Bool.not_eq_true', ← Bool.not_eq_true, isNewline_iff, not_or]
    exact ⟨fun h => hcr (h ▸ hb), fun h => hlf (h ▸ hb)⟩
  have hempty : (joinLines (l :: ls)).isEmpty = false := by
    rw [List.isEmpty_eq_false_iff, joinLines_cons]
    simp
  unfold getNextLine
  simp only [if_true, ht, hempty, Bool.false_eq_true, if_false, Option.some.injEq, Prod.mk.injEq]
  rw [joinLines_cons]
  refine ⟨?_, ?_⟩
  · rw [List.takeWhile_append_of_pos hall, List.takeWhile_cons_of_neg (by decide), List.append_nil]
  · rw [List.dropWhile_append_of_pos hall, List.dropWhile_cons_of_neg (by decide)]

theorem fieldOf_line (hf : f.WellFormed) (ls : List Text) :
    fieldOf f.line (joinLines (f.line :: ls)) =
      some ⟨makeLower f.name, trimLeftSpace f.value, trimLeftSpace f.value ++ CR :: LF :: joinLines ls⟩ := by
  have hcolon : find [Ch.colon] f.line = some f.name.length :=
    find_singleton fun hmem => (hf.name_ok.2 _ hmem).2.2 rfl
  have hvalue : f.line.drop (f.name.length + 1) = f.value := by
    unfold Field.line
    rw [List.append_cons]
    exact List.drop_left' (by simp)
  have hname : f.line.take f.name.length = f.name := List.take_left
  obtain ⟨u, hu⟩ : trimLeftSpace f.value <:+ f.line := by
    refine (List.dropWhile_suffix _).trans ?_
    rw [← hvalue]
    exact List.drop_suffix _ _
  have hbegin : (joinLines (f.line :: ls)).drop (f.line.length - (trimLeftSpace f.value).length) =
      trimLeftSpace f.value ++ CR :: LF :: joinLines ls := by
    rw [joinLines_cons, ← hu, List.append_assoc]
    exact List.drop_left' (by simp)
  unfold fieldOf
  simp only [hcolon, Option.map_some, hvalue, hname, hbegin]

theorem fieldsFrom_eq (hfs : ∀ f ∈ fs, f.WellFormed) {m : ℕ} (hm : fs.length < m) :
    fieldsFrom m (CR :: LF :: joinLines (fs.map Field.line)) = fieldsOf fs := by
  induction fs generalizing m with
  | nil =>
    obtain ⟨m, rfl⟩ := Nat.exists_eq_add_of_lt hm
    rfl
  | cons f fs ih =>
    obtain ⟨m, rfl⟩ := Nat.exists_eq_add_of_lt hm
    have hf := hfs f List.mem_cons_self
    have hdrop : (CR :: LF :: joinLines (f.line :: fs.map Field.line)).dropWhile isNewline =
        joinLines (f.line :: fs.map Field.line) := by
      rw [List.dropWhile_cons_of_pos (by decide), List.dropWhile_cons_of_pos (by decide), dropWhile_joinLines hf.isLine]
    rw [List.map_cons, fieldsFrom, getNextLine_eq hf.isLine hdrop]
    simp only [hdrop, fieldOf_line hf, Option.toList_some, List.singleton_append]
    rw [fieldsOf, ih (fun f hf => hfs f (List.mem_cons_of_mem _ hf)) (by simp; omega)]

theorem getHeaderField_eq_none (hn : ∀ f ∈ fs, ¬ f.Named n) : getHeaderField (fieldsOf fs) n = none := by
  have hfind : (fieldsOf fs).find? (·.name = n) = none := by
    induction fs with
    | nil => rfl
    | cons f fs ih =>
      rw [fieldsOf, List.find?_cons_of_neg (by rw [decide_eq_true_eq]; exact hn f List.mem_cons_self)]
      exact ih fun f hf => hn f (List.mem_cons_of_mem _ hf)
  unfold getHeaderField
  rw [hfind, Option.filter_none]

/-- The first field of the name is found, if its value is more than blanks. -/
theorem getHeaderField_eq (hn : ∃ f ∈ fs, f.Named n) : ∃ f ∈ fs, f.Named n ∧ ∃ t,
    getHeaderField (fieldsOf fs) n =
      (some ⟨n, trimLeftSpace f.value, trimLeftSpace f.value ++ CR :: t⟩ : Option HeaderField).filter (·.value ≠ []) := by
  induction fs with
  | nil => simp at hn
  | cons f fs ih =>
    by_cases hf : f.Named n
    · refine ⟨f, List.mem_cons_self, hf, LF :: joinLines (fs.map Field.line), ?_⟩
      have hname : makeLower f.name = n := hf
      unfold getHeaderField
      rw [fieldsOf, List.find?_cons_of_pos (by rw [decide_eq_true_eq]; exact hname), hname]
    · obtain ⟨g, hg, hgn⟩ := hn
      have hmem : g ∈ fs := by
        rcases List.mem_cons.mp hg with rfl | hg
        · exact absurd hgn hf
        · exact hg
      obtain ⟨g, hg, hgn, t, ht⟩ := ih ⟨g, hmem, hgn⟩
      refine ⟨g, List.mem_cons_of_mem _ hg, hgn, t, ?_⟩
      rw [← ht]
      unfold getHeaderField
      rw [fieldsOf, List.find?_cons_of_neg (by rw [decide_eq_true_eq]; exact hf)]

/-! ### The two lengths -/

theorem trimLeftSpace_padded {c : UInt8} (h : Field.Padded value (c :: word)) (hc : isSkipped c = false) :
    ∃ r, trimLeftSpace value = c :: word ++ r ∧ ∀ b ∈ r, b = 0x20 ∨ b = 0x09 := by
  obtain ⟨l, r, rfl, hl, hr⟩ := h
  refine ⟨r, ?_, hr⟩
  have hskip : ∀ b ∈ l, isSkipped b = true := by
    intro b hb
    rcases hl b hb with rfl | rfl <;> decide
  rw [trimLeftSpace, List.append_assoc, List.dropWhile_append_of_pos hskip, List.cons_append,
    List.dropWhile_cons_of_neg (by simp [hc])]

theorem isSkipped_of_isDigit (hb : isDigit b = true) : isSkipped b = false := by
  obtain ⟨h1, h2⟩ := isDigit_iff.mp hb
  have hlt : b < 128 := UInt8.lt_iff_toNat_lt.mpr (show b.toNat < 128 by omega)
  rw [isSkipped, schar_of_lt hlt]
  simp only [Bool.and_eq_false_iff, decide_eq_false_iff_not]
  omega

/-- The first letter of the word. -/
theorem makeLower_chunked (hw : makeLower word = ascii "chunked") : ∃ c t, word = c :: t ∧ (c = 0x63 ∨ c = 0x43) := by
  cases word with
  | nil => exact absurd hw (by decide)
  | cons c t =>
    refine ⟨c, t, rfl, ?_⟩
    have hc : (if 0x41 ≤ schar c && schar c ≤ 0x5a then c + 0x20 else c) = 0x63 := (List.cons.inj hw).1
    split at hc
    · right
      exact add_right_cancel (hc.trans (show (0x63 : UInt8) = 0x43 + 0x20 by decide))
    · exact .inl hc

theorem parseChunkedTransfer_chunked (hh : h.Chunked) : parseChunkedTransfer (fieldsOf h.fields) = some true := by
  obtain ⟨hex, hall, -⟩ := hh
  obtain ⟨f, hf, hfn, t, ht⟩ := getHeaderField_eq hex
  obtain ⟨word, hpad, hword⟩ := hall f hf hfn
  obtain ⟨c, w, rfl, hc⟩ := makeLower_chunked hword
  obtain ⟨r, hr, -⟩ := trimLeftSpace_padded hpad (by rcases hc with rfl | rfl <;> decide)
  have hletter : isAlpha c = true := by rcases hc with rfl | rfl <;> decide
  unfold parseChunkedTransfer
  rw [ht, hr, Option.filter_some, if_pos (by simp)]
  simp only [List.cons_append]
  rw [List.dropWhile_cons_of_neg (by simp [hletter])]
  rcases hc with rfl | rfl <;> rfl

theorem parseChunkedTransfer_none (hn : ∀ f ∈ fs, ¬ f.Named (ascii "transfer-encoding")) :
    parseChunkedTransfer (fieldsOf fs) = some false := by
  unfold parseChunkedTransfer
  rw [getHeaderField_eq_none hn]

theorem parseContentLength_none (hn : ∀ f ∈ fs, ¬ f.Named (ascii "content-length")) :
    parseContentLength (fieldsOf fs) = some 1 := by
  unfold parseContentLength
  rw [getHeaderField_eq_none hn]
  rfl

/-- Nineteen digits are read at most. -/
theorem parseContentLength_eq (hh : h.ContentLength digits) (hlen : digits.length ≤ 19)
    (hlt : digitsValue 0 digits < 2 ^ 32) : parseContentLength (fieldsOf h.fields) = some (digitsValue 0 digits) := by
  obtain ⟨hex, hall, ⟨hne, hdigits⟩, -⟩ := hh
  obtain ⟨f, hf, hfn, t, ht⟩ := getHeaderField_eq hex
  obtain ⟨d, ds, rfl⟩ := List.exists_cons_of_ne_nil hne
  have hd := hdigits d List.mem_cons_self
  obtain ⟨r, hr, hblank⟩ := trimLeftSpace_padded (hall f hf hfn) (isSkipped_of_isDigit hd)
  have htake : ((d :: ds) ++ (r ++ CR :: t)).takeWhile isDigit = d :: ds := by
    have hstop : (r ++ CR :: t).takeWhile isDigit = [] := by
      cases r with
      | nil => rfl
      | cons b r =>
        rw [List.cons_append, List.takeWhile_cons_of_neg]
        rcases hblank b List.mem_cons_self with rfl | rfl <;> decide
    rw [List.takeWhile_append_of_pos hdigits, hstop, List.append_nil]
  unfold parseContentLength
  rw [ht, hr, Option.filter_some, if_pos (by simp)]
  simp only [List.append_assoc, List.cons_append]
  rw [List.dropWhile_cons_of_neg (by simp [hd])]
  simp only
  rw [← List.cons_append, htake, List.take_of_length_le hlen, atoi_digits hdigits, toUINT]
  congr 1
  omega

/-! ### The whole header -/

theorem scanSign_of_isDigit (hb : isDigit b = true) : scanSign (b :: t) = (false, b :: t) := by
  obtain ⟨-, hminus, hplus⟩ := isSpace_of_isDigit b hb
  rw [scanSign, if_neg hminus, if_neg hplus]

theorem scanInt_digits (hne : s ≠ []) (hs : ∀ b ∈ s, isDigit b = true) (ht : ∀ b ∈ t.head?, isDigit b = false) :
    scanInt (s ++ t) = some ((digitsValue 0 s : ℤ), t) := by
  cases s with
  | nil => exact absurd rfl hne
  | cons d ds =>
    have hd := hs d List.mem_cons_self
    have hspace := (isSpace_of_isDigit d hd).1
    have hdrop : ((d :: ds) ++ t).dropWhile isSpace = d :: (ds ++ t) := List.dropWhile_cons_of_neg (by simp [hspace])
    have htake : (d :: (ds ++ t)).takeWhile isDigit = d :: ds := by
      have hstop : t.takeWhile isDigit = [] := by
        cases t with
        | nil => rfl
        | cons b t => exact List.takeWhile_cons_of_neg (by simp [ht b rfl])
      rw [← List.cons_append, List.takeWhile_append_of_pos hs, hstop, List.append_nil]
    unfold scanInt
    rw [hdrop, scanSign_of_isDigit hd]
    simp only [htake]
    simp

namespace ResponseHead

theorem isLine_statusLine (h : ResponseHead) : IsLine h.statusLine := by
  obtain ⟨hmajor, hminor⟩ := h.version_ok
  obtain ⟨-, r0, rcr, rlf⟩ := h.reason_ok
  have hd : ∀ b, isDigit b = true → b ≠ 0 ∧ b ≠ CR ∧ b ≠ LF := by
    intro b hb
    refine ⟨?_, ?_, ?_⟩ <;> rintro rfl <;> exact absurd hb (by decide)
  have hmem : ∀ b ∈ h.statusLine, b ∈ ascii "HTTP/. " ∨ isDigit b = true ∨ b ∈ h.reason := by
    intro b hb
    simp only [statusLine, List.mem_append, List.mem_cons] at hb
    rcases hb with hb | rfl | rfl | rfl | rfl | hb | hb
    · exact .inl (List.mem_append_left (ascii ". ") hb)
    · exact .inr (.inl hmajor)
    · exact .inl (by decide)
    · exact .inr (.inl hminor)
    · exact .inl (by decide)
    · exact .inr (.inl (h.code_ok.2 b hb))
    · exact .inr (.inr hb)
  refine ⟨?_, ?_, ?_, ?_⟩
  · intro hnil
    exact absurd (congrArg List.length hnil) (by simp [statusLine, ascii])
  · intro hb
    rcases hmem _ hb with hb | hb | hb
    · exact absurd hb (by decide)
    · exact (hd _ hb).1 rfl
    · exact r0 hb
  · intro hb
    rcases hmem _ hb with hb | hb | hb
    · exact absurd hb (by decide)
    · exact (hd _ hb).2.1 rfl
    · exact rcr hb
  · intro hb
    rcases hmem _ hb with hb | hb | hb
    · exact absurd hb (by decide)
    · exact (hd _ hb).2.2 rfl
    · exact rlf hb

theorem isLine_of_mem (h : ResponseHead) : ∀ l ∈ h.lines, IsLine l := by
  intro l hl
  rcases List.mem_cons.mp hl with rfl | hl
  · exact h.isLine_statusLine
  · obtain ⟨f, hf, rfl⟩ := List.mem_map.mp hl
    exact (h.fields_ok f hf).isLine

theorem scanStatus_eq (h : ResponseHead) (t : Text) (ht : ∀ b ∈ t.head?, isDigit b = false) :
    scanStatus (h.statusLine ++ t) =
      some ((digitsValue 0 [h.versionMajor] : ℤ), (digitsValue 0 [h.versionMinor] : ℤ), (digitsValue 0 h.code : ℤ)) := by
  obtain ⟨hmajor, hminor⟩ := h.version_ok
  obtain ⟨hlen, hcode⟩ := h.code_ok
  have hreason : ∀ b ∈ (h.reason ++ t).head?, isDigit b = false := by
    intro b hb
    cases hr : h.reason with
    | nil =>
      rw [hr] at hb
      exact ht b hb
    | cons c r =>
      have hc := h.reason_ok.1 c (by rw [hr]; rfl)
      rw [hr] at hb
      cases hb
      rw [hc]
      decide
  obtain ⟨c, cs, hcs⟩ := List.exists_cons_of_ne_nil (show h.code ≠ [] by rintro hnil; simp [hnil] at hlen)
  have hblank : (0x20 :: (h.code ++ (h.reason ++ t))).dropWhile isSpace = h.code ++ (h.reason ++ t) := by
    rw [List.dropWhile_cons_of_pos (by decide), hcs, List.cons_append, List.dropWhile_cons_of_neg]
    have := (isSpace_of_isDigit c (hcode c (by simp [hcs]))).1
    simp [this]
  have hhttp : scanLiteral (ascii "HTTP/") (h.statusLine ++ t) =
      some ([h.versionMajor] ++ 0x2e :: h.versionMinor :: 0x20 :: (h.code ++ (h.reason ++ t))) := by
    unfold scanLiteral statusLine
    rw [List.append_assoc, if_pos (List.prefix_append _ _), List.drop_left]
    simp
  have hdot : scanLiteral (ascii ".") (0x2e :: h.versionMinor :: 0x20 :: (h.code ++ (h.reason ++ t))) =
      some ([h.versionMinor] ++ 0x20 :: (h.code ++ (h.reason ++ t))) := by
    have hpre : ascii "." <+: 0x2e :: h.versionMinor :: 0x20 :: (h.code ++ (h.reason ++ t)) := List.prefix_append [0x2e] _
    unfold scanLiteral
    rw [if_pos hpre]
    rfl
  have h1 := scanInt_digits (s := [h.versionMajor]) (t := 0x2e :: h.versionMinor :: 0x20 :: (h.code ++ (h.reason ++ t)))
    (by simp) (by simpa using hmajor) (by rintro b ⟨⟩; decide)
  have h2 := scanInt_digits (s := [h.versionMinor]) (t := 0x20 :: (h.code ++ (h.reason ++ t)))
    (by simp) (by simpa using hminor) (by rintro b ⟨⟩; decide)
  have h3 := scanInt_digits (s := h.code) (t := h.reason ++ t) (by simp [hcs]) hcode hreason
  unfold scanStatus
  simp only [Option.bind_eq_bind, hhttp, Option.bind_some, h1, hdot, h2, hblank, h3]

theorem digitsValue_lt (hs : ∀ b ∈ s, isDigit b = true) (m : ℕ) : digitsValue m s < (m + 1) * 10 ^ s.length := by
  induction s generalizing m with
  | nil => simp [digitsValue]
  | cons b s ih =>
    have hb := (isDigit_iff.mp (hs b List.mem_cons_self)).2
    have := ih (fun b hb => hs b (List.mem_cons_of_mem _ hb)) (m * 10 + (b.toNat - 48))
    rw [digitsValue_cons, List.length_cons, pow_succ]
    calc digitsValue (m * 10 + (b.toNat - 48)) s < (m * 10 + (b.toNat - 48) + 1) * 10 ^ s.length := this
      _ ≤ ((m + 1) * 10) * 10 ^ s.length := Nat.mul_le_mul_right _ (by omega)
      _ = (m + 1) * (10 ^ s.length * 10) := by ring

/-- What is found when these are the two lengths. -/
def parsed (h : ResponseHead) (contentLength : ℕ) (chunkedTransfer : Bool) : ResponseHeader where
  stateCode := digitsValue 0 h.code
  versionMajor := digitsValue 0 [h.versionMajor]
  versionMinor := digitsValue 0 [h.versionMinor]
  connectPersisent := parseConnection (fieldsOf h.fields)
  contentLength := contentLength
  chunkedTransfer := chunkedTransfer
  contentPartialStart := (parseContentRange (fieldsOf h.fields)).1
  contentPartialTotal := (parseContentRange (fieldsOf h.fields)).2
  contentType := parseContentType (fieldsOf h.fields)
  fields := fieldsOf h.fields

/-- **What is found in the lines of a header.** -/
theorem parseHeader_eq (h : ResponseHead) : parseHeader (joinLines h.lines) =
    (parseContentLength (fieldsOf h.fields)).bind fun contentLength =>
      (parseChunkedTransfer (fieldsOf h.fields)).map (h.parsed contentLength) := by
  have hcode : digitsValue 0 h.code < 1000 := by
    have := digitsValue_lt h.code_ok.2 0
    rw [h.code_ok.1] at this
    omega
  have hdigit : ∀ b, isDigit b = true → digitsValue 0 [b] < 10 := by
    intro b hb
    have := digitsValue_lt (s := [b]) (by simpa using hb) 0
    simpa using this
  have huint : ∀ m : ℕ, m < 1000 → toUINT m = m := by
    intro m hm
    unfold toUINT
    omega
  have hcons : joinLines h.lines = h.statusLine ++ CR :: LF :: joinLines (h.fields.map Field.line) := joinLines_cons
  have hdrop : (joinLines h.lines).dropWhile isNewline = joinLines h.lines := dropWhile_joinLines h.isLine_statusLine
  have hstatus := h.scanStatus_eq (CR :: LF :: joinLines (h.fields.map Field.line)) (by rintro b ⟨⟩; decide)
  have hfields : fieldsFrom (CR :: LF :: joinLines (h.fields.map Field.line)).length
      (CR :: LF :: joinLines (h.fields.map Field.line)) = fieldsOf h.fields := by
    refine fieldsFrom_eq h.fields_ok ?_
    have := length_le_joinLines (h.fields.map Field.line)
    rw [List.length_map] at this
    simp only [List.length_cons]
    omega
  unfold parseHeader
  rw [getNextLine_eq h.isLine_statusLine hdrop, hdrop, hcons]
  simp only [hstatus, hfields, huint _ hcode, huint _ ((hdigit _ h.version_ok.1).trans (by decide)),
    huint _ ((hdigit _ h.version_ok.2).trans (by decide)), if_neg (show digitsValue 0 h.code ≠ 0xffffffff by omega)]
  cases parseContentLength (fieldsOf h.fields) with
  | none => rfl
  | some contentLength => cases parseChunkedTransfer (fieldsOf h.fields) <;> rfl

end ResponseHead

end Cpcf.Inet
