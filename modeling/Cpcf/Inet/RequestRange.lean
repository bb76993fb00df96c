import Cpcf.Inet.HeaderLines
import Cpcf.Rt.NumberText

/-!
`HttpResponse::ParseRequestRange`: the range of a document that a request asks for.

The field is found with `GetHeaderField` over what `OnDataRecv` leaves of the header. Of the three forms of a range the
last one, `-n`, has a branch of its own, and its condition is the one that did not hold before; there `to` keeps what it
had when it was declared.
-/

namespace Cpcf.Inet.RequestRange

open Cpcf.Lib.Search Cpcf.Lib.Memory Cpcf.Rt Cpcf.Rt.NumberText

/-! ### The code -/

/-- `HttpResponse::GetHeaderField`. The header ends with a zero byte, where `strstr` stops. -/
def getHeaderField (remainHeader name : Text) : Text :=
  if remainHeader = [] then []
  else
    match strstr remainHeader name with
    | none => []
    | some line =>
      let line := (remainHeader.drop (line + name.length)).dropWhile fun c => schar c ≤ 0x20
      trimSpace (line.takeWhile fun c => 0x20 ≤ schar c)

/-- `Split<false, 0, 0>` of a text without a zero byte, into at most `n` fields. -/
def split (sep : UInt8) : ℕ → Text → List Text
  | 0, _ => []
  | n + 1, s =>
    let v := s.takeWhile (· ≠ sep)
    v :: if v.length = s.length then [] else split sep n (s.drop (v.length + 1))

/-- `ToNumber` into a `LONGLONG`. -/
def number (s : Text) : BitVec 64 := (NumberText.toNumber .longlong (ofBytes 0 s) ⟨0, s.length + 1⟩).1

/-- `ParseRequestRange`, where `to` is `to₀` when it is declared: the offset and the length. -/
def parseRequestRange (remainHeader : Text) (total_size to₀ : BitVec 64) : Option (BitVec 64 × BitVec 32) :=
  let header := getHeaderField remainHeader (ascii "Range: bytes=")
  if header = [] then none
  else
    match split Ch.minus 3 header with
    | [rf0, rf1] =>
      let (from_, to_) :=
        if rf0 ≠ [] then (number rf0, if rf1 ≠ [] then number rf1 else total_size - 1)
        else if rf0 ≠ [] then (total_size - number rf1, total_size - 1)
        else (0, to₀)
      if 0 ≤ from_.toInt ∧ from_.toInt ≤ to_.toInt ∧ to_.toInt < total_size.toInt ∧ (to_ - from_ + 1).toInt < 0xffffffff then
        some (from_, (to_ - from_ + 1).setWidth 32)
      else none
    | _ => none

/-! ### The field -/

section Field

variable {before after : List Text} {spec : Text}

/-- The characters of a range. -/
def IsRangeChar (b : UInt8) : Prop := isDigit b = true ∨ b = Ch.minus

theorem isRangeChar_facts {b : UInt8} (h : IsRangeChar b) : 0x20 < schar b ∧ isSkipped b = false ∧ b ≠ CR ∧ b ≠ LF := by
  have hrange : 0x2d ≤ b.toNat ∧ b.toNat ≤ 0x39 := by
    obtain h | rfl := h
    · have := isDigit_iff.mp h
      omega
    · decide
  have hlt : b < 128 := by
    rw [UInt8.lt_iff_toNat_lt, show (128 : UInt8).toNat = 128 from rfl]
    omega
  have hschar : schar b = b.toNat := schar_of_lt hlt
  refine ⟨by omega, ?_, ?_, ?_⟩
  · rw [isSkipped, hschar]
    simp only [Bool.and_eq_false_iff, decide_eq_false_iff_not]
    omega
  · rintro rfl
    exact absurd hrange.1 (by decide)
  · rintro rfl
    exact absurd hrange.1 (by decide)

theorem find_name (hbefore : ∀ l ∈ before, ¬ ascii "Range: bytes=" <:+: l) (t : Text) :
    find (ascii "Range: bytes=") (joinLines before ++ (ascii "Range: bytes=" ++ t)) = some (joinLines before).length := by
  rw [find_joinLines (by decide) (by decide) hbefore, find_of_prefix (List.prefix_append _ _)]
  rfl

/-- The field is found in its line, and its value is what is written there. -/
theorem getHeaderField_eq (hbefore : ∀ l ∈ before, IsLine l ∧ ¬ ascii "Range: bytes=" <:+: l)
    (hafter : ∀ l ∈ after, IsLine l) (hspec : ∀ b ∈ spec, IsRangeChar b) (hne : spec ≠ []) :
    getHeaderField (joinLines (before ++ (ascii "Range: bytes=" ++ spec) :: after)) (ascii "Range: bytes=") = spec := by
  have htext : joinLines (before ++ (ascii "Range: bytes=" ++ spec) :: after) =
      joinLines before ++ (ascii "Range: bytes=" ++ (spec ++ CR :: LF :: joinLines after)) := by
    rw [joinLines_append, joinLines_cons, List.append_assoc]
  have hzero : 0 ∉ joinLines (before ++ (ascii "Range: bytes=" ++ spec) :: after) := by
    refine notMem_joinLines (by decide) fun l hl => ?_
    obtain hl | hl := List.mem_append.mp hl
    · exact (hbefore l hl).1.2.1
    obtain rfl | hl := List.mem_cons.mp hl
    · intro hmem
      obtain hmem | hmem := List.mem_append.mp hmem
      · exact absurd hmem (by decide)
      · obtain hdigit | hminus := hspec 0 hmem
        · exact absurd hdigit (by decide)
        · exact absurd hminus (by decide)
    · exact (hafter l hl).2.1
  obtain ⟨b, rest, rfl⟩ := List.exists_cons_of_ne_nil hne
  have hfirst := isRangeChar_facts (hspec b List.mem_cons_self)
  have hdropped : (b :: rest ++ CR :: LF :: joinLines after).dropWhile (fun c => decide (schar c ≤ 0x20)) =
      b :: rest ++ CR :: LF :: joinLines after := by
    rw [List.cons_append, List.dropWhile_cons_of_neg]
    simpa using hfirst.1
  have htaken : (b :: rest ++ CR :: LF :: joinLines after).takeWhile (fun c => decide (0x20 ≤ schar c)) = b :: rest := by
    rw [List.takeWhile_append_of_pos]
    · rw [List.takeWhile_cons_of_neg (by decide), List.append_nil]
    · intro c hc
      have := (isRangeChar_facts (hspec c hc)).1
      simp only [decide_eq_true_eq]
      omega
  have hne' : joinLines (before ++ (ascii "Range: bytes=" ++ b :: rest) :: after) ≠ [] := by
    rw [htext]
    simp [ascii]
  rw [getHeaderField, if_neg hne', strstr, cstr_of_notMem hzero, htext, find_name fun l hl => (hbefore l hl).2]
  dsimp only
  rw [← List.append_assoc, ← List.length_append, List.drop_left, hdropped, htaken]
  exact trimSpace_eq fun c hc => (isRangeChar_facts (hspec c hc)).2.1

end Field

/-! ### The numbers -/

theorem number_digits {s : Text} (hs : ∀ b ∈ s, isDigit b = true) (hne : s ≠ []) (hlen : s.length < 2 ^ 31) :
    number s = BitVec.ofNat 64 (digitsValue 0 s) := by
  have h := toNumber_text .longlong (show Holds (ofBytes 0 s) 0 ([] ++ s) from holds_ofBytes 0 s) (.inl rfl) hs hne hlen
  rw [List.nil_append] at h
  rw [number, h]
  simp [IntType.bits]

/-- The three pieces of a range. -/
theorem split_range {a b : Text} (ha : ∀ c ∈ a, isDigit c = true) (hb : ∀ c ∈ b, isDigit c = true) :
    split Ch.minus 3 (a ++ Ch.minus :: b) = [a, b] := by
  have hpass : ∀ s : Text, (∀ c ∈ s, isDigit c = true) → ∀ c ∈ s, decide (c ≠ Ch.minus) = true := by
    intro s hs c hc
    refine decide_eq_true fun heq => ?_
    subst heq
    exact absurd (hs _ hc) (by decide)
  have hfirst : (a ++ Ch.minus :: b).takeWhile (fun c => decide (c ≠ Ch.minus)) = a := by
    rw [List.takeWhile_append_of_pos (hpass a ha), List.takeWhile_cons_of_neg (by decide), List.append_nil]
  have hsecond : b.takeWhile (fun c => decide (c ≠ Ch.minus)) = b := List.takeWhile_eq_self_iff.mpr (hpass b hb)
  have hlen : a.length ≠ (a ++ Ch.minus :: b).length := by
    rw [List.length_append, List.length_cons]
    omega
  have hdrop : (a ++ Ch.minus :: b).drop (a.length + 1) = b := by simp
  rw [split, hfirst, if_neg hlen, hdrop, split, hsecond, if_pos rfl]

/-- An answer as numbers. -/
def toNats (x : BitVec 64 × BitVec 32) : ℕ × ℕ := (x.1.toNat, x.2.toNat)

theorem toInt_ofNat {x : ℕ} (hx : x < 2 ^ 63) : (BitVec.ofNat 64 x).toInt = x := by
  have hnat : (BitVec.ofNat 64 x).toNat = x := by rw [BitVec.toNat_ofNat, Nat.mod_eq_of_lt (by omega)]
  rw [BitVec.toInt_eq_toNat_of_lt (by omega), hnat]

/-- The last test, on numbers that a `LONGLONG` has room for. -/
theorem answer_eq {x y total : ℕ} (hx : x < 2 ^ 63) (hy : y < 2 ^ 63) (ht : total < 2 ^ 63) :
    (if 0 ≤ (BitVec.ofNat 64 x).toInt ∧ (BitVec.ofNat 64 x).toInt ≤ (BitVec.ofNat 64 y).toInt ∧
        (BitVec.ofNat 64 y).toInt < (BitVec.ofNat 64 total).toInt ∧
          (BitVec.ofNat 64 y - BitVec.ofNat 64 x + 1).toInt < 0xffffffff then
      some (BitVec.ofNat 64 x, (BitVec.ofNat 64 y - BitVec.ofNat 64 x + 1).setWidth 32) else none).map toNats =
      if x ≤ y ∧ y < total ∧ y - x + 1 < 2 ^ 32 - 1 then some (x, y - x + 1) else none := by
  rw [toInt_ofNat hx, toInt_ofNat hy, toInt_ofNat ht]
  by_cases hin : x ≤ y ∧ y < total
  · obtain ⟨hxy, hyt⟩ := hin
    have hlen : BitVec.ofNat 64 y - BitVec.ofNat 64 x + 1 = BitVec.ofNat 64 (y - x + 1) := by
      have hsplit : y = (y - x) + x := by omega
      rw [BitVec.ofNat_add]
      conv_lhs => rw [hsplit, BitVec.ofNat_add, BitVec.add_sub_cancel]
      rfl
    rw [hlen, toInt_ofNat (by omega)]
    by_cases hshort : y - x + 1 < 2 ^ 32 - 1
    · rw [if_pos ⟨by omega, by omega, by omega, by omega⟩, if_pos ⟨hxy, hyt, hshort⟩, Option.map_some, toNats,
        BitVec.toNat_setWidth, BitVec.toNat_ofNat, BitVec.toNat_ofNat]
      congr 2 <;> omega
    · rw [if_neg (by omega), if_neg (by omega)]
      rfl
  · rw [if_neg (by omega), if_neg (by omega)]
    rfl

/-! ### The three forms -/

section Forms

variable {before after : List Text}

/-- The header with a range in it. -/
def withRange (before after : List Text) (spec : Text) : Text :=
  joinLines (before ++ (ascii "Range: bytes=" ++ spec) :: after)

theorem parseRequestRange_eq (hbefore : ∀ l ∈ before, IsLine l ∧ ¬ ascii "Range: bytes=" <:+: l)
    (hafter : ∀ l ∈ after, IsLine l) {a b : Text} (ha : ∀ c ∈ a, isDigit c = true) (hb : ∀ c ∈ b, isDigit c = true)
    (total_size to₀ : BitVec 64) :
    let first := if a ≠ [] then number a else 0
    let last := if a ≠ [] then if b ≠ [] then number b else total_size - 1 else to₀
    parseRequestRange (withRange before after (a ++ Ch.minus :: b)) total_size to₀ =
      if 0 ≤ first.toInt ∧ first.toInt ≤ last.toInt ∧ last.toInt < total_size.toInt ∧
        (last - first + 1).toInt < 0xffffffff then some (first, (last - first + 1).setWidth 32) else none := by
  have hchars : ∀ c ∈ a ++ Ch.minus :: b, IsRangeChar c := by
    intro c hc
    obtain hc | hc := List.mem_append.mp hc
    · exact .inl (ha c hc)
    · obtain rfl | hc := List.mem_cons.mp hc
      · exact .inr rfl
      · exact .inl (hb c hc)
  have hne : a ++ Ch.minus :: b ≠ [] := by simp
  intro first last
  rw [parseRequestRange, withRange, getHeaderField_eq hbefore hafter hchars hne, if_neg hne, split_range ha hb]
  by_cases hempty : a = []
  · simp only [first, last, hempty, ne_eq, not_true_eq_false, if_false]
  · simp only [first, last, hempty, ne_eq, not_false_eq_true, if_true]

end Forms

end Cpcf.Inet.RequestRange
