import Cpcf.Lib.Written
import Cpcf.Os.UrlMalformed
import Cpcf.Rt.StringOwned

/-!
`String::DecodedURL` on texts in which every `%` has two hexadecimal digits.

A digit is compared with `'A'` only, so a letter in lower case counts 32 more. As the first digit it is shifted left,
and what is too much leaves the byte. As the second one it sets a bit of the first, which does no harm where that bit
is set already.
-/

namespace Cpcf.Rt.StringOwned

open Cpcf.Lib Cpcf.Lib.Memory Cpcf.Rt.StringRef Cpcf.Os.Url

/-! ### The text that is left -/

/-- The text `DecodedURL` leaves of one in which every `%` has two digits. -/
def decodedText : List UInt8 → List UInt8
  | [] => []
  | b :: x :: y :: s =>
    if b = Ch.percent then ((urlDigit x <<< 4) ||| urlDigit y) :: decodedText s
    else b :: decodedText (x :: y :: s)
  | b :: s => b :: decodedText s

attribute [local simp] decodedText

/-- A second digit is in lower case only where the first one has the bit that this sets. -/
def LowerHarmless (s : List UInt8) : Prop :=
  ∀ a x y b, s = a ++ Ch.percent :: x :: y :: b → 0x61 ≤ y → ∀ v ∈ hexValue x, v.testBit 1 = true

section

variable {b x y : UInt8} {s : List UInt8}

theorem decodedText_cons (hb : b ≠ Ch.percent) (s : List UInt8) : decodedText (b :: s) = b :: decodedText s := by
  rcases s with _ | ⟨x, _ | ⟨y, s⟩⟩
  · rfl
  · rfl
  · rw [decodedText, if_neg hb]

theorem decodedText_triple (x y : UInt8) (s : List UInt8) :
    decodedText (Ch.percent :: x :: y :: s) = ((urlDigit x <<< 4) ||| urlDigit y) :: decodedText s := by
  rw [decodedText, if_pos rfl]

/-! ### Digits -/

theorem urlDigit_first : ∀ x : UInt8, ∀ v ∈ hexValue x, v < 16 ∧ urlDigit x <<< 4 = UInt8.ofNat (16 * v) := by
  set_option maxRecDepth 20000 in decide

theorem urlDigit_second : ∀ y : UInt8, ∀ v ∈ hexValue y,
    urlDigit y = if 0x61 ≤ y then UInt8.ofNat v ||| 0x20 else UInt8.ofNat v := by
  set_option maxRecDepth 20000 in decide

theorem join_values : ∀ h l : Fin 16,
    UInt8.ofNat (16 * h.val) ||| UInt8.ofNat l.val = UInt8.ofNat (16 * h.val + l.val) ∧
    (UInt8.ofNat (16 * h.val) ||| (UInt8.ofNat l.val ||| 0x20) = UInt8.ofNat (16 * h.val + l.val) ↔
      h.val.testBit 1 = true) := by
  decide

/-- A triple is decoded as it should be when a second digit in lower case is harmless. -/
theorem triple_eq_iff {h l : ℕ} (hx : hexValue x = some h) (hy : hexValue y = some l) :
    (urlDigit x <<< 4) ||| urlDigit y = UInt8.ofNat (16 * h + l) ↔ (0x61 ≤ y → h.testBit 1 = true) := by
  obtain ⟨hh, hfirst⟩ := urlDigit_first x h hx
  obtain ⟨hl, -⟩ := urlDigit_first y l hy
  obtain ⟨hupper, hlower⟩ := join_values ⟨h, hh⟩ ⟨l, hl⟩
  rw [hfirst, urlDigit_second y l hy]
  by_cases hcase : 0x61 ≤ y
  · rw [if_pos hcase, hlower]
    exact ⟨fun h _ => h, fun h => h hcase⟩
  · rw [if_neg hcase]
    exact ⟨fun _ h => absurd h hcase, fun _ => hupper⟩

/-! ### Texts -/

theorem lowerHarmless_cons (hb : b ≠ Ch.percent) : LowerHarmless (b :: s) ↔ LowerHarmless s := by
  constructor
  · rintro h a x y c rfl
    exact h (b :: a) x y c rfl
  · intro h a x y c heq
    cases a with
    | nil => exact absurd (List.cons.inj heq).1 hb
    | cons d a => exact h a x y c (List.cons.inj heq).2

theorem ne_percent_of_hexValue (hx : (hexValue x).isSome) : x ≠ Ch.percent := by
  rintro rfl
  rw [percent_not_digit] at hx
  cases hx

theorem lowerHarmless_triple {h : ℕ} (hx : hexValue x = some h) (hy : (hexValue y).isSome) :
    LowerHarmless (Ch.percent :: x :: y :: s) ↔ (0x61 ≤ y → h.testBit 1 = true) ∧ LowerHarmless s := by
  have hx' : x ≠ Ch.percent := ne_percent_of_hexValue (by rw [hx]; rfl)
  rw [← lowerHarmless_cons (s := s) (ne_percent_of_hexValue hy), ← lowerHarmless_cons (s := y :: s) hx']
  constructor
  · intro hall
    refine ⟨fun hcase => hall [] x y s rfl hcase h hx, ?_⟩
    intro a c d e heq
    exact hall (Ch.percent :: a) c d e (congrArg _ heq)
  · rintro ⟨h1, h2⟩ a c d e heq
    cases a with
    | nil =>
      obtain ⟨rfl, hrest⟩ := List.cons.inj (List.cons.inj heq).2
      obtain ⟨rfl, -⟩ := List.cons.inj hrest
      intro hcase v hv
      rw [hx] at hv
      obtain rfl := Option.some.inj hv
      exact h1 hcase
    | cons f a => exact h2 a c d e (List.cons.inj heq).2

/-- The text that is left is the standard decoding when every second digit in lower case is harmless. -/
theorem decodedText_eq_iff (hw : WellFormed s) : decodedText s = percentDecode s ↔ LowerHarmless s := by
  fun_induction decodedText s with
  | case1 => simp [percentDecode, LowerHarmless]
  | case2 x y s ih =>
    obtain ⟨_, _, _, heq, hx, hy⟩ := hw.triple
    obtain ⟨rfl, hrest⟩ := List.cons.inj heq
    obtain ⟨rfl, rfl⟩ := List.cons.inj hrest
    obtain ⟨h, hh⟩ := Option.isSome_iff_exists.mp hx
    obtain ⟨l, hl⟩ := Option.isSome_iff_exists.mp hy
    rw [percentDecode_triple hh hl, List.cons_eq_cons, triple_eq_iff hh hl,
      ih (WellFormed.of_append (a := [Ch.percent, x, y]) hw), lowerHarmless_triple hh hy]
  | case3 b x y s hb ih =>
    rw [percentDecode_cons hb, List.cons_eq_cons, ih (WellFormed.of_append (a := [b]) hw), lowerHarmless_cons hb]
    exact and_iff_right rfl
  | case4 b s hs ih =>
    have hb : b ≠ Ch.percent := by
      rintro rfl
      obtain ⟨x, y, t, rfl, -, -⟩ := hw.triple
      exact hs x y t rfl
    rw [percentDecode_cons hb, List.cons_eq_cons, ih (WellFormed.of_append (a := [b]) hw), lowerHarmless_cons hb]
    exact and_iff_right rfl

end

/-! ### The loop -/

/-- The loop writes the text to the left of what it has still to read. -/
theorem decodedURLLoop_written {p n k i out : ℕ} {m : Mem} {s : List UInt8} (hw : WellFormed s)
    (hs : Holds m (p + i) s) (hn : i + s.length = n) (hk : s.length ≤ k) (hout : out ≤ p + i) :
    Written m out (decodedText s) (decodedURLLoop p n k m i out) := by
  induction k generalizing i out m s with
  | zero =>
    obtain rfl := List.eq_nil_of_length_eq_zero (show s.length = 0 by omega)
    exact Written.nil m out
  | succ k ih =>
    cases s with
    | nil =>
      rw [List.length_nil] at hn
      rw [decodedURLLoop, if_neg (by omega)]
      exact Written.nil m out
    | cons b s =>
      obtain ⟨hb, hrest⟩ := hs
      rw [List.length_cons] at hn hk
      rw [decodedURLLoop, if_pos (by omega), hb]
      by_cases hper : b = Ch.percent
      · subst hper
        obtain ⟨x, y, t, rfl, -, -⟩ := hw.triple
        obtain ⟨hx, hy, ht⟩ := hrest
        have hy' : m (p + i + 2) = y := hy
        rw [List.length_cons, List.length_cons] at hn hk
        rw [if_neg (not_not.mpr rfl), hx, hy', decodedText_triple]
        refine (ih (WellFormed.of_append (a := [Ch.percent, x, y]) hw) ?_ (by omega) (by omega) (by omega)).cons
        exact Holds.poke (m := m) ht (by omega)
      · rw [if_pos hper, decodedText_cons hper]
        refine (ih (WellFormed.of_append (a := [b]) hw) ?_ (by omega) (by omega) (by omega)).cons
        exact Holds.poke (m := m) hrest (by omega)

/-- The text of a string after `DecodedURL`. -/
theorem decodedURL_text {h : Heap} {s : Str} (hp : s.p ≠ 0) (hw : WellFormed (s.text h.mem)) :
    ∃ t, decodedURL h s = some t ∧ t.2.text t.1.mem = decodedText (s.text h.mem) := by
  have hlen : (s.text h.mem).length = s.getLength := length_read _ _ _
  have hwritten := decodedURLLoop_written (p := s.p) (n := s.getLength) (k := s.getLength) (i := 0) hw
    (holds_read _ _ _) (by omega) hlen.le le_rfl
  refine ⟨_, by rw [decodedURL, if_neg hp], ?_⟩
  exact hwritten.read_eq 0

/-! ### The encoder -/

theorem encodeByte_digits : ∀ b : UInt8, hexValue (binaryHigh b) = some (b.toNat / 16) ∧
    hexValue (binaryLow b) = some (b.toNat % 16) ∧ UInt8.ofNat (16 * (b.toNat / 16) + b.toNat % 16) = b ∧
      binaryLow b < 0x61 := by
  set_option maxRecDepth 20000 in decide

/-- A text as the encoder writes it: it is well formed, its letters are in upper case, and it stands for the text that
was encoded. -/
theorem urlEncode_standard (u : List UInt8) :
    WellFormed (urlEncode u) ∧ LowerHarmless (urlEncode u) ∧ percentDecode (urlEncode u) = u := by
  induction u with
  | nil =>
    refine ⟨?_, ?_, rfl⟩
    · intro a b h
      simp [urlEncode] at h
    · intro a x y b h
      simp [urlEncode] at h
  | cons b u ih =>
    obtain ⟨hw, hlow, hdec⟩ := ih
    have hcons : urlEncode (b :: u) = encodeByte b ++ urlEncode u := by simp [urlEncode]
    rw [hcons, encodeByte]
    split
    · rename_i hplain
      have hb := (percent_reserved b hplain).1
      refine ⟨?_, (lowerHarmless_cons hb).mpr hlow, ?_⟩
      · intro a c heq
        cases a with
        | nil => exact absurd (List.cons.inj heq).1 hb
        | cons d a => exact hw a c (List.cons.inj heq).2
      · exact (percentDecode_cons hb _).trans (congrArg _ hdec)
    · obtain ⟨hhigh, hlow', hjoin, hupper⟩ := encodeByte_digits b
      refine ⟨?_, (lowerHarmless_triple hhigh (by rw [hlow']; rfl)).mpr ⟨fun hcase => ?_, hlow⟩, ?_⟩
      · intro a c heq
        rcases a with _ | ⟨d, _ | ⟨e, _ | ⟨f, a⟩⟩⟩
        · exact ⟨_, _, _, (List.cons.inj heq).2.symm, by rw [hhigh]; rfl, by rw [hlow']; rfl⟩
        · refine absurd (List.cons.inj (List.cons.inj heq).2).1 (ne_percent_of_hexValue ?_)
          rw [hhigh]
          rfl
        · refine absurd (List.cons.inj (List.cons.inj (List.cons.inj heq).2).2).1 (ne_percent_of_hexValue ?_)
          rw [hlow']
          rfl
        · exact hw a c (List.cons.inj (List.cons.inj (List.cons.inj heq).2).2).2
      · exact absurd hupper (UInt8.not_lt.mpr hcase)
      · exact (percentDecode_triple hhigh hlow' _).trans (by rw [hjoin]; exact congrArg _ hdec)

/-! ### `DecodedURL` -/

end Cpcf.Rt.StringOwned
