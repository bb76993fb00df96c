import Mathlib.Data.FinEnum
import Cpcf.Lib.Memory
import Cpcf.Rt.Chars

/-!
`UrlEncode` and `UrlDecode` of `os/kernal_encode.cpp`, with the two hexadecimal digits of
`rt::tos::Binary`.

The decoder subtracts where it should assign when the first digit of a triple is a letter
(`c1 -= c1-'A' + 10`), so such a digit always counts as seven. `misread` is the byte that comes
out, decoding an encoded text applies it to every byte, and the round trip is the identity exactly
on the texts whose bytes are all below `0xa0`.
-/

namespace Cpcf.Os.Url

open Cpcf.Rt Cpcf.Lib.Memory

/-! ### The encoder -/

/-- The characters `UrlEncode` copies. -/
def isUnreserved (b : UInt8) : Bool :=
  let c := schar b
  (0x61 ≤ c && c ≤ 0x7a) || (0x41 ≤ c && c ≤ 0x5a) || (0x30 ≤ c && c ≤ 0x39) ||
    c == 0x2d || c == 0x5f || c == 0x2e || c == 0x7e

/-- `rt::tos::Binary<> code(&v, 1)`: `code[0]`. -/
def binaryHigh (v : UInt8) : UInt8 := 
  if 0xa0 ≤ v then (0x41 : UInt8) + ((v - 0xa0) >>> 4) else (0x30 : UInt8) + (v >>> 4)

/-- `rt::tos::Binary<> code(&v, 1)`: `code[1]`. -/
def binaryLow (v : UInt8) : UInt8 :=
  let v := v &&& 0xf
  if 0xa ≤ v then 0x41 + (v - 0xa) else 0x30 + v

/-- What one turn of the loop of `UrlEncode` writes. -/
def encodeByte (b : UInt8) : List UInt8 :=
  if isUnreserved b then [b] else [Ch.percent, binaryHigh b, binaryLow b]

/-- `UrlEncode`: the text written to `encoded_url`. -/
def urlEncode (url : List UInt8) : List UInt8 := url.flatMap encodeByte

/-! ### The decoder -/

/-- The digit value `c1` of the first character, as the decoder computes it. -/
def digit1 (b : UInt8) : Option ℤ :=
  let c1 := schar b
  if 0x30 ≤ c1 ∧ c1 ≤ 0x39 then some (c1 - 0x30)
  else if 0x41 ≤ c1 ∧ c1 ≤ 0x46 then some (c1 - (c1 - 0x41 + 10))
  else if 0x61 ≤ c1 ∧ c1 ≤ 0x66 then some (c1 - (c1 - 0x61 + 10))
  else none

/-- The digit value `c2` of the second character. -/
def digit2 (b : UInt8) : Option ℤ :=
  let c2 := schar b
  if 0x30 ≤ c2 ∧ c2 ≤ 0x39 then some (c2 - 0x30)
  else if 0x41 ≤ c2 ∧ c2 ≤ 0x46 then some (c2 - 0x41 + 10)
  else if 0x61 ≤ c2 ∧ c2 ≤ 0x66 then some (c2 - 0x61 + 10)
  else none

/-- `(c1<<4) | c2` stored into a `char`; `none` where the loop breaks. -/
def decodeTriple (b1 b2 : UInt8) : Option UInt8 := do
  let c1 ← digit1 b1
  let c2 ← digit2 b2
  some (UInt8.ofNat ((c1.toNat <<< 4) ||| c2.toNat))

/-- The loop of `UrlDecode` from index `i` on: the text it still writes. The first argument bounds
the number of turns. -/
def decodeLoop (m : Mem) (encoded_url encoded_url_len : ℕ) : ℕ → ℕ → List UInt8
  | 0, _ => []
  | n + 1, i =>
    if i < encoded_url_len then
      if m (encoded_url + i) = Ch.percent then
        match decodeTriple (m (encoded_url + i + 1)) (m (encoded_url + i + 2)) with
        | none => []
        | some b => b :: decodeLoop m encoded_url encoded_url_len n (i + 3)
      else m (encoded_url + i) :: decodeLoop m encoded_url encoded_url_len n (i + 1)
    else []

/-- `UrlDecode`: the text written to `url`. -/
def urlDecode (m : Mem) (encoded_url encoded_url_len : ℕ) : List UInt8 :=
  decodeLoop m encoded_url encoded_url_len encoded_url_len 0

/-! ### The shape of an encoded text -/

/-- A hexadecimal digit as the encoder writes it. -/
def isHexDigit (b : UInt8) : Bool := (0x30 ≤ b && b ≤ 0x39) || (0x41 ≤ b && b ≤ 0x46)

/-- A text of unreserved characters and `%XX` triples. -/
inductive PercentEncoded : List UInt8 → Prop
  | nil : PercentEncoded []
  | plain {b : UInt8} {s : List UInt8} : isUnreserved b = true → PercentEncoded s → PercentEncoded (b :: s)
  | triple {x y : UInt8} {s : List UInt8} : isHexDigit x = true → isHexDigit y = true → PercentEncoded s →
      PercentEncoded (Ch.percent :: x :: y :: s)

theorem isHexDigit_binary : ∀ b : UInt8, isHexDigit (binaryHigh b) = true ∧ isHexDigit (binaryLow b) = true := by
  set_option maxRecDepth 20000 in decide

theorem percentEncoded_urlEncode (s : List UInt8) : PercentEncoded (urlEncode s) := by
  induction s with
  | nil => exact .nil
  | cons b s ih =>
    unfold urlEncode at ih ⊢
    rw [List.flatMap_cons]
    unfold encodeByte
    split
    · rename_i h
      exact .plain h ih
    · exact .triple (isHexDigit_binary b).1 (isHexDigit_binary b).2 ih

/-! ### What comes back -/

/-- The byte that comes back for `b`: a high digit that is a letter is read as seven. -/
def misread (b : UInt8) : UInt8 := if 0xa0 ≤ b then 0x70 ||| (b &&& 0xf) else b

theorem percent_reserved : ∀ b : UInt8, isUnreserved b = true → b ≠ Ch.percent ∧ misread b = b := by
  set_option maxRecDepth 20000 in decide

theorem decodeTriple_binary : ∀ b : UInt8, decodeTriple (binaryHigh b) (binaryLow b) = some (misread b) := by
  set_option maxRecDepth 20000 in decide

theorem misread_eq_iff : ∀ b : UInt8, misread b = b ↔ b < 0xa0 := by set_option maxRecDepth 20000 in decide

/-- One turn of the decoder per byte of the original text. -/
theorem decodeLoop_urlEncode {m : Mem} {p len : ℕ} (s : List UInt8) {i n : ℕ}
    (h : Holds m (p + i) (urlEncode s)) (hlen : i + (urlEncode s).length = len)
    (hn : (urlEncode s).length ≤ n) : decodeLoop m p len n i = s.map misread := by
  induction s generalizing i n with
  | nil =>
    simp only [urlEncode, List.flatMap_nil, List.length_nil, add_zero] at hlen
    subst hlen
    cases n <;> simp [decodeLoop]
  | cons b s ih =>
    have hcons : urlEncode (b :: s) = encodeByte b ++ urlEncode s := by simp [urlEncode]
    rw [hcons] at h hlen hn
    obtain ⟨hb, hs⟩ := holds_append.mp h
    rw [List.length_append] at hlen hn
    unfold encodeByte at hb hs hlen hn
    by_cases hu : isUnreserved b = true
    · simp only [hu, if_true, holds_cons, List.length_cons, List.length_nil] at hb hs hlen hn
      obtain ⟨hne, hm⟩ := percent_reserved b hu
      obtain ⟨n, rfl⟩ : ∃ k, n = k + 1 := ⟨n - 1, by omega⟩
      rw [decodeLoop, if_pos (by omega), hb.1, if_neg hne, ih hs (by omega) (by omega), List.map_cons, hm]
    · simp only [hu, holds_cons, List.length_cons, List.length_nil, Bool.false_eq_true, if_false] at hb hs hlen hn
      obtain ⟨h0, h1, h2, -⟩ := hb
      obtain ⟨n, rfl⟩ : ∃ k, n = k + 1 := ⟨n - 1, by omega⟩
      rw [decodeLoop, if_pos (by omega), h0, if_pos rfl, h1, show p + i + 2 = p + i + 1 + 1 by omega, h2,
        decodeTriple_binary, ih hs (by omega) (by omega), List.map_cons]

/-- Decoding an encoded text misreads every byte from `0xa0` on and no other. -/
theorem urlDecode_urlEncode {m : Mem} {p : ℕ} (s : List UInt8) (h : Holds m p (urlEncode s)) :
    urlDecode m p (urlEncode s).length = s.map misread :=
  decodeLoop_urlEncode s h (by simp) le_rfl

end Cpcf.Os.Url
