import Cpcf.Lib.BitPack
import Cpcf.Rt.Chars

/-!
`Base64EncodeLength`, `Base64Encode`, `Base64DecodeLength` and `Base64Decode` of
`os/kernal_encode.cpp`, and their round trip.

The encoder works on groups of three bytes. The decoder takes groups of four characters only while
more than four are left: the last group always goes through a separate tail that reads the padding
off its two last characters, and the length predictor reads the same two characters.
-/

namespace Cpcf.Os.Base64

open Cpcf.Rt Cpcf.Lib.BitPack

/-! ### The tables -/

/-- `_details::_isb64`. -/
def isb64 (c : UInt8) : Bool :=
  (0x61 ≤ schar c && schar c ≤ 0x7a) || (0x41 ≤ schar c && schar c ≤ 0x5a) ||
    (0x30 ≤ schar c && schar c ≤ 0x39) || schar c == 0x2b || schar c == 0x2f

/-- The encoder's `table`. -/
def table : List UInt8 :=
  ['A', 'B', 'C', 'D', 'E', 'F', 'G', 'H', 'I', 'J', 'K', 'L', 'M',
   'N', 'O', 'P', 'Q', 'R', 'S', 'T', 'U', 'V', 'W', 'X', 'Y', 'Z',
   'a', 'b', 'c', 'd', 'e', 'f', 'g', 'h', 'i', 'j', 'k', 'l', 'm',
   'n', 'o', 'p', 'q', 'r', 's', 't', 'u', 'v', 'w', 'x', 'y', 'z',
   '0', '1', '2', '3', '4', '5', '6', '7', '8', '9', '+', '/'].map Char.toUInt8

/-- `table[i]`. -/
def enc (i : ℕ) : UInt8 := table.getD i 0

/-- The decoder's `rev_table`, based on `0x2b`. -/
def revTable : List ℤ :=
  [62, -1, -1, -1,
   63,
   52, 53, 54, 55, 56, 57, 58, 59, 60, 61,
   -1, -1, -1, -1, -1, -1, -1,
   0, 1, 2, 3, 4, 5, 6, 7, 8, 9,
   10, 11, 12, 13, 14, 15, 16, 17, 18, 19,
   20, 21, 22, 23, 24, 25,
   -1, -1, -1, -1, -1, -1,
   26, 27, 28, 29, 30, 31, 32, 33, 34, 35,
   36, 37, 38, 39, 40, 41, 42, 43, 44, 45, 46, 47, 48, 49, 50, 51]

/-- `rev_table[c - 0x2b]`. -/
def rev (c : UInt8) : ℤ := revTable.getD (schar c - 0x2b).toNat (-1)

/-- `rt::IsInRange_CC<int>(c, 0x2b, 0x7a) && (a = rev_table[c - 0x2b]) >= 0`: the value `a` of a
character the check lets through. -/
def revChecked (c : UInt8) : Option ℕ :=
  if 0x2b ≤ schar c ∧ schar c ≤ 0x7a ∧ 0 ≤ rev c then some (rev c).toNat else none

/-! ### The encoder -/

/-- `Base64EncodeLength`. -/
def base64EncodeLength (len : ℕ) : ℕ := (len + 2) / 3 * 4

/-- `Base64Encode`: the characters written to `pBase64Out`. -/
def base64Encode : List UInt8 → List UInt8
  | p0 :: p1 :: p2 :: p =>
    enc (p0.toNat >>> 2) ::
    enc (((p0.toNat &&& 0x3) <<< 4) ||| (p1.toNat >>> 4)) ::
    enc (((p1.toNat &&& 0xf) <<< 2) ||| (p2.toNat >>> 6)) ::
    enc (p2.toNat &&& 0x3f) :: base64Encode p
  | [p0] =>
    [enc (p0.toNat >>> 2), enc ((p0.toNat &&& 0x3) <<< 4), Ch.equals, Ch.equals]
  | [p0, p1] =>
    [enc (p0.toNat >>> 2), enc (((p0.toNat &&& 0x3) <<< 4) ||| (p1.toNat >>> 4)),
      enc ((p1.toNat &&& 0xf) <<< 2), Ch.equals]
  | [] => []

attribute [local simp] base64Encode

/-! ### The decoder -/

/-- `Base64DecodeLength`. -/
def base64DecodeLength (pBase64 : List UInt8) : ℕ :=
  let str_len := pBase64.length
  if str_len ≤ 3 then 0
  else
    let fulllen : ℤ := ((str_len + 3) / 4 * 3 : ℕ)
    let miss : ℤ := ((4 - (str_len &&& 3)) &&& 3 : ℕ)
    let b2 := isb64 (pBase64.getD (str_len - 2) 0)
    let b1 := isb64 (pBase64.getD (str_len - 1) 0)
    if b2 && b1 && decide (miss ≤ 2) then (max 0 (fulllen - miss)).toNat
    else if b2 && !b1 then (max 0 (fulllen - (miss + 1))).toNat
    else if !b2 && !b1 && decide (miss = 0) then (max 0 (fulllen - 2)).toNat
    else fulllen.toNat

/-- What `Base64Decode` leaves behind: its return value, the bytes it wrote to `pDataOut`, and
`*pDataOutLen`. -/
structure Decoded where
  ret : Bool
  dataOut : List UInt8
  dataOutLen : ℕ
  deriving DecidableEq, Repr

/-- `(a[0]<<2) | (a[1]>>4)` as a byte. -/
def out0 (a0 a1 : ℕ) : UInt8 := UInt8.ofNat ((a0 <<< 2) ||| (a1 >>> 4))

/-- `((a[1]&0xf)<<4) | (a[2]>>2)` as a byte. -/
def out1 (a1 a2 : ℕ) : UInt8 := UInt8.ofNat (((a1 &&& 0xf) <<< 4) ||| (a2 >>> 2))

/-- `((a[2]&0x3)<<6) | a[3]` as a byte. -/
def out2 (a2 a3 : ℕ) : UInt8 := UInt8.ofNat (((a2 &&& 0x3) <<< 6) ||| a3)

/-- The loop `for(;str_len>4;...)`: the bytes it writes and the text left when it ends or breaks. -/
def decodeGroups : List UInt8 → List UInt8 × List UInt8
  | c0 :: c1 :: c2 :: c3 :: c4 :: s =>
    match revChecked c0, revChecked c1, revChecked c2, revChecked c3 with
    | some a0, some a1, some a2, some a3 =>
      let r := decodeGroups (c4 :: s)
      (out0 a0 a1 :: out1 a1 a2 :: out2 a2 a3 :: r.1, r.2)
    | _, _, _, _ => ([], c0 :: c1 :: c2 :: c3 :: c4 :: s)
  | s => ([], s)

attribute [local simp] decodeGroups

/-- The part after the loop: `p` holds the bytes written so far, `s` is the text left. -/
def decodeTail (p s : List UInt8) : Decoded :=
  let str_len := s.length
  if str_len = 0 then ⟨true, p, p.length⟩
  else
    let miss := (4 - (str_len &&& 3)) &&& 3
    let last4char := s.take (4 - miss) ++ List.replicate miss Ch.equals
    match revChecked (last4char.getD 0 0), revChecked (last4char.getD 1 0) with
    | some a0, some a1 =>
      let c2 := last4char.getD 2 0
      let c3 := last4char.getD 3 0
      let a2 := (rev c2).toNat
      let a3 := (rev c3).toNat
      if isb64 c2 && isb64 c3 then
        ⟨decide (str_len ≤ 4), p ++ [out0 a0 a1, out1 a1 a2, out2 a2 a3], p.length + 3⟩
      else if isb64 c2 && !isb64 c3 then
        ⟨decide (str_len ≤ 4), p ++ [out0 a0 a1, out1 a1 a2], p.length + 2⟩
      else if !isb64 c2 && !isb64 c3 then
        ⟨decide (str_len ≤ 4), p ++ [out0 a0 a1], p.length + 1⟩
      else ⟨false, p, p.length⟩
    | _, _ => ⟨false, p, p.length⟩

/-- `Base64Decode`. -/
def base64Decode (pBase64 : List UInt8) : Decoded :=
  let r := decodeGroups pBase64
  decodeTail r.1 r.2

/-! ### The tables are inverse -/

theorem table_inverse : ∀ i : Fin 64,
    isb64 (enc i) = true ∧ revChecked (enc i) = some i.val ∧ rev (enc i) = i.val := by
  set_option maxRecDepth 20000 in decide

variable {i : ℕ}

theorem isb64_enc (h : i < 64) : isb64 (enc i) = true := (table_inverse ⟨i, h⟩).1

theorem revChecked_enc (h : i < 64) : revChecked (enc i) = some i := (table_inverse ⟨i, h⟩).2.1

theorem rev_enc (h : i < 64) : (rev (enc i)).toNat = i := by
  rw [(table_inverse ⟨i, h⟩).2.2]
  simp

theorem isb64_equals : isb64 Ch.equals = false := by decide

/-! ### The bits of a group -/

section Bits

variable (a b c : UInt8)

/-- The four sextets of a group as arithmetic. -/
theorem sextet0 : a.toNat >>> 2 = a.toNat / 4 := by simp [Nat.shiftRight_eq_div_pow]

theorem sextet1 : ((a.toNat &&& 0x3) <<< 4) ||| (b.toNat >>> 4) = a.toNat % 4 * 16 + b.toNat / 16 := by
  have hb : b.toNat < 256 := b.toNat_lt
  have h1 : b.toNat >>> 4 = b.toNat / 16 := by simp [Nat.shiftRight_eq_div_pow]
  rw [h1, shiftLeft_or _ (by omega), and_mask (k := 2) _ rfl]
  norm_num

theorem sextet1_last : (a.toNat &&& 0x3) <<< 4 = a.toNat % 4 * 16 := by
  rw [Nat.shiftLeft_eq, and_mask (k := 2) _ rfl]
  norm_num

theorem sextet2 : ((b.toNat &&& 0xf) <<< 2) ||| (c.toNat >>> 6) = b.toNat % 16 * 4 + c.toNat / 64 := by
  have hc : c.toNat < 256 := c.toNat_lt
  have h1 : c.toNat >>> 6 = c.toNat / 64 := by simp [Nat.shiftRight_eq_div_pow]
  rw [h1, shiftLeft_or _ (by omega), and_mask (k := 4) _ rfl]
  norm_num

theorem sextet2_last : (b.toNat &&& 0xf) <<< 2 = b.toNat % 16 * 4 := by
  rw [Nat.shiftLeft_eq, and_mask (k := 4) _ rfl]
  norm_num

theorem sextet3 : c.toNat &&& 0x3f = c.toNat % 64 := and_mask (k := 6) _ rfl

end Bits

theorem out0_eq {a0 a1 : ℕ} {b : UInt8} (h1 : a1 < 64) (h : a0 * 4 + a1 / 16 = b.toNat) :
    out0 a0 a1 = b := by
  have e : a1 >>> 4 = a1 / 16 := by simp [Nat.shiftRight_eq_div_pow]
  apply ofNat_eq_of_mod
  rw [e, shiftLeft_or _ (by omega)]
  have := b.toNat_lt
  omega

theorem out1_eq {a1 a2 : ℕ} {b : UInt8} (h2 : a2 < 64) (h : a1 % 16 * 16 + a2 / 4 = b.toNat) :
    out1 a1 a2 = b := by
  have e : a2 >>> 2 = a2 / 4 := by simp [Nat.shiftRight_eq_div_pow]
  apply ofNat_eq_of_mod
  rw [e, shiftLeft_or _ (by omega), and_mask (k := 4) _ rfl]
  have := b.toNat_lt
  omega

theorem out2_eq {a2 a3 : ℕ} {b : UInt8} (h3 : a3 < 64) (h : a2 % 4 * 64 + a3 = b.toNat) :
    out2 a2 a3 = b := by
  apply ofNat_eq_of_mod
  rw [shiftLeft_or _ (by omega), and_mask (k := 2) _ rfl]
  have := b.toNat_lt
  omega

/-! ### Round trip -/

theorem length_base64Encode (d : List UInt8) :
    (base64Encode d).length = base64EncodeLength d.length := by
  unfold base64EncodeLength
  induction d using base64Encode.induct with
  | case1 p0 p1 p2 p ih =>
    simp only [base64Encode, List.length_cons, ih]
    omega
  | case2 p0 => simp
  | case3 p0 p1 => simp
  | case4 => simp

/-- The four characters of a full group, as arithmetic. -/
theorem base64Encode_group (a b c : UInt8) (d : List UInt8) :
    base64Encode (a :: b :: c :: d) = enc (a.toNat / 4) :: enc (a.toNat % 4 * 16 + b.toNat / 16) ::
      enc (b.toNat % 16 * 4 + c.toNat / 64) :: enc (c.toNat % 64) :: base64Encode d := by
  simp only [base64Encode, sextet0, sextet1, sextet2, sextet3]

/-- One turn of the decoder's loop undoes one turn of the encoder's. -/
theorem decodeGroups_group (a b c x : UInt8) (s : List UInt8) :
    decodeGroups (enc (a.toNat / 4) :: enc (a.toNat % 4 * 16 + b.toNat / 16) ::
      enc (b.toNat % 16 * 4 + c.toNat / 64) :: enc (c.toNat % 64) :: x :: s) =
    (a :: b :: c :: (decodeGroups (x :: s)).1, (decodeGroups (x :: s)).2) := by
  have ha : a.toNat < 256 := a.toNat_lt
  have hb : b.toNat < 256 := b.toNat_lt
  have hc : c.toNat < 256 := c.toNat_lt
  rw [decodeGroups, revChecked_enc (by omega), revChecked_enc (by omega), revChecked_enc (by omega),
    revChecked_enc (by omega)]
  simp only [Prod.mk.injEq, List.cons.injEq, and_true]
  exact ⟨out0_eq (by omega) (by omega), out1_eq (by omega) (by omega), out2_eq (by omega) (by omega)⟩

/-- The loop decodes all groups but the last, whose text is left for the tail. -/
theorem decodeGroups_base64Encode (d : List UInt8) :
    ∃ q t, d = q ++ t ∧ t.length ≤ 3 ∧ decodeGroups (base64Encode d) = (q, base64Encode t) := by
  induction d using base64Encode.induct with
  | case1 a b c d ih =>
    rcases d with _ | ⟨x, d⟩
    · exact ⟨[], [a, b, c], by simp, by simp, by simp⟩
    · obtain ⟨q, t, hd, ht, hg⟩ := ih
      -- the rest is not empty, so neither is its text: the loop takes another turn
      obtain ⟨y, s, hs⟩ : ∃ y s, base64Encode (x :: d) = y :: s := by
        rcases d with _ | ⟨x1, _ | ⟨x2, d⟩⟩ <;> exact ⟨_, _, rfl⟩
      refine ⟨a :: b :: c :: q, t, by simp [hd], ht, ?_⟩
      rw [base64Encode_group, hs, decodeGroups_group, ← hs, hg]
  | case2 a => exact ⟨[], [a], by simp, by simp, by simp⟩
  | case3 a b => exact ⟨[], [a, b], by simp, by simp, by simp⟩
  | case4 => exact ⟨[], [], by simp, by simp, by simp⟩

/-- The tail decodes the last group, whatever its length. -/
theorem decodeTail_base64Encode (q t : List UInt8) (ht : t.length ≤ 3) :
    decodeTail q (base64Encode t) = ⟨true, q ++ t, (q ++ t).length⟩ := by
  rcases t with _ | ⟨a, _ | ⟨b, _ | ⟨c, _ | ⟨x, t⟩⟩⟩⟩
  · simp [decodeTail]
  · have ha : a.toNat < 256 := a.toNat_lt
    have h0 : out0 (a.toNat / 4) (a.toNat % 4 * 16) = a := out0_eq (by omega) (by omega)
    simp [decodeTail, sextet0, sextet1_last, -Ch.equals,
      revChecked_enc (show a.toNat / 4 < 64 by omega),
      revChecked_enc (show a.toNat % 4 * 16 < 64 by omega), isb64_equals, h0]
  · have ha : a.toNat < 256 := a.toNat_lt
    have hb : b.toNat < 256 := b.toNat_lt
    have h0 : out0 (a.toNat / 4) (a.toNat % 4 * 16 + b.toNat / 16) = a := out0_eq (by omega) (by omega)
    have h1 : out1 (a.toNat % 4 * 16 + b.toNat / 16) (b.toNat % 16 * 4) = b :=
      out1_eq (by omega) (by omega)
    simp [decodeTail, sextet0, sextet1, sextet2_last, -Ch.equals,
      revChecked_enc (show a.toNat / 4 < 64 by omega),
      revChecked_enc (show a.toNat % 4 * 16 + b.toNat / 16 < 64 by omega),
      isb64_enc (show b.toNat % 16 * 4 < 64 by omega),
      rev_enc (show b.toNat % 16 * 4 < 64 by omega), isb64_equals, h0, h1]
  · have ha : a.toNat < 256 := a.toNat_lt
    have hb : b.toNat < 256 := b.toNat_lt
    have hc : c.toNat < 256 := c.toNat_lt
    have h0 : out0 (a.toNat / 4) (a.toNat % 4 * 16 + b.toNat / 16) = a := out0_eq (by omega) (by omega)
    have h1 : out1 (a.toNat % 4 * 16 + b.toNat / 16) (b.toNat % 16 * 4 + c.toNat / 64) = b :=
      out1_eq (by omega) (by omega)
    have h2 : out2 (b.toNat % 16 * 4 + c.toNat / 64) (c.toNat % 64) = c := out2_eq (by omega) (by omega)
    rw [base64Encode_group]
    simp [decodeTail,
      revChecked_enc (show a.toNat / 4 < 64 by omega),
      revChecked_enc (show a.toNat % 4 * 16 + b.toNat / 16 < 64 by omega),
      isb64_enc (show b.toNat % 16 * 4 + c.toNat / 64 < 64 by omega),
      isb64_enc (show c.toNat % 64 < 64 by omega),
      rev_enc (show b.toNat % 16 * 4 + c.toNat / 64 < 64 by omega),
      rev_enc (show c.toNat % 64 < 64 by omega), h0, h1, h2]
  · simp only [List.length_cons] at ht
    omega

/-- The decoder undoes the encoder. -/
theorem base64Decode_base64Encode (d : List UInt8) :
    base64Decode (base64Encode d) = ⟨true, d, d.length⟩ := by
  obtain ⟨q, t, rfl, ht, hg⟩ := decodeGroups_base64Encode d
  simp only [base64Decode, hg]
  exact decodeTail_base64Encode q t ht

/-! ### The length predictor -/

/-- The last two characters of an encoded text: which of them is padding says how long the data
are modulo three. -/
theorem base64Encode_last (d : List UInt8) (hd : d ≠ []) :
    ∃ s c2 c1, base64Encode d = s ++ [c2, c1] ∧ isb64 c2 = decide (d.length % 3 ≠ 1) ∧
      isb64 c1 = decide (d.length % 3 = 0) := by
  induction d using base64Encode.induct with
  | case1 a b c d ih =>
    have hb : b.toNat < 256 := b.toNat_lt
    have hc : c.toNat < 256 := c.toNat_lt
    rw [base64Encode_group]
    by_cases h0 : d = []
    · subst h0
      exact ⟨[_, _], _, _, rfl, by simp [isb64_enc (show b.toNat % 16 * 4 + c.toNat / 64 < 64 by omega)],
        by simp [isb64_enc (show c.toNat % 64 < 64 by omega)]⟩
    · obtain ⟨s, c2, c1, hs, h2, h1⟩ := ih h0
      refine ⟨_ :: _ :: _ :: _ :: s, c2, c1, by rw [hs]; rfl, ?_, ?_⟩
      · rw [h2, List.length_cons, List.length_cons, List.length_cons, decide_eq_decide]
        omega
      · rw [h1, List.length_cons, List.length_cons, List.length_cons, decide_eq_decide]
        omega
  | case2 a => exact ⟨[_, _], _, _, rfl, by simp [-Ch.equals, isb64_equals], by simp [-Ch.equals, isb64_equals]⟩
  | case3 a b =>
    have hb : b.toNat < 256 := b.toNat_lt
    refine ⟨[_, _], _, _, rfl, ?_, by simp [-Ch.equals, isb64_equals]⟩
    rw [sextet2_last, isb64_enc (by omega)]
    simp
  | case4 => exact absurd rfl hd

theorem base64DecodeLength_base64Encode (d : List UInt8) :
    base64DecodeLength (base64Encode d) = d.length := by
  by_cases hd : d = []
  · subst hd
    rfl
  · obtain ⟨s, c2, c1, hs, h2, h1⟩ := base64Encode_last d hd
    have hpos : 0 < d.length := List.length_pos_iff.mpr hd
    have hl : s.length + 2 = (d.length + 2) / 3 * 4 := by
      have := length_base64Encode d
      rw [hs] at this
      simpa [base64EncodeLength] using this
    -- the text is a whole number of groups, so no character is missing
    have hm : (s.length + 2) &&& 3 = 0 := by
      rw [and_mask (k := 2) _ rfl, hl]
      omega
    have hf : (s.length + 2 + 3) / 4 * 3 = (d.length + 2) / 3 * 3 := by omega
    have h3 : ¬ s.length + 2 ≤ 3 := by omega
    simp only [base64DecodeLength, hs, List.length_append, List.length_cons, List.length_nil, h3, if_false,
      hm, hf]
    simp [h2, h1]
    split_ifs <;> omega

/-- **Base64 round trip.** For every data the encoder writes `Base64EncodeLength` characters, the
predictor of the decoder finds the length of the data, and the decoder returns true with exactly
the data. -/
theorem base64_round_trip (d : List UInt8) :
    (base64Encode d).length = base64EncodeLength d.length ∧
      base64DecodeLength (base64Encode d) = d.length ∧
      base64Decode (base64Encode d) = ⟨true, d, d.length⟩ :=
  ⟨length_base64Encode d, base64DecodeLength_base64Encode d, base64Decode_base64Encode d⟩

end Cpcf.Os.Base64
