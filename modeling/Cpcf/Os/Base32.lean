import Cpcf.Lib.BitPack
import Cpcf.Lib.Memory
import Cpcf.Rt.Chars

/-!
The Base32 codecs of `os/kernal_encode.cpp`: the templates `_Base32Encode` and `_Base32Decode` over
a table, the two table families (extended hex and Crockford's with its `FavChar` variants), the two
length formulas, and the round trip of all six encoders.

Data go through in groups of five bytes and eight characters. A last group of one to four bytes
has a layout of its own, with its tail bits right aligned. The decoder keeps its quintets in `int`s,
which are 32-bit vectors here: a Crockford table entry can be `-1`. It reads its characters through
a pointer, so the text stands in a memory.
-/

namespace Cpcf.Os.Base32

open Cpcf.Rt Cpcf.Lib.BitPack Cpcf.Lib.Memory

/-! ### The tables -/

/-- A `BASE32_TABLE` argument: `encode`, and `decode` with `none` where the source returns true. -/
structure Table where
  encode : ℕ → UInt8
  decode : UInt8 → Option (BitVec 32)

/-- `_base32_crockford_decoding`, based on `'0'`. -/
def crockfordDecoding : List ℤ :=
  [0, 1, 2, 3, 4, 5, 6, 7, 8, 9,
   -1, -1, -1, -1, -1, -1, 31,
   10, 11, 12, 13, 14, 15, 16, 17,
   1,
   18, 19,
   1,
   20, 21,
   0,
   22,
   23, 24, 25, 26,
   27, 27,
   28, 29, 30, 2,
   -1, -1, -1, -1,
   -1,
   -1,
   10, 11, 12, 13, 14, 15, 16, 17,
   1,
   18, 19,
   1,
   20, 21,
   0,
   22,
   23, 24, 25, 26,
   27, 27,
   28, 29, 30, 2]

/-- `_base32_crockford_encoding_uppercase`. -/
def crockfordUppercase : List Char :=
  ['0', '1', '2', '3', '4', '5', '6', '7', '8', '9', 'A', 'B', 'C', 'D', 'E', 'F', 'G', 'H', 'J', 'K',
   'M', 'N', 'P', 'Q', 'R', 'S', 'T', 'V', 'W', 'X', 'Y', '@']

/-- `_base32_crockford_encoding_lowercase`. -/
def crockfordLowercase : List Char :=
  ['0', '1', '2', '3', '4', '5', '6', '7', '8', '9', 'a', 'b', 'c', 'd', 'e', 'f', 'g', 'h', 'j', 'k',
   'm', 'n', 'p', 'q', 'r', 's', 't', 'v', 'w', 'x', 'y', '@']

/-- `_base32_crockford_encoding_uppercase_favchar`. -/
def crockfordUppercaseFavchar : List Char :=
  ['O', 'I', 'Z', '3', '4', '5', '6', '7', '8', '9', 'A', 'B', 'C', 'D', 'E', 'F', 'G', 'H', 'J', 'K',
   'M', 'N', 'P', 'Q', 'R', 'S', 'T', 'V', 'W', 'X', 'Y', '@']

/-- `_base32_crockford_encoding_lowercase_favchar`. -/
def crockfordLowercaseFavchar : List Char :=
  ['o', 'i', 'z', '3', '4', '5', '6', '7', '8', '9', 'a', 'b', 'c', 'd', 'e', 'f', 'g', 'h', 'j', 'k',
   'm', 'n', 'p', 'q', 'r', 's', 't', 'v', 'w', 'x', 'y', '@']

/-- `_base32_extendhex_encoding_uppercase`. -/
def extendhexUppercase : List Char :=
  ['0', '1', '2', '3', '4', '5', '6', '7', '8', '9', 'A', 'B', 'C', 'D', 'E', 'F', 'G', 'H', 'I', 'J',
   'K', 'L', 'M', 'N', 'O', 'P', 'Q', 'R', 'S', 'T', 'U', 'V']

/-- `_base32_extendhex_encoding_lowercase`. -/
def extendhexLowercase : List Char :=
  ['0', '1', '2', '3', '4', '5', '6', '7', '8', '9', 'a', 'b', 'c', 'd', 'e', 'f', 'g', 'h', 'i', 'j',
   'k', 'l', 'm', 'n', 'o', 'p', 'q', 'r', 's', 't', 'u', 'v']

/-- An encoding alphabet looked up at `d`. -/
def encodeBy (alphabet : List Char) (d : ℕ) : UInt8 := (alphabet.getD d '0').toUInt8

/-- `table_extend_hex::decode`. -/
def extendHexDecode (c : UInt8) : Option (BitVec 32) :=
  let d := schar c
  if 0x30 ≤ d ∧ d ≤ 0x39 then some (BitVec.ofInt 32 (d - 0x30))
  else if 0x61 ≤ d ∧ d ≤ 0x76 then some (BitVec.ofInt 32 (d - 0x61 + 10))
  else if 0x41 ≤ d ∧ d ≤ 0x56 then some (BitVec.ofInt 32 (d - 0x41 + 10))
  else none

/-- `table_crockford::decode`: a character between `'0'` and `'z'` outside the alphabet decodes
to `-1` without an error. -/
def crockfordDecode (c : UInt8) : Option (BitVec 32) :=
  let d := schar c
  if 0x30 ≤ d ∧ d ≤ 0x7a then some (BitVec.ofInt 32 (crockfordDecoding.getD (d - 0x30).toNat (-1)))
  else none

/-- `table_extend_hex<uppercase>`. -/
def tableExtendHex (uppercase : Bool) : Table where
  encode := encodeBy (if uppercase then extendhexUppercase else extendhexLowercase)
  decode := extendHexDecode

/-- `table_crockford<uppercase, fav_char>`. -/
def tableCrockford (uppercase favChar : Bool) : Table where
  encode := encodeBy (match uppercase, favChar with
    | true, false => crockfordUppercase
    | false, false => crockfordLowercase
    | false, true => crockfordLowercaseFavchar
    | true, true => crockfordUppercaseFavchar)
  decode := crockfordDecode

/-! ### Lengths -/

/-- `Base32DecodeLength`. -/
def base32DecodeLength (len : ℕ) : ℕ :=
  let tail_len : ℤ := [0, -1, 1, -1, 2, 3, -1, 4].getD (len &&& 0x7) (-1)
  if 0 ≤ tail_len then len / 8 * 5 + tail_len.toNat else 0

/-- `Base32EncodeLength`. -/
def base32EncodeLength (len : ℕ) : ℕ := (len * 8 + 4) / 5

/-! ### The encoder -/

/-- `_Base32Encode<BASE32_TABLE>`: the characters written to `p`. -/
def encodeWith (T : Table) : List UInt8 → List UInt8
  | d0 :: d1 :: d2 :: d3 :: d4 :: d =>
    T.encode (d0.toNat >>> 3) ::
    T.encode (((d0.toNat &&& 0x7) <<< 2) ||| (d1.toNat >>> 6)) ::
    T.encode ((d1.toNat >>> 1) &&& 0x1f) ::
    T.encode (((d1.toNat &&& 1) <<< 4) ||| (d2.toNat >>> 4)) ::
    T.encode (((d2.toNat &&& 0xf) <<< 1) ||| (d3.toNat >>> 7)) ::
    T.encode ((d3.toNat >>> 2) &&& 0x1f) ::
    T.encode (((d3.toNat &&& 0x3) <<< 3) ||| (d4.toNat >>> 5)) ::
    T.encode (d4.toNat &&& 0x1f) :: encodeWith T d
  | [] => []
  | [d0] => [T.encode (d0.toNat >>> 3), T.encode (d0.toNat &&& 0x7)]
  | [d0, d1] =>
    [T.encode (d0.toNat >>> 3),
     T.encode (((d0.toNat &&& 0x7) <<< 2) ||| (d1.toNat >>> 6)),
     T.encode ((d1.toNat >>> 1) &&& 0x1f),
     T.encode (d1.toNat &&& 0x1)]
  | [d0, d1, d2] =>
    [T.encode (d0.toNat >>> 3),
     T.encode (((d0.toNat &&& 0x7) <<< 2) ||| (d1.toNat >>> 6)),
     T.encode ((d1.toNat >>> 1) &&& 0x1f),
     T.encode (((d1.toNat &&& 1) <<< 4) ||| (d2.toNat >>> 4)),
     T.encode (d2.toNat &&& 0xf)]
  | [d0, d1, d2, d3] =>
    [T.encode (d0.toNat >>> 3),
     T.encode (((d0.toNat &&& 0x7) <<< 2) ||| (d1.toNat >>> 6)),
     T.encode ((d1.toNat >>> 1) &&& 0x1f),
     T.encode (((d1.toNat &&& 1) <<< 4) ||| (d2.toNat >>> 4)),
     T.encode (((d2.toNat &&& 0xf) <<< 1) ||| (d3.toNat >>> 7)),
     T.encode ((d3.toNat >>> 2) &&& 0x1f),
     T.encode (d3.toNat &&& 0x3)]

/-- `Base32Encode`. -/
def base32Encode : List UInt8 → List UInt8 := encodeWith (tableExtendHex true)
/-- `Base32EncodeLowercase`. -/
def base32EncodeLowercase : List UInt8 → List UInt8 := encodeWith (tableExtendHex false)
/-- `Base32CrockfordEncode`. -/
def base32CrockfordEncode : List UInt8 → List UInt8 := encodeWith (tableCrockford true false)
/-- `Base32CrockfordEncodeLowercase`. -/
def base32CrockfordEncodeLowercase : List UInt8 → List UInt8 := encodeWith (tableCrockford false false)
/-- `Base32CrockfordFavCharEncode`. -/
def base32CrockfordFavCharEncode : List UInt8 → List UInt8 := encodeWith (tableCrockford true true)
/-- `Base32CrockfordFavCharEncodeLowercase`. -/
def base32CrockfordFavCharEncodeLowercase : List UInt8 → List UInt8 := encodeWith (tableCrockford false true)

/-! ### The decoder -/

/-- An `int` stored into a `BYTE`. -/
def toByte (x : BitVec 32) : UInt8 := UInt8.ofBitVec (x.setWidth 8)

/-- The two bytes-with-neighbours of the layout, `(b[0]<<3) | (b[1]>>2)` and so on, in the order
they are written. -/
def outBytes (b0 b1 b2 b3 b4 b5 b6 b7 : BitVec 32) : List UInt8 :=
  [toByte ((b0 <<< 3) ||| b1.sshiftRight 2),
   toByte ((b1 <<< 6) ||| (b2 <<< 1) ||| b3.sshiftRight 4),
   toByte ((b3 <<< 4) ||| b4.sshiftRight 1),
   toByte ((b4 <<< 7) ||| (b5 <<< 2) ||| b6.sshiftRight 3),
   toByte ((b6 <<< 5) ||| b7)]

/-- One turn of the loop: eight characters decoded, or `none` for `return false`. -/
def decodeGroup (T : Table) (m : Mem) (d : ℕ) : Option (List UInt8) := do
  let b0 ← T.decode (m d)
  let b1 ← T.decode (m (d + 1))
  let b2 ← T.decode (m (d + 2))
  let b3 ← T.decode (m (d + 3))
  let b4 ← T.decode (m (d + 4))
  let b5 ← T.decode (m (d + 5))
  let b6 ← T.decode (m (d + 6))
  let b7 ← T.decode (m (d + 7))
  some (outBytes b0 b1 b2 b3 b4 b5 b6 b7)

/-- `for(;(d + 8)<=e; p+=5)`: the bytes written and the pointer `d` after the loop, `none` when it
returned false. The first argument bounds the number of turns. -/
def decodeLoop (T : Table) (m : Mem) (e : ℕ) : ℕ → ℕ → List UInt8 × Option ℕ
  | 0, d => ([], some d)
  | n + 1, d =>
    if d + 8 ≤ e then
      match decodeGroup T m d with
      | none => ([], none)
      | some p =>
        let r := decodeLoop T m e n (d + 8)
        (p ++ r.1, r.2)
    else ([], some d)

/-- `BASE32_TABLE::decode(t, *d) || t > bound` passed. -/
def decodeLast (T : Table) (c : UInt8) (bound : BitVec 32) : Option (BitVec 32) :=
  match T.decode c with
  | none => none
  | some t => if bound.slt t then none else some t

/-- The part after the loop, with `d ≠ e`: the return value and the bytes written. -/
def decodeTail (T : Table) (m : Mem) (d e : ℕ) : Bool × List UInt8 :=
  match T.decode (m d) with
  | none => (false, [])
  | some b0 =>
    if d + 2 = e then
      match decodeLast T (m (d + 1)) 7#32 with
      | none => (false, [])
      | some t => (true, [toByte ((b0 <<< 3) ||| t)])
    else
      match T.decode (m (d + 1)) with
      | none => (false, [])
      | some b1 =>
        let p0 := toByte ((b0 <<< 3) ||| b1.sshiftRight 2)
        match T.decode (m (d + 2)) with
        | none => (false, [p0])
        | some b2 =>
          if d + 4 = e then
            match decodeLast T (m (d + 3)) 1#32 with
            | none => (false, [p0])
            | some t => (true, [p0, toByte ((b1 <<< 6) ||| (b2 <<< 1) ||| t)])
          else
            match T.decode (m (d + 3)) with
            | none => (false, [p0])
            | some b3 =>
              let p1 := toByte ((b1 <<< 6) ||| (b2 <<< 1) ||| b3.sshiftRight 4)
              if d + 5 = e then
                match decodeLast T (m (d + 4)) 16#32 with
                | none => (false, [p0, p1])
                | some t => (true, [p0, p1, toByte ((b3 <<< 4) ||| t)])
              else
                match T.decode (m (d + 4)) with
                | none => (false, [p0, p1])
                | some b4 =>
                  let p2 := toByte ((b3 <<< 4) ||| b4.sshiftRight 1)
                  match T.decode (m (d + 5)) with
                  | none => (false, [p0, p1, p2])
                  | some b5 =>
                    if d + 7 = e then
                      match decodeLast T (m (d + 6)) 4#32 with
                      | none => (false, [p0, p1, p2])
                      | some t => (true, [p0, p1, p2, toByte ((b4 <<< 7) ||| (b5 <<< 2) ||| t)])
                    else (false, [p0, p1, p2])

/-- `_Base32Decode<BASE32_TABLE>`: the return value and the bytes written to `pDataOut`. -/
def decodeWith (T : Table) (m : Mem) (data_len pBase32 str_len : ℕ) : Bool × List UInt8 :=
  if base32DecodeLength str_len ≠ data_len then (false, [])
  else
    let e := pBase32 + str_len
    match decodeLoop T m e str_len pBase32 with
    | (p, none) => (false, p)
    | (p, some d) =>
      if d = e then (true, p)
      else
        let r := decodeTail T m d e
        (r.1, p ++ r.2)

/-- `Base32Decode`. -/
def base32Decode : Mem → ℕ → ℕ → ℕ → Bool × List UInt8 := decodeWith (tableExtendHex true)
/-- `Base32CrockfordDecode`. -/
def base32CrockfordDecode : Mem → ℕ → ℕ → ℕ → Bool × List UInt8 := decodeWith (tableCrockford true false)

/-! ### The tables are inverse -/

/-- The decoder's table reads back the characters of the encoder's. -/
def Inverse (T D : Table) : Prop := ∀ q : Fin 32, D.decode (T.encode q) = some (BitVec.ofNat 32 q)

theorem inverse_extendHex (u v : Bool) : Inverse (tableExtendHex u) (tableExtendHex v) := by
  have h : ∀ (u : Bool) (q : Fin 32),
      extendHexDecode ((tableExtendHex u).encode q) = some (BitVec.ofNat 32 q) := by decide
  exact h u

theorem inverse_crockford (u f v g : Bool) : Inverse (tableCrockford u f) (tableCrockford v g) := by
  have h : ∀ (u f : Bool) (q : Fin 32),
      crockfordDecode ((tableCrockford u f).encode q) = some (BitVec.ofNat 32 q) := by decide
  exact h u f

theorem Inverse.decode {T D : Table} (h : Inverse T D) {q : ℕ} (hq : q < 32) :
    D.decode (T.encode q) = some (BitVec.ofNat 32 q) := h ⟨q, hq⟩

theorem not_slt : ∀ b q : Fin 32, q ≤ b → (BitVec.ofNat 32 b).slt (BitVec.ofNat 32 q) = false := by
  decide

theorem Inverse.decodeLast {T D : Table} (h : Inverse T D) {b q : ℕ} (hb : b < 32) (hq : q ≤ b) :
    decodeLast D (T.encode q) (BitVec.ofNat 32 b) = some (BitVec.ofNat 32 q) := by
  unfold Base32.decodeLast
  rw [h.decode (by omega)]
  simp only [not_slt ⟨b, hb⟩ ⟨q, by omega⟩ hq, Bool.false_eq_true, if_false]

/-! ### Quintets as arithmetic -/

section Quintets

variable (a b : UInt8)

theorem quintet_high : a.toNat >>> 3 = a.toNat / 8 := by rw [Nat.shiftRight_eq_div_pow]

theorem quintet_mid1 : (a.toNat >>> 1) &&& 0x1f = a.toNat / 2 % 32 := by
  rw [Nat.shiftRight_eq_div_pow, and_mask (k := 5) _ rfl]
  norm_num

theorem quintet_mid2 : (a.toNat >>> 2) &&& 0x1f = a.toNat / 4 % 32 := by
  rw [Nat.shiftRight_eq_div_pow, and_mask (k := 5) _ rfl]
  norm_num

/-- A quintet across two bytes: the `k` low bits of the first, then the high bits of the second. -/
theorem quintet_cross {k l : ℕ} (mask : ℕ) (hm : mask + 1 = 2 ^ k) (hl : l ≤ 8) :
    ((a.toNat &&& mask) <<< (8 - l)) ||| (b.toNat >>> l) = a.toNat % 2 ^ k * 2 ^ (8 - l) + b.toNat / 2 ^ l := by
  have hb : b.toNat < 2 ^ 8 := b.toNat_lt
  have hlt : b.toNat / 2 ^ l < 2 ^ (8 - l) := by
    rw [Nat.div_lt_iff_lt_mul (by positivity), ← pow_add, show 8 - l + l = 8 by omega]
    exact hb
  rw [Nat.shiftRight_eq_div_pow, shiftLeft_or _ hlt, and_mask _ hm]

theorem quintet_cross1 : ((a.toNat &&& 0x7) <<< 2) ||| (b.toNat >>> 6) = a.toNat % 8 * 4 + b.toNat / 64 :=
  quintet_cross a b (k := 3) (l := 6) 7 rfl (by omega)

theorem quintet_cross3 : ((a.toNat &&& 1) <<< 4) ||| (b.toNat >>> 4) = a.toNat % 2 * 16 + b.toNat / 16 :=
  quintet_cross a b (k := 1) (l := 4) 1 rfl (by omega)

theorem quintet_cross4 : ((a.toNat &&& 0xf) <<< 1) ||| (b.toNat >>> 7) = a.toNat % 16 * 2 + b.toNat / 128 :=
  quintet_cross a b (k := 4) (l := 7) 15 rfl (by omega)

theorem quintet_cross6 : ((a.toNat &&& 0x3) <<< 3) ||| (b.toNat >>> 5) = a.toNat % 4 * 8 + b.toNat / 32 :=
  quintet_cross a b (k := 2) (l := 5) 3 rfl (by omega)

end Quintets

/-- A full group is written as the eight quintets of its bytes. -/
theorem encodeWith_group (T : Table) (d0 d1 d2 d3 d4 : UInt8) (d : List UInt8) :
    encodeWith T (d0 :: d1 :: d2 :: d3 :: d4 :: d) =
      T.encode (d0.toNat / 8) :: T.encode (d0.toNat % 8 * 4 + d1.toNat / 64) ::
      T.encode (d1.toNat / 2 % 32) :: T.encode (d1.toNat % 2 * 16 + d2.toNat / 16) ::
      T.encode (d2.toNat % 16 * 2 + d3.toNat / 128) :: T.encode (d3.toNat / 4 % 32) ::
      T.encode (d3.toNat % 4 * 8 + d4.toNat / 32) :: T.encode (d4.toNat % 32) :: encodeWith T d := by
  simp only [encodeWith, quintet_high, quintet_cross1, quintet_mid1, quintet_cross3, quintet_cross4,
    quintet_mid2, quintet_cross6, and_mask (k := 5) d4.toNat rfl, Nat.reducePow]

/-! ### Bytes from quintets -/

section Bytes

variable {x y z k l : ℕ} {b : UInt8}

theorem toNat_toByte (x : BitVec 32) : (toByte x).toNat = x.toNat % 256 := by simp [toByte]

theorem toNat_int (hx : x < 32) : (BitVec.ofNat 32 x).toNat = x := by
  rw [BitVec.toNat_ofNat, Nat.mod_eq_of_lt (by omega)]

theorem toNat_int_shl (hx : x < 32) (hk : k ≤ 7) : (BitVec.ofNat 32 x <<< k).toNat = x <<< k := by
  have hp : 2 ^ k ≤ 2 ^ 7 := Nat.pow_le_pow_right (by omega) hk
  rw [BitVec.toNat_shiftLeft, toNat_int hx, Nat.mod_eq_of_lt]
  rw [Nat.shiftLeft_eq]
  nlinarith

theorem toNat_int_sar (hx : x < 32) : ((BitVec.ofNat 32 x).sshiftRight k).toNat = x / 2 ^ k := by
  have hm : (BitVec.ofNat 32 x).msb = false := by
    rw [BitVec.msb_eq_false_iff_two_mul_lt, toNat_int hx]
    omega
  rw [BitVec.toNat_sshiftRight_of_msb_false hm, toNat_int hx, Nat.shiftRight_eq_div_pow]

/-- `(x << k) | t` for a right part `t` that fits under the shift. -/
theorem toByte_pair {t : BitVec 32} (hx : x < 32) (hk : k ≤ 7) (ht : t.toNat < 2 ^ k)
    (h : (x * 2 ^ k + t.toNat) % 256 = b.toNat) : toByte ((BitVec.ofNat 32 x <<< k) ||| t) = b := by
  apply UInt8.toNat_inj.mp
  rw [toNat_toByte, BitVec.toNat_or, toNat_int_shl hx hk, shiftLeft_or _ ht, h]

/-- `(x << (l + 5)) | (y << l) | t` for a right part `t` that fits under the shifts. -/
theorem toByte_triple {t : BitVec 32} (hx : x < 32) (hy : y < 32) (hl : l ≤ 2) (ht : t.toNat < 2 ^ l)
    (h : ((x * 32 + y) * 2 ^ l + t.toNat) % 256 = b.toNat) :
    toByte ((BitVec.ofNat 32 x <<< (l + 5)) ||| (BitVec.ofNat 32 y <<< l) ||| t) = b := by
  apply UInt8.toNat_inj.mp
  have e : (x <<< (l + 5)) ||| (y <<< l) = (x * 32 + y) <<< l := by
    rw [show l + 5 = 5 + l by omega, Nat.shiftLeft_add, ← Nat.shiftLeft_or_distrib, shiftLeft_or _ hy]
    norm_num
  rw [toNat_toByte, BitVec.toNat_or, BitVec.toNat_or, toNat_int_shl hx (by omega), toNat_int_shl hy (by omega),
    e, shiftLeft_or _ ht, h]

/-- A byte in three parts, the upper one behind what is left of the byte in front of it. -/
theorem triple_one (c : ℕ) {n : ℕ} (hn : n < 256) :
    (((c * 4 + n / 64) * 32 + n / 2 % 32) * 2 ^ 1 + n % 2) % 256 = n := by
  have hparts : (n / 64 * 32 + n / 2 % 32) * 2 + n % 2 = n := by omega
  calc _ = (c * 256 + ((n / 64 * 32 + n / 2 % 32) * 2 + n % 2)) % 256 := by congr 1; ring
    _ = n := by rw [hparts, Nat.mul_add_mod_of_lt hn]

theorem triple_two (c : ℕ) {n : ℕ} (hn : n < 256) :
    (((c * 2 + n / 128) * 32 + n / 4 % 32) * 2 ^ 2 + n % 4) % 256 = n := by
  have hparts : (n / 128 * 32 + n / 4 % 32) * 4 + n % 4 = n := by omega
  calc _ = (c * 256 + ((n / 128 * 32 + n / 4 % 32) * 4 + n % 4)) % 256 := by congr 1; ring
    _ = n := by rw [hparts, Nat.mul_add_mod_of_lt hn]

/-- The bytes of a group from its quintets, and the last byte of a shorter one. -/
theorem byte0 (a b : UInt8) : toByte ((BitVec.ofNat 32 (a.toNat / 8) <<< 3) |||
    (BitVec.ofNat 32 (a.toNat % 8 * 4 + b.toNat / 64)).sshiftRight 2) = a := by
  have ha : a.toNat < 256 := a.toNat_lt
  have hb : b.toNat < 256 := b.toNat_lt
  refine toByte_pair (by omega) (by omega) ?_ ?_ <;> rw [toNat_int_sar (by omega)] <;> omega

theorem byte1 (a b c : UInt8) : toByte ((BitVec.ofNat 32 (a.toNat % 8 * 4 + b.toNat / 64) <<< 6) |||
    (BitVec.ofNat 32 (b.toNat / 2 % 32) <<< 1) |||
    (BitVec.ofNat 32 (b.toNat % 2 * 16 + c.toNat / 16)).sshiftRight 4) = b := by
  have hb : b.toNat < 256 := b.toNat_lt
  have hc : c.toNat < 256 := c.toNat_lt
  have hlow : (b.toNat % 2 * 16 + c.toNat / 16) / 2 ^ 4 = b.toNat % 2 := by omega
  refine toByte_triple (l := 1) (by omega) (by omega) (by omega) ?_ ?_ <;> rw [toNat_int_sar (by omega), hlow]
  · exact Nat.mod_lt _ (by decide)
  · exact triple_one _ hb

theorem byte2 (b c d : UInt8) : toByte ((BitVec.ofNat 32 (b.toNat % 2 * 16 + c.toNat / 16) <<< 4) |||
    (BitVec.ofNat 32 (c.toNat % 16 * 2 + d.toNat / 128)).sshiftRight 1) = c := by
  have hc : c.toNat < 256 := c.toNat_lt
  have hd : d.toNat < 256 := d.toNat_lt
  refine toByte_pair (by omega) (by omega) ?_ ?_ <;> rw [toNat_int_sar (by omega)] <;> omega

theorem byte3 (c d e : UInt8) : toByte ((BitVec.ofNat 32 (c.toNat % 16 * 2 + d.toNat / 128) <<< 7) |||
    (BitVec.ofNat 32 (d.toNat / 4 % 32) <<< 2) |||
    (BitVec.ofNat 32 (d.toNat % 4 * 8 + e.toNat / 32)).sshiftRight 3) = d := by
  have hd : d.toNat < 256 := d.toNat_lt
  have he : e.toNat < 256 := e.toNat_lt
  have hlow : (d.toNat % 4 * 8 + e.toNat / 32) / 2 ^ 3 = d.toNat % 4 := by omega
  refine toByte_triple (l := 2) (by omega) (by omega) (by omega) ?_ ?_ <;> rw [toNat_int_sar (by omega), hlow]
  · exact Nat.mod_lt _ (by decide)
  · exact triple_two _ hd

theorem byte4 (d e : UInt8) : toByte ((BitVec.ofNat 32 (d.toNat % 4 * 8 + e.toNat / 32) <<< 5) |||
    BitVec.ofNat 32 (e.toNat % 32)) = e := by
  have he : e.toNat < 256 := e.toNat_lt
  refine toByte_pair (by omega) (by omega) ?_ ?_ <;> rw [toNat_int (by omega)] <;> omega

theorem last0 (a : UInt8) : toByte ((BitVec.ofNat 32 (a.toNat / 8) <<< 3) ||| BitVec.ofNat 32 (a.toNat % 8)) = a := by
  have ha : a.toNat < 256 := a.toNat_lt
  refine toByte_pair (by omega) (by omega) ?_ ?_ <;> rw [toNat_int (by omega)] <;> omega

theorem last1 (a b : UInt8) : toByte ((BitVec.ofNat 32 (a.toNat % 8 * 4 + b.toNat / 64) <<< 6) |||
    (BitVec.ofNat 32 (b.toNat / 2 % 32) <<< 1) ||| BitVec.ofNat 32 (b.toNat % 2)) = b := by
  have hb : b.toNat < 256 := b.toNat_lt
  refine toByte_triple (l := 1) (by omega) (by omega) (by omega) ?_ ?_ <;> rw [toNat_int (by omega)]
  · exact Nat.mod_lt _ (by decide)
  · exact triple_one _ hb

theorem last2 (b c : UInt8) : toByte ((BitVec.ofNat 32 (b.toNat % 2 * 16 + c.toNat / 16) <<< 4) |||
    BitVec.ofNat 32 (c.toNat % 16)) = c := by
  have hc : c.toNat < 256 := c.toNat_lt
  refine toByte_pair (by omega) (by omega) ?_ ?_ <;> rw [toNat_int (by omega)] <;> omega

theorem last3 (c d : UInt8) : toByte ((BitVec.ofNat 32 (c.toNat % 16 * 2 + d.toNat / 128) <<< 7) |||
    (BitVec.ofNat 32 (d.toNat / 4 % 32) <<< 2) ||| BitVec.ofNat 32 (d.toNat % 4)) = d := by
  have hd : d.toNat < 256 := d.toNat_lt
  refine toByte_triple (l := 2) (by omega) (by omega) (by omega) ?_ ?_ <;> rw [toNat_int (by omega)]
  · exact Nat.mod_lt _ (by decide)
  · exact triple_two _ hd

end Bytes

/-! ### Round trip -/

section RoundTrip

variable {T D : Table} {m : Mem}

theorem length_encodeWith (T : Table) (d : List UInt8) :
    (encodeWith T d).length = base32EncodeLength d.length := by
  unfold base32EncodeLength
  induction d using encodeWith.induct with
  | case1 d0 d1 d2 d3 d4 d ih =>
    simp only [encodeWith, List.length_cons, ih]
    omega
  | case2 => rfl
  | case3 d0 => simp [encodeWith]
  | case4 d0 d1 => simp [encodeWith]
  | case5 d0 d1 d2 => simp [encodeWith]
  | case6 d0 d1 d2 d3 => simp [encodeWith]

/-- The two length formulas agree on every data length. -/
theorem base32DecodeLength_base32EncodeLength (n : ℕ) :
    base32DecodeLength (base32EncodeLength n) = n := by
  unfold base32DecodeLength base32EncodeLength
  rw [and_mask (k := 3) _ rfl]
  -- five bytes make eight characters: split on the length of the last group
  obtain ⟨g, r, hr, rfl⟩ : ∃ g r, r < 5 ∧ n = 5 * g + r := ⟨n / 5, n % 5, by omega, by omega⟩
  have e : ((5 * g + r) * 8 + 4) / 5 = 8 * g + (r * 8 + 4) / 5 := by omega
  rw [e]
  have hr' : r = 0 ∨ r = 1 ∨ r = 2 ∨ r = 3 ∨ r = 4 := by omega
  rcases hr' with rfl | rfl | rfl | rfl | rfl <;> simp <;> omega

/-- One turn of the decoder's loop reads back one full group. -/
theorem decodeGroup_eq (h : Inverse T D) {p : ℕ} {d0 d1 d2 d3 d4 : UInt8} {d : List UInt8}
    (hm : Holds m p (encodeWith T (d0 :: d1 :: d2 :: d3 :: d4 :: d))) :
    decodeGroup D m p = some [d0, d1, d2, d3, d4] := by
  have h0 : d0.toNat < 256 := d0.toNat_lt
  have h1 : d1.toNat < 256 := d1.toNat_lt
  have h2 : d2.toNat < 256 := d2.toNat_lt
  have h3 : d3.toNat < 256 := d3.toNat_lt
  have h4 : d4.toNat < 256 := d4.toNat_lt
  rw [encodeWith_group] at hm
  simp only [holds_cons, add_assoc, Nat.reduceAdd] at hm
  obtain ⟨e0, e1, e2, e3, e4, e5, e6, e7, -⟩ := hm
  unfold decodeGroup
  rw [e0, e1, e2, e3, e4, e5, e6, e7, h.decode (by omega), h.decode (by omega), h.decode (by omega),
    h.decode (by omega), h.decode (by omega), h.decode (by omega), h.decode (by omega), h.decode (by omega)]
  simp only [Option.bind_eq_bind, Option.bind_some, outBytes, byte0, byte1, byte2, byte3, byte4]

/-- The loop decodes all full groups and stops at the text of the last one. -/
theorem decodeLoop_eq (h : Inverse T D) (d : List UInt8) {p n : ℕ} (hm : Holds m p (encodeWith T d))
    (hn : (encodeWith T d).length ≤ n) :
    ∃ q t r, d = q ++ t ∧ t.length ≤ 4 ∧ Holds m r (encodeWith T t) ∧
      r + (encodeWith T t).length = p + (encodeWith T d).length ∧
      decodeLoop D m (p + (encodeWith T d).length) n p = (q, some r) := by
  induction d using encodeWith.induct generalizing p n with
  | case1 d0 d1 d2 d3 d4 d ih =>
    have hl : (encodeWith T (d0 :: d1 :: d2 :: d3 :: d4 :: d)).length = (encodeWith T d).length + 8 := by
      simp [encodeWith]
    obtain ⟨n, rfl⟩ : ∃ n', n = n' + 1 := ⟨n - 1, by omega⟩
    have hd := hm
    rw [encodeWith_group] at hd
    simp only [holds_cons, add_assoc, Nat.reduceAdd] at hd
    obtain ⟨q, t, r, hq, ht, hr, hl', hloop⟩ := ih hd.2.2.2.2.2.2.2.2 (n := n) (by omega)
    refine ⟨d0 :: d1 :: d2 :: d3 :: d4 :: q, t, r, by simp [hq], ht, hr, by omega, ?_⟩
    rw [decodeLoop, if_pos (by omega), decodeGroup_eq h hm, hl,
      show p + ((encodeWith T d).length + 8) = p + 8 + (encodeWith T d).length by omega]
    simp [hloop]
  | case2 =>
    exact ⟨[], [], p, by simp, by simp, by simp [encodeWith], by simp, by cases n <;> simp [decodeLoop, encodeWith]⟩
  | case3 d0 => exact ⟨[], [d0], p, by simp, by simp, hm, rfl, by cases n <;> simp [decodeLoop, encodeWith]⟩
  | case4 d0 d1 => exact ⟨[], [d0, d1], p, by simp, by simp, hm, rfl, by cases n <;> simp [decodeLoop, encodeWith]⟩
  | case5 d0 d1 d2 =>
    exact ⟨[], [d0, d1, d2], p, by simp, by simp, hm, rfl, by cases n <;> simp [decodeLoop, encodeWith]⟩
  | case6 d0 d1 d2 d3 =>
    exact ⟨[], [d0, d1, d2, d3], p, by simp, by simp, hm, rfl, by cases n <;> simp [decodeLoop, encodeWith]⟩

/-- The tail decodes a last group of one to four bytes, each with its own layout. -/
theorem decodeTail_eq (h : Inverse T D) {t : List UInt8} {r : ℕ} (ht : t.length ≤ 4) (h0 : t ≠ [])
    (hm : Holds m r (encodeWith T t)) :
    decodeTail D m r (r + (encodeWith T t).length) = (true, t) := by
  rcases t with _ | ⟨a, _ | ⟨b, _ | ⟨c, _ | ⟨d, _ | ⟨x, t⟩⟩⟩⟩⟩
  · exact absurd rfl h0
  · have ha : a.toNat < 256 := a.toNat_lt
    simp only [encodeWith, quintet_high, and_mask (k := 3) a.toNat rfl, holds_cons, Nat.reducePow] at hm
    obtain ⟨e0, e1, -⟩ := hm
    simp only [decodeTail, e0, e1, h.decode (show a.toNat / 8 < 32 by omega),
      h.decodeLast (b := 7) (q := a.toNat % 8) (by omega) (by omega), encodeWith, List.length_cons,
      List.length_nil, if_true, last0]
  · have ha : a.toNat < 256 := a.toNat_lt
    have hb : b.toNat < 256 := b.toNat_lt
    simp only [encodeWith, quintet_high, quintet_cross1, quintet_mid1, and_mask (k := 1) b.toNat rfl,
      holds_cons, add_assoc, Nat.reduceAdd, Nat.reducePow] at hm
    obtain ⟨e0, e1, e2, e3, -⟩ := hm
    simp [decodeTail, e0, e1, e2, e3, h.decode (show a.toNat / 8 < 32 by omega),
      h.decode (show a.toNat % 8 * 4 + b.toNat / 64 < 32 by omega),
      h.decode (show b.toNat / 2 % 32 < 32 by omega),
      h.decodeLast (b := 1) (q := b.toNat % 2) (by omega) (by omega), encodeWith, byte0, last1]
  · have ha : a.toNat < 256 := a.toNat_lt
    have hb : b.toNat < 256 := b.toNat_lt
    have hc : c.toNat < 256 := c.toNat_lt
    simp only [encodeWith, quintet_high, quintet_cross1, quintet_mid1, quintet_cross3,
      and_mask (k := 4) c.toNat rfl, holds_cons, add_assoc, Nat.reduceAdd, Nat.reducePow] at hm
    obtain ⟨e0, e1, e2, e3, e4, -⟩ := hm
    simp [decodeTail, e0, e1, e2, e3, e4, h.decode (show a.toNat / 8 < 32 by omega),
      h.decode (show a.toNat % 8 * 4 + b.toNat / 64 < 32 by omega),
      h.decode (show b.toNat / 2 % 32 < 32 by omega),
      h.decode (show b.toNat % 2 * 16 + c.toNat / 16 < 32 by omega),
      h.decodeLast (b := 16) (q := c.toNat % 16) (by omega) (by omega), encodeWith, byte0, byte1, last2]
  · have ha : a.toNat < 256 := a.toNat_lt
    have hb : b.toNat < 256 := b.toNat_lt
    have hc : c.toNat < 256 := c.toNat_lt
    have hd : d.toNat < 256 := d.toNat_lt
    simp only [encodeWith, quintet_high, quintet_cross1, quintet_mid1, quintet_cross3, quintet_cross4,
      quintet_mid2, and_mask (k := 2) d.toNat rfl, holds_cons, add_assoc, Nat.reduceAdd, Nat.reducePow] at hm
    obtain ⟨e0, e1, e2, e3, e4, e5, e6, -⟩ := hm
    simp [decodeTail, e0, e1, e2, e3, e4, e5, e6, h.decode (show a.toNat / 8 < 32 by omega),
      h.decode (show a.toNat % 8 * 4 + b.toNat / 64 < 32 by omega),
      h.decode (show b.toNat / 2 % 32 < 32 by omega),
      h.decode (show b.toNat % 2 * 16 + c.toNat / 16 < 32 by omega),
      h.decode (show c.toNat % 16 * 2 + d.toNat / 128 < 32 by omega),
      h.decode (show d.toNat / 4 % 32 < 32 by omega),
      h.decodeLast (b := 4) (q := d.toNat % 4) (by omega) (by omega), encodeWith, byte0, byte1, byte2, last3]
  · simp only [List.length_cons] at ht
    omega

/-- A decoder over an inverse table undoes the encoder, whatever else the memory holds. -/
theorem decodeWith_encodeWith (h : Inverse T D) (d : List UInt8) {p : ℕ} (hm : Holds m p (encodeWith T d)) :
    decodeWith D m d.length p (encodeWith T d).length = (true, d) := by
  have hlen : base32DecodeLength (encodeWith T d).length = d.length := by
    rw [length_encodeWith, base32DecodeLength_base32EncodeLength]
  obtain ⟨q, t, r, rfl, ht, hr, he, hloop⟩ := decodeLoop_eq h d hm le_rfl
  unfold decodeWith
  rw [if_neg (not_not.mpr hlen)]
  simp only [hloop]
  by_cases h0 : t = []
  · subst h0
    simp only [encodeWith, List.length_nil, add_zero] at he
    simp [he]
  · have hpos : 0 < (encodeWith T t).length := by
      rw [length_encodeWith]
      unfold base32EncodeLength
      have := List.length_pos_iff.mpr h0
      omega
    rw [if_neg (by omega), ← he, decodeTail_eq h ht h0 hr]

end RoundTrip

/-! ### The six encoders -/

/-- The encoders of the library. -/
inductive Encoder
  | extendHex | extendHexLowercase
  | crockford | crockfordLowercase
  | crockfordFavChar | crockfordFavCharLowercase
  deriving DecidableEq, Repr

/-- The function of an encoder. -/
def Encoder.encode : Encoder → List UInt8 → List UInt8
  | .extendHex => base32Encode
  | .extendHexLowercase => base32EncodeLowercase
  | .crockford => base32CrockfordEncode
  | .crockfordLowercase => base32CrockfordEncodeLowercase
  | .crockfordFavChar => base32CrockfordFavCharEncode
  | .crockfordFavCharLowercase => base32CrockfordFavCharEncodeLowercase

/-- The decoder that matches an encoder. -/
def Encoder.decode : Encoder → Mem → ℕ → ℕ → ℕ → Bool × List UInt8
  | .extendHex | .extendHexLowercase => base32Decode
  | _ => base32CrockfordDecode

/-- **Base32 round trip.** Each of the six encoders writes `Base32EncodeLength` characters, the
decoder's length formula gives back the length of the data, and the matching decoder, run on the
text wherever it stands in memory, returns true and yields the data. -/
theorem base32_round_trip (f : Encoder) (d : List UInt8) :
    (f.encode d).length = base32EncodeLength d.length ∧
      base32DecodeLength (f.encode d).length = d.length ∧
      ∀ (m : Mem) (p : ℕ), Holds m p (f.encode d) →
        f.decode m d.length p (f.encode d).length = (true, d) := by
  obtain ⟨T, D, h, he, hd⟩ : ∃ T D, Inverse T D ∧ f.encode = encodeWith T ∧ f.decode = decodeWith D := by
    cases f
    · exact ⟨_, _, inverse_extendHex _ _, rfl, rfl⟩
    · exact ⟨_, _, inverse_extendHex _ _, rfl, rfl⟩
    all_goals exact ⟨_, _, inverse_crockford _ _ _ _, rfl, rfl⟩
  rw [he, hd]
  refine ⟨length_encodeWith T d, ?_, fun m p hm => decodeWith_encodeWith h d hm⟩
  rw [length_encodeWith, base32DecodeLength_base32EncodeLength]

theorem base32_round_trip_favChar :
    Encoder.crockfordFavChar.encode [0x53, 0x40] = [0x41, 0x44, 0x4f, 0x4f] ∧
      Encoder.crockfordFavChar.decode (ofBytes 16 [0x41, 0x44, 0x4f, 0x4f]) 2 16 4 = (true, [0x53, 0x40]) :=
  ⟨by decide, (base32_round_trip .crockfordFavChar [0x53, 0x40]).2.2 _ 16 (holds_ofBytes 16 _)⟩

end Cpcf.Os.Base32
