import Cpcf.Lib.BitPack
import Cpcf.Lib.Word

/-!
`UTF8EncodeLength`, `UTF8Encode`, `UTF8DecodeLength` and `UTF8Decode` of `os/kernal_encode.cpp`, and
their round trip.

Every 16-bit unit is encoded for itself, in one, two or three bytes. The encoder writes a sequence
of three bytes with one store of four, whose last byte is zero and lands on the position of the next
sequence. Both functions return their count through a cast to `UINT`.
-/

namespace Cpcf.Os.Utf8

open Cpcf.Lib.Memory Cpcf.Lib.Word Cpcf.Lib.BitPack

/-! ### The encoder -/

/-- `UTF8EncodeLength`. -/
def utf8EncodeLength (u : List UInt16) : ℕ :=
  u.foldl (fun outlen c => if c ≤ 0x7f then outlen + 1 else if c > 0x7ff then outlen + 3 else outlen + 2) 0

/-- `0x8080e0 | ((c>>12)&0xf) | ((c<<2)&0x3f00) | ((0x3f&c)<<16)`. -/
def threeBytes (c : ℕ) : ℕ :=
  0x8080e0 ||| ((c >>> 12) &&& 0xf) ||| ((c <<< 2) &&& 0x3f00) ||| ((0x3f &&& c) <<< 16)

/-- `0x80c0 | ((c>>6)&0x1f) | ((0x3f&c)<<8)`. -/
def twoBytes (c : ℕ) : ℕ := 0x80c0 ||| ((c >>> 6) &&& 0x1f) ||| ((0x3f &&& c) <<< 8)

/-- The loop of `UTF8Encode` from the output position `p` on. -/
def utf8EncodeLoop : Mem → ℕ → List UInt16 → Mem × ℕ
  | m, p, [] => (m, p)
  | m, p, c :: u =>
    if c ≤ 0x7f then utf8EncodeLoop (poke m p c.toUInt8) (p + 1) u
    else if c > 0x7ff then utf8EncodeLoop (store m p 4 (threeBytes c.toNat)) (p + 3) u
    else utf8EncodeLoop (store m p 2 (twoBytes c.toNat)) (p + 2) u

/-- `UTF8Encode`: the memory and the returned `(UINT)(p - pOut)`. -/
def utf8Encode (u : List UInt16) (m : Mem) (pOut : ℕ) : Mem × ℕ :=
  let r := utf8EncodeLoop m pOut u
  (r.1, (r.2 - pOut) % 2 ^ 32)

/-! ### The decoder -/

/-- How far the decoders go on at the byte `c`. -/
def advance (c : UInt8) : ℕ :=
  if c ≤ 0x7f then 1 else if c &&& 0xf0 = 0xe0 then 3 else if c &&& 0xe0 = 0xc0 then 2 else 1

theorem advance_pos (c : UInt8) : 0 < advance c := by
  unfold advance
  split_ifs <;> decide

/-- The loop of `UTF8DecodeLength`. -/
def utf8DecodeLengthLoop (m : Mem) (pIn len i outlen : ℕ) : ℕ :=
  if i < len then utf8DecodeLengthLoop m pIn len (i + advance (m (pIn + i))) (outlen + 1) else outlen
termination_by len - i
decreasing_by
  have := advance_pos (m (pIn + i))
  omega

/-- `UTF8DecodeLength`. -/
def utf8DecodeLength (m : Mem) (pIn len : ℕ) : ℕ := utf8DecodeLengthLoop m pIn len 0 0

/-- What `UTF8Decode` writes for the sequence at the address `a`; nothing where it skips a byte. -/
def decodeUnit (m : Mem) (a : ℕ) : Option UInt16 :=
  let c := (m a).toNat
  if m a ≤ 0x7f then some (UInt16.ofNat c)
  else if m a &&& 0xf0 = 0xe0 then
    some (UInt16.ofNat (((c &&& 0xf) <<< 12) ||| (((m (a + 1)).toNat &&& 0x3f) <<< 6) |||
      ((m (a + 2)).toNat &&& 0x3f)))
  else if m a &&& 0xe0 = 0xc0 then
    some (UInt16.ofNat (((c &&& 0x1f) <<< 6) ||| ((m (a + 1)).toNat &&& 0x3f)))
  else none

/-- `*p = ...`, if the sequence gives a unit. -/
def putUnit (out : ℕ → UInt16) (p : ℕ) : Option UInt16 → ℕ → UInt16
  | some c => Function.update out p c
  | none => out

/-- The loop of `UTF8Decode`, which writes the units from the cell `p` of `out` on. -/
def utf8DecodeLoop (m : Mem) (pIn len i : ℕ) (out : ℕ → UInt16) (p : ℕ) : (ℕ → UInt16) × ℕ :=
  if i < len then
    utf8DecodeLoop m pIn len (i + advance (m (pIn + i))) (putUnit out p (decodeUnit m (pIn + i))) (p + 1)
  else (out, p)
termination_by len - i
decreasing_by
  have := advance_pos (m (pIn + i))
  omega

/-- `UTF8Decode`: the cells and the returned `(UINT)(p - pOut)`. -/
def utf8Decode (m : Mem) (pIn len : ℕ) (out : ℕ → UInt16) (pOut : ℕ) : (ℕ → UInt16) × ℕ :=
  let r := utf8DecodeLoop m pIn len 0 out pOut
  (r.1, (r.2 - pOut) % 2 ^ 32)

/-! ### The reference encoding -/

/-- The bytes of one unit. -/
def encodeUnit (c : UInt16) : List UInt8 :=
  let n := c.toNat
  if n < 0x80 then [UInt8.ofNat n]
  else if n < 0x800 then [UInt8.ofNat (0xc0 + n / 64), UInt8.ofNat (0x80 + n % 64)]
  else [UInt8.ofNat (0xe0 + n / 4096), UInt8.ofNat (0x80 + n / 64 % 64), UInt8.ofNat (0x80 + n % 64)]

/-- The bytes of a text. -/
def encoding (u : List UInt16) : List UInt8 := u.flatMap encodeUnit

@[simp] theorem encoding_nil : encoding [] = [] := rfl

@[simp] theorem encoding_cons (c : UInt16) (u : List UInt16) : encoding (c :: u) = encodeUnit c ++ encoding u := rfl

/-! ### Bit fields -/

section Fields

variable {n : ℕ}

/-- Masking behind a shift is shifting what is masked. -/
theorem and_shiftLeft (x y k : ℕ) : x &&& (y <<< k) = ((x >>> k) &&& y) <<< k := by
  refine Nat.eq_of_testBit_eq ?_
  intro i
  simp only [Nat.testBit_and, Nat.testBit_shiftLeft, Nat.testBit_shiftRight]
  by_cases h : k ≤ i
  · simp [h]
  · simp [h]

theorem low_six (n : ℕ) : 0x3f &&& n = n % 64 := by
  rw [Nat.and_comm]
  exact and_mask (k := 6) _ rfl

theorem continuation (n : ℕ) : (0x2 <<< 6) ||| (n % 64) = 0x80 + n % 64 := shiftLeft_or 2 (by omega)

theorem twoBytes_eq (h : n < 0x800) : twoBytes n = (0xc0 + n / 64) + 256 * (0x80 + n % 64) := by
  have h1 : (n >>> 6) &&& 0x1f = n / 64 := by
    rw [Nat.shiftRight_eq_div_pow, and_mask (k := 5) _ rfl, Nat.mod_eq_of_lt (by omega)]
  have e1 : (0x6 <<< 5) ||| (n / 64) = 0xc0 + n / 64 := shiftLeft_or 6 (by omega)
  have e2 : ((0x80 + n % 64) <<< 8) ||| (0xc0 + n / 64) = _ := shiftLeft_or _ (by omega)
  rw [twoBytes, h1, low_six, show 0x80c0 = ((0x2 <<< 6) <<< 8) ||| (0x6 <<< 5) from rfl]
  calc ((0x2 <<< 6) <<< 8 ||| 0x6 <<< 5) ||| n / 64 ||| (n % 64) <<< 8
      = ((0x2 <<< 6) <<< 8 ||| (n % 64) <<< 8) ||| (0x6 <<< 5 ||| n / 64) := by ac_rfl
    _ = ((0x80 + n % 64) <<< 8) ||| (0xc0 + n / 64) := by rw [← Nat.shiftLeft_or_distrib, e1, continuation]
    _ = _ := by rw [e2]; omega

theorem threeBytes_eq (h : n < 0x10000) :
    threeBytes n = (0xe0 + n / 4096) + 256 * (0x80 + n / 64 % 64) + 65536 * (0x80 + n % 64) := by
  have h1 : (n >>> 12) &&& 0xf = n / 4096 := by
    rw [Nat.shiftRight_eq_div_pow, and_mask (k := 4) _ rfl, Nat.mod_eq_of_lt (by omega)]
  have h2 : (n <<< 2) &&& 0x3f00 = (n / 64 % 64) <<< 8 := by
    rw [show 0x3f00 = 0x3f <<< 8 from rfl, and_shiftLeft, Nat.and_comm, low_six, Nat.shiftRight_eq_div_pow,
      Nat.shiftLeft_eq n]
    congr 2
    omega
  have e1 : (0xe <<< 4) ||| (n / 4096) = 0xe0 + n / 4096 := shiftLeft_or 0xe (by omega)
  have e2 : ((0x80 + n / 64 % 64) <<< 8) ||| (0xe0 + n / 4096) = _ := shiftLeft_or _ (by omega)
  have e3 : ((0x80 + n % 64) <<< 16) ||| ((0x80 + n / 64 % 64) * 2 ^ 8 + (0xe0 + n / 4096)) = _ :=
    shiftLeft_or _ (by omega)
  rw [threeBytes, h1, h2, low_six,
    show 0x8080e0 = ((0x2 <<< 6) <<< 16) ||| ((0x2 <<< 6) <<< 8) ||| (0xe <<< 4) from rfl]
  calc ((0x2 <<< 6) <<< 16 ||| (0x2 <<< 6) <<< 8 ||| 0xe <<< 4) ||| n / 4096 ||| (n / 64 % 64) <<< 8 |||
        (n % 64) <<< 16
      = ((0x2 <<< 6) <<< 16 ||| (n % 64) <<< 16) |||
          (((0x2 <<< 6) <<< 8 ||| (n / 64 % 64) <<< 8) ||| (0xe <<< 4 ||| n / 4096)) := by ac_rfl
    _ = ((0x80 + n % 64) <<< 16) ||| (((0x80 + n / 64 % 64) <<< 8) ||| (0xe0 + n / 4096)) := by
      rw [← Nat.shiftLeft_or_distrib, ← Nat.shiftLeft_or_distrib, e1, continuation, continuation]
    _ = _ := by rw [e2, e3]; omega

/-- The decoder's formula for two bytes. -/
theorem join_two {a b : ℕ} (ha : a < 32) (hb : b < 64) :
    (((0xc0 + a) &&& 0x1f) <<< 6) ||| ((0x80 + b) &&& 0x3f) = 64 * a + b := by
  rw [and_mask (k := 5) _ rfl, and_mask (k := 6) _ rfl, shiftLeft_or _ (by omega)]
  omega

/-- The decoder's formula for three bytes. -/
theorem join_three {a b c : ℕ} (ha : a < 16) (hb : b < 64) (hc : c < 64) :
    (((0xe0 + a) &&& 0xf) <<< 12) ||| (((0x80 + b) &&& 0x3f) <<< 6) ||| ((0x80 + c) &&& 0x3f) =
      4096 * a + 64 * b + c := by
  have hb' : ((0x80 + b) % 2 ^ 6) <<< 6 ||| (0x80 + c) % 2 ^ 6 = (0x80 + b) % 2 ^ 6 * 2 ^ 6 + (0x80 + c) % 2 ^ 6 :=
    shiftLeft_or _ (by omega)
  rw [and_mask (k := 4) _ rfl, and_mask (k := 6) _ rfl, and_mask (k := 6) _ rfl, Nat.or_assoc, hb',
    shiftLeft_or _ (by omega)]
  omega

end Fields

/-! ### What one unit becomes -/

theorem leBytes_twoBytes {c : UInt16} (h1 : 0x80 ≤ c.toNat) (h2 : c.toNat < 0x800) :
    leBytes 2 (twoBytes c.toNat) = encodeUnit c := by
  rw [twoBytes_eq h2, leBytes_succ _ _ (by omega), ← Nat.add_zero (0x80 + _), ← Nat.mul_zero 256,
    leBytes_succ _ _ (by omega)]
  simp only [leBytes, encodeUnit, if_neg (show ¬ c.toNat < 0x80 by omega), if_pos h2]

/-- The store for three bytes puts a zero behind them. -/
theorem leBytes_threeBytes {c : UInt16} (h : 0x800 ≤ c.toNat) :
    leBytes 4 (threeBytes c.toNat) = encodeUnit c ++ [0] := by
  have hlt : c.toNat < 0x10000 := c.toNat_lt
  have split : threeBytes c.toNat = (0xe0 + c.toNat / 4096) +
      256 * ((0x80 + c.toNat / 64 % 64) + 256 * ((0x80 + c.toNat % 64) + 256 * 0)) := by
    rw [threeBytes_eq hlt]
    ring
  rw [split, leBytes_succ _ _ (by omega), leBytes_succ _ _ (by omega), leBytes_succ _ _ (by omega)]
  simp only [leBytes, encodeUnit, if_neg (show ¬ c.toNat < 0x80 by omega), if_neg (show ¬ c.toNat < 0x800 by omega)]
  rfl

/-- The three cases of the encoder. -/
theorem unit_cases (c : UInt16) :
    (c ≤ 0x7f ∧ c.toNat < 0x80) ∨ (¬ c ≤ 0x7f ∧ c > 0x7ff ∧ 0x800 ≤ c.toNat) ∨
      (¬ c ≤ 0x7f ∧ ¬ c > 0x7ff ∧ 0x80 ≤ c.toNat ∧ c.toNat < 0x800) := by
  have h1 : c ≤ 0x7f ↔ c.toNat ≤ 0x7f := UInt16.le_iff_toNat_le
  have h2 : c > 0x7ff ↔ 0x7ff < c.toNat := UInt16.lt_iff_toNat_lt
  rw [h1, h2]
  omega

theorem length_encodeUnit (c : UInt16) :
    (encodeUnit c).length = if c ≤ 0x7f then 1 else if c > 0x7ff then 3 else 2 := by
  rcases unit_cases c with ⟨h, hn⟩ | ⟨h, h', hn⟩ | ⟨h, h', hn, hn'⟩
  · simp [encodeUnit, h, hn]
  · simp [encodeUnit, h, h', show ¬ c.toNat < 0x80 by omega, show ¬ c.toNat < 0x800 by omega]
  · simp [encodeUnit, h, h', hn', show ¬ c.toNat < 0x80 by omega]

theorem utf8EncodeLength_eq (u : List UInt16) : utf8EncodeLength u = (encoding u).length := by
  have key : ∀ n, u.foldl (fun outlen c => if c ≤ 0x7f then outlen + 1 else if c > 0x7ff then outlen + 3
      else outlen + 2) n = n + (encoding u).length := by
    induction u with
    | nil => simp
    | cons c u ih =>
      intro n
      rw [List.foldl_cons, ih, encoding_cons, List.length_append, length_encodeUnit]
      split_ifs <;> omega
  simpa [utf8EncodeLength] using key 0

/-! ### The encoder writes the encoding -/

/-- One round of the loop writes the bytes of a unit, and behind three of them a zero. -/
theorem encodeLoop_cons (m : Mem) (p : ℕ) (c : UInt16) (u : List UInt16) :
    ∃ spill : List UInt8, spill.length ≤ 1 ∧ utf8EncodeLoop m p (c :: u) =
      utf8EncodeLoop (memcpy m p (encodeUnit c ++ spill)) (p + (encodeUnit c).length) u := by
  have hlen := length_encodeUnit c
  rcases unit_cases c with ⟨h, hn⟩ | ⟨h, h', hn⟩ | ⟨h, h', hn, hn'⟩
  · refine ⟨[], by simp, ?_⟩
    have hbyte : encodeUnit c = [c.toUInt8] := by simp [encodeUnit, hn]
    rw [utf8EncodeLoop, if_pos h, hbyte]
    rfl
  · refine ⟨[0], by simp, ?_⟩
    rw [utf8EncodeLoop, if_neg h, if_pos h', store, leBytes_threeBytes hn, hlen, if_neg h, if_pos h']
  · refine ⟨[], by simp, ?_⟩
    rw [utf8EncodeLoop, if_neg h, if_neg h', store, leBytes_twoBytes hn hn', hlen, if_neg h, if_neg h',
      List.append_nil]

/-- **The encoder.** The loop leaves the encoding at `p`, ends behind it, and changes nothing else but
the one byte behind. -/
theorem encodeLoop_spec (u : List UInt16) (m : Mem) (p : ℕ) :
    (utf8EncodeLoop m p u).2 = p + (encoding u).length ∧ Holds (utf8EncodeLoop m p u).1 p (encoding u) ∧
      ∀ a, a < p ∨ p + (encoding u).length < a → (utf8EncodeLoop m p u).1 a = m a := by
  induction u generalizing m p with
  | nil => exact ⟨rfl, trivial, fun a _ => rfl⟩
  | cons c u ih =>
    obtain ⟨spill, hspill, hloop⟩ := encodeLoop_cons m p c u
    obtain ⟨hend, hold, hout⟩ := ih (memcpy m p (encodeUnit c ++ spill)) (p + (encodeUnit c).length)
    have hunit : Holds (memcpy m p (encodeUnit c ++ spill)) p (encodeUnit c) :=
      (holds_append.mp (holds_memcpy m p _)).1
    rw [hloop, encoding_cons, List.length_append]
    refine ⟨by omega, holds_append.mpr ⟨?_, hold⟩, ?_⟩
    · -- the later rounds do not touch the bytes in front of them
      exact hunit.congr fun a _ h2 => hout a (Or.inl h2)
    · intro a ha
      rw [hout a (by omega), memcpy_outside]
      rw [List.length_append]
      omega

/-! ### The decoder reads it back -/

section Decode

variable {m : Mem} {a : ℕ} {c : UInt16}

theorem toNat_byte {n : ℕ} (h : n < 256) : (UInt8.ofNat n).toNat = n := by
  rw [UInt8.toNat_ofNat', Nat.mod_eq_of_lt h]

theorem lead_ascii {n : ℕ} (h : n < 0x80) : UInt8.ofNat n ≤ 0x7f := by
  rw [UInt8.le_iff_toNat_le, toNat_byte (by omega)]
  exact Nat.le_of_lt_succ h

theorem lead_two {n : ℕ} (h : n < 32) :
    ¬ UInt8.ofNat (0xc0 + n) ≤ 0x7f ∧ ¬ UInt8.ofNat (0xc0 + n) &&& 0xf0 = 0xe0 ∧ UInt8.ofNat (0xc0 + n) &&& 0xe0 = 0xc0 := by
  interval_cases n <;> decide

theorem lead_three {n : ℕ} (h : n < 16) :
    ¬ UInt8.ofNat (0xe0 + n) ≤ 0x7f ∧ UInt8.ofNat (0xe0 + n) &&& 0xf0 = 0xe0 := by
  interval_cases n <;> decide

theorem advance_encodeUnit (h : Holds m a (encodeUnit c)) : advance (m a) = (encodeUnit c).length := by
  have hlt : c.toNat < 0x10000 := c.toNat_lt
  unfold encodeUnit at h ⊢
  simp only at h ⊢
  split_ifs at h ⊢ with h1 h2
  · rw [h.1, advance, if_pos (lead_ascii h1)]
    rfl
  · obtain ⟨e1, e2, e3⟩ := lead_two (n := c.toNat / 64) (by omega)
    rw [h.1, advance, if_neg e1, if_neg e2, if_pos e3]
    rfl
  · obtain ⟨e1, e2⟩ := lead_three (n := c.toNat / 4096) (by omega)
    rw [h.1, advance, if_neg e1, if_pos e2]
    rfl

theorem decodeUnit_encodeUnit (h : Holds m a (encodeUnit c)) : decodeUnit m a = some c := by
  have hlt : c.toNat < 0x10000 := c.toNat_lt
  unfold encodeUnit at h
  simp only at h
  split_ifs at h with h1 h2
  · rw [decodeUnit, h.1, if_pos (lead_ascii h1), toNat_byte (by omega)]
    simp
  · obtain ⟨e1, e2, e3⟩ := lead_two (n := c.toNat / 64) (by omega)
    have join := join_two (a := c.toNat / 64) (b := c.toNat % 64) (by omega) (by omega)
    rw [decodeUnit, h.1, if_neg e1, if_neg e2, if_pos e3, h.2.1, toNat_byte (by omega), toNat_byte (by omega), join,
      Nat.div_add_mod]
    simp
  · obtain ⟨e1, e2⟩ := lead_three (n := c.toNat / 4096) (by omega)
    have join := join_three (a := c.toNat / 4096) (b := c.toNat / 64 % 64) (c := c.toNat % 64) (by omega) (by omega)
      (by omega)
    have value : 4096 * (c.toNat / 4096) + 64 * (c.toNat / 64 % 64) + c.toNat % 64 = c.toNat := by omega
    have h3 : m (a + 2) = UInt8.ofNat (0x80 + c.toNat % 64) := h.2.2.1
    rw [decodeUnit, h.1, if_neg e1, if_pos e2, h.2.1, h3, toNat_byte (by omega), toNat_byte (by omega),
      toNat_byte (by omega), join, value]
    simp

theorem encodeUnit_pos (c : UInt16) : 0 < (encodeUnit c).length := by
  rw [length_encodeUnit]
  split_ifs <;> omega

theorem length_le_encoding (u : List UInt16) : u.length ≤ (encoding u).length := by
  induction u with
  | nil => simp
  | cons c u ih =>
    have := encodeUnit_pos c
    rw [encoding_cons, List.length_append, List.length_cons]
    omega

/-- The length predictor counts one unit for each sequence. -/
theorem decodeLengthLoop_eq (u : List UInt16) {pIn len i : ℕ} (outlen : ℕ) (h : Holds m (pIn + i) (encoding u))
    (hlen : len = i + (encoding u).length) : utf8DecodeLengthLoop m pIn len i outlen = outlen + u.length := by
  induction u generalizing i outlen with
  | nil =>
    rw [utf8DecodeLengthLoop, if_neg (by simp [hlen])]
    rfl
  | cons c u ih =>
    rw [encoding_cons, List.length_append] at hlen
    obtain ⟨h1, h2⟩ := holds_append.mp h
    have hpos := encodeUnit_pos c
    rw [utf8DecodeLengthLoop, if_pos (by omega), advance_encodeUnit h1,
      ih (outlen + 1) (by rwa [← Nat.add_assoc]) (by omega), List.length_cons]
    omega

/-- `out` holds the units `u` from the cell `q` on. -/
def HoldsUnits (out : ℕ → UInt16) (q : ℕ) (u : List UInt16) : Prop :=
  ∀ k (h : k < u.length), out (q + k) = u[k]

/-- **The decoder.** The loop writes the units one behind the other and leaves the cells in front alone. -/
theorem decodeLoop_eq (u : List UInt16) {pIn len i : ℕ} (out : ℕ → UInt16) (p : ℕ)
    (h : Holds m (pIn + i) (encoding u)) (hlen : len = i + (encoding u).length) :
    (utf8DecodeLoop m pIn len i out p).2 = p + u.length ∧ HoldsUnits (utf8DecodeLoop m pIn len i out p).1 p u ∧
      ∀ q, q < p → (utf8DecodeLoop m pIn len i out p).1 q = out q := by
  induction u generalizing i out p with
  | nil =>
    rw [utf8DecodeLoop, if_neg (by simp [hlen])]
    exact ⟨rfl, fun k hk => absurd hk (by simp), fun q _ => rfl⟩
  | cons c u ih =>
    rw [encoding_cons, List.length_append] at hlen
    obtain ⟨h1, h2⟩ := holds_append.mp h
    have hpos := encodeUnit_pos c
    obtain ⟨hend, hold, hfront⟩ := ih (Function.update out p c) (p + 1) (i := i + (encodeUnit c).length)
      (by rwa [← Nat.add_assoc]) (by omega)
    rw [utf8DecodeLoop, if_pos (by omega), advance_encodeUnit h1, decodeUnit_encodeUnit h1, putUnit]
    refine ⟨by rw [hend, List.length_cons]; omega, ?_, ?_⟩
    · intro k hk
      cases k with
      | zero =>
        have := hfront p (by omega)
        rw [Function.update_self] at this
        exact this
      | succ k =>
        have := hold k (by simpa using hk)
        rw [show p + (k + 1) = p + 1 + k by omega, this]
        simp
    · intro q hq
      rw [hfront q (by omega), Function.update_of_ne (by omega)]

end Decode

/-! ### The round trip -/

/-- **When UTF-8 round trips.** The encoder writes and reports `UTF8EncodeLength` bytes, these are the
reference encoding, and the decoder predicts, writes and reports the units: all of this holds exactly
when the encoding is shorter than the range of the `UINT` the counts are cast to. -/
theorem utf8_round_trip_iff (u : List UInt16) (m : Mem) (p : ℕ) (out : ℕ → UInt16) (q : ℕ) :
    ((utf8Encode u m p).2 = utf8EncodeLength u ∧ utf8EncodeLength u = (encoding u).length ∧
      Holds (utf8Encode u m p).1 p (encoding u) ∧
      utf8DecodeLength (utf8Encode u m p).1 p (utf8EncodeLength u) = u.length ∧
      (utf8Decode (utf8Encode u m p).1 p (utf8EncodeLength u) out q).2 = u.length ∧
      HoldsUnits (utf8Decode (utf8Encode u m p).1 p (utf8EncodeLength u) out q).1 q u) ↔
    (encoding u).length < 2 ^ 32 := by
  obtain ⟨hend, hold, -⟩ := encodeLoop_spec u m p
  have hcount : (utf8Encode u m p).2 = (encoding u).length % 2 ^ 32 := by
    simp only [utf8Encode, hend, Nat.add_sub_cancel_left]
  have hlen := utf8EncodeLength_eq u
  constructor
  · rintro ⟨h, -⟩
    rw [hcount, hlen] at h
    have := Nat.mod_lt (encoding u).length (show 0 < 2 ^ 32 by norm_num)
    omega
  · intro hlt
    have hold' : Holds (utf8EncodeLoop m p u).1 (p + 0) (encoding u) := hold
    obtain ⟨hend', hunits, -⟩ := decodeLoop_eq u out q hold' (Nat.zero_add (encoding u).length).symm
    have hcount' := decodeLengthLoop_eq u 0 hold' (Nat.zero_add (encoding u).length).symm
    have hle := length_le_encoding u
    refine ⟨?_, hlen, hold, ?_, ?_, ?_⟩
    · rw [hcount, hlen, Nat.mod_eq_of_lt hlt]
    · rw [hlen, utf8DecodeLength, utf8Encode, hcount', Nat.zero_add]
    · rw [hlen]
      simp only [utf8Decode, utf8Encode, hend', Nat.add_sub_cancel_left]
      exact Nat.mod_eq_of_lt (by omega)
    · rw [hlen]
      exact hunits

/-- Of `2^32` letters the encoder reports no byte at all. -/
theorem utf8_round_trip_fails :
    (encoding (List.replicate (2 ^ 32) 0x61)).length = 2 ^ 32 ∧
      (∀ (m : Mem) (p : ℕ), (utf8Encode (List.replicate (2 ^ 32) 0x61) m p).2 = 0) ∧
      ¬ ∀ (u : List UInt16) (m : Mem) (p : ℕ), (utf8Encode u m p).2 = utf8EncodeLength u := by
  have hlen : ∀ n, (encoding (List.replicate n 0x61)).length = n := by
    intro n
    induction n with
    | zero => rfl
    | succ n ih =>
      rw [List.replicate_succ, encoding_cons, List.length_append, ih]
      exact Nat.add_comm 1 n
  have hzero : ∀ (m : Mem) (p : ℕ), (utf8Encode (List.replicate (2 ^ 32) 0x61) m p).2 = 0 := by
    intro m p
    obtain ⟨hend, -⟩ := encodeLoop_spec (List.replicate (2 ^ 32) 0x61) m p
    rw [utf8Encode, hend, hlen, Nat.add_sub_cancel_left, Nat.mod_self]
  refine ⟨hlen _, hzero, ?_⟩
  intro hall
  have h := hall (List.replicate (2 ^ 32) 0x61) (fun _ => 0) 0
  rw [hzero, utf8EncodeLength_eq, hlen] at h
  norm_num at h

end Cpcf.Os.Utf8
