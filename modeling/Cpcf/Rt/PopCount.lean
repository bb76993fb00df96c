import Cpcf.Lib.BitCount

/-!
`rt::PopCount` of `rt/runtime_base.h`: the number of bits of a word, counted in parallel.

The bits are added within fields of two, four and eight bits, and then the eight bytes are added into the
lowest one. The first three steps are done byte by byte, and no byte overflows.
-/

namespace Cpcf.Rt.PopCount

open Cpcf.Lib.BitCount

/-- `m1`: 0101... -/
def m1 : BitVec 64 := 0x5555555555555555#64

/-- `m2`: 00110011... -/
def m2 : BitVec 64 := 0x3333333333333333#64

/-- `m4`: 4 zeros, 4 ones ... -/
def m4 : BitVec 64 := 0x0f0f0f0f0f0f0f0f#64

/-- `PopCount(x)`. -/
def popCount (x : BitVec 64) : ℕ :=
  let x := x - ((x >>> 1) &&& m1)
  let x := (x &&& m2) + ((x >>> 2) &&& m2)
  let x := (x + (x >>> 4)) &&& m4
  let x := x + (x >>> 8)
  let x := x + (x >>> 16)
  let x := x + (x >>> 32)
  (x &&& 0x7f#64).toNat

/-! ### One byte -/

/-- The first step on a byte. -/
def pairs (f : ℕ) : ℕ := f - (f >>> 1 &&& 0x55)

/-- The second step on a byte. -/
def nibbles (f : ℕ) : ℕ := (pairs f &&& 0x33) + (pairs f >>> 2 &&& 0x33)

/-- Within a byte nothing overflows, and the third step gives the number of its bits. -/
theorem byte_steps : ∀ f < 256, (f >>> 1 &&& 0x55) ≤ f ∧ pairs f < 256 ∧ nibbles f < 256 ∧ nibbles f % 16 ≤ 4 ∧
    nibbles f / 16 ≤ 4 ∧ nibbles f % 16 + nibbles f / 16 = bitCount f 8 := by
  set_option maxRecDepth 20000 in decide

theorem bitCount_byte_le (f : ℕ) : bitCount f 8 ≤ 8 := by
  have := List.length_filter_le (f.testBit ·) (List.range 8)
  rwa [List.length_range] at this

/-! ### The eight bytes -/

section Word

variable {x y : BitVec 64} {L : List ℕ}

theorem toNat_m1 (hlen : L.length = 8) : m1.toNat = Nat.ofDigits (2 ^ 8) (List.replicate L.length 0x55) := by
  rw [hlen]
  decide

theorem toNat_m2 (hlen : L.length = 8) : m2.toNat = Nat.ofDigits (2 ^ 8) (List.replicate L.length 0x33) := by
  rw [hlen]
  decide

theorem toNat_m4 (hlen : L.length = 8) :
    m4.toNat = Nat.ofDigits (2 ^ (4 + 4)) (List.replicate L.length (2 ^ 4 - 1)) := by
  rw [hlen]
  decide

/-- Eight bytes are a word. -/
theorem ofDigits_lt (hlen : L.length = 8) (hL : ∀ f ∈ L, f < 256) : Nat.ofDigits (2 ^ 8) L < 2 ^ 64 := by
  have := Nat.ofDigits_lt_base_pow_length (b := 2 ^ 8) (by decide) hL
  rwa [hlen] at this

theorem pairs_word (hlen : L.length = 8) (hL : ∀ f ∈ L, f < 256) (hx : x.toNat = Nat.ofDigits (2 ^ 8) L) :
    (x - ((x >>> 1) &&& m1)).toNat = Nat.ofDigits (2 ^ 8) (L.map pairs) := by
  have hmask : ((x >>> 1) &&& m1).toNat = Nat.ofDigits (2 ^ 8) (L.map fun f => f >>> 1 &&& 0x55) := by
    rw [BitVec.toNat_and, BitVec.toNat_ushiftRight, hx, toNat_m1 hlen]
    exact ofDigits_shift_and (by decide) (by decide) hL
  have hsub := ofDigits_map_sub (2 ^ 8) id (fun f => f >>> 1 &&& 0x55) L fun f hf => (byte_steps f (hL f hf)).1
  rw [List.map_id] at hsub
  have hle : ((x >>> 1) &&& m1).toNat ≤ x.toNat := by
    rw [BitVec.toNat_and, BitVec.toNat_ushiftRight]
    exact Nat.and_le_left.trans (Nat.shiftRight_le _ _)
  rw [BitVec.toNat_sub_of_le hle, hmask, hx, hsub]
  rfl

theorem nibbles_word (hlen : L.length = 8) (hL : ∀ f ∈ L, f < 256) (hx : x.toNat = Nat.ofDigits (2 ^ 8) (L.map pairs)) :
    ((x &&& m2) + ((x >>> 2) &&& m2)).toNat = Nat.ofDigits (2 ^ 8) (L.map nibbles) := by
  have hlen' : (L.map pairs).length = 8 := by rw [List.length_map, hlen]
  have hpairs : ∀ f ∈ L.map pairs, f < 2 ^ 8 := by
    simp only [List.forall_mem_map]
    exact fun f hf => (byte_steps f (hL f hf)).2.1
  have hlow : (x &&& m2).toNat = Nat.ofDigits (2 ^ 8) ((L.map pairs).map fun f => f &&& 0x33) := by
    rw [BitVec.toNat_and, hx, toNat_m2 hlen']
    exact ofDigits_and (by decide) hpairs
  have hhigh : ((x >>> 2) &&& m2).toNat = Nat.ofDigits (2 ^ 8) ((L.map pairs).map fun f => f >>> 2 &&& 0x33) := by
    rw [BitVec.toNat_and, BitVec.toNat_ushiftRight, hx, toNat_m2 hlen']
    exact ofDigits_shift_and (by decide) (by decide) hpairs
  have hsum : (x &&& m2).toNat + ((x >>> 2) &&& m2).toNat = Nat.ofDigits (2 ^ 8) (L.map nibbles) := by
    rw [hlow, hhigh, ofDigits_map_add, List.map_map]
    rfl
  have hlt : Nat.ofDigits (2 ^ 8) (L.map nibbles) < 2 ^ 64 := by
    refine ofDigits_lt (by rw [List.length_map, hlen]) ?_
    simp only [List.forall_mem_map]
    exact fun f hf => (byte_steps f (hL f hf)).2.2.1
  rw [BitVec.toNat_add, hsum, Nat.mod_eq_of_lt hlt]

theorem bytes_word (hlen : L.length = 8) (hL : ∀ f ∈ L, f < 256)
    (hx : x.toNat = Nat.ofDigits (2 ^ 8) (L.map nibbles)) :
    ((x + (x >>> 4)) &&& m4).toNat = Nat.ofDigits (2 ^ 8) (L.map (bitCount · 8)) := by
  have hlen' : (L.map nibbles).length = 8 := by rw [List.length_map, hlen]
  have hnibbles : ∀ f ∈ L.map nibbles, f % 2 ^ 4 ≤ 4 ∧ f / 2 ^ 4 ≤ 4 := by
    simp only [List.forall_mem_map]
    exact fun f hf => ⟨(byte_steps f (hL f hf)).2.2.2.1, (byte_steps f (hL f hf)).2.2.2.2.1⟩
  have hhalves := ofDigits_halves (s := 4) (by decide) hnibbles
  have hm4 : m4.toNat < 2 ^ 64 := m4.isLt
  rw [BitVec.toNat_and, BitVec.toNat_add, BitVec.toNat_ushiftRight, ← Nat.mod_eq_of_lt hm4, ← Nat.and_mod_two_pow,
    Nat.mod_eq_of_lt (Nat.and_lt_two_pow _ hm4), toNat_m4 hlen', hx]
  refine hhalves.trans ?_
  rw [List.map_map]
  congr 1
  exact List.map_congr_left fun f hf => (byte_steps f (hL f hf)).2.2.2.2.2

theorem add_mul_div_byte {a b : ℕ} (ha : a < 2 ^ 8) : (a + 2 ^ 8 * b) / 2 ^ 8 = b := by omega

/-- Only the lowest bytes count for the low bits of a sum. -/
theorem low_bits_add {a b c d : ℕ} (h : a + c < 2 ^ 7) : (a + 2 ^ 8 * b + (c + 2 ^ 8 * d)) % 2 ^ 7 = a + c := by omega

/-- The bytes are added into the lowest one. -/
theorem add_bytes {c₀ c₁ c₂ c₃ c₄ c₅ c₆ c₇ : ℕ} (hx : x.toNat = Nat.ofDigits (2 ^ 8) [c₀, c₁, c₂, c₃, c₄, c₅, c₆, c₇])
    (hc : ∀ c ∈ [c₀, c₁, c₂, c₃, c₄, c₅, c₆, c₇], c ≤ 8) :
    ((x + (x >>> 8) + ((x + (x >>> 8)) >>> 16) + ((x + (x >>> 8) + ((x + (x >>> 8)) >>> 16)) >>> 32)) &&&
      0x7f#64).toNat = [c₀, c₁, c₂, c₃, c₄, c₅, c₆, c₇].sum := by
  have h7f : (0x7f#64).toNat = 2 ^ 7 - 1 := by decide
  simp only [Nat.ofDigits_cons, Nat.ofDigits_nil] at hx
  simp only [List.forall_mem_cons] at hc
  simp only [BitVec.toNat_and, BitVec.toNat_add, BitVec.toNat_ushiftRight, Nat.shiftRight_eq_div_pow, h7f,
    Nat.and_two_pow_sub_one_eq_mod, List.sum_cons, List.sum_nil]
  generalize x.toNat = y at hx
  -- the sums of two, of four and of eight neighbouring bytes
  have htwo : (y + y / 2 ^ 8) % 2 ^ 64 = (c₀ + c₁) + 2 ^ 8 * ((c₁ + c₂) + 2 ^ 8 * ((c₂ + c₃) + 2 ^ 8 * ((c₃ + c₄) +
      2 ^ 8 * ((c₄ + c₅) + 2 ^ 8 * ((c₅ + c₆) + 2 ^ 8 * ((c₆ + c₇) + 2 ^ 8 * c₇)))))) := by
    have hdiv : y / 2 ^ 8 = c₁ + 2 ^ 8 * (c₂ + 2 ^ 8 * (c₃ + 2 ^ 8 * (c₄ + 2 ^ 8 * (c₅ + 2 ^ 8 * (c₆ + 2 ^ 8 * c₇))))) := by
      rw [hx, add_mul_div_byte (by omega), Nat.mul_zero, Nat.add_zero]
    rw [hdiv, Nat.mod_eq_of_lt (by omega)]
    omega
  generalize (y + y / 2 ^ 8) % 2 ^ 64 = z at htwo
  clear hx
  have hfour : (z + z / 2 ^ 16) % 2 ^ 64 = (c₀ + c₁ + c₂ + c₃) + 2 ^ 8 * ((c₁ + c₂ + c₃ + c₄) +
      2 ^ 8 * ((c₂ + c₃ + c₄ + c₅) + 2 ^ 8 * ((c₃ + c₄ + c₅ + c₆) + 2 ^ 8 * ((c₄ + c₅ + c₆ + c₇) +
        2 ^ 8 * ((c₅ + c₆ + c₇) + 2 ^ 8 * ((c₆ + c₇) + 2 ^ 8 * c₇)))))) := by
    have hdiv : z / 2 ^ 16 = (c₂ + c₃) + 2 ^ 8 * ((c₃ + c₄) + 2 ^ 8 * ((c₄ + c₅) + 2 ^ 8 * ((c₅ + c₆) +
        2 ^ 8 * ((c₆ + c₇) + 2 ^ 8 * c₇)))) := by
      rw [htwo, show 2 ^ 16 = 2 ^ 8 * 2 ^ 8 from rfl, ← Nat.div_div_eq_div_mul, add_mul_div_byte (by omega),
        add_mul_div_byte (by omega)]
    rw [hdiv, htwo, Nat.mod_eq_of_lt (by omega)]
    omega
  generalize (z + z / 2 ^ 16) % 2 ^ 64 = u at hfour
  clear htwo
  have hdiv : u / 2 ^ 32 = (c₄ + c₅ + c₆ + c₇) + 2 ^ 8 * ((c₅ + c₆ + c₇) + 2 ^ 8 * ((c₆ + c₇) + 2 ^ 8 * c₇)) := by
    rw [hfour, show 2 ^ 32 = 2 ^ 8 * 2 ^ 8 * 2 ^ 8 * 2 ^ 8 from rfl, ← Nat.div_div_eq_div_mul, ← Nat.div_div_eq_div_mul,
      ← Nat.div_div_eq_div_mul, add_mul_div_byte (by omega), add_mul_div_byte (by omega), add_mul_div_byte (by omega),
      add_mul_div_byte (by omega)]
  have hsum : c₀ + c₁ + c₂ + c₃ + (c₄ + c₅ + c₆ + c₇) < 2 ^ 7 := by
    clear hfour hdiv
    omega
  rw [Nat.mod_mod_of_dvd _ (by decide : 2 ^ 7 ∣ 2 ^ 64), hdiv, hfour, low_bits_add hsum]
  simp only [Nat.add_assoc, Nat.add_zero]

/-- **The count of the bits of a word.** -/
theorem popCount_eq (x : BitVec 64) : popCount x = bitCount x.toNat 64 := by
  have hL : ∀ f ∈ fields 8 8 x.toNat, f < 256 := fun f hf => lt_of_mem_fields hf
  have hlen := length_fields 8 8 x.toNat
  have hx : x.toNat = Nat.ofDigits (2 ^ 8) (fields 8 8 x.toNat) := (ofDigits_fields x.isLt).symm
  have hbytes := bytes_word hlen hL (nibbles_word hlen hL (pairs_word hlen hL hx))
  have hcount := bitCount_fields 8 8 x.toNat
  have hle : ∀ c ∈ (fields 8 8 x.toNat).map (bitCount · 8), c ≤ 8 := by
    simp only [List.forall_mem_map]
    exact fun f _ => bitCount_byte_le f
  rw [hcount]
  exact add_bytes hbytes hle

end Word

end Cpcf.Rt.PopCount
