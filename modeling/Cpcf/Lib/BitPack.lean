import Mathlib.Data.Nat.Bitwise
import Mathlib.Tactic

/-!
Bit fields packed by shifts, masks and disjunctions, as arithmetic.

A codec that cuts bytes into groups of bits writes `((x & mask) << k) | (y >> l)`. The lemmas here
turn each of these operations on natural numbers into a division, a remainder or a sum, after
which packing and unpacking are linear arithmetic.
-/

namespace Cpcf.Lib.BitPack

/-- Shifting left and filling the freed low bits is a sum. -/
theorem shiftLeft_or {x k : ℕ} (y : ℕ) (h : x < 2 ^ k) : (y <<< k) ||| x = y * 2 ^ k + x := by
  rw [← Nat.shiftLeft_add_eq_or_of_lt h, Nat.shiftLeft_eq]

/-- A mask of the low `k` bits is a remainder. -/
theorem and_mask {mask k : ℕ} (x : ℕ) (h : mask + 1 = 2 ^ k) : x &&& mask = x % 2 ^ k := by
  rw [show mask = 2 ^ k - 1 by omega]
  exact Nat.and_two_pow_sub_one_eq_mod x k

/-- What is above a mask of the low `j` bits, in a word of `w` bits. -/
theorem and_xor_mask {w j x : ℕ} (hx : x < 2 ^ w) : x &&& ((2 ^ w - 1) ^^^ (2 ^ j - 1)) = 2 ^ j * (x / 2 ^ j) := by
  rw [Nat.and_xor_distrib_left, Nat.and_two_pow_sub_one_eq_mod, Nat.and_two_pow_sub_one_eq_mod,
    Nat.mod_eq_of_lt hx]
  refine Nat.eq_of_testBit_eq fun i => ?_
  rw [Nat.testBit_xor, Nat.testBit_mod_two_pow, Nat.mul_comm, ← Nat.shiftLeft_eq, Nat.testBit_shiftLeft,
    Nat.testBit_div_two_pow]
  by_cases h : i < j
  · simp [h]
  · have : j ≤ i := by omega
    simp [h, this]

/-- A byte is determined by its value. -/
theorem ofNat_eq_of_mod {n : ℕ} {b : UInt8} (h : n % 256 = b.toNat) : UInt8.ofNat n = b := by
  apply UInt8.toNat_inj.mp
  rw [UInt8.toNat_ofNat']
  exact h

end Cpcf.Lib.BitPack
