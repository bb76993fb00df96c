import Cpcf.Lib.Memory

/-!
Little-endian words in a byte memory.

A field of `n` bytes at the address `p` is written by `store` and read back by `load`. A word that
does not fit is cut to its low bytes, as an assignment to a narrower field cuts it; a number that is
assigned to an `int` is cut to 32 bits and read as a signed one.
-/

namespace Cpcf.Lib.Word

open Cpcf.Lib.Memory

/-- The low `n` bytes of a number, the least significant first. -/
def leBytes : ℕ → ℕ → List UInt8
  | 0, _ => []
  | n + 1, v => UInt8.ofNat v :: leBytes n (v / 256)

attribute [local simp] leBytes

/-- The number whose bytes are `xs`. -/
def leValue : List UInt8 → ℕ
  | [] => 0
  | b :: xs => b.toNat + 256 * leValue xs

@[simp] theorem length_leBytes (n v : ℕ) : (leBytes n v).length = n := by
  induction n generalizing v with
  | zero => rfl
  | succ n ih => simp [ih]

/-- A number given by its lowest byte and the rest. -/
theorem leBytes_succ {x : ℕ} (n v : ℕ) (h : x < 256) : leBytes (n + 1) (x + 256 * v) = UInt8.ofNat x :: leBytes n v := by
  have low : UInt8.ofNat (x + 256 * v) = UInt8.ofNat x := by
    rw [UInt8.ofNat_eq_iff_mod_eq_toNat, UInt8.toNat_ofNat']
    omega
  have rest : (x + 256 * v) / 256 = v := by omega
  rw [leBytes, low, rest]

theorem leValue_leBytes (n v : ℕ) : leValue (leBytes n v) = v % 256 ^ n := by
  induction n generalizing v with
  | zero => simp [leValue, Nat.mod_one]
  | succ n ih =>
    have byte : (UInt8.ofNat v).toNat = v % 256 := UInt8.toNat_ofNat'
    rw [leBytes, leValue, ih, byte, pow_succ', Nat.mod_mul]

/-- `*(word*)p = v` for a word of `n` bytes. -/
def store (m : Mem) (p n v : ℕ) : Mem := memcpy m p (leBytes n v)

/-- `*(word*)p` for a word of `n` bytes. -/
def load (m : Mem) (p n : ℕ) : ℕ := leValue (read m p n)

section

variable (m : Mem) {p q n k : ℕ} (v : ℕ)

theorem load_store_same : load (store m p n v) p n = v % 256 ^ n := by
  have h := (holds_memcpy m p (leBytes n v)).read_eq
  rw [length_leBytes] at h
  rw [load, store, h, leValue_leBytes]

theorem store_outside {a : ℕ} (h : a < p ∨ p + n ≤ a) : store m p n v a = m a :=
  memcpy_outside m _ (by simpa using h)

variable {m}

/-- Only the cells of the word matter. -/
theorem load_congr {m' : Mem} (h : ∀ a, p ≤ a → a < p + n → m' a = m a) : load m' p n = load m p n := by
  rw [load, load, read_congr h]

/-- A word of zero bytes. -/
theorem load_eq_zero (h : ∀ a, p ≤ a → a < p + n → m a = 0) : load m p n = 0 := by
  induction n generalizing p with
  | zero => rfl
  | succ n ih =>
    have hrest := ih (p := p + 1) fun a h1 h2 => h a (by omega) (by omega)
    rw [load] at hrest ⊢
    rw [Cpcf.Lib.Memory.read, leValue, hrest, h p le_rfl (by omega)]
    rfl

/-- A word is not changed by a store beside it. -/
theorem load_store_other (h : p + n ≤ q ∨ q + k ≤ p) : load (store m q k v) p n = load m p n :=
  load_congr fun a h1 h2 => store_outside m v (by omega)

end

/-! ### Signed words -/

theorem bmod_int {x : ℤ} (h1 : -2 ^ 31 ≤ x) (h2 : x < 2 ^ 31) : x.bmod (2 ^ 32) = x := by
  rw [Int.bmod_def]
  split <;> omega

/-- A number as an `int`. -/
def intOf (x : ℤ) : ℤ := x.bmod (2 ^ 32)

theorem intOf_eq {x : ℤ} (h1 : -2 ^ 31 ≤ x) (h2 : x < 2 ^ 31) : intOf x = x := bmod_int h1 h2

theorem intOf_bounds (x : ℤ) : -2 ^ 31 ≤ intOf x ∧ intOf x < 2 ^ 31 := by
  rw [intOf, Int.bmod_def]
  omega

theorem intOf_modEq (x : ℤ) : intOf x ≡ x [ZMOD 2 ^ 32] := Int.bmod_emod

/-- Only the low 32 bits matter. -/
theorem intOf_congr {x y : ℤ} (h : x ≡ y [ZMOD 2 ^ 32]) : intOf x = intOf y := by
  have h : x % 2 ^ 32 = y % 2 ^ 32 := h
  rw [intOf, intOf, Int.bmod_def, Int.bmod_def]
  norm_num at h ⊢
  rw [h]

theorem intOf_le {n : ℕ} (h : n < 2 ^ 32) : intOf n ≤ n := by
  rw [intOf, Int.bmod_def]
  split <;> omega

/-- A number as a signed word of 64 bits. -/
def longOf (x : ℤ) : ℤ := x.bmod (2 ^ 64)

theorem longOf_eq {x : ℤ} (h1 : -2 ^ 63 ≤ x) (h2 : x < 2 ^ 63) : longOf x = x := by
  rw [longOf, Int.bmod_def]
  omega

end Cpcf.Lib.Word
