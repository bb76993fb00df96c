import Mathlib.Data.List.Basic
import Mathlib.Logic.Function.Basic
import Mathlib.Tactic

/-!
A flat byte memory and the texts it holds.

Addresses are natural numbers and every address holds a byte, so a pointer of a C program is a
number and reading through it never fails. `Holds m p xs` says that the bytes `xs` stand in `m`
from the address `p` on; it splits along `++`, which is how a scanner is followed over a text put
together from pieces. `memcpy` writes a list of bytes, `read` reads one back, and `scanWhile` is
the loop `while(p < end && c(*p)) p++`.
-/

namespace Cpcf.Lib.Memory

/-- A flat byte memory. -/
abbrev Mem := ℕ → UInt8

/-- The bytes `xs` stand in `m` from the address `p` on. -/
def Holds (m : Mem) : ℕ → List UInt8 → Prop
  | _, [] => True
  | p, b :: xs => m p = b ∧ Holds m (p + 1) xs

instance decidableHolds (m : Mem) : ∀ (p : ℕ) (xs : List UInt8), Decidable (Holds m p xs)
  | _, [] => isTrue trivial
  | p, b :: xs =>
    have := decidableHolds m (p + 1) xs
    inferInstanceAs (Decidable (m p = b ∧ Holds m (p + 1) xs))

section Holds

variable {m : Mem} {p : ℕ} {xs ys : List UInt8} {b : UInt8}

@[simp] theorem holds_nil : Holds m p [] := trivial

@[simp] theorem holds_cons : Holds m p (b :: xs) ↔ m p = b ∧ Holds m (p + 1) xs := Iff.rfl

@[simp] theorem holds_append :
    Holds m p (xs ++ ys) ↔ Holds m p xs ∧ Holds m (p + xs.length) ys := by
  induction xs generalizing p with
  | nil => simp
  | cons b xs ih =>
    have e : p + 1 + xs.length = p + (xs.length + 1) := by omega
    simp only [List.cons_append, holds_cons, ih, List.length_cons, e, and_assoc]

theorem Holds.get (h : Holds m p xs) {i : ℕ} (hi : i < xs.length) : m (p + i) = xs[i] := by
  induction xs generalizing p i with
  | nil => simp at hi
  | cons b xs ih =>
    cases i with
    | zero => simpa using h.1
    | succ i =>
      have := ih h.2 (i := i) (by simpa using hi)
      rw [show p + (i + 1) = p + 1 + i by omega, this]
      simp

theorem holds_iff : Holds m p xs ↔ ∀ i (hi : i < xs.length), m (p + i) = xs[i] := by
  refine ⟨fun h i hi => h.get hi, fun h => ?_⟩
  induction xs generalizing p with
  | nil => simp
  | cons b xs ih =>
    refine ⟨h 0 (by simp), ih fun i hi => ?_⟩
    have := h (i + 1) (by simpa using hi)
    rw [show p + 1 + i = p + (i + 1) by omega, this]
    simp

/-- Only the cells of the text matter. -/
theorem Holds.congr {m' : Mem} (h : Holds m p xs)
    (hm : ∀ a, p ≤ a → a < p + xs.length → m' a = m a) : Holds m' p xs := by
  rw [holds_iff] at h ⊢
  intro i hi
  rw [hm _ (by omega) (by omega), h i hi]

end Holds

/-! ### A memory with a given text -/

/-- The memory that holds `xs` at `base` and zero bytes elsewhere. -/
def ofBytes (base : ℕ) (xs : List UInt8) : Mem := fun a =>
  if base ≤ a then xs.getD (a - base) 0 else 0

theorem holds_ofBytes (base : ℕ) (xs : List UInt8) : Holds (ofBytes base xs) base xs := by
  rw [holds_iff]
  intro i hi
  simp [ofBytes, hi]

/-! ### Reading and writing -/

/-- The `n` bytes from `p` on. -/
def read (m : Mem) : ℕ → ℕ → List UInt8
  | _, 0 => []
  | p, n + 1 => m p :: read m (p + 1) n

attribute [local simp] read

@[simp] theorem length_read (m : Mem) (p n : ℕ) : (read m p n).length = n := by
  induction n generalizing p with
  | zero => rfl
  | succ n ih => simp [ih]

theorem read_add (m : Mem) (p a b : ℕ) : read m p (a + b) = read m p a ++ read m (p + a) b := by
  induction a generalizing p with
  | zero => simp
  | succ a ih => rw [Nat.add_right_comm, read, ih, read, List.cons_append, Nat.add_assoc p, Nat.add_comm 1]

theorem read_take (m : Mem) (p n k : ℕ) : read m p (min n k) = (read m p k).take n := by
  obtain hle | hle := Nat.le_total n k
  · obtain ⟨l, rfl⟩ := Nat.exists_eq_add_of_le hle
    rw [Nat.min_eq_left hle, read_add, List.take_left' (length_read _ _ _)]
  · rw [Nat.min_eq_right hle, List.take_of_length_le (by rw [length_read]; exact hle)]

theorem read_drop (m : Mem) (p : ℕ) {n k : ℕ} (hle : n ≤ k) : read m (p + n) (k - n) = (read m p k).drop n := by
  obtain ⟨l, rfl⟩ := Nat.exists_eq_add_of_le hle
  rw [read_add, List.drop_left' (length_read _ _ _), Nat.add_sub_cancel_left]

theorem Holds.read_eq {m : Mem} {p : ℕ} {xs : List UInt8} (h : Holds m p xs) :
    read m p xs.length = xs := by
  induction xs generalizing p with
  | nil => rfl
  | cons b xs ih => simp [h.1, ih h.2]

theorem holds_read (m : Mem) (p n : ℕ) : Holds m p (read m p n) := by
  induction n generalizing p with
  | zero => trivial
  | succ n ih => exact ⟨rfl, ih (p + 1)⟩

/-- Only the cells that are read matter. -/
theorem read_congr {m m' : Mem} {p n : ℕ} (h : ∀ a, p ≤ a → a < p + n → m' a = m a) : read m' p n = read m p n := by
  have hold : Holds m' p (read m p n) := (holds_read m p n).congr (by simpa using h)
  simpa using hold.read_eq

/-- One byte written. -/
def poke (m : Mem) (p : ℕ) (b : UInt8) : Mem := Function.update m p b

@[simp] theorem poke_same (m : Mem) (p : ℕ) (b : UInt8) : poke m p b p = b := by
  simp [poke]

theorem poke_other (m : Mem) {p a : ℕ} (b : UInt8) (h : a ≠ p) : poke m p b a = m a := by
  simp [poke, h]

/-- `memcpy(p, xs, |xs|)`. -/
def memcpy (m : Mem) : ℕ → List UInt8 → Mem
  | _, [] => m
  | p, b :: xs => memcpy (poke m p b) (p + 1) xs

attribute [local simp] memcpy

theorem memcpy_nil (m : Mem) (p : ℕ) : memcpy m p [] = m := rfl

theorem memcpy_cons (m : Mem) (p : ℕ) (b : UInt8) (xs : List UInt8) :
    memcpy m p (b :: xs) = memcpy (poke m p b) (p + 1) xs := rfl

theorem memcpy_append (m : Mem) (p : ℕ) (xs ys : List UInt8) :
    memcpy m p (xs ++ ys) = memcpy (memcpy m p xs) (p + xs.length) ys := by
  induction xs generalizing m p with
  | nil => rfl
  | cons b xs ih =>
    rw [List.cons_append, memcpy, ih, memcpy, List.length_cons, Nat.add_right_comm p 1]
    rfl

theorem memcpy_outside (m : Mem) (xs : List UInt8) {p a : ℕ} (h : a < p ∨ p + xs.length ≤ a) :
    memcpy m p xs a = m a := by
  induction xs generalizing m p with
  | nil => rfl
  | cons b xs ih =>
    simp only [List.length_cons] at h
    rw [memcpy, ih (poke m p b) (by omega), poke_other _ _ (by omega)]

theorem holds_memcpy (m : Mem) (p : ℕ) (xs : List UInt8) : Holds (memcpy m p xs) p xs := by
  induction xs generalizing m p with
  | nil => trivial
  | cons b xs ih =>
    refine ⟨?_, ih _ _⟩
    rw [memcpy, memcpy_outside _ _ (by omega), poke_same]

/-- A text outside the written cells is left alone. -/
theorem Holds.memcpy {m : Mem} {p q : ℕ} {xs ys : List UInt8} (h : Holds m p xs)
    (hd : p + xs.length ≤ q ∨ q + ys.length ≤ p) : Holds (memcpy m q ys) p xs :=
  h.congr fun a h1 h2 => memcpy_outside m ys (by omega)

/-- So it is when one other cell is written. -/
protected theorem Holds.poke {m : Mem} {p a : ℕ} {xs : List UInt8} {b : UInt8} (h : Holds m p xs)
    (ha : a < p ∨ p + xs.length ≤ a) : Holds (poke m a b) p xs :=
  h.congr fun c h1 h2 => poke_other m b (by omega)

/-! ### Scanning forward -/

/-- `while(p < end && c(*p)) p++; return p;` with `n = end - p` cells left. -/
def scanWhile (m : Mem) (c : UInt8 → Bool) : ℕ → ℕ → ℕ
  | p, 0 => p
  | p, n + 1 => if c (m p) then scanWhile m c (p + 1) n else p

attribute [local simp] scanWhile

/-- The loop runs over a text all of whose bytes pass and stops at the first byte after it that
does not, or at the end. -/
theorem scanWhile_eq {m : Mem} {c : UInt8 → Bool} {p n : ℕ} {xs : List UInt8} (h : Holds m p xs)
    (hc : ∀ b ∈ xs, c b = true) (hn : xs.length ≤ n)
    (hstop : xs.length < n → c (m (p + xs.length)) = false) :
    scanWhile m c p n = p + xs.length := by
  induction xs generalizing p n with
  | nil =>
    cases n with
    | zero => rfl
    | succ n =>
      have hp : c (m p) = false := hstop (by simp)
      simp [hp]
  | cons b xs ih =>
    obtain ⟨k, rfl⟩ : ∃ k, n = k + 1 := ⟨n - 1, by simp at hn; omega⟩
    simp only [List.length_cons] at hn hstop ⊢
    have hb : c (m p) = true := by rw [h.1]; exact hc b (by simp)
    rw [scanWhile, if_pos hb, ih h.2 (fun x hx => hc x (by simp [hx])) (by omega)]
    · omega
    · intro hlt
      rw [show p + 1 + xs.length = p + (xs.length + 1) by omega]
      exact hstop (by omega)

theorem le_scanWhile (m : Mem) (c : UInt8 → Bool) (p n : ℕ) : p ≤ scanWhile m c p n := by
  induction n generalizing p with
  | zero => exact le_rfl
  | succ n ih =>
    rw [scanWhile]
    split
    · exact (Nat.le_succ p).trans (ih (p + 1))
    · exact le_rfl

/-- What the loop has passed, and why it stopped. -/
theorem scanWhile_spec (m : Mem) (c : UInt8 → Bool) (p n : ℕ) :
    scanWhile m c p n ≤ p + n ∧ (∀ i, p ≤ i → i < scanWhile m c p n → c (m i) = true) ∧
      (scanWhile m c p n < p + n → c (m (scanWhile m c p n)) = false) := by
  induction n generalizing p with
  | zero => simp only [scanWhile]; exact ⟨le_rfl, fun i h1 h2 => by omega, fun h => by omega⟩
  | succ n ih =>
    rw [scanWhile]
    split
    · rename_i hc
      obtain ⟨h1, h2, h3⟩ := ih (p + 1)
      refine ⟨by omega, fun i hi hi' => ?_, fun h => h3 (by omega)⟩
      rcases Nat.eq_or_lt_of_le hi with rfl | hlt
      · exact hc
      · exact h2 i hlt hi'
    · rename_i hc
      exact ⟨by omega, fun i h1 h2 => by omega, fun _ => by simpa using hc⟩

theorem scanWhile_takeWhile {m : Mem} {c : UInt8 → Bool} {p : ℕ} {t : List UInt8} (h : Holds m p t) :
    scanWhile m c p t.length = p + (t.takeWhile c).length := by
  induction t generalizing p with
  | nil => rfl
  | cons b t ih =>
    obtain ⟨hb, ht⟩ := h
    rw [List.length_cons, scanWhile, hb, List.takeWhile_cons]
    split
    · rw [ih ht, List.length_cons]
      omega
    · rfl

end Cpcf.Lib.Memory
