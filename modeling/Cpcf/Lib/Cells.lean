import Mathlib.Data.List.Basic
import Mathlib.Logic.Function.Basic
import Mathlib.Tactic

/-!
An array of elements as its cells, and the lists found in it.

The cells are a function of the index, defined everywhere: where the array ends is a matter of who
uses it. `slice f a n` is the list of the `n` elements from the index `a` on; `move` is `memmove`
and `put` writes a list of elements one after another. What a slice is after a `move` or a `put` is
what it was before, the list that was written, or the slice that was moved; a slice across several
of these is cut with `slice_add`.
-/

namespace Cpcf.Lib.Cells

variable {α : Type*}

/-- The `n` elements from the index `a` on. -/
def slice (f : ℕ → α) : ℕ → ℕ → List α
  | _, 0 => []
  | a, n + 1 => f a :: slice f (a + 1) n

attribute [local simp] slice

/-- `memmove`: the `n` elements from `src` on go to `dst`. -/
def move (f : ℕ → α) (dst src n : ℕ) : ℕ → α := fun i => if dst ≤ i ∧ i < dst + n then f (src + (i - dst)) else f i

/-- The elements of a list are written from the index `a` on. -/
def put (f : ℕ → α) : ℕ → List α → ℕ → α
  | _, [] => f
  | a, x :: xs => put (Function.update f a x) (a + 1) xs

/-! ### Slices -/

section Slice

variable (f : ℕ → α) {g : ℕ → α} {a b m n : ℕ}

@[simp] theorem length_slice (a n : ℕ) : (slice f a n).length = n := by
  induction n generalizing a with
  | zero => rfl
  | succ n ih => rw [slice, List.length_cons, ih]

/-- A slice is cut in two. -/
theorem slice_add (a m n : ℕ) : slice f a (m + n) = slice f a m ++ slice f (a + m) n := by
  induction m generalizing a with
  | zero => rw [Nat.zero_add, slice, List.nil_append, Nat.add_zero]
  | succ m ih => rw [Nat.succ_add, slice, slice, ih, List.cons_append, Nat.add_right_comm a 1 m, Nat.add_assoc a m 1]

theorem slice_one (a : ℕ) : slice f a 1 = [f a] := rfl

theorem take_slice (h : m ≤ n) : (slice f a n).take m = slice f a m := by
  obtain ⟨k, rfl⟩ := Nat.exists_eq_add_of_le h
  rw [slice_add, List.take_left' (length_slice f a m)]

theorem drop_slice (h : m ≤ n) : (slice f a n).drop m = slice f (a + m) (n - m) := by
  obtain ⟨k, rfl⟩ := Nat.exists_eq_add_of_le h
  rw [slice_add, List.drop_left' (length_slice f a m), Nat.add_sub_cancel_left]

variable {f}

/-- Two slices with the same elements. -/
theorem slice_congr (h : ∀ i < n, f (a + i) = g (b + i)) : slice f a n = slice g b n := by
  induction n generalizing a b with
  | zero => rfl
  | succ n ih =>
    have hrest : ∀ i < n, f (a + 1 + i) = g (b + 1 + i) := by
      intro i hi
      have := h (i + 1) (by omega)
      rwa [Nat.add_comm i 1, ← Nat.add_assoc, ← Nat.add_assoc] at this
    rw [slice, slice, ih hrest]
    congr 1
    exact h 0 (by omega)

end Slice

/-! ### Moving and writing -/

section Write

variable (f : ℕ → α) {a dst src k m n : ℕ} (xs : List α)

/-- What was moved. -/
theorem slice_move (h : m ≤ n) : slice (move f dst src n) dst m = slice f src m := by
  refine slice_congr ?_
  intro i hi
  rw [move, if_pos (by omega), Nat.add_sub_cancel_left]

/-- What was not moved over. -/
theorem slice_move_outside (h : a + m ≤ dst ∨ dst + n ≤ a) : slice (move f dst src n) a m = slice f a m := by
  refine slice_congr ?_
  intro i hi
  rw [move, if_neg (by omega)]

theorem put_outside (h : k < a ∨ a + xs.length ≤ k) : put f a xs k = f k := by
  induction xs generalizing f a with
  | nil => rfl
  | cons x xs ih =>
    rw [List.length_cons] at h
    rw [put, ih _ (by omega), Function.update_of_ne (by omega)]

theorem slice_put_outside (h : a + m ≤ dst ∨ dst + xs.length ≤ a) : slice (put f dst xs) a m = slice f a m :=
  slice_congr fun i hi => put_outside f xs (by omega)

/-- What was written. -/
theorem slice_put : slice (put f a xs) a xs.length = xs := by
  induction xs generalizing f a with
  | nil => rfl
  | cons x xs ih =>
    rw [List.length_cons, slice, put, ih, put_outside _ _ (by omega), Function.update_self]

end Write

end Cpcf.Lib.Cells
