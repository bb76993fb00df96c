import Cpcf.Lib.Cells

/-!
An array some of whose cells nobody has written.

The array is a list of cells with or without a value. Writing at any place makes it longer where it ends too
early, and so does a new length; what comes in that way has no value. `Shows` says that cells which are
everywhere defined have the values of the array where that has any.
-/

namespace Cpcf.Lib.PartialCells

open Cpcf.Lib.Cells

variable {α : Type*}

/-- The value at the index `i`, if there is one. -/
def cell (b : List (Option α)) (i : ℕ) : Option α := b[i]?.join

/-- The array with the length `n`. -/
def resize (b : List (Option α)) (n : ℕ) : List (Option α) := (b ++ List.replicate (n - b.length) none).take n

/-- The elements `xs` are written from the index `a` on. -/
def writeAt (b : List (Option α)) (a : ℕ) (xs : List α) : List (Option α) :=
  if xs = [] then b else resize b a ++ (xs.map some ++ b.drop (a + xs.length))

/-- The cells have the values of the array. -/
def Shows (f : ℕ → α) (b : List (Option α)) : Prop := ∀ i x, cell b i = some x → f i = x

variable {b : List (Option α)} {f g : ℕ → α} {a n i : ℕ} {xs : List α}

theorem cell_of_le (h : b.length ≤ i) : cell b i = none := by rw [cell, List.getElem?_eq_none h, Option.join_none]

@[simp] theorem length_resize (b : List (Option α)) (n : ℕ) : (resize b n).length = n := by
  rw [resize, List.length_take, List.length_append, List.length_replicate]
  omega

theorem length_writeAt (h : xs ≠ []) : (writeAt b a xs).length = max b.length (a + xs.length) := by
  rw [writeAt, if_neg h, List.length_append, List.length_append, length_resize, List.length_map, List.length_drop]
  omega

theorem cell_resize : cell (resize b n) i = if i < n then cell b i else none := by
  split
  · rename_i hi
    rw [cell, cell, resize, List.getElem?_take_of_lt hi]
    obtain hlt | hge := Nat.lt_or_ge i b.length
    · rw [List.getElem?_append_left hlt]
    · rw [List.getElem?_append_right hge, List.getElem?_eq_none hge, List.getElem?_replicate]
      split <;> rfl
  · rename_i hi
    exact cell_of_le (by rw [length_resize]; omega)

theorem cell_writeAt (h : xs ≠ []) :
    cell (writeAt b a xs) i = if a ≤ i ∧ i < a + xs.length then xs[i - a]? else cell b i := by
  rw [writeAt, if_neg h]
  obtain hlt | hge := Nat.lt_or_ge i a
  · rw [if_neg (by omega), cell, List.getElem?_append_left (by rw [length_resize]; exact hlt), ← cell, cell_resize,
      if_pos hlt]
  · rw [cell, List.getElem?_append_right (by rw [length_resize]; exact hge), length_resize]
    obtain hin | hout := Nat.lt_or_ge (i - a) xs.length
    · rw [if_pos (by omega), List.getElem?_append_left (by rw [List.length_map]; exact hin), List.getElem?_map,
        List.getElem?_eq_getElem hin]
      rfl
    · rw [if_neg (by omega), List.getElem?_append_right (by rw [List.length_map]; exact hout), List.length_map,
        List.getElem?_drop, cell]
      congr 2
      omega

/-- What was written. -/
theorem put_at (f : ℕ → α) {x : α} (hi : a ≤ i) (hx : xs[i - a]? = some x) : put f a xs i = x := by
  induction xs generalizing f a with
  | nil => cases hx
  | cons y xs ih =>
    obtain rfl | hlt := hi.eq_or_lt
    · rw [Nat.sub_self, List.getElem?_cons_zero] at hx
      rw [put, put_outside _ _ (by omega), Function.update_self, Option.some.inj hx]
    · rw [show i - a = (i - (a + 1)) + 1 by omega, List.getElem?_cons_succ] at hx
      exact ih _ hlt hx

namespace Shows

theorem congr (h : Shows f b) (hfg : ∀ i < b.length, g i = f i) : Shows g b := by
  intro i x hx
  obtain hlt | hge := Nat.lt_or_ge i b.length
  · rw [hfg i hlt, h i x hx]
  · rw [cell_of_le hge] at hx
    cases hx

/-- **Writing.** -/
theorem write (h : Shows f b) (a : ℕ) (xs : List α) : Shows (put f a xs) (writeAt b a xs) := by
  by_cases hxs : xs = []
  · subst hxs
    rwa [writeAt, if_pos rfl]
  intro i x hx
  rw [cell_writeAt hxs] at hx
  split at hx
  · rename_i hin
    exact put_at f hin.1 hx
  · rename_i hout
    rw [put_outside _ _ (by omega), h i x hx]

/-- **A new length.** -/
theorem resize (h : Shows f b) (n : ℕ) : Shows f (resize b n) := by
  intro i x hx
  rw [cell_resize] at hx
  split at hx
  · exact h i x hx
  · cases hx

theorem nil (f : ℕ → α) : Shows f [] := fun i x hx => by cases hx

end Shows

end Cpcf.Lib.PartialCells
