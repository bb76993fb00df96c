import Mathlib.Data.List.Basic
import Mathlib.Tactic

/-!
A buffer that is filled from its start, with the place that is written next.

A write that does not fit into the buffer has no outcome. What has been written is what stands in front of the place,
and the buffer keeps its length.
-/

namespace Cpcf.Lib

structure Sink (α : Type*) where
  cells : List α
  pos : ℕ

namespace Sink

variable {α : Type*}

/-- What has been written. -/
def written (k : Sink α) : List α := k.cells.take k.pos

/-- The elements are written without going on behind them. -/
def put (k : Sink α) (xs : List α) : Option (Sink α) :=
  if k.pos + xs.length ≤ k.cells.length then
    some { k with cells := k.cells.take k.pos ++ (xs ++ k.cells.drop (k.pos + xs.length)) }
  else none

/-- The elements are written. -/
def emit (k : Sink α) (xs : List α) : Option (Sink α) :=
  (k.put xs).map fun k => { k with pos := k.pos + xs.length }

/-- The second one comes after the first, which had `ys` written to it, in the same buffer. -/
structure Follows (k k' : Sink α) (ys : List α) : Prop where
  length : k'.cells.length = k.cells.length
  pos : k'.pos = k.pos + ys.length
  written : k'.written = k.written ++ ys

variable {k k' k'' : Sink α} {xs ys : List α}

theorem Follows.refl (k : Sink α) : k.Follows k [] := ⟨rfl, rfl, (List.append_nil _).symm⟩

theorem Follows.trans (h : k.Follows k' xs) (h' : k'.Follows k'' ys) : k.Follows k'' (xs ++ ys) := by
  refine ⟨h'.length.trans h.length, ?_, ?_⟩
  · rw [h'.pos, h.pos, List.length_append, Nat.add_assoc]
  · rw [h'.written, h.written, List.append_assoc]

theorem put_eq (h : k.pos + xs.length ≤ k.cells.length) : ∃ k', k.put xs = some k' ∧ k.Follows k' [] := by
  refine ⟨_, if_pos h, ?_, rfl, ?_⟩
  · simp only [List.length_append, List.length_take, List.length_drop]
    omega
  · have hlen : (k.cells.take k.pos).length = k.pos := List.length_take_of_le (by omega)
    rw [written, List.append_nil]
    exact List.take_left' hlen

theorem emit_eq (h : k.pos + xs.length ≤ k.cells.length) : ∃ k', k.emit xs = some k' ∧ k.Follows k' xs := by
  have hlen : (k.cells.take k.pos).length = k.pos := List.length_take_of_le (by omega)
  refine ⟨_, congrArg _ (if_pos h), ?_, rfl, ?_⟩
  · simp only [List.length_append, List.length_take, List.length_drop]
    omega
  · rw [written, ← List.append_assoc]
    exact List.take_left' (by rw [List.length_append, hlen])

theorem emit_eq_none (h : k.cells.length < k.pos + xs.length) : k.emit xs = none := by
  rw [emit, put, if_neg (Nat.not_le_of_gt h)]
  rfl

end Sink

end Cpcf.Lib
