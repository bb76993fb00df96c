import Mathlib.Algebra.BigOperators.Group.Finset.Basic
import Mathlib.Data.Fintype.BigOperators
import Mathlib.Tactic

/-!
Counting the threads of a finite family.

The threads of a program are a finite type and their places a function on it; a step moves one
thread. `tally` counts the threads that stand at places of a kind, and `tally_update` says by how
much one step changes the count.
-/

namespace Cpcf.Lib.Threads

variable {ι κ : Type*} [Fintype ι]

/-- How many threads stand at a place of the kind `c`. -/
def tally (f : ι → κ) (c : κ → Bool) : ℕ := (Finset.univ.filter fun i => c (f i) = true).card

variable (f : ι → κ) (c : κ → Bool)

theorem tally_eq_sum : tally f c = ∑ i, if c (f i) = true then 1 else 0 := by
  rw [tally, Finset.card_filter]

/-- One thread moves from its place to `x`. -/
theorem tally_update [DecidableEq ι] (i : ι) (x : κ) :
    tally (Function.update f i x) c + (if c (f i) = true then 1 else 0) =
      tally f c + (if c x = true then 1 else 0) := by
  have hrest : ∑ j ∈ Finset.univ.erase i, (if c (Function.update f i x j) = true then 1 else 0) =
      ∑ j ∈ Finset.univ.erase i, if c (f j) = true then 1 else 0 := by
    refine Finset.sum_congr rfl ?_
    intro j hj
    rw [Function.update_of_ne (Finset.ne_of_mem_erase hj)]
  have h1 := Finset.add_sum_erase Finset.univ (fun j => if c (Function.update f i x j) = true then 1 else 0)
    (Finset.mem_univ i)
  have h2 := Finset.add_sum_erase Finset.univ (fun j => if c (f j) = true then 1 else 0) (Finset.mem_univ i)
  simp only [Function.update_self] at h1
  rw [tally_eq_sum, tally_eq_sum, ← h1, ← h2, hrest]
  omega

theorem tally_le_card : tally f c ≤ Fintype.card ι := Finset.card_le_univ _

variable {f c}

theorem tally_congr {g : ι → κ} (h : ∀ i, c (f i) = c (g i)) : tally f c = tally g c := by
  rw [tally_eq_sum, tally_eq_sum]
  exact Finset.sum_congr rfl fun i _ => by rw [h i]

theorem tally_eq_zero : tally f c = 0 ↔ ∀ i, c (f i) = false := by
  rw [tally, Finset.card_eq_zero, Finset.filter_eq_empty_iff]
  simp

theorem tally_eq_card : tally f c = Fintype.card ι ↔ ∀ i, c (f i) = true := by
  rw [tally, ← Finset.card_univ, Finset.card_filter_eq_iff]
  simp

theorem tally_lt_card {i : ι} (h : c (f i) = false) : tally f c < Fintype.card ι := by
  refine lt_of_le_of_ne (tally_le_card f c) ?_
  intro heq
  rw [tally_eq_card.mp heq i] at h
  cases h

end Cpcf.Lib.Threads
