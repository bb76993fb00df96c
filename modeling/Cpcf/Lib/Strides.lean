import Mathlib.Logic.Function.Iterate
import Mathlib.Order.Iterate
import Mathlib.Tactic

/-!
Walking towards a bound in strides.

From a place `i` the next one is `f i`, strictly further on. `strides f hf bound i` is the number of strides from
`i` until the bound is reached or passed, as the loop `for(;i<bound;i=f(i)) n++` counts them.
-/

namespace Cpcf.Lib.Strides

variable {f : ℕ → ℕ} {bound i j : ℕ}

/-- The strides from `i` to the bound. -/
def strides (f : ℕ → ℕ) (hf : ∀ i, i < f i) (bound i : ℕ) : ℕ :=
  if i < bound then strides f hf bound (f i) + 1 else 0
termination_by bound - i
decreasing_by
  have := hf i
  omega

theorem strides_of_lt (hf : ∀ i, i < f i) (h : i < bound) : strides f hf bound i = strides f hf bound (f i) + 1 := by
  rw [strides, if_pos h]

theorem strides_of_le (hf : ∀ i, i < f i) (h : bound ≤ i) : strides f hf bound i = 0 := by
  rw [strides, if_neg (by omega)]

theorem strictMono_iterate (hf : ∀ i, i < f i) (i : ℕ) : StrictMono fun j => f^[j] i := by
  apply strictMono_nat_of_lt_succ
  intro j
  rw [Function.iterate_succ_apply']
  exact hf _

theorem le_iterate (hf : ∀ i, i < f i) (i j : ℕ) : i ≤ f^[j] i := (strictMono_iterate hf i).monotone (Nat.zero_le j)

/-- So many strides are made from before the bound. -/
theorem iterate_lt_iff (hf : ∀ i, i < f i) : f^[j] i < bound ↔ j < strides f hf bound i := by
  induction j generalizing i with
  | zero =>
    rw [Function.iterate_zero_apply]
    rcases Nat.lt_or_ge i bound with h | h
    · rw [strides_of_lt hf h]
      omega
    · rw [strides_of_le hf h]
      omega
  | succ j ih =>
    rcases Nat.lt_or_ge i bound with h | h
    · rw [Function.iterate_succ_apply, ih, strides_of_lt hf h, Nat.succ_lt_succ_iff]
    · rw [strides_of_le hf h]
      have := le_iterate hf i (j + 1)
      omega

theorem le_iterate_strides (hf : ∀ i, i < f i) (bound i : ℕ) : bound ≤ f^[strides f hf bound i] i := by
  apply not_lt.mp
  intro h
  exact lt_irrefl _ ((iterate_lt_iff hf).mp h)

/-- To where `n` strides lead there are `n` strides. -/
theorem strides_iterate (hf : ∀ i, i < f i) (n i : ℕ) : strides f hf (f^[n] i) i = n := by
  apply eq_of_forall_lt_iff
  intro j
  rw [← iterate_lt_iff]
  exact (strictMono_iterate hf i).lt_iff_lt

/-- So far as `n` strides go alike, the places are alike. -/
theorem iterate_congr {g : ℕ → ℕ} {a n : ℕ} (h : ∀ k < n, g (a + f^[k] i) = a + f (f^[k] i)) :
    g^[n] (a + i) = a + f^[n] i := by
  induction n with
  | zero => rfl
  | succ n ih =>
    rw [Function.iterate_succ_apply', Function.iterate_succ_apply', ih fun k hk => h k (by omega)]
    exact h n (by omega)

end Cpcf.Lib.Strides
