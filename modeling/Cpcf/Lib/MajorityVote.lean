import Mathlib.Data.List.Count
import Mathlib.Tactic

/-!
The majority vote by one counter.

A candidate with `n` votes left, after the values `xs`, pairs off all other occurrences: a value that is not the
candidate occurs at most `(xs.length - n) / 2` times, the candidate at most `(xs.length + n) / 2` times
(`Surplus`). This is kept by the three moves, a vote for the candidate, a vote against it, and a new candidate
when no votes are left; so a value that occurs in more than half of the places is the candidate.

Values are compared by `==`.
-/

namespace Cpcf.Lib.MajorityVote

variable {α : Type*} [BEq α]

/-- The candidate `c` has a surplus of `n` votes. -/
structure Surplus (xs : List α) (c : α) (n : ℤ) : Prop where
  nonneg : 0 ≤ n
  candidate : ∀ x, (c == x) = true → 2 * (xs.countP (· == x) : ℤ) ≤ xs.length + n
  others : ∀ x, (c == x) = false → 2 * (xs.countP (· == x) : ℤ) ≤ xs.length - n

variable {xs : List α} {c d v : α} {n : ℤ}

theorem surplus_nil (c : α) : Surplus [] c 0 := ⟨le_rfl, by simp, by simp⟩

/-- **A value in more than half of the places is the candidate.** -/
theorem Surplus.majority (h : Surplus xs c n) (hv : xs.length < 2 * xs.countP (· == v)) : (c == v) = true ∧ 0 < n := by
  cases hc : (c == v) with
  | true =>
    have := h.candidate v hc
    exact ⟨rfl, by omega⟩
  | false =>
    have := h.others v hc
    have := h.nonneg
    omega

variable [EquivBEq α]

/-- The occurrences of `x` with one more value. -/
theorem countP_concat (xs : List α) (v x : α) :
    (xs ++ [v]).countP (· == x) = xs.countP (· == x) + if (v == x) = true then 1 else 0 := by
  rw [List.countP_append, List.countP_singleton]

/-- A vote for the candidate, which may be replaced by an equal value. -/
theorem Surplus.vote (h : Surplus xs c n) (hcv : (c == v) = true) (hdv : (d == v) = true) :
    Surplus (xs ++ [v]) d (n + 1) := by
  have h0 := h.nonneg
  have hdc : ∀ x, (d == x) = (c == x) := fun x => BEq.congr_left (BEq.trans hdv (BEq.symm hcv))
  have hvc : ∀ x, (v == x) = (c == x) := fun x => BEq.congr_left (BEq.symm hcv)
  refine ⟨by omega, ?_, ?_⟩
  · intro x hx
    rw [hdc] at hx
    have := h.candidate x hx
    rw [countP_concat, hvc, hx, if_pos rfl, List.length_append, List.length_singleton]
    push_cast
    omega
  · intro x hx
    rw [hdc] at hx
    have := h.others x hx
    rw [countP_concat, hvc, hx, if_neg Bool.false_ne_true, List.length_append, List.length_singleton]
    push_cast
    omega

/-- A new candidate. -/
theorem Surplus.replace (h : Surplus xs c 0) (hcv : (c == v) = false) : Surplus (xs ++ [v]) v 1 := by
  have hle : ∀ x, 2 * (xs.countP (· == x) : ℤ) ≤ xs.length := by
    intro x
    cases hx : (c == x) with
    | true => simpa using h.candidate x hx
    | false => simpa using h.others x hx
  refine ⟨by decide, ?_, ?_⟩
  · intro x hx
    have := hle x
    rw [countP_concat, hx, if_pos rfl, List.length_append, List.length_singleton]
    push_cast
    omega
  · intro x hx
    have := hle x
    rw [countP_concat, hx, if_neg Bool.false_ne_true, List.length_append, List.length_singleton]
    push_cast
    omega

/-- A vote against the candidate. -/
theorem Surplus.against (h : Surplus xs c n) (hcv : (c == v) = false) (hn : 0 < n) : Surplus (xs ++ [v]) c (n - 1) := by
  refine ⟨by omega, ?_, ?_⟩
  · intro x hx
    have := h.candidate x hx
    have hvx : (v == x) = false := by
      rw [← BEq.congr_right hx]
      exact BEq.symm_false hcv
    rw [countP_concat, hvx, if_neg Bool.false_ne_true, List.length_append, List.length_singleton]
    push_cast
    omega
  · intro x hx
    have := h.others x hx
    rw [countP_concat, List.length_append, List.length_singleton]
    push_cast
    split <;> omega

end Cpcf.Lib.MajorityVote
