import Mathlib.Data.List.Basic
import Mathlib.Tactic

/-!
Records laid out one after another.

A record occupies the addresses from `pos` to `stop`. `Chain a bs e` says that the records `bs` fill the
addresses from `a` to `e` in order and without a gap, as a program leaves them that finds each record behind
the one before.
-/

namespace Cpcf.Lib.Extent

variable {β : Type*} {pos stop : β → ℕ} {a e : ℕ} {b : β} {bs : List β}

/-- The records fill the addresses from `a` to `e`. -/
def Chain (pos stop : β → ℕ) : ℕ → List β → ℕ → Prop
  | a, [], e => a = e
  | a, b :: bs, e => pos b = a ∧ Chain pos stop (stop b) bs e

instance decidableChain (pos stop : β → ℕ) : ∀ a bs e, Decidable (Chain pos stop a bs e)
  | a, [], e => inferInstanceAs (Decidable (a = e))
  | a, b :: bs, e =>
    have := decidableChain pos stop (stop b) bs e
    inferInstanceAs (Decidable (pos b = a ∧ Chain pos stop (stop b) bs e))

theorem Chain.le (hle : ∀ b, pos b ≤ stop b) (h : Chain pos stop a bs e) : a ≤ e := by
  induction bs generalizing a with
  | nil => exact h.le
  | cons b bs ih => exact (h.1 ▸ hle b).trans (ih h.2)

/-- Every record lies between the ends. -/
theorem Chain.mem (hle : ∀ b, pos b ≤ stop b) (h : Chain pos stop a bs e) (hb : b ∈ bs) : a ≤ pos b ∧ stop b ≤ e := by
  induction bs generalizing a with
  | nil => cases hb
  | cons c bs ih =>
    obtain ⟨rfl, h⟩ := h
    rcases List.mem_cons.mp hb with rfl | hb
    · exact ⟨le_rfl, h.le hle⟩
    · obtain ⟨h1, h2⟩ := ih h hb
      exact ⟨(hle c).trans h1, h2⟩

/-- Each record lies before the ones after it. -/
theorem Chain.pairwise (hle : ∀ b, pos b ≤ stop b) (h : Chain pos stop a bs e) :
    bs.Pairwise fun b c => stop b ≤ pos c := by
  induction bs generalizing a with
  | nil => exact List.Pairwise.nil
  | cons c bs ih => exact List.Pairwise.cons (fun b hb => (h.2.mem hle hb).1) (ih h.2)

/-- A record is put behind the others. -/
theorem Chain.snoc (h : Chain pos stop a bs e) (hb : pos b = e) : Chain pos stop a (bs ++ [b]) (stop b) := by
  induction bs generalizing a with
  | nil => exact ⟨hb.trans h.symm, rfl⟩
  | cons c bs ih => exact ⟨h.1, ih h.2⟩

/-- Only where the records are matters. -/
theorem Chain.map {f : β → β} (hpos : ∀ b, pos (f b) = pos b) (hstop : ∀ b, stop (f b) = stop b)
    (h : Chain pos stop a bs e) : Chain pos stop a (bs.map f) e := by
  induction bs generalizing a with
  | nil => exact h
  | cons c bs ih =>
    refine ⟨(hpos c).trans h.1, ?_⟩
    rw [hstop]
    exact ih h.2

end Cpcf.Lib.Extent
