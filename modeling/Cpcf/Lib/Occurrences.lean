import Mathlib.Data.List.Basic
import Mathlib.Data.List.TakeWhile
import Mathlib.Tactic

/-!
The leftmost occurrences of a list in another one that do not overlap.

`dropInfix?` gives what stands before and behind the leftmost occurrence. `pieces a s` is what is left of `s` when it
is cut at the occurrences of `a` one after the other, and `places b k` tells where in the result each of them begins
when the pieces are joined by `b` from the offset `k` on.
-/

namespace Cpcf.Lib.Occurrences

variable {α : Type*} [DecidableEq α] {a b s u v : List α} {c : α}

/-! ### The leftmost occurrence -/

theorem dropInfix?_eq_some : s.dropInfix? a = some (u, v) ↔
    s = u ++ a ++ v ∧ ∀ u' v', s = u' ++ a ++ v' → u.length ≤ u'.length := by
  rw [List.dropInfix?_eq_some_iff]
  simp only [beq_iff_eq]
  constructor
  · rintro ⟨⟨i, hi, rfl⟩, hleft⟩
    exact ⟨hi, fun u' v' h => hleft u' i v' h rfl⟩
  · rintro ⟨hs, hleft⟩
    refine ⟨⟨a, hs, rfl⟩, ?_⟩
    rintro u' _ v' h rfl
    exact hleft u' v' h

theorem dropInfix?_append (a v : List α) : (a ++ v).dropInfix? a = some ([], v) :=
  dropInfix?_eq_some.mpr ⟨rfl, fun _ _ _ => Nat.zero_le _⟩

/-- Where the list does not begin there, the leftmost occurrence is that of the rest. -/
theorem dropInfix?_cons (hc : ¬ a <+: c :: s) :
    (c :: s).dropInfix? a = (s.dropInfix? a).map fun t => (c :: t.1, t.2) := by
  have hhead : ∀ u v, c :: s = u ++ a ++ v → ∃ u', u = c :: u' ∧ s = u' ++ a ++ v := by
    intro u v h
    cases u with
    | nil => exact absurd ⟨v, h.symm⟩ hc
    | cons d u =>
      obtain ⟨rfl, hs⟩ := List.cons.inj h
      exact ⟨u, rfl, hs⟩
  refine Option.ext fun t => ?_
  obtain ⟨u, v⟩ := t
  rw [dropInfix?_eq_some, Option.map_eq_some_iff]
  constructor
  · rintro ⟨hs, hleft⟩
    obtain ⟨u', rfl, hs'⟩ := hhead u v hs
    refine ⟨(u', v), dropInfix?_eq_some.mpr ⟨hs', fun u₁ v₁ h => ?_⟩, rfl⟩
    exact Nat.le_of_succ_le_succ (hleft (c :: u₁) v₁ (congrArg (c :: ·) h))
  · rintro ⟨⟨u', v'⟩, hrest, heq⟩
    obtain ⟨rfl, rfl⟩ := Prod.mk.inj heq
    obtain ⟨hs, hleft⟩ := dropInfix?_eq_some.mp hrest
    refine ⟨congrArg (c :: ·) hs, fun u₁ v₁ h => ?_⟩
    obtain ⟨u₂, rfl, hs'⟩ := hhead u₁ v₁ h
    exact Nat.succ_le_succ (hleft u₂ v₁ hs')

/-- An element that stands at the end only. -/
theorem dropInfix?_replicate {x : α} (h : x ≠ c) (n : ℕ) :
    (List.replicate n x ++ [c]).dropInfix? [c] = some (List.replicate n x, []) := by
  refine dropInfix?_eq_some.mpr ⟨by simp, fun u' v' heq => ?_⟩
  by_contra hlt
  rw [List.length_replicate, not_le] at hlt
  have hget := congrArg (·[u'.length]?) heq
  rw [List.append_assoc] at hget
  simp [List.getElem?_append_left, hlt, h] at hget

/-! ### All of them -/

theorem length_lt_of_dropInfix? (ha : a ≠ []) (h : s.dropInfix? a = some (u, v)) : v.length < s.length := by
  obtain ⟨rfl, -⟩ := dropInfix?_eq_some.mp h
  have := List.length_pos_iff.mpr ha
  simp only [List.length_append]
  omega

theorem dropInfix?_nil_left (ha : a ≠ []) : ([] : List α).dropInfix? a = none := by
  refine Option.eq_none_iff_forall_ne_some.mpr fun t ht => ?_
  exact Nat.not_lt_zero _ (length_lt_of_dropInfix? ha (u := t.1) (v := t.2) ht)

/-- What is left of `s` between the leftmost occurrences of `a`. -/
def pieces (a s : List α) : List (List α) :=
  if ha : a = [] then [s]
  else
    match h : s.dropInfix? a with
    | none => [s]
    | some (u, v) =>
      have := length_lt_of_dropInfix? ha h
      u :: pieces a v
termination_by s.length

/-- The offsets of the texts that join the pieces, of which the first one is at `k`. -/
def places (b : List α) : ℕ → List (List α) → List ℕ
  | k, u :: v :: ps => (k + u.length) :: places b (k + u.length + b.length) (v :: ps)
  | _, _ => []

attribute [local simp] places

theorem pieces_eq (a s : List α) : pieces a s =
    if a = [] then [s]
    else
      match s.dropInfix? a with
      | none => [s]
      | some (u, v) => u :: pieces a v := by
  rw [pieces]
  split
  · rfl
  · split <;> simp only [*]

theorem pieces_none (h : s.dropInfix? a = none) : pieces a s = [s] := by
  rw [pieces_eq, h]
  exact ite_self _

theorem pieces_some (ha : a ≠ []) (h : s.dropInfix? a = some (u, v)) : pieces a s = u :: pieces a v := by
  rw [pieces_eq, if_neg ha, h]

theorem pieces_ne_nil (a s : List α) : pieces a s ≠ [] := by
  rw [pieces_eq]
  split
  · exact List.cons_ne_nil _ _
  · split
    · exact List.cons_ne_nil _ _
    · exact List.cons_ne_nil _ _

/-- The pieces of a list in which `a` occurs are joined. -/
theorem intercalate_pieces_some (b : List α) (ha : a ≠ []) (h : s.dropInfix? a = some (u, v)) :
    b.intercalate (pieces a s) = u ++ b ++ b.intercalate (pieces a v) := by
  rw [pieces_some ha h, List.intercalate_cons_of_ne_nil (pieces_ne_nil a v)]

theorem places_pieces_none (b : List α) (k : ℕ) (h : s.dropInfix? a = none) : places b k (pieces a s) = [] := by
  rw [pieces_none h]
  rfl

theorem places_pieces_some (b : List α) (k : ℕ) (ha : a ≠ []) (h : s.dropInfix? a = some (u, v)) :
    places b k (pieces a s) = (k + u.length) :: places b (k + u.length + b.length) (pieces a v) := by
  obtain ⟨w, ps, hps⟩ := List.exists_cons_of_ne_nil (pieces_ne_nil a v)
  rw [pieces_some ha h, hps, places]

theorem pieces_replicate (c : α) (n : ℕ) : pieces [c] (List.replicate n c) = List.replicate (n + 1) [] := by
  induction n with
  | zero => exact pieces_none rfl
  | succ n ih =>
    have hdrop : (c :: List.replicate n c).dropInfix? [c] = some ([], List.replicate n c) := dropInfix?_append [c] _
    rw [List.replicate_succ, pieces_some (List.cons_ne_nil _ _) hdrop, ih]
    rfl

omit [DecidableEq α] in
/-- Pieces that are joined by nothing. -/
theorem places_replicate (k n : ℕ) : places ([] : List α) k (List.replicate (n + 1) []) = List.replicate n k := by
  induction n with
  | zero => rfl
  | succ n ih =>
    have hplace : places ([] : List α) k (List.replicate (n + 1 + 1) []) =
        k :: places [] k (List.replicate (n + 1) []) := rfl
    rw [hplace, ih, List.replicate_succ]

omit [DecidableEq α] in
theorem length_places (b : List α) : ∀ (k : ℕ) (ps : List (List α)), (places b k ps).length = ps.length - 1
  | _, [] => rfl
  | _, [_] => rfl
  | _, _ :: v :: ps => by
    rw [places, List.length_cons, length_places b _ (v :: ps)]
    rfl

end Cpcf.Lib.Occurrences
