import Mathlib.Data.List.Basic
import Mathlib.Data.List.Perm.Basic
import Mathlib.Tactic

/-!
Arrays under a comparison.

The comparison is a Boolean function, and a strict weak order: elements neither of which is below the
other need not be equal. An array is ascending when no element is below one in front of it. The
`k`-th smallest element, counting repetitions, is the `k`-th of an ascending arrangement
(`IsKth`); around a pivot it is the `k`-th of one side, or the pivot.
-/

namespace Cpcf.Lib.WeakOrder

variable {α : Type*}

/-- A strict weak order. -/
structure StrictWeak (lt : α → α → Bool) : Prop where
  asymm : ∀ a b, lt a b = true → lt b a = false
  incomp : ∀ a b c, lt a b = false → lt b c = false → lt a c = false

/-- No element is below one in front of it. -/
def Ascending (lt : α → α → Bool) (xs : List α) : Prop := xs.Pairwise fun a b => lt b a = false

instance (lt : α → α → Bool) (xs : List α) : Decidable (Ascending lt xs) :=
  inferInstanceAs (Decidable (xs.Pairwise fun a b => lt b a = false))

/-- `v` is the `k`-th smallest of the elements, counted from one. -/
def IsKth (lt : α → α → Bool) (k : ℕ) (xs : List α) (v : α) : Prop :=
  ∃ s : List α, s.Perm xs ∧ Ascending lt s ∧ s[k - 1]? = some v

variable {lt : α → α → Bool}

/-! ### The order -/

namespace StrictWeak

variable {a b c : α}

theorem lt_of_lt_of_le (h : StrictWeak lt) (hab : lt a b = true) (hcb : lt c b = false) : lt a c = true := by
  by_contra hac
  have := h.incomp a c b (Bool.eq_false_iff.mpr hac) hcb
  rw [hab] at this
  exact absurd this (by decide)

theorem lt_of_le_of_lt (h : StrictWeak lt) (hba : lt b a = false) (hbc : lt b c = true) : lt a c = true := by
  by_contra hac
  have := h.incomp b a c hba (Bool.eq_false_iff.mpr hac)
  rw [hbc] at this
  exact absurd this (by decide)

theorem trans (h : StrictWeak lt) (hab : lt a b = true) (hbc : lt b c = true) : lt a c = true :=
  h.lt_of_lt_of_le hab (h.asymm b c hbc)

end StrictWeak

/-- A linear order. -/
theorem strictWeak_lt (α : Type*) [LinearOrder α] : StrictWeak fun a b : α => decide (a < b) where
  asymm a b h := decide_eq_false (not_lt.mpr (of_decide_eq_true h).le)
  incomp a b c hab hbc :=
    decide_eq_false (not_lt.mpr ((not_lt.mp (of_decide_eq_false hbc)).trans (not_lt.mp (of_decide_eq_false hab))))

/-! ### Ascending arrays -/

/-- A pivot between what is not above it and what is above it. -/
theorem Ascending.around {lo hi : List α} {x : α} (h : StrictWeak lt) (hlo : Ascending lt lo) (hhi : Ascending lt hi)
    (hle : ∀ a ∈ lo, lt x a = false) (hge : ∀ b ∈ hi, lt b x = false) : Ascending lt (lo ++ x :: hi) := by
  refine List.pairwise_append.mpr ⟨hlo, List.pairwise_cons.mpr ⟨hge, hhi⟩, ?_⟩
  intro a ha b hb
  obtain rfl | hb := List.mem_cons.mp hb
  · exact hle a ha
  · exact h.incomp b x a (hge b hb) (hle a ha)

/-- A value comes between what is not above it and what is above it: behind all elements equal to it. -/
structure Inserted (lt : α → α → Bool) (x : α) (u w : List α) : Prop where
  front : ∀ a ∈ u, lt x a = false
  behind : ∀ b ∈ w, lt x b = true

/-- The element at the index `p` is `x`; none in front of it is above it, and all behind it are. -/
structure StandsAt (lt : α → α → Bool) (x : α) (xs : List α) (p : ℕ) : Prop where
  here : xs[p]? = some x
  front : ∀ a ∈ xs.take p, lt x a = false
  behind : ∀ b ∈ xs.drop (p + 1), lt x b = true

section Insert

variable {x : α} {u w xs : List α}

/-- Where a value goes in an ascending array. -/
theorem Ascending.exists_inserted (h : StrictWeak lt) (hasc : Ascending lt xs) (x : α) :
    ∃ u w, xs = u ++ w ∧ Inserted lt x u w := by
  induction xs with
  | nil => exact ⟨[], [], rfl, by simp, by simp⟩
  | cons a xs ih =>
    obtain ⟨ha, hasc⟩ := List.pairwise_cons.mp hasc
    cases hxa : lt x a with
    | true =>
      refine ⟨[], a :: xs, rfl, by simp, ?_⟩
      intro b hb
      obtain rfl | hb := List.mem_cons.mp hb
      · exact hxa
      · exact h.lt_of_lt_of_le hxa (ha b hb)
    | false =>
      obtain ⟨u, w, rfl, hfront, hbehind⟩ := ih hasc
      exact ⟨a :: u, w, rfl, List.forall_mem_cons.mpr ⟨hxa, hfront⟩, hbehind⟩

theorem Inserted.ascending (h : StrictWeak lt) (hi : Inserted lt x u w) (hasc : Ascending lt (u ++ w)) :
    Ascending lt (u ++ x :: w) := by
  obtain ⟨hu, hw, -⟩ := List.pairwise_append.mp hasc
  exact Ascending.around h hu hw hi.front fun b hb => h.asymm x b (hi.behind b hb)

theorem Inserted.standsAt (hi : Inserted lt x u w) : StandsAt lt x (u ++ x :: w) u.length where
  here := by simp
  front := by simpa using hi.front
  behind := by simpa using hi.behind

end Insert

/-- An ascending arrangement. -/
theorem exists_ascending (h : StrictWeak lt) (xs : List α) : ∃ s : List α, s.Perm xs ∧ Ascending lt s := by
  refine ⟨xs.mergeSort fun a b => !lt b a, List.mergeSort_perm _ _, ?_⟩
  have htrans : ∀ a b c, (!lt b a) = true → (!lt c b) = true → (!lt c a) = true := by
    intro a b c hab hbc
    have := h.incomp c b a (by simpa using hbc) (by simpa using hab)
    simpa using this
  have htotal : ∀ a b, ((!lt b a) || !lt a b) = true := by
    intro a b
    cases hab : lt a b with
    | true => simp [h.asymm a b hab]
    | false => simp
  have hsorted : (xs.mergeSort fun a b => !lt b a).Pairwise fun a b => (!lt b a) = true :=
    List.pairwise_mergeSort htrans htotal xs
  exact hsorted.imp fun hab => by simpa using hab

/-! ### The `k`-th smallest element -/

section Kth

variable {k : ℕ} {xs ys lo hi : List α} {x v : α}

theorem IsKth.perm (h : IsKth lt k xs v) (hp : xs.Perm ys) : IsKth lt k ys v := by
  obtain ⟨s, hs, hasc, hv⟩ := h
  exact ⟨s, hs.trans hp, hasc, hv⟩

/-- The pivot itself. -/
theorem isKth_pivot (h : StrictWeak lt) (hle : ∀ a ∈ lo, lt x a = false) (hge : ∀ b ∈ hi, lt b x = false) :
    IsKth lt (lo.length + 1) (lo ++ x :: hi) x := by
  obtain ⟨s, hs, hasc⟩ := exists_ascending h lo
  obtain ⟨t, ht, htasc⟩ := exists_ascending h hi
  refine ⟨s ++ x :: t, hs.append (ht.cons x), ?_, ?_⟩
  · exact hasc.around h htasc (fun a ha => hle a (hs.subset ha)) fun b hb => hge b (ht.subset hb)
  · rw [Nat.add_sub_cancel, ← hs.length_eq, List.getElem?_append_right le_rfl, Nat.sub_self]
    rfl

/-- On the side of the pivot that is not above it. -/
theorem IsKth.below (h : StrictWeak lt) (hle : ∀ a ∈ lo, lt x a = false) (hge : ∀ b ∈ hi, lt b x = false)
    (hk : IsKth lt k lo v) : IsKth lt k (lo ++ x :: hi) v := by
  obtain ⟨s, hs, hasc, hv⟩ := hk
  obtain ⟨t, ht, htasc⟩ := exists_ascending h hi
  refine ⟨s ++ x :: t, hs.append (ht.cons x), ?_, ?_⟩
  · exact hasc.around h htasc (fun a ha => hle a (hs.subset ha)) fun b hb => hge b (ht.subset hb)
  · obtain ⟨hlt, -⟩ := List.getElem?_eq_some_iff.mp hv
    rw [List.getElem?_append_left hlt, hv]

/-- On the other side of the pivot. -/
theorem IsKth.above (h : StrictWeak lt) (hle : ∀ a ∈ lo, lt x a = false) (hge : ∀ b ∈ hi, lt b x = false)
    (hk : IsKth lt k hi v) (h1 : 1 ≤ k) : IsKth lt (lo.length + 1 + k) (lo ++ x :: hi) v := by
  obtain ⟨t, ht, htasc, hv⟩ := hk
  obtain ⟨s, hs, hasc⟩ := exists_ascending h lo
  refine ⟨s ++ x :: t, hs.append (ht.cons x), ?_, ?_⟩
  · exact hasc.around h htasc (fun a ha => hle a (hs.subset ha)) fun b hb => hge b (ht.subset hb)
  · have hidx : lo.length + 1 + k - 1 - s.length = (k - 1) + 1 := by
      rw [hs.length_eq]
      omega
    rw [List.getElem?_append_right (by rw [hs.length_eq]; omega), hidx, List.getElem?_cons_succ, hv]

end Kth

end Cpcf.Lib.WeakOrder
