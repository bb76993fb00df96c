import Mathlib

/-!
The first place at which one list stands in another.
-/

namespace Cpcf.Lib.Search

variable {α : Type*}

section Prefix

variable {pat s t : List α} {c : α} {i : ℕ}

theorem infix_of_prefix_drop (h : pat <+: s.drop i) : pat <:+: s := h.isInfix.trans (List.drop_suffix i s).isInfix

theorem prefix_getElem? (h : pat <+: s.drop i) {j : ℕ} (hj : j < pat.length) : s[i + j]? = some pat[j] := by
  rw [← List.getElem?_drop, h.getElem hj, List.getElem?_eq_getElem]

/-- A prefix does not go beyond an element that it does not have. -/
theorem prefix_append_cons (hc : c ∉ pat) : pat <+: s ++ c :: t ↔ pat <+: s := by
  constructor
  · intro h
    by_contra hn
    have hlen : s.length < pat.length := by
      by_contra hle
      exact hn (List.prefix_of_prefix_length_le h (List.prefix_append s _) (by omega))
    have hget : pat[s.length] = c := by
      rw [h.getElem hlen]
      simp
    exact hc (hget ▸ List.getElem_mem hlen)
  · intro h
    exact h.trans (List.prefix_append s _)

end Prefix

variable [DecidableEq α] {pat s t : List α} {c : α} {i j : ℕ}

/-- The offset of the first occurrence of `pat`. -/
def find (pat s : List α) : Option ℕ := s.tails.findIdx? fun t => pat.isPrefixOf t

theorem find_eq_some_iff :
    find pat s = some i ↔ i ≤ s.length ∧ pat <+: s.drop i ∧ ∀ j < i, ¬ pat <+: s.drop j := by
  unfold find
  rw [List.findIdx?_eq_some_iff_getElem]
  simp only [List.length_tails, List.getElem_tails, List.isPrefixOf_iff_prefix, exists_prop, Nat.lt_succ_iff]

theorem find_eq_none_iff : find pat s = none ↔ ¬ pat <:+: s := by
  unfold find
  rw [List.findIdx?_eq_none_iff]
  simp only [List.mem_tails, ← Bool.not_eq_true, List.isPrefixOf_iff_prefix]
  constructor
  · intro h hin
    obtain ⟨t, hp, hs⟩ := List.infix_iff_prefix_suffix.mp hin
    exact h t hs hp
  · intro h t hs hp
    exact h (hp.isInfix.trans hs.isInfix)

theorem find_nil (hne : pat ≠ []) : find pat [] = none := by
  rw [find_eq_none_iff, List.infix_nil]
  exact hne

theorem find_cons : find pat (c :: s) = if pat <+: c :: s then some 0 else (find pat s).map (· + 1) := by
  unfold find
  rw [List.tails_cons, List.findIdx?_cons]
  simp only [← List.isPrefixOf_iff_prefix]

theorem find_append_of_some (h : find pat s = some i) : find pat (s ++ t) = some i := by
  obtain ⟨hi, hpre, hmin⟩ := find_eq_some_iff.mp h
  have hlen : i + pat.length ≤ s.length := by
    have := hpre.length_le
    rw [List.length_drop] at this
    omega
  refine find_eq_some_iff.mpr ⟨?_, ?_, ?_⟩
  · rw [List.length_append]
    omega
  · rw [List.drop_append_of_le_length hi]
    exact hpre.trans (List.prefix_append _ _)
  · intro j hj hp
    rw [List.drop_append_of_le_length (by omega)] at hp
    refine hmin j hj (List.prefix_of_prefix_length_le hp (List.prefix_append _ _) ?_)
    rw [List.length_drop]
    omega

/-- A search may begin later, but not behind what it finds. -/
theorem find_drop (h : find pat s = some i) (hj : j ≤ i) : find pat (s.drop j) = some (i - j) := by
  obtain ⟨hi, hpre, hmin⟩ := find_eq_some_iff.mp h
  refine find_eq_some_iff.mpr ⟨?_, ?_, ?_⟩
  · rw [List.length_drop]
    omega
  · rw [List.drop_drop, Nat.add_sub_cancel' hj]
    exact hpre
  · intro k hk
    rw [List.drop_drop]
    exact hmin (j + k) (by omega)

theorem find_of_prefix (h : pat <+: s) : find pat s = some 0 :=
  find_eq_some_iff.mpr ⟨Nat.zero_le _, by simpa using h, fun j hj => absurd hj (Nat.not_lt_zero j)⟩

/-- An occurrence lies on one side of an element that is not in `pat`. -/
theorem find_append_cons (hc : c ∉ pat) (hne : pat ≠ []) :
    find pat (s ++ c :: t) = (find pat s).or ((find pat t).map (s.length + 1 + ·)) := by
  induction s with
  | nil =>
    have hn : ¬ pat <+: c :: t := by
      rw [← List.nil_append (c :: t), prefix_append_cons hc, List.prefix_nil]
      exact hne
    rw [List.nil_append, find_cons, if_neg hn, find_nil hne, Option.none_or]
    simp only [List.length_nil, Nat.zero_add, Nat.add_comm]
  | cons a s ih =>
    rw [List.cons_append, find_cons, find_cons, ih]
    simp only [← List.cons_append, prefix_append_cons hc]
    split
    · rfl
    · cases find pat s <;> cases find pat t <;> simp
      omega

/-- Searching goes on behind an element that is not in `pat`. -/
theorem find_append_cons_of_not_infix (hc : c ∉ pat) (hs : ¬ pat <:+: s) :
    find pat (s ++ c :: t) = (find pat t).map (s.length + 1 + ·) := by
  have hne : pat ≠ [] := by
    rintro rfl
    exact hs (List.nil_infix)
  rw [find_append_cons hc hne, find_eq_none_iff.mpr hs, Option.none_or]

/-- A pattern that does not begin again in itself is found behind a list that does not have it. -/
theorem find_append_self (hc : c ∉ pat) (hs : ¬ c :: pat <:+: s) :
    find (c :: pat) (s ++ (c :: pat ++ t)) = some s.length := by
  refine find_eq_some_iff.mpr ⟨by simp, ?_, ?_⟩
  · rw [List.drop_left]
    exact List.prefix_append _ _
  · intro j hj hpre
    rcases Nat.lt_or_ge s.length (j + (c :: pat).length) with hlt | hge
    · obtain ⟨m, hm⟩ := Nat.exists_eq_add_of_lt hj
      have hmp : m < pat.length := by
        rw [List.length_cons] at hlt
        omega
      have hget := prefix_getElem? hpre (j := m + 1) (by simpa using hmp)
      rw [show j + (m + 1) = s.length by omega, List.getElem?_append_right le_rfl, Nat.sub_self] at hget
      have hhead : pat[m] = c := (Option.some.inj hget).symm
      exact hc (hhead ▸ List.getElem_mem hmp)
    · rw [List.drop_append_of_le_length hj.le] at hpre
      refine hs (infix_of_prefix_drop (List.prefix_of_prefix_length_le hpre (List.prefix_append _ _) ?_))
      rw [List.length_drop]
      omega

/-! ### One element -/

theorem find_singleton (hs : c ∉ s) : find [c] (s ++ c :: t) = some s.length := by
  induction s with
  | nil => exact find_of_prefix (by simp)
  | cons a s ih =>
    rw [List.mem_cons, not_or] at hs
    rw [List.cons_append, find_cons, if_neg (by simp [hs.1]), ih hs.2]
    rfl

theorem find_singleton_eq_none : find [c] s = none ↔ c ∉ s := by
  rw [find_eq_none_iff, List.singleton_infix_iff]

end Cpcf.Lib.Search
