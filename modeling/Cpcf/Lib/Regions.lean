import Mathlib

/-!
Stretches of addresses handed out from a store that only grows at its end.

The stretches lie apart from each other and below a limit. A stretch may be added at the limit, made smaller,
or cut in two of which the front part is handed out anew, and they still do.
-/

namespace Cpcf.Lib.Regions

/-- The addresses from `pos` up to `stop`. -/
@[ext] structure Span where
  pos : ℕ
  stop : ℕ
  deriving DecidableEq, Repr

/-- Two stretches have no address in common. -/
def Apart (I J : Span) : Prop := Disjoint (Set.Ico I.pos I.stop) (Set.Ico J.pos J.stop)

theorem apart_iff {I J : Span} : Apart I J ↔ min I.stop J.stop ≤ max I.pos J.pos := Set.Ico_disjoint_Ico

instance (I J : Span) : Decidable (Apart I J) := decidable_of_iff _ apart_iff.symm

theorem Apart.symm {I J : Span} (h : Apart I J) : Apart J I := Disjoint.symm h

/-- A stretch inside another one. -/
def Within (I J : Span) : Prop := J.pos ≤ I.pos ∧ I.stop ≤ J.stop

theorem Apart.within {I J K : Span} (h : Apart J K) (hw : Within I J) : Apart I K := by
  rw [apart_iff] at h ⊢
  exact (min_le_min_right _ hw.2).trans (h.trans (max_le_max_right _ hw.1))

/-- The stretches are apart, and below the limit. -/
structure Laid (limit : ℕ) (l : List Span) : Prop where
  apart : ∀ (i j : ℕ) (I J : Span), i ≠ j → l[i]? = some I → l[j]? = some J → Apart I J
  below : ∀ (i : ℕ) (I : Span), l[i]? = some I → I.stop ≤ limit

variable {limit limit' i : ℕ} {l : List Span} {I J : Span}

theorem Laid.nil : Laid limit [] := by
  constructor
  · intro i j I J _ h
    cases h
  · intro i I h
    cases h

theorem Laid.mono (h : Laid limit l) (hl : limit ≤ limit') : Laid limit' l :=
  ⟨h.apart, fun i I hi => (h.below i I hi).trans hl⟩

/-- One more stretch, apart from all others. -/
theorem Laid.snoc (h : Laid limit l) (hI : I.stop ≤ limit) (ha : ∀ (i : ℕ) (J : Span), l[i]? = some J → Apart J I) :
    Laid limit (l ++ [I]) := by
  have hcases : ∀ (i : ℕ) (J : Span), (l ++ [I])[i]? = some J → l[i]? = some J ∨ i = l.length ∧ J = I := by
    intro i J hJ
    rcases Nat.lt_trichotomy i l.length with hi | rfl | hi
    · left
      rwa [List.getElem?_append_left hi] at hJ
    · right
      rw [List.getElem?_append_right le_rfl, Nat.sub_self, List.getElem?_cons_zero, Option.some.injEq] at hJ
      exact ⟨rfl, hJ.symm⟩
    · rw [List.getElem?_eq_none (by rw [List.length_append, List.length_singleton]; omega)] at hJ
      cases hJ
  constructor
  · intro i j J K hij hJ hK
    rcases hcases i J hJ with hJl | ⟨hi, hJI⟩ <;> rcases hcases j K hK with hKl | ⟨hj, hKI⟩
    · exact h.apart i j J K hij hJl hKl
    · exact hKI ▸ ha i J hJl
    · exact hJI ▸ (ha j K hKl).symm
    · exact absurd (hi.trans hj.symm) hij
  · intro i J hJ
    rcases hcases i J hJ with hJl | ⟨hi, hJI⟩
    · exact h.below i J hJl
    · exact hJI ▸ hI

/-- A stretch is put at the limit, which moves behind it. -/
theorem Laid.grow (h : Laid limit l) (hl : limit ≤ limit') : Laid limit' (l ++ [⟨limit, limit'⟩]) := by
  refine (h.mono hl).snoc le_rfl fun i J hJ => ?_
  have := h.below i J hJ
  rw [apart_iff]
  dsimp only
  omega

/-- A stretch without addresses. -/
theorem Laid.snoc_empty (h : Laid limit l) : Laid limit (l ++ [⟨0, 0⟩]) := by
  refine h.snoc (Nat.zero_le _) fun i J _ => ?_
  rw [apart_iff]
  dsimp only
  omega

/-- A stretch is made smaller. -/
theorem Laid.shrink (h : Laid limit l) (hi : l[i]? = some J) (hw : Within I J) : Laid limit (l.set i I) := by
  have hlt : i < l.length := (List.getElem?_eq_some_iff.mp hi).1
  have hcases : ∀ (j : ℕ) (K : Span), (l.set i I)[j]? = some K → ∃ K', l[j]? = some K' ∧ Within K K' := by
    intro j K hK
    by_cases hij : i = j
    · subst hij
      rw [List.getElem?_set_self hlt, Option.some.injEq] at hK
      exact ⟨J, hi, hK ▸ hw⟩
    · rw [List.getElem?_set_ne hij] at hK
      exact ⟨K, hK, le_rfl, le_rfl⟩
  constructor
  · intro j k K L hjk hK hL
    obtain ⟨K', hK', hKw⟩ := hcases j K hK
    obtain ⟨L', hL', hLw⟩ := hcases k L hL
    exact (((h.apart j k K' L' hjk hK' hL').within hKw).symm.within hLw).symm
  · intro j K hK
    obtain ⟨K', hK', hKw⟩ := hcases j K hK
    exact hKw.2.trans (h.below j K' hK')

/-- The front part of a stretch is handed out anew. -/
theorem Laid.split {m : ℕ} (h : Laid limit l) (hi : l[i]? = some J) (h1 : J.pos ≤ m) (h2 : m ≤ J.stop) :
    Laid limit (l.set i ⟨m, J.stop⟩ ++ [⟨J.pos, m⟩]) := by
  have hlt : i < l.length := (List.getElem?_eq_some_iff.mp hi).1
  have hback : Within ⟨m, J.stop⟩ J := ⟨h1, le_rfl⟩
  refine (h.shrink hi hback).snoc (h2.trans (h.below i J hi)) fun j K hK => ?_
  by_cases hij : i = j
  · subst hij
    rw [List.getElem?_set_self hlt, Option.some.injEq] at hK
    rw [apart_iff, ← hK]
    dsimp only
    omega
  · rw [List.getElem?_set_ne hij] at hK
    have hfront : Within ⟨J.pos, m⟩ J := ⟨le_rfl, h2⟩
    exact ((h.apart i j J K hij hi hK).within hfront).symm

end Cpcf.Lib.Regions
