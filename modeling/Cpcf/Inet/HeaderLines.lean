import Cpcf.Inet.CString

/-!
The lines of an HTTP header, and where a search over them stops.
-/

namespace Cpcf.Inet

open Cpcf.Lib.Search

/-- A line of a header. -/
def IsLine (l : Text) : Prop := l ≠ [] ∧ 0 ∉ l ∧ CR ∉ l ∧ LF ∉ l

def joinLines (ls : List Text) : Text := ls.flatMap (· ++ CRLF)

variable {l pat s t : Text} {ls : List Text} {b : UInt8} {i j : ℕ}

@[simp] theorem joinLines_nil : joinLines [] = [] := rfl

theorem joinLines_cons : joinLines (l :: ls) = l ++ CR :: LF :: joinLines ls := by
  simp [joinLines, CRLF]

theorem joinLines_append {ls' : List Text} : joinLines (ls ++ ls') = joinLines ls ++ joinLines ls' :=
  List.flatMap_append

theorem joinLines_end (h : ls ≠ []) : ∃ s, joinLines ls = s ++ CRLF := by
  rw [← List.dropLast_append_getLast h, joinLines_append]
  exact ⟨joinLines ls.dropLast ++ ls.getLast h, by simp [joinLines]⟩

theorem notMem_joinLines (hb : b ≠ CR ∧ b ≠ LF) (h : ∀ l ∈ ls, b ∉ l) : b ∉ joinLines ls := by
  rw [joinLines, List.mem_flatMap]
  rintro ⟨l, hl, hmem⟩
  rw [List.mem_append] at hmem
  rcases hmem with hmem | hmem
  · exact h l hl hmem
  · simp only [CRLF, List.mem_cons, List.not_mem_nil, or_false] at hmem
    rcases hmem with rfl | rfl
    · exact hb.1 rfl
    · exact hb.2 rfl

/-! ### The end of the header -/

/-- Behind no line but the last there is an empty one. -/
theorem length_le_of_empty (hls : ∀ l ∈ ls, IsLine l) (h : CRLF ++ [CR] <+: (joinLines ls ++ CRLF ++ t).drop j) :
    (joinLines ls).length ≤ j + 2 := by
  induction ls generalizing j with
  | nil => simp
  | cons l ls ih =>
    obtain ⟨-, -, hcr, -⟩ := hls l List.mem_cons_self
    rw [joinLines_cons] at h ⊢
    simp only [List.append_assoc, List.cons_append] at h
    simp only [List.length_append, List.length_cons]
    rcases lt_trichotomy j l.length with hj | rfl | hj
    · -- the line itself has no CR
      have h0 := prefix_getElem? h (show 0 < (CRLF ++ [CR]).length by decide)
      rw [List.getElem?_append_left (by omega)] at h0
      exact absurd (List.mem_of_getElem? h0) hcr
    · -- the line behind it would begin with a CR
      cases ls with
      | nil => simp
      | cons l' ls =>
        obtain ⟨hne, -, hcr', -⟩ := hls l' (by simp)
        obtain ⟨b, l', rfl⟩ := List.exists_cons_of_ne_nil hne
        have h2 := prefix_getElem? h (show 2 < (CRLF ++ [CR]).length by decide)
        rw [joinLines_cons, List.getElem?_append_right (by omega)] at h2
        simp only [Nat.add_sub_cancel_left, List.getElem?_cons_succ, List.cons_append, List.getElem?_cons_zero,
          Option.some.injEq] at h2
        exact absurd (h2 ▸ List.mem_cons_self) hcr'
    · obtain ⟨k, rfl⟩ := Nat.exists_eq_add_of_lt hj
      rw [List.drop_append, List.drop_of_length_le (by omega), List.nil_append,
        show l.length + k + 1 - l.length = k + 1 by omega, List.drop_succ_cons] at h
      cases k with
      | zero => exact absurd (List.cons_prefix_cons.mp h).1 (by decide)
      | succ k =>
        have := ih (fun l hl => hls l (List.mem_cons_of_mem _ hl)) (j := k) (by simpa using h)
        omega

theorem length_le_of_end (hls : ∀ l ∈ ls, IsLine l) (h : CRLF ++ CRLF <+: (joinLines ls ++ CRLF ++ t).drop j) :
    (joinLines ls).length ≤ j + 2 :=
  length_le_of_empty hls (List.IsPrefix.trans ⟨[LF], rfl⟩ h)

/-- The header ends with the first empty line. -/
theorem find_end (hls : ∀ l ∈ ls, IsLine l) (hne : ls ≠ []) (hi : i + 4 ≤ (joinLines ls ++ CRLF).length) :
    find (CRLF ++ CRLF) ((joinLines ls ++ CRLF ++ t).drop i) = some ((joinLines ls ++ CRLF).length - 4 - i) := by
  obtain ⟨s, hs⟩ := joinLines_end hne
  have hlen : (joinLines ls ++ CRLF).length = s.length + 4 := by simp [hs, CRLF]
  refine find_eq_some_iff.mpr ⟨?_, ?_, ?_⟩
  · have happ : (joinLines ls ++ CRLF ++ t).length = (joinLines ls ++ CRLF).length + t.length := List.length_append
    rw [List.length_drop, happ]
    omega
  · rw [List.drop_drop, show i + ((joinLines ls ++ CRLF).length - 4 - i) = s.length by omega, hs, List.append_assoc s,
      List.append_assoc, List.drop_left]
    exact List.prefix_append _ _
  · intro j hj h
    rw [List.drop_drop] at h
    have := length_le_of_end hls h
    rw [List.length_append, show CRLF.length = 2 from rfl] at hj
    omega

/-- A line feed is the end of a line. -/
theorem joinLines_of_prefix (hls : ∀ l ∈ ls, IsLine l) (h : s <+: joinLines ls) (hend : s.getLast? = some LF) :
    ∃ ls₁ ls₂, ls = ls₁ ++ ls₂ ∧ s = joinLines ls₁ := by
  induction ls generalizing s with
  | nil =>
    rw [joinLines_nil, List.prefix_nil] at h
    subst h
    cases hend
  | cons l ls ih =>
    obtain ⟨-, -, -, hlf⟩ := hls l List.mem_cons_self
    have hcons : joinLines (l :: ls) = (l ++ CRLF) ++ joinLines ls := rfl
    rw [hcons] at h
    rcases Nat.lt_or_ge s.length (l.length + 2) with hlt | hge
    · -- no line feed is in the line or in front of the one behind it
      have hcut : s <+: l ++ [CR] := by
        refine List.prefix_of_prefix_length_le h ⟨LF :: joinLines ls, by simp [CRLF]⟩ ?_
        rw [List.length_append, List.length_singleton]
        omega
      have hmem := hcut.subset (List.mem_of_getLast? hend)
      rw [List.mem_append, List.mem_singleton] at hmem
      rcases hmem with hmem | hmem
      · exact absurd hmem hlf
      · exact absurd hmem (by decide)
    · obtain ⟨s', rfl⟩ : l ++ CRLF <+: s := by
        refine List.prefix_of_prefix_length_le (List.prefix_append _ _) h ?_
        rw [List.length_append, show CRLF.length = 2 from rfl]
        exact hge
      by_cases hs' : s' = []
      · exact ⟨[l], ls, rfl, by simp [hs', joinLines]⟩
      · rw [List.getLast?_append_of_ne_nil _ hs'] at hend
        obtain ⟨ls₁, ls₂, rfl, rfl⟩ :=
          ih (fun l hl => hls l (List.mem_cons_of_mem _ hl)) ((List.prefix_append_right_inj _).mp h) hend
        exact ⟨l :: ls₁, ls₂, rfl, rfl⟩

/-! ### A text that has no line end -/

theorem find_joinLines (hpat : CR ∉ pat ∧ LF ∉ pat) (hne : pat ≠ []) (hls : ∀ l ∈ ls, ¬ pat <:+: l) :
    find pat (joinLines ls ++ t) = (find pat t).map ((joinLines ls).length + ·) := by
  induction ls with
  | nil => simp
  | cons l ls ih =>
    rw [joinLines_cons, List.append_assoc, List.cons_append, List.cons_append,
      find_append_cons_of_not_infix hpat.1 (hls l List.mem_cons_self), ← List.nil_append (LF :: _),
      find_append_cons_of_not_infix hpat.2 (by simpa using hne), ih fun l hl => hls l (List.mem_cons_of_mem _ hl)]
    cases find pat t
    · rfl
    · simp
      omega

end Cpcf.Inet
