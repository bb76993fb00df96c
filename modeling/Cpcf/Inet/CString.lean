import Cpcf.Lib.Search
import Cpcf.Rt.Number

/-!
The functions of the C library that the HTTP classes search their buffers with.
-/

namespace Cpcf.Inet

open Cpcf.Lib.Search Cpcf.Rt

abbrev Text := List UInt8

/-- The bytes of a literal. -/
def ascii (s : String) : Text := s.toList.map fun c => UInt8.ofNat c.toNat

def CR : UInt8 := 0x0d

def LF : UInt8 := 0x0a

def CRLF : Text := [CR, LF]

/-- A text up to its terminator. -/
def cstr (s : Text) : Text := s.takeWhile (· ≠ 0)

/-- `strstr`, as an offset. -/
def strstr (s pat : Text) : Option ℕ := find pat (cstr s)

/-- `strchr` for another character than the terminator. -/
def strchr (s : Text) (c : UInt8) : Option ℕ := find [c] (cstr s)

/-- `isspace`. -/
def isSpace (b : UInt8) : Bool := b = 0x20 || (0x09 ≤ b && b ≤ 0x0d)

/-- `atoi`. -/
def atoi (s : Text) : ℤ :=
  match s.dropWhile isSpace with
  | [] => 0
  | b :: t =>
    if b = 0x2d then -(digitsValue 0 (t.takeWhile isDigit) : ℤ)
    else if b = 0x2b then digitsValue 0 (t.takeWhile isDigit)
    else digitsValue 0 ((b :: t).takeWhile isDigit)

/-! ### Texts without a terminator -/

variable {s t pat : Text} {c : UInt8} {n : ℕ}

theorem cstr_of_notMem (h : 0 ∉ s) : cstr s = s :=
  List.takeWhile_eq_self_iff.mpr fun _ hb => decide_eq_true fun h0 => h (h0 ▸ hb)

theorem cstr_append (h : 0 ∉ s) : cstr (s ++ t) = s ++ cstr t :=
  List.takeWhile_append_of_pos fun _ hb => decide_eq_true fun h0 => h (h0 ▸ hb)

@[simp] theorem cstr_zero : cstr (0 :: t) = [] := rfl

theorem cstr_append_zero (h : 0 ∉ s) : cstr (s ++ 0 :: t) = s := by
  rw [cstr_append h, cstr_zero, List.append_nil]

/-- What is behind a terminator is not seen. -/
theorem cstr_append_of_mem (h : 0 ∈ s) : cstr (s ++ t) = cstr s := by
  obtain ⟨a, b, rfl, ha⟩ := List.eq_append_cons_of_mem h
  rw [List.append_assoc, List.cons_append, cstr_append_zero ha, cstr_append_zero ha]

theorem cstr_append_zero_cons : cstr (s ++ 0 :: t) = cstr s := by
  by_cases h : 0 ∈ s
  · exact cstr_append_of_mem h
  · rw [cstr_append_zero h, cstr_of_notMem h]

/-- What is found is in front of the terminator. -/
theorem strstr_append_zero (h : 0 ∉ s) : strstr (s ++ 0 :: t) pat = find pat s := by
  rw [strstr, cstr_append_zero h]

theorem strchr_append (h : 0 ∉ s) (hc : c ∉ s) (h0 : c ≠ 0) : strchr (s ++ c :: t) c = some s.length := by
  have hcons : cstr (c :: t) = c :: cstr t := List.takeWhile_cons_of_pos (decide_eq_true h0)
  rw [strchr, cstr_append h, hcons, find_singleton hc]

theorem isSpace_of_isDigit : ∀ b : UInt8, isDigit b = true → isSpace b = false ∧ b ≠ 0x2d ∧ b ≠ 0x2b := by
  intro b hb
  rw [isDigit_iff] at hb
  refine ⟨?_, ?_, ?_⟩
  · simp only [isSpace, Bool.or_eq_false_iff, Bool.and_eq_false_iff, decide_eq_false_iff_not, UInt8.le_iff_toNat_le,
      ← UInt8.toNat_inj, UInt8.reduceToNat]
    omega
  · rintro rfl
    exact absurd hb (by decide)
  · rintro rfl
    exact absurd hb (by decide)

theorem atoi_digits (h : ∀ b ∈ s, isDigit b = true) : atoi s = digitsValue 0 s := by
  cases s with
  | nil => rfl
  | cons b t =>
    obtain ⟨hspace, hminus, hplus⟩ := isSpace_of_isDigit b (h b List.mem_cons_self)
    rw [atoi, List.dropWhile_cons_of_neg (by simp [hspace])]
    simp only [if_neg hminus, if_neg hplus]
    rw [List.takeWhile_eq_self_iff.mpr h]

end Cpcf.Inet
