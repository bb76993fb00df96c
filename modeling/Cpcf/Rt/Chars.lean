import Mathlib.Tactic

/-!
Characters of the source as bytes, and the two readings of a `char`.

A text of the library is a list of bytes. `char` is signed on the platforms the library is built
for, so a comparison such as `*p <= ' '` is made on `schar`, not on the byte.
-/

namespace Cpcf.Rt

/-- A `char` widened to `int`. -/
def schar (b : UInt8) : ℤ := if b < 128 then b.toNat else (b.toNat : ℤ) - 256

theorem schar_of_lt {b : UInt8} (h : b < 128) : schar b = b.toNat := if_pos h

/-! ### Blanks -/

/-- `*p<=' ' && *p>=0`. -/
def isSkipped (b : UInt8) : Bool := schar b ≤ 0x20 && 0 ≤ schar b

/-- `TrimLeftSpace`. -/
def trimLeftSpace (s : List UInt8) : List UInt8 := s.dropWhile isSkipped

/-- The loop of `TrimRightSpace` over the text from its end; it leaves one character at least. -/
def trimRightLoop : List UInt8 → List UInt8
  | b :: c :: s => if isSkipped b then trimRightLoop (c :: s) else b :: c :: s
  | s => s

/-- `TrimRightSpace`. -/
def trimRightSpace (s : List UInt8) : List UInt8 := (trimRightLoop s.reverse).reverse

/-- `TrimSpace`. -/
def trimSpace (s : List UInt8) : List UInt8 := trimRightSpace (trimLeftSpace s)

theorem trimRightLoop_suffix : ∀ s : List UInt8, ∃ u, s = u ++ trimRightLoop s ∧ ∀ b ∈ u, isSkipped b = true
  | [] => ⟨[], rfl, by simp⟩
  | [b] => ⟨[], rfl, by simp⟩
  | b :: c :: s => by
    cases hb : isSkipped b
    · exact ⟨[], by simp [trimRightLoop, hb], by simp⟩
    · obtain ⟨u, hu, hall⟩ := trimRightLoop_suffix (c :: s)
      refine ⟨b :: u, by simp [trimRightLoop, hb, ← hu], ?_⟩
      simpa [hb] using hall

theorem trimRightSpace_prefix (s : List UInt8) : ∃ u, s = trimRightSpace s ++ u ∧ ∀ b ∈ u, isSkipped b = true := by
  obtain ⟨u, hu, hall⟩ := trimRightLoop_suffix s.reverse
  refine ⟨u.reverse, ?_, by simpa using hall⟩
  have := congrArg List.reverse hu
  rwa [List.reverse_reverse, List.reverse_append] at this

theorem trimLeftSpace_eq {l : List UInt8} (hl : ∀ b ∈ l.head?, isSkipped b = false) : trimLeftSpace l = l := by
  cases l with
  | nil => rfl
  | cons b l => simp [trimLeftSpace, hl b (by simp)]

/-- A text without blanks has none to be trimmed. -/
theorem trimSpace_eq {s : List UInt8} (hs : ∀ b ∈ s, isSkipped b = false) : trimSpace s = s := by
  obtain ⟨u, hu, hall⟩ := trimRightSpace_prefix s
  have : u = [] := by
    rw [List.eq_nil_iff_forall_not_mem]
    intro b hb
    have := hs b (by rw [hu]; exact List.mem_append_right _ hb)
    simp [hall b hb] at this
  rw [trimSpace, trimLeftSpace_eq fun b hb => hs b (List.mem_of_mem_head? hb)]
  conv_rhs => rw [hu, this, List.append_nil]

theorem length_trimSpace_le (s : List UInt8) : (trimSpace s).length ≤ s.length := by
  obtain ⟨u, hu, -⟩ := trimRightSpace_prefix (trimLeftSpace s)
  have hleft : (trimLeftSpace s).length ≤ s.length := (List.dropWhile_sublist _).length_le
  have hright := congrArg List.length hu
  rw [List.length_append] at hright
  rw [trimSpace]
  omega

/-! ### The characters the scanners look for -/

namespace Ch

@[simp, grind] def dquote : UInt8 := 0x22
@[simp, grind] def squote : UInt8 := 0x27
@[simp, grind] def percent : UInt8 := 0x25
@[simp, grind] def comma : UInt8 := 0x2c
@[simp, grind] def minus : UInt8 := 0x2d
@[simp, grind] def slash : UInt8 := 0x2f
@[simp, grind] def zero : UInt8 := 0x30
@[simp, grind] def colon : UInt8 := 0x3a
@[simp, grind] def lt : UInt8 := 0x3c
@[simp, grind] def equals : UInt8 := 0x3d
@[simp, grind] def gt : UInt8 := 0x3e
@[simp, grind] def lbracket : UInt8 := 0x5b
@[simp, grind] def backslash : UInt8 := 0x5c
@[simp, grind] def rbracket : UInt8 := 0x5d
@[simp, grind] def lbrace : UInt8 := 0x7b
@[simp, grind] def rbrace : UInt8 := 0x7d
@[simp, grind] def space : UInt8 := 0x20
@[simp, grind] def newline : UInt8 := 0x0a

end Ch

end Cpcf.Rt
