import Cpcf.Rt.Chars

/-!
Going through a text line by line: `GetNextLine` of `rt/string_type.h`, and the functions that take a line apart.

`GetNextLine` goes on from the end of the line before it, so what it works on is the text from there. It first takes
the end of that line away; at the start of a text that is taken for the end of a line too, so that an empty first line
is lost.
-/

namespace Cpcf.Rt.Lines

abbrev Text := List UInt8

def isNewline (b : UInt8) : Bool := b = 0xd || b = 0xa

/-- The text behind one end of a line. -/
def dropNewline : Text → Text
  | [] => []
  | [b] => if isNewline b then [] else [b]
  | b :: c :: t => if b = 0xd && c = 0xa then t else if isNewline b then c :: t else b :: c :: t

/-- `GetNextLine`: the line, and the text from its end on. -/
def getNextLine (skip_empty_line : Bool) (rest : Text) : Option (Text × Text) :=
  let start := if skip_empty_line then rest.dropWhile isNewline else dropNewline rest
  if start.isEmpty then none
  else some (start.takeWhile fun b => !isNewline b, start.dropWhile fun b => !isNewline b)

/-- `CharacterSet_ControlChar(" \t")`: the control characters and the blank. -/
def isSeparator (b : UInt8) : Bool := 1 ≤ schar b && schar b ≤ 0x20

/-- `TrimAfter`. -/
def trimAfter (s : Text) : Text := s.takeWhile fun b => !isSeparator b

/-- `Split` into `n` fields at most, without quotes and with separators next to each other taken as one. With each field
stands the text from its start on. -/
def split : ℕ → Text → List (Text × Text)
  | 0, _ => []
  | n + 1, s =>
    (trimAfter s, s) ::
      match s.dropWhile fun b => !isSeparator b with
      | [] => []
      | _ :: t => split n (t.dropWhile isSeparator)

/-! ### The lines of a text -/

/-- The lines from some place on, where `acc` of the line has been read and `cr` tells that it is behind a carriage
return. -/
def linesFrom (acc : Text) (cr : Bool) : Text → List Text
  | [] => if acc.isEmpty then [] else [acc]
  | b :: t =>
    if b = 0xa && cr then linesFrom acc false t
    else if isNewline b then acc :: linesFrom [] (b = 0xd) t
    else linesFrom (acc ++ [b]) false t

/-- The lines of a text. One ends with a carriage return, a line feed or both, or with the text. -/
def lines (t : Text) : List Text := linesFrom [] false t

@[simp] theorem lines_nil : lines [] = [] := rfl

theorem linesFrom_dropNewline (b : UInt8) (hb : isNewline b = true) (t : Text) :
    linesFrom [] (b = 0xd) t = lines (dropNewline (b :: t)) := by
  cases t with
  | nil => simp [dropNewline, hb, linesFrom]
  | cons c t =>
    by_cases hc : b = 0xd ∧ c = 0xa
    · simp [linesFrom, dropNewline, lines, hc.1, hc.2]
    · have hif : (c = 0xa && b = 0xd) = false := by
        simp only [Bool.and_eq_false_iff, decide_eq_false_iff_not]
        tauto
      have hif' : (b = 0xd && c = 0xa) = false := by rwa [Bool.and_comm]
      simp only [linesFrom, dropNewline, lines, hb, hif, hif', Bool.false_eq_true, if_false, if_true, Bool.and_false]

theorem linesFrom_eq : ∀ (t acc : Text), acc ++ t ≠ [] → linesFrom acc false t =
    (acc ++ t.takeWhile fun b => !isNewline b) :: lines (dropNewline (t.dropWhile fun b => !isNewline b))
  | [], acc, h => by
    have : acc ≠ [] := by simpa using h
    simp [linesFrom, this, dropNewline]
  | b :: t, acc, _ => by
    cases hb : isNewline b
    · have hrec := linesFrom_eq t (acc ++ [b]) (by simp)
      simp [linesFrom, hb, hrec]
    · have hd := linesFrom_dropNewline b hb t
      simp only [linesFrom, hb, Bool.and_false, Bool.false_eq_true, if_false, if_true, List.takeWhile_cons,
        List.dropWhile_cons, Bool.not_true, List.append_nil, hd]

theorem lines_eq {t : Text} (h : t ≠ []) : lines t =
    (t.takeWhile fun b => !isNewline b) :: lines (dropNewline (t.dropWhile fun b => !isNewline b)) := by
  exact linesFrom_eq t [] (by simpa using h)

/-- The place is the end of a line, and the text has these lines from there on. -/
def At (rest : Text) (ls : List Text) : Prop :=
  (rest = [] ∨ ∃ b t, isNewline b = true ∧ rest = b :: t) ∧ lines (dropNewline rest) = ls

theorem at_dropWhile (t : Text) :
    At (t.dropWhile fun b => !isNewline b) (lines (dropNewline (t.dropWhile fun b => !isNewline b))) := by
  refine ⟨?_, rfl⟩
  cases hd : t.dropWhile fun b => !isNewline b with
  | nil => exact .inl rfl
  | cons b r =>
    have hhead := List.head_dropWhile_not (p := fun b => !isNewline b) (l := t) (by simp [hd])
    simp only [hd, List.head_cons] at hhead
    exact .inr ⟨b, r, by simpa using hhead, rfl⟩

theorem dropNewline_length {b : UInt8} {t : Text} (hb : isNewline b = true) :
    (dropNewline (b :: t)).length ≤ t.length := by
  cases t with
  | nil => simp [dropNewline, hb]
  | cons c t =>
    rw [dropNewline]
    split
    · simp
    · simp

theorem dropNewline_of_not {b : UInt8} {t : Text} (hb : isNewline b = false) : dropNewline (b :: t) = b :: t := by
  have hd : b ≠ 0xd := by
    rintro rfl
    simp [isNewline] at hb
  cases t <;> simp [dropNewline, hb, hd]

theorem dropWhile_dropNewline (t : Text) : (dropNewline t).dropWhile isNewline = t.dropWhile isNewline := by
  rcases t with _ | ⟨b, _ | ⟨c, t⟩⟩
  · rfl
  · cases hb : isNewline b <;> simp [dropNewline, hb]
  · cases hb : isNewline b
    · rw [dropNewline_of_not hb]
    · rw [dropNewline]
      split
      · rename_i hc
        simp only [Bool.and_eq_true, decide_eq_true_eq] at hc
        simp [hc.1, hc.2, isNewline]
      · simp [hb]

section

variable {rest l : Text} {ls : List Text}

theorem At.dropNewline_eq_nil (h : At rest []) : dropNewline rest = [] := by
  by_contra hne
  rw [At, lines_eq hne] at h
  simp at h

theorem getNextLine_nil (h : At rest []) (skip : Bool) : getNextLine skip rest = none := by
  have hd := h.dropNewline_eq_nil
  cases skip
  · simp [getNextLine, hd]
  · have := dropWhile_dropNewline rest
    rw [hd] at this
    simp [getNextLine, ← this]

/-- Where there is one more line, it starts behind the end of the one before. -/
theorem At.cons (h : At rest (l :: ls)) : ∃ rest', dropNewline rest ≠ [] ∧
    (dropNewline rest).takeWhile (fun b => !isNewline b) = l ∧
    (dropNewline rest).dropWhile (fun b => !isNewline b) = rest' ∧ At rest' ls ∧ rest'.length < rest.length := by
  have hne : dropNewline rest ≠ [] := by
    intro hnil
    have := h.2
    rw [hnil] at this
    simp at this
  have hl := h.2
  rw [lines_eq hne, List.cons.injEq] at hl
  refine ⟨_, hne, hl.1, rfl, hl.2 ▸ at_dropWhile _, ?_⟩
  rcases h.1 with rfl | ⟨b, t, hb, rfl⟩
  · exact absurd rfl hne
  · have h₁ := dropNewline_length (t := t) hb
    have h₂ := (List.dropWhile_sublist (l := dropNewline (b :: t)) fun b => !isNewline b).length_le
    rw [List.length_cons]
    omega

/-- The next line. -/
theorem getNextLine_cons (h : At rest (l :: ls)) :
    ∃ rest', getNextLine false rest = some (l, rest') ∧ At rest' ls ∧ rest'.length < rest.length := by
  obtain ⟨rest', hne, hl, hr, hat, hlt⟩ := h.cons
  exact ⟨rest', by simp [getNextLine, hne, hl, hr], hat, hlt⟩

/-- The next line when empty ones are skipped and it is not empty. -/
theorem getNextLine_skip (h : At rest (l :: ls)) (hl : l ≠ []) :
    ∃ rest', getNextLine true rest = some (l, rest') ∧ At rest' ls ∧ rest'.length < rest.length := by
  obtain ⟨rest', hne, hl', hr, hat, hlt⟩ := h.cons
  have hstart : rest.dropWhile isNewline = dropNewline rest := by
    rw [← dropWhile_dropNewline]
    cases hd : dropNewline rest with
    | nil => rfl
    | cons b t =>
      cases hb : isNewline b
      · simp [hb]
      · rw [hd] at hl'
        simp [hb] at hl'
        exact absurd hl' hl
  exact ⟨rest', by simp [getNextLine, hstart, hne, hl', hr], hat, hlt⟩

/-- An empty line is skipped. -/
theorem getNextLine_empty (h : At rest ([] :: ls)) :
    ∃ rest', getNextLine true rest = getNextLine true rest' ∧ At rest' ls ∧ rest'.length < rest.length := by
  obtain ⟨rest', hne, hl, hr, hat, hlt⟩ := h.cons
  refine ⟨rest', ?_, hat, hlt⟩
  have hr' : rest' = dropNewline rest := by
    rw [← hr]
    cases hd : dropNewline rest with
    | nil => rfl
    | cons b t =>
      cases hb : isNewline b
      · rw [hd] at hl
        simp [hb] at hl
      · simp [hb]
  have := dropWhile_dropNewline rest
  simp [getNextLine, hr', this]

end

end Cpcf.Rt.Lines
