import Cpcf.Rt.Lines
import Cpcf.Rt.SplitFields

/-!
`GetNextLine` called again and again, from an empty line on.

All it knows of the lines before is where the last one ended. Behind a line that is the end of the line, which it takes
away; at the start of a text there is no such line, and an empty first line is taken away instead.
-/

namespace Cpcf.Rt.Lines

/-! ### What is left to be yielded -/

/-- The lines that are left behind the end of a line, or from the start of a text on. -/
def yielded (skip_empty_line : Bool) (rest : Text) : List Text :=
  if skip_empty_line then (lines rest).filter (· ≠ []) else lines (dropNewline rest)

theorem lines_cons_newline {b : UInt8} (hb : isNewline b = true) (t : Text) :
    lines (b :: t) = [] :: lines (dropNewline (b :: t)) := by
  rw [lines_eq (List.cons_ne_nil b t), List.takeWhile_cons, List.dropWhile_cons, hb]
  rfl

theorem filter_lines_dropWhile (t : Text) :
    (lines t).filter (· ≠ []) = (lines (t.dropWhile isNewline)).filter (· ≠ []) := by
  induction hn : t.length using Nat.strong_induction_on generalizing t with
  | _ n ih =>
    cases t with
    | nil => rfl
    | cons b t =>
      cases hb : isNewline b with
      | false => rw [List.dropWhile_cons, hb, if_neg Bool.false_ne_true]
      | true =>
        have hlt := dropNewline_length (t := t) hb
        rw [List.length_cons] at hn
        rw [lines_cons_newline hb, List.filter_cons_of_neg (by simp), ih _ (by omega) _ rfl, dropWhile_dropNewline]

/-- The end of a line makes no difference when empty lines are left out. -/
theorem filter_lines_at {rest : Text} (h : ∀ b ∈ rest.head?, isNewline b = true) :
    (lines rest).filter (· ≠ []) = (lines (dropNewline rest)).filter (· ≠ []) := by
  cases rest with
  | nil => rfl
  | cons b t => rw [lines_cons_newline (h b rfl), List.filter_cons_of_neg (by simp)]

theorem head?_dropWhile (t : Text) : ∀ b ∈ (t.dropWhile fun b => !isNewline b).head?, isNewline b = true := by
  intro b hb
  have := List.head?_dropWhile_not (fun b => !isNewline b) t
  rw [Option.mem_def.mp hb] at this
  simpa using this

theorem yielded_of_none {skip : Bool} {rest : Text} (h : getNextLine skip rest = none) : yielded skip rest = [] := by
  cases skip with
  | false =>
    simp only [getNextLine, Bool.false_eq_true, if_false, ite_eq_left_iff] at h
    have hnil : dropNewline rest = [] := by simpa using h
    rw [yielded, if_neg Bool.false_ne_true, hnil]
    rfl
  | true =>
    simp only [getNextLine, if_true, ite_eq_left_iff] at h
    have hnil : rest.dropWhile isNewline = [] := by simpa using h
    rw [yielded, if_pos rfl, filter_lines_dropWhile, hnil]
    rfl

theorem yielded_of_some {skip : Bool} {rest l rest' : Text} (h : getNextLine skip rest = some (l, rest')) :
    yielded skip rest = l :: yielded skip rest' := by
  cases skip with
  | false =>
    simp only [getNextLine, Bool.false_eq_true, if_false, Option.ite_none_left_eq_some, Option.some.injEq,
      Prod.mk.injEq] at h
    obtain ⟨hne, hl, hr⟩ := h
    rw [yielded, if_neg Bool.false_ne_true, lines_eq (by simpa using hne), hl, hr]
    rfl
  | true =>
    simp only [getNextLine, if_true, Option.ite_none_left_eq_some, Option.some.injEq, Prod.mk.injEq] at h
    obtain ⟨hne, hl, hr⟩ := h
    have hne' : rest.dropWhile isNewline ≠ [] := by simpa using hne
    have hhead := List.head_dropWhile_not isNewline hne'
    obtain ⟨b, u, hu⟩ := List.exists_cons_of_ne_nil hne'
    have hb : isNewline b = false := by simpa [hu] using hhead
    have hlne : l ≠ [] := by
      rw [← hl, hu, List.takeWhile_cons, hb]
      simp
    have hat : ∀ b ∈ rest'.head?, isNewline b = true := by
      rw [← hr]
      exact head?_dropWhile _
    rw [yielded, if_pos rfl, filter_lines_dropWhile, lines_eq hne', hl, hr,
      List.filter_cons_of_pos (by simpa using hlne), yielded, if_pos rfl, filter_lines_at hat]

/-- The text a call of `GetNextLine` takes the line from. -/
def lineText (skip_empty_line : Bool) (rest : Text) : Text :=
  if skip_empty_line then rest.dropWhile isNewline else dropNewline rest

theorem getNextLine_lineText (skip : Bool) (rest : Text) :
    getNextLine skip rest = if (lineText skip rest).isEmpty then none
      else some ((lineText skip rest).takeWhile fun b => !isNewline b,
        (lineText skip rest).dropWhile fun b => !isNewline b) := rfl

theorem lineText_suffix (skip : Bool) (rest : Text) : ∃ pre, rest = pre ++ lineText skip rest := by
  cases skip with
  | true => exact ⟨rest.takeWhile isNewline, (List.takeWhile_append_dropWhile).symm⟩
  | false =>
    rw [lineText, if_neg Bool.false_ne_true]
    rcases rest with _ | ⟨b, _ | ⟨c, t⟩⟩
    · exact ⟨[], rfl⟩
    · rw [dropNewline]
      split
      · exact ⟨[b], rfl⟩
      · exact ⟨[], rfl⟩
    · rw [dropNewline]
      split
      · exact ⟨[b, c], rfl⟩
      · split
        · exact ⟨[b], rfl⟩
        · exact ⟨[], rfl⟩

/-- A call takes something off the text. -/
theorem lineText_length (skip : Bool) (b : UInt8) (t : Text) :
    ((lineText skip (b :: t)).dropWhile fun b => !isNewline b).length ≤ t.length := by
  cases hb : isNewline b with
  | false =>
    have hsame : lineText skip (b :: t) = b :: t := by
      unfold lineText
      split
      · rw [List.dropWhile_cons, hb, if_neg Bool.false_ne_true]
      · exact dropNewline_of_not hb
    rw [hsame, List.dropWhile_cons, hb]
    exact (List.dropWhile_sublist _).length_le
  | true =>
    refine (List.dropWhile_sublist _).length_le.trans ?_
    unfold lineText
    split
    · rw [List.dropWhile_cons, hb, if_pos rfl]
      exact (List.dropWhile_sublist _).length_le
    · exact dropNewline_length hb

theorem getNextLine_lt {skip : Bool} {rest l rest' : Text} (h : getNextLine skip rest = some (l, rest')) :
    rest'.length < rest.length := by
  rw [getNextLine_lineText, Option.ite_none_left_eq_some, Option.some.injEq, Prod.mk.injEq] at h
  obtain ⟨hne, -, hr⟩ := h
  cases rest with
  | nil => cases skip <;> exact absurd rfl hne
  | cons b t =>
    rw [← hr, List.length_cons]
    exact Nat.lt_succ_of_le (lineText_length skip b t)

/-- A line that is not empty is the next one also when it is not behind the end of a line. -/
theorem getNextLine_again {skip : Bool} {rest l rest' : Text} (h : getNextLine skip rest = some (l, rest'))
    (hl : l ≠ []) : getNextLine false (l ++ rest') = some (l, rest') := by
  rw [getNextLine_lineText, Option.ite_none_left_eq_some, Option.some.injEq, Prod.mk.injEq] at h
  obtain ⟨hne, h1, h2⟩ := h
  have hjoin : l ++ rest' = lineText skip rest := by
    rw [← h1, ← h2]
    exact List.takeWhile_append_dropWhile
  have hsame : dropNewline (lineText skip rest) = lineText skip rest := by
    obtain ⟨b, u, hu⟩ := List.exists_cons_of_ne_nil (l := lineText skip rest) (by simpa using hne)
    rw [hu] at h1 ⊢
    cases hb : isNewline b with
    | false => exact dropNewline_of_not hb
    | true =>
      rw [List.takeWhile_cons, hb] at h1
      exact absurd h1.symm hl
  rw [hjoin, getNextLine, if_neg Bool.false_ne_true, hsame, if_neg hne, h1, h2]

end Cpcf.Rt.Lines

namespace Cpcf.Rt.StringRef

open Cpcf.Lib.Memory
open Cpcf.Rt.Lines (isNewline lines lineText yielded dropNewline)

/-! ### The calls -/

/-- `start` and `end` in `GetNextLine` before the line is read, when the place to go on from is `start`. -/
def lineStart (m : Mem) (tail : ℕ) (skip_empty_line : Bool) (start : ℕ) : ℕ × ℕ :=
  if skip_empty_line then
    let start := scanWhile m isNewline start (tail - start)
    (start, start + 1)
  else if start < tail ∧ isNewline (m start) then
    let start := start + 1
    let start := if start < tail ∧ m (start - 1) = 0x0d ∧ m start = 0x0a then start + 1 else start
    (start, start)
  else (start, start + 1)

/-- The place to go on from: the end of the line before, when it is in the text. -/
def place (r x : Ref) : ℕ := if r.p ≤ x.stop ∧ x.stop ≤ r.stop then x.stop else r.p

/-- `GetNextLine(x, skip_empty_line)`: the line that `x` becomes, or `none` when there is none. -/
def getNextLine (m : Mem) (r : Ref) (skip_empty_line : Bool) (x : Ref) : Option Ref :=
  let tail := r.stop
  let s := lineStart m tail skip_empty_line (place r x)
  if tail ≤ s.1 then none
  else some (Ref.ofEnds s.1 (scanWhile m (fun c => !isNewline c) s.2 (tail - s.2)))

/-- `while(GetNextLine(x, skip_empty_line))`: the lines one after the other, `none` when `n` calls are not enough. -/
def nextLines (m : Mem) (r : Ref) (skip_empty_line : Bool) : ℕ → Ref → Option (List Ref)
  | 0, _ => none
  | n + 1, x =>
    match getNextLine m r skip_empty_line x with
    | none => some []
    | some y => (nextLines m r skip_empty_line n y).map (y :: ·)

attribute [local simp] nextLines

section

variable {m : Mem} {r : Ref} {skip : Bool} {rest : List UInt8}

/-- The line is read from the start of the text it is taken from, or from behind its first byte, which does not end
it. -/
theorem lineStart_spec {s : ℕ} (h : Holds m s rest) (skip : Bool) :
    (lineStart m (s + rest.length) skip s).1 + (lineText skip rest).length = s + rest.length ∧
      ((lineStart m (s + rest.length) skip s).2 = (lineStart m (s + rest.length) skip s).1 ∨
        (lineStart m (s + rest.length) skip s).2 = (lineStart m (s + rest.length) skip s).1 + 1 ∧
          ∀ b ∈ (lineText skip rest).head?, isNewline b = false) := by
  unfold lineStart lineText
  cases skip with
  | true =>
    rw [if_pos rfl, if_pos rfl, Nat.add_sub_cancel_left, scanWhile_takeWhile h]
    refine ⟨?_, Or.inr ⟨rfl, fun b hb => ?_⟩⟩
    · simp only
      have := congrArg List.length (List.takeWhile_append_dropWhile (p := isNewline) (l := rest))
      rw [List.length_append] at this
      omega
    · have := List.head?_dropWhile_not isNewline rest
      rw [Option.mem_def.mp hb] at this
      simpa using this
  | false =>
    rw [if_neg Bool.false_ne_true, if_neg Bool.false_ne_true]
    rcases rest with _ | ⟨b, t⟩
    · simp [dropNewline]
    · obtain ⟨hb, ht⟩ := h
      cases hnl : isNewline b with
      | false =>
        rw [if_neg (by rw [hb, hnl]; simp), Cpcf.Rt.Lines.dropNewline_of_not hnl]
        refine ⟨rfl, Or.inr ⟨rfl, fun c hc => ?_⟩⟩
        obtain rfl := Option.some.inj hc
        exact hnl
      | true =>
        rw [if_pos ⟨by simp, by rw [hb]; exact hnl⟩]
        refine ⟨?_, Or.inl rfl⟩
        simp only [Nat.add_sub_cancel, hb, List.length_cons]
        rcases t with _ | ⟨c, t⟩
        · simp [dropNewline, hnl]
        · rw [ht.1, dropNewline]
          by_cases hcr : b = 0x0d ∧ c = 0x0a
          · rw [if_pos ⟨by simp, hcr⟩, if_pos (by simp [hcr.1, hcr.2]), List.length_cons]
            omega
          · rw [if_neg fun hand => hcr hand.2, if_neg (by simpa using hcr), if_pos hnl, List.length_cons]
            omega

/-- A call gives the next line of the text that is left, as a reference made of its ends. -/
theorem getNextLine_eq (skip : Bool) {x : Ref} (h : Holds m (place r x) rest)
    (hend : place r x + rest.length = r.stop) :
    getNextLine m r skip x = (Lines.getNextLine skip rest).map fun t =>
      Ref.ofEnds (r.stop - t.2.length - t.1.length) (r.stop - t.2.length - t.1.length + t.1.length) := by
  obtain ⟨hstart, hnext⟩ := lineStart_spec h skip
  obtain ⟨pre, hpre⟩ := Lines.lineText_suffix skip rest
  rw [hend] at hstart hnext
  have hhold : Holds m (lineStart m r.stop skip (place r x)).1 (lineText skip rest) := by
    have hsplit := h
    rw [hpre, holds_append] at hsplit
    have hlen := congrArg List.length hpre
    rw [List.length_append] at hlen
    have hplace : (lineStart m r.stop skip (place r x)).1 = place r x + pre.length := by omega
    rw [hplace]
    exact hsplit.2
  rw [Lines.getNextLine_lineText, getNextLine]
  generalize hs : lineStart m r.stop skip (place r x) = s at *
  rcases hu : lineText skip rest with _ | ⟨b, u⟩
  · rw [hu, List.length_nil] at hstart
    rw [if_pos (by omega)]
    rfl
  · rw [hu] at hstart hnext hhold
    rw [List.length_cons] at hstart
    have hscan : scanWhile m (fun c => !isNewline c) s.2 (r.stop - s.2) =
        s.1 + ((b :: u).takeWhile fun c => !isNewline c).length := by
      rcases hnext with heq | ⟨heq, hb⟩
      · rw [heq, ← scanWhile_takeWhile hhold]
        congr 1
        rw [List.length_cons]
        omega
      · have hlen : r.stop - s.2 = u.length := by omega
        rw [heq] at hlen ⊢
        rw [hlen, scanWhile_takeWhile hhold.2, List.takeWhile_cons, hb b rfl]
        simp only [Bool.not_false, if_true, List.length_cons]
        omega
    have hparts := congrArg List.length (List.takeWhile_append_dropWhile (p := fun c => !isNewline c) (l := b :: u))
    rw [List.length_append, List.length_cons] at hparts
    rw [if_neg (by omega), hscan, List.isEmpty_cons, if_neg Bool.false_ne_true, Option.map_some]
    simp only
    have hs1 : r.stop - ((b :: u).dropWhile fun c => !isNewline c).length -
        ((b :: u).takeWhile fun c => !isNewline c).length = s.1 := by omega
    rw [hs1]

/-! ### All calls -/

/-- The calls yield these lines one after the other, and then there is none. -/
def Yields (m : Mem) (r : Ref) (skip_empty_line : Bool) (x : Ref) (ls : List (List UInt8)) : Prop :=
  ∃ n out, nextLines m r skip_empty_line n x = some out ∧ out.map (fun y => y.text m) = ls

theorem nextLines_cons {n : ℕ} {x y : Ref} {out : List Ref} (hy : getNextLine m r skip x = some y)
    (h : nextLines m r skip (n + 1) x = some out) : ∃ out', nextLines m r skip n y = some out' ∧ out = y :: out' := by
  rw [nextLines, hy] at h
  obtain ⟨out', h1, h2⟩ := Option.map_eq_some_iff.mp h
  exact ⟨out', h1, h2.symm⟩

/-- A line that is yielded again and again. -/
theorem nextLines_stuck {y : Ref} (hy : getNextLine m r skip y = some y) (n : ℕ) : nextLines m r skip n y = none := by
  induction n with
  | zero => rfl
  | succ n ih => simp only [nextLines, hy, ih, Option.map_none]

/-- The place behind the lines that were yielded, and what is left there. -/
structure LeftAt (m : Mem) (r x : Ref) (rest : List UInt8) : Prop where
  holds : Holds m (place r x) rest
  stop : place r x + rest.length = r.stop

/-- What the next call does. -/
theorem LeftAt.next {x : Ref} {l rest' : List UInt8} (h : LeftAt m r x rest)
    (hl : Lines.getNextLine skip rest = some (l, rest')) :
    ∃ q, getNextLine m r skip x = some (Ref.ofEnds q (q + l.length)) ∧ Holds m q (l ++ rest') ∧
      q + (l ++ rest').length = r.stop ∧ r.p ≤ q := by
  obtain ⟨pre, hpre⟩ := Lines.lineText_suffix skip rest
  have hline : lineText skip rest = l ++ rest' := by
    rw [Lines.getNextLine_lineText, Option.ite_none_left_eq_some, Option.some.injEq, Prod.mk.injEq] at hl
    rw [← hl.2.1, ← hl.2.2]
    exact List.takeWhile_append_dropWhile.symm
  have heq := getNextLine_eq skip h.holds h.stop
  have hstop := h.stop
  have hholds := h.holds
  rw [hl] at heq
  rw [hline] at hpre
  rw [hpre, holds_append] at hholds
  rw [hpre, List.length_append, List.length_append] at hstop
  have hge : r.p ≤ place r x := by
    unfold place
    split
    · rename_i hx
      exact hx.1
    · exact le_rfl
  refine ⟨r.stop - rest'.length - l.length, heq, ?_, by rw [List.length_append]; omega, by omega⟩
  have hq : r.stop - rest'.length - l.length = place r x + pre.length := by omega
  rw [hq]
  exact hholds.2

/-- A line whose length goes through an `int` leaves what is behind it. -/
theorem LeftAt.after {l rest' : List UInt8} {q : ℕ} (hold : Holds m q (l ++ rest'))
    (hstop : q + (l ++ rest').length = r.stop) (hge : r.p ≤ q) (hlen : IntLength l.length) :
    LeftAt m r (Ref.ofEnds q (q + l.length)) rest' := by
  rw [List.length_append] at hstop
  have hplace : place r (Ref.ofEnds q (q + l.length)) = q + l.length := by
    have hend : (Ref.ofEnds q (q + l.length)).stop = q + l.length := by
      rw [Ref.stop, ofEnds_getLength q hlen, ofEnds_p]
    rw [place, hend, if_pos (by omega)]
  refine ⟨?_, ?_⟩
  · rw [hplace]
    exact (holds_append.mp hold).2
  · rw [hplace]
    omega

/-- Lines whose lengths go through an `int` are all yielded. -/
theorem LeftAt.yields {x : Ref} (h : LeftAt m r x rest) (hlen : ∀ l ∈ yielded skip rest, IntLength l.length) :
    Yields m r skip x (yielded skip rest) := by
  induction hn : rest.length using Nat.strong_induction_on generalizing x rest with
  | _ n ih =>
    cases hl : Lines.getNextLine skip rest with
    | none =>
      refine ⟨1, [], ?_, (Lines.yielded_of_none hl).symm⟩
      have heq := getNextLine_eq skip h.holds h.stop
      rw [hl] at heq
      rw [nextLines, heq]
      rfl
    | some t =>
      obtain ⟨l, rest'⟩ := t
      obtain ⟨q, hy, hhold, hstop, hge⟩ := h.next hl
      have hyield := Lines.yielded_of_some hl
      rw [hyield, List.forall_mem_cons] at hlen
      have hlt := Lines.getNextLine_lt hl
      obtain ⟨k, out, hout, htexts⟩ := ih rest'.length (by omega) (LeftAt.after hhold hstop hge hlen.1) hlen.2 rfl
      refine ⟨k + 1, Ref.ofEnds q (q + l.length) :: out, ?_, ?_⟩
      · rw [nextLines, hy]
        simp only
        rw [hout, Option.map_some]
      · rw [List.map_cons, htexts, hyield, Ref.text, ofEnds_getLength q hlen.1, ofEnds_p]
        rw [(holds_append.mp hhold).1.read_eq]

/-- When they are all yielded, their lengths go through an `int`. -/
theorem LeftAt.intLength {x : Ref} (h : LeftAt m r x rest) (hy : Yields m r skip x (yielded skip rest)) :
    ∀ l ∈ yielded skip rest, IntLength l.length := by
  obtain ⟨n, out, hout, htexts⟩ := hy
  induction n generalizing x rest out with
  | zero => cases hout
  | succ n ih =>
    cases hl : Lines.getNextLine skip rest with
    | none =>
      rw [Lines.yielded_of_none hl]
      simp
    | some t =>
      obtain ⟨l, rest'⟩ := t
      obtain ⟨q, hy, hhold, hstop, hge⟩ := h.next hl
      obtain ⟨out', hout', rfl⟩ := nextLines_cons hy hout
      rw [Lines.yielded_of_some hl, List.map_cons, List.cons.injEq] at htexts
      have hlen : IntLength l.length := (ofEnds_text_iff (holds_append.mp hhold).1).mp htexts.1
      rw [Lines.yielded_of_some hl, List.forall_mem_cons]
      exact ⟨hlen, ih (LeftAt.after hhold hstop hge hlen) out' hout' htexts.2⟩

/-- No line is yielded before the lines that are left. -/
theorem LeftAt.not_yields_nil_cons {x : Ref} (h : LeftAt m r x rest) :
    ¬ Yields m r false x ([] :: yielded false rest) := by
  rintro ⟨n, out, hout, htexts⟩
  induction n generalizing x rest out with
  | zero => cases hout
  | succ n ih =>
    cases hl : Lines.getNextLine false rest with
    | none =>
      have heq := getNextLine_eq false h.holds h.stop
      rw [hl] at heq
      rw [nextLines, heq] at hout
      obtain rfl := Option.some.inj hout
      cases htexts
    | some t =>
      obtain ⟨l, rest'⟩ := t
      obtain ⟨q, hy, hhold, hstop, hge⟩ := h.next hl
      obtain ⟨out', hout', rfl⟩ := nextLines_cons hy hout
      rw [Lines.yielded_of_some hl, List.map_cons, List.cons.injEq] at htexts
      by_cases hnil : l = []
      · rw [hnil] at htexts hhold hstop hy hout'
        exact ih (LeftAt.after hhold hstop hge (Or.inl (by decide))) out' hout' htexts.2
      · -- the line is read as an empty one, so the next call stands before it again
        have hzero : (Ref.ofEnds q (q + l.length)).getLength = 0 := by
          have := congrArg List.length htexts.1
          rwa [Ref.text, length_read] at this
        have hplace : place r (Ref.ofEnds q (q + l.length)) = q := by
          rw [place, Ref.stop, hzero, ofEnds_p, Nat.add_zero, if_pos (by omega)]
        have hagain : LeftAt m r (Ref.ofEnds q (q + l.length)) (l ++ rest') :=
          ⟨by rw [hplace]; exact hhold, by rw [hplace]; exact hstop⟩
        obtain ⟨q', hy', -, hstop', -⟩ := hagain.next (Lines.getNextLine_again hl hnil)
        obtain rfl : q' = q := by omega
        rw [nextLines_stuck hy' n] at hout'
        cases hout'

end

/-! ### The lines of a text -/

/-- Lines that do not start with the end of a line are not shifted. -/
theorem yielded_false_eq {t : List UInt8} (h : ∀ b ∈ t.head?, isNewline b = false) : yielded false t = lines t := by
  rw [yielded, if_neg Bool.false_ne_true]
  cases t with
  | nil => rfl
  | cons b t => rw [Lines.dropNewline_of_not (h b rfl)]

theorem leftAt_first (m : Mem) (r : Ref) : LeftAt m r ⟨0, 0⟩ (r.text m) := by
  have hlen : (r.text m).length = r.getLength := length_read _ _ _
  have hplace : place r ⟨0, 0⟩ = r.p := by
    unfold place
    split
    · rename_i hx
      have hstop : (Ref.mk 0 0).stop = 0 := rfl
      omega
    · rfl
  refine ⟨?_, ?_⟩
  · rw [hplace]
    exact holds_read _ _ _
  · rw [hplace, hlen]
    rfl

/-- Going through a text line by line gives its lines exactly when their lengths go through an `int` and, if empty
ones are not skipped, the first of them is not empty. -/
theorem nextLines_yields_iff (m : Mem) (r : Ref) :
    (Yields m r false ⟨0, 0⟩ (lines (r.text m)) ↔
      (∀ b ∈ (r.text m).head?, isNewline b = false) ∧ ∀ l ∈ lines (r.text m), IntLength l.length) ∧
    (Yields m r true ⟨0, 0⟩ ((lines (r.text m)).filter (· ≠ [])) ↔ ∀ l ∈ lines (r.text m), IntLength l.length) := by
  have hfirst := leftAt_first m r
  constructor
  · constructor
    · intro hy
      have hhead : ∀ b ∈ (r.text m).head?, isNewline b = false := by
        intro b hb
        cases hnl : isNewline b with
        | false => rfl
        | true =>
          obtain ⟨t, ht⟩ : ∃ t, r.text m = b :: t := ⟨_, (List.cons_head?_tail hb).symm⟩
          rw [ht] at hy hfirst
          rw [Lines.lines_cons_newline hnl] at hy
          exact absurd hy hfirst.not_yields_nil_cons
      rw [← yielded_false_eq hhead] at hy ⊢
      exact ⟨hhead, hfirst.intLength hy⟩
    · rintro ⟨hhead, hlen⟩
      rw [← yielded_false_eq hhead] at hlen ⊢
      exact hfirst.yields hlen
  · have hyielded : yielded true (r.text m) = (lines (r.text m)).filter (· ≠ []) := rfl
    rw [← hyielded]
    constructor
    · intro hy l hl
      by_cases hnil : l = []
      · rw [hnil]
        exact Or.inl (by decide)
      · exact hfirst.intLength hy l (List.mem_filter.mpr ⟨hl, by simpa using hnil⟩)
    · intro hlen
      exact hfirst.yields fun l hl => hlen l (List.mem_filter.mp hl).1

/-- The empty first line of a text is lost. -/
theorem nextLines_yields_fails :
    let m := ofBytes 1 [0x0a, 0x61]
    Yields m ⟨1, 3⟩ false ⟨0, 0⟩ [[0x61]] ∧ lines (Ref.text ⟨1, 3⟩ m) = [[], [0x61]] ∧
      ¬ Yields m ⟨1, 3⟩ false ⟨0, 0⟩ (lines (Ref.text ⟨1, 3⟩ m)) := by
  have hfirst := leftAt_first (ofBytes 1 [0x0a, 0x61]) ⟨1, 3⟩
  exact ⟨⟨2, [⟨2, 2⟩], by rfl, by rfl⟩, by rfl, hfirst.not_yields_nil_cons⟩

end Cpcf.Rt.StringRef
