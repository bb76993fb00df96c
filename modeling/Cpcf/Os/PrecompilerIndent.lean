import Cpcf.Os.PrecompilerUnbalanced

/-!
Blanks in front of the directives of a source, and when `os::Precompiler::_SubsituteFile` does not heed them.

The main loop takes the blanks away before it looks for a directive. The loop that skips cuts a line after its first
word first, so that it sees nothing in a line that starts with a blank. Two sources that differ in such blanks only
come to the same as long as that loop stops at the same lines.
-/

namespace Cpcf.Os.Precompiler

open Cpcf.Rt Cpcf.Rt.Lines

/-! ### Indented lines -/

/-- A line of two sources, with other blanks in front of its `#` if it has one. -/
structure IndentedLine where
  before : Text
  after : Text
  text : Text
  blanks : ∀ b ∈ before ++ after, b = 0x20 ∨ b = 0x09
  hash : before ≠ after → text.head? = some 0x23

namespace IndentedLine

variable (l : IndentedLine)

def source : Text := l.before ++ l.text

def result : Text := l.after ++ l.text

theorem trimLeftSpace_append {v : Text} (hv : ∀ b ∈ v, b = 0x20 ∨ b = 0x09) (t : Text) :
    trimLeftSpace (v ++ t) = trimLeftSpace t := by
  refine List.dropWhile_append_of_pos fun b hb => ?_
  rcases hv b hb with rfl | rfl <;> decide

theorem trimSpace_result : trimSpace l.result = trimSpace l.source := by
  have hb := fun b hb => l.blanks b (List.mem_append_left _ hb)
  have ha := fun b hb => l.blanks b (List.mem_append_right _ hb)
  rw [trimSpace, trimSpace, result, source, trimLeftSpace_append hb, trimLeftSpace_append ha]

theorem directive_result : directive l.result = directive l.source := by
  rw [directive, directive, trimSpace_result]

/-- A line that is empty is empty in both sources. -/
theorem isEmpty_result : l.result.isEmpty = l.source.isEmpty := by
  by_cases h : l.before = l.after
  · rw [result, source, h]
  · obtain ⟨b, t, ht⟩ : ∃ b t, l.text = b :: t :=
      List.exists_cons_of_ne_nil fun hnil => by simpa [hnil] using l.hash h
    have hcons : ∀ v : Text, (v ++ b :: t).isEmpty = false := fun v => by cases v <;> rfl
    rw [result, source, ht, hcons, hcons]

theorem result_of_isEmpty (h : l.source.isEmpty) : l.result = l.source := by
  rw [List.isEmpty_iff.mp h, List.isEmpty_iff.mp (l.isEmpty_result.trans h)]

end IndentedLine

/-! ### Two sources side by side -/

/-- A selected line with this text is written. -/
def isWritten (l : Text) : Bool :=
  directive l ≠ _define && !(directive l = _undefine && (split 3 (trimSpace l)).length = 2)

/-- The loop that skips stops at a line. -/
def stops (enclosure_level : ℕ) (l : Text) : Bool :=
  enclosure_level = 0 && isMacroBranchCloseDirective (skippedWord l)

/-- The level behind a line at which it does not stop. -/
def levelBehind (enclosure_level : ℕ) (l : Text) : ℕ :=
  if _if.isPrefixOf (skippedWord l) then enclosure_level + 1
  else if skippedWord l = _endif then enclosure_level - 1
  else enclosure_level

/-- Where the loops are: the main loop reads the lines, or the one that skips does, at these levels in the two sources,
after a branch that was selected or with one still to be selected. -/
inductive Course
  | selected
  | skipping (past : Bool) (level level' : ℕ)

/-- In the two sources the loops that skip stop at the same lines, and the lines that are written are the same. The
state is that of the first source, and `entered` tells that a branch was selected before. -/
def alike (calls : Calls) : Bool → Course → State → List IndentedLine → Bool
  | _, _, _, [] => true
  | entered, .selected, s, l :: ls =>
    if _if.isPrefixOf (directive l.source) then
      (branchCondition calls s (trimSpace l.source)).all fun (s', b) =>
        alike calls (entered || b) (if b then .selected else .skipping false 0 0) s' ls
    else if isMacroBranchCloseDirective (directive l.source) then
      if directive l.source = _endif then
        alike calls entered .selected (if entered then s else s.printError (.notMatched _endif)) ls
      else alike calls entered (.skipping true 0 0) s ls
    else
      (l.result = l.source || !isWritten l.source) &&
        (selectedLine calls s l.source).all fun s' => alike calls entered .selected s' ls
  | entered, .skipping past level level', s, l :: ls =>
    if stops level l.source then
      stops level' l.result &&
        if directive l.source = _endif then
          alike calls entered .selected (if past && !entered then s.printError (.notMatched _endif) else s) ls
        else if past then alike calls entered (.skipping true 0 0) s ls
        else
          (branchCondition calls s (trimSpace l.source)).all fun (s', b) =>
            alike calls (entered || b) (if b then .selected else .skipping false 0 0) s' ls
    else
      !stops level' l.result &&
        alike calls entered (.skipping past (levelBehind level l.source) (levelBehind level' l.result)) s ls

/-! ### The loops stop at the same lines -/

variable {calls : Calls} {s : State} {l : IndentedLine} {ls : List IndentedLine} {k : ℕ} {entered past : Bool}

theorem seekLines_stops (j : ℕ) (l : Text) (ls : List Text) :
    seekLines j (l :: ls) = if stops j l then some (l, ls) else seekLines (levelBehind j l) ls := by
  rw [seekLines, stops, levelBehind]
  by_cases hhead : (skippedWord l).head? = some 0x23
  · rw [if_pos hhead]
    split_ifs <;> rfl
  · have hif : ¬_if.isPrefixOf (skippedWord l) = true := fun h => hhead (openWord h).1
    have hcl : isMacroBranchCloseDirective (skippedWord l) = false :=
      Bool.eq_false_iff.mpr fun h => hhead (closeWord h).1
    have hend : skippedWord l ≠ _endif := fun h => hhead (h ▸ by decide)
    simp [hhead, hif, hcl, hend]

/-- How the second source goes on behind a condition. -/
def alikeBehind (calls : Calls) (entered : Bool) (s : State) (control_line : Text) (ls : List IndentedLine) : Bool :=
  (branchCondition calls s control_line).all fun (s', b) =>
    alike calls (entered || b) (if b then .selected else .skipping false 0 0) s' ls

/-- How it goes on behind a line that a loop that skips has stopped at. -/
def alikeStopped (calls : Calls) (entered past : Bool) (s : State) (l : IndentedLine) (ls : List IndentedLine) : Bool :=
  if directive l.source = _endif then
    alike calls entered .selected (if past && !entered then s.printError (.notMatched _endif) else s) ls
  else if past then alike calls entered (.skipping true 0 0) s ls
  else alikeBehind calls entered s (trimSpace l.source) ls

/-- The loop that skips has stopped at the same line of both sources, or at none. -/
inductive Stopped (calls : Calls) (entered past : Bool) (s : State) (ls : List IndentedLine) :
    Option (Text × List Text) → Option (Text × List Text) → Prop
  | none : Stopped calls entered past s ls none none
  | some {l ls'} : l :: ls' <:+ ls → alikeStopped calls entered past s l ls' = true →
      Stopped calls entered past s ls (some (l.source, ls'.map IndentedLine.source))
        (some (l.result, ls'.map IndentedLine.result))

theorem alike_seek : ∀ {ls : List IndentedLine} {j j' : ℕ}, alike calls entered (.skipping past j j') s ls = true →
    Stopped calls entered past s ls (seekLines j (ls.map IndentedLine.source)) (seekLines j' (ls.map IndentedLine.result))
  | [], _, _, _ => .none
  | l :: ls, j, j', h => by
    rw [alike] at h
    rw [List.map_cons, List.map_cons, seekLines_stops, seekLines_stops]
    split at h
    · rename_i hstop
      rw [Bool.and_eq_true] at h
      rw [if_pos hstop, if_pos h.1]
      exact .some List.suffix_rfl h.2
    · rename_i hstop
      rw [Bool.and_eq_true, Bool.not_eq_true'] at h
      rw [if_neg hstop, if_neg (Bool.eq_false_iff.mp h.1)]
      have hseek := alike_seek h.2
      generalize seekLines (levelBehind j l.source) _ = x at hseek ⊢
      generalize seekLines (levelBehind j' l.result) _ = y at hseek ⊢
      rcases hseek with _ | ⟨hsuf, halike⟩
      · exact .none
      · exact .some (hsuf.trans (List.suffix_cons l ls)) halike

theorem trailing_result : ∀ ls : List IndentedLine,
    trailing (ls.map IndentedLine.result) = trailing (ls.map IndentedLine.source)
  | [] => rfl
  | l :: ls => by
    have hall : ∀ ls : List IndentedLine,
        (ls.map IndentedLine.result).all List.isEmpty = (ls.map IndentedLine.source).all List.isEmpty := by
      intro ls
      simp only [List.all_map, Function.comp_def, IndentedLine.isEmpty_result]
    have hcons := hall (l :: ls)
    rw [List.map_cons, List.map_cons] at hcons ⊢
    rw [trailing, trailing, hcons]
    split
    · rename_i hempty
      rw [← List.map_cons, ← List.map_cons]
      refine List.map_congr_left fun l' hl' => l'.result_of_isEmpty ?_
      rw [← List.map_cons, List.all_map, List.all_eq_true] at hempty
      exact hempty l' hl'
    · exact trailing_result ls

/-! ### The loops come to the same -/

/-- The main loop comes to the same in both sources. -/
def Same (calls : Calls) (ls : List IndentedLine) : Prop :=
  ∀ k s, alike calls (0 < k) .selected s ls = true →
    loopLines calls k s (ls.map IndentedLine.result) = loopLines calls k s (ls.map IndentedLine.source)

theorem iterate_same {n : ℕ} (hsame : ∀ ls : List IndentedLine, ls.length ≤ n → Same calls ls) :
    ∀ {ls : List IndentedLine} {s : State} {t : Text}, ls.length ≤ n → alikeBehind calls (0 < k) s t ls = true →
      (iterateLines calls s t (ls.map IndentedLine.result)).bind (afterLines calls k) =
        (iterateLines calls s t (ls.map IndentedLine.source)).bind (afterLines calls k) := by
  intro ls s t hn h
  induction hm : ls.length using Nat.strong_induction_on generalizing ls s t with
  | _ m ih =>
    rw [iterateLines_eq, iterateLines_eq, Option.bind_assoc, Option.bind_assoc]
    refine Option.bind_congr fun x hx => ?_
    obtain ⟨s', b⟩ := x
    have h' := Option.all_eq_true _ _ |>.mp h _ hx
    cases b with
    | true =>
      simp only [Bool.or_true] at h'
      exact hsame ls hn (k + 1) s' (by simpa using h')
    | false =>
      simp only [Bool.or_false, Bool.false_eq_true, if_false] at h'
      have hseek := alike_seek h'
      rw [branchLines, branchLines, trailing_result]
      generalize seekLines 0 (ls.map IndentedLine.source) = x at hseek ⊢
      generalize seekLines 0 (ls.map IndentedLine.result) = y at hseek ⊢
      rcases hseek with _ | @⟨l, ls', hsuf, halike⟩
      · rfl
      · have hlt : ls'.length < ls.length := hsuf.length_le
        simp only [Option.elim_some]
        rw [← directive, ← directive, l.directive_result, l.trimSpace_result]
        rw [alikeStopped] at halike
        by_cases hend : directive l.source = _endif
        · rw [if_pos hend] at halike
          rw [if_pos hend, if_pos hend]
          exact hsame ls' (hlt.le.trans hn) k s' halike
        · simp only [if_neg hend, Bool.false_eq_true, if_false] at halike
          rw [if_neg hend, if_neg hend]
          exact ih _ (hm ▸ hlt) (hlt.le.trans hn) halike rfl

/-- The loop over the branches that are left comes to the same end of the group. -/
theorem skip_same : ∀ {ls : List IndentedLine} (f : Text), f ≠ _endif →
    alike calls entered (.skipping true 0 0) s ls = true →
    skipLines s f (ls.map IndentedLine.result) = skipLines s f (ls.map IndentedLine.source) ∨
    ∃ ls' : List IndentedLine, ls'.length ≤ ls.length ∧
      skipLines s f (ls.map IndentedLine.result) = (s, _endif, ls'.map IndentedLine.result) ∧
      skipLines s f (ls.map IndentedLine.source) = (s, _endif, ls'.map IndentedLine.source) ∧
      alike calls entered .selected (if entered then s else s.printError (.notMatched _endif)) ls' = true := by
  intro ls f hf h
  induction hm : ls.length using Nat.strong_induction_on generalizing ls f with
  | _ m ih =>
    have hseek := alike_seek h
    generalize hx : seekLines 0 (ls.map IndentedLine.source) = x at hseek
    generalize hy : seekLines 0 (ls.map IndentedLine.result) = y at hseek
    rcases hseek with _ | @⟨l, ls', hsuf, halike⟩
    · rw [skipLines_missed hf hx, skipLines_missed hf hy, trailing_result]
      exact .inl rfl
    · have hlt : ls'.length < ls.length := hsuf.length_le
      rw [skipLines_found hf hx, skipLines_found hf hy, ← directive, ← directive, l.directive_result]
      rw [alikeStopped] at halike
      by_cases hend : directive l.source = _endif
      · rw [if_pos hend] at halike
        rw [hend, skipLines_endif, skipLines_endif]
        refine .inr ⟨ls', hm ▸ hlt.le, rfl, rfl, ?_⟩
        cases entered <;> exact halike
      · rw [if_neg hend, if_pos rfl] at halike
        rcases ih _ (hm ▸ hlt) (directive l.source) hend halike rfl with h | ⟨ls'', hle, h⟩
        · exact .inl h
        · exact .inr ⟨ls'', hle.trans (hm ▸ hlt.le), h⟩

theorem selectedLine_result (h : (l.result = l.source || !isWritten l.source) = true) :
    selectedLine calls s l.result = selectedLine calls s l.source := by
  rw [Bool.or_eq_true, decide_eq_true_eq] at h
  rcases h with h | h
  · rw [h]
  · rw [selectedLine, selectedLine, l.trimSpace_result]
    split
    · rfl
    split
    · rfl
    · rename_i hdef hundef
      simp only [isWritten, directive, ne_eq, hdef, not_false_eq_true, decide_true, Bool.true_and, Bool.not_not,
        Bool.and_eq_true, decide_eq_true_eq] at h
      exact absurd ⟨of_decide_eq_true h.1, h.2⟩ hundef

theorem close_same (hsame : Same calls ls)
    (h : alike calls (0 < k) .selected (if 0 < k then s else s.printError (.notMatched _endif)) ls = true) :
    closeLines calls k (s, _endif, ls.map IndentedLine.result) =
      closeLines calls k (s, _endif, ls.map IndentedLine.source) := by
  rw [closeLines, closeLines]
  by_cases hk : 0 < k
  · rw [if_pos hk, if_pos hk]
    exact hsame (k + 1) s (by simpa [hk] using h)
  · rw [if_neg hk, if_neg hk]
    exact hsame k _ (by simpa [hk] using h)

theorem same_lines : ∀ (n : ℕ) (ls : List IndentedLine), ls.length ≤ n → Same calls ls := by
  intro n
  induction n with
  | zero =>
    intro ls hn k s _
    obtain rfl := List.length_eq_zero_iff.mp (Nat.le_zero.mp hn)
    rfl
  | succ n ih =>
    intro ls hn k s h
    rcases ls with _ | ⟨l, ls⟩
    · rfl
    have hn' : ls.length ≤ n := Nat.le_of_succ_le_succ hn
    rw [alike] at h
    rw [List.map_cons, List.map_cons]
    by_cases hif : _if.isPrefixOf (directive l.source) = true
    · have hif' : _if.isPrefixOf (directive l.result) = true := l.directive_result ▸ hif
      rw [if_pos hif] at h
      rw [loopLines_open calls hif, loopLines_open calls hif', l.trimSpace_result]
      exact iterate_same ih hn' h
    by_cases hcl : isMacroBranchCloseDirective (directive l.source) = true
    · have hcl' : isMacroBranchCloseDirective (directive l.result) = true := l.directive_result ▸ hcl
      rw [if_neg hif, if_pos hcl] at h
      rw [loopLines_close calls hcl, loopLines_close calls hcl', ← directive, ← directive, l.directive_result]
      by_cases hend : directive l.source = _endif
      · rw [if_pos hend] at h
        rw [hend, skipLines_endif, skipLines_endif]
        exact close_same (ih ls hn') (by simpa using h)
      · rw [if_neg hend] at h
        rcases skip_same (directive l.source) hend h with heq | ⟨ls', hle, hres, hsrc, halike⟩
        · rw [heq]
        · rw [hres, hsrc]
          exact close_same (ih ls' (hle.trans hn')) (by simpa using halike)
    · have hif' : _if.isPrefixOf (directive l.result) = false := l.directive_result ▸ Bool.eq_false_iff.mpr hif
      have hcl' : isMacroBranchCloseDirective (directive l.result) = false :=
        l.directive_result ▸ Bool.eq_false_iff.mpr hcl
      rw [if_neg hif, if_neg hcl, Bool.and_eq_true] at h
      rw [loopLines_line calls hif' hcl', loopLines_line calls (Bool.eq_false_iff.mpr hif) (Bool.eq_false_iff.mpr hcl),
        selectedLine_result h.1]
      exact Option.bind_congr fun s' hs' => ih ls hn' k s' ((Option.all_eq_true _ _).mp h.2 s' hs')

section Fixed

/-- A line of a source, and the blanks that are put in front of it. -/
def indent (after text : Text) (hafter : ∀ b ∈ after, b = 0x20 ∨ b = 0x09) (hhash : [] ≠ after → text.head? = some 0x23) :
    IndentedLine := ⟨[], after, text, hafter, hhash⟩

/-- A whole group inside a branch that is skipped, and lines that the main loop reads. -/
def indentedLines : List IndentedLine :=
  [indent [0x09] (bytes "#ifdef A") (by simp) (by decide),
    indent [0x20, 0x20] (bytes "#ifdef B") (by simp) (by decide),
    indent [0x20] (bytes "#else") (by simp) (by decide),
    indent [0x20, 0x20] (bytes "#endif") (by simp) (by decide),
    indent [] (bytes "x") (by simp) (by decide),
    indent [] (bytes "#elif 0") (by simp) (by decide),
    indent [] (bytes "#else") (by simp) (by decide),
    indent [0x20] (bytes "#define C") (by simp) (by decide),
    indent [0x09] (bytes "#endif") (by simp) (by decide),
    indent [] (bytes "y") (by simp) (by decide)]

def unindented : Text := bytes "#ifdef A\n#ifdef B\n#else\n#endif\nx\n#elif 0\n#else\n#define C\n#endif\ny\n"

def indented : Text := bytes "\t#ifdef A\n  #ifdef B\n #else\n  #endif\nx\n#elif 0\n#else\n #define C\n\t#endif\ny\n"

/-- A blank in front of the end of a branch that is skipped. -/
def hiddenLines : List IndentedLine :=
  [indent [] (bytes "#ifdef A") (by simp) (by decide),
    indent [] (bytes "x") (by simp) (by decide),
    indent [0x20] (bytes "#endif") (by simp) (by decide),
    indent [] (bytes "y") (by simp) (by decide)]

end Fixed

end Cpcf.Os.Precompiler
