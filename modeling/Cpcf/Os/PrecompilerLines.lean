import Cpcf.Os.PrecompilerNesting

/-!
The loops of `os::Precompiler::_SubsituteFile` over a list of lines, in place of a text and a place in it.

The loops of the code come to the same end for every text and every functions that are left open. One that skips and
does not find what it looks for has gone up to the empty lines at the end of the text, which are left to the main loop.
-/

namespace Cpcf.Os.Precompiler

open Cpcf.Rt Cpcf.Rt.Lines

/-! ### The loops -/

/-- The directive that `_SeekToNextCloseDirective` sees in a line. -/
def skippedWord (l : Text) : Text := trimSpace (trimAfter l)

/-- `_SeekToNextCloseDirective`: the line it stops at, and the lines behind it. -/
def seekLines : ℕ → List Text → Option (Text × List Text)
  | _, [] => none
  | j, l :: ls =>
    if (skippedWord l).head? = some 0x23 then
      if j = 0 && isMacroBranchCloseDirective (skippedWord l) then some (l, ls)
      else if _if.isPrefixOf (skippedWord l) then seekLines (j + 1) ls
      else if skippedWord l = _endif then seekLines (j - 1) ls
      else seekLines j ls
    else seekLines j ls

/-- The empty lines at the end. -/
def trailing : List Text → List Text
  | [] => []
  | l :: ls => if (l :: ls).all List.isEmpty then l :: ls else trailing ls

theorem seekLines_suffix : ∀ {ls : List Text} {j : ℕ} {x : Text × List Text}, seekLines j ls = some x →
    x.1 :: x.2 <:+ ls
  | [], _, _, h => by cases h
  | l :: ls, j, x, h => by
    have hrec := fun {j} (h : seekLines j ls = some x) => (seekLines_suffix h).trans (List.suffix_cons l ls)
    rw [seekLines] at h
    split_ifs at h
    · cases h
      exact List.suffix_rfl
    all_goals exact hrec h

theorem length_seekLines {ls : List Text} {j : ℕ} {x : Text × List Text} (h : seekLines j ls = some x) :
    x.2.length < ls.length := (seekLines_suffix h).length_le

theorem trailing_suffix : ∀ ls : List Text, trailing ls <:+ ls
  | [] => List.suffix_rfl
  | l :: ls => by
    rw [trailing]
    split
    · exact List.suffix_rfl
    · exact (trailing_suffix ls).trans (List.suffix_cons l ls)

/-- A line with a condition: the state behind it, and whether the condition holds. -/
def branchCondition (calls : Calls) (s : State) (control_line : Text) : Option (State × Bool) :=
  (evalueMacroIf calls s (word control_line) (argument control_line)).map fun (s, go_if) =>
    (if go_if.isNone then s.printError (.illegalDirective control_line) else s, go_if.getD false)

/-- The loop over the branches of a group, from the directive in `control_line` on. -/
def iterateLines (calls : Calls) (s : State) (control_line : Text) (ls : List Text) :
    Option (State × Bool × List Text) :=
  (branchCondition calls s control_line).bind fun (s, b) =>
    if b then some (s, true, ls)
    else
      match h : seekLines 0 ls with
      | none => some (s.printError (.noMatchingEndifFor (word control_line)), false, trailing ls)
      | some (l, ls') =>
        have : ls'.length < ls.length := length_seekLines h
        if word (trimSpace l) = _endif then some (s, false, ls') else iterateLines calls s (trimSpace l) ls'
termination_by ls.length

/-- The loop over the branches that are left when one has ended. -/
def skipLines (s : State) (f : Text) (ls : List Text) : State × Text × List Text :=
  if f = _endif then (s, f, ls)
  else
    match h : seekLines 0 ls with
    | none => (s.printError .noMatchingEndif, f, trailing ls)
    | some (l, ls') =>
      have : ls'.length < ls.length := length_seekLines h
      skipLines s (word (trimSpace l)) ls'
termination_by ls.length

/-- The loop over the branches behind a condition. -/
def branchLines (calls : Calls) (control_line : Text) (ls : List Text) : State × Bool → Option (State × Bool × List Text)
  | (s, true) => some (s, true, ls)
  | (s, false) =>
    (seekLines 0 ls).elim (some (s.printError (.noMatchingEndifFor (word control_line)), false, trailing ls))
      fun (l, ls) =>
        if word (trimSpace l) = _endif then some (s, false, ls) else iterateLines calls s (trimSpace l) ls

theorem iterateLines_eq (calls : Calls) (s : State) (control_line : Text) (ls : List Text) :
    iterateLines calls s control_line ls =
      (branchCondition calls s control_line).bind (branchLines calls control_line ls) := by
  rw [iterateLines]
  congr 1
  funext ⟨s, b⟩
  cases b with
  | true => rfl
  | false =>
    simp only [Bool.false_eq_true, if_false, branchLines]
    split
    · rename_i hseek
      rw [hseek]
      rfl
    · rename_i hseek
      rw [hseek]
      rfl

theorem skipLines_endif (s : State) (ls : List Text) : skipLines s _endif ls = (s, _endif, ls) := by
  rw [skipLines, if_pos rfl]

theorem skipLines_found {s : State} {f l : Text} {ls ls' : List Text} (hf : f ≠ _endif)
    (h : seekLines 0 ls = some (l, ls')) : skipLines s f ls = skipLines s (word (trimSpace l)) ls' := by
  rw [skipLines, if_neg hf]
  split
  · simp_all
  · simp_all

theorem skipLines_missed {s : State} {f : Text} {ls : List Text} (hf : f ≠ _endif) (h : seekLines 0 ls = none) :
    skipLines s f ls = (s.printError .noMatchingEndif, f, trailing ls) := by
  rw [skipLines, if_neg hf]
  split
  · rfl
  · simp_all

theorem length_iterateLines {calls : Calls} : ∀ {s : State} {control_line : Text} {ls : List Text}
    {x : State × Bool × List Text}, iterateLines calls s control_line ls = some x → x.2.2.length ≤ ls.length := by
  intro s control_line ls
  induction hn : ls.length using Nat.strong_induction_on generalizing s control_line ls with
  | _ n ih =>
    intro x h
    rw [iterateLines] at h
    obtain ⟨⟨s', b⟩, -, h⟩ := Option.bind_eq_some_iff.mp h
    simp only at h
    split at h
    · cases h
      exact hn.le
    split at h
    · cases h
      exact hn ▸ (trailing_suffix ls).length_le
    · rename_i l ls' hseek
      have hlt := length_seekLines hseek
      split at h
      · cases h
        exact (hn ▸ hlt).le
      · exact (ih _ (hn ▸ hlt) rfl h).trans (hn ▸ hlt).le

theorem skipLines_suffix (s : State) (f : Text) (ls : List Text) : (skipLines s f ls).2.2 <:+ ls := by
  induction hn : ls.length using Nat.strong_induction_on generalizing f ls with
  | _ n ih =>
    by_cases hf : f = _endif
    · rw [hf, skipLines_endif]
    · cases hseek : seekLines 0 ls with
      | none =>
        rw [skipLines_missed hf hseek]
        exact trailing_suffix ls
      | some x =>
        rw [skipLines_found hf hseek]
        have hlt := length_seekLines hseek
        exact (ih _ (hn ▸ hlt) _ _ rfl).trans ((List.suffix_cons x.1 x.2).trans (seekLines_suffix hseek))

theorem length_skipLines (s : State) (f : Text) (ls : List Text) : (skipLines s f ls).2.2.length ≤ ls.length :=
  (skipLines_suffix s f ls).length_le

/-- The main loop. -/
def loopLines (calls : Calls) (branch_level : ℕ) (s : State) : List Text → Option State
  | [] => some s
  | l :: ls =>
    if _if.isPrefixOf (word (trimSpace l)) then
      match h : iterateLines calls s (trimSpace l) ls with
      | none => none
      | some (s', entered, ls') => loopLines calls (if entered then branch_level + 1 else branch_level) s' ls'
    else if isMacroBranchCloseDirective (word (trimSpace l)) then
      have hlen := Nat.lt_succ_of_le (length_skipLines s (word (trimSpace l)) ls)
      if 0 < branch_level then
        loopLines calls (branch_level + 1) (skipLines s (word (trimSpace l)) ls).1
          (skipLines s (word (trimSpace l)) ls).2.2
      else
        loopLines calls branch_level
          ((skipLines s (word (trimSpace l)) ls).1.printError (.notMatched (skipLines s (word (trimSpace l)) ls).2.1))
          (skipLines s (word (trimSpace l)) ls).2.2
    else (selectedLine calls s l).bind fun s => loopLines calls branch_level s ls
termination_by ls => ls.length
decreasing_by
  · exact Nat.lt_succ_of_le (length_iterateLines h)
  · exact hlen
  · exact hlen
  · exact Nat.lt_succ_self _

section Loop

variable {l : Text} {ls : List Text} {k : ℕ} {s : State}

theorem loopLines_open (calls : Calls) (h : _if.isPrefixOf (word (trimSpace l)) = true) :
    loopLines calls k s (l :: ls) = (iterateLines calls s (trimSpace l) ls).bind fun (s, entered, ls) =>
      loopLines calls (if entered then k + 1 else k) s ls := by
  rw [loopLines, if_pos h]
  split
  · rename_i hit
    rw [hit]
    rfl
  · rename_i hit
    rw [hit]
    rfl

/-- How the main loop goes on at the end of a branch. -/
def closeLines (calls : Calls) (branch_level : ℕ) : State × Text × List Text → Option State
  | (s, f, ls) =>
    if 0 < branch_level then loopLines calls (branch_level + 1) s ls
    else loopLines calls branch_level (s.printError (.notMatched f)) ls

theorem loopLines_close (calls : Calls) (h : isMacroBranchCloseDirective (word (trimSpace l)) = true) :
    loopLines calls k s (l :: ls) = closeLines calls k (skipLines s (word (trimSpace l)) ls) := by
  have hif : _if.isPrefixOf (word (trimSpace l)) = false := by
    simp only [isMacroBranchCloseDirective, Bool.or_eq_true, decide_eq_true_eq] at h
    rcases h with (h | h) | h <;> rw [h] <;> decide
  rw [loopLines, if_neg (by rw [hif]; exact Bool.false_ne_true), if_pos h]
  rfl

theorem loopLines_line (calls : Calls) (hif : _if.isPrefixOf (word (trimSpace l)) = false)
    (hclose : isMacroBranchCloseDirective (word (trimSpace l)) = false) :
    loopLines calls k s (l :: ls) = (selectedLine calls s l).bind fun s => loopLines calls k s ls := by
  rw [loopLines, hif, hclose]
  rfl

end Loop

/-! ### The loops over a text -/

variable {calls : Calls} {s : State} {rest l : Text} {ls : List Text} {n k : ℕ}

theorem trailing_empty (h : ls.all List.isEmpty) : trailing ls = ls := by
  cases ls with
  | nil => rfl
  | cons l ls => rw [trailing, if_pos h]

theorem seekLines_empty (j : ℕ) : ∀ {ls : List Text}, ls.all List.isEmpty → seekLines j ls = none
  | [], _ => rfl
  | l :: ls, h => by
    simp only [List.all_cons, Bool.and_eq_true, List.isEmpty_iff] at h
    obtain ⟨rfl, h⟩ := h
    exact (if_neg (by decide)).trans (seekLines_empty j h)

/-- The empty lines at the end of a text are skipped together. -/
theorem getNextLine_skip_none : ∀ {ls : List Text} {rest : Text}, At rest ls →
    (getNextLine true rest = none ↔ ls.all List.isEmpty)
  | [], _, h => by simp [getNextLine_nil h]
  | l :: ls, rest, h => by
    by_cases hl : l = []
    · subst hl
      obtain ⟨rest', hnext, hat, -⟩ := getNextLine_empty h
      rw [hnext, getNextLine_skip_none hat]
      simp
    · obtain ⟨rest', hnext, -⟩ := getNextLine_skip h hl
      simp [hnext, hl]

/-- What is found in a text is what is found in its lines. -/
inductive Sought (rest : Text) (ls : List Text) : Option (Text × List Text) → Option Text × Text → Prop
  | found {l rest' ls'} : At rest' ls' → rest'.length < rest.length → Sought rest ls (some (l, ls')) (some l, rest')
  | missed {rest'} : At rest' (trailing ls) → rest'.length ≤ rest.length → Sought rest ls none (none, rest')

theorem Sought.cons {rest rest' : Text} {r : Option (Text × List Text)} {x : Option Text × Text}
    (hl : ¬(l :: ls).all List.isEmpty) (hlt : rest'.length < rest.length) (h : Sought rest' ls r x) : Sought rest (l :: ls) r x := by
  rcases h with ⟨hat, hlen⟩ | ⟨hat, hlen⟩
  · exact .found hat (hlen.trans hlt)
  · refine .missed ?_ (hlen.trans hlt.le)
    rwa [trailing, if_neg hl]

theorem seek_sought : ∀ {ls : List Text} {j n : ℕ} {rest : Text}, At rest ls → rest.length ≤ n →
    Sought rest ls (seekLines j ls) (seekToNextCloseDirective n j rest)
  | [], j, n, rest, h, hn => by
    have hseek : seekToNextCloseDirective n j rest = (none, rest) := by
      cases n with
      | zero => rfl
      | succ n => rw [seekToNextCloseDirective, getNextLine_nil h]
    rw [hseek]
    exact .missed h le_rfl
  | l :: ls, j, n, rest, h, hn => by
    by_cases hl : l = []
    · subst hl
      obtain ⟨rest', hnext, hat, hlt⟩ := getNextLine_empty h
      obtain ⟨n, rfl⟩ : ∃ m, n = m + 1 := ⟨n - 1, by omega⟩
      by_cases hall : ls.all List.isEmpty
      · -- nothing but empty lines is left, and they stay
        have hnone : getNextLine true rest' = none := (getNextLine_skip_none hat).mpr hall
        rw [seekLines_empty j (by simpa using hall), seekToNextCloseDirective, hnext, hnone]
        refine .missed ?_ le_rfl
        rwa [trailing_empty (by simpa using hall)]
      · obtain ⟨x, hx⟩ := Option.ne_none_iff_exists'.mp (mt (getNextLine_skip_none hat).mp hall)
        have hskip : seekLines j ([] :: ls) = seekLines j ls := if_neg (by decide)
        have hseek : seekToNextCloseDirective (n + 1) j rest = seekToNextCloseDirective (n + 1) j rest' := by
          rw [seekToNextCloseDirective, seekToNextCloseDirective, hnext, hx]
        rw [hskip, hseek]
        exact (seek_sought hat (by omega)).cons (by simpa using hall) hlt
    · obtain ⟨m, rest', hat, hm, hlt, hseek⟩ := seek_cons h hl hn
      rw [hseek, seekLines]
      rw [← show skippedWord l = trimSpace (trimAfter l) from rfl]
      have hnot : ¬(l :: ls).all List.isEmpty := by simp [hl]
      split_ifs
      · exact .found hat hlt
      all_goals exact (seek_sought hat hm).cons hnot hlt

/-! The loops over the branches. -/

theorem branchCondition_eq (control_line : Text) : iterateBranches calls (n + 1) s control_line rest =
    (branchCondition calls s control_line).bind fun (s, b) =>
      if b then some (s, true, rest) else nextBranch calls n s control_line rest := by
  rw [iterateBranches_succ, branchCondition]
  rcases evalueMacroIf calls s (word control_line) (argument control_line) with _ | ⟨s, _ | _ | _⟩ <;> rfl

/-- The loop over the branches is at the same place in the text and in its lines. -/
structure Halted (len : ℕ) (x : State × Bool × Text) (y : State × Bool × List Text) : Prop where
  state : x.1 = y.1
  entered : x.2.1 = y.2.1
  at_ : At x.2.2 y.2.2
  length : x.2.2.length ≤ len

theorem Halted.mono {len len' : ℕ} (h : len ≤ len') {x : Option (State × Bool × Text)}
    {y : Option (State × Bool × List Text)} (hxy : Option.Rel (Halted len) x y) : Option.Rel (Halted len') x y := by
  cases hxy with
  | none => exact .none
  | some hxy => exact .some { hxy with length := hxy.length.trans h }

theorem iterateBranches_lines (calls : Calls) : ∀ (n : ℕ) (s : State) (control_line : Text) {rest : Text}
    {ls : List Text}, At rest ls → rest.length < n → Option.Rel (Halted rest.length) (iterateBranches calls n s control_line rest)
      (iterateLines calls s control_line ls)
  | 0, _, _, _, _, _, hn => absurd hn (Nat.not_lt_zero _)
  | n + 1, s, control_line, rest, ls, h, hn => by
    rw [branchCondition_eq, iterateLines]
    rcases branchCondition calls s control_line with _ | ⟨s', _ | _⟩
    · exact .none
    · simp only [Option.bind_some, Bool.false_eq_true, if_false]
      have hseek := seek_sought (j := 0) h (le_refl rest.length)
      rw [nextBranch]
      generalize seekToNextCloseDirective rest.length 0 rest = x at hseek
      generalize seekLines 0 ls = r at hseek
      rcases hseek with ⟨hat, hlen⟩ | ⟨hat, hlen⟩
      · simp only
        split
        · exact .some ⟨rfl, rfl, hat, hlen.le⟩
        · exact Halted.mono hlen.le (iterateBranches_lines calls n _ _ hat (by omega))
      · exact .some ⟨rfl, rfl, hat, hlen⟩
    · exact .some ⟨rfl, rfl, h, le_rfl⟩

theorem skipBranches_lines : ∀ (n : ℕ) {s : State} {f rest : Text} {ls : List Text}, At rest ls → rest.length < n →
    (skipBranches n s f rest).1 = (skipLines s f ls).1 ∧ (skipBranches n s f rest).2.1 = (skipLines s f ls).2.1 ∧
      At (skipBranches n s f rest).2.2 (skipLines s f ls).2.2 ∧
      (skipBranches n s f rest).2.2.length ≤ rest.length
  | 0, _, _, _, _, _, hn => absurd hn (Nat.not_lt_zero _)
  | n + 1, s, f, rest, ls, h, hn => by
    rw [skipBranches]
    split
    · rename_i hf
      rw [hf, skipLines_endif]
      exact ⟨rfl, rfl, h, le_rfl⟩
    · rename_i hf
      have hseek := seek_sought (j := 0) h (le_refl rest.length)
      generalize seekToNextCloseDirective rest.length 0 rest = x at hseek
      generalize hr : seekLines 0 ls = r at hseek
      rcases hseek with ⟨hat, hlen⟩ | ⟨hat, hlen⟩
      · rw [skipLines_found hf hr]
        obtain ⟨h₁, h₂, h₃, h₄⟩ := skipBranches_lines n (s := s) (f := word (trimSpace _)) hat (by omega)
        exact ⟨h₁, h₂, h₃, h₄.trans hlen.le⟩
      · rw [skipLines_missed hf hr]
        exact ⟨rfl, rfl, hat, hlen⟩

/-! The main loop. -/

theorem openWord {w : Text} (h : _if.isPrefixOf w = true) : w.head? = some 0x23 ∧ w ≠ _define ∧ w ≠ _undefine := by
  obtain ⟨t, rfl⟩ := List.isPrefixOf_iff_prefix.mp h
  exact ⟨rfl, by simp [_if, _define], by simp [_if, _undefine]⟩

theorem closeWord {w : Text} (h : isMacroBranchCloseDirective w = true) :
    w.head? = some 0x23 ∧ w ≠ _define ∧ w ≠ _undefine := by
  simp only [isMacroBranchCloseDirective, Bool.or_eq_true, decide_eq_true_eq] at h
  rcases h with (rfl | rfl) | rfl <;> decide

theorem head?_of_word {l : Text} {b : UInt8} (h : (word l).head? = some b) : l.head? = some b := by
  obtain ⟨d, hd⟩ : ∃ d, word l = b :: d := by
    cases hw : word l with
    | nil => simp [hw] at h
    | cons c d => exact ⟨d, by simpa [hw] using h⟩
  exact head?_of_trimAfter hd

/-- The main loop goes along a text as along its lines. -/
theorem subsituteLoop_lines (calls : Calls) : ∀ (n k : ℕ) {s : State} {rest : Text} {ls : List Text}, At rest ls →
    rest.length ≤ n → subsituteLoop calls n k s rest = loopLines calls k s ls
  | n, k, s, rest, [], h, _ => by rw [subsituteLoop_nil h, loopLines]
  | n, k, s, rest, l :: ls, h, hn => by
    obtain ⟨rest', hnext, hat, hlt⟩ := getNextLine_cons h
    obtain ⟨n, rfl⟩ : ∃ m, n = m + 1 := ⟨n - 1, by omega⟩
    rw [subsituteLoop, hnext]
    simp only
    by_cases hif : _if.isPrefixOf (word (trimSpace l)) = true
    · obtain ⟨hhead, hdef, hundef⟩ := openWord hif
      rw [if_pos (head?_of_word hhead), if_neg hdef, if_neg (by simp [hundef]), if_pos hif, loopLines_open calls hif]
      have hrel := iterateBranches_lines calls (rest'.length + 1) s (trimSpace l) hat (Nat.lt_succ_self _)
      generalize iterateBranches calls (rest'.length + 1) s (trimSpace l) rest' = x at hrel
      generalize iterateLines calls s (trimSpace l) ls = y at hrel
      rcases hrel with ⟨⟨hst, hen, hat', hlen⟩⟩ | _
      · rw [Option.bind_some, Option.bind_some, hst, hen]
        exact subsituteLoop_lines calls n _ hat' (hlen.trans (by omega))
      · rfl
    · by_cases hcl : isMacroBranchCloseDirective (word (trimSpace l)) = true
      · obtain ⟨hhead, hdef, hundef⟩ := closeWord hcl
        rw [if_pos (head?_of_word hhead), if_neg hdef, if_neg (by simp [hundef]), if_neg hif, if_pos hcl,
          loopLines_close calls hcl, closeLines]
        obtain ⟨h₁, h₂, hat', hlen⟩ := skipBranches_lines (rest'.length + 1) (s := s) (f := word (trimSpace l)) hat
          (Nat.lt_succ_self _)
        rw [h₁, h₂]
        split
        · exact subsituteLoop_lines calls n _ hat' (hlen.trans (by omega))
        · exact subsituteLoop_lines calls n _ hat' (hlen.trans (by omega))
      · rw [loopLines_line calls (Bool.eq_false_iff.mpr hif) (Bool.eq_false_iff.mpr hcl), if_neg hif, if_neg hcl]
        have hrec : ∀ s, subsituteLoop calls n k s rest' = loopLines calls k s ls := fun s =>
          subsituteLoop_lines calls n k hat (by omega)
        simp only [hrec, selectedLine, Bool.and_eq_true, decide_eq_true_eq]
        by_cases hhead : (trimSpace l).head? = some 0x23
        · rw [if_pos hhead]
          split
          · rfl
          split
          · rfl
          · rfl
        · -- a definition starts with a `#`
          have hdef : word (trimSpace l) ≠ _define := fun hw => hhead (head?_of_trimAfter hw)
          have hundef : word (trimSpace l) ≠ _undefine := fun hw => hhead (head?_of_trimAfter hw)
          rw [if_neg hhead, if_neg hdef, if_neg fun h => hundef h.1]

/-- The lines that are read of a text. The first one is lost where it is empty. -/
def readLines (content : Text) : List Text := lines (dropNewline content)

/-- What is done with a text, by its lines. -/
theorem subsituteFile_lines (calls : Calls) (s : State) (content : Text) : subsituteFile calls s content =
    loopLines calls 0 { s with output := [] } (readLines content) := by
  rcases content with _ | ⟨c, t⟩
  · exact subsituteLoop_lines calls _ 0 ⟨.inl rfl, rfl⟩ (Nat.le_succ _)
  · cases hc : isNewline c
    · -- an end of a line in front of the text makes it one of the places in a text
      have hdrop : dropNewline (0xa :: c :: t) = c :: t := by simp [dropNewline, isNewline]
      have hnext : getNextLine false (c :: t) = getNextLine false (0xa :: c :: t) := by
        simp only [getNextLine, Bool.false_eq_true, if_false, hdrop, dropNewline_of_not hc]
      have hat : At (0xa :: c :: t) (readLines (c :: t)) :=
        ⟨.inr ⟨0xa, c :: t, rfl, rfl⟩, by rw [hdrop, readLines, dropNewline_of_not hc]⟩
      rw [← subsituteLoop_lines calls _ 0 hat le_rfl]
      change subsituteLoop calls ((c :: t).length + 1) 0 _ _ = subsituteLoop calls ((c :: t).length + 1) 0 _ _
      rw [subsituteLoop, subsituteLoop, hnext]
    · exact subsituteLoop_lines calls _ 0 ⟨.inr ⟨c, t, hc, rfl⟩, rfl⟩ (Nat.le_succ _)

end Cpcf.Os.Precompiler
