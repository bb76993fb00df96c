import Cpcf.Os.Precompiler

/-!
Conditional compilation as it is meant, and that `os::Precompiler::_SubsituteFile` does it.

A source with properly nested groups is a `Block`; running it takes the first branch whose condition holds. The loops
of the code go along the lines of a block: the one that skips ends where the group it is in ends, and the main loop
comes to the end of a block in the state that running the block gives.
-/

namespace Cpcf.Os.Precompiler

open Cpcf.Rt Cpcf.Rt.Lines

/-! ### Nested sources -/

/-- A line that is no conditional directive, and has no other word that starts like `#if`. -/
structure IsPlain (l : Text) : Prop where
  nulFree : 0 ∉ l
  notIf : ¬_if <+: word (trimSpace l)
  notClose : isMacroBranchCloseDirective (word (trimSpace l)) = false

abbrev PlainLine := { l : Text // IsPlain l }

/-- A line with a certain directive at its start. -/
abbrev DirectiveLine (directive : Text → Prop) := { l : Text // 0 ∉ l ∧ directive (trimAfter l) }

abbrev OpenLine := DirectiveLine fun d => d = _if ∨ d = _ifdef ∨ d = _ifndef
abbrev ElifLine := DirectiveLine (· = _elif)
abbrev ElseLine := DirectiveLine (· = _else)
abbrev EndifLine := DirectiveLine (· = _endif)

mutual
/-- Lines and groups of branches, in any order. -/
inductive Block
  | done
  | line (l : PlainLine) (next : Block)
  | group (head : OpenLine) (body : Block) (tail : Tail) (next : Block)
/-- What follows the first branch of a group. -/
inductive Tail
  | endif (l : EndifLine)
  | elif (l : ElifLine) (body : Block) (tail : Tail)
  | otherwise (l : ElseLine) (body : Block) (e : EndifLine)
end

mutual
def Block.lines : Block → List Text
  | .done => []
  | .line l next => l.1 :: next.lines
  | .group head body tail next => head.1 :: (body.lines ++ (tail.lines ++ next.lines))
def Tail.lines : Tail → List Text
  | .endif l => [l.1]
  | .elif l body tail => l.1 :: (body.lines ++ tail.lines)
  | .otherwise l body e => l.1 :: (body.lines ++ [e.1])
end

/-- The condition of a branch. One that cannot be evaluated is reported and does not hold. -/
def condition (calls : Calls) (s : State) (l : Text) : Option (State × Bool) :=
  if trimAfter l = _ifdef then some (s, isMacroDefined s (argument (trimSpace l)))
  else if trimAfter l = _ifndef then some (s, !isMacroDefined s (argument (trimSpace l)))
  else
    (calls.evaluate s (argument (trimSpace l))).map fun
      | (some b, r) => (s.report r, b)
      | (none, r) => ((s.report r).printError (.illegalDirective (trimSpace l)), false)

/-- A selected line: a definition is applied, any other line is written. -/
def selectedLine (calls : Calls) (s : State) (l : Text) : Option State :=
  if word (trimSpace l) = _define then define calls s (trimSpace l)
  else if word (trimSpace l) = _undefine ∧ (split 3 (trimSpace l)).length = 2 then
    some (undefineMacro s (argument (trimSpace l)))
  else outputLine calls s l

mutual
/-- What a source means. -/
def Block.run (calls : Calls) : Block → State → Option State
  | .done, s => some s
  | .line l next, s => (selectedLine calls s l).bind fun s => next.run calls s
  | .group head body tail next, s =>
    (condition calls s head).bind fun (s, b) =>
      (if b then body.run calls s else tail.run calls s).bind fun s => next.run calls s
def Tail.run (calls : Calls) : Tail → State → Option State
  | .endif _, s => some s
  | .elif l body tail, s =>
    (condition calls s l).bind fun (s, b) => if b then body.run calls s else tail.run calls s
  | .otherwise _ body _, s => body.run calls s
end

/-! ### The words of a line -/

theorem isSkipped_eq {b : UInt8} (hb : b ≠ 0) : isSkipped b = isSeparator b := by
  have hpos : schar b ≠ 0 := by
    unfold schar
    have := UInt8.toNat_lt b
    have : b.toNat ≠ 0 := fun h => hb (UInt8.toNat_inj.mp h)
    split <;> omega
  unfold isSkipped isSeparator
  rw [Bool.and_comm]
  congr 1
  exact decide_eq_decide.mpr (by omega)

theorem takeWhile_append_of_false {p : UInt8 → Bool} {u : Text} (hu : ∀ b ∈ u, p b = false) :
    ∀ s : Text, (s ++ u).takeWhile p = s.takeWhile p
  | [] => by
    cases u with
    | nil => rfl
    | cons b u => simp [hu b (by simp)]
  | b :: s => by cases hb : p b <;> simp [hb, takeWhile_append_of_false hu s]

/-- Blanks at the end of a line do not change its first word. -/
theorem word_trimSpace {l : Text} (h0 : 0 ∉ l) (hl : ∀ b ∈ l.head?, isSkipped b = false) :
    word (trimSpace l) = trimAfter l := by
  obtain ⟨u, hu, hall⟩ := trimRightSpace_prefix l
  have hsep : ∀ b ∈ u, (!isSeparator b) = false := by
    intro b hb
    rw [← isSkipped_eq fun hb0 => h0 (by rw [hu]; exact List.mem_append_right _ (hb0 ▸ hb)), hall b hb]
    rfl
  rw [word, trimSpace, trimLeftSpace_eq hl]
  conv_rhs => rw [hu]
  exact (takeWhile_append_of_false hsep _).symm

theorem trimSpace_trimAfter {l : Text} (h0 : 0 ∉ l) : trimSpace (trimAfter l) = trimAfter l := by
  refine trimSpace_eq fun b hb => ?_
  have hb' := List.all_eq_true.mp List.all_takeWhile b hb
  have : b ≠ 0 := fun hb0 => h0 (hb0 ▸ (List.takeWhile_sublist _).subset hb)
  rw [isSkipped_eq this]
  simpa using hb'

/-- A word that is not empty starts where the line does. -/
theorem head?_of_trimAfter {l d : Text} {b : UInt8} (h : trimAfter l = b :: d) : l.head? = some b := by
  cases l with
  | nil => simp [trimAfter] at h
  | cons c l =>
    unfold trimAfter at h
    rw [List.takeWhile_cons] at h
    split at h
    · simpa using congrArg List.head? h
    · cases h

/-- What the loops see of a line with a directive at its start. -/
theorem directive_line {l d : Text} (h0 : 0 ∉ l) (hd : trimAfter l = 0x23 :: d) :
    l ≠ [] ∧ word (trimSpace l) = 0x23 :: d ∧ (trimSpace l).head? = some 0x23 ∧ trimSpace (trimAfter l) = 0x23 :: d := by
  have hhead := head?_of_trimAfter hd
  have hw : word (trimSpace l) = 0x23 :: d := by
    rw [word_trimSpace h0, hd]
    intro b hb
    rw [hhead, Option.mem_some_iff] at hb
    subst hb
    rfl
  refine ⟨?_, hw, head?_of_trimAfter hw, by rw [trimSpace_trimAfter h0, hd]⟩
  rintro rfl
  simp at hhead

/-! ### Skipping -/

variable {calls : Calls} {s : State} {rest l : Text} {ls more : List Text} {n : ℕ}

theorem seek_cons (h : At rest (l :: ls)) (hl : l ≠ []) (hn : rest.length ≤ n) : ∃ m rest', At rest' ls ∧
    rest'.length ≤ m ∧ rest'.length < rest.length ∧ ∀ j, seekToNextCloseDirective n j rest =
      if (trimSpace (trimAfter l)).head? = some 0x23 then
        if j = 0 && isMacroBranchCloseDirective (trimSpace (trimAfter l)) then (some l, rest')
        else if _if.isPrefixOf (trimSpace (trimAfter l)) then seekToNextCloseDirective m (j + 1) rest'
        else if trimSpace (trimAfter l) = _endif then seekToNextCloseDirective m (j - 1) rest'
        else seekToNextCloseDirective m j rest'
      else seekToNextCloseDirective m j rest' := by
  obtain ⟨rest', hnext, hat, hlt⟩ := getNextLine_skip h hl
  obtain ⟨m, rfl⟩ : ∃ m, n = m + 1 := ⟨n - 1, by omega⟩
  exact ⟨m, rest', hat, by omega, hlt, fun j => by rw [seekToNextCloseDirective, hnext]⟩

/-- The place after some lines, with rounds for all of the text that is left. -/
structure Later (rest : Text) (ls : List Text) (m : ℕ) (rest' : Text) : Prop where
  at_ : At rest' ls
  fuel : rest'.length ≤ m
  le : rest'.length ≤ rest.length

/-- What is found from a later place is found from an earlier one. -/
def FindsFrom (n j : ℕ) (rest : Text) (m j' : ℕ) (rest' : Text) : Prop :=
  ∀ x r, seekToNextCloseDirective m j' rest' = (some x, r) → seekToNextCloseDirective n j rest = (some x, r)

/-- A line that is no conditional directive is passed over. -/
theorem seek_plain (j : ℕ) (h : At rest (l :: ls)) (hl : IsPlain l) (hn : rest.length ≤ n) :
    ∃ m rest', Later rest ls m rest' ∧ FindsFrom n j rest m j rest' := by
  by_cases hnil : l = []
  · subst hnil
    obtain ⟨rest', hnext, hat, hlt⟩ := getNextLine_empty h
    refine ⟨n, rest', ⟨hat, by omega, hlt.le⟩, fun x r hx => ?_⟩
    cases n with
    | zero => omega
    | succ n =>
      rw [seekToNextCloseDirective] at hx ⊢
      rw [hnext]
      split at hx
      · simp at hx
      · exact hx
  · obtain ⟨m, rest', hat, hm, hlt, hseek⟩ := seek_cons h hnil hn
    refine ⟨m, rest', ⟨hat, hm, hlt.le⟩, fun x r hx => ?_⟩
    rw [hseek]
    split
    · rename_i hhash
      -- the line starts with a `#`, so that its word is the same for both loops
      obtain ⟨d, hd⟩ : ∃ d, trimAfter l = 0x23 :: d := by
        rw [trimSpace_trimAfter hl.nulFree] at hhash
        cases hta : trimAfter l with
        | nil => simp [hta] at hhash
        | cons b d => exact ⟨d, by simpa [hta] using hhash⟩
      obtain ⟨-, hw, -, hdir⟩ := directive_line hl.nulFree hd
      have hif : _if.isPrefixOf (0x23 :: d) = false := by
        rw [← Bool.not_eq_true, List.isPrefixOf_iff_prefix, ← hw]
        exact hl.notIf
      have hcl := hl.notClose
      rw [hw] at hcl
      have hend : (0x23 :: d) ≠ _endif := by
        intro he
        simp [isMacroBranchCloseDirective, he] at hcl
      rw [hdir, hcl, hif, if_neg hend]
      simpa using hx
    · exact hx

/-- The start of a group inside what is skipped. -/
theorem seek_open (j : ℕ) (h : At rest (l :: ls)) (h0 : 0 ∉ l)
    (hd : trimAfter l = _if ∨ trimAfter l = _ifdef ∨ trimAfter l = _ifndef) (hn : rest.length ≤ n) :
    ∃ m rest', Later rest ls m rest' ∧ FindsFrom n j rest m (j + 1) rest' := by
  have hex : ∃ d, trimAfter l = 0x23 :: d ∧ _if.isPrefixOf (0x23 :: d) = true ∧
      isMacroBranchCloseDirective (0x23 :: d) = false := by
    rcases hd with hd | hd | hd <;> exact ⟨_, hd, by decide, by decide⟩
  obtain ⟨d, hd, hif, hcl⟩ := hex
  obtain ⟨hne, -, -, hdir⟩ := directive_line h0 hd
  obtain ⟨m, rest', hat, hm, hlt, hseek⟩ := seek_cons h hne hn
  refine ⟨m, rest', ⟨hat, hm, hlt.le⟩, fun x r hx => ?_⟩
  rw [hseek, hdir, hif, hcl]
  simpa using hx

/-- Another branch of a group inside what is skipped. -/
theorem seek_branch (j : ℕ) (h : At rest (l :: ls)) (h0 : 0 ∉ l) (hd : trimAfter l = _elif ∨ trimAfter l = _else)
    (hn : rest.length ≤ n) : ∃ m rest', Later rest ls m rest' ∧ FindsFrom n (j + 1) rest m (j + 1) rest' := by
  have hex : ∃ d, trimAfter l = 0x23 :: d ∧ _if.isPrefixOf (0x23 :: d) = false ∧ (0x23 :: d) ≠ _endif := by
    rcases hd with hd | hd <;> exact ⟨_, hd, by decide, by decide⟩
  obtain ⟨d, hd, hif, hend⟩ := hex
  obtain ⟨hne, -, -, hdir⟩ := directive_line h0 hd
  obtain ⟨m, rest', hat, hm, hlt, hseek⟩ := seek_cons h hne hn
  refine ⟨m, rest', ⟨hat, hm, hlt.le⟩, fun x r hx => ?_⟩
  rw [hseek, hdir, hif, if_neg hend]
  simpa using hx

/-- The end of a group inside what is skipped. -/
theorem seek_endif (j : ℕ) (h : At rest (l :: ls)) (h0 : 0 ∉ l) (hd : trimAfter l = _endif) (hn : rest.length ≤ n) :
    ∃ m rest', Later rest ls m rest' ∧ FindsFrom n (j + 1) rest m j rest' := by
  obtain ⟨hne, -, -, hdir⟩ := directive_line h0 hd
  obtain ⟨m, rest', hat, hm, hlt, hseek⟩ := seek_cons h hne hn
  have hif : _if.isPrefixOf _endif = false := by decide
  refine ⟨m, rest', ⟨hat, hm, hlt.le⟩, fun x r hx => ?_⟩
  rw [hseek, hdir]
  change (if _ then if _ then _ else if _if.isPrefixOf _endif then _ else _ else _) = _
  rw [hif]
  simpa [_endif] using hx

theorem FindsFrom.trans {n j m j' k j'' : ℕ} {rest rest' rest'' : Text} (h : FindsFrom n j rest m j' rest')
    (h' : FindsFrom m j' rest' k j'' rest'') : FindsFrom n j rest k j'' rest'' := fun x r hx => h x r (h' x r hx)

mutual
/-- A block is passed over. -/
theorem seek_block : ∀ (b : Block) (j n : ℕ) (rest : Text) (more : List Text), At rest (b.lines ++ more) →
    rest.length ≤ n → ∃ m rest', Later rest more m rest' ∧ FindsFrom n j rest m j rest'
  | .done, j, n, rest, more, h, hn => ⟨n, rest, ⟨h, hn, le_rfl⟩, fun _ _ hx => hx⟩
  | .line l next, j, n, rest, more, h, hn => by
    rw [Block.lines, List.cons_append] at h
    obtain ⟨m, rest', hl, hf⟩ := seek_plain j h l.2 hn
    obtain ⟨m', rest'', hl', hf'⟩ := seek_block next j m rest' more hl.at_ hl.fuel
    exact ⟨m', rest'', ⟨hl'.at_, hl'.fuel, hl'.le.trans hl.le⟩, hf.trans hf'⟩
  | .group head body tail next, j, n, rest, more, h, hn => by
    rw [Block.lines, List.cons_append, List.append_assoc, List.append_assoc] at h
    obtain ⟨m₁, r₁, hl₁, hf₁⟩ := seek_open j h head.2.1 head.2.2 hn
    obtain ⟨m₂, r₂, hl₂, hf₂⟩ := seek_block body (j + 1) m₁ r₁ _ hl₁.at_ hl₁.fuel
    obtain ⟨m₃, r₃, hl₃, hf₃⟩ := seek_tail tail j m₂ r₂ _ hl₂.at_ hl₂.fuel
    obtain ⟨m₄, r₄, hl₄, hf₄⟩ := seek_block next j m₃ r₃ more hl₃.at_ hl₃.fuel
    exact ⟨m₄, r₄, ⟨hl₄.at_, hl₄.fuel, hl₄.le.trans (hl₃.le.trans (hl₂.le.trans hl₁.le))⟩,
      hf₁.trans (hf₂.trans (hf₃.trans hf₄))⟩
/-- So is the rest of a group, up to its end. -/
theorem seek_tail : ∀ (t : Tail) (j n : ℕ) (rest : Text) (more : List Text), At rest (t.lines ++ more) →
    rest.length ≤ n → ∃ m rest', Later rest more m rest' ∧ FindsFrom n (j + 1) rest m j rest'
  | .endif l, j, n, rest, more, h, hn => seek_endif j h l.2.1 l.2.2 hn
  | .elif l body tail, j, n, rest, more, h, hn => by
    rw [Tail.lines, List.cons_append, List.append_assoc] at h
    obtain ⟨m₁, r₁, hl₁, hf₁⟩ := seek_branch j h l.2.1 (.inl l.2.2) hn
    obtain ⟨m₂, r₂, hl₂, hf₂⟩ := seek_block body (j + 1) m₁ r₁ _ hl₁.at_ hl₁.fuel
    obtain ⟨m₃, r₃, hl₃, hf₃⟩ := seek_tail tail j m₂ r₂ _ hl₂.at_ hl₂.fuel
    exact ⟨m₃, r₃, ⟨hl₃.at_, hl₃.fuel, hl₃.le.trans (hl₂.le.trans hl₁.le)⟩, hf₁.trans (hf₂.trans hf₃)⟩
  | .otherwise l body e, j, n, rest, more, h, hn => by
    rw [Tail.lines, List.cons_append, List.append_assoc] at h
    obtain ⟨m₁, r₁, hl₁, hf₁⟩ := seek_branch j h l.2.1 (.inr l.2.2) hn
    obtain ⟨m₂, r₂, hl₂, hf₂⟩ := seek_block body (j + 1) m₁ r₁ _ hl₁.at_ hl₁.fuel
    obtain ⟨m₃, r₃, hl₃, hf₃⟩ := seek_endif j hl₂.at_ e.2.1 e.2.2 hl₂.fuel
    exact ⟨m₃, r₃, ⟨hl₃.at_, hl₃.fuel, hl₃.le.trans (hl₂.le.trans hl₁.le)⟩, hf₁.trans (hf₂.trans hf₃)⟩
end

/-! ### The end of a branch -/

/-- The line with which a branch ends. -/
def Tail.head : Tail → Text
  | .endif l => l
  | .elif l _ _ => l
  | .otherwise l _ _ => l

/-- The lines of the group behind it. -/
def Tail.behind : Tail → List Text
  | .endif _ => []
  | .elif _ body tail => body.lines ++ tail.lines
  | .otherwise _ body e => body.lines ++ [e.1]

theorem Tail.lines_eq (t : Tail) : t.lines = t.head :: t.behind := by
  cases t <;> simp [Tail.lines, Tail.head, Tail.behind]

theorem Tail.head_close (t : Tail) : 0 ∉ t.head ∧ ∃ d, trimAfter t.head = 0x23 :: d ∧
    isMacroBranchCloseDirective (0x23 :: d) = true ∧ _if.isPrefixOf (0x23 :: d) = false ∧
    (0x23 :: d) ≠ _define ∧ (0x23 :: d) ≠ _undefine := by
  rcases t with ⟨l, h0, hl⟩ | ⟨⟨l, h0, hl⟩, _, _⟩ | ⟨⟨l, h0, hl⟩, _, _⟩
  all_goals exact ⟨h0, _, hl, by decide, by decide, by decide, by decide⟩

/-- From the start of a branch the end of it is found. -/
theorem seek_close (body : Block) (t : Tail) (h : At rest (body.lines ++ (t.lines ++ more))) :
    ∃ rest', At rest' (t.behind ++ more) ∧ rest'.length < rest.length ∧
      seekToNextCloseDirective rest.length 0 rest = (some t.head, rest') := by
  obtain ⟨m, rest₁, hl, hf⟩ := seek_block body 0 _ rest _ h le_rfl
  have hat := hl.at_
  rw [t.lines_eq, List.cons_append] at hat
  obtain ⟨h0, d, hd, hcl, -⟩ := t.head_close
  obtain ⟨hne, -, -, hdir⟩ := directive_line h0 hd
  obtain ⟨_, rest', hat', -, hlt, hseek⟩ := seek_cons hat hne hl.fuel
  refine ⟨rest', hat', hlt.trans_le hl.le, hf _ _ ?_⟩
  rw [hseek, hdir, hcl]
  simp

/-- The branches that are left are passed over. -/
theorem skipBranches_tail (s : State) : ∀ (t : Tail) {n : ℕ} {rest : Text} {more : List Text},
    At rest (t.behind ++ more) → rest.length < n → ∃ f rest', At rest' more ∧ rest'.length ≤ rest.length ∧
      skipBranches n s (word (trimSpace t.head)) rest = (s, f, rest')
  | .endif l, n, rest, more, h, hn => by
    obtain ⟨-, hw, -⟩ := directive_line l.2.1 l.2.2
    obtain ⟨n, rfl⟩ : ∃ m, n = m + 1 := ⟨n - 1, by omega⟩
    refine ⟨_endif, rest, h, le_rfl, ?_⟩
    rw [skipBranches, Tail.head, hw]
    exact if_pos rfl
  | .elif l body tail, n, rest, more, h, hn => by
    obtain ⟨-, hw, -⟩ := directive_line l.2.1 l.2.2
    obtain ⟨n, rfl⟩ : ∃ m, n = m + 1 := ⟨n - 1, by omega⟩
    rw [Tail.behind, List.append_assoc] at h
    obtain ⟨rest₁, hat, hlt, hseek⟩ := seek_close body tail h
    obtain ⟨f, rest', hat', hle, heq⟩ := skipBranches_tail s tail (n := n) hat (by omega)
    refine ⟨f, rest', hat', by omega, ?_⟩
    rw [skipBranches, Tail.head, hw, hseek]
    exact (if_neg (by decide)).trans heq
  | .otherwise l body e, n, rest, more, h, hn => by
    obtain ⟨-, hw, -⟩ := directive_line l.2.1 l.2.2
    obtain ⟨-, hwe, -⟩ := directive_line e.2.1 e.2.2
    obtain ⟨n, rfl⟩ : ∃ m, n = m + 1 := ⟨n - 1, by omega⟩
    rw [Tail.behind, List.append_assoc] at h
    obtain ⟨rest₁, hat, hlt, hseek⟩ := seek_close body (.endif e) h
    obtain ⟨n, rfl⟩ : ∃ m, n = m + 1 := ⟨n - 1, by omega⟩
    refine ⟨_endif, rest₁, hat, hlt.le, ?_⟩
    rw [skipBranches, Tail.head, hw, hseek]
    refine (if_neg (by decide)).trans ?_
    change skipBranches (n + 1) s (word (trimSpace e.1)) rest₁ = _
    rw [skipBranches, hwe]
    exact if_pos rfl

/-- At the end of a branch that was entered the main loop goes to the end of the group. -/
theorem loop_close (calls : Calls) {k : ℕ} (t : Tail) (h : At rest (t.lines ++ more)) (hn : rest.length ≤ n) (hk : 0 < k) :
    ∃ n' rest', At rest' more ∧ rest'.length ≤ n' ∧
      subsituteLoop calls n k s rest = subsituteLoop calls n' (k + 1) s rest' := by
  rw [t.lines_eq, List.cons_append] at h
  obtain ⟨h0, d, hd, hcl, hif, hdef, hundef⟩ := t.head_close
  obtain ⟨-, hw, hhead, -⟩ := directive_line h0 hd
  obtain ⟨rest₁, hnext, hat, hlt⟩ := getNextLine_cons h
  obtain ⟨n, rfl⟩ : ∃ m, n = m + 1 := ⟨n - 1, by omega⟩
  obtain ⟨f, rest', hat', hle, hskip⟩ := skipBranches_tail s t (n := rest₁.length + 1) hat (by omega)
  refine ⟨n, rest', hat', by omega, ?_⟩
  rw [hw] at hskip
  rw [subsituteLoop, hnext]
  simp only [hhead, hw, hif, hcl, hskip, hdef, hundef, hk, if_true, if_false, Bool.false_eq_true, decide_false,
    Bool.false_and]

/-! ### Running a block -/

/-- The main loop has come to a place, in the state that `r` gives, or it does not return and there is none. -/
def Reaches (calls : Calls) (k : ℕ) (more : List Text) (r x : Option State) : Prop :=
  (r = none ∧ x = none) ∨ ∃ s', r = some s' ∧ ∃ n' k' rest', k ≤ k' ∧ At rest' more ∧ rest'.length ≤ n' ∧
    x = subsituteLoop calls n' k' s' rest'

variable {k : ℕ} {r x : Option State}

theorem Reaches.here {n : ℕ} (h : At rest more) (hn : rest.length ≤ n) :
    Reaches calls k more (some s) (subsituteLoop calls n k s rest) :=
  .inr ⟨s, rfl, n, k, rest, le_rfl, h, hn, rfl⟩

theorem Reaches.bind {g : State → Option State} {ls : List Text} (h : Reaches calls k ls r x)
    (hg : ∀ s n k' rest, k ≤ k' → At rest ls → rest.length ≤ n →
      Reaches calls k' more (g s) (subsituteLoop calls n k' s rest)) : Reaches calls k more (r.bind g) x := by
  rcases h with ⟨rfl, rfl⟩ | ⟨s', rfl, n', k', rest', hk, hat, hn, rfl⟩
  · exact .inl ⟨rfl, rfl⟩
  · rcases hg s' n' k' rest' hk hat hn with ⟨hr, hx⟩ | ⟨s'', hr, n'', k'', rest'', hk', hat', hn', hx⟩
    · exact .inl ⟨hr, hx⟩
    · exact .inr ⟨s'', hr, n'', k'', rest'', hk.trans hk', hat', hn', hx⟩

/-- After a branch that was entered comes the end of its group. -/
theorem Reaches.close (t : Tail) (h : Reaches calls (k + 1) (t.lines ++ more) r x) : Reaches calls k more r x := by
  rcases h with h | ⟨s', hr, n', k', rest', hk, hat, hn, rfl⟩
  · exact .inl h
  · obtain ⟨n'', rest'', hat', hn', heq⟩ := loop_close calls (s := s') (k := k') t hat hn (by omega)
    exact .inr ⟨s', hr, n'', k' + 1, rest'', by omega, hat', hn', heq⟩

/-- What the loop over the branches does when a condition does not hold. -/
def nextBranch (calls : Calls) (n : ℕ) (s : State) (control_line rest : Text) : Option (State × Bool × Text) :=
  match seekToNextCloseDirective rest.length 0 rest with
  | (none, rest) => some (s.printError (.noMatchingEndifFor (word control_line)), false, rest)
  | (some line, rest) =>
    if word (trimSpace line) = _endif then some (s, false, rest) else iterateBranches calls n s (trimSpace line) rest

theorem iterateBranches_succ (control_line : Text) : iterateBranches calls (n + 1) s control_line rest =
    (evalueMacroIf calls s (word control_line) (argument control_line)).bind fun (s, go_if) =>
      if go_if.getD false then some (s, true, rest)
      else nextBranch calls n (if go_if.isNone then s.printError (.illegalDirective control_line) else s) control_line
        rest := by
  rw [iterateBranches]
  rcases evalueMacroIf calls s (word control_line) (argument control_line) with _ | ⟨s, _ | _ | _⟩ <;> rfl

theorem evalueMacroIf_condition {d : Text} (hd : trimAfter l = d)
    (hc : d = _if ∨ d = _ifdef ∨ d = _ifndef ∨ d = _elif) :
    ((evalueMacroIf calls s d (argument (trimSpace l))).map fun (s, go_if) =>
      (if go_if.isNone then s.printError (.illegalDirective (trimSpace l)) else s, go_if.getD false))
      = condition calls s l := by
  subst hd
  unfold evalueMacroIf condition
  rcases hc with hc | hc | hc | hc
  all_goals simp only [hc, _if, _ifdef, _ifndef, _elif, _else]
  · rcases calls.evaluate s (argument (trimSpace l)) with _ | ⟨_ | b, r⟩ <;> rfl
  · rfl
  · rfl
  · rcases calls.evaluate s (argument (trimSpace l)) with _ | ⟨_ | b, r⟩ <;> rfl

/-- One round of the loop over the branches of a group. -/
theorem iterateBranches_condition {d : Text} (hw : word (trimSpace l) = d) (hd : trimAfter l = d)
    (hc : d = _if ∨ d = _ifdef ∨ d = _ifndef ∨ d = _elif) :
    iterateBranches calls (n + 1) s (trimSpace l) rest = (condition calls s l).bind fun (s, b) =>
      if b then some (s, true, rest) else nextBranch calls n s (trimSpace l) rest := by
  rw [iterateBranches_succ, ← evalueMacroIf_condition hd hc, hw]
  rcases evalueMacroIf calls s d (argument (trimSpace l)) with _ | ⟨s, _ | _ | _⟩ <;> rfl

/-- The main loop after the loop over the branches. -/
def afterBranches (calls : Calls) (n k : ℕ) (x : Option (State × Bool × Text)) : Option State :=
  x.bind fun (s, entered, rest) => subsituteLoop calls n (if entered then k + 1 else k) s rest

theorem selectedLine_eq (calls : Calls) (hl : IsPlain l) (h : At rest (l :: ls)) (hn : rest.length ≤ n) :
    ∃ m rest', At rest' ls ∧ rest'.length ≤ m ∧ subsituteLoop calls n k s rest =
      (selectedLine calls s l).bind fun s => subsituteLoop calls m k s rest' := by
  obtain ⟨rest', hnext, hat, hlt⟩ := getNextLine_cons h
  obtain ⟨n, rfl⟩ : ∃ m, n = m + 1 := ⟨n - 1, by omega⟩
  refine ⟨n, rest', hat, by omega, ?_⟩
  have hif : _if.isPrefixOf (word (trimSpace l)) = false := by
    rw [← Bool.not_eq_true, List.isPrefixOf_iff_prefix]
    exact hl.notIf
  rw [subsituteLoop, hnext]
  unfold selectedLine
  simp only [hif, hl.notClose, Bool.false_eq_true, if_false, Bool.and_eq_true, decide_eq_true_eq]
  by_cases hhead : (trimSpace l).head? = some 0x23
  · rw [if_pos hhead]
    split
    · rfl
    · split
      · rfl
      · rfl
  · -- a definition starts with a `#`
    have hdef : word (trimSpace l) ≠ _define := fun hw => hhead (head?_of_trimAfter hw)
    have hundef : word (trimSpace l) ≠ _undefine := fun hw => hhead (head?_of_trimAfter hw)
    rw [if_neg hhead, if_neg hdef, if_neg fun h => hundef h.1]

theorem loop_open (calls : Calls) {head : Text} {d : Text} (h0 : 0 ∉ head) (hd : trimAfter head = d)
    (hc : d = _if ∨ d = _ifdef ∨ d = _ifndef) (h : At rest (head :: ls)) (hn : rest.length ≤ n) :
    ∃ m rest', At rest' ls ∧ rest'.length ≤ m ∧ subsituteLoop calls n k s rest =
      afterBranches calls m k (iterateBranches calls (rest'.length + 1) s (trimSpace head) rest') := by
  have hex : ∃ e, d = 0x23 :: e ∧ _if.isPrefixOf (0x23 :: e) = true ∧ (0x23 :: e) ≠ _define ∧
      (0x23 :: e) ≠ _undefine := by
    rcases hc with rfl | rfl | rfl <;> exact ⟨_, rfl, by decide, by decide, by decide⟩
  obtain ⟨e, rfl, hif, hdef, hundef⟩ := hex
  obtain ⟨-, hw, hhead, -⟩ := directive_line h0 hd
  obtain ⟨rest', hnext, hat, hlt⟩ := getNextLine_cons h
  obtain ⟨n, rfl⟩ : ∃ m, n = m + 1 := ⟨n - 1, by omega⟩
  refine ⟨n, rest', hat, by omega, ?_⟩
  rw [subsituteLoop, hnext]
  simp only [hhead, hw, hif, hdef, hundef, if_true, if_false, Bool.false_eq_true, decide_false, Bool.false_and]
  rfl

mutual
/-- The main loop goes along a block as running it does. -/
theorem loop_block (calls : Calls) : ∀ (b : Block) {n k : ℕ} {s : State} {rest : Text} {more : List Text},
    At rest (b.lines ++ more) → rest.length ≤ n →
    Reaches calls k more (b.run calls s) (subsituteLoop calls n k s rest)
  | .done, _, _, _, _, _, h, hn => Reaches.here h hn
  | .line l next, n, k, s, rest, more, h, hn => by
    rw [Block.lines, List.cons_append] at h
    obtain ⟨m, rest', hat, hm, heq⟩ := selectedLine_eq calls (s := s) (k := k) l.2 h hn
    rw [heq, Block.run]
    rcases selectedLine calls s l with _ | s'
    · exact .inl ⟨rfl, rfl⟩
    · exact loop_block calls next hat hm
  | .group head body tail next, n, k, s, rest, more, h, hn => by
    rw [Block.lines, List.cons_append, List.append_assoc, List.append_assoc] at h
    obtain ⟨m, rest', hat, hm, heq⟩ := loop_open calls (s := s) (k := k) head.2.1 rfl head.2.2 h hn
    have hc : trimAfter head.1 = _if ∨ trimAfter head.1 = _ifdef ∨ trimAfter head.1 = _ifndef ∨
        trimAfter head.1 = _elif := by
      have := head.2.2
      tauto
    have hw : word (trimSpace head.1) = trimAfter head.1 := by
      obtain ⟨l, h0, hl⟩ := head
      rcases hl with hl | hl | hl <;> exact (directive_line h0 hl).2.1.trans hl.symm
    rw [heq, iterateBranches_condition hw rfl hc, Block.run]
    rcases condition calls s head with _ | ⟨s', b⟩
    · exact .inl ⟨rfl, rfl⟩
    · refine Reaches.bind
        (?_ : Reaches calls k (next.lines ++ more) (if b then body.run calls s' else tail.run calls s') _)
        fun s'' n' k' rest'' _ hat' hn' => loop_block calls next hat' hn'
      cases b with
      | true => exact (loop_block calls body (k := k + 1) hat hm).close tail
      | false => exact branches_tail calls tail body hat le_rfl hm
/-- So does the loop over the branches along what follows a branch that is not taken. -/
theorem branches_tail (calls : Calls) : ∀ (t : Tail) (body : Block) {m n k : ℕ} {s : State} {rest control_line : Text}
    {more : List Text}, At rest (body.lines ++ (t.lines ++ more)) → rest.length ≤ m → rest.length ≤ n →
    Reaches calls k more (t.run calls s) (afterBranches calls n k (nextBranch calls m s control_line rest))
  | .endif l, body, m, n, k, s, rest, cl, more, h, hm, hn => by
    obtain ⟨rest', hat, hlt, hseek⟩ := seek_close body (.endif l) h
    have hw : word (trimSpace l.1) = _endif := (directive_line l.2.1 l.2.2).2.1
    rw [nextBranch, hseek]
    simp only [Tail.head, hw, if_true]
    exact Reaches.here hat (by omega)
  | .elif l body' tail, body, m, n, k, s, rest, cl, more, h, hm, hn => by
    obtain ⟨rest', hat, hlt, hseek⟩ := seek_close body (.elif l body' tail) h
    rw [Tail.behind, List.append_assoc] at hat
    have hw : word (trimSpace l.1) = _elif := (directive_line l.2.1 l.2.2).2.1
    obtain ⟨m, rfl⟩ : ∃ m', m = m' + 1 := ⟨m - 1, by omega⟩
    have hne : _elif ≠ _endif := by decide
    rw [nextBranch, hseek]
    simp only [Tail.head, hw, hne, if_false]
    rw [iterateBranches_condition hw l.2.2 (by tauto), Tail.run]
    rcases condition calls s l with _ | ⟨s', b⟩
    · exact .inl ⟨rfl, rfl⟩
    · cases b with
      | true => exact (loop_block calls body' (k := k + 1) hat (by omega)).close tail
      | false => exact branches_tail calls tail body' hat (by omega) (by omega)
  | .otherwise l body' e, body, m, n, k, s, rest, cl, more, h, hm, hn => by
    obtain ⟨rest', hat, hlt, hseek⟩ := seek_close body (.otherwise l body' e) h
    rw [Tail.behind, List.append_assoc] at hat
    have hw : word (trimSpace l.1) = _else := (directive_line l.2.1 l.2.2).2.1
    obtain ⟨m, rfl⟩ : ∃ m', m = m' + 1 := ⟨m - 1, by omega⟩
    have hne : _else ≠ _endif := by decide
    rw [nextBranch, hseek]
    simp only [Tail.head, hw, hne, if_false]
    rw [iterateBranches_succ, hw, Tail.run]
    exact (loop_block calls body' (k := k + 1) hat (by omega)).close (.endif e)
end

theorem subsituteLoop_nil (h : At rest []) : subsituteLoop calls n k s rest = some s := by
  cases n with
  | zero => rfl
  | succ n => rw [subsituteLoop, getNextLine_nil h]

/-- What is done with a source is what it means. -/
theorem subsituteFile_eq_run (calls : Calls) (s : State) {content : Text} {b : Block} (hlines : lines content = b.lines)
    (hfirst : ∀ l ∈ (lines content).head?, l ≠ []) :
    subsituteFile calls s content = b.run calls { s with output := [] } := by
  -- an end of a line in front of the text makes it one of the places in a text
  have hdrop : dropNewline (0xa :: content) = content := by cases content <;> simp [dropNewline, isNewline]
  have hnext : getNextLine false content = getNextLine false (0xa :: content) := by
    have : dropNewline content = content := by
      rcases content with _ | ⟨c, t⟩
      · rfl
      · cases hc : isNewline c
        · exact dropNewline_of_not hc
        · rw [lines_eq (by simp)] at hfirst
          simp [hc] at hfirst
    simp only [getNextLine, Bool.false_eq_true, if_false, hdrop, this]
  have hat : At (0xa :: content) (b.lines ++ []) := by
    refine ⟨.inr ⟨0xa, content, rfl, rfl⟩, ?_⟩
    rw [hdrop, hlines, List.append_nil]
  have hloop : subsituteFile calls s content = subsituteLoop calls (content.length + 1) 0 { s with output := [] }
      (0xa :: content) := by
    rw [subsituteFile, subsituteLoop, subsituteLoop, hnext]
  rw [hloop]
  rcases loop_block calls b (k := 0) (s := { s with output := [] }) hat le_rfl with
    ⟨hr, hx⟩ | ⟨s', hr, n', k', rest', -, hat', -, hx⟩
  · exact hx.trans hr.symm
  · exact hx.trans ((subsituteLoop_nil hat').trans hr.symm)

/-! ### What is reported -/

/-- An error in how the directives are written or nested. -/
def Error.isNesting : Error → Bool
  | .unknownDirective _ | .noMatchingEndifFor _ | .noMatchingEndif | .notMatched _ => true
  | _ => false

/-- The errors of that kind that were reported. -/
def State.nesting (s : State) : List Error := s.errors.filter Error.isNesting

@[simp] theorem nesting_report (s : State) (r : Report) : (s.report r).nesting = s.nesting := by
  have : (r.errors.map Error.other).filter Error.isNesting = [] := by
    rw [List.filter_eq_nil_iff]
    intro e he
    obtain ⟨t, -, rfl⟩ := List.mem_map.mp he
    simp [Error.isNesting]
  simp [State.nesting, State.report, this]

theorem nesting_printError {s : State} {e : Error} (he : e.isNesting = false) :
    (s.printError e).nesting = s.nesting := by simp [State.nesting, State.printError, he]

theorem nesting_defineMacro (s : State) (m v : Text) : (defineMacro s m v).nesting = s.nesting := by
  unfold defineMacro
  split
  · exact nesting_printError rfl
  · split
    · split
      · exact nesting_printError rfl
      · split
        · exact nesting_printError rfl
        · rfl
    · rfl

theorem nesting_undefineMacro (s : State) (m : Text) : (undefineMacro s m).nesting = s.nesting := by
  unfold undefineMacro
  split
  · exact nesting_printError rfl
  · split <;> rfl

theorem nesting_selectedLine {s' : State} (h : selectedLine calls s l = some s') : s'.nesting = s.nesting := by
  unfold selectedLine at h
  split at h
  · unfold define at h
    split at h
    · split at h
      · split at h
        · cases h
        · obtain ⟨⟨m, r⟩, -, rfl⟩ := Option.map_eq_some_iff.mp h
          exact nesting_report s r
      · rw [← Option.some.inj h, nesting_defineMacro]
    · rw [← Option.some.inj h, nesting_defineMacro]
  · split at h
    · rw [← Option.some.inj h, nesting_undefineMacro]
    · obtain ⟨⟨o, r⟩, -, rfl⟩ := Option.map_eq_some_iff.mp h
      exact nesting_report s r

theorem nesting_condition {s' : State} {b : Bool} (h : condition calls s l = some (s', b)) : s'.nesting = s.nesting := by
  unfold condition at h
  split at h
  · cases h
    rfl
  · split at h
    · cases h
      rfl
    · obtain ⟨⟨_ | b, r⟩, -, hp⟩ := Option.map_eq_some_iff.mp h
      · cases hp
        rw [nesting_printError rfl, nesting_report]
      · cases hp
        exact nesting_report s r

mutual
theorem nesting_block : ∀ (b : Block) {s s' : State}, b.run calls s = some s' → s'.nesting = s.nesting
  | .done, s, s', h => by rw [← Option.some.inj h]
  | .line l next, s, s', h => by
    rw [Block.run] at h
    obtain ⟨s₁, h₁, h₂⟩ := Option.bind_eq_some_iff.mp h
    rw [nesting_block next h₂, nesting_selectedLine h₁]
  | .group head body tail next, s, s', h => by
    rw [Block.run] at h
    obtain ⟨⟨s₁, b⟩, h₁, h⟩ := Option.bind_eq_some_iff.mp h
    obtain ⟨s₂, h₂, h₃⟩ := Option.bind_eq_some_iff.mp h
    rw [nesting_block next h₃]
    cases b with
    | true => rw [nesting_block body h₂, nesting_condition h₁]
    | false => rw [nesting_tail tail h₂, nesting_condition h₁]
theorem nesting_tail : ∀ (t : Tail) {s s' : State}, t.run calls s = some s' → s'.nesting = s.nesting
  | .endif _, s, s', h => by rw [← Option.some.inj h]
  | .elif l body tail, s, s', h => by
    rw [Tail.run] at h
    obtain ⟨⟨s₁, b⟩, h₁, h₂⟩ := Option.bind_eq_some_iff.mp h
    cases b with
    | true => rw [nesting_block body h₂, nesting_condition h₁]
    | false => rw [nesting_tail tail h₂, nesting_condition h₁]
  | .otherwise _ body _, s, s', h => by
    rw [Tail.run] at h
    exact nesting_block body h
end

section Fixed

/-- Lines are written as they are, as without any macros. -/
def asWritten : Calls where
  defineMacroFunction s _ _ _ := some (s.macros, ⟨[], 0⟩)
  evaluate _ _ := some (some false, ⟨[], 0⟩)
  subsituteMacrosInline s l := some (s.output ++ l, ⟨[], 0⟩)

def fresh : State := ⟨fun _ => false, ∅, [], 0, []⟩

/-- A group inside a branch that is not taken. -/
def nested : Text := bytes "#ifdef A\n#ifndef B\nx\n#endif\n#else\r\ny\n#endif\n"

def nestedBlock : Block :=
  .group ⟨bytes "#ifdef A", by decide⟩
    (.group ⟨bytes "#ifndef B", by decide⟩
      (.line ⟨bytes "x", by decide, by decide, by decide⟩ .done)
      (.endif ⟨bytes "#endif", by decide⟩) .done)
    (.otherwise ⟨bytes "#else", by decide⟩
      (.line ⟨bytes "y", by decide, by decide, by decide⟩ .done)
      ⟨bytes "#endif", by decide⟩)
    .done

/-- Two definitions of one macro. -/
def redefinition : Text := bytes "#define A 1\n#define A 2\n"

def redefinitionBlock : Block :=
  .line ⟨bytes "#define A 1", by decide, by decide, by decide⟩
    (.line ⟨bytes "#define A 2", by decide, by decide, by decide⟩ .done)

end Fixed

end Cpcf.Os.Precompiler
