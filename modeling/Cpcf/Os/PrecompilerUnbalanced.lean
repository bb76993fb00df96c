import Cpcf.Os.PrecompilerLines

/-!
Conditional directives that are not nested properly, and which of them `os::Precompiler::_SubsituteFile` reports.

The main loop counts the branches that it enters, and counts up where one ends too. So it takes every `#else`, `#elif`
and `#endif` for the end of a branch as soon as one branch was entered, and at the end of the text it does not see that
the branch it is in was never closed. Only the loops that skip see that.
-/

namespace Cpcf.Os.Precompiler

open Cpcf.Rt Cpcf.Rt.Lines

/-! ### The directives of a source -/

/-- The directive that the main loop sees in a line. -/
def directive (l : Text) : Text := word (trimSpace l)

def isConditional (w : Text) : Bool := _if.isPrefixOf w || isMacroBranchCloseDirective w

/-- A line that starts with its conditional directive if it has one. -/
def AtStart (l : Text) : Prop :=
  isConditional (directive l) = true ∨ isConditional (skippedWord l) = true → 0 ∉ l ∧ l.head? = some 0x23

instance : DecidablePred AtStart := fun _ => inferInstanceAs (Decidable (_ → _))

/-- The number of groups that are open behind some lines, if each other directive stands in an open group. -/
def openGroups : ℕ → List Text → Option ℕ
  | n, [] => some n
  | n, l :: ls =>
    if directive l ∈ [_if, _ifdef, _ifndef] then openGroups (n + 1) ls
    else if isMacroBranchCloseDirective (directive l) then
      if n = 0 then none else openGroups (if directive l = _endif then n - 1 else n) ls
    else openGroups n ls

/-- The conditional directives are properly nested. -/
def Balanced (ls : List Text) : Prop := openGroups 0 ls = some 0

instance (ls : List Text) : Decidable (Balanced ls) := inferInstanceAs (Decidable (_ = _))

/-! ### What is not reported -/

/-- How it stands with an open group: a branch is still to be selected, the one that was selected goes on, or it
is over. -/
inductive Standing
  | waiting
  | selected
  | past
  deriving DecidableEq

/-- No error is found in the lines one after the other, where `entered` tells that a branch was selected before and
`groups` are the open groups, the innermost one first. A directive that is not in a group is not noticed once a branch
was entered; an `#else` or `#elif` is then taken for one that ends a selected branch. -/
def unnoticed (calls : Calls) : Bool → List Standing → State → List Text → Bool
  | _, groups, _, [] => groups.all (· = .selected)
  | entered, groups, s, l :: ls =>
    if _if.isPrefixOf (directive l) then
      if groups.all (· = .selected) then
        (branchCondition calls s (trimSpace l)).any fun (s', b) => s'.errors = s.errors &&
          unnoticed calls (entered || b) ((if b then .selected else .waiting) :: groups) s' ls
      else unnoticed calls entered (.past :: groups) s ls
    else if isMacroBranchCloseDirective (directive l) then
      match groups with
      | [] => entered && unnoticed calls entered (if directive l = _endif then [] else [.past]) s ls
      | g :: groups =>
        if directive l = _endif then unnoticed calls entered groups s ls
        else if g = .waiting then
          (branchCondition calls s (trimSpace l)).any fun (s', b) => s'.errors = s.errors &&
            unnoticed calls (entered || b) ((if b then .selected else .waiting) :: groups) s' ls
        else unnoticed calls entered (.past :: groups) s ls
    else if groups.all (· = .selected) then
      (selectedLine calls s l).any fun s' => s'.errors = s.errors && unnoticed calls entered groups s' ls
    else unnoticed calls entered groups s ls

attribute [local simp] unnoticed

/-! ### Errors stay reported -/

variable {calls : Calls} {s s' : State} {l f : Text} {ls : List Text} {k : ℕ}

theorem errors_printError (s : State) (e : Error) : s.errors <+: (s.printError e).errors := List.prefix_append _ _

theorem printError_ne (s : State) (e : Error) : (s.printError e).errors ≠ s.errors := by simp [State.printError]

theorem errors_report (s : State) (r : Report) : s.errors <+: (s.report r).errors := List.prefix_append _ _

theorem errors_defineMacro (s : State) (m v : Text) : s.errors <+: (defineMacro s m v).errors := by
  unfold defineMacro
  split
  · exact errors_printError _ _
  · split
    · split
      · exact errors_printError _ _
      · split
        · exact errors_printError _ _
        · exact List.prefix_rfl
    · exact List.prefix_rfl

theorem errors_undefineMacro (s : State) (m : Text) : s.errors <+: (undefineMacro s m).errors := by
  unfold undefineMacro
  split
  · exact errors_printError _ _
  · split
    · exact List.prefix_rfl
    · exact List.prefix_rfl

theorem errors_selectedLine (h : selectedLine calls s l = some s') : s.errors <+: s'.errors := by
  unfold selectedLine at h
  split at h
  · unfold define at h
    split at h
    · split at h
      · split at h
        · cases h
        · obtain ⟨⟨m, r⟩, -, rfl⟩ := Option.map_eq_some_iff.mp h
          exact errors_report s r
      · rw [← Option.some.inj h]
        exact errors_defineMacro _ _ _
    · rw [← Option.some.inj h]
      exact errors_defineMacro _ _ _
  · split at h
    · rw [← Option.some.inj h]
      exact errors_undefineMacro _ _
    · obtain ⟨⟨o, r⟩, -, rfl⟩ := Option.map_eq_some_iff.mp h
      exact errors_report s r

theorem errors_evalueMacroIf {d e : Text} {x : State × Option Bool} (h : evalueMacroIf calls s d e = some x) :
    s.errors <+: x.1.errors := by
  unfold evalueMacroIf at h
  split_ifs at h
  · cases h
    exact List.prefix_rfl
  · cases h
    exact List.prefix_rfl
  · cases h
    exact List.prefix_rfl
  · obtain ⟨⟨go_if, r⟩, -, rfl⟩ := Option.map_eq_some_iff.mp h
    exact errors_report s r
  · cases h
    exact errors_printError _ _

theorem errors_branchCondition {x : State × Bool} (h : branchCondition calls s l = some x) :
    s.errors <+: x.1.errors := by
  obtain ⟨⟨s₁, go_if⟩, h₁, rfl⟩ := Option.map_eq_some_iff.mp h
  have h₂ := errors_evalueMacroIf h₁
  simp only
  split
  · exact h₂.trans (errors_printError _ _)
  · exact h₂

theorem skipLines_state (s : State) (f : Text) (ls : List Text) :
    (skipLines s f ls).1 = s ∨ (skipLines s f ls).1 = s.printError .noMatchingEndif := by
  induction hn : ls.length using Nat.strong_induction_on generalizing f ls with
  | _ n ih =>
    by_cases hf : f = _endif
    · rw [hf, skipLines_endif]
      exact .inl rfl
    · cases hseek : seekLines 0 ls with
      | none =>
        rw [skipLines_missed hf hseek]
        exact .inr rfl
      | some x =>
        rw [skipLines_found hf hseek]
        exact ih _ (hn ▸ length_seekLines hseek) _ _ rfl

theorem errors_skipLines (s : State) (f : Text) (ls : List Text) : s.errors <+: (skipLines s f ls).1.errors := by
  rcases skipLines_state s f ls with h | h
  · rw [h]
  · rw [h]
    exact errors_printError _ _

theorem errors_iterateLines : ∀ {s : State} {control_line : Text} {ls : List Text} {x : State × Bool × List Text},
    iterateLines calls s control_line ls = some x → s.errors <+: x.1.errors := by
  intro s control_line ls
  induction hn : ls.length using Nat.strong_induction_on generalizing s control_line ls with
  | _ n ih =>
    intro x h
    rw [iterateLines_eq] at h
    obtain ⟨⟨s₁, b⟩, h₁, h⟩ := Option.bind_eq_some_iff.mp h
    refine (errors_branchCondition h₁).trans ?_
    cases b with
    | true =>
      cases h
      exact List.prefix_rfl
    | false =>
      rw [branchLines] at h
      cases hseek : seekLines 0 ls with
      | none =>
        rw [hseek] at h
        cases h
        exact errors_printError _ _
      | some y =>
        rw [hseek, Option.elim_some] at h
        simp only at h
        split at h
        · cases h
          exact List.prefix_rfl
        · exact ih _ (hn ▸ length_seekLines hseek) rfl h

theorem errors_branchLines {control_line : Text} {y : State × Bool} {x : State × Bool × List Text}
    (h : branchLines calls control_line ls y = some x) : y.1.errors <+: x.1.errors := by
  obtain ⟨s, _ | _⟩ := y
  · rw [branchLines] at h
    cases hseek : seekLines 0 ls with
    | none =>
      rw [hseek] at h
      cases h
      exact errors_printError _ _
    | some y =>
      rw [hseek, Option.elim_some] at h
      simp only at h
      split at h
      · cases h
        exact List.prefix_rfl
      · exact errors_iterateLines h
  · cases h
    exact List.prefix_rfl

theorem errors_loopLines : ∀ {k : ℕ} {s s' : State} {ls : List Text}, loopLines calls k s ls = some s' →
    s.errors <+: s'.errors := by
  intro k s s' ls
  induction hn : ls.length using Nat.strong_induction_on generalizing k s ls with
  | _ n ih =>
    intro h
    rcases ls with _ | ⟨l, ls⟩
    · rw [loopLines] at h
      cases h
      exact List.prefix_rfl
    rw [List.length_cons] at hn
    by_cases hif : _if.isPrefixOf (word (trimSpace l)) = true
    · rw [loopLines_open calls hif] at h
      obtain ⟨x, h₁, h⟩ := Option.bind_eq_some_iff.mp h
      have := length_iterateLines h₁
      exact (errors_iterateLines h₁).trans (ih _ (this.trans_lt (by omega)) rfl h)
    by_cases hcl : isMacroBranchCloseDirective (word (trimSpace l)) = true
    · rw [loopLines_close calls hcl, closeLines] at h
      have := length_skipLines s (word (trimSpace l)) ls
      refine (errors_skipLines s (word (trimSpace l)) ls).trans ?_
      split at h
      · exact ih _ (this.trans_lt (by omega)) rfl h
      · exact (errors_printError _ _).trans (ih _ (this.trans_lt (by omega)) rfl h)
    · rw [loopLines_line calls (Bool.eq_false_iff.mpr hif) (Bool.eq_false_iff.mpr hcl)] at h
      obtain ⟨s₁, h₁, h⟩ := Option.bind_eq_some_iff.mp h
      exact (errors_selectedLine h₁).trans (ih _ (by omega) rfl h)

/-- The loop ends, and has reported nothing. -/
def Silent (s : State) (x : Option State) : Prop := ∃ s', x = some s' ∧ s'.errors = s.errors

theorem silent_bind {α : Type} {x : Option α} {g : α → Option State} (p : α → State)
    (hx : ∀ a, x = some a → s.errors <+: (p a).errors) (hg : ∀ a s', g a = some s' → (p a).errors <+: s'.errors) :
    Silent s (x.bind g) ↔ ∃ a, x = some a ∧ (p a).errors = s.errors ∧ Silent (p a) (g a) := by
  constructor
  · rintro ⟨s', h, he⟩
    obtain ⟨a, ha, hga⟩ := Option.bind_eq_some_iff.mp h
    have h₁ := hx a ha
    have h₂ := hg a s' hga
    have heq : (p a).errors = s.errors := by
      refine (h₁.eq_of_length_le ?_).symm
      rw [← he]
      exact h₂.length_le
    exact ⟨a, ha, heq, s', hga, he.trans heq.symm⟩
  · rintro ⟨a, rfl, he, s', hga, he'⟩
    exact ⟨s', hga, he'.trans he⟩

/-! ### Line by line -/

theorem trimAfter_cons {b : UInt8} (hb : isSeparator b = false) (t : Text) : trimAfter (b :: t) = b :: trimAfter t := by
  simp [trimAfter, hb]

theorem openWord_close {w : Text} (h : _if.isPrefixOf w = true) : isMacroBranchCloseDirective w = false := by
  obtain ⟨t, rfl⟩ := List.isPrefixOf_iff_prefix.mp h
  simp [isMacroBranchCloseDirective, _if, _elif, _else, _endif]

/-- Both loops see the same directive. -/
theorem AtStart.eq (h : AtStart l) (hc : isConditional (directive l) = true ∨ isConditional (skippedWord l) = true) :
    skippedWord l = directive l ∧ (skippedWord l).head? = some 0x23 := by
  obtain ⟨h0, hhead⟩ := h hc
  obtain ⟨b, t, rfl⟩ : ∃ b t, l = b :: t := List.exists_cons_of_ne_nil (by rintro rfl; simp at hhead)
  obtain rfl : b = 0x23 := by simpa using hhead
  have hw := trimAfter_cons (b := 0x23) (by decide) t
  obtain ⟨-, hdir, -, hskip⟩ := directive_line h0 hw
  rw [skippedWord, directive, hdir, hskip]
  exact ⟨rfl, rfl⟩

/-- What the loop that skips sees of a line. -/
theorem seekLines_cons (h : AtStart l) (j : ℕ) : seekLines j (l :: ls) =
    if _if.isPrefixOf (directive l) then seekLines (j + 1) ls
    else if isMacroBranchCloseDirective (directive l) then
      if j = 0 then some (l, ls) else seekLines (if directive l = _endif then j - 1 else j) ls
    else seekLines j ls := by
  rw [seekLines]
  by_cases hc : isConditional (directive l) = true ∨ isConditional (skippedWord l) = true
  · obtain ⟨heq, hhead⟩ := h.eq hc
    rw [if_pos hhead, heq]
    by_cases hif : _if.isPrefixOf (directive l) = true
    · rw [openWord_close hif]
      simp [hif]
    · rw [if_neg hif, if_neg hif]
      by_cases hcl : isMacroBranchCloseDirective (directive l) = true
      · rw [hcl]
        by_cases hj : j = 0
        · simp [hj]
        · simp only [hj, decide_false, Bool.false_and, Bool.false_eq_true, if_false, if_true]
          split_ifs <;> rfl
      · have hend : directive l ≠ _endif := fun he => hcl (by rw [he]; decide)
        simp [hcl, hend]
  · -- neither loop sees a directive
    simp only [isConditional, Bool.or_eq_true, not_or, Bool.not_eq_true] at hc
    obtain ⟨⟨hif, hcl⟩, hif', hcl'⟩ := hc
    have hend : skippedWord l ≠ _endif := fun he => by
      rw [he] at hcl'
      exact absurd hcl' (by decide)
    simp [hif, hcl, hif', hcl', hend]

section Line

variable {entered : Bool} {groups : List Standing}

/-- Up to the end of a branch nothing is noticed where nothing is selected. -/
theorem unnoticed_seek {g : Standing} (hg : g ≠ .selected) : ∀ {ls : List Text} (j : ℕ), (∀ l ∈ ls, AtStart l) →
    unnoticed calls entered (List.replicate j .past ++ g :: groups) s ls =
      (seekLines j ls).any fun (l, ls) => unnoticed calls entered (g :: groups) s (l :: ls)
  | [], j, _ => by
    rw [unnoticed]
    simp [hg, seekLines]
  | l :: ls, j, h => by
    have hall : (List.replicate j Standing.past ++ g :: groups).all (· = .selected) = false := by simp [hg]
    have hrec := fun j => unnoticed_seek hg j fun l (hl : l ∈ ls) => h l (List.mem_cons_of_mem _ hl)
    rw [seekLines_cons (h l (List.mem_cons_self ..))]
    by_cases hif : _if.isPrefixOf (directive l) = true
    · rw [unnoticed.eq_def]
      simp only [hif, hall, if_true, Bool.false_eq_true, if_false]
      exact hrec (j + 1)
    by_cases hcl : isMacroBranchCloseDirective (directive l) = true
    · rw [if_neg hif, if_pos hcl]
      cases j with
      | zero => rfl
      | succ j =>
        rw [if_neg (Nat.succ_ne_zero j), List.replicate_succ, List.cons_append, unnoticed, if_neg hif, if_pos hcl]
        split
        · exact hrec j
        · exact hrec (j + 1)
    · rw [unnoticed.eq_def]
      simp only [hif, hcl, hall, Bool.false_eq_true, if_false]
      exact hrec j

theorem unnoticed_next {g : Standing} (hg : g ≠ .selected) (ha : ∀ l ∈ ls, AtStart l) :
    unnoticed calls entered (g :: groups) s ls =
      (seekLines 0 ls).any fun (l, ls) => unnoticed calls entered (g :: groups) s (l :: ls) := unnoticed_seek hg 0 ha

theorem mem_of_suffix {ls' : List Text} (h : ls' <:+ ls) (ha : ∀ l ∈ ls, AtStart l) : ∀ l ∈ ls', AtStart l :=
  fun l hl => ha l (h.subset hl)

/-- What is found is the end of a branch. -/
theorem seekLines_close : ∀ {ls : List Text} {j : ℕ} {x : Text × List Text}, (∀ l ∈ ls, AtStart l) →
    seekLines j ls = some x → isMacroBranchCloseDirective (directive x.1) = true
  | [], _, _, _, h => by cases h
  | l :: ls, j, x, ha, h => by
    have ha' : ∀ l ∈ ls, AtStart l := fun l hl => ha l (List.mem_cons_of_mem _ hl)
    rw [seekLines_cons (ha l (List.mem_cons_self ..))] at h
    split_ifs at h with hif hcl
    · exact seekLines_close ha' h
    · cases h
      exact hcl
    all_goals exact seekLines_close ha' h

theorem unnoticed_endif {g : Standing} (hl : directive l = _endif) :
    unnoticed calls entered (g :: groups) s (l :: ls) = unnoticed calls entered groups s ls := by
  have hif : _if.isPrefixOf _endif = false := by decide
  have hcl : isMacroBranchCloseDirective _endif = true := by decide
  rw [unnoticed, hl, hif, hcl]
  simp

theorem unnoticed_branch {g : Standing} (hcl : isMacroBranchCloseDirective (directive l) = true)
    (hl : directive l ≠ _endif) : unnoticed calls entered (g :: groups) s (l :: ls) =
      if g = .waiting then
        (branchCondition calls s (trimSpace l)).any fun (s', b) => s'.errors = s.errors &&
          unnoticed calls (entered || b) ((if b then .selected else .waiting) :: groups) s' ls
      else unnoticed calls entered (.past :: groups) s ls := by
  have hif : ¬_if.isPrefixOf (directive l) = true := fun h => by
    rw [openWord_close h] at hcl
    cases hcl
  rw [unnoticed, if_neg hif, if_pos hcl]
  simp [hl]

/-- The branches that are left are passed over. -/
theorem unnoticed_skip : ∀ {ls : List Text} {f : Text}, (∀ l ∈ ls, AtStart l) → f ≠ _endif →
    (unnoticed calls entered (.past :: groups) s ls = true ↔
      (skipLines s f ls).1 = s ∧ unnoticed calls entered groups s (skipLines s f ls).2.2 = true) := by
  intro ls f ha hf
  induction hn : ls.length using Nat.strong_induction_on generalizing f ls with
  | _ n ih =>
    rw [unnoticed_next (by decide) ha]
    cases h : seekLines 0 ls with
    | none =>
      rw [skipLines_missed hf h]
      have hne : s.printError .noMatchingEndif ≠ s := fun he => printError_ne s _ (congrArg State.errors he)
      simp [hne]
    | some x =>
      obtain ⟨l, ls'⟩ := x
      have hsuf := seekLines_suffix h
      have hcl := seekLines_close ha h
      rw [skipLines_found hf h, Option.any_some]
      change unnoticed _ _ _ _ (l :: ls') = true ↔ (skipLines s (directive l) ls').1 = s ∧
        unnoticed _ _ _ _ (skipLines s (directive l) ls').2.2 = true
      by_cases hend : directive l = _endif
      · rw [unnoticed_endif hend, hend, skipLines_endif]
        simp
      · rw [unnoticed_branch hcl hend]
        exact ih _ (hn ▸ length_seekLines h) (mem_of_suffix ((List.suffix_cons l ls').trans hsuf) ha) hend rfl

/-- How a group goes on where a condition has been reached. -/
def unnoticedCondition (calls : Calls) (entered : Bool) (groups : List Standing) (s : State) (control_line : Text)
    (ls : List Text) : Bool :=
  (branchCondition calls s control_line).any fun (s', b) => s'.errors = s.errors &&
    unnoticed calls (entered || b) ((if b then .selected else .waiting) :: groups) s' ls

/-- The main loop reports nothing just where nothing is noticed. -/
def Agrees (calls : Calls) (ls : List Text) : Prop :=
  ∀ k s groups, groups.all (· = .selected) = true → (groups ≠ [] → 0 < k) →
    (Silent s (loopLines calls k s ls) ↔ unnoticed calls (0 < k) groups s ls = true)

/-- The main loop behind the loop over the branches. -/
def afterLines (calls : Calls) (k : ℕ) : State × Bool × List Text → Option State
  | (s, entered, ls) => loopLines calls (if entered then k + 1 else k) s ls

theorem errors_afterLines {x : State × Bool × List Text} (h : afterLines calls k x = some s') :
    x.1.errors <+: s'.errors := errors_loopLines h

/-- A loop that goes on from an error is not silent. -/
theorem not_silent_printError {e : Error} (h : s.errors <+: s'.errors) :
    ¬Silent s (loopLines calls k (s'.printError e) ls) := by
  rintro ⟨s'', h', he⟩
  have hlen := (errors_loopLines h').length_le
  have hlen' := h.length_le
  rw [he] at hlen
  simp only [State.printError, List.length_append, List.length_singleton] at hlen
  omega

theorem silent_iterate {n : ℕ} (hagrees : ∀ ls : List Text, ls.length ≤ n → (∀ l ∈ ls, AtStart l) → Agrees calls ls)
    (hall : groups.all (· = .selected) = true) (hk : groups ≠ [] → 0 < k) : ∀ {ls : List Text} {s : State} {l : Text},
    ls.length ≤ n → (∀ l ∈ ls, AtStart l) → (Silent s ((iterateLines calls s l ls).bind (afterLines calls k)) ↔
      unnoticedCondition calls (0 < k) groups s l ls = true) := by
  intro ls s l hn ha
  induction hm : ls.length using Nat.strong_induction_on generalizing ls s l with
  | _ m ih =>
    rw [iterateLines_eq, Option.bind_assoc, silent_bind Prod.fst (fun _ => errors_branchCondition),
      unnoticedCondition, Option.any_eq_true]
    · refine exists_congr fun x => and_congr_right fun _ => ?_
      obtain ⟨s', b⟩ := x
      simp only [Bool.and_eq_true, decide_eq_true_eq]
      refine and_congr_right fun _ => ?_
      cases b with
      | true =>
        rw [Bool.or_true]
        exact (hagrees ls hn ha (k + 1) s' (.selected :: groups) (by simpa using hall) fun _ => k.succ_pos).trans
          (by simp)
      | false =>
        simp only [Bool.false_eq_true, if_false, Bool.or_false, branchLines]
        rw [unnoticed_next (by decide) ha]
        cases h : seekLines 0 ls with
        | none => simpa [afterLines] using not_silent_printError List.prefix_rfl
        | some x =>
          obtain ⟨l', ls'⟩ := x
          have hsuf := seekLines_suffix h
          have hcl := seekLines_close ha h
          have hlt := length_seekLines h
          have ha' := mem_of_suffix ((List.suffix_cons l' ls').trans hsuf) ha
          rw [Option.elim_some, Option.any_some]
          change Silent s' ((if directive l' = _endif then some (s', false, ls')
            else iterateLines calls s' (trimSpace l') ls').bind (afterLines calls k)) ↔
              unnoticed _ _ _ _ (l' :: ls') = true
          by_cases hend : directive l' = _endif
          · rw [if_pos hend, unnoticed_endif hend]
            exact hagrees ls' (hlt.le.trans hn) ha' k s' groups hall hk
          · rw [if_neg hend, unnoticed_branch hcl hend, if_pos rfl]
            exact ih _ (hm ▸ hlt) (hlt.le.trans hn) ha' rfl
    · intro x s' h
      obtain ⟨y, hy, hafter⟩ := Option.bind_eq_some_iff.mp h
      exact (errors_branchLines hy).trans (errors_afterLines hafter)

theorem silent_skip {n : ℕ} (hagrees : ∀ ls : List Text, ls.length ≤ n → (∀ l ∈ ls, AtStart l) → Agrees calls ls)
    (hall : groups.all (· = .selected) = true) (hk : 0 < k) (f : Text) (hn : ls.length ≤ n) (ha : ∀ l ∈ ls, AtStart l) :
    Silent s (loopLines calls (k + 1) (skipLines s f ls).1 (skipLines s f ls).2.2) ↔
      unnoticed calls (0 < k) (if f = _endif then groups else .past :: groups) s ls = true := by
  have hagrees' : ∀ ls', ls'.length ≤ n → (∀ l ∈ ls', AtStart l) →
      (Silent s (loopLines calls (k + 1) s ls') ↔ unnoticed calls (0 < k) groups s ls' = true) := by
    intro ls' hn ha
    simpa [hk] using hagrees ls' hn ha (k + 1) s groups hall fun _ => k.succ_pos
  by_cases hf : f = _endif
  · rw [if_pos hf, hf, skipLines_endif]
    exact hagrees' ls hn ha
  · rw [if_neg hf, unnoticed_skip ha hf]
    rcases skipLines_state s f ls with h | h
    · rw [h, hagrees' _ ((length_skipLines s f ls).trans hn) (mem_of_suffix (skipLines_suffix s f ls) ha)]
      simp
    · rw [h]
      refine iff_of_false (not_silent_printError List.prefix_rfl) fun h' => ?_
      exact printError_ne s _ (congrArg State.errors h'.1)

/-- Nothing is reported just where nothing is noticed. -/
theorem agrees_lines : ∀ (n : ℕ) (ls : List Text), ls.length ≤ n → (∀ l ∈ ls, AtStart l) → Agrees calls ls := by
  intro n
  induction n with
  | zero =>
    intro ls hn _ k s groups hall _
    obtain rfl := List.length_eq_zero_iff.mp (Nat.le_zero.mp hn)
    rw [loopLines, unnoticed]
    exact iff_of_true ⟨s, rfl, rfl⟩ hall
  | succ n ih =>
    intro ls hn ha k s groups hall hk
    rcases ls with _ | ⟨l, ls⟩
    · rw [loopLines, unnoticed]
      exact iff_of_true ⟨s, rfl, rfl⟩ hall
    have ha' : ∀ l ∈ ls, AtStart l := fun l hl => ha l (List.mem_cons_of_mem _ hl)
    have hn' : ls.length ≤ n := Nat.le_of_succ_le_succ hn
    by_cases hif : _if.isPrefixOf (directive l) = true
    · rw [loopLines_open calls hif, unnoticed.eq_def]
      simp only [hif, hall, if_true]
      exact silent_iterate ih hall hk hn' ha'
    by_cases hcl : isMacroBranchCloseDirective (directive l) = true
    · have hclose : loopLines calls k s (l :: ls) = closeLines calls k (skipLines s (directive l) ls) :=
        loopLines_close calls hcl
      rw [hclose, closeLines, unnoticed.eq_def]
      simp only [hif, hcl, if_true, Bool.false_eq_true, if_false]
      rcases groups with _ | ⟨g, groups⟩
      · rcases Nat.eq_zero_or_pos k with rfl | hpos
        · simpa using not_silent_printError (errors_skipLines s _ ls)
        · simpa [hpos] using silent_skip ih hall hpos (directive l) hn' ha'
      · have hpos := hk (List.cons_ne_nil g groups)
        obtain ⟨rfl, hall'⟩ : g = .selected ∧ groups.all (· = .selected) = true := by simpa using hall
        rw [if_pos hpos]
        refine (silent_skip ih hall' hpos (directive l) hn' ha').trans ?_
        by_cases hend : directive l = _endif
        · simp [hend]
        · simp [hend]
    · rw [loopLines_line calls (Bool.eq_false_iff.mpr hif) (Bool.eq_false_iff.mpr hcl), unnoticed.eq_def]
      simp only [hif, hcl, hall, if_true, Bool.false_eq_true, if_false]
      rw [silent_bind (g := fun s => loopLines calls k s ls) id (fun _ => errors_selectedLine)
        (fun _ _ => errors_loopLines), Option.any_eq_true]
      refine exists_congr fun s' => and_congr_right fun _ => ?_
      rw [Bool.and_eq_true, decide_eq_true_eq]
      exact and_congr_right fun _ => ih ls hn' ha' k s' groups hall hk

end Line

section Fixed

/-- A group that is skipped and not closed. -/
def unclosedSkipped : Text := bytes "#ifdef A\nx\n#else\n#ifdef B\n#endif\n#elif C\n"

/-- One `#endif` too many, behind a branch that was entered. -/
def surplus : Text := bytes "#ifndef A\n#endif\n#endif\n"

/-- A group that is not closed, in the branch that is entered. -/
def unclosed : Text := bytes "#ifndef A\nx\n"

end Fixed

end Cpcf.Os.Precompiler
