import Cpcf.Rt.SplitFields

/-!
`ResolveRelativePath` against the normalisation of a path.

The source keeps the open segments on a stack, and the normalisation is a stack machine as well. The two differ in
what takes the top segment off: in the source every segment of two characters that starts with a dot does, and `..`
also takes off the empty segment that marks an absolute path. Once they differ, the stack of the source has fewer
segments, until that of the normalisation gets empty. The segments that are left are then moved to the front of the
buffer they are slices of.
-/

namespace Cpcf.Rt.StringRef

open Cpcf.Lib.Memory Cpcf.Lib.Word

/-! ### Adjacent separators -/

/-- A text without the separators that follow a separator; with `skip` it does follow one. -/
def merged (sep : UInt8 → Bool) : Bool → List UInt8 → List UInt8
  | _, [] => []
  | skip, c :: t =>
    if sep c then if skip then merged sep true t else c :: merged sep true t
    else c :: merged sep false t

section

variable {m : Mem} {sep : UInt8 → Bool} {merge : Bool}

/-- The texts of the fields of `Split<true>`. -/
theorem pieces_texts (sep : UInt8 → Bool) {start p : ℕ} (skip : Bool) (pre : List UInt8) {t : List UInt8}
    (h : Holds m start (pre ++ t)) (hp : p = start + pre.length) (hpre : ∀ c ∈ pre, sep c = false)
    (hskip : skip = true → pre = []) :
    (pieces sep true start p skip t).map (fun x => read m x.1 (x.2 - x.1)) =
      (pre ++ merged sep skip t).splitOnP sep := by
  induction t generalizing start p skip pre with
  | nil =>
    rw [List.append_nil] at h
    rw [pieces, merged, List.append_nil, List.splitOnP_eq_singleton hpre, hp]
    simp [h.read_eq]
  | cons c t ih =>
    rw [pieces, merged]
    by_cases hsep : sep c = true
    · obtain ⟨hfield, hrest⟩ := holds_append.mp h
      have hnext := ih (p := p + 1) true [] (by rw [hp]; exact hrest.2) rfl (by simp) fun _ => rfl
      rw [if_pos hsep, if_pos hsep]
      cases skip with
      | true =>
        rw [if_pos rfl, if_pos rfl, hskip rfl]
        exact hnext
      | false =>
        rw [if_neg Bool.false_ne_true, if_neg Bool.false_ne_true, List.map_cons, hnext,
          List.splitOnP_append_cons_of_forall_mem hpre c hsep, hp, Nat.add_sub_cancel_left, hfield.read_eq]
        rfl
    · have hmove : ∀ u, pre ++ c :: u = pre ++ [c] ++ u := fun u => by simp
      rw [if_neg hsep, if_neg hsep, hmove]
      rw [hmove] at h
      have hlen : p + 1 = start + (pre ++ [c]).length := by
        rw [List.length_append, List.length_singleton]
        omega
      refine ih false (pre ++ [c]) h hlen ?_ fun hf => absurd hf Bool.false_ne_true
      intro b hb
      rcases List.mem_append.mp hb with hb | hb
      · exact hpre b hb
      · rw [List.mem_singleton.mp hb]
        simpa using hsep

/-- The fields stand one behind the other. -/
theorem pieces_pairwise {start p : ℕ} (skip : Bool) (t : List UInt8) (hstart : start ≤ p) :
    (pieces sep merge start p skip t).Pairwise fun x y => x.2 < y.1 := by
  induction t generalizing start p skip with
  | nil => exact List.pairwise_singleton _ _
  | cons c t ih =>
    rw [pieces]
    split
    · split
      · exact ih true le_rfl
      · refine List.pairwise_cons.mpr ⟨fun y hy => ?_, ih merge le_rfl⟩
        exact (pieces_bounds merge t le_rfl hy).1
    · exact ih false (by omega)

/-- A separator ends a field, or the text does. -/
theorem pieces_sep {start p : ℕ} {skip : Bool} {t : List UInt8} (h : Holds m p t) {x : ℕ × ℕ}
    (hx : x ∈ pieces sep merge start p skip t) (hend : x.2 < p + t.length) : sep (m x.2) = true := by
  induction t generalizing start p skip with
  | nil =>
    rw [pieces, List.mem_singleton] at hx
    rw [hx] at hend
    exact absurd hend (lt_irrefl p)
  | cons c t ih =>
    obtain ⟨hc, ht⟩ := h
    rw [List.length_cons, ← Nat.add_assoc, Nat.add_right_comm] at hend
    rw [pieces] at hx
    split at hx
    · rename_i hsep
      split at hx
      · exact ih ht hx hend
      · rcases List.mem_cons.mp hx with rfl | hx
        · rw [hc]
          exact hsep
        · exact ih ht hx hend
    · exact ih ht hx hend

theorem mem_splitOnP (sep : UInt8 → Bool) {xs s : List UInt8} (hs : s ∈ xs.splitOnP sep) {c : UInt8}
    (hc : c ∈ s) : sep c = false := by
  induction xs generalizing s with
  | nil =>
    rw [List.splitOnP_nil, List.mem_singleton] at hs
    rw [hs] at hc
    cases hc
  | cons x xs ih =>
    rw [List.splitOnP_cons_eq_if_modifyHead] at hs
    split at hs
    · rcases List.mem_cons.mp hs with rfl | hs
      · cases hc
      · exact ih hs hc
    · rename_i hx
      obtain ⟨a, l, hal⟩ := List.exists_cons_of_ne_nil (List.splitOnP_ne_nil sep xs)
      rw [hal, List.modifyHead_cons] at hs
      rcases List.mem_cons.mp hs with rfl | hs
      · rcases List.mem_cons.mp hc with rfl | hc
        · simpa using hx
        · exact ih (s := a) (by rw [hal]; exact List.mem_cons_self) hc
      · exact ih (by rw [hal]; exact List.mem_cons_of_mem _ hs) hc

end

/-! ### The stacks -/

/-- The segments of a path. -/
def pathNames (t : List UInt8) : List (List UInt8) := (merged (· == Ch.slash) false t).splitOn Ch.slash

/-- A segment of a path normalised. The empty segment of an absolute path stays. -/
def normStep (kept : List (List UInt8)) (s : List UInt8) : List (List UInt8) :=
  if s = [dot] then kept
  else if s = [dot, dot] then if kept = [[]] then kept else kept.dropLast
  else kept ++ [s]

/-- The segments of the normalised path. -/
def norm (segs : List (List UInt8)) : List (List UInt8) := segs.foldl normStep []

/-- The normalised path. -/
def normalize (t : List UInt8) : List UInt8 := [Ch.slash].intercalate (norm (pathNames t))

/-- What the source does with a segment. -/
def openStep (kept : List (List UInt8)) (s : List UInt8) : List (List UInt8) :=
  if s = [dot] then kept
  else if s.length = 2 ∧ s.head? = some dot then kept.dropLast
  else kept ++ [s]

/-- The segments that are open at the end. -/
def opened (segs : List (List UInt8)) : List (List UInt8) := segs.foldl openStep []

/-- A segment with which the source does something else, with these segments of the normalised path before it. -/
def Misread (kept : List (List UInt8)) (s : List UInt8) : Prop :=
  s.length = 2 ∧ s.head? = some dot ∧ (s = [dot, dot] → kept = [[]])

instance (kept : List (List UInt8)) (s : List UInt8) : Decidable (Misread kept s) :=
  inferInstanceAs (Decidable (_ ∧ _ ∧ (_ → _)))

/-- After each misread segment there is a place up to which nothing is left of the path, or only the empty segment of
an absolute path is left at the end. -/
def Harmless (segs : List (List UInt8)) : Prop :=
  norm segs = [[]] ∨
    ∀ i, (hi : i < segs.length) → Misread (norm (segs.take i)) segs[i] →
      ∃ j ≤ segs.length, i < j ∧ norm (segs.take j) = []

instance (segs : List (List UInt8)) : Decidable (Harmless segs) := inferInstanceAs (Decidable (_ ∨ ∀ _ _, _ → _))

section

variable {segs kept stack : List (List UInt8)} {s : List UInt8}

theorem norm_take_succ {i : ℕ} (hi : i < segs.length) :
    norm (segs.take (i + 1)) = normStep (norm (segs.take i)) segs[i] := by
  rw [norm, List.take_succ_eq_append_getElem hi, List.foldl_append, ← norm, List.foldl_cons, List.foldl_nil]

theorem opened_take_succ {i : ℕ} (hi : i < segs.length) :
    opened (segs.take (i + 1)) = openStep (opened (segs.take i)) segs[i] := by
  rw [opened, List.take_succ_eq_append_getElem hi, List.foldl_append, ← opened, List.foldl_cons, List.foldl_nil]

theorem openStep_eq (h : ¬ Misread kept s) : openStep kept s = normStep kept s := by
  unfold openStep normStep
  by_cases hone : s = [dot]
  · rw [if_pos hone, if_pos hone]
  · rw [if_neg hone, if_neg hone]
    by_cases htwo : s.length = 2 ∧ s.head? = some dot
    · have hboth : s = [dot, dot] ∧ kept ≠ [[]] := by
        by_contra hnot
        exact h ⟨htwo.1, htwo.2, fun hs => by_contra fun hk => hnot ⟨hs, hk⟩⟩
      rw [if_pos htwo, if_pos hboth.1, if_neg hboth.2]
    · have hne : s ≠ [dot, dot] := fun hs => htwo (by rw [hs]; exact ⟨rfl, rfl⟩)
      rw [if_neg htwo, if_neg hne]

/-- A misread segment leaves fewer segments open. -/
theorem openStep_lt_of_misread (h : Misread kept s) (hle : stack.length ≤ kept.length) :
    (openStep stack s).length < (normStep kept s).length := by
  obtain ⟨hlen, hhead, hroot⟩ := h
  have hone : s ≠ [dot] := fun hs => by rw [hs] at hlen; exact absurd hlen (by decide)
  rw [openStep, normStep, if_neg hone, if_neg hone, if_pos ⟨hlen, hhead⟩, List.length_dropLast]
  split
  · rename_i htwo
    rw [if_pos (hroot htwo)]
    have hone := congrArg List.length (hroot htwo)
    rw [List.length_singleton] at hone
    omega
  · rw [List.length_append, List.length_singleton]
    omega

/-- With fewer segments open there are fewer after any segment, unless none is left. -/
theorem openStep_lt (hlt : stack.length < kept.length) (s : List UInt8) :
    (openStep stack s).length < (normStep kept s).length ∨ openStep stack s = [] ∧ normStep kept s = [] := by
  by_cases hm : Misread kept s
  · exact Or.inl (openStep_lt_of_misread hm (by omega))
  · have hstep := openStep_eq hm
    unfold openStep normStep at *
    by_cases hone : s = [dot]
    · rw [if_pos hone, if_pos hone]
      exact Or.inl hlt
    · rw [if_neg hone, if_neg hone] at *
      by_cases htwo : s.length = 2 ∧ s.head? = some dot
      · rw [if_pos htwo] at *
        rw [← hstep]
        by_cases hlast : kept.length = 1
        · have hs : stack = [] := List.length_eq_zero_iff.mp (by omega)
          obtain ⟨a, rfl⟩ := List.length_eq_one_iff.mp hlast
          exact Or.inr ⟨by rw [hs]; rfl, rfl⟩
        · left
          rw [List.length_dropLast, List.length_dropLast]
          omega
      · rw [if_neg htwo] at *
        rw [← hstep, List.length_append, List.length_append]
        exact Or.inl (by omega)

/-- The two stacks are the same or the one of the source has fewer segments. -/
theorem opened_cases (segs : List (List UInt8)) {j : ℕ} (hj : j ≤ segs.length) :
    opened (segs.take j) = norm (segs.take j) ∨ (opened (segs.take j)).length < (norm (segs.take j)).length := by
  induction j with
  | zero => exact Or.inl rfl
  | succ j ih =>
    have hi : j < segs.length := by omega
    rw [opened_take_succ hi, norm_take_succ hi]
    rcases ih (by omega) with heq | hlt
    · by_cases hm : Misread (norm (segs.take j)) segs[j]
      · exact Or.inr (openStep_lt_of_misread hm (by rw [heq]))
      · left
        rw [heq]
        exact openStep_eq hm
    · rcases openStep_lt hlt segs[j] with h | ⟨h1, h2⟩
      · exact Or.inr h
      · exact Or.inl (h1.trans h2.symm)

/-- Where they differ, a segment was misread and something has been left of the path ever since. -/
theorem exists_misread {j : ℕ} (hj : j ≤ segs.length) (hne : opened (segs.take j) ≠ norm (segs.take j)) :
    ∃ i, ∃ hi : i < segs.length, i < j ∧ Misread (norm (segs.take i)) segs[i] ∧
      ∀ k, i < k → k ≤ j → norm (segs.take k) ≠ [] := by
  induction j with
  | zero => exact absurd rfl hne
  | succ j ih =>
    have hi : j < segs.length := by omega
    have hlast : norm (segs.take (j + 1)) ≠ [] := by
      intro hnil
      rcases opened_cases segs hj with heq | hlt
      · exact hne heq
      · rw [hnil] at hlt
        exact absurd hlt (Nat.not_lt_zero _)
    by_cases hprev : opened (segs.take j) = norm (segs.take j)
    · refine ⟨j, hi, Nat.lt_succ_self j, ?_, fun k h1 h2 => ?_⟩
      · by_contra hm
        rw [opened_take_succ hi, norm_take_succ hi, hprev] at hne
        exact hne (openStep_eq hm)
      · obtain rfl : k = j + 1 := by omega
        exact hlast
    · obtain ⟨i, hi', hij, hm, hall⟩ := ih (by omega) hprev
      refine ⟨i, hi', by omega, hm, fun k h1 h2 => ?_⟩
      rcases Nat.lt_or_eq_of_le h2 with hlt | rfl
      · exact hall k h1 (by omega)
      · exact hlast

/-- A misread segment makes them differ for as long as something is left of the path. -/
theorem opened_lt_of_misread {i j : ℕ} (hi : i < segs.length) (hm : Misread (norm (segs.take i)) segs[i])
    (hij : i < j) (hj : j ≤ segs.length) (hall : ∀ k, i < k → k ≤ j → norm (segs.take k) ≠ []) :
    (opened (segs.take j)).length < (norm (segs.take j)).length := by
  induction j with
  | zero => omega
  | succ j ih =>
    have hj' : j < segs.length := by omega
    rw [opened_take_succ hj', norm_take_succ hj']
    rcases Nat.lt_or_eq_of_le (Nat.le_of_lt_succ hij) with hlt | rfl
    · have hprev := ih hlt (by omega) fun k h1 h2 => hall k h1 (by omega)
      rcases openStep_lt hprev segs[j] with h | ⟨-, h⟩
      · exact h
      · rw [← norm_take_succ hj'] at h
        exact absurd h (hall (j + 1) hij le_rfl)
    · refine openStep_lt_of_misread hm ?_
      rcases opened_cases segs hi.le with heq | hlt
      · rw [heq]
      · exact hlt.le

/-- Paths of segments without a separator in them. -/
theorem intercalate_inj {a b : List (List UInt8)} (ha : ∀ s ∈ a, Ch.slash ∉ s) (hb : ∀ s ∈ b, Ch.slash ∉ s)
    (h : [Ch.slash].intercalate a = [Ch.slash].intercalate b) : a = b ∨ a = [] ∧ b = [[]] ∨ a = [[]] ∧ b = [] := by
  have hsplit : ∀ l : List (List UInt8), (∀ s ∈ l, Ch.slash ∉ s) →
      ([Ch.slash].intercalate l).splitOn Ch.slash = if l = [] then [[]] else l := by
    intro l hl
    split
    · rename_i hnil
      rw [hnil]
      rfl
    · rename_i hne
      exact List.splitOn_intercalate _ hl hne
  have hlist := hsplit a ha
  rw [h, hsplit b hb] at hlist
  split at hlist
  · rename_i hb0
    split at hlist
    · rename_i ha0
      exact Or.inl (ha0.trans hb0.symm)
    · exact Or.inr (Or.inr ⟨hlist.symm, hb0⟩)
  · split at hlist
    · rename_i ha0
      exact Or.inr (Or.inl ⟨ha0, hlist⟩)
    · exact Or.inl hlist.symm

theorem opened_eq_norm_iff (hsegs : ∀ s ∈ norm segs, Ch.slash ∉ s) (hopen : ∀ s ∈ opened segs, Ch.slash ∉ s) :
    [Ch.slash].intercalate (opened segs) = [Ch.slash].intercalate (norm segs) ↔ Harmless segs := by
  have hcases := opened_cases segs le_rfl
  rw [List.take_length] at hcases
  constructor
  · intro h
    by_contra hnot
    obtain ⟨hroot, hmis⟩ := not_or.mp hnot
    push Not at hmis
    obtain ⟨i, hi, hm, hall⟩ := hmis
    have hlt := opened_lt_of_misread hi hm hi le_rfl fun k h1 h2 => hall k h2 h1
    rw [List.take_length] at hlt
    rcases intercalate_inj hopen hsegs h with heq | ⟨-, h2⟩ | ⟨-, h2⟩
    · rw [heq] at hlt
      exact absurd hlt (lt_irrefl _)
    · exact hroot h2
    · rw [h2] at hlt
      exact absurd hlt (Nat.not_lt_zero _)
  · rintro (hroot | hall)
    · rcases hcases with heq | hlt
      · rw [heq]
      · rw [hroot, List.length_singleton, Nat.lt_one_iff, List.length_eq_zero_iff] at hlt
        rw [hroot, hlt]
        rfl
    · by_cases heq : opened segs = norm segs
      · rw [heq]
      · obtain ⟨i, hi, -, hm, hno⟩ := exists_misread (j := segs.length) le_rfl (by rw [List.take_length]; exact heq)
        obtain ⟨j, hj, hij, hnil⟩ := hall i hi hm
        exact absurd hnil (hno j hij hj)

end

/-! ### The fields -/

theorem single_slash_has (c : UInt8) : (CharacterSet.single Ch.slash).has c = (c == Ch.slash) := by
  unfold CharacterSet.has CharacterSet.entry
  by_cases hc : c = Ch.slash
  · rw [hc]
    rfl
  · have hnat : c.toNat ≠ 47 := fun h => hc (UInt8.toNat_inj.mp h)
    rw [beq_false_of_ne hc]
    split
    · simp [CharacterSet.single, CharacterSet.init, hnat]
    · rfl

/-- One field stands before another one and ends at a separator. -/
def Before (m : Mem) (d e : Ref) : Prop := d.stop < e.p ∧ m d.stop = Ch.slash

/-- What stays of the fields. -/
theorem resolveLoop_sublist (m : Mem) (kept ds : List Ref) : (resolveLoop m kept ds).Sublist (kept ++ ds) := by
  induction ds generalizing kept with
  | nil => rw [resolveLoop, List.append_nil]
  | cons d ds ih =>
    rw [resolveLoop]
    split
    · exact (ih kept).trans ((List.Sublist.refl kept).append (List.sublist_cons_self d ds))
    · split
      · exact (ih _).trans ((List.dropLast_sublist kept).append (List.sublist_cons_self d ds))
      · refine (ih _).trans ?_
        rw [List.append_assoc, List.singleton_append]

section

variable {m : Mem} {r : Ref}

theorem text_eq_singleton_iff {d : Ref} {c : UInt8} : d.text m = [c] ↔ d.getLength = 1 ∧ m d.p = c := by
  rw [Ref.text]
  constructor
  · intro h
    have hlen := congrArg List.length h
    rw [length_read, List.length_singleton] at hlen
    rw [hlen] at h
    exact ⟨hlen, (List.cons.inj h).1⟩
  · rintro ⟨hlen, hc⟩
    rw [hlen, ← hc]
    rfl

theorem head?_text {d : Ref} (h : d.getLength = 2) : (d.text m).head? = some (m d.p) := by
  rw [Ref.text, h]
  rfl

theorem resolveLoop_texts (kept ds : List Ref) :
    (resolveLoop m kept ds).map (fun d => d.text m) =
      (ds.map fun d => d.text m).foldl openStep (kept.map fun d => d.text m) := by
  induction ds generalizing kept with
  | nil => rfl
  | cons d ds ih =>
    have hlen : (d.text m).length = d.getLength := length_read _ _ _
    rw [resolveLoop, List.map_cons, List.foldl_cons, openStep, hlen]
    by_cases hone : d.getLength = 1 ∧ m d.p = dot
    · rw [if_pos hone, if_pos (text_eq_singleton_iff.mpr hone)]
      exact ih kept
    · rw [if_neg hone, if_neg fun h => hone (text_eq_singleton_iff.mp h)]
      by_cases htwo : d.getLength = 2 ∧ m d.p = dot
      · rw [if_pos ⟨htwo.1, htwo.2, htwo.2⟩, if_pos ⟨htwo.1, (head?_text htwo.1).trans (congrArg some htwo.2)⟩, ih,
          List.map_dropLast]
      · have hnot : ¬ (d.getLength = 2 ∧ (d.text m).head? = some dot) := by
          rintro ⟨h2, hhead⟩
          rw [head?_text h2] at hhead
          exact htwo ⟨h2, Option.some.inj hhead⟩
        rw [if_neg fun h => htwo ⟨h.1, h.2.1⟩, if_neg hnot, ih, List.map_append]
        rfl

/-- The fields of a path are its segments. -/
theorem split_path (hne : ¬ r.isEmpty = true) (hq : ∀ c ∈ r.text m, c ≠ Ch.dquote ∧ c ≠ Ch.squote)
    (hfew : (pathNames (r.text m)).length < 256) (hsize : ∀ s ∈ pathNames (r.text m), IntLength s.length) :
    ∃ ds, split m r true Ch.dquote Ch.squote 256 (CharacterSet.single Ch.slash) = ds ∧
      ds.map (fun d => d.text m) = pathNames (r.text m) ∧ ds.Pairwise (Before m) ∧ ∀ d ∈ ds, r.p ≤ d.p := by
  have hhas : (CharacterSet.single Ch.slash).has = (· == Ch.slash) := funext single_slash_has
  have hold : Holds m r.p (r.text m) := holds_read _ _ _
  have htexts := pieces_texts (· == Ch.slash) false [] (t := r.text m) hold rfl (by simp)
    (by simp)
  rw [List.nil_append, ← List.splitOn_eq_splitOnP, List.length_nil, Nat.add_zero] at htexts
  rw [split_eq hne hq (by decide), hhas]
  have hcount := congrArg List.length htexts
  rw [List.length_map] at hcount
  rw [List.take_of_length_le (by rw [hcount]; exact hfew.le)]
  have hlen : ∀ x ∈ pieces (· == Ch.slash) true r.p r.p false (r.text m),
      (Ref.ofEnds x.1 x.2).getLength = x.2 - x.1 := by
    intro x hx
    obtain ⟨-, h2, -⟩ := pieces_bounds false _ le_rfl hx
    have hint : IntLength (x.2 - x.1) := by
      have := hsize (read m x.1 (x.2 - x.1)) (by rw [pathNames, ← htexts]; exact List.mem_map_of_mem hx)
      rwa [length_read] at this
    have := ofEnds_getLength x.1 hint
    rwa [Nat.add_sub_cancel' h2] at this
  have hstop : ∀ x ∈ pieces (· == Ch.slash) true r.p r.p false (r.text m), (Ref.ofEnds x.1 x.2).stop = x.2 := by
    intro x hx
    obtain ⟨-, h2, -⟩ := pieces_bounds false _ le_rfl hx
    rw [Ref.stop, hlen x hx, ofEnds_p, Nat.add_sub_cancel' h2]
  refine ⟨_, rfl, ?_, ?_, ?_⟩
  · rw [List.map_map, pathNames, ← htexts]
    refine List.map_congr_left fun x hx => ?_
    rw [Function.comp_apply, Ref.text, hlen x hx, ofEnds_p]
  · rw [List.pairwise_map]
    refine (pieces_pairwise false (r.text m) le_rfl).imp_of_mem ?_
    intro x y hx hy hlt
    obtain ⟨-, hy1, hy2⟩ := pieces_bounds false _ le_rfl hy
    have hsep := pieces_sep hold hx (by omega)
    exact ⟨by rw [hstop x hx]; exact hlt, by rw [hstop x hx]; exact beq_iff_eq.mp hsep⟩
  · intro d hd
    obtain ⟨x, hx, rfl⟩ := List.mem_map.mp hd
    exact (pieces_bounds false _ le_rfl hx).1

/-! ### The segments moved -/

/-- The number of characters of the segments with one behind each. -/
def span (ds : List Ref) : ℕ := (ds.map fun d => d.getLength + 1).sum

theorem span_cons (d : Ref) (ds : List Ref) : span (d :: ds) = d.getLength + 1 + span ds := by
  rw [span, List.map_cons, List.sum_cons, span]

theorem length_intercalate (ds : List Ref) :
    ([Ch.slash].intercalate (ds.map fun d => d.text m)).length = span ds - 1 := by
  induction ds with
  | nil => rfl
  | cons d ds ih =>
    cases ds with
    | nil => simp [span, Ref.text]
    | cons e ds =>
      rw [List.map_cons] at ih ⊢
      rw [List.map_cons, List.intercalate_cons_cons, span_cons, List.length_append, List.length_append, ih, Ref.text,
        length_read, List.length_singleton, span_cons]
      omega

/-- What the segments become. -/
structure Placed (m : Mem) (p : ℕ) (ds : List Ref) (t : Mem × ℕ) : Prop where
  below : ∀ a < p, t.1 a = m a
  stop : t.2 = p + span ds
  holds : Holds t.1 p ([Ch.slash].intercalate (ds.map fun d => d.text m))

/-- A segment at `p`, and a separator when more segments come behind it. -/
theorem Placed.cons {m' : Mem} {p : ℕ} {d : Ref} {ds : List Ref} {t : Mem × ℕ}
    (h : Placed m' (p + (d.getLength + 1)) ds t) (hbelow : ∀ a < p, m' a = m a) (hd : Holds m' p (d.text m))
    (hsep : ds ≠ [] → m' (p + d.getLength) = Ch.slash) (hds : ∀ e ∈ ds, e.text m' = e.text m) :
    Placed m p (d :: ds) t := by
  have hlen : (d.text m).length = d.getLength := length_read _ _ _
  have hfirst : Holds t.1 p (d.text m) := hd.congr fun a h1 h2 => h.below a (by omega)
  refine ⟨fun a ha => (h.below a (by omega)).trans (hbelow a ha), ?_, ?_⟩
  · rw [h.stop, span_cons]
    omega
  · cases ds with
    | nil => simpa using hfirst
    | cons e ds =>
      have hrest := h.holds
      rw [List.map_congr_left hds, ← Nat.add_assoc] at hrest
      rw [List.map_cons, List.map_cons, List.intercalate_cons_cons, List.append_assoc, holds_append, hlen]
      refine ⟨hfirst, ?_, hrest⟩
      rw [h.below _ (by omega)]
      exact hsep (List.cons_ne_nil e ds)

/-- The segments are moved to the left, so that none is overwritten before it is moved. -/
theorem placeLoop_placed {p : ℕ} {ds : List Ref} (hp : ∀ d ∈ ds, p ≤ d.p) (hpair : ds.Pairwise (Before m)) :
    Placed m p ds (placeLoop m p ds) := by
  induction ds generalizing m p with
  | nil => exact ⟨fun a _ => rfl, rfl, trivial⟩
  | cons d ds ih =>
    obtain ⟨hfirst, hrest⟩ := List.pairwise_cons.mp hpair
    have hdp := hp d List.mem_cons_self
    have hlen : (read m d.p d.getLength).length = d.getLength := length_read _ _ _
    have hnext : ∀ e ∈ ds, p + (d.getLength + 1) ≤ e.p := by
      intro e he
      have hlt := (hfirst e he).1
      rw [Ref.stop] at hlt
      omega
    rw [placeLoop]
    generalize hm' : (if ds.isEmpty then memcpy m p (read m d.p d.getLength)
      else poke (memcpy m p (read m d.p d.getLength)) (p + (d.getLength + 1) - 1) Ch.slash) = m'
    have hsame : ∀ a, a ≠ p + d.getLength → m' a = memcpy m p (read m d.p d.getLength) a := by
      intro a ha
      rw [← hm']
      split
      · rfl
      · exact poke_other _ _ (by omega)
    have houtside : ∀ a, a < p ∨ p + (d.getLength + 1) ≤ a → m' a = m a := by
      intro a ha
      rw [hsame a (by omega)]
      exact memcpy_outside _ _ (by omega)
    have hpair' : ds.Pairwise (Before m') := by
      refine hrest.imp_of_mem fun {a b} ha hb hab => ⟨hab.1, ?_⟩
      rw [houtside _ (Or.inr ?_)]
      · exact hab.2
      · have := hnext a ha
        rw [Ref.stop]
        omega
    refine (ih hnext hpair').cons (fun a ha => houtside a (Or.inl ha)) ?_ ?_ ?_
    · refine (holds_memcpy m p (read m d.p d.getLength)).congr fun a h1 h2 => hsame a (by omega)
    · intro hne
      rw [← hm', if_neg (by simpa using hne)]
      exact poke_same _ _ _
    · intro e he
      have := hnext e he
      exact read_congr fun a h1 h2 => houtside a (by omega)

/-- Segments that are in their place stay there. -/
theorem skipLoop_placed {p : ℕ} {ds : List Ref} (hp : ∀ d ∈ ds, p ≤ d.p) (hpair : ds.Pairwise (Before m)) :
    Placed m p ds (placeLoop m (skipLoop p ds).1 (skipLoop p ds).2) := by
  induction ds generalizing p with
  | nil => exact ⟨fun a _ => rfl, rfl, trivial⟩
  | cons d ds ih =>
    rw [skipLoop]
    split
    · rename_i hdp
      obtain ⟨hfirst, hrest⟩ := List.pairwise_cons.mp hpair
      have hnext : ∀ e ∈ ds, p + (d.getLength + 1) ≤ e.p := by
        intro e he
        have hlt := (hfirst e he).1
        rw [Ref.stop] at hlt
        omega
      refine (ih hnext hrest).cons (fun a _ => rfl) ?_ ?_ fun e _ => rfl
      · rw [hdp]
        exact holds_read _ _ _
      · intro hne
        obtain ⟨e, es, rfl⟩ := List.exists_cons_of_ne_nil hne
        rw [hdp]
        exact (hfirst e List.mem_cons_self).2
    · exact placeLoop_placed hp hpair

/-- The path that `ResolveRelativePath` leaves. -/
theorem resolveRelativePath_text (hnull : r.p = 0 → r.len < 2)
    (hq : ∀ c ∈ r.text m, c ≠ Ch.dquote ∧ c ≠ Ch.squote)
    (hfew : (pathNames (r.text m)).length < 256) (hsize : ∀ s ∈ pathNames (r.text m), IntLength s.length) :
    (resolveRelativePath m r).2.text (resolveRelativePath m r).1 =
      [Ch.slash].intercalate (opened (pathNames (r.text m))) := by
  by_cases hne : r.isEmpty = true
  · have hlen : r.getLength = 0 := by
      rw [Ref.isEmpty, Bool.or_eq_true, decide_eq_true_eq, decide_eq_true_eq] at hne
      rw [Ref.getLength]
      omega
    have htext : r.text m = [] := by
      rw [Ref.text, hlen]
      rfl
    rw [htext, resolveRelativePath, segments, split, if_pos hne]
    simp [resolveLoop, skipLoop, placeLoop, Ref.text, Ref.getLength, Cpcf.Lib.Memory.read]
    rfl
  · obtain ⟨ds, hsplit, htexts, hpair, hge⟩ := split_path hne hq hfew hsize
    have hsub := resolveLoop_sublist m [] ds
    rw [List.nil_append] at hsub
    have hopen := resolveLoop_texts (m := m) [] ds
    rw [List.map_nil, htexts] at hopen
    rw [opened, ← hopen, resolveRelativePath, segments, hsplit]
    obtain ⟨-, hstop, hold⟩ := skipLoop_placed (fun d hd => hge d (hsub.subset hd)) (hpair.sublist hsub)
    have hlen := length_intercalate (m := m) (resolveLoop m [] ds)
    simp only [Ref.text, Ref.getLength]
    rw [hstop, Nat.add_sub_cancel_left]
    simp only [Ref.text] at hlen hold
    rw [← hlen]
    exact hold.read_eq

/-- A stack machine keeps what it has been given. -/
theorem mem_foldl {step : List (List UInt8) → List UInt8 → List (List UInt8)}
    (hstep : ∀ kept s x, x ∈ step kept s → x ∈ kept ∨ x = s) {kept segs : List (List UInt8)} {x : List UInt8}
    (hx : x ∈ segs.foldl step kept) : x ∈ kept ∨ x ∈ segs := by
  induction segs generalizing kept with
  | nil => exact Or.inl hx
  | cons s segs ih =>
    rcases ih hx with h | h
    · rcases hstep kept s x h with h | rfl
      · exact Or.inl h
      · exact Or.inr List.mem_cons_self
    · exact Or.inr (List.mem_cons_of_mem _ h)

theorem slash_not_mem_norm (t : List UInt8) : ∀ s ∈ norm (pathNames t), Ch.slash ∉ s := by
  intro s hs hc
  have hstep : ∀ kept s x, x ∈ normStep kept s → x ∈ kept ∨ x = s := by
    intro kept s x hx
    unfold normStep at hx
    split at hx
    · exact Or.inl hx
    · split at hx
      · split at hx
        · exact Or.inl hx
        · exact Or.inl (List.dropLast_subset kept hx)
      · simpa using hx
  rcases mem_foldl hstep hs with h | h
  · cases h
  · exact absurd (mem_splitOnP (· == Ch.slash) h hc) (by simp)

theorem slash_not_mem_opened (t : List UInt8) : ∀ s ∈ opened (pathNames t), Ch.slash ∉ s := by
  intro s hs hc
  have hstep : ∀ kept s x, x ∈ openStep kept s → x ∈ kept ∨ x = s := by
    intro kept s x hx
    unfold openStep at hx
    split at hx
    · exact Or.inl hx
    · split at hx
      · exact Or.inl (List.dropLast_subset kept hx)
      · simpa using hx
  rcases mem_foldl hstep hs with h | h
  · cases h
  · exact absurd (mem_splitOnP (· == Ch.slash) h hc) (by simp)

/-- `ResolveRelativePath` leaves the normalised path when the length of each segment goes through an `int` and each
misread segment is harmless; the misread segments have to be. -/
theorem resolveRelativePath_normalize (hnull : r.p = 0 → r.len < 2)
    (hq : ∀ c ∈ r.text m, c ≠ Ch.dquote ∧ c ≠ Ch.squote) (hfew : (pathNames (r.text m)).length < 256) :
    ((∀ s ∈ pathNames (r.text m), IntLength s.length) ∧ Harmless (pathNames (r.text m)) →
        (resolveRelativePath m r).2.text (resolveRelativePath m r).1 = normalize (r.text m)) ∧
      ((∀ s ∈ pathNames (r.text m), IntLength s.length) →
        (resolveRelativePath m r).2.text (resolveRelativePath m r).1 = normalize (r.text m) →
          Harmless (pathNames (r.text m))) := by
  have hiff := opened_eq_norm_iff (slash_not_mem_norm (r.text m)) (slash_not_mem_opened (r.text m))
  constructor
  · rintro ⟨hsize, hok⟩
    rw [resolveRelativePath_text hnull hq hfew hsize]
    exact hiff.mpr hok
  · intro hsize h
    rw [resolveRelativePath_text hnull hq hfew hsize] at h
    exact hiff.mp h

/-- `/123/456///7/.//./../89/` becomes `/123/456/89/`. -/
theorem resolveRelativePath_normalize_dotted :
    let path : List UInt8 :=
      [0x2f, 0x31, 0x32, 0x33, 0x2f, 0x34, 0x35, 0x36, 0x2f, 0x2f, 0x2f, 0x37, 0x2f, 0x2e, 0x2f, 0x2f, 0x2e, 0x2f,
        0x2e, 0x2e, 0x2f, 0x38, 0x39, 0x2f]
    let t := resolveRelativePath (ofBytes 1 path) ⟨1, 25⟩
    t.2.text t.1 = normalize path ∧
      normalize path = [0x2f, 0x31, 0x32, 0x33, 0x2f, 0x34, 0x35, 0x36, 0x2f, 0x38, 0x39, 0x2f] := by
  refine ⟨(resolveRelativePath_normalize (m := ofBytes 1 _) (r := ⟨1, 25⟩) (by decide) (by decide +kernel)
    (by decide +kernel)).1 ⟨by decide +kernel, by decide +kernel⟩, by decide +kernel⟩

/-- The segment `.b` takes `a` off as `..` does, and `/../a` is not absolute afterwards. -/
theorem resolveRelativePath_normalize_fails :
    (let path : List UInt8 := [0x61, 0x2f, 0x2e, 0x62, 0x2f, 0x63]
     let t := resolveRelativePath (ofBytes 1 path) ⟨1, 7⟩
     t.2.text t.1 = [0x63] ∧ normalize path = path ∧ t.2.text t.1 ≠ normalize path) ∧
    (let path : List UInt8 := [0x2f, 0x2e, 0x2e, 0x2f, 0x61]
     let t := resolveRelativePath (ofBytes 1 path) ⟨1, 6⟩
     t.2.text t.1 = [0x61] ∧ normalize path = [0x2f, 0x61] ∧ t.2.text t.1 ≠ normalize path) := by
  decide +kernel

end

end Cpcf.Rt.StringRef
