import Cpcf.Lib.Occurrences
import Cpcf.Lib.Written
import Cpcf.Rt.StringBuffers

/-!
`String::TrimCodeComments` against the parts of a source text.

Behind a block comment the next byte is copied without a look at it, also when it begins a literal or another comment,
and also when there is none. The end of a block comment is looked for from the byte behind `/*` on, together with the
byte before that one, so that `/*/` is a comment of its own.
-/

namespace Cpcf.Rt.CodeComments

open Cpcf.Lib Cpcf.Lib.Memory Cpcf.Lib.Occurrences Cpcf.Rt.StringRef Cpcf.Rt.StringOwned

/-! ### The parts of a text -/

def star : UInt8 := 0x2a

/-- A quotation mark. -/
def isQuote (c : UInt8) : Bool := c = Ch.dquote || c = Ch.squote

/-- A byte, a literal with its quotation marks, and what stands in a comment; the last one is a block comment without
an end. -/
inductive Part
  | byte (c : UInt8)
  | literal (t : List UInt8)
  | line (t : List UInt8)
  | block (t : List UInt8)
  | unclosed (t : List UInt8)
  deriving DecidableEq

/-- What stands of a literal behind its first quotation mark, and the rest. There are `n` backslashes right before the
text; the literal ends at the first quotation mark behind an even number of them. -/
def literal (quotation : UInt8) : ℕ → List UInt8 → List UInt8 × List UInt8
  | _, [] => ([], [])
  | n, c :: s =>
    if c = quotation ∧ n % 2 = 0 then ([c], s)
    else
      let t := literal quotation (if c = Ch.backslash then n + 1 else 0) s
      (c :: t.1, t.2)

theorem literal_append (q : UInt8) (n : ℕ) (s : List UInt8) : (literal q n s).1 ++ (literal q n s).2 = s := by
  fun_induction literal q n s with
  | case1 => rfl
  | case2 => rfl
  | case3 n c s hc t ih => exact congrArg (c :: ·) ih

theorem length_literal_le (q : UInt8) (n : ℕ) (s : List UInt8) : (literal q n s).2.length ≤ s.length := by
  have h := congrArg List.length (literal_append q n s)
  rw [List.length_append] at h
  omega

/-- The parts of a text, from the left on. -/
def parts : List UInt8 → List Part
  | [] => []
  | c :: s =>
    if isQuote c then
      have := length_literal_le c 0 s
      .literal (c :: (literal c 0 s).1) :: parts (literal c 0 s).2
    else if c = Ch.slash ∧ s.head? = some Ch.slash then
      have : (s.tail.dropWhile fun c => !isLineEnd c).length ≤ s.length :=
        (List.length_dropWhile_le _ _).trans (List.tail_sublist s).length_le
      .line (s.tail.takeWhile fun c => !isLineEnd c) :: parts (s.tail.dropWhile fun c => !isLineEnd c)
    else if c = Ch.slash ∧ s.head? = some star then
      match h : s.tail.dropInfix? [star, Ch.slash] with
      | none => [.unclosed s.tail]
      | some (t, rest) =>
        have := (length_lt_of_dropInfix? (List.cons_ne_nil _ _) h).le.trans (List.tail_sublist s).length_le
        .block t :: parts rest
    else .byte c :: parts s
termination_by s => s.length

attribute [local simp] parts

/-- The texts that may be left of some parts, where `b` tells whether they begin a line. The ends of lines behind a
line comment that began a line may be left out too. -/
inductive Stripped : Bool → List Part → List UInt8 → Prop
  | nil (b : Bool) : Stripped b [] []
  | byte {b : Bool} {c : UInt8} {ps : List Part} {w : List UInt8} :
      Stripped (isLineEnd c) ps w → Stripped b (.byte c :: ps) (c :: w)
  | literal {b : Bool} {t : List UInt8} {ps : List Part} {w : List UInt8} :
      Stripped false ps w → Stripped b (.literal t :: ps) (t ++ w)
  | line {b : Bool} {t : List UInt8} {ps : List Part} {w : List UInt8} :
      Stripped false ps w → Stripped b (.line t :: ps) w
  | lineEnds {t ns : List UInt8} {ps : List Part} {w : List UInt8} :
      (∀ c ∈ ns, isLineEnd c = true) → Stripped true ps w → Stripped true (.line t :: (ns.map Part.byte ++ ps)) w
  | block {b : Bool} {t : List UInt8} {ps : List Part} {w : List UInt8} :
      Stripped false ps w → Stripped b (.block t :: ps) w
  | unclosed {b : Bool} {t : List UInt8} : Stripped b [.unclosed t] []

/-! ### The condition -/

def Part.isByte : Part → Bool
  | byte _ => true
  | _ => false

/-- No block comment begins with `/*/`, and none is followed by a literal or a comment. -/
def Tame : List Part → Prop
  | [] => True
  | .block t :: ps => t.head? ≠ some Ch.slash ∧ ps.head?.all Part.isByte = true ∧ Tame ps
  | .unclosed t :: ps => t.head? ≠ some Ch.slash ∧ Tame ps
  | _ :: ps => Tame ps

/-- How far behind the end of the text the byte stands that is copied behind a block comment which ends the text, or
which has no end. -/
def spill : List Part → Option ℕ
  | [] => none
  | [.block _] => some 0
  | [.unclosed _] => some 1
  | _ :: ps => spill ps

/-! ### Parts of some texts -/

section

variable {c : UInt8} {s t rest : List UInt8}

theorem parts_nil : parts [] = [] := by
  rw [parts]

theorem parts_quote (hc : isQuote c = true) (s : List UInt8) :
    parts (c :: s) = .literal (c :: (literal c 0 s).1) :: parts (literal c 0 s).2 := by
  rw [parts, if_pos hc]

theorem not_isQuote_slash : ¬ isQuote Ch.slash = true := by decide

theorem star_not_line (s : List UInt8) : ¬ (Ch.slash = Ch.slash ∧ (star :: s).head? = some Ch.slash) := by
  rw [List.head?_cons]
  decide

theorem parts_line (s : List UInt8) : parts (Ch.slash :: Ch.slash :: s) =
    .line (s.takeWhile fun c => !isLineEnd c) :: parts (s.dropWhile fun c => !isLineEnd c) := by
  rw [parts, if_neg not_isQuote_slash, if_pos ⟨rfl, rfl⟩]
  rfl

theorem parts_block (h : s.dropInfix? [star, Ch.slash] = some (t, rest)) :
    parts (Ch.slash :: star :: s) = .block t :: parts rest := by
  rw [parts, if_neg not_isQuote_slash, if_neg (star_not_line s), if_pos ⟨rfl, rfl⟩]
  split
  · rename_i heq
    rw [List.tail_cons, h] at heq
    cases heq
  · rename_i heq
    rw [List.tail_cons, h] at heq
    obtain ⟨rfl, rfl⟩ := Prod.mk.inj (Option.some.inj heq)
    rfl

theorem parts_unclosed (h : s.dropInfix? [star, Ch.slash] = none) :
    parts (Ch.slash :: star :: s) = [.unclosed s] := by
  rw [parts, if_neg not_isQuote_slash, if_neg (star_not_line s), if_pos ⟨rfl, rfl⟩]
  split
  · rfl
  · rename_i heq
    rw [List.tail_cons, h] at heq
    cases heq

theorem parts_byte (hc : isQuote c = false) (hl : ¬ (c = Ch.slash ∧ s.head? = some Ch.slash))
    (hb : ¬ (c = Ch.slash ∧ s.head? = some star)) : parts (c :: s) = .byte c :: parts s := by
  rw [parts, if_neg (by rw [hc]; exact Bool.false_ne_true), if_neg hl, if_neg hb]

/-- Only a byte that is not looked at any further is a part of its own. -/
theorem parts_isByte (h : (parts (c :: s)).head?.all Part.isByte = true) : parts (c :: s) = .byte c :: parts s := by
  by_cases hq : isQuote c = true
  · rw [parts_quote hq] at h
    cases h
  · by_cases hl : c = Ch.slash ∧ s.head? = some Ch.slash
    · obtain ⟨rfl, hs⟩ := hl
      obtain ⟨s, rfl⟩ := List.head?_eq_some_iff.mp hs
      rw [parts_line] at h
      cases h
    · by_cases hb : c = Ch.slash ∧ s.head? = some star
      · obtain ⟨rfl, hs⟩ := hb
        obtain ⟨s, rfl⟩ := List.head?_eq_some_iff.mp hs
        cases hd : s.dropInfix? [star, Ch.slash] with
        | none =>
          rw [parts_unclosed hd] at h
          cases h
        | some t =>
          rw [parts_block hd] at h
          cases h
      · exact parts_byte (Bool.not_eq_true _ ▸ hq) hl hb

theorem isLineEnd_plain (hc : isLineEnd c = true) : isQuote c = false ∧ c ≠ Ch.slash := by
  rw [isLineEnd, Bool.or_eq_true, decide_eq_true_eq, decide_eq_true_eq] at hc
  rcases hc with rfl | rfl
  · decide
  · decide

/-- The ends of lines are parts of their own. -/
theorem parts_lineEnds {ns : List UInt8} (hns : ∀ c ∈ ns, isLineEnd c = true) (s : List UInt8) :
    parts (ns ++ s) = ns.map Part.byte ++ parts s := by
  induction ns with
  | nil => rfl
  | cons c ns ih =>
    obtain ⟨hq, hslash⟩ := isLineEnd_plain (hns c (by simp))
    rw [List.cons_append, parts_byte hq (fun h => hslash h.1) (fun h => hslash h.1),
      ih fun d hd => hns d (by simp [hd])]
    rfl

theorem tame_bytes (ns : List UInt8) (ps : List Part) : Tame (ns.map Part.byte ++ ps) ↔ Tame ps := by
  induction ns with
  | nil => rfl
  | cons c ns ih => exact ih

theorem spill_bytes (ns : List UInt8) (ps : List Part) : spill (ns.map Part.byte ++ ps) = spill ps := by
  induction ns with
  | nil => rfl
  | cons c ns ih => exact ih

end

/-! ### What is left was in the text -/

/-- What is written of a part. -/
def Part.kept : Part → List UInt8
  | byte c => [c]
  | literal t => t
  | _ => []

theorem parts_sublist (xs : List UInt8) : ((parts xs).flatMap Part.kept).Sublist xs := by
  fun_induction parts xs with
  | case1 => exact List.Sublist.refl []
  | case2 c s hq hle ih =>
    have hrest := (List.append_sublist_append_left (literal c 0 s).1).mpr ih
    rw [literal_append] at hrest
    exact hrest.cons_cons c
  | case3 c s hq hline hle ih =>
    exact ((ih.trans (List.dropWhile_sublist _)).trans (List.tail_sublist s)).cons c
  | case4 c s hq hline hblock hdrop => exact List.nil_sublist _
  | case5 c s hq hline hblock t rest hdrop hle ih =>
    have hs := (dropInfix?_eq_some.mp hdrop).1
    have hrest : rest.Sublist s.tail := hs ▸ List.sublist_append_right _ _
    exact ((ih.trans hrest).trans (List.tail_sublist s)).cons c
  | case6 c s hq hline hblock ih => exact ih.cons_cons c

theorem Stripped.sublist_kept {b : Bool} {ps : List Part} {w : List UInt8} (h : Stripped b ps w) :
    w.Sublist (ps.flatMap Part.kept) := by
  induction h with
  | nil => exact List.Sublist.refl []
  | byte h ih => exact ih.cons_cons _
  | literal h ih => exact (List.append_sublist_append_left _).mpr ih
  | line h ih | block h ih => exact ih
  | lineEnds hns h ih =>
    rw [List.flatMap_cons, List.flatMap_append]
    exact ih.trans (List.sublist_append_right _ _)
  | unclosed => exact List.Sublist.refl []

theorem Stripped.sublist {b : Bool} {xs w : List UInt8} (h : Stripped b (parts xs) w) : w.Sublist xs :=
  h.sublist_kept.trans (parts_sublist xs)

/-! ### The loops -/

section

variable {m : Mem} {p out : ℕ} {s : List UInt8}

theorem backslashes_congr {m' : Mem} {a : ℕ} (h : ∀ b < a, m' b = m b) : backslashes m' a = backslashes m a := by
  induction a with
  | zero => rfl
  | succ a ih => rw [backslashes, backslashes, h a (Nat.lt_succ_self a), ih fun b hb => h b (by omega)]

/-- A literal is copied to a place behind the text. If it has an end, that is what is written last. -/
theorem quotedLoop_spec (q : UInt8) (hs : Holds m p s) (hout : p + s.length ≤ out) {n : ℕ} (hn : backslashes m p = n) :
    Written m out (literal q n s).1
        ((quotedLoop q s.length m p out).1, (quotedLoop q s.length m p out).2.2.1) ∧
      ((quotedLoop q s.length m p out).2.2.2 = true →
        (quotedLoop q s.length m p out).2.1 + 1 = p + (literal q n s).1.length ∧
          (quotedLoop q s.length m p out).1 ((quotedLoop q s.length m p out).2.2.1 - 1) = q) ∧
      ((quotedLoop q s.length m p out).2.2.2 = false →
        (quotedLoop q s.length m p out).2.1 = p + s.length ∧ (literal q n s).2 = []) := by
  induction s generalizing m p out n with
  | nil => exact ⟨Written.nil m out, fun h => absurd h Bool.false_ne_true, fun _ => ⟨rfl, rfl⟩⟩
  | cons c s ih =>
    obtain ⟨rfl, hrest⟩ := hs
    rw [List.length_cons] at hout
    have hp : poke m out (m p) p = m p := poke_other _ _ (by omega)
    have hback : ∀ a ≤ out, backslashes (poke m out (m p)) a = backslashes m a := fun a ha =>
      backslashes_congr fun b hb => poke_other _ _ (by omega)
    rw [List.length_cons, quotedLoop, literal]
    dsimp only
    rw [hp, hback p (by omega), hn]
    by_cases hend : m p = q ∧ n % 2 = 0
    · rw [if_pos hend, if_pos hend]
      refine ⟨(Written.nil _ _).cons, fun _ => ⟨rfl, ?_⟩, fun h => absurd h.symm Bool.false_ne_true⟩
      exact (poke_same _ _ _).trans hend.1
    · rw [if_neg hend, if_neg hend]
      have hnext : backslashes (poke m out (m p)) (p + 1) = if m p = Ch.backslash then n + 1 else 0 := by
        rw [hback _ (by omega), backslashes, hn]
      have hxs : Holds (poke m out (m p)) (p + 1) s := hrest.poke (by omega)
      have hroom : p + 1 + s.length ≤ out + 1 := by omega
      obtain ⟨h1, h2, h3⟩ := ih hxs hroom hnext
      refine ⟨h1.cons, fun h => ⟨?_, (h2 h).2⟩, fun h => ⟨?_, (h3 h).2⟩⟩
      · rw [(h2 h).1, List.length_cons]
        omega
      · rw [(h3 h).1]
        omega

/-- The end of a comment that does not begin with `/`, where a byte stands before it that is taken for its first one. -/
theorem closeLoop_eq (hs : Holds m p s) (hfirst : ¬ (m (p - 1) = star ∧ s.head? = some Ch.slash)) (hp : 0 < p) :
    closeLoop m s.length p = ((s.dropInfix? [star, Ch.slash]).map fun t => p + t.1.length + 1).getD (p + s.length) := by
  induction s generalizing p with
  | nil => rfl
  | cons c s ih =>
    obtain ⟨hc, hrest⟩ := hs
    have hnot : ¬ (m (p - 1) = 0x2a ∧ m p = Ch.slash) := by
      rintro ⟨h1, h2⟩
      exact hfirst ⟨h1, by rw [List.head?_cons, ← hc, h2]⟩
    rw [List.length_cons, closeLoop, if_neg hnot]
    by_cases hend : c = star ∧ s.head? = some Ch.slash
    · obtain ⟨rfl, hhead⟩ := hend
      obtain ⟨v, rfl⟩ := List.head?_eq_some_iff.mp hhead
      have hdrop : (star :: Ch.slash :: v).dropInfix? [star, Ch.slash] = some ([], v) := dropInfix?_append _ v
      rw [hdrop, List.length_cons, closeLoop, if_pos ⟨hc, hrest.1⟩]
      rfl
    · have hpre : ¬ [star, Ch.slash] <+: c :: s := by
        rintro ⟨v, hv⟩
        obtain ⟨rfl, rfl⟩ := List.cons.inj hv
        exact hend ⟨rfl, rfl⟩
      rw [ih hrest (by rwa [Nat.add_sub_cancel, hc]) (Nat.succ_pos p), dropInfix?_cons hpre]
      cases s.dropInfix? [star, Ch.slash] with
      | none =>
        simp only [Option.map_none, Option.getD_none]
        omega
      | some t =>
        simp only [Option.map_some, Option.getD_some, List.length_cons]
        omega

end

/-! ### The main loop -/

/-- What follows the main loop: the last byte is copied if it was not passed. -/
def finish (e : ℕ) (t : Mem × ℕ × ℕ) : Mem × ℕ :=
  if t.2.1 < e then (poke t.1 t.2.2 (t.1 t.2.1), t.2.2 + 1) else (t.1, t.2.2)

/-- The byte that is copied from behind a text which ends at `e`. -/
def spilled (m : Mem) (e : ℕ) (ps : List Part) : List UInt8 := (spill ps).toList.map fun d => m (e + d)

/-- The loop has written what may be left of the text, and what was copied from behind it. -/
def Trims (b : Bool) (xs : List UInt8) (m : Mem) (e out : ℕ) (t : Mem × ℕ × ℕ) : Prop :=
  ∃ w, Stripped b (parts xs) w ∧ Written m out (w ++ spilled m e (parts xs)) (finish e t)

section

variable {b : Bool} {m : Mem} {p e k out : ℕ} {c : UInt8} {s xs : List UInt8}

theorem trimLoop_stop (h : e ≤ p + 1) (k : ℕ) (m : Mem) (out : ℕ) : trimLoop e k m p out = (m, p, out) := by
  cases k with
  | zero => rfl
  | succ k => rw [trimLoop, if_neg (by omega)]

theorem finish_stop (h : e ≤ p) (m : Mem) (out : ℕ) : finish e (m, p, out) = (m, out) := if_neg (by simpa using h)

theorem spilled_congr {m' : Mem} {ps : List Part} (h : ∀ d ∈ spill ps, m' (e + d) = m (e + d)) :
    spilled m' e ps = spilled m e ps := by
  rw [spilled, spilled]
  cases hs : spill ps with
  | none => rfl
  | some d => rw [Option.toList_some, List.map_singleton, List.map_singleton, h d hs]

theorem spilled_lineEnds (m : Mem) (e : ℕ) (t ns : List UInt8) (ps : List Part) :
    spilled m e (.line t :: (ns.map Part.byte ++ ps)) = spilled m e ps :=
  congrArg (fun d => d.toList.map fun d => m (e + d)) (spill_bytes ns ps)

theorem trims_nil (b : Bool) (m : Mem) (e out k : ℕ) : Trims b [] m e out (trimLoop e k m e out) := by
  rw [Trims, trimLoop_stop (Nat.le_succ e), finish_stop le_rfl, parts_nil]
  exact ⟨[], .nil b, Written.nil m out⟩

theorem trims_singleton (b : Bool) (hc : m p = c) (k out : ℕ) :
    Trims b [c] m (p + 1) out (trimLoop (p + 1) k m p out) := by
  have hfinish : finish (p + 1) (m, p, out) = (poke m out c, out + 1) := by
    rw [← hc]
    exact if_pos (Nat.lt_succ_self p)
  rw [Trims, trimLoop_stop le_rfl, hfinish]
  by_cases hq : isQuote c = true
  · have hparts : parts [c] = [.literal [c]] := by
      rw [parts_quote hq, literal, parts_nil]
    rw [hparts]
    exact ⟨[c], .literal (.nil false), (Written.nil _ _).cons⟩
  · have hparts : parts [c] = [.byte c] := by
      rw [parts_byte (Bool.not_eq_true _ ▸ hq) (by simp) (by simp), parts_nil]
    rw [hparts]
    exact ⟨[c], .byte (.nil _), (Written.nil _ _).cons⟩

/-- A byte that is copied, and what is left of the rest. -/
theorem trims_byte {t : Mem × ℕ × ℕ} (h : Trims (isLineEnd c) s (poke m out c) e (out + 1) t)
    (hparts : parts (c :: s) = .byte c :: parts s) (hspill : ∀ d ∈ spill (parts s), e + d < out) :
    Trims b (c :: s) m e out t := by
  obtain ⟨w, hw, hwritten⟩ := h
  rw [spilled_congr (m := m) fun d hd => poke_other _ _ (hspill d hd).ne] at hwritten
  refine ⟨c :: w, ?_, ?_⟩
  · rw [hparts]
    exact .byte hw
  · rw [hparts]
    exact hwritten.cons

/-- A line comment, of which the ends of lines behind it are left out where the text before it ends in one. -/
theorem trims_line {t : Mem × ℕ × ℕ}
    (hdrop : isLineEnd (m (out - 1)) = true → b = true ∧
      Trims true ((s.dropWhile fun c => !isLineEnd c).dropWhile isLineEnd) m e out t)
    (hkeep : isLineEnd (m (out - 1)) = false → Trims false (s.dropWhile fun c => !isLineEnd c) m e out t) :
    Trims b (Ch.slash :: Ch.slash :: s) m e out t := by
  rw [Trims, parts_line]
  by_cases hend : isLineEnd (m (out - 1)) = true
  · obtain ⟨rfl, w, hw, hwritten⟩ := hdrop hend
    have hns : ∀ c ∈ (s.dropWhile fun c => !isLineEnd c).takeWhile isLineEnd, isLineEnd c = true :=
      fun c hc => List.mem_takeWhile_imp hc
    rw [← List.takeWhile_append_dropWhile (p := isLineEnd) (l := s.dropWhile fun c => !isLineEnd c),
      parts_lineEnds hns]
    refine ⟨w, .lineEnds hns hw, ?_⟩
    rw [spilled_lineEnds]
    exact hwritten
  · obtain ⟨w, hw, hwritten⟩ := hkeep (Bool.not_eq_true _ ▸ hend)
    exact ⟨w, .line hw, hwritten⟩

/-- A literal that is copied, and what is left of the rest. -/
theorem trims_literal {m' : Mem} {out' : ℕ} {t : Mem × ℕ × ℕ} (hq : isQuote c = true)
    (hcopy : Written m out (c :: (literal c 0 s).1) (m', out')) (h : Trims false (literal c 0 s).2 m' e out' t)
    (hspill : ∀ d ∈ spill (parts (c :: s)), e + d < out) : Trims b (c :: s) m e out t := by
  obtain ⟨w, hw, hwritten⟩ := h
  rw [parts_quote hq] at hspill
  have hsame : spilled m' e (parts (literal c 0 s).2) = spilled m e (parts (literal c 0 s).2) :=
    spilled_congr fun d hd => hcopy.below _ (hspill d hd)
  rw [hsame] at hwritten
  rw [Trims, parts_quote hq]
  refine ⟨c :: (literal c 0 s).1 ++ w, .literal hw, ?_⟩
  rw [List.append_assoc]
  exact hcopy.append hwritten

/-- A block comment, and the byte behind it. -/
theorem trims_block {t : Mem × ℕ × ℕ} {u v : List UInt8} (hdrop : s.dropInfix? [star, Ch.slash] = some (u, c :: v))
    (hbyte : parts (c :: v) = .byte c :: parts v) (h : Trims false (c :: v) m e out t) :
    Trims b (Ch.slash :: star :: s) m e out t := by
  obtain ⟨w, hw, hwritten⟩ := h
  have hspill : spilled m e (parts (Ch.slash :: star :: s)) = spilled m e (parts (c :: v)) := by
    rw [parts_block hdrop, hbyte]
    rfl
  refine ⟨w, ?_, ?_⟩
  · rw [parts_block hdrop]
    exact .block hw
  · rw [hspill]
    exact hwritten

/-- A block comment that ends with the text or has no end. -/
theorem trims_spilled {d : ℕ} {q : Part} (hparts : parts xs = [q]) (hs : Stripped b [q] [])
    (hspill : spill [q] = some d) (k : ℕ) : Trims b xs m e out (trimLoop e k (poke m out (m (e + d))) (e + d + 1) (out + 1)) := by
  rw [Trims, trimLoop_stop (by omega), finish_stop (by omega), hparts, spilled, hspill]
  exact ⟨[], hs, (Written.nil _ _).cons⟩

theorem quote_not_lineEnd (hq : isQuote c = true) : isLineEnd c = false := by
  rw [isQuote, Bool.or_eq_true, decide_eq_true_eq, decide_eq_true_eq] at hq
  rcases hq with rfl | rfl
  · decide
  · decide

end

/-- The main loop is at a text that ends at `e` and in which no comment is misread; what it writes goes to places
behind, and before that stands the end of a line only where the text begins one. -/
structure Ready (b : Bool) (m : Mem) (p e k out : ℕ) (xs : List UInt8) : Prop where
  holds : Holds m p xs
  stop : p + xs.length = e
  room : e ≤ out
  behind : ∀ d ∈ spill (parts xs), e + d < out
  turns : xs.length ≤ k
  tame : Tame (parts xs)
  line : isLineEnd (m (out - 1)) = true → b = true

section

variable {b : Bool} {m : Mem} {p e k out : ℕ} {c d : UInt8} {s : List UInt8}

/-- The induction hypothesis: the loop with a turn less. -/
def Loops (e k : ℕ) : Prop :=
  ∀ (b : Bool) (m : Mem) (p out : ℕ) (xs : List UInt8),
    Ready b m p e k out xs → Trims b xs m e out (trimLoop e k m p out)

theorem loop_literal (h : Ready b m p e (k + 1) out (c :: d :: s)) (hq : isQuote c = true) (ih : Loops e k) :
    Trims b (c :: d :: s) m e out (trimLoop e (k + 1) m p out) := by
  obtain ⟨⟨hc, hrest⟩, he, hout, hspill, hk, htame, -⟩ := h
  have hquote : c = Ch.dquote ∨ c = Ch.squote := by
    rwa [isQuote, Bool.or_eq_true, decide_eq_true_eq, decide_eq_true_eq] at hq
  have hsum := congrArg List.length (literal_append c 0 (d :: s))
  rw [List.length_append] at hsum
  have hlen : (d :: s).length = s.length + 1 := rfl
  rw [List.length_cons, hlen] at he hk
  have hkept : Holds (poke m out c) (p + 1) (d :: s) := hrest.poke (by omega)
  have hback : backslashes (poke m out c) (p + 1) = 0 := by
    rw [backslashes, poke_other _ _ (by omega), hc, if_neg (by rintro rfl; exact absurd hq (by decide))]
  have hroom : p + 1 + (d :: s).length ≤ out + 1 := by omega
  rw [trimLoop, if_pos (by omega), hc, if_pos hquote]
  dsimp only
  rw [show e - (p + 1) = (d :: s).length by omega]
  obtain ⟨hcopy, hend, hopen⟩ := quotedLoop_spec c hkept hroom hback
  generalize quotedLoop c (d :: s).length (poke m out c) (p + 1) (out + 1) = t at hcopy hend hopen
  refine trims_literal hq hcopy.cons ?_ hspill
  by_cases hclosed : t.2.2.2 = true
  · obtain ⟨hp, hlast⟩ := hend hclosed
    have htext : Holds m (p + 1) ((literal c 0 (d :: s)).1 ++ (literal c 0 (d :: s)).2) := by
      rw [literal_append]
      exact hrest
    have hstop : t.2.2.1 = out + 1 + (literal c 0 (d :: s)).1.length := hcopy.stop
    rw [parts_quote hq] at hspill htame
    rw [if_pos hclosed, hp]
    refine ih _ _ _ _ _ ⟨?_, ?_, ?_, ?_, ?_, htame, ?_⟩
    · exact (holds_append.mp htext).2.congr fun a h1 h2 => hcopy.cons.below a (by omega)
    · omega
    · omega
    · intro a ha
      have := hspill a ha
      omega
    · omega
    · rw [hlast, quote_not_lineEnd hq]
      exact id
  · -- the literal goes to the end of the text
    obtain ⟨hp, hnil⟩ := hopen (Bool.not_eq_true _ ▸ hclosed)
    obtain rfl : t.2.1 = e := by omega
    rw [if_neg hclosed, hnil, ← trimLoop_stop (Nat.le_succ t.2.1) 0 t.1 t.2.2.1]
    exact trims_nil false t.1 t.2.1 t.2.2.1 0

theorem loop_byte (h : Ready b m p e (k + 1) out (c :: d :: s)) (hq : isQuote c = false)
    (hline : ¬ (c = Ch.slash ∧ d = Ch.slash)) (hblock : ¬ (c = Ch.slash ∧ d = star)) (ih : Loops e k) :
    Trims b (c :: d :: s) m e out (trimLoop e (k + 1) m p out) := by
  obtain ⟨⟨hc, hrest⟩, he, hout, hspill, hk, htame, -⟩ := h
  have hd : m (p + 1) = d := hrest.1
  have hquote : ¬ (c = Ch.dquote ∨ c = Ch.squote) := by
    rwa [isQuote, Bool.or_eq_false_iff, decide_eq_false_iff_not, decide_eq_false_iff_not, ← not_or] at hq
  have hlen : (d :: s).length = s.length + 1 := rfl
  have hparts : parts (c :: d :: s) = .byte c :: parts (d :: s) :=
    parts_byte hq (by rwa [List.head?_cons, Option.some_inj]) (by rwa [List.head?_cons, Option.some_inj])
  rw [List.length_cons, hlen] at he hk
  rw [hparts] at hspill htame
  rw [trimLoop, if_pos (by omega), hc, hd, if_neg hquote, if_neg hline]
  dsimp only
  rw [if_neg (show ¬ (c = Ch.slash ∧ d = 0x2a) from hblock), hc]
  refine trims_byte (ih _ _ _ _ _ ⟨?_, ?_, ?_, ?_, ?_, htame, ?_⟩) hparts hspill
  · exact hrest.poke (by omega)
  · omega
  · omega
  · exact fun d hd => (hspill d hd).trans (Nat.lt_succ_self out)
  · omega
  · rw [Nat.add_sub_cancel, poke_same]
    exact id

theorem loop_line (h : Ready b m p e (k + 1) out (Ch.slash :: Ch.slash :: s)) (ih : Loops e k) :
    Trims b (Ch.slash :: Ch.slash :: s) m e out (trimLoop e (k + 1) m p out) := by
  obtain ⟨⟨hc, hd, hs⟩, he, hout, hspill, hk, htame, hb⟩ := h
  have hs : Holds m (p + 2) s := hs
  rw [List.length_cons, List.length_cons] at he hk
  rw [trimLoop, if_pos (by omega), hc, hd, if_neg (by decide), if_pos ⟨rfl, rfl⟩]
  dsimp only
  rw [show e - (p + 2) = s.length by omega, scanWhile_takeWhile hs]
  rw [parts_line] at hspill htame
  have hsum := congrArg List.length (List.takeWhile_append_dropWhile (p := fun c => !isLineEnd c) (l := s))
  rw [← List.takeWhile_append_dropWhile (p := fun c => !isLineEnd c) (l := s), holds_append] at hs
  rw [List.length_append] at hsum
  have hrest := hs.2
  refine trims_line (fun hend => ⟨hb hend, ?_⟩) fun hend => ?_
  · -- the ends of lines are skipped
    generalize (s.dropWhile fun c => !isLineEnd c) = r at *
    have hsum' := congrArg List.length (List.takeWhile_append_dropWhile (p := isLineEnd) (l := r))
    have hns : ∀ c ∈ r.takeWhile isLineEnd, isLineEnd c = true := fun c hc => List.mem_takeWhile_imp hc
    have hscan := scanWhile_takeWhile (c := isLineEnd) hrest
    rw [← List.takeWhile_append_dropWhile (p := isLineEnd) (l := r)] at hrest hspill htame
    rw [List.length_append] at hsum'
    rw [parts_lineEnds hns] at hspill htame
    rw [hend, if_pos rfl, show e - (p + 2 + (s.takeWhile fun c => !isLineEnd c).length) = r.length by omega, hscan]
    refine ih _ _ _ _ _ ⟨(holds_append.mp hrest).2, ?_, hout, ?_, ?_, (tame_bytes _ _).mp htame, fun _ => rfl⟩
    · omega
    · rw [← spill_bytes (r.takeWhile isLineEnd)]
      exact hspill
    · omega
  · rw [hend, if_neg Bool.false_ne_true]
    refine ih _ _ _ _ _ ⟨hrest, ?_, hout, hspill, ?_, htame, ?_⟩
    · omega
    · omega
    · rw [hend]
      exact id

/-- The comment does not end with its third byte. -/
theorem head_of_tame (h : Tame (parts (Ch.slash :: star :: s))) : s.head? ≠ some Ch.slash := by
  cases hdrop : s.dropInfix? [star, Ch.slash] with
  | none =>
    rw [parts_unclosed hdrop] at h
    exact h.1
  | some w =>
    rw [parts_block hdrop] at h
    obtain ⟨rfl, -⟩ := dropInfix?_eq_some.mp hdrop
    have hu := h.1
    cases hw : w.1 with
    | nil => simp [star]
    | cons c u => simpa [hw] using hu

theorem loop_block (h : Ready b m p e (k + 1) out (Ch.slash :: star :: s)) (ih : Loops e k) :
    Trims b (Ch.slash :: star :: s) m e out (trimLoop e (k + 1) m p out) := by
  obtain ⟨⟨hc, hd, hs⟩, he, hout, hspill, hk, htame, -⟩ := h
  have hs : Holds m (p + 2) s := hs
  have hfirst := head_of_tame htame
  have hclose := closeLoop_eq hs (fun h => hfirst h.2) (by omega)
  rw [List.length_cons, List.length_cons] at he hk
  rw [trimLoop, if_pos (by omega), hc, hd, if_neg (by decide), if_neg (by decide), if_pos ⟨rfl, rfl⟩]
  dsimp only
  rw [show e - (p + 2) = s.length by omega, hclose]
  cases hdrop : s.dropInfix? [star, Ch.slash] with
  | none =>
    have hparts := parts_unclosed hdrop
    rw [Option.map_none, Option.getD_none, show p + 2 + s.length + 1 = e + 1 by omega]
    exact trims_spilled hparts .unclosed rfl k
  | some w =>
    obtain ⟨u, v⟩ := w
    obtain ⟨rfl, -⟩ := dropInfix?_eq_some.mp hdrop
    rw [Option.map_some, Option.getD_some]
    cases v with
    | nil =>
      have hparts := parts_block hdrop
      rw [parts_nil] at hparts
      have hend : p + 2 + u.length + 1 + 1 = e + 0 := by
        simp only [List.length_append, List.length_cons, List.length_nil] at he
        omega
      rw [hend]
      exact trims_spilled hparts (.block (.nil _)) rfl k
    | cons c v =>
      rw [parts_block hdrop] at hspill htame
      have hparts := parts_isByte htame.2.1
      have hlen : (u ++ [star, Ch.slash] ++ c :: v).length = u.length + 2 + (v.length + 1) := by
        simp only [List.length_append, List.length_cons, List.length_nil]
      obtain ⟨hleft, hc', hv⟩ := holds_append.mp hs
      rw [List.length_append, show [star, Ch.slash].length = 2 from rfl] at hc' hv
      have hplace : p + 2 + u.length + 1 + 1 = p + 2 + (u.length + 2) := by omega
      rw [hparts] at hspill htame
      rw [hplace, hc']
      refine trims_block hdrop hparts (trims_byte (ih _ _ _ _ _ ⟨?_, ?_, ?_, ?_, ?_, htame.2.2, ?_⟩) hparts hspill)
      · exact hv.poke (by omega)
      · omega
      · omega
      · exact fun d hd => (hspill d hd).trans (Nat.lt_succ_self out)
      · omega
      · rw [Nat.add_sub_cancel, poke_same]
        exact id

end

/-- The main loop on a text without the comments that are misread: it ends, and what it writes is what may be left. -/
theorem trimLoop_trims {b : Bool} {m : Mem} {p e k out : ℕ} {xs : List UInt8} (h : Ready b m p e k out xs) :
    Trims b xs m e out (trimLoop e k m p out) := by
  induction k generalizing b m p out xs with
  | zero =>
    obtain rfl := List.eq_nil_of_length_eq_zero (Nat.le_zero.mp h.turns)
    obtain rfl : p = e := h.stop
    exact trims_nil b m p out 0
  | succ k ih =>
    rcases xs with _ | ⟨c, _ | ⟨d, s⟩⟩
    · obtain rfl : p = e := h.stop
      exact trims_nil b m p out (k + 1)
    · obtain rfl : p + 1 = e := h.stop
      exact trims_singleton b h.holds.1 (k + 1) out
    · have ih : Loops e k := fun _ _ _ _ _ h => ih h
      by_cases hq : isQuote c = true
      · exact loop_literal h hq ih
      · by_cases hline : c = Ch.slash ∧ d = Ch.slash
        · obtain ⟨rfl, rfl⟩ := hline
          exact loop_line h ih
        · by_cases hblock : c = Ch.slash ∧ d = star
          · obtain ⟨rfl, rfl⟩ := hblock
            exact loop_block h ih
          · exact loop_byte h (Bool.not_eq_true _ ▸ hq) hline hblock ih

/-! ### `TrimCodeComments` -/

/-- The output buffer lies behind everything else. -/
theorem setLength_new (h : Heap) {n : ℕ} (hn : n ≠ 0) :
    (setLength h Str.new n).2.p = h.brk ∧ (∀ a < h.brk, (setLength h Str.new n).1.mem a = h.mem a) ∧
      h.brk + (n + 1) ≤ (setLength h Str.new n).1.brk := by
  have hsize : ¬ n + 1 ≤ Str.new.reserved := Nat.not_succ_le_zero n
  rw [setLength, if_neg hn, changeSize, if_neg hsize]
  refine ⟨rfl, fun a ha => ?_, ?_⟩
  · exact (poke_other _ _ (by simp only; omega)).trans (memcpy_outside _ _ (Or.inl ha))
  · exact Nat.add_le_add_left ((le_max_right _ _).trans (le_max_left _ _)) _

theorem getLength_of_isEmpty {code : Ref} (hnull : code.p = 0 → code.getLength = 0) (hempty : code.isEmpty = true) :
    code.getLength = 0 := by
  by_contra hpos
  refine (code.not_isEmpty_iff.mpr ⟨mt hnull hpos, ?_⟩) hempty
  rw [Ref.getLength] at hpos
  omega

theorem trimCodeComments_empty {h : Heap} {s : Str} {code : Ref} (hs : Sized s) (hempty : code.isEmpty = true) :
    (trimCodeComments h s code).2.text (trimCodeComments h s code).1.mem = [] := by
  rw [trimCodeComments, if_pos hempty, Ref.text, empty, setLength_getLength h hs 0]
  rfl

theorem trimCodeComments_eq (h : Heap) (s : Str) {code : Ref} (hempty : ¬ code.isEmpty = true) :
    trimCodeComments h s code =
      assign ((setLength h Str.new code.getLength).1.set
        (finish code.stop (trimLoop code.stop code.getLength (setLength h Str.new code.getLength).1.mem code.p
          (setLength h Str.new code.getLength).2.p)).1) s
        (Ref.ofEnds (setLength h Str.new code.getLength).2.p
          (finish code.stop (trimLoop code.stop code.getLength (setLength h Str.new code.getLength).1.mem code.p
            (setLength h Str.new code.getLength).2.p)).2) :=
  if_neg hempty

theorem length_spilled_le (m : Mem) (e : ℕ) (ps : List Part) : (spilled m e ps).length ≤ 1 := by
  rw [spilled, List.length_map]
  cases spill ps with
  | none => exact Nat.zero_le _
  | some d => exact le_rfl

/-- What was written to the output buffer is what the target gets. -/
theorem assign_written {h o : Heap} {s : Str} (hs : Sized s) {m : Mem} {w : List UInt8} {t : Mem × ℕ}
    (hwritten : Written m h.brk w t) (hint : IntLength w.length) (hroom : h.brk + w.length ≤ o.brk) :
    (assign (o.set t.1) s (Ref.ofEnds h.brk t.2)).2.text (assign (o.set t.1) s (Ref.ofEnds h.brk t.2)).1.mem = w := by
  have hend : (Ref.ofEnds h.brk t.2).getLength = w.length := by
    rw [hwritten.stop]
    exact ofEnds_getLength h.brk hint
  rw [assign_text hs ?_ ?_, Ref.text, hend, ofEnds_p]
  · exact hwritten.holds.read_eq
  · rw [Ref.stop, hend, ofEnds_p]
    exact hroom
  · exact fun hzero => absurd hzero h.brk_pos.ne'

/-- The text that is left when no comment is misread. -/
theorem trimCodeComments_text {h : Heap} {s : Str} {code : Ref} (hs : Sized s) (hcode : code.stop ≤ h.brk)
    (hnull : code.p = 0 → code.getLength = 0) (htame : Tame (parts (code.text h.mem)))
    (hspill : ∀ d ∈ spill (parts (code.text h.mem)), code.stop + d < h.brk) :
    ∃ w, Stripped true (parts (code.text h.mem)) w ∧
      (IntLength (w ++ spilled h.mem code.stop (parts (code.text h.mem))).length →
        (trimCodeComments h s code).2.text (trimCodeComments h s code).1.mem =
          w ++ spilled h.mem code.stop (parts (code.text h.mem))) := by
  have hlen : (code.text h.mem).length = code.getLength := length_read _ _ _
  by_cases hempty : code.isEmpty = true
  · have hnil := List.eq_nil_of_length_eq_zero (hlen.trans (getLength_of_isEmpty hnull hempty))
    rw [hnil, parts_nil]
    exact ⟨[], .nil true, fun _ => trimCodeComments_empty hs hempty⟩
  · have hn : code.getLength ≠ 0 := by
      have := (code.not_isEmpty_iff.mp hempty).2
      rw [Ref.getLength]
      omega
    obtain ⟨hp, hbelow, hbrk⟩ := setLength_new h hn
    have hstop : code.p + (code.text h.mem).length = code.stop := by
      rw [hlen]
      rfl
    have hholds : Holds (setLength h Str.new code.getLength).1.mem code.p (code.text h.mem) :=
      Holds.congr (m := h.mem) (holds_read _ _ _) fun a _ ha => hbelow a (by omega)
    have htrims := trimLoop_trims (b := true) ⟨hholds, hstop, hcode, hspill, hlen.le, htame, fun _ => rfl⟩
    obtain ⟨w, hw, hwritten⟩ := htrims
    have hsame : spilled (setLength h Str.new code.getLength).1.mem code.stop (parts (code.text h.mem)) =
        spilled h.mem code.stop (parts (code.text h.mem)) := spilled_congr fun d hd => hbelow _ (hspill d hd)
    rw [hsame] at hwritten
    refine ⟨w, hw, fun hint => ?_⟩
    have hle := hw.sublist.length_le
    have hone := length_spilled_le h.mem code.stop (parts (code.text h.mem))
    rw [trimCodeComments_eq h s hempty, hp]
    refine assign_written hs hwritten hint (le_trans ?_ hbrk)
    rw [List.length_append]
    omega

/-- A text without the comments that are misread is stripped as it should be, if it does not end within a block comment
or with its end. If it does, a byte from behind it is copied, which is not as it should be when the text has no such
byte. -/
theorem trimCodeComments_stripped {h : Heap} {s : Str} {code : Ref} (hs : Sized s) (hcode : code.stop ≤ h.brk)
    (hnull : code.p = 0 → code.getLength = 0) (htame : Tame (parts (code.text h.mem))) :
    (spill (parts (code.text h.mem)) = none →
      (∀ w, Stripped true (parts (code.text h.mem)) w → IntLength w.length) →
        Stripped true (parts (code.text h.mem))
          ((trimCodeComments h s code).2.text (trimCodeComments h s code).1.mem)) ∧
      ∀ d ∈ spill (parts (code.text h.mem)), code.stop + d < h.brk → h.mem (code.stop + d) ∉ code.text h.mem →
        code.getLength + 2 < 2 ^ 31 → ¬ Stripped true (parts (code.text h.mem))
          ((trimCodeComments h s code).2.text (trimCodeComments h s code).1.mem) := by
  constructor
  · intro hspill hint
    obtain ⟨w, hw, htext⟩ := trimCodeComments_text hs hcode hnull htame (by rw [hspill]; exact fun d hd => by cases hd)
    rw [spilled, hspill, Option.toList_none, List.map_nil, List.append_nil] at htext
    rw [htext (hint w hw)]
    exact hw
  · intro d hd hroom hbehind hlen hstripped
    obtain ⟨w, hw, htext⟩ := trimCodeComments_text hs hcode hnull htame (by
      intro d' hd'
      rwa [Option.mem_unique hd' hd])
    rw [spilled, Option.mem_def.mp hd, Option.toList_some, List.map_singleton] at htext
    have hint : IntLength (w ++ [h.mem (code.stop + d)]).length := by
      have hle := hw.sublist.length_le
      rw [Ref.text, length_read] at hle
      rw [List.length_append, List.length_singleton]
      exact Or.inl (by omega)
    rw [htext hint] at hstripped
    exact hbehind (hstripped.sublist.mem (List.mem_append_right _ (List.mem_singleton_self _)))

/-- What is made of a text in a memory of its own. -/
def trimmed (xs : List UInt8) : List UInt8 :=
  let t := trimCodeComments (Heap.ofText xs) Str.new ⟨1, xs.length + 1⟩
  t.2.text t.1.mem

/-- The text `a/*b*/c//d`. -/
def sample : List UInt8 := [0x61, Ch.slash, star, 0x62, star, Ch.slash, 0x63, Ch.slash, Ch.slash, 0x64]

theorem parts_sample : parts sample = [.byte 0x61, .block [0x62], .byte 0x63, .line [0x64]] := by
  have hdrop : [0x62, star, Ch.slash, 0x63, Ch.slash, Ch.slash, 0x64].dropInfix? [star, Ch.slash] =
      some ([0x62], [0x63, Ch.slash, Ch.slash, 0x64]) := by decide
  have hline : parts [Ch.slash, Ch.slash, 0x64] = [.line [0x64]] := by
    rw [parts_line, show [(0x64 : UInt8)].dropWhile (fun c => !isLineEnd c) = [] by decide, parts_nil]
    decide
  rw [sample, parts_byte (by decide) (by decide) (by decide), parts_block hdrop,
    parts_byte (by decide) (by decide) (by decide), hline]

theorem trimCodeComments_stripped_sample : Stripped true (parts sample) (trimmed sample) := by
  have htext : Ref.text ⟨1, sample.length + 1⟩ (Heap.ofText sample).mem = sample := by decide
  have htame : Tame (parts sample) := by
    rw [parts_sample]
    simp [Tame, Part.isByte, Ch.slash]
  have hroom : Ref.stop ⟨1, sample.length + 1⟩ ≤ (Heap.ofText sample).brk := by decide
  have h := trimCodeComments_stripped sized_new hroom (by decide) (by rwa [htext])
  rw [htext] at h
  refine h.1 (by rw [parts_sample]; rfl) fun w hw => Or.inl ?_
  have hle : w.length ≤ 10 := hw.sublist.length_le
  omega

/-! ### Comments that are misread -/

theorem Stripped.of_block {b : Bool} {t : List UInt8} {ps : List Part} {w : List UInt8}
    (h : Stripped b (.block t :: ps) w) : Stripped false ps w := by
  cases h with
  | block h => exact h

theorem Stripped.of_literal {b : Bool} {t w : List UInt8} (h : Stripped b [.literal t] w) : w = t := by
  cases h with
  | literal h =>
    cases h
    exact List.append_nil t

theorem Stripped.of_nil {b : Bool} {w : List UInt8} (h : Stripped b [] w) : w = [] := by
  cases h
  rfl

/-- Nothing may be left of a block comment alone, and of `/*/*/` neither. Behind `/**/` the literal `"//"` is kept. -/
theorem trimCodeComments_fails :
    ¬ Stripped true (parts [Ch.slash, star, star, Ch.slash]) (trimmed [Ch.slash, star, star, Ch.slash]) ∧
    ¬ Stripped true (parts [Ch.slash, star, Ch.slash, star, Ch.slash])
      (trimmed [Ch.slash, star, Ch.slash, star, Ch.slash]) ∧
    ¬ Stripped true (parts [Ch.slash, star, star, Ch.slash, Ch.dquote, Ch.slash, Ch.slash, Ch.dquote])
      (trimmed [Ch.slash, star, star, Ch.slash, Ch.dquote, Ch.slash, Ch.slash, Ch.dquote]) := by
  refine ⟨?_, ?_, ?_⟩
  · have hdrop : [star, Ch.slash].dropInfix? [star, Ch.slash] = some ([], []) := by decide
    have hleft : trimmed [Ch.slash, star, star, Ch.slash] = [0] := by decide
    rw [parts_block hdrop, parts_nil, hleft]
    exact fun h => absurd h.of_block.of_nil (by decide)
  · have hdrop : [Ch.slash, star, Ch.slash].dropInfix? [star, Ch.slash] = some ([Ch.slash], []) := by decide
    have hleft : trimmed [Ch.slash, star, Ch.slash, star, Ch.slash] = [star, Ch.slash] := by decide
    rw [parts_block hdrop, parts_nil, hleft]
    exact fun h => absurd h.of_block.of_nil (by decide)
  · have hdrop : [star, Ch.slash, Ch.dquote, Ch.slash, Ch.slash, Ch.dquote].dropInfix? [star, Ch.slash] =
        some ([], [Ch.dquote, Ch.slash, Ch.slash, Ch.dquote]) := by decide
    have hliteral : literal Ch.dquote 0 [Ch.slash, Ch.slash, Ch.dquote] = ([Ch.slash, Ch.slash, Ch.dquote], []) := by
      decide
    have hleft : trimmed [Ch.slash, star, star, Ch.slash, Ch.dquote, Ch.slash, Ch.slash, Ch.dquote] = [Ch.dquote] := by
      decide
    rw [parts_block hdrop, parts_quote (by decide), hliteral, parts_nil, hleft]
    exact fun h => absurd h.of_block.of_literal (by decide)

end Cpcf.Rt.CodeComments
