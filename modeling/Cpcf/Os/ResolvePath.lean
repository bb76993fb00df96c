import Mathlib.Data.FinEnum
import Cpcf.Rt.RelativePath

/-!
`File::ResolveRelativePath` of `os/file_dir.cpp`, in the build that is not for Windows.

The segments that stay are moved to the front of the array they were split into, and `..` lowers their number, below
zero at the root too. A name that follows is then refused, without an output; otherwise the negative number becomes a
large one, and segments are put out that there are not.
-/

namespace Cpcf.Os.ResolvePath

open Cpcf.Lib.Memory Cpcf.Rt Cpcf.Rt.StringRef

abbrev Text := List UInt8

/-! ### The code -/

/-- The set `"/\\"`. -/
def seps : CharacterSet := CharacterSet.init [Ch.slash, Ch.backslash] [Ch.slash, Ch.backslash]

/-- `sizeofArray(seg)`. -/
def segMax : ℕ := 1024

/-- `GetCurrentDirectory`, which has 1024 bytes for the directory and its zero. -/
def getCurrentDirectory (cwd : Text) : Text := if cwd.length < 1024 then cwd else []

/-- `input`. -/
def resolveInput (cwd path : Text) : Text :=
  if path.head? ≠ some Ch.slash then getCurrentDirectory cwd ++ Ch.slash :: path else path

/-- The segments that `Split<true>` makes of the input. -/
def splitInput (input : Text) : List Text :=
  (split (ofBytes 1 input) ⟨1, input.length + 1⟩ true Ch.dquote Ch.squote segMax seps).map fun r => r.text (ofBytes 1 input)

/-- The loop over the segments, of which `n` are left: the array and `parsed`, or `none` when it returns. -/
def parseLoop : ℕ → List Text → ℤ → Option (List Text × ℤ)
  | 0, seg, parsed => some (seg, parsed)
  | n + 1, seg, parsed =>
    let s := seg.getD (seg.length - (n + 1)) []
    if s = [] ∨ s = [dot] then parseLoop n seg parsed
    else if s = [dot, dot] then parseLoop n seg (parsed - 1)
    else if parsed < 0 then none
    else parseLoop n (seg.set parsed.toNat s) (parsed + 1)

/-- The loop that puts out the first `n` segments, which is at `i` with `out` put out. It is `none` where a segment is
read that was not split off. -/
def appendLoop (n : ℕ) : ℕ → List Text → Text → Option Text
  | i, [], out => if i < n then none else some out
  | i, s :: seg, out => if i < n then appendLoop n (i + 1) seg (out ++ Ch.slash :: s) else some out

/-- The separator at the end of a path. -/
def trailing (t : Text) : Text :=
  if t.getLast? = some Ch.slash ∨ t.getLast? = some Ch.backslash then [Ch.slash] else []

/-- What is put out behind the loop, with `parsed` as a `UINT`, and nothing where it has returned. -/
def putOut (trail : Text) : Option (List Text × ℤ) → Option Text
  | none => some []
  | some (seg, parsed) => (appendLoop (UInt32.ofInt parsed).toNat 0 seg []).map (· ++ trail)

/-- `ResolveRelativePath(path, fn_out)` in the directory `cwd`: what `fn_out` becomes. -/
def resolveRelativePath (cwd path : Text) : Option Text :=
  let input := resolveInput cwd path
  let seg := splitInput input
  putOut (trailing input) (parseLoop seg.length seg 0)

/-! ### Segments -/

def isSep (c : UInt8) : Bool := c = Ch.slash || c = Ch.backslash

/-- The segments that are neither empty nor a dot. -/
def named (segs : List Text) : List Text := segs.filter fun s => s ≠ [] ∧ s ≠ [dot]

/-- A segment is put behind those that remain, or takes the last of them away. At the root none is taken away. -/
def climb (kept : List Text) (s : Text) : List Text := if s = [dot, dot] then kept.dropLast else kept ++ [s]

/-- The segments that remain. -/
def normalized (segs : List Text) : List Text := segs.foldl climb []

/-- Each segment with a separator before it. -/
def rendered (segs : List Text) : Text := (segs.map fun s => Ch.slash :: s).flatten

/-- No `..` stands where no segment remains, when `d` remain before the first one. -/
def Stays : ℕ → List Text → Prop
  | _, [] => True
  | 0, s :: segs => s ≠ [dot, dot] ∧ Stays 1 segs
  | d + 1, s :: segs => if s = [dot, dot] then Stays d segs else Stays (d + 2) segs

/-- Some `..` does, and a name stands behind it. -/
def NameBehind : ℕ → List Text → Prop
  | _, [] => False
  | 0, s :: segs => if s = [dot, dot] then ∃ n ∈ segs, n ≠ [dot, dot] else NameBehind 1 segs
  | d + 1, s :: segs => if s = [dot, dot] then NameBehind d segs else NameBehind (d + 2) segs

section

variable {seg rest kept : List Text} {s : Text} {i n : ℕ} {parsed : ℤ}

theorem named_cons (s : Text) (rest : List Text) :
    named (s :: rest) = if s = [] ∨ s = [dot] then named rest else s :: named rest := by
  unfold named
  rw [List.filter_cons]
  by_cases h : s = [] ∨ s = [dot]
  · rw [if_pos h, if_neg]
    simp only [decide_eq_true_eq, not_and_or, not_not]
    exact h
  · rw [if_neg h, if_pos]
    simpa only [decide_eq_true_eq, ← not_or] using h

/-- A turn of the loop. -/
theorem parseLoop_cons (hrest : seg.drop i = s :: rest) (parsed : ℤ) :
    parseLoop (rest.length + 1) seg parsed =
      if s = [] ∨ s = [dot] then parseLoop rest.length seg parsed
      else if s = [dot, dot] then parseLoop rest.length seg (parsed - 1)
      else if parsed < 0 then none
      else parseLoop rest.length (seg.set parsed.toNat s) (parsed + 1) := by
  have hlen := congrArg List.length hrest
  rw [List.length_drop, List.length_cons] at hlen
  have hplace : seg.length - (rest.length + 1) = i := by omega
  have hget : seg.getD i [] = s := by
    rw [List.getD_eq_getElem?_getD, ← List.head?_drop, hrest]
    rfl
  rw [parseLoop, hplace, hget]

theorem drop_succ (hrest : seg.drop i = s :: rest) : seg.drop (i + 1) = rest := by
  rw [← List.drop_drop, hrest]
  rfl

/-- Below zero a name makes the loop return, and `..` goes on downwards. -/
theorem parseLoop_negative (hrest : seg.drop i = rest) (hneg : parsed < 0) :
    ((∃ n ∈ named rest, n ≠ [dot, dot]) → parseLoop rest.length seg parsed = none) ∧
      ((∀ n ∈ named rest, n = [dot, dot]) →
        ∃ p, parseLoop rest.length seg parsed = some (seg, p) ∧ p ≤ parsed ∧ parsed ≤ p + rest.length) := by
  induction rest generalizing i parsed with
  | nil =>
    refine ⟨fun h => ?_, fun _ => ⟨parsed, rfl, le_rfl, by simp⟩⟩
    obtain ⟨n, hn, -⟩ := h
    cases hn
  | cons s rest ih =>
    have hnext := drop_succ hrest
    rw [List.length_cons, parseLoop_cons hrest, named_cons]
    by_cases hskip : s = [] ∨ s = [dot]
    · rw [if_pos hskip, if_pos hskip]
      obtain ⟨h1, h2⟩ := ih hnext hneg
      refine ⟨h1, fun hall => ?_⟩
      obtain ⟨p, hp, hle, hge⟩ := h2 hall
      exact ⟨p, hp, hle, by push_cast; omega⟩
    · rw [if_neg hskip, if_neg hskip]
      by_cases hup : s = [dot, dot]
      · rw [if_pos hup]
        have hdown : parsed - 1 < 0 := by omega
        obtain ⟨h1, h2⟩ := ih hnext hdown
        constructor
        · rintro ⟨n, hn, hne⟩
          rcases List.mem_cons.mp hn with rfl | hn
          · exact absurd hup hne
          · exact h1 ⟨n, hn, hne⟩
        · intro hall
          obtain ⟨p, hp, hle, hge⟩ := h2 fun n hn => hall n (List.mem_cons_of_mem _ hn)
          exact ⟨p, hp, by omega, by push_cast; omega⟩
      · rw [if_neg hup, if_pos hneg]
        exact ⟨fun _ => rfl, fun hall => absurd (hall s List.mem_cons_self) hup⟩

theorem stays_name (h : s ≠ [dot, dot]) (d : ℕ) (segs : List Text) : Stays d (s :: segs) ↔ Stays (d + 1) segs := by
  cases d with
  | zero => exact and_iff_right h
  | succ d => rw [Stays, if_neg h]

theorem nameBehind_name (h : s ≠ [dot, dot]) (d : ℕ) (segs : List Text) :
    NameBehind d (s :: segs) ↔ NameBehind (d + 1) segs := by
  cases d with
  | zero => rw [NameBehind, if_neg h]
  | succ d => rw [NameBehind, if_neg h]

/-- The segments `kept` are the first of the array, before the place `i`. -/
structure Kept (seg kept : List Text) (i : ℕ) : Prop where
  take : seg.take kept.length = kept
  le : kept.length ≤ i

theorem Kept.push (h : Kept seg kept i) (hrest : seg.drop i = s :: rest) :
    Kept (seg.set kept.length s) (kept ++ [s]) (i + 1) ∧ (seg.set kept.length s).drop (i + 1) = rest := by
  have hlen := congrArg List.length hrest
  have hle := h.le
  rw [List.length_drop, List.length_cons] at hlen
  refine ⟨⟨?_, ?_⟩, ?_⟩
  · rw [List.length_append, List.length_singleton, List.take_succ_eq_append_getElem (by rw [List.length_set]; omega),
      List.getElem_set_self, List.take_set_of_le (le_refl _), h.take]
  · rw [List.length_append, List.length_singleton]
    omega
  · rw [List.drop_set_of_lt (by omega), drop_succ hrest]

theorem Kept.pop (h : Kept seg kept i) : Kept seg kept.dropLast (i + 1) := by
  have hle := h.le
  refine ⟨?_, ?_⟩
  · rw [List.length_dropLast, ← Nat.min_eq_left (Nat.sub_le kept.length 1), ← List.take_take, h.take,
      List.dropLast_eq_take]
  · rw [List.length_dropLast]
    omega

/-- From a place of the array on: what remains, a return, or a negative number. -/
theorem parseLoop_spec (hrest : seg.drop i = rest) (hk : Kept seg kept i) :
    (Stays kept.length (named rest) → ∃ seg' : List Text, parseLoop rest.length seg kept.length =
        some (seg', (((named rest).foldl climb kept).length : ℤ)) ∧
        seg'.take ((named rest).foldl climb kept).length = (named rest).foldl climb kept ∧
        seg'.length = seg.length) ∧
      (NameBehind kept.length (named rest) → parseLoop rest.length seg kept.length = none) ∧
      (¬ Stays kept.length (named rest) → ¬ NameBehind kept.length (named rest) → ∃ (seg' : List Text) (p : ℤ),
        parseLoop rest.length seg kept.length = some (seg', p) ∧ p < 0 ∧ 0 ≤ p + rest.length ∧
        seg'.length = seg.length) := by
  induction rest generalizing seg kept i with
  | nil => exact ⟨fun _ => ⟨seg, rfl, hk.take, rfl⟩, fun h => h.elim, fun h => absurd trivial h⟩
  | cons s rest ih =>
    have hnext := drop_succ hrest
    rw [List.length_cons, parseLoop_cons hrest, named_cons]
    by_cases hskip : s = [] ∨ s = [dot]
    · rw [if_pos hskip, if_pos hskip]
      obtain ⟨h1, h2, h3⟩ := ih hnext ⟨hk.take, hk.le.trans (Nat.le_succ i)⟩
      refine ⟨h1, h2, fun hs hn => ?_⟩
      obtain ⟨seg', p, hp, hneg, hge, hlen⟩ := h3 hs hn
      exact ⟨seg', p, hp, hneg, by push_cast; omega, hlen⟩
    rw [if_neg hskip, if_neg hskip, List.foldl_cons]
    by_cases hup : s = [dot, dot]
    · rw [if_pos hup, climb, if_pos hup]
      rcases List.eq_nil_or_concat kept with rfl | ⟨init, l, rfl⟩
      · -- at the root the number gets negative
        have hdown : ((0 : ℕ) : ℤ) - 1 < 0 := by norm_num
        obtain ⟨h1, h2⟩ := parseLoop_negative hnext hdown
        rw [List.length_nil]
        refine ⟨fun hs => absurd hup hs.1, fun hn => ?_, fun hs hn => ?_⟩
        · rw [NameBehind, if_pos hup] at hn
          exact h1 hn
        · rw [NameBehind, if_pos hup] at hn
          push Not at hn
          obtain ⟨p, hp, hle, hge⟩ := h2 hn
          exact ⟨seg, p, hp, by omega, by push_cast at hge ⊢; omega, rfl⟩
      · have hpop := hk.pop
        rw [List.concat_eq_append, List.dropLast_concat] at hpop ⊢
        have hlen : (init ++ [l]).length = init.length + 1 := by rw [List.length_append, List.length_singleton]
        have hparsed : ((init.length + 1 : ℕ) : ℤ) - 1 = (init.length : ℕ) := by push_cast; omega
        rw [hlen, hparsed, Stays, if_pos hup, NameBehind, if_pos hup]
        obtain ⟨h1, h2, h3⟩ := ih hnext hpop
        refine ⟨h1, h2, fun hs hn => ?_⟩
        obtain ⟨seg', p, hp, hneg, hge, hlen⟩ := h3 hs hn
        exact ⟨seg', p, hp, hneg, by push_cast; omega, hlen⟩
    · obtain ⟨hpush, hnext'⟩ := hk.push hrest
      have hlen : (kept ++ [s]).length = kept.length + 1 := by rw [List.length_append, List.length_singleton]
      obtain ⟨h1, h2, h3⟩ := ih hnext' hpush
      rw [hlen] at h1 h2 h3
      rw [if_neg hup, if_neg (by omega), stays_name hup, nameBehind_name hup, climb, if_neg hup, Int.toNat_natCast]
      push_cast at h1 h2 h3 ⊢
      refine ⟨fun hs => ?_, h2, fun hs hn => ?_⟩
      · obtain ⟨seg', hp, htake, hlen'⟩ := h1 hs
        exact ⟨seg', hp, htake, by rw [hlen', List.length_set]⟩
      · obtain ⟨seg', p, hp, hneg, hge, hlen'⟩ := h3 hs hn
        exact ⟨seg', p, hp, hneg, by omega, by rw [hlen', List.length_set]⟩

/-! ### The output -/

/-- As many segments are put out as there are. -/
theorem appendLoop_eq {out : Text} (hi : i ≤ n) (hn : n ≤ i + seg.length) :
    appendLoop n i seg out = some (out ++ rendered (seg.take (n - i))) := by
  induction seg generalizing i out with
  | nil =>
    have hsame : n = i := by
      rw [List.length_nil] at hn
      omega
    rw [appendLoop, if_neg (by omega), List.take_nil, rendered, List.map_nil, List.flatten_nil, List.append_nil]
  | cons s seg ih =>
    rw [List.length_cons] at hn
    rw [appendLoop]
    by_cases hlt : i < n
    · have hsub : n - i = n - (i + 1) + 1 := by omega
      rw [if_pos hlt, ih (by omega) (by omega), hsub, List.take_succ_cons, rendered, rendered, List.map_cons,
        List.flatten_cons, List.append_assoc]
    · have hsame : n - i = 0 := by omega
      rw [if_neg hlt, hsame, List.take_zero, rendered, List.map_nil, List.flatten_nil, List.append_nil]

theorem appendLoop_none {out : Text} (hn : i + seg.length < n) : appendLoop n i seg out = none := by
  induction seg generalizing i out with
  | nil =>
    rw [List.length_nil] at hn
    rw [appendLoop, if_pos (by omega)]
  | cons s seg ih =>
    rw [List.length_cons] at hn
    rw [appendLoop, if_pos (by omega)]
    exact ih (by omega)

theorem toNat_ofInt_of_neg {p : ℤ} (hneg : p < 0) (hp : -2 ^ 31 ≤ p) : 2 ^ 31 ≤ (UInt32.ofInt p).toNat := by
  unfold UInt32.ofInt
  rw [UInt32.toNat_ofNat']
  omega

theorem toNat_ofInt_of_lt {n : ℕ} (hn : n < 2 ^ 32) : (UInt32.ofInt (n : ℤ)).toNat = n := by
  unfold UInt32.ofInt
  rw [UInt32.toNat_ofNat']
  omega

end

/-- There are not more fields than there is place for. -/
theorem length_splitLoop_le {m : Mem} {tail : ℕ} {merge : Bool} {quote1 quote2 quote : UInt8} {set : CharacterSet}
    {n count start p : ℕ} (hcount : 0 < count) :
    (splitLoop m tail merge quote1 quote2 set n count start p quote).length ≤ count := by
  induction n generalizing count start p quote with
  | zero => exact Nat.zero_le _
  | succ n ih =>
    rw [splitLoop]
    dsimp only
    split
    · exact ih hcount
    split
    · exact ih hcount
    split
    · exact ih hcount
    split
    · exact hcount
    · rename_i hmore
      have hlast : 1 < count := by
        by_contra hle
        exact hmore (.inl (by omega))
      have hnext : ∀ q, (splitLoop m tail merge quote1 quote2 set n (count - 1) q q 0).length ≤ count - 1 := fun q =>
        ih (by omega)
      rw [List.length_cons]
      have := hnext (if merge = true then scanWhile m set.has (p + 1) (tail - (p + 1)) else p + 1)
      omega

theorem length_splitInput_le (input : Text) : (splitInput input).length ≤ segMax := by
  rw [splitInput, List.length_map, split]
  split
  · exact Nat.zero_le _
  · exact length_splitLoop_le (by decide)

/-- What the function comes to, by the segments that `Split` makes of the input. -/
theorem resolveRelativePath_cases (cwd path : Text) :
    (Stays 0 (named (splitInput (resolveInput cwd path))) → resolveRelativePath cwd path =
        some (rendered (normalized (named (splitInput (resolveInput cwd path)))) ++ trailing (resolveInput cwd path))) ∧
      (NameBehind 0 (named (splitInput (resolveInput cwd path))) → resolveRelativePath cwd path = some []) ∧
      (¬ Stays 0 (named (splitInput (resolveInput cwd path))) →
        ¬ NameBehind 0 (named (splitInput (resolveInput cwd path))) → resolveRelativePath cwd path = none) := by
  have hmax := length_splitInput_le (resolveInput cwd path)
  have hsize : segMax = 1024 := rfl
  unfold resolveRelativePath
  dsimp only
  generalize splitInput (resolveInput cwd path) = seg at *
  have hkept : Kept seg [] 0 := ⟨rfl, le_rfl⟩
  obtain ⟨h1, h2, h3⟩ := parseLoop_spec (seg.drop_zero) hkept
  rw [List.length_nil, Nat.cast_zero] at h1 h2 h3
  refine ⟨fun hs => ?_, fun hn => ?_, fun hs hn => ?_⟩
  · obtain ⟨seg', hp, htake, hlen⟩ := h1 hs
    change seg'.take (normalized (named seg)).length = normalized (named seg) at htake
    have hle := congrArg List.length htake
    rw [List.length_take] at hle
    rw [hp, putOut]
    change (appendLoop (UInt32.ofInt ((normalized (named seg)).length : ℤ)).toNat 0 seg' []).map _ = _
    rw [toNat_ofInt_of_lt (by omega), appendLoop_eq (Nat.zero_le _) (by omega), Nat.sub_zero, Option.map_some,
      List.nil_append, htake]
  · rw [h2 hn]
    rfl
  · obtain ⟨seg', p, hp, hneg, hge, hlen⟩ := h3 hs hn
    have hlarge := toNat_ofInt_of_neg hneg (by omega)
    rw [hp, putOut, appendLoop_none (by omega), Option.map_none]

/-! ### The path that is meant -/

/-- The path from the root on. -/
def absolutePath (cwd path : Text) : Text := if path.head? = some Ch.slash then path else cwd ++ Ch.slash :: path

/-- Its segments, without those that are empty or a dot. -/
def pathSegments (t : Text) : List Text := named (t.splitOnP isSep)

/-- The normalised path. -/
def reference (t : Text) : Text := rendered (normalized (pathSegments t)) ++ trailing t

def ResolvesRight (cwd path : Text) : Prop := resolveRelativePath cwd path = some (reference (absolutePath cwd path))

/-- What `Split` makes of the input is what remains of the path, or nothing is put out and nothing remains. -/
def Understood (cwd path : Text) : Prop :=
  Stays 0 (named (splitInput (resolveInput cwd path))) ∧
      rendered (normalized (named (splitInput (resolveInput cwd path)))) =
        rendered (normalized (pathSegments (absolutePath cwd path))) ∨
    NameBehind 0 (named (splitInput (resolveInput cwd path))) ∧ reference (absolutePath cwd path) = []

/-- The directory, if it is needed, is found and has no quotation marks, and no segment is too long. -/
def Plain (cwd path : Text) : Prop :=
  (path.head? = some Ch.slash ∨ cwd.length < 1024 ∧ ∀ c ∈ cwd, c ≠ Ch.dquote ∧ c ≠ Ch.squote) ∧
    ∀ s ∈ pathSegments (absolutePath cwd path), IntLength s.length

section

variable {cwd path t : Text}

theorem seps_has : seps.has = isSep := by
  funext c
  revert c
  set_option maxRecDepth 20000 in decide

theorem trailing_append (a : Text) {b : Text} (hb : b ≠ []) : trailing (a ++ b) = trailing b := by
  rw [trailing, trailing, List.getLast?_append_of_ne_nil a hb]

theorem trailing_resolveInput (cwd path : Text) : trailing (resolveInput cwd path) = trailing (absolutePath cwd path) := by
  unfold resolveInput absolutePath
  by_cases h : path.head? = some Ch.slash
  · rw [if_neg (not_not.mpr h), if_pos h]
  · rw [if_pos h, if_neg h, trailing_append _ (List.cons_ne_nil _ _), trailing_append _ (List.cons_ne_nil _ _)]

/-- The function is right just for what is understood. -/
theorem resolvesRight_iff_understood (cwd path : Text) : ResolvesRight cwd path ↔ Understood cwd path := by
  obtain ⟨h1, h2, h3⟩ := resolveRelativePath_cases cwd path
  unfold ResolvesRight Understood
  rw [trailing_resolveInput] at h1
  constructor
  · intro h
    by_cases hs : Stays 0 (named (splitInput (resolveInput cwd path)))
    · rw [h1 hs, Option.some.injEq, reference, List.append_left_inj] at h
      exact .inl ⟨hs, h⟩
    · by_cases hn : NameBehind 0 (named (splitInput (resolveInput cwd path)))
      · rw [h2 hn, Option.some.injEq] at h
        exact .inr ⟨hn, h.symm⟩
      · rw [h3 hs hn] at h
        cases h
  · rintro (⟨hs, hsame⟩ | ⟨hn, hnil⟩)
    · rw [h1 hs, hsame, reference]
    · rw [h2 hn, hnil]

/-- Separators that stand together make no segment but empty ones. -/
theorem splitOnP_merged {sep : UInt8 → Bool} (pre : Text) (hpre : ∀ c ∈ pre, sep c = false) (t : Text) :
    (pre ++ merged sep (pre = []) t).splitOnP sep = ((pre ++ t).splitOnP sep).filter (· ≠ []) ∨
      (pre ++ merged sep (pre = []) t).splitOnP sep = ((pre ++ t).splitOnP sep).filter (· ≠ []) ++ [[]] := by
  induction t generalizing pre with
  | nil =>
    rw [merged, List.append_nil, List.splitOnP_eq_singleton hpre]
    by_cases hnil : pre = []
    · exact .inr (by simp [hnil])
    · exact .inl (by simp [hnil])
  | cons c t ih =>
    rw [merged]
    by_cases hsep : sep c = true
    · have hnext := ih [] fun b hb => absurd hb List.not_mem_nil
      rw [if_pos hsep, List.splitOnP_append_cons_of_forall_mem hpre c hsep]
      by_cases hnil : pre = []
      · rw [if_pos (by simpa using hnil), hnil, List.filter_cons_of_neg (by simp)]
        exact hnext
      · rw [if_neg (by simpa using hnil), List.splitOnP_append_cons_of_forall_mem hpre c hsep,
          List.filter_cons_of_pos (by simpa using hnil)]
        exact hnext.imp (congrArg _) (congrArg _)
    · have hmove : ∀ u, pre ++ c :: u = pre ++ [c] ++ u := fun u => by simp
      have hnext := ih (pre ++ [c]) fun b hb => by
        rcases List.mem_append.mp hb with hb | hb
        · exact hpre b hb
        · rw [List.mem_singleton.mp hb]
          simpa using hsep
      rw [if_neg hsep, hmove, hmove]
      simpa using hnext

theorem named_append (a b : List Text) : named (a ++ b) = named a ++ named b := List.filter_append a b

theorem named_filter_ne_nil (l : List Text) : named (l.filter (· ≠ [])) = named l := by
  unfold named
  rw [List.filter_filter]
  refine List.filter_congr fun s _ => ?_
  by_cases h : s = [] <;> simp [h]

theorem splitOnP_sep {sep : UInt8 → Bool} {c : UInt8} (h : sep c = true) (t : Text) :
    (c :: t).splitOnP sep = [] :: t.splitOnP sep := by
  rw [List.splitOnP_cons_eq_if_modifyHead, if_pos h]

/-- The texts of the pieces of a path from the root on: an empty one, the segments, and perhaps another empty one. -/
theorem pieces_root (t : Text) :
    ∃ e : List Text, (∀ s ∈ e, s = []) ∧
      (pieces isSep true 1 1 false (Ch.slash :: t)).map
        (fun x => read (ofBytes 1 (Ch.slash :: t)) x.1 (x.2 - x.1)) =
      [] :: ((t.splitOnP isSep).filter (· ≠ []) ++ e) := by
  have hnone : ∀ c ∈ ([] : Text), isSep c = false := fun c hc => absurd hc List.not_mem_nil
  have hholds : Holds (ofBytes 1 (Ch.slash :: t)) 1 ([] ++ Ch.slash :: t) := holds_ofBytes 1 _
  have htexts := pieces_texts isSep false [] hholds rfl hnone fun hf => absurd hf Bool.false_ne_true
  have hslash : isSep Ch.slash = true := rfl
  rw [List.nil_append, merged, if_pos hslash, if_neg Bool.false_ne_true, splitOnP_sep hslash] at htexts
  rcases splitOnP_merged [] hnone t with h | h
  · refine ⟨[], fun s hs => absurd hs List.not_mem_nil, htexts.trans ?_⟩
    rw [List.append_nil]
    exact congrArg _ h
  · refine ⟨[[]], fun s hs => List.mem_singleton.mp hs, htexts.trans ?_⟩
    exact congrArg _ h

/-- A piece is the text of its field when no segment is too long. -/
theorem field_text (hsize : ∀ s ∈ named (t.splitOnP isSep), IntLength s.length) {x : ℕ × ℕ}
    (hx : x ∈ pieces isSep true 1 1 false (Ch.slash :: t)) :
    (Ref.ofEnds x.1 x.2).text (ofBytes 1 (Ch.slash :: t)) = read (ofBytes 1 (Ch.slash :: t)) x.1 (x.2 - x.1) := by
  obtain ⟨e, he, hpieces⟩ := pieces_root t
  obtain ⟨-, hle, -⟩ := pieces_bounds false _ le_rfl hx
  have hmem : read (ofBytes 1 (Ch.slash :: t)) x.1 (x.2 - x.1) ∈ [] :: ((t.splitOnP isSep).filter (· ≠ []) ++ e) :=
    hpieces ▸ List.mem_map_of_mem hx
  have hlen := length_read (ofBytes 1 (Ch.slash :: t)) x.1 (x.2 - x.1)
  have hint : IntLength (x.2 - x.1) := by
    generalize read (ofBytes 1 (Ch.slash :: t)) x.1 (x.2 - x.1) = u at hmem hlen
    rw [← hlen]
    by_cases hu : u = [] ∨ u = [dot]
    · rcases hu with rfl | rfl
      · exact .inl (by decide)
      · exact .inl (by decide)
    · obtain ⟨hnil, hdot⟩ := not_or.mp hu
      rcases List.mem_cons.mp hmem with h | h
      · exact absurd h hnil
      · rcases List.mem_append.mp h with h | h
        · refine hsize u (List.mem_filter.mpr ⟨(List.mem_filter.mp h).1, ?_⟩)
          simp [hnil, hdot]
        · exact absurd (he u h) hnil
  have hstop := ofEnds_getLength x.1 hint
  rw [Nat.add_sub_cancel' hle] at hstop
  rw [Ref.text, hstop, ofEnds_p]

/-- `Split` finds the segments of a path from the root on, when there is place for them. -/
theorem named_splitInput (hq : ∀ c ∈ Ch.slash :: t, c ≠ Ch.dquote ∧ c ≠ Ch.squote)
    (hsize : ∀ s ∈ pathSegments (Ch.slash :: t), IntLength s.length)
    (hfew : (((Ch.slash :: t).splitOnP isSep).filter (· ≠ [])).length < segMax) :
    named (splitInput (Ch.slash :: t)) = pathSegments (Ch.slash :: t) := by
  have hslash : isSep Ch.slash = true := rfl
  rw [pathSegments, splitOnP_sep hslash, named_cons, if_pos (.inl rfl)] at hsize ⊢
  rw [splitOnP_sep hslash, List.filter_cons_of_neg (by simp)] at hfew
  have htext : Ref.text ⟨1, (Ch.slash :: t).length + 1⟩ (ofBytes 1 (Ch.slash :: t)) = Ch.slash :: t :=
    (holds_ofBytes 1 _).read_eq
  have hne : ¬ (Ref.isEmpty ⟨1, (Ch.slash :: t).length + 1⟩) = true :=
    (Ref.not_isEmpty_iff _).mpr ⟨one_ne_zero, by simp⟩
  obtain ⟨e, he, hpieces⟩ := pieces_root t
  have hfields : splitInput (Ch.slash :: t) = ([] :: ((t.splitOnP isSep).filter (· ≠ []) ++ e)).take segMax := by
    rw [splitInput, split_eq hne (by rw [htext]; exact hq) (by decide), htext, seps_has, List.map_map, ← hpieces,
      ← List.map_take]
    exact List.map_congr_left fun x hx => field_text hsize (List.mem_of_mem_take hx)
  obtain ⟨k, hk⟩ : ∃ k, segMax = k + 1 := ⟨1023, rfl⟩
  have hrest : named (e.take (k - ((t.splitOnP isSep).filter (· ≠ [])).length)) = [] := by
    refine List.filter_eq_nil_iff.mpr fun s hs => ?_
    simp [he s (List.mem_of_mem_take hs)]
  rw [hfields, hk, List.take_succ_cons, named_cons, if_pos (.inl rfl), List.take_append,
    List.take_of_length_le (by omega), named_append, named_filter_ne_nil, hrest, List.append_nil]

end

/-! ### The condition -/

instance decidableStays : ∀ (d : ℕ) (segs : List Text), Decidable (Stays d segs)
  | _, [] => isTrue trivial
  | 0, s :: segs =>
    have := decidableStays 1 segs
    inferInstanceAs (Decidable (s ≠ [dot, dot] ∧ Stays 1 segs))
  | d + 1, s :: segs =>
    have := decidableStays d segs
    have := decidableStays (d + 2) segs
    inferInstanceAs (Decidable (if s = [dot, dot] then Stays d segs else Stays (d + 2) segs))

/-- **A path is resolved** when no `..` goes above the root, and where one does only if nothing of the path remains and
a name stands behind it. This holds for paths that `Split` takes apart as they are meant; of the others it is those of
which what it makes remains the same. -/
theorem resolvesRight_iff (cwd path : Text) (habs : cwd.head? = some Ch.slash)
    (hq : ∀ c ∈ path, c ≠ Ch.dquote ∧ c ≠ Ch.squote)
    (hfew : (((absolutePath cwd path).splitOnP isSep).filter (· ≠ [])).length < segMax) :
    (ResolvesRight cwd path ↔ Understood cwd path) ∧
      (Plain cwd path → (ResolvesRight cwd path ↔ Stays 0 (pathSegments (absolutePath cwd path)) ∨
        NameBehind 0 (pathSegments (absolutePath cwd path)) ∧ reference (absolutePath cwd path) = [])) := by
  refine ⟨resolvesRight_iff_understood cwd path, fun hplain => ?_⟩
  obtain ⟨hdir, hsize⟩ := hplain
  have hinput : resolveInput cwd path = absolutePath cwd path := by
    unfold resolveInput absolutePath getCurrentDirectory
    by_cases h : path.head? = some Ch.slash
    · rw [if_neg (not_not.mpr h), if_pos h]
    · rw [if_pos h, if_neg h, if_pos (hdir.resolve_left h).1]
  have hquotes : ∀ c ∈ absolutePath cwd path, c ≠ Ch.dquote ∧ c ≠ Ch.squote := by
    intro c hc
    unfold absolutePath at hc
    by_cases h : path.head? = some Ch.slash
    · rw [if_pos h] at hc
      exact hq c hc
    · rw [if_neg h] at hc
      rcases List.mem_append.mp hc with hc | hc
      · exact (hdir.resolve_left h).2 c hc
      · rcases List.mem_cons.mp hc with rfl | hc
        · decide
        · exact hq c hc
  obtain ⟨t, ht⟩ : ∃ t, absolutePath cwd path = Ch.slash :: t := by
    unfold absolutePath
    by_cases h : path.head? = some Ch.slash
    · rw [if_pos h]
      exact ⟨path.tail, List.eq_cons_of_mem_head? h⟩
    · rw [if_neg h, List.eq_cons_of_mem_head? habs]
      exact ⟨_, rfl⟩
  have hsegs : named (splitInput (resolveInput cwd path)) = pathSegments (absolutePath cwd path) := by
    rw [hinput]
    rw [ht] at hquotes hsize hfew ⊢
    exact named_splitInput hquotes hsize hfew
  rw [resolvesRight_iff_understood, Understood, hsegs, and_iff_left rfl]

/-- From `/home` the path `a/../b/` is `/home/b/`. -/
theorem resolvesRight_iff_parent : ResolvesRight [0x2f, 0x68] [0x61, 0x2f, 0x2e, 0x2e, 0x2f, 0x62, 0x2f] :=
  ((resolvesRight_iff [0x2f, 0x68] [0x61, 0x2f, 0x2e, 0x2e, 0x2f, 0x62, 0x2f] (by decide) (by decide +kernel)
    (by decide +kernel)).2 ⟨by decide +kernel, by decide +kernel⟩).mpr (.inl (by decide +kernel))

/-- `/..` is the root. -/
theorem resolvesRight_fails : ¬ ∀ cwd path : Text, cwd.head? = some Ch.slash →
    (∀ c ∈ path, c ≠ Ch.dquote ∧ c ≠ Ch.squote) →
    (((absolutePath cwd path).splitOnP isSep).filter (· ≠ [])).length < segMax → ResolvesRight cwd path := by
  intro h
  have hnone : resolveRelativePath [0x2f] [0x2f, 0x2e, 0x2e] = none := by decide
  have hright := h [0x2f] [0x2f, 0x2e, 0x2e] (by decide) (by decide +kernel) (by decide +kernel)
  rw [ResolvesRight, hnone] at hright
  cases hright

end Cpcf.Os.ResolvePath
