import Mathlib.Data.List.TakeWhile
import Cpcf.Rt.NextLine

/-!
`os::FileReadLine`: the lines of a file that is read through a buffer, in the build that is not for Windows.

The buffer is filled again only when the line before begins behind its middle. The next line is looked for in what the
buffer holds then, whether it holds the whole of it or not.
-/

namespace Cpcf.Rt.StringRef

open Cpcf.Lib.Memory

/-- The loop of `GetNextLineWithQuote` at the line `seg`: where the last line ends. There are at most as many lines as
the first argument. -/
def quoteEnd (m : Mem) (r : Ref) (QUOTE : UInt8) : ℕ → Ref → ℕ → ℕ
  | 0, seg, _ => seg.stop
  | n + 1, seg, quote_co =>
    let quote_co := quote_co + (seg.text m).count QUOTE
    if quote_co % 2 = 0 then seg.stop
    else
      match getNextLine m r true seg with
      | none => seg.stop
      | some seg => quoteEnd m r QUOTE n seg quote_co

/-- `GetNextLineWithQuote(x, skip_empty_line, QUOTE)`, which skips empty lines in any case. -/
def getNextLineWithQuote (m : Mem) (r : Ref) (QUOTE : UInt8) (x : Ref) : Option Ref :=
  (getNextLine m r true x).map fun seg => Ref.ofEnds seg.p (quoteEnd m r QUOTE (r.getLength + 1) seg 0)

end Cpcf.Rt.StringRef

namespace Cpcf.Os.ReadLine

open Cpcf.Lib.Memory Cpcf.Rt Cpcf.Rt.StringRef
open Cpcf.Rt.Lines (isNewline lines yielded)

/-! ### The code -/

def FRL_BUFSIZE : ℕ := 256 * 1024

def signature : List UInt8 := [0xef, 0xbb, 0xbf]

/-- A `FileReadLine` whose buffer begins at `base`. A read of the file gives as many bytes as were asked for, or those
that are left. -/
structure FileReadLine where
  mem : Mem
  base : ℕ
  bufused : ℕ
  lastpos : ℕ
  file : List UInt8
  pos : ℕ

namespace FileReadLine

/-- `_file.Read(_buf.Begin() + _bufused, FRL_BUFSIZE - _bufused)`, added to `_bufused`. -/
def refill (s : FileReadLine) : FileReadLine :=
  let data := (s.file.drop s.pos).take (FRL_BUFSIZE - s.bufused)
  { s with
    mem := memcpy s.mem (s.base + s.bufused) data
    bufused := s.bufused + data.length
    pos := s.pos + data.length }

/-- The buffer from the beginning of the file on. -/
def reload (s : FileReadLine) : FileReadLine := { s with bufused := 0, pos := 0 }.refill

/-- What is before `line` is removed from the buffer. It is `none` where the buffer does not hold the beginning of the
line, so that a negative size is moved. -/
def shift (s : FileReadLine) (line : Ref) : Option (FileReadLine × Ref) :=
  let removed := line.p - s.base
  if line.p ≤ s.base + s.bufused then
    some ({ s with
      mem := memcpy s.mem s.base (read s.mem line.p (s.base + s.bufused - line.p))
      bufused := s.bufused - removed
      lastpos := s.lastpos + removed }, { line with p := s.base })
  else none

/-- `GetNextLine` or `GetNextLineWithQuote` on a text in the buffer. It is `none` where the end of the line is not found
before the end of the buffer and the text goes on. -/
def nextOf (s : FileReadLine) (text line : Ref) (quote : UInt8) : Option (Option Ref) :=
  let y := if quote ≠ 0 then StringRef.getNextLineWithQuote s.mem text quote line
    else StringRef.getNextLine s.mem text true line
  if text.stop ≤ s.base + FRL_BUFSIZE ∨ (y.any fun y => y.stop < s.base + FRL_BUFSIZE) = true then some y else none

/-- `GetNextLineWithQuote(line, quote)`: the line, or `none` when `false` is returned. Where memory outside the buffer
is used there is no outcome. -/
def getNextLineWithQuote (s : FileReadLine) (line : Ref) (quote : UInt8) : Option (FileReadLine × Option Ref) :=
  if line.p < s.base ∨ s.base + FRL_BUFSIZE ≤ line.p then
    let s := s.reload
    if s.bufused = 0 then some (s, none)
    else
      let s : FileReadLine := { s with lastpos := 0 }
      if s.mem s.base = 0xef ∧ s.mem (s.base + 1) = 0xbb ∧ s.mem (s.base + 2) = 0xbf then
        (s.nextOf ⟨s.base + 3, (UInt32.ofNat s.bufused - 3).toNat + 1⟩ line quote).map (s, ·)
      else (s.nextOf ⟨s.base, s.bufused + 1⟩ line quote).map (s, ·)
  else if s.base + FRL_BUFSIZE / 2 < line.p then
    (s.shift line).bind fun (s, line) =>
      let s := s.refill
      (s.nextOf ⟨s.base, s.bufused + 1⟩ line quote).map (s, ·)
  else (s.nextOf ⟨s.base, s.bufused + 1⟩ line quote).map (s, ·)

/-- `GetNextLine(line)`. -/
def getNextLine (s : FileReadLine) (line : Ref) : Option (FileReadLine × Option Ref) := s.getNextLineWithQuote line 0

/-- `while(GetNextLine(line))`: the lines one after the other, `none` when `n` calls are not enough. -/
def nextLines : ℕ → FileReadLine → Ref → Option (List (List UInt8))
  | 0, _, _ => none
  | n + 1, s, line =>
    (s.getNextLine line).bind fun r =>
      match r.2 with
      | none => some []
      | some y => (nextLines n r.1 y).map (y.text r.1.mem :: ·)

end FileReadLine

/-! ### Where the lines stand -/

/-- The beginnings and ends of the lines that are not empty, in a text that begins at `pos`. -/
def spans (pos : ℕ) (t : List UInt8) : List (ℕ × ℕ) :=
  if t.dropWhile isNewline = [] then []
  else
    let line := (t.dropWhile isNewline).takeWhile fun b => !isNewline b
    let start := pos + (t.takeWhile isNewline).length
    (start, start + line.length) ::
      spans (start + line.length) ((t.dropWhile isNewline).dropWhile fun b => !isNewline b)
termination_by t.length
decreasing_by
  rename_i h
  obtain ⟨b, t', rfl⟩ := List.exists_cons_of_ne_nil (fun hnil => h (by rw [hnil]; rfl) : t ≠ [])
  exact Nat.lt_succ_of_le (Lines.lineText_length true b t')

/-- The lines are found in the buffer, where `window` is the beginning of what it holds. -/
def Fits (window : ℕ) : List (ℕ × ℕ) → Prop
  | [] => True
  | (start, stop) :: t =>
    stop ≤ window + FRL_BUFSIZE ∧ Fits (if window + FRL_BUFSIZE / 2 < start then start else window) t

section Shape

variable {nl l rest t : List UInt8}

/-- A text with a line `l` behind the empty ones. -/
structure Shape (nl l rest : List UInt8) : Prop where
  before : ∀ b ∈ nl, isNewline b = true
  line : ∀ b ∈ l, isNewline b = false
  ne : l ≠ []
  after : ∀ b ∈ rest.head?, isNewline b = true

theorem dropWhile_all (h : ∀ b ∈ nl, isNewline b = true) (t : List UInt8) :
    (nl ++ t).dropWhile isNewline = t.dropWhile isNewline := by
  rw [List.dropWhile_append_of_pos h]

theorem Shape.dropWhile (h : Shape nl l rest) : (nl ++ (l ++ rest)).dropWhile isNewline = l ++ rest := by
  obtain ⟨b, l', rfl⟩ := List.exists_cons_of_ne_nil h.ne
  rw [dropWhile_all h.before, List.cons_append, List.dropWhile_cons, h.line b List.mem_cons_self]
  rfl

theorem Shape.takeWhile (h : Shape nl l rest) : (nl ++ (l ++ rest)).takeWhile isNewline = nl := by
  have hsplit := List.takeWhile_append_dropWhile (p := isNewline) (l := nl ++ (l ++ rest))
  rw [h.dropWhile] at hsplit
  exact List.append_cancel_right hsplit

theorem Shape.line_takeWhile (h : Shape nl l rest) : ((l ++ rest).takeWhile fun b => !isNewline b) = l := by
  rw [List.takeWhile_append_of_pos fun b hb => by rw [h.line b hb]; rfl]
  cases rest with
  | nil => rw [List.takeWhile_nil, List.append_nil]
  | cons b t => rw [List.takeWhile_cons, h.after b rfl, Bool.not_true, if_neg Bool.false_ne_true, List.append_nil]

theorem Shape.line_dropWhile (h : Shape nl l rest) : ((l ++ rest).dropWhile fun b => !isNewline b) = rest := by
  have hsplit := List.takeWhile_append_dropWhile (p := fun b => !isNewline b) (l := l ++ rest)
  rw [h.line_takeWhile] at hsplit
  exact List.append_cancel_left hsplit

theorem Shape.getNextLine (h : Shape nl l rest) :
    Lines.getNextLine true (nl ++ (l ++ rest)) = some (l, rest) := by
  unfold Lines.getNextLine
  simp only [if_true, h.dropWhile, h.line_takeWhile, h.line_dropWhile]
  rw [if_neg (by simp [h.ne])]

theorem Shape.spans (h : Shape nl l rest) (pos : ℕ) : spans pos (nl ++ (l ++ rest)) =
    (pos + nl.length, pos + nl.length + l.length) :: ReadLine.spans (pos + nl.length + l.length) rest := by
  rw [ReadLine.spans]
  simp only [h.dropWhile, h.takeWhile, h.line_takeWhile, h.line_dropWhile]
  rw [if_neg (by simp [h.ne])]

/-- A text has no line, or it has this shape. -/
theorem empty_or_shape (t : List UInt8) :
    (∀ b ∈ t, isNewline b = true) ∨ ∃ nl l rest, Shape nl l rest ∧ t = nl ++ (l ++ rest) := by
  by_cases hnil : t.dropWhile isNewline = []
  · exact .inl fun b hb => List.dropWhile_eq_nil_iff.mp hnil b hb
  · refine .inr ⟨t.takeWhile isNewline, (t.dropWhile isNewline).takeWhile fun b => !isNewline b,
      (t.dropWhile isNewline).dropWhile fun b => !isNewline b, ⟨fun b hb => List.mem_takeWhile_imp hb, fun b hb => ?_, ?_,
      Lines.head?_dropWhile _⟩, ?_⟩
    · simpa using List.mem_takeWhile_imp hb
    · obtain ⟨b, u, hu⟩ := List.exists_cons_of_ne_nil hnil
      have hb := List.head_dropWhile_not isNewline hnil
      simp only [hu, List.head_cons] at hb
      rw [hu, List.takeWhile_cons, hb]
      simp
    · rw [List.takeWhile_append_dropWhile, List.takeWhile_append_dropWhile]

theorem getNextLine_empty (h : ∀ b ∈ t, isNewline b = true) : Lines.getNextLine true t = none := by
  unfold Lines.getNextLine
  simp only [if_true, List.dropWhile_eq_nil_iff.mpr h]
  rfl

theorem spans_empty (h : ∀ b ∈ t, isNewline b = true) (pos : ℕ) : spans pos t = [] := by
  rw [spans, if_pos (List.dropWhile_eq_nil_iff.mpr h)]

/-- The beginning of a text has the line, if it is long enough. -/
theorem Shape.take (h : Shape nl l rest) {k : ℕ} (hk : nl.length + l.length ≤ k) :
    Shape nl l (rest.take (k - (nl.length + l.length))) ∧
      (nl ++ (l ++ rest)).take k = nl ++ (l ++ rest.take (k - (nl.length + l.length))) := by
  refine ⟨⟨h.before, h.line, h.ne, fun b hb => h.after b ?_⟩, ?_⟩
  · rw [List.head?_take] at hb
    split at hb
    · cases hb
    · exact hb
  · rw [List.take_append, List.take_of_length_le (by omega), List.take_append, List.take_of_length_le (by omega),
      Nat.sub_sub]

/-- Otherwise it has no line or one that is too short. -/
theorem Shape.take_short (h : Shape nl l rest) {k : ℕ} (hk : k < nl.length + l.length) {l' rest' : List UInt8}
    (hl : Lines.getNextLine true ((nl ++ (l ++ rest)).take k) = some (l', rest')) : l'.length < l.length := by
  by_cases hnl : k ≤ nl.length
  · rw [List.take_append_of_le_length hnl, getNextLine_empty fun b hb => h.before b (List.mem_of_mem_take hb)] at hl
    cases hl
  · have hcut : (nl ++ (l ++ rest)).take k = nl ++ (l.take (k - nl.length) ++ []) := by
      rw [List.take_append, List.take_of_length_le (by omega), List.take_append_of_le_length (by omega), List.append_nil]
    have hshape : Shape nl (l.take (k - nl.length)) [] := by
      refine ⟨h.before, fun b hb => h.line b (List.mem_of_mem_take hb), fun hnil => ?_, fun b hb => by cases hb⟩
      have := congrArg List.length hnil
      rw [List.length_take, List.length_nil] at this
      omega
    rw [hcut, hshape.getNextLine] at hl
    obtain ⟨rfl, -⟩ := Prod.mk.inj (Option.some.inj hl)
    rw [List.length_take]
    omega

end Shape

/-! ### What the buffer holds -/

section Window

variable {s : FileReadLine} {w k : ℕ}

/-- The buffer holds `k` bytes of the file from `w` on, or those that are left, and the file is read behind them. -/
structure Held (s : FileReadLine) (w k : ℕ) : Prop where
  holds : Holds s.mem s.base ((s.file.drop w).take k)
  used : s.bufused = ((s.file.drop w).take k).length
  pos : s.pos = w + s.bufused

theorem Held.bufused_le (h : Held s w k) : s.bufused ≤ k := by
  rw [h.used]
  exact List.length_take_le _ _

theorem Held.bufused_eq (h : Held s w k) : s.bufused = min k (s.file.length - w) := by
  rw [h.used, List.length_take, List.length_drop]

/-- The buffer is filled. -/
theorem Held.refill (h : Held s w k) (hk : k ≤ FRL_BUFSIZE) : Held s.refill w FRL_BUFSIZE := by
  have hle := h.bufused_le
  have hsame : (s.file.drop w).take k = (s.file.drop w).take s.bufused := by
    rw [h.used, List.length_take, ← List.take_take, List.take_length]
  have hall : (s.file.drop w).take FRL_BUFSIZE =
      (s.file.drop w).take k ++ (s.file.drop s.pos).take (FRL_BUFSIZE - s.bufused) := by
    rw [hsame, h.pos, ← List.drop_drop, ← List.take_add, Nat.add_sub_cancel' (hle.trans hk)]
  refine ⟨?_, ?_, ?_⟩
  · change Holds (memcpy s.mem (s.base + s.bufused) _) s.base ((s.file.drop w).take FRL_BUFSIZE)
    rw [hall, holds_append, ← h.used]
    exact ⟨h.holds.memcpy (.inl (by rw [h.used])), holds_memcpy _ _ _⟩
  · change s.bufused + _ = ((s.file.drop w).take FRL_BUFSIZE).length
    rw [hall, List.length_append, ← h.used]
  · change s.pos + _ = w + (s.bufused + _)
    rw [h.pos, Nat.add_assoc]

theorem held_reload (s : FileReadLine) : Held s.reload 0 FRL_BUFSIZE :=
  Held.refill (s := { s with bufused := 0, pos := 0 }) (k := 0) ⟨trivial, rfl, rfl⟩ (Nat.zero_le _)

/-- What is before a line is removed. -/
theorem Held.shift (h : Held s w FRL_BUFSIZE) {n : ℕ} (hn : n ≤ s.bufused) (len : ℕ) :
    ∃ s', s.shift ⟨s.base + n, len⟩ = some (s', ⟨s.base, len⟩) ∧ Held s' (w + n) (FRL_BUFSIZE - n) ∧
      s'.base = s.base ∧ s'.file = s.file := by
  have hdrop : (s.file.drop (w + n)).take (FRL_BUFSIZE - n) = ((s.file.drop w).take FRL_BUFSIZE).drop n := by
    rw [← List.drop_drop, List.drop_take]
  have hmoved : read s.mem (s.base + n) (s.base + s.bufused - (s.base + n)) =
      (s.file.drop (w + n)).take (FRL_BUFSIZE - n) := by
    have hleft : s.base + s.bufused - (s.base + n) = s.bufused - n := by omega
    rw [hleft, read_drop s.mem s.base hn, hdrop, h.used, h.holds.read_eq]
  unfold FileReadLine.shift
  dsimp only
  rw [if_pos (by omega), hmoved, Nat.add_sub_cancel_left]
  refine ⟨_, rfl, ⟨holds_memcpy _ _ _, ?_, ?_⟩, rfl, rfl⟩
  · change s.bufused - n = _
    rw [hdrop, List.length_drop, ← h.used]
  · change s.pos = w + n + (s.bufused - n)
    rw [h.pos]
    omega

end Window

/-! ### The next line -/

section Next

variable {s : FileReadLine} {w place : ℕ} {text x : Ref} {nl l rest : List UInt8}

/-- The next line is looked for in `text`, which is what the buffer holds of the file from `place` on. -/
structure Looking (s : FileReadLine) (w : ℕ) (text x : Ref) (place : ℕ) : Prop where
  held : Held s w FRL_BUFSIZE
  start : s.base ≤ text.p
  stop : text.stop = s.base + s.bufused
  left : LeftAt s.mem text x ((s.file.drop place).take (w + FRL_BUFSIZE - place))
  inside : w ≤ place ∧ place ≤ w + s.bufused

/-- The line `y` is what the file has from `start` to `stop`. -/
structure LineAt (s : FileReadLine) (w : ℕ) (y : Ref) (start stop : ℕ) : Prop where
  p : y.p = s.base + (start - w)
  length : start + y.getLength = stop
  after : w ≤ start
  lt : start < stop
  inside : stop ≤ w + s.bufused

theorem Looking.nextOf (h : Looking s w text x place) :
    s.nextOf text x 0 = some (StringRef.getNextLine s.mem text true x) := by
  have hle := h.held.bufused_le
  have hstop := h.stop
  unfold FileReadLine.nextOf
  simp only [ne_eq, not_true_eq_false, if_false]
  exact if_pos (Or.inl (by omega))

/-- There is no line left. -/
theorem Looking.next_none (h : Looking s w text x place) (hnone : ∀ b ∈ s.file.drop place, isNewline b = true) :
    s.nextOf text x 0 = some none := by
  rw [h.nextOf, getNextLine_eq true h.left.holds h.left.stop,
    getNextLine_empty fun b hb => hnone b (List.mem_of_mem_take hb)]
  rfl

/-- Where a line of the length `l` is that ends before `r` bytes of the text, which ends with what the buffer holds. -/
theorem line_place {B used base q n l r file : ℕ} (hw : w ≤ place) (hfits : place + n + l ≤ w + B) (hl : 0 < l)
    (hfile : file - place = n + (l + r)) (hused : used = min B (file - w))
    (hq : q + (l + min (w + B - place - (n + l)) r) = base + used) :
    q = base + (place + n - w) ∧ place + n + l ≤ w + used := by
  obtain ⟨d, hd⟩ : ∃ d, place + n + l = w + d :=
    Nat.exists_eq_add_of_le (hw.trans ((Nat.le_add_right _ _).trans (Nat.le_add_right _ _)))
  have hdB : d ≤ B := Nat.le_of_add_le_add_left (hd ▸ hfits)
  have hrest : w + B - place - (n + l) = B - d := by
    clear * - hd
    omega
  have hend : file = place + (n + (l + r)) := by
    clear * - hfile hl
    omega
  have hbehind : file - w = d + r := by
    rw [hend]
    clear * - hd
    omega
  have hmin : min B (d + r) = d + min (B - d) r := by
    rw [← Nat.add_min_add_left, Nat.add_sub_cancel' hdB]
  rw [hbehind, hmin] at hused
  rw [hrest, hused] at hq
  generalize min (B - d) r = x at hq hused
  clear * - hw hl hd hused hq
  omega

/-- The next line is in the buffer. -/
theorem Looking.next_some (h : Looking s w text x place) (hshape : Shape nl l rest)
    (hfile : s.file.drop place = nl ++ (l ++ rest)) (hfits : place + nl.length + l.length ≤ w + FRL_BUFSIZE) :
    ∃ y, s.nextOf text x 0 = some (some y) ∧
      LineAt s w y (place + nl.length) (place + nl.length + l.length) ∧ y.text s.mem = l := by
  obtain ⟨hcut, htake⟩ := hshape.take (k := w + FRL_BUFSIZE - place) (by omega)
  have hline := hcut.getNextLine
  rw [← htake, ← hfile] at hline
  obtain ⟨q, hy, hholds, hstop, hge⟩ := h.left.next hline
  have hlen : IntLength l.length := .inl (by
    have : FRL_BUFSIZE = 262144 := rfl
    have := h.inside.1
    omega)
  have hpos := List.length_pos_iff.mpr hshape.ne
  have hfilelen := congrArg List.length hfile
  rw [h.stop, List.length_append, List.length_take] at hstop
  rw [List.length_drop, List.length_append, List.length_append] at hfilelen
  obtain ⟨hq, hinside⟩ := line_place h.inside.1 hfits hpos hfilelen h.held.bufused_eq hstop
  refine ⟨_, h.nextOf.trans (congrArg some hy), ⟨?_, ?_, ?_, ?_, hinside⟩, ?_⟩
  · rw [ofEnds_p]
    exact hq
  · rw [ofEnds_getLength q hlen]
  · exact h.inside.1.trans (Nat.le_add_right _ _)
  · exact Nat.lt_add_of_pos_right hpos
  · rw [Ref.text, ofEnds_getLength q hlen, ofEnds_p]
    exact (holds_append.mp hholds).1.read_eq

/-- The next line goes on behind the buffer, so that another one is found or none. -/
theorem Looking.next_short (h : Looking s w text x place) (hshape : Shape nl l rest)
    (hfile : s.file.drop place = nl ++ (l ++ rest)) (hlong : w + FRL_BUFSIZE < place + nl.length + l.length) {y : Ref}
    (hy : s.nextOf text x 0 = some (some y)) : y.text s.mem ≠ l := by
  intro heq
  have hinside := h.inside
  have hle := h.held.bufused_le
  have hstart := h.start
  have htextstop := h.stop
  rw [h.nextOf] at hy
  have hy := Option.some.inj hy
  cases hl : Lines.getNextLine true ((s.file.drop place).take (w + FRL_BUFSIZE - place)) with
  | none =>
    rw [getNextLine_eq true h.left.holds h.left.stop, hl] at hy
    cases hy
  | some t =>
    obtain ⟨l', rest'⟩ := t
    obtain ⟨q, hy', -, hstop, hge⟩ := h.left.next hl
    rw [List.length_append] at hstop
    obtain rfl := Option.some.inj (hy.symm.trans hy')
    have hlen := congrArg List.length heq
    rw [Ref.text, length_read, ofEnds_getLength q (.inl (by have : FRL_BUFSIZE = 262144 := rfl; omega))] at hlen
    rw [hfile] at hl
    have := hshape.take_short (by omega) hl
    omega

/-- From a place in the buffer on the memory holds what the file has there. -/
theorem Held.looking (h : Held s w FRL_BUFSIZE) (hstart : s.base ≤ text.p) (hstop : text.stop = s.base + s.bufused)
    (hinside : w ≤ place ∧ place ≤ w + s.bufused) (hx : StringRef.place text x = s.base + (place - w)) :
    Looking s w text x place := by
  have hdrop : (s.file.drop place).take (w + FRL_BUFSIZE - place) =
      ((s.file.drop w).take FRL_BUFSIZE).drop (place - w) := by
    rw [List.drop_take, List.drop_drop, Nat.add_sub_cancel' hinside.1]
    congr 1
    omega
  have hlen := h.used
  have hsplit := h.holds
  rw [← List.take_append_drop (place - w) ((s.file.drop w).take FRL_BUFSIZE), holds_append, List.length_take,
    Nat.min_eq_left (by omega)] at hsplit
  refine ⟨h, hstart, hstop, ⟨?_, ?_⟩, hinside⟩
  · rw [hx, hdrop]
    exact hsplit.2
  · rw [hx, hdrop, List.length_drop, ← hlen, hstop]
    omega

theorem LineAt.looking {start stop : ℕ} (hy : LineAt s w x start stop) (h : Held s w FRL_BUFSIZE) :
    Looking s w ⟨s.base, s.bufused + 1⟩ x stop := by
  have hstart := hy.after
  have hlt := hy.lt
  have hinside := hy.inside
  have hend : x.stop = s.base + (stop - w) := by
    have hp := hy.p
    have hlength := hy.length
    unfold Ref.stop
    omega
  have htext : (Ref.mk s.base (s.bufused + 1)).stop = s.base + s.bufused := rfl
  refine h.looking le_rfl htext ⟨by omega, hinside⟩ ?_
  rw [StringRef.place, htext, hend]
  exact if_pos ⟨by change s.base ≤ _; omega, by omega⟩

/-- A call behind the line that the file has from `start` to `stop`. -/
theorem LineAt.call {start stop : ℕ} (hy : LineAt s w x start stop) (h : Held s w FRL_BUFSIZE) :
    ∃ s' x', s'.file = s.file ∧ s.getNextLine x = (s'.nextOf ⟨s'.base, s'.bufused + 1⟩ x' 0).map (s', ·) ∧
      Looking s' (if w + FRL_BUFSIZE / 2 < start then start else w) ⟨s'.base, s'.bufused + 1⟩ x' stop := by
  have hp := hy.p
  have hstart := hy.after
  have hlt := hy.lt
  have hinside := hy.inside
  have hle := h.bufused_le
  have hused := h.bufused_eq
  unfold FileReadLine.getNextLine FileReadLine.getNextLineWithQuote
  rw [if_neg (by omega)]
  by_cases hbehind : w + FRL_BUFSIZE / 2 < start
  · obtain ⟨s₁, hshift, hheld, hbase, hfile⟩ := h.shift (n := start - w) (by omega) x.len
    rw [Nat.add_sub_cancel' hstart] at hheld
    have hheld' := hheld.refill (Nat.sub_le _ _)
    rw [if_pos (by omega), if_pos hbehind]
    have hx : x = ⟨s.base + (start - w), x.len⟩ := by rw [← hp]
    rw [hx, hshift, Option.bind_some]
    refine ⟨s₁.refill, ⟨s.base, x.len⟩, hfile, rfl, LineAt.looking ⟨?_, hy.length, le_rfl, hlt, ?_⟩ hheld'⟩
    · change s.base = s₁.base + (start - start)
      omega
    · have hused' := hheld'.bufused_eq
      have hsamefile : s₁.refill.file = s.file := hfile
      rw [hsamefile] at hused'
      omega
  · rw [if_neg (by omega), if_neg hbehind]
    exact ⟨s, x, rfl, rfl, hy.looking h⟩

end Next

/-! ### All calls -/

/-- The calls yield these lines one after the other, and then there is none. -/
def Yields (s : FileReadLine) (line : Ref) (ls : List (List UInt8)) : Prop := ∃ n, s.nextLines n line = some ls

section Run

variable {s s' : FileReadLine} {w place : ℕ} {text x y : Ref} {ls : List (List UInt8)}

attribute [local simp] FileReadLine.nextLines

theorem yields_of_none (h : s.getNextLine x = some (s', none)) : Yields s x ls ↔ ls = [] := by
  constructor
  · rintro ⟨n, hn⟩
    cases n with
    | zero => cases hn
    | succ n =>
      rw [FileReadLine.nextLines, h] at hn
      exact (Option.some.inj hn).symm
  · rintro rfl
    exact ⟨1, by simp [h]⟩

theorem yields_of_some (h : s.getNextLine x = some (s', some y)) :
    Yields s x ls ↔ ∃ ls', Yields s' y ls' ∧ y.text s'.mem :: ls' = ls := by
  constructor
  · rintro ⟨n, hn⟩
    cases n with
    | zero => cases hn
    | succ n =>
      rw [FileReadLine.nextLines, h] at hn
      obtain ⟨ls', h1, h2⟩ := Option.map_eq_some_iff.mp hn
      exact ⟨ls', ⟨n, h1⟩, h2⟩
  · rintro ⟨ls', ⟨n, hn⟩, rfl⟩
    refine ⟨n + 1, ?_⟩
    rw [FileReadLine.nextLines, h]
    change (s'.nextLines n y).map _ = _
    rw [hn]
    rfl

theorem not_yields (h : s.getNextLine x = none) : ¬ Yields s x ls := by
  rintro ⟨n, hn⟩
  cases n with
  | zero => cases hn
  | succ n =>
    rw [FileReadLine.nextLines, h] at hn
    cases hn

/-- From a place of the file on all its lines are yielded if each of them is found in the buffer. -/
theorem Looking.yields_iff (h : Looking s' w text x place)
    (hcall : s.getNextLine y = (s'.nextOf text x 0).map (s', ·)) :
    Yields s y (yielded true (s'.file.drop place)) ↔ Fits w (spans place (s'.file.drop place)) := by
  induction hn : (s'.file.drop place).length using Nat.strong_induction_on generalizing s s' w place text x y with
  | _ n ih =>
    rcases empty_or_shape (s'.file.drop place) with hempty | ⟨nl, l, rest, hshape, hfile⟩
    · rw [h.next_none hempty] at hcall
      rw [yields_of_none hcall, Lines.yielded_of_none (getNextLine_empty hempty), spans_empty hempty]
      exact iff_of_true rfl trivial
    · have hyielded : yielded true (s'.file.drop place) = l :: yielded true rest := by
        rw [hfile]
        exact Lines.yielded_of_some hshape.getNextLine
      have hspans : spans place (s'.file.drop place) = (place + nl.length, place + nl.length + l.length) ::
          spans (place + nl.length + l.length) rest := by
        rw [hfile, hshape.spans]
      rw [hyielded, hspans, Fits]
      by_cases hfits : place + nl.length + l.length ≤ w + FRL_BUFSIZE
      · obtain ⟨z, hz, hline, htext⟩ := h.next_some hshape hfile hfits
        obtain ⟨s₂, x₂, hsame, hcall₂, hlooking⟩ := hline.call h.held
        have hrest : s₂.file.drop (place + nl.length + l.length) = rest := by
          rw [hsame, Nat.add_assoc, ← List.drop_drop, hfile, ← List.append_assoc]
          exact List.drop_left' List.length_append
        have hlt : rest.length < n := by
          have hpos := List.length_pos_iff.mpr hshape.ne
          have := congrArg List.length hfile
          rw [List.length_append, List.length_append] at this
          omega
        have hrun := ih _ hlt hlooking hcall₂ (by rw [hrest])
        rw [hrest] at hrun
        rw [hz] at hcall
        rw [yields_of_some hcall, htext, ← hrun]
        simp [hfits]
      · refine iff_of_false (fun hy => ?_) fun hf => hfits hf.1
        rw [h.nextOf] at hcall
        cases hnext : StringRef.getNextLine s'.mem text true x with
        | none =>
          rw [hnext] at hcall
          cases (yields_of_none hcall).mp hy
        | some z =>
          rw [hnext] at hcall
          obtain ⟨ls', -, hcons⟩ := (yields_of_some hcall).mp hy
          exact h.next_short hshape hfile (by omega) (h.nextOf.trans (congrArg some hnext)) (List.cons.inj hcons).1

end Run

/-! ### The first call -/

/-- Where the text of a file begins. -/
def textStart (file : List UInt8) : ℕ := if signature.isPrefixOf file then 3 else 0

/-- The lines of a file that are not empty. -/
def textLines (file : List UInt8) : List (List UInt8) := (lines (file.drop (textStart file))).filter (· ≠ [])

/-- The slice is outside the buffer and does not reach into it. -/
def Outside (s : FileReadLine) (x : Ref) : Prop := x.p < s.base ∧ x.stop ≤ s.base ∨ s.base + FRL_BUFSIZE ≤ x.p

/-- The empty slice at the end of the buffer, where the file fills the buffer. -/
def AtEnd (s : FileReadLine) (x : Ref) : Prop := FRL_BUFSIZE ≤ s.file.length ∧ x.stop = s.base + FRL_BUFSIZE

/-- A file that is too short for a signature is completed to one by what the buffer held before. -/
def StaleSignature (s : FileReadLine) : Prop :=
  s.file ≠ [] ∧ s.file.length < 3 ∧ s.file ++ (read s.mem s.base 3).drop s.file.length = signature

instance (s : FileReadLine) : Decidable (StaleSignature s) := inferInstanceAs (Decidable (_ ∧ _ ∧ _))

section First

variable {s : FileReadLine} {x y text : Ref}

theorem le_of_getNextLine {m : Mem} {r : Ref} (h : StringRef.getNextLine m r true x = some y) : r.p ≤ y.p := by
  unfold StringRef.getNextLine at h
  obtain ⟨-, hy⟩ := Option.ite_none_left_eq_some.mp h
  have hplace : r.p ≤ StringRef.place r x := by
    unfold StringRef.place
    split
    · rename_i hx
      exact hx.1
    · exact le_rfl
  rw [← Option.some.inj hy, ofEnds_p]
  exact hplace.trans (le_scanWhile _ _ _ _)

theorem reload_bufused (s : FileReadLine) : s.reload.bufused = min FRL_BUFSIZE s.file.length := (held_reload s).bufused_eq

theorem textStart_of_short (h : s.file.length < 3) : textStart s.file = 0 := by
  refine if_neg fun hp => ?_
  have := (List.isPrefixOf_iff_prefix.mp hp).length_le
  change 3 ≤ _ at this
  omega

/-- What the first three places of the buffer hold. -/
theorem reload_signature (s : FileReadLine) (hne : s.file ≠ []) :
    Holds s.reload.mem s.base signature ↔ textStart s.file = 3 ∨ StaleSignature s := by
  have hholds : Holds s.reload.mem s.base (s.file.take FRL_BUFSIZE) := (held_reload s).holds
  by_cases hlen : s.file.length < 3
  · have hall : s.file.take FRL_BUFSIZE = s.file := List.take_of_length_le (by
      have : FRL_BUFSIZE = 262144 := rfl
      omega)
    rw [hall] at hholds
    have hbehind : read s.reload.mem (s.base + s.file.length) (3 - s.file.length) =
        (read s.mem s.base 3).drop s.file.length := by
      rw [← read_drop s.mem s.base (by omega)]
      refine read_congr fun a ha _ => memcpy_outside _ _ (.inr ?_)
      change s.base + 0 + (s.file.take FRL_BUFSIZE).length ≤ a
      rw [hall]
      exact ha
    have hread : read s.reload.mem s.base signature.length =
        s.file ++ (read s.mem s.base 3).drop s.file.length := by
      have hthree : signature.length = s.file.length + (3 - s.file.length) := by
        change 3 = _
        omega
      rw [hthree, read_add, hholds.read_eq, hbehind]
    rw [textStart_of_short hlen, StaleSignature, ← hread]
    constructor
    · intro h
      exact .inr ⟨hne, hlen, h.read_eq⟩
    · rintro (h | ⟨-, -, h⟩)
      · cases h
      · rw [← h]
        exact holds_read _ _ _
  · have hstale : ¬ StaleSignature s := fun h => hlen h.2.1
    obtain ⟨a, b, c, t, hfile⟩ : ∃ a b c t, s.file = a :: b :: c :: t := by
      rcases hf : s.file with _ | ⟨a, _ | ⟨b, _ | ⟨c, t⟩⟩⟩
      · exact absurd hf hne
      · rw [hf] at hlen
        exact absurd (by simp) hlen
      · rw [hf] at hlen
        exact absurd (by simp) hlen
      · exact ⟨a, b, c, t, rfl⟩
    rw [hfile] at hholds
    obtain ⟨ha, hb, hc, -⟩ := hholds
    rw [or_iff_left hstale, textStart, hfile]
    simp only [signature, holds_cons, holds_nil, and_true, ha, hb, hc, List.isPrefixOf, Bool.and_eq_true, beq_iff_eq,
      ite_eq_left_iff]
    tauto

theorem Outside.reloads (hx : Outside s x) : x.p < s.base ∨ s.base + FRL_BUFSIZE ≤ x.p := hx.imp_left And.left

/-- What is tested for the signature. -/
theorem test_signature (m : Mem) (p : ℕ) : Holds m p signature ↔ m p = 0xef ∧ m (p + 1) = 0xbb ∧ m (p + 2) = 0xbf := by
  simp only [signature, holds_cons, holds_nil, and_true]

theorem reload_bufused_pos (hne : s.file ≠ []) : s.reload.bufused ≠ 0 := by
  have hpos := List.length_pos_iff.mpr hne
  have hsize : FRL_BUFSIZE = 262144 := rfl
  rw [reload_bufused]
  omega

/-- The state after the buffer was filled from the beginning of the file. -/
def FileReadLine.begun (s : FileReadLine) : FileReadLine := { s.reload with lastpos := 0 }

theorem held_begun (s : FileReadLine) : Held s.begun 0 FRL_BUFSIZE :=
  ⟨(held_reload s).holds, (held_reload s).used, (held_reload s).pos⟩

/-- In a file that is empty nothing is found. -/
theorem first_call_empty (hx : Outside s x) (hnil : s.file = []) : ∃ s', s.getNextLine x = some (s', none) := by
  unfold FileReadLine.getNextLine FileReadLine.getNextLineWithQuote
  rw [if_pos hx.reloads]
  dsimp only
  rw [if_pos (by rw [reload_bufused, hnil]; rfl)]
  exact ⟨_, rfl⟩

/-- The first call takes the text behind the signature, or behind what is taken for one. -/
theorem first_call (hx : Outside s x) (hne : s.file ≠ []) :
    s.getNextLine x = ((if textStart s.file = 3 ∨ StaleSignature s then
        s.begun.nextOf ⟨s.base + 3, (UInt32.ofNat s.reload.bufused - 3).toNat + 1⟩ x 0
      else s.begun.nextOf ⟨s.base, s.reload.bufused + 1⟩ x 0).map (s.begun, ·)) := by
  unfold FileReadLine.getNextLine FileReadLine.getNextLineWithQuote
  rw [if_pos hx.reloads]
  dsimp only
  rw [if_neg (reload_bufused_pos hne)]
  have htest := (reload_signature s hne).symm.trans (test_signature _ _)
  change (if s.reload.mem s.base = 0xef ∧ s.reload.mem (s.base + 1) = 0xbb ∧ s.reload.mem (s.base + 2) = 0xbf then _
    else _) = _
  by_cases h : textStart s.file = 3 ∨ StaleSignature s
  · rw [if_pos (htest.mp h), if_pos h]
    rfl
  · rw [if_neg fun h' => h (htest.mpr h'), if_neg h]
    rfl

/-- Without a stale signature that is the text of the file. -/
theorem first_text (hx : Outside s x) (hne : s.file ≠ []) (hstale : ¬ StaleSignature s) :
    ∃ text, s.getNextLine x = (s.begun.nextOf text x 0).map (s.begun, ·) ∧ text.p = s.base + textStart s.file ∧
      text.stop = s.base + s.reload.bufused ∧ textStart s.file ≤ s.reload.bufused := by
  have hused := reload_bufused s
  have hsize : FRL_BUFSIZE = 262144 := rfl
  rw [first_call hx hne]
  by_cases h : textStart s.file = 3
  · have hlen : 3 ≤ s.file.length := by
      by_contra hshort
      rw [textStart_of_short (by omega)] at h
      cases h
    have hthree : (UInt32.ofNat s.reload.bufused - 3).toNat = s.reload.bufused - 3 := by
      have hle : (3 : UInt32) ≤ UInt32.ofNat s.reload.bufused := by
        rw [UInt32.le_iff_toNat_le, UInt32.toNat_ofNat_of_lt' (by change _ < 2 ^ 32; omega)]
        change 3 ≤ _
        omega
      rw [UInt32.toNat_sub_of_le _ _ hle, UInt32.toNat_ofNat_of_lt' (by change _ < 2 ^ 32; omega)]
      rfl
    rw [if_pos (.inl h), hthree]
    refine ⟨_, rfl, by rw [h], ?_, by omega⟩
    change s.base + 3 + (s.reload.bufused - 3) = _
    omega
  · have hzero : textStart s.file = 0 := by
      unfold textStart at h ⊢
      split at h
      · exact absurd rfl h
      · rw [if_neg (by assumption)]
    rw [if_neg (not_or.mpr ⟨h, hstale⟩)]
    exact ⟨_, rfl, by rw [hzero]; rfl, rfl, by omega⟩

/-- A slice outside the buffer does not end in it, so that the text is taken from its beginning. -/
theorem Outside.place_eq (hx : Outside s x) (hend : ¬ AtEnd s x) (hp : s.base ≤ text.p)
    (hstop : text.stop = s.base + s.reload.bufused) : StringRef.place text x = text.p := by
  have hused := reload_bufused s
  have hxp : x.p ≤ x.stop := Nat.le_add_right _ _
  unfold StringRef.place
  split
  · rename_i hin
    obtain ⟨-, hle⟩ | hle := hx
    · omega
    · exact absurd ⟨by omega, by omega⟩ hend
  · rfl

/-- Only the empty slice at the end of a buffer that is full is taken for the line before. -/
theorem nextOf_atEnd (hend : AtEnd s x) (hstop : text.stop = s.base + s.reload.bufused) :
    s.begun.nextOf text x 0 = some none := by
  have hused := reload_bufused s
  have hlen := hend.1
  have hxstop := hend.2
  have htext : text.p ≤ text.stop := Nat.le_add_right _ _
  have hplace : StringRef.place text x = text.stop := by
    rw [StringRef.place, if_pos (by omega)]
    omega
  have hnone : StringRef.getNextLine s.begun.mem text true x = none := by
    have hleft : Holds s.begun.mem (StringRef.place text x) [] := trivial
    rw [getNextLine_eq true hleft (by rw [hplace]; rfl)]
    rfl
  unfold FileReadLine.nextOf
  simp only [ne_eq, not_true_eq_false, if_false, hnone]
  refine if_pos (Or.inl ?_)
  change text.stop ≤ s.base + FRL_BUFSIZE
  omega

/-- A line that is found in a text which goes beyond the buffer. -/
theorem nextOf_long {z : Ref} (h : s.nextOf text x 0 = some (some z)) (hlong : s.base + FRL_BUFSIZE < text.stop) :
    text.p ≤ z.p ∧ z.p < s.base + FRL_BUFSIZE := by
  unfold FileReadLine.nextOf at h
  simp only [ne_eq, not_true_eq_false, if_false] at h
  obtain ⟨hin, hz⟩ := Option.ite_none_right_eq_some.mp h
  have hz := Option.some.inj hz
  rw [hz] at hin
  have hstop : z.stop < s.base + FRL_BUFSIZE := by
    rcases hin with hin | hin
    · exact absurd hin (Nat.not_le.mpr hlong)
    · rwa [Option.any_some, decide_eq_true_eq] at hin
  exact ⟨le_of_getNextLine hz, (Nat.le_add_right _ _ : z.p ≤ z.stop).trans_lt hstop⟩

/-- The first line is looked for in the text of the file. -/
theorem first_looking (hx : Outside s x) (hend : ¬ AtEnd s x) (hne : s.file ≠ []) (hstale : ¬ StaleSignature s) :
    ∃ text, s.getNextLine x = (s.begun.nextOf text x 0).map (s.begun, ·) ∧
      Looking s.begun 0 text x (textStart s.file) := by
  obtain ⟨text, hcall, hp, hstop, hle⟩ := first_text hx hne hstale
  refine ⟨text, hcall, (held_begun s).looking ?_ hstop ⟨Nat.zero_le _, ?_⟩ ?_⟩
  · change s.base ≤ _
    omega
  · rw [Nat.zero_add]
    exact hle
  · rw [hx.place_eq hend (by omega) hstop]
    exact hp

/-- Behind a line that is not in what the buffer holds of a short file there is nothing to move, or the file is read
once more. -/
theorem not_yields_behind {z : Ref} (hshape : Shape [] s.file []) (hshort : s.file.length < 3)
    (hge : s.base + 3 ≤ z.p) (hlt : z.p < s.base + FRL_BUFSIZE) : ¬ Yields s.begun z [] := by
  have hsize : FRL_BUFSIZE = 262144 := rfl
  have hused : s.begun.bufused = min FRL_BUFSIZE s.file.length := reload_bufused s
  have hbase : s.begun.base = s.base := rfl
  have hfile : s.begun.file.drop 0 = [] ++ (s.file ++ []) := by
    rw [List.append_nil, List.nil_append, List.drop_zero]
    rfl
  by_cases hbehind : s.base + FRL_BUFSIZE / 2 < z.p
  · refine not_yields ?_
    unfold FileReadLine.getNextLine FileReadLine.getNextLineWithQuote FileReadLine.shift
    rw [if_neg (by omega), if_pos (by omega), if_neg (by omega)]
    rfl
  · have hlook : Looking s.begun 0 ⟨s.begun.base, s.begun.bufused + 1⟩ z 0 := by
      refine (held_begun s).looking le_rfl rfl ⟨le_rfl, by omega⟩ ?_
      refine if_neg fun hin => ?_
      have hzstop : z.p ≤ z.stop := Nat.le_add_right _ _
      have hstop : (Ref.mk s.begun.base (s.begun.bufused + 1)).stop = s.begun.base + s.begun.bufused := rfl
      omega
    obtain ⟨z', hz', -, -⟩ := hlook.next_some hshape hfile (by rw [List.length_nil]; omega)
    have hcall : s.begun.getNextLine z = some (s.begun, some z') := by
      unfold FileReadLine.getNextLine FileReadLine.getNextLineWithQuote
      rw [if_neg (by omega), if_neg (by omega), hz']
      rfl
    intro hyields
    obtain ⟨ls, -, hcons⟩ := (yields_of_some hcall).mp hyields
    cases hcons

/-- What stands behind a stale signature is not the text of the file. -/
theorem StaleSignature.not_yields (hstale : StaleSignature s) (hx : Outside s x) : ¬ Yields s x (textLines s.file) := by
  obtain ⟨hne, hshort, hsig⟩ := hstale
  have hpos := List.length_pos_iff.mpr hne
  have hsize : FRL_BUFSIZE = 262144 := rfl
  have hused : s.reload.bufused = s.file.length := by
    rw [reload_bufused]
    omega
  have hshape : Shape [] s.file [] := by
    have hall : ∀ b ∈ signature, isNewline b = false := by simp [signature, isNewline]
    exact ⟨fun b hb => absurd hb List.not_mem_nil, fun b hb => hall b (hsig ▸ List.mem_append_left _ hb), hne,
      fun b hb => by cases hb⟩
  have hlines : textLines s.file = [s.file] := by
    have hfile : s.file = [] ++ (s.file ++ []) := by rw [List.append_nil, List.nil_append]
    have hyielded : yielded true ([] ++ (s.file ++ [])) = [s.file] := Lines.yielded_of_some hshape.getNextLine
    rw [← hfile] at hyielded
    rw [textLines, textStart_of_short hshort, List.drop_zero]
    exact hyielded
  have hlong : FRL_BUFSIZE < (UInt32.ofNat s.reload.bufused - 3).toNat := by
    rw [hused]
    obtain h | h : s.file.length = 1 ∨ s.file.length = 2 := by omega
    · rw [h]
      decide
    · rw [h]
      decide
  have hcall := first_call hx hne
  rw [if_pos (.inr ⟨hne, hshort, hsig⟩)] at hcall
  intro hyields
  rw [hlines] at hyields
  rcases hnext : s.begun.nextOf ⟨s.base + 3, (UInt32.ofNat s.reload.bufused - 3).toNat + 1⟩ x 0 with _ | _ | z
  · rw [hnext] at hcall
    exact ReadLine.not_yields hcall hyields
  · rw [hnext] at hcall
    cases (yields_of_none hcall).mp hyields
  · rw [hnext] at hcall
    obtain ⟨ls, hls, hcons⟩ := (yields_of_some hcall).mp hyields
    obtain rfl := (List.cons.inj hcons).2
    obtain ⟨hge, hlt⟩ := nextOf_long hnext (by
      change s.base + FRL_BUFSIZE < s.base + 3 + ((UInt32.ofNat s.reload.bufused - 3).toNat + 1 - 1)
      omega)
    exact not_yields_behind hshape hshort hge hlt hls

end First

/-- Each line of a file is found where the one before it leaves the buffer, exactly when none of them goes beyond what
the buffer then holds, the slice is not the one at the end of a full buffer (unless there is no line), and the file is
not completed to a signature by what the buffer held before. -/
theorem yields_textLines_iff (s : FileReadLine) (x : Ref) (hx : Outside s x) :
    Yields s x (textLines s.file) ↔ ¬ StaleSignature s ∧ (AtEnd s x → textLines s.file = []) ∧
      Fits 0 (spans (textStart s.file) (s.file.drop (textStart s.file))) := by
  by_cases hstale : StaleSignature s
  · exact iff_of_false (hstale.not_yields hx) fun h => h.1 hstale
  rw [and_iff_right hstale]
  by_cases hne : s.file = []
  · obtain ⟨s', hcall⟩ := first_call_empty hx hne
    have hnil : textLines s.file = [] := by
      rw [hne]
      rfl
    rw [yields_of_none hcall, hnil, hne]
    refine iff_of_true rfl ⟨fun _ => rfl, ?_⟩
    rw [List.drop_nil, spans_empty fun b hb => absurd hb List.not_mem_nil]
    trivial
  by_cases hend : AtEnd s x
  · obtain ⟨text, hcall, -, hstop, -⟩ := first_text hx hne hstale
    rw [nextOf_atEnd hend hstop] at hcall
    rw [yields_of_none hcall]
    constructor
    · intro hnil
      refine ⟨fun _ => hnil, ?_⟩
      rcases empty_or_shape (s.file.drop (textStart s.file)) with hempty | ⟨nl, l, rest, hshape, hfile⟩
      · rw [spans_empty hempty]
        trivial
      · have hcons : textLines s.file = l :: yielded true rest := by
          rw [textLines, hfile]
          exact Lines.yielded_of_some hshape.getNextLine
        rw [hcons] at hnil
        cases hnil
    · intro h
      exact h.1 hend
  · obtain ⟨text, hcall, hlook⟩ := first_looking hx hend hne hstale
    rw [and_iff_right fun h => absurd h hend]
    exact hlook.yields_iff hcall

/-- A reader of this file that has not read anything. -/
def opened (file : List UInt8) : FileReadLine := ⟨ofBytes 1 [], 1, 0, 0, file, 0⟩

theorem outside_null (file : List UInt8) : Outside (opened file) ⟨0, 0⟩ := .inl ⟨Nat.zero_lt_one, Nat.zero_le _⟩

theorem yields_textLines_iff_signature :
    Yields (opened [0xef, 0xbb, 0xbf, 0x61, 0x62, 0x0d, 0x0a, 0x0a, 0x63]) ⟨0, 0⟩ [[0x61, 0x62], [0x63]] := by
  refine (yields_textLines_iff (opened [0xef, 0xbb, 0xbf, 0x61, 0x62, 0x0d, 0x0a, 0x0a, 0x63]) ⟨0, 0⟩
    (outside_null _)).mpr ⟨by decide, fun h => absurd h.1 (by decide), ?_⟩
  have h1 : Shape [] [0x61, 0x62] [0x0d, 0x0a, 0x0a, 0x63] := by
    constructor <;> simp [isNewline]
  have h2 : Shape [0x0d, 0x0a, 0x0a] [0x63] [] := by
    constructor <;> simp [isNewline]
  have hspans : spans 3 [0x61, 0x62, 0x0d, 0x0a, 0x0a, 0x63] = [(3, 5), (8, 9)] := by
    have hfirst := h1.spans 3
    have hsecond := h2.spans 5
    rw [spans_empty fun b hb => absurd hb List.not_mem_nil] at hsecond
    exact hfirst.trans (congrArg _ hsecond)
  change Fits 0 (spans 3 [0x61, 0x62, 0x0d, 0x0a, 0x0a, 0x63])
  rw [hspans]
  exact ⟨by decide, by decide, trivial⟩

section Counterexample

variable {l u : List UInt8}

/-- Behind a line feed. -/
theorem shape_lf {nl : List UInt8} (hnl : ∀ b ∈ nl, isNewline b = true) (hl : ∀ b ∈ l, isNewline b = false)
    (hne : l ≠ []) : Shape nl l (0x0a :: u) := by
  refine ⟨hnl, hl, hne, fun b hb => ?_⟩
  obtain rfl := Option.some.inj hb
  decide

theorem lines_lf (hl : ∀ b ∈ l, isNewline b = false) (hne : l ≠ []) : lines (l ++ 0x0a :: u) = l :: lines u := by
  have hshape : Shape [] l (0x0a :: u) := shape_lf (fun b hb => absurd hb List.not_mem_nil) hl hne
  rw [Lines.lines_eq (by simp [hne]), hshape.line_takeWhile, hshape.line_dropWhile]
  cases u <;> rfl

theorem lines_last (hl : ∀ b ∈ l, isNewline b = false) (hne : l ≠ []) : lines l = [l] := by
  have hshape : Shape [] l [] :=
    ⟨fun b hb => absurd hb List.not_mem_nil, hl, hne, fun b hb => by cases hb⟩
  have h1 := hshape.line_takeWhile
  have h2 := hshape.line_dropWhile
  rw [List.append_nil] at h1 h2
  rw [Lines.lines_eq hne, h1, h2]
  rfl

/-- Three lines of this length, of which the last is not ended. -/
def threeLines (n : ℕ) : List UInt8 :=
  List.replicate n 0x61 ++ 0x0a :: (List.replicate n 0x61 ++ 0x0a :: List.replicate n 0x61)

theorem textStart_threeLines (n : ℕ) : textStart (threeLines (n + 1)) = 0 := by
  simp [textStart, threeLines, signature, List.replicate_succ, List.isPrefixOf]

theorem replicate_not_newline (n : ℕ) : ∀ b ∈ List.replicate n (0x61 : UInt8), isNewline b = false := by
  intro b hb
  rw [List.eq_of_mem_replicate hb]
  rfl

theorem lines_threeLines (n : ℕ) : lines (threeLines (n + 1)) = List.replicate 3 (List.replicate (n + 1) 0x61) := by
  have hl := replicate_not_newline (n + 1)
  have hne : List.replicate (n + 1) (0x61 : UInt8) ≠ [] := List.cons_ne_nil _ _
  rw [threeLines, lines_lf hl hne, lines_lf hl hne, lines_last hl hne]
  rfl

theorem spans_threeLines (n : ℕ) :
    spans 0 (threeLines (n + 1)) = [(0, n + 1), (n + 2, 2 * n + 3), (2 * n + 4, 3 * n + 5)] := by
  have hl := replicate_not_newline (n + 1)
  have hne : List.replicate (n + 1) (0x61 : UInt8) ≠ [] := List.cons_ne_nil _ _
  have hlf : ∀ b ∈ [(0x0a : UInt8)], isNewline b = true := by simp [isNewline]
  have h1 : Shape [] (List.replicate (n + 1) 0x61)
      (0x0a :: (List.replicate (n + 1) 0x61 ++ 0x0a :: List.replicate (n + 1) 0x61)) :=
    shape_lf (fun b hb => absurd hb List.not_mem_nil) hl hne
  have h2 : Shape [0x0a] (List.replicate (n + 1) 0x61) (0x0a :: List.replicate (n + 1) 0x61) := shape_lf hlf hl hne
  have h3 : Shape [0x0a] (List.replicate (n + 1) 0x61) [] := ⟨hlf, hl, hne, fun b hb => by cases hb⟩
  have s1 := h1.spans 0
  have s2 := h2.spans (n + 1)
  have s3 := h3.spans (2 * n + 3)
  simp only [List.nil_append, List.cons_append, List.append_nil, List.length_nil, List.length_singleton,
    List.length_replicate, Nat.zero_add, Nat.add_zero] at s1 s2 s3
  have e2 : n + 1 + 1 + (n + 1) = 2 * n + 3 := by omega
  have e3 : 2 * n + 3 + 1 + (n + 1) = 3 * n + 5 := by omega
  rw [spans_empty fun b hb => absurd hb List.not_mem_nil, e3] at s3
  rw [threeLines, s1, s2, e2, s3]

theorem length_threeLines (n : ℕ) : (threeLines n).length = 3 * n + 2 := by
  simp only [threeLines, List.length_append, List.length_cons, List.length_replicate]
  omega

theorem drop_threeLines (n : ℕ) : (threeLines (n + 1)).drop (textStart (threeLines (n + 1))) = threeLines (n + 1) := by
  rw [textStart_threeLines, List.drop_zero]

/-- The third line is cut when the second one begins before the middle of the buffer and the third one ends behind it. -/
theorem not_yields_threeLines {n : ℕ} (hmiddle : n + 2 ≤ FRL_BUFSIZE / 2) (hlong : FRL_BUFSIZE < 3 * n + 5) :
    ¬ Yields (opened (threeLines (n + 1))) ⟨0, 0⟩ (textLines (threeLines (n + 1))) := by
  intro hyields
  have hlen := length_threeLines (n + 1)
  have hsize : FRL_BUFSIZE = 262144 := rfl
  have hne : threeLines (n + 1) ≠ [] := fun hnil => by
    rw [hnil, List.length_nil] at hlen
    omega
  have hend : ¬ AtEnd (opened (threeLines (n + 1))) ⟨0, 0⟩ := fun h => by
    have hstop : (0 : ℕ) = 1 + FRL_BUFSIZE := h.2
    omega
  have hstale : ¬ StaleSignature (opened (threeLines (n + 1))) := fun h => by
    have hshort : (threeLines (n + 1)).length < 3 := h.2.1
    omega
  obtain ⟨text, hcall, hlook⟩ := first_looking (outside_null _) hend hne hstale
  have hfits : Fits 0 (spans (textStart (threeLines (n + 1)))
      ((threeLines (n + 1)).drop (textStart (threeLines (n + 1))))) :=
    (hlook.yields_iff hcall).mp hyields
  rw [drop_threeLines, textStart_threeLines, spans_threeLines] at hfits
  obtain ⟨-, -, h3, -⟩ := hfits
  rw [if_neg (by omega), if_neg (by omega)] at h3
  omega

theorem yields_textLines_fails : ¬ ∀ (s : FileReadLine) (x : Ref), Outside s x →
    (∀ l ∈ lines (s.file.drop (textStart s.file)), l.length < FRL_BUFSIZE / 2) → Yields s x (textLines s.file) := by
  intro h
  have hsize : FRL_BUFSIZE = 262144 := rfl
  refine not_yields_threeLines (n := 99999) (by omega) (by omega) (h _ _ (outside_null _) fun l hl => ?_)
  have hmem : l ∈ lines ((threeLines (99999 + 1)).drop (textStart (threeLines (99999 + 1)))) := hl
  rw [drop_threeLines, lines_threeLines] at hmem
  rw [List.eq_of_mem_replicate hmem, List.length_replicate]
  omega

end Counterexample

end Cpcf.Os.ReadLine
