import Cpcf.Lib.Run
import Mathlib.Data.List.TakeWhile

/-!
`os::LaunchProcess`: the output of a process, as a terminal would show it.

`OutputHookThread` reads the pipe into a buffer on its stack, and `_RemoveCarriageReturn` puts each piece to what was
captured: a carriage return that no line feed follows takes its line away. Where the piece ends, the search for the
first line end has looked at the byte behind it, which is what an earlier and longer piece has left in the buffer.
-/

namespace Cpcf.Os.LaunchProcess

open Cpcf.Lib.Run

def CR : UInt8 := 0x0d

def LF : UInt8 := 0x0a

/-! ### A terminal -/

/-- The current line is deleted: what is left ends with a line feed, if there is one. -/
def deleteLine (text : List UInt8) : List UInt8 := (text.reverse.dropWhile (· ≠ LF)).reverse

/-- One byte more: a carriage return in front of it deletes the line, unless the two are a line end. -/
def put (text : List UInt8) (b : UInt8) : List UInt8 :=
  if text.getLast? = some CR ∧ b ≠ LF then deleteLine text ++ [b] else text ++ [b]

/-- What a terminal shows of an output, with the carriage return at its end, if there is one. -/
def terminal (bytes : List UInt8) : List UInt8 := bytes.foldl put []

/-! ### The code -/

/-- `rt::String_Ref(add+from, add+to)`. -/
def piece (add : List UInt8) (first last : ℕ) : List UInt8 := (add.take last).drop first

/-- The loop at the end of `_RemoveCarriageReturn`. -/
def loop (add : List UInt8) (p last_linend last_copied : ℕ) (output : List UInt8) : List UInt8 :=
  if p < add.length then
    if add.getD p 0 = LF then loop add (p + 1) (p + 1) last_copied output
    else if add.getD p 0 = CR then
      if p + 1 < add.length then
        if add.getD (p + 1) 0 = LF then loop add (p + 2) (p + 2) last_copied output
        else
          loop add (p + 1) (p + 1) (p + 1)
            (if last_linend ≠ last_copied then output ++ piece add last_copied last_linend else output)
      else output ++ piece add last_copied (p + 1)
    else loop add (p + 1) last_linend last_copied output
  else if last_copied < add.length then output ++ piece add last_copied add.length
  else output
termination_by add.length - p

/-- `_RemoveCarriageReturn`, with the byte that stands behind `add` in the buffer. -/
def removeCarriageReturn (output add : List UInt8) (behind : UInt8) : List UInt8 :=
  if add = [] then output
  else if output.getLast? = some CR then
    if add.getD 0 0 = LF then loop add 1 1 1 (output ++ [LF]) else loop add 0 0 0 (deleteLine output)
  else
    let s := (add.takeWhile fun b => b ≠ CR ∧ b ≠ LF).length
    if (add ++ [behind]).getD s 0 = CR then
      if s + 1 < add.length then
        if add.getD (s + 1) 0 = LF then loop add 0 (s + 2) 0 output
        else loop add (s + 1) (s + 1) (s + 1) (deleteLine output)
      else output ++ piece (add ++ [behind]) 0 (s + 1)
    else if s = add.length then output ++ add
    else loop add (s + 1) (s + 1) 0 output

/-! ### The terminal over pieces -/

section Terminal

variable {x y text : List UInt8} {b : UInt8}

/-- A text in front of a line. -/
def LineStart (x : List UInt8) : Prop := x = [] ∨ x.getLast? = some LF

theorem deleteLine_append (hx : LineStart x) (hy : LF ∉ y) : deleteLine (x ++ y) = x := by
  have hpass : ∀ b ∈ y.reverse, decide (b ≠ LF) = true := by
    intro b hb
    refine decide_eq_true fun heq => hy ?_
    rw [← heq]
    exact List.mem_reverse.mp hb
  rw [deleteLine, List.reverse_append, List.dropWhile_append_of_pos hpass]
  obtain rfl | hlast := hx
  · rfl
  · obtain ⟨z, rfl⟩ := List.getLast?_eq_some_iff.mp hlast
    rw [List.reverse_append, List.reverse_singleton, List.singleton_append, List.dropWhile_cons_of_neg (by simp)]
    simp

/-- A line always has a place where it begins. -/
theorem exists_lineStart (text : List UInt8) : ∃ x y, text = x ++ y ∧ LineStart x ∧ LF ∉ y := by
  induction text using List.reverseRecOn with
  | nil => exact ⟨[], [], rfl, .inl rfl, by simp⟩
  | append_singleton text b ih =>
    obtain ⟨x, y, rfl, hx, hy⟩ := ih
    by_cases hb : b = LF
    · exact ⟨x ++ y ++ [b], [], by simp, .inr (by simp [hb]), by simp⟩
    · exact ⟨x, y ++ [b], by simp, hx, by simp [hy, Ne.symm hb]⟩

theorem lineStart_deleteLine (text : List UInt8) : LineStart (deleteLine text) := by
  obtain ⟨x, y, rfl, hx, hy⟩ := exists_lineStart text
  rw [deleteLine_append hx hy]
  exact hx

theorem deleteLine_append_of_notMem (text : List UInt8) (hy : LF ∉ y) : deleteLine (text ++ y) = deleteLine text := by
  obtain ⟨x, z, rfl, hx, hz⟩ := exists_lineStart text
  rw [deleteLine_append hx hz, List.append_assoc, deleteLine_append hx]
  simp [hz, hy]

theorem LineStart.getLast?_ne (hx : LineStart x) : x.getLast? ≠ some CR := by
  obtain rfl | hlast := hx
  · simp
  · rw [hlast]
    decide

theorem put_of_ne (h : text.getLast? ≠ some CR) (b : UInt8) : put text b = text ++ [b] := if_neg fun hb => h hb.1

theorem put_lf (text : List UInt8) : put text LF = text ++ [LF] := if_neg fun hb => hb.2 rfl

theorem put_of_cr (text : List UInt8) (hb : b ≠ LF) : put (text ++ [CR]) b = deleteLine text ++ [b] := by
  rw [put, if_pos ⟨by simp, hb⟩, deleteLine_append_of_notMem _ (by decide)]

/-- A carriage return and a byte that is no line feed: the line begins anew. -/
theorem foldl_put_cr (h : text.getLast? ≠ some CR) (hb : b ≠ LF) (rest : List UInt8) :
    (CR :: b :: rest).foldl put text = (b :: rest).foldl put (deleteLine text) := by
  simp only [List.foldl_cons]
  rw [put_of_ne h, put_of_cr _ hb, put_of_ne (lineStart_deleteLine text).getLast?_ne]

/-- Bytes that are no line ends. -/
theorem foldl_put_plain (hy : ∀ b ∈ y, b ≠ CR ∧ b ≠ LF) (h : text.getLast? ≠ some CR) (rest : List UInt8) :
    (y ++ rest).foldl put text = rest.foldl put (text ++ y) := by
  induction y generalizing text with
  | nil => simp
  | cons b y ih =>
    obtain ⟨hcr, -⟩ := hy b List.mem_cons_self
    rw [List.cons_append, List.foldl_cons, put_of_ne h, ih (fun c hc => hy c (List.mem_cons_of_mem _ hc)) (by simpa using hcr)]
    simp

end Terminal

/-! ### The pieces of a chunk -/

section Pieces

variable {add output : List UInt8} {p q c e : ℕ}

theorem piece_self (add : List UInt8) (p : ℕ) : piece add p p = [] :=
  List.drop_eq_nil_of_le (List.length_take_le _ _)

theorem piece_append (add : List UInt8) (hcp : c ≤ p) (hpq : p ≤ q) : piece add c p ++ piece add p q = piece add c q := by
  have hfront : piece add c p = ((add.take q).drop c).take (p - c) := by
    rw [piece, ← List.drop_take, List.take_take, min_eq_left hpq]
  have hback : piece add p q = ((add.take q).drop c).drop (p - c) := by
    rw [piece, List.drop_drop, Nat.add_sub_cancel' hcp]
  rw [hfront, hback, List.take_append_drop]
  rfl

theorem getD_eq_getElem (hp : p < add.length) : add.getD p 0 = add[p] := by
  rw [List.getD_eq_getElem?_getD, List.getElem?_eq_getElem hp]
  rfl

theorem piece_succ (hcp : c ≤ p) (hp : p < add.length) : piece add c (p + 1) = piece add c p ++ [add.getD p 0] := by
  rw [← piece_append add hcp (Nat.le_succ p)]
  congr 1
  rw [piece, List.take_add_one, List.getElem?_eq_getElem hp, List.drop_append_of_le_length (by simp; omega),
    List.drop_eq_nil_of_le (List.length_take_le _ _), getD_eq_getElem hp]
  rfl

theorem drop_eq_getD_cons (hp : p < add.length) : add.drop p = add.getD p 0 :: add.drop (p + 1) := by
  rw [getD_eq_getElem hp]
  exact List.drop_eq_getElem_cons hp

/-- Where the loop stands: up to `last_copied` everything is in the output, and the line begins at `last_linend`. -/
structure At (add output : List UInt8) (p last_linend last_copied : ℕ) : Prop where
  copied_le : last_copied ≤ last_linend
  linend_le : last_linend ≤ p
  le_length : p ≤ add.length
  starts : LineStart (output ++ piece add last_copied last_linend)
  line : LF ∉ piece add last_linend p
  done : (output ++ piece add last_copied p).getLast? ≠ some CR

/-- **The loop** goes on as the terminal does. -/
theorem loop_eq (h : At add output p e c) :
    loop add p e c output = (add.drop p).foldl put (output ++ piece add c p) := by
  fun_induction loop add p e c output with
  | case1 p e c output hp hlf ih =>
    obtain ⟨hce, hep, -, hstart, hline, hdone⟩ := h
    have hnext : output ++ piece add c (p + 1) = output ++ piece add c p ++ [LF] := by
      rw [piece_succ (hce.trans hep) hp, hlf, List.append_assoc]
    rw [ih ⟨by omega, le_rfl, hp, .inr (by rw [hnext]; simp), by simp [piece_self], by rw [hnext]; simp [LF, CR]⟩,
      drop_eq_getD_cons hp, hlf, List.foldl_cons, put_lf, hnext]
  | case2 p e c output hp hlf hcr hlt hlf2 ih =>
    obtain ⟨hce, hep, -, hstart, hline, hdone⟩ := h
    have hnext : output ++ piece add c (p + 2) = output ++ piece add c p ++ [CR] ++ [LF] := by
      rw [piece_succ (by omega) hlt, piece_succ (hce.trans hep) hp, hlf2, hcr]
      simp
    rw [ih ⟨by omega, le_rfl, hlt, .inr (by rw [hnext]; simp), by simp [piece_self], by rw [hnext]; simp [LF, CR]⟩,
      drop_eq_getD_cons hp, drop_eq_getD_cons hlt, hcr, hlf2, List.foldl_cons, List.foldl_cons, put_of_ne hdone, put_lf,
      hnext]
  | case3 p e c output hp hlf hcr hlt hlf2 ih =>
    obtain ⟨hce, hep, -, hstart, hline, hdone⟩ := h
    have hout : (if e ≠ c then output ++ piece add c e else output) = output ++ piece add c e := by
      split <;> rename_i hne
      · rfl
      · rw [not_not.mp hne, piece_self, List.append_nil]
    have hdelete : deleteLine (output ++ piece add c p) = output ++ piece add c e := by
      rw [← piece_append add hce hep, ← List.append_assoc, deleteLine_append hstart hline]
    rw [dite_eq_ite, hout] at ih
    rw [hout, ih ⟨le_rfl, le_rfl, hp, by simpa [piece_self] using hstart, by simp [piece_self],
      by simpa [piece_self] using hstart.getLast?_ne⟩, piece_self, List.append_nil, drop_eq_getD_cons hp,
      drop_eq_getD_cons hlt, hcr, foldl_put_cr hdone hlf2, hdelete]
  | case4 p e c output hp hlf hcr hlast =>
    obtain ⟨hce, hep, -, hstart, hline, hdone⟩ := h
    have hnil : add.drop (p + 1) = [] := List.drop_eq_nil_of_le (by omega)
    rw [drop_eq_getD_cons hp, hnil, hcr, List.foldl_cons, List.foldl_nil, put_of_ne hdone,
      piece_succ (hce.trans hep) hp, hcr, List.append_assoc]
  | case5 p e c output hp hlf hcr ih =>
    obtain ⟨hce, hep, -, hstart, hline, hdone⟩ := h
    have hnext : output ++ piece add c (p + 1) = output ++ piece add c p ++ [add.getD p 0] := by
      rw [piece_succ (hce.trans hep) hp, List.append_assoc]
    have hline' : LF ∉ piece add e (p + 1) := by
      rw [piece_succ hep hp, List.mem_append, List.mem_singleton]
      exact not_or.mpr ⟨hline, fun h => hlf h.symm⟩
    rw [ih ⟨hce, by omega, hp, hstart, hline', by rw [hnext]; simpa using hcr⟩, drop_eq_getD_cons hp, List.foldl_cons,
      put_of_ne hdone, hnext]
  | case6 p e c output hp hlt =>
    obtain ⟨hce, hep, hle, hstart, hline, hdone⟩ := h
    have hpl : p = add.length := by omega
    rw [hpl, List.drop_length, List.foldl_nil]
  | case7 p e c output hp hlt =>
    obtain ⟨hce, hep, hle, hstart, hline, hdone⟩ := h
    have hpl : p = add.length := by omega
    have hcl : c = add.length := by omega
    rw [hpl, hcl, List.drop_length, List.foldl_nil, piece_self, List.append_nil]

/-- Bytes that are no line ends are passed. -/
theorem loop_plain {y rest : List UInt8} (hy : ∀ b ∈ y, b ≠ CR ∧ b ≠ LF) (e : ℕ) : ∀ k ≤ y.length,
    loop (y ++ rest) 0 e 0 output = loop (y ++ rest) k e 0 output := by
  intro k
  induction k with
  | zero => exact fun _ => rfl
  | succ k ih =>
    intro hk
    obtain ⟨hcr, hlf⟩ := hy y[k] (List.getElem_mem hk)
    have hget : (y ++ rest).getD k 0 = y[k] := by
      rw [List.getD_eq_getElem?_getD, List.getElem?_append_left hk, List.getElem?_eq_getElem hk]
      rfl
    have hlen : k < (y ++ rest).length := by
      rw [List.length_append]
      omega
    rw [ih (by omega), loop, if_pos hlen, hget, if_neg hlf, if_neg hcr]

end Pieces

/-! ### One chunk -/

section Chunk

variable {output add : List UInt8} {behind : UInt8}

/-- The chunk has no line end, and a carriage return is behind it. -/
def Fooled (output add : List UInt8) (behind : UInt8) : Prop :=
  output.getLast? ≠ some CR ∧ (∀ b ∈ add, b ≠ CR ∧ b ≠ LF) ∧ behind = CR

instance : Decidable (Fooled output add behind) :=
  inferInstanceAs (Decidable (output.getLast? ≠ some CR ∧ (∀ b ∈ add, b ≠ CR ∧ b ≠ LF) ∧ behind = CR))

/-- The first line end of a chunk. -/
theorem exists_lineEnd (h : ¬ ∀ b ∈ add, b ≠ CR ∧ b ≠ LF) : ∃ y b rest, add = y ++ b :: rest ∧
    (∀ c ∈ y, c ≠ CR ∧ c ≠ LF) ∧ (b = CR ∨ b = LF) := by
  induction add with
  | nil => exact absurd (by simp) h
  | cons a add ih =>
    by_cases ha : a ≠ CR ∧ a ≠ LF
    · obtain ⟨y, b, rest, rfl, hy, hb⟩ := ih fun hall => h (by simpa [ha] using hall)
      exact ⟨a :: y, b, rest, rfl, by simpa [ha] using hy, hb⟩
    · exact ⟨[], a, add, rfl, by simp, by tauto⟩

theorem takeWhile_plain {y : List UInt8} (hy : ∀ b ∈ y, b ≠ CR ∧ b ≠ LF) {b : UInt8} (hb : b = CR ∨ b = LF)
    (rest : List UInt8) : (y ++ b :: rest).takeWhile (fun b => decide (b ≠ CR ∧ b ≠ LF)) = y := by
  rw [List.takeWhile_append_of_pos fun c hc => decide_eq_true (hy c hc), List.takeWhile_cons_of_neg, List.append_nil]
  simpa using fun hcr => hb.resolve_left hcr

theorem getD_length_append (y : List UInt8) (b : UInt8) (rest : List UInt8) : (y ++ b :: rest).getD y.length 0 = b := by
  rw [List.getD_eq_getElem?_getD, List.getElem?_append_right le_rfl, Nat.sub_self]
  rfl

theorem take_length_append (y front rest : List UInt8) : (y ++ (front ++ rest)).take (y.length + front.length) = y ++ front := by
  rw [← List.append_assoc, ← List.length_append, List.take_left]

theorem piece_zero (add : List UInt8) (p : ℕ) : piece add 0 p = add.take p := List.drop_zero

/-- The carriage return that was kept. -/
theorem removeCarriageReturn_of_cr (hadd : add ≠ []) (hcr : output.getLast? = some CR) :
    removeCarriageReturn output add behind = add.foldl put output := by
  obtain ⟨b, rest, rfl⟩ := List.exists_cons_of_ne_nil hadd
  rw [removeCarriageReturn, if_neg hadd, if_pos hcr, List.getD_cons_zero]
  split <;> rename_i hb
  · subst hb
    rw [loop_eq ⟨le_rfl, le_rfl, by simp, .inr (by simp [piece_self]), by simp [piece_self], by simp [piece_self, LF, CR]⟩,
      piece_self, List.append_nil, List.foldl_cons, put_lf]
    rfl
  · have hstart := lineStart_deleteLine output
    rw [loop_eq ⟨le_rfl, le_rfl, Nat.zero_le _, by simpa [piece_self] using hstart, by simp [piece_self],
      by simpa [piece_self] using hstart.getLast?_ne⟩, piece_self, List.append_nil, List.drop_zero, List.foldl_cons,
      List.foldl_cons, put_of_ne hstart.getLast?_ne, put, if_pos ⟨hcr, hb⟩]

/-- No carriage return was kept, and there is a line end in the chunk. -/
theorem removeCarriageReturn_of_lineEnd (hcr : output.getLast? ≠ some CR) (h : ¬ ∀ b ∈ add, b ≠ CR ∧ b ≠ LF) :
    removeCarriageReturn output add behind = add.foldl put output := by
  obtain ⟨y, b, rest, rfl, hy, hb⟩ := exists_lineEnd h
  have hlen : (y ++ b :: rest).length = y.length + 1 + rest.length := by
    rw [List.length_append, List.length_cons]
    omega
  have htake : (y ++ b :: rest).take (y.length + 1) = y ++ [b] := take_length_append y [b] rest
  have hdrop : (y ++ b :: rest).drop (y.length + 1) = rest := by simp
  have hlf : LF ∉ y := fun hmem => (hy LF hmem).2 rfl
  have hy_cr : (output ++ y).getLast? ≠ some CR := by
    rw [List.getLast?_append]
    cases hlast : y.getLast? with
    | none => simpa using hcr
    | some c => simpa using (hy c (List.mem_of_getLast? hlast)).1
  have hs : ((y ++ b :: rest ++ [behind]).getD y.length 0) = b := by
    rw [List.append_assoc, List.cons_append, getD_length_append]
  rw [removeCarriageReturn, if_neg (by simp), if_neg hcr]
  dsimp only
  rw [takeWhile_plain hy hb, hs]
  obtain rfl | rfl := hb
  · rw [if_pos rfl]
    cases rest with
    | nil =>
      -- it ends the chunk, and is kept
      rw [if_neg (by rw [hlen]; simp), piece_zero, List.append_assoc, List.cons_append, List.take_append,
        Nat.add_sub_cancel_left, List.take_of_length_le (Nat.le_succ _), foldl_put_plain hy hcr, List.foldl_cons,
        put_of_ne hy_cr]
      simp
    | cons b rest =>
      have hb : (y ++ CR :: b :: rest).getD (y.length + 1) 0 = b := by simp
      have hlt : y.length + 1 < (y ++ CR :: b :: rest).length := by
        rw [hlen, List.length_cons]
        omega
      rw [if_pos hlt, hb]
      split <;> rename_i hblf
      · -- a line end: the loop finds it again
        subst hblf
        have htake2 : (y ++ CR :: LF :: rest).take (y.length + 2) = y ++ [CR, LF] :=
          take_length_append y [CR, LF] rest
        have hdrop2 : (y ++ CR :: LF :: rest).drop (y.length + 2) = rest := by simp
        rw [loop_plain hy _ y.length le_rfl, loop, if_pos (by omega), getD_length_append, if_neg (by decide), if_pos rfl,
          if_pos hlt, hb, if_pos rfl, loop_eq ⟨Nat.zero_le _, le_rfl, by rw [hlen, List.length_cons]; omega,
            .inr (by rw [piece_zero, htake2]; simp), by simp [piece_self], by rw [piece_zero, htake2]; simp [LF, CR]⟩,
          piece_zero, htake2, hdrop2, foldl_put_plain hy hcr, List.foldl_cons, List.foldl_cons, put_of_ne hy_cr, put_lf]
        simp
      · have hstart := lineStart_deleteLine output
        rw [loop_eq ⟨le_rfl, le_rfl, by omega, by simpa [piece_self] using hstart, by simp [piece_self],
          by simpa [piece_self] using hstart.getLast?_ne⟩, piece_self, List.append_nil, hdrop, foldl_put_plain hy hcr,
          foldl_put_cr hy_cr hblf, deleteLine_append_of_notMem _ hlf]
  · have hne : y.length ≠ (y ++ LF :: rest).length := by omega
    rw [if_neg (by decide), if_neg hne, loop_eq ⟨Nat.zero_le _, le_rfl, by omega,
      .inr (by rw [piece_zero, htake]; simp), by simp [piece_self], by rw [piece_zero, htake]; simp [LF, CR]⟩,
      piece_zero, htake, hdrop, foldl_put_plain hy hcr, List.foldl_cons, put_lf, List.append_assoc]

/-- **A chunk is put to the output as a terminal would**, unless the byte behind it is taken for one of its own. -/
theorem removeCarriageReturn_eq (hadd : add ≠ []) : removeCarriageReturn output add behind =
    if Fooled output add behind then output ++ (add ++ [CR]) else add.foldl put output := by
  by_cases hcr : output.getLast? = some CR
  · rw [if_neg fun h : Fooled _ _ _ => h.1 hcr, removeCarriageReturn_of_cr hadd hcr]
  by_cases hplain : ∀ b ∈ add, b ≠ CR ∧ b ≠ LF
  · have hall : add.takeWhile (fun b => decide (b ≠ CR ∧ b ≠ LF)) = add :=
      List.takeWhile_eq_self_iff.mpr fun b hb => decide_eq_true (hplain b hb)
    have hput := foldl_put_plain hplain hcr []
    rw [List.append_nil, List.foldl_nil] at hput
    rw [removeCarriageReturn, if_neg hadd, if_neg hcr]
    dsimp only
    rw [hall, getD_length_append]
    by_cases hbehind : behind = CR
    · rw [if_pos hbehind, if_neg (by omega), if_pos ⟨hcr, hplain, hbehind⟩, hbehind, piece_zero,
        List.take_of_length_le (by simp)]
    · rw [if_neg hbehind, if_pos rfl, if_neg fun h : Fooled _ _ _ => hbehind h.2.2, hput]
  · rw [if_neg fun h : Fooled _ _ _ => hplain h.2.1, removeCarriageReturn_of_lineEnd hcr hplain]

end Chunk

/-! ### The thread that reads the pipe -/

/-- What `ReadFile` gives at a time: at least one byte, and one less than the buffer has room for at most. -/
structure Chunk where
  bytes : List UInt8
  pos : 0 < bytes.length
  lt : bytes.length < 1024

/-- `char buffer[1024]`, what is captured, and what the process has printed so far. -/
structure State where
  buffer : List UInt8
  output : List UInt8
  printed : List UInt8

/-- The front of the buffer is read, and `_HookedOutput` is called; `route` is `FLAG_ROUTE_OUTPUT`, for which it puts a
zero byte behind the chunk. -/
def step (route : Bool) (s : State) (chunk : Chunk) : Option State :=
  let dwRead := chunk.bytes.length
  let buffer := chunk.bytes ++ s.buffer.drop dwRead
  let buffer := if route then buffer.set dwRead 0 else buffer
  some ⟨buffer, removeCarriageReturn s.output chunk.bytes (buffer.getD dwRead 0), s.printed ++ chunk.bytes⟩

/-- The thread begins with whatever is on its stack. -/
def start (buffer : List UInt8) : State := ⟨buffer, [], []⟩

/-- The next chunk has a line end, or a carriage return was kept, or the byte left behind it is none. -/
def Clear (route : Bool) (s : State) (chunk : Chunk) : Prop :=
  route = true ∨ s.output.getLast? = some CR ∨ (∃ b ∈ chunk.bytes, b = CR ∨ b = LF) ∨
    s.buffer.getD chunk.bytes.length 0 ≠ CR

section Thread

variable {route : Bool} {s t : State} {add : List UInt8} {chunk : Chunk}

/-- The byte behind the chunk. -/
theorem behind_eq (hs : s.buffer.length = 1024) (hlt : add.length < 1024) :
    (if route = true then (add ++ s.buffer.drop add.length).set add.length 0
      else add ++ s.buffer.drop add.length).getD add.length 0 =
      if route = true then 0 else s.buffer.getD add.length 0 := by
  have hlen : add.length < (add ++ s.buffer.drop add.length).length := by
    rw [List.length_append, List.length_drop]
    omega
  split
  · rw [List.getD_eq_getElem?_getD, List.getElem?_set_self hlen]
    rfl
  · rw [List.getD_eq_getElem?_getD, List.getElem?_append_right le_rfl, Nat.sub_self, List.getElem?_drop,
      Nat.add_zero, List.getD_eq_getElem?_getD]

theorem not_fooled_iff :
    ¬ Fooled s.output chunk.bytes (if route = true then 0 else s.buffer.getD chunk.bytes.length 0) ↔
      Clear route s chunk := by
  unfold Fooled Clear
  cases route with
  | true => simp [CR]
  | false =>
    simp only [Bool.false_eq_true, if_false, false_or]
    constructor
    · intro h
      by_cases hcr : s.output.getLast? = some CR
      · exact .inl hcr
      by_cases hplain : ∀ b ∈ chunk.bytes, b ≠ CR ∧ b ≠ LF
      · exact .inr (.inr fun hb => h ⟨hcr, hplain, hb⟩)
      · push Not at hplain
        obtain ⟨b, hb, himp⟩ := hplain
        exact .inr (.inl ⟨b, hb, by tauto⟩)
    · rintro (hcr | ⟨b, hb, heq⟩ | hbehind) ⟨hlast, hplain, hbe⟩
      · exact hlast hcr
      · obtain ⟨hne1, hne2⟩ := hplain b hb
        exact heq.elim hne1 hne2
      · exact hbehind hbe

/-- A chunk keeps the captured text right if and only if it meets the condition. -/
theorem right_step (hs : s.buffer.length = 1024) (hright : s.output = terminal s.printed)
    (h : step route s chunk = some t) :
    t.buffer.length = 1024 ∧ (t.output = terminal t.printed ↔ Clear route s chunk) := by
  obtain rfl := Option.some.inj h
  have hlen : (chunk.bytes ++ s.buffer.drop chunk.bytes.length).length = 1024 := by
    have := chunk.lt
    rw [List.length_append, List.length_drop]
    omega
  refine ⟨?_, ?_⟩
  · dsimp only
    split
    · rw [List.length_set, hlen]
    · exact hlen
  · have hnext : terminal (s.printed ++ chunk.bytes) = chunk.bytes.foldl put s.output := by
      rw [terminal, List.foldl_append, hright, terminal]
    dsimp only
    rw [behind_eq hs chunk.lt, removeCarriageReturn_eq (List.length_pos_iff.mp chunk.pos), hnext, ← not_fooled_iff]
    generalize (if route = true then 0 else s.buffer.getD chunk.bytes.length 0) = behind
    by_cases hfooled : Fooled s.output chunk.bytes behind
    · rw [if_pos hfooled]
      refine iff_of_false (fun heq => ?_) (not_not.mpr hfooled)
      have hput := foldl_put_plain hfooled.2.1 hfooled.1 []
      rw [List.append_nil, List.foldl_nil] at hput
      rw [hput] at heq
      simpa using congrArg List.length heq
    · rw [if_neg hfooled]
      exact iff_of_true rfl hfooled

/-- `ab`, a line end, and `cd`. -/
def twoPieces : List Chunk := [⟨[0x61, 0x62, CR, LF], by decide, by decide⟩, ⟨[0x63, 0x64], by decide, by decide⟩]

end Thread

end Cpcf.Os.LaunchProcess
