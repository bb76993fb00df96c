import Cpcf.Json.Dialect
import Cpcf.Rt.StringTerminated
import Mathlib.Data.FinEnum

/-!
`JsonEscapeString` of `rt/json.cpp`, what it writes where, and what `UnescapeStringValue` makes of its text.

The constructor reserves two characters for each of the string and two more, but a zero byte takes four. A string
with many of them is written over the end of the buffer, and the call that sets the final length then copies only as
much as the reservation has asked for. With quotes, the first character is written before there is a buffer.

The counter of written characters is an `int`; where it overflows, the memory is not followed any further.
-/

namespace Cpcf.Json.Escape

open Cpcf.Lib Cpcf.Lib.Memory Cpcf.Lib.Word Cpcf.Rt Cpcf.Rt.StringRef Cpcf.Rt.StringOwned Cpcf.Json.Unescape

/-! ### The source -/

/-- `CharacterSet_Escape`. -/
def escapeSet : CharacterSet :=
  CharacterSet.init [0x08, 0x0c, 0x0d, 0x0a, 0x09, 0x0b, 0x27, 0x22, 0x5c]
    [0x62, 0x66, 0x72, 0x6e, 0x74, 0x76, 0x27, 0x22, 0x5c]

/-- What is written for the character `c`. -/
def escapeChar (c : UInt8) : List UInt8 :=
  if c ≠ 0 then
    if !escapeSet.has c then [c] else [Ch.backslash, escapeSet.mapped c]
  else leBytes 4 0x3030785c

/-- The loop over the `n` characters at `s`, with `o` characters written at `p`. -/
def escapeLoop : ℕ → Mem → ℕ → ℕ → ℕ → Option (Mem × ℕ)
  | 0, m, _, _, o => some (m, o)
  | n + 1, m, s, p, o =>
    let t := escapeChar (m s)
    if o + t.length < 2 ^ 31 then escapeLoop n (memcpy m (p + o) t) (s + 1) p (o + t.length) else none

/-- `(*this)[i] = x`. -/
def setChar (h : Heap) (s : StringOwned.Str) (i : ℕ) (x : UInt8) : Option Heap :=
  if s.p = 0 then none else some (h.set (poke h.mem (s.p + i) x))

/-- `JsonEscapeString(c_string, add_quote)`. -/
def jsonEscapeString (h : Heap) (c_string : Ref) (add_quote : Bool) : Option (Heap × StringOwned.Str) := do
  let s := StringOwned.Str.new
  let h ← if add_quote then setChar h s 0 Ch.dquote else some h
  let o := if add_quote then 1 else 0
  let t := setLength h s (c_string.getLength * 2 + 2)
  let u ← escapeLoop c_string.getLength t.1.mem c_string.p t.2.p o
  let h := t.1.set u.1
  let h ← if add_quote then setChar h t.2 u.2 Ch.dquote else some h
  let o := if add_quote then u.2 + 1 else u.2
  some (setLength h t.2 o)

/-- What the constructor does to its buffer: it has it reserved, and writes a byte at an offset. -/
inductive Access
  | reserve (size : ℕ)
  | write (offset : ℤ)
  deriving DecidableEq, Repr

/-- The loop over the characters with `o` characters written; an offset is an `int`. -/
def escapeWrites : ℕ → List UInt8 → List Access
  | _, [] => []
  | o, c :: s =>
    (List.range (escapeChar c).length).map (fun k : ℕ => Access.write (intOf (o + k))) ++
      escapeWrites (o + (escapeChar c).length) s

/-- `JsonEscapeString` of the characters `s`: its accesses in order, up to the call that sets the final length. -/
def accesses (h : Heap) (s : List UInt8) (add_quote : Bool) : List Access :=
  let o := if add_quote then 1 else 0
  (if add_quote then [Access.write 0] else []) ++
    Access.reserve (setLength h StringOwned.Str.new (s.length * 2 + 2)).2.reserved :: escapeWrites o s ++
    if add_quote then [Access.write (intOf (o + (s.flatMap escapeChar).length))] else []

/-- Every byte is written into the buffer that is reserved at the time; at first there is none. -/
def Contained : ℕ → List Access → Prop
  | _, [] => True
  | _, .reserve size :: l => Contained size l
  | size, .write offset :: l => 0 ≤ offset ∧ offset < size ∧ Contained size l

instance Contained.decidable : ∀ size l, Decidable (Contained size l)
  | _, [] => isTrue trivial
  | _, .reserve size :: l => Contained.decidable size l
  | size, .write _ :: l => @instDecidableAnd _ _ _ (@instDecidableAnd _ _ _ (Contained.decidable size l))

/-! ### The escaped text -/

/-- The escaped text of `s`. -/
def escapeText (s : List UInt8) : List UInt8 := s.flatMap escapeChar

/-- The text stands in the memory that is allocated. -/
structure StringAt (h : Heap) (r : Ref) (s : List UInt8) : Prop where
  length : r.getLength = s.length
  null : r.p = 0 → s = []
  below : r.p + s.length ≤ h.brk
  holds : Holds h.mem r.p s

section Text

variable {m : Mem} {xs : List UInt8} {s p o n k : ℕ}

@[simp] theorem escapeText_nil : escapeText [] = [] := rfl

@[simp] theorem escapeText_cons (c : UInt8) (xs : List UInt8) :
    escapeText (c :: xs) = escapeChar c ++ escapeText xs := List.flatMap_cons

theorem escapeText_append (xs ys : List UInt8) : escapeText (xs ++ ys) = escapeText xs ++ escapeText ys :=
  List.flatMap_append

theorem escapeChar_zero : escapeChar 0 = [0x5c, 0x78, 0x30, 0x30] := by decide

/-- The three forms of a character. -/
theorem escapeChar_cases : ∀ c : UInt8, c = 0 ∨ (escapeChar c = [c] ∧ c ≠ Ch.backslash ∧ c ≠ Ch.dquote) ∨
    (escapeChar c = [Ch.backslash, escapeSet.mapped c] ∧ escapeSet.mapped c ≠ 0x75 ∧ escapeSet.mapped c ≠ 0x78 ∧
      esc.mapped (escapeSet.mapped c) = c) := by
  set_option maxRecDepth 20000 in decide

theorem length_escapeChar_pos (c : UInt8) : 0 < (escapeChar c).length ∧ (escapeChar c).length ≤ 4 := by
  rcases escapeChar_cases c with rfl | ⟨h, -⟩ | ⟨h, -⟩
  · rw [escapeChar_zero]
    decide
  · simp [h]
  · simp [h]

theorem length_escapeText_le (xs : List UInt8) :
    xs.length ≤ (escapeText xs).length ∧ (escapeText xs).length ≤ 4 * xs.length := by
  induction xs with
  | nil => exact ⟨le_rfl, le_rfl⟩
  | cons c xs ih =>
    have := length_escapeChar_pos c
    rw [escapeText_cons, List.length_append, List.length_cons]
    omega

/-- The number of characters that are written for `s`. -/
def escapedLength (s : List UInt8) : ℕ := s.length + s.countP escapeSet.has + 3 * s.count 0

theorem length_escapeChar : ∀ c : UInt8,
    (escapeChar c).length = 1 + (if escapeSet.has c = true then 1 else 0) + 3 * if c = 0 then 1 else 0 := by
  set_option maxRecDepth 20000 in decide

theorem length_escapeText (xs : List UInt8) : (escapeText xs).length = escapedLength xs := by
  induction xs with
  | nil => rfl
  | cons c xs ih =>
    rw [escapedLength] at ih
    rw [escapeText_cons, List.length_append, length_escapeChar, ih, escapedLength, List.length_cons, List.countP_cons,
      List.count_cons]
    simp only [beq_iff_eq]
    omega

/-- The text can stand between double quotes. -/
theorem escaped_escapeText (xs : List UInt8) : escaped Ch.dquote (escapeText xs) = true := by
  have hplain : ∀ (c : UInt8) (t : List UInt8), c ≠ Ch.backslash → c ≠ Ch.dquote → escaped Ch.dquote t = true →
      escaped Ch.dquote (c :: t) = true := by
    intro c t h1 h2 ht
    cases t with
    | nil => simp only [escaped, Bool.and_eq_true, bne_iff_ne]; exact ⟨h1, h2⟩
    | cons b t => simp only [escaped, if_neg h1, Bool.and_eq_true, bne_iff_ne]; exact ⟨h2, ht⟩
  induction xs with
  | nil => rfl
  | cons c xs ih =>
    rw [escapeText_cons]
    rcases escapeChar_cases c with rfl | ⟨h, h1, h2⟩ | ⟨h, -⟩
    · rw [escapeChar_zero]
      have h30 := hplain 0x30 _ (by decide) (by decide) (hplain 0x30 _ (by decide) (by decide) ih)
      exact h30
    · rw [h]
      exact hplain c _ h1 h2 ih
    · rw [h]
      exact ih

/-! ### The loop -/

/-- The loop writes the escaped text, as long as its counter does not overflow. -/
theorem escapeLoop_eq (hs : Holds m s xs) (hap : s + xs.length ≤ p) (ho : o < 2 ^ 31) :
    escapeLoop xs.length m s p o =
      if o + (escapeText xs).length < 2 ^ 31 then
        some (memcpy m (p + o) (escapeText xs), o + (escapeText xs).length)
      else none := by
  induction xs generalizing m s o with
  | nil =>
    rw [List.length_nil, escapeLoop, escapeText_nil, List.length_nil, Nat.add_zero, if_pos ho]
    rfl
  | cons c xs ih =>
    rw [List.length_cons] at hap
    rw [List.length_cons, escapeLoop, hs.1, escapeText_cons, List.length_append, memcpy_append]
    split_ifs with h1 h2 h2
    · rw [ih (hs.2.memcpy (by omega)) (by omega) h1, Nat.add_assoc, if_pos (by omega), Nat.add_assoc]
    · rw [ih (hs.2.memcpy (by omega)) (by omega) h1, Nat.add_assoc, if_neg (by omega)]
    · omega
    · rfl

/-! ### Unescaping -/

/-- One escaped character is read back. -/
theorem valueLoop_char {c : UInt8} {rest : List UInt8} (hm : Holds m s (escapeChar c ++ rest))
    (hk : (escapeChar c).length + rest.length ≤ k + 1) :
    valueLoop (k + 1) m s ((escapeChar c).length + rest.length) p =
      valueLoop k (poke m p c) (s + (escapeChar c).length) rest.length (p + 1) := by
  rcases escapeChar_cases c with rfl | ⟨h, h1, -⟩ | ⟨h, hu, hx, hback⟩
  · rw [escapeChar_zero] at hm ⊢
    obtain ⟨e0, e1, e2, e3, -⟩ := hm
    have e0' : m s = Ch.backslash := e0
    have e2' : m (s + 2) = 0x30 := e2
    have e3' : m (s + 3) = 0x30 := e3
    simp only [List.length_cons, List.length_nil]
    rw [valueLoop, if_pos (by omega), e0', e1, if_pos rfl, if_neg (fun hh => absurd hh.1 (by decide)),
      if_pos ⟨rfl, by omega⟩, e2', e3',
      show 0 + 1 + 1 + 1 + 1 + rest.length - 4 = rest.length by omega]
    rfl
  · rw [h] at hm ⊢
    obtain ⟨e0, -⟩ := hm
    rw [List.length_singleton, valueLoop, e0, if_neg h1]
    split_ifs with h2 h3
    · rw [Nat.add_sub_cancel_left]
    · rw [show rest.length = 0 by omega, valueLoop_zero]
    · omega
  · rw [h] at hm ⊢
    obtain ⟨e0, e1, -⟩ := hm
    simp only [List.length_cons, List.length_nil]
    rw [valueLoop, if_pos (by omega), e0, e1, if_pos rfl, if_neg (fun hh => hu hh.1), if_neg (fun hh => hx hh.1), hback,
      show 0 + 1 + 1 + rest.length - 2 = rest.length by omega]

/-- The escaped text of `xs` in front is read back, and the rest of the text is left. -/
theorem valueLoop_escapeText {rest : List UInt8} (hm : Holds m s (escapeText xs ++ rest))
    (hk : (escapeText xs).length + rest.length ≤ k) (hap : s + (escapeText xs).length + rest.length ≤ p) :
    ∃ k', rest.length ≤ k' ∧ valueLoop k m s ((escapeText xs).length + rest.length) p =
      valueLoop k' (memcpy m p xs) (s + (escapeText xs).length) rest.length (p + xs.length) ∧
      Holds (memcpy m p xs) (s + (escapeText xs).length) rest := by
  induction xs generalizing m s p k with
  | nil =>
    refine ⟨k, ?_, ?_, hm⟩
    · rw [escapeText_nil, List.length_nil] at hk
      omega
    · rw [escapeText_nil, List.length_nil, Nat.zero_add]
      rfl
  | cons c xs ih =>
    have hpos := length_escapeChar_pos c
    rw [escapeText_cons, List.append_assoc] at hm
    rw [escapeText_cons, List.length_append] at hk hap ⊢
    obtain ⟨k, rfl⟩ : ∃ j, k = j + 1 := ⟨k - 1, by omega⟩
    have hstep := valueLoop_char (p := p) (k := k) hm (by rw [List.length_append]; omega)
    have htail : Holds (memcpy m p [c]) (s + (escapeChar c).length) (escapeText xs ++ rest) :=
      (holds_append.mp hm).2.memcpy (by rw [List.length_append]; omega)
    rw [List.length_append, ← Nat.add_assoc] at hstep
    obtain ⟨k', hk', hloop, hrest⟩ := ih (m := poke m p c) (s := s + (escapeChar c).length) (p := p + 1) (k := k) htail
      (by omega) (by omega)
    refine ⟨k', hk', ?_, ?_⟩
    · rw [hstep, hloop, memcpy_cons, List.length_cons]
      congr 1 <;> omega
    · rw [memcpy_cons, ← Nat.add_assoc]
      exact hrest

end Text

/-! ### The buffer -/

/-- The room for a string of `n` characters. -/
def room (n : ℕ) : ℕ := max 16 (2 * n + 3)

/-- The first call for a length takes a block. -/
theorem setLength_new (h : Heap) {n : ℕ} (hn : n ≠ 0) :
    setLength h StringOwned.Str.new n =
      ((h.malloc (max 16 (n + 1))).set (poke h.mem (h.brk + n) 0), ⟨⟨h.brk, n + 1⟩, max 16 (n + 1)⟩) := by
  have hmax : max (max 16 (n + 1)) (StringOwned.Str.new.reserved * 2) = max 16 (n + 1) :=
    Nat.max_eq_left (Nat.zero_le _)
  rw [setLength, if_neg hn, changeSize, if_neg (by simp [StringOwned.Str.new])]
  simp only [hmax]
  rfl

section Call

variable {h : Heap} {r : Ref} {s : List UInt8}

/-- Before the last call for a length, the escaped text stands in the buffer, and over its end. -/
theorem jsonEscapeString_eq (hs : StringAt h r s) :
    jsonEscapeString h r false =
      if (escapeText s).length < 2 ^ 31 then
        some (setLength ((h.malloc (room s.length)).set
            (memcpy (poke h.mem (h.brk + (2 * s.length + 2)) 0) h.brk (escapeText s)))
          ⟨⟨h.brk, 2 * s.length + 3⟩, room s.length⟩ (escapeText s).length)
      else none := by
  have hloop := escapeLoop_eq (m := poke h.mem (h.brk + (2 * s.length + 2)) 0) (p := h.brk) (o := 0)
    (hs.holds.poke (by have := hs.below; omega)) hs.below (by decide)
  rw [Nat.add_zero, Nat.zero_add] at hloop
  unfold jsonEscapeString
  simp only [Bool.false_eq_true, if_false, Option.bind_eq_bind, Option.bind_some, hs.length, Nat.mul_comm s.length 2]
  rw [setLength_new h (by omega)]
  simp only [Heap.set, Heap.malloc] at hloop ⊢
  rw [hloop]
  split_ifs with hlt
  · rfl
  · rfl

/-- The text fits into the buffer. -/
theorem stringAt_kept {m : Mem} {t : List UInt8} {n R : ℕ} (hm : Holds m h.brk t) (hR : t.length + 1 ≤ R) :
    StringAt (setLength ((h.malloc R).set m) ⟨⟨h.brk, n + 2⟩, R⟩ t.length).1
      (setLength ((h.malloc R).set m) ⟨⟨h.brk, n + 2⟩, R⟩ t.length).2.toRef t := by
  by_cases h0 : t.length = 0
  · have hnil := List.eq_nil_of_length_eq_zero h0
    subst hnil
    rw [List.length_nil, setLength, if_pos rfl, if_pos ⟨h.brk_pos.ne', by simp only; omega⟩]
    exact ⟨rfl, fun _ => rfl, Nat.le_add_right _ _, trivial⟩
  · rw [setLength, if_neg h0, changeSize, if_pos hR]
    refine ⟨rfl, fun hp => absurd hp h.brk_pos.ne', ?_, ?_⟩
    · show h.brk + t.length ≤ h.brk + R
      omega
    · exact hm.poke (by simp only; omega)

/-- The text does not fit: of a new block, only as much is written as the first call has asked for. -/
theorem stringAt_moved {m : Mem} {t : List UInt8} {C R : ℕ} (hm : Holds m h.brk t) (h0 : 0 < R) (hR : R < t.length + 1)
    (hC : C ≤ R) :
    StringAt (setLength ((h.malloc R).set m) ⟨⟨h.brk, C⟩, R⟩ t.length).1
      (setLength ((h.malloc R).set m) ⟨⟨h.brk, C⟩, R⟩ t.length).2.toRef
      (t.take C ++ Memory.read m (h.brk + R + C) (t.length - C)) := by
  have htake : Memory.read m h.brk C = t.take C := by
    have h1 : Holds m h.brk (t.take C ++ t.drop C) := by rwa [List.take_append_drop]
    have h2 := (holds_append.mp h1).1.read_eq
    rwa [List.length_take, Nat.min_eq_left (by omega)] at h2
  have hlen : (t.take C).length = C := by
    rw [List.length_take]
    omega
  have hsum : (t.take C ++ Memory.read m (h.brk + R + C) (t.length - C)).length = t.length := by
    rw [List.length_append, hlen, length_read]
    omega
  rw [setLength, if_neg (by omega), changeSize, if_neg (by simp only; omega)]
  refine ⟨?_, fun hp => absurd hp (Nat.add_pos_left h.brk_pos R).ne', ?_, ?_⟩
  · rw [hsum]
    rfl
  · rw [hsum]
    show h.brk + R + t.length ≤ h.brk + R + max (max 16 (t.length + 1)) (R * 2)
    omega
  · show Holds (poke (memcpy m (h.brk + R) (Memory.read m h.brk C)) (h.brk + R + t.length) 0) (h.brk + R)
      (t.take C ++ Memory.read m (h.brk + R + C) (t.length - C))
    rw [htake]
    apply holds_append.mpr
    constructor
    · apply (holds_memcpy m (h.brk + R) (t.take C)).congr
      intro a _ ha
      exact poke_other _ _ (by omega)
    · rw [hlen]
      apply (holds_read m (h.brk + R + C) (t.length - C)).congr
      intro a h1 h2
      rw [length_read] at h2
      rw [poke_other _ _ (by omega)]
      exact memcpy_outside _ _ (by omega)

/-! ### The round trip -/

/-- The text `UnescapeStringValue` makes of `r`. -/
def unescaped (h : Heap) (r : Ref) : List UInt8 :=
  let u := unescapeStringValue h StringOwned.Str.new r
  Memory.read u.1.mem u.2.p u.2.getLength

theorem unescaped_eq (hs : StringAt h r s) (hne : s ≠ []) :
    Holds (poke h.mem (h.brk + s.length) 0) r.p s ∧
      unescaped h r = Memory.read (valueLoop s.length (poke h.mem (h.brk + s.length) 0) r.p s.length h.brk).1 h.brk
        ((valueLoop s.length (poke h.mem (h.brk + s.length) 0) r.p s.length h.brk).2 - h.brk) := by
  have hpos : s.length ≠ 0 := fun h0 => hne (List.eq_nil_of_length_eq_zero h0)
  have hbelow := hs.below
  refine ⟨hs.holds.poke (by omega), ?_⟩
  have hnot : ¬ r.isEmpty = true := by
    have hlen := hs.length
    rw [Ref.getLength] at hlen
    exact r.not_isEmpty_iff.mpr ⟨fun h0 => hne (hs.null h0), by omega⟩
  rw [unescaped, unescapeStringValue, if_neg hnot]
  simp only [hs.length]
  rw [setLength_new h hpos]
  rfl

/-- The escaped text is read back. -/
theorem unescaped_escapeText (hs : StringAt h r (escapeText s)) : unescaped h r = s := by
  by_cases hne : escapeText s = []
  · have hempty : s = [] := by
      have hle := (length_escapeText_le s).1
      rw [hne] at hle
      exact List.eq_nil_of_length_eq_zero (by simpa using hle)
    have hlen := hs.length
    rw [hempty, escapeText_nil, List.length_nil, Ref.getLength] at hlen
    have hnot : r.isEmpty = true := by
      simp only [Ref.isEmpty, Bool.or_eq_true, decide_eq_true_eq]
      omega
    rw [unescaped, unescapeStringValue, if_pos hnot, hempty]
    rfl
  · obtain ⟨hm, heq⟩ := unescaped_eq hs hne
    have hbelow := hs.below
    have hm' : Holds (poke h.mem (h.brk + (escapeText s).length) 0) r.p (escapeText s ++ []) := by
      rwa [List.append_nil]
    obtain ⟨k, -, hloop, -⟩ := valueLoop_escapeText (p := h.brk) hm' (k := (escapeText s).length) (by simp)
      (by simpa using hbelow)
    rw [List.length_nil, Nat.add_zero, valueLoop_zero] at hloop
    rw [heq, hloop, Nat.add_sub_cancel_left]
    exact (holds_memcpy _ _ _).read_eq

/-- A byte that is read where the text has been cut: `b` stands behind `piece`, the rest of a character. -/
def spoiled (b : UInt8) : List UInt8 → UInt8
  | [_, _] => charOf (hexValue b * 2 ^ 4 + hexValue b)
  | [_, _, d] => charOf (hexValue d * 2 ^ 4 + hexValue b)
  | _ => b

/-- A byte that is written stays. -/
theorem valueLoop_keeps (k : ℕ) (m : Mem) (p n q : ℕ) (x : UInt8) : (valueLoop k (poke m q x) p n (q + 1)).1 q = x := by
  rw [(valueLoop_spec k (poke m q x) p n (q + 1)).2.2 q (Or.inl (Nat.lt_succ_self q))]
  exact poke_same _ _ _

section Cut

variable {m : Mem} {p q k j : ℕ} {b : UInt8}

theorem spoiling_facts (hb : b = 0x79 ∨ b = 0x7a) :
    b ≠ Ch.backslash ∧ b ≠ 0x75 ∧ b ≠ 0x78 ∧ esc.mapped b = b := by
  rcases hb with rfl | rfl
  · decide
  · decide

/-- Nothing of the character stands there. -/
theorem valueLoop_cut_start (hb : b = 0x79 ∨ b = 0x7a) (h0 : m p = b) (hj : 0 < j) :
    (valueLoop (k + 1) m p j q).1 q = b := by
  rw [valueLoop, h0, if_neg (spoiling_facts hb).1]
  split_ifs with h2 h3
  · exact valueLoop_keeps _ _ _ _ _ _
  · exact poke_same _ _ _
  · omega

/-- The backslash stands there. -/
theorem valueLoop_cut_slash (hb : b = 0x79 ∨ b = 0x7a) (hm : m p = Ch.backslash) (h0 : m (p + 1) = b) (hj : 1 ≤ j) :
    (valueLoop (k + 1) m p (1 + j) q).1 q = b := by
  obtain ⟨-, hu, hx, hmap⟩ := spoiling_facts hb
  rw [valueLoop, if_pos (by omega), hm, if_pos rfl, h0, if_neg (fun hh => hu hh.1), if_neg (fun hh => hx hh.1), hmap]
  exact valueLoop_keeps _ _ _ _ _ _

/-- The start of a code stands there. -/
theorem valueLoop_cut_code {n : ℕ} (h0 : m p = Ch.backslash) (h1 : m (p + 1) = 0x78) (hn : 3 < n) :
    (valueLoop (k + 1) m p n q).1 q = charOf (hexValue (m (p + 2)) * 2 ^ 4 + hexValue (m (p + 3))) := by
  rw [valueLoop, if_pos (by omega), h0, if_pos rfl, h1, if_neg (fun hh => absurd hh.1 (by decide)), if_pos ⟨rfl, hn⟩]
  exact valueLoop_keeps _ _ _ _ _ _

/-- The first byte that is read where the text has been cut. -/
theorem valueLoop_spoiled {piece : List UInt8} {c : UInt8} (hb : b = 0x79 ∨ b = 0x7a)
    (hpiece : piece <+: escapeChar c) (hlen : piece.length < (escapeChar c).length)
    (hj : (escapeChar c).length ≤ piece.length + j) (hm : Holds m p (piece ++ List.replicate j b)) :
    (valueLoop (k + 1) m p (piece.length + j) q).1 q = spoiled b piece := by
  have htake := List.prefix_iff_eq_take.mp hpiece
  have hget : ∀ i < j, m (p + piece.length + i) = b := by
    intro i hi
    have h1 := (holds_append.mp hm).2.get (i := i) (by simpa using hi)
    rwa [List.getElem_replicate] at h1
  have hnone : piece.length = 0 → (valueLoop (k + 1) m p (piece.length + j) q).1 q = spoiled b piece := by
    intro h0
    obtain rfl := List.eq_nil_of_length_eq_zero h0
    rw [List.length_nil, Nat.zero_add]
    exact valueLoop_cut_start hb (hget 0 (by omega)) (by omega)
  have hslash : piece = [Ch.backslash] → 1 ≤ j →
      (valueLoop (k + 1) m p (piece.length + j) q).1 q = spoiled b piece := by
    rintro rfl h1
    exact valueLoop_cut_slash hb hm.1 (hget 0 h1) h1
  rcases escapeChar_cases c with rfl | ⟨h, -⟩ | ⟨h, -⟩
  · rw [escapeChar_zero] at htake hlen hj
    simp only [List.length_cons, List.length_nil] at hlen hj
    rcases hn : piece.length with _ | _ | _ | _ | n
    · rw [← hn]
      exact hnone hn
    · rw [hn] at htake
      rw [← hn]
      exact hslash htake (by omega)
    · rw [hn] at htake
      have h2 := hget 0 (by omega)
      have h3 := hget 1 (by omega)
      rw [hn] at h2 h3
      rw [htake] at hm ⊢
      rw [valueLoop_cut_code hm.1 hm.2.1 (by omega), h2, h3]
      rfl
    · rw [hn] at htake
      have h3 := hget 0 (by omega)
      rw [hn] at h3
      rw [htake] at hm ⊢
      rw [valueLoop_cut_code hm.1 hm.2.1 (by omega), hm.2.2.1, h3]
      rfl
    · omega
  · rw [h, List.length_singleton, Nat.lt_one_iff] at hlen
    exact hnone hlen
  · rw [h] at htake hlen hj
    simp only [List.length_cons, List.length_nil] at hlen hj
    rcases Nat.lt_or_ge piece.length 1 with h0 | h0
    · exact hnone (Nat.lt_one_iff.mp h0)
    · rw [show piece.length = 1 by omega] at htake
      exact hslash htake (by omega)

end Cut

/-- The two bytes give two characters, wherever the text has been cut. -/
theorem spoiled_ne {piece : List UInt8} {c : UInt8} (hpiece : piece <+: escapeChar c)
    (hlen : piece.length < (escapeChar c).length) : spoiled 0x79 piece ≠ spoiled 0x7a piece := by
  have htake := List.prefix_iff_eq_take.mp hpiece
  rcases escapeChar_cases c with rfl | ⟨h, -⟩ | ⟨h, -⟩
  · rw [escapeChar_zero] at htake hlen
    simp only [List.length_cons, List.length_nil] at hlen
    rcases hn : piece.length with _ | _ | _ | _ | n
    · rw [htake, hn]
      decide
    · rw [htake, hn]
      decide
    · rw [htake, hn]
      decide
    · rw [htake, hn]
      decide
    · omega
  · rw [h, List.length_singleton, Nat.lt_one_iff] at hlen
    rw [List.eq_nil_of_length_eq_zero hlen]
    decide
  · rw [h] at htake hlen
    simp only [List.length_cons, List.length_nil] at hlen
    rcases hn : piece.length with _ | _ | n
    · rw [htake, hn]
      show (0x79 : UInt8) ≠ 0x7a
      decide
    · rw [htake, hn]
      show (0x79 : UInt8) ≠ 0x7a
      decide
    · omega

/-- A text cut within its escaped form is cut within one character of it. -/
theorem take_escapeText {k : ℕ} (hk : k < (escapeText s).length) :
    ∃ s1 c s2 piece, s = s1 ++ c :: s2 ∧ (escapeText s).take k = escapeText s1 ++ piece ∧ piece <+: escapeChar c ∧
      piece.length < (escapeChar c).length := by
  induction s generalizing k with
  | nil => exact absurd hk (Nat.not_lt_zero k)
  | cons c s ih =>
    rw [escapeText_cons, List.length_append] at hk
    rw [escapeText_cons]
    by_cases hc : k < (escapeChar c).length
    · refine ⟨[], c, s, (escapeChar c).take k, rfl, ?_, List.take_prefix k _, ?_⟩
      · rw [List.take_append_of_le_length hc.le]
        rfl
      · rw [List.length_take]
        omega
    · obtain ⟨s1, d, s2, piece, hs, htake, hpre, hlen⟩ := ih (k := k - (escapeChar c).length) (by omega)
      refine ⟨c :: s1, d, s2, piece, congrArg (c :: ·) hs, ?_, hpre, hlen⟩
      rw [List.take_append, List.take_of_length_le (by omega), htake, escapeText_cons, List.append_assoc]

/-- What is read of a text that has been cut and filled up with `b`. -/
theorem unescaped_cut {s1 s2 piece : List UInt8} {b c : UInt8} {j : ℕ} (hb : b = 0x79 ∨ b = 0x7a)
    (hpiece : piece <+: escapeChar c) (hlen : piece.length < (escapeChar c).length)
    (hj : (escapeChar c).length ≤ piece.length + j)
    (hs : StringAt h r (escapeText s1 ++ (piece ++ List.replicate j b))) (hback : unescaped h r = s1 ++ c :: s2) :
    c = spoiled b piece := by
  have hlenp : (piece ++ List.replicate j b).length = piece.length + j := by simp
  have hne : escapeText s1 ++ (piece ++ List.replicate j b) ≠ [] := by
    intro h0
    have := congrArg List.length h0
    rw [List.length_append, hlenp, List.length_nil] at this
    omega
  obtain ⟨hm, heq⟩ := unescaped_eq hs hne
  have hbelow := hs.below
  rw [List.length_append, hlenp] at hbelow
  obtain ⟨k, hk, hloop, hrest⟩ := valueLoop_escapeText (p := h.brk) hm
    (k := (escapeText s1 ++ (piece ++ List.replicate j b)).length) List.length_append.ge (by omega)
  rw [← List.length_append] at hloop
  have hholds := holds_read (valueLoop (escapeText s1 ++ (piece ++ List.replicate j b)).length
    (poke h.mem (h.brk + (escapeText s1 ++ (piece ++ List.replicate j b)).length) 0) r.p
    (escapeText s1 ++ (piece ++ List.replicate j b)).length h.brk).1 h.brk
    ((valueLoop (escapeText s1 ++ (piece ++ List.replicate j b)).length
      (poke h.mem (h.brk + (escapeText s1 ++ (piece ++ List.replicate j b)).length) 0) r.p
      (escapeText s1 ++ (piece ++ List.replicate j b)).length h.brk).2 - h.brk)
  rw [← heq, hback, hloop] at hholds
  have hc := (holds_append.mp hholds).2.1
  obtain ⟨k, rfl⟩ : ∃ i, k = i + 1 := ⟨k - 1, by omega⟩
  rw [hlenp, valueLoop_spoiled hb hpiece hlen hj hrest] at hc
  exact hc.symm

/-- The text made of `s` is read back as `s`, and no double quote in it stands without a backslash. -/
def RoundTrips (s : List UInt8) : Prop :=
  ∀ h r, StringAt h r s → ∃ t, jsonEscapeString h r false = some t ∧ unescaped t.1 t.2.toRef = s ∧
    escaped Ch.dquote (Memory.read t.1.mem t.2.p t.2.getLength) = true

theorem StringAt.read_eq (hs : StringAt h r s) : Memory.read h.mem r.p r.getLength = s := by
  rw [hs.length]
  exact hs.holds.read_eq

/-- Where the text fits into the buffer, or just fills what is copied, it is the whole text. -/
theorem jsonEscapeString_whole (hs : StringAt h r s) (hfit : (escapeText s).length ≤ max 15 (2 * s.length + 3))
    (hint : (escapeText s).length < 2 ^ 31) :
    ∃ t, jsonEscapeString h r false = some t ∧ StringAt t.1 t.2.toRef (escapeText s) := by
  rw [jsonEscapeString_eq hs, if_pos hint]
  refine ⟨_, rfl, ?_⟩
  by_cases hroom : (escapeText s).length + 1 ≤ room s.length
  · exact stringAt_kept (holds_memcpy _ _ _) hroom
  · rw [room] at hroom
    have hC : (escapeText s).length = 2 * s.length + 3 := by omega
    have hmoved := stringAt_moved (h := h)
      (m := memcpy (poke h.mem (h.brk + (2 * s.length + 2)) 0) h.brk (escapeText s)) (t := escapeText s)
      (C := 2 * s.length + 3) (R := room s.length) (holds_memcpy _ _ _) (by rw [room]; omega) (by rw [room]; omega)
      (by rw [room]; omega)
    have hall : (escapeText s).take (2 * s.length + 3) ++
        Memory.read (memcpy (poke h.mem (h.brk + (2 * s.length + 2)) 0) h.brk (escapeText s))
          (h.brk + room s.length + (2 * s.length + 3)) ((escapeText s).length - (2 * s.length + 3)) = escapeText s := by
      rw [List.take_of_length_le hC.le, hC, Nat.sub_self]
      exact List.append_nil _
    rwa [hall] at hmoved

/-- Where it does not fit, the end of the text is what stood in the memory. -/
theorem jsonEscapeString_spoiled (hs : StringAt h r s) (hfit : max 15 (2 * s.length + 3) < (escapeText s).length)
    (hint : (escapeText s).length < 2 ^ 31) :
    ∃ t, jsonEscapeString h r false = some t ∧ StringAt t.1 t.2.toRef ((escapeText s).take (2 * s.length + 3) ++
      Memory.read h.mem (h.brk + room s.length + (2 * s.length + 3)) ((escapeText s).length - (2 * s.length + 3))) := by
  rw [jsonEscapeString_eq hs, if_pos hint]
  refine ⟨_, rfl, ?_⟩
  have hmoved := stringAt_moved (h := h) (m := memcpy (poke h.mem (h.brk + (2 * s.length + 2)) 0) h.brk (escapeText s))
    (t := escapeText s) (C := 2 * s.length + 3) (R := room s.length) (holds_memcpy _ _ _) (by rw [room]; omega)
    (by rw [room]; omega) (by rw [room]; omega)
  have hle := (length_escapeText_le s).2
  have hmem : Memory.read (memcpy (poke h.mem (h.brk + (2 * s.length + 2)) 0) h.brk (escapeText s))
      (h.brk + room s.length + (2 * s.length + 3)) ((escapeText s).length - (2 * s.length + 3)) =
      Memory.read h.mem (h.brk + room s.length + (2 * s.length + 3)) ((escapeText s).length - (2 * s.length + 3)) := by
    apply read_congr
    intro a h1 h2
    rw [room] at h1
    rw [memcpy_outside _ _ (by omega)]
    exact poke_other _ _ (by omega)
  rwa [hmem] at hmoved

/-- The string `s` at the start of a memory that is filled with `b`. -/
def filled (b : UInt8) (s : List UInt8) : Heap := ⟨memcpy (fun _ => b) 1 s, s.length + 1, Nat.succ_pos _⟩

theorem stringAt_filled (b : UInt8) (s : List UInt8) : StringAt (filled b s) ⟨1, s.length + 1⟩ s :=
  ⟨rfl, fun h => absurd h one_ne_zero, (Nat.add_comm 1 _).le, holds_memcpy _ _ _⟩

theorem read_filled {b : UInt8} {s : List UInt8} {p : ℕ} (hp : s.length + 1 ≤ p) (n : ℕ) :
    Memory.read (filled b s).mem p n = List.replicate n b := by
  have hholds : Holds (filled b s).mem p (List.replicate n b) := by
    apply holds_iff.mpr
    intro i hi
    rw [List.getElem_replicate]
    exact memcpy_outside _ _ (by omega)
  have hread := hholds.read_eq
  rwa [List.length_replicate] at hread

/-- A text that is read back for both fillings of the memory is not cut. -/
theorem not_roundTrips (hfit : max 15 (2 * s.length + 3) < (escapeText s).length)
    (hint : (escapeText s).length < 2 ^ 31) : ¬ RoundTrips s := by
  intro hall
  obtain ⟨s1, c, s2, piece, hsplit, htake, hpiece, hlen⟩ := take_escapeText (s := s) (k := 2 * s.length + 3) (by omega)
  have hone : ∀ b, b = 0x79 ∨ b = 0x7a → c = spoiled b piece := by
    intro b hb
    obtain ⟨t, ht, hback, -⟩ := hall (filled b s) _ (stringAt_filled b s)
    obtain ⟨t', ht', hat⟩ := jsonEscapeString_spoiled (stringAt_filled b s) hfit hint
    obtain rfl : t = t' := Option.some_injective _ (ht.symm.trans ht')
    rw [htake, read_filled (by show s.length + 1 ≤ s.length + 1 + room s.length + _; omega), List.append_assoc] at hat
    refine unescaped_cut hb hpiece hlen ?_ hat (hback.trans hsplit)
    have hk := congrArg List.length htake
    have htotal : (escapeText s).length =
        (escapeText s1).length + ((escapeChar c).length + (escapeText s2).length) := by
      rw [congrArg escapeText hsplit, escapeText_append, escapeText_cons, List.length_append, List.length_append]
    rw [List.length_take, List.length_append] at hk
    omega
  exact spoiled_ne hpiece hlen ((hone 0x79 (Or.inl rfl)).symm.trans (hone 0x7a (Or.inr rfl)))

end Call

/-- The round trip succeeds exactly where the escaped text fits into the buffer, or fills up what of it is copied. -/
theorem jsonEscapeString_roundTrips_iff (s : List UInt8) :
    RoundTrips s ↔ escapedLength s ≤ max 15 (2 * s.length + 3) ∧ escapedLength s < 2 ^ 31 := by
  rw [← length_escapeText]
  constructor
  · intro hall
    have hint : (escapeText s).length < 2 ^ 31 := by
      by_contra hnot
      obtain ⟨t, ht, -⟩ := hall (filled 0 s) _ (stringAt_filled 0 s)
      rw [jsonEscapeString_eq (stringAt_filled 0 s), if_neg hnot] at ht
      exact absurd ht.symm (Option.some_ne_none t)
    refine ⟨?_, hint⟩
    by_contra hfit
    exact not_roundTrips (by omega) hint hall
  · rintro ⟨hfit, hint⟩ h r hs
    obtain ⟨t, ht, hat⟩ := jsonEscapeString_whole hs hfit hint
    refine ⟨t, ht, unescaped_escapeText hat, ?_⟩
    rw [hat.read_eq]
    exact escaped_escapeText s

/-- Eight zero bytes take more than the memory that is reserved for them. -/
theorem zeros_not_roundTrips : ¬ RoundTrips (List.replicate 8 0) := by
  apply not_roundTrips
  · decide
  · decide

/-! ### The writes -/

/-- The loop writes byte after byte. -/
theorem escapeWrites_eq (o : ℕ) (s : List UInt8) :
    escapeWrites o s = (List.range (escapeText s).length).map fun k : ℕ => Access.write (intOf (o + k)) := by
  induction s generalizing o with
  | nil => rfl
  | cons c s ih =>
    rw [escapeWrites, ih, escapeText_cons, List.length_append, List.range_add, List.map_append, List.map_map]
    refine congrArg (_ ++ ·) (List.map_congr_left fun k _ => ?_)
    simp only [Function.comp_apply, Nat.cast_add, add_assoc]

/-- The writes that follow the reservation. -/
theorem contained_writes (size : ℕ) (f : ℕ → ℤ) (ks : List ℕ) :
    Contained size (ks.map fun k => Access.write (f k)) ↔ ∀ k ∈ ks, 0 ≤ f k ∧ f k < size := by
  induction ks with
  | nil => exact ⟨fun _ k hk => absurd hk List.not_mem_nil, fun _ => trivial⟩
  | cons k ks ih =>
    rw [List.map_cons, Contained, ih, List.forall_mem_cons, and_assoc]

/-- Every byte is written into the buffer exactly where no quotes are added and the escaped text is not longer than
the buffer. -/
theorem jsonEscapeString_contained_iff (h : Heap) (s : List UInt8) (add_quote : Bool) :
    Contained 0 (accesses h s add_quote) ↔
      add_quote = false ∧ escapedLength s ≤ max 16 (2 * s.length + 3) ∧ escapedLength s ≤ 2 ^ 31 := by
  cases add_quote with
  | true =>
    constructor
    · rintro ⟨-, hlt, -⟩
      exact absurd hlt (lt_irrefl _)
    · rintro ⟨hf, -⟩
      exact absurd hf Bool.noConfusion
  | false =>
    have hreserved : (setLength h StringOwned.Str.new (s.length * 2 + 2)).2.reserved = room s.length := by
      rw [setLength_new h (by omega), room, Nat.mul_comm 2]
    have heq : accesses h s false =
        Access.reserve (room s.length) ::
          (List.range (escapedLength s)).map fun k : ℕ => Access.write (intOf ((0 : ℕ) + k)) := by
      rw [← length_escapeText, ← escapeWrites_eq, ← hreserved]
      exact List.append_nil _
    rw [heq, Contained, contained_writes]
    constructor
    · intro hall
      have hint : escapedLength s ≤ 2 ^ 31 := by
        by_contra hnot
        have hneg := (hall (2 ^ 31) (List.mem_range.mpr (by omega))).1
        revert hneg
        decide
      refine ⟨rfl, ?_, hint⟩
      by_contra hnot
      have hlt := (hall (room s.length) (List.mem_range.mpr (by rw [room]; omega))).2
      rw [intOf_eq (by omega) (by rw [room]; omega)] at hlt
      omega
    · rintro ⟨-, hfit, hint⟩ k hk
      rw [List.mem_range] at hk
      rw [intOf_eq (by omega) (by omega), room]
      omega

/-- Eight zero bytes take thirty-two, and a string in quotes has no buffer for the first one. -/
theorem jsonEscapeString_not_contained :
    ¬ Contained 0 (accesses (filled 0 (List.replicate 8 0)) (List.replicate 8 0) false) ∧
      ¬ Contained 0 (accesses (filled 0 []) [] true) := by
  constructor
  · decide
  · decide

end Cpcf.Json.Escape
