import Cpcf.Json.Unescape
import Cpcf.Lib.Extent
import Cpcf.Lib.Run

/-!
The length of a `String` does not exceed the size of its buffer, and a zero byte stands behind its characters.

Most operations set the terminator themselves, or write within the length that `SetLength` has set. Those that do
not are the inherited `ResolveRelativePath` and `UnescapeStringValue`, which make a text shorter and leave behind it
what stood there; `RegularizeUTF8` and `UnescapeCharacters(input)` may set a length beyond the buffer, and
`RemoveCharacters` sets one for a string without a buffer.
-/

namespace Cpcf.Rt.StringOwned

open Cpcf.Lib.Memory Cpcf.Lib.Word Cpcf.Lib.Extent Cpcf.Lib.Run Cpcf.Rt.StringRef Cpcf.Json.Unescape

/-- The characters are in the buffer, if there is one. -/
structure Sized (s : Str) : Prop where
  len_le : s.len ≤ s.reserved
  null : s.p = 0 ↔ s.reserved = 0

theorem Sized.getLength_lt {s : Str} (hs : Sized s) (hp : s.p ≠ 0) : s.getLength < s.reserved := by
  have hle := hs.len_le
  have hres := mt hs.null.mpr hp
  rw [Ref.getLength]
  omega

/-- The representation of a string. -/
structure Ok (h : Heap) (s : Str) : Prop extends Sized s where
  zero : 2 ≤ s.len → h.mem (s.p + s.getLength) = 0

section

variable {h : Heap} {s : Str}

theorem sized_new : Sized Str.new := ⟨le_rfl, Iff.rfl⟩

theorem ok_new (h : Heap) : Ok h Str.new := ⟨sized_new, fun h2 => absurd h2 (by decide)⟩

/-- A string with a buffer and a zero byte behind its characters. -/
theorem Ok.of_zero (hp : s.p ≠ 0) (hlen : s.len ≤ s.reserved) (hpos : 0 < s.reserved)
    (hz : h.mem (s.p + s.getLength) = 0) : Ok h s := by
  refine ⟨⟨hlen, ?_⟩, fun _ => hz⟩
  constructor
  · intro h0
    exact absurd h0 hp
  · intro h0
    omega

/-- The terminator is not written to. -/
theorem Ok.set (hok : Ok h s) {m : Mem} (hm : 2 ≤ s.len → m (s.p + s.getLength) = h.mem (s.p + s.getLength)) :
    Ok (h.set m) s := by
  refine ⟨hok.toSized, ?_⟩
  intro h2
  exact (hm h2).trans (hok.zero h2)

theorem Ok.malloc (hok : Ok h s) (n : ℕ) : Ok (h.malloc n) s := ⟨hok.toSized, hok.zero⟩

/-! ### Sizes -/

theorem changeSize_spec (h : Heap) (hs : Sized s) {n : ℕ} (hn : 0 < n) :
    (changeSize h s n).2.len = n ∧ n ≤ (changeSize h s n).2.reserved ∧ (changeSize h s n).2.p ≠ 0 := by
  unfold changeSize
  split
  · rename_i hle
    refine ⟨rfl, hle, ?_⟩
    intro h0
    have := hs.null.mp h0
    omega
  · refine ⟨rfl, ?_, h.brk_pos.ne'⟩
    simp only
    omega

theorem setLength_zero (h : Heap) (hs : Sized s) :
    (setLength h s 0).2.p = s.p ∧ (setLength h s 0).2.reserved = s.reserved ∧ (setLength h s 0).2.len ≤ 1 := by
  rw [setLength, if_pos rfl]
  split
  · exact ⟨rfl, rfl, le_rfl⟩
  · rename_i hnot
    refine ⟨rfl, rfl, ?_⟩
    by_contra hlen
    have hle := hs.len_le
    have hnull := hs.null
    simp only at hlen
    omega

theorem setLength_len (h : Heap) (hs : Sized s) {sz : ℕ} (hsz : sz ≠ 0) : (setLength h s sz).2.len = sz + 1 := by
  rw [setLength, if_neg hsz]
  exact (changeSize_spec h hs sz.succ_pos).1

theorem setLength_getLength (h : Heap) (hs : Sized s) (sz : ℕ) : (setLength h s sz).2.getLength = sz := by
  rw [Ref.getLength]
  by_cases hsz : sz = 0
  · rw [hsz]
    have := (setLength_zero h hs).2.2
    omega
  · rw [setLength_len h hs hsz]
    rfl

/-- `SetLength` makes any string that is in its buffer a terminated one. -/
theorem setLength_ok (h : Heap) (hs : Sized s) (sz : ℕ) : Ok (setLength h s sz).1 (setLength h s sz).2 := by
  by_cases hsz : sz = 0
  · obtain ⟨hp, hres, hlen⟩ := setLength_zero h hs
    rw [hsz]
    refine ⟨⟨?_, ?_⟩, fun h2 => ?_⟩
    · have := hs.len_le
      rw [setLength, if_pos rfl]
      split
      · simp only
        omega
      · exact this
    · rw [hp, hres]
      exact hs.null
    · omega
  · have hlen := setLength_getLength h hs sz
    obtain ⟨h1, h2, h3⟩ := changeSize_spec h hs sz.succ_pos
    rw [setLength, if_neg hsz] at hlen ⊢
    refine Ok.of_zero h3 (h1.trans_le h2) ((Nat.succ_pos _).trans_le h2) ?_
    rw [hlen]
    exact poke_same _ _ _

/-- What is written after `SetLength` stays within the length. -/
theorem setLength_set_ok (h : Heap) (hs : Sized s) (sz : ℕ) {m : Mem}
    (hm : m ((setLength h s sz).2.p + sz) = (setLength h s sz).1.mem ((setLength h s sz).2.p + sz)) :
    Ok ((setLength h s sz).1.set m) (setLength h s sz).2 := by
  refine (setLength_ok h hs sz).set ?_
  intro _
  rw [setLength_getLength h hs sz]
  exact hm

/-- The reference overlaps neither the buffer of the string nor memory that is not allocated yet. -/
def Apart (h : Heap) (s : Str) (x : Ref) : Prop := x.stop ≤ h.brk ∧ (x.stop ≤ s.p ∨ s.p + s.reserved ≤ x.p)

instance (h : Heap) (s : Str) (x : Ref) : Decidable (Apart h s x) := inferInstanceAs (Decidable (_ ∧ (_ ∨ _)))

/-- A text beside the buffer is not changed by `SetLength`, and stays beside the buffer. -/
theorem setLength_apart {x : Ref} (hx : Apart h s x) {sz : ℕ} (hsz : sz ≠ 0) :
    (∀ a, x.p ≤ a → a < x.stop → (setLength h s sz).1.mem a = h.mem a) ∧
      (x.stop ≤ (setLength h s sz).2.p ∨ (setLength h s sz).2.p + sz + 1 ≤ x.p) := by
  obtain ⟨hbrk, hap⟩ := hx
  rw [setLength, if_neg hsz]
  simp only [changeSize]
  split
  · rename_i hle
    simp only [Heap.set]
    refine ⟨?_, by omega⟩
    intro a h1 h2
    exact poke_other _ _ (by omega)
  · rename_i hgt
    refine ⟨?_, Or.inl hbrk⟩
    intro a h1 h2
    simp only [Heap.set]
    rw [poke_other _ _ (by omega), memcpy_outside _ _ (by omega)]

/-! ### Assignment and `+=` -/

theorem assignChar_ok (h : Heap) (hs : Sized s) (x : UInt8) : Ok (assignChar h s x).1 (assignChar h s x).2 :=
  setLength_set_ok h hs 1 (poke_other _ _ (by omega))

theorem assign_ok (h : Heap) (hs : Sized s) (x : Ref) : Ok (assign h s x).1 (assign h s x).2 := by
  unfold assign
  split
  · exact setLength_ok h hs 0
  · obtain ⟨h1, h2, h3⟩ := changeSize_spec h hs x.getLength.succ_pos
    refine Ok.of_zero h3 (h1.trans_le h2) ((Nat.succ_pos _).trans_le h2) ?_
    have hlen : (changeSize h s (x.getLength + 1)).2.getLength = x.getLength := by
      rw [Ref.getLength, h1]
      rfl
    rw [hlen]
    exact poke_same _ _ _

theorem Expr.copyTo_snd (e : Expr) (m : Mem) (p : ℕ) : (e.copyTo m p).2 = e.getLength := by
  induction e generalizing m p with
  | ref x => rfl
  | add l r ihl ihr => simp only [Expr.copyTo, ihl, ihr, Expr.getLength]

/-- An expression is written within its length. -/
theorem Expr.copyTo_outside (e : Expr) (m : Mem) {p a : ℕ} (ha : a < p ∨ p + e.getLength ≤ a) :
    (e.copyTo m p).1 a = m a := by
  induction e generalizing m p with
  | ref x => exact memcpy_outside _ _ (by rw [length_read]; exact ha)
  | add l r ihl ihr =>
    simp only [Expr.getLength] at ha
    simp only [Expr.copyTo]
    rw [ihr _ (by rw [Expr.copyTo_snd]; omega), ihl _ (by omega)]

theorem assignExpr_ok (h : Heap) (s : Str) (e : Expr) : Ok (assignExpr h s e).1 (assignExpr h s e).2 := by
  refine Ok.of_zero h.brk_pos.ne' le_rfl (Nat.succ_pos _) ?_
  simp only [assignExpr, Ref.getLength, Heap.set, Nat.add_sub_cancel]
  rw [Expr.copyTo_outside _ _ (by omega)]
  exact poke_same _ _ _

theorem appendExpr_ok (h : Heap) (hs : Sized s) (e : Expr) : Ok (appendExpr h s e).1 (appendExpr h s e).2 := by
  simp only [appendExpr]
  split
  · exact Ok.of_zero h.brk_pos.ne' le_rfl (Nat.succ_pos _) (poke_same _ _ _)
  · rename_i hle
    have hp : s.p ≠ 0 := by
      intro h0
      have := hs.null.mp h0
      omega
    exact Ok.of_zero hp (by simp only; omega) (by simp only; omega) (poke_same _ _ _)

theorem appendChar_ok (h : Heap) (hs : Sized s) (x : UInt8) : Ok (appendChar h s x).1 (appendChar h s x).2 :=
  setLength_set_ok h hs _ (poke_other _ _ (by omega))

/-! ### `Replace` -/

theorem replaceLoop_outside (b c : UInt8) (n : ℕ) (m : Mem) {p a : ℕ} (ha : a < p ∨ p + n ≤ a) :
    replaceLoop b c n m p a = m a := by
  induction n generalizing m p with
  | zero => rfl
  | succ n ih =>
    rw [replaceLoop, ih _ (by omega)]
    split
    · exact poke_other _ _ (by omega)
    · rfl

theorem replaceChar_ok (hok : Ok h s) (a b : UInt8) : Ok (replaceChar h s a b).1 (replaceChar h s a b).2 :=
  hok.set fun _ => replaceLoop_outside _ _ _ _ (Or.inr le_rfl)

theorem replaceCharByLoop_ok (a : UInt8) (b : Ref) (n p : ℕ) (hok : Ok h s) :
    Ok (replaceCharByLoop a b n p h s).1 (replaceCharByLoop a b n p h s).2 := by
  induction n generalizing p h s with
  | zero => exact hok
  | succ n ih =>
    rw [replaceCharByLoop]
    apply ih
    split
    · exact appendExpr_ok h hok.toSized _
    · exact appendChar_ok h hok.toSized _

theorem replaceCharBy_ok (h : Heap) (s : Str) (a : UInt8) (b : Ref) :
    Ok (replaceCharBy h s a b).1 (replaceCharBy h s a b).2 :=
  replaceCharByLoop_ok _ _ _ _ (setLength_ok _ (setLength_ok h sized_new _).toSized 0)

theorem replaceTextLoop_ok (sub : List UInt8) (a_len : ℕ) (b : Ref) (n k : ℕ) (hok : Ok h s) :
    Ok (replaceTextLoop sub a_len b n k h s).1 (replaceTextLoop sub a_len b n k h s).2 := by
  induction n generalizing k h s with
  | zero => exact hok
  | succ n ih =>
    rw [replaceTextLoop]
    simp only
    split
    · exact hok
    · exact ih _ (assignExpr_ok _ _ _)

theorem replaceText_ok (hok : Ok h s) (sub : List UInt8) (a_len : ℕ) (b : Ref) :
    Ok (replaceText h s sub a_len b).1 (replaceText h s sub a_len b).2 := by
  unfold replaceText
  split
  · exact hok
  · exact replaceTextLoop_ok _ _ _ _ _ (assign_ok h sized_new _)

/-! ### Escaping -/

/-- Not more characters are written than there are, and one for an empty text. -/
theorem unescapeLoop_le (f : UInt8 → UInt8) (sign : UInt8) (n : ℕ) (m : Mem) (s p : ℕ) :
    p ≤ (unescapeLoop f sign n m s p).2 ∧ (unescapeLoop f sign n m s p).2 ≤ p + max n 1 := by
  fun_induction unescapeLoop f sign n m s p with
  | case1 m s p n hs ih => omega
  | case2 m s p n hs ih => omega
  | case3 n m s p hs hn => exact ⟨Nat.le_succ p, by simp only; omega⟩
  | case4 n m s p hs hn => exact ⟨le_rfl, Nat.le_add_right _ _⟩

/-- A text that was written from the start of the buffer on to `out`, and a zero byte behind it. -/
theorem ok_written {m : Mem} {out : ℕ} (hp : s.p ≠ 0) (hle : s.p ≤ out) (hlt : out < s.p + s.reserved) :
    Ok (h.set (poke m out 0)) { s with len := out - s.p + 1 } := by
  have hpos : 0 < s.reserved := by omega
  refine Ok.of_zero hp ?_ hpos ?_
  · simp only
    omega
  · simp only [Ref.getLength, Heap.set, Nat.add_sub_cancel]
    rw [Nat.add_sub_cancel' hle]
    exact poke_same _ _ _

theorem unescapeCharacters_ok (hok : Ok h s) (sign : UInt8) :
    Ok (unescapeCharacters h s sign).1 (unescapeCharacters h s sign).2 := by
  unfold unescapeCharacters
  split
  · exact hok
  · rename_i hne
    obtain ⟨hp, hlen⟩ := s.not_isEmpty_iff.mp hne
    obtain ⟨h1, h2⟩ := unescapeLoop_le id sign s.getLength h.mem s.p s.p
    have hlt := hok.getLength_lt hp
    have hget : s.getLength = s.len - 1 := rfl
    exact ok_written hp h1 (by omega)

/-- An empty input is read as if it had a character, which needs room for it. -/
theorem unescapeFrom_ok {f : UInt8 → UInt8} (hs : Sized s) {input : Ref} {sign : UInt8} {t : Heap × Str}
    (hroom : 0 < input.getLength ∨ 2 ≤ s.reserved ∨ h.mem input.p = sign)
    (ht : unescapeFrom f h s input sign = some t) : Ok t.1 t.2 := by
  unfold unescapeFrom at ht
  simp only at ht
  split at ht
  · cases ht
  · rename_i hnull
    obtain rfl := Option.some.inj ht
    obtain ⟨-, hp⟩ := not_or.mp hnull
    obtain ⟨h1, h2⟩ := unescapeLoop_le f sign input.getLength (setLength h s input.getLength).1.mem input.p
      (setLength h s input.getLength).2.p
    refine ok_written hp h1 ?_
    by_cases hn : input.getLength = 0
    · rw [hn] at h2 hp ⊢
      obtain ⟨-, hres, -⟩ := setLength_zero h hs
      rw [hres]
      rcases hroom with h0 | hroom | hsign
      · omega
      · omega
      · by_cases hlen : 1 < s.len
        · have hle := hs.len_le
          omega
        · -- nothing is written, and the character behind the input is the escape sign
          have hsame : setLength h s 0 = (h, s) := by
            rw [setLength, if_pos rfl, if_neg fun hc => hlen hc.2]
          rw [hsame] at hp ⊢
          have hpos := mt hs.null.mpr hp
          simp only [unescapeLoop, hsign, ne_eq, not_true_eq_false, if_false]
          omega
    · have hlen := setLength_len h hs hn
      have hle := (setLength_ok h hs input.getLength).len_le
      omega

theorem replaceCount_succ (set : CharacterSet) (sign : UInt8) (m : Mem) (p n : ℕ) :
    replaceCount set sign m p (n + 1) =
      replaceCount set sign m (p + 1) n + if isEscaped set sign (m p) then 1 else 0 := by
  rw [replaceCount, Cpcf.Lib.Memory.read, List.countP_cons, replaceCount]

theorem replaceCount_congr {set : CharacterSet} {sign : UInt8} {m m' : Mem} {p n : ℕ}
    (hm : ∀ a, p ≤ a → a < p + n → m' a = m a) : replaceCount set sign m' p n = replaceCount set sign m p n := by
  rw [replaceCount, replaceCount, read_congr hm]

/-- A text that lies beside is escaped within its length and the number of escapes. -/
theorem escapeLoop_outside (set : CharacterSet) (sign : UInt8) {n c : ℕ} {m : Mem} {s p a : ℕ}
    (hc : replaceCount set sign m s n = c) (hap : s + n ≤ p ∨ p + (n + c) ≤ s) (ha : a < p ∨ p + (n + c) ≤ a) :
    escapeLoop set sign n m s p a = m a := by
  induction n generalizing c m s p with
  | zero => rfl
  | succ n ih =>
    rw [replaceCount_succ] at hc
    rw [escapeLoop]
    split
    · rename_i hs
      rw [if_pos hs] at hc
      have hout : ∀ (x y : UInt8) b, b < p ∨ p + 2 ≤ b → poke (poke m p x) (p + 1) y b = m b := by
        intro x y b hb
        rw [poke_other _ _ (by omega), poke_other _ _ (by omega)]
      have hcount : ∀ x y : UInt8, replaceCount set sign (poke (poke m p x) (p + 1) y) (s + 1) n = c - 1 := by
        intro x y
        rw [replaceCount_congr (m := m) fun b h1 h2 => hout x y b (by omega)]
        omega
      simp only
      rw [ih (hcount _ _) (by omega) (by omega)]
      exact hout _ _ a (by omega)
    · rename_i hs
      rw [if_neg hs, Nat.add_zero] at hc
      have hcount : replaceCount set sign (poke m p (m s)) (s + 1) n = c := by
        rw [replaceCount_congr (m := m) fun b h1 h2 => poke_other _ _ (by omega)]
        exact hc
      rw [ih hcount (by omega) (by omega)]
      exact poke_other _ _ (by omega)

theorem escapeFrom_ok (hs : Sized s) {input : Ref} {set : CharacterSet} {sign : UInt8}
    (hin : replaceCount set sign h.mem input.p input.getLength = 0 ∨ Apart h s input) :
    Ok (escapeFrom h s input set sign).1 (escapeFrom h s input set sign).2 := by
  simp only [escapeFrom]
  split
  · exact assign_ok h hs input
  · rename_i hcount
    have hsz : input.getLength + replaceCount set sign h.mem input.p input.getLength ≠ 0 := by omega
    obtain ⟨hmem, hap⟩ := setLength_apart (hin.resolve_left hcount) hsz
    refine setLength_set_ok h hs _ ?_
    refine escapeLoop_outside set sign (replaceCount_congr hmem) ?_ (Or.inr le_rfl)
    have hstop : input.stop = input.p + input.getLength := rfl
    omega

/-- The characters are written from the last one down. -/
theorem escapeBackLoop_outside (set : CharacterSet) (sign : UInt8) (base n : ℕ) (m : Mem) {p a : ℕ} (ha : p ≤ a)
    (hpos : 0 < a) : escapeBackLoop set sign base n m p a = m a := by
  induction n generalizing m p with
  | zero => rfl
  | succ n ih =>
    rw [escapeBackLoop]
    split
    · rw [ih _ (by omega), poke_other _ _ (by omega), poke_other _ _ (by omega)]
    · rw [ih _ (by omega), poke_other _ _ (by omega)]

theorem escapeCharacters_ok (hok : Ok h s) (set : CharacterSet) (sign : UInt8) :
    Ok (escapeCharacters h s set sign).1 (escapeCharacters h s set sign).2 := by
  simp only [escapeCharacters]
  split
  · exact hok
  · refine setLength_set_ok h hok.toSized _ (escapeBackLoop_outside _ _ _ _ _ ?_ (by omega))
    rw [setLength_getLength h hok.toSized]

/-! ### `TrimCodeComments` and `Insert` -/

theorem trimCodeComments_ok (h : Heap) (hs : Sized s) (code : Ref) :
    Ok (trimCodeComments h s code).1 (trimCodeComments h s code).2 := by
  unfold trimCodeComments
  split
  · exact setLength_ok h hs 0
  · exact assign_ok _ hs _

theorem insertChar_ok (hs : Sized s) {pos : ℕ} {c : UInt8} {t : Heap × Str} (ht : insertChar h s pos c = some t) :
    Ok t.1 t.2 := by
  simp only [insertChar] at ht
  split at ht
  · cases ht
  · obtain rfl := Option.some.inj ht
    refine setLength_set_ok h hs _ ?_
    rw [poke_other _ _ (by omega), memcpy_outside _ _ (by rw [length_read]; omega)]

theorem insert_ok (hs : Sized s) {pos : ℕ} {sub_str : Ref} {t : Heap × Str} (ht : insert h s pos sub_str = some t) :
    Ok t.1 t.2 := by
  simp only [insert] at ht
  split at ht
  · cases ht
  · obtain rfl := Option.some.inj ht
    refine setLength_set_ok h hs _ ?_
    rw [memcpy_outside _ _ (by rw [length_read]; omega), memcpy_outside _ _ (by rw [length_read]; omega)]

/-! ### Functions of `String_Ref` with a zero byte behind them -/

theorem removeLoop_le (set : CharacterSet) (n : ℕ) (m : Mem) (p out : ℕ) :
    out ≤ (removeLoop set n m p out).2 ∧ (removeLoop set n m p out).2 ≤ out + n := by
  induction n generalizing m p out with
  | zero => exact ⟨le_rfl, le_rfl⟩
  | succ n ih =>
    rw [removeLoop]
    split
    · obtain ⟨h1, h2⟩ := ih m (p + 1) out
      exact ⟨h1, by omega⟩
    · obtain ⟨h1, h2⟩ := ih (poke m out (m p)) (p + 1) (out + 1)
      exact ⟨by omega, by omega⟩

theorem removeCharacters_ok (hs : Sized s) (hres : s.reserved ≠ 0) (set : CharacterSet) :
    Ok (removeCharacters h s set).1 (removeCharacters h s set).2 := by
  have hp := mt hs.null.mp hres
  have hlt := hs.getLength_lt hp
  obtain ⟨h1, h2⟩ := removeLoop_le set s.getLength h.mem s.p s.p
  simp only [removeCharacters]
  split
  · rename_i hempty
    simp only [Ref.isEmpty, hp, decide_false, Bool.false_or, decide_eq_true_eq] at hempty
    refine ⟨⟨by simp only; omega, hs.null⟩, fun h3 => ?_⟩
    simp only at h3
    omega
  · refine Ok.of_zero hp (by simp only; omega) (by simp only; omega) ?_
    simp only [Heap.set, Ref.getLength]
    rw [Nat.add_sub_assoc (by omega)]
    exact poke_same _ _ _

theorem decodedURLLoop_le (p n k : ℕ) (m : Mem) (i out : ℕ) :
    out ≤ (decodedURLLoop p n k m i out).2 ∧ (decodedURLLoop p n k m i out).2 ≤ out + (n - i) := by
  induction k generalizing m i out with
  | zero => exact ⟨le_rfl, Nat.le_add_right _ _⟩
  | succ k ih =>
    rw [decodedURLLoop]
    split
    · split
      · obtain ⟨h1, h2⟩ := ih (poke m out (m (p + i))) (i + 1) (out + 1)
        exact ⟨by omega, by omega⟩
      · have hrest := fun x => ih (poke m out x) (i + 3) (out + 1)
        exact ⟨(Nat.le_succ out).trans (hrest _).1, (hrest _).2.trans (by omega)⟩
    · exact ⟨le_rfl, Nat.le_add_right _ _⟩

theorem decodedURL_ok (hs : Sized s) {t : Heap × Str} (ht : decodedURL h s = some t) : Ok t.1 t.2 := by
  simp only [decodedURL] at ht
  split at ht
  · cases ht
  · rename_i hp
    obtain rfl := Option.some.inj ht
    obtain ⟨h1, h2⟩ := decodedURLLoop_le s.p s.getLength s.getLength h.mem 0 s.p
    have hlt := hs.getLength_lt hp
    exact ok_written hp h1 (by omega)

/-! ### `RegularizeUTF8` -/

/-- How many bytes a sequence has that begins with `c`, as `RegularizeUTF8` reads it. -/
def width (c : UInt8) : ℕ :=
  if c &&& 0x80 = 0 then 1 else if c &&& 0xe0 = 0xc0 then 2 else if c &&& 0xf0 = 0xe0 then 3 else 1

/-- How many bytes are missing of the last sequence of a text of `n` bytes, from the byte `i` on. -/
def missing (p n : ℕ) (m : Mem) : ℕ → ℕ → ℕ
  | 0, i => i - n
  | k + 1, i => if i < n then missing p n m k (i + width (m (p + i))) else i - n

theorem missing_congr {p n : ℕ} {m m' : Mem} (k i : ℕ) (hm : ∀ a, p + i ≤ a → m' a = m a) :
    missing p n m' k i = missing p n m k i := by
  induction k generalizing i with
  | zero => rfl
  | succ k ih =>
    rw [missing, missing, hm _ le_rfl]
    split
    · exact ih _ fun a ha => hm a (by omega)
    · rfl

/-- What is written does not go beyond what is read, and the text is read up to the end of its last sequence. -/
theorem regularizeLoop_le (p n k : ℕ) (m : Mem) (i out : ℕ) (hout : out ≤ p + i) :
    out ≤ (regularizeLoop p n k m i out).2 ∧ (regularizeLoop p n k m i out).2 + i ≤ out + n + missing p n m k i := by
  induction k generalizing m i out with
  | zero =>
    simp only [regularizeLoop, missing]
    omega
  | succ k ih =>
    -- a sequence of `w` bytes is read and `o` bytes are written for it
    have hstep : ∀ (m' : Mem) (w o : ℕ), width (m (p + i)) = w → o ≤ w → (∀ a, p + i + w ≤ a → m' a = m a) →
        out ≤ (regularizeLoop p n k m' (i + w) (out + o)).2 ∧
          (regularizeLoop p n k m' (i + w) (out + o)).2 + i ≤ out + n + missing p n m k (i + width (m (p + i))) := by
      intro m' w o hw ho hm
      obtain ⟨h1, h2⟩ := ih m' (i + w) (out + o) (by omega)
      rw [missing_congr k (i + w) fun a ha => hm a (by omega)] at h2
      rw [hw]
      exact ⟨by omega, by omega⟩
    rw [regularizeLoop, missing]
    split
    · simp only
      split
      · rename_i h1
        refine hstep _ 1 1 (by rw [width, if_pos h1]) le_rfl ?_
        intro a ha
        exact poke_other _ _ (by omega)
      · rename_i h1
        split
        · rename_i h2
          refine hstep _ 2 2 (by rw [width, if_neg h1, if_pos h2]) le_rfl ?_
          intro a ha
          rw [poke_other _ _ (by omega), poke_other _ _ (by omega)]
        · rename_i h2
          split
          · rename_i h3
            refine hstep _ 3 3 (by rw [width, if_neg h1, if_neg h2, if_pos h3]) le_rfl ?_
            intro a ha
            rw [poke_other _ _ (by omega), poke_other _ _ (by omega), poke_other _ _ (by omega)]
          · rename_i h3
            exact hstep m 1 0 (by rw [width, if_neg h1, if_neg h2, if_neg h3]) zero_le_one fun _ _ => rfl
    · simp only
      omega

theorem regularizeUTF8_ok (hroom : s.len + missing s.p s.getLength h.mem s.getLength 0 ≤ s.reserved)
    {t : Heap × Str} (ht : regularizeUTF8 h s = some t) : Ok t.1 t.2 := by
  simp only [regularizeUTF8] at ht
  split at ht
  · cases ht
  · rename_i hnull
    obtain ⟨hp, hlen⟩ := not_or.mp hnull
    obtain rfl := Option.some.inj ht
    obtain ⟨h1, h2⟩ := regularizeLoop_le s.p (s.len - 1) (s.len - 1) h.mem 0 s.p (Nat.le_add_right _ _)
    rw [Ref.getLength] at hroom
    exact ok_written hp h1 (by omega)

/-! ### `ResolveRelativePath` -/

/-- A segment that `ResolveRelativePath` takes away. -/
def Dotted (m : Mem) (d : Ref) : Prop := (d.getLength = 1 ∨ d.getLength = 2) ∧ m d.p = dot

instance (m : Mem) (d : Ref) : Decidable (Dotted m d) := inferInstanceAs (Decidable (_ ∧ _))

/-- The fields of the path. -/
def fields (m : Mem) (r : Ref) : List Ref := split m r true Ch.dquote Ch.squote 256 (CharacterSet.single Ch.slash)

/-- The fields stand one behind the other with one separator after each, from the start of the text to its end. -/
def Tiled (r : Ref) (ds : List Ref) : Prop := Chain Ref.p (fun d => d.p + (d.getLength + 1)) r.p ds (r.p + r.len)

instance (r : Ref) (ds : List Ref) : Decidable (Tiled r ds) := decidableChain _ _ _ _ _

/-- The path is resolved already, or nothing is left of it. -/
def Resolved (m : Mem) (r : Ref) : Prop :=
  (∀ d ∈ fields m r, ¬ Dotted m d) ∧ Tiled r (fields m r) ∨
    (segments m r).length ≤ 1 ∧ ∀ d ∈ segments m r, d.getLength = 0

instance (m : Mem) (r : Ref) : Decidable (Resolved m r) := inferInstanceAs (Decidable (_ ∧ _ ∨ _ ∧ _))

theorem resolveLoop_eq {m : Mem} {kept ds : List Ref} (hds : ∀ d ∈ ds, ¬ Dotted m d) :
    resolveLoop m kept ds = kept ++ ds := by
  induction ds generalizing kept with
  | nil => exact (List.append_nil _).symm
  | cons d ds ih =>
    have hd := hds d (by simp)
    rw [Dotted] at hd
    rw [resolveLoop, if_neg (by tauto), if_neg (by tauto), ih fun e he => hds e (by simp [he])]
    simp

/-- Segments that tile a text are all in their place. -/
theorem skipLoop_eq {p e : ℕ} {ds : List Ref} (hc : Chain Ref.p (fun d => d.p + (d.getLength + 1)) p ds e) :
    skipLoop p ds = (e, []) := by
  induction ds generalizing p with
  | nil =>
    obtain rfl : p = e := hc
    rfl
  | cons d ds ih =>
    obtain ⟨hp, hc⟩ := hc
    rw [skipLoop, if_pos hp.symm, ← hp]
    exact ih hc

/-- An empty segment counts as one. -/
theorem resolveRelativePath_len {m : Mem} {r : Ref} (hlen : (segments m r).length ≤ 1)
    (hzero : ∀ d ∈ segments m r, d.getLength = 0) : (resolveRelativePath m r).2.len = (segments m r).length := by
  simp only [resolveRelativePath]
  generalize segments m r = ds at hlen hzero
  match ds, hlen with
  | [], _ => simp [skipLoop, placeLoop]
  | [d], _ =>
    have hd : d.getLength = 0 := hzero d (by simp)
    by_cases hp : r.p = d.p
    · simp [skipLoop, placeLoop, hp, hd]
    · simp [skipLoop, placeLoop, hp, hd]

theorem resolvePath_ok (hok : Ok h s) (hr : Resolved h.mem s.toRef) : Ok (resolvePath h s).1 (resolvePath h s).2 := by
  rcases hr with ⟨hdot, htile⟩ | ⟨hlen, hzero⟩
  · have hseg : segments h.mem s.toRef = fields h.mem s.toRef := resolveLoop_eq hdot
    simp only [resolvePath, resolveRelativePath, hseg, skipLoop_eq htile, placeLoop, Nat.add_sub_cancel_left]
    exact hok
  · -- what is left has no characters, so its length is 0 or 1
    have hnew := resolveRelativePath_len hlen hzero
    have hle := hok.len_le
    have hres : (segments h.mem s.toRef).length ≤ s.reserved := by
      by_cases hempty : s.isEmpty = true
      · rw [segments, split, if_pos hempty]
        exact Nat.zero_le _
      · have hchars := (s.not_isEmpty_iff.mp hempty).2
        omega
    refine ⟨⟨?_, hok.null⟩, fun h2 => ?_⟩
    · simp only [resolvePath, hnew]
      exact hres
    · simp only [resolvePath, hnew] at h2
      omega

/-! ### `UnescapeStringValue` -/

/-- The text has no escape, or ends in one for three bytes. -/
def Unshortened (m : Mem) (x : Ref) : Prop :=
  (∀ i < x.getLength - 1, m (x.p + i) ≠ Ch.backslash) ∨ endsWide m x.getLength x.p x.getLength = true

instance (m : Mem) (x : Ref) : Decidable (Unshortened m x) := inferInstanceAs (Decidable (_ ∨ _))

theorem unescapeStringValue_ok (hs : Sized s) {input : Ref}
    (hin : input.isEmpty = true ∨ Apart h s input ∧ Unshortened h.mem input) :
    Ok (unescapeStringValue h s input).1 (unescapeStringValue h s input).2 := by
  unfold unescapeStringValue
  split
  · exact setLength_ok h hs 0
  · rename_i hempty
    obtain ⟨hap, hun⟩ := hin.resolve_left hempty
    have hchars := (input.not_isEmpty_iff.mp hempty).2
    have hstop : input.stop = input.p + input.getLength := rfl
    have hn : input.getLength ≠ 0 := by
      rw [Ref.getLength]
      omega
    obtain ⟨hmem, hbeside⟩ := setLength_apart hap hn
    have hok := setLength_ok h hs input.getLength
    have hlen := setLength_len h hs hn
    have hle := hok.len_le
    have hz := hok.zero (by omega)
    rw [setLength_getLength h hs] at hz
    have hp := mt hok.null.mp (by omega)
    simp only
    generalize setLength h s input.getLength = t at *
    obtain ⟨h1, h2, h3⟩ := valueLoop_spec input.getLength t.1.mem input.p input.getLength t.2.p
    have hside : input.p + input.getLength ≤ t.2.p ∨ t.2.p + input.getLength ≤ input.p := by omega
    refine Ok.of_zero hp (by simp only; omega) (by simp only; omega) ?_
    generalize hu : valueLoop input.getLength t.1.mem input.p input.getLength t.2.p = u at h1 h2 h3 ⊢
    show u.1 (t.2.p + (u.2 - t.2.p + 1 - 1)) = 0
    rw [Nat.add_sub_cancel, Nat.add_sub_cancel' h1]
    rcases hun with hplain | hwide
    · have hend : u.2 = t.2.p + input.getLength := by
        rw [← hu]
        refine valueLoop_plain le_rfl hside ?_
        intro i hi
        rw [hmem _ (by omega) (by omega)]
        exact hplain i hi
      rw [hend, h3 _ (Or.inr le_rfl)]
      exact hz
    · rw [← hu]
      exact valueLoop_wide hside hmem hwide

end

/-! ### Runs -/

/-- A string and the memory. -/
structure State where
  heap : Heap
  str : Str

/-- The operations, and what the rest of the program does with its own memory. -/
inductive Action
  | setLength (sz : ℕ)
  | empty
  | shorten (n : ℕ)
  | assignChar (x : UInt8)
  | assign (x : Ref)
  | assignExpr (e : Expr)
  | appendChar (x : UInt8)
  | appendExpr (e : Expr)
  | replaceChar (a b : UInt8)
  | replaceCharBy (a : UInt8) (b : Ref)
  | replaceText (sub : List UInt8) (a_len : ℕ) (b : Ref)
  | unescapeCharacters (sign : UInt8)
  | unescapeFrom (input : Ref) (sign : UInt8)
  | unescapeMapped (input : Ref) (escape : CharacterSet) (sign : UInt8)
  | escapeFrom (input : Ref) (set : CharacterSet) (sign : UInt8)
  | escapeCharacters (set : CharacterSet) (sign : UInt8)
  | trimCodeComments (code : Ref)
  | insertChar (pos : ℕ) (c : UInt8)
  | insert (pos : ℕ) (sub_str : Ref)
  | removeCharacters (set : CharacterSet)
  | regularizeUTF8
  | decodedURL
  | resolveRelativePath
  | unescapeStringValue (input : Ref)
  | poke (a : ℕ) (x : UInt8)
  | malloc (n : ℕ)

/-- What an operation does. -/
def apply (h : Heap) (s : Str) : Action → Option (Heap × Str)
  | .setLength sz => some (setLength h s sz)
  | .empty => some (empty h s)
  | .shorten n => some (shorten h s n)
  | .assignChar x => some (assignChar h s x)
  | .assign x => some (assign h s x)
  | .assignExpr e => some (assignExpr h s e)
  | .appendChar x => some (appendChar h s x)
  | .appendExpr e => some (appendExpr h s e)
  | .replaceChar a b => some (replaceChar h s a b)
  | .replaceCharBy a b => some (replaceCharBy h s a b)
  | .replaceText sub a_len b => some (replaceText h s sub a_len b)
  | .unescapeCharacters sign => some (unescapeCharacters h s sign)
  | .unescapeFrom input sign => unescapeFrom id h s input sign
  | .unescapeMapped input escape sign => unescapeFrom escape.mapped h s input sign
  | .escapeFrom input set sign => some (escapeFrom h s input set sign)
  | .escapeCharacters set sign => some (escapeCharacters h s set sign)
  | .trimCodeComments code => some (trimCodeComments h s code)
  | .insertChar pos c => insertChar h s pos c
  | .insert pos sub_str => insert h s pos sub_str
  | .removeCharacters set => some (removeCharacters h s set)
  | .regularizeUTF8 => regularizeUTF8 h s
  | .decodedURL => decodedURL h s
  | .resolveRelativePath => some (resolvePath h s)
  | .unescapeStringValue input => some (unescapeStringValue h s input)
  | .poke a x => if s.p ≤ a ∧ a < s.p + s.reserved then none else some (h.set (Lib.Memory.poke h.mem a x), s)
  | .malloc n => some (h.malloc n, s)

/-- A step of a run. -/
def act (σ : State) (a : Action) : Option State := (apply σ.heap σ.str a).map fun t => ⟨t.1, t.2⟩

/-- The condition on a step. -/
def Meets (σ : State) : Action → Prop
  | .unescapeFrom input sign | .unescapeMapped input _ sign =>
    0 < input.getLength ∨ 2 ≤ σ.str.reserved ∨ σ.heap.mem input.p = sign
  | .escapeFrom input set sign =>
    replaceCount set sign σ.heap.mem input.p input.getLength = 0 ∨ Apart σ.heap σ.str input
  | .removeCharacters _ => σ.str.reserved ≠ 0
  | .regularizeUTF8 =>
    σ.str.len + missing σ.str.p σ.str.getLength σ.heap.mem σ.str.getLength 0 ≤ σ.str.reserved
  | .resolveRelativePath => Resolved σ.heap.mem σ.str.toRef
  | .unescapeStringValue input => input.isEmpty = true ∨ Apart σ.heap σ.str input ∧ Unshortened σ.heap.mem input
  | _ => True

instance decidableMeets (σ : State) : ∀ a, Decidable (Meets σ a)
  | .unescapeFrom _ _ | .unescapeMapped _ _ _ => inferInstanceAs (Decidable (_ ∨ _ ∨ _))
  | .escapeFrom _ _ _ => inferInstanceAs (Decidable (_ ∨ _))
  | .removeCharacters _ => inferInstanceAs (Decidable (σ.str.reserved ≠ 0))
  | .regularizeUTF8 => inferInstanceAs (Decidable (_ ≤ _))
  | .resolveRelativePath => inferInstanceAs (Decidable (Resolved _ _))
  | .unescapeStringValue _ => inferInstanceAs (Decidable (_ ∨ _ ∧ _))
  | .setLength _ | .empty | .shorten _ | .assignChar _ | .assign _ | .assignExpr _ | .appendChar _ | .appendExpr _
  | .replaceChar _ _ | .replaceCharBy _ _ | .replaceText _ _ _ | .unescapeCharacters _ | .escapeCharacters _ _
  | .trimCodeComments _ | .insertChar _ _ | .insert _ _ | .decodedURL | .poke _ _ | .malloc _ => isTrue trivial

theorem apply_ok {h : Heap} {s : Str} (hok : Ok h s) {a : Action} (hm : Meets ⟨h, s⟩ a) {t : Heap × Str}
    (ht : apply h s a = some t) : Ok t.1 t.2 := by
  have hs := hok.toSized
  cases a with
  | setLength sz => exact Option.some.inj ht ▸ setLength_ok h hs sz
  | empty => exact Option.some.inj ht ▸ setLength_ok h hs 0
  | shorten n => exact Option.some.inj ht ▸ setLength_ok h hs _
  | assignChar x => exact Option.some.inj ht ▸ assignChar_ok h hs x
  | assign x => exact Option.some.inj ht ▸ assign_ok h hs x
  | assignExpr e => exact Option.some.inj ht ▸ assignExpr_ok h s e
  | appendChar x => exact Option.some.inj ht ▸ appendChar_ok h hs x
  | appendExpr e => exact Option.some.inj ht ▸ appendExpr_ok h hs e
  | replaceChar a b => exact Option.some.inj ht ▸ replaceChar_ok hok a b
  | replaceCharBy a b => exact Option.some.inj ht ▸ replaceCharBy_ok h s a b
  | replaceText sub a_len b => exact Option.some.inj ht ▸ replaceText_ok hok sub a_len b
  | unescapeCharacters sign => exact Option.some.inj ht ▸ unescapeCharacters_ok hok sign
  | unescapeFrom input sign => exact unescapeFrom_ok hs hm ht
  | unescapeMapped input escape sign => exact unescapeFrom_ok hs hm ht
  | escapeFrom input set sign => exact Option.some.inj ht ▸ escapeFrom_ok hs hm
  | escapeCharacters set sign => exact Option.some.inj ht ▸ escapeCharacters_ok hok set sign
  | trimCodeComments code => exact Option.some.inj ht ▸ trimCodeComments_ok h hs code
  | insertChar pos c => exact insertChar_ok hs ht
  | insert pos sub_str => exact insert_ok hs ht
  | removeCharacters set => exact Option.some.inj ht ▸ removeCharacters_ok hs hm set
  | regularizeUTF8 => exact regularizeUTF8_ok hm ht
  | decodedURL => exact decodedURL_ok hs ht
  | resolveRelativePath => exact Option.some.inj ht ▸ resolvePath_ok hok hm
  | unescapeStringValue input => exact Option.some.inj ht ▸ unescapeStringValue_ok hs hm
  | poke a x =>
    simp only [apply] at ht
    split at ht
    · cases ht
    · rename_i hout
      obtain rfl := Option.some.inj ht
      refine hok.set fun h2 => poke_other _ _ ?_
      have hle := hs.len_le
      have hget : s.getLength = s.len - 1 := rfl
      omega
  | malloc n => exact Option.some.inj ht ▸ hok.malloc n

theorem reachable_ok {heap : Heap} {σ : State} (h : Reachable act Meets ⟨heap, Str.new⟩ σ) : Ok σ.heap σ.str := by
  refine h.invariant (I := fun σ => Ok σ.heap σ.str) (ok_new heap) ?_
  intro σ a τ hok hm hst
  obtain ⟨t, ht, rfl⟩ := Option.map_eq_some_iff.mp hst
  exact apply_ok hok hm ht

/-- The text of a string, its length and the size of its buffer, and the byte behind the text. -/
def State.view (σ : State) : List UInt8 × ℕ × ℕ × UInt8 :=
  (read σ.heap.mem σ.str.p σ.str.getLength, σ.str.len, σ.str.reserved, σ.heap.mem (σ.str.p + σ.str.getLength))

/-- A memory that holds a text at 1, and `0xcd` where nothing was written yet. -/
def memoryWith (xs : List UInt8) : Heap :=
  ⟨fun a => if a = 0 then 0 else xs.getD (a - 1) 0xcd, 100, by decide⟩

/-- `a/b`, `x%41` and `\u4e2d`. -/
def someTexts : List UInt8 := [0x61, 0x2f, 0x62, 0x78, 0x25, 0x34, 0x31, 0x5c, 0x75, 0x34, 0x65, 0x32, 0x64]

def manyOps : List Action :=
  [.assign ⟨1, 4⟩, .resolveRelativePath, .appendExpr (.add (.ref ⟨4, 5⟩) (.ref ⟨1, 2⟩)), .decodedURL, .insert 1 ⟨4, 2⟩,
    .escapeCharacters (CharacterSet.single 0x78) 0x5c, .removeCharacters (CharacterSet.single 0x61), .shorten 1,
    .unescapeStringValue ⟨8, 7⟩, .regularizeUTF8]

/-- `a/../b`. -/
def dottedPath : List UInt8 := [0x61, 0x2f, 0x2e, 0x2e, 0x2f, 0x62]

/-- `a\nb`, with an escape. -/
def escapedText : List UInt8 := [0x61, 0x5c, 0x6e, 0x62]

end Cpcf.Rt.StringOwned
