import Cpcf.Lib.Written
import Cpcf.Rt.Number
import Cpcf.Rt.StringRef

/-!
Integers as texts in memory, for each type of them: `string_ops::itoa` writes one and `String_Base::ToNumber` reads it.

A value is a word of the machine, so that what overflows wraps around. `itoa` negates a negative value and goes on with
an unsigned one; it writes the digits from the last one on, the sign behind them and a zero byte, and turns them round
in place. `ToNumber` takes its sign from the character before the first digit.
-/

namespace Cpcf.Rt.NumberText

open Cpcf.Lib.Memory Cpcf.Lib.Word Cpcf.Rt.StringRef

/-- `INT`, `UINT`, `LONGLONG` and `ULONGLONG`. -/
inductive IntType
  | int
  | uint
  | longlong
  | ulonglong
  deriving DecidableEq

namespace IntType

/-- The size of a value. -/
def bits : IntType → ℕ
  | int | uint => 32
  | longlong | ulonglong => 64

/-- `rt::NumericTraits<T>::IsSigned`. -/
def isSigned : IntType → Bool
  | int | longlong => true
  | uint | ulonglong => false

/-- The number that a value stands for. -/
def number (t : IntType) (value : BitVec t.bits) : ℤ := if t.isSigned then value.toInt else value.toNat

/-- `uvalue`: `(value < 0) ? -value : value` as an unsigned number, or the value itself. -/
def uvalue (t : IntType) (value : BitVec t.bits) : ℕ := if t.number value < 0 then (-value).toNat else value.toNat

end IntType

/-! ### Writing -/

/-- `do *wstr++ = (char)(48 + (uvalue % 10)); while(uvalue /= 10);`. The first argument bounds the number of turns. -/
def digitLoop : ℕ → Mem → ℕ → ℕ → Mem × ℕ
  | 0, m, wstr, _ => (m, wstr)
  | n + 1, m, wstr, uvalue =>
    let m := poke m wstr (UInt8.ofNat (48 + uvalue % 10))
    if uvalue / 10 = 0 then (m, wstr + 1) else digitLoop n m (wstr + 1) (uvalue / 10)

/-- `strreverse(begin, end)`. The first argument bounds the number of turns. -/
def strreverse : ℕ → Mem → ℕ → ℕ → Mem
  | 0, m, _, _ => m
  | n + 1, m, b, e => if b < e then strreverse n (poke (poke m e (m b)) b (m e)) (b + 1) (e - 1) else m

/-- `itoa(value, str)`: the memory and the number of characters. -/
def itoa (t : IntType) (m : Mem) (value : BitVec t.bits) (str : ℕ) : Mem × ℤ :=
  let w := digitLoop (t.uvalue value + 1) m str (t.uvalue value)
  let w := if t.number value < 0 then (poke w.1 w.2 Ch.minus, w.2 + 1) else w
  let m := poke w.1 w.2 0
  (strreverse (w.2 - str) m str (w.2 - 1), intOf (w.2 - str))

/-! ### Reading -/

/-- `while((*d==',' || (val = _to_num(*d))<10) && d<end) if(*d++!=',') x = (T)(x*10 + val);` with `n` characters left:
the value and the pointer at the end. -/
def numberLoop (m : Mem) {w : ℕ} : ℕ → ℕ → BitVec w → BitVec w × ℕ
  | 0, d, x => (x, d)
  | n + 1, d, x =>
    if m d = Ch.comma then numberLoop m n (d + 1) x
    else if toNum (m d) < 10 then numberLoop m n (d + 1) (x * 10 + BitVec.ofInt w (toNum (m d)))
    else (x, d)

/-- `ToNumber(x)`: the value and the offset returned, `-1` where no digit is found. -/
def toNumber (t : IntType) (m : Mem) (r : Ref) : BitVec t.bits × ℤ :=
  if r.p = r.stop then (0, -1)
  else
    let d := scanWhile m (fun c => 10 ≤ toNum c) r.p (r.stop - r.p)
    if d = r.stop then (0, -1)
    else
      let neg : Bool := t.isSigned && decide (1 ≤ d - r.p) && m (d - 1) = Ch.minus
      let v := numberLoop m (r.stop - d) d (0 : BitVec t.bits)
      (if t.isSigned && neg then -v.1 else v.1, intOf (v.2 - r.p))

/-! ### The decimal representation -/

/-- The decimal representation of a number. -/
def decimal (z : ℤ) : List UInt8 := (toString z).toList.map fun c => UInt8.ofNat c.toNat

theorem digitChar_byte : ∀ d : Fin 10, UInt8.ofNat (Nat.digitChar d.val).toNat = UInt8.ofNat (48 + d.val) := by
  decide

theorem itoaLoop_reverse {n v : ℕ} (hv : v < n) :
    (itoaLoop n v).reverse = (Nat.toDigits 10 v).map fun c => UInt8.ofNat c.toNat := by
  induction n generalizing v with
  | zero => omega
  | succ n ih =>
    have hdigit := digitChar_byte ⟨v % 10, Nat.mod_lt _ (by omega)⟩
    rw [itoaLoop, List.reverse_cons]
    by_cases hlast : v / 10 = 0
    · have hlt : v < 10 := by omega
      rw [if_pos hlast, Nat.toDigits_of_lt_base hlt, List.map_singleton, ← Nat.mod_eq_of_lt hlt, hdigit,
        Nat.mod_mod]
      rfl
    · rw [if_neg hlast, ih (by omega), Nat.toDigits_of_base_le (by omega) (show 10 ≤ v by omega), List.map_append,
        List.map_singleton, hdigit]

/-- The digits, with a sign before them. -/
theorem decimal_eq (z : ℤ) : decimal z = (if z < 0 then [Ch.minus] else []) ++ itoaUnsigned z.natAbs := by
  rw [decimal, itoaUnsigned, itoaLoop_reverse (Nat.lt_succ_self _), Int.toString_eq_repr, Int.repr_eq_if]
  by_cases hz : z < 0
  · have habs : (-z).toNat = z.natAbs := by omega
    rw [if_neg (by omega), if_pos hz, String.toList_append, List.map_append, Nat.toList_repr, habs]
    rfl
  · have habs : z.toNat = z.natAbs := by omega
    rw [if_pos (by omega), if_neg hz, Nat.toList_repr, habs, List.nil_append]

theorem length_decimal_le {z : ℤ} (hz : z.natAbs < 10 ^ 20) : (decimal z).length ≤ 21 := by
  have hlen : (itoaUnsigned z.natAbs).length ≤ 20 := by
    rw [itoaUnsigned, itoaLoop_reverse (Nat.lt_succ_self _), List.length_map]
    exact (Nat.length_toDigits_le_iff (by omega) (by omega)).mpr hz
  rw [decimal_eq]
  split
  · rw [List.length_append, List.length_singleton]
    omega
  · rw [List.nil_append]
    omega

/-! ### Values -/

/-- The smallest value is its own negation, which is right as an unsigned number. -/
theorem natAbs_toInt {w : ℕ} (x : BitVec w) :
    (if x.toInt < 0 then (-x).toNat else x.toNat) = x.toInt.natAbs ∧ x.toInt.natAbs ≤ 2 ^ w := by
  have hlt := x.isLt
  rw [BitVec.toInt_eq_toNat_cond, BitVec.toNat_neg]
  by_cases hx : 2 * x.toNat < 2 ^ w
  · rw [if_pos hx, if_neg (by omega)]
    omega
  · have hpow : ((2 ^ w : ℕ) : ℤ) = 2 ^ w := by norm_cast
    rw [if_neg hx, if_pos (by omega), Nat.mod_eq_of_lt (by omega)]
    omega

section

variable (t : IntType) (value : BitVec t.bits)

theorem uvalue_eq : t.uvalue value = (t.number value).natAbs := by
  rw [IntType.uvalue, IntType.number]
  split
  · exact (natAbs_toInt value).1
  · rw [if_neg (by omega)]
    rfl

theorem number_lt : (t.number value).natAbs < 10 ^ 20 := by
  have hpow : 2 ^ t.bits ≤ 2 ^ 64 := Nat.pow_le_pow_right (by omega) (by cases t <;> decide)
  have hle : (t.number value).natAbs ≤ 2 ^ t.bits := by
    rw [IntType.number]
    split
    · exact (natAbs_toInt value).2
    · exact value.isLt.le
  omega

theorem ofInt_number : BitVec.ofInt t.bits (t.number value) = value := by
  rw [IntType.number]
  split
  · exact BitVec.ofInt_toInt
  · rw [BitVec.ofInt_natCast, BitVec.ofNat_toNat, BitVec.setWidth_eq]

end

/-! ### The text in memory -/

theorem digitLoop_written (n : ℕ) (m : Mem) (wstr v : ℕ) : Written m wstr (itoaLoop n v) (digitLoop n m wstr v) := by
  induction n generalizing m wstr v with
  | zero => exact Written.nil m wstr
  | succ n ih =>
    rw [itoaLoop, digitLoop]
    by_cases hlast : v / 10 = 0
    · rw [if_pos hlast, if_pos hlast]
      exact (Written.nil _ _).cons
    · rw [if_neg hlast, if_neg hlast]
      exact (ih _ _ _).cons

/-- A text is turned round, and nothing else is changed. -/
theorem strreverse_holds {n : ℕ} {m : Mem} {b : ℕ} {xs : List UInt8} (hxs : Holds m b xs) (hn : xs.length ≤ n) :
    Holds (strreverse n m b (b + xs.length - 1)) b xs.reverse ∧
      ∀ a, a < b ∨ b + xs.length ≤ a → strreverse n m b (b + xs.length - 1) a = m a := by
  induction n generalizing m b xs with
  | zero =>
    obtain rfl := List.eq_nil_of_length_eq_zero (Nat.le_zero.mp hn)
    exact ⟨holds_nil, fun _ _ => rfl⟩
  | succ n ih =>
    rw [strreverse]
    cases xs with
    | nil =>
      rw [if_neg (by simp)]
      exact ⟨holds_nil, fun _ _ => rfl⟩
    | cons x xs =>
      cases xs using List.reverseRecOn with
      | nil =>
        rw [if_neg (by simp)]
        exact ⟨hxs, fun _ _ => rfl⟩
      | append_singleton ys y =>
        obtain ⟨hx, hrest⟩ := hxs
        obtain ⟨hys, hy⟩ := holds_append.mp hrest
        have hend : b + (x :: (ys ++ [y])).length - 1 = b + 1 + ys.length := by
          simp only [List.length_cons, List.length_append, List.length_nil]
          omega
        rw [List.length_cons, List.length_append, List.length_singleton] at hn
        rw [hend, if_pos (by omega), hx, hy.1]
        have hkept : Holds (poke (poke m (b + 1 + ys.length) x) b y) (b + 1) ys :=
          (hys.poke (by omega)).poke (by omega)
        obtain ⟨hmid, hout⟩ := ih hkept (by omega)
        refine ⟨?_, fun a ha => ?_⟩
        · rw [List.reverse_cons, List.reverse_append, List.reverse_singleton, List.singleton_append, List.cons_append]
          refine ⟨?_, holds_append.mpr ⟨hmid, ?_, holds_nil⟩⟩
          · rw [hout b (by omega), poke_same]
          · rw [List.length_reverse, hout _ (by omega), poke_other _ _ (by omega), poke_same]
        · simp only [List.length_cons, List.length_append, List.length_nil] at ha
          rw [hout a (by omega), poke_other _ _ (by omega), poke_other _ _ (by omega)]

/-- What `itoa` writes, and the zero byte behind it. -/
theorem itoa_text (t : IntType) (m : Mem) (value : BitVec t.bits) (str : ℕ) :
    Holds (itoa t m value str).1 str (decimal (t.number value) ++ [0]) ∧
      (itoa t m value str).2 = (decimal (t.number value)).length := by
  have hlen := length_decimal_le (number_lt t value)
  have hdigits := digitLoop_written (t.uvalue value + 1) m str (t.uvalue value)
  rw [itoa]
  generalize digitLoop (t.uvalue value + 1) m str (t.uvalue value) = u at hdigits
  obtain ⟨w, hw, hdecimal⟩ : ∃ w, Written m str w
      (if t.number value < 0 then (poke u.1 u.2 Ch.minus, u.2 + 1) else u) ∧
        decimal (t.number value) = w.reverse := by
    rw [decimal_eq, itoaUnsigned, ← uvalue_eq]
    split
    · exact ⟨_, hdigits.snoc Ch.minus, by simp⟩
    · exact ⟨_, hdigits, by simp⟩
  dsimp only
  generalize (if t.number value < 0 then (poke u.1 u.2 Ch.minus, u.2 + 1) else u) = v at hw
  obtain ⟨hstop, hholds, -⟩ := hw
  rw [hdecimal, List.length_reverse] at hlen
  rw [hdecimal, List.length_reverse, hstop, Nat.add_sub_cancel_left]
  have hbehind : Holds (poke v.1 (str + w.length) 0) str w := hholds.poke (by omega)
  obtain ⟨hrev, hout⟩ := strreverse_holds hbehind le_rfl
  refine ⟨holds_append.mpr ⟨hrev, ?_, holds_nil⟩, ?_⟩
  · rw [List.length_reverse, hout _ (by omega), poke_same]
  · rw [Nat.cast_add, add_sub_cancel_left]
    exact intOf_eq (by omega) (by omega)

/-! ### Reading it back -/

theorem toNum_nonneg (b : UInt8) : 0 ≤ toNum b := by
  rw [toNum]
  split
  · omega
  · decide

/-- For a `UINT` the loop is the one that reads an unsigned number. -/
theorem numberLoop_uint (m : Mem) (n d : ℕ) (x : BitVec 32) :
    toNumberLoop m n d x.toNat = ((numberLoop m n d x).1.toNat, (numberLoop m n d x).2) := by
  induction n generalizing d x with
  | zero => rfl
  | succ n ih =>
    rw [toNumberLoop, numberLoop]
    split
    · exact ih _ _
    · split
      · rename_i hdigit
        rw [← ih]
        obtain ⟨k, hk⟩ := Int.eq_ofNat_of_zero_le (toNum_nonneg (m d))
        rw [hk, Int.toNat_natCast, BitVec.ofInt_natCast, BitVec.toNat_add, BitVec.toNat_mul, BitVec.toNat_ofNat]
        simp
      · rfl

/-- Over digits the loop computes their value as a word, and stops behind them. -/
theorem numberLoop_digits {m : Mem} {d w : ℕ} {s : List UInt8} (h : Holds m d s) (hs : ∀ b ∈ s, isDigit b = true)
    (v : ℕ) : numberLoop m s.length d (BitVec.ofNat w v) = (BitVec.ofNat w (digitsValue v s), d + s.length) := by
  induction s generalizing d v with
  | nil => rfl
  | cons b s ih =>
    obtain ⟨hb, hrest⟩ := h
    obtain ⟨hv, hlt⟩ := toNum_of_isDigit (hs b (by simp))
    have hne : b ≠ Ch.comma := by
      rintro rfl
      exact absurd (hs Ch.comma (by simp)) (by decide)
    have hstep : BitVec.ofNat w v * 10 + BitVec.ofInt w (toNum b) = BitVec.ofNat w (v * 10 + (b.toNat - 48)) := by
      rw [hv, BitVec.ofInt_natCast, BitVec.ofNat_add, BitVec.ofNat_mul]
      rfl
    rw [List.length_cons, numberLoop, hb, if_neg hne, if_pos hlt, hstep, ih hrest fun y hy => hs y (by simp [hy]),
      digitsValue_cons, Nat.add_assoc, Nat.add_comm 1]

/-- A text of digits, with a minus sign before it or not. -/
theorem toNumber_text (t : IntType) {m : Mem} {p : ℕ} {sign s : List UInt8} (h : Holds m p (sign ++ s))
    (hsign : sign = [] ∨ sign = [Ch.minus]) (hs : ∀ b ∈ s, isDigit b = true) (hne : s ≠ [])
    (hlen : (sign ++ s).length < 2 ^ 31) :
    toNumber t m ⟨p, (sign ++ s).length + 1⟩ =
      (if t.isSigned && sign = [Ch.minus] then -BitVec.ofNat t.bits (digitsValue 0 s)
        else BitVec.ofNat t.bits (digitsValue 0 s), ((sign ++ s).length : ℤ)) := by
  obtain ⟨hleft, hright⟩ := holds_append.mp h
  have hpos := List.length_pos_iff.mpr hne
  have hstop : Ref.stop ⟨p, (sign ++ s).length + 1⟩ = p + (sign.length + s.length) := by
    rw [← List.length_append]
    rfl
  rw [List.length_append] at hlen
  have hscan : scanWhile m (fun c => decide (10 ≤ toNum c)) p (sign.length + s.length) = p + sign.length := by
    refine scanWhile_eq hleft ?_ (Nat.le_add_right _ _) fun _ => ?_
    · rcases hsign with rfl | rfl
      · simp
      · simp [toNum, schar]
    · have hdigit := hs _ (List.getElem_mem hpos)
      rw [← hright.get hpos, Nat.add_zero] at hdigit
      exact decide_eq_false (not_le.mpr (toNum_of_isDigit hdigit).2)
  have hminus : (decide (1 ≤ p + sign.length - p) && decide (m (p + sign.length - 1) = Ch.minus)) =
      decide (sign = [Ch.minus]) := by
    rcases hsign with rfl | rfl
    · simp
    · simpa using hleft.1
  have hloop := numberLoop_digits (w := t.bits) hright hs 0
  rw [toNumber, hstop]
  dsimp only
  rw [if_neg (by omega), Nat.add_sub_cancel_left, hscan, if_neg (by omega), Bool.and_assoc, hminus]
  have hleft' : p + (sign.length + s.length) - (p + sign.length) = s.length := by omega
  rw [hleft', show (0 : BitVec t.bits) = BitVec.ofNat t.bits 0 from rfl, hloop, ← Bool.and_assoc, Bool.and_self]
  refine Prod.ext rfl ?_
  rw [intOf_eq]
  · push_cast [List.length_append]
    omega
  · push_cast
    omega
  · push_cast
    omega

/-- `itoa` writes the decimal representation of a value of any of the types, and `ToNumber` reads the value from it and
goes to its end. -/
theorem toNumber_itoa (t : IntType) (m : Mem) (value : BitVec t.bits) (str : ℕ) :
    Holds (itoa t m value str).1 str (decimal (t.number value) ++ [0]) ∧
      (itoa t m value str).2 = (decimal (t.number value)).length ∧
      toNumber t (itoa t m value str).1 ⟨str, (decimal (t.number value)).length + 1⟩ =
        (value, ((decimal (t.number value)).length : ℤ)) := by
  obtain ⟨hholds, hcount⟩ := itoa_text t m value str
  refine ⟨hholds, hcount, ?_⟩
  have hlen := length_decimal_le (number_lt t value)
  have htext := (holds_append.mp hholds).1
  rw [decimal_eq] at htext hlen ⊢
  rw [toNumber_text t htext ?_ (fun b hb => isDigit_of_mem_itoaUnsigned hb) (itoaUnsigned_ne_nil _) (by omega),
    digitsValue_itoaUnsigned]
  · refine Prod.ext ?_ rfl
    dsimp only
    rw [← BitVec.ofInt_natCast]
    by_cases hz : t.number value < 0
    · have hsigned : t.isSigned = true := by
        by_contra hun
        rw [IntType.number, if_neg hun] at hz
        omega
      have habs : -((t.number value).natAbs : ℤ) = t.number value := by omega
      rw [if_pos hz, hsigned, if_pos (by decide), ← BitVec.ofInt_neg, habs, ofInt_number]
    · have habs : ((t.number value).natAbs : ℤ) = t.number value := by omega
      rw [if_neg hz, if_neg (by simp), habs, ofInt_number]
  · split
    · exact Or.inr rfl
    · exact Or.inl rfl

end Cpcf.Rt.NumberText
