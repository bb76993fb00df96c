import Cpcf.Lib.Memory
import Cpcf.Rt.Chars

/-!
Numbers and their texts: `string_ops::itoa` and `String_Base::ToNumber` for an unsigned 32-bit
result in base ten.

`itoa` writes the digits from the lowest on and reverses them. `ToNumber` skips to the first digit,
then reads digits and group separators, computing modulo `2^32`; it returns the offset where it
stopped.
-/

namespace Cpcf.Rt

open Cpcf.Lib.Memory

/-! ### Writing -/

/-- `do *wstr++ = (char)(48 + (uvalue % 10)); while(uvalue /= 10);`: the digits in the order they are
written. The first argument bounds the number of turns. -/
def itoaLoop : ℕ → ℕ → List UInt8
  | 0, _ => []
  | n + 1, uvalue =>
    UInt8.ofNat (48 + uvalue % 10) :: if uvalue / 10 = 0 then [] else itoaLoop n (uvalue / 10)

attribute [local simp] itoaLoop

/-- `itoa` of an unsigned value. -/
def itoaUnsigned (value : ℕ) : List UInt8 := (itoaLoop (value + 1) value).reverse

/-- `itoa` of a signed value: the sign is written after the digits and comes to the front. -/
def itoa (value : ℤ) : List UInt8 :=
  (itoaLoop (value.natAbs + 1) value.natAbs ++ if value < 0 then [Ch.minus] else []).reverse

theorem itoaLoop_ne_nil (n v : ℕ) : itoaLoop (n + 1) v ≠ [] := by simp

theorem itoaUnsigned_ne_nil (v : ℕ) : itoaUnsigned v ≠ [] := by
  simpa [itoaUnsigned] using itoaLoop_ne_nil v v

theorem itoa_of_nonneg {v : ℤ} (h : 0 ≤ v) : itoa v = itoaUnsigned v.natAbs := by
  simp [itoa, itoaUnsigned, not_lt.mpr h]

theorem itoa_of_neg {v : ℤ} (h : v < 0) : itoa v = Ch.minus :: itoaUnsigned v.natAbs := by
  simp [itoa, itoaUnsigned, h]

/-- A decimal digit character. -/
def isDigit (b : UInt8) : Bool := 0x30 ≤ b && b ≤ 0x39

theorem toNat_digit {d : ℕ} (h : d < 10) : (UInt8.ofNat (48 + d)).toNat = 48 + d := by
  rw [UInt8.toNat_ofNat']
  omega

theorem isDigit_iff {b : UInt8} : isDigit b = true ↔ 48 ≤ b.toNat ∧ b.toNat ≤ 57 := by
  simp [isDigit, UInt8.le_iff_toNat_le]

theorem isDigit_of_mem_itoaLoop {n v : ℕ} {b : UInt8} (h : b ∈ itoaLoop n v) : isDigit b = true := by
  induction n generalizing v with
  | zero => simp at h
  | succ n ih =>
    rw [itoaLoop] at h
    rcases List.mem_cons.mp h with rfl | h
    · rw [isDigit_iff, toNat_digit (Nat.mod_lt _ (by omega))]
      omega
    · split at h
      · simp at h
      · exact ih h

theorem isDigit_of_mem_itoaUnsigned {v : ℕ} {b : UInt8} (h : b ∈ itoaUnsigned v) : isDigit b = true := by
  rw [itoaUnsigned, List.mem_reverse] at h
  exact isDigit_of_mem_itoaLoop h

/-! ### The value of a digit text -/

/-- `x = x*10 + val` over a text of digits. -/
def digitsValue (x : ℕ) (s : List UInt8) : ℕ := s.foldl (fun x b => x * 10 + (b.toNat - 48)) x

theorem digitsValue_itoaLoop {n v : ℕ} (h : v < n) : digitsValue 0 (itoaLoop n v).reverse = v := by
  induction n generalizing v with
  | zero => omega
  | succ n ih =>
    have hd := toNat_digit (Nat.mod_lt v (show 0 < 10 by omega))
    rw [itoaLoop, List.reverse_cons, digitsValue, List.foldl_append]
    simp only [List.foldl_cons, List.foldl_nil, hd]
    split
    · simp only [List.reverse_nil, List.foldl_nil]
      omega
    · have := ih (v := v / 10) (by omega)
      rw [digitsValue] at this
      rw [this]
      omega

theorem digitsValue_itoaUnsigned (v : ℕ) : digitsValue 0 (itoaUnsigned v) = v :=
  digitsValue_itoaLoop (Nat.lt_succ_self v)

/-! ### Reading -/

/-- `_details::_to_num<10>::call`. -/
def toNum (b : UInt8) : ℤ := if 0x30 ≤ schar b then schar b - 0x30 else 10

/-- `while((*d==',' || (val = _to_num(*d))<10) && d<end) if(*d++ != ',') x = (UINT)(x*10 + val);`: the
value and the pointer at the end. The first argument is the number of cells before `end`. -/
def toNumberLoop (m : Mem) : ℕ → ℕ → ℕ → ℕ × ℕ
  | 0, d, x => (x, d)
  | n + 1, d, x =>
    if m d = Ch.comma then toNumberLoop m n (d + 1) x
    else if toNum (m d) < 10 then toNumberLoop m n (d + 1) ((x * 10 + (toNum (m d)).toNat) % 2 ^ 32)
    else (x, d)

/-- `String_Ref(p, end).ToNumber(x)` for a `UINT`: the value and the offset returned, `-1` where no
digit is found. -/
def toNumber (m : Mem) (p e : ℕ) : ℕ × ℤ :=
  if p = e then (0, -1)
  else
    let d := scanWhile m (fun b => decide (10 ≤ toNum b)) p (e - p)
    if d = e then (0, -1)
    else
      let r := toNumberLoop m (e - d) d 0
      (r.1, (r.2 : ℤ) - p)

theorem toNum_of_isDigit {b : UInt8} (h : isDigit b = true) : toNum b = (b.toNat - 48 : ℕ) ∧ toNum b < 10 := by
  obtain ⟨h1, h2⟩ := isDigit_iff.mp h
  have hs : schar b = b.toNat := schar_of_lt (by rw [UInt8.lt_iff_toNat_lt]; simp; omega)
  unfold toNum
  rw [hs]
  constructor
  · rw [if_pos (by omega)]
    omega
  · rw [if_pos (by omega)]
    omega

theorem digitsValue_cons (x : ℕ) (b : UInt8) (s : List UInt8) :
    digitsValue x (b :: s) = digitsValue (x * 10 + (b.toNat - 48)) s := by
  rw [digitsValue, List.foldl_cons, digitsValue]

theorem le_digitsValue (x : ℕ) (s : List UInt8) : x ≤ digitsValue x s := by
  induction s generalizing x with
  | nil => exact le_rfl
  | cons b s ih =>
    rw [digitsValue_cons]
    exact le_trans (by omega) (ih _)

/-- Over a digit text whose value fits a `UINT` the loop computes that value and stops behind it. -/
theorem toNumberLoop_digits {m : Mem} {d n : ℕ} {s : List UInt8} (h : Holds m d s)
    (hs : ∀ b ∈ s, isDigit b = true) (hn : s.length < n) (hc : m (d + s.length) ≠ Ch.comma)
    (hstop : ¬ toNum (m (d + s.length)) < 10) {x : ℕ} (hx : digitsValue x s < 2 ^ 32) :
    toNumberLoop m n d x = (digitsValue x s, d + s.length) := by
  induction s generalizing d n x with
  | nil =>
    obtain ⟨n, rfl⟩ : ∃ k, n = k + 1 := ⟨n - 1, by omega⟩
    simp only [List.length_nil, add_zero] at hc hstop
    rw [toNumberLoop, if_neg hc, if_neg hstop]
    simp [digitsValue]
  | cons b s ih =>
    obtain ⟨n, rfl⟩ : ∃ k, n = k + 1 := ⟨n - 1, by simp at hn; omega⟩
    obtain ⟨hv, hlt⟩ := toNum_of_isDigit (hs b (by simp))
    have hne : b ≠ Ch.comma := by
      rintro rfl
      exact absurd (hs Ch.comma (by simp)) (by decide)
    rw [digitsValue_cons] at hx ⊢
    have hfit : x * 10 + (b.toNat - 48) < 2 ^ 32 := lt_of_le_of_lt (le_digitsValue _ s) hx
    have hlen : d + (b :: s).length = d + 1 + s.length := by simp; omega
    rw [hlen] at hc hstop ⊢
    rw [toNumberLoop, h.1, if_neg hne, if_pos hlt, hv, Int.toNat_natCast, Nat.mod_eq_of_lt hfit]
    exact ih h.2 (fun y hy => hs y (by simp [hy])) (by simpa using hn) hc hstop hx

/-- `ToNumber` reads back what `itoa` wrote, when a byte follows that is neither a digit nor a
separator. -/
theorem toNumber_itoaUnsigned {m : Mem} {p e v : ℕ} (h : Holds m p (itoaUnsigned v))
    (he : p + (itoaUnsigned v).length < e) (hc : m (p + (itoaUnsigned v).length) ≠ Ch.comma)
    (hstop : ¬ toNum (m (p + (itoaUnsigned v).length)) < 10) (hv : v < 2 ^ 32) :
    toNumber m p e = (v, ((itoaUnsigned v).length : ℤ)) := by
  obtain ⟨b, s, hs⟩ := List.exists_cons_of_ne_nil (itoaUnsigned_ne_nil v)
  have hdig : ∀ b ∈ itoaUnsigned v, isDigit b = true := fun b hb => isDigit_of_mem_itoaUnsigned hb
  have hfirst : decide (10 ≤ toNum (m p)) = false := by
    have h' := h
    rw [hs] at h'
    have := (toNum_of_isDigit (hdig b (by simp [hs]))).2
    rw [h'.1]
    simpa using this
  have hscan : scanWhile m (fun b => decide (10 ≤ toNum b)) p (e - p) = p :=
    scanWhile_eq (show Holds m p [] by simp) (by simp) (by simp) (fun _ => by simpa using hfirst)
  unfold toNumber
  rw [if_neg (by omega), hscan]
  simp only [if_neg (show p ≠ e by omega)]
  rw [toNumberLoop_digits h hdig (by omega) hc hstop (by rw [digitsValue_itoaUnsigned]; exact hv),
    digitsValue_itoaUnsigned]
  simp

end Cpcf.Rt
