import Cpcf.Os.FieldsFormat
import Cpcf.Os.FieldsSound

/-!
Dates without separators and dates with the name of a month, as `Timestamp::Fields::FromString` of `os/kernel.cpp` reads
them.

Eight and twelve digits are cut apart as they are written. Of fourteen digits the last six go to the hour, the month and
the day. The name of a month is not found, and what stands before and behind it is taken for an hour and a minute of the
first day of 1970.
-/

namespace Cpcf.Os.Timestamp

open Cpcf.Lib.Memory Cpcf.Rt Cpcf.Rt.StringRef Cpcf.Rt.NumberText

/-! ### The texts -/

/-- The ways to write a date: `yyyymmddhhmmss`, `yyyymmddhhmm`, `yyyymmdd`, `dd Mon yyyy`, `Mon dd, yyyy` and
`yyyy Mon dd`, with a capital letter or without one. -/
inductive Form
  | second
  | minute
  | day
  | dayMonthYear (capital : Bool)
  | monthDayYear (capital : Bool)
  | yearMonthDay (capital : Bool)

/-- The English name of a month of three letters. -/
def nameOf (capital : Bool) (month : ℤ) : List UInt8 :=
  if capital then getMonthName month else monthNames.getD (month - 1).toNat []

/-- The eight digits of a date. -/
def dateDigits (f : Fields) : List UInt8 := padded (4, f.year) ++ padded (2, f.month) ++ padded (2, f.day)

/-- The text of a date. -/
def Form.text (f : Fields) : Form → List UInt8
  | .second => dateDigits f ++ (padded (2, f.hour) ++ padded (2, f.minute) ++ padded (2, f.second))
  | .minute => dateDigits f ++ (padded (2, f.hour) ++ padded (2, f.minute))
  | .day => dateDigits f
  | .dayMonthYear capital => joined (padded (2, f.day)) [([0x20], nameOf capital f.month), ([0x20], padded (4, f.year))]
  | .monthDayYear capital =>
    joined (nameOf capital f.month) [([0x20], padded (2, f.day)), ([Ch.comma, 0x20], padded (4, f.year))]
  | .yearMonthDay capital => joined (padded (4, f.year)) [([0x20], nameOf capital f.month), ([0x20], padded (2, f.day))]

/-- `g` has what is written of `f`, and the parts that digits leave out are at their bound. -/
def Form.Agrees (f : Fields) (low_bound : Bool) (g : Fields) : Form → Prop
  | .second => g.year = f.year ∧ g.month = f.month ∧ g.day = f.day ∧ g.hour = f.hour ∧ g.minute = f.minute ∧
      g.second = f.second ∧ g.millSecond = if low_bound then 0 else 999
  | .minute => g.year = f.year ∧ g.month = f.month ∧ g.day = f.day ∧ g.hour = f.hour ∧ g.minute = f.minute ∧
      (g.second = if low_bound then 0 else 59) ∧ g.millSecond = if low_bound then 0 else 999
  | .day => g.year = f.year ∧ g.month = f.month ∧ g.day = f.day ∧ (g.hour = if low_bound then 0 else 23) ∧
      (g.minute = if low_bound then 0 else 59) ∧ (g.second = if low_bound then 0 else 59) ∧
      g.millSecond = if low_bound then 0 else 999
  | _ => g.year = f.year ∧ g.month = f.month ∧ g.day = f.day

/-- `FromString` of the text of `f` sets what is written. -/
def SetsExactly (form : Form) (f : Fields) : Prop :=
  ∀ m p low_bound this, p ≠ 0 → Holds m p (form.text f) →
    form.Agrees f low_bound (fromString m ⟨p, (form.text f).length + 1⟩ low_bound this).1

/-- The forms that are understood, and the one date that is the same when it is not. -/
def Form.Understood (f : Fields) : Form → Prop
  | .second => False
  | .minute => True
  | .day => True
  | _ => f.year = 1970 ∧ f.month = 1 ∧ f.day = 1

/-! ### Digits -/

theorem digitsValue_append (x : ℕ) (s t : List UInt8) : digitsValue x (s ++ t) = digitsValue (digitsValue x s) t := by
  rw [digitsValue, List.foldl_append]
  rfl

theorem digitsValue_shift (x : ℕ) (s : List UInt8) : digitsValue x s = x * 10 ^ s.length + digitsValue 0 s := by
  induction s generalizing x with
  | nil => simp [digitsValue]
  | cons b s ih =>
    rw [digitsValue_cons, digitsValue_cons, ih, ih (0 * 10 + _), List.length_cons, pow_succ]
    ring

/-- Another padded number behind digits. -/
theorem digitsValue_append_padded (s : List UInt8) {y : ℕ × ℤ} (hy : Fits y) :
    digitsValue 0 (s ++ padded y) = digitsValue 0 s * 10 ^ y.1 + y.2.natAbs := by
  rw [digitsValue_append, digitsValue_shift, length_padded hy, padded, digitsValue_zeroPadded hy.1]

theorem isDigit_of_mem_padded {y : ℕ × ℤ} (hy : Fits y) {c : UInt8} (hc : c ∈ padded y) : isDigit c = true :=
  isDigit_of_mem_zeroPadded hy.1 hc

/-- A text of digits, as a number without a sign. -/
theorem unsigned_eq {m : Mem} {r : Ref} {s : List UInt8} (h : At m r s) (hs : ∀ b ∈ s, isDigit b = true) (hne : s ≠ [])
    (hlen : s.length < 2 ^ 31) (hlt : digitsValue 0 s < 2 ^ 32) : unsigned m r = digitsValue 0 s := by
  obtain ⟨hold, hr⟩ := h
  have hread := toNumber_text .uint (show Holds m r.p ([] ++ s) from hold) (.inl rfl) hs hne hlen
  rw [List.nil_append, ← hr] at hread
  have hsame : (⟨r.p, r.len⟩ : Ref) = r := rfl
  rw [hsame] at hread
  rw [unsigned, hread]
  dsimp only
  rw [if_neg (by decide)]
  have hvalue : (BitVec.ofNat 32 (digitsValue 0 s)).toNat = digitsValue 0 s := by
    rw [BitVec.toNat_ofNat, Nat.mod_eq_of_lt hlt]
  exact congrArg Nat.cast hvalue

theorem toNumber_digits {m : Mem} {r : Ref} {s : List UInt8} (h : At m r s) (hs : ∀ b ∈ s, isDigit b = true)
    (hne : s ≠ []) (hlen : s.length < 2 ^ 31) : (toNumber .int m r).2 = s.length := by
  obtain ⟨hold, hr⟩ := h
  have hread := toNumber_text .int (show Holds m r.p ([] ++ s) from hold) (.inl rfl) hs hne hlen
  rw [List.nil_append, ← hr] at hread
  have hsame : (⟨r.p, r.len⟩ : Ref) = r := rfl
  rw [hsame] at hread
  rw [hread]

/-- A text of digits is one piece. -/
theorem piecesOf_digits {m : Mem} {p : ℕ} {s : List UInt8} (hold : Holds m p s) (hp : p ≠ 0)
    (hs : ∀ b ∈ s, isDigit b = true) (hne : s ≠ []) (hlen : s.length + 1 < 2 ^ 31) :
    (piecesOf m ⟨p, s.length + 1⟩).f.length = 1 ∧
      ¬ ((piecesOf m ⟨p, s.length + 1⟩).f.any fun r => (toNumber .int m r).2 = 0) = true := by
  have hjoined : joined s [] = s := by simp [joined]
  rw [← hjoined] at hold hlen
  have h := piecesOf_joined hold hp hlen (by decide) (token_of_digits hne hs) (by simp)
  rw [hjoined] at h hlen
  refine ⟨h.length_eq, not_any_zero h fun u hu r hr => ?_⟩
  rw [List.map_nil, List.mem_singleton] at hu
  rw [hu] at hr
  have hpos := List.length_pos_iff.mpr hne
  rw [toNumber_digits hr hs hne (by omega)]
  omega

/-! ### The date and the time in digits -/

/-- A date and a time with a year of four digits. -/
structure Fields.FourDigits (f : Fields) : Prop where
  valid : f.Valid
  year : 0 ≤ f.year ∧ f.year ≤ 9999

section Digits

variable {f : Fields}

theorem Fields.FourDigits.fits (hf : f.FourDigits) : Fits (4, f.year) ∧ Fits (2, f.month) ∧ Fits (2, f.day) ∧
    Fits (2, f.hour) ∧ Fits (2, f.minute) ∧ Fits (2, f.second) := by
  obtain ⟨⟨⟨hm, hm', hd, hd'⟩, hh, hmi, hs, -⟩, hy⟩ := hf
  have := Cpcf.Lib.Calendar.monthLength_bounds f.year.toNat f.month.toNat
  exact ⟨fits_four hy, fits_two (by omega), fits_two (by omega), fits_two (by omega), fits_two (by omega),
    fits_two (by omega)⟩

/-- The eight digits of a date, as a number. -/
theorem digitsValue_dateDigits (hf : f.FourDigits) :
    ((digitsValue 0 (dateDigits f) : ℕ) : ℤ) = f.year * 10000 + f.month * 100 + f.day := by
  obtain ⟨hy, hmo, hd, -⟩ := hf.fits
  rw [dateDigits, digitsValue_append_padded _ hd, digitsValue_append_padded _ hmo, padded, digitsValue_zeroPadded hy.1]
  have := hy.1
  have := hmo.1
  have := hd.1
  simp only at *
  omega

theorem digitsValue_clockDigits (hf : f.FourDigits) :
    ((digitsValue 0 (padded (2, f.hour) ++ padded (2, f.minute)) : ℕ) : ℤ) = f.hour * 100 + f.minute := by
  obtain ⟨-, -, -, hh, hmi, -⟩ := hf.fits
  rw [digitsValue_append_padded _ hmi, padded, digitsValue_zeroPadded hh.1]
  have := hh.1
  have := hmi.1
  simp only at *
  omega

theorem dateDigits_spec (hf : f.FourDigits) :
    (dateDigits f).length = 8 ∧ ∀ b ∈ dateDigits f, isDigit b = true := by
  obtain ⟨hy, hmo, hd, -⟩ := hf.fits
  constructor
  · rw [dateDigits, List.length_append, List.length_append, length_padded hy, length_padded hmo, length_padded hd]
    rfl
  · intro b hb
    rcases List.mem_append.mp hb with hb | hb
    · rcases List.mem_append.mp hb with hb | hb
      · exact isDigit_of_mem_padded hy hb
      · exact isDigit_of_mem_padded hmo hb
    · exact isDigit_of_mem_padded hd hb

theorem clockDigits_spec (hf : f.FourDigits) :
    (padded (2, f.hour) ++ padded (2, f.minute)).length = 4 ∧
      ∀ b ∈ padded (2, f.hour) ++ padded (2, f.minute), isDigit b = true := by
  obtain ⟨-, -, -, hh, hmi, -⟩ := hf.fits
  constructor
  · rw [List.length_append, length_padded hh, length_padded hmi]
    rfl
  · intro b hb
    rcases List.mem_append.mp hb with hb | hb
    · exact isDigit_of_mem_padded hh hb
    · exact isDigit_of_mem_padded hmi hb

/-- One piece is read by the number of characters. -/
theorem fromString_digits {m : Mem} {p : ℕ} {s : List UInt8} (hold : Holds m p s) (hp : p ≠ 0)
    (hs : ∀ b ∈ s, isDigit b = true) (hne : s ≠ []) (hlen : s.length + 1 < 2 ^ 31) (low_bound : Bool) (this : Fields) :
    fromString m ⟨p, s.length + 1⟩ low_bound this =
      (piecesOf m ⟨p, s.length + 1⟩).case1 low_bound { this with dayOfWeek := 0 } := by
  obtain ⟨hone, hzero⟩ := piecesOf_digits hold hp hs hne hlen
  rw [fromString, if_neg hzero, if_neg (by omega), if_neg (by omega), if_neg (by omega), if_neg (by omega),
    if_neg (by omega), if_neg (by omega), if_pos hone]

/-- The number in the eight digits of a date. -/
theorem unsigned_dateDigits (hf : f.FourDigits) {m : Mem} {r : Ref} (h : At m r (dateDigits f)) :
    unsigned m r = f.year * 10000 + f.month * 100 + f.day := by
  obtain ⟨hlen, hdigits⟩ := dateDigits_spec hf
  have hvalue := digitsValue_dateDigits hf
  obtain ⟨⟨-, -, -, hy⟩, ⟨-, -, -, hmo⟩, ⟨-, -, -, hd⟩, -⟩ := hf.fits
  simp only at hy hmo hd
  rw [unsigned_eq h hdigits (List.ne_nil_of_length_pos (by omega)) (by omega) (by omega), hvalue]

theorem unsigned_clockDigits (hf : f.FourDigits) {m : Mem} {r : Ref}
    (h : At m r (padded (2, f.hour) ++ padded (2, f.minute))) : unsigned m r = f.hour * 100 + f.minute := by
  obtain ⟨hlen, hdigits⟩ := clockDigits_spec hf
  have hvalue := digitsValue_clockDigits hf
  obtain ⟨-, -, -, ⟨-, -, -, hh⟩, ⟨-, -, -, hmi⟩, -⟩ := hf.fits
  simp only at hh hmi
  rw [unsigned_eq h hdigits (List.ne_nil_of_length_pos (by omega)) (by omega) (by omega), hvalue]

/-- The numbers are cut apart where they were put together. -/
theorem cut_date (hf : f.FourDigits) {t : ℤ} (ht : t = f.year * 10000 + f.month * 100 + f.day) :
    t / 10000 = f.year ∧ t % 10000 / 100 = f.month ∧ t % 100 = f.day := by
  obtain ⟨-, ⟨hmo, -, -, hmo'⟩, ⟨hd, -, -, hd'⟩, -⟩ := hf.fits
  simp only at hmo hmo' hd hd'
  omega

/-- Eight digits. -/
theorem setsExactly_day (hf : f.FourDigits) : SetsExactly .day f := by
  intro m p low_bound this hp hold
  rw [Form.text] at hold ⊢
  obtain ⟨hlen, hdigits⟩ := dateDigits_spec hf
  have hs : Ref.getLength ⟨p, (dateDigits f).length + 1⟩ = 8 := hlen
  have ht := unsigned_dateDigits hf (show At m ⟨p, (dateDigits f).length + 1⟩ _ from ⟨hold, rfl⟩)
  obtain ⟨hy, hmo, hd⟩ := cut_date hf ht
  rw [fromString_digits hold hp hdigits (List.ne_nil_of_length_pos (by omega)) (by omega), Pieces.case1, piecesOf_s,
    if_pos hs]
  exact ⟨hy, hmo, hd, rfl, rfl, rfl, rfl⟩

/-- Twelve digits. -/
theorem setsExactly_minute (hf : f.FourDigits) : SetsExactly .minute f := by
  intro m p low_bound this hp hold
  rw [Form.text] at hold ⊢
  obtain ⟨hlen, hdigits⟩ := dateDigits_spec hf
  obtain ⟨hclen, hcdigits⟩ := clockDigits_spec hf
  obtain ⟨-, -, -, ⟨hh, -, -, hh'⟩, ⟨hmi, -, -, hmi'⟩, -⟩ := hf.fits
  have hlength : (dateDigits f ++ (padded (2, f.hour) ++ padded (2, f.minute))).length = 12 := by
    rw [List.length_append, hlen, hclen]
  have hall : ∀ b ∈ dateDigits f ++ (padded (2, f.hour) ++ padded (2, f.minute)), isDigit b = true := by
    intro b hb
    exact (List.mem_append.mp hb).elim (hdigits b) (hcdigits b)
  obtain ⟨hdate, hclock⟩ := holds_append.mp hold
  rw [hlen] at hclock
  have hread := fromString_digits hold hp hall (List.ne_nil_of_length_pos (by omega)) (by omega) low_bound this
  rw [hlength] at hread ⊢
  have hs : Ref.getLength ⟨p, 12 + 1⟩ = 12 := rfl
  have ht := unsigned_dateDigits hf (show At m (subStr ⟨p, 12 + 1⟩ 0 8) _ from ⟨hdate, by rw [hlen]; rfl⟩)
  have htc := unsigned_clockDigits hf (show At m (subStr ⟨p, 12 + 1⟩ 8 4) _ from ⟨hclock, by rw [hclen]; rfl⟩)
  obtain ⟨hy, hmo, hd⟩ := cut_date hf ht
  simp only at hh hh' hmi hmi'
  rw [hread, Pieces.case1, piecesOf_s, hs, if_neg (by decide), if_neg (by decide), if_pos rfl]
  refine ⟨hy, hmo, hd, ?_, ?_, rfl, rfl⟩
  · exact show unsigned m (subStr ⟨p, 12 + 1⟩ 8 4) / 100 = f.hour by omega
  · exact show unsigned m (subStr ⟨p, 12 + 1⟩ 8 4) % 100 = f.minute by omega

/-- Fourteen digits leave the minute alone. -/
theorem not_setsExactly_second (hf : f.FourDigits) : ¬ SetsExactly .second f := by
  intro hexact
  have h := hexact (ofBytes 1 (Form.second.text f)) 1 true ⟨0, 0, 0, 0, 0, f.minute + 1, 0, 0⟩ one_ne_zero
    (holds_ofBytes 1 _)
  have hold := holds_ofBytes 1 (Form.second.text f)
  generalize ofBytes 1 (Form.second.text f) = m at h hold
  obtain ⟨hlen, hdigits⟩ := dateDigits_spec hf
  obtain ⟨hclen, hcdigits⟩ := clockDigits_spec hf
  obtain ⟨-, -, -, -, -, hs⟩ := hf.fits
  have htime : (padded (2, f.hour) ++ padded (2, f.minute) ++ padded (2, f.second)).length = 6 := by
    rw [List.length_append, hclen, length_padded hs]
    rfl
  have hlength : (Form.second.text f).length = 14 := by
    rw [Form.text, List.length_append, hlen, htime]
  have hall : ∀ b ∈ Form.second.text f, isDigit b = true := by
    intro b hb
    rw [Form.text] at hb
    rcases List.mem_append.mp hb with hb | hb
    · exact hdigits b hb
    · exact (List.mem_append.mp hb).elim (hcdigits b) (isDigit_of_mem_padded hs)
  have hread := fromString_digits hold one_ne_zero hall (List.ne_nil_of_length_pos (by omega)) (by omega) true
    ⟨0, 0, 0, 0, 0, f.minute + 1, 0, 0⟩
  have hs : Ref.getLength ⟨1, 14 + 1⟩ = 14 := rfl
  rw [hread, hlength, Pieces.case1, piecesOf_s, hs, if_neg (by decide), if_pos rfl] at h
  have hminute : f.minute + 1 = f.minute := h.2.2.2.2.1
  omega

end Digits

/-! ### Names of months -/

theorem letter_facts (month : Fin 12) (capital : Bool) : nameOf capital (month.val + 1 : ℕ) ≠ [] ∧
    ∀ c ∈ nameOf capital (month.val + 1 : ℕ), 10 ≤ toNum c ∧ seps.has c = false ∧ c ≠ Ch.dquote ∧ c ≠ Ch.squote := by
  have hall : ∀ month : Fin 12, ∀ capital, nameOf capital (month.val + 1 : ℕ) ≠ [] ∧
      (nameOf capital (month.val + 1 : ℕ)).all
        (fun c => 10 ≤ toNum c ∧ seps.has c = false ∧ c ≠ Ch.dquote ∧ c ≠ Ch.squote) = true := by
    set_option maxRecDepth 20000 in decide
  obtain ⟨hne, hchars⟩ := hall month capital
  exact ⟨hne, fun c hc => of_decide_eq_true (List.all_eq_true.mp hchars c hc)⟩

/-- The name of a month is a piece without a digit. -/
theorem nameOf_spec {month : ℤ} (h : 1 ≤ month ∧ month ≤ 12) (capital : Bool) :
    Token (nameOf capital month) ∧ ∀ c ∈ nameOf capital month, 10 ≤ toNum c := by
  obtain ⟨n, rfl⟩ := Int.eq_ofNat_of_zero_le (show 0 ≤ month by omega)
  obtain ⟨hne, hall⟩ := letter_facts ⟨n - 1, by omega⟩ capital
  simp only [show n - 1 + 1 = n by omega] at hne hall
  exact ⟨⟨hne, fun c hc => (hall c hc).2⟩, fun c hc => (hall c hc).1⟩

/-- `ToNumber` finds no number in a name. -/
theorem toNumber_name {m : Mem} {r : Ref} {u : List UInt8} (h : At m r u) (hu : ∀ c ∈ u, 10 ≤ toNum c) :
    toNumber .int m r = (0, -1) := by
  obtain ⟨hold, hr⟩ := h
  have hstop : r.stop = r.p + u.length := by rw [Ref.stop, Ref.getLength, hr, Nat.add_sub_cancel]
  have hscan := scanWhile_eq hold (fun c hc => decide_eq_true (hu c hc)) le_rfl fun hlt => absurd hlt (lt_irrefl _)
  rw [NumberText.toNumber, hstop]
  split
  · rfl
  · dsimp only
    rw [Nat.add_sub_cancel_left, if_pos hscan]

/-- Three pieces without a colon that are no date are an hour and a minute. -/
theorem fromString_three {m : Mem} {s : Ref} {us : List (List UInt8)} (h : List.Forall₂ (At m) (piecesOf m s).f us)
    (hthree : us.length = 3) (hus : ∀ u ∈ us, ∀ r, At m r u → (toNumber .int m r).2 ≠ 0) (hcolon : Ch.colon ∉ s.text m)
    (hdate : ¬ IsDate (piecesOf m s).num) (low_bound : Bool) (this : Fields) :
    (fromString m s low_bound this).1.year = 1970 ∧ (fromString m s low_bound this).1.month = 1 ∧
      (fromString m s low_bound this).1.day = 1 := by
  have hlen : (piecesOf m s).f.length = 3 := h.length_eq.trans hthree
  have hfind : ¬ 0 < findCharacter (piecesOf m s).m (piecesOf m s).s Ch.colon := by
    rw [piecesOf_s, piecesOf_m, findCharacter, if_neg hcolon]
    decide
  obtain ⟨year, month, day, heq⟩ := tryDate_of_not (x := piecesOf m s) hdate
  rw [fromString, if_neg (not_any_zero h hus), if_neg (by omega), if_neg (by omega), if_neg (by omega),
    if_neg (by omega), if_pos hlen, Pieces.case3, if_neg hfind, heq]
  exact ⟨rfl, rfl, rfl⟩

/-- A number of zero in the first or the second place makes no date. -/
theorem not_isDate_of_zero {num : ℕ → ℤ} (h : num 0 = 0 ∨ num 1 = 0) : ¬ IsDate num := by
  unfold IsDate
  omega

/-- `u` is read as the number `z`. -/
def ReadAs (m : Mem) (u : List UInt8) (z : ℤ) : Prop :=
  ∀ r, At m r u → (toNumber .int m r).1.toInt = z ∧ (toNumber .int m r).2 ≠ 0

theorem readAs_padded (m : Mem) {y : ℕ × ℤ} (hy : Fits y) : ReadAs m (padded y) y.2 := by
  intro r hr
  obtain ⟨hz, hw, hw9, hlt⟩ := hy
  obtain ⟨hvalue, hread⟩ := toNumber_zeroPadded hr hz hw hw9 hlt
  exact ⟨hvalue, by omega⟩

theorem readAs_name (m : Mem) {month : ℤ} (h : 1 ≤ month ∧ month ≤ 12) (capital : Bool) :
    ReadAs m (nameOf capital month) 0 := by
  intro r hr
  rw [toNumber_name hr (nameOf_spec h capital).2]
  decide

/-- A gap between pieces: separators other than a colon. -/
def Gap (g : List UInt8) : Prop := g ≠ [] ∧ ∀ c ∈ g, c ∈ sepChars ∧ c ≠ Ch.colon

theorem Token.notMem_colon {u : List UInt8} (hu : Token u) : Ch.colon ∉ u := by
  intro hmem
  have hsep : seps.has Ch.colon = true := by decide
  rw [(hu.2 _ hmem).1] at hsep
  exact absurd hsep Bool.false_ne_true

/-- Three pieces of which the first or the second is no number. -/
theorem fromString_named {m : Mem} {p : ℕ} {u v w g g' : List UInt8} {x y z : ℤ}
    (hold : Holds m p (joined u [(g, v), (g', w)])) (hp : p ≠ 0)
    (hlen : (joined u [(g, v), (g', w)]).length + 1 < 2 ^ 31) (hu : Token u) (hv : Token v) (hw : Token w) (hg : Gap g)
    (hg' : Gap g') (hx : ReadAs m u x) (hy : ReadAs m v y) (hz : ReadAs m w z) (hname : x = 0 ∨ y = 0)
    (low_bound : Bool) (this : Fields) :
    let r := (fromString m ⟨p, (joined u [(g, v), (g', w)]).length + 1⟩ low_bound this).1
    r.year = 1970 ∧ r.month = 1 ∧ r.day = 1 := by
  have hgaps : ∀ t ∈ [(g, v), (g', w)], Token t.2 ∧ t.1 ≠ [] ∧ ∀ c ∈ t.1, c ∈ sepChars := by
    simp only [List.forall_mem_cons, List.not_mem_nil, false_implies, implies_true, and_true]
    exact ⟨⟨hv, hg.1, fun c hc => (hg.2 c hc).1⟩, hw, hg'.1, fun c hc => (hg'.2 c hc).1⟩
  have hcolon : Ch.colon ∉ joined u [(g, v), (g', w)] := by
    have hnot : Ch.colon ∉ g := fun h => (hg.2 _ h).2 rfl
    have hnot' : Ch.colon ∉ g' := fun h => (hg'.2 _ h).2 rfl
    simpa [joined] using ⟨hu.notMem_colon, hnot, hv.notMem_colon, hnot', hw.notMem_colon⟩
  have hpieces := piecesOf_joined hold hp hlen (show 2 < 7 by norm_num) hu hgaps
  have h0 := at_getD hpieces (i := 0) (by simp)
  have h1 := at_getD hpieces (i := 1) (by simp)
  have htext : Ref.text ⟨p, (joined u [(g, v), (g', w)]).length + 1⟩ m = joined u [(g, v), (g', w)] := hold.read_eq
  refine fromString_three hpieces rfl ?_ (by rw [htext]; exact hcolon) (not_isDate_of_zero ?_) low_bound this
  · intro t ht r hr
    simp only [List.map_cons, List.map_nil, List.mem_cons, List.not_mem_nil, or_false] at ht
    rcases ht with rfl | rfl | rfl
    · exact (hx r hr).2
    · exact (hy r hr).2
    · exact (hz r hr).2
  · exact hname.imp (fun h => (hx _ h0).1.trans h) fun h => (hy _ h1).1.trans h

theorem gap_blank : Gap [0x20] := by
  unfold Gap
  set_option maxRecDepth 20000 in decide

theorem gap_comma : Gap [Ch.comma, 0x20] := by
  unfold Gap
  set_option maxRecDepth 20000 in decide

theorem length_nameOf {month : ℤ} (h : 1 ≤ month ∧ month ≤ 12) (capital : Bool) : (nameOf capital month).length = 3 := by
  have hall : ∀ i : Fin 12, ∀ capital, (nameOf capital (i.val + 1 : ℕ)).length = 3 := by decide
  obtain ⟨n, rfl⟩ := Int.eq_ofNat_of_zero_le (show 0 ≤ month by omega)
  have hlen := hall ⟨n - 1, by omega⟩ capital
  simp only [show n - 1 + 1 = n by omega] at hlen
  exact hlen

/-- A date with the name of a month is read as the first day of 1970. -/
theorem named_date {f : Fields} (hf : f.FourDigits) {form : Form} (hnamed : ∃ capital,
      form = .dayMonthYear capital ∨ form = .monthDayYear capital ∨ form = .yearMonthDay capital)
    {m : Mem} {p : ℕ} (hold : Holds m p (form.text f)) (hp : p ≠ 0) (low_bound : Bool) (this : Fields) :
    let r := (fromString m ⟨p, (form.text f).length + 1⟩ low_bound this).1
    r.year = 1970 ∧ r.month = 1 ∧ r.day = 1 := by
  obtain ⟨hy, -, hd, -⟩ := hf.fits
  have hmonth : 1 ≤ f.month ∧ f.month ≤ 12 := ⟨hf.valid.1.1, hf.valid.1.2.1⟩
  obtain ⟨capital, rfl | rfl | rfl⟩ := hnamed
  · exact fromString_named hold hp (by simp [joined, length_padded hd, length_padded hy, length_nameOf hmonth])
      (token_padded hd) (nameOf_spec hmonth capital).1 (token_padded hy) gap_blank gap_blank (readAs_padded m hd)
      (readAs_name m hmonth capital) (readAs_padded m hy) (.inr rfl) low_bound this
  · exact fromString_named hold hp (by simp [joined, length_padded hd, length_padded hy, length_nameOf hmonth])
      (nameOf_spec hmonth capital).1 (token_padded hd) (token_padded hy) gap_blank gap_comma
      (readAs_name m hmonth capital) (readAs_padded m hd) (readAs_padded m hy) (.inl rfl) low_bound this
  · exact fromString_named hold hp (by simp [joined, length_padded hd, length_padded hy, length_nameOf hmonth])
      (token_padded hy) (nameOf_spec hmonth capital).1 (token_padded hd) gap_blank gap_blank (readAs_padded m hy)
      (readAs_name m hmonth capital) (readAs_padded m hd) (.inr rfl) low_bound this

/-- So it is set where it is that day. -/
theorem setsExactly_named {f : Fields} (hf : f.FourDigits) {form : Form} (hnamed : ∃ capital,
      form = .dayMonthYear capital ∨ form = .monthDayYear capital ∨ form = .yearMonthDay capital) :
    SetsExactly form f ↔ f.year = 1970 ∧ f.month = 1 ∧ f.day = 1 := by
  have hagrees : ∀ low_bound g, form.Agrees f low_bound g ↔ g.year = f.year ∧ g.month = f.month ∧ g.day = f.day := by
    obtain ⟨capital, rfl | rfl | rfl⟩ := hnamed <;> exact fun _ _ => Iff.rfl
  constructor
  · intro hexact
    have hset := hexact _ 1 true ⟨0, 0, 0, 0, 0, 0, 0, 0⟩ one_ne_zero (holds_ofBytes 1 _)
    obtain ⟨hy, hm, hd⟩ := named_date hf hnamed (holds_ofBytes 1 _) one_ne_zero true ⟨0, 0, 0, 0, 0, 0, 0, 0⟩
    rw [hagrees, hy, hm, hd] at hset
    exact ⟨hset.1.symm, hset.2.1.symm, hset.2.2.symm⟩
  · rintro ⟨hyear, hmonth, hday⟩ m p low_bound this hp hold
    obtain ⟨hy, hm, hd⟩ := named_date hf hnamed hold hp low_bound this
    rw [hagrees, hyear, hmonth, hday]
    exact ⟨hy, hm, hd⟩

/-- **Compact and named dates.** `FromString` sets what is written in eight or twelve digits, and nothing else but the
first day of 1970. -/
theorem setsExactly_iff (form : Form) (f : Fields) (hf : f.FourDigits) : SetsExactly form f ↔ form.Understood f := by
  cases form with
  | second => exact iff_of_false (not_setsExactly_second hf) not_false
  | minute => exact iff_of_true (setsExactly_minute hf) trivial
  | day => exact iff_of_true (setsExactly_day hf) trivial
  | dayMonthYear capital => exact setsExactly_named hf ⟨capital, .inl rfl⟩
  | monthDayYear capital => exact setsExactly_named hf ⟨capital, .inr (.inl rfl)⟩
  | yearMonthDay capital => exact setsExactly_named hf ⟨capital, .inr (.inr rfl)⟩

/-- 20 March 2015, 12:45:26. -/
def march : Fields := ⟨2015, 3, 20, 5, 12, 45, 26, 0⟩

theorem march_fourDigits : march.FourDigits := by
  refine ⟨⟨⟨by decide, by decide, by decide, by decide⟩, ?_⟩, by decide⟩
  unfold ValidClock
  decide

theorem setsExactly_iff_march : SetsExactly .day march :=
  (setsExactly_iff .day march march_fourDigits).mpr trivial

/-- `20150320124526` leaves the minute alone, and `20 Mar 2015` is taken for another day. -/
theorem setsExactly_fails : ¬ SetsExactly .second march ∧ ¬ SetsExactly (.dayMonthYear true) march := by
  refine ⟨not_setsExactly_second march_fourDigits, fun h => ?_⟩
  have hyear := ((setsExactly_named march_fourDigits ⟨true, .inl rfl⟩).mp h).1
  exact absurd hyear (show ¬ (2015 : ℤ) = 1970 by norm_num)

end Cpcf.Os.Timestamp
