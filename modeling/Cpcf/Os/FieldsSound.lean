import Cpcf.Lib.Calendar
import Cpcf.Os.FieldsText

/-!
What `Timestamp::Fields::FromString` accepts.

The numbers of a text are put into the fields as they are, but for the month and the day of a date between separators,
which are held against 12 and 31. So the fields are a point in time when the numbers at their places are one. Where the
fields of a text of fourteen digits are set, the minute and the second are left out.
-/

namespace Cpcf.Os.Timestamp

open Cpcf.Lib.Memory Cpcf.Lib.Calendar Cpcf.Rt Cpcf.Rt.StringRef Cpcf.Rt.NumberText

/-! ### How a text is read -/

/-- The ways to read a text: a date and what follows it, in so many pieces; a time of day in so many pieces; digits
without a separator. -/
inductive Layout
  | rejected
  | dated (n : ℕ)
  | clock (n : ℕ)
  | digits (n : ℕ)

/-- The way a text is read. -/
def layout (m : Mem) (s : Ref) : Layout :=
  let x := piecesOf m s
  if x.f.any fun r => (toNumber .int m r).2 = 0 then .rejected
  else if x.f.length = 7 ∨ x.f.length = 6 ∨ x.f.length = 5 then
    if IsDate x.num then .dated x.f.length else .clock 4
  else if x.f.length = 4 then .clock 4
  else if x.f.length = 3 then
    if 0 < findCharacter m s Ch.colon then .clock 3 else if IsDate x.num then .dated 3 else .clock 2
  else if x.f.length = 2 then .clock 2
  else if x.f.length = 1 ∧ (s.getLength = 8 ∨ s.getLength = 14 ∨ s.getLength = 12) then .digits s.getLength
  else .rejected

/-- The year, the month and the day are a date. -/
def ValidDay (year month day : ℤ) : Prop :=
  1 ≤ month ∧ month ≤ 12 ∧ 1 ≤ day ∧ day ≤ monthLength year.toNat month.toNat

/-- The time of day is one, up to a leap second. -/
def ValidClock (hour minute second millSecond : ℤ) : Prop :=
  (0 ≤ hour ∧ hour ≤ 23) ∧ (0 ≤ minute ∧ minute ≤ 59) ∧ (0 ≤ second ∧ second ≤ 60) ∧ 0 ≤ millSecond ∧ millSecond ≤ 999

/-- A point in time. -/
def Fields.Valid (f : Fields) : Prop := ValidDay f.year f.month f.day ∧ ValidClock f.hour f.minute f.second f.millSecond

/-- The numbers of a text that is read in a certain way are a point in time. -/
def WellWritten (m : Mem) (s : Ref) : Layout → Prop
  | .rejected => True
  | .dated n =>
    let x := piecesOf m s
    ValidDay (dateOf x.num).1 (dateOf x.num).2.1 (dateOf x.num).2.2 ∧
      (5 ≤ n → ValidClock (if n = 5 then x.hour (x.num 3) else x.num 3) (x.num 4) (if 6 ≤ n then x.num 5 else 0)
        (if n = 7 then x.num 6 else 0))
  | .clock n =>
    let x := piecesOf m s
    ValidClock (if n = 2 then x.hour (x.num 0) else x.num 0) (x.num 1) (if 3 ≤ n then x.num 2 else 0)
      (if n = 4 then x.num 3 else 0)
  | .digits n =>
    let t := if n = 8 then unsigned m s else unsigned m (subStr s 0 8)
    n ≠ 14 ∧ ValidDay (t / 10000) (t % 10000 / 100) (t % 100) ∧
      (n = 12 → ValidClock (unsigned m (subStr s 8 4) / 100) (unsigned m (subStr s 8 4) % 100) 0 0)

/-- When a positive number is returned, the fields are a point in time, and what they were before does not matter. -/
def Sound (m : Mem) (s : Ref) (low_bound : Bool) : Prop :=
  ∀ this, 0 < (fromString m s low_bound this).2 → (fromString m s low_bound this).1.Valid ∧
    ∀ that, fromString m s low_bound that = fromString m s low_bound this

/-! ### What is set -/

section Set

variable {m : Mem} {s : Ref} {low_bound : Bool} {x : Pieces} {this : Fields}

/-- A time of day of four pieces. -/
theorem case4_eq (x : Pieces) (this : Fields) :
    x.case4 this = (⟨1970, 1, 1, this.dayOfWeek, x.num 0, x.num 1, x.num 2, x.num 3⟩, 4) := rfl

/-- The layouts of five pieces and more come down to the one of four where there is no date. -/
theorem case5_of_not (h : ¬ IsDate x.num) : x.case5 low_bound this =
    (⟨1970, 1, 1, this.dayOfWeek, x.num 0, x.num 1, x.num 2, x.num 3⟩, 4) := by
  obtain ⟨year, month, day, heq⟩ := tryDate_of_not (x := x) h
  rw [Pieces.case5, heq, case4_eq]

theorem case6_of_not (h : ¬ IsDate x.num) : x.case6 low_bound this =
    (⟨1970, 1, 1, this.dayOfWeek, x.num 0, x.num 1, x.num 2, x.num 3⟩, 4) := by
  obtain ⟨year, month, day, heq⟩ := tryDate_of_not (x := x) h
  rw [Pieces.case6, heq, case5_of_not h]

theorem case7_of_not (h : ¬ IsDate x.num) : x.case7 low_bound this =
    (⟨1970, 1, 1, this.dayOfWeek, x.num 0, x.num 1, x.num 2, x.num 3⟩, 4) := by
  obtain ⟨year, month, day, heq⟩ := tryDate_of_not (x := x) h
  rw [Pieces.case7, heq, case6_of_not h]

/-- The result is the same for all fields before the call. -/
theorem sound_of_const {r : Fields × ℤ} (h : ∀ this, fromString m s low_bound this = r) (hr : 0 < r.2) :
    Sound m s low_bound ↔ r.1.Valid := by
  constructor
  · intro hs
    have := hs ⟨0, 0, 0, 0, 0, 0, 0, 0⟩
    rw [h] at this
    exact (this hr).1
  · intro hv this _
    refine ⟨?_, fun that => ?_⟩
    · rw [h]
      exact hv
    · rw [h, h]

/-! ### The parts that a text leaves out -/

theorem valid_bounds (low_bound : Bool) : ValidClock (if low_bound then 0 else 23) (if low_bound then 0 else 59)
    (if low_bound then 0 else 59) (if low_bound then 0 else 999) := by
  cases low_bound <;> simp [ValidClock]

theorem validClock_second (low_bound : Bool) (hour minute : ℤ) :
    ValidClock hour minute (if low_bound then 0 else 59) (if low_bound then 0 else 999) ↔ ValidClock hour minute 0 0 := by
  cases low_bound <;> simp [ValidClock]

theorem validClock_millSecond (low_bound : Bool) (hour minute second : ℤ) :
    ValidClock hour minute second (if low_bound then 0 else 999) ↔ ValidClock hour minute second 0 := by
  cases low_bound <;> simp [ValidClock]

theorem validDay_1970 : ValidDay 1970 1 1 := ⟨by decide, by decide, by decide, by decide⟩

/-! ### One layout after the other -/

/-- No layout. -/
theorem sound_of_nonpos (h : ∀ this, (fromString m s low_bound this).2 ≤ 0) : Sound m s low_bound :=
  fun this hpos => absurd hpos (not_lt.mpr (h this))

/-- A time of day. -/
theorem sound_clock_iff {n hour minute second millSecond : ℤ} (hn : 0 < n)
    (h : ∀ this, fromString m s low_bound this = (⟨1970, 1, 1, 0, hour, minute, second, millSecond⟩, n)) :
    Sound m s low_bound ↔ ValidClock hour minute second millSecond := by
  rw [sound_of_const h hn, Fields.Valid]
  exact and_iff_right validDay_1970

/-- Pieces from five on. -/
theorem sound_dated_iff {n hour minute second millSecond : ℤ} (hn : 0 < n)
    (h : ∀ this, fromString m s low_bound this = (⟨(dateOf x.num).1, (dateOf x.num).2.1, (dateOf x.num).2.2, 0, hour,
      minute, second, millSecond⟩, n)) :
    Sound m s low_bound ↔ ValidDay (dateOf x.num).1 (dateOf x.num).2.1 (dateOf x.num).2.2 ∧
      ValidClock hour minute second millSecond := sound_of_const h hn

/-- Five pieces and more: a date with a time of day, or a time of day of four pieces. -/
theorem sound_of_seven (hzero : ¬ ((piecesOf m s).f.any fun r => (toNumber .int m r).2 = 0) = true)
    (hn : (piecesOf m s).f.length = 7) : Sound m s low_bound ↔ WellWritten m s (layout m s) := by
  have hread : ∀ this, fromString m s low_bound this = (piecesOf m s).case7 low_bound { this with dayOfWeek := 0 } := by
    intro this
    rw [fromString, if_neg hzero, if_pos hn]
  rw [layout, if_neg hzero, if_pos (.inl hn), hn]
  by_cases hd : IsDate (piecesOf m s).num
  · rw [if_pos hd, sound_dated_iff (x := piecesOf m s) (n := 7) (by decide) fun this => by
      rw [hread, Pieces.case7, tryDate_of_date hd]]
    simp [WellWritten]
  · rw [if_neg hd, sound_clock_iff (n := 4) (by decide) fun this => by rw [hread, case7_of_not hd]]
    simp [WellWritten]

theorem sound_of_six (hzero : ¬ ((piecesOf m s).f.any fun r => (toNumber .int m r).2 = 0) = true)
    (hn : (piecesOf m s).f.length = 6) : Sound m s low_bound ↔ WellWritten m s (layout m s) := by
  have hread : ∀ this, fromString m s low_bound this = (piecesOf m s).case6 low_bound { this with dayOfWeek := 0 } := by
    intro this
    rw [fromString, if_neg hzero, if_neg (by omega), if_pos hn]
  rw [layout, if_neg hzero, if_pos (.inr (.inl hn)), hn]
  by_cases hd : IsDate (piecesOf m s).num
  · rw [if_pos hd, sound_dated_iff (x := piecesOf m s) (n := 6) (by decide) fun this => by
      rw [hread, Pieces.case6, tryDate_of_date hd], validClock_millSecond]
    simp [WellWritten]
  · rw [if_neg hd, sound_clock_iff (n := 4) (by decide) fun this => by rw [hread, case6_of_not hd]]
    simp [WellWritten]

theorem sound_of_five (hzero : ¬ ((piecesOf m s).f.any fun r => (toNumber .int m r).2 = 0) = true)
    (hn : (piecesOf m s).f.length = 5) : Sound m s low_bound ↔ WellWritten m s (layout m s) := by
  have hread : ∀ this, fromString m s low_bound this = (piecesOf m s).case5 low_bound { this with dayOfWeek := 0 } := by
    intro this
    rw [fromString, if_neg hzero, if_neg (by omega), if_neg (by omega), if_pos hn]
  rw [layout, if_neg hzero, if_pos (.inr (.inr hn)), hn]
  by_cases hd : IsDate (piecesOf m s).num
  · rw [if_pos hd, sound_dated_iff (x := piecesOf m s) (n := 5) (by decide) fun this => by
      rw [hread, Pieces.case5, tryDate_of_date hd], validClock_second]
    simp [WellWritten]
  · rw [if_neg hd, sound_clock_iff (n := 4) (by decide) fun this => by rw [hread, case5_of_not hd]]
    simp [WellWritten]

/-- Four pieces are a time of day. -/
theorem sound_of_four (hzero : ¬ ((piecesOf m s).f.any fun r => (toNumber .int m r).2 = 0) = true)
    (hn : (piecesOf m s).f.length = 4) : Sound m s low_bound ↔ WellWritten m s (layout m s) := by
  have hread : ∀ this, fromString m s low_bound this = (piecesOf m s).case4 { this with dayOfWeek := 0 } := by
    intro this
    rw [fromString, if_neg hzero, if_neg (by omega), if_neg (by omega), if_neg (by omega), if_pos hn]
  rw [layout, if_neg hzero, if_neg (by omega), if_pos hn,
    sound_clock_iff (n := 4) (by decide) fun this => by rw [hread, case4_eq]]
  simp [WellWritten]

/-- Two pieces are an hour and a minute. -/
theorem case2_eq (x : Pieces) (low_bound : Bool) (this : Fields) : x.case2 low_bound this =
    (⟨1970, 1, 1, this.dayOfWeek, x.hour (x.num 0), x.num 1, if low_bound then 0 else 59,
      if low_bound then 0 else 999⟩, 2) := rfl

/-- Three pieces are a time of day behind a colon, else a date, else an hour and a minute. -/
theorem sound_of_three (hzero : ¬ ((piecesOf m s).f.any fun r => (toNumber .int m r).2 = 0) = true)
    (hn : (piecesOf m s).f.length = 3) : Sound m s low_bound ↔ WellWritten m s (layout m s) := by
  have hread : ∀ this, fromString m s low_bound this = (piecesOf m s).case3 low_bound { this with dayOfWeek := 0 } := by
    intro this
    rw [fromString, if_neg hzero, if_neg (by omega), if_neg (by omega), if_neg (by omega), if_neg (by omega), if_pos hn]
  rw [layout, if_neg hzero, if_neg (by omega), if_neg (by omega), if_pos hn]
  by_cases hcolon : 0 < findCharacter m s Ch.colon
  · rw [if_pos hcolon, sound_clock_iff (n := 3) (by decide) fun this => by
      rw [hread, Pieces.case3, if_pos (show 0 < findCharacter (piecesOf m s).m (piecesOf m s).s _ from hcolon)],
      validClock_millSecond]
    simp [WellWritten]
  rw [if_neg hcolon]
  have hdate : ∀ this, fromString m s low_bound this = (piecesOf m s).tryDate { this with
      dayOfWeek := 0
      hour := if low_bound then 0 else 23
      minute := if low_bound then 0 else 59
      second := if low_bound then 0 else 59
      millSecond := if low_bound then 0 else 999 } 3 ((piecesOf m s).case2 low_bound) := by
    intro this
    rw [hread, Pieces.case3, if_neg (show ¬ 0 < findCharacter (piecesOf m s).m (piecesOf m s).s _ from hcolon)]
  by_cases hd : IsDate (piecesOf m s).num
  · rw [if_pos hd, sound_dated_iff (x := piecesOf m s) (n := 3) (by decide) fun this => by
      rw [hdate, tryDate_of_date hd]]
    simp [WellWritten, valid_bounds]
  · rw [if_neg hd, sound_clock_iff (n := 2) (by decide) fun this => by
      obtain ⟨year, month, day, heq⟩ := tryDate_of_not (x := piecesOf m s) hd
      rw [hdate, heq, case2_eq], validClock_second]
    simp [WellWritten]

theorem sound_of_two (hzero : ¬ ((piecesOf m s).f.any fun r => (toNumber .int m r).2 = 0) = true)
    (hn : (piecesOf m s).f.length = 2) : Sound m s low_bound ↔ WellWritten m s (layout m s) := by
  have hread : ∀ this, fromString m s low_bound this = (piecesOf m s).case2 low_bound { this with dayOfWeek := 0 } := by
    intro this
    rw [fromString, if_neg hzero, if_neg (by omega), if_neg (by omega), if_neg (by omega), if_neg (by omega),
      if_neg (by omega), if_pos hn]
  rw [layout, if_neg hzero, if_neg (by omega), if_neg (by omega), if_neg (by omega), if_pos hn,
    sound_clock_iff (n := 2) (by decide) fun this => by rw [hread, case2_eq], validClock_second]
  simp [WellWritten]

/-- Digits without a separator. With fourteen of them the minute is what it was before. -/
theorem sound_of_one (hzero : ¬ ((piecesOf m s).f.any fun r => (toNumber .int m r).2 = 0) = true)
    (hn : (piecesOf m s).f.length = 1) : Sound m s low_bound ↔ WellWritten m s (layout m s) := by
  have hread : ∀ this, fromString m s low_bound this = (piecesOf m s).case1 low_bound { this with dayOfWeek := 0 } := by
    intro this
    rw [fromString, if_neg hzero, if_neg (by omega), if_neg (by omega), if_neg (by omega), if_neg (by omega),
      if_neg (by omega), if_neg (by omega), if_pos hn]
  have hs : (piecesOf m s).s.getLength = s.getLength := rfl
  rw [layout, if_neg hzero, if_neg (by omega), if_neg (by omega), if_neg (by omega), if_neg (by omega)]
  by_cases h8 : s.getLength = 8
  · have hset : ∀ this, fromString m s low_bound this =
        (⟨unsigned m s / 10000, unsigned m s % 10000 / 100, unsigned m s % 100, 0, if low_bound then 0 else 23,
          if low_bound then 0 else 59, if low_bound then 0 else 59, if low_bound then 0 else 999⟩, 3) := by
      intro this
      rw [hread, Pieces.case1, if_pos (hs.trans h8)]
      rfl
    rw [if_pos ⟨hn, .inl h8⟩, h8, sound_of_const hset (show (0 : ℤ) < 3 by norm_num)]
    simp [WellWritten, Fields.Valid, valid_bounds]
  by_cases h14 : s.getLength = 14
  · rw [if_pos ⟨hn, .inr (.inl h14)⟩, h14]
    refine iff_of_false (fun hsound => ?_) (fun hwell => hwell.1 rfl)
    have h := hsound ⟨0, 0, 0, 0, 0, 99, 0, 0⟩
    rw [hread, Pieces.case1, if_neg (by omega), if_pos (hs.trans h14)] at h
    have hminute : (99 : ℤ) ≤ 59 := (h (show (0 : ℤ) < 6 by norm_num)).1.2.2.1.2
    omega
  by_cases h12 : s.getLength = 12
  · have hset : ∀ this, fromString m s low_bound this =
        (⟨unsigned m (subStr s 0 8) / 10000, unsigned m (subStr s 0 8) % 10000 / 100, unsigned m (subStr s 0 8) % 100,
          0, unsigned m (subStr s 8 4) / 100, unsigned m (subStr s 8 4) % 100, if low_bound then 0 else 59,
          if low_bound then 0 else 999⟩, 5) := by
      intro this
      rw [hread, Pieces.case1, if_neg (by omega), if_neg (by omega), if_pos (hs.trans h12)]
      rfl
    rw [if_pos ⟨hn, .inr (.inr h12)⟩, h12, sound_of_const hset (show (0 : ℤ) < 5 by norm_num)]
    simp [WellWritten, Fields.Valid, validClock_second]
  · rw [if_neg (by omega)]
    refine iff_of_true (sound_of_nonpos fun this => ?_) trivial
    rw [hread, Pieces.case1, if_neg (by omega), if_neg (by omega), if_neg (by omega)]

end Set

/-- **What `FromString` accepts.** A positive number is returned with a point in time in fields that were all set, if and
only if the numbers are one in the layout the text is read in. -/
theorem sound_iff (m : Mem) (s : Ref) (low_bound : Bool) :
    Sound m s low_bound ↔ WellWritten m s (layout m s) := by
  by_cases hzero : ((piecesOf m s).f.any fun r => (toNumber .int m r).2 = 0) = true
  · rw [layout, if_pos hzero]
    refine iff_of_true (sound_of_nonpos fun this => ?_) trivial
    rw [fromString, if_pos hzero]
    exact show (-100 : ℤ) ≤ 0 by norm_num
  by_cases h7 : (piecesOf m s).f.length = 7
  · exact sound_of_seven hzero h7
  by_cases h6 : (piecesOf m s).f.length = 6
  · exact sound_of_six hzero h6
  by_cases h5 : (piecesOf m s).f.length = 5
  · exact sound_of_five hzero h5
  by_cases h4 : (piecesOf m s).f.length = 4
  · exact sound_of_four hzero h4
  by_cases h3 : (piecesOf m s).f.length = 3
  · exact sound_of_three hzero h3
  by_cases h2 : (piecesOf m s).f.length = 2
  · exact sound_of_two hzero h2
  by_cases h1 : (piecesOf m s).f.length = 1
  · exact sound_of_one hzero h1
  · rw [layout, if_neg hzero, if_neg (by omega), if_neg h4, if_neg h3, if_neg h2, if_neg (by tauto)]
    refine iff_of_true (sound_of_nonpos fun this => ?_) trivial
    rw [fromString, if_neg hzero, if_neg h7, if_neg h6, if_neg h5, if_neg h4, if_neg h3, if_neg h2, if_neg h1]

/-- The text `25:61`. -/
def noTime : List UInt8 := [0x32, 0x35, 0x3a, 0x36, 0x31]

/-- `25:61` is taken for an hour and a minute. -/
theorem sound_fails : ¬ Sound (ofBytes 1 noTime) ⟨1, 6⟩ true := by
  intro hsound
  have hread : fromString (ofBytes 1 noTime) ⟨1, 6⟩ true ⟨0, 0, 0, 0, 0, 0, 0, 0⟩ = (⟨1970, 1, 1, 0, 25, 61, 0, 0⟩, 2) := by
    decide
  have h := hsound ⟨0, 0, 0, 0, 0, 0, 0, 0⟩
  rw [hread] at h
  have hhour : (25 : ℤ) ≤ 23 := (h (show (0 : ℤ) < 2 by norm_num)).1.2.1.2
  omega

end Cpcf.Os.Timestamp
