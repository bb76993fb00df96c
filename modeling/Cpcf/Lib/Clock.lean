import Cpcf.Lib.Calendar

/-!
Times of day on the dates of the calendar, and the seconds since 1970-01-01.

The dates are found one after another from the first of the year 0, so that there is one for every day number, and a time
of day on it for every second.
-/

namespace Cpcf.Lib.Calendar

namespace Civil

/-- The day after. -/
def tomorrow (c : Civil) : Civil :=
  if h : c.day < monthLength c.year c.month then c.sameMonth (c.day + 1) (by omega) h else c.nextMonthStart

theorem dayNumber_tomorrow (c : Civil) : c.tomorrow.dayNumber = c.dayNumber + 1 := by
  rw [tomorrow]
  split
  · rename_i h
    have := c.dayNumber_sameMonth (d := c.day + 1) (by omega) h
    omega
  · rename_i h
    exact dayNumber_nextMonthStart_of_last (le_antisymm c.day_le (not_lt.mp h))

/-- The first day of the year 0. -/
def first : Civil := ⟨0, 1, 1, one_le_first, first_le_last, one_le_first, by decide⟩

/-- The date `n` days after the first day of the year 0. -/
def ofNumber : ℕ → Civil
  | 0 => first
  | n + 1 => (ofNumber n).tomorrow

theorem dayNumber_ofNumber (n : ℕ) : (ofNumber n).dayNumber = n + 1 := by
  induction n with
  | zero => rfl
  | succ n ih => rw [ofNumber, dayNumber_tomorrow, ih]

end Civil

/-! ### Times of day -/

/-- A time of day on a date. -/
@[ext] structure Moment where
  date : Civil
  hour : ℕ
  minute : ℕ
  second : ℕ
  hour_lt : hour < 24
  minute_lt : minute < 60
  second_lt : second < 60

namespace Moment

/-- The seconds since the beginning of 1970-01-01. -/
def seconds (x : Moment) : ℤ := 86400 * x.date.sinceEpoch + (3600 * x.hour + 60 * x.minute + x.second : ℕ)

variable {x y : Moment} {t : ℤ}

theorem timeOfDay_lt (x : Moment) : 3600 * x.hour + 60 * x.minute + x.second < 86400 := by
  have := x.hour_lt
  have := x.minute_lt
  have := x.second_lt
  omega

/-- A second belongs to one time. -/
theorem seconds_inj (h : x.seconds = y.seconds) : x = y := by
  have h1 := x.hour_lt
  have h2 := x.minute_lt
  have h3 := x.second_lt
  have h4 := y.hour_lt
  have h5 := y.minute_lt
  have h6 := y.second_lt
  have hx := x.timeOfDay_lt
  have hy := y.timeOfDay_lt
  unfold seconds Civil.sinceEpoch at h
  have hdate : x.date = y.date := Civil.dayNumber_inj (by omega)
  rw [hdate] at h
  exact Moment.ext hdate (by omega) (by omega) (by omega)

/-- The time at a second. -/
def ofSeconds (t : ℤ) : Moment where
  date := Civil.ofNumber (t / 86400 + 719528).toNat
  hour := (t % 86400).toNat / 3600
  minute := (t % 86400).toNat / 60 % 60
  second := (t % 86400).toNat % 60
  hour_lt := by omega
  minute_lt := by omega
  second_lt := by omega

theorem hour_minute_second (n : ℕ) : 3600 * (n / 3600) + 60 * (n / 60 % 60) + n % 60 = n := by
  have hminutes := Nat.div_add_mod (n / 60) 60
  have hseconds := Nat.div_add_mod n 60
  rw [Nat.div_div_eq_div_mul] at hminutes
  omega

/-- From the year 0 on there is a time at every second. -/
theorem seconds_ofSeconds (h : -719528 * 86400 ≤ t) : (ofSeconds t).seconds = t := by
  have hnumber := Civil.dayNumber_ofNumber (t / 86400 + 719528).toNat
  have hepoch := Civil.dayNumber_epoch
  simp only [seconds, ofSeconds, Civil.sinceEpoch]
  rw [hour_minute_second]
  omega

theorem ofSeconds_seconds (x : Moment) : ofSeconds x.seconds = x := by
  refine seconds_inj (seconds_ofSeconds ?_)
  have hday := x.date.lt_dayNumber
  have hepoch := Civil.dayNumber_epoch
  unfold seconds Civil.sinceEpoch
  omega

end Moment

end Cpcf.Lib.Calendar
