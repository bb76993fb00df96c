import Cpcf.Lib.Clock
import Cpcf.Os.Timestamp

/-!
`GetDateTime` and `SetDateTime` of `os::Timestamp`: milliseconds since 1970 and the fields of UTC.

The milliseconds are split off by a division towards zero, which goes to the second after the one that a time before
1970 lies in, and leaves milliseconds below zero. The second before 1970 is `-1`, the error of `timegm`.
-/

namespace Cpcf.Os.Timestamp

open Cpcf.Lib.Calendar Cpcf.Lib.Word

variable {gmtime : ℤ → Option Tm} {timegm : Tm → ℤ} {x : Moment}

/-- The fields of UTC at a time of day on a date. -/
def tmAt (x : Moment) : Tm :=
  ⟨x.second, x.minute, x.hour, x.date.day, x.date.month - 1, x.date.year - 1900, x.date.weekday,
    beforeMonth x.date.year x.date.month + x.date.day - 1, 0⟩

/-- The fields at a time of day on a date, and milliseconds after it. -/
def fieldsAt (x : Moment) (ms : ℕ) : Fields :=
  ⟨x.date.year, x.date.month, x.date.day, x.date.weekday, x.hour, x.minute, x.second, ms⟩

/-- The years from 1 to 9999. -/
def InYears (x : Moment) : Prop := 1 ≤ x.date.year ∧ x.date.year ≤ 9999

/-- `gmtime` and `timegm` convert between seconds since 1970 and the fields of UTC. `timegm` does not look at the day of
the week, the day of the year and the summer time. -/
structure Utc (gmtime : ℤ → Option Tm) (timegm : Tm → ℤ) : Prop where
  gmtime_eq : ∀ x, InYears x → gmtime x.seconds = some (tmAt x)
  timegm_eq : ∀ x wday yday isdst, InYears x →
    timegm { tmAt x with tm_wday := wday, tm_yday := yday, tm_isdst := isdst } = x.seconds

/-- The seconds of these years. -/
theorem seconds_bounds (hx : InYears x) : -719528 * 86400 ≤ x.seconds ∧ x.seconds ≤ 400000000000 := by
  have h1 := x.date.dayNumber_le
  have h2 : beforeYear (x.date.year + 1) ≤ beforeYear 10000 := beforeYear_mono (Nat.succ_le_succ hx.2)
  have h3 := beforeYear_le 10000
  have h4 := Civil.dayNumber_epoch
  have h5 := x.timeOfDay_lt
  have h6 := x.date.lt_dayNumber
  unfold Moment.seconds Civil.sinceEpoch
  omega

/-- The milliseconds are those of the division towards zero, whether there are fields or not. -/
theorem getDateTime_millSecond (gmtime : ℤ → Option Tm) (timestamp : ℤ) (fields : Fields) :
    (getDateTime gmtime timestamp fields).1.millSecond = intOf (timestamp.tmod 1000) := by
  simp only [getDateTime]
  cases gmtime (timestamp.tdiv 1000) <;> rfl

/-- The fields from `GetDateTime`, where the time is not split before 1970. -/
theorem getDateTime_eq (h : Utc gmtime timegm) (hx : InYears x) {ms : ℕ} (hms : ms < 1000)
    (hsplit : 0 ≤ x.seconds ∨ ms = 0) (fields : Fields) :
    getDateTime gmtime (1000 * x.seconds + ms) fields = (fieldsAt x ms, true) := by
  have hquot : (1000 * x.seconds + ms).tdiv 1000 = x.seconds := by
    obtain hnn | rfl := hsplit
    · rw [Int.tdiv_eq_ediv_of_nonneg (by omega)]
      omega
    · rw [Nat.cast_zero, add_zero, Int.mul_tdiv_cancel_left _ (by norm_num)]
  have hrem : (1000 * x.seconds + ms).tmod 1000 = ms := by
    rw [Int.tmod_def, hquot]
    omega
  have hint : intOf ms = ms := intOf_eq (by omega) (by omega)
  simp only [getDateTime, hquot, hrem, hint, h.gmtime_eq x hx, Option.elim_some, tmAt, fieldsAt, Prod.mk.injEq, and_true]
  ext <;> simp

/-- `SetDateTime` of the fields. -/
theorem setDateTime_eq (h : Utc gmtime timegm) (hx : InYears x) {ms : ℕ} (hms : ms < 1000) (timestamp : ℤ) :
    setDateTime timegm timestamp (fieldsAt x ms) =
      if x.seconds = -1 then (timestamp, false) else (1000 * x.seconds + ms, true) := by
  have hbounds := seconds_bounds hx
  have hgm := h.timegm_eq x 0 0 0 hx
  have hlong : longOf (longOf (x.seconds * 1000) + ms) = 1000 * x.seconds + ms := by
    rw [longOf_eq (x := x.seconds * 1000) (by omega) (by omega), longOf_eq (by omega) (by omega)]
    ring
  simp only [tmAt] at hgm
  simp only [setDateTime, fieldsAt, hgm, hlong]

/-- **Time stamps and fields of UTC.** For a time stamp of the years 1 to 9999, `GetDateTime` gives the fields of its
time, with milliseconds from 0 to 999, and `SetDateTime` gives the time stamp back, if and only if it is not negative,
or a whole number of seconds other than the one before 1970. -/
theorem utc_round_trip_iff (h : Utc gmtime timegm) (hx : InYears x) {ms : ℕ} (hms : ms < 1000) {ts : ℤ}
    (hts : ts = 1000 * x.seconds + ms) (fields : Fields) (fresh : ℤ) :
    getDateTime gmtime ts fields = (fieldsAt x ms, true) ∧ setDateTime timegm fresh (fieldsAt x ms) = (ts, true) ↔
      0 ≤ ts ∨ 1000 ∣ ts ∧ ts ≠ -1000 := by
  rw [hts, setDateTime_eq h hx hms]
  constructor
  · rintro ⟨hget, hset⟩
    have hsecond : x.seconds ≠ -1 := by
      intro heq
      rw [if_pos heq] at hset
      exact absurd (congrArg Prod.snd hset) Bool.false_ne_true
    by_cases hnn : 0 ≤ 1000 * x.seconds + (ms : ℤ)
    · exact .inl hnn
    · -- the milliseconds are not positive, and those of the fields are not negative
      have hmill : intOf ((1000 * x.seconds + ms).tmod 1000) = ms := by
        rw [← getDateTime_millSecond gmtime _ fields, hget, fieldsAt]
      have hrange : -1000 < (1000 * x.seconds + (ms : ℤ)).tmod 1000 ∧ (1000 * x.seconds + (ms : ℤ)).tmod 1000 ≤ 0 := by
        have hneg := Int.neg_tmod (-(1000 * x.seconds + (ms : ℤ))) 1000
        have hpos : 0 ≤ -(1000 * x.seconds + (ms : ℤ)) := by omega
        rw [neg_neg, Int.tmod_eq_emod_of_nonneg hpos] at hneg
        omega
      obtain ⟨hlow, hhigh⟩ := hrange
      rw [intOf_eq (by omega) (by omega)] at hmill
      have hzero : ms = 0 := by omega
      exact .inr ⟨by omega, by omega⟩
  · intro hcond
    have hsplit : 0 ≤ x.seconds ∨ ms = 0 := by omega
    exact ⟨getDateTime_eq h hx hms hsplit fields, if_neg (by omega)⟩

/-! ### The calendar's own conversions -/

/-- `gmtime`, from the year 0 on. -/
def gmtimeOf (t : ℤ) : Option Tm := if -719528 * 86400 ≤ t then some (tmAt (Moment.ofSeconds t)) else none

/-- `timegm`. -/
def timegmOf (t : Tm) : ℤ :=
  let year := (t.tm_year + 1900).toNat
  let days := beforeYear year + beforeMonth year (t.tm_mon + 1).toNat + t.tm_mday - Civil.epoch.dayNumber
  86400 * days + 3600 * t.tm_hour + 60 * t.tm_min + t.tm_sec

theorem utc_calendar : Utc gmtimeOf timegmOf where
  gmtime_eq x hx := by
    rw [gmtimeOf, if_pos (by have := seconds_bounds hx; omega), Moment.ofSeconds_seconds]
  timegm_eq x wday yday isdst hx := by
    have hyear : ((x.date.year : ℤ) - 1900 + 1900).toNat = x.date.year := by omega
    have hmonth : ((x.date.month : ℤ) - 1 + 1).toNat = x.date.month := by omega
    simp only [timegmOf, tmAt, hyear, hmonth, Moment.seconds, Civil.sinceEpoch]
    generalize Civil.epoch.dayNumber = n
    simp only [Civil.dayNumber]
    push_cast
    ring

/-- The last seconds of a leap day. -/
def leapDay : Moment :=
  ⟨⟨2024, 2, 29, by decide, by decide, by decide, by decide⟩, 23, 59, 58, by decide, by decide, by decide⟩

theorem utc_round_trip_leapDay :
    getDateTime gmtimeOf (1000 * leapDay.seconds + 789) (fieldsAt leapDay 0) = (fieldsAt leapDay 789, true) ∧
      setDateTime timegmOf 0 (fieldsAt leapDay 789) = (1000 * leapDay.seconds + 789, true) := by
  have hafter : Civil.epoch.dayNumber < leapDay.date.dayNumber := Civil.dayNumber_lt_iff.mpr (.inl (by decide))
  have hnn : 0 ≤ 1000 * leapDay.seconds + 789 := by
    unfold Moment.seconds Civil.sinceEpoch
    omega
  exact (utc_round_trip_iff utc_calendar ⟨by decide, by decide⟩ (by decide) rfl (fieldsAt leapDay 0) 0).mpr (.inl hnn)

/-- The last second of 1969. -/
def lastSecond : Moment :=
  ⟨⟨1969, 12, 31, Civil.first_le_last, Civil.last_le_last, Civil.first_le_lastDay, by decide⟩, 23, 59, 59, by decide, by decide, by decide⟩

theorem seconds_lastSecond : lastSecond.seconds = -1 := by
  have htomorrow : lastSecond.date.tomorrow = Civil.epoch := by
    rw [Civil.tomorrow, dif_neg (by decide)]
    rfl
  have hnumber := lastSecond.date.dayNumber_tomorrow
  rw [htomorrow] at hnumber
  simp only [Moment.seconds, Civil.sinceEpoch, hnumber]
  generalize lastSecond.date.dayNumber = n
  simp only [lastSecond]
  omega

/-- The millisecond before 1970 comes out as `-1` milliseconds, and the second before it as an error. -/
theorem utc_round_trip_fails :
    (¬ ∀ (x : Moment) (ms : ℕ), InYears x → ms < 1000 →
      (getDateTime gmtimeOf (1000 * x.seconds + ms) (fieldsAt x 0)).1.millSecond = ms) ∧
    ¬ ∀ (x : Moment) (ms : ℕ), InYears x → ms < 1000 → (setDateTime timegmOf 0 (fieldsAt x ms)).2 = true := by
  have hyears : InYears lastSecond := ⟨by decide, by decide⟩
  refine ⟨?_, ?_⟩
  · intro h
    have hmill := h lastSecond 999 hyears (by decide)
    rw [seconds_lastSecond, getDateTime_millSecond] at hmill
    exact absurd hmill (by decide)
  · intro h
    have hset := h lastSecond 0 hyears (by decide)
    rw [setDateTime_eq utc_calendar hyears (by decide), if_pos seconds_lastSecond] at hset
    cases hset

end Cpcf.Os.Timestamp
