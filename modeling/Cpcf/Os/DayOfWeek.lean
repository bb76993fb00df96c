import Cpcf.Os.Date32
import Cpcf.Lib.Word

/-!
The day of the week and the month of a day of the year, of `os::Timestamp`.

`GetDayOfWeek` takes the days since 1970-01-04, a Sunday, modulo seven, as a `UINT`: of a day before that Sunday it takes
`2 ^ 32` more, which seven does not divide. `GetMonthFromDays` looks the month up in a table of the days of a year of 365
days.
-/

namespace Cpcf.Os

open Cpcf.Lib Cpcf.Lib.Calendar Cpcf.Lib.Word

namespace Timestamp

/-! ### The code -/

/-- A number as a `UINT`. -/
def uintOf (x : ℤ) : ℤ := x % 2 ^ 32

/-- `DaysSince1970(year)`. -/
def daysSince1970 (year : ℤ) : ℤ :=
  let year := year - 1
  uintOf (365 * year + year.tdiv 400 - year.tdiv 100 + year.tdiv 4 - 719162)

/-- The table `days` of `DaysSinceJan1`. -/
def days : Bool → List ℕ
  | false => [0, 31, 59, 90, 120, 151, 181, 212, 243, 273, 304, 334]
  | true => [0, 31, 60, 91, 121, 152, 182, 213, 244, 274, 305, 335]

/-- `DaysSinceJan1(year, month, day)`. -/
def daysSinceJan1 (year month day : ℕ) : ℤ := uintOf ((days (isLeapYear year)).getD (month - 1) 0 + day - 1)

/-- `GetDayOfWeek(year, month, day)`. -/
def getDayOfWeek (year month day : ℕ) : ℤ := uintOf (daysSince1970 year + daysSinceJan1 year month day - 3) % 7

/-- The table `month_table` of `GetMonthFromDays`. -/
def monthTable : List ℕ :=
  List.replicate 31 1 ++ List.replicate 28 2 ++ List.replicate 31 3 ++ List.replicate 30 4 ++
  List.replicate 31 5 ++ List.replicate 30 6 ++ List.replicate 31 7 ++ List.replicate 31 8 ++
  List.replicate 30 9 ++ List.replicate 31 10 ++ List.replicate 30 11 ++ List.replicate 31 12

/-- `month_table[i]`, if there is such a place. -/
def monthAt (i : ℤ) : Option ℕ := if 0 ≤ i then monthTable[i.toNat]? else none

/-- `GetMonthFromDays(DaysSinceJan1, year)`. -/
def getMonthFromDays (daysSinceJan1 : ℤ) (year : ℕ) : Option ℕ :=
  if daysSinceJan1 ≤ 31 + 28 then monthAt daysSinceJan1
  else if !isLeapYear year then monthAt daysSinceJan1
  else monthAt (daysSinceJan1 - 1)

/-! ### The day of the year -/

variable {c : Civil}

/-- A leap year has one more day before every month from March on. -/
theorem beforeMonth_eq (y : ℕ) {m : ℕ} (h1 : 1 ≤ m) (h2 : m ≤ 12) :
    beforeMonth y m = beforeMonth 1 m + if IsLeap y ∧ 3 ≤ m then 1 else 0 := by
  induction m, h1 using Nat.le_induction with
  | base => simp
  | succ m hm ih =>
    have hone : ¬ IsLeap 1 := by decide
    rw [beforeMonth_succ y hm, beforeMonth_succ 1 hm, ih (by omega)]
    unfold monthLength
    by_cases hl : IsLeap y <;> simp only [hl, hone, if_true, if_false, true_and, false_and] <;> split_ifs <;> omega

/-- The table gives the days before a month. -/
theorem days_eq (y : ℕ) {m : ℕ} (h1 : 1 ≤ m) (h2 : m ≤ 12) :
    (days (isLeapYear y)).getD (m - 1) 0 = beforeMonth y m := by
  have hone : ∀ m ∈ Finset.Icc 1 12, (days false).getD (m - 1) 0 = beforeMonth 1 m ∧
      (days true).getD (m - 1) 0 = beforeMonth 1 m + if 3 ≤ m then 1 else 0 := by decide
  obtain ⟨hcommon, hleap⟩ := hone m (Finset.mem_Icc.mpr ⟨h1, h2⟩)
  rw [beforeMonth_eq y h1 h2]
  by_cases hl : IsLeap y
  · rw [(isLeapYear_iff y).mpr hl, hleap]
    simp only [hl, true_and]
  · rw [Bool.eq_false_iff.mpr fun h => hl ((isLeapYear_iff y).mp h), hcommon, if_neg fun h => hl h.1, add_zero]

theorem beforeMonth_le (c : Civil) : beforeMonth c.year c.month + c.day ≤ 372 := by
  have h1 := c.day_le
  have h2 := beforeMonth_succ c.year c.one_le_month
  have h3 : beforeMonth c.year (c.month + 1) ≤ beforeMonth c.year 13 := beforeMonth_mono c.year (Nat.succ_le_succ c.month_le)
  have h4 := yearLength_le c.year
  rw [beforeMonth_thirteen] at h3
  omega

theorem daysSinceJan1_eq (c : Civil) :
    daysSinceJan1 c.year c.month c.day = beforeMonth c.year c.month + c.day - 1 := by
  have hle := beforeMonth_le c
  have hday := c.one_le_day
  rw [daysSinceJan1, uintOf, days_eq c.year c.one_le_month c.month_le]
  omega

/-! ### The day of the week -/

theorem uintOf_add (a b : ℤ) : uintOf (uintOf a + b) = uintOf (a + b) := Int.emod_add_emod _ _ _

/-- The sum is the number of days since the first Sunday of 1970, as a `UINT`. -/
theorem getDayOfWeek_eq (hy : 1 ≤ c.year) : getDayOfWeek c.year c.month c.day = uintOf (c.sinceEpoch - 3) % 7 := by
  obtain ⟨y, hyear⟩ := Nat.exists_eq_add_of_le' hy
  have hbefore := beforeYear_succ_eq y
  have hepoch := Civil.dayNumber_epoch
  have hsum : 365 * ((c.year : ℤ) - 1) + ((c.year : ℤ) - 1).tdiv 400 - ((c.year : ℤ) - 1).tdiv 100 +
      ((c.year : ℤ) - 1).tdiv 4 - 719162 = beforeYear c.year - 719528 := by
    rw [hyear, Int.tdiv_eq_ediv_of_nonneg (by omega), Int.tdiv_eq_ediv_of_nonneg (by omega),
      Int.tdiv_eq_ediv_of_nonneg (by omega)]
    omega
  have hdays : c.sinceEpoch = beforeYear c.year - 719528 + (beforeMonth c.year c.month + c.day - 1) := by
    rw [Civil.sinceEpoch, hepoch, Civil.dayNumber]
    omega
  rw [getDayOfWeek, daysSince1970, hsum, daysSinceJan1_eq, hdays, add_sub_assoc (uintOf _), uintOf_add,
    add_sub_assoc (_ - 719528 : ℤ)]

theorem getDayOfWeek_iff (hy : 1 ≤ c.year) :
    getDayOfWeek c.year c.month c.day = c.weekday ↔ 7 ∣ (c.sinceEpoch - 3) / 2 ^ 32 := by
  have hsplit := Int.emod_add_mul_ediv (c.sinceEpoch - 3) (2 ^ 32)
  have hday : (c.sinceEpoch + 4) % 7 = (c.sinceEpoch - 3) % 7 := by omega
  have hcoprime : IsCoprime (7 : ℤ) (2 ^ 32) := by
    rw [Int.isCoprime_iff_gcd_eq_one]
    rfl
  have hdiff : (c.sinceEpoch - 3) % 2 ^ 32 - (c.sinceEpoch - 3) = -(2 ^ 32 * ((c.sinceEpoch - 3) / 2 ^ 32)) := by
    linarith
  rw [getDayOfWeek_eq hy, Civil.weekday, uintOf, hday, Int.emod_eq_emod_iff_emod_sub_eq_zero, hdiff,
    ← Int.dvd_iff_emod_eq_zero, dvd_neg]
  exact ⟨hcoprime.dvd_of_dvd_mul_left, fun h => h.mul_left _⟩

/-! ### The month -/

/-- The table has the months of a year that is no leap year. -/
theorem monthAt_eq {m k : ℕ} (h1 : 1 ≤ m) (h2 : m ≤ 12) (hk : k < monthLength 1 m) :
    monthAt (beforeMonth 1 m + k) = some m := by
  have htable : ∀ m ∈ List.range' 1 12, (monthTable.drop ((days false).getD (m - 1) 0)).take (monthLength 1 m) =
      List.replicate (monthLength 1 m) m := by
    decide
  have hbefore : (days false).getD (m - 1) 0 = beforeMonth 1 m := days_eq 1 h1 h2
  have hplace := congrArg (fun l => l[k]?) (htable m (List.mem_range'_1.mpr ⟨h1, by omega⟩))
  rw [List.getElem?_take_of_lt hk, List.getElem?_drop, List.getElem?_replicate, if_pos hk, hbefore] at hplace
  rw [monthAt, if_pos (by omega), show ((beforeMonth 1 m : ℤ) + k).toNat = beforeMonth 1 m + k by omega, hplace]

theorem beforeMonth_three : beforeMonth 1 3 = 59 := by decide

/-- Away from the 29th of February the table is read at the day of a year that is no leap year. -/
theorem getMonthFromDays_eq (h : ¬ (c.month = 2 ∧ c.day = 29)) :
    getMonthFromDays (beforeMonth c.year c.month + c.day - 1) c.year = some c.month := by
  have h1 := c.one_le_day
  have h2 := c.day_le
  have hbefore := beforeMonth_eq c.year c.one_le_month c.month_le
  have hlen : c.day - 1 < monthLength 1 c.month := by
    have hone : ¬ IsLeap 1 := by decide
    simp only [monthLength, hone, if_false] at h2 ⊢
    split_ifs at h2 ⊢ <;> omega
  have htable := monthAt_eq c.one_le_month c.month_le hlen
  have hthree := beforeMonth_three
  unfold getMonthFromDays
  by_cases hlate : IsLeap c.year ∧ 3 ≤ c.month
  · have hlow := beforeMonth_mono 1 hlate.2
    rw [if_pos hlate] at hbefore
    rw [if_neg (by omega), (isLeapYear_iff c.year).mpr hlate.1, Bool.not_true, if_neg Bool.false_ne_true]
    rw [← htable]
    congr 1
    omega
  · have hsame : (beforeMonth c.year c.month : ℤ) + c.day - 1 = beforeMonth 1 c.month + (c.day - 1 : ℕ) := by
      rw [if_neg hlate] at hbefore
      omega
    rw [hsame, htable]
    -- in a leap year the day lies before March, and so in the first part of the table
    have hearly : IsLeap c.year → (beforeMonth 1 c.month : ℤ) + (c.day - 1 : ℕ) ≤ 31 + 28 := by
      intro hl
      have hm : c.month + 1 ≤ 3 := Nat.lt_of_not_le fun h3 => hlate ⟨hl, h3⟩
      have hnext := beforeMonth_succ 1 c.one_le_month
      have hmono := beforeMonth_mono 1 hm
      omega
    split
    · rfl
    · rename_i hbig
      rw [Bool.eq_false_iff.mpr fun hl => hbig (hearly ((isLeapYear_iff _).mp hl)), Bool.not_false, if_pos rfl]

/-- On the 29th of February the table is read at the first of March. -/
theorem getMonthFromDays_feb (h2 : c.month = 2) (h29 : c.day = 29) :
    getMonthFromDays (beforeMonth c.year c.month + c.day - 1) c.year = some 3 := by
  have hbefore : beforeMonth c.year 2 = 31 := by
    rw [beforeMonth_eq c.year (by omega) (by omega), if_neg (by omega)]
    rfl
  have hmarch : monthAt (beforeMonth 1 3 + 0) = some 3 := monthAt_eq (by omega) (by omega) (by decide)
  rw [beforeMonth_three] at hmarch
  rw [h2, h29, hbefore]
  exact hmarch

theorem getMonthFromDays_iff (c : Civil) :
    getMonthFromDays (intOf (daysSinceJan1 c.year c.month c.day)) c.year = some c.month ↔
      ¬ (c.month = 2 ∧ c.day = 29) := by
  have hle := beforeMonth_le c
  rw [daysSinceJan1_eq, intOf_eq (by omega) (by omega)]
  refine ⟨?_, getMonthFromDays_eq⟩
  rintro h ⟨h2, h29⟩
  rw [getMonthFromDays_feb h2 h29, h2] at h
  cases h

/-! ### Both -/

/-- **Day of the week and month.** The two formulas are right on a date of the years from 1 on if and only if seven
divides the whole periods of `2 ^ 32` days from 1970-01-04 to it, and it is no 29th of February. -/
theorem weekday_and_month_iff (c : Civil) (hy : 1 ≤ c.year) :
    getDayOfWeek c.year c.month c.day = c.weekday ∧
      getMonthFromDays (intOf (daysSinceJan1 c.year c.month c.day)) c.year = some c.month ↔
        7 ∣ (c.sinceEpoch - 3) / 2 ^ 32 ∧ ¬ (c.month = 2 ∧ c.day = 29) :=
  and_congr (getDayOfWeek_iff hy) (getMonthFromDays_iff c)

/-- The day after a 29th of February. -/
def firstOfMarch : Civil := ⟨2024, 3, 1, by decide, by decide, Civil.one_le_first, by decide⟩

theorem sinceEpoch_firstOfMarch : firstOfMarch.sinceEpoch = 19783 := by
  have h := beforeYear_eq (show 2024 = 2023 + 1 from rfl)
  have hmonth : beforeMonth 2024 3 = 60 := by decide
  rw [Civil.sinceEpoch, Civil.dayNumber_epoch, Civil.dayNumber_eq firstOfMarch (y := 2024) (m := 3) (d := 1) rfl rfl rfl,
    hmonth]
  generalize beforeYear 2024 = n at h ⊢
  omega

/-- It is a Friday. -/
theorem weekday_and_month_firstOfMarch : getDayOfWeek 2024 3 1 = 5 ∧
    getMonthFromDays (intOf (daysSinceJan1 2024 3 1)) 2024 = some 3 := by
  have hweekday : firstOfMarch.weekday = 5 := by
    rw [Civil.weekday, sinceEpoch_firstOfMarch]
    rfl
  have hcond : 7 ∣ (firstOfMarch.sinceEpoch - 3) / 2 ^ 32 ∧ ¬ (firstOfMarch.month = 2 ∧ firstOfMarch.day = 29) := by
    rw [sinceEpoch_firstOfMarch]
    decide
  obtain ⟨hday, hmonth⟩ := (weekday_and_month_iff firstOfMarch (by decide)).mpr hcond
  exact ⟨hday.trans hweekday, hmonth⟩

/-- 1970-01-01 was a Thursday and comes out as a Monday, and a 29th of February comes out in March. -/
theorem weekday_and_month_wrong :
    (¬ ∀ c : Civil, 1 ≤ c.year → getDayOfWeek c.year c.month c.day = c.weekday) ∧
      ¬ ∀ c : Civil, 1 ≤ c.year →
        getMonthFromDays (intOf (daysSinceJan1 c.year c.month c.day)) c.year = some c.month := by
  refine ⟨?_, ?_⟩
  · intro h
    have hday : getDayOfWeek 1970 1 1 = Civil.epoch.weekday := h Civil.epoch (by decide)
    have hthursday : Civil.epoch.weekday = 4 := by
      rw [Civil.weekday, Civil.sinceEpoch, sub_self]
      rfl
    rw [hthursday] at hday
    exact absurd hday (by decide)
  · intro h
    have hmonth := h ⟨2024, 2, 29, by decide, by decide, by decide, by decide⟩ (by decide)
    rw [getMonthFromDays_iff] at hmonth
    exact hmonth ⟨rfl, rfl⟩

end Timestamp

end Cpcf.Os
