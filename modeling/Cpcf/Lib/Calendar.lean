import Mathlib

/-!
The proleptic Gregorian calendar.

A date is a year, a month and a day of that month. Its day number counts the days of all years and months
before it, so that the day after a date has the next number, and dates are ordered as their numbers are.
-/

namespace Cpcf.Lib.Calendar

/-- Every fourth year is a leap year, except the centuries that 400 does not divide. -/
def IsLeap (y : ℕ) : Prop := 4 ∣ y ∧ ¬ 100 ∣ y ∨ 400 ∣ y

instance (y : ℕ) : Decidable (IsLeap y) := inferInstanceAs (Decidable (_ ∨ _))

/-- The days of month `m` (January is 1) of year `y`. -/
def monthLength (y m : ℕ) : ℕ :=
  if m = 2 then if IsLeap y then 29 else 28 else if m = 4 ∨ m = 6 ∨ m = 9 ∨ m = 11 then 30 else 31

theorem monthLength_bounds (y m : ℕ) : 28 ≤ monthLength y m ∧ monthLength y m ≤ 31 := by
  unfold monthLength
  split_ifs <;> omega

/-- The days of year `y` before month `m`. -/
def beforeMonth (y m : ℕ) : ℕ := ∑ i ∈ Finset.Ico 1 m, monthLength y i

/-- The days of year `y`. -/
def yearLength (y : ℕ) : ℕ := ∑ i ∈ Finset.Icc 1 12, monthLength y i

/-- The days of the years before `y`. -/
def beforeYear (y : ℕ) : ℕ := ∑ k ∈ Finset.range y, yearLength k

@[simp] theorem beforeMonth_one (y : ℕ) : beforeMonth y 1 = 0 := by simp [beforeMonth]

theorem beforeMonth_succ (y : ℕ) {m : ℕ} (hm : 1 ≤ m) : beforeMonth y (m + 1) = beforeMonth y m + monthLength y m := by
  unfold beforeMonth
  rw [Finset.sum_Ico_succ_top hm]

theorem beforeMonth_mono (y : ℕ) {m n : ℕ} (h : m ≤ n) : beforeMonth y m ≤ beforeMonth y n :=
  Finset.sum_le_sum_of_subset (Finset.Ico_subset_Ico_right h)

/-- The year ends before a thirteenth month. -/
theorem beforeMonth_thirteen (y : ℕ) : beforeMonth y 13 = yearLength y := rfl

theorem beforeMonth_twelve (y : ℕ) : beforeMonth y 12 + monthLength y 12 = yearLength y := by
  rw [← beforeMonth_succ y (by omega), beforeMonth_thirteen]

theorem beforeYear_succ (y : ℕ) : beforeYear (y + 1) = beforeYear y + yearLength y := Finset.sum_range_succ _ _

theorem yearLength_eq (y : ℕ) : yearLength y = if IsLeap y then 366 else 365 := by
  have hmonths : yearLength y = 337 + monthLength y 2 := by
    rw [← beforeMonth_thirteen]
    simp only [beforeMonth_succ y (Nat.le_add_left 1 _)]
    simp [monthLength]
    omega
  rw [hmonths, monthLength, if_pos rfl]
  split <;> rfl

/-- The days of the years before a year, by its number: the year 0 is a leap year. -/
theorem beforeYear_succ_eq (y : ℕ) : beforeYear (y + 1) + y / 100 = 365 * y + y / 4 + y / 400 + 366 := by
  induction y with
  | zero => rfl
  | succ y ih =>
    have hlen := yearLength_eq (y + 1)
    have h100 : 100 ∣ y + 1 → 4 ∣ y + 1 := (show 4 ∣ 100 by decide).trans
    have h400 : 400 ∣ y + 1 → 100 ∣ y + 1 := (show 100 ∣ 400 by decide).trans
    rw [beforeYear_succ]
    -- each quotient goes up by one where the year is a multiple
    simp only [Nat.succ_div]
    generalize y / 4 = a at ih ⊢
    generalize y / 100 = b at ih ⊢
    generalize y / 400 = c at ih ⊢
    by_cases hl : IsLeap (y + 1)
    · rw [if_pos hl] at hlen
      unfold IsLeap at hl
      split_ifs <;> omega
    · rw [if_neg hl] at hlen
      unfold IsLeap at hl
      split_ifs <;> omega

theorem beforeYear_eq {y z : ℕ} (h : z = y + 1) : beforeYear z + y / 100 = 365 * y + y / 4 + y / 400 + 366 :=
  h ▸ beforeYear_succ_eq y

theorem beforeYear_mono {y z : ℕ} (h : y ≤ z) : beforeYear y ≤ beforeYear z :=
  Finset.sum_le_sum_of_subset (Finset.range_mono h)

theorem yearLength_le (y : ℕ) : yearLength y ≤ 372 := by
  have h := Finset.sum_le_card_nsmul (Finset.Icc 1 12) (monthLength y) 31 fun m _ => (monthLength_bounds y m).2
  rw [Nat.card_Icc, smul_eq_mul] at h
  exact h

theorem beforeYear_le (y : ℕ) : beforeYear y ≤ 372 * y := by
  have h := Finset.sum_le_card_nsmul (Finset.range y) yearLength 372 fun k _ => yearLength_le k
  rw [Finset.card_range, smul_eq_mul, Nat.mul_comm] at h
  exact h

/-- A date of the calendar. -/
@[ext] structure Civil where
  year : ℕ
  month : ℕ
  day : ℕ
  one_le_month : 1 ≤ month
  month_le : month ≤ 12
  one_le_day : 1 ≤ day
  day_le : day ≤ monthLength year month

namespace Civil

/-- How many days there are up to and with a date. -/
def dayNumber (c : Civil) : ℕ := beforeYear c.year + beforeMonth c.year c.month + c.day

theorem dayNumber_eq (c : Civil) {y m d : ℕ} (hy : c.year = y) (hm : c.month = m) (hd : c.day = d) :
    c.dayNumber = beforeYear y + beforeMonth y m + d := hy ▸ hm ▸ hd ▸ rfl

theorem day_le_31 (c : Civil) : c.day ≤ 31 := c.day_le.trans (monthLength_bounds _ _).2

theorem lt_dayNumber (c : Civil) : beforeYear c.year < c.dayNumber := by
  have := c.one_le_day
  unfold dayNumber
  omega

/-- A date lies in its year. -/
theorem dayNumber_le (c : Civil) : c.dayNumber ≤ beforeYear (c.year + 1) := by
  have h1 := c.day_le
  have h2 := beforeMonth_succ c.year c.one_le_month
  have h3 : beforeMonth c.year (c.month + 1) ≤ beforeMonth c.year 13 := beforeMonth_mono c.year (Nat.succ_le_succ c.month_le)
  rw [beforeMonth_thirteen] at h3
  rw [beforeYear_succ]
  unfold dayNumber
  omega

/-- The order of the calendar: by year, then by month, then by day. -/
def Earlier (c e : Civil) : Prop :=
  c.year < e.year ∨ c.year = e.year ∧ (c.month < e.month ∨ c.month = e.month ∧ c.day < e.day)

theorem Earlier.dayNumber_lt {c e : Civil} (h : Earlier c e) : c.dayNumber < e.dayNumber := by
  obtain hy | ⟨hy, hm | ⟨hm, hd⟩⟩ := h
  · have h1 := c.dayNumber_le
    have h2 := beforeYear_mono (Nat.succ_le_of_lt hy)
    have h3 := e.lt_dayNumber
    exact h1.trans_lt (h2.trans_lt h3)
  · have h1 := c.day_le
    have h2 := beforeMonth_succ c.year c.one_le_month
    have h3 : beforeMonth c.year (c.month + 1) ≤ beforeMonth c.year e.month := beforeMonth_mono c.year hm
    have h4 := e.one_le_day
    unfold dayNumber
    rw [← hy]
    omega
  · unfold dayNumber
    rw [← hy, ← hm]
    omega

theorem earlier_trichotomy (c e : Civil) : Earlier c e ∨ c = e ∨ Earlier e c := by
  unfold Earlier
  rw [Civil.ext_iff]
  omega

/-- Day numbers are in the order of the calendar. -/
theorem dayNumber_lt_iff {c e : Civil} : c.dayNumber < e.dayNumber ↔ Earlier c e := by
  refine ⟨fun h => ?_, Earlier.dayNumber_lt⟩
  obtain h' | rfl | h' := earlier_trichotomy c e
  · exact h'
  · exact absurd h (Nat.lt_irrefl _)
  · exact absurd (h.trans h'.dayNumber_lt) (Nat.lt_irrefl _)

/-- A day number belongs to one date. -/
theorem dayNumber_inj {c e : Civil} (h : c.dayNumber = e.dayNumber) : c = e := by
  obtain h' | h' | h' := earlier_trichotomy c e
  · exact absurd h h'.dayNumber_lt.ne
  · exact h'
  · exact absurd h h'.dayNumber_lt.ne'

/-- The dates before a year are those whose numbers are not past the days before it. -/
theorem year_lt_iff {c : Civil} {y : ℕ} : c.year < y ↔ c.dayNumber ≤ beforeYear y := by
  constructor
  · intro h
    exact c.dayNumber_le.trans (beforeYear_mono h)
  · intro h
    by_contra hy
    have h1 := beforeYear_mono (Nat.not_lt.mp hy)
    exact absurd (h1.trans_lt c.lt_dayNumber) (Nat.not_lt.mpr h)

/-! ### The first day of a month -/

/-- The first of the month of a date. -/
def monthStart (c : Civil) : Civil where
  year := c.year
  month := c.month
  day := 1
  one_le_month := c.one_le_month
  month_le := c.month_le
  one_le_day := le_rfl
  day_le := by have := (monthLength_bounds c.year c.month).1; omega

/-- The first of the month after the one of a date. -/
def nextMonthStart (c : Civil) : Civil where
  year := if c.month = 12 then c.year + 1 else c.year
  month := if c.month = 12 then 1 else c.month + 1
  day := 1
  one_le_month := by split <;> omega
  month_le := by have := c.month_le; split <;> omega
  one_le_day := le_rfl
  day_le := (show 1 ≤ 28 by omega).trans (monthLength_bounds _ _).1

/-- The first of the month before the one of a date, in a year from 1 on. -/
def lastMonthStart (c : Civil) : Civil where
  year := if c.month = 1 then c.year - 1 else c.year
  month := if c.month = 1 then 12 else c.month - 1
  day := 1
  one_le_month := by have := c.one_le_month; split <;> omega
  month_le := by have := c.month_le; split <;> omega
  one_le_day := le_rfl
  day_le := (show 1 ≤ 28 by omega).trans (monthLength_bounds _ _).1

theorem dayNumber_monthStart (c : Civil) : c.monthStart.dayNumber + c.day = c.dayNumber + 1 := by
  simp only [monthStart, dayNumber]
  omega

/-- A month is as long as the way from its first day to the first day of the next one. -/
theorem dayNumber_nextMonthStart (c : Civil) :
    c.nextMonthStart.dayNumber = c.monthStart.dayNumber + monthLength c.year c.month := by
  simp only [nextMonthStart, monthStart, dayNumber]
  by_cases hm : c.month = 12
  · have h1 := beforeMonth_twelve c.year
    have h2 := beforeYear_succ c.year
    simp only [hm, if_true, beforeMonth_one]
    omega
  · have h1 := beforeMonth_succ c.year c.one_le_month
    simp only [if_neg hm]
    omega

theorem lastMonthStart_nextMonthStart (c : Civil) (hy : 1 ≤ c.year) : c.lastMonthStart.nextMonthStart = c.monthStart := by
  have h1 := c.one_le_month
  have h2 := c.month_le
  rw [Civil.ext_iff]
  simp only [lastMonthStart, nextMonthStart, monthStart, and_true]
  by_cases hm : c.month = 1
  · simp only [hm, if_true, and_true]
    omega
  · have h12 : c.month - 1 ≠ 12 := by omega
    simp only [if_neg hm, if_neg h12, true_and]
    omega

/-! ### The day after and the day before -/

/-- The day after, in the same month. -/
def sameMonth (c : Civil) (d : ℕ) (h1 : 1 ≤ d) (h2 : d ≤ monthLength c.year c.month) : Civil :=
  { c with day := d, one_le_day := h1, day_le := h2 }

theorem dayNumber_sameMonth (c : Civil) {d : ℕ} (h1 : 1 ≤ d) (h2 : d ≤ monthLength c.year c.month) :
    (c.sameMonth d h1 h2).dayNumber + c.day = c.dayNumber + d := by
  simp only [sameMonth, dayNumber]
  omega

/-- The first of the next month comes after the last day of a month. -/
theorem dayNumber_nextMonthStart_of_last {c : Civil} (h : c.day = monthLength c.year c.month) :
    c.nextMonthStart.dayNumber = c.dayNumber + 1 := by
  have h1 := c.dayNumber_nextMonthStart
  have h2 := c.dayNumber_monthStart
  omega

/-- The last day of the month before comes before the first of a month. -/
theorem exists_last_of_first {c : Civil} (hy : 1 ≤ c.year) (h : c.day = 1) :
    ∃ e : Civil, e.year = c.lastMonthStart.year ∧ e.month = c.lastMonthStart.month ∧
      e.day = monthLength c.lastMonthStart.year c.lastMonthStart.month ∧ e.dayNumber + 1 = c.dayNumber := by
  have hb := monthLength_bounds c.lastMonthStart.year c.lastMonthStart.month
  refine ⟨c.lastMonthStart.sameMonth _ (by omega) le_rfl, rfl, rfl, rfl, ?_⟩
  have h1 := c.lastMonthStart.dayNumber_sameMonth (by omega) le_rfl
  have h2 := c.lastMonthStart.dayNumber_nextMonthStart
  have h3 := c.lastMonthStart.dayNumber_monthStart
  have h4 := c.dayNumber_monthStart
  rw [lastMonthStart_nextMonthStart c hy] at h2
  omega

/-! ### The first of January 1970 -/

/-! The bounds of the first and the last month and day, which are the same for many dates. -/

theorem one_le_first : 1 ≤ 1 := by decide

theorem first_le_last : 1 ≤ 12 := by decide

theorem last_le_last : 12 ≤ 12 := by decide

theorem first_le_lastDay : 1 ≤ 31 := by decide

/-- 1970-01-01. -/
def epoch : Civil := ⟨1970, 1, 1, one_le_first, first_le_last, one_le_first, by decide⟩

/-- The days from 1970-01-01 to a date. -/
def sinceEpoch (c : Civil) : ℤ := c.dayNumber - epoch.dayNumber

theorem dayNumber_epoch : epoch.dayNumber = 719529 := by
  -- a variable in place of the sum over the years, which the kernel would add up
  have h := beforeYear_eq (show 1970 = 1969 + 1 from rfl)
  rw [dayNumber_eq epoch (y := 1970) (m := 1) (d := 1) rfl rfl rfl, beforeMonth_one]
  generalize beforeYear 1970 = n at h ⊢
  omega

/-- The day of the week, where Sunday is 0: 1970-01-01 is a Thursday. -/
def weekday (c : Civil) : ℤ := (c.sinceEpoch + 4) % 7

end Civil

end Cpcf.Lib.Calendar
