import Mathlib
import Cpcf.Lib.BitPack
import Cpcf.Lib.Calendar

/-!
`os::Date32`: a date packed into one 32-bit word, the year in the upper half, the month and the day in the two
bytes below, stepped by adding constants to the word.
-/

namespace Cpcf.Os

open Cpcf.Lib Cpcf.Lib.Calendar

/-! ### `os::Timestamp`: leap years and month lengths -/

namespace Timestamp

/-- `Timestamp::IsLeapYear`. -/
def isLeapYear (year : ℕ) : Bool := (year &&& 0x3 == 0 && year % 100 != 0) || year % 400 == 0

/-- The table `dm` of `Timestamp::GetDayOfMonthMax`. -/
def dm : List ℕ := [31, 28, 31, 30, 31, 30, 31, 31, 30, 31, 30, 31]

/-- `Timestamp::GetDayOfMonthMax`. -/
def getDayOfMonthMax (year month : ℕ) : ℕ :=
  dm.getD (month - 1) 0 + (month == 2 && isLeapYear year).toNat

theorem isLeapYear_iff (year : ℕ) : isLeapYear year = true ↔ IsLeap year := by
  unfold isLeapYear IsLeap
  rw [BitPack.and_mask year (show 0x3 + 1 = 2 ^ 2 by norm_num)]
  simp only [Bool.or_eq_true, Bool.and_eq_true, beq_iff_eq, bne_iff_ne]
  omega

/-- The table gives the lengths of the months. -/
theorem getDayOfMonthMax_eq (year : ℕ) {month : ℕ} (h1 : 1 ≤ month) (h2 : month ≤ 12) :
    getDayOfMonthMax year month = monthLength year month := by
  unfold getDayOfMonthMax monthLength
  by_cases hl : IsLeap year
  · have hb := (isLeapYear_iff year).mpr hl
    interval_cases month <;> simp [dm, hb, hl]
  · have hb : isLeapYear year = false := Bool.eq_false_iff.mpr fun h => hl ((isLeapYear_iff year).mp h)
    interval_cases month <;> simp [dm, hb, hl]

end Timestamp

/-! ### The packed date -/

/-- `Date32::_Date`. -/
@[ext] structure Date32 where
  date : UInt32
  deriving DecidableEq, Repr

variable {d e : Date32} {c f : Civil}

namespace Date32

open Timestamp

def getYear (d : Date32) : ℕ := (d.date >>> 16).toNat

def getMonth (d : Date32) : ℕ := ((d.date >>> 8) &&& 0xff).toNat

def getDay (d : Date32) : ℕ := (d.date &&& 0xff).toNat

/-- `SetDate`. The arguments are of type `int`; the shifts act on their bits. -/
def setDate (year mon day : ℤ) : Date32 :=
  ⟨(UInt32.ofInt year <<< 16) ||| (UInt32.ofInt mon <<< 8) ||| UInt32.ofInt day⟩

/-- `operator <`. -/
def lt (d e : Date32) : Bool := d.date < e.date

def nextDay (d : Date32) : Date32 :=
  if d.getDay ≠ getDayOfMonthMax d.getYear d.getMonth then ⟨d.date + 1⟩
  else if d.getMonth ≠ 12 then ⟨(d.date &&& 0xffffff00) + 0x101⟩
  else ⟨(d.date &&& 0xffff0000) + 0x10101⟩

def lastDay (d : Date32) : Date32 :=
  if d.getDay ≠ 1 then ⟨d.date - 1⟩
  else if d.getMonth ≠ 1 then
    ⟨(d.date &&& 0xffffff00) - 0x100 + UInt32.ofNat (getDayOfMonthMax d.getYear (d.getMonth - 1))⟩
  else ⟨(d.date &&& 0xffff0000) - 0x10000 + 31 + ((12 : UInt32) <<< (8 : UInt32))⟩

/-- `operator ++`, the body of `NextDay` once more, on the date itself. -/
def inc (d : Date32) : Date32 :=
  if d.getDay ≠ getDayOfMonthMax d.getYear d.getMonth then { d with date := d.date + 1 }
  else { d with date :=
    if d.getMonth ≠ 12 then (d.date &&& 0xffffff00) + 0x101 else (d.date &&& 0xffff0000) + 0x10101 }

/-- `operator --`, the body of `LastDay` once more, on the date itself. -/
def dec (d : Date32) : Date32 :=
  if d.getDay ≠ 1 then { d with date := d.date - 1 }
  else { d with date :=
    if d.getMonth ≠ 1 then
      (d.date &&& 0xffffff00) - 0x100 + UInt32.ofNat (getDayOfMonthMax d.getYear (d.getMonth - 1))
    else (d.date &&& 0xffff0000) - 0x10000 + 31 + ((12 : UInt32) <<< (8 : UInt32)) }

/-- `operator +=`. A negative `int` is handed to `-=` with its sign changed, which fails for the least one alone: there
the two operators would call each other for ever. -/
def addAssign (d : Date32) (x : ℤ) : Option Date32 :=
  if x < 0 then if x = -2 ^ 31 then none else some (dec^[(-x).toNat] d) else some (inc^[x.toNat] d)

/-- `operator -=`. -/
def subAssign (d : Date32) (x : ℤ) : Option Date32 :=
  if x < 0 then if x = -2 ^ 31 then none else some (inc^[(-x).toNat] d) else some (dec^[x.toNat] d)

def nextMonth (d : Date32) : Date32 :=
  let m : ℤ := d.getMonth
  setDate (d.getYear + m.tdiv 12) (1 + m.tmod 12) 1

def lastMonth (d : Date32) : Date32 :=
  let m : ℤ := d.getMonth
  setDate (d.getYear - (13 - m).tdiv 12) (1 + (10 + m).tmod 12) 1

theorem nextDay_eq_inc (d : Date32) : d.nextDay = d.inc := by
  unfold nextDay inc
  split_ifs <;> rfl

theorem lastDay_eq_dec (d : Date32) : d.lastDay = d.dec := by
  unfold lastDay dec
  split_ifs <;> rfl

/-! ### What a word stands for -/

/-- The fields of the word are those of a date of the calendar. -/
structure Reads (d : Date32) (c : Civil) : Prop where
  year : d.getYear = c.year
  month : d.getMonth = c.month
  day : d.getDay = c.day

theorem getYear_eq (d : Date32) : d.getYear = d.date.toNat / 65536 := by
  unfold getYear
  rw [UInt32.toNat_shiftRight, Nat.shiftRight_eq_div_pow]
  rfl

theorem getMonth_eq (d : Date32) : d.getMonth = d.date.toNat / 256 % 256 := by
  unfold getMonth
  rw [UInt32.toNat_and, UInt32.toNat_shiftRight, Nat.shiftRight_eq_div_pow]
  exact BitPack.and_mask _ (show 0xff + 1 = 2 ^ 8 by norm_num)

theorem getDay_eq (d : Date32) : d.getDay = d.date.toNat % 256 := by
  unfold getDay
  rw [UInt32.toNat_and]
  exact BitPack.and_mask _ (show 0xff + 1 = 2 ^ 8 by norm_num)

/-- The word is the sum of its three fields. -/
theorem reads_iff : Reads d c ↔ d.date.toNat = c.year * 65536 + c.month * 256 + c.day := by
  have hm := c.month_le
  have hd := c.day_le_31
  constructor
  · rintro ⟨h1, h2, h3⟩
    rw [getYear_eq] at h1
    rw [getMonth_eq] at h2
    rw [getDay_eq] at h3
    omega
  · intro h
    refine ⟨?_, ?_, ?_⟩
    · rw [getYear_eq]; omega
    · rw [getMonth_eq]; omega
    · rw [getDay_eq]; omega

theorem Reads.date_eq (h : Reads d c) : d.date.toNat = c.year * 65536 + c.month * 256 + c.day := reads_iff.mp h

/-- A date of the calendar has one word. -/
theorem Reads.unique (hd : Reads d c) (he : Reads e c) : d = e :=
  Date32.ext (UInt32.toNat_inj.mp (hd.date_eq.trans he.date_eq.symm))

/-- The order of the words is that of the days. -/
theorem Reads.lt_iff (hd : Reads d c) (he : Reads e f) : d.lt e = true ↔ c.dayNumber < f.dayNumber := by
  have h1 := hd.date_eq
  have h2 := he.date_eq
  have hc := c.month_le
  have hf := f.month_le
  have hcd := c.day_le_31
  have hfd := f.day_le_31
  rw [Civil.dayNumber_lt_iff]
  unfold lt Civil.Earlier
  rw [decide_eq_true_iff, UInt32.lt_iff_toNat_lt]
  omega

theorem Reads.monthMax (h : Reads d c) :
    getDayOfMonthMax d.getYear d.getMonth = monthLength c.year c.month := by
  rw [h.year, h.month]
  exact getDayOfMonthMax_eq _ c.one_le_month c.month_le

/-! ### One step -/

/-- Without its day the word is the sum of the other two fields. -/
theorem Reads.and_ffffff00 (h : Reads d c) : (d.date &&& 0xffffff00).toNat = c.year * 65536 + c.month * 256 := by
  have hd := h.date_eq
  have h31 := c.day_le_31
  have hmask := BitPack.and_xor_mask (w := 32) (j := 8) d.date.toNat_lt
  rw [UInt32.toNat_and]
  refine hmask.trans ?_
  omega

/-- Without its day and its month the word is the year. -/
theorem Reads.and_ffff0000 (h : Reads d c) : (d.date &&& 0xffff0000).toNat = c.year * 65536 := by
  have hd := h.date_eq
  have h31 := c.day_le_31
  have h12 := c.month_le
  have hmask := BitPack.and_xor_mask (w := 32) (j := 16) d.date.toNat_lt
  rw [UInt32.toNat_and]
  refine hmask.trans ?_
  omega

/-- `++` goes to the next day. -/
theorem Reads.inc (h : Reads d c) (hy : c.year < 65535) : ∃ e : Civil, Reads d.inc e ∧ e.dayNumber = c.dayNumber + 1 := by
  have hw := h.date_eq
  have h31 := c.day_le_31
  have h12 := c.month_le
  unfold Date32.inc
  rw [h.monthMax, h.day, h.month]
  by_cases hlast : c.day = monthLength c.year c.month
  · refine ⟨c.nextMonthStart, ?_, Civil.dayNumber_nextMonthStart_of_last hlast⟩
    rw [if_neg (not_not.mpr hlast), reads_iff]
    by_cases hm : c.month = 12
    · simp only [hm, ne_eq, not_true_eq_false, if_false, Civil.nextMonthStart, if_true]
      rw [UInt32.toNat_add, h.and_ffff0000, show (0x10101 : UInt32).toNat = 0x10101 from rfl]
      omega
    · simp only [hm, ne_eq, not_false_eq_true, if_true, Civil.nextMonthStart, if_false]
      rw [UInt32.toNat_add, h.and_ffffff00, show (0x101 : UInt32).toNat = 0x101 from rfl]
      omega
  · have hlt := Nat.lt_of_le_of_ne c.day_le hlast
    refine ⟨c.sameMonth (c.day + 1) (by omega) hlt, ?_, ?_⟩
    · rw [if_pos hlast, reads_iff]
      simp only [Civil.sameMonth]
      rw [UInt32.toNat_add, hw, show (1 : UInt32).toNat = 1 from rfl]
      omega
    · have := c.dayNumber_sameMonth (d := c.day + 1) (by omega) hlt
      omega

/-- `--` goes to the day before. -/
theorem Reads.dec (h : Reads d c) (hy : 1 ≤ c.year) : ∃ e : Civil, Reads d.dec e ∧ e.dayNumber + 1 = c.dayNumber := by
  have hw := h.date_eq
  have hlt := d.date.toNat_lt
  have h1 := c.one_le_month
  have h12 := c.month_le
  have h31 := c.day_le_31
  unfold Date32.dec
  rw [h.day, h.month, h.year]
  by_cases hfirst : c.day = 1
  · obtain ⟨e, hey, hem, hed, hn⟩ := Civil.exists_last_of_first hy hfirst
    refine ⟨e, ?_, hn⟩
    rw [if_neg (not_not.mpr hfirst), reads_iff, hey, hem, hed]
    by_cases hm : c.month = 1
    · simp only [hm, ne_eq, not_true_eq_false, if_false, Civil.lastMonthStart, if_true]
      rw [UInt32.toNat_add, UInt32.toNat_add, UInt32.toNat_sub, h.and_ffff0000,
        show (0x10000 : UInt32).toNat = 0x10000 from rfl, show (31 : UInt32).toNat = 31 from rfl,
        show ((12 : UInt32) <<< (8 : UInt32)).toNat = 0xc00 from rfl, show monthLength (c.year - 1) 12 = 31 from rfl]
      omega
    · simp only [hm, ne_eq, not_false_eq_true, if_true, Civil.lastMonthStart, if_false]
      have hb := monthLength_bounds c.year (c.month - 1)
      rw [getDayOfMonthMax_eq _ (by omega) (by omega), UInt32.toNat_add, UInt32.toNat_sub, h.and_ffffff00,
        UInt32.toNat_ofNat', show (0x100 : UInt32).toNat = 0x100 from rfl]
      obtain ⟨n, hn⟩ := Nat.exists_eq_add_of_lt (lt_of_le_of_ne h1 (Ne.symm hm))
      rw [hn] at hw h12 hb ⊢
      have hbefore : 2 ^ 32 - 0x100 + (c.year * 65536 + (1 + n + 1) * 256) =
          c.year * 65536 + (1 + n) * 256 + 2 ^ 32 := by omega
      rw [Nat.add_sub_cancel] at hb ⊢
      rw [hbefore, Nat.add_mod_right, Nat.mod_add_mod, Nat.add_mod_mod, Nat.mod_eq_of_lt (by omega)]
  · have h1d := c.one_le_day
    have hdl := c.day_le
    refine ⟨c.sameMonth (c.day - 1) (by omega) (by omega), ?_, ?_⟩
    · rw [if_pos hfirst, reads_iff]
      simp only [Civil.sameMonth]
      rw [UInt32.toNat_sub, hw, show (1 : UInt32).toNat = 1 from rfl]
      omega
    · have := c.dayNumber_sameMonth (d := c.day - 1) (by omega) (by omega)
      omega

/-! ### Many steps -/

/-- `n` steps of `++` go `n` days on, as long as the years fit into their field. -/
theorem Reads.inc_iterate (h : Reads d c) (n : ℕ) (hn : c.dayNumber + n ≤ beforeYear 65535) :
    ∃ e : Civil, Reads (Date32.inc^[n] d) e ∧ e.dayNumber = c.dayNumber + n := by
  induction n with
  | zero => exact ⟨c, h, rfl⟩
  | succ n ih =>
    obtain ⟨e, he, hen⟩ := ih (by omega)
    have hy : e.year < 65535 := Civil.year_lt_iff.mpr (by omega)
    obtain ⟨e', he', hen'⟩ := he.inc hy
    rw [Function.iterate_succ_apply']
    exact ⟨e', he', by omega⟩

/-- `n` steps of `--` go `n` days back, as long as none begins in the year 0. -/
theorem Reads.dec_iterate (h : Reads d c) (n : ℕ) (hn : beforeYear 1 + n ≤ c.dayNumber) :
    ∃ e : Civil, Reads (Date32.dec^[n] d) e ∧ e.dayNumber + n = c.dayNumber := by
  induction n with
  | zero => exact ⟨c, h, rfl⟩
  | succ n ih =>
    obtain ⟨e, he, hen⟩ := ih (by omega)
    have hy : ¬ e.year < 1 := fun h0 => by
      have := Civil.year_lt_iff.mp h0
      omega
    obtain ⟨e', he', hen'⟩ := he.dec (Nat.not_lt.mp hy)
    rw [Function.iterate_succ_apply']
    exact ⟨e', he', by omega⟩

/-- The years of the dates that are counted with. -/
def YearInRange (c : Civil) : Prop := 1 ≤ c.year ∧ c.year ≤ 32767

/-- The day numbers of these years. -/
def DayInRange (n : ℤ) : Prop := beforeYear 1 < n ∧ n ≤ beforeYear 32768

theorem yearInRange_iff : YearInRange c ↔ DayInRange c.dayNumber := by
  unfold YearInRange DayInRange
  have h1 : c.year < 1 ↔ _ := Civil.year_lt_iff
  have h2 : c.year < 32768 ↔ _ := Civil.year_lt_iff
  omega

/-- All these years have fewer days than an `int` counts. -/
theorem DayInRange.lt {n : ℤ} (h : DayInRange n) : n < 2 ^ 31 := by
  have := beforeYear_le 32768
  have := h.2
  omega

theorem beforeYear_lt_field : beforeYear 32768 ≤ beforeYear 65535 := beforeYear_mono (by norm_num)

/-- `n` days are added. -/
theorem Reads.addAssign (h : Reads d c) (hy : YearInRange c) {n : ℤ} (hn : DayInRange (c.dayNumber + n)) :
    ∃ d' e, Date32.addAssign d n = some d' ∧ Reads d' e ∧ YearInRange e ∧ (e.dayNumber : ℤ) = c.dayNumber + n := by
  have hc := (yearInRange_iff.mp hy).lt
  have h1 := hn.1
  have h2 := hn.2
  have hf := beforeYear_lt_field
  unfold Date32.addAssign
  by_cases hneg : n < 0
  · obtain ⟨e, he, hen⟩ := h.dec_iterate (-n).toNat (by omega)
    have hday : (e.dayNumber : ℤ) = c.dayNumber + n := by omega
    rw [if_pos hneg, if_neg (by omega)]
    exact ⟨_, e, rfl, he, yearInRange_iff.mpr (hday ▸ hn), hday⟩
  · obtain ⟨e, he, hen⟩ := h.inc_iterate n.toNat (by omega)
    have hday : (e.dayNumber : ℤ) = c.dayNumber + n := by omega
    rw [if_neg hneg]
    exact ⟨_, e, rfl, he, yearInRange_iff.mpr (hday ▸ hn), hday⟩

/-- Taking away the opposite number of days is the same, except for the one number without an opposite. -/
theorem subAssign_neg (d : Date32) {n : ℤ} (h1 : -2 ^ 31 < n) (h2 : n < 2 ^ 31) :
    subAssign d (-n) = Date32.addAssign d n := by
  unfold Date32.addAssign subAssign
  obtain hn | rfl | hn := lt_trichotomy n 0
  · rw [if_neg (by omega), if_pos hn, if_neg (by omega)]
  · rw [neg_zero, if_neg (lt_irrefl 0), if_neg (lt_irrefl 0), Int.toNat_zero, Function.iterate_zero,
      Function.iterate_zero]
  · rw [if_pos (by omega), if_neg (by omega), if_neg (by omega), neg_neg]

/-- `--` undoes `++`. -/
theorem Reads.dec_inc (h : Reads d c) (hy : YearInRange c) : d.inc.dec = d := by
  have hi := hy.2
  obtain ⟨e, he, hen⟩ := h.inc (by omega)
  have hey : ¬ e.year < 1 := fun h0 => by
    have h1 := Civil.year_lt_iff.mp h0
    have h2 := (yearInRange_iff.mp hy).1
    omega
  obtain ⟨f, hf, hfn⟩ := he.dec (Nat.not_lt.mp hey)
  have hfc : f = c := Civil.dayNumber_inj (by omega)
  exact (hfc ▸ hf).unique h

/-- `++` undoes `--`. -/
theorem Reads.inc_dec (h : Reads d c) (hy : YearInRange c) : d.dec.inc = d := by
  obtain ⟨e, he, hen⟩ := h.dec hy.1
  have hey : e.year < 65535 := Civil.year_lt_iff.mpr (by
    have h1 := (yearInRange_iff.mp hy).2
    have h2 := beforeYear_lt_field
    omega)
  obtain ⟨f, hf, hfn⟩ := he.inc hey
  have hfc : f = c := Civil.dayNumber_inj (by omega)
  exact (hfc ▸ hf).unique h

/-! ### The first of a month -/

theorem ofInt_toNat {n : ℕ} (h : n < 2 ^ 32) : (UInt32.ofInt n).toNat = n := by
  have hmod : ((n : ℤ) % 2 ^ 32).toNat = n := by omega
  unfold UInt32.ofInt
  rw [hmod, UInt32.toNat_ofNat']
  exact Nat.mod_eq_of_lt h

/-- The fields that `SetDate` shifts are apart, and the word is their sum. -/
theorem setDate_toNat {y m k : ℕ} (hy : y < 65536) (hm : m < 256) (hk : k < 256) :
    (setDate y m k).date.toNat = y * 65536 + m * 256 + k := by
  have h16 : (16 : UInt32).toNat % 32 = 16 := rfl
  have h8 : (8 : UInt32).toNat % 32 = 8 := rfl
  have hy' : y * 2 ^ 16 % 2 ^ 32 = y <<< 16 := by
    rw [Nat.shiftLeft_eq]
    omega
  have hm' : m * 2 ^ 8 % 2 ^ 32 = m <<< 8 := by
    rw [Nat.shiftLeft_eq]
    exact Nat.mod_eq_of_lt (by omega)
  have hlow := BitPack.shiftLeft_or m (show k < 2 ^ 8 by omega)
  have hyn := ofInt_toNat (n := y) (by omega)
  have hmn := ofInt_toNat (n := m) (by omega)
  have hkn := ofInt_toNat (n := k) (by omega)
  unfold setDate
  simp only [UInt32.toNat_or, UInt32.toNat_shiftLeft]
  rw [hyn, hmn, hkn, h16, h8]
  rw [Nat.shiftLeft_eq, Nat.shiftLeft_eq, hy', hm', Nat.or_assoc, hlow]
  rw [BitPack.shiftLeft_or y (by omega)]
  omega

/-- `NextMonth` is the first of the month after. -/
theorem Reads.nextMonth (h : Reads d c) (hy : YearInRange c) : Reads d.nextMonth c.nextMonthStart := by
  have h1 := c.one_le_month
  have h12 := c.month_le
  have hyr := hy.2
  rw [reads_iff]
  unfold Date32.nextMonth
  rw [h.month, h.year]
  simp only [Civil.nextMonthStart]
  by_cases hm : c.month = 12
  · simp only [hm, if_true]
    have := setDate_toNat (y := c.year + 1) (m := 1) (k := 1) (by omega) (by omega) (by omega)
    exact_mod_cast this
  · simp only [hm, if_false]
    have hdiv : ((c.month : ℕ) : ℤ).tdiv 12 = 0 := Int.tdiv_eq_zero_of_lt (by omega) (by omega)
    have hmod : ((c.month : ℕ) : ℤ).tmod 12 = c.month := Int.tmod_eq_of_lt (by omega) (by omega)
    rw [hdiv, hmod, add_zero, add_comm]
    have := setDate_toNat (y := c.year) (m := c.month + 1) (k := 1) (by omega) (by omega) (by omega)
    exact_mod_cast this

/-- `LastMonth` is the first of the month before. -/
theorem Reads.lastMonth (h : Reads d c) (hy : YearInRange c) : Reads d.lastMonth c.lastMonthStart := by
  have h1 := c.one_le_month
  have h12 := c.month_le
  obtain ⟨hy1, hy2⟩ := hy
  rw [reads_iff]
  unfold Date32.lastMonth
  rw [h.month, h.year]
  simp only [Civil.lastMonthStart]
  by_cases hm : c.month = 1
  · simp only [hm, if_true]
    have := setDate_toNat (y := c.year - 1) (m := 12) (k := 1) (by omega) (by omega) (by omega)
    rw [Nat.cast_sub hy1] at this
    exact this
  · simp only [hm, if_false]
    have hdiv : (13 - (c.month : ℤ)).tdiv 12 = 0 := Int.tdiv_eq_zero_of_lt (by omega) (by omega)
    have hmod : (10 + (c.month : ℤ)).tmod 12 = c.month - 2 := by
      rw [Int.tmod_eq_emod_of_nonneg (by omega)]
      omega
    rw [hdiv, hmod, sub_zero]
    have := setDate_toNat (y := c.year) (m := c.month - 1) (k := 1) (by omega) (by omega) (by omega)
    rw [Nat.cast_sub h1] at this
    rw [show (1 : ℤ) + (c.month - 2) = c.month - (1 : ℕ) by push_cast; ring]
    exact_mod_cast this

/-! ### The calendar -/

/-- Adding in two parts is adding at once. -/
theorem Reads.addAssign_add (h : Reads d c) (hy : YearInRange c) {m n : ℤ} (hn : DayInRange (c.dayNumber + n))
    (hm : DayInRange (c.dayNumber + n + m)) :
    ((Date32.addAssign d n).bind fun d' => Date32.addAssign d' m) = Date32.addAssign d (m + n) := by
  obtain ⟨d₁, c₁, h₁, hr₁, hy₁, hn₁⟩ := h.addAssign hy hn
  obtain ⟨d₂, c₂, h₂, hr₂, -, hn₂⟩ := hr₁.addAssign hy₁ (hn₁ ▸ hm)
  obtain ⟨d₃, c₃, h₃, hr₃, -, hn₃⟩ := h.addAssign hy (n := m + n) (by rwa [add_comm m, ← add_assoc])
  have hc : c₂ = c₃ := Civil.dayNumber_inj (by omega)
  rw [h₁, h₃, Option.bind_some, h₂, hr₂.unique (hc ▸ hr₃)]

/-- **`Date32` counts in the Gregorian calendar.** From a date of the years 1 to 32767, `+= n` and `-= -n` give the date
`n` days away, if that one is of these years too. So `++` and `--` undo each other, as `NextDay` and `LastDay` do, adding
twice adds the sum, `<` is the order of the days, and `NextMonth` and `LastMonth` are the first days of the months around. -/
theorem date32_counts_days (hd : Reads d c) (hy : YearInRange c) :
    (∀ n : ℤ, DayInRange (c.dayNumber + n) → ∃ d' e, d.addAssign n = some d' ∧ d.subAssign (-n) = some d' ∧
      Reads d' e ∧ YearInRange e ∧ (e.dayNumber : ℤ) = c.dayNumber + n) ∧
    (d.inc.dec = d ∧ d.dec.inc = d ∧ d.nextDay.lastDay = d ∧ d.lastDay.nextDay = d) ∧
    (∀ m n : ℤ, DayInRange (c.dayNumber + n) → DayInRange (c.dayNumber + n + m) →
      ((d.addAssign n).bind fun d' => d'.addAssign m) = d.addAssign (m + n)) ∧
    (∀ e f, Reads e f → (d.lt e = true ↔ c.dayNumber < f.dayNumber)) ∧
    Reads d.nextMonth c.nextMonthStart ∧ Reads d.lastMonth c.lastMonthStart := by
  refine ⟨?_, ⟨hd.dec_inc hy, hd.inc_dec hy, ?_, ?_⟩, ?_, ?_, hd.nextMonth hy, hd.lastMonth hy⟩
  · intro n hn
    have h1 := hn.1
    have h2 := hn.lt
    have h3 := (yearInRange_iff.mp hy).lt
    have h4 := (yearInRange_iff.mp hy).1
    obtain ⟨d', e, he, hr, hye, hen⟩ := hd.addAssign hy hn
    exact ⟨d', e, he, (subAssign_neg d (by omega) (by omega)).trans he, hr, hye, hen⟩
  · rw [nextDay_eq_inc, lastDay_eq_dec]
    exact hd.dec_inc hy
  · rw [nextDay_eq_inc, lastDay_eq_dec]
    exact hd.inc_dec hy
  · intro m n hn hm
    exact hd.addAssign_add hy hn hm
  · intro e f he
    exact hd.lt_iff he

/-- The last day of a year before a leap year. -/
def newYearsEve : Civil where
  year := 2023
  month := 12
  day := 31
  one_le_month := Civil.first_le_last
  month_le := Civil.last_le_last
  one_le_day := Civil.first_le_lastDay
  day_le := by decide

theorem date32_counts_days_newYearsEve :
    ∃ d' e, addAssign ⟨0x07E70C1F⟩ 1 = some d' ∧ Reads d' e ∧ (e.dayNumber : ℤ) = newYearsEve.dayNumber + 1 := by
  have hd : Reads ⟨0x07E70C1F⟩ newYearsEve := reads_iff.mpr rfl
  have hy : YearInRange newYearsEve := ⟨by decide, by decide⟩
  have hnext := Civil.dayNumber_nextMonthStart_of_last (c := newYearsEve) rfl
  have hday : DayInRange (newYearsEve.dayNumber + 1) := by
    have hy' : YearInRange newYearsEve.nextMonthStart := ⟨by decide, by decide⟩
    have h := yearInRange_iff.mp hy'
    rw [hnext, Nat.cast_add, Nat.cast_one] at h
    exact h
  obtain ⟨d', e, h, -, hr, -, hn⟩ := (date32_counts_days hd hy).1 1 hday
  exact ⟨d', e, h, hr, hn⟩

end Date32

end Cpcf.Os
