import Cpcf.Os.Date32
import Cpcf.Os.Timestamp

/-!
`operator -` of `os::Date32`.

The two dates become local time stamps, of which the difference is divided by the length of a day. A local time stamp
comes from `mktime`, which takes the offset of the zone from the civil time, and the offset need not be the same at the
two dates.
-/

namespace Cpcf.Os

open Cpcf.Lib Cpcf.Lib.Calendar Cpcf.Lib.Word

variable {c e f : Civil} {mktime : Tm → ℤ} {offset : Civil → ℤ}

namespace Date32

open Timestamp

/-- `Fields(GetYear(), GetMonth(), GetDay())`. -/
def fields (d : Date32) : Fields := { year := d.getYear, month := d.getMonth, day := d.getDay }

/-- `operator -`. -/
def sub (mktime : Tm → ℤ) (fresh fresh' : ℤ) (d x : Date32) : ℤ :=
  intOf ((longOf (ofFields mktime fresh d.fields - ofFields mktime fresh' x.fields)).tdiv (24 * 3600 * 1000))

/-! ### Local time -/

/-- The midnight at which a date begins. -/
def midnight (c : Civil) : Tm := ⟨0, 0, 0, c.day, c.month - 1, c.year - 1900, 0, 0, -1⟩

/-- The years from 1900 to 9999. -/
def InCenturies (c : Civil) : Prop := 1900 ≤ c.year ∧ c.year ≤ 9999

/-- `mktime` gives the seconds of the civil time less the offset of the zone at it, and never the `-1` that says that
there is no such time. The offset is anything that leaves the milliseconds to a word of 64 bits. -/
structure LocalTime (mktime : Tm → ℤ) (offset : Civil → ℤ) : Prop where
  eq : ∀ c, InCenturies c → mktime (midnight c) = 86400 * c.sinceEpoch - offset c
  ne : ∀ c, InCenturies c → mktime (midnight c) ≠ -1
  bounded : ∀ c, InCenturies c → |offset c| ≤ 2 ^ 46

/-- The condition on a zone and two dates: the offset at the later date is not larger than at the earlier one, and less
than a day smaller. -/
def Settled (offset : Civil → ℤ) (c e : Civil) : Prop :=
  (c.Earlier e → offset e ≤ offset c ∧ offset c < offset e + 86400) ∧
    (e.Earlier c → offset c ≤ offset e ∧ offset e < offset c + 86400)

/-! ### The difference -/

/-- The days of the dates that are counted with. -/
theorem abs_sinceEpoch_le (hc : InCenturies c) : |c.sinceEpoch| ≤ 3720000 := by
  have h1 := c.dayNumber_le
  have h2 : beforeYear (c.year + 1) ≤ beforeYear 10000 := beforeYear_mono (Nat.succ_le_succ hc.2)
  have h3 := beforeYear_le 10000
  have h4 := Civil.dayNumber_epoch
  rw [abs_le, Civil.sinceEpoch]
  omega

/-- The time stamp of a date. -/
theorem Reads.ofFields_eq {d : Date32} (hd : Reads d c) (h : LocalTime mktime offset) (hc : InCenturies c) (fresh : ℤ) :
    ofFields mktime fresh d.fields = 1000 * (86400 * c.sinceEpoch - offset c) := by
  have hdays := abs_le.mp (abs_sinceEpoch_le hc)
  have hoff := abs_le.mp (h.bounded c hc)
  have hmk : mktime ⟨0, 0, 0, d.getDay, d.getMonth - 1, d.getYear - 1900, 0, 0, -1⟩ = 86400 * c.sinceEpoch - offset c := by
    rw [hd.year, hd.month, hd.day]
    exact h.eq c hc
  have hne : 86400 * c.sinceEpoch - offset c ≠ -1 := h.eq c hc ▸ h.ne c hc
  have hlong : longOf (1000 * (86400 * c.sinceEpoch - offset c)) = 1000 * (86400 * c.sinceEpoch - offset c) :=
    longOf_eq (by omega) (by omega)
  simp only [ofFields, setLocalDateTime, fields, hmk]
  rw [if_neg hne, add_zero, mul_comm, hlong, hlong]

/-- Division as the code divides, towards zero. -/
theorem tdiv_day (x : ℤ) : x.tdiv 86400 = if 0 ≤ x then x / 86400 else -(-x / 86400) := by
  split
  · rename_i hx
    exact Int.tdiv_eq_ediv_of_nonneg hx
  · rename_i hx
    rw [← Int.tdiv_eq_ediv_of_nonneg (by omega), Int.neg_tdiv, neg_neg]

/-- The difference, by the days between the dates and the change of the offset. -/
theorem Reads.sub_eq {d x : Date32} (hd : Reads d c) (hx : Reads x e) (h : LocalTime mktime offset) (hc : InCenturies c)
    (he : InCenturies e) (fresh fresh' : ℤ) : d.sub mktime fresh fresh' x =
      (86400 * (c.sinceEpoch - e.sinceEpoch) - (offset c - offset e)).tdiv 86400 := by
  have hdaysc := abs_le.mp (abs_sinceEpoch_le hc)
  have hdayse := abs_le.mp (abs_sinceEpoch_le he)
  have hoffc := abs_le.mp (h.bounded c hc)
  have hoffe := abs_le.mp (h.bounded e he)
  have hdiff : 1000 * (86400 * c.sinceEpoch - offset c) - 1000 * (86400 * e.sinceEpoch - offset e) =
      1000 * (86400 * (c.sinceEpoch - e.sinceEpoch) - (offset c - offset e)) := by ring
  have hday : (24 * 3600 * 1000 : ℤ) = 1000 * 86400 := by norm_num
  rw [sub, hd.ofFields_eq h hc, hx.ofFields_eq h he, hdiff, longOf_eq (by omega) (by omega), hday,
    Int.mul_tdiv_mul_of_pos _ _ (by norm_num)]
  refine intOf_eq ?_ ?_ <;> rw [tdiv_day] <;> split <;> omega

/-- Whole days and what the change of the offset adds to them come out as the days when the offset goes down by less than
a day, the later date taken first. -/
theorem tdiv_day_eq_iff (n δ : ℤ) : (86400 * n - δ).tdiv 86400 = n ↔
    n = 0 ∧ -86400 < δ ∧ δ < 86400 ∨ 0 < n ∧ -86400 < δ ∧ δ ≤ 0 ∨ n < 0 ∧ 0 ≤ δ ∧ δ < 86400 := by
  rw [tdiv_day]
  split <;> omega

theorem settled_iff : Settled offset c e ↔
    (86400 * (c.sinceEpoch - e.sinceEpoch) - (offset c - offset e)).tdiv 86400 = c.sinceEpoch - e.sinceEpoch := by
  rw [tdiv_day_eq_iff, Settled, ← Civil.dayNumber_lt_iff, ← Civil.dayNumber_lt_iff, Civil.sinceEpoch, Civil.sinceEpoch]
  obtain heq | hne := eq_or_ne c e
  · subst heq
    omega
  · have hne : c.dayNumber ≠ e.dayNumber := fun h => hne (Civil.dayNumber_inj h)
    omega

/-- **The difference of two dates.** In the years 1900 to 9999 and for every rule of the zone, `a - b` is the number of
days from `b` to `a`, and `b += (a - b)` gives `a`, if and only if the offset does not go up from the earlier to the
later date and goes down by less than a day. -/
theorem sub_counts_days_iff (h : LocalTime mktime offset) {a b : Date32} (ha : Reads a c) (hb : Reads b e)
    (hc : InCenturies c) (he : InCenturies e) (fresh fresh' : ℤ) :
    a.sub mktime fresh fresh' b = c.sinceEpoch - e.sinceEpoch ∧ b.addAssign (a.sub mktime fresh fresh' b) = some a ↔
      Settled offset c e := by
  rw [settled_iff, ha.sub_eq hb h hc he]
  refine and_iff_left_of_imp ?_
  intro hdays
  rw [hdays]
  have hday : (e.dayNumber : ℤ) + (c.sinceEpoch - e.sinceEpoch) = c.dayNumber := by
    rw [Civil.sinceEpoch, Civil.sinceEpoch]
    ring
  have hyc : YearInRange c := ⟨by have := hc.1; omega, by have := hc.2; omega⟩
  have hye : YearInRange e := ⟨by have := he.1; omega, by have := he.2; omega⟩
  obtain ⟨a', f, hadd, hr, -, hf⟩ := hb.addAssign hye (hday ▸ yearInRange_iff.mp hyc)
  obtain rfl : f = c := Civil.dayNumber_inj (by omega)
  rw [hadd, hr.unique ha]

/-! ### A zone with summer time -/

/-- `mktime` in a zone whose offset depends on the day. -/
def mktimeOf (rule : ℤ → ℤ) (t : Tm) : ℤ :=
  let year := (t.tm_year + 1900).toNat
  let days := beforeYear year + beforeMonth year (t.tm_mon + 1).toNat + t.tm_mday - Civil.epoch.dayNumber
  86400 * days + 3600 * t.tm_hour + 60 * t.tm_min + t.tm_sec - rule days

/-- A zone five hours behind, and four from the day after 2024-03-10 to 2024-11-03. -/
def summerTime (n : ℤ) : ℤ := if 19792 < n ∧ n ≤ 20030 then -14400 else -18000

theorem localTime_summerTime : LocalTime (mktimeOf summerTime) fun c => summerTime c.sinceEpoch := by
  have heq : ∀ c, mktimeOf summerTime (midnight c) = 86400 * c.sinceEpoch - summerTime c.sinceEpoch := by
    intro c
    have hyear : ((c.year : ℤ) - 1900 + 1900).toNat = c.year := by omega
    have hmonth : ((c.month : ℤ) - 1 + 1).toNat = c.month := by omega
    simp only [mktimeOf, midnight, hyear, hmonth, Civil.sinceEpoch]
    generalize Civil.epoch.dayNumber = n
    simp only [Civil.dayNumber, Nat.cast_add]
    ring
  refine ⟨fun c _ => heq c, ?_, ?_⟩
  · intro c _
    rw [heq, summerTime]
    split <;> omega
  · intro c _
    rw [summerTime]
    split <;> norm_num

/-- A date of 2024. -/
def in2024 (m d : ℕ) (hm : 1 ≤ m ∧ m ≤ 12) (hd : 1 ≤ d ∧ d ≤ 28) : Civil :=
  ⟨2024, m, d, hm.1, hm.2, hd.1, hd.2.trans (monthLength_bounds 2024 m).1⟩

theorem sinceEpoch_in2024 {m d : ℕ} (hm : 1 ≤ m ∧ m ≤ 12) (hd : 1 ≤ d ∧ d ≤ 28) :
    (in2024 m d hm hd).sinceEpoch = 19722 + beforeMonth 2024 m + d := by
  have h := beforeYear_eq (show 2024 = 2023 + 1 from rfl)
  rw [Civil.sinceEpoch, Civil.dayNumber_epoch, Civil.dayNumber_eq (in2024 m d hm hd) (y := 2024) (m := m) (d := d)
    rfl rfl rfl]
  generalize beforeYear 2024 = n at h ⊢
  omega

/-- The day on which summer time ends has 25 hours. -/
theorem sub_counts_days_november :
    (setDate 2024 11 4).sub (mktimeOf summerTime) 0 0 (setDate 2024 11 3) = 1 ∧
      (setDate 2024 11 3).addAssign 1 = some (setDate 2024 11 4) := by
  have ha : Reads (setDate 2024 11 4) (in2024 11 4 (by decide) (by decide)) := ⟨rfl, rfl, rfl⟩
  have hb : Reads (setDate 2024 11 3) (in2024 11 3 (by decide) (by decide)) := ⟨rfl, rfl, rfl⟩
  have hmonth : beforeMonth 2024 11 = 305 := by decide
  have hsa := sinceEpoch_in2024 (m := 11) (d := 4) (by decide) (by decide)
  have hsb := sinceEpoch_in2024 (m := 11) (d := 3) (by decide) (by decide)
  rw [hmonth] at hsa hsb
  have hsettled : Settled (fun c => summerTime c.sinceEpoch) (in2024 11 4 (by decide) (by decide))
      (in2024 11 3 (by decide) (by decide)) := by
    simp only [Settled, hsa, hsb, summerTime]
    norm_num [Civil.Earlier, in2024]
  obtain ⟨hdays, hadd⟩ := (sub_counts_days_iff localTime_summerTime ha hb ⟨by decide, by decide⟩
    ⟨by decide, by decide⟩ 0 0).mpr hsettled
  rw [hsa, hsb] at hdays
  have hone := hdays.trans (show _ = (1 : ℤ) by norm_num)
  rw [hone] at hadd
  exact ⟨hone, hadd⟩

/-- The day on which summer time begins has 23 hours, and the two dates around it come out as one. -/
theorem sub_loses_day : ¬ ∀ (mktime : Tm → ℤ) (offset : Civil → ℤ), LocalTime mktime offset → ∀ (a b : Date32)
    (c e : Civil), Reads a c → Reads b e → InCenturies c → InCenturies e →
      a.sub mktime 0 0 b = c.sinceEpoch - e.sinceEpoch := by
  intro h
  have ha : Reads (setDate 2024 3 11) (in2024 3 11 (by decide) (by decide)) := ⟨rfl, rfl, rfl⟩
  have hb : Reads (setDate 2024 3 10) (in2024 3 10 (by decide) (by decide)) := ⟨rfl, rfl, rfl⟩
  have hmonth : beforeMonth 2024 3 = 60 := by decide
  have hsa := sinceEpoch_in2024 (m := 3) (d := 11) (by decide) (by decide)
  have hsb := sinceEpoch_in2024 (m := 3) (d := 10) (by decide) (by decide)
  rw [hmonth] at hsa hsb
  have hdays := h _ _ localTime_summerTime _ _ _ _ ha hb ⟨by decide, by decide⟩ ⟨by decide, by decide⟩
  rw [ha.sub_eq hb localTime_summerTime ⟨by decide, by decide⟩ ⟨by decide, by decide⟩, hsa, hsb] at hdays
  exact absurd hdays (by decide)

end Date32

end Cpcf.Os
