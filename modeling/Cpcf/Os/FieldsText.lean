import Cpcf.Os.Timestamp
import Cpcf.Rt.NumberText

/-!
`Timestamp::Fields::FromString` of `os/kernel.cpp`: a date and a time from a text without a fixed form.

The text is cut at separators into at most seven pieces and each piece is read as a number; how many pieces there are
tells what they are. Where the first three are no date, the layouts with fewer pieces are tried on the same numbers. A
piece that is no number is read as zero.

The letters of a month name are made upper case and compared with lower case ones, so that no name is found.
-/

namespace Cpcf.Os.Timestamp

open Cpcf.Lib.Memory Cpcf.Rt Cpcf.Rt.StringRef Cpcf.Rt.NumberText

/-! ### The code -/

/-- `_details::SolveMonthLetter`. -/
def solveMonthLetter (l : ℤ) : ℤ := if 0x5a < l then l - (0x61 - 0x41) else l

/-- The `case` labels of `SolveMonth`. -/
def monthNames : List (List UInt8) :=
  ["jan", "feb", "mar", "apr", "may", "jun", "jul", "aug", "sep", "oct", "nov", "dec"].map fun s =>
    s.toList.map fun c => UInt8.ofNat c.toNat

/-- The label of a name. -/
def monthLabel (name : List UInt8) : ℤ := schar (name.getD 0 0) * 10000 + schar (name.getD 1 0) * 100 + schar (name.getD 2 0)

/-- `_details::SolveMonth`. -/
def solveMonth (m : Mem) (seg : Ref) : ℤ :=
  if seg.getLength < 3 then 0
  else
    let sum := solveMonthLetter (schar (m seg.p)) * 10000 + solveMonthLetter (schar (m (seg.p + 1))) * 100 +
      solveMonthLetter (schar (m (seg.p + 2)))
    if sum ∈ monthNames.map monthLabel then ((monthNames.map monthLabel).idxOf sum : ℤ) + 1 else 0

/-- The end of `SolveDate`. -/
def checkDate (year month day : ℤ) : (ℤ × ℤ × ℤ) × Bool :=
  ((year, month, day), decide (1 ≤ month ∧ month ≤ 12 ∧ 1 ≤ day ∧ day ≤ 31))

/-- `_details::SolveDate`, with the year, the month and the day that the references are left with. -/
def solveDate (m : Mem) (seg : ℕ → Ref) (num : ℕ → ℤ) (year month day : ℤ) : (ℤ × ℤ × ℤ) × Bool :=
  let month := if num 0 = 0 then solveMonth m (seg 0) else month
  if num 0 = 0 ∧ 0 < month then checkDate (num 2) month (num 1)
  else
    let month := if num 1 = 0 then solveMonth m (seg 1) else month
    if num 1 = 0 ∧ 0 < month then
      if num 2 < num 0 then checkDate (num 0) month (num 2) else checkDate (num 2) month (num 0)
    else
      let month := if num 2 = 0 then solveMonth m (seg 2) else month
      if num 2 = 0 ∧ 0 < month then checkDate (num 0) month (num 1)
      else if num 2 = 0 ∨ num 1 = 0 ∨ num 0 = 0 then ((year, month, day), false)
      else if 1000 < num 0 then checkDate (num 0) (num 1) (num 2)
      else if 1000 < num 2 then checkDate (num 2) (num 0) (num 1)
      else ((year, month, day), false)

/-- The characters of `seps`: a blank, signs, punctuation, a tabulator, the ends of lines, `T` and `Z`. -/
def sepChars : List UInt8 :=
  [0x20, 0x2d, 0x2f, 0x3a, 0x2e, 0x2b, 0x2c, 0x3b, 0x09, 0x0d, 0x0a, 0x54, 0x5a]

/-- `seps`. -/
def seps : CharacterSet := CharacterSet.init sepChars sepChars

/-- `EndsWith(suffix)`. -/
def endsWith (m : Mem) (r : Ref) (suffix : List UInt8) : Bool :=
  decide (suffix.length ≤ r.getLength) && decide ((r.text m).drop (r.getLength - suffix.length) = suffix)

/-- `FindCharacter(ch)`. -/
def findCharacter (m : Mem) (r : Ref) (ch : UInt8) : ℤ :=
  if ch ∈ r.text m then ((r.text m).idxOf ch : ℤ) else -1

/-- `SubStr(start, len)`. -/
def subStr (r : Ref) (start len : ℕ) : Ref :=
  if start < r.getLength then ⟨r.p + start, min len (r.getLength - start) + 1⟩ else ⟨0, 0⟩

/-- What `ToNumber` leaves in a `UINT`. -/
def unsigned (m : Mem) (r : Ref) : ℤ := (toNumber .uint m r).1.toNat

/-- The pieces `f` of a text and the numbers `fi` in them. -/
structure Pieces where
  m : Mem
  s : Ref
  f : List Ref

namespace Pieces

/-- `f[i]`; the pieces that were not split off are empty. -/
def seg (x : Pieces) (i : ℕ) : Ref := x.f.getD i ⟨0, 0⟩

/-- `fi[i]`. -/
def num (x : Pieces) (i : ℕ) : ℤ := (toNumber .int x.m (x.seg i)).1.toInt

/-- `f[4].EndsWith(pm) || f[4].EndsWith(PM)`. -/
def afternoon (x : Pieces) : Bool := endsWith x.m (x.seg 4) [0x70, 0x6d] || endsWith x.m (x.seg 4) [0x50, 0x4d]

/-- `if(SolveDate(f, fi, Year, Month, Day)) return ret;`, and what follows otherwise. -/
def tryDate (x : Pieces) (this : Fields) (ret : ℤ) (otherwise : Fields → Fields × ℤ) : Fields × ℤ :=
  let r := solveDate x.m x.seg x.num this.year this.month this.day
  let this := { this with year := r.1.1, month := r.1.2.1, day := r.1.2.2 }
  if r.2 then (this, ret) else otherwise this

/-- The hour after noon. -/
def hour (x : Pieces) (hour : ℤ) : ℤ := if hour < 12 ∧ x.afternoon = true then hour + 12 else hour

/-- `case 4`: `hh min sec msec`. -/
def case4 (x : Pieces) (this : Fields) : Fields × ℤ :=
  ({ this with
      year := 1970, month := 1, day := 1
      hour := x.num 0, minute := x.num 1, second := x.num 2, millSecond := x.num 3 }, 4)

/-- `case 5`: `yyyy mm dd hh min`. -/
def case5 (x : Pieces) (low_bound : Bool) (this : Fields) : Fields × ℤ :=
  x.tryDate { this with
      year := x.num 0, month := x.num 1, day := x.num 2
      hour := x.hour (x.num 3), minute := x.num 4
      second := if low_bound then 0 else 59
      millSecond := if low_bound then 0 else 999 } 5 x.case4

/-- `case 6`: `yyyy mm dd hh min sec`. -/
def case6 (x : Pieces) (low_bound : Bool) (this : Fields) : Fields × ℤ :=
  x.tryDate { this with
      year := x.num 0, month := x.num 1, day := x.num 2
      hour := x.num 3, minute := x.num 4, second := x.num 5
      millSecond := if low_bound then 0 else 999 } 6 (x.case5 low_bound)

/-- `case 7`: `yyyy mm dd hh min sec msec`. -/
def case7 (x : Pieces) (low_bound : Bool) (this : Fields) : Fields × ℤ :=
  x.tryDate { this with hour := x.num 3, minute := x.num 4, second := x.num 5, millSecond := x.num 6 } 7
    (x.case6 low_bound)

/-- `case 2`: `hh min`. -/
def case2 (x : Pieces) (low_bound : Bool) (this : Fields) : Fields × ℤ :=
  ({ this with
      year := 1970, month := 1, day := 1
      hour := x.hour (x.num 0), minute := x.num 1
      second := if low_bound then 0 else 59
      millSecond := if low_bound then 0 else 999 }, 2)

/-- `case 3`: `yyyy mm dd`, or `hh min sec` where there is a colon behind the first character. -/
def case3 (x : Pieces) (low_bound : Bool) (this : Fields) : Fields × ℤ :=
  if 0 < findCharacter x.m x.s Ch.colon then
    ({ this with
        year := 1970, month := 1, day := 1
        hour := x.num 0, minute := x.num 1, second := x.num 2
        millSecond := if low_bound then 0 else 999 }, 3)
  else
    x.tryDate { this with
        hour := if low_bound then 0 else 23
        minute := if low_bound then 0 else 59
        second := if low_bound then 0 else 59
        millSecond := if low_bound then 0 else 999 } 3 (x.case2 low_bound)

/-- `case 1`, by the number of characters. -/
def case1 (x : Pieces) (low_bound : Bool) (this : Fields) : Fields × ℤ :=
  if x.s.getLength = 8 then
    let t := unsigned x.m x.s
    ({ this with
        year := t / 10000, month := t % 10000 / 100, day := t % 100
        hour := if low_bound then 0 else 23
        minute := if low_bound then 0 else 59
        second := if low_bound then 0 else 59
        millSecond := if low_bound then 0 else 999 }, 3)
  else if x.s.getLength = 8 + 6 then
    let t := unsigned x.m (subStr x.s 0 8)
    let this := { this with year := t / 10000, month := t % 10000 / 100, day := t % 100 }
    let t := unsigned x.m (subStr x.s 8 6)
    ({ this with
        hour := t / 10000, month := t % 10000 % 100, day := t % 100
        millSecond := if low_bound then 0 else 999 }, 6)
  else if x.s.getLength = 8 + 4 then
    let t := unsigned x.m (subStr x.s 0 8)
    let this := { this with year := t / 10000, month := t % 10000 / 100, day := t % 100 }
    let t := unsigned x.m (subStr x.s 8 4)
    ({ this with
        hour := t / 100, minute := t % 100
        second := if low_bound then 0 else 59
        millSecond := if low_bound then 0 else 999 }, 5)
  else (this, 0)

end Pieces

/-- The pieces of a text. -/
def piecesOf (m : Mem) (s : Ref) : Pieces := ⟨m, s, split m s true Ch.dquote Ch.squote 7 seps⟩

@[simp] theorem piecesOf_m (m : Mem) (s : Ref) : (piecesOf m s).m = m := rfl

@[simp] theorem piecesOf_s (m : Mem) (s : Ref) : (piecesOf m s).s = s := rfl

/-- `Fields::FromString(s, low_bound)`, with what it returns. -/
def fromString (m : Mem) (s : Ref) (low_bound : Bool) (this : Fields) : Fields × ℤ :=
  let this := { this with dayOfWeek := 0 }
  let x := piecesOf m s
  if x.f.any fun r => (toNumber .int m r).2 = 0 then (this, -100)
  else if x.f.length = 7 then x.case7 low_bound this
  else if x.f.length = 6 then x.case6 low_bound this
  else if x.f.length = 5 then x.case5 low_bound this
  else if x.f.length = 4 then x.case4 this
  else if x.f.length = 3 then x.case3 low_bound this
  else if x.f.length = 2 then x.case2 low_bound this
  else if x.f.length = 1 then x.case1 low_bound this
  else (this, 0)

/-! ### Names of months -/

theorem schar_bounds (b : UInt8) : -128 ≤ schar b ∧ schar b ≤ 127 := by
  have hlt := b.toNat_lt
  by_cases hb : b < 128
  · have hlow : b.toNat < 128 := UInt8.lt_iff_toNat_lt.mp hb
    rw [schar_of_lt hb]
    omega
  · have hhigh : 128 ≤ b.toNat := not_lt.mp fun h => hb (UInt8.lt_iff_toNat_lt.mpr h)
    rw [schar, if_neg hb]
    omega

theorem solveMonthLetter_bounds (b : UInt8) : -128 ≤ solveMonthLetter (schar b) ∧ solveMonthLetter (schar b) ≤ 95 := by
  have := schar_bounds b
  unfold solveMonthLetter
  split <;> omega

/-- The labels are those of lower case letters. -/
theorem le_monthLabel : ∀ l ∈ monthNames.map monthLabel, 970000 ≤ l := by decide

/-- No name of a month is found. -/
theorem solveMonth_eq_zero (m : Mem) (seg : Ref) : solveMonth m seg = 0 := by
  rw [solveMonth]
  split
  · rfl
  · have h0 := solveMonthLetter_bounds (m seg.p)
    have h1 := solveMonthLetter_bounds (m (seg.p + 1))
    have h2 := solveMonthLetter_bounds (m (seg.p + 2))
    refine if_neg fun hmem => ?_
    have := le_monthLabel _ hmem
    omega

/-- Three numbers that are taken for a date: a year above 1000 before or behind a month and a day. -/
def IsDate (num : ℕ → ℤ) : Prop :=
  1000 < num 0 ∧ 1 ≤ num 1 ∧ num 1 ≤ 12 ∧ 1 ≤ num 2 ∧ num 2 ≤ 31 ∨
    1000 < num 2 ∧ 1 ≤ num 0 ∧ num 0 ≤ 12 ∧ 1 ≤ num 1 ∧ num 1 ≤ 31

instance (num : ℕ → ℤ) : Decidable (IsDate num) := inferInstanceAs (Decidable (_ ∨ _))

/-- The year, the month and the day of such numbers. -/
def dateOf (num : ℕ → ℤ) : ℤ × ℤ × ℤ := if 1000 < num 0 then (num 0, num 1, num 2) else (num 2, num 0, num 1)

/-- `SolveDate` finds a date in such numbers, and in no others. -/
theorem solveDate_eq (m : Mem) (seg : ℕ → Ref) (num : ℕ → ℤ) (year month day : ℤ) :
    (solveDate m seg num year month day).2 = decide (IsDate num) ∧
      (IsDate num → (solveDate m seg num year month day).1 = dateOf num) := by
  simp only [solveDate, solveMonth_eq_zero]
  rw [if_neg (by rintro ⟨h, h0⟩; rw [if_pos h] at h0; exact lt_irrefl _ h0),
    if_neg (by rintro ⟨h, h0⟩; rw [if_pos h] at h0; exact lt_irrefl _ h0),
    if_neg (by rintro ⟨h, h0⟩; rw [if_pos h] at h0; exact lt_irrefl _ h0)]
  unfold IsDate dateOf
  by_cases hzero : num 2 = 0 ∨ num 1 = 0 ∨ num 0 = 0
  · rw [if_pos hzero]
    refine ⟨(decide_eq_false ?_).symm, ?_⟩ <;> omega
  rw [if_neg hzero]
  by_cases h0 : 1000 < num 0
  · rw [if_pos h0, if_pos h0, checkDate]
    refine ⟨decide_eq_decide.mpr ?_, fun _ => rfl⟩
    omega
  rw [if_neg h0, if_neg h0]
  by_cases h2 : 1000 < num 2
  · rw [if_pos h2, checkDate]
    refine ⟨decide_eq_decide.mpr ?_, fun _ => rfl⟩
    omega
  rw [if_neg h2]
  refine ⟨(decide_eq_false ?_).symm, ?_⟩ <;> omega

section TryDate

variable {x : Pieces} {this : Fields} {ret : ℤ} {otherwise : Fields → Fields × ℤ}

theorem tryDate_of_date (h : IsDate x.num) : x.tryDate this ret otherwise =
    ({ this with year := (dateOf x.num).1, month := (dateOf x.num).2.1, day := (dateOf x.num).2.2 }, ret) := by
  obtain ⟨hok, hdate⟩ := solveDate_eq x.m x.seg x.num this.year this.month this.day
  simp only [Pieces.tryDate, hok, hdate h, h, decide_true, if_true]

/-- Where there is no date, something is left in the fields, and the next layout is tried. -/
theorem tryDate_of_not (h : ¬ IsDate x.num) : ∃ year month day, x.tryDate this ret otherwise =
    otherwise { this with year := year, month := month, day := day } := by
  have hok := (solveDate_eq x.m x.seg x.num this.year this.month this.day).1
  refine ⟨(solveDate x.m x.seg x.num this.year this.month this.day).1.1,
    (solveDate x.m x.seg x.num this.year this.month this.day).1.2.1,
    (solveDate x.m x.seg x.num this.year this.month this.day).1.2.2, ?_⟩
  simp only [Pieces.tryDate, hok, h, decide_false, Bool.false_eq_true, if_false]

end TryDate

end Cpcf.Os.Timestamp
