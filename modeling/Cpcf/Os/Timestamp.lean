import Mathlib
import Cpcf.Lib.Word

/-!
`os::Timestamp` of `os/kernel.h`: milliseconds since 1970, and the fields of a date and time.

The conversions of seconds are those of the C library and are parameters: `mktime` of a local time, `gmtime` and `timegm`
of UTC. `-1` is their error, and a time as well.
-/

namespace Cpcf.Os

open Cpcf.Lib.Word

/-- `struct tm`. -/
structure Tm where
  tm_sec : ℤ
  tm_min : ℤ
  tm_hour : ℤ
  tm_mday : ℤ
  tm_mon : ℤ
  tm_year : ℤ
  tm_wday : ℤ
  tm_yday : ℤ
  tm_isdst : ℤ

namespace Timestamp

/-- `Timestamp::Fields`, as the constructor from a year, a month and a day leaves them. -/
@[ext] structure Fields where
  year : ℤ
  month : ℤ
  day : ℤ
  dayOfWeek : ℤ := 0
  hour : ℤ := 0
  minute : ℤ := 0
  second : ℤ := 0
  millSecond : ℤ := 0
  deriving DecidableEq

/-- `SetLocalDateTime(f)`, with what it returns. -/
def setLocalDateTime (mktime : Tm → ℤ) (timestamp : ℤ) (f : Fields) : ℤ × Bool :=
  let t := mktime ⟨f.second, f.minute, f.hour, f.day, f.month - 1, f.year - 1900, 0, 0, -1⟩
  if t = -1 then (timestamp, false) else (longOf (longOf (t * 1000) + f.millSecond), true)

/-- `SetDateTime(f)`, with what it returns. -/
def setDateTime (timegm : Tm → ℤ) (timestamp : ℤ) (f : Fields) : ℤ × Bool :=
  let t := timegm ⟨f.second, f.minute, f.hour, f.day, f.month - 1, f.year - 1900, 0, 0, 0⟩
  if t = -1 then (timestamp, false) else (longOf (longOf (t * 1000) + f.millSecond), true)

/-- `GetDateTime(fields)`, with what it returns. -/
def getDateTime (gmtime : ℤ → Option Tm) (timestamp : ℤ) (fields : Fields) : Fields × Bool :=
  let t := timestamp.tdiv 1000
  let fields := { fields with millSecond := intOf (timestamp.tmod 1000) }
  (gmtime t).elim (fields, false) fun ptm =>
    ({ fields with
        day := ptm.tm_mday
        dayOfWeek := ptm.tm_wday
        hour := ptm.tm_hour
        minute := ptm.tm_min
        month := ptm.tm_mon + 1
        second := ptm.tm_sec
        year := ptm.tm_year + 1900 }, true)

/-- The local `Timestamp` of the fields. It holds anything where `SetLocalDateTime` fails. -/
def ofFields (mktime : Tm → ℤ) (fresh : ℤ) (f : Fields) : ℤ := (setLocalDateTime mktime fresh f).1

end Timestamp

end Cpcf.Os
