/-!
# Timestamps

Points in time as seconds and nanoseconds since the beginning of 1970 in universal time, written as
date and time of the proleptic Gregorian calendar. A billion nanoseconds or more stand for a leap
second. Years outside 0 to 9999 carry a sign.
-/

namespace ConfigAudit

/-- A point in time, as seconds since the epoch and nanoseconds after that. -/
structure Timestamp where
  seconds : Int
  nanos : Nat
  deriving DecidableEq, Repr

/-- A day of the calendar; months and days count from 1. -/
structure Date where
  year : Int
  month : Int
  day : Int
  deriving DecidableEq, Repr

namespace Date

/-- The day with a number of days since the epoch. Years are taken to begin in March, and 400 of
them make an era of 146097 days. -/
def ofDays (days : Int) : Date :=
  let z := days + 719468
  let era := z.fdiv 146097
  let dayOfEra := z - era * 146097
  let yearOfEra := (dayOfEra - dayOfEra / 1460 + dayOfEra / 36524 - dayOfEra / 146096) / 365
  let dayOfYear := dayOfEra - (365 * yearOfEra + yearOfEra / 4 - yearOfEra / 100)
  let m := (5 * dayOfYear + 2) / 153
  let day := dayOfYear - (153 * m + 2) / 5 + 1
  let month := if m < 10 then m + 3 else m - 9
  let year := yearOfEra + era * 400
  ⟨if month ≤ 2 then year + 1 else year, month, day⟩

end Date

/-- A natural number with at least a number of digits. -/
def paddedDigits (width n : Nat) : List Char :=
  let digits := Nat.toDigits 10 n
  List.replicate (width - digits.length) '0' ++ digits

namespace Timestamp

/-- The year of a timestamp. -/
def yearChars (year : Int) : List Char :=
  let digits := paddedDigits 4 year.natAbs
  if year < 0 then '-' :: digits else if 9999 < year then '+' :: digits else digits

/-- The fraction of a second: absent, or the shortest of 3, 6 and 9 digits. -/
def fractionChars (nanos : Nat) : List Char :=
  if nanos = 0 then []
  else if nanos % 1000000 = 0 then '.' :: paddedDigits 3 (nanos / 1000000)
  else if nanos % 1000 = 0 then '.' :: paddedDigits 6 (nanos / 1000)
  else '.' :: paddedDigits 9 nanos

/-- Date and time of a timestamp. -/
def render (t : Timestamp) : String :=
  let date := Date.ofDays (t.seconds.fdiv 86400)
  let time := (t.seconds.fmod 86400).toNat
  let leap := 1000000000 ≤ t.nanos
  let second := time % 60 + if leap then 1 else 0
  let nanos := if leap then t.nanos - 1000000000 else t.nanos
  String.ofList (yearChars date.year ++ '-' :: paddedDigits 2 date.month.toNat
    ++ '-' :: paddedDigits 2 date.day.toNat ++ 'T' :: paddedDigits 2 (time / 3600)
    ++ ':' :: paddedDigits 2 (time / 60 % 60) ++ ':' :: paddedDigits 2 second
    ++ fractionChars nanos ++ ['Z'])

end Timestamp

end ConfigAudit
