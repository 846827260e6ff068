import BooleanSearch.Text.Basic

/-!
# Points in time

An instant is counted in seconds from the start of 1970 in universal time, with the offset of the
zone in which it was written. Days are counted in the proleptic Gregorian calendar.
-/

namespace BooleanSearch

/-- A point in time and the offset, in seconds, of the zone in which it was written. -/
structure Instant where
  seconds : Int
  nanos : Nat
  offset : Int
  deriving DecidableEq, Repr

namespace Calendar

def isLeap (year : Int) : Bool := year % 4 = 0 && (year % 100 ≠ 0 || year % 400 = 0)

def daysInMonth (year : Int) (month : Nat) : Nat :=
  if month = 2 then (if isLeap year then 29 else 28)
  else if month = 4 ∨ month = 6 ∨ month = 9 ∨ month = 11 then 30
  else 31

/-- The number of days from the start of 1970 to a date. Years are counted from March, so that a
leap day comes last. -/
def daysFromEpoch (year : Int) (month day : Nat) : Int :=
  let y := if month ≤ 2 then year - 1 else year
  let era := y.fdiv 400
  let yearOfEra := y - era * 400
  let monthFromMarch : Int := if 2 < month then month - 3 else month + 9
  let dayOfYear := (153 * monthFromMarch + 2) / 5 + day - 1
  era * 146097 + (yearOfEra * 365 + yearOfEra / 4 - yearOfEra / 100 + dayOfYear) - 719468

def dateOfDays (days : Int) : Int × Nat × Nat :=
  let z := days + 719468
  let era := z.fdiv 146097
  let dayOfEra := z - era * 146097
  let yearOfEra :=
    (dayOfEra - dayOfEra / 1460 + dayOfEra / 36524 - dayOfEra / 146096) / 365
  let dayOfYear := dayOfEra - (365 * yearOfEra + yearOfEra / 4 - yearOfEra / 100)
  let monthFromMarch := (5 * dayOfYear + 2) / 153
  let day := dayOfYear - (153 * monthFromMarch + 2) / 5 + 1
  let month := if monthFromMarch < 10 then monthFromMarch + 3 else monthFromMarch - 9
  let year := yearOfEra + era * 400
  (if month ≤ 2 then year + 1 else year, month.toNat, day.toNat)

end Calendar

def Instant.millis (i : Instant) : Int := i.seconds * 1000 + (i.nanos / 1000000 : Nat)

end BooleanSearch
