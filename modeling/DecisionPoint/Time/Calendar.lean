/-!
The proleptic Gregorian calendar over day numbers, day 0 being 1 January 1970.
The calendar repeats after an era of 400 years, 146097 days. Years are counted
from March inside an era, so that the leap day is the last day of its year and
the months before it have lengths that one linear formula gives.
-/

namespace DecisionPoint.Time

/-- A calendar date. The year may be zero or negative. -/
structure Date where
  year : Int
  month : Nat
  day : Nat
deriving DecidableEq, Repr

namespace Date

def daysPerEra : Nat := 146097

/-- The day number of 1 March of year 0, counted back from day 0. -/
def eraOffset : Nat := 719468

def isLeapYear (year : Int) : Bool :=
  year % 4 == 0 && (year % 100 != 0 || year % 400 == 0)

def daysInMonth (year : Int) : Nat → Nat
  | 2 => if isLeapYear year then 29 else 28
  | 4 => 30
  | 6 => 30
  | 9 => 30
  | 11 => 30
  | _ => 31

def isValid (d : Date) : Bool :=
  1 ≤ d.month && d.month ≤ 12 && 1 ≤ d.day && d.day ≤ daysInMonth d.year d.month

/-- The day of an era of a day of a year of it, months and years from March. -/
def dayOfEra (year month day : Nat) : Nat :=
  year * 365 + year / 4 - year / 100 + ((153 * month + 2) / 5 + day)

/-- The year of an era, counted from March, that a day of the era lies in. -/
def yearOfEra (n : Nat) : Nat :=
  (n - n / 1460 + n / 36524 - n / 146096) / 365

def toDay (d : Date) : Int :=
  let year := if d.month ≤ 2 then d.year - 1 else d.year
  let month := if d.month ≤ 2 then d.month + 9 else d.month - 3
  year / 400 * daysPerEra + dayOfEra (year % 400).toNat month (d.day - 1) - eraOffset

def ofDay (n : Int) : Date :=
  let shifted := n + eraOffset
  let dayOf := (shifted % daysPerEra).toNat
  let year := yearOfEra dayOf
  let dayOfYear := dayOf - dayOfEra year 0 0
  let month := (5 * dayOfYear + 2) / 153
  let day := dayOfYear - (153 * month + 2) / 5 + 1
  let calendarYear := shifted / daysPerEra * 400 + year
  if month < 10 then ⟨calendarYear, month + 3, day⟩ else ⟨calendarYear + 1, month - 9, day⟩

end Date

end DecisionPoint.Time
