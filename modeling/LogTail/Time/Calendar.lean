namespace LogTail.Time

structure Date where
  year : Int
  month : Nat
  day : Nat
  deriving DecidableEq, Repr

/-- The time of a day. A leap second has the second 59 and more than a thousand million
nanoseconds. -/
structure Clock where
  hour : Nat
  minute : Nat
  second : Nat
  nano : Nat
  deriving DecidableEq, Repr

structure DateTime where
  date : Date
  clock : Clock
  deriving DecidableEq, Repr

def isLeap (y : Int) : Bool := y % 4 = 0 && (y % 100 ≠ 0 || y % 400 = 0)

def daysInYear (y : Int) : Nat := if isLeap y then 366 else 365

def daysInMonth (y : Int) (m : Nat) : Nat :=
  if m = 2 then (if isLeap y then 29 else 28)
  else if m = 4 ∨ m = 6 ∨ m = 9 ∨ m = 11 then 30
  else 31

def daysBefore (y : Int) (m : Nat) : Nat :=
  (List.range (m - 1)).foldl (fun n k => n + daysInMonth y (k + 1)) 0

def daysToYear (y : Int) : Int :=
  365 * (y - 1) + (y - 1).fdiv 4 - (y - 1).fdiv 100 + (y - 1).fdiv 400

def firstYear : Int := -262143

def lastYear : Int := 262142

namespace Date

def ordinal (d : Date) : Nat := daysBefore d.year d.month + d.day

def dayNumber (d : Date) : Int := daysToYear d.year + d.ordinal - 1

def weekday (d : Date) : Nat := (d.dayNumber % 7).toNat

def isInRange (y : Int) : Bool := firstYear ≤ y && y ≤ lastYear

def ofParts? (y : Int) (m d : Nat) : Option Date :=
  if isInRange y && 1 ≤ m && m ≤ 12 && 1 ≤ d && d ≤ daysInMonth y m then some ⟨y, m, d⟩ else none

def monthOf (y : Int) : Nat → Nat → Nat → Nat × Nat
  | 0, m, o => (m, o)
  | fuel + 1, m, o =>
    if o ≤ daysInMonth y m then (m, o) else monthOf y fuel (m + 1) (o - daysInMonth y m)

def ofOrdinal? (y : Int) (o : Nat) : Option Date :=
  if isInRange y && 1 ≤ o && o ≤ daysInYear y then
    let (m, d) := monthOf y 11 1 o
    some ⟨y, m, d⟩
  else none

/-- The day a number of days, counted from 1, into a year; also in the years around it. -/
def ofOffset? (y : Int) (n : Int) : Option Date :=
  if n < 1 then ofOrdinal? (y - 1) (n + daysInYear (y - 1)).toNat
  else if (daysInYear y : Int) < n then ofOrdinal? (y + 1) (n - daysInYear y).toNat
  else ofOrdinal? y n.toNat

def quarter (d : Date) : Nat := (d.month - 1) / 3 + 1

/-- The week of the year when weeks begin on `start`; days before the first such week are in week
0. -/
def weekFrom (start : Nat) (d : Date) : Nat :=
  (d.ordinal + 6 - (d.weekday + 7 - start) % 7) / 7

end Date

def weekdayOfNewYear (y : Int) : Nat := (daysToYear y % 7).toNat

/-- A year has 53 weeks if it begins on a Thursday, or if it is a leap year that begins on a
Wednesday. -/
def weeksInYear (y : Int) : Nat :=
  if weekdayOfNewYear y = 3 ∨ (isLeap y ∧ weekdayOfNewYear y = 2) then 53 else 52

namespace Date

/-- The year and number of the week, where a week belongs to the year of its Thursday. -/
def isoWeek (d : Date) : Int × Nat :=
  let n := (d.ordinal + 9 - d.weekday) / 7
  if n = 0 then (d.year - 1, weeksInYear (d.year - 1))
  else if weeksInYear d.year < n then (d.year + 1, 1)
  else (d.year, n)

def ofIsoWeek? (y : Int) (week weekday : Nat) : Option Date :=
  if week = 0 ∨ weeksInYear y < week then none
  else
    let w := weekdayOfNewYear y
    -- the Monday of the first week, counted from the first of January as 1
    let monday : Int := if w ≤ 3 then 1 - w else 8 - w
    ofOffset? y (monday + 7 * ((week : Int) - 1) + weekday)

def ofWeek (y : Int) (week weekday start : Nat) : Int :=
  let first : Int := 1 + ((start + 7 - weekdayOfNewYear y) % 7 : Nat)
  first + 7 * ((week : Int) - 1) + ((weekday + 7 - start) % 7 : Nat)

end Date

namespace DateTime

def epochDay : Int := 719162

/-- Seconds since the start of 1970, where a leap second counts as the second before it. -/
def seconds (t : DateTime) : Int :=
  (t.date.dayNumber - epochDay) * 86400 +
    (t.clock.hour * 3600 + t.clock.minute * 60 + t.clock.second : Nat)

def compare (s t : DateTime) : Ordering :=
  (Ord.compare s.seconds t.seconds).then (Ord.compare s.clock.nano t.clock.nano)

def minusSeconds (t : DateTime) (n : Int) : Option DateTime :=
  let s : Int := (t.clock.hour * 3600 + t.clock.minute * 60 + t.clock.second : Nat) - n
  let clock (r : Nat) : Clock := ⟨r / 3600, r / 60 % 60, r % 60, t.clock.nano⟩
  (Date.ofOffset? t.date.year (t.date.ordinal + s.fdiv 86400)).map fun d =>
    ⟨d, clock (s.fmod 86400).toNat⟩

end DateTime

end LogTail.Time
