import LogTail.Time.Calendar

namespace LogTail.Time

inductive Fault
  | outOfRange | impossible | notEnough | invalid | tooShort | tooLong | badFormat
  deriving DecidableEq, Repr

def Fault.message : Fault → String
  | .outOfRange => "input is out of range"
  | .impossible => "no possible date and time matching input"
  | .notEnough => "input is not enough for unique date and time"
  | .invalid => "input contains invalid characters"
  | .tooShort => "premature end of input"
  | .tooLong => "trailing input"
  | .badFormat => "bad or unsupported format string"

/-- What was read of a date and time. A field keeps its first value, and a second one must agree with
it. -/
structure Fields where
  year : Option Int
  yearDiv100 : Option Int
  yearMod100 : Option Int
  isoYear : Option Int
  isoYearMod100 : Option Int
  quarter : Option Nat
  month : Option Nat
  weekFromSun : Option Nat
  weekFromMon : Option Nat
  isoWeek : Option Nat
  weekday : Option Nat
  ordinal : Option Nat
  day : Option Nat
  half : Option Nat
  hour12 : Option Nat
  minute : Option Nat
  second : Option Nat
  nano : Option Nat
  timestamp : Option Int
  offset : Option Int
  deriving DecidableEq, Repr

namespace Fields

def empty : Fields :=
  ⟨none, none, none, none, none, none, none, none, none, none, none, none, none, none, none, none,
    none, none, none, none⟩

variable {α : Type} [DecidableEq α]

def agree (old : Option α) (new : α) : Except Fault (Option α) :=
  match old with
  | none => .ok (some new)
  | some a => if a = new then .ok old else .error .impossible

def within (low high : Int) (v : Int) : Except Fault Nat :=
  if low ≤ v ∧ v ≤ high then .ok v.toNat else .error .outOfRange

def yearLimit : Int := 0x80000000

def setYear (v : Int) (f : Fields) : Except Fault Fields := do
  if v < -yearLimit ∨ yearLimit ≤ v then .error .outOfRange
  else return { f with year := ← agree f.year v }

def setYearDiv100 (v : Int) (f : Fields) : Except Fault Fields := do
  return { f with yearDiv100 := ← agree f.yearDiv100 (← within 0 (yearLimit - 1) v : Nat) }

def setYearMod100 (v : Int) (f : Fields) : Except Fault Fields := do
  return { f with yearMod100 := ← agree f.yearMod100 (← within 0 99 v : Nat) }

def setIsoYear (v : Int) (f : Fields) : Except Fault Fields := do
  if v < -yearLimit ∨ yearLimit ≤ v then .error .outOfRange
  else return { f with isoYear := ← agree f.isoYear v }

def setIsoYearMod100 (v : Int) (f : Fields) : Except Fault Fields := do
  return { f with isoYearMod100 := ← agree f.isoYearMod100 (← within 0 99 v : Nat) }

def setQuarter (v : Int) (f : Fields) : Except Fault Fields := do
  return { f with quarter := ← agree f.quarter (← within 1 4 v) }

def setMonth (v : Int) (f : Fields) : Except Fault Fields := do
  return { f with month := ← agree f.month (← within 1 12 v) }

def setWeekFromSun (v : Int) (f : Fields) : Except Fault Fields := do
  return { f with weekFromSun := ← agree f.weekFromSun (← within 0 53 v) }

def setWeekFromMon (v : Int) (f : Fields) : Except Fault Fields := do
  return { f with weekFromMon := ← agree f.weekFromMon (← within 0 53 v) }

def setIsoWeek (v : Int) (f : Fields) : Except Fault Fields := do
  return { f with isoWeek := ← agree f.isoWeek (← within 1 53 v) }

def setWeekday (n : Nat) (f : Fields) : Except Fault Fields := do
  return { f with weekday := ← agree f.weekday n }

def setDaysFromSun (v : Int) (f : Fields) : Except Fault Fields := do
  setWeekday (((← within 0 6 v) + 6) % 7) f

def setDaysFromMon (v : Int) (f : Fields) : Except Fault Fields := do
  setWeekday ((← within 1 7 v) - 1) f

def setOrdinal (v : Int) (f : Fields) : Except Fault Fields := do
  return { f with ordinal := ← agree f.ordinal (← within 1 366 v) }

def setDay (v : Int) (f : Fields) : Except Fault Fields := do
  return { f with day := ← agree f.day (← within 1 31 v) }

def setHalf (afternoon : Bool) (f : Fields) : Except Fault Fields := do
  return { f with half := ← agree f.half (if afternoon then 1 else 0) }

def setHour12 (v : Int) (f : Fields) : Except Fault Fields := do
  return { f with hour12 := ← agree f.hour12 ((← within 1 12 v) % 12) }

/-- Sets the half of the day even if the hour within it then does not agree. -/
def halfOfHour (v : Int) (f : Fields) : Except Fault Fields := do
  return { f with half := ← agree f.half ((← within 0 23 v) / 12) }

def hourWithinHalf (v : Int) (f : Fields) : Except Fault Fields := do
  return { f with hour12 := ← agree f.hour12 ((← within 0 23 v) % 12) }

def setHour (v : Int) (f : Fields) : Except Fault Fields := do
  hourWithinHalf v (← halfOfHour v f)

def setMinute (v : Int) (f : Fields) : Except Fault Fields := do
  return { f with minute := ← agree f.minute (← within 0 59 v) }

def setSecond (v : Int) (f : Fields) : Except Fault Fields := do
  return { f with second := ← agree f.second (← within 0 60 v) }

def setNano (v : Int) (f : Fields) : Except Fault Fields := do
  return { f with nano := ← agree f.nano (← within 0 999999999 v) }

def setTimestamp (v : Int) (f : Fields) : Except Fault Fields := do
  return { f with timestamp := ← agree f.timestamp v }

def setOffset (v : Int) (f : Fields) : Except Fault Fields := do
  return { f with offset := ← agree f.offset v }

def attempt (set : Fields → Except Fault Fields) (f : Fields) : Fields :=
  match set f with
  | .ok g => g
  | .error _ => f

/-- Fills in the start of the day where fewer fields were read; fields that were read stay. -/
def fillClock (f : Fields) : Fields :=
  let f :=
    match halfOfHour 0 f with
    | .ok g => attempt (hourWithinHalf 0) g
    | .error _ => f
  attempt (setSecond 0) (attempt (setMinute 0) f)

/-- A year from its whole and its parts. The last two digits alone mean 1970 to 2069. -/
def resolveYear (whole hundreds rest : Option Int) : Except Fault (Option Int) :=
  match whole, hundreds, rest with
  | y, none, none => .ok y
  | some y, q, r =>
    if y < 0 then .error .impossible
    else if q.getD (y / 100) = y / 100 ∧ r.getD (y % 100) = y % 100 then .ok (some y)
    else .error .impossible
  | none, some q, some r =>
    if yearLimit ≤ q * 100 + r then .error .outOfRange else .ok (some (q * 100 + r))
  | none, none, some r => .ok (some (if r < 70 then r + 2000 else r + 1900))
  | none, some _, none => .error .notEnough

def fits (field : Option α) (value : α) : Bool := field.getD value = value

def fitsPart (field : Option Int) (year part : Int) : Bool :=
  match field with
  | none => true
  | some v => 0 ≤ year && v = part

def fitsDate (f : Fields) (d : Date) : Bool :=
  fits f.year d.year && fitsPart f.yearDiv100 d.year (d.year / 100) &&
    fitsPart f.yearMod100 d.year (d.year % 100) && fits f.quarter d.quarter && fits f.month d.month &&
    fits f.day d.day

def fitsIsoWeek (f : Fields) (d : Date) : Bool :=
  fits f.isoYear d.isoWeek.1 && fitsPart f.isoYearMod100 d.isoWeek.1 (d.isoWeek.1 % 100) &&
    fits f.isoWeek d.isoWeek.2 && fits f.weekday d.weekday

def fitsOrdinal (f : Fields) (d : Date) : Bool :=
  fits f.ordinal d.ordinal && fits f.weekFromSun (d.weekFrom 6) && fits f.weekFromMon (d.weekFrom 0)

def orRange (d : Option Date) : Except Fault Date :=
  match d with
  | some d => .ok d
  | none => .error .outOfRange

def weekDate (y : Int) (week weekday start : Nat) : Except Fault Date :=
  if !Date.isInRange y then .error .outOfRange
  else
    let n := Date.ofWeek y week weekday start
    if n ≤ 0 then .error .impossible
    else
      match Date.ofOrdinal? y n.toNat with
      | some d => .ok d
      | none => .error .impossible

def verified (ok : Bool) (d : Date) : Except Fault Date := if ok then .ok d else .error .impossible

/-- The date, from year, month and day, from the day of the year, from a week of the year, or from
a week of its own year. -/
def date (f : Fields) : Except Fault Date := do
  let year ← resolveYear f.year f.yearDiv100 f.yearMod100
  let isoYear ← resolveYear f.isoYear none f.isoYearMod100
  match year, f.month, f.day with
  | some y, some m, some day => do
    let d ← orRange (Date.ofParts? y m day)
    verified (fits f.quarter d.quarter && f.fitsIsoWeek d && f.fitsOrdinal d) d
  | _, _, _ =>
    match year, f.ordinal with
    | some y, some o => do
      let d ← orRange (Date.ofOrdinal? y o)
      verified (f.fitsDate d && f.fitsIsoWeek d && f.fitsOrdinal d) d
    | _, _ =>
      match year, f.weekFromSun, f.weekday with
      | some y, some week, some w => do
        let d ← weekDate y week w 6
        verified (f.fitsDate d && f.fitsIsoWeek d && f.fitsOrdinal d) d
      | _, _, _ =>
        match year, f.weekFromMon, f.weekday with
        | some y, some week, some w => do
          let d ← weekDate y week w 0
          verified (f.fitsDate d && f.fitsIsoWeek d && f.fitsOrdinal d) d
        | _, _, _ =>
          match isoYear, f.isoWeek, f.weekday with
          | some y, some week, some w => do
            let d ← orRange (Date.ofIsoWeek? y week w)
            verified (f.fitsDate d && f.fitsOrdinal d) d
          | _, _, _ => .error .notEnough

def clock (f : Fields) : Except Fault Clock :=
  match f.half, f.hour12 with
  | some half, some hour12 =>
    let second := f.second.getD 0
    let leap := if second = 60 then 1000000000 else 0
    if f.nano.isSome ∧ f.second.isNone then .error .notEnough
    else .ok ⟨half * 12 + hour12, f.minute.getD 0, min second 59, leap + f.nano.getD 0⟩
  | _, _ => .error .notEnough

end Fields

end LogTail.Time
