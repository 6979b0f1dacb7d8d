import LogTail.Time.Calendar
import LogTail.Time.Layout

namespace LogTail.Time

def monthNames : List String :=
  ["January", "February", "March", "April", "May", "June", "July", "August", "September", "October",
    "November", "December"]

def weekdayNames : List String :=
  ["Monday", "Tuesday", "Wednesday", "Thursday", "Friday", "Saturday", "Sunday"]

def shortName (name : String) : String := String.ofList (name.toList.take 3)

namespace Layout

def padded (width : Nat) (p : Pad) (n : Nat) : String :=
  let ds := Nat.toDigits 10 n
  match p with
  | .none => String.ofList ds
  | .zero => String.ofList (List.replicate (width - ds.length) '0' ++ ds)
  | .space => String.ofList (List.replicate (width - ds.length) ' ' ++ ds)

def zeros (width n : Nat) : String := padded width .zero n

def shownHour12 (h : Nat) : Nat := if h % 12 = 0 then 12 else h % 12

def shownSecond (c : Clock) : Nat := c.second + c.nano / 1000000000

def writeNumeric (t : DateTime) (p : Pad) : Numeric → String
  | .year => padded 4 p t.date.year.toNat
  | .yearDiv100 => padded 2 p (t.date.year.toNat / 100)
  | .yearMod100 => padded 2 p (t.date.year.toNat % 100)
  | .isoYear => padded 4 p t.date.isoWeek.1.toNat
  | .isoYearMod100 => padded 2 p (t.date.isoWeek.1.toNat % 100)
  | .quarter => toString t.date.quarter
  | .month => padded 2 p t.date.month
  | .day => padded 2 p t.date.day
  | .weekFromSun => padded 2 p (t.date.weekFrom 6)
  | .weekFromMon => padded 2 p (t.date.weekFrom 0)
  | .isoWeek => padded 2 p t.date.isoWeek.2
  | .daysFromSun => toString ((t.date.weekday + 1) % 7)
  | .daysFromMon => toString (t.date.weekday + 1)
  | .ordinal => padded 3 p t.date.ordinal
  | .hour => padded 2 p t.clock.hour
  | .hour12 => padded 2 p (shownHour12 t.clock.hour)
  | .minute => padded 2 p t.clock.minute
  | .second => padded 2 p (shownSecond t.clock)
  | .nanosecond => padded 9 p (t.clock.nano % 1000000000)
  | .timestamp => padded 9 p t.seconds.toNat

/-- A fraction of a second in the fewest of three, six or nine digits, none if it is zero. -/
def writeFraction (nano : Nat) : String :=
  if nano = 0 then ""
  else if nano % 1000000 = 0 then "." ++ zeros 3 (nano / 1000000)
  else if nano % 1000 = 0 then "." ++ zeros 6 (nano / 1000)
  else "." ++ zeros 9 nano

def writeRfc3339 (t : DateTime) : String :=
  zeros 4 t.date.year.toNat ++ "-" ++ zeros 2 t.date.month ++ "-" ++ zeros 2 t.date.day ++ "T" ++
    zeros 2 t.clock.hour ++ ":" ++ zeros 2 t.clock.minute ++ ":" ++ zeros 2 (shownSecond t.clock) ++
    writeFraction (t.clock.nano % 1000000000) ++ "+00:00"

/-- An offset of unknown precision can be read but not written. -/
def writeFixed? (t : DateTime) (f : Fixed) : Option String :=
  let month := monthNames.getD (t.date.month - 1) ""
  let weekday := weekdayNames.getD t.date.weekday ""
  let nano := t.clock.nano % 1000000000
  match f with
  | .shortMonth => some (shortName month)
  | .longMonth => some month
  | .shortWeekday => some (shortName weekday)
  | .longWeekday => some weekday
  | .lowerAmPm => some (if t.clock.hour < 12 then "am" else "pm")
  | .upperAmPm => some (if t.clock.hour < 12 then "AM" else "PM")
  | .fraction => some (writeFraction nano)
  | .fraction3 => some ("." ++ zeros 3 (nano / 1000000))
  | .fraction6 => some ("." ++ zeros 6 (nano / 1000))
  | .fraction9 => some ("." ++ zeros 9 nano)
  | .digits3 => some (zeros 3 (nano / 1000000))
  | .digits6 => some (zeros 6 (nano / 1000))
  | .digits9 => some (zeros 9 nano)
  | .zoneName => some "UTC"
  | .offset => some "+0000"
  | .offsetColon => some "+00:00"
  | .offsetDoubleColon => some "+00:00:00"
  | .offsetTripleColon => some "+00"
  | .offsetPermissive => none
  | .rfc3339 => some (writeRfc3339 t)

def writeItem? (t : DateTime) : Item → Option String
  | .literal s => some (String.ofList s)
  | .space s => some (String.ofList s)
  | .numeric n p => some (writeNumeric t p n)
  | .fixed f => writeFixed? t f
  | .error => none

def write? (layout : Layout) (t : DateTime) : Option String :=
  (layout.mapM (writeItem? t)).map String.join

end Layout

end LogTail.Time
