import LogTail.Time.Fields
import LogTail.Time.Format

namespace LogTail.Time

/-- What a step reads from the front of a text, and what is left of it. -/
abbrev Taken (α : Type) := α × List Char

namespace Taken

def byteSize (cs : List Char) : Nat := cs.foldl (fun n c => n + c.utf8Size) 0

def trimStart (cs : List Char) : List Char := cs.dropWhile Layout.isSpace

def value (ds : List Char) : Nat := ds.foldl (fun n d => n * 10 + (d.toNat - '0'.toNat)) 0

/-- A number of at least `min` digits, the run of digits cut at `max` if there is such a limit. -/
def number (min : Nat) (max : Option Nat) (cs : List Char) : Except Fault (Taken Nat) :=
  let ds := (max.elim cs cs.take).takeWhile Char.isDigit
  if byteSize cs < min then .error .tooShort
  else if ds.length < min then .error .invalid
  else if 0x8000000000000000 ≤ value ds then .error .outOfRange
  else .ok (value ds, cs.drop ds.length)

def literal (s cs : List Char) : Except Fault (Taken Unit) :=
  if byteSize cs < byteSize s then .error .tooShort
  else if s.isPrefixOf cs then .ok ((), cs.drop s.length)
  else .error .invalid

/-- A number which may have a sign; with a sign it may have any number of digits. -/
def signed (max : Nat) (cs : List Char) : Except Fault (Taken Int) :=
  match cs with
  | '-' :: t => (number 1 none t).map fun (n, t) => (-(n : Int), t)
  | '+' :: t => (number 1 none t).map fun (n, t) => ((n : Int), t)
  | cs => (number 1 (some max) cs).map fun (n, t) => ((n : Int), t)

def unsigned (max : Option Nat) (cs : List Char) : Except Fault (Taken Int) :=
  (number 1 max cs).map fun (n, t) => ((n : Int), t)

def sameLetters (a b : List Char) : Bool := a.map Char.toLower == b.map Char.toLower

def shortNameOf (names : List String) (cs : List Char) : Except Fault (Taken Nat) :=
  if byteSize cs < 3 then .error .tooShort
  else
    match names.findIdx? fun name => sameLetters (name.toList.take 3) (cs.take 3) with
    | some i => .ok (i, cs.drop 3)
    | none => .error .invalid

def nameOf (names : List String) (cs : List Char) : Except Fault (Taken Nat) := do
  let (i, rest) ← shortNameOf names cs
  let more := (names.getD i "").toList.drop 3
  return (i, if sameLetters more (rest.take more.length) then rest.drop more.length else rest)

def half (cs : List Char) : Except Fault (Taken Bool) :=
  if byteSize cs < 2 then .error .tooShort
  else if sameLetters (cs.take 2) ['a', 'm'] then .ok (false, cs.drop 2)
  else if sameLetters (cs.take 2) ['p', 'm'] then .ok (true, cs.drop 2)
  else .error .invalid

/-- The digits of a fraction of a second; those behind the ninth do not count. -/
def fraction (cs : List Char) : Except Fault (Taken Nat) := do
  let (n, rest) ← number 1 (some 9) cs
  return (n * Nat.pow 10 (9 - (cs.length - rest.length)), rest.dropWhile Char.isDigit)

def fixedFraction (digits : Nat) (cs : List Char) : Except Fault (Taken Nat) := do
  let (n, rest) ← number digits (some digits) cs
  return (n * Nat.pow 10 (9 - digits), rest)

def twoDigits (cs : List Char) : Except Fault (Nat × Nat) :=
  match cs with
  | a :: b :: _ =>
    if a.isDigit && b.isDigit then .ok (value [a], value [b]) else .error .invalid
  | cs => if byteSize cs < 2 then .error .tooShort else .error .invalid

def sign : List Char → Except Fault (Taken Bool)
  | [] => .error .tooShort
  | c :: t =>
    if c = '+' then .ok (false, t)
    else if c = '-' ∨ c = '−' then .ok (true, t)
    else .error .invalid

def colonOrSpace (c : Char) : Bool := c = ':' || Layout.isSpace c

def offset (cs : List Char) : Except Fault (Taken Int) := do
  let (negative, cs) ← sign cs
  let (h₁, h₂) ← twoDigits cs
  let cs := (cs.drop 2).dropWhile colonOrSpace
  let (m₁, m₂) ← twoDigits cs
  if 5 < m₁ then .error .outOfRange
  else
    let seconds : Int := ((h₁ * 10 + h₂) * 3600 + (m₁ * 10 + m₂) * 60 : Nat)
    return (if negative then -seconds else seconds, cs.drop 2)

def zone (cs : List Char) : Except Fault (Taken Int) :=
  if sameLetters (cs.take 3) ['u', 't', 'c'] then .ok (0, cs.drop 3)
  else
    match cs with
    | c :: t => if c = 'Z' ∨ c = 'z' then .ok (0, t) else offset cs
    | [] => offset cs

end Taken

namespace Numeric

def maxDigits : Numeric → Option Nat
  | .year | .isoYear => some 4
  | .quarter | .daysFromSun | .daysFromMon => some 1
  | .ordinal => some 3
  | .nanosecond => some 9
  | .timestamp => none
  | _ => some 2

def set : Numeric → Int → Fields → Except Fault Fields
  | .year => Fields.setYear
  | .yearDiv100 => Fields.setYearDiv100
  | .yearMod100 => Fields.setYearMod100
  | .isoYear => Fields.setIsoYear
  | .isoYearMod100 => Fields.setIsoYearMod100
  | .quarter => Fields.setQuarter
  | .month => Fields.setMonth
  | .day => Fields.setDay
  | .weekFromSun => Fields.setWeekFromSun
  | .weekFromMon => Fields.setWeekFromMon
  | .isoWeek => Fields.setIsoWeek
  | .daysFromSun => Fields.setDaysFromSun
  | .daysFromMon => Fields.setDaysFromMon
  | .ordinal => Fields.setOrdinal
  | .hour => Fields.setHour
  | .hour12 => Fields.setHour12
  | .minute => Fields.setMinute
  | .second => Fields.setSecond
  | .nanosecond => Fields.setNano
  | .timestamp => Fields.setTimestamp

def take (n : Numeric) (cs : List Char) : Except Fault (Taken Int) :=
  let cs := Taken.trimStart cs
  match n with
  | .year | .isoYear => Taken.signed 4 cs
  | n => Taken.unsigned n.maxDigits cs

def read (n : Numeric) (f : Fields) (cs : List Char) : Except Fault (Taken Fields) := do
  let (v, rest) ← n.take cs
  return (← n.set v f, rest)

end Numeric

namespace Fields

def readFraction (read : List Char → Except Fault (Taken Nat)) (f : Fields) (cs : List Char) :
    Except Fault (Taken Fields) :=
  match cs with
  | '.' :: t => do
    let (n, rest) ← read t
    return (← f.setNano n, rest)
  | cs => .ok (f, cs)

def readFixedFraction (digits : Nat) (f : Fields) (cs : List Char) : Except Fault (Taken Fields) := do
  let (n, rest) ← Taken.fixedFraction digits cs
  return (← f.setNano n, rest)

def readOffset (f : Fields) (cs : List Char) : Except Fault (Taken Fields) := do
  let (v, rest) ← Taken.offset (Taken.trimStart cs)
  return (← f.setOffset v, rest)

def readSeparated (separator : Char) : List Numeric → Fields → List Char → Except Fault (Taken Fields)
  | [], f, cs => .ok (f, cs)
  | [n], f, cs => n.read f cs
  | n :: ns, f, cs => do
    let (f, cs) ← n.read f cs
    let ((), cs) ← Taken.literal [separator] (Taken.trimStart cs)
    readSeparated separator ns f cs

def dateEnd : List Char → Except Fault (Taken Unit)
  | [] => .error .tooShort
  | c :: t => if c = 't' ∨ c = 'T' ∨ c = ' ' then .ok ((), t) else .error .invalid

def readRfc3339 (f : Fields) (cs : List Char) : Except Fault (Taken Fields) := do
  let (f, cs) ← f.readSeparated '-' [.year, .month, .day] cs
  let ((), cs) ← dateEnd cs
  let (f, cs) ← f.readSeparated ':' [.hour, .minute, .second] cs
  let (f, cs) ← f.readFraction Taken.fraction cs
  let (v, cs) ← Taken.zone (Taken.trimStart cs)
  return (← f.setOffset v, cs)

def readFixed (fx : Fixed) (f : Fields) (cs : List Char) : Except Fault (Taken Fields) :=
  match fx with
  | .shortMonth => do
    let (i, rest) ← Taken.shortNameOf monthNames cs
    return (← f.setMonth (i + 1), rest)
  | .longMonth => do
    let (i, rest) ← Taken.nameOf monthNames cs
    return (← f.setMonth (i + 1), rest)
  | .shortWeekday => do
    let (i, rest) ← Taken.shortNameOf weekdayNames cs
    return (← f.setWeekday i, rest)
  | .longWeekday => do
    let (i, rest) ← Taken.nameOf weekdayNames cs
    return (← f.setWeekday i, rest)
  | .lowerAmPm | .upperAmPm => do
    let (afternoon, rest) ← Taken.half cs
    return (← f.setHalf afternoon, rest)
  | .fraction => f.readFraction Taken.fraction cs
  | .fraction3 => f.readFraction (Taken.fixedFraction 3) cs
  | .fraction6 => f.readFraction (Taken.fixedFraction 6) cs
  | .fraction9 => f.readFraction (Taken.fixedFraction 9) cs
  | .digits3 => f.readFixedFraction 3 cs
  | .digits6 => f.readFixedFraction 6 cs
  | .digits9 => f.readFixedFraction 9 cs
  | .zoneName => .ok (f, cs.dropWhile fun c => !Layout.isSpace c)
  | .offset | .offsetColon | .offsetDoubleColon | .offsetTripleColon | .offsetPermissive =>
    f.readOffset cs
  | .rfc3339 => f.readRfc3339 cs

def readItem (item : Item) (f : Fields) (cs : List Char) : Except Fault (Taken Fields) :=
  match item with
  | .literal s => do
    let ((), rest) ← Taken.literal s cs
    return (f, rest)
  | .space _ => .ok (f, Taken.trimStart cs)
  | .numeric n _ => n.read f cs
  | .fixed fx => readFixed fx f cs
  | .error => .error .badFormat

def readItems : Layout → Fields → List Char → Except Fault (Taken Fields)
  | [], f, cs => .ok (f, cs)
  | item :: layout, f, cs => do
    let (f, rest) ← readItem item f cs
    readItems layout f rest

def ofText (layout : Layout) (s : String) : Except Fault Fields :=
  match readItems layout empty s.toList with
  | .error e => .error e
  | .ok (f, []) => .ok f
  | .ok (_, _ :: _) => .error .tooLong

end Fields

end LogTail.Time
