import LogTail.Unicode.CharSet

namespace LogTail.Time

inductive Pad
  | none | zero | space
  deriving DecidableEq, Repr

inductive Numeric
  | year | yearDiv100 | yearMod100 | isoYear | isoYearMod100 | quarter | month | day
  | weekFromSun | weekFromMon | isoWeek | daysFromSun | daysFromMon | ordinal
  | hour | hour12 | minute | second | nanosecond | timestamp
  deriving DecidableEq, Repr

inductive Fixed
  | shortMonth | longMonth | shortWeekday | longWeekday | lowerAmPm | upperAmPm
  | fraction | fraction3 | fraction6 | fraction9 | digits3 | digits6 | digits9
  | zoneName | offset | offsetColon | offsetDoubleColon | offsetTripleColon | offsetPermissive
  | rfc3339
  deriving DecidableEq, Repr

inductive Item
  | literal (s : List Char)
  | space (s : List Char)
  | numeric (n : Numeric) (pad : Pad)
  | fixed (f : Fixed)
  | error
  deriving DecidableEq, Repr

abbrev Layout := List Item

namespace Layout

def isSpace (c : Char) : Bool := Unicode.whiteSpace.contains c

def zero (n : Numeric) : Item := .numeric n .zero

def lit (c : Char) : Item := .literal [c]

def blank : Item := .space [' ']

def clock : Layout := [zero .hour, lit ':', zero .minute, lit ':', zero .second]

def slashed : Layout := [zero .month, lit '/', zero .day, lit '/', zero .yearMod100]

def specifier : Char → Layout
  | 'A' => [.fixed .longWeekday]
  | 'B' => [.fixed .longMonth]
  | 'C' => [zero .yearDiv100]
  | 'D' => slashed
  | 'F' => [zero .year, lit '-', zero .month, lit '-', zero .day]
  | 'G' => [zero .isoYear]
  | 'H' => [zero .hour]
  | 'I' => [zero .hour12]
  | 'M' => [zero .minute]
  | 'P' => [.fixed .lowerAmPm]
  | 'R' => [zero .hour, lit ':', zero .minute]
  | 'S' => [zero .second]
  | 'T' => clock
  | 'U' => [zero .weekFromSun]
  | 'V' => [zero .isoWeek]
  | 'W' => [zero .weekFromMon]
  | 'X' => clock
  | 'Y' => [zero .year]
  | 'Z' => [.fixed .zoneName]
  | 'a' => [.fixed .shortWeekday]
  | 'b' => [.fixed .shortMonth]
  | 'h' => [.fixed .shortMonth]
  | 'c' =>
    [.fixed .shortWeekday, blank, .fixed .shortMonth, blank, .numeric .day .space, blank] ++ clock ++
      [blank, zero .year]
  | 'd' => [zero .day]
  | 'e' => [.numeric .day .space]
  | 'f' => [zero .nanosecond]
  | 'g' => [zero .isoYearMod100]
  | 'j' => [zero .ordinal]
  | 'k' => [.numeric .hour .space]
  | 'l' => [.numeric .hour12 .space]
  | 'm' => [zero .month]
  | 'n' => [.space ['\n']]
  | 'p' => [.fixed .upperAmPm]
  | 'q' => [.numeric .quarter .none]
  | 'r' =>
    [zero .hour12, lit ':', zero .minute, lit ':', zero .second, blank, .fixed .upperAmPm]
  | 's' => [.numeric .timestamp .none]
  | 't' => [.space ['\t']]
  | 'u' => [.numeric .daysFromMon .none]
  | 'v' => [.numeric .day .space, lit '-', .fixed .shortMonth, lit '-', zero .year]
  | 'w' => [.numeric .daysFromSun .none]
  | 'x' => slashed
  | 'y' => [zero .yearMod100]
  | 'z' => [.fixed .offset]
  | '+' => [.fixed .rfc3339]
  | '%' => [lit '%']
  | _ => [.error]

def longSpecifier (c : Char) (t : List Char) : Layout × List Char :=
  match c, t with
  | ':', ':' :: ':' :: 'z' :: t => ([.fixed .offsetTripleColon], t)
  | ':', ':' :: 'z' :: t => ([.fixed .offsetDoubleColon], t)
  | ':', 'z' :: t => ([.fixed .offsetColon], t)
  | '.', 'f' :: t => ([.fixed .fraction], t)
  | '.', '3' :: 'f' :: t => ([.fixed .fraction3], t)
  | '.', '6' :: 'f' :: t => ([.fixed .fraction6], t)
  | '.', '9' :: 'f' :: t => ([.fixed .fraction9], t)
  | '3', 'f' :: t => ([.fixed .digits3], t)
  | '6', 'f' :: t => ([.fixed .digits6], t)
  | '9', 'f' :: t => ([.fixed .digits9], t)
  | c, t => (specifier c, t)

def padOf : Char → Option Pad
  | '-' => some .none
  | '0' => some .zero
  | '_' => some .space
  | _ => none

def repad (p : Pad) : Layout → Layout
  | [.numeric n _] => [.numeric n p]
  | _ => [.error]

def directive : List Char → Layout × List Char
  | [] => ([.error], [])
  | c :: t =>
    match padOf c, t with
    | some _, [] => ([.error], [])
    | some p, d :: t =>
      let (items, rest) := longSpecifier d t
      (repad p items, rest)
    | none, t =>
      if c = '#' then
        match t with
        | 'z' :: t => ([.fixed .offsetPermissive], t)
        | _ => ([.error], [])
      else longSpecifier c t

def readFrom : Nat → List Char → Layout
  | 0, _ => []
  | fuel + 1, cs =>
    match cs with
    | [] => []
    | '%' :: t =>
      let (items, rest) := directive t
      items ++ readFrom fuel rest
    | c :: t =>
      if isSpace c then
        .space (c :: t.takeWhile isSpace) :: readFrom fuel (t.dropWhile isSpace)
      else
        let isText (c : Char) : Bool := !isSpace c && c ≠ '%'
        .literal (c :: t.takeWhile isText) :: readFrom fuel (t.dropWhile isText)

def ofText (s : String) : Layout := readFrom s.length s.toList

end Layout

end LogTail.Time
