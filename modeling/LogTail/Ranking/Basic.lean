import LogTail.Path
import LogTail.Ranking.Criteria
import LogTail.Regex.Basic
import LogTail.Time.Zone

namespace LogTail

namespace Ranking

inductive Fault
  | noRegex
  | noRules
  | noTop
  | invalidRegex
  | unknownKey (key regex : String)
  | noLayout
  | invalidLayout (layout : String)
  | undated (layout : String) (m : Time.Misreading)
  | invalidLocation (location : String)
  deriving DecidableEq, Repr

def Fault.message? : Fault → Option String
  | .noRegex => some "ordering_criteria.regex must be set when sort rules are configured"
  | .noRules => some "ordering_criteria.sort_by must contain at least one rule"
  | .noTop => some "ordering_criteria.top_n must be at least 1"
  | .invalidRegex => none
  | .unknownKey key regex =>
    some ("sort rule key '" ++ key ++ "' is not a named capture group in '" ++ regex ++ "'")
  | .noLayout => some "timestamp sort rule requires a layout"
  | .invalidLayout layout => some ("invalid timestamp layout '" ++ layout ++ "'")
  | .undated layout m =>
    some ("timestamp layout '" ++ layout ++ "' cannot identify a date: " ++ m.message)
  | .invalidLocation location =>
    some ("invalid location '" ++ location ++
      "'. Valid options: UTC, Local, or an offset like +05:30")

inductive Key
  | text (s : String)
  | number (n : Int)
  | time (t : Time.DateTime)
  deriving DecidableEq, Repr

namespace Key

def rank : Key → Nat
  | .text _ => 0
  | .number _ => 1
  | .time _ => 2

def compare : Key → Key → Ordering
  | .text s, .text t => Ord.compare s t
  | .number m, .number n => Ord.compare m n
  | .time s, .time t => s.compare t
  | a, b => Ord.compare a.rank b.rank

end Key

inductive Gauge
  | alphabetical
  | numeric
  | timestamp (layout : String) (zone : Time.Zone)
  deriving DecidableEq, Repr

namespace Gauge

/-- The time that every layout has to write and read back. -/
def sampleTime : Time.DateTime := ⟨⟨2006, 1, 2⟩, ⟨15, 4, 5, 0⟩⟩

def checkLayout (layout : String) : Except Fault Unit :=
  if layout.isEmpty then .error .noLayout
  else
    match (Time.Layout.ofText layout).write? sampleTime with
    | none => .error (.invalidLayout layout)
    | some sample =>
      match Time.DateTime.ofText layout .universal sample with
      | .error m => .error (.undated layout m)
      | .ok _ => .ok ()

def ofMeasure : Measure → Except Fault Gauge
  | .alphabetical => .ok .alphabetical
  | .numeric => .ok .numeric
  | .timestamp layout location => do
    checkLayout layout
    match Time.Zone.ofText? location with
    | some z => return .timestamp layout z
    | none => .error (.invalidLocation location)

def number? (s : String) : Option Int :=
  let (minus, ds) := match s.toList with
    | '-' :: ds => (true, ds)
    | '+' :: ds => (false, ds)
    | ds => (false, ds)
  if ds.isEmpty || !ds.all Char.isDigit then none
  else
    let n : Int := ds.foldl (fun n d => n * 10 + (d.toNat - '0'.toNat)) 0
    let n := if minus then -n else n
    if -0x8000000000000000 ≤ n ∧ n < 0x8000000000000000 then some n else none

def value? (s : String) : Gauge → Option Key
  | .alphabetical => some (.text s)
  | .numeric => (number? s).map .number
  | .timestamp layout z =>
    match Time.DateTime.ofText layout z s with
    | .ok t => some (.time t)
    | .error _ => none

end Gauge

structure GaugedRule where
  key : String
  ascending : Bool
  gauge : Gauge
  deriving DecidableEq, Repr

def GaugedRule.compare (r : GaugedRule) (a b : Key) : Ordering :=
  if r.ascending then a.compare b else (a.compare b).swap

end Ranking

open Ranking

structure Ranking where
  regex : Regex
  top : Nat
  rules : List GaugedRule

namespace Ranking

def gauged (regex : Regex) (pattern : String) (r : Rule) : Except Fault GaugedRule := do
  if !regex.groupNames.contains r.key then .error (.unknownKey r.key pattern)
  else return ⟨r.key, r.ascending, ← Gauge.ofMeasure r.measure⟩

def ofCriteria (c : Criteria) : Except Fault Ranking :=
  if c.regex.isEmpty then .error .noRegex
  else if c.rules.isEmpty then .error .noRules
  else if c.top = 0 then .error .noTop
  else
    match Regex.ofText? c.regex with
    | none => .error .invalidRegex
    | some regex => do
      let rules ← c.rules.mapM (gauged regex c.regex)
      return ⟨regex, c.top, rules⟩

def ruleValue (groups : List (String × Option String)) (r : GaugedRule) : Option Key :=
  match Json.lookup r.key groups with
  | some (some s) => r.gauge.value? s
  | _ => none

def values (r : Ranking) (p : Path) : Option (List Key) := do
  let groups ← r.regex.search (← p.fileName?)
  r.rules.mapM (ruleValue groups)

/-- The first rule decides, and later rules break ties. -/
def compare : List GaugedRule → List Key → List Key → Ordering
  | r :: rs, a :: as, b :: bs => (r.compare a b).then (compare rs as bs)
  | _, _, _ => .eq

def candidates (r : Ranking) (ps : List Path) : List (Path × List Key) :=
  ps.filterMap fun p => (r.values p).map (p, ·)

def rank (r : Ranking) (ps : List Path) : List Path :=
  let sorted := (r.candidates ps).mergeSort fun a b => compare r.rules a.2 b.2 ≠ .gt
  (sorted.take r.top).map (·.1)

end Ranking

end LogTail
