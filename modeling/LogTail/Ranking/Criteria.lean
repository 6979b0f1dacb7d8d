import LogTail.Json.Decode

namespace LogTail.Ranking

inductive Measure
  | alphabetical
  | numeric
  | timestamp (layout location : String)
  deriving DecidableEq, Repr

/-- Unless it is ascending, a rule puts greater values first. -/
structure Rule where
  key : String
  ascending : Bool
  measure : Measure
  deriving DecidableEq, Repr

structure Criteria where
  regex : String
  top : Nat
  rules : List Rule
  deriving DecidableEq, Repr

open Json

namespace Measure

inductive Name
  | alphabetical | numeric | timestamp
  deriving DecidableEq, Repr

def Name.text : Name → String
  | .alphabetical => "alphabetical"
  | .numeric => "numeric"
  | .timestamp => "timestamp"

def names : List (String × Name) :=
  [Name.alphabetical, .numeric, .timestamp].map fun n => (n.text, n)

def Name.expected : Name → String
  | .alphabetical => "struct variant SortRule::Alphabetical"
  | .numeric => "struct variant SortRule::Numeric"
  | .timestamp => "struct variant SortRule::Timestamp"

def Name.blank : Name → Measure
  | .alphabetical => .alphabetical
  | .numeric => .numeric
  | .timestamp => .timestamp "" "UTC"

def name : Measure → Name
  | .alphabetical => .alphabetical
  | .numeric => .numeric
  | .timestamp _ _ => .timestamp

def withLayout (layout : String) : Measure → Measure
  | .timestamp _ location => .timestamp layout location
  | m => m

def withLocation (location : String) : Measure → Measure
  | .timestamp layout _ => .timestamp layout location
  | m => m

end Measure

namespace Rule

def sharedFields : List (Draft.Field Rule) :=
  [⟨["regex_key"], true, fun _ d r => do return { r with key := ← d.asText }⟩,
    ⟨["ascending"], false, fun _ d r => do return { r with ascending := ← d.asBool }⟩]

def timestampFields : List (Draft.Field Rule) :=
  [⟨["layout"], true, fun _ d r => do return { r with measure := r.measure.withLayout (← d.asText) }⟩,
    ⟨["location"], false,
      fun _ d r => do return { r with measure := r.measure.withLocation (← d.asText) }⟩]

def fields : Measure.Name → List (Draft.Field Rule)
  | .timestamp => sharedFields ++ timestampFields
  | _ => sharedFields

def tag : String := "sort_type"

def ofDraft (src : Source) (d : Draft) : Decoded Rule := do
  let (name, rest) ← d.asTagged src "internally tagged enum SortRule" tag Measure.names
  rest.asRecord .aside name.expected (fields name) ⟨"", false, name.blank⟩

end Rule

namespace Criteria

def default : Criteria := ⟨"", 1, []⟩

def fields : List (Draft.Field Criteria) :=
  [⟨["regex"], false, fun _ d c => do return { c with regex := ← d.asText }⟩,
    ⟨["top_n"], false, fun _ d c => do return { c with top := ← d.asSize }⟩,
    ⟨["sort_by"], false, fun src d c => do return { c with rules := ← d.asList src Rule.ofDraft }⟩]

def ofDraft (src : Source) (d : Draft) : Decoded Criteria :=
  d.asRecord src "struct OrderingCriteria" fields default

def isEmpty (c : Criteria) : Bool := c.regex.isEmpty && c.rules.isEmpty

end Criteria

end LogTail.Ranking
