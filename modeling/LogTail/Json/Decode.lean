import LogTail.Json.Draft

namespace LogTail.Json

inductive Found
  | null
  | bool (b : Bool)
  | number (n : Number)
  | string (s : String)
  | array
  | object

def Found.text (quoted : String → String) : Found → String
  | .null => "null"
  | .bool b => s!"boolean `{b}`"
  | .number (.float bits) => "floating point `" ++ Number.floatText bits ++ "`"
  | .number n => "integer `" ++ n.text ++ "`"
  | .string s => "string " ++ quoted s
  | .array => "sequence"
  | .object => "map"

inductive Misfit
  | fault (f : Fault)
  | type (found : Found) (expected : String)
  | value (found : Found) (expected : String)
  | length (n : Nat) (expected : String)
  | missing (field : String)
  | duplicate (field : String)
  | variant (name : String) (known : List String)
  | custom (message : String)

abbrev Decoded (α : Type) := Except Misfit α

/-- Where a draft comes from: a text, of which so many levels may still be entered, a value already
at hand, or what was read ahead and put aside while the kind of a record was looked for. -/
inductive Source
  | text (depth : Nat)
  | value
  | aside

namespace Source

def start : Source := .text Draft.maxDepth

def depth : Source → Nat
  | .text n => n
  | _ => Draft.maxDepth

def enter : Source → Decoded Source
  | .text n => if n ≤ 1 then .error (.fault .tooDeep) else .ok (.text (n - 1))
  | src => .ok src

end Source

def liftFault {α : Type} : Except Fault α → Decoded α
  | .ok a => .ok a
  | .error f => .error (.fault f)

namespace Draft

def unexpected {α : Type} (expected : String) : Draft → Decoded α
  | .null => .error (.type .null expected)
  | .bool b => .error (.type (.bool b) expected)
  | .number n _ => do .error (.type (.number (← liftFault n)) expected)
  | .string s _ => do .error (.type (.string (← liftFault s)) expected)
  | .array _ => .error (.type .array expected)
  | .object _ => .error (.type .object expected)
  | .flawed f => .error (.fault f)

def asString (expected : String) : Draft → Decoded String
  | .string s _ => liftFault s
  | d => d.unexpected expected

def asText : Draft → Decoded String := asString "a string"

def asBool : Draft → Decoded Bool
  | .bool b => .ok b
  | d => d.unexpected "a boolean"

def asNat (expected : String) (limit : Nat) : Draft → Decoded Nat
  | .number n _ => do
    match ← liftFault n with
    | .nat k =>
      if k < limit then return k else .error (.value (.number (.nat k)) expected)
    | .negative k => .error (.value (.number (.negative k)) expected)
    | n => .error (.type (.number n) expected)
  | d => d.unexpected expected

def asWord64 : Draft → Decoded Nat := asNat "u64" Number.limit

def asSize : Draft → Decoded Nat := asNat "usize" Number.limit

def asByte : Draft → Decoded Nat := asNat "u8" 0x100

def asUnit : Draft → Decoded Unit
  | .null => .ok ()
  | d => d.unexpected "unit"

def asOption {α : Type} (f : Draft → Decoded α) : Draft → Decoded (Option α)
  | .null => .ok none
  | d => (f d).map some

def itemsWith {α : Type} (f : Draft → Decoded α) : Items → Decoded (List α)
  | .stop s => if s = .closed then .ok [] else .error (.fault s.listFault)
  | .item d is => do
    let a ← f d
    let as ← itemsWith f is
    return a :: as

def asList {α : Type} (src : Source) (f : Source → Draft → Decoded α) : Draft → Decoded (List α)
  | .array is => do itemsWith (f (← src.enter)) is
  | d => d.unexpected "a sequence"

def membersWith {α : Type} (f : Draft → Decoded α) : Members → Decoded (List (String × α))
  | .stop s => if s = .closed then .ok [] else .error (.fault s.objectFault)
  | .member k _ d ms => do
    let k ← liftFault k
    let a ← f d
    let as ← membersWith f ms
    return (k, a) :: as

def asMap {α : Type} (src : Source) (f : Source → Draft → Decoded α) :
    Draft → Decoded (List (String × α))
  | .object ms => do
    let members ← membersWith (f (← src.enter)) ms
    return Json.ofMembers members
  | d => d.unexpected "a map"

def asValue (src : Source) (d : Draft) : Decoded Value := liftFault (d.value src.depth)

/-- One field of a record: its names, whether it may be left out, and how its value enters the
record. -/
structure Field (α : Type) where
  names : List String
  required : Bool
  read : Source → Draft → α → Decoded α

def Field.name {α : Type} (f : Field α) : String := f.names.headD ""

/-- Fields in any order, each at most once; members of other names are passed over. -/
def recordMembers {α : Type} (src : Source) (fields : List (Field α)) :
    Members → List String → α → Decoded (List String × α)
  | .stop s, seen, a =>
    if s = .closed then .ok (seen, a) else .error (.fault s.objectFault)
  | .member k _ d ms, seen, a => do
    let k ← liftFault k
    match fields.find? (·.names.contains k) with
    | none => do
      liftFault d.skim
      recordMembers src fields ms seen a
    | some f =>
      if seen.contains f.name then .error (.duplicate f.name)
      else recordMembers src fields ms (f.name :: seen) (← f.read src d a)

/-- A record may also be a list of its fields in their order; those at the end that may be left out
may be missing. -/
def recordItems {α : Type} (src : Source) (expected : String) (count : Nat) :
    List (Field α) → Nat → Items → α → Decoded (α × Nat × Items)
  | [], n, is, a => .ok (a, n, is)
  | f :: fs, n, is, a =>
    match is with
    | .item d is => do recordItems src expected count fs (n + 1) is (← f.read src d a)
    | .stop s =>
      if s = .closed then
        if f.required then
          .error (.length n
            (expected ++ " with " ++ toString count ++ if count = 1 then " element" else " elements"))
        else recordItems src expected count fs (n + 1) (.stop s) a
      else .error (.fault s.listFault)

def countItems : Items → Nat
  | .stop _ => 0
  | .item _ is => countItems is + 1

def recordRest (src : Source) (n : Nat) (is : Items) : Decoded Unit :=
  match src, is with
  | _, .stop .closed => .ok ()
  | .text _, .stop s => .error (.fault s.listSurplus)
  | .text _, .item _ _ => .error (.fault .trailingCharacters)
  | .value, is => .error (.length (n + countItems is) "fewer elements in array")
  | .aside, is =>
    .error (.length (n + countItems is)
      (toString n ++ if n = 1 then " element in sequence" else " elements in sequence"))

def firstMissing {α : Type} (fields : List (Field α)) (seen : List String) : Decoded Unit :=
  match fields.find? fun f => f.required && !seen.contains f.name with
  | some f => .error (.missing f.name)
  | none => .ok ()

def asRecord {α : Type} (src : Source) (expected : String) (fields : List (Field α)) (blank : α) :
    Draft → Decoded α
  | .array is => do
    let src ← src.enter
    let (a, n, is) ← recordItems src expected fields.length fields 0 is blank
    recordRest src n is
    return a
  | .object ms => do
    let src ← src.enter
    let (seen, a) ← recordMembers src fields ms [] blank
    firstMissing fields seen
    return a
  | d => d.unexpected expected

def variant {α : Type} (known : List (String × α)) (s : String) : Decoded α :=
  match Json.lookup s known with
  | some a => .ok a
  | none => .error (.variant s (known.map (·.1)))

def choiceMember {α : Type} (known : List (String × α)) : Members → Decoded α
  | .member k _ d ms => do
    let a ← variant known (← liftFault k)
    asUnit d
    match ms with
    | .stop .closed => return a
    | .stop .eof => .error (.fault .eofObject)
    | _ => .error (.fault .expectedValue)
  | .stop .eof => .error (.fault .eofValue)
  | .stop _ => .error (.fault .expectedValue)

def asChoice {α : Type} (src : Source) (known : List (String × α)) (d : Draft) : Decoded α :=
  match src, d with
  | _, .string s _ => do variant known (← liftFault s)
  | .text _, .object ms => do
    let _ ← src.enter
    choiceMember known ms
  | .text _, .flawed .eofValue => .error (.fault .eofValue)
  | .text _, _ => .error (.fault .expectedValue)
  | _, .object (.member k _ d (.stop _)) => do
    let a ← variant known (← liftFault k)
    asUnit d
    return a
  | _, .object _ => .error (.value .object "map with a single key")
  | _, d => d.unexpected "string or map"

def asTag {α : Type} (known : List (String × α)) (d : Draft) : Decoded α := do
  variant known (← d.asString "variant identifier")

def asideItems (src : Source) : Items → Decoded Items
  | .stop s => if s = .closed then .ok (.stop s) else .error (.fault s.listFault)
  | .item d is => do
    let v ← d.asValue src
    return .item (ofValue v) (← asideItems src is)

def tagged {α : Type} (src : Source) (tag : String) (known : List (String × α)) :
    Members → Option α → Decoded (Option α × Members)
  | .stop s, kind => if s = .closed then .ok (kind, .stop s) else .error (.fault s.objectFault)
  | .member k f d ms, kind => do
    let name ← liftFault k
    if name = tag then
      if kind.isSome then .error (.duplicate tag)
      else tagged src tag known ms (some (← d.asTag known))
    else
      let _ ← d.asValue src
      let (kind, ms) ← tagged src tag known ms kind
      return (kind, .member k f d ms)

/-- The kind of a record, told by one of its members or by the first item of a list, and a draft of
all the rest, which comes from aside. -/
def asTagged {α : Type} (src : Source) (expected tag : String) (known : List (String × α)) :
    Draft → Decoded (α × Draft)
  | .array is => do
    let src ← src.enter
    match is with
    | .stop s => .error (if s = .closed then .missing tag else .fault s.listFault)
    | .item d is => do
      let kind ← d.asTag known
      return (kind, .array (← asideItems src is))
  | .object ms => do
    let src ← src.enter
    let (kind, rest) ← tagged src tag known ms none
    match kind with
    | some kind => return (kind, .object rest)
    | none => .error (.missing tag)
  | d => d.unexpected expected

def ofText {α : Type} (f : Source → Draft → Decoded α) (bs : Bytes) : Decoded α := do
  let (d, rest) := Draft.ofBytes bs
  let a ← f .start d
  liftFault (ended rest)
  return a

end Draft

end LogTail.Json
