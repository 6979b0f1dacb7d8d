import LogTail.Json.Lexeme

namespace LogTail.Json

/-- How a list or an object goes on behind its last readable part: closed, behind a part that
cannot be read, at the end of the text, at a comma and then the bracket or the end of the text,
without the comma, or at a member whose key is no string. -/
inductive Stop
  | closed | cut | eof | commaEnd | commaEof | noComma | badKey
  deriving DecidableEq, Repr

namespace Stop

def listFault : Stop → Fault
  | .commaEnd => .trailingComma
  | .commaEof => .eofValue
  | .noComma => .expectedListEnd
  | _ => .eofList

def listSkim : Stop → Fault
  | .commaEnd => .expectedValue
  | .commaEof => .eofValue
  | .noComma => .expectedListEnd
  | _ => .eofList

def listSurplus : Stop → Fault
  | .commaEnd => .trailingComma
  | .eof => .eofList
  | _ => .trailingCharacters

def objectFault : Stop → Fault
  | .commaEnd => .trailingComma
  | .commaEof => .eofValue
  | .noComma => .expectedObjectEnd
  | .badKey => .keyNotString
  | _ => .eofObject

def objectSkim : Stop → Fault
  | .commaEnd => .keyNotString
  | .noComma => .expectedObjectEnd
  | .badKey => .keyNotString
  | _ => .eofObject

end Stop

mutual

/-- The text of a document as far as it can be read, with the first flaw of every part at the place
where a reader meets it. Whoever reads a draft decides in which order its parts are asked for, and so
which of several flaws comes first. -/
inductive Draft
  | null
  | bool (b : Bool)
  | number (value : Except Fault Number) (skim : Option Fault)
  | string (value : Except Fault String) (skim : Option Fault)
  | array (items : Items)
  | object (members : Members)
  | flawed (f : Fault)

inductive Items
  | stop (s : Stop)
  | item (d : Draft) (rest : Items)

inductive Members
  | stop (s : Stop)
  | member (key : Except Fault String) (skim : Option Fault) (value : Draft) (rest : Members)

end

namespace Draft

def ofName (d : Draft) : Except Fault Bytes → Draft × Option Bytes
  | .ok rest => (d, some rest)
  | .error f => (.flawed f, none)

def ofNumber (w : Lexeme Number) : Draft × Option Bytes :=
  (.number w.value w.skim, if w.skim.isNone then some w.rest else none)

def ofString (w : Lexeme String) : Draft × Option Bytes :=
  (.string w.value w.skim, if w.skim.isNone then some w.rest else none)

mutual

def read : Nat → Bytes → Draft × Option Bytes
  | 0, _ => (.flawed .eofValue, none)
  | fuel + 1, bs =>
    match Lexeme.skipBlanks bs with
    | [] => (.flawed .eofValue, none)
    | b :: t =>
      if b = 110 then ofName .null (Lexeme.name [117, 108, 108] t)
      else if b = 116 then ofName (.bool true) (Lexeme.name [114, 117, 101] t)
      else if b = 102 then ofName (.bool false) (Lexeme.name [97, 108, 115, 101] t)
      else if b = 34 then ofString (Lexeme.string t)
      else if b = 91 then
        let r := readItems fuel true t
        (.array r.1, r.2)
      else if b = 123 then
        let r := readMembers fuel true t
        (.object r.1, r.2)
      else if b = 45 ∨ Lexeme.isDigit b then ofNumber (Lexeme.number (b :: t))
      else (.flawed .expectedValue, none)

def readItems : Nat → Bool → Bytes → Items × Option Bytes
  | 0, _, _ => (.stop .eof, none)
  | fuel + 1, isFirst, bs =>
    match Lexeme.skipBlanks bs with
    | [] => (.stop .eof, none)
    | b :: t =>
      if b = 93 then (.stop .closed, some t)
      else if isFirst then readItem fuel (b :: t)
      else if b = 44 then
        match Lexeme.skipBlanks t with
        | [] => (.stop .commaEof, none)
        | c :: t => if c = 93 then (.stop .commaEnd, none) else readItem fuel (c :: t)
      else (.stop .noComma, none)

def readItem : Nat → Bytes → Items × Option Bytes
  | 0, _ => (.stop .eof, none)
  | fuel + 1, bs =>
    match read fuel bs with
    | (d, none) => (.item d (.stop .cut), none)
    | (d, some t) =>
      let r := readItems fuel false t
      (.item d r.1, r.2)

def readMembers : Nat → Bool → Bytes → Members × Option Bytes
  | 0, _, _ => (.stop .eof, none)
  | fuel + 1, isFirst, bs =>
    match Lexeme.skipBlanks bs with
    | [] => (.stop .eof, none)
    | b :: t =>
      if b = 125 then (.stop .closed, some t)
      else if isFirst then
        if b = 34 then readMember fuel t else (.stop .badKey, none)
      else if b = 44 then
        match Lexeme.skipBlanks t with
        | [] => (.stop .commaEof, none)
        | c :: t =>
          if c = 34 then readMember fuel t
          else if c = 125 then (.stop .commaEnd, none)
          else (.stop .badKey, none)
      else (.stop .noComma, none)

def readMember : Nat → Bytes → Members × Option Bytes
  | 0, _ => (.stop .eof, none)
  | fuel + 1, bs =>
    let key := Lexeme.string bs
    if key.skim.isSome then (.member key.value key.skim (.flawed .eofObject) (.stop .cut), none)
    else
      match Lexeme.skipBlanks key.rest with
      | [] => (.member key.value none (.flawed .eofObject) (.stop .cut), none)
      | c :: t =>
        if c = 58 then
          match read fuel t with
          | (d, none) => (.member key.value none d (.stop .cut), none)
          | (d, some t) =>
            let r := readMembers fuel false t
            (.member key.value none d r.1, r.2)
        else (.member key.value none (.flawed .expectedColon) (.stop .cut), none)

end

/-- The draft of the first value of a text. Every step but three in a row reads a byte. -/
def ofBytes (bs : Bytes) : Draft × Option Bytes := read (3 * bs.length + 3) bs

mutual

def ofValue : Value → Draft
  | .null => .null
  | .bool b => .bool b
  | .number n => .number (.ok n) none
  | .string s => .string (.ok s) none
  | .array vs => .array (ofItems vs)
  | .object ms => .object (ofMembers ms)

def ofItems : List Value → Items
  | [] => .stop .closed
  | v :: vs => .item (ofValue v) (ofItems vs)

def ofMembers : List (String × Value) → Members
  | [] => .stop .closed
  | (k, v) :: ms => .member (.ok k) none (ofValue v) (ofMembers ms)

end

def check : Option Fault → Except Fault Unit
  | none => .ok ()
  | some f => .error f

mutual

def skim : Draft → Except Fault Unit
  | .number _ f => check f
  | .string _ f => check f
  | .array is => skimItems is
  | .object ms => skimMembers ms
  | .flawed f => .error f
  | .null => .ok ()
  | .bool _ => .ok ()

def skimItems : Items → Except Fault Unit
  | .stop s => if s = .closed then .ok () else .error s.listSkim
  | .item d is => do skim d; skimItems is

def skimMembers : Members → Except Fault Unit
  | .stop s => if s = .closed then .ok () else .error s.objectSkim
  | .member _ f d ms => do check f; skim d; skimMembers ms

end

mutual

/-- The value of a draft. At most `depth - 1` lists and objects may lie in one another; of members
with one key the last counts. -/
def value (depth : Nat) : Draft → Except Fault Value
  | .null => .ok .null
  | .bool b => .ok (.bool b)
  | .number n _ => n.map .number
  | .string s _ => s.map .string
  | .array is =>
    if depth ≤ 1 then .error .tooDeep else (itemValues (depth - 1) is).map .array
  | .object ms =>
    if depth ≤ 1 then .error .tooDeep
    else (memberValues (depth - 1) ms).map fun ms => .object (Json.ofMembers ms)
  | .flawed f => .error f

def itemValues (depth : Nat) : Items → Except Fault (List Value)
  | .stop s => if s = .closed then .ok [] else .error s.listFault
  | .item d is => do
    let v ← value depth d
    let vs ← itemValues depth is
    return v :: vs

def memberValues (depth : Nat) : Members → Except Fault (List (String × Value))
  | .stop s => if s = .closed then .ok [] else .error s.objectFault
  | .member k _ d ms => do
    let k ← k
    let v ← value depth d
    let ms ← memberValues depth ms
    return (k, v) :: ms

end

/-- How deep a text may nest: 127 lists and objects, the 128th is refused. -/
def maxDepth : Nat := 128

end Draft

def ended (rest : Option Bytes) : Except Fault Unit :=
  match Lexeme.skipBlanks (rest.getD []) with
  | [] => .ok ()
  | _ => .error .trailingCharacters

namespace Value

def ofBytes (bs : Bytes) : Except Fault Value := do
  let (d, rest) := Draft.ofBytes bs
  let v ← d.value Draft.maxDepth
  ended rest
  return v

end Value

end LogTail.Json
