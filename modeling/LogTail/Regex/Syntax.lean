import LogTail.Regex.Expr
import LogTail.Regex.Property

namespace LogTail.Regex

open Unicode

structure Flags where
  ignoreCase : Bool
  multiLine : Bool
  dotAll : Bool
  swapGreed : Bool
  unicode : Bool
  crlf : Bool
  extended : Bool
  deriving DecidableEq, Repr

def Flags.initial : Flags := ⟨false, false, false, false, true, false, false⟩

def dropBlanks : Bool → List Char → List Char
  | _, [] => []
  | true, c :: t => dropBlanks (c ≠ '\n') t
  | false, c :: t =>
    if whiteSpace.contains c then dropBlanks false t
    else if c = '#' then dropBlanks true t
    else c :: t

def skip (f : Flags) (cs : List Char) : List Char := if f.extended then dropBlanks false cs else cs

def skipTo (f : Flags) (cs : List Char) : Option (List Char) :=
  match skip f cs with
  | [] => none
  | cs => some cs

inductive Atom
  | literal (c : Char) (isByte : Bool)
  | set (s : CharSet)
  | look (l : Look)

/-- Folds the case of a class if flags say so, then complements it. Without Unicode only classes
within ASCII keep texts apart at characters. -/
def finishSet (f : Flags) (negated : Bool) (s : CharSet) : Option CharSet :=
  let s := if f.ignoreCase then (if f.unicode then foldCase s else foldAscii s) else s
  let s := if negated then s.complement else s
  if f.unicode || isAscii s then some s else none

def perlClass (f : Flags) (c : Char) : Option CharSet :=
  let digits : CharSet := [(48, 57)]
  let s :=
    match c.toLower with
    | 'd' => if f.unicode then decimalDigit else digits
    | 's' => if f.unicode then whiteSpace else [(9, 13), (32, 32)]
    | _ => if f.unicode then word else [(48, 57), (65, 90), (95, 95), (97, 122)]
  let s := if c.isUpper then s.complement else s
  if f.unicode || isAscii s then some s else none

def isHex (c : Char) : Bool := c.isDigit || ('a' ≤ c && c ≤ 'f') || ('A' ≤ c && c ≤ 'F')

def hexValue (cs : List Char) : Nat := cs.foldl (fun n c => n * 16 + Unicode.hexDigit c.toLower) 0

def charOfHex (cs : List Char) : Option Char :=
  let n := hexValue cs
  if n < 0xD800 ∨ (0xE000 ≤ n ∧ n ≤ CharSet.lastChar) then some (Char.ofNat n) else none

def hexDigits (f : Flags) : Nat → List Char → List Char → Option (List Char × List Char)
  | 0, cs, acc => some (acc.reverse, skip f cs)
  | n + 1, cs, acc => do
    let cs ← if acc.isEmpty then some cs else skipTo f cs
    match cs with
    | c :: t => if isHex c then hexDigits f n t (c :: acc) else none
    | [] => none

def hexBraced (f : Flags) : Nat → List Char → List Char → Option (List Char × List Char)
  | 0, _, _ => none
  | fuel + 1, cs, acc =>
    match skip f cs with
    | [] => none
    | c :: t =>
      if c = '\x7d' then if acc.isEmpty then none else some (acc.reverse, skip f t)
      else if isHex c then hexBraced f fuel t (c :: acc)
      else none

def hexEscape (f : Flags) (count : Nat) (cs : List Char) : Option (Atom × List Char) := do
  let cs ← skipTo f cs
  match cs with
  | '\x7b' :: t =>
    let (ds, rest) ← hexBraced f (t.length + 1) t []
    return (.literal (← charOfHex ds) false, rest)
  | cs =>
    let (ds, rest) ← hexDigits f count cs []
    return (.literal (← charOfHex ds) (count = 2), rest)

def braced (f : Flags) : Nat → List Char → List Char → Option (List Char × List Char)
  | 0, _, _ => none
  | fuel + 1, cs, acc =>
    match skip f cs with
    | [] => none
    | c :: t => if c = '\x7d' then some (acc.reverse, t) else braced f fuel t (c :: acc)

def propertyEscape (f : Flags) (negated : Bool) (cs : List Char) : Option (Atom × List Char) := do
  let cs ← skipTo f cs
  let (name, rest) ←
    match cs with
    | '\x7b' :: t => braced f (t.length + 1) t []
    | c :: t => if c = '\\' then none else some ([c], skip f t)
    | [] => none
  if f.unicode then
    let s ← property? name
    return (.set (← finishSet f negated s), rest)
  else none

def isBoundaryChar (c : Char) : Bool := c.isAlpha || c = '-'

def boundaryName (f : Flags) : Nat → List Char → List Char → List Char × List Char
  | 0, cs, acc => (acc.reverse, cs)
  | fuel + 1, cs, acc =>
    match cs with
    | c :: t => if isBoundaryChar c then boundaryName f fuel (skip f t) (c :: acc) else (acc.reverse, cs)
    | [] => (acc.reverse, [])

def boundary (f : Flags) (cs : List Char) : Option (Atom × List Char) :=
  let plain : Option (Atom × List Char) := some (.look (.word f.unicode), cs)
  match cs with
  | '\x7b' :: t => do
    let t ← skipTo f t
    if (t.head?.map isBoundaryChar).getD false then
      match boundaryName f t.length t [] with
      | (name, '\x7d' :: rest) =>
        match String.ofList name with
        | "start" => some (.look (.wordStart f.unicode), rest)
        | "end" => some (.look (.wordStop f.unicode), rest)
        | "start-half" => some (.look (.wordStartHalf f.unicode), rest)
        | "end-half" => some (.look (.wordStopHalf f.unicode), rest)
        | _ => none
      | _ => none
    else plain
  | _ => plain

def isMeta (c : Char) : Bool := "\\.+*?()|[]\x7b\x7d^$#&-~".toList.contains c

def escape (f : Flags) (cs : List Char) : Option (Atom × List Char) :=
  match cs with
  | [] => none
  | c :: t =>
    let literal (d : Char) : Option (Atom × List Char) := some (.literal d false, t)
    if c = 'x' then hexEscape f 2 t
    else if c = 'u' then hexEscape f 4 t
    else if c = 'U' then hexEscape f 8 t
    else if c = 'p' then propertyEscape f false t
    else if c = 'P' then propertyEscape f true t
    else if "dswDSW".toList.contains c then (perlClass f c).map fun s => (.set s, t)
    else if isMeta c then literal c
    else if c = 'a' then literal '\x07'
    else if c = 'f' then literal '\x0c'
    else if c = 't' then literal '\t'
    else if c = 'n' then literal '\n'
    else if c = 'r' then literal '\r'
    else if c = 'v' then literal '\x0b'
    else if c = 'A' then some (.look .start, t)
    else if c = 'z' then some (.look .stop, t)
    else if c = 'b' then boundary f t
    else if c = 'B' then some (.look (.notWord f.unicode), t)
    else if c = '<' then some (.look (.wordStart f.unicode), t)
    else if c = '>' then some (.look (.wordStop f.unicode), t)
    else if c.toNat < 128 && !c.isAlphanum then literal c
    else none

def literalExpr (f : Flags) (c : Char) (isByte : Bool) : Option Expr :=
  if !f.unicode && isByte && 127 < c.toNat then none
  else
    let s := CharSet.ofChar c
    some (.set (if f.ignoreCase then (if f.unicode then foldCase s else foldAscii s) else s))

def atomExpr (f : Flags) : Atom → Option Expr
  | .literal c isByte => literalExpr f c isByte
  | .set s => some (.set s)
  | .look l => some (.look l)

def dot (f : Flags) : Option Expr :=
  if !f.unicode then none
  else if f.dotAll then some (.set CharSet.full)
  else if f.crlf then some (.set (CharSet.complement [(10, 10), (13, 13)]))
  else some (.set (CharSet.complement [(10, 10)]))

def caret (f : Flags) : Look :=
  if f.multiLine then (if f.crlf then .crlfStart else .lineStart) else .start

def dollar (f : Flags) : Look :=
  if f.multiLine then (if f.crlf then .crlfStop else .lineStop) else .stop

inductive SetOp
  | inter | diff | symm
  deriving DecidableEq, Repr

def SetOp.apply (f : Flags) (a b : CharSet) (op : SetOp) : CharSet :=
  let fold (s : CharSet) := if f.ignoreCase then (if f.unicode then foldCase s else foldAscii s) else s
  let a := fold a
  let b := fold b
  match op with
  | .inter => CharSet.inter a b
  | .diff => CharSet.diff a b
  | .symm => CharSet.union (CharSet.diff a b) (CharSet.diff b a)

/-- The class so far: a first operand that waits for the second, and the union of the items. -/
structure Bracket where
  waiting : Option (SetOp × CharSet)
  items : CharSet
  depth : Nat

def Bracket.value (f : Flags) (b : Bracket) : CharSet :=
  match b.waiting with
  | none => b.items
  | some (op, a) => op.apply f a b.items

def Bracket.add (s : CharSet) (depth : Nat) (b : Bracket) : Bracket :=
  { b with items := CharSet.union b.items s, depth := max b.depth depth }

def Bracket.operate (f : Flags) (op : SetOp) (b : Bracket) : Bracket :=
  ⟨some (op, b.value f), [], b.depth + 1⟩

def namedClass (f : Flags) (cs : List Char) : Option (Option CharSet × List Char) :=
  match cs with
  | ':' :: t =>
    let (negated, t) := match t with
      | '^' :: t => (true, t)
      | t => (false, t)
    let name := t.takeWhile (· ≠ ':')
    match t.dropWhile (· ≠ ':') with
    | ':' :: ']' :: rest => (asciiClass? (String.ofList name)).map fun s => (finishSet f negated s, rest)
    | _ => none
  | _ => none

def bracketAtom (f : Flags) (cs : List Char) : Option (Atom × List Char) :=
  match cs with
  | [] => none
  | '\\' :: t => escape f t
  | c :: t => some (.literal c false, t)

def bracketChar (f : Flags) : Atom → Option Char
  | .literal c _ => if f.unicode || c.toNat < 128 then some c else none
  | _ => none

def bracketSet (f : Flags) : Atom → Option CharSet
  | .set s => some s
  | a => (bracketChar f a).map CharSet.ofChar

def bracketItem (f : Flags) (cs : List Char) : Option (CharSet × List Char) := do
  let (first, rest) ← bracketAtom f cs
  let rest ← skipTo f rest
  match rest with
  | '-' :: t =>
    let peek := (skip f t).head?
    if peek = some ']' ∨ peek = some '-' then return (← bracketSet f first, rest)
    else
      let (last, rest) ← bracketAtom f (← skipTo f t)
      let a ← bracketChar f first
      let b ← bracketChar f last
      if a ≤ b then return ([(a.toNat, b.toNat)], rest) else none
  | rest => return (← bracketSet f first, rest)

/-- Hyphens, and then a closing bracket, stand for themselves at the start. -/
def bracketStart (f : Flags) : Nat → List Char → CharSet → Option (CharSet × List Char)
  | 0, _, _ => none
  | fuel + 1, cs, s =>
    match cs with
    | '-' :: t => do bracketStart f fuel (← skipTo f t) (CharSet.ofChar '-')
    | ']' :: t => if s.isEmpty then (skipTo f t).map fun t => (CharSet.ofChar ']', t) else some (s, cs)
    | cs => some (s, cs)

mutual

def bracket (f : Flags) : Nat → List Char → Option (CharSet × Nat × List Char)
  | 0, _ => none
  | fuel + 1, cs => do
    let cs ← skipTo f cs
    let (negated, cs) ←
      match cs with
      | '^' :: t => (skipTo f t).map fun t => (true, t)
      | cs => some (false, cs)
    let (s, cs) ← bracketStart f (cs.length + 1) cs []
    bracketItems f negated fuel cs ⟨none, s, 0⟩

def bracketItems (f : Flags) (negated : Bool) :
    Nat → List Char → Bracket → Option (CharSet × Nat × List Char)
  | 0, _, _ => none
  | fuel + 1, cs, b =>
    match skip f cs with
    | [] => none
    | '[' :: t =>
      match namedClass f t with
      | some (none, _) => none
      | some (some s, rest) => bracketItems f negated fuel rest (b.add s 0)
      | none => do
        let (s, depth, rest) ← bracket f fuel t
        bracketItems f negated fuel rest (b.add s (depth + 1))
    | ']' :: t => (finishSet f negated (b.value f)).map fun s => (s, b.depth + 1, t)
    | '&' :: '&' :: t => bracketItems f negated fuel t (b.operate f .inter)
    | '-' :: '-' :: t => bracketItems f negated fuel t (b.operate f .diff)
    | '~' :: '~' :: t => bracketItems f negated fuel t (b.operate f .symm)
    | cs => do
      let (s, rest) ← bracketItem f cs
      bracketItems f negated fuel rest (b.add s 0)

end

structure State where
  rest : List Char
  flags : Flags
  groups : Nat
  names : List String

inductive Item
  | expr (e : Expr) (depth : Nat)
  | flags

def Item.depth : Item → Nat
  | .expr _ d => d
  | .flags => 0

def Item.expr? : Item → Option Expr
  | .expr e _ => some e
  | .flags => none

def sequence (items : List Item) : Expr × Nat :=
  let depth := (items.map Item.depth).foldl max 0
  (Expr.ofSeq (items.reverse.filterMap Item.expr?), if items.length < 2 then depth else depth + 1)

def alternatives (branches : List (Expr × Nat)) : Expr × Nat :=
  let depth := (branches.map (·.2)).foldl max 0
  (Expr.ofAlts (branches.reverse.map (·.1)), if branches.length < 2 then depth else depth + 1)

def repeatLast (items : List Item) (min : Nat) (max : Option Nat) (greedy : Bool) :
    Option (List Item) :=
  match items with
  | .expr e d :: items => some (.expr (Expr.repeated e min max greedy) (d + 1) :: items)
  | _ => none

def number (cs : List Char) : Nat := cs.foldl (fun n c => n * 10 + (c.toNat - 48)) 0

def dropWhite (cs : List Char) : List Char := cs.dropWhile whiteSpace.contains

def decimalDigits (f : Flags) : Nat → List Char → List Char → List Char × List Char
  | 0, cs, acc => (acc.reverse, cs)
  | fuel + 1, cs, acc =>
    match cs with
    | c :: t => if c.isDigit then decimalDigits f fuel (skip f t) (c :: acc) else (acc.reverse, cs)
    | [] => (acc.reverse, [])

def decimal (f : Flags) (cs : List Char) : Option (Nat × List Char) :=
  let (ds, rest) := decimalDigits f (cs.length + 1) (dropWhite cs) []
  if ds.isEmpty ∨ 0x100000000 ≤ number ds then none else some (number ds, dropWhite rest)

def bounds (f : Flags) (cs : List Char) : Option (Nat × Option Nat × List Char) := do
  let (min, cs) ← decimal f (← skipTo f cs)
  match cs with
  | '\x7d' :: t => return (min, some min, t)
  | ',' :: t =>
    match ← skipTo f t with
    | '\x7d' :: t => return (min, none, t)
    | cs =>
      match ← decimal f cs with
      | (max, '\x7d' :: t) => if min ≤ max then return (min, some max, t) else none
      | _ => none
  | _ => none

def alphanumeric : CharSet := CharSet.ofRanges (alphabetic ++ categories ["Nd", "Nl", "No"])

def isNameChar (isFirst : Bool) (c : Char) : Bool :=
  if isFirst then c = '_' || alphabetic.contains c
  else c = '_' || c = '.' || c = '[' || c = ']' || alphanumeric.contains c

def groupName (cs : List Char) : Option (String × List Char) :=
  let name := cs.takeWhile (· ≠ '>')
  match name, cs.dropWhile (· ≠ '>') with
  | c :: t, _ :: rest =>
    if isNameChar true c && t.all (isNameChar false) then some (String.ofList name, rest) else none
  | _, _ => none

def setFlag (on : Bool) (f : Flags) : Char → Option Flags
  | 'i' => some { f with ignoreCase := on }
  | 'm' => some { f with multiLine := on }
  | 's' => some { f with dotAll := on }
  | 'U' => some { f with swapGreed := on }
  | 'u' => some { f with unicode := on }
  | 'R' => some { f with crlf := on }
  | 'x' => some { f with extended := on }
  | _ => none

/-- Applies the letters of a flag group; no letter and no hyphen twice, and none behind it last. -/
def applyFlags : List Char → List Char → Bool → Flags → Option Flags
  | [], seen, _, f => if seen.head? = some '-' then none else some f
  | c :: t, seen, on, f =>
    if seen.contains c then none
    else if c = '-' then applyFlags t (c :: seen) false f
    else do applyFlags t (c :: seen) on (← setFlag on f c)

inductive Opening
  | group (name : Option String) (flags : Flags) (rest : List Char) (captures : Bool)
  | flags (flags : Flags) (rest : List Char)

def opening (f : Flags) (cs : List Char) : Option Opening :=
  match skip f cs with
  | '?' :: '=' :: _ => none
  | '?' :: '!' :: _ => none
  | '?' :: '<' :: '=' :: _ => none
  | '?' :: '<' :: '!' :: _ => none
  | '?' :: 'P' :: '<' :: t => (groupName t).map fun (name, rest) => .group (some name) f rest true
  | '?' :: '<' :: t => (groupName t).map fun (name, rest) => .group (some name) f rest true
  | '?' :: t => do
    let letters := t.takeWhile fun c => c ≠ ':' && c ≠ ')'
    let g ← applyFlags letters [] true f
    match t.dropWhile fun c => c ≠ ':' && c ≠ ')' with
    | ':' :: rest => return .group none g rest false
    | ')' :: rest => if letters.isEmpty then none else return .flags g rest
    | _ => none
  | cs => some (.group none f cs true)

def greedy (f : Flags) (lazyMark : Bool) : Bool := lazyMark == f.swapGreed

/-- Reads alternatives up to a closing parenthesis or the end. The items of the present sequence and
the sequences before it come last first. -/
def readAlternatives : Nat → State → List Item → List (Expr × Nat) → Option (Expr × Nat × State)
  | 0, _, _, _ => none
  | fuel + 1, st, items, branches =>
    let f := st.flags
    let on (items : List Item) (rest : List Char) :=
      readAlternatives fuel { st with rest } items branches
    let counted (min : Nat) (max : Option Nat) (t : List Char) := do
      match t with
      | '?' :: t => on (← repeatLast items min max (greedy f true)) t
      | t => on (← repeatLast items min max (greedy f false)) t
    let result := alternatives (sequence items :: branches)
    match skip f st.rest with
    | [] => some (result.1, result.2, { st with rest := [] })
    | ')' :: t => some (result.1, result.2, { st with rest := ')' :: t })
    | '|' :: t => readAlternatives fuel { st with rest := t } [] (sequence items :: branches)
    | '?' :: t => counted 0 (some 1) t
    | '*' :: t => counted 0 none t
    | '+' :: t => counted 1 none t
    | '\x7b' :: t => do
      let (min, max, t) ← bounds f t
      counted min max (skip f t)
    | '[' :: t => do
      let (s, depth, rest) ← bracket f (2 * t.length + 2) t
      on (.expr (.set s) depth :: items) rest
    | '.' :: t => do on (.expr (← dot f) 0 :: items) t
    | '^' :: t => on (.expr (.look (caret f)) 0 :: items) t
    | '$' :: t => on (.expr (.look (dollar f)) 0 :: items) t
    | '\\' :: t => do
      let (atom, rest) ← escape f t
      on (.expr (← atomExpr f atom) 0 :: items) rest
    | '(' :: t => do
      match ← opening f t with
      | .flags g rest => readAlternatives fuel { st with rest, flags := g } (.flags :: items) branches
      | .group name g rest captures =>
        let index := st.groups + 1
        if (name.map st.names.contains).getD false then none
        else
          let inner : State :=
            ⟨rest, g, if captures then index else st.groups, name.toList ++ st.names⟩
          let (e, depth, last) ← readAlternatives fuel inner [] []
          match last.rest with
          | ')' :: rest =>
            let e := if captures then .group index name e else e
            readAlternatives fuel ⟨rest, f, last.groups, last.names⟩ (.expr e (depth + 1) :: items) branches
          | _ => none
    | c :: t => do on (.expr (← literalExpr f c false) 0 :: items) t

def depthLimit : Nat := 250

def Expr.ofText? (s : String) : Option (Expr × Nat) := do
  let cs := s.toList
  let (e, depth, st) ← readAlternatives (cs.length + 1) ⟨cs, Flags.initial, 0, []⟩ [] []
  if st.rest.isEmpty && depth ≤ depthLimit && e.weight ≤ Expr.weightLimit then some (e, st.groups) else none

end LogTail.Regex
