namespace LogTail.Glob

inductive Member
  | char (c : Char)
  | range (a b : Char)
  deriving DecidableEq, Repr

def Member.has (c : Char) : Member → Bool
  | .char a => c = a
  | .range a b => a ≤ c && c ≤ b

inductive Token
  | char (c : Char)
  | any
  | run
  | components
  | within (ms : List Member)
  | except (ms : List Member)
  deriving DecidableEq, Repr

inductive Fault
  | wildcards (pos : Nat)
  | recursiveWildcards (pos : Nat)
  | range (pos : Nat)
  deriving DecidableEq, Repr

def Fault.message : Fault → String
  | .wildcards pos =>
    s!"Pattern syntax error near position {pos}: wildcards are either regular `*` or recursive `**`"
  | .recursiveWildcards pos =>
    s!"Pattern syntax error near position {pos}: recursive wildcards must form a single path component"
  | .range pos => s!"Pattern syntax error near position {pos}: invalid range pattern"

abbrev Pattern := List Token

namespace Pattern

def members : List Char → List Member
  | a :: '-' :: b :: t => .range a b :: members t
  | a :: t => .char a :: members t
  | [] => []

/-- The characters of a class, the first of which may be a closing bracket, and what is behind it. -/
def bracketed : List Char → Option (List Char × List Char)
  | [] => none
  | c :: t =>
    let inner := t.takeWhile (· ≠ ']')
    match t.dropWhile (· ≠ ']') with
    | [] => none
    | _ :: rest => some (c :: inner, rest)

def charClass (t : List Char) : Option (Token × List Char) :=
  match t with
  | '!' :: t => (bracketed t).map fun (cs, rest) => (.except (members cs), rest)
  | t => (bracketed t).map fun (cs, rest) => (.within (members cs), rest)

/-- Adds two stars, which are not repeated behind two stars unless these come first of all. -/
def addComponents (tokens : List Token) : List Token :=
  match tokens with
  | .components :: _ :: _ => tokens
  | _ => .components :: tokens

/-- Reads a pattern: `pos` characters are read, `previous` is the last of them, and the tokens so
far come last first. `fuel` is at least the number of characters left. -/
def readFrom : Nat → Nat → Option Char → List Char → List Token → Except Fault Pattern
  | 0, _, _, _, tokens => .ok tokens.reverse
  | fuel + 1, pos, previous, cs, tokens =>
    match cs with
    | [] => .ok tokens.reverse
    | '?' :: t => readFrom fuel (pos + 1) (some '?') t (.any :: tokens)
    | '*' :: t =>
      let count := (t.takeWhile (· = '*')).length + 1
      let rest := t.dropWhile (· = '*')
      if 2 < count then .error (.wildcards (pos + 2))
      else if count = 1 then readFrom fuel (pos + 1) (some '*') rest (.run :: tokens)
      else if previous = none ∨ previous = some '/' then
        match rest with
        | [] => .ok (addComponents tokens).reverse
        | '/' :: rest => readFrom fuel (pos + 3) (some '/') rest (addComponents tokens)
        | _ => .error (.recursiveWildcards (pos + 2))
      else .error (.recursiveWildcards (pos - 1))
    | '[' :: t =>
      match charClass t with
      | none => .error (.range pos)
      | some (token, rest) =>
        readFrom fuel (pos + (t.length - rest.length) + 1) (some ']') rest (token :: tokens)
    | c :: t => readFrom fuel (pos + 1) (some c) t (.char c :: tokens)

def ofChars (cs : List Char) : Except Fault Pattern := readFrom (cs.length + 1) 0 none cs []

def ofText (s : String) : Except Fault Pattern := ofChars s.toList

def isRecursive (p : Pattern) : Bool := p.contains .components

def literal? : Pattern → Option (List Char)
  | [] => some []
  | .char c :: p => (literal? p).map (c :: ·)
  | _ :: _ => none

/-- A match fails here, or it fails because the text has come to its end, so that a later start
fails too. -/
inductive Verdict
  | matched | mismatch | exhausted
  deriving DecidableEq, Repr

/-- Tries a match behind each character of a text that `at?` holds of, as long as `passes` holds of
all of them, and at last at the end. -/
def tryAlong (tryHere : List Char → Verdict) (passes at? : Char → Bool) : List Char → Verdict
  | [] => tryHere []
  | c :: t =>
    if !passes c then .mismatch
    else if at? c then
      match tryHere t with
      | .mismatch => tryAlong tryHere passes at? t
      | v => v
    else tryAlong tryHere passes at? t

def Token.admits (c : Char) : Token → Bool
  | .char a => c = a
  | .any => c ≠ '/'
  | .within ms => c ≠ '/' && ms.any (Member.has c)
  | .except ms => c ≠ '/' && !ms.any (Member.has c)
  | _ => false

def matchFrom : Pattern → List Char → Verdict
  | [], s => if s.isEmpty then .matched else .mismatch
  | .run :: p, s =>
    match matchFrom p s with
    | .mismatch => tryAlong (matchFrom p) (· ≠ '/') (fun _ => true) s
    | v => v
  | .components :: p, s =>
    match matchFrom p s with
    | .mismatch => tryAlong (matchFrom p) (fun _ => true) (· = '/') s
    | v => v
  | _ :: _, [] => .exhausted
  | k :: p, c :: s => if Token.admits c k then matchFrom p s else .mismatch

def accepts (p : Pattern) (s : String) : Bool := matchFrom p s.toList = .matched

end Pattern

end LogTail.Glob
