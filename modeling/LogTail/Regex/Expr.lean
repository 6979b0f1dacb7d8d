import LogTail.Unicode.CharSet

namespace LogTail.Regex

open Unicode

inductive Look
  | start | stop | lineStart | lineStop | crlfStart | crlfStop
  | word (unicode : Bool) | notWord (unicode : Bool)
  | wordStart (unicode : Bool) | wordStop (unicode : Bool)
  | wordStartHalf (unicode : Bool) | wordStopHalf (unicode : Bool)
  deriving DecidableEq, Repr

inductive Expr
  | empty
  | set (s : CharSet)
  | look (l : Look)
  | seq (a b : Expr)
  | alt (a b : Expr)
  | rep (e : Expr) (min : Nat) (max : Option Nat) (greedy : Bool)
  | group (index : Nat) (name : Option String) (e : Expr)
  deriving Repr

namespace Expr

def ofSeq : List Expr → Expr
  | [] => .empty
  | [e] => e
  | e :: es => .seq e (ofSeq es)

def ofAlts : List Expr → Expr
  | [] => .empty
  | [e] => e
  | e :: es => .alt e (ofAlts es)

def isVoid : Expr → Bool
  | .empty => true
  | .look _ => true
  | .set _ => false
  | .seq a b => a.isVoid && b.isVoid
  | .alt a b => a.isVoid && b.isVoid
  | .rep e _ max _ => e.isVoid || max = some 0
  | .group _ _ e => e.isVoid

def canBeEmpty : Expr → Bool
  | .empty => true
  | .look _ => true
  | .set _ => false
  | .seq a b => a.canBeEmpty && b.canBeEmpty
  | .alt a b => a.canBeEmpty || b.canBeEmpty
  | .rep e min _ _ => min = 0 || e.canBeEmpty
  | .group _ _ e => e.canBeEmpty

/-- A repetition; of an expression that matches only the empty text one round is enough, and none
at all is the empty expression. -/
def repeated (e : Expr) (min : Nat) (max : Option Nat) (greedy : Bool) : Expr :=
  let (min, max) := if e.isVoid then (Nat.min min 1, some (Nat.min (max.getD 1) 1)) else (min, max)
  if max = some 0 then .empty
  else if min = 1 ∧ max = some 1 then e
  else .rep e min max greedy

def names : Expr → List String
  | .seq a b => a.names ++ b.names
  | .alt a b => a.names ++ b.names
  | .rep e _ _ _ => e.names
  | .group _ name e => name.toList ++ e.names
  | _ => []

def setWeight (s : CharSet) : Nat :=
  if s.all fun r => r.2 < 128 then 32 + 8 * s.length else 32 + 72 * s.length

/-- How much room the expression takes once its repetitions are written out, in bytes. -/
def weight : Expr → Nat
  | .empty => 32
  | .look _ => 32
  | .set s => setWeight s
  | .seq a b => a.weight + b.weight
  | .alt a b => a.weight + b.weight + 40
  | .rep e min max _ =>
    match max with
    | none => (Nat.max min 1) * e.weight + 40
    | some max => max * (e.weight + 40)
  | .group _ _ e => e.weight + 64

def weightLimit : Nat := 10 * 0x100000

end Expr

end LogTail.Regex
