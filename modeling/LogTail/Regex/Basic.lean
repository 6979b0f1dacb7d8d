import LogTail.Regex.Syntax

namespace LogTail.Regex

open Unicode

inductive Instr
  | set (s : CharSet)
  | look (l : Look)
  | split (a b : Nat)
  | jump (a : Nat)
  | save (slot : Nat)
  | done
  deriving Repr

namespace Expr

def size : Expr → Nat
  | .empty => 0
  | .set _ => 1
  | .look _ => 1
  | .seq a b => a.size + b.size
  | .alt a b => a.size + b.size + 2
  | .rep e min max _ =>
    match max with
    | none => if min = 0 then e.size + 2 else min * e.size + 1
    | some max => min * e.size + (max - min) * (e.size + 1)
  | .group _ _ e => e.size + 2

def choice (greedy : Bool) (a b : Nat) : Instr := if greedy then .split a b else .split b a

/-- The steps of an expression from place `at'` on; behind them goes whatever comes next. -/
def code : Expr → Nat → List Instr
  | .empty, _ => []
  | .set s, _ => [.set s]
  | .look l, _ => [.look l]
  | .seq a b, at' => a.code at' ++ b.code (at' + a.size)
  | .alt a b, at' =>
    .split (at' + 1) (at' + a.size + 2) :: (a.code (at' + 1) ++
      .jump (at' + a.size + b.size + 2) :: b.code (at' + a.size + 2))
  | .rep e min max greedy, at' =>
    let copies := (List.range min).flatMap fun k => e.code (at' + k * e.size)
    let next := at' + min * e.size
    match max with
    | none =>
      if min = 0 then
        let stop := at' + e.size + 2
        choice greedy (at' + 1) stop :: (e.code (at' + 1) ++
          [if e.canBeEmpty then choice greedy (at' + 1) stop else .jump at'])
      else copies ++ [choice greedy (next - e.size) (next + 1)]
    | some max =>
      let stop := next + (max - min) * (e.size + 1)
      copies ++ (List.range (max - min)).flatMap fun k =>
        let here := next + k * (e.size + 1)
        choice greedy (here + 1) stop :: e.code (here + 1)
  | .group index _ e, at' => .save (2 * index) :: (e.code (at' + 1) ++ [.save (2 * index + 1)])

def groups : Expr → List (String × Nat)
  | .seq a b => a.groups ++ b.groups
  | .alt a b => a.groups ++ b.groups
  | .rep e _ _ _ => e.groups
  | .group index name e => (name.toList.map fun n => (n, index)) ++ e.groups
  | _ => []

end Expr

def isWord (unicode : Bool) (c : Option Char) : Bool :=
  match c with
  | none => false
  | some c => if unicode then word.contains c else c.isAlphanum || c = '_'

def Look.holds (before after : Option Char) : Look → Bool
  | .start => before.isNone
  | .stop => after.isNone
  | .lineStart => before.isNone || before = some '\n'
  | .lineStop => after.isNone || after = some '\n'
  | .crlfStart => before.isNone || before = some '\n' || (before = some '\r' && after ≠ some '\n')
  | .crlfStop => after.isNone || after = some '\r' || (after = some '\n' && before ≠ some '\r')
  | .word u => isWord u before != isWord u after
  | .notWord u => isWord u before == isWord u after
  | .wordStart u => !isWord u before && isWord u after
  | .wordStop u => isWord u before && !isWord u after
  | .wordStartHalf u => !isWord u before
  | .wordStopHalf u => !isWord u after

structure Thread where
  step : Nat
  place : Nat
  slots : List (Option Nat)

def before (text : Array Char) (place : Nat) : Option Char := if place = 0 then none else text[place - 1]?

def Thread.next (program : Array Instr) (text : Array Char) (th : Thread) : Option (List Thread) :=
  match program[th.step]? with
  | none => some []
  | some (.set s) =>
    match text[th.place]? with
    | some c => some (if s.contains c then [⟨th.step + 1, th.place + 1, th.slots⟩] else [])
    | none => some []
  | some (.look l) =>
    some (if l.holds (before text th.place) text[th.place]? then [{ th with step := th.step + 1 }] else [])
  | some (.split a b) => some [{ th with step := a }, { th with step := b }]
  | some (.jump a) => some [{ th with step := a }]
  | some (.save slot) => some [⟨th.step + 1, th.place, th.slots.set slot (some th.place)⟩]
  | some .done => none

/-- Runs threads, the preferred first. A step tried before at a place failed there and is not tried
again. -/
def run (program : Array Instr) (text : Array Char) :
    Nat → List Thread → Array Bool → Option (List (Option Nat)) × Array Bool
  | 0, _, tried => (none, tried)
  | _ + 1, [], tried => (none, tried)
  | fuel + 1, th :: threads, tried =>
    let key := th.place * program.size + th.step
    if tried.getD key false then run program text fuel threads tried
    else
      match th.next program text with
      | none => (some th.slots, tried)
      | some next => run program text fuel (next ++ threads) (tried.setIfInBounds key true)

def searchFrom (program : Array Instr) (text : Array Char) (slots : Nat) :
    Nat → Nat → Array Bool → Option (List (Option Nat))
  | 0, _, _ => none
  | count + 1, start, tried =>
    match run program text (2 * program.size * (text.size + 1) + 2)
        [⟨0, start, List.replicate slots none⟩] tried with
    | (some slots, _) => some slots
    | (none, tried) => searchFrom program text slots count (start + 1) tried

end LogTail.Regex

namespace LogTail

structure Regex where
  program : Array Regex.Instr
  groupCount : Nat
  groups : List (String × Nat)

namespace Regex

def ofText? (s : String) : Option Regex := do
  let (e, count) ← Expr.ofText? s
  return ⟨(e.code 0 ++ [Instr.done]).toArray, count, e.groups⟩

def groupNames (r : Regex) : List String := r.groups.map (·.1)

def search (r : Regex) (s : String) : Option (List (String × Option String)) :=
  let text := s.toList.toArray
  match searchFrom r.program text (2 * r.groupCount + 2) (text.size + 1) 0
      (Array.replicate (r.program.size * (text.size + 1)) false) with
  | none => none
  | some slots =>
    some (r.groups.map fun (name, i) =>
      match slots.getD (2 * i) none, slots.getD (2 * i + 1) none with
      | some a, some b => (name, some (String.ofList ((s.toList.drop a).take (b - a))))
      | _, _ => (name, none))

end Regex

end LogTail
