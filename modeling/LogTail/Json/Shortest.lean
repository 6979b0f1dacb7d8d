namespace LogTail.Json.Shortest

structure Ratio where
  num : Nat
  den : Nat

def Ratio.scale (r : Ratio) (e : Int) : Ratio :=
  if e < 0 then ⟨r.num, r.den * Nat.pow 10 (-e).toNat⟩ else ⟨r.num * Nat.pow 10 e.toNat, r.den⟩

/-- `m * 2 ^ e / 4`, the grid on which a double and the ends of its interval lie. -/
def quarter (m : Nat) (e : Int) : Ratio :=
  if e < 0 then ⟨m, 4 * Nat.pow 2 (-e).toNat⟩ else ⟨m * Nat.pow 2 e.toNat, 4⟩

def hiddenBit : Nat := 0x10000000000000

def parts (bits : UInt64) : Nat × Int :=
  let e : Nat := bits.toNat / hiddenBit % 0x800
  let f : Nat := bits.toNat % hiddenBit
  if e = 0 then (f, -1074) else (f + hiddenBit, (e : Int) - 1075)

def below (r : Ratio) : Nat → Nat → Int
  | 0, k => -(k : Int)
  | fuel + 1, k => if r.den ≤ r.num * Nat.pow 10 k then -(k : Int) else below r fuel (k + 1)

def magnitude (r : Ratio) : Int :=
  if r.den ≤ r.num then ((Nat.toDigits 10 (r.num / r.den)).length : Int) - 1 else below r 400 1

/-- The point of the grid of `n`-digit decimals next to the value that reads back, if any. -/
def onGrid (m : Nat) (q : Int) (e : Int) (n : Nat) : Option Nat :=
  let shift := (n : Int) - 1 - e
  let v := (quarter (4 * m) q).scale shift
  let low := (quarter (if m = hiddenBit ∧ -1074 < q then 4 * m - 1 else 4 * m - 2) q).scale shift
  let high := (quarter (4 * m + 2) q).scale shift
  let inside (d : Nat) : Bool :=
    if m % 2 = 0 then low.num ≤ d * low.den ∧ d * high.den ≤ high.num
    else low.num < d * low.den ∧ d * high.den < high.num
  let d := v.num / v.den
  let twice := 2 * (v.num % v.den)
  let up := v.den < twice ∨ (twice = v.den ∧ d % 2 = 1)
  match inside d, inside (d + 1) with
  | true, true => some (if up then d + 1 else d)
  | true, false => some d
  | false, true => some (d + 1)
  | false, false => none

def search (m : Nat) (q : Int) (e : Int) : Nat → Nat → Nat × Nat
  | 0, n => ((onGrid m q e n).getD 0, n)
  | fuel + 1, n =>
    match onGrid m q e n with
    | some d => (d, n)
    | none => search m q e fuel (n + 1)

def digits (bits : UInt64) : List Char × Int :=
  let (m, q) := parts bits
  let e := magnitude (quarter (4 * m) q)
  let (d, n) := search m q e 16 1
  let ds := Nat.toDigits 10 d
  let e := if n < ds.length then e + 1 else e
  let trimmed := (ds.reverse.dropWhile (· == '0')).reverse
  (trimmed, e)

end LogTail.Json.Shortest
