import LogTail.Json.Shortest

namespace LogTail.Json

/-- `negative n` is `-n`, for `n` from 1 to `2 ^ 63`. -/
inductive Number
  | nat (n : Nat)
  | negative (n : Nat)
  | float (bits : UInt64)
  deriving DecidableEq, Repr

namespace Number

def limit : Nat := 0x10000000000000000

def signBit : Nat := 0x8000000000000000

def fill (sig : Nat) : List Nat → Nat × Nat
  | [] => (sig, 0)
  | d :: t => if limit ≤ sig * 10 + d then (sig, t.length + 1) else fill (sig * 10 + d) t

def tenTo (k : Nat) : Float := Float.ofScientific 1 false k

/-- `f * 10 ^ e`, rounded once per step; `none` beyond the largest double. -/
def scaled : Nat → Float → Int → Option Float
  | 0, f, _ => some f
  | fuel + 1, f, e =>
    if 308 < e then if f == 0.0 then some f else none
    else if 0 ≤ e then
      let p := f * tenTo e.toNat
      if p.isInf then none else some p
    else if -308 ≤ e then some (f / tenTo (-e).toNat)
    else if f == 0.0 then some f
    else scaled fuel (f / tenTo 308) (e + 308)

def ofParts (minus : Bool) (sig : Nat) (e : Int) : Option Number :=
  (scaled 4 sig.toUInt64.toFloat e).map fun f => .float (if minus then -f else f).toBits

def zero (minus : Bool) : Number := .float (if minus then (-0.0 : Float) else 0.0).toBits

def exponentLimit : Nat := 0x80000000

def spelled (ds : List Nat) : Nat := ds.foldl (fun n d => n * 10 + d) 0

def clampExponent (e : Int) : Int := max (-(exponentLimit : Int)) (min ((exponentLimit : Int) - 1) e)

/-- The number written with these digits: sign, whole part, fraction, and the exponent with its
sign. `none` where the double would be infinite. -/
def ofDigits (minus : Bool) (whole : List Nat) (fraction : Option (List Nat))
    (exponent : Option (Bool × List Nat)) : Option Number :=
  let (sig, left) := fill 0 whole
  match fraction, exponent with
  | none, none =>
    if left = 0 then
      if !minus then some (.nat sig)
      else if 0 < sig ∧ sig ≤ signBit then some (.negative sig)
      else some (.float (-(sig.toUInt64.toFloat)).toBits)
    else ofParts minus sig left
  | _, _ =>
    let fr := fraction.getD []
    let (sig, unused) := fill sig fr
    let e : Int := (left : Int) - ((fr.length - unused : Nat) : Int)
    match exponent with
    | none => ofParts minus sig e
    | some (below, ds) =>
      let n := spelled ds
      if exponentLimit ≤ n then
        if sig = 0 ∨ below then some (zero minus) else none
      else ofParts minus sig (clampExponent (if below then e - n else e + n))

/-- The places where a double changes its look: positional from `10 ^ -5` up to below `10 ^ 16`. -/
def floatText (bits : UInt64) : String :=
  let sign := if signBit ≤ bits.toNat then "-" else ""
  if bits.toNat % signBit = 0 then sign ++ "0.0"
  else
    let (ds, e) := Shortest.digits bits
    let text (cs : List Char) := String.ofList cs
    let zeros (n : Nat) := List.replicate n '0'
    sign ++
      if e < -5 ∨ 15 < e then
        let mantissa := match ds with
          | [] => ""
          | [d] => text [d]
          | d :: t => text (d :: '.' :: t)
        mantissa ++ (if e < 0 then "e-" else "e+") ++ toString e.natAbs
      else if e < 0 then "0." ++ text (zeros ((-e).toNat - 1) ++ ds)
      else
        let n := e.toNat + 1
        if ds.length ≤ n then text (ds ++ zeros (n - ds.length)) ++ ".0"
        else text (ds.take n) ++ "." ++ text (ds.drop n)

def text : Number → String
  | .nat n => toString n
  | .negative n => "-" ++ toString n
  | .float bits => floatText bits

end Number

end LogTail.Json
