import LogTail.Utf8

namespace LogTail.Base64

def symbols : List Char :=
  "ABCDEFGHIJKLMNOPQRSTUVWXYZabcdefghijklmnopqrstuvwxyz0123456789+/".toList

def symbol (n : Nat) : Char := symbols.getD n 'A'

def sextet? (b : UInt8) : Option Nat :=
  let n := b.toNat
  if 65 ≤ n ∧ n ≤ 90 then some (n - 65)
  else if 97 ≤ n ∧ n ≤ 122 then some (n - 71)
  else if 48 ≤ n ∧ n ≤ 57 then some (n + 4)
  else if n = 43 then some 62
  else if n = 47 then some 63
  else none

def pad : UInt8 := 61

def encodeAux : Bytes → List Char → List Char
  | a :: b :: c :: t, acc =>
    let n := a.toNat * 0x10000 + b.toNat * 0x100 + c.toNat
    encodeAux t
      (symbol (n % 64) :: symbol (n / 64 % 64) :: symbol (n / 4096 % 64) :: symbol (n / 262144) :: acc)
  | [a, b], acc =>
    let n := a.toNat * 0x100 + b.toNat
    '=' :: symbol (n % 16 * 4) :: symbol (n / 16 % 64) :: symbol (n / 1024) :: acc
  | [a], acc =>
    let n := a.toNat
    '=' :: '=' :: symbol (n % 4 * 16) :: symbol (n / 4) :: acc
  | [], acc => acc

def encode (bs : Bytes) : String := String.ofList (encodeAux bs []).reverse

inductive Fault
  | symbol (byte : UInt8) (offset : Nat)
  | lastSymbol (byte : UInt8) (offset : Nat)
  | length (n : Nat)
  | padding
  deriving DecidableEq, Repr

def Fault.message : Fault → String
  | .symbol b i => s!"Invalid symbol {b.toNat}, offset {i}."
  | .lastSymbol b i => s!"Invalid last symbol {b.toNat}, offset {i}."
  | .length n => s!"Invalid input length: {n}"
  | .padding => "Invalid padding"

def sextets (offset : Nat) : Bytes → Except Fault (List Nat)
  | [] => .ok []
  | b :: t =>
    match sextet? b with
    | none => .error (.symbol b offset)
    | some n => (sextets (offset + 1) t).map (n :: ·)

def lastGroup (offset : Nat) : Nat → Bytes → List Nat → Nat → Except Fault (List Nat × Nat)
  | _, [], ns, pads => .ok (ns.reverse, pads)
  | i, b :: t, ns, pads =>
    if b = pad then
      if i < 2 then .error (.symbol b (offset + i)) else lastGroup offset (i + 1) t ns (pads + 1)
    else if 0 < pads then .error (.symbol pad (offset + ns.length))
    else
      match sextet? b with
      | none => .error (.symbol b (offset + i))
      | some n => lastGroup offset (i + 1) t (n :: ns) pads

/-- A last group has two or three symbols filled up with padding, or all four, and the bits that
spell no byte are zero. -/
def decodeLast (offset : Nat) (bs : Bytes) : Except Fault Bytes := do
  let (ns, pads) ← lastGroup offset 0 bs [] 0
  if ns.length < 2 then
    if bs.isEmpty then .ok [] else .error (.length (offset + ns.length))
  else if (ns.length + pads) % 4 ≠ 0 then .error .padding
  else
    let last := bs.getD (ns.length - 1) 0
    match ns with
    | [a, b] =>
      if b % 16 ≠ 0 then .error (.lastSymbol last (offset + 1))
      else .ok [(a * 4 + b / 16).toUInt8]
    | [a, b, c] =>
      if c % 4 ≠ 0 then .error (.lastSymbol last (offset + 2))
      else .ok [(a * 4 + b / 16).toUInt8, (b % 16 * 16 + c / 4).toUInt8]
    | [a, b, c, d] =>
      .ok [(a * 4 + b / 16).toUInt8, (b % 16 * 16 + c / 4).toUInt8, (c % 4 * 64 + d).toUInt8]
    | _ => .ok []

def decodeAux (offset : Nat) : Bytes → Bytes → Except Fault Bytes
  | a :: b :: c :: d :: e :: t, acc =>
    match sextets offset [a, b, c, d] with
    | .error f => .error f
    | .ok ns =>
      match ns with
      | [a, b, c, d] =>
        decodeAux (offset + 4) (e :: t)
          ((c % 4 * 64 + d).toUInt8 :: (b % 16 * 16 + c / 4).toUInt8 :: (a * 4 + b / 16).toUInt8 :: acc)
      | _ => .error .padding
  | bs, acc => (decodeLast offset bs).map fun last => acc.reverse ++ last

def decode (bs : Bytes) : Except Fault Bytes :=
  match bs.getLast? with
  | none => .ok []
  | some last =>
    if bs.length % 4 = 1 ∧ last ≠ pad ∧ sextet? last = none then
      .error (.symbol last (bs.length - 1))
    else decodeAux 0 bs []

end LogTail.Base64
