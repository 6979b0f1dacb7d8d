namespace LogTail

abbrev Bytes := List UInt8

namespace Utf8

def encodeChar (c : Char) : Bytes :=
  let n := c.toNat
  if n < 0x80 then [n.toUInt8]
  else if n < 0x800 then [(0xC0 + n / 0x40).toUInt8, (0x80 + n % 0x40).toUInt8]
  else if n < 0x10000 then
    [(0xE0 + n / 0x1000).toUInt8, (0x80 + n / 0x40 % 0x40).toUInt8, (0x80 + n % 0x40).toUInt8]
  else
    [(0xF0 + n / 0x40000).toUInt8, (0x80 + n / 0x1000 % 0x40).toUInt8,
      (0x80 + n / 0x40 % 0x40).toUInt8, (0x80 + n % 0x40).toUInt8]

def encode (cs : List Char) : Bytes := cs.flatMap encodeChar

def ofString (s : String) : Bytes := encode s.toList

/-- A character begun: `owed + 1` bytes are still to come, the next lies from `low` to `high`, and
`bits` holds what the bytes so far spell. -/
structure Begun where
  owed : Nat
  low : Nat
  high : Nat
  bits : Nat
  deriving DecidableEq, Repr

inductive Step
  | char (c : Char)
  | more (s : Begun)
  | bad

/-- The first byte of a character. The narrowed ranges rule out overlong forms, surrogates and
values above U+10FFFF. -/
def first (b : Nat) : Step :=
  if b < 0x80 then .char (Char.ofNat b)
  else if b < 0xC2 then .bad
  else if b < 0xE0 then .more ⟨0, 0x80, 0xBF, b - 0xC0⟩
  else if b < 0xF0 then
    .more ⟨1, if b = 0xE0 then 0xA0 else 0x80, if b = 0xED then 0x9F else 0xBF, b - 0xE0⟩
  else if b < 0xF5 then
    .more ⟨2, if b = 0xF0 then 0x90 else 0x80, if b = 0xF4 then 0x8F else 0xBF, b - 0xF0⟩
  else .bad

def continued (s : Begun) (b : Nat) : Step :=
  if b < s.low ∨ s.high < b then .bad
  else
    let bits := s.bits * 0x40 + (b - 0x80)
    match s.owed with
    | 0 => .char (Char.ofNat bits)
    | n + 1 => .more ⟨n, 0x80, 0xBF, bits⟩

/-- The characters of a byte string, last first; `none` stands for an ill-formed run. -/
def scan : Option Begun → Bytes → List (Option Char) → List (Option Char)
  | none, [], acc => acc
  | some _, [], acc => none :: acc
  | none, b :: t, acc =>
    match first b.toNat with
    | .char c => scan none t (some c :: acc)
    | .more s => scan (some s) t acc
    | .bad => scan none t (none :: acc)
  | some s, b :: t, acc =>
    match continued s b.toNat with
    | .char c => scan none t (some c :: acc)
    | .more s => scan (some s) t acc
    | .bad =>
      match first b.toNat with
      | .char c => scan none t (some c :: none :: acc)
      | .more s => scan (some s) t (none :: acc)
      | .bad => scan none t (none :: none :: acc)

def decode? (bs : Bytes) : Option (List Char) :=
  (scan none bs []).foldl (fun r c => r.bind fun cs => c.map (· :: cs)) (some [])

/-- Reads any bytes, with one U+FFFD for every longest run that begins a character and does not finish
it. -/
def decodeLossy (bs : Bytes) : List Char :=
  (scan none bs []).foldl (fun cs c => c.getD (Char.ofNat 0xFFFD) :: cs) []

def toString? (bs : Bytes) : Option String := (decode? bs).map String.ofList

def toStringLossy (bs : Bytes) : String := String.ofList (decodeLossy bs)

end Utf8

end LogTail
