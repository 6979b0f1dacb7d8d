import LogTail.Json.Fault
import LogTail.Json.Value

namespace LogTail.Json

/-- A word with its value, its fault when passed over, and the text behind it. Passing over asks less:
surrogates need not pair up, and numbers may be too large. -/
structure Lexeme (α : Type) where
  value : Except Fault α
  skim : Option Fault
  rest : Bytes

namespace Lexeme

def isBlank (b : UInt8) : Bool := b = 32 || b = 10 || b = 13 || b = 9

def skipBlanks (bs : Bytes) : Bytes := bs.dropWhile isBlank

def isDigit (b : UInt8) : Bool := 48 ≤ b && b ≤ 57

def name (letters : Bytes) (bs : Bytes) : Except Fault Bytes :=
  match letters, bs with
  | [], bs => .ok bs
  | _ :: _, [] => .error .eofValue
  | c :: cs, b :: t => if b = c then name cs t else .error .expectedIdent

def failed {α : Type} (value skim : Fault) : Lexeme α := ⟨.error value, some skim, []⟩

def digitValues (ds : Bytes) : List Nat := ds.map fun d => d.toNat - 48

def noDigit {α : Type} (bs : Bytes) : Lexeme α :=
  failed (if bs.isEmpty then .eofValue else .invalidNumber) .invalidNumber

def number' (minus : Bool) (whole : Bytes) (fraction : Option Bytes)
    (exponent : Option (Bool × Bytes)) (rest : Bytes) : Lexeme Number :=
  match Number.ofDigits minus (digitValues whole) (fraction.map digitValues)
      (exponent.map fun e => (e.1, digitValues e.2)) with
  | some n => ⟨.ok n, none, rest⟩
  | none => ⟨.error .numberOutOfRange, none, rest⟩

def exponentPart (minus : Bool) (whole : Bytes) (fraction : Option Bytes) (bs : Bytes) :
    Lexeme Number :=
  match bs with
  | b :: t =>
    if b = 101 ∨ b = 69 then
      let below := t.head? = some 45
      let t := if below ∨ t.head? = some 43 then t.drop 1 else t
      let ds := t.takeWhile isDigit
      if ds.isEmpty then noDigit t
      else number' minus whole fraction (some (below, ds)) (t.dropWhile isDigit)
    else number' minus whole fraction none bs
  | [] => number' minus whole fraction none bs

def fractionPart (minus : Bool) (whole : Bytes) (bs : Bytes) : Lexeme Number :=
  match bs with
  | 46 :: t =>
    let ds := t.takeWhile isDigit
    if ds.isEmpty then noDigit t else exponentPart minus whole (some ds) (t.dropWhile isDigit)
  | _ => exponentPart minus whole none bs

def unsigned (minus : Bool) (bs : Bytes) : Lexeme Number :=
  let whole := bs.takeWhile isDigit
  match whole with
  | [] => noDigit bs
  | 48 :: _ :: _ => failed .invalidNumber .invalidNumber
  | _ => fractionPart minus whole (bs.dropWhile isDigit)

def number (bs : Bytes) : Lexeme Number :=
  match bs with
  | 45 :: t => unsigned true t
  | _ => unsigned false bs

def hexValue? (b : UInt8) : Option Nat :=
  let n := b.toNat
  if 48 ≤ n ∧ n ≤ 57 then some (n - 48)
  else if 97 ≤ n ∧ n ≤ 102 then some (n - 87)
  else if 65 ≤ n ∧ n ≤ 70 then some (n - 55)
  else none

def hexUnit? (a b c d : UInt8) : Option Nat := do
  return (((← hexValue? a) * 16 + (← hexValue? b)) * 16 + (← hexValue? c)) * 16 + (← hexValue? d)

def plainEscape? (b : UInt8) : Option UInt8 :=
  if b = 34 then some 34 else if b = 92 then some 92 else if b = 47 then some 47
  else if b = 98 then some 8 else if b = 102 then some 12 else if b = 110 then some 10
  else if b = 114 then some 13 else if b = 116 then some 9 else none

/-- The text of a string so far: its bytes, last first, and a leading surrogate that waits for its
partner. -/
structure Spelt where
  bytes : Bytes
  lead : Option Nat

namespace Spelt

def byte (b : UInt8) (s : Spelt) : Except Fault Spelt :=
  match s.lead with
  | some _ => .error .hexEscapeEnd
  | none => .ok { s with bytes := b :: s.bytes }

def unit (u : Nat) (s : Spelt) : Except Fault Spelt :=
  match s.lead with
  | some l =>
    if 0xDC00 ≤ u ∧ u ≤ 0xDFFF then
      let c := Char.ofNat (0x10000 + (l - 0xD800) * 0x400 + (u - 0xDC00))
      .ok ⟨(Utf8.encodeChar c).reverse ++ s.bytes, none⟩
    else .error .loneSurrogate
  | none =>
    if 0xDC00 ≤ u ∧ u ≤ 0xDFFF then .error .loneSurrogate
    else if 0xD800 ≤ u ∧ u ≤ 0xDBFF then .ok { s with lead := some u }
    else .ok { s with bytes := (Utf8.encodeChar (Char.ofNat u)).reverse ++ s.bytes }

def finish (s : Spelt) : Except Fault String :=
  match s.lead with
  | some _ => .error .hexEscapeEnd
  | none =>
    match Utf8.toString? s.bytes.reverse with
    | some text => .ok text
    | none => .error .invalidUnicode

def faulted (f : Fault) (s : Spelt) : Except Fault String :=
  match s.lead with
  | some _ => .error .hexEscapeEnd
  | none => .error f

end Spelt

def stringFrom (s : Except Fault Spelt) : Bytes → Lexeme String
  | [] => ⟨s.bind fun _ => .error .eofString, some .eofString, []⟩
  | b :: t =>
    if b = 34 then ⟨s.bind Spelt.finish, none, t⟩
    else if b = 92 then
      match t with
      | [] => ⟨s.bind fun _ => .error .eofString, some .eofString, []⟩
      | e :: t =>
        if e = 117 then
          match t with
          | a :: b :: c :: d :: t =>
            match hexUnit? a b c d with
            | some u => stringFrom (s.bind (Spelt.unit u)) t
            | none => ⟨s.bind fun _ => .error .invalidEscape, some .invalidEscape, []⟩
          | _ => ⟨s.bind fun _ => .error .eofString, some .eofString, []⟩
        else
          match plainEscape? e with
          | some b => stringFrom (s.bind (Spelt.byte b)) t
          | none => ⟨s.bind (Spelt.faulted .invalidEscape), some .invalidEscape, []⟩
    else if b < 32 then
      ⟨s.bind (Spelt.faulted .controlCharacter), some .controlCharacter, []⟩
    else stringFrom (s.bind (Spelt.byte b)) t

def string (bs : Bytes) : Lexeme String := stringFrom (.ok ⟨[], none⟩) bs

end Lexeme

end LogTail.Json
