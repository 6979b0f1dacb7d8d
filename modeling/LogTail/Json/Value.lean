import LogTail.Utf8
import LogTail.Json.Number

namespace LogTail.Json

inductive Value
  | null
  | bool (b : Bool)
  | number (n : Number)
  | string (s : String)
  | array (items : List Value)
  | object (members : List (String × Value))
  deriving Inhabited

def insertMember {α : Type} (k : String) (v : α) : List (String × α) → List (String × α)
  | [] => [(k, v)]
  | (k', v') :: t =>
    if k < k' then (k, v) :: (k', v') :: t
    else if k = k' then (k, v) :: t
    else (k', v') :: insertMember k v t

def ofMembers {α : Type} (ms : List (String × α)) : List (String × α) :=
  ms.foldl (fun acc m => insertMember m.1 m.2 acc) []

def lookup {α : Type} (k : String) (ms : List (String × α)) : Option α :=
  (ms.find? (·.1 = k)).map (·.2)

def removeMember {α : Type} (k : String) (ms : List (String × α)) : List (String × α) :=
  ms.filter (·.1 ≠ k)

namespace Value

def nat (n : Nat) : Value := .number (.nat n)

def ofList {α : Type} (f : α → Value) (as : List α) : Value := .array (as.map f)

def ofFields (fs : List (String × Value)) : Value := .object (ofMembers fs)

def get? (k : String) : Value → Option Value
  | .object ms => lookup k ms
  | _ => none

def hexDigit (n : Nat) : Char := "0123456789abcdef".toList.getD n '0'

def escape (c : Char) : List Char :=
  if c = '"' then ['\\', '"']
  else if c = '\\' then ['\\', '\\']
  else if c = '\n' then ['\\', 'n']
  else if c = '\r' then ['\\', 'r']
  else if c = '\t' then ['\\', 't']
  else if c = Char.ofNat 8 then ['\\', 'b']
  else if c = Char.ofNat 12 then ['\\', 'f']
  else if c.toNat < 0x20 then
    ['\\', 'u', '0', '0', hexDigit (c.toNat / 16), hexDigit (c.toNat % 16)]
  else [c]

def quote (s : String) : Bytes := 34 :: (Utf8.encode (s.toList.flatMap escape) ++ [34])

mutual

def print : Value → Bytes
  | .null => Utf8.ofString "null"
  | .bool b => Utf8.ofString (if b then "true" else "false")
  | .number n => Utf8.ofString n.text
  | .string s => quote s
  | .array [] => Utf8.ofString "[]"
  | .array (v :: vs) => 91 :: (print v ++ printItems vs)
  | .object [] => Utf8.ofString "\x7b\x7d"
  | .object ((k, v) :: ms) => 123 :: (quote k ++ 58 :: (print v ++ printMembers ms))

def printItems : List Value → Bytes
  | [] => [93]
  | v :: vs => 44 :: (print v ++ printItems vs)

def printMembers : List (String × Value) → Bytes
  | [] => [125]
  | (k, v) :: ms => 44 :: (quote k ++ 58 :: (print v ++ printMembers ms))

end

def newLine (level : Nat) : Bytes := 10 :: List.replicate (2 * level) 32

mutual

def pretty (level : Nat) : Value → Bytes
  | .array (v :: vs) => 91 :: (newLine (level + 1) ++ (pretty (level + 1) v ++ prettyItems level vs))
  | .object ((k, v) :: ms) =>
    123 :: (newLine (level + 1) ++
      (quote k ++ 58 :: 32 :: (pretty (level + 1) v ++ prettyMembers level ms)))
  | .null => print .null
  | .bool b => print (.bool b)
  | .number n => print (.number n)
  | .string s => print (.string s)
  | .array [] => print (.array [])
  | .object [] => print (.object [])

def prettyItems (level : Nat) : List Value → Bytes
  | [] => newLine level ++ [93]
  | v :: vs => 44 :: (newLine (level + 1) ++ (pretty (level + 1) v ++ prettyItems level vs))

def prettyMembers (level : Nat) : List (String × Value) → Bytes
  | [] => newLine level ++ [125]
  | (k, v) :: ms =>
    44 :: (newLine (level + 1) ++
      (quote k ++ 58 :: 32 :: (pretty (level + 1) v ++ prettyMembers level ms)))

end

end Value

end LogTail.Json
