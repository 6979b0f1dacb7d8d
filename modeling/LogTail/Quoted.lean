import LogTail.Unicode.CharSet

namespace LogTail.Quoted

def hex (n : Nat) : String := String.ofList (Nat.toDigits 16 n)

def char (single : Bool) (c : Char) : String :=
  if c = '\\' then "\\\\"
  else if c = '"' then "\\\""
  else if c = '\'' then (if single then "\\'" else "'")
  else if c = Char.ofNat 0 then "\\0"
  else if c = '\t' then "\\t"
  else if c = '\n' then "\\n"
  else if c = '\r' then "\\r"
  else if c.toNat < 0x7F ∧ 0x20 ≤ c.toNat then c.toString
  else if Unicode.graphemeExtend.contains c || !Unicode.printable.contains c then
    "\\u\x7b" ++ hex c.toNat ++ "\x7d"
  else c.toString

def quoteWith (single : Bool) (s : String) : String :=
  "\"" ++ String.join (s.toList.map (char single)) ++ "\""

def text (s : String) : String := quoteWith false s

def path (s : String) : String := quoteWith true s

def texts (ss : List String) : String := "[" ++ String.intercalate ", " (ss.map text) ++ "]"

end LogTail.Quoted
