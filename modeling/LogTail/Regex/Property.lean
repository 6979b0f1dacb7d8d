import LogTail.Unicode.CharSet

namespace LogTail.Regex

open Unicode

/-- Names are compared without case, blanks, hyphens, underscores and a leading "is". -/
def normalName (s : List Char) : String :=
  let cs := (s.filter fun c => c ≠ ' ' && c ≠ '_' && c ≠ '-' && c ≠ '\t').map Char.toLower
  let cs :=
    match cs with
    | 'i' :: 's' :: t => if t = ['c'] then cs else t
    | cs => cs
  String.ofList cs

def generalCategories : List (List String × List String) :=
  [(["l", "letter"], ["Lu", "Ll", "Lt", "Lm", "Lo"]),
    (["lc", "casedletter"], ["Lu", "Ll", "Lt"]),
    (["lu", "uppercaseletter"], ["Lu"]), (["ll", "lowercaseletter"], ["Ll"]),
    (["lt", "titlecaseletter"], ["Lt"]), (["lm", "modifierletter"], ["Lm"]),
    (["lo", "otherletter"], ["Lo"]),
    (["m", "mark", "combiningmark"], ["Mn", "Mc", "Me"]),
    (["mn", "nonspacingmark"], ["Mn"]), (["mc", "spacingmark"], ["Mc"]),
    (["me", "enclosingmark"], ["Me"]),
    (["n", "number"], ["Nd", "Nl", "No"]),
    (["nd", "decimalnumber", "digit"], ["Nd"]), (["nl", "letternumber"], ["Nl"]),
    (["no", "othernumber"], ["No"]),
    (["p", "punctuation", "punct"], ["Pc", "Pd", "Ps", "Pe", "Pi", "Pf", "Po"]),
    (["pc", "connectorpunctuation"], ["Pc"]), (["pd", "dashpunctuation"], ["Pd"]),
    (["ps", "openpunctuation"], ["Ps"]), (["pe", "closepunctuation"], ["Pe"]),
    (["pi", "initialpunctuation"], ["Pi"]), (["pf", "finalpunctuation"], ["Pf"]),
    (["po", "otherpunctuation"], ["Po"]),
    (["s", "symbol"], ["Sm", "Sc", "Sk", "So"]),
    (["sm", "mathsymbol"], ["Sm"]), (["sc", "currencysymbol"], ["Sc"]),
    (["sk", "modifiersymbol"], ["Sk"]), (["so", "othersymbol"], ["So"]),
    (["z", "separator"], ["Zs", "Zl", "Zp"]),
    (["zs", "spaceseparator"], ["Zs"]), (["zl", "lineseparator"], ["Zl"]),
    (["zp", "paragraphseparator"], ["Zp"]),
    (["cc", "control", "cntrl"], ["Cc"]), (["cf", "format"], ["Cf"]),
    (["co", "privateuse"], ["Co"]), (["cs", "surrogate"], [])]

def generalCategory? (name : String) : Option CharSet :=
  if name = "any" then some CharSet.full
  else if name = "assigned" then some assigned
  else if name = "ascii" then some [(0, 127)]
  else if name = "cn" ∨ name = "unassigned" then some unassigned
  else if name = "c" ∨ name = "other" then
    some (CharSet.ofRanges (unassigned ++ categories ["Cc", "Cf", "Co"]))
  else (generalCategories.find? (·.1.contains name)).map fun e => categories e.2

def binary? (name : String) : Option CharSet :=
  match name with
  | "alphabetic" | "alpha" => some alphabetic
  | "lowercase" | "lower" => some (readRanges Table.lowercase)
  | "uppercase" | "upper" => some (readRanges Table.uppercase)
  | "whitespace" | "wspace" | "space" => some whiteSpace
  | "joincontrol" | "joinc" => some (readRanges Table.joinControl)
  | "graphemeextend" | "grext" => some graphemeExtend
  | "asciihexdigit" | "ahex" => some [(48, 57), (65, 70), (97, 102)]
  | _ => none

def script? (name : String) : Option CharSet :=
  (Table.scripts.find? fun s => normalName s.1.toList = name || normalName s.2.1.toList = name).map
    fun s => readRanges s.2.2

def named? (name : String) : Option CharSet :=
  (binary? name).or ((generalCategory? name).or (script? name))

def splitAtFirst (sep : List Char) : List Char → List Char → Option (List Char × List Char)
  | acc, [] => if sep.isEmpty then some (acc.reverse, []) else none
  | acc, c :: t =>
    if sep.isPrefixOf (c :: t) then some (acc.reverse, (c :: t).drop sep.length)
    else splitAtFirst sep (c :: acc) t

def valued? (property value : List Char) : Option CharSet :=
  let value := normalName value
  match normalName property with
  | "gc" | "generalcategory" => generalCategory? value
  | "sc" | "script" | "scx" | "scriptextensions" => script? value
  | _ => none

def property? (text : List Char) : Option CharSet :=
  match splitAtFirst ['!', '='] [] text with
  | some (p, v) => (valued? p v).map CharSet.complement
  | none =>
    match splitAtFirst [':'] [] text with
    | some (p, v) => valued? p v
    | none =>
      match splitAtFirst ['='] [] text with
      | some (p, v) => valued? p v
      | none => named? (normalName text)

def asciiClass? : String → Option CharSet
  | "alnum" => some [(48, 57), (65, 90), (97, 122)]
  | "alpha" => some [(65, 90), (97, 122)]
  | "ascii" => some [(0, 127)]
  | "blank" => some [(9, 9), (32, 32)]
  | "cntrl" => some [(0, 31), (127, 127)]
  | "digit" => some [(48, 57)]
  | "graph" => some [(33, 126)]
  | "lower" => some [(97, 122)]
  | "print" => some [(32, 126)]
  | "punct" => some [(33, 47), (58, 64), (91, 96), (123, 126)]
  | "space" => some [(9, 13), (32, 32)]
  | "upper" => some [(65, 90)]
  | "word" => some [(48, 57), (65, 90), (95, 95), (97, 122)]
  | "xdigit" => some [(48, 57), (65, 70), (97, 102)]
  | _ => none

def foldCase (s : CharSet) : CharSet :=
  let folded := foldings.filterMap fun f => if CharSet.mem f.1 s then some (f.2, f.2) else none
  let s := CharSet.ofRanges (s ++ folded)
  let unfolded := foldings.filterMap fun f => if CharSet.mem f.2 s then some (f.1, f.1) else none
  CharSet.ofRanges (s ++ unfolded)

def foldAscii (s : CharSet) : CharSet :=
  let shifted := s.flatMap fun r =>
    [(max r.1 65 + 32, min r.2 90 + 32), (max r.1 97 - 32, min r.2 122 - 32)].filter fun q => q.1 ≤ q.2
  CharSet.ofRanges (s ++ shifted)

def isAscii (s : CharSet) : Bool := s.all fun r => r.2 < 128

end LogTail.Regex
