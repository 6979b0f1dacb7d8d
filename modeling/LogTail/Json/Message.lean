import LogTail.Json.Decode
import LogTail.Quoted

namespace LogTail.Json

def quotedName (s : String) : String := "`" ++ s ++ "`"

def oneOf : List String → String
  | [] => "there are no variants"
  | [a] => "expected " ++ quotedName a
  | [a, b] => "expected " ++ quotedName a ++ " or " ++ quotedName b
  | names => "expected one of " ++ String.intercalate ", " (names.map quotedName)

def Misfit.message : Misfit → String
  | .fault f => f.message
  | .type found expected => "invalid type: " ++ found.text Quoted.text ++ ", expected " ++ expected
  | .value found expected => "invalid value: " ++ found.text Quoted.text ++ ", expected " ++ expected
  | .length n expected => s!"invalid length {n}, expected {expected}"
  | .missing field => "missing field " ++ quotedName field
  | .duplicate field => "duplicate field " ++ quotedName field
  | .variant name known => "unknown variant " ++ quotedName name ++ ", " ++ oneOf known
  | .custom m => m

end LogTail.Json
