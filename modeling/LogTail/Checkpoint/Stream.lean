import LogTail.Metadata

namespace LogTail.Checkpoint

open Json

namespace Entry

def bytes (d : Draft) : Decoded Bytes := do
  match ← d.asOption Draft.asText with
  | none => return []
  | some s => Fingerprint.decodeBytes s

def fingerprintFields : List (Draft.Field Fingerprint) :=
  [⟨["first_bytes", "FirstBytes"], true, fun _ d _ => do return ⟨← bytes d⟩⟩]

def fingerprint (src : Source) (d : Draft) : Decoded Fingerprint :=
  d.asRecord src "struct LegacyFingerprint" fingerprintFields ⟨[]⟩

def textOnly : String × Value → Option (String × String)
  | (k, .string s) => some (k, s)
  | _ => none

def attributes (src : Source) (d : Draft) : Decoded (List (String × String)) := do
  let ms ← d.asOption fun d => d.asMap src Draft.asValue
  return (ms.getD []).filterMap textOnly

def fields : List (Draft.Field Metadata) :=
  [⟨["Fingerprint"], true, fun src d m => do return { m with fingerprint := ← fingerprint src d }⟩,
    ⟨["Offset"], false, fun _ d m => do return { m with offset := ← d.asWord64 }⟩,
    ⟨["FileAttributes"], false,
      fun src d m => do return { m with attributes := ← attributes src d }⟩]

def ofDraft (src : Source) (d : Draft) : Decoded Metadata :=
  d.asRecord src "struct PersistedEntryLegacy" fields Metadata.blank

end Entry

def delimiters : Bytes := [32, 10, 9, 13, 34, 91, 93, 123, 125, 44, 58]

/-- The next value of a stream and the text behind it. Lists, objects and strings show their own
end; any other value must be followed by a delimiter. -/
def nextValue (bs : Bytes) : Option (Except Json.Fault (Value × Bytes)) :=
  match Lexeme.skipBlanks bs with
  | [] => none
  | b :: t =>
    let (d, rest) := Draft.ofBytes (b :: t)
    let rest := rest.getD []
    some (match d.value Draft.maxDepth with
      | .error f => .error f
      | .ok v =>
        if b = 91 ∨ b = 34 ∨ b = 123 then .ok (v, rest)
        else
          match rest with
          | [] => .ok (v, [])
          | c :: _ => if delimiters.contains c then .ok (v, rest) else .error .trailingCharacters)

end LogTail.Checkpoint
