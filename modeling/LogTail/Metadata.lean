import LogTail.Fingerprint

namespace LogTail

/-- `offset` is the position of the first byte that is not yet delivered. Attributes are in the
order of their keys. -/
structure Metadata where
  fingerprint : Fingerprint
  offset : Nat
  attributes : List (String × String)
  deriving DecidableEq, Repr

namespace Metadata

open Json

def attributesValue (attributes : List (String × String)) : Value :=
  .object (attributes.map fun a => (a.1, .string a.2))

def toValue (m : Metadata) : Value :=
  .object [("file_attributes", attributesValue m.attributes),
    ("fingerprint", m.fingerprint.toValue), ("offset", .nat m.offset)]

def written (m : Metadata) : Value :=
  .object [("fingerprint", m.fingerprint.toValue), ("offset", .nat m.offset),
    ("file_attributes", attributesValue m.attributes)]

def fields : List (Draft.Field Metadata) :=
  [⟨["fingerprint"], true,
      fun src d m => do return { m with fingerprint := ← Fingerprint.ofDraft src d }⟩,
    ⟨["offset"], true, fun _ d m => do return { m with offset := ← d.asWord64 }⟩,
    ⟨["file_attributes"], false,
      fun src d m => do return { m with attributes := ← d.asMap src fun _ d => d.asText }⟩]

def blank : Metadata := ⟨⟨[]⟩, 0, []⟩

def ofDraft (src : Source) (d : Draft) : Decoded Metadata :=
  d.asRecord src "struct Metadata" fields blank

def withAttribute (m : Metadata) (key value : String) : Metadata :=
  { m with attributes := insertMember key value m.attributes }

end Metadata

end LogTail
