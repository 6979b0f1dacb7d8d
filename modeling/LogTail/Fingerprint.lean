import LogTail.Base64
import LogTail.Json.Decode

namespace LogTail

structure Fingerprint where
  bytes : Bytes
  deriving DecidableEq, Repr

namespace Fingerprint

def ofContent (size : Nat) (content : Bytes) : Fingerprint := ⟨content.take size⟩

def size (a : Fingerprint) : Nat := a.bytes.length

def isEmpty (a : Fingerprint) : Bool := a.bytes.isEmpty

/-- The bytes that both have are the same, and there are some. -/
def agrees (a b : Fingerprint) : Bool :=
  let n := min a.bytes.length b.bytes.length
  n ≠ 0 && a.bytes.take n == b.bytes.take n

def startsWith (a b : Fingerprint) : Bool :=
  !b.bytes.isEmpty && b.bytes.isPrefixOf a.bytes

open Json

def toValue (a : Fingerprint) : Value :=
  .ofFields [("first_bytes", .string (Base64.encode a.bytes))]

def decodeBytes (s : String) : Decoded Bytes :=
  match Base64.decode (Utf8.ofString s) with
  | .ok bs => .ok bs
  | .error f => .error (.custom f.message)

def fields : List (Draft.Field Fingerprint) :=
  [⟨["first_bytes"], true, fun _ d _ => do return ⟨← decodeBytes (← d.asText)⟩⟩]

def ofDraft (src : Source) (d : Draft) : Decoded Fingerprint :=
  d.asRecord src "struct Fingerprint" fields ⟨[]⟩

end Fingerprint

end LogTail
