import LogTail.Checkpoint.Document
import LogTail.Checkpoint.Stream
import LogTail.Json.Message

namespace LogTail.Checkpoint

open Json

def key : String := "knownFiles"

inductive Fault
  | corrupt (f : Json.Fault)
  | invalidDocument (m : Misfit)
  | unsupportedVersion (n : Nat)
  | invalidCount (n : Number)
  | unrecognised
  | ended (index count : Nat)
  | corruptEntry (f : Json.Fault)
  | invalidEntry (m : Misfit)

def Fault.message : Fault → String
  | .corrupt f => "corrupt checkpoint: " ++ f.message
  | .invalidDocument m => "invalid checkpoint document: " ++ m.message
  | .unsupportedVersion n => s!"unsupported checkpoint version {n}"
  | .invalidCount n => "invalid legacy checkpoint entry count: " ++ n.text
  | .unrecognised => "checkpoint is neither a versioned document nor a legacy stream"
  | .ended index count => s!"legacy checkpoint ended after {index} of {count} entries"
  | .corruptEntry f => "corrupt legacy checkpoint entry: " ++ f.message
  | .invalidEntry m => "invalid legacy checkpoint entry: " ++ m.message

def encode (files : List Metadata) : Bytes := (Document.ofFiles files).written.print

def ofDocument (v : Value) : Except Fault (List Metadata) :=
  match Document.ofDraft .value (.ofValue v) with
  | .error m => .error (.invalidDocument m)
  | .ok doc =>
    if doc.version = Document.currentVersion then .ok doc.files
    else .error (.unsupportedVersion doc.version)

/-- The entries from `index` up to `count`; `fuel` exceeds the number of values in the text. -/
def entries (count : Nat) : Nat → Nat → Bytes → Except Fault (List Metadata)
  | 0, index, _ => .error (.ended index count)
  | fuel + 1, index, bs =>
    if count ≤ index then .ok []
    else
      match nextValue bs with
      | none => .error (.ended index count)
      | some (.error f) => .error (.corruptEntry f)
      | some (.ok (v, rest)) =>
        match Entry.ofDraft .value (.ofValue v) with
        | .error m => .error (.invalidEntry m)
        | .ok m => (entries count fuel (index + 1) rest).map (m :: ·)

def ofStream (bs : Bytes) : Except Fault (List Metadata) :=
  match nextValue bs with
  | some (.error f) => .error (.corrupt f)
  | some (.ok (.number (.nat n), rest)) => entries n (bs.length + 1) 0 rest
  | some (.ok (.number n, _)) => .error (.invalidCount n)
  | _ => .error .unrecognised

inductive Format
  | blank | document | stream
  deriving DecidableEq, Repr

def isBlank (b : UInt8) : Bool := b = 32 || b = 9 || b = 10 || b = 12 || b = 13

def format (bs : Bytes) : Format :=
  if bs.all isBlank then .blank
  else
    match Value.ofBytes bs with
    | .ok (.object _) => .document
    | _ => .stream

/-- Reads the document or the older stream; blank bytes are no files. -/
def decode (bs : Bytes) : Except Fault (List Metadata) :=
  if bs.all isBlank then .ok []
  else
    match Value.ofBytes bs with
    | .ok (.object ms) => ofDocument (.object ms)
    | _ => ofStream bs

end LogTail.Checkpoint
