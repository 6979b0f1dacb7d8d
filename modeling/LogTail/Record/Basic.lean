import LogTail.Metadata
import LogTail.Path

namespace LogTail

/-- Where a record lies in its file: the position of its first byte and the number of bytes it
spans, terminator included. -/
structure Span where
  offset : Nat
  len : Nat
  deriving DecidableEq, Repr

def Span.stop (s : Span) : Nat := s.offset + s.len

structure Record where
  body : String
  span : Span
  deriving DecidableEq, Repr

/-- Records of one file. The metadata is that of the file before these records. -/
structure Batch where
  path : Path
  records : List Record
  metadata : Metadata
  deriving DecidableEq, Repr

def Batch.stop? (b : Batch) : Option Nat := b.records.getLast?.map fun r => r.span.stop

end LogTail
