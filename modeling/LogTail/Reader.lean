import LogTail.FileTree.Basic
import LogTail.Outlet
import LogTail.Record.Scan

namespace LogTail

/-- A reader follows one file from the offset up to which its records were accepted. `handle` is empty
once it is closed, and for a reader that is only remembered. -/
structure Reader where
  path : Path
  handle : Option Handle
  metadata : Metadata
  maxLogSize : Nat
  emitBatchSize : Nat
  deriving Repr

inductive ReadEnd
  | done | cancelled | refused | crashed
  deriving DecidableEq, Repr

namespace Reader

def fingerprint (r : Reader) : Fingerprint := r.metadata.fingerprint

def offset (r : Reader) : Nat := r.metadata.offset

def isOpen (r : Reader) : Bool := r.handle.isSome

def close (r : Reader) : Reader := { r with handle := none }

def moveTo (r : Reader) (offset : Nat) : Reader :=
  { r with metadata := { r.metadata with offset } }

def maxSpan : Nat := 0xFFFFFFFF

def recordAt (position : Nat) (p : Record.Piece) : Record :=
  ⟨Utf8.toStringLossy p.body, position, min p.span maxSpan⟩

/-- Hands over the pending records, newest first, and on success moves the offset to `stop`. -/
def flush (r : Reader) (pending : List Record) (stop : Nat) (o : Outlet) : ReadEnd × Reader × Outlet :=
  if pending.isEmpty then (.done, r.moveTo stop, o)
  else
    match o.offer ⟨r.path, pending.reverse, r.metadata⟩ with
    | (.refuse, o) => (.refused, r, o)
    | (.acceptAndCrash, o) => (.crashed, r, o)
    | (_, o) => (.done, r.moveTo stop, o)

/-- Delivers pieces from `position` on; `count` is the number of pending records. Before each piece,
and once behind the last, the token is looked at; what is pending then is left for the next time.
A piece without a body moves the position and is no record. -/
def deliver : List Record.Piece → Nat → List Record → Nat → Reader → Outlet → ReadEnd × Reader × Outlet
  | [], position, pending, _, r, o =>
    match o.look with
    | (true, o) => (.cancelled, r, o)
    | (false, o) => r.flush pending position o
  | p :: ps, position, pending, count, r, o =>
    match o.look with
    | (true, o) => (.cancelled, r, o)
    | (false, o) =>
      let stop := position + p.span
      let (pending, count) :=
        if p.body.isEmpty then (pending, count) else (recordAt position p :: pending, count + 1)
      if r.emitBatchSize ≤ count then
        match r.flush pending stop o with
        | (.done, r, o) => deliver ps stop [] 0 r o
        | ended => ended
      else deliver ps stop pending count r o

/-- The reader at its offset, or at the start of a file that became shorter than that. -/
def rewound (r : Reader) (length : Nat) : Reader := if length < r.offset then r.moveTo 0 else r

def read (r : Reader) (content : Bytes) (o : Outlet) : ReadEnd × Reader × Outlet :=
  let r := r.rewound content.length
  deliver (Record.pieces r.maxLogSize (content.drop r.offset)) r.offset [] 0 r o

def readIn (t : FileTree) (r : Reader) (o : Outlet) : ReadEnd × Reader × Outlet :=
  match r.handle with
  | none => (.done, r, o)
  | some h => r.read (t.content h.node) o

def shortLength? (t : FileTree) (r : Reader) : Option Nat :=
  match r.handle with
  | none => none
  | some h =>
    let length := (t.content h.node).length
    if length < r.offset then some length else none

def sameFile (a b : Reader) : Bool :=
  match a.handle, b.handle with
  | some g, some h => g.node = h.node
  | _, _ => false

end Reader

/-- Builds readers with shared limits. New files are read from their start or from their present
end. -/
structure Policy where
  fingerprintSize : Nat
  maxLogSize : Nat
  emitBatchSize : Nat
  includeFileName : Bool
  includeFilePath : Bool
  fromBeginning : Bool
  deriving DecidableEq, Repr

namespace Policy

def nameAttribute : String := "log.file.name"

def pathAttribute : String := "log.file.path"

def withName (f : Policy) (p : Path) (m : Metadata) : Metadata :=
  match p.fileName? with
  | some name => if f.includeFileName then m.withAttribute nameAttribute name else m
  | none => m

def withPath (f : Policy) (p : Path) (m : Metadata) : Metadata :=
  if f.includeFilePath then m.withAttribute pathAttribute p.text else m

def build (f : Policy) (p : Path) (h : Option Handle) (m : Metadata) : Reader :=
  ⟨p, h, f.withPath p (f.withName p m), max f.maxLogSize 1, max f.emitBatchSize 1⟩

def fresh (f : Policy) (length : Nat) (h : Handle) (fp : Fingerprint) (p : Path) : Reader :=
  f.build p (some h) ⟨fp, if f.fromBeginning then 0 else length, []⟩

/-- Goes on with a known file: offset and attributes stay, fingerprint and path are the new ones. -/
def resume (f : Policy) (old : Metadata) (h : Handle) (fp : Fingerprint) (p : Path) : Reader :=
  f.build p (some h) ⟨fp, old.offset, old.attributes⟩

/-- A reader without a file, which waits for its file to be seen again. -/
def remembered (f : Policy) (m : Metadata) : Reader :=
  let path := (Json.lookup pathAttribute m.attributes).or (Json.lookup nameAttribute m.attributes)
  ⟨⟨path.getD ""⟩, none, m, max f.maxLogSize 1, max f.emitBatchSize 1⟩

end Policy

def FileTree.fingerprint (t : FileTree) (size : Nat) (h : Handle) : Except Errno Fingerprint := do
  return Fingerprint.ofContent size (← t.readNode h.node)

end LogTail
