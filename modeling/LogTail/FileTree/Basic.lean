import LogTail.Path
import LogTail.Utf8

namespace LogTail

inductive Errno
  | notPermitted | noEntry | busy | exists | notDirectory | isDirectory | invalid | nameTooLong
  | notEmpty | loop | noTree | nul
  deriving DecidableEq, Repr

namespace Errno

def message : Errno → String
  | .notPermitted => "Operation not permitted (os error 1)"
  | .noEntry => "No such file or directory (os error 2)"
  | .busy => "Device or resource busy (os error 16)"
  | .exists => "File exists (os error 17)"
  | .notDirectory => "Not a directory (os error 20)"
  | .isDirectory => "Is a directory (os error 21)"
  | .invalid => "Invalid argument (os error 22)"
  | .nameTooLong => "File name too long (os error 36)"
  | .notEmpty => "Directory not empty (os error 39)"
  | .loop => "Too many levels of symbolic links (os error 40)"
  | .noTree => "failed to create whole tree"
  | .nul => "file name contained an unexpected NUL byte"

end Errno

inductive Node
  | file (content : Bytes)
  | directory
  | link (target : Path)
  deriving DecidableEq, Repr

structure Entry where
  dir : Nat
  name : String
  node : Nat
  live : Bool
  deriving DecidableEq, Repr

/-- Nodes and entries are numbered by their places in the lists. A node stays when its last entry is
gone, so that an open file can still be read, and an entry that was removed is kept as dead, so that
the last name of an open file is known. -/
structure FileTree where
  nodes : List Node
  entries : List Entry
  deriving Repr

/-- An open file: the node, and the entry it was opened through if it has one. -/
structure Handle where
  node : Nat
  entry : Option Nat
  deriving DecidableEq, Repr

namespace FileTree

def home : Nat := 0

/-- What lies around the working directory: the directory above it, and the top. Both show no
entries. -/
def above : Nat := 1

def top : Nat := 2

def empty : FileTree := ⟨[.directory, .directory, .directory], []⟩

def node? (t : FileTree) (n : Nat) : Option Node := t.nodes[n]?

def entry? (t : FileTree) (e : Nat) : Option Entry := t.entries[e]?

def isDirectoryNode (t : FileTree) (n : Nat) : Bool := t.node? n = some .directory

def content (t : FileTree) (n : Nat) : Bytes :=
  match t.node? n with
  | some (.file bs) => bs
  | _ => []

def entryNamed (dir : Nat) (name : String) (e : Entry) : Bool :=
  e.live && e.dir = dir && e.name = name

def lookup (t : FileTree) (dir : Nat) (name : String) : Option (Nat × Entry) :=
  match t.entries.findIdx? (entryNamed dir name) with
  | some i => (t.entries[i]?).map (i, ·)
  | none => none

def names (t : FileTree) (dir : Nat) : List String :=
  (t.entries.filter fun e => e.live && e.dir = dir).map Entry.name

def parentOf (t : FileTree) (dir : Nat) : Nat :=
  if dir = home then above
  else
    match t.entries.find? fun e => e.live && e.node = dir with
    | some e => e.dir
    | none => top

/-- Where a path leads: to a directory without naming it, to an entry, or to a free name. -/
inductive Target
  | directory (node : Nat)
  | entry (index : Nat) (e : Entry)
  | vacant (dir : Nat) (name : String)

def nameLimit : Nat := 255

def pathLimit : Nat := 4095

def linkLimit : Nat := 40

/-- Walks along the parts of a path from a directory; `onLink` goes on behind a symbolic link. -/
def walkParts (t : FileTree) (follow : Bool)
    (onLink : Nat → List String → Except Errno Target) :
    Nat → List String → Except Errno Target
  | dir, [] => .ok (.directory dir)
  | dir, s :: rest =>
    if s = "." then walkParts t follow onLink dir rest
    else if s = ".." then walkParts t follow onLink (t.parentOf dir) rest
    else if nameLimit < s.utf8ByteSize then .error .nameTooLong
    else
      match t.lookup dir s with
      | none => if rest.isEmpty then .ok (.vacant dir s) else .error .noEntry
      | some (i, e) =>
        match t.node? e.node with
        | some .directory =>
          if rest.isEmpty then .ok (.entry i e) else walkParts t follow onLink e.node rest
        | some (.link target) =>
          if rest.isEmpty && !follow then .ok (.entry i e)
          else if target.text.isEmpty then .error .noEntry
          else onLink (if target.isAbsolute then top else dir) (target.parts ++ rest)
        | _ => if rest.isEmpty then .ok (.entry i e) else .error .notDirectory

def walk (t : FileTree) (follow : Bool) : Nat → Nat → List String → Except Errno Target
  | 0 => walkParts t follow fun _ _ => .error .loop
  | links + 1 => walkParts t follow (walk t follow links)

/-- Where a path leads. A path that ends in a slash follows a last link and means a directory. -/
def resolve (t : FileTree) (follow : Bool) (p : Path) : Except Errno Target :=
  if p.text.isEmpty then .error .noEntry
  else if p.text.toList.contains (Char.ofNat 0) then .error .nul
  else if pathLimit < p.text.utf8ByteSize then .error .nameTooLong
  else
    match walk t (follow || p.endsWithSlash) linkLimit (if p.isAbsolute then top else home) p.parts with
    | .ok (.entry i e) =>
      if p.endsWithSlash && !t.isDirectoryNode e.node then .error .notDirectory
      else .ok (.entry i e)
    | r => r

def locate (t : FileTree) (p : Path) : Except Errno Nat :=
  match t.resolve true p with
  | .ok (.directory n) => .ok n
  | .ok (.entry _ e) => .ok e.node
  | .ok (.vacant _ _) => .error .noEntry
  | .error f => .error f

def fileExists (t : FileTree) (p : Path) : Bool :=
  match t.locate p with
  | .ok _ => true
  | .error _ => false

def isDirectory (t : FileTree) (p : Path) : Bool :=
  match t.locate p with
  | .ok n => t.isDirectoryNode n
  | .error _ => false

def openFile (t : FileTree) (p : Path) : Except Errno Handle :=
  match t.resolve true p with
  | .ok (.directory n) => .ok ⟨n, none⟩
  | .ok (.entry i e) => .ok ⟨e.node, some i⟩
  | .ok (.vacant _ _) => .error .noEntry
  | .error f => .error f

def readNode (t : FileTree) (n : Nat) : Except Errno Bytes :=
  if t.isDirectoryNode n then .error .isDirectory else .ok (t.content n)

def contentAt (t : FileTree) (p : Path) : Except Errno Bytes := do
  t.readNode (← t.openFile p).node

/-- The names on the way from the working directory to an entry; `fuel` bounds the way up. -/
def trail (t : FileTree) : Nat → Entry → List String
  | 0, e => [e.name]
  | fuel + 1, e =>
    if e.dir = home then [e.name]
    else
      match t.entries.find? fun d => d.live && d.node = e.dir with
      | some d => trail t fuel d ++ [e.name]
      | none => [e.name]

/-- The present path of an open file below the working directory, and whether it was removed. -/
def pathOf (t : FileTree) (h : Handle) : Option (String × Bool) :=
  match h.entry.bind t.entry? with
  | some e => some (String.intercalate "/" (trail t t.entries.length e), !e.live)
  | none => none

end FileTree

end LogTail
