import LogTail.Base64
import LogTail.FileTree.Change
import LogTail.Json.Message

namespace LogTail

open Json

abbrev Scopes := List (String × List (String × Value))

structure Database where
  path : Path
  scopes : Scopes
  deriving Inhabited

namespace Database

inductive Fault
  | cannotOpen (e : Errno)
  | cannotRead (e : Errno)
  | cannotParse (m : Misfit)
  | cannotMakeDirectory (e : Errno)
  | cannotMakeParent (e : Errno)
  | cannotCreate (e : Errno)
  | cannotWrite (e : Errno)
  | cannotFlush (e : Errno)
  | cannotRename (e : Errno)
  | invalidBase64 (key : String) (f : Base64.Fault)

def Fault.message : Fault → String
  | .cannotOpen e => "failed to open database: " ++ e.message
  | .cannotRead e => "failed to parse database: " ++ e.message
  | .cannotParse m => "failed to parse database: " ++ m.message
  | .cannotMakeDirectory e => "failed to create database directory: " ++ e.message
  | .cannotMakeParent e => "failed to create parent directory: " ++ e.message
  | .cannotCreate e => "failed to create temp file: " ++ e.message
  | .cannotWrite e => "failed to write database: " ++ e.message
  | .cannotFlush e => "failed to flush database: " ++ e.message
  | .cannotRename e => "failed to rename database file: " ++ e.message
  | .invalidBase64 key f => "invalid base64 value for '" ++ key ++ "': " ++ f.message

def inMemory : Database := ⟨⟨""⟩, []⟩

def isInMemory (db : Database) : Bool := db.path.text.isEmpty

def fields : List (Draft.Field Scopes) :=
  [⟨["scopes"], true, fun src d _ => d.asMap src fun src d => d.asMap src Draft.asValue⟩]

def scopesOfDraft (src : Source) (d : Draft) : Decoded Scopes :=
  d.asRecord src "struct DatabaseState" fields []

def document (scopes : Scopes) : Value :=
  .object [("scopes", .object (scopes.map fun s => (s.1, .object s.2)))]

def makeParents (t : FileTree) (p : Path) : Option Errno × FileTree :=
  match p.parent? with
  | some q => if q.text.isEmpty || t.fileExists q then (none, t) else t.makeDirectories q
  | none => (none, t)

def openAt (t : FileTree) (p : Path) : Except Fault Database × FileTree :=
  if t.fileExists p then
    match t.openFile p with
    | .error e => (.error (.cannotOpen e), t)
    | .ok h =>
      match t.readNode h.node with
      | .error e => (.error (.cannotRead e), t)
      | .ok bs =>
        match Draft.ofText scopesOfDraft bs with
        | .error m => (.error (.cannotParse m), t)
        | .ok scopes => (.ok ⟨p, scopes⟩, t)
  else
    match makeParents t p with
    | (some e, t) => (.error (.cannotMakeDirectory e), t)
    | (none, t) => (.ok ⟨p, []⟩, t)

def find (db : Database) (scope key : String) : Option Value :=
  (lookup scope db.scopes).bind (lookup key)

def get (db : Database) (scope key : String) : Except Fault (Option Bytes) :=
  match db.find scope key with
  | none => .ok none
  | some (.string s) =>
    match Base64.decode (Utf8.ofString s) with
    | .ok bs => .ok (some bs)
    | .error f => .error (.invalidBase64 key f)
  | some v => .ok (some v.print)

def stored (bs : Bytes) : Value :=
  match Value.ofBytes bs with
  | .ok (.object ms) => .object ms
  | .ok (.array vs) => .array vs
  | _ => .string (Base64.encode bs)

def withScope (db : Database) (scope : String) (f : List (String × Value) → List (String × Value)) :
    Database :=
  { db with scopes := insertMember scope (f ((lookup scope db.scopes).getD [])) db.scopes }

/-- The steps of writing the document, each of which may fail for reasons of its own. -/
inductive Step
  | parent | create | write | flush | rename
  deriving DecidableEq, Repr

abbrev Trouble := Step → Option Errno

def noTrouble : Trouble := fun _ => none

/-- A name next to the database that no file had before: every write adds a node. -/
def freshPath (t : FileTree) (p : Path) : Path := p.withExtension s!"tmp.1.{t.nodes.length}"

def parentStep (trouble : Trouble) (t : FileTree) (p : Path) : Option Errno × FileTree :=
  match p.parent? with
  | some q =>
    if q.text.isEmpty || t.fileExists q then (none, t)
    else
      match trouble .parent with
      | some e => (some e, t)
      | none => t.makeDirectories q
  | none => (none, t)

def replaceFile (trouble : Trouble) (t : FileTree) (p : Path) (bs : Bytes) :
    Option Fault × FileTree :=
  match parentStep trouble t p with
  | (some e, t) => (some (.cannotMakeParent e), t)
  | (none, t) =>
    let fresh := freshPath t p
    match (trouble .create).elim (t.write fresh []) .error with
    | .error e => (some (.cannotCreate e), t)
    | .ok t =>
      match trouble .write with
      | some e => (some (.cannotWrite e), t)
      | none =>
        match trouble .flush with
        | some e => (some (.cannotFlush e), t)
        | none =>
          match t.write fresh bs with
          | .error e => (some (.cannotWrite e), t)
          | .ok t =>
            match (trouble .rename).elim (t.rename fresh p) .error with
            | .ok t => (none, t)
            | .error e =>
              (some (.cannotRename e), match t.removeFile fresh with | .ok t => t | .error _ => t)

/-- Stores bytes under a key, in memory and in the file or in neither: the document is written to a
fresh file, which then takes the place of the old one. -/
def set (trouble : Trouble) (t : FileTree) (db : Database) (scope key : String) (bs : Bytes) :
    Option Fault × Database × FileTree :=
  let changed := db.withScope scope (insertMember key (stored bs))
  if db.isInMemory then (none, changed, t)
  else
    match replaceFile trouble t db.path ((document changed.scopes).pretty 0) with
    | (none, t) => (none, changed, t)
    | (some f, t) =>
      let undone :=
        match db.find scope key with
        | some v => changed.withScope scope (insertMember key v)
        | none => changed.withScope scope (removeMember key)
      (some f, undone, t)

end Database

end LogTail
