import LogTail.Checkpoint.Basic
import LogTail.Store.Database

namespace LogTail

/-- `saves` counts the attempts to store something, and each attempt has its own outcome. -/
structure MemoryStore where
  values : List (String × Bytes)
  failGet : Bool
  failSet : Nat → Bool
  crashSet : Nat → Bool
  saves : Nat

namespace MemoryStore

def empty : MemoryStore := ⟨[], false, fun _ => false, fun _ => false, 0⟩

def put (m : MemoryStore) (key : String) (bs : Bytes) : MemoryStore :=
  { m with values := Json.insertMember key bs m.values }

end MemoryStore

inductive Store.Fault
  | getFailure
  | setFailure
  | database (f : Database.Fault)
  | checkpoint (f : Checkpoint.Fault)
  | json (m : Json.Misfit)

def Store.Fault.message : Store.Fault → String
  | .getFailure => "get failure"
  | .setFailure => "set failure"
  | .database f => f.message
  | .checkpoint f => f.message
  | .json m => m.message

/-- A memory store is shared and lives outside the store; a database is held in its present
state. -/
inductive Store
  | memory
  | database (db : Database) (scope : String)

/-- How storing a value ends; a crash takes down whoever asked for it. -/
inductive Stored
  | done | failed (f : Store.Fault) | crashed

namespace Store

def get (m : MemoryStore) (key : String) : Store → Except Store.Fault (Option Bytes)
  | .memory => if m.failGet then .error .getFailure else .ok (Json.lookup key m.values)
  | .database db scope =>
    match db.get scope key with
    | .ok v => .ok v
    | .error f => .error (.database f)

def setMemory (m : MemoryStore) (key : String) (bs : Bytes) : Stored × MemoryStore :=
  let attempted := { m with saves := m.saves + 1 }
  if m.crashSet m.saves then (.crashed, attempted)
  else if m.failSet m.saves then (.failed .setFailure, attempted)
  else (.done, attempted.put key bs)

def set (t : FileTree) (m : MemoryStore) (key : String) (bs : Bytes) :
    Store → Stored × Store × FileTree × MemoryStore
  | .memory =>
    let (ended, m) := setMemory m key bs
    (ended, .memory, t, m)
  | .database db scope =>
    match db.set Database.noTrouble t scope key bs with
    | (none, db, t) => (.done, .database db scope, t, m)
    | (some f, db, t) => (.failed (.database f), .database db scope, t, m)

def getJson {α : Type} (m : MemoryStore) (key : String) (read : Json.Source → Json.Draft → Json.Decoded α)
    (p : Store) : Except Store.Fault (Option α) := do
  match ← p.get m key with
  | none => return none
  | some bs =>
    match Json.Draft.ofText read bs with
    | .ok a => return some a
    | .error f => .error (.json f)

def setJson (t : FileTree) (m : MemoryStore) (key : String) (v : Json.Value) (p : Store) :
    Stored × Store × FileTree × MemoryStore :=
  p.set t m key v.print

def save (t : FileTree) (m : MemoryStore) (files : List Metadata) (p : Store) :
    Stored × Store × FileTree × MemoryStore :=
  p.set t m Checkpoint.key (Checkpoint.encode files)

def load (m : MemoryStore) (p : Store) :
    Except Store.Fault (List Metadata × Checkpoint.Format) := do
  match ← p.get m Checkpoint.key with
  | none => return ([], .blank)
  | some bs =>
    match Checkpoint.decode bs with
    | .ok files => return (files, Checkpoint.format bs)
    | .error f => .error (.checkpoint f)

end Store

end LogTail
