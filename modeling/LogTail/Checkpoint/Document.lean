import LogTail.Metadata

namespace LogTail.Checkpoint

open Json

structure Document where
  version : Nat
  files : List Metadata
  deriving DecidableEq, Repr

namespace Document

def currentVersion : Nat := 1

def ofFiles (files : List Metadata) : Document := ⟨currentVersion, files⟩

def toValue (doc : Document) : Value :=
  .object [("files", .ofList Metadata.toValue doc.files), ("version", .nat doc.version)]

def written (doc : Document) : Value :=
  .object [("version", .nat doc.version), ("files", .ofList Metadata.written doc.files)]

def fields : List (Draft.Field Document) :=
  [⟨["version"], true, fun _ d doc => do return { doc with version := ← d.asByte }⟩,
    ⟨["files"], true,
      fun src d doc => do return { doc with files := ← d.asList src Metadata.ofDraft }⟩]

def ofDraft (src : Source) (d : Draft) : Decoded Document :=
  d.asRecord src "struct PersistedStateV1" fields ⟨0, []⟩

end Document

end LogTail.Checkpoint
