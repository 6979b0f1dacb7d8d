import LogTail.Error
import LogTail.Quoted

namespace LogTail

inductive Level
  | info | warn | error
  deriving DecidableEq, Repr

inductive Event
  | started (interval : Nat)
  | stopped
  | watching (p : Path)
  | watchingFromEnd (p : Path)
  | resumed (count : Nat)
  | migrated (count : Nat)
  | noMatches (includes : List String)
  | findFailed (e : Error)
  | readFailed (p : Path) (offset : Nat) (e : Error)
  | shortFile (p : Path) (offset length : Nat)
  | loadFailed (e : Error)
  | saveFailed (e : Error)
  | readerCrashed
  | trackerCrashed

namespace Event

def level : Event → Level
  | .started _ | .stopped | .watching _ | .watchingFromEnd _ | .resumed _ | .migrated _ => .info
  | .noMatches _ | .findFailed _ | .readFailed _ _ _ | .shortFile _ _ _ => .warn
  | .loadFailed _ | .saveFailed _ | .readerCrashed | .trackerCrashed => .error

def message : Event → String
  | .started _ => "File consumer started"
  | .stopped => "File consumer stopped"
  | .watching _ => "Started watching file"
  | .watchingFromEnd _ =>
    "Started watching file from end. To read preexisting logs, configure the argument 'start_at' to 'beginning'"
  | .resumed _ => "Resuming from previously known offset(s). 'start_at' setting is not applicable."
  | .migrated _ => "Migrated legacy checkpoint format"
  | .noMatches _ => "No files match the configured include patterns"
  | .findFailed e => "Failed to find files: " ++ e.message
  | .readFailed _ _ e => "Failed to read file: " ++ e.message
  | .shortFile _ _ _ => "File is shorter than the saved offset, reading from the beginning"
  | .loadFailed e => "Failed to load checkpoint: " ++ e.message
  | .saveFailed e => "Failed to save checkpoint: " ++ e.message
  | .readerCrashed => "Reader task failed"
  | .trackerCrashed => "Poll task failed"

def decimals (n : Nat) : String :=
  let ds := Nat.toDigits 10 (1000 + n % 1000)
  String.ofList ((ds.drop 1).reverse.dropWhile (· = '0')).reverse

def durationText (ms : Nat) : String :=
  if ms < 1000 then toString ms ++ "ms"
  else if ms % 1000 = 0 then toString (ms / 1000) ++ "s"
  else toString (ms / 1000) ++ "." ++ decimals ms ++ "s"

def fields : Event → List (String × String)
  | .started interval => [("poll_interval", durationText interval)]
  | .watching p | .watchingFromEnd p => [("path", Quoted.path p.text)]
  | .resumed count | .migrated count => [("count", toString count)]
  | .noMatches includes => [("include", Quoted.texts includes)]
  | .readFailed p offset _ => [("path", Quoted.path p.text), ("offset", toString offset)]
  | .shortFile p offset length =>
    [("path", Quoted.path p.text), ("offset", toString offset), ("len", toString length)]
  | _ => []

end Event

end LogTail
