import LogTail.Selector
import LogTail.Reader

namespace LogTail

inductive StartAt
  | beginning
  | «end»
  deriving DecidableEq, Repr

def StartAt.text : StartAt → String
  | .beginning => "beginning"
  | .end => "end"

/-- Times are in milliseconds, sizes in bytes. -/
structure Config where
  includes : List String
  excludes : List String
  pollInterval : Nat
  startAt : StartAt
  fingerprintSize : Nat
  maxLogSize : Nat
  maxConcurrentFiles : Nat
  maxBatches : Nat
  emitBatchSize : Nat
  knownFilesCapacity : Option Nat
  includeFileName : Bool
  includeFilePath : Bool
  criteria : Option Ranking.Criteria
  deriving DecidableEq, Repr

/-- `batchFiles` files are read at once, `maxBatches` times a poll or without end if that is 0, and
`capacity` readers are remembered. -/
structure Settings where
  pollInterval : Nat
  batchFiles : Nat
  maxBatches : Nat
  capacity : Nat
  deriving DecidableEq, Repr

namespace Config

def default : Config :=
  ⟨[], [], 200, .end, 1000, 1048576, 512, 0, 100, none, true, false, none⟩

open Json

def texts (src : Source) (d : Draft) : Decoded (List String) := d.asList src fun _ d => d.asText

def fields : List (Draft.Field Config) :=
  [⟨["include"], true, fun src d c => do return { c with includes := ← texts src d }⟩,
    ⟨["exclude"], false, fun src d c => do return { c with excludes := ← texts src d }⟩,
    ⟨["poll_interval_ms"], false, fun _ d c => do return { c with pollInterval := ← d.asWord64 }⟩,
    ⟨["start_at"], false,
      fun src d c => do
        return { c with
          startAt := ← d.asChoice src ([StartAt.beginning, .end].map fun s => (s.text, s)) }⟩,
    ⟨["fingerprint_size"], false, fun _ d c => do return { c with fingerprintSize := ← d.asSize }⟩,
    ⟨["max_log_size"], false, fun _ d c => do return { c with maxLogSize := ← d.asSize }⟩,
    ⟨["max_concurrent_files"], false,
      fun _ d c => do return { c with maxConcurrentFiles := ← d.asSize }⟩,
    ⟨["max_batches"], false, fun _ d c => do return { c with maxBatches := ← d.asSize }⟩,
    ⟨["emit_batch_size"], false, fun _ d c => do return { c with emitBatchSize := ← d.asSize }⟩,
    ⟨["known_files_capacity"], false,
      fun _ d c => do return { c with knownFilesCapacity := ← d.asOption Draft.asSize }⟩,
    ⟨["include_file_name"], false, fun _ d c => do return { c with includeFileName := ← d.asBool }⟩,
    ⟨["include_file_path"], false, fun _ d c => do return { c with includeFilePath := ← d.asBool }⟩,
    ⟨["ordering_criteria"], false,
      fun src d c => do
        return { c with criteria := ← d.asOption (Ranking.Criteria.ofDraft src) }⟩]

def ofDraft (src : Source) (d : Draft) : Decoded Config :=
  d.asRecord src "struct FileConsumerConfig" fields default

/-- The number of readers to remember; unless it is set, three times the files open at once. -/
def capacity (c : Config) : Nat := c.knownFilesCapacity.getD (c.maxConcurrentFiles * 3)

/-- Half of the files open at once are read together, the other half may have been moved away. -/
def batchFiles (c : Config) : Nat := c.maxConcurrentFiles / 2

def minFingerprintSize : Nat := 16

inductive Fault
  | noInclude | noPollInterval | shortFingerprint | noLogSize | largeLogSize | fewFiles
  | noEmitBatchSize | smallCapacity | noRegex | noRules | noTop
  deriving DecidableEq, Repr

def Fault.message : Fault → String
  | .noInclude => "include patterns cannot be empty"
  | .noPollInterval => "poll_interval_ms must be positive"
  | .shortFingerprint => s!"fingerprint_size must be at least {minFingerprintSize} bytes"
  | .noLogSize => "max_log_size must be positive"
  | .largeLogSize => s!"max_log_size must be at most {Reader.maxSpan} bytes"
  | .fewFiles => "max_concurrent_files must be at least 2"
  | .noEmitBatchSize => "emit_batch_size must be positive"
  | .smallCapacity => "known_files_capacity must hold at least one batch of files"
  | .noRegex => "ordering_criteria.regex must be set"
  | .noRules => "ordering_criteria.sort_by must not be empty"
  | .noTop => "ordering_criteria.top_n must be at least 1"

def validateCriteria (c : Ranking.Criteria) : Except Fault Unit :=
  if !c.isEmpty && c.regex.isEmpty then .error .noRegex
  else if !c.isEmpty && c.rules.isEmpty then .error .noRules
  else if c.top = 0 then .error .noTop
  else .ok ()

def validate (c : Config) : Except Fault Unit :=
  if c.includes.isEmpty then .error .noInclude
  else if c.pollInterval = 0 then .error .noPollInterval
  else if c.fingerprintSize < minFingerprintSize then .error .shortFingerprint
  else if c.maxLogSize = 0 then .error .noLogSize
  else if Reader.maxSpan < c.maxLogSize then .error .largeLogSize
  else if c.maxConcurrentFiles < 2 then .error .fewFiles
  else if c.emitBatchSize = 0 then .error .noEmitBatchSize
  else if c.capacity < c.batchFiles then .error .smallCapacity
  else
    match c.criteria with
    | some criteria => validateCriteria criteria
    | none => .ok ()

def selector (c : Config) : Except Selector.Fault Selector :=
  Selector.ofPatterns c.includes c.excludes c.criteria

def policy (c : Config) : Policy :=
  ⟨c.fingerprintSize, c.maxLogSize, c.emitBatchSize, c.includeFileName, c.includeFilePath,
    c.startAt = .beginning⟩

def settings (c : Config) : Settings := ⟨c.pollInterval, c.batchFiles, c.maxBatches, c.capacity⟩

end Config

end LogTail
