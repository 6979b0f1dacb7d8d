import LogTail.Event

namespace LogTail

structure World where
  tree : FileTree
  memory : MemoryStore
  outlet : Outlet
  events : List Event

def World.log (w : World) (e : Event) : World := { w with events := e :: w.events }

/-- `known` are the remembered readers, oldest first. `previous` are those of the last batch, which stay
open, so that a file that is moved away between two polls can still be read to its end. `seen` are the
paths that were met before, and `gathered` is the metadata of all readers of the present poll. -/
structure Tracker where
  selector : Selector
  policy : Policy
  settings : Settings
  store : Option Store
  known : List Reader
  previous : List Reader
  seen : List (List Path.Component)
  gathered : List Metadata

namespace Tracker

def ofParts (selector : Selector) (policy : Policy) (settings : Settings) : Tracker :=
  ⟨selector, policy, settings, none, [], [], [], []⟩

def takeLast {α : Type} (test : α → Bool) : List α → Option (α × List α)
  | [] => none
  | a :: as =>
    match takeLast test as with
    | some (b, rest) => some (b, a :: rest)
    | none => if test a then some (a, as) else none

/-- Takes the newest reader whose fingerprint this one goes on from. -/
def recognise (k : Tracker) (fp : Fingerprint) : Option Reader × Tracker :=
  match takeLast (fun r => fp.startsWith r.fingerprint) k.previous with
  | some (r, previous) => (some r, { k with previous })
  | none =>
    match takeLast (fun r => fp.startsWith r.fingerprint) k.known with
    | some (r, known) => (some r, { k with known })
    | none => (none, k)

def identify (k : Tracker) (t : FileTree) (path : Path) : Option (Handle × Fingerprint) :=
  match t.openFile path with
  | .error _ => none
  | .ok h =>
    match t.fingerprint k.policy.fingerprintSize h with
    | .error _ => none
    | .ok fp => if fp.isEmpty then none else some (h, fp)

def watch (k : Tracker) (path : Path) (w : World) : Tracker × World :=
  if k.seen.contains path.components then (k, w)
  else
    ({ k with seen := path.components :: k.seen },
      w.log (if k.policy.fromBeginning then .watching path else .watchingFromEnd path))

def readerFor (k : Tracker) (t : FileTree) (h : Handle) (fp : Fingerprint) (path : Path) :
    Reader × Tracker :=
  match k.recognise fp with
  | (some old, k) => (k.policy.resume old.metadata h fp path, k)
  | (none, k) => (k.policy.fresh (t.content h.node).length h fp path, k)

structure Opening where
  tracker : Tracker
  world : World
  fingerprints : List Fingerprint
  readers : List Reader

/-- Opens one path. A file that agrees with one met before in the batch is a copy of that one and is
left out. -/
def openPath (s : Opening) (path : Path) : Opening :=
  match s.tracker.identify s.world.tree path with
  | none => s
  | some (h, fp) =>
    if s.fingerprints.any (·.agrees fp) then s
    else
      let (k, w) := s.tracker.watch path s.world
      let (r, k) := k.readerFor w.tree h fp path
      ⟨k, w, fp :: s.fingerprints, r :: s.readers⟩

def openAll (k : Tracker) (paths : List Path) (w : World) : List Reader × Tracker × World :=
  let s := paths.foldl openPath ⟨k, w, [], []⟩
  (s.readers.reverse, s.tracker, s.world)

/-- Does a new reader go on with an old one, or with its file after that got another content? -/
def continues (old new : Reader) : Bool :=
  new.fingerprint.startsWith old.fingerprint || (new.path.same old.path && old.sameFile new)

def isLeftBehind (current : List Reader) (old : Reader) : Bool := !current.any (continues old)

def drainOne (r : Reader) (w : World) : Option Reader × World :=
  let w := match r.shortLength? w.tree with
    | some length => w.log (.shortFile r.path r.offset length)
    | none => w
  match r.readIn w.tree w.outlet with
  | (.crashed, _, outlet) => (none, { w with outlet }.log .readerCrashed)
  | (.refused, r, outlet) => (some r, { w with outlet }.log (.readFailed r.path r.offset .refused))
  | (_, r, outlet) => (some r, { w with outlet })

def drain : List Reader → World → List Reader × World
  | [], w => ([], w)
  | r :: rs, w =>
    let (r, w) := drainOne r w
    let (rs, w) := drain rs w
    (r.toList ++ rs, w)

def trim (k : Tracker) : Tracker :=
  { k with known := k.known.drop (k.known.length + k.previous.length - k.settings.capacity) }

/-- Saves what was gathered. A crash of the store takes the tracker with it. -/
def save (k : Tracker) (w : World) : Option Tracker × World :=
  match k.store with
  | none => (some k, w)
  | some s =>
    let (ended, s, tree, memory) := s.save w.tree w.memory k.gathered
    let k := { k with store := some s }
    let w := { w with tree, memory }
    match ended with
    | .done => (some k, w)
    | .failed f => (some k, w.log (.saveFailed (.store f)))
    | .crashed => (none, w)

def remember (k : Tracker) (rs : List Reader) : Tracker :=
  { k with known := k.known ++ rs.map Reader.close }

/-- Reads a batch of paths: first what is left of files that were moved away, then the files of the
batch. -/
def readBatch (k : Tracker) (paths : List Path) (w : World) : Option Tracker × World :=
  let (readers, k, w) := k.openAll paths w
  let (lost, kept) := k.previous.partition (isLeftBehind readers)
  let (drained, w) := drain lost w
  let (readers, w) := drain readers w
  let k := k.remember (kept ++ drained)
  let k := { k with gathered := k.gathered ++ readers.map Reader.metadata, previous := readers }
  k.trim.save w

def closeReaders (k : Tracker) : Tracker :=
  { k with known := k.known.map Reader.close, previous := k.previous.map Reader.close }

def knows (k : Tracker) (fp : Fingerprint) : Bool :=
  (k.previous ++ k.known).any fun r => r.fingerprint.startsWith fp

def recollect (k : Tracker) (m : Metadata) : Tracker :=
  if k.knows m.fingerprint then k else { k with known := k.known ++ [k.policy.remembered m] }

def readFromBeginning (k : Tracker) : Tracker :=
  { k with policy := { k.policy with fromBeginning := true } }

def resume (k : Tracker) (files : List Metadata) : Tracker :=
  if files.isEmpty then k else (files.foldl recollect k.readFromBeginning).trim

def loadFrom (k : Tracker) (s : Store) (w : World) : Except Store.Fault Tracker × World :=
  match s.load w.memory with
  | .error f => (.error f, w)
  | .ok (files, format) =>
    let w := if format = .stream then w.log (.migrated files.length) else w
    let w := if files.isEmpty then w else w.log (.resumed files.length)
    (.ok { k.resume files with store := some s }, w)

end Tracker

end LogTail
