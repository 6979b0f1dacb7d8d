import LogTail.Tracker.Poll

namespace LogTail

/-- The phase of a consumer: stopped with its tracker at rest, running, running without knowing that
the tracker crashed, or stopped without a tracker. -/
inductive Phase
  | stopped (k : Tracker)
  | running (k : Tracker)
  | crashed
  | lost

structure Consumer where
  interval : Nat
  phase : Phase

namespace Consumer

inductive State
  | stopped | running
  deriving DecidableEq, Repr

def state (c : Consumer) : State :=
  match c.phase with
  | .stopped _ | .lost => .stopped
  | .running _ | .crashed => .running

def ofParts (selector : Selector) (policy : Policy) (settings : Settings) : Consumer :=
  ⟨max settings.pollInterval 1, .stopped (.ofParts selector policy settings)⟩

def ofConfig (c : Config) : Except Error Consumer :=
  match c.validate with
  | .error f => .error (.config f)
  | .ok () =>
    match c.selector with
    | .error f => .error (.selection f)
    | .ok selector => .ok (ofParts selector c.policy c.settings)

def announce (k : Tracker) (w : World) : World :=
  match k.selector.select w.tree with
  | .ok [] => w.log (.noMatches k.selector.includes)
  | .ok _ => w
  | .error f => w.log (.findFailed (.selection f))

/-- Takes up the checkpoint of a store and starts with a fresh token; the first poll is one interval
away. -/
def start (c : Consumer) (s : Store) (w : World) : Except Error Unit × Consumer × World :=
  match c.phase with
  | .running _ | .crashed => (.error .alreadyStarted, c, w)
  | .lost => (.error .trackerLost, c, w)
  | .stopped k =>
    match k.loadFrom s w with
    | (.error f, w) => (.error (.store f), c, w.log (.loadFailed (.store f)))
    | (.ok k, w) =>
      let w := { w with outlet := w.outlet.renew }
      (.ok (), { c with phase := .running k }, (announce k w).log (.started c.interval))

def stop (c : Consumer) (w : World) : Except Error Unit × Consumer × World :=
  match c.phase with
  | .stopped _ | .lost => (.ok (), c, w)
  | .running k => (.ok (), { c with phase := .stopped k.closeReaders }, w.log .stopped)
  | .crashed => (.error .taskFailed, { c with phase := .lost }, w.log .trackerCrashed)

def poll (c : Consumer) (w : World) : Consumer × World :=
  match c.phase with
  | .running k =>
    match k.poll w with
    | (some k, w) => ({ c with phase := .running k }, w)
    | (none, w) => ({ c with phase := .crashed }, w)
  | _ => (c, w)

def pollTimes : Nat → Consumer → World → Consumer × World
  | 0, c, w => (c, w)
  | n + 1, c, w =>
    match w.outlet.lookJoined with
    | (true, outlet) => (c, { w with outlet })
    | (false, outlet) =>
      let (c, w) := c.poll { w with outlet }
      pollTimes n c w

end Consumer

end LogTail
