import LogTail.Proofs.Lifecycle

namespace LogTail

inductive Supervisor.State
  | stopped | starting | running | stopping
  deriving DecidableEq, Repr

/-- A consumer by what it holds: its tracker while it is stopped, and while it runs the task that polls. A
task that panicked has no tracker to give back. -/
structure Supervisor where
  interval : Nat
  state : Supervisor.State
  tracker : Option Tracker
  task : Option (Option Tracker)

namespace Supervisor

def ofParts (selector : Selector) (policy : Policy) (settings : Settings) : Supervisor :=
  ⟨max settings.pollInterval 1, .stopped, some (.ofParts selector policy settings), none⟩

def start (m : Supervisor) (s : Store) (w : World) : Except Error Unit × Supervisor × World :=
  if m.state ≠ .stopped then (.error .alreadyStarted, m, w)
  else
    match m.tracker with
    | none => (.error .trackerLost, m, w)
    | some k =>
      let m := { m with tracker := none, state := .starting }
      match k.loadFrom s w with
      | (.error f, w) =>
        let m := { m with tracker := some k }
        (.error (.store f), { m with state := .stopped }, w.log (.loadFailed (.store f)))
      | (.ok k, w) =>
        let w := Consumer.announce k { w with outlet := w.outlet.renew }
        let m := { m with task := some (some k) }
        (.ok (), { m with state := .running }, w.log (.started m.interval))

def stop (m : Supervisor) (w : World) : Except Error Unit × Supervisor × World :=
  if m.state = .stopped then (.ok (), m, w)
  else
    let m := { m with state := .stopping }
    match m.task with
    | none => (.ok (), { m with state := .stopped }, w.log .stopped)
    | some (some k) =>
      let m := { m with task := none, tracker := some k.closeReaders }
      (.ok (), { m with state := .stopped }, w.log .stopped)
    | some none =>
      let m := { m with task := none }
      (.error .taskFailed, { m with state := .stopped }, w.log .trackerCrashed)

def tick (m : Supervisor) (w : World) : Supervisor × World :=
  match m.task with
  | some (some k) => ({ m with task := some (k.poll w).1 }, (k.poll w).2)
  | _ => (m, w)

def panic (m : Supervisor) : Supervisor := { m with task := m.task.map fun _ => none }

def call (m : Supervisor) (w : World) : Call → Except Error Unit × Supervisor × World
  | .start store => m.start store w
  | .stop => m.stop w
  | .tick => (.ok (), m.tick w)
  | .panic => (.ok (), m.panic, w)
  | .meanwhile tree memory outlet => (.ok (), m, { w with tree, memory, outlet })

def run : List Call → Supervisor → World → List (Except Error Unit) × Supervisor × World
  | [], m, w => ([], m, w)
  | a :: calls, m, w =>
    let (answer, m, w) := m.call w a
    let (answers, out) := run calls m w
    (answer :: answers, out)

/-- Between two calls a tracker is held by the consumer or by its task, unless it is lost. -/
structure Settled (m : Supervisor) : Prop where
  state : m.state = .stopped ∨ m.state = .running
  stopped : m.state = .stopped → m.task = none
  running : m.state = .running → m.tracker = none ∧ m.task ≠ none

end Supervisor

namespace Consumer

def parts (c : Consumer) : Supervisor :=
  match c.phase with
  | .stopped k => ⟨c.interval, .stopped, some k, none⟩
  | .running k => ⟨c.interval, .running, none, some (some k)⟩
  | .crashed => ⟨c.interval, .running, none, some none⟩
  | .lost => ⟨c.interval, .stopped, none, none⟩

variable (c : Consumer) (w : World)

theorem parts_start (store : Store) :
    c.parts.start store w = ((c.start store w).1, (c.start store w).2.1.parts, (c.start store w).2.2) := by
  obtain ⟨interval, phase⟩ := c
  cases phase with
  | running | crashed | lost => rfl
  | stopped k =>
      simp only [parts, Supervisor.start, start]
      cases k.loadFrom store w with
      | mk loaded w' => cases loaded <;> rfl

theorem parts_stop : c.parts.stop w = ((c.stop w).1, (c.stop w).2.1.parts, (c.stop w).2.2) := by
  obtain ⟨interval, phase⟩ := c
  cases phase with
  | stopped | running | crashed | lost => rfl

theorem parts_poll : c.parts.tick w = ((c.poll w).1.parts, (c.poll w).2) := by
  obtain ⟨interval, phase⟩ := c
  cases phase with
  | stopped | crashed | lost => rfl
  | running k =>
      simp only [parts, Supervisor.tick, poll]
      cases k.poll w with
      | mk k' w' => cases k' <;> rfl

theorem parts_crash : c.parts.panic = c.crash.parts := by
  obtain ⟨interval, phase⟩ := c
  cases phase with
  | stopped | running | crashed | lost => rfl

theorem settled_parts : c.parts.Settled := by
  obtain ⟨interval, phase⟩ := c
  cases phase with
  | stopped | lost => exact ⟨.inl rfl, fun _ => rfl, nofun⟩
  | running | crashed => exact ⟨.inr rfl, nofun, fun _ => ⟨rfl, nofun⟩⟩

end Consumer

namespace Supervisor

/-- What a consumer can hold between two calls is what it holds in one of its phases. -/
theorem settled_iff {m : Supervisor} : m.Settled ↔ ∃ c : Consumer, c.parts = m := by
  constructor
  · rintro ⟨hstate, hstopped, hrunning⟩
    obtain ⟨interval, state, tracker, task⟩ := m
    obtain rfl | rfl := hstate
    · obtain rfl : task = none := hstopped rfl
      cases tracker with
      | none => exact ⟨⟨interval, .lost⟩, rfl⟩
      | some k => exact ⟨⟨interval, .stopped k⟩, rfl⟩
    · obtain ⟨rfl, htask⟩ : tracker = none ∧ task ≠ none := hrunning rfl
      match task, htask with
      | some none, _ => exact ⟨⟨interval, .crashed⟩, rfl⟩
      | some (some k), _ => exact ⟨⟨interval, .running k⟩, rfl⟩
  · rintro ⟨c, rfl⟩
    exact c.settled_parts

theorem call_parts (l : Life) (a : Call) :
    l.consumer.parts.call l.world a = ((l.call a).1, (l.step a).consumer.parts, (l.step a).world) := by
  cases a with
  | start store => exact l.consumer.parts_start l.world store
  | stop => exact l.consumer.parts_stop l.world
  | tick => exact congrArg (Prod.mk (Except.ok ())) (l.consumer.parts_poll l.world)
  | panic => exact congrArg (fun m => (Except.ok (), m, l.world)) l.consumer.parts_crash
  | meanwhile => rfl

/-- Whatever is called, a consumer goes through its phases as it does by its parts. -/
theorem run_parts (calls : List Call) (l : Life) :
    run calls l.consumer.parts l.world =
      (l.answers calls, (l.run calls).consumer.parts, (l.run calls).world) := by
  induction calls generalizing l with
  | nil => rfl
  | cons a calls ih =>
      rw [run, call_parts]
      dsimp only
      rw [ih]
      rfl

theorem run_ofParts (selector : Selector) (policy : Policy) (settings : Settings) (w : World) (calls : List Call) :
    let l := Life.anew selector policy settings w
    run calls (ofParts selector policy settings) w =
        (l.answers calls, (l.run calls).consumer.parts, (l.run calls).world) ∧
      (run calls (ofParts selector policy settings) w).2.1.Settled := by
  intro l
  have hrun : run calls (ofParts selector policy settings) w = _ := run_parts calls l
  exact ⟨hrun, hrun ▸ Consumer.settled_parts _⟩

end Supervisor

end LogTail
