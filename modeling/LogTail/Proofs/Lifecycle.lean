import LogTail.Proofs.InMemory
import LogTail.Proofs.Tracking

namespace LogTail

open Tracker

def World.onto (w : World) (es : List Event) : World := { w with events := w.events ++ es }

namespace World

variable (w : World) (es : List Event)

@[simp] theorem tree_onto : (w.onto es).tree = w.tree := rfl

@[simp] theorem memory_onto : (w.onto es).memory = w.memory := rfl

@[simp] theorem outlet_onto : (w.onto es).outlet = w.outlet := rfl

@[simp] theorem log_onto (e : Event) : (w.onto es).log e = (w.log e).onto es := rfl

end World

namespace Tracker

variable (w : World) (es : List Event)

theorem watch_onto (k : Tracker) (path : Path) :
    k.watch path (w.onto es) = ((k.watch path w).1, (k.watch path w).2.onto es) := by
  unfold watch
  split <;> rfl

def Opening.onto (s : Opening) (es : List Event) : Opening := { s with world := s.world.onto es }

theorem openPath_onto (s : Opening) (path : Path) :
    openPath (s.onto es) path = (openPath s path).onto es := by
  unfold openPath
  dsimp only [Opening.onto]
  rw [World.tree_onto]
  cases s.tracker.identify s.world.tree path with
  | none => rfl
  | some id =>
      by_cases hany : s.fingerprints.any (fun f => f.agrees id.2) = true
      · simp only [hany, if_true]
      · simp only [hany, watch_onto]
        rfl

theorem opened_onto (k : Tracker) (paths : List Path) :
    k.opened paths (w.onto es) = (k.opened paths w).onto es := by
  induction paths using List.reverseRecOn with
  | nil => rfl
  | append_singleton paths path ih =>
      simp only [opened, List.foldl_append, List.foldl_cons, List.foldl_nil] at ih ⊢
      rw [ih, openPath_onto]

theorem drainOne_onto (r : Reader) :
    drainOne r (w.onto es) = ((drainOne r w).1, (drainOne r w).2.onto es) := by
  unfold drainOne
  rw [World.tree_onto]
  cases r.shortLength? w.tree with
  | none =>
      dsimp only
      rw [World.tree_onto, World.outlet_onto]
      cases r.readIn w.tree w.outlet with
      | mk ended rest => cases ended <;> rfl
  | some length =>
      dsimp only
      rw [World.log_onto, World.tree_onto, World.outlet_onto]
      cases r.readIn (w.log (.shortFile r.path r.offset length)).tree
          (w.log (.shortFile r.path r.offset length)).outlet with
      | mk ended rest => cases ended <;> rfl

theorem drain_onto (rs : List Reader) :
    drain rs (w.onto es) = ((drain rs w).1, (drain rs w).2.onto es) := by
  induction rs generalizing w with
  | nil => rfl
  | cons r rs ih => rw [drain_cons, drain_cons, drainOne_onto, ih]

theorem collect_onto (k : Tracker) (paths : List Path) :
    k.collect paths (w.onto es) = ((k.collect paths w).1, (k.collect paths w).2.onto es) := by
  have hlost : (k.opened paths w).lost = ((k.opened paths w).onto es).lost := rfl
  rw [collect_eq, collect_eq, opened_onto, ← hlost]
  generalize k.opened paths w = s
  dsimp only [Opening.onto]
  rw [drain_onto, drain_onto]
  rfl

theorem save_onto (k : Tracker) :
    k.save (w.onto es) = ((k.save w).1, (k.save w).2.onto es) := by
  unfold save
  rw [World.tree_onto, World.memory_onto]
  cases k.store with
  | none => rfl
  | some store =>
      dsimp only
      cases store.save w.tree w.memory k.gathered with
      | mk ended rest => cases ended <;> rfl

theorem readBatch_onto (k : Tracker) (paths : List Path) :
    k.readBatch paths (w.onto es) = ((k.readBatch paths w).1, (k.readBatch paths w).2.onto es) := by
  rw [readBatch_eq, readBatch_eq, collect_onto, save_onto]

theorem readBatches_onto (batches : List (List Path)) (count : Nat) (k : Tracker) :
    readBatches batches count k (w.onto es) =
      ((readBatches batches count k w).1, (readBatches batches count k w).2.onto es) := by
  induction batches generalizing count k w with
  | nil => rfl
  | cons batch batches ih =>
      cases batches with
      | nil =>
          rw [readBatches, readBatches, readBatch_onto]
          cases k.readBatch batch w with
          | mk o w' => cases o <;> rfl
      | cons next batches =>
          simp only [readBatches, readBatch_onto]
          cases k.readBatch batch w with
          | mk o w' =>
              cases o with
              | none => rfl
              | some k' =>
                  dsimp only
                  split
                  · rfl
                  · rw [World.outlet_onto]
                    cases w'.outlet.lookJoined with
                    | mk shown outlet =>
                        cases shown with
                        | true => rfl
                        | false => exact ih { w' with outlet } (count + 1) k'

theorem poll_onto (k : Tracker) :
    k.poll (w.onto es) = ((k.poll w).1, (k.poll w).2.onto es) :=
  readBatches_onto w es _ 0 _

theorem loadFrom_onto (k : Tracker) (store : Store) :
    k.loadFrom store (w.onto es) = ((k.loadFrom store w).1, (k.loadFrom store w).2.onto es) := by
  unfold loadFrom
  rw [World.memory_onto]
  cases store.load w.memory with
  | error f => rfl
  | ok loaded =>
      dsimp only
      split <;> split <;> rfl

end Tracker

namespace Consumer

variable (w : World) (es : List Event) (c : Consumer)

theorem announce_onto (k : Tracker) : announce k (w.onto es) = (announce k w).onto es := by
  unfold announce
  rw [World.tree_onto]
  split <;> rfl

theorem start_onto (store : Store) :
    c.start store (w.onto es) =
      ((c.start store w).1, (c.start store w).2.1, (c.start store w).2.2.onto es) := by
  unfold start
  cases c.phase with
  | running k | crashed | lost => rfl
  | stopped k =>
      dsimp only
      rw [loadFrom_onto]
      cases k.loadFrom store w with
      | mk loaded w' =>
          cases loaded with
          | error f => rfl
          | ok k' =>
              have hannounce := announce_onto { w' with outlet := w'.outlet.renew } es k'
              exact congrArg (fun v : World => (_, _, v.log (.started c.interval))) hannounce

theorem stop_onto :
    c.stop (w.onto es) = ((c.stop w).1, (c.stop w).2.1, (c.stop w).2.2.onto es) := by
  unfold stop
  split <;> rfl

theorem poll_onto : c.poll (w.onto es) = ((c.poll w).1, (c.poll w).2.onto es) := by
  unfold poll
  cases c.phase with
  | stopped k | crashed | lost => rfl
  | running k =>
      dsimp only
      rw [Tracker.poll_onto]
      cases k.poll w with
      | mk o w' => cases o <;> rfl

end Consumer

/-- What is done to a consumer, and what befalls it: an interval passes, the task that polls panics, or
meanwhile anything becomes of the files, of the memory store and of the outlet. -/
inductive Call
  | start (store : Store)
  | stop
  | tick
  | panic
  | meanwhile (tree : FileTree) (memory : MemoryStore) (outlet : Outlet)

def Call.upAfter (up : Bool) : Call → Except Error Unit → Bool
  | .start _, .ok _ => true
  | .stop, _ => false
  | _, _ => up

def Consumer.crash (c : Consumer) : Consumer :=
  match c.phase with
  | .running _ => { c with phase := .crashed }
  | _ => c

structure Life where
  consumer : Consumer
  world : World
  up : Bool

namespace Life

def anew (selector : Selector) (policy : Policy) (settings : Settings) (world : World) : Life :=
  ⟨.ofParts selector policy settings, world, false⟩

def call (l : Life) : Call → Except Error Unit × Consumer × World
  | .start store => l.consumer.start store l.world
  | .stop => l.consumer.stop l.world
  | .tick => (.ok (), l.consumer.poll l.world)
  | .panic => (.ok (), l.consumer.crash, l.world)
  | .meanwhile tree memory outlet => (.ok (), l.consumer, { l.world with tree, memory, outlet })

def step (l : Life) (a : Call) : Life :=
  ⟨(l.call a).2.1, (l.call a).2.2, a.upAfter l.up (l.call a).1⟩

def run (l : Life) (calls : List Call) : Life := calls.foldl step l

def answers : Life → List Call → List (Except Error Unit)
  | _, [] => []
  | l, a :: calls => (l.call a).1 :: answers (l.step a) calls

/-- Does the task that polls panic in a call? It does so by itself if the store crashes. -/
def Panics (l : Life) (a : Call) : Prop :=
  ∃ k, l.consumer.phase = .running k ∧ (a = .panic ∨ a = .tick ∧ (k.poll l.world).1 = none)

/-- What a consumer keeps to. -/
structure Orderly (l : Life) : Prop where
  state : l.consumer.state = if l.up then .running else .stopped
  idle : l.up = false → l.consumer.poll l.world = (l.consumer, l.world)
  again (store : Store) :
    l.up = true → l.call (.start store) = (.error .alreadyStarted, l.consumer, l.world)
  undone {k : Tracker} {store : Store} {f : Store.Fault} (later : List Call) :
    l.consumer.phase = .stopped k → store.load l.world.memory = .error f →
    (l.call (.start store)).1 = .error (.store f) ∧
      (l.step (.start store)).consumer = l.consumer ∧
      (l.step (.start store)).answers later = l.answers later ∧
      ∃ e : Life, l.run later = { e with world := e.world.onto l.world.events } ∧
        (l.step (.start store)).run later =
          { e with world := e.world.onto (.loadFailed (.store f) :: l.world.events) }
  rests : l.up = false → l.call .stop = (.ok (), l.consumer, l.world)
  closes {k : Tracker} : (l.call .stop).1 = .ok () → (l.call .stop).2.1.phase = .stopped k →
    ∀ r ∈ k.kept, r.handle = none
  lost {a : Call} {mid : List Call} {e : Life} :
    l.Panics a → (∀ b ∈ mid, b ≠ .stop) → e = (l.step a).run mid →
    (e.call .stop).1 = .error .taskFailed ∧ (e.step .stop).consumer.state = .stopped ∧
      ∀ after store, (((e.step .stop).run after).call (.start store)).1 = .error .trackerLost

def onto (l : Life) (es : List Event) : Life := { l with world := l.world.onto es }

theorem call_onto (l : Life) (es : List Event) (a : Call) :
    (l.onto es).call a = ((l.call a).1, (l.call a).2.1, (l.call a).2.2.onto es) := by
  cases a with
  | start store => exact Consumer.start_onto l.world es l.consumer store
  | stop => exact Consumer.stop_onto l.world es l.consumer
  | tick => exact congrArg (Prod.mk (Except.ok ())) (Consumer.poll_onto l.world es l.consumer)
  | panic | meanwhile => rfl

theorem step_onto (l : Life) (es : List Event) (a : Call) : (l.onto es).step a = (l.step a).onto es := by
  unfold step
  rw [call_onto]
  rfl

theorem run_onto (l : Life) (es : List Event) (calls : List Call) :
    (l.onto es).run calls = (l.run calls).onto es := by
  induction calls generalizing l with
  | nil => rfl
  | cons a calls ih =>
      change ((l.onto es).step a).run calls = ((l.step a).run calls).onto es
      rw [step_onto, ih]

theorem answers_onto (l : Life) (es : List Event) (calls : List Call) :
    (l.onto es).answers calls = l.answers calls := by
  induction calls generalizing l with
  | nil => rfl
  | cons a calls ih =>
      rw [answers, answers, call_onto, step_onto, ih]

theorem call_stop_stopped {l : Life} (h : l.consumer.state = .stopped) :
    l.call .stop = (.ok (), l.consumer, l.world) := by
  unfold Consumer.state at h
  cases hphase : l.consumer.phase with
  | stopped k | lost => simp [call, Consumer.stop, hphase]
  | running k | crashed => simp [hphase] at h

theorem poll_stopped {c : Consumer} (h : c.state = .stopped) (w : World) : c.poll w = (c, w) := by
  unfold Consumer.state at h
  cases hphase : c.phase with
  | stopped k | lost => simp [Consumer.poll, hphase]
  | running k | crashed => simp [hphase] at h

theorem call_start_running {l : Life} (h : l.consumer.state = .running) (store : Store) :
    l.call (.start store) = (.error .alreadyStarted, l.consumer, l.world) := by
  unfold Consumer.state at h
  cases hphase : l.consumer.phase with
  | running k | crashed => simp [call, Consumer.start, hphase]
  | stopped k | lost => simp [hphase] at h

theorem closed_closeReaders (k : Tracker) : ∀ r ∈ k.closeReaders.kept, r.handle = none := by
  intro r hr
  rw [closeReaders_kept] at hr
  obtain ⟨old, _, rfl⟩ := List.mem_map.mp hr
  rfl

/-- A consumer runs just while it is up, and at rest it holds no file open. -/
structure Kept (l : Life) : Prop where
  state : l.consumer.state = if l.up then .running else .stopped
  closed {k : Tracker} : l.consumer.phase = .stopped k → ∀ r ∈ k.kept, r.handle = none

theorem kept_anew (selector : Selector) (policy : Policy) (settings : Settings) (w : World) :
    (anew selector policy settings w).Kept := by
  constructor
  · rfl
  · intro k hk
    cases hk
    exact fun r hr => absurd hr (List.not_mem_nil)

theorem Kept.start {l : Life} (h : l.Kept) (store : Store) : (l.step (.start store)).Kept := by
  rcases Session.start_cases l.consumer store l.world with
    ⟨e, w', hstart, _⟩ | ⟨k, files, format, w', hphase, _, hstart, _⟩
  · have hstep : l.step (.start store) = { l with world := w' } := by
      simp only [step, call, hstart, Call.upAfter]
    rw [hstep]
    exact ⟨h.state, h.closed⟩
  · have hcall : l.call (.start store) = _ := hstart
    constructor
    · simp only [step, hcall, Call.upAfter, if_true]
      rfl
    · intro k' hk'
      simp [step, hcall] at hk'

theorem Kept.stop {l : Life} (h : l.Kept) : (l.step .stop).Kept := by
  cases hphase : l.consumer.phase with
  | stopped k | lost =>
      have hstopped : l.consumer.state = .stopped := by simp [Consumer.state, hphase]
      unfold step
      rw [call_stop_stopped hstopped]
      exact ⟨hstopped, h.closed⟩
  | running k =>
      constructor
      · simp [step, call, Consumer.stop, Call.upAfter, Consumer.state, hphase]
      · intro k' hk'
        simp only [step, call, Consumer.stop, hphase, Phase.stopped.injEq] at hk'
        subst hk'
        exact closed_closeReaders k
  | crashed =>
      constructor
      · simp [step, call, Consumer.stop, Call.upAfter, Consumer.state, hphase]
      · intro k' hk'
        simp [step, call, Consumer.stop, hphase] at hk'

theorem phase_poll {c : Consumer} {k : Tracker} (h : c.phase = .running k) (w : World) :
    (∃ k', (k.poll w).1 = some k' ∧ (c.poll w).1.phase = .running k') ∨
      ((k.poll w).1 = none ∧ (c.poll w).1.phase = .crashed) := by
  unfold Consumer.poll
  rw [h]
  dsimp only
  cases k.poll w with
  | mk o w' =>
      cases o with
      | some k' => exact .inl ⟨k', rfl, rfl⟩
      | none => exact .inr ⟨rfl, rfl⟩

theorem Kept.tick {l : Life} (h : l.Kept) : (l.step .tick).Kept := by
  cases hphase : l.consumer.phase with
  | stopped k | lost =>
      have hpoll := poll_stopped (c := l.consumer) (by simp [Consumer.state, hphase]) l.world
      have hstep : l.step .tick = l := by simp only [step, call, hpoll, Call.upAfter]
      rwa [hstep]
  | crashed =>
      have hpoll : l.consumer.poll l.world = (l.consumer, l.world) := by
        simp [Consumer.poll, hphase]
      have hstep : l.step .tick = l := by simp only [step, call, hpoll, Call.upAfter]
      rwa [hstep]
  | running k =>
      have hup := h.state
      rw [Consumer.state, hphase] at hup
      rcases phase_poll hphase l.world with ⟨k', _, hnext⟩ | ⟨_, hnext⟩
      · constructor
        · exact Eq.trans (by simp [step, call, Consumer.state, hnext]) hup
        · intro k₁ hk₁
          simp [step, call, hnext] at hk₁
      · constructor
        · exact Eq.trans (by simp [step, call, Consumer.state, hnext]) hup
        · intro k₁ hk₁
          simp [step, call, hnext] at hk₁

theorem Kept.panic {l : Life} (h : l.Kept) : (l.step .panic).Kept := by
  cases hphase : l.consumer.phase with
  | stopped k | lost | crashed =>
      have hcrash : l.consumer.crash = l.consumer := by simp [Consumer.crash, hphase]
      have hstep : l.step .panic = l := by simp only [step, call, hcrash, Call.upAfter]
      rwa [hstep]
  | running k =>
      have hup := h.state
      rw [Consumer.state, hphase] at hup
      constructor
      · exact Eq.trans (by simp [step, call, Consumer.state, Consumer.crash, hphase]) hup
      · intro k₁ hk₁
        simp [step, call, Consumer.crash, hphase] at hk₁

theorem Kept.step {l : Life} (h : l.Kept) (a : Call) : (l.step a).Kept := by
  cases a with
  | start store => exact h.start store
  | stop => exact h.stop
  | tick => exact h.tick
  | panic => exact h.panic
  | meanwhile tree memory outlet => exact ⟨h.state, h.closed⟩

theorem Kept.run {l : Life} (h : l.Kept) (calls : List Call) : (l.run calls).Kept := by
  induction calls generalizing l with
  | nil => exact h
  | cons a calls ih => exact ih (h.step a)

theorem phase_panics {l : Life} {a : Call} (h : l.Panics a) : (l.step a).consumer.phase = .crashed := by
  obtain ⟨k, hphase, rfl | ⟨rfl, hnone⟩⟩ := h
  · simp [Life.step, call, Consumer.crash, hphase]
  · rcases phase_poll hphase l.world with ⟨k', hsome, _⟩ | ⟨_, hcrashed⟩
    · rw [hnone] at hsome
      cases hsome
    · exact hcrashed

theorem step_crashed {l : Life} {a : Call} (h : l.consumer.phase = .crashed) (ha : a ≠ .stop) :
    (l.step a).consumer.phase = .crashed := by
  cases a with
  | stop => exact absurd rfl ha
  | start | tick | panic | meanwhile =>
      simp [Life.step, call, Consumer.start, Consumer.poll, Consumer.crash, h]

theorem run_crashed {l : Life} {calls : List Call} (h : l.consumer.phase = .crashed)
    (hcalls : ∀ a ∈ calls, a ≠ .stop) : (l.run calls).consumer.phase = .crashed := by
  induction calls generalizing l with
  | nil => exact h
  | cons a calls ih =>
      exact ih (step_crashed h (hcalls a (by simp))) fun b hb => hcalls b (by simp [hb])

theorem run_lost {l : Life} (h : l.consumer.phase = .lost) (calls : List Call) :
    (l.run calls).consumer.phase = .lost := by
  induction calls generalizing l with
  | nil => exact h
  | cons a calls ih =>
      apply ih
      cases a <;> simp [Life.step, call, Consumer.start, Consumer.stop, Consumer.poll, Consumer.crash, h]

theorem start_unloaded {l : Life} {k : Tracker} {store : Store} {f : Store.Fault}
    (hphase : l.consumer.phase = .stopped k) (hload : store.load l.world.memory = .error f) :
    l.call (.start store) = (.error (.store f), l.consumer, l.world.log (.loadFailed (.store f))) := by
  simp [call, Consumer.start, hphase, loadFrom, hload]

theorem onto_forgotten (l : Life) :
    ({ l with world := { l.world with events := [] } } : Life).onto l.world.events = l := rfl

/-- Whatever is called, and whatever befalls a consumer, its life is an orderly one. -/
theorem lifecycle (selector : Selector) (policy : Policy) (settings : Settings) (w : World)
    (calls : List Call) : ((anew selector policy settings w).run calls).Orderly := by
  have hkept := (kept_anew selector policy settings w).run calls
  generalize (anew selector policy settings w).run calls = l at hkept
  have hstate := hkept.state
  constructor
  case state => exact hstate
  case idle =>
    intro hup
    exact poll_stopped (by simpa [hup] using hstate) l.world
  case again =>
    intro store hup
    exact call_start_running (by simpa [hup] using hstate) store
  case undone =>
    intro k store f later hphase hload
    have hcall := start_unloaded hphase hload
    -- both lives are one without a log, on top of different logs
    generalize hold : ({ l with world := { l.world with events := [] } } : Life) = old
    have hthis : l = old.onto l.world.events := by rw [← hold, onto_forgotten]
    have hnext : l.step (.start store) = old.onto (.loadFailed (.store f) :: l.world.events) := by
      rw [← hold, Life.step, hcall]
      rfl
    refine ⟨by rw [hcall], by rw [Life.step, hcall], ?_, old.run later, ?_, ?_⟩
    · rw [hnext, answers_onto]
      conv_rhs => rw [hthis, answers_onto]
    · conv_lhs => rw [hthis, run_onto]
      rfl
    · rw [hnext, run_onto]
      rfl
  case rests =>
    intro hup
    exact call_stop_stopped (by simpa [hup] using hstate)
  case closes =>
    intro k _ hk
    exact hkept.stop.closed hk
  case lost =>
    rintro a mid e hpanics hmid rfl
    have hcrashed := run_crashed (phase_panics hpanics) hmid
    generalize (l.step a).run mid = e at hcrashed
    have hlost : (e.step .stop).consumer.phase = .lost := by
      simp [Life.step, call, Consumer.stop, hcrashed]
    refine ⟨by simp [call, Consumer.stop, hcrashed], by simp [Consumer.state, hlost], fun after store => ?_⟩
    simp [call, Consumer.start, run_lost hlost after]

theorem lifecycle_crashed :
    let w : World := ⟨Session.ofFiles [("a.log", true, [97, 10])],
      { MemoryStore.empty with crashSet := fun _ => true }, .willing, []⟩
    let l := (anew ⟨["*.log"], [], none⟩ Session.followLogs.policy Session.followLogs.settings w).run
      [.start .memory]
    let e := (l.step .tick).run [.start .memory]
    l.consumer.state = .running ∧ l.Panics .tick ∧ (e.call .stop).1 = .error .taskFailed ∧
      (e.step .stop).consumer.state = .stopped ∧
      (((e.step .stop).run []).call (.start .memory)).1 = .error .trackerLost := by
  intro w l e
  have hlife : l.Orderly := lifecycle _ _ _ w [.start .memory]
  have hpolled : l.up = true ∧ (match l.consumer.phase with
      | .running k => (k.poll l.world).1.isNone
      | _ => false) = true := by decide +kernel
  obtain ⟨hup, hnone⟩ := hpolled
  have hstate := hlife.state
  rw [hup, if_pos rfl] at hstate
  have hpanics : l.Panics .tick := by
    split at hnone
    · next k hphase => exact ⟨k, hphase, .inr ⟨rfl, by simpa using hnone⟩⟩
    · cases hnone
  have hmid : ∀ b ∈ [Call.start .memory], b ≠ .stop := by simp
  obtain ⟨hstop, hstopped, hstart⟩ := hlife.lost hpanics hmid rfl
  exact ⟨hstate, hpanics, hstop, hstopped, hstart [] .memory⟩

end Life

end LogTail
