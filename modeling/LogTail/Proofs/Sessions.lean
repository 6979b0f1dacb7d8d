import LogTail.Consumer
import LogTail.Proofs.Ledger
import LogTail.Proofs.Stores

namespace LogTail

open Tracker

namespace Config

variable {c : Config}

structure Valid (c : Config) : Prop where
  includes : c.includes.isEmpty = false
  interval : c.pollInterval ≠ 0
  fingerprint : minFingerprintSize ≤ c.fingerprintSize
  lines : 0 < c.maxLogSize
  span : c.maxLogSize ≤ Reader.maxSpan
  files : 2 ≤ c.maxConcurrentFiles
  batches : c.emitBatchSize ≠ 0
  capacity : c.batchFiles ≤ c.capacity
  criteria : ∀ criteria, c.criteria = some criteria → validateCriteria criteria = .ok ()

theorem validate_eq_ok_iff : c.validate = .ok () ↔ c.Valid := by
  constructor
  · intro h
    unfold validate at h
    repeat' split at h
    -- all but the two ends of the chain of checks are faults
    all_goals first | cases h; done | constructor <;> grind
  · intro h
    unfold validate
    rw [h.includes, if_neg Bool.false_ne_true, if_neg h.interval, if_neg (Nat.not_lt.mpr h.fingerprint),
      if_neg (Nat.ne_of_gt h.lines), if_neg (Nat.not_lt.mpr h.span), if_neg (Nat.not_lt.mpr h.files),
      if_neg h.batches, if_neg (Nat.not_lt.mpr h.capacity)]
    cases hcriteria : c.criteria with
    | none => rfl
    | some criteria => exact h.criteria criteria hcriteria

theorem Valid.fingerprintSize_pos (h : c.Valid) : 0 < c.policy.fingerprintSize :=
  Nat.lt_of_lt_of_le (by decide) h.fingerprint

end Config

theorem Consumer.ofConfig_ok {c : Config} {o : Consumer} (h : ofConfig c = .ok o) :
    c.Valid ∧ ∃ selector, o = ofParts selector c.policy c.settings := by
  unfold ofConfig at h
  split at h
  · cases h
  · next hvalid =>
      split at h
      · cases h
      · cases h
        exact ⟨Config.validate_eq_ok_iff.mp hvalid, _, rfl⟩

/-- A consumer with what it runs on. `origin` is the consumer as it was built, `store` the one it is
started with, and `met` holds all files found so far with the fingerprints taken of them. -/
structure Session where
  origin : Consumer
  consumer : Consumer
  world : World
  store : Store
  met : List (Nat × Fingerprint)

/-- What happens in a session. With `die n looks` the process dies in a poll, while it reads the batch
`n` of that and after those looks at the token, and the consumer is built anew. -/
inductive Act
  | change (tree : FileTree)
  | emitter (verdict : Nat → Verdict) (looks : List Bool)
  | memory (failGet : Bool) (failSet crashSet : Nat → Bool)
  | start | stop | poll | rebuild
  | die (n : Nat) (looks : List Bool)

def Act.goesOn : Act → Bool
  | .rebuild | .die _ _ => false
  | _ => true

namespace Session

def tracker? (s : Session) : Option Tracker :=
  match s.consumer.phase with
  | .stopped k => some k
  | .running k => some k
  | .crashed => none
  | .lost => none

def stages (s : Session) : List Stage :=
  match s.consumer.phase with
  | .running k => k.stages s.world
  | _ => []

def storeOf (c : Consumer) (s : Store) : Store :=
  match c.phase with
  | .running k => k.store.getD s
  | _ => s

def step (s : Session) : Act → Session
  | .change tree => { s with world := { s.world with tree } }
  | .emitter verdict looks =>
    { s with world := { s.world with outlet := { s.world.outlet.withToken looks with verdict } } }
  | .memory failGet failSet crashSet =>
    { s with world := { s.world with memory := { s.world.memory with failGet, failSet, crashSet } } }
  | .start =>
    let (_, consumer, world) := s.consumer.start s.store s.world
    { s with consumer, world }
  | .stop =>
    let (_, consumer, world) := s.consumer.stop s.world
    { s with consumer, world }
  | .poll =>
    let (consumer, world) := s.consumer.poll s.world
    let met := s.met ++ s.stages.flatMap Stage.sights
    { s with consumer, world, store := storeOf consumer s.store, met }
  | .rebuild => { s with consumer := s.origin }
  | .die n looks =>
    match s.stages[n]? with
    | none => { s with consumer := s.origin }
    | some stage =>
      let outlet := stage.world.outlet.withToken looks
      let world := (stage.tracker.collect stage.paths { stage.world with outlet }).2
      let met := s.met ++ (s.stages.take (n + 1)).flatMap Stage.sights
      { s with consumer := s.origin, world, store := stage.tracker.store.getD s.store, met }

def run (s : Session) (acts : List Act) : Session := acts.foldl step s

def Allows (P : Session → Act → Prop) : Session → List Act → Prop
  | _, [] => True
  | s, a :: acts => P s a ∧ Allows P (s.step a) acts

/-- No file has more bytes than a word of 64 bits can count. -/
def Countable (t : FileTree) : Prop := ∀ n, (t.content n).length < Json.Number.limit

theorem countable_of_nodes {t : FileTree}
    (h : ∀ n < t.nodes.length, (t.content n).length < Json.Number.limit) : Countable t := by
  intro n
  by_cases hn : n < t.nodes.length
  · exact h n hn
  · rw [FileTree.content_of_length_le (by omega)]
    decide

/-- Files only grow, also those that are changed where a checkpoint is saved, and the emitter is one of
some kind. -/
def Lawful (kind : (Nat → Verdict) → Prop) (s : Session) : Act → Prop
  | .change tree => s.world.tree.Grows tree ∧ Countable tree
  | .emitter verdict _ => kind verdict
  | .poll => ∀ stage ∈ s.stages,
      stage.world.tree.Grows stage.read.2.tree ∧ Countable stage.read.2.tree
  | .die n _ => ∀ stage ∈ s.stages.take n,
      stage.world.tree.Grows stage.read.2.tree ∧ Countable stage.read.2.tree
  | _ => True

/-- A consumer that was just built from a configuration, over a store that holds nothing, with nothing
handed over yet. -/
structure Fresh (c : Config) (s : Session) : Prop where
  built : Consumer.ofConfig c = .ok s.origin
  consumer : s.consumer = s.origin
  outlet : s.world.outlet = .willing
  met : s.met = []
  held : s.store.held s.world.memory = .ok none
  countable : Countable s.world.tree

/-- The next poll comes to all its batches, and nothing is refused or cancelled in it. -/
structure Undisturbed (s : Session) (k : Tracker) : Prop where
  running : s.consumer.phase = .running k
  completes : k.Completes s.world
  calm : s.world.outlet.Calm (s.step .poll).world.outlet

theorem run_append (s : Session) (acts more : List Act) :
    s.run (acts ++ more) = (s.run acts).run more := by
  simp [run]

theorem allows_append {P : Session → Act → Prop} {s : Session} {acts more : List Act} :
    Allows P s (acts ++ more) ↔ Allows P s acts ∧ Allows P (s.run acts) more := by
  induction acts generalizing s with
  | nil => simp [Allows, run]
  | cons a acts ih =>
      change P s a ∧ Allows P (s.step a) (acts ++ more) ↔
        (P s a ∧ Allows P (s.step a) acts) ∧ Allows P ((s.step a).run acts) more
      rw [ih, and_assoc]

theorem run_snoc (s : Session) (acts : List Act) (a : Act) : s.run (acts ++ [a]) = (s.run acts).step a :=
  s.run_append acts [a]

def polling (s : Session) : Bool :=
  match s.consumer.phase with
  | .running _ => true
  | _ => false

theorem polling_iff {s : Session} : s.polling = true ↔ ∃ k, s.consumer.phase = .running k := by
  unfold polling
  cases s.consumer.phase <;> simp

theorem stages_running {s : Session} {k : Tracker} (h : s.consumer.phase = .running k) :
    s.stages = k.stages s.world := by
  simp [stages, h]

theorem mem_stages {s : Session} {n : Nat} {stage : Stage} (h : s.stages[n]? = some stage) :
    ∃ k, s.consumer.phase = .running k ∧
      k.stages s.world = s.stages.take n ++ stage :: s.stages.drop (n + 1) := by
  cases hphase : s.consumer.phase with
  | running k =>
      obtain ⟨hn, hnth⟩ := List.getElem?_eq_some_iff.mp h
      refine ⟨k, rfl, ?_⟩
      rw [← hnth, ← List.drop_eq_getElem_cons hn, List.take_append_drop, stages_running hphase]
  | stopped | crashed | lost => simp [stages, hphase] at h

theorem step_poll {s : Session} {k : Tracker} (h : s.consumer.phase = .running k) :
    (s.step .poll).world = (k.poll s.world).2 := by
  simp only [step, Consumer.poll, h]
  split <;> simp_all

def polled (s : Session) : Option (List Path) :=
  match s.consumer.phase with
  | .running k =>
    if (k.stages s.world).map Stage.paths = k.batches s.world.tree ∧
        (s.step .poll).world.outlet.cancelled = false then
      some (k.matched s.world.tree)
    else none
  | _ => none

theorem undisturbed_of_polled {s : Session} {paths : List Path} (h : s.polled = some paths)
    (haccept : ∀ i, s.world.outlet.verdict i = .accept) :
    ∃ k, s.Undisturbed k ∧ k.matched s.world.tree = paths := by
  unfold polled at h
  split at h
  · next k hk =>
      split at h
      · next hall => exact ⟨k, ⟨hk, hall.1, hall.2, fun i _ _ => haccept i⟩, Option.some.inj h⟩
      · cases h
  · cases h

theorem mem_step_met {s : Session} {stage : Stage} (hstage : stage ∈ s.stages)
    {x : Nat × Fingerprint} (hx : x ∈ stage.sights) : x ∈ (s.step .poll).met :=
  List.mem_append_right _ (List.mem_flatMap.mpr ⟨stage, hstage, hx⟩)

theorem step_met (s : Session) (a : Act) : s.met <+: (s.step a).met := by
  cases a with
  | poll => exact List.prefix_append _ _
  | die n looks =>
      simp only [step]
      split
      · exact List.prefix_rfl
      · exact List.prefix_append _ _
  | change | emitter | memory | start | stop | rebuild => exact List.prefix_rfl

theorem run_met (s : Session) (acts : List Act) : s.met <+: (s.run acts).met := by
  induction acts generalizing s with
  | nil => exact List.prefix_rfl
  | cons a acts ih => exact (s.step_met a).trans (ih (s.step a))

theorem step_origin (s : Session) (a : Act) : (s.step a).origin = s.origin := by
  cases a with
  | die n looks =>
      simp only [step]
      split <;> rfl
  | change | emitter | memory | start | stop | poll | rebuild => rfl

theorem run_origin (s : Session) (acts : List Act) : (s.run acts).origin = s.origin := by
  induction acts generalizing s with
  | nil => rfl
  | cons a acts ih => exact (ih (s.step a)).trans (s.step_origin a)

def Holds (store : Store) (m : MemoryStore) (files : List Metadata) : Prop :=
  files = [] ∧ store.held m = .ok none ∨
    store.Carries m files ∧ ∀ e ∈ files, e.Tidy

/-- What holds of a tracker, if there is one, of the world and of the files in the store, and is
maintained by all that happens but the building of a new consumer. -/
structure Maintained (kind : (Nat → Verdict) → Prop) (met : List (Nat × Fingerprint))
    (J : Option Tracker → World → List Metadata → Prop) : Prop where
  onward {k : Option Tracker} {w w' : World} {files : List Metadata} :
    J k w files → w.tree.Grows w'.tree → Countable w'.tree → kind w'.outlet.verdict →
      w'.outlet.accepted = w.outlet.accepted → J k w' files
  kind {k : Option Tracker} {w : World} {files : List Metadata} :
    J k w files → kind w.outlet.verdict
  countable {k : Option Tracker} {w : World} {files : List Metadata} : J k w files → Countable w.tree
  tidy {k : Tracker} {w : World} {files : List Metadata} :
    J (some k) w files → ∀ e ∈ k.gathered, e.Tidy
  begun {k : Tracker} {w : World} {files : List Metadata} :
    J (some k) w files → J (some { k with gathered := [] }) w files
  collected {k : Tracker} {w : World} {files : List Metadata} (paths : List Path) :
    J (some k) w files → (∀ s ∈ k.sights w.tree paths, s ∈ met) →
      J (some (k.collect paths w).1.trim) (k.collect paths w).2 files
  saved {k : Tracker} {w : World} {files : List Metadata} :
    J (some k) w files → J (some k) w k.gathered
  beginning {k : Tracker} {w : World} {files : List Metadata} :
    J (some k) w files → J (some k.readFromBeginning) w files
  closed {k : Tracker} {w : World} {files : List Metadata} :
    J (some k) w files → J (some k.closeReaders) w files
  resumed {k : Tracker} {w : World} {files : List Metadata} :
    J (some k) w files → J (some (k.resume files)) w files
  stored {k : Tracker} {w : World} {files : List Metadata} (store : Option Store) :
    J (some k) w files → J (some { k with store }) w files
  lost {k : Option Tracker} {w : World} {files : List Metadata} : J k w files → J none w files

def Renewable (J : Option Tracker → World → List Metadata → Prop) (o : Consumer) : Prop :=
  ∀ k w w' files, J k w files → w'.tree = w.tree → w.outlet.accepted <:+ w'.outlet.accepted →
    ∃ k', o.phase = .stopped k' ∧ J (some k') w' files

/-- The same of a session: a running tracker works on the store of the session. -/
structure Keeps (J : Option Tracker → World → List Metadata → Prop) (s : Session) : Prop where
  holds : ∃ files, Holds s.store s.world.memory files ∧ J s.tracker? s.world files
  store {k : Tracker} : s.consumer.phase = .running k → k.store = some s.store

theorem holds_congr {store store' : Store} {m m' : MemoryStore} {files : List Metadata}
    (h : Holds store m files) (hheld : store'.held m' = store.held m) : Holds store' m' files := by
  unfold Holds Store.Carries at *
  rwa [hheld]

theorem load_holds {s : Store} {m : MemoryStore} {files files' : List Metadata}
    {format : Checkpoint.Format} (h : Holds s m files) (hload : s.load m = .ok (files', format)) :
    files' = files := by
  unfold Store.load at hload
  cases hget : s.get m Checkpoint.key with
  | error f => rw [hget] at hload; cases hload
  | ok v =>
      have hheld := Store.get_held hget
      rw [hget] at hload
      rcases h with ⟨rfl, hnone⟩ | ⟨⟨bs, hsome, hdecode⟩, -⟩
      · rw [hheld] at hnone
        cases hnone
        cases hload
        rfl
      · rw [hheld] at hsome
        cases hsome
        simp only [bind, Except.bind, hdecode] at hload
        cases hload
        rfl

theorem start_cases (c : Consumer) (store : Store) (w : World) :
    (∃ e w', c.start store w = (.error e, c, w') ∧ w'.tree = w.tree ∧ w'.memory = w.memory ∧
      w'.outlet = w.outlet) ∨
    ∃ k files format w', c.phase = .stopped k ∧ store.load w.memory = .ok (files, format) ∧
      c.start store w =
        (.ok (), { c with phase := .running { k.resume files with store := some store } }, w') ∧
      w'.tree = w.tree ∧ w'.memory = w.memory ∧ w'.outlet = w.outlet.renew := by
  unfold Consumer.start
  cases hphase : c.phase with
  | running k => exact .inl ⟨_, w, rfl, rfl, rfl, rfl⟩
  | crashed => exact .inl ⟨_, w, rfl, rfl, rfl, rfl⟩
  | lost => exact .inl ⟨_, w, rfl, rfl, rfl, rfl⟩
  | stopped k =>
      cases hload : store.load w.memory with
      | error f =>
          simp only [Tracker.loadFrom, hload]
          exact .inl ⟨_, _, rfl, rfl, rfl, rfl⟩
      | ok loaded =>
          obtain ⟨files, format⟩ := loaded
          simp only [Tracker.loadFrom, hload]
          refine .inr ⟨k, files, format, _, rfl, rfl, rfl, ?_⟩
          unfold Consumer.announce
          split <;> split <;> split <;> exact ⟨rfl, rfl, rfl⟩

theorem start_world (s : Session) :
    (s.step .start).world.tree = s.world.tree ∧ (s.step .start).world.memory = s.world.memory ∧
      ((s.step .start).world.outlet = s.world.outlet ∨
        (s.step .start).world.outlet = s.world.outlet.renew) := by
  rcases start_cases s.consumer s.store s.world with
    ⟨e, w', hstart, htree, hmemory, hout⟩ |
    ⟨k, files, format, w', _, _, hstart, htree, hmemory, hout⟩
  · simp only [step, hstart]
    exact ⟨htree, hmemory, .inl hout⟩
  · simp only [step, hstart]
    exact ⟨htree, hmemory, .inr hout⟩

theorem Fresh.willing {c : Config} {s : Session} (h : s.Fresh c) :
    (s.step .start).world.outlet.Willing := by
  have hout := s.start_world.2.2
  rw [h.outlet] at hout
  rcases hout with hout | hout
  · rw [hout]
    exact Outlet.willing_willing
  · rw [hout]
    exact Outlet.willing_willing

theorem step_grows {kind : (Nat → Verdict) → Prop} {s : Session} {a : Act} (h : s.Lawful kind a) :
    s.world.tree.Grows (s.step a).world.tree := by
  cases a with
  | change tree => exact h.1
  | emitter | memory | rebuild => exact .refl _
  | start =>
      rw [s.start_world.1]
      exact .refl _
  | stop =>
      cases hphase : s.consumer.phase with
      | stopped k | running k | lost | crashed =>
          simp only [step, Consumer.stop, hphase]
          exact .refl _
  | poll =>
      cases hphase : s.consumer.phase with
      | stopped k | lost | crashed =>
          simp only [step, Consumer.poll, hphase]
          exact .refl _
      | running k =>
          rw [step_poll hphase]
          refine (readBatches_between (R := fun w w' => w.tree.Grows w'.tree) (fun w => .refl _)
            (fun _ _ _ h h' => h.trans h') (fun w => .refl _) fun stage hstage => ?_).1
          exact (h stage (by rw [stages_running hphase]; exact hstage)).1
  | die n looks =>
      cases hstage : s.stages[n]? with
      | none =>
          simp only [step, hstage]
          exact .refl _
      | some stage =>
          obtain ⟨k, _, hsplit⟩ := mem_stages hstage
          obtain ⟨bs, htook⟩ := stage.tracker.collect_took stage.paths
            { stage.world with outlet := stage.world.outlet.withToken looks }
          simp only [step, hstage, htook.tree]
          exact stagesFrom_preserves (P := fun _ w => s.world.tree.Grows w.tree) hsplit
            (fun st hst _ hgrows _ => hgrows.trans (h st hst).1) (.refl _)

theorem run_grows {kind : (Nat → Verdict) → Prop} {s : Session} {acts : List Act}
    (h : s.Allows (Lawful kind) acts) : s.world.tree.Grows (s.run acts).world.tree := by
  induction acts generalizing s with
  | nil => exact .refl _
  | cons a acts ih => exact (step_grows h.1).trans (ih h.2)

theorem step_accepted (s : Session) (a : Act) :
    s.world.outlet.accepted <:+ (s.step a).world.outlet.accepted := by
  cases a with
  | change | emitter | memory | rebuild => exact List.suffix_refl _
  | start =>
      rcases s.start_world.2.2 with hout | hout
      · rw [hout]
      · rw [hout]
        exact List.suffix_refl _
  | stop =>
      cases hphase : s.consumer.phase with
      | stopped k | running k | lost | crashed =>
          simp only [step, Consumer.stop, hphase]
          exact List.suffix_refl _
  | poll =>
      cases hphase : s.consumer.phase with
      | stopped k | lost | crashed =>
          simp only [step, Consumer.poll, hphase]
          exact List.suffix_refl _
      | running k =>
          rw [step_poll hphase]
          obtain ⟨bs, htook⟩ := (poll_took k s.world).1
          exact htook.suffix
  | die n looks =>
      cases hstage : s.stages[n]? with
      | none =>
          simp only [step, hstage]
          exact List.suffix_refl _
      | some stage =>
          obtain ⟨k, _, hsplit⟩ := mem_stages hstage
          obtain ⟨⟨bs, hbefore⟩, _⟩ := (poll_took k s.world).2 stage (by simp [hsplit])
          obtain ⟨cs, htook⟩ := stage.tracker.collect_took stage.paths
            { stage.world with outlet := stage.world.outlet.withToken looks }
          simp only [step, hstage]
          exact hbefore.suffix.trans htook.outlet.suffix

theorem run_delivered (met : List (Nat × Fingerprint)) (s : Session) (acts : List Act) (n : Nat) :
    s.world.delivered met n <+: (s.run acts).world.delivered met n := by
  induction acts generalizing s with
  | nil => exact List.prefix_rfl
  | cons a acts ih => exact (delivered_suffix (s.step_accepted a) n).trans (ih (s.step a))

theorem Maintained.still {kind : (Nat → Verdict) → Prop} {met : List (Nat × Fingerprint)}
    {J : Option Tracker → World → List Metadata → Prop} (hJ : Maintained kind met J)
    {k : Option Tracker} {w w' : World} {files : List Metadata} (h : J k w files)
    (htree : w'.tree = w.tree) (hverdict : w'.outlet.verdict = w.outlet.verdict)
    (haccepted : w'.outlet.accepted = w.outlet.accepted) : J k w' files :=
  hJ.onward h (by rw [htree]; exact .refl _) (by rw [htree]; exact hJ.countable h)
    (by rw [hverdict]; exact hJ.kind h) haccepted

theorem Fresh.keeps {c : Config} {s : Session} {J : Option Tracker → World → List Metadata → Prop}
    (h : s.Fresh c) (hJ : ∀ selector, J (some (.ofParts selector c.policy c.settings)) s.world []) :
    Keeps J s := by
  obtain ⟨_, selector, horigin⟩ := Consumer.ofConfig_ok h.built
  have hphase : s.consumer.phase = .stopped (.ofParts selector c.policy c.settings) := by
    rw [h.consumer, horigin]
    rfl
  exact ⟨⟨[], .inl ⟨rfl, h.held⟩, by simpa [tracker?, hphase] using hJ selector⟩, by simp [hphase]⟩

structure Reads (met : List (Nat × Fingerprint)) (J : Option Tracker → World → List Metadata → Prop)
    (path : Path) (stage : Stage) (w : World) : Prop where
  path : path ∈ stage.paths
  holds : ∃ files, J (some stage.tracker) stage.world files
  sights : ∀ x ∈ stage.sights, x ∈ met
  calm : stage.world.outlet.Calm (stage.tracker.collect stage.paths stage.world).2.outlet
  took : ∃ bs, (stage.tracker.collect stage.paths stage.world).2.outlet.Took w.outlet bs

theorem Keeps.anew {J : Option Tracker → World → List Metadata → Prop} {s s' : Session}
    {files : List Metadata} (hconsumer : s'.consumer = s.origin)
    (hholds : Holds s'.store s'.world.memory files)
    (hJ' : ∃ k, s.origin.phase = .stopped k ∧ J (some k) s'.world files) : Keeps J s' := by
  obtain ⟨k, hphase, hk⟩ := hJ'
  rw [← hconsumer] at hphase
  exact ⟨⟨files, hholds, by simpa [tracker?, hphase] using hk⟩, by simp [hphase]⟩

section Maintaining

variable {kind : (Nat → Verdict) → Prop} {met : List (Nat × Fingerprint)}
  {J : Option Tracker → World → List Metadata → Prop} (hJ : Maintained kind met J)
include hJ

/-- A tracker in the middle of a poll that began with a store. A database does not crash, so that a
tracker that is lost had a memory store. -/
def Amid (J : Option Tracker → World → List Metadata → Prop) (store : Store) :
    Option Tracker → World → Prop
  | some k, w => ∃ s files, k.store = some s ∧ (s = .memory → store = .memory) ∧
      Holds s w.memory files ∧ J (some k) w files
  | none, w => store = .memory ∧ ∃ files, Holds .memory w.memory files ∧ J none w files

theorem readBatch_amid {store : Store} {k : Tracker} {paths : List Path} {w : World}
    (hsights : ∀ s ∈ k.sights w.tree paths, s ∈ met)
    (hgrows : w.tree.Grows (k.readBatch paths w).2.tree)
    (hcount : Countable (k.readBatch paths w).2.tree) (h : Amid J store (some k) w) :
    Amid J store (k.readBatch paths w).1 (k.readBatch paths w).2 := by
  obtain ⟨s, files, hs, hkind, hholds, hk⟩ := h
  have hcollected := hJ.collected paths hk hsights
  obtain ⟨bs, htook⟩ := k.collect_took paths w
  have hstore : (k.collect paths w).1.trim.store = some s := by
    rw [← hs]
    exact (k.collect_alike paths w).2.1
  rw [readBatch_eq] at *
  rw [← htook.memory] at hholds
  rw [← htook.tree] at hgrows
  generalize (k.collect paths w).1.trim = k₁ at *
  generalize (k.collect paths w).2 = w₁ at *
  have hout := save_outlet k₁ w₁
  obtain ⟨ended, s', hsave, hcrash, hlive⟩ := save_some hstore w₁
  have hsaved := Store.save_saved (hJ.tidy hcollected) w₁.tree w₁.memory s
  obtain ⟨hsame, hdead⟩ := Store.save_kind w₁.tree w₁.memory s k₁.gathered
  rw [hsave] at hsaved hsame hdead
  generalize (k₁.save w₁).2 = w₂ at *
  have hnext {o : Option Tracker} {files : List Metadata} (h : J o w₁ files) : J o w₂ files :=
    hJ.onward h hgrows hcount (by rw [hout]; exact hJ.kind h) (by rw [hout])
  cases ended with
  | crashed =>
      obtain ⟨rfl, rfl⟩ := hdead rfl
      rw [hcrash rfl]
      exact ⟨hkind rfl, files, holds_congr hholds (hsaved.undone (by simp)), hnext (hJ.lost hcollected)⟩
  | done =>
      rw [hlive (by simp)]
      exact ⟨s', k₁.gathered, rfl, fun h => hkind (hsame h),
        .inr ⟨hsaved.done rfl, hJ.tidy hcollected⟩,
        hJ.stored _ (hnext (hJ.saved hcollected))⟩
  | failed f =>
      rw [hlive (by simp)]
      exact ⟨s', files, rfl, fun h => hkind (hsame h), holds_congr hholds (hsaved.undone (by simp)),
        hJ.stored _ (hnext hcollected)⟩

theorem Amid.look {store : Store} {k : Tracker} {w : World} (h : Amid J store (some k) w) :
    Amid J store (some k) (looked w) := by
  obtain ⟨s, files, hs, hkind, hholds, hk⟩ := h
  exact ⟨s, files, hs, hkind, hholds, hJ.still hk rfl w.outlet.took_look.verdict
    w.outlet.took_look.accepted⟩

theorem Amid.begun {store : Store} {k : Tracker} {w : World} (h : Amid J store (some k) w) :
    Amid J store (some { k with gathered := [] }) w := by
  obtain ⟨s, files, hs, hkind, hholds, hk⟩ := h
  exact ⟨s, files, hs, hkind, hholds, hJ.begun hk⟩

theorem Amid.next {store : Store} {stage : Stage} {k : Tracker} (hsights : ∀ s ∈ stage.sights, s ∈ met)
    (hgrows : stage.world.tree.Grows stage.read.2.tree) (hcount : Countable stage.read.2.tree)
    (h : Amid J store (some stage.tracker) stage.world) (hk : stage.read.1 = some k) :
    Amid J store (some k) (looked stage.read.2) := by
  have hread : Amid J store stage.read.1 stage.read.2 := readBatch_amid hJ hsights hgrows hcount h
  rw [hk] at hread
  exact hread.look hJ

theorem poll_amid {store : Store} {k : Tracker} {w : World}
    (hsights : ∀ stage ∈ k.stages w, ∀ s ∈ stage.sights, s ∈ met)
    (hlawful : ∀ stage ∈ k.stages w,
      stage.world.tree.Grows stage.read.2.tree ∧ Countable stage.read.2.tree)
    (h : Amid J store (some k) w) :
    Amid J store (k.poll w).1 (k.poll w).2 ∧
      ∀ stage ∈ k.stages w, Amid J store (some stage.tracker) stage.world := by
  refine readBatches_runs (P := fun k => Amid J store (some k)) (Q := Amid J store) (chunks_ne_nil _ _)
    ?_ ?_ (fun k w h => h.look hJ) ?_ (h.begun hJ)
  · intro stage hstage k' hamid hk _
    exact hamid.next hJ (hsights stage hstage) (hlawful stage hstage).1 (hlawful stage hstage).2 hk
  · intro stage hstage hamid
    exact readBatch_amid hJ (hsights stage hstage) (hlawful stage hstage).1 (hlawful stage hstage).2
      hamid
  · rintro k w ⟨s, files, hs, hkind, hholds, hk⟩
    exact ⟨s, files, hs, hkind, hholds, hJ.beginning hk⟩

theorem stage_amid {store : Store} {k : Tracker} {w : World} {before behind : List Stage}
    {stage : Stage} (hsplit : k.stages w = before ++ stage :: behind)
    (hsights : ∀ st ∈ before, ∀ s ∈ st.sights, s ∈ met)
    (hlawful : ∀ st ∈ before, st.world.tree.Grows st.read.2.tree ∧ Countable st.read.2.tree)
    (h : Amid J store (some k) w) : Amid J store (some stage.tracker) stage.world := by
  refine stagesFrom_preserves (P := fun k => Amid J store (some k)) hsplit ?_ (h.begun hJ)
  intro st hst k' hamid hk
  exact hamid.next hJ (hsights st hst) (hlawful st hst).1 (hlawful st hst).2 hk

theorem Keeps.poll {s : Session} {k : Tracker} (hphase : s.consumer.phase = .running k)
    (hlawful : s.Lawful kind .poll) (hmet : ∀ x ∈ (s.step .poll).met, x ∈ met) (h : Keeps J s) :
    Amid J s.store (k.poll s.world).1 (k.poll s.world).2 ∧
      ∀ stage ∈ k.stages s.world, Amid J s.store (some stage.tracker) stage.world := by
  obtain ⟨⟨files, hholds, hfiles⟩, hstore⟩ := h
  have hk : J (some k) s.world files := by simpa [tracker?, hphase] using hfiles
  have hstages := stages_running hphase
  refine poll_amid hJ (fun stage hstage x hx => hmet x ?_) (by rw [← hstages]; exact hlawful)
    ⟨s.store, files, hstore hphase, id, hholds, hk⟩
  exact mem_step_met (by rwa [hstages]) hx

/-- A consumer that dies in a poll is built anew over what a batch before it saved. -/
theorem Keeps.dies {s : Session} {n : Nat} {looks : List Bool} (hrenew : Renewable J s.origin)
    (hlawful : s.Lawful kind (.die n looks)) (hmet : ∀ x ∈ (s.step (.die n looks)).met, x ∈ met)
    (h : Keeps J s) : Keeps J (s.step (.die n looks)) := by
  obtain ⟨⟨files, hholds, hfiles⟩, hstore⟩ := h
  cases hstage : s.stages[n]? with
  | none =>
      simp only [step, hstage]
      exact .anew rfl hholds (hrenew _ _ _ _ hfiles rfl (List.suffix_refl _))
  | some stage =>
      obtain ⟨k, hphase, hsplit⟩ := mem_stages hstage
      have hk : J (some k) s.world files := by simpa [tracker?, hphase] using hfiles
      have hsights (st) (hst : st ∈ s.stages.take n) (x) (hx : x ∈ st.sights) : x ∈ met := by
        refine hmet x ?_
        simp only [step, hstage, List.mem_append, List.mem_flatMap]
        exact .inr ⟨st, List.take_subset_take_left _ (Nat.le_succ n) hst, hx⟩
      obtain ⟨st, files', hst, _, hholds', hk'⟩ := stage_amid hJ hsplit hsights hlawful
        ⟨s.store, files, hstore hphase, id, hholds, hk⟩
      obtain ⟨bs, htook⟩ := stage.tracker.collect_took stage.paths
        { stage.world with outlet := stage.world.outlet.withToken looks }
      simp only [step, hstage]
      refine .anew rfl ?_ (hrenew _ _ _ _ hk' htook.tree htook.outlet.suffix)
      simpa [hst, htook.memory] using hholds'

theorem Keeps.starts {s : Session} (h : Keeps J s) : Keeps J (s.step .start) := by
  obtain ⟨⟨files, hholds, hfiles⟩, hstore⟩ := h
  rcases start_cases s.consumer s.store s.world with
    ⟨e, w', hstart, htree, hmemory, hout⟩ |
    ⟨k, files', format, w', hphase, hload, hstart, htree, hmemory, hout⟩
  · simp only [step, hstart]
    exact ⟨⟨files, by rwa [← hmemory] at hholds, hJ.still hfiles htree (by rw [hout]) (by rw [hout])⟩,
      hstore⟩
  · obtain rfl := load_holds hholds hload
    have hk : J (some k) s.world files' := by simpa [tracker?, hphase] using hfiles
    simp only [step, hstart]
    refine ⟨⟨files', by rwa [← hmemory] at hholds, ?_⟩, ?_⟩
    · exact hJ.still (hJ.stored _ (hJ.resumed hk)) htree (by rw [hout]; rfl) (by rw [hout]; rfl)
    · rintro k' hk'
      cases hk'
      rfl

theorem Keeps.stops {s : Session} (h : Keeps J s) : Keeps J (s.step .stop) := by
  cases hphase : s.consumer.phase with
  | stopped k | lost =>
      have hstop : s.step .stop = s := by simp [step, Consumer.stop, hphase]
      rwa [hstop]
  | running k =>
      obtain ⟨⟨files, hholds, hfiles⟩, _⟩ := h
      have hk : J (some k) s.world files := by simpa [tracker?, hphase] using hfiles
      simp only [step, Consumer.stop, hphase]
      exact ⟨⟨files, hholds, hJ.still (hJ.closed hk) rfl rfl rfl⟩, by simp⟩
  | crashed =>
      obtain ⟨⟨files, hholds, hfiles⟩, _⟩ := h
      simp only [step, Consumer.stop, hphase]
      exact ⟨⟨files, hholds, hJ.still (hJ.lost hfiles) rfl rfl rfl⟩, by simp⟩

theorem Keeps.polls {s : Session} (hlawful : s.Lawful kind .poll)
    (hmet : ∀ x ∈ (s.step .poll).met, x ∈ met) (h : Keeps J s) : Keeps J (s.step .poll) := by
  cases hphase : s.consumer.phase with
  | running k =>
      have hpoll := (Keeps.poll hJ hphase hlawful hmet h).1
      simp only [step, Consumer.poll, hphase]
      cases hend : k.poll s.world with
      | mk k' w' =>
          rw [hend] at hpoll
          cases k' with
          | some k' =>
              obtain ⟨st, files', hst, _, hholds', hk'⟩ := hpoll
              refine ⟨⟨files', by simpa [storeOf, hst] using hholds', hk'⟩, ?_⟩
              intro k₁ hk₁
              cases hk₁
              simp [storeOf, hst]
          | none =>
              obtain ⟨hmem, files', hholds', hk'⟩ := hpoll
              exact ⟨⟨files', by simpa [storeOf, hmem] using hholds', hk'⟩, by simp⟩
  | stopped k | lost | crashed =>
      obtain ⟨⟨files, hholds, hfiles⟩, hstore⟩ := h
      have hsame : (s.step .poll).consumer = s.consumer ∧ (s.step .poll).world = s.world ∧
          (s.step .poll).store = s.store := by
        simp [step, Consumer.poll, hphase, storeOf]
      obtain ⟨hconsumer, hworld, hsame⟩ := hsame
      exact ⟨⟨files, by rwa [hsame, hworld], by rwa [tracker?, hconsumer, hworld]⟩, by
        rw [hconsumer, hsame]; exact hstore⟩

theorem step_keeps {s : Session} {a : Act} (hrenew : a.goesOn = false → Renewable J s.origin)
    (hlawful : s.Lawful kind a)
    (hmet : ∀ x ∈ (s.step a).met, x ∈ met) (h : Keeps J s) : Keeps J (s.step a) := by
  obtain ⟨files, hholds, hfiles⟩ := h.holds
  have hkind := hJ.kind hfiles
  have hcount := hJ.countable hfiles
  cases a with
  | rebuild => exact .anew rfl hholds (hrenew rfl _ _ _ _ hfiles rfl (List.suffix_refl _))
  | die n looks => exact h.dies hJ (hrenew rfl) hlawful hmet
  | change tree =>
      exact ⟨⟨files, hholds, hJ.onward hfiles hlawful.1 hlawful.2 hkind rfl⟩, h.store⟩
  | emitter verdict looks =>
      exact ⟨⟨files, hholds, hJ.onward hfiles (.refl _) hcount hlawful rfl⟩, h.store⟩
  | memory failGet failSet crashSet =>
      exact ⟨⟨files, holds_congr hholds (Store.held_values rfl _), hJ.still hfiles rfl rfl rfl⟩, h.store⟩
  | start => exact h.starts hJ
  | stop => exact h.stops hJ
  | poll => exact h.polls hJ hlawful hmet

theorem run_keeps {s : Session} {acts : List Act} (hlawful : s.Allows (Lawful kind) acts)
    (hrenew : ∀ a ∈ acts, a.goesOn = false → Renewable J s.origin)
    (hmet : ∀ x ∈ (s.run acts).met, x ∈ met) (h : Keeps J s) : Keeps J (s.run acts) := by
  induction acts generalizing s with
  | nil => exact h
  | cons a acts ih =>
      obtain ⟨ha, hacts⟩ := hlawful
      refine ih hacts (fun b hb hends => ?_) hmet (step_keeps hJ (hrenew a (by simp)) ha
        (fun x hx => hmet x (((s.step a).run_met acts).subset hx)) h)
      rw [s.step_origin]
      exact hrenew b (by simp [hb]) hends

/-- A poll that is not disturbed reads every file to be followed. -/
theorem Undisturbed.reads {s : Session} {k : Tracker} (hpoll : s.Undisturbed k)
    (hlawful : s.Lawful kind .poll) (hmet : ∀ x ∈ (s.step .poll).met, x ∈ met) (h : Keeps J s)
    {path : Path} (hpath : path ∈ k.matched s.world.tree) :
    ∃ stage ∈ s.stages, Reads met J path stage (s.step .poll).world := by
  obtain ⟨_, hall⟩ := Keeps.poll hJ hpoll.running hlawful hmet h
  have hcalm := hpoll.calm
  rw [step_poll hpoll.running] at hcalm ⊢
  obtain ⟨stage, hstage, hin⟩ := hpoll.completes.stage hpath
  have hmem : stage ∈ s.stages := by rwa [stages_running hpoll.running]
  obtain ⟨_, files, _, _, _, hk⟩ := hall stage hstage
  have hone := stage_calm hcalm hstage
  have htook := ((poll_took k s.world).2 stage hstage).2
  rw [stage.read_outlet] at hone htook
  exact ⟨stage, hmem, hin, ⟨files, hk⟩, fun x hx => hmet x (mem_step_met hmem hx), hone, htook⟩

end Maintaining

end Session

end LogTail
