import LogTail.Proofs.Sessions

namespace LogTail

open Tracker

namespace Session

def ofConsumer (c : Consumer) (tree : FileTree) : Session :=
  ⟨c, c, ⟨tree, .empty, .willing, []⟩, .memory, []⟩

structure InMemory (s : Session) : Prop where
  store : s.store = .memory
  running {k : Tracker} : s.consumer.phase = .running k → k.store = some .memory
  origin {k : Tracker} : s.origin.phase ≠ .running k

theorem fresh_ofConsumer {c : Config} {o : Consumer} {tree : FileTree}
    (ho : Consumer.ofConfig c = .ok o) (hcount : Countable tree) : (ofConsumer o tree).Fresh c :=
  ⟨ho, rfl, rfl, rfl, rfl, hcount⟩

theorem inMemory_ofConsumer {c : Config} {o : Consumer} (ho : Consumer.ofConfig c = .ok o)
    (tree : FileTree) : (ofConsumer o tree).InMemory := by
  obtain ⟨_, selector, rfl⟩ := Consumer.ofConfig_ok ho
  have hphase {k : Tracker} : (Consumer.ofParts selector c.policy c.settings).phase ≠ .running k := by
    simp [Consumer.ofParts]
  exact ⟨rfl, fun hk => absurd hk hphase, hphase⟩

def Aside (t : FileTree) : Option Tracker → World → Prop
  | some k, w => k.store = some .memory ∧ w.tree = t
  | none, w => w.tree = t

theorem Aside.tree {t : FileTree} {o : Option Tracker} {w : World} (h : Aside t o w) : w.tree = t := by
  cases o with
  | none => exact h
  | some k => exact h.2

theorem save_aside {t : FileTree} {k : Tracker} {w : World} (h : Aside t (some k) w) :
    Aside t (k.save w).1 (k.save w).2 := by
  obtain ⟨ended, s, hsave, hcrash, hlive⟩ := save_some h.1 w
  simp only [Store.save, Store.set, Prod.mk.injEq] at hsave
  obtain ⟨_, rfl, htree, _⟩ := hsave
  rw [h.2] at htree
  by_cases hc : ended = .crashed
  · rw [hcrash hc]
    exact htree.symm
  · rw [hlive hc]
    exact ⟨rfl, htree.symm⟩

theorem readBatch_aside {t : FileTree} {k : Tracker} (paths : List Path) {w : World}
    (h : Aside t (some k) w) : Aside t (k.readBatch paths w).1 (k.readBatch paths w).2 := by
  obtain ⟨bs, htook⟩ := k.collect_took paths w
  rw [readBatch_eq]
  exact save_aside ⟨(k.collect_alike paths w).2.1.trans h.1, htook.tree.trans h.2⟩

theorem poll_aside {t : FileTree} {k : Tracker} {w : World} (h : Aside t (some k) w) :
    Aside t (k.poll w).1 (k.poll w).2 ∧
      ∀ stage ∈ k.stages w, Aside t (some stage.tracker) stage.world :=
  readBatches_runs (P := fun k => Aside t (some k)) (Q := Aside t) (chunks_ne_nil _ _)
    (fun stage _ k' h hk _ => by
      have hread := readBatch_aside stage.paths h
      rwa [show (stage.tracker.readBatch stage.paths stage.world).1 = some k' from hk] at hread)
    (fun stage _ => readBatch_aside stage.paths) (fun _ _ h => h) (fun _ _ h => h) h

namespace InMemory

variable {s : Session}

theorem aside (h : s.InMemory) {stage : Stage} (hstage : stage ∈ s.stages) :
    Aside s.world.tree (some stage.tracker) stage.world := by
  cases hphase : s.consumer.phase with
  | running k =>
      rw [stages_running hphase] at hstage
      exact (poll_aside ⟨h.running hphase, rfl⟩).2 stage hstage
  | stopped k | crashed | lost => simp [stages, hphase] at hstage

theorem lawful (h : s.InMemory) (hcount : Countable s.world.tree) {stage : Stage}
    (hstage : stage ∈ s.stages) :
    stage.world.tree.Grows stage.read.2.tree ∧ Countable stage.read.2.tree := by
  have hbefore := h.aside hstage
  have hbehind : stage.read.2.tree = s.world.tree := (readBatch_aside stage.paths hbefore).tree
  rw [hbefore.2, hbehind]
  exact ⟨.refl _, hcount⟩

theorem step (h : s.InMemory) (a : Act) : (s.step a).InMemory := by
  cases a with
  | change | emitter | memory => exact ⟨h.store, h.running, h.origin⟩
  | rebuild => exact ⟨h.store, fun hk => absurd hk h.origin, h.origin⟩
  | die n looks =>
      cases hstage : s.stages[n]? with
      | none =>
          simp only [Session.step, hstage]
          exact ⟨h.store, fun hk => absurd hk h.origin, h.origin⟩
      | some stage =>
          have hstore := (h.aside (List.mem_of_getElem? hstage)).1
          simp only [Session.step, hstage]
          exact ⟨by simp [hstore], fun hk => absurd hk h.origin, h.origin⟩
  | start =>
      rcases start_cases s.consumer s.store s.world with
        ⟨e, w', hstart, _⟩ | ⟨k, files, format, w', _, _, hstart, _⟩
      · simp only [Session.step, hstart]
        exact ⟨h.store, h.running, h.origin⟩
      · simp only [Session.step, hstart]
        refine ⟨h.store, fun hk => ?_, h.origin⟩
        cases hk
        exact congrArg some h.store
  | stop =>
      cases hphase : s.consumer.phase with
      | stopped k | running k | lost | crashed =>
          simp only [Session.step, Consumer.stop, hphase]
          exact ⟨h.store, by simp [hphase], h.origin⟩
  | poll =>
      cases hphase : s.consumer.phase with
      | stopped k | lost | crashed =>
          simp only [Session.step, Consumer.poll, hphase, storeOf]
          exact ⟨h.store, by simp [hphase], h.origin⟩
      | running k =>
          have hend := (poll_aside (w := s.world) ⟨h.running hphase, rfl⟩).1
          simp only [Session.step, Consumer.poll, hphase]
          cases hpoll : k.poll s.world with
          | mk o w' =>
              rw [hpoll] at hend
              cases o with
              | none => exact ⟨h.store, by simp, h.origin⟩
              | some k' =>
                  refine ⟨by simp [storeOf, hend.1], fun hk => ?_, h.origin⟩
                  cases hk
                  exact hend.1

theorem run (h : s.InMemory) (acts : List Act) : (s.run acts).InMemory := by
  induction acts generalizing s with
  | nil => exact h
  | cons a acts ih => exact ih (h.step a)

theorem tree_step (h : s.InMemory) (a : Act) (hchange : ∀ tree, a ≠ .change tree) :
    (s.step a).world.tree = s.world.tree := by
  cases a with
  | change tree => exact absurd rfl (hchange tree)
  | emitter | memory | rebuild => rfl
  | die n looks =>
      cases hstage : s.stages[n]? with
      | none => simp [Session.step, hstage]
      | some stage =>
          obtain ⟨bs, htook⟩ := stage.tracker.collect_took stage.paths
            { stage.world with outlet := stage.world.outlet.withToken looks }
          simp only [Session.step, hstage]
          exact htook.tree.trans (h.aside (List.mem_of_getElem? hstage)).2
  | start => exact s.start_world.1
  | stop =>
      cases hphase : s.consumer.phase with
      | stopped k | running k | lost | crashed =>
          simp [Session.step, Consumer.stop, hphase, World.log]
  | poll =>
      cases hphase : s.consumer.phase with
      | stopped k | lost | crashed => simp [Session.step, Consumer.poll, hphase]
      | running k =>
          rw [step_poll hphase]
          exact (poll_aside ⟨h.running hphase, rfl⟩).1.tree

def Growing (kind : (Nat → Verdict) → Prop) : FileTree → List Act → Prop
  | _, [] => True
  | t, .change tree :: acts => t.Grows tree ∧ Countable tree ∧ Growing kind tree acts
  | t, .emitter verdict _ :: acts => kind verdict ∧ Growing kind t acts
  | t, _ :: acts => Growing kind t acts

theorem allows {kind : (Nat → Verdict) → Prop} {acts : List Act} (h : s.InMemory)
    (hcount : Countable s.world.tree) (hacts : Growing kind s.world.tree acts) :
    s.Allows (Lawful kind) acts := by
  induction acts generalizing s with
  | nil => exact trivial
  | cons a acts ih =>
      cases a with
      | change tree => exact ⟨⟨hacts.1, hacts.2.1⟩, ih (h.step _) hacts.2.1 hacts.2.2⟩
      | emitter verdict looks => exact ⟨hacts.1, ih (h.step _) hcount hacts.2⟩
      | poll =>
          have hsame := h.tree_step .poll (by simp)
          exact ⟨fun stage hstage => h.lawful hcount hstage,
            ih (h.step _) (by rwa [hsame]) (by rwa [hsame])⟩
      | die n looks =>
          have hsame := h.tree_step (.die n looks) (by simp)
          exact ⟨fun stage hstage => h.lawful hcount (List.mem_of_mem_take hstage),
            ih (h.step _) (by rwa [hsame]) (by rwa [hsame])⟩
      | memory | start | stop | rebuild =>
          refine ⟨trivial, ih (h.step _) ?_ ?_⟩
          · rwa [h.tree_step _ (by simp)]
          · rwa [h.tree_step _ (by simp)]

end InMemory

def followLogs : Config :=
  { Config.default with includes := ["*.log"], startAt := .beginning, maxConcurrentFiles := 2 }

def logFollower : Consumer := .ofParts ⟨["*.log"], [], none⟩ followLogs.policy followLogs.settings

theorem ofConfig_followLogs : Consumer.ofConfig followLogs = .ok logFollower := rfl

def ofFiles (files : List (String × Bool × Bytes)) : FileTree :=
  ⟨[.directory, .directory, .directory] ++ files.map fun f => .file f.2.2,
    files.mapIdx fun i f => ⟨FileTree.home, f.1, i + 3, f.2.1⟩⟩

end Session

end LogTail
