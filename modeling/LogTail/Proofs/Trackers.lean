import LogTail.Proofs.Sessions

namespace LogTail

open Tracker

namespace Tracker

/-- Everything that is done to a tracker preserves what it is said of. A batch has no more paths than
the settings of the tracker allow. -/
structure Lasting (I : Tracker → Prop) : Prop where
  begun {k : Tracker} : I k → I { k with gathered := [] }
  beginning {k : Tracker} : I k → I k.readFromBeginning
  recollected {k : Tracker} (e : Metadata) : I k → I (k.recollect e)
  trimmed {k : Tracker} : I k → I k.trim
  closed {k : Tracker} : I k → I k.closeReaders
  stored {k : Tracker} (store : Option Store) : I k → I { k with store }
  collected {k : Tracker} {paths : List Path} (w : World) :
    I k → paths.length ≤ max k.settings.batchFiles 1 → I (k.collect paths w).1

/-- The same of whole operations: what is said of a tracker holds again when one is done, though it need
not in the middle of one. -/
structure Enduring (I : Tracker → Prop) : Prop where
  begun {k : Tracker} : I k → I { k with gathered := [] }
  beginning {k : Tracker} : I k → I k.readFromBeginning
  closed {k : Tracker} : I k → I k.closeReaders
  stored {k : Tracker} (store : Option Store) : I k → I { k with store }
  resumed {k : Tracker} (files : List Metadata) : I k → I (k.resume files)
  read {k k' : Tracker} {paths : List Path} {w : World} :
    I k → paths.length ≤ max k.settings.batchFiles 1 → (k.readBatch paths w).1 = some k' → I k'

namespace Lasting

variable {I : Tracker → Prop} (hI : Lasting I) {k : Tracker} {w : World}
include hI

theorem resume (h : I k) (files : List Metadata) : I (k.resume files) := by
  have hfold (k : Tracker) (h : I k) : I (files.foldl recollect k) := by
    induction files generalizing k with
    | nil => exact h
    | cons e files ih => exact ih _ (hI.recollected e h)
  unfold Tracker.resume
  split
  · exact h
  · exact hI.trimmed (hfold _ (hI.beginning h))

theorem readBatch {k' : Tracker} {paths : List Path} (h : I k)
    (hpaths : paths.length ≤ max k.settings.batchFiles 1)
    (hk : (k.readBatch paths w).1 = some k') : I k' := by
  rw [readBatch_eq] at hk
  rw [save_tracker hk]
  exact hI.stored _ (hI.trimmed (hI.collected w h hpaths))

theorem enduring : Enduring I where
  begun := hI.begun
  beginning := hI.beginning
  closed := hI.closed
  stored := hI.stored
  resumed files h := hI.resume h files
  read := hI.readBatch

end Lasting

namespace Enduring

variable {I : Tracker → Prop} (hI : Enduring I) {k : Tracker}
include hI

theorem poll (h : I k) (w : World) :
    (∀ k', (k.poll w).1 = some k' → I k') ∧
      ∀ stage ∈ k.stages w,
        I stage.tracker ∧ stage.paths.length ≤ max stage.tracker.settings.batchFiles 1 := by
  have hbatch {stage : Stage} (hstage : stage ∈ k.stages w) :
      stage.paths.length ≤ max k.settings.batchFiles 1 :=
    length_of_mem_chunks (by omega) (paths_of_mem_stagesFrom hstage)
  -- the settings that bound the batches stay those of the poll
  have hread {stage : Stage} (hstage : stage ∈ k.stages w) {k' : Tracker}
      (hk : I stage.tracker ∧ stage.tracker.settings = k.settings) (hk' : stage.read.1 = some k') :
      I k' ∧ k'.settings = k.settings := by
    exact ⟨hI.read hk.1 (hk.2 ▸ hbatch hstage) hk', (readBatch_settings hk').trans hk.2⟩
  obtain ⟨hend, hall⟩ := readBatches_runs (P := fun k' _ => I k' ∧ k'.settings = k.settings)
    (Q := fun o _ => ∀ k', o = some k' → I k') (chunks_ne_nil _ _)
    (fun stage hstage k' hk hk' _ => hread hstage hk hk')
    (fun stage hstage hk k' hk' => (hread hstage hk hk').1)
    (fun _ _ h => h)
    (fun k w hk k' hbegin => by
      cases hbegin
      exact hI.beginning (hk k rfl))
    ⟨hI.begun h, rfl⟩
  refine ⟨hend, fun stage hstage => ⟨(hall stage hstage).1, ?_⟩⟩
  rw [(hall stage hstage).2]
  exact hbatch hstage

end Enduring

end Tracker

def Consumer.Always (I : Tracker → Prop) (c : Consumer) : Prop :=
  ∀ k, c.phase = .stopped k ∨ c.phase = .running k → I k

namespace Consumer.Always

variable {I : Tracker → Prop} {c : Consumer}

theorem ofConfig {conf : Config} (h : Consumer.ofConfig conf = .ok c)
    (hparts : ∀ selector, I (.ofParts selector conf.policy conf.settings)) : c.Always I := by
  obtain ⟨_, selector, rfl⟩ := ofConfig_ok h
  rintro k (hk | hk)
  · cases hk
    exact hparts selector
  · cases hk

variable (hI : Enduring I)
include hI

theorem start (h : c.Always I) (store : Store) (w : World) : (c.start store w).2.1.Always I := by
  rcases Session.start_cases c store w with
    ⟨e, w', hstart, _⟩ | ⟨k, files, format, w', hphase, _, hstart, _⟩
  · rwa [hstart]
  · rw [hstart]
    rintro k' (hk | hk)
    · cases hk
    · cases hk
      exact hI.stored _ (hI.resumed files (h k (.inl hphase)))

theorem stop (h : c.Always I) (w : World) : (c.stop w).2.1.Always I := by
  unfold Consumer.stop
  cases hphase : c.phase with
  | stopped k | lost => exact h
  | running k =>
      rintro k' (hk | hk)
      · cases hk
        exact hI.closed (h k (.inr hphase))
      · cases hk
  | crashed => rintro k' (hk | hk) <;> cases hk

theorem poll (h : c.Always I) (w : World) : (c.poll w).1.Always I := by
  unfold Consumer.poll
  cases hphase : c.phase with
  | stopped k | lost | crashed => exact h
  | running k =>
      have hpoll := (hI.poll (h k (.inr hphase)) w).1
      dsimp only
      cases hend : k.poll w with
      | mk o w' =>
          rw [hend] at hpoll
          cases o with
          | none => rintro k' (hk | hk) <;> cases hk
          | some k₁ =>
              rintro k' (hk | hk)
              · cases hk
              · cases hk
                exact hpoll k₁ rfl

end Consumer.Always

namespace Session

/-- A tracker of a session: the one it rests with, or that of a stage of its next poll. -/
def HasTracker (s : Session) (k : Tracker) : Prop :=
  s.tracker? = some k ∨ ∃ stage ∈ s.stages, stage.tracker = k

theorem always_tracker {I : Tracker → Prop} {s : Session} {k : Tracker} (h : s.consumer.Always I)
    (hk : s.tracker? = some k) : I k := by
  unfold tracker? at hk
  cases hphase : s.consumer.phase with
  | stopped k' | running k' =>
      rw [hphase] at hk
      cases hk
      first | exact h k (.inl hphase) | exact h k (.inr hphase)
  | crashed | lost => simp [hphase] at hk

section Lasts

variable {I : Tracker → Prop} (hI : Enduring I) {s : Session}
include hI

theorem always_stage {stage : Stage} (h : s.consumer.Always I) (hstage : stage ∈ s.stages) :
    I stage.tracker ∧ stage.paths.length ≤ max stage.tracker.settings.batchFiles 1 := by
  cases hphase : s.consumer.phase with
  | running k =>
      rw [stages_running hphase] at hstage
      exact (hI.poll (h k (.inr hphase)) s.world).2 stage hstage
  | stopped k | crashed | lost => simp [stages, hphase] at hstage

theorem step_always (h : s.consumer.Always I) (horigin : s.origin.Always I) (a : Act) :
    (s.step a).consumer.Always I := by
  cases a with
  | change | emitter | memory => exact h
  | start => exact h.start hI _ _
  | stop => exact h.stop hI _
  | poll => exact h.poll hI _
  | rebuild => exact horigin
  | die n looks =>
      simp only [step]
      split <;> exact horigin

theorem run_always (h : s.consumer.Always I) (horigin : s.origin.Always I) (acts : List Act) :
    (s.run acts).consumer.Always I := by
  induction acts generalizing s with
  | nil => exact h
  | cons a acts ih => exact ih (step_always hI h horigin a) (by rwa [s.step_origin])

/-- What endures, and holds of the tracker of a consumer as it is built, holds of every tracker of every
session. -/
theorem HasTracker.lasts {c : Config} {k : Tracker} {acts : List Act} (hk : (s.run acts).HasTracker k)
    (hbuilt : Consumer.ofConfig c = .ok s.origin) (hconsumer : s.consumer = s.origin)
    (hparts : ∀ selector, I (.ofParts selector c.policy c.settings)) : I k := by
  have horigin : s.origin.Always I := .ofConfig hbuilt hparts
  have hrun := run_always hI (hconsumer ▸ horigin) horigin acts
  rcases hk with hk | ⟨stage, hstage, rfl⟩
  · exact always_tracker hrun hk
  · exact (always_stage hI hrun hstage).1

end Lasts

end Session

end LogTail
