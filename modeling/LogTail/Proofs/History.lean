import LogTail.Proofs.Fates
import LogTail.Proofs.Handles
import LogTail.Proofs.Tracking
import Mathlib.Data.List.DropRight
import Mathlib.Data.List.Forall2
import Mathlib.Data.List.ReduceOption

namespace LogTail

open Tracker

/-- What reading leaves of a reader once some batches were handed over: the reader as it comes out, or
nothing if the emitter dies. -/
def Reader.Remains (w : World) (r : Reader) (left : Option Reader) : Prop :=
  ∃ o bs, w.outlet.Took o bs ∧
    left = if (r.readIn w.tree o).1 = .crashed then none else some (r.readIn w.tree o).2.1

theorem Reader.Remains.before {w w' : World} {bs : List Batch} (htook : w.Took w' bs) {r : Reader}
    {left : Option Reader} (h : r.Remains w' left) : r.Remains w left := by
  obtain ⟨o, cs, htook', hleft⟩ := h
  rw [htook.tree] at hleft
  exact ⟨o, bs ++ cs, htook.outlet.trans htook', hleft⟩

theorem Reader.Remains.isSome {w : World} (hlives : ∀ i, w.outlet.verdict i ≠ .acceptAndCrash)
    {r : Reader} {left : Option Reader} (h : r.Remains w left) : left.isSome := by
  obtain ⟨o, bs, htook, rfl⟩ := h
  rw [if_neg]
  · rfl
  · intro hcrashed
    unfold readIn at hcrashed
    cases hh : r.handle with
    | none => simp [hh] at hcrashed
    | some handle =>
        rw [hh] at hcrashed
        obtain ⟨_, _, _, hdelivery⟩ := r.read_delivers (w.tree.content handle.node) o
        obtain ⟨i, hi⟩ := hdelivery.crashed hcrashed
        exact hlives i (htook.verdict ▸ hi)

namespace Tracker

theorem drain_remains (rs : List Reader) (w : World) :
    ∃ left, List.Forall₂ (Reader.Remains w) rs left ∧ (drain rs w).1 = left.reduceOption ∧
      ((∀ i, w.outlet.verdict i ≠ .acceptAndCrash) → ∀ l ∈ left, l.isSome) := by
  induction rs generalizing w with
  | nil => exact ⟨[], .nil, rfl, by simp⟩
  | cons r rs ih =>
      obtain ⟨bs, htook⟩ := drainOne_took r w
      obtain ⟨left, hleft, hdrain, hall⟩ := ih (drainOne r w).2
      have hone : r.Remains w (drainOne r w).1 := ⟨w.outlet, [], .refl _, drainOne_left r w⟩
      refine ⟨(drainOne r w).1 :: left, .cons hone (hleft.imp fun _ _ h => h.before htook), ?_,
        fun hlives l hl => ?_⟩
      · rw [drain_cons, hdrain]
        cases (drainOne r w).1 with
        | none => rw [List.reduceOption_cons_of_none]; rfl
        | some r' => rw [List.reduceOption_cons_of_some]; rfl
      · rcases List.mem_cons.mp hl with rfl | hl
        · exact hone.isSome hlives
        · rw [htook.outlet.verdict] at hall
          exact hall hlives l hl

/-- The readers of a batch as they are built, newest first, and what that leaves of the two lists that a
tracker keeps. A new reader takes the newest of them all that its fingerprint goes on from. -/
inductive Builds (k : Tracker) : List Reader → List Reader → List Reader → Prop
  | start : k.Builds [] k.known k.previous
  | takesPrevious {built known front back : List Reader} {old new : Reader}
      (before : k.Builds built known (front ++ old :: back))
      (goes : new.fingerprint.startsWith old.fingerprint = true) (offset : new.offset = old.offset)
      (newest : ∀ r ∈ back, new.fingerprint.startsWith r.fingerprint = false) :
      k.Builds (new :: built) known (front ++ back)
  | takesKnown {built front back previous : List Reader} {old new : Reader}
      (before : k.Builds built (front ++ old :: back) previous)
      (goes : new.fingerprint.startsWith old.fingerprint = true) (offset : new.offset = old.offset)
      (newest : ∀ r ∈ back ++ previous, new.fingerprint.startsWith r.fingerprint = false) :
      k.Builds (new :: built) (front ++ back) previous
  | anew {built known previous : List Reader} {new : Reader} (before : k.Builds built known previous)
      (none : ∀ r ∈ known ++ previous, new.fingerprint.startsWith r.fingerprint = false) :
      k.Builds (new :: built) known previous

theorem readerFor_builds {k k' : Tracker} {built : List Reader} (h : k.Builds built k'.known k'.previous)
    (t : FileTree) (handle : Handle) (fp : Fingerprint) (path : Path) :
    k.Builds ((k'.readerFor t handle fp path).1 :: built) (k'.readerFor t handle fp path).2.known
      (k'.readerFor t handle fp path).2.previous := by
  unfold readerFor recognise
  cases hp : takeLast (fun r : Reader => fp.startsWith r.fingerprint) k'.previous with
  | some taken =>
      obtain ⟨front, back, hsplit, hrest, hold, hback⟩ := takeLast_some (b := taken.1) hp
      dsimp only
      rw [hsplit] at h
      rw [hrest]
      exact .takesPrevious h (by simpa using hold) (by simp; rfl) (by simpa using hback)
  | none =>
      have hprevious := takeLast_none hp
      cases hk : takeLast (fun r : Reader => fp.startsWith r.fingerprint) k'.known with
      | some taken =>
          obtain ⟨front, back, hsplit, hrest, hold, hback⟩ := takeLast_some (b := taken.1) hk
          dsimp only
          rw [hsplit] at h
          rw [hrest]
          refine .takesKnown h (by simpa using hold) (by simp; rfl) fun r hr => ?_
          rcases List.mem_append.mp hr with hr | hr
          · simpa using hback r hr
          · simpa using hprevious r hr
      | none =>
          refine .anew h fun r hr => ?_
          rcases List.mem_append.mp hr with hr | hr
          · simpa using takeLast_none hk r hr
          · simpa using hprevious r hr

theorem opened_builds (k : Tracker) (paths : List Path) (w : World) :
    k.Builds (k.opened paths w).readers (k.opened paths w).tracker.known
      (k.opened paths w).tracker.previous := by
  induction paths using List.reverseRecOn with
  | nil => exact .start
  | append_singleton paths path ih =>
      have hsnoc : k.opened (paths ++ [path]) w = openPath (k.opened paths w) path := by simp [opened]
      rw [hsnoc]
      generalize k.opened paths w = s at ih ⊢
      unfold openPath
      split
      · exact ih
      · split
        · exact ih
        · rw [← watch_known s.tracker path s.world,
            ← (watch_steady s.tracker path s.world).2.2.1] at ih
          exact readerFor_builds ih _ _ _ _

/-- What a batch leaves before anything is forgotten: the known readers that it did not take, those of the
last batch that it did not take, first the ones that stayed, and the readers that it built. -/
theorem collect_kept (k : Tracker) (paths : List Path) (w : World) :
    let o := k.opened paths w
    ∃ drained read : List (Option Reader),
      List.Forall₂ (Reader.Remains o.world) o.lost drained ∧
      List.Forall₂ (Reader.Remains o.world) o.readers.reverse read ∧
      (k.collect paths w).1.kept =
        o.tracker.known ++ (o.stayed ++ drained.reduceOption).map Reader.close ++ read.reduceOption ∧
      (k.collect paths w).1.previous = read.reduceOption ∧
      ((∀ i, w.outlet.verdict i ≠ .acceptAndCrash) → ∀ left ∈ drained ++ read, left.isSome) := by
  intro o
  obtain ⟨drained, hdrained, hlost, hlives⟩ := drain_remains o.lost o.world
  obtain ⟨read, hreads, hreaders, hlives'⟩ := drain_remains o.readers.reverse (drain o.lost o.world).2
  obtain ⟨bs, htook⟩ := drain_took o.lost o.world
  have hverdict : o.world.outlet.verdict = w.outlet.verdict :=
    (k.opened_steady paths w).2.outlet.verdict
  rw [htook.outlet.verdict] at hlives'
  rw [hverdict] at hlives hlives'
  refine ⟨drained, read, hdrained, hreads.imp fun _ _ h => h.before htook, ?_, ?_,
    fun hnever left hleft => ?_⟩
  · rw [collect_eq, ← hlost, ← hreaders]
    rfl
  · rw [collect_eq, ← hreaders]
  · rcases List.mem_append.mp hleft with hleft | hleft
    · exact hlives hnever left hleft
    · exact hlives' hnever left hleft

/-- Unless the readers of the last batch are too many themselves, just the newest readers stay. -/
theorem trim_kept {k : Tracker} (h : k.previous.length ≤ k.settings.capacity) :
    k.trim.kept = k.kept.rtake k.settings.capacity := by
  simp only [List.rtake, kept]
  rw [List.length_append, List.drop_append_of_le_length (by omega)]
  rfl

theorem length_trim_kept {k : Tracker} (h : k.previous.length ≤ k.settings.capacity) :
    k.trim.kept.length ≤ k.settings.capacity := by
  rw [trim_kept h, List.rtake, List.length_drop]
  omega

structure Bounded (n cap : Nat) (k : Tracker) : Prop where
  frugal : k.Frugal n
  capacity : k.settings.capacity = cap
  kept : k.kept.length ≤ cap

theorem Bounded.enduring {n cap : Nat} (hcap : n ≤ cap) : Enduring (Bounded n cap) where
  begun h := ⟨Frugal.lasting.begun h.frugal, h.capacity, h.kept⟩
  beginning h := ⟨Frugal.lasting.beginning h.frugal, h.capacity, h.kept⟩
  closed h := by
    refine ⟨Frugal.lasting.closed h.frugal, h.capacity, ?_⟩
    rw [closeReaders_kept, List.length_map]
    exact h.kept
  stored store h := ⟨Frugal.lasting.stored store h.frugal, h.capacity, h.kept⟩
  resumed {k} files h := by
    have hfrugal := Frugal.lasting.resumed files h.frugal
    unfold resume at hfrugal ⊢
    split at hfrugal
    · next hempty =>
        rw [if_pos hempty]
        exact h
    · next hempty =>
        rw [if_neg hempty]
        obtain ⟨hsteady, hprevious⟩ := k.readFromBeginning.foldl_recollect_steady files
        generalize files.foldl recollect k.readFromBeginning = k' at hfrugal hsteady hprevious ⊢
        have hcapacity : k'.settings.capacity = cap := by
          rw [hsteady.settings]
          exact h.capacity
        refine ⟨hfrugal, hcapacity, ?_⟩
        rw [← hcapacity]
        apply length_trim_kept
        rw [hcapacity, hprevious]
        exact Nat.le_trans h.frugal.previous hcap
  read {k k' paths w} h hpaths hk := by
    have hsettings := readBatch_settings hk
    refine ⟨Frugal.lasting.read h.frugal hpaths hk, by rw [hsettings, h.capacity], ?_⟩
    have hcollected := h.frugal.collect (h.frugal.batch ▸ hpaths) (w := w)
    rw [readBatch_eq] at hk
    have hcapacity : (k.collect paths w).1.settings.capacity = cap := by
      rw [(k.collect_alike paths w).1.settings, h.capacity]
    rw [save_tracker hk, ← hcapacity]
    apply length_trim_kept
    rw [hcapacity]
    exact Nat.le_trans hcollected.previous hcap

theorem Bounded.ofParts (c : Config) (selector : Selector) :
    (ofParts selector c.policy c.settings).Bounded (max c.batchFiles 1) c.capacity :=
  ⟨⟨rfl, Nat.zero_le _, by simp [Tracker.ofParts]⟩, rfl, Nat.zero_le _⟩

end Tracker

namespace Session

/-- After every act of a session no more readers are remembered than a configuration allows, and what a
batch leaves are the newest of these: the known readers that it did not take, the readers of the last
batch that it did not take, those that stayed before those that were drained, and the readers it built.
Only a reader whose emitter dies is not among them. -/
theorem history_newest {c : Config} {s : Session} (hbuilt : Consumer.ofConfig c = .ok s.origin)
    (hconsumer : s.consumer = s.origin) (acts : List Act) :
    (∀ k, (s.run acts).HasTracker k → k.kept.length ≤ c.capacity) ∧
      ∀ stage ∈ (s.run acts).stages, ∀ k', stage.read.1 = some k' →
        let o := stage.tracker.opened stage.paths stage.world
        stage.tracker.Builds o.readers o.tracker.known o.tracker.previous ∧
        k'.kept.length ≤ c.capacity ∧
        ∃ drained read : List (Option Reader),
          List.Forall₂ (Reader.Remains o.world) o.lost drained ∧
          List.Forall₂ (Reader.Remains o.world) o.readers.reverse read ∧
          k'.kept = (o.tracker.known ++ (o.stayed ++ drained.reduceOption).map Reader.close ++
            read.reduceOption).rtake c.capacity ∧
          k'.previous = read.reduceOption ∧
          ((∀ i, stage.world.outlet.verdict i ≠ .acceptAndCrash) →
            ∀ left ∈ drained ++ read, left.isSome) := by
  have hvalid := (Consumer.ofConfig_ok hbuilt).1
  have hcap : max c.batchFiles 1 ≤ c.capacity := by
    have hfiles := hvalid.files
    have hcapacity := hvalid.capacity
    simp only [Config.batchFiles] at hcapacity ⊢
    omega
  have hI : Enduring (Tracker.Bounded (max c.batchFiles 1) c.capacity) := Bounded.enduring hcap
  have hparts := Tracker.Bounded.ofParts c
  refine ⟨fun k hk => (hk.lasts hI hbuilt hconsumer hparts).kept, fun stage hstage k' hread => ?_⟩
  have horigin : s.origin.Always (Tracker.Bounded (max c.batchFiles 1) c.capacity) :=
    .ofConfig hbuilt hparts
  obtain ⟨hk, hpaths⟩ := always_stage hI (run_always hI (hconsumer ▸ horigin) horigin acts) hstage
  obtain ⟨k, paths, w⟩ := stage
  intro o
  obtain ⟨drained, read, hdrained, hreads, hcollect, hprevious, hlives⟩ := k.collect_kept paths w
  have hcapacity : (k.collect paths w).1.settings.capacity = c.capacity := by
    rw [(k.collect_alike paths w).1.settings, hk.capacity]
  have hfew : (k.collect paths w).1.previous.length ≤ (k.collect paths w).1.settings.capacity := by
    rw [hcapacity]
    exact Nat.le_trans (hk.frugal.collect (hk.frugal.batch ▸ hpaths)).previous hcap
  -- saving changes nothing but the store
  have hsaved : k' = { (k.collect paths w).1.trim with store := k'.store } :=
    save_tracker (k := (k.collect paths w).1.trim) (w := (k.collect paths w).2) hread
  have hkept : k'.kept = (k.collect paths w).1.trim.kept := by
    rw [hsaved]
    rfl
  have hlast : k'.previous = (k.collect paths w).1.previous := by
    rw [hsaved]
    rfl
  have hbound : k'.kept.length ≤ c.capacity := by
    rw [hkept, ← hcapacity]
    exact length_trim_kept hfew
  rw [trim_kept hfew, hcapacity, hcollect] at hkept
  exact ⟨k.opened_builds paths w, hbound, drained, read, hdrained, hreads, hkept,
    hlast.trans hprevious, hlives⟩

def followNewest : Config := { followLogs with knownFilesCapacity := some 1 }

def newestFollower : Consumer := .ofParts ⟨["*.log"], [], none⟩ followNewest.policy followNewest.settings

theorem ofConfig_followNewest : Consumer.ofConfig followNewest = .ok newestFollower := rfl

theorem history_newest_one :
    let s := (ofConsumer newestFollower
      (ofFiles [("a.log", true, [97, 10]), ("b.log", true, [98, 10])])).run [.start]
    Consumer.ofConfig followNewest = .ok s.origin ∧
      ∃ stage ∈ s.stages, ∃ k', stage.paths = [⟨"b.log"⟩] ∧ stage.read.1 = some k' ∧
        stage.tracker.kept.map Reader.path = [⟨"a.log"⟩] ∧ k'.kept.map Reader.path = [⟨"b.log"⟩] ∧
        k'.kept.length ≤ followNewest.capacity ∧
        let o := stage.tracker.opened stage.paths stage.world
        stage.tracker.Builds o.readers o.tracker.known o.tracker.previous := by
  intro s
  have hstages : s.stages[1]?.map (fun stage => (stage.paths, stage.tracker.kept.map Reader.path,
      stage.read.1.map fun k' => k'.kept.map Reader.path)) =
        some ([⟨"b.log"⟩], [⟨"a.log"⟩], some [⟨"b.log"⟩]) := by decide +kernel
  obtain ⟨stage, hstage, hfields⟩ := Option.map_eq_some_iff.mp hstages
  simp only [Prod.mk.injEq] at hfields
  obtain ⟨hpaths, hbefore, hread⟩ := hfields
  obtain ⟨k', hread, hafter⟩ := Option.map_eq_some_iff.mp hread
  have hmem : stage ∈ s.stages := List.mem_of_getElem? hstage
  obtain ⟨-, hall⟩ := history_newest ofConfig_followNewest (s := ofConsumer newestFollower _) rfl [.start]
  obtain ⟨hbuilds, hfew, -⟩ := hall stage hmem k' hread
  exact ⟨ofConfig_followNewest, stage, hmem, k', hpaths, hread, hbefore, hafter, hfew, hbuilds⟩

/-- A log with a line more, and an emitter that dies when it gets that line. -/
theorem built_reader_dropped :
    let s := (ofConsumer logFollower (ofFiles [("a.log", true, [97, 10])])).run
      [.start, .poll, .change (ofFiles [("a.log", true, [97, 10, 98, 10])]),
        .emitter (fun i => if i = 1 then .acceptAndCrash else .accept) []]
    Consumer.ofConfig followLogs = .ok s.origin ∧
      ∃ stage ∈ s.stages, ∃ k', stage.read.1 = some k' ∧
        (stage.tracker.opened stage.paths stage.world).readers.map Reader.path = [⟨"a.log"⟩] ∧
        0 < followLogs.capacity ∧ k'.kept = [] := by
  intro s
  have hstages : s.stages.map (fun stage =>
      ((stage.tracker.opened stage.paths stage.world).readers.map Reader.path,
        stage.read.1.map fun k' => k'.kept.length)) = [([⟨"a.log"⟩], some 0)] := by decide +kernel
  obtain ⟨stage, hstage, hfields⟩ := List.map_eq_singleton_iff.mp hstages
  obtain ⟨hbuilt, hread⟩ := Prod.mk.inj hfields
  obtain ⟨k', hread, hkept⟩ := Option.map_eq_some_iff.mp hread
  exact ⟨ofConfig_followLogs, stage, by simp [hstage], k', hread, hbuilt, by decide,
    List.length_eq_zero_iff.mp hkept⟩

end Session

end LogTail
