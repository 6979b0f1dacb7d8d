import LogTail.Proofs.InMemory
import LogTail.Proofs.Openings
import LogTail.Proofs.Trackers

namespace LogTail

open Tracker

/-- The readers that a tracker holds at a point of a batch: the two lists it keeps, those in hand, and
the file just opened. -/
structure Moment where
  known : List Reader
  previous : List Reader
  inHand : List Reader
  found : Option Handle

namespace Moment

def handles (m : Moment) : List Handle :=
  (m.known ++ m.previous ++ m.inHand).filterMap Reader.handle ++ m.found.toList

theorem handles_le {m : Moment} (hclosed : ∀ r ∈ m.known, r.handle = none) :
    m.handles.length ≤ m.previous.length + m.inHand.length + m.found.toList.length := by
  have hknown : m.known.filterMap Reader.handle = [] := List.filterMap_eq_nil_iff.mpr hclosed
  have hprevious := List.length_filterMap_le Reader.handle m.previous
  have hhand := List.length_filterMap_le Reader.handle m.inHand
  simp only [handles, List.filterMap_append, hknown, List.nil_append, List.length_append]
  omega

theorem handles_closed {m : Moment} {r : Reader} {rs : List Reader} (hhand : m.inHand = r :: rs)
    (hr : r.handle = none) : m.handles = { m with inHand := rs }.handles := by
  simp [handles, hhand, hr]

end Moment

namespace Tracker

def rest (k : Tracker) : Moment := ⟨k.known, k.previous, [], none⟩

/-- The moments of a stage. Its paths are opened one by one, which may take a reader out of the lists;
then those of the last batch that are lost are drained, those of this one are read, and what is left of
the last batch is closed and remembered. -/
inductive Stage.Passes (stage : Stage) : Moment → Prop
  | opening {done left : List Path} {s : Opening} (hpaths : stage.paths = done ++ left)
      (hs : s = stage.tracker.opened done stage.world) :
      stage.Passes ⟨s.tracker.known, s.tracker.previous, s.readers, none⟩
  | found {done left : List Path} {path : Path} {s : Opening} {h : Handle}
      (hpaths : stage.paths = done ++ path :: left) (hs : s = stage.tracker.opened done stage.world)
      (hopen : s.world.tree.openFile path = .ok h) :
      stage.Passes ⟨s.tracker.known, s.tracker.previous, s.readers, some h⟩
  | recognised {done left : List Path} {path : Path} {s : Opening} {h : Handle} {fp : Fingerprint}
      {old : Reader} {k : Tracker} (hpaths : stage.paths = done ++ path :: left)
      (hs : s = stage.tracker.opened done stage.world)
      (hid : s.tracker.identify s.world.tree path = some (h, fp))
      (hnew : s.fingerprints.any (·.agrees fp) = false)
      (hold : (s.tracker.watch path s.world).1.recognise fp = (some old, k)) :
      stage.Passes ⟨k.known, k.previous, old :: s.readers, some h⟩
  | draining {done left : List Reader} {s : Opening}
      (hs : s = stage.tracker.opened stage.paths stage.world) (hlost : s.lost = done ++ left) :
      stage.Passes
        ⟨s.tracker.known, [], s.readers ++ s.stayed ++ (drain done s.world).1 ++ left, none⟩
  | reading {done left : List Reader} {s : Opening} {drained : List Reader × World}
      (hs : s = stage.tracker.opened stage.paths stage.world) (hdrained : drained = drain s.lost s.world)
      (hreaders : s.readers.reverse = done ++ left) :
      stage.Passes
        ⟨s.tracker.known, [], s.stayed ++ drained.1 ++ (drain done drained.2).1 ++ left, none⟩
  | remembering {done left : List Reader} {s : Opening} {drained read : List Reader × World}
      (hs : s = stage.tracker.opened stage.paths stage.world) (hdrained : drained = drain s.lost s.world)
      (hread : read = drain s.readers.reverse drained.2) (hparts : s.stayed ++ drained.1 = done ++ left) :
      stage.Passes ⟨s.tracker.known ++ done.map Reader.close, [], left ++ read.1, none⟩
  | ended : stage.Passes (stage.tracker.collect stage.paths stage.world).1.trim.rest

theorem drain_length (rs : List Reader) (w : World) : (drain rs w).1.length ≤ rs.length := by
  simpa using (drain_sublist rs w).length_le

theorem opened_readers_length (k : Tracker) (paths : List Path) (w : World) :
    (k.opened paths w).readers.length ≤ paths.length := by
  induction paths using List.reverseRecOn with
  | nil => exact Nat.le_refl _
  | append_singleton paths path ih =>
      rw [List.length_append, List.length_singleton]
      rcases (k.opened_opens paths path w).eq_or_built with hsame | ⟨_, _, _, _, _, hreaders⟩
      · exact hsame ▸ Nat.le_succ_of_le ih
      · rw [hreaders]
        exact Nat.succ_le_succ ih

theorem recognise_takes {k k' : Tracker} {fp : Fingerprint} {old : Reader}
    (h : k.recognise fp = (some old, k')) :
    (k'.known = k.known ∧ k.previous.length = k'.previous.length + 1) ∨
      (k'.previous = k.previous ∧ old ∈ k.known ∧ k'.known.Sublist k.known) := by
  unfold recognise at h
  cases hp : takeLast (fun r : Reader => fp.startsWith r.fingerprint) k.previous with
  | some taken =>
      obtain ⟨front, back, hsplit, hrest, _⟩ := takeLast_some (b := taken.1) hp
      rw [hp] at h
      cases h
      refine .inl ⟨rfl, ?_⟩
      simp [hsplit, hrest, Nat.add_assoc]
  | none =>
      cases hk : takeLast (fun r : Reader => fp.startsWith r.fingerprint) k.known with
      | none => simp [hp, hk] at h
      | some taken =>
          obtain ⟨front, back, hsplit, hrest, _⟩ := takeLast_some (b := taken.1) hk
          rw [hp, hk] at h
          cases h
          refine .inr ⟨rfl, by simp [hsplit], ?_⟩
          rw [hsplit, hrest]
          exact (List.sublist_cons_self _ _).append_left _

theorem watch_known (k : Tracker) (path : Path) (w : World) : (k.watch path w).1.known = k.known := by
  unfold watch
  split <;> rfl

theorem readerFor_known (k : Tracker) (t : FileTree) (h : Handle) (fp : Fingerprint) (path : Path) :
    (k.readerFor t h fp path).2.known.Sublist k.known := by
  unfold readerFor
  cases hrec : k.recognise fp with
  | mk old? k' =>
      cases old? with
      | none =>
          have hsame := (recognise_none (congrArg Prod.fst hrec)).1
          rw [hrec] at hsame
          exact hsame ▸ List.Sublist.refl _
      | some old =>
          rcases recognise_takes hrec with ⟨hknown, _⟩ | ⟨_, _, hknown⟩
          · exact hknown ▸ List.Sublist.refl _
          · exact hknown

theorem openPath_known (s : Opening) (path : Path) :
    (openPath s path).tracker.known.Sublist s.tracker.known := by
  unfold openPath
  split
  · exact List.Sublist.refl _
  · split
    · exact List.Sublist.refl _
    · next h fp _ _ =>
        rw [← watch_known s.tracker path s.world]
        exact readerFor_known _ _ _ _ _

theorem opened_known (k : Tracker) (paths : List Path) (w : World) :
    (k.opened paths w).tracker.known.Sublist k.known :=
  List.foldlRecOn (motive := fun s => s.tracker.known.Sublist k.known) paths openPath (.refl _)
    fun s hs path _ => (openPath_known s path).trans hs

theorem lost_stayed_length (s : Opening) :
    s.lost.length + s.stayed.length = s.tracker.previous.length := by
  rw [← List.length_append]
  exact (List.filter_append_perm _ _).length_eq

/-- A tracker of batches of `n` files that remembers no more readers of the last batch than that, and
keeps nothing open but those. -/
structure Frugal (n : Nat) (k : Tracker) : Prop where
  batch : max k.settings.batchFiles 1 = n
  previous : k.previous.length ≤ n
  closed : ∀ r ∈ k.known, r.handle = none

end Tracker

structure Moment.Within (n : Nat) (m : Moment) : Prop where
  handles : m.handles.length ≤ 2 * n
  previous : m.previous.length ≤ n
  closed : ∀ r ∈ m.known, r.handle = none

theorem Moment.Within.of_lists {n : Nat} {m : Moment} (hclosed : ∀ r ∈ m.known, r.handle = none)
    (hprevious : m.previous.length ≤ n)
    (hlists : m.previous.length + m.inHand.length + m.found.toList.length ≤ 2 * n) : m.Within n :=
  ⟨Nat.le_trans (handles_le hclosed) hlists, hprevious, hclosed⟩

namespace Tracker.Frugal

variable {n : Nat} {k : Tracker} {paths : List Path} {w : World}

theorem rest (h : k.Frugal n) : k.rest.Within n :=
  .of_lists h.closed h.previous (by
    have hprevious := h.previous
    simp only [Tracker.rest, List.length_nil, Option.toList_none]
    omega)

theorem opened (h : k.Frugal n) (paths : List Path) (w : World) :
    (k.opened paths w).tracker.previous.length ≤ n ∧
      ∀ r ∈ (k.opened paths w).tracker.known, r.handle = none :=
  ⟨Nat.le_trans (k.opened_previous paths w).length_le h.previous,
    fun r hr => h.closed r ((k.opened_known paths w).subset hr)⟩

theorem collect (h : k.Frugal n) (hpaths : paths.length ≤ n) : (k.collect paths w).1.Frugal n := by
  obtain ⟨_, hclosed⟩ := h.opened paths w
  constructor
  · rw [(k.collect_alike paths w).1.settings]
    exact h.batch
  · rw [collect_eq]
    refine Nat.le_trans (drain_length _ _) ?_
    rw [List.length_reverse]
    exact Nat.le_trans (k.opened_readers_length paths w) hpaths
  · rw [collect_eq]
    intro r hr
    rcases List.mem_append.mp hr with hr | hr
    · exact hclosed r hr
    · obtain ⟨old, _, rfl⟩ := List.mem_map.mp hr
      rfl

theorem trim (h : k.Frugal n) : k.trim.Frugal n :=
  ⟨h.batch, h.previous, fun r hr => h.closed r (List.mem_of_mem_drop hr)⟩

/-- Every moment of a stage is within the budget: beside the readers of the last batch there are those
of the paths opened so far, of which the last is the file just found. -/
theorem passes {stage : Stage} {m : Moment} (h : stage.tracker.Frugal n) (hpaths : stage.paths.length ≤ n)
    (hm : stage.Passes m) : m.Within n := by
  have hopened (done : List Path) := h.opened done stage.world
  have hreaders (done : List Path) := stage.tracker.opened_readers_length done stage.world
  cases hm with
  | @opening done left s hsplit hs =>
      obtain ⟨hprevious, hclosed⟩ := hopened done
      have hlen := hreaders done
      rw [hsplit, List.length_append] at hpaths
      subst hs
      apply Moment.Within.of_lists hclosed hprevious
      simp only [Option.toList_none, List.length_nil]
      omega
  | @found done left path s _ hsplit hs =>
      obtain ⟨hprevious, hclosed⟩ := hopened done
      have hlen := hreaders done
      rw [hsplit, List.length_append, List.length_cons] at hpaths
      subst hs
      apply Moment.Within.of_lists hclosed hprevious
      simp only [Option.toList_some, List.length_singleton]
      omega
  | @recognised done left path s handle fp old k hsplit hs _ _ hold =>
      obtain ⟨hprevious, hclosed⟩ := hopened done
      have hlen := hreaders done
      rw [hsplit, List.length_append, List.length_cons] at hpaths
      subst hs
      rw [← (watch_steady _ path (stage.tracker.opened done stage.world).world).2.2.1] at hprevious
      rw [← watch_known _ path (stage.tracker.opened done stage.world).world] at hclosed
      rcases recognise_takes hold with ⟨hknown, htaken⟩ | ⟨hsame, hmem, hknown⟩
      · -- the reader taken was one of those that are open
        apply Moment.Within.of_lists (by rwa [hknown])
        · dsimp only
          omega
        · simp only [Option.toList_some, List.length_cons, List.length_nil]
          omega
      · -- the reader taken was closed and only remembered
        have hclosed' (r) (hr : r ∈ k.known) : r.handle = none := hclosed r (hknown.subset hr)
        refine ⟨?_, by rwa [hsame], hclosed'⟩
        rw [Moment.handles_closed rfl (hclosed old hmem)]
        refine Nat.le_trans (Moment.handles_le hclosed') ?_
        simp only [hsame, Option.toList_some, List.length_singleton]
        omega
  | @draining done left s hs hlost =>
      obtain ⟨hprevious, hclosed⟩ := hopened stage.paths
      have hlen := hreaders stage.paths
      have hparts := lost_stayed_length s
      have hdrained := drain_length done s.world
      rw [hlost, List.length_append] at hparts
      subst hs
      apply Moment.Within.of_lists hclosed (Nat.zero_le _)
      simp only [List.length_append, Option.toList_none, List.length_nil]
      omega
  | @reading done left s drained hs hdrained hsplit =>
      obtain ⟨hprevious, hclosed⟩ := hopened stage.paths
      have hlen := hreaders stage.paths
      have hparts := lost_stayed_length s
      have hlost := drain_length s.lost s.world
      have hread := drain_length done drained.2
      rw [← hdrained] at hlost
      rw [← hs, ← List.length_reverse, hsplit, List.length_append] at hlen
      subst hs
      apply Moment.Within.of_lists hclosed (Nat.zero_le _)
      simp only [List.length_append, Option.toList_none, List.length_nil]
      omega
  | @remembering done left s drained read hs hdrained hread hsplit =>
      obtain ⟨hprevious, hclosed⟩ := hopened stage.paths
      have hlen := hreaders stage.paths
      have hparts := lost_stayed_length s
      have hlost := drain_length s.lost s.world
      have hall := drain_length s.readers.reverse drained.2
      have hleft := congrArg List.length hsplit
      rw [← hdrained] at hlost
      rw [← hread, List.length_reverse, hs] at hall
      simp only [List.length_append] at hleft
      subst hs
      apply Moment.Within.of_lists
      · intro r hr
        rcases List.mem_append.mp hr with hr | hr
        · exact hclosed r hr
        · obtain ⟨old, _, rfl⟩ := List.mem_map.mp hr
          rfl
      · exact Nat.zero_le _
      · simp only [List.length_append, Option.toList_none, List.length_nil]
        omega
  | ended => exact (h.collect hpaths).trim.rest

theorem lasting : Enduring (Tracker.Frugal n) := Lasting.enduring {
  begun h := ⟨h.batch, h.previous, h.closed⟩
  beginning h := ⟨h.batch, h.previous, h.closed⟩
  recollected e h := by
    unfold Tracker.recollect
    split
    · exact h
    · refine ⟨h.batch, h.previous, fun r hr => ?_⟩
      rcases List.mem_append.mp hr with hr | hr
      · exact h.closed r hr
      · obtain rfl := List.mem_singleton.mp hr
        rfl
  trimmed h := h.trim
  closed h := by
    refine ⟨h.batch, ?_, fun r hr => ?_⟩
    · rw [closeReaders, List.length_map]
      exact h.previous
    · obtain ⟨old, _, rfl⟩ := List.mem_map.mp hr
      rfl
  stored _ h := ⟨h.batch, h.previous, h.closed⟩
  collected _ h hpaths := h.collect (h.batch ▸ hpaths) }

end Tracker.Frugal

def Consumer.Frugal (n : Nat) (c : Consumer) : Prop :=
  ∀ k, c.phase = .stopped k ∨ c.phase = .running k → k.Frugal n

namespace Consumer.Frugal

variable {n : Nat} {c : Consumer}

theorem ofConfig {conf : Config} (h : Consumer.ofConfig conf = .ok c) :
    c.Frugal (conf.maxConcurrentFiles / 2) := by
  obtain ⟨hvalid, selector, rfl⟩ := ofConfig_ok h
  have hfiles := hvalid.files
  rintro k (hk | hk)
  · cases hk
    refine ⟨?_, Nat.zero_le _, by simp [Tracker.ofParts]⟩
    change max (conf.maxConcurrentFiles / 2) 1 = _
    omega
  · cases hk

end Consumer.Frugal

namespace Session

/-- The moments of a session: those of the poll that would come next, and how its tracker rests. -/
def Passes (s : Session) (m : Moment) : Prop :=
  (∃ stage ∈ s.stages, stage.Passes m) ∨ ∃ k, s.tracker? = some k ∧ m = k.rest

theorem Passes.within {n : Nat} {s : Session} {m : Moment} (h : s.consumer.Frugal n)
    (hm : s.Passes m) : m.Within n := by
  rcases hm with ⟨stage, hstage, hm⟩ | ⟨k, hk, rfl⟩
  · obtain ⟨htracker, hpaths⟩ := always_stage Tracker.Frugal.lasting h hstage
    exact htracker.passes (htracker.batch ▸ hpaths) hm
  · exact (always_tracker h hk).rest

/-- Wherever a session stands, in the middle of a batch or between two polls, no more files are open than
a configuration allows. The readers of the last batch are never more than half of that, and no reader
that is only remembered holds a file. -/
theorem open_files_bounded {c : Config} {s : Session} (hbuilt : Consumer.ofConfig c = .ok s.origin)
    (hconsumer : s.consumer = s.origin) (acts : List Act) {m : Moment} (hm : (s.run acts).Passes m) :
    m.handles.length ≤ 2 * (c.maxConcurrentFiles / 2) ∧ m.handles.length ≤ c.maxConcurrentFiles ∧
      m.previous.length ≤ c.maxConcurrentFiles / 2 ∧ ∀ r ∈ m.known, r.handle = none := by
  have horigin : s.origin.Frugal (c.maxConcurrentFiles / 2) := .ofConfig hbuilt
  have hfrugal := run_always Tracker.Frugal.lasting (hconsumer ▸ horigin) horigin acts
  obtain ⟨hhandles, hprevious, hclosed⟩ := hm.within hfrugal
  exact ⟨hhandles, Nat.le_trans hhandles (Nat.mul_div_le _ _), hprevious, hclosed⟩

theorem open_files_bounded_two :
    let s := (ofConsumer logFollower
      (ofFiles [("a.log", true, [97, 10]), ("b.log", true, [98, 10])])).run [.start]
    Consumer.ofConfig followLogs = .ok s.origin ∧ followLogs.maxConcurrentFiles = 2 ∧
      ∃ m, s.Passes m ∧ m.handles.map Handle.node = [3, 4] ∧
        m.handles.length ≤ followLogs.maxConcurrentFiles ∧
        m.previous.length ≤ followLogs.maxConcurrentFiles / 2 := by
  intro s
  refine ⟨ofConfig_followLogs, rfl, ?_⟩
  have hstages : s.stages[1]?.map (fun stage => (stage.paths, stage.tracker.rest.handles.map Handle.node,
      (stage.world.tree.openFile ⟨"b.log"⟩).toOption.map Handle.node)) =
        some ([⟨"b.log"⟩], [3], some 4) := by decide +kernel
  obtain ⟨stage, hstage, hfields⟩ := Option.map_eq_some_iff.mp hstages
  simp only [Prod.mk.injEq] at hfields
  obtain ⟨hpaths, hrest, hopen⟩ := hfields
  cases hfile : stage.world.tree.openFile ⟨"b.log"⟩ with
  | error e => simp [hfile, Except.toOption] at hopen
  | ok h =>
      have hfirst : stage.paths = [] ++ ⟨"b.log"⟩ :: [] := hpaths
      have hm : s.Passes ⟨stage.tracker.known, stage.tracker.previous, [], some h⟩ :=
        .inl ⟨stage, List.mem_of_getElem? hstage, .found hfirst rfl hfile⟩
      obtain ⟨_, hhandles, hprevious, _⟩ := open_files_bounded ofConfig_followLogs rfl [.start] hm
      refine ⟨_, hm, ?_, hhandles, hprevious⟩
      simp only [hfile, Except.toOption, Option.map_some, Option.some.injEq] at hopen
      simpa [Moment.handles, Tracker.rest, hopen] using congrArg (· ++ [4]) hrest

end Session

end LogTail
