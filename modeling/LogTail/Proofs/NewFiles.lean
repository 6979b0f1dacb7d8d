import LogTail.Proofs.Emissions
import LogTail.Proofs.OldContent

namespace LogTail

open Record Tracker Session Json

/-- Is an act one of those between two polls: neither a poll nor the death of the process in one? -/
def Act.between : Act → Bool
  | .poll | .die _ _ => false
  | _ => true

structure Neat (fps : List Fingerprint) (r : Reader) : Prop where
  known : r.fingerprint ∈ fps
  tidy : r.metadata.Tidy
  limit : 0 < r.maxLogSize

theorem Neat.drainOne {fps : List Fingerprint} {r r' : Reader} {w : World} (h : Neat fps r)
    (hcount : Countable w.tree) (hr' : (drainOne r w).1 = some r') : Neat fps r' := by
  cases hh : r.handle with
  | none =>
      rw [drainOne_closed hh] at hr'
      obtain rfl : r = r' := by simpa using hr'
      exact h
  | some handle =>
      obtain ⟨ended, r₁, bs, taken, left, hd, _, hres⟩ := drainOne_open hh w
      obtain rfl : r₁ = r' := by
        rw [hres] at hr'
        split at hr'
        · cases hr'
        · simpa using hr'
      have hstart := r.rewound_le (w.tree.content handle.node).length
      have hextent := extent_pieces_le h.limit ((w.tree.content handle.node).drop
        (r.rewound (w.tree.content handle.node).length).offset)
      rw [hd.split, extent_append, List.length_drop] at hextent
      have hattributes : (r.rewound (w.tree.content handle.node).length).metadata.attributes =
          r.metadata.attributes := by
        unfold Reader.rewound
        split <;> rfl
      rw [hd.moved]
      constructor
      case known =>
        rw [Reader.fingerprint_moveTo, Reader.fingerprint_rewound]
        exact h.known
      case tidy =>
        refine ⟨hattributes ▸ h.tidy.1, ?_⟩
        have := hcount handle.node
        change (r.rewound _).offset + extent taken < _
        omega
      case limit =>
        change 0 < (r.rewound _).maxLogSize
        rw [Reader.maxLogSize_rewound]
        exact h.limit

theorem neat_preserved {fps : List Fingerprint} {met : List (Nat × Fingerprint)} (f : Policy)
    (hmet : ∀ x ∈ met, x.2 ∈ fps) :
    Preserved f met fun w rs => Countable w.tree ∧ ∀ r ∈ rs, Neat fps r where
  perm h hp := ⟨h.1, fun r hr => h.2 r (hp.mem_iff.mpr hr)⟩
  stays htook h := ⟨by rw [htook.tree]; exact h.1, h.2⟩
  resumed {w old rs h fp} path hs hseen _ _ := by
    obtain ⟨hold, hrs⟩ := List.forall_mem_cons.mp hs.2
    refine ⟨hs.1, List.forall_mem_cons.mpr ⟨⟨?_, ⟨?_, ?_⟩, f.limit_pos⟩, hrs⟩⟩
    · rw [Policy.fingerprint_resume]
      exact hmet _ hseen
    · exact f.ordered_build _ _ hold.tidy.1
    · change (f.resume old.metadata h fp path).offset < _
      rw [Policy.offset_resume]
      exact hold.tidy.2
  added {w rs h fp} path hs hseen _ _ := by
    refine ⟨hs.1, List.forall_mem_cons.mpr ⟨⟨?_, ⟨?_, ?_⟩, f.limit_pos⟩, hs.2⟩⟩
    · rw [Policy.fingerprint_fresh]
      exact hmet _ hseen
    · exact f.ordered_build _ _ List.Pairwise.nil
    · change (f.fresh _ h fp path).offset < _
      rw [Policy.offset_fresh]
      split
      · decide
      · exact hs.1 h.node
  drained {w r rs} hs := by
    obtain ⟨hr, hrs⟩ := List.forall_mem_cons.mp hs.2
    obtain ⟨bs, htook⟩ := drainOne_took r w
    refine ⟨by rw [htook.tree]; exact hs.1, fun r' hr' => ?_⟩
    rcases List.mem_append.mp hr' with hr' | hr'
    · exact hr.drainOne hs.1 (Option.mem_toList.mp hr')
    · exact hrs r' hr'
  closed hs := by
    obtain ⟨hr, hrs⟩ := List.forall_mem_cons.mp hs.2
    exact ⟨hs.1, List.forall_mem_cons.mpr ⟨⟨hr.known, hr.tidy, hr.limit⟩, hrs⟩⟩

structure Attributed (fps : List Fingerprint) (k : Tracker) : Prop where
  kept : ∀ r ∈ k.kept, Neat fps r
  gathered : ∀ e ∈ k.gathered, e.fingerprint ∈ fps ∧ e.Tidy

structure Provenance (fps : List Fingerprint) (k : Option Tracker) (w : World) (files : List Metadata) :
    Prop where
  countable : Countable w.tree
  stored : ∀ e ∈ files, e.fingerprint ∈ fps ∧ e.Tidy
  tracker : ∀ k', k = some k' → Attributed fps k'

theorem Attributed.provenance {fps : List Fingerprint} {k : Tracker} {w : World} {files : List Metadata}
    (h : Attributed fps k) (hcount : Countable w.tree)
    (hstored : ∀ e ∈ files, e.fingerprint ∈ fps ∧ e.Tidy) : Provenance fps (some k) w files :=
  ⟨hcount, hstored, fun _ hk => Option.some.inj hk ▸ h⟩

theorem Attributed.collect {fps : List Fingerprint} {met : List (Nat × Fingerprint)} {k : Tracker}
    {paths : List Path} {w : World} (hmet : ∀ x ∈ met, x.2 ∈ fps) (h : Attributed fps k)
    (hcount : Countable w.tree) (hsights : ∀ s ∈ k.sights w.tree paths, s ∈ met) :
    Attributed fps (k.collect paths w).1.trim := by
  obtain ⟨_, hneat⟩ := (neat_preserved k.policy hmet).collect rfl hsights ⟨hcount, h.kept⟩
  obtain ⟨_, _, hgathered⟩ := k.collect_alike paths w
  refine ⟨fun r hr => hneat r (mem_trim hr), fun e he => ?_⟩
  rw [show (k.collect paths w).1.trim.gathered = _ from hgathered] at he
  rcases List.mem_append.mp he with he | he
  · exact h.gathered e he
  · obtain ⟨r, hr, rfl⟩ := List.mem_map.mp he
    have hr := hneat r (List.mem_append_right _ hr)
    exact ⟨hr.known, hr.tidy⟩

theorem Attributed.close {fps : List Fingerprint} {k : Tracker} (h : Attributed fps k) :
    Attributed fps k.closeReaders := by
  refine ⟨fun r hr => ?_, h.gathered⟩
  rw [closeReaders_kept] at hr
  obtain ⟨old, hold, rfl⟩ := List.mem_map.mp hr
  have hold := h.kept old hold
  exact ⟨hold.known, hold.tidy, hold.limit⟩

theorem resume_changes (k : Tracker) (files : List Metadata) :
    (k.resume files).gathered = k.gathered ∧
      ((k.resume files).policy.fromBeginning = true ↔ k.policy.fromBeginning = true ∨ files ≠ []) := by
  unfold resume
  split
  · next hempty => simp [List.isEmpty_iff.mp hempty]
  · next hempty =>
      obtain ⟨hsteady, _⟩ := k.readFromBeginning.foldl_recollect_steady files
      refine ⟨hsteady.gathered, ?_⟩
      have hbegin : (files.foldl recollect k.readFromBeginning).policy.fromBeginning = true := by
        rw [hsteady.policy]
        rfl
      exact iff_of_true hbegin (.inr (by simpa using hempty))

theorem Attributed.resume {fps : List Fingerprint} {k : Tracker} {files : List Metadata}
    (h : Attributed fps k) (hstored : ∀ e ∈ files, e.fingerprint ∈ fps ∧ e.Tidy) :
    Attributed fps (k.resume files) := by
  refine ⟨fun r hr => ?_, ?_⟩
  · rcases mem_resume hr with hr | ⟨e, he, rfl⟩
    · exact h.kept r hr
    · exact ⟨(hstored e he).1, (hstored e he).2, k.policy.limit_pos⟩
  · rw [(resume_changes k files).1]
    exact h.gathered

theorem provenance_maintained {fps : List Fingerprint} {met : List (Nat × Fingerprint)}
    (hmet : ∀ x ∈ met, x.2 ∈ fps) : Maintained (fun _ => True) met (Provenance fps) where
  onward h _ hcount _ _ := ⟨hcount, h.stored, h.tracker⟩
  kind _ := trivial
  countable h := h.countable
  tidy h e he := ((h.tracker _ rfl).gathered e he).2
  begun h := Attributed.provenance ⟨(h.tracker _ rfl).kept, by simp⟩ h.countable h.stored
  collected {k w files} paths h hsights := by
    obtain ⟨bs, htook⟩ := k.collect_took paths w
    exact ((h.tracker _ rfl).collect hmet h.countable hsights).provenance
      (by rw [htook.tree]; exact h.countable) h.stored
  saved h := (h.tracker _ rfl).provenance h.countable (h.tracker _ rfl).gathered
  beginning h :=
    Attributed.provenance ⟨(h.tracker _ rfl).kept, (h.tracker _ rfl).gathered⟩ h.countable h.stored
  closed h := (h.tracker _ rfl).close.provenance h.countable h.stored
  resumed h := ((h.tracker _ rfl).resume h.stored).provenance h.countable h.stored
  stored store h :=
    Attributed.provenance ⟨(h.tracker _ rfl).kept, (h.tracker _ rfl).gathered⟩ h.countable h.stored
  lost h := ⟨h.countable, h.stored, by simp⟩

theorem provenance_renewable {fps : List Fingerprint} {c : Config} {o : Consumer}
    (ho : Consumer.ofConfig c = .ok o) : Renewable (Provenance fps) o := by
  obtain ⟨_, selector, rfl⟩ := Consumer.ofConfig_ok ho
  intro k w w' files h htree _
  refine ⟨_, rfl, Attributed.provenance ⟨?_, ?_⟩ (by rw [htree]; exact h.countable) h.stored⟩
  · simp [kept, ofParts]
  · simp [ofParts]

theorem Policy.offset_fresh_eq_zero {f : Policy} {length : Nat} {h : Handle} {fp : Fingerprint} {p : Path}
    (hpos : 0 < length) : (f.fresh length h fp p).offset = 0 ↔ f.fromBeginning = true := by
  rw [Policy.offset_fresh]
  split
  · next hbegin => simp [hbegin]
  · next hbegin => simp [hbegin, Nat.ne_of_gt hpos]

namespace Tracker

theorem Sighted.length_pos {size : Nat} {t : FileTree} {h : Handle} {fp : Fingerprint}
    (hsighted : Sighted size t h fp) : 0 < (t.content h.node).length := by
  have hfilled := hsighted.filled
  rw [hsighted.bytes] at hfilled
  exact List.length_pos_of_ne_nil fun hempty => hfilled (by rw [hempty, List.take_nil])

theorem opened_new {k : Tracker} {paths : List Path} {w : World} {r : Reader}
    (hr : r ∈ (k.opened paths w).readers)
    (hnone : ∀ old ∈ k.kept, r.fingerprint.startsWith old.fingerprint = false) :
    ∃ path h, r = k.policy.fresh (w.tree.content h.node).length h r.fingerprint path := by
  induction paths using List.reverseRecOn with
  | nil => simp [opened] at hr
  | append_singleton paths path ih =>
      obtain ⟨hsteady, htook⟩ := k.opened_steady paths w
      have hkept := k.opened_kept paths w
      have hopens := k.opened_opens paths path w
      generalize k.opened (paths ++ [path]) w = s' at hopens hr
      cases hopens with
      | unreadable | copy => exact ih hr
      | @resumed h fp old front back _ _ _ hsplit _ hmatch _ _ _ _ hreaders =>
          rw [hreaders] at hr
          rcases List.mem_cons.mp hr with rfl | hr
          · -- one that goes on has a fingerprint that starts with a kept one
            have hold : old ∈ k.kept := hkept.subset (by rw [hsplit]; simp)
            have hfp := hnone old hold
            rw [Policy.fingerprint_resume, hmatch] at hfp
            cases hfp
          · exact ih hr
      | @added h fp _ _ _ _ _ _ _ _ hreaders =>
          rw [hreaders] at hr
          rcases List.mem_cons.mp hr with rfl | hr
          · exact ⟨path, h, by rw [hsteady.policy, htook.tree, Policy.fingerprint_fresh]⟩
          · exact ih hr

theorem opened_fresh {fps : List Fingerprint} {k : Tracker} {paths : List Path} {w : World} {n : Nat}
    {fp : Fingerprint} (h : Attributed fps k) (hsight : (n, fp) ∈ k.sights w.tree paths)
    (hunlike : ∀ g ∈ fps, g.agrees fp = false)
    (hapart : ∀ x ∈ k.sights w.tree paths, x.1 ≠ n → x.2.agrees fp = false) :
    ∃ path handle, handle.node = n ∧
      k.policy.fresh (w.tree.content n).length handle fp path ∈ (k.opened paths w).readers := by
  obtain ⟨path, hpath, _, hid, _⟩ := of_mem_sights hsight
  obtain ⟨r, hr, hagrees⟩ := opened_covers hpath hid
  obtain ⟨path', hpath', handle, hid', hhandle, _⟩ := opened_reader hr
  have hsight' := mem_sights hpath' hid'
  obtain rfl : handle.node = n := by
    by_contra hother
    rw [hapart _ hsight' hother] at hagrees
    cases hagrees
  obtain rfl : r.fingerprint = fp := fingerprint_unique hsight' hsight
  obtain ⟨path'', handle', hfresh⟩ := opened_new hr fun old hold =>
    Fingerprint.startsWith_of_agrees (hunlike _ (h.kept old hold).known)
  obtain rfl : handle' = handle := by
    rw [hfresh, Policy.handle_fresh] at hhandle
    exact Option.some.inj hhandle
  exact ⟨path'', handle', rfl, hfresh ▸ hr⟩

theorem collect_unlike {fps : List Fingerprint} {k : Tracker} {paths : List Path} {w : World} {r : Reader}
    (h : Attributed fps k) (hr : r ∈ (k.opened paths w).readers)
    (hunlike : ∀ g ∈ fps, g ≠ r.fingerprint) (hcalm : w.outlet.Calm (k.collect paths w).2.outlet) :
    ∃ bs, w.Took (k.collect paths w).2 bs ∧
      (bs.filter fun b => decide (b.metadata.fingerprint = r.fingerprint)).flatMap Batch.records =
        r.ahead w.tree := by
  obtain ⟨bs, cs, htook, hlost, hbuilt⟩ := collect_hands hcalm
  refine ⟨bs ++ cs, htook, ?_⟩
  have hnone : bs.filter (fun b => decide (b.metadata.fingerprint = r.fingerprint)) = [] := by
    refine List.filter_eq_nil_iff.mpr fun b hb => ?_
    obtain ⟨old, hold, hsame⟩ := hlost.stamped b hb
    have hkept : old ∈ k.kept :=
      List.mem_append_right _ ((k.opened_previous paths w).subset (List.mem_of_mem_filter hold))
    simpa [hsame] using hunlike _ (h.kept old hkept).known
  rw [List.filter_append, hnone, List.nil_append,
    hbuilt.records fun fp => decide (fp = r.fingerprint),
    filter_fingerprint (List.mem_reverse.mpr hr) (k.opened_apart paths w)]
  simp

theorem policy_stages {k : Tracker} {w : World} {stage : Stage} (h : stage ∈ k.stages w) :
    stage.tracker.policy = k.policy := by
  have hread {stage : Stage} {k' : Tracker} (hread : stage.read.1 = some k') :
      k'.policy = stage.tracker.policy := by
    rw [save_tracker (show ((stage.tracker.collect stage.paths stage.world).1.trim.save _).1 = some k'
      from hread)]
    exact (stage.tracker.collect_alike stage.paths stage.world).1.policy
  refine (readBatches_runs (P := fun k' _ => k'.policy = k.policy) (Q := fun _ _ => True)
    (chunks_ne_nil _ _) (fun stage _ k' hk hnext _ => (hread hnext).trans hk) (fun _ _ _ => trivial)
    (fun _ _ h => h) (fun _ _ h => h) ?_).2 stage h
  rfl

theorem begins_of_complete {batches : List (List Path)} (hne : batches ≠ []) {count : Nat}
    {k k' : Tracker} {w : World} (hall : (stagesFrom batches count k w).map Stage.paths = batches)
    (hk' : (readBatches batches count k w).1 = some k') : k'.policy.fromBeginning = true := by
  induction batches generalizing count k w with
  | nil => exact absurd rfl hne
  | cons batch batches ih =>
      cases batches with
      | nil =>
          rw [readBatches] at hk'
          cases hread : k.readBatch batch w with
          | mk o w' =>
              cases o with
              | none => simp [hread] at hk'
              | some k₁ =>
                  simp only [hread, Option.some.injEq] at hk'
                  subst hk'
                  rfl
      | cons next batches =>
          rcases readBatches_cases batch next batches count k w with
            ⟨hstages, _⟩ | ⟨k₁, w₁, _, _, hstages, hend⟩
          · rw [hstages] at hall
            simp at hall
          · rw [hstages, List.map_cons] at hall
            rw [hend] at hk'
            exact ih (by simp) (List.cons.inj hall).2 hk'

end Tracker

namespace Session

/-- Files change as they like between polls, and only grow where a checkpoint is saved. -/
def Sized (s : Session) : Act → Prop
  | .change tree => Countable tree
  | a => s.Lawful (fun _ => True) a

theorem allows_sized {s : Session} {kind : (Nat → Verdict) → Prop} {acts : List Act}
    (h : s.Allows (Lawful kind) acts) : s.Allows Sized acts := by
  induction acts generalizing s with
  | nil => exact trivial
  | cons a acts ih =>
      refine ⟨?_, ih h.2⟩
      cases a with
      | change tree => exact h.1.2
      | emitter | memory | start | stop | rebuild => trivial
      | poll | die => exact h.1

theorem sized_keeps {s : Session} {acts : List Act} {fps : List Fingerprint}
    {met : List (Nat × Fingerprint)} (hfps : ∀ x ∈ met, x.2 ∈ fps) (hsized : s.Allows Sized acts)
    (hrenew : Renewable (Provenance fps) s.origin) (hmet : ∀ x ∈ (s.run acts).met, x ∈ met)
    (h : Keeps (Provenance fps) s) : Keeps (Provenance fps) (s.run acts) := by
  induction acts generalizing s with
  | nil => exact h
  | cons a acts ih =>
      obtain ⟨ha, hacts⟩ := hsized
      have hstep : Keeps (Provenance fps) (s.step a) := by
        cases a with
        | change tree =>
            obtain ⟨⟨files, hholds, hk⟩, hstore⟩ := h
            exact ⟨⟨files, hholds, ha, hk.stored, hk.tracker⟩, hstore⟩
        | emitter | memory | start | stop | poll | rebuild | die =>
            exact step_keeps (provenance_maintained hfps) (fun _ => hrenew) ha
              (fun x hx => hmet x ((run_met _ acts).subset hx)) h
      exact ih hacts (by rwa [s.step_origin]) hmet hstep

/-- The next poll comes to all its batches, and the store takes what each of them saves. -/
structure Completed (s : Session) (k : Tracker) : Prop where
  running : s.consumer.phase = .running k
  completes : k.Completes s.world
  saves : ∀ stage ∈ s.stages, stage.saves = true

theorem completed_of_polled {s : Session} {paths : List Path} (h : s.polled = some paths)
    (hsaves : ∀ stage ∈ s.stages, stage.saves = true) : ∃ k, s.Completed k := by
  unfold polled at h
  split at h
  · next k hk =>
      split at h
      · next hall => exact ⟨k, hk, hall.1, hsaves⟩
      · cases h
  · cases h

section Completing

variable {s : Session} {k : Tracker} {fps : List Fingerprint} {met : List (Nat × Fingerprint)}

theorem Completed.saved (h : s.Completed k) (hfps : ∀ x ∈ met, x.2 ∈ fps)
    (hlawful : s.Lawful (fun _ => True) .poll) (hmet : ∀ x ∈ (s.step .poll).met, x ∈ met)
    (hkeeps : Keeps (Provenance fps) s) :
    ∃ k' st, (k.poll s.world).1 = some k' ∧ k'.store = some st ∧
      st.Carries (k.poll s.world).2.memory k'.gathered ∧ ∀ e ∈ k'.gathered, e.Tidy := by
  have hmaintained := provenance_maintained hfps
  have hstages := stages_running h.running
  obtain ⟨_, hamid⟩ := Keeps.poll hmaintained h.running hlawful hmet hkeeps
  refine (readBatches_runs (P := fun _ _ => True)
    (Q := fun o w => ∃ k' st, o = some k' ∧ k'.store = some st ∧ st.Carries w.memory k'.gathered ∧
      ∀ e ∈ k'.gathered, e.Tidy)
    (chunks_ne_nil _ _) (fun _ _ _ _ _ _ => trivial) ?_ (fun _ _ h => h) ?_ trivial).1
  · -- the last batch saves what all of them gathered
    intro stage hstage _
    obtain ⟨st, files, hst, _, _, hk⟩ := hamid stage hstage
    have hin : stage ∈ s.stages := hstages ▸ hstage
    have hgathered : (stage.tracker.collect stage.paths stage.world).1.trim.gathered =
        stage.tracker.gathered ++ stage.entries := (stage.tracker.collect_alike _ _).2.2
    have htidy : ∀ e ∈ stage.tracker.gathered ++ stage.entries, e.Tidy := hgathered ▸
      hmaintained.tidy (hmaintained.collected stage.paths hk fun x hx => hmet x (mem_step_met hin hx))
    obtain ⟨k', st', hk', hsame, hst', hcarries⟩ := Stage.read_saved hst (h.saves stage hin) htidy
    exact ⟨k', st', hk', hst', hsame ▸ hcarries, hsame ▸ htidy⟩
  · rintro k w ⟨k', st, hk', hst, hcarries, htidy⟩
    cases hk'
    exact ⟨_, st, rfl, hst, hcarries, htidy⟩

theorem Completed.leaves (h : s.Completed k) (hfps : ∀ x ∈ met, x.2 ∈ fps)
    (hlawful : s.Lawful (fun _ => True) .poll) (hmet : ∀ x ∈ (s.step .poll).met, x ∈ met)
    (hkeeps : Keeps (Provenance fps) s) :
    ∃ k', (s.step .poll).consumer.phase = .running k' ∧ k'.policy.fromBeginning = true ∧
      Holds (s.step .poll).store (s.step .poll).world.memory (s.stages.flatMap Stage.entries) := by
  obtain ⟨k', st, hpoll, hst, hcarries, htidy⟩ := h.saved hfps hlawful hmet hkeeps
  have hgathered : k'.gathered = s.stages.flatMap Stage.entries := by
    rw [stages_running h.running]
    exact gathered_readBatches (chunks_ne_nil _ _) hpoll
  have hconsumer : (s.step .poll).consumer.phase = .running k' := by
    simp only [step, Consumer.poll, h.running]
    cases hres : k.poll s.world with
    | mk o w' =>
        rw [hres] at hpoll
        cases hpoll
        rfl
  have hstore : (s.step .poll).store = st := by
    change storeOf (s.step .poll).consumer s.store = st
    rw [storeOf, hconsumer]
    simp [hst]
  refine ⟨k', hconsumer, begins_of_complete (chunks_ne_nil _ _) h.completes hpoll, ?_⟩
  rw [hstore, step_poll h.running, ← hgathered]
  exact .inr ⟨hcarries, htidy⟩

end Completing

theorem stopped_ofConfig {c : Config} {o : Consumer} (hbuilt : Consumer.ofConfig c = .ok o)
    (hend : c.startAt = .end) : ∃ k, o.phase = .stopped k ∧ k.policy.fromBeginning = false := by
  obtain ⟨_, selector, rfl⟩ := Consumer.ofConfig_ok hbuilt
  exact ⟨_, rfl, by simp [ofParts, Config.policy, hend]⟩

/-- What the policy of a tracker is between two polls. A process that goes on has the policy for files
that appear later; a new one has it once it took up a checkpoint that names some file. -/
structure Resolved (alive : Prop) (files : List Metadata) (s : Session) : Prop where
  holds : Holds s.store s.world.memory files
  origin : ∃ k, s.origin.phase = .stopped k ∧ k.policy.fromBeginning = false
  running {k : Tracker} : s.consumer.phase = .running k →
    (k.policy.fromBeginning = true ↔ alive ∨ files ≠ [])
  stopped {k : Tracker} : s.consumer.phase = .stopped k →
    (alive → k.policy.fromBeginning = true) ∧ (k.policy.fromBeginning = true → alive ∨ files ≠ [])

theorem Completed.resolved {s : Session} {k : Tracker} {fps : List Fingerprint}
    {met : List (Nat × Fingerprint)} (h : s.Completed k) (hfps : ∀ x ∈ met, x.2 ∈ fps)
    (hlawful : s.Lawful (fun _ => True) .poll) (hmet : ∀ x ∈ (s.step .poll).met, x ∈ met)
    (hkeeps : Keeps (Provenance fps) s)
    (horigin : ∃ k, s.origin.phase = .stopped k ∧ k.policy.fromBeginning = false) :
    Resolved True (s.stages.flatMap Stage.entries) (s.step .poll) := by
  obtain ⟨k', hphase, hbegins, hholds⟩ := h.leaves hfps hlawful hmet hkeeps
  refine ⟨hholds, by rwa [step_origin], fun hk => ?_, fun hk => ?_⟩
  · rw [hphase] at hk
    cases hk
    simp [hbegins]
  · rw [hphase] at hk
    cases hk

theorem Resolved.start {alive : Prop} {files : List Metadata} {s : Session} (h : Resolved alive files s) :
    Resolved alive files (s.step .start) := by
  rcases start_cases s.consumer s.store s.world with
    ⟨e, w', hstart, _, hmemory, _⟩ | ⟨k, files', format, w', hphase, hload, hstart, _, hmemory, _⟩
  · simp only [step, hstart]
    exact ⟨by rw [hmemory]; exact h.holds, h.origin, h.running, h.stopped⟩
  · obtain rfl := load_holds h.holds hload
    obtain ⟨halive, hset⟩ := h.stopped hphase
    simp only [step, hstart]
    refine ⟨by rw [hmemory]; exact h.holds, h.origin, ?_, by simp⟩
    rintro _ ⟨⟩
    change (k.resume files').policy.fromBeginning = true ↔ _
    rw [(resume_changes k files').2]
    constructor
    · rintro (hbegin | hne)
      · exact hset hbegin
      · exact .inr hne
    · rintro (ha | hne)
      · exact .inl (halive ha)
      · exact .inr hne

theorem Resolved.stop {alive : Prop} {files : List Metadata} {s : Session} (h : Resolved alive files s) :
    Resolved alive files (s.step .stop) := by
  cases hphase : s.consumer.phase with
  | stopped k | lost =>
      have hstop : s.step .stop = s := by simp [step, Consumer.stop, hphase]
      rwa [hstop]
  | running k =>
      have hrunning := h.running hphase
      simp only [step, Consumer.stop, hphase]
      refine ⟨h.holds, h.origin, by simp, ?_⟩
      rintro _ ⟨⟩
      exact ⟨fun ha => hrunning.mpr (.inl ha), hrunning.mp⟩
  | crashed =>
      simp only [step, Consumer.stop, hphase]
      exact ⟨h.holds, h.origin, by simp, by simp⟩

theorem Resolved.rebuild {alive : Prop} {files : List Metadata} {s : Session}
    (h : Resolved alive files s) : Resolved False files (s.step .rebuild) := by
  obtain ⟨k, hphase, hflag⟩ := h.origin
  refine ⟨h.holds, h.origin, fun hk => ?_, fun hk => ?_⟩
  · rw [show (s.step .rebuild).consumer = s.origin from rfl, hphase] at hk
    cases hk
  · rw [show (s.step .rebuild).consumer = s.origin from rfl, hphase] at hk
    cases hk
    exact ⟨False.elim, fun hbegin => by rw [hflag] at hbegin; cases hbegin⟩

theorem Resolved.congr {alive alive' : Prop} {files : List Metadata} {s : Session}
    (h : Resolved alive files s) (hiff : alive ↔ alive') : Resolved alive' files s :=
  (propext hiff) ▸ h

theorem Resolved.step {alive : Prop} {files : List Metadata} {s : Session} {a : Act}
    (h : Resolved alive files s) (ha : a.between = true) :
    Resolved (alive ∧ a.goesOn = true) files (s.step a) := by
  cases a with
  | change tree => exact Resolved.congr ⟨h.holds, h.origin, h.running, h.stopped⟩ (by simp [Act.goesOn])
  | emitter verdict looks =>
      exact Resolved.congr ⟨h.holds, h.origin, h.running, h.stopped⟩ (by simp [Act.goesOn])
  | memory failGet failSet crashSet =>
      refine Resolved.congr ⟨?_, h.origin, h.running, h.stopped⟩ (by simp [Act.goesOn])
      exact holds_congr h.holds (Store.held_values rfl _)
  | start => exact h.start.congr (by simp [Act.goesOn])
  | stop => exact h.stop.congr (by simp [Act.goesOn])
  | rebuild => exact h.rebuild.congr (by simp [Act.goesOn])
  | poll | die => cases ha

theorem Resolved.run {alive : Prop} {files : List Metadata} {s : Session} {acts : List Act}
    (h : Resolved alive files s) (hacts : ∀ a ∈ acts, a.between = true) :
    Resolved (alive ∧ ∀ a ∈ acts, a.goesOn = true) files (s.run acts) := by
  induction acts generalizing alive s with
  | nil => exact h.congr (by simp)
  | cons a acts ih =>
      have hnext := ih (h.step (hacts a (by simp))) fun b hb => hacts b (by simp [hb])
      exact hnext.congr (by simp [and_assoc])

/-- In a poll a file is found that was not found before. Its fingerprint is not a start of one taken of
another file or named in the checkpoint, and none of these is a start of it. -/
structure FirstFound (s : Session) (files : List Metadata) (stage : Stage) (n : Nat) (fp : Fingerprint) :
    Prop where
  found : (n, fp) ∈ stage.sights
  first : ∃ earlier later, s.stages = earlier ++ stage :: later ∧
    ∀ g, (n, g) ∉ s.met ++ earlier.flatMap Stage.sights
  apart : ∀ x ∈ s.met ++ s.stages.flatMap Stage.sights, x.1 ≠ n → x.2.agrees fp = false
  unnamed : ∀ e ∈ files, e.fingerprint.agrees fp = false

theorem FirstFound.attributed {s : Session} {files : List Metadata} {stage : Stage} {n : Nat}
    {fp : Fingerprint} (h : s.FirstFound files stage n fp) (hlawful : s.Lawful (fun _ => True) .poll)
    (hkeeps : ∀ fps, (∀ e ∈ files, e.fingerprint ∈ fps) → (∀ x ∈ s.met, x.2 ∈ fps) →
      Keeps (Provenance fps) s) :
    ∃ k fps, s.consumer.phase = .running k ∧ stage ∈ k.stages s.world ∧ Attributed fps stage.tracker ∧
      ∀ g ∈ fps, g.agrees fp = false := by
  obtain ⟨earlier, later, hsplit, hfirst⟩ := h.first
  have hstage : stage ∈ s.stages := by
    rw [hsplit]
    simp
  cases hphase : s.consumer.phase with
  | stopped k | crashed | lost => simp [stages, hphase] at hstage
  | running k =>
      let fps := files.map Metadata.fingerprint ++
        (s.met ++ earlier.flatMap Stage.sights).map Prod.snd
      have hmet : ∀ x ∈ s.met ++ earlier.flatMap Stage.sights, x.2 ∈ fps := fun x hx =>
        List.mem_append_right _ (List.mem_map_of_mem hx)
      obtain ⟨⟨files', hholds, hk⟩, hstore⟩ := hkeeps fps
        (fun e he => List.mem_append_left _ (List.mem_map_of_mem he))
        fun x hx => hmet x (List.mem_append_left _ hx)
      have hk : Provenance fps (some k) s.world files' := by simpa [tracker?, hphase] using hk
      have hin (st : Stage) (hst : st ∈ earlier) : st ∈ s.stages := by
        rw [hsplit]
        simp [hst]
      obtain ⟨_, _, _, _, _, hamid⟩ := stage_amid (provenance_maintained hmet)
        ((stages_running hphase).symm.trans hsplit)
        (fun st hst x hx => List.mem_append_right _ (List.mem_flatMap.mpr ⟨st, hst, hx⟩))
        (fun st hst => hlawful st (hin st hst)) ⟨s.store, files', hstore hphase, id, hholds, hk⟩
      refine ⟨k, fps, rfl, by rwa [← stages_running hphase], hamid.tracker _ rfl, fun g hg => ?_⟩
      rcases List.mem_append.mp hg with hg | hg
      · obtain ⟨e, he, rfl⟩ := List.mem_map.mp hg
        exact h.unnamed e he
      · obtain ⟨x, hx, rfl⟩ := List.mem_map.mp hg
        have hother : x.1 ≠ n := by
          rintro rfl
          exact hfirst x.2 hx
        refine h.apart x ?_ hother
        rw [hsplit, List.flatMap_append, ← List.append_assoc]
        exact List.mem_append_left _ hx

/-- Whatever a run does, it holds no fingerprints but those of the checkpoint that it began with and those
that it took. -/
theorem provenance_run {s : Session} {c : Config} {acts : List Act} {files : List Metadata}
    {fps : List Fingerprint} (hbuilt : Consumer.ofConfig c = .ok s.origin)
    (hconsumer : s.consumer = s.origin) (hholds : Holds s.store s.world.memory files)
    (hcount : Countable s.world.tree) (hsized : s.Allows Sized acts)
    (hfiles : ∀ e ∈ files, e.fingerprint ∈ fps) (hmet : ∀ x ∈ (s.run acts).met, x.2 ∈ fps) :
    Keeps (Provenance fps) (s.run acts) := by
  have hrenew : Renewable (Provenance fps) s.origin := provenance_renewable hbuilt
  refine sized_keeps hmet hsized hrenew (fun _ h => h) (.anew hconsumer hholds ?_)
  have htidy : ∀ e ∈ files, e.Tidy := by
    rcases hholds with ⟨rfl, _⟩ | ⟨_, htidy⟩
    · simp
    · exact htidy
  exact hrenew none s.world s.world files ⟨hcount, fun e he => ⟨hfiles e he, htidy e he⟩, by simp⟩ rfl
    (List.suffix_refl _)

/-- A consumer that starts at the end reads a file that it finds first after a complete poll from its
beginning just if the process that polled goes on or the poll saved some file. Otherwise it goes on behind
what the file has by then. The other files may change as they like. -/
theorem new_file_read_whole_iff {s : Session} {c : Config} {before mid : List Act}
    {files : List Metadata} {k : Tracker} {stage : Stage} {n : Nat} {fp : Fingerprint}
    (hbuilt : Consumer.ofConfig c = .ok s.origin) (hconsumer : s.consumer = s.origin)
    (hend : c.startAt = .end) (hholds : Holds s.store s.world.memory files)
    (hcount : Countable s.world.tree) (hsized : s.Allows Sized (before ++ .poll :: mid ++ [.poll]))
    (hcomplete : (s.run before).Completed k) (hmid : ∀ a ∈ mid, a.between = true)
    (hfound : (s.run (before ++ .poll :: mid)).FirstFound files stage n fp) :
    ∃ r ∈ (stage.tracker.opened stage.paths stage.world).readers, r.fingerprint = fp ∧
      (∃ h, r.handle = some h ∧ h.node = n) ∧
      (r.offset = 0 ↔
        (∀ a ∈ mid, a.goesOn = true) ∨ (s.run before).stages.flatMap Stage.entries ≠ []) ∧
      (r.offset ≠ 0 → r.offset = (stage.world.tree.content n).length) ∧
      (r.offset = 0 → stage.world.outlet.Calm (stage.tracker.collect stage.paths stage.world).2.outlet →
        ∃ bs, stage.world.Took (stage.tracker.collect stage.paths stage.world).2 bs ∧
          (bs.filter fun b => decide (b.metadata.fingerprint = fp)).flatMap Batch.records =
            Reader.framed stage.tracker.policy.limit (stage.world.tree.content n)) := by
  obtain ⟨hall, hlast, _⟩ := allows_append.mp hsized
  obtain ⟨hbefore, hpoll, _⟩ := allows_append.mp hall
  have hrun : s.run (before ++ .poll :: mid) = ((s.run before).step .poll).run mid := s.run_append _ _
  -- the reader is a new one, placed by the policy that its tracker has
  obtain ⟨k', fps, hphase, hstage, hattributed, hunlike⟩ := hfound.attributed hlast
    fun fps hfiles hmet => provenance_run hbuilt hconsumer hholds hcount hall hfiles hmet
  have hin : stage ∈ (s.run (before ++ .poll :: mid)).stages := by rwa [stages_running hphase]
  obtain ⟨path, handle, rfl, hr⟩ := opened_fresh hattributed hfound.found hunlike fun x hx =>
    hfound.apart x (List.mem_append_right _ (List.mem_flatMap.mpr ⟨stage, hin, hx⟩))
  -- the policy was resolved since the complete poll
  have hresolved : Resolved (∀ a ∈ mid, a.goesOn = true) ((s.run before).stages.flatMap Stage.entries)
      (s.run (before ++ .poll :: mid)) := by
    have hmet : ((s.run before).step .poll).met ⊆ (s.run (before ++ .poll :: mid)).met := by
      rw [hrun]
      exact (run_met _ mid).subset
    have hkeeps := provenance_run hbuilt hconsumer hholds hcount hbefore
      (fun e he => List.mem_append_left _ (List.mem_map_of_mem he))
      fun x hx => List.mem_append_right (files.map Metadata.fingerprint)
        (List.mem_map_of_mem ((run_met (s.run before) [.poll]).subset hx))
    have hpolled := hcomplete.resolved (fun x hx => List.mem_append_right _ (List.mem_map_of_mem hx))
      hpoll (fun _ h => h) hkeeps (by rw [run_origin]; exact stopped_ofConfig hbuilt hend)
    rw [hrun]
    exact (hpolled.run hmid).congr (by simp)
  have hflag := hresolved.running hphase
  rw [← policy_stages hstage] at hflag
  obtain ⟨_, _, handle', hid, hnode⟩ := of_mem_sights hfound.found
  have hsighted := (identify_some hid).2
  have hlength : 0 < (stage.world.tree.content handle.node).length := by
    rw [← show handle'.node = handle.node from hnode]
    exact hsighted.length_pos
  refine ⟨_, hr, Policy.fingerprint_fresh .., ⟨handle, Policy.handle_fresh .., rfl⟩, ?_, fun hnonzero => ?_,
    fun hzero hcalm => ?_⟩
  · rw [← hflag]
    exact Policy.offset_fresh_eq_zero hlength
  · rw [Policy.offset_fresh, if_neg (mt (Policy.offset_fresh_eq_zero hlength).mpr hnonzero)]
  · have hdiffer : ∀ g ∈ fps, g ≠ fp := by
      rintro g hg rfl
      have := hunlike g hg
      rw [Fingerprint.agrees_self hsighted.filled] at this
      cases this
    obtain ⟨bs, htook, hrecords⟩ := collect_unlike hattributed hr (by simpa using hdiffer) hcalm
    refine ⟨bs, htook, ?_⟩
    rw [Reader.ahead_of_le (Policy.handle_fresh ..) (by rw [hzero]; exact Nat.zero_le _), hzero,
      List.drop_zero, Policy.fingerprint_fresh] at hrecords
    exact hrecords

theorem new_file_read_whole_iff_restarted :
    let s := ofConsumer endFollower (ofFiles [("old.log", true, [97, 10])])
    let mid : List Act := [.stop, .rebuild, .start,
      .change (ofFiles [("old.log", true, [97, 10]), ("new.log", true, [98, 10])])]
    let p := s.run ([.start] ++ .poll :: mid)
    s.Allows Sized ([.start] ++ .poll :: mid ++ [.poll]) ∧ ∃ k stage, (s.run [.start]).Completed k ∧
      p.FirstFound [] stage 4 ⟨[98, 10]⟩ ∧
      ∃ r ∈ (stage.tracker.opened stage.paths stage.world).readers, r.fingerprint = ⟨[98, 10]⟩ ∧
        r.offset = 0 := by
  intro s mid p
  have hmemory : s.InMemory := inMemory_ofConsumer ofConfig_followEnds _
  have hcount : Countable s.world.tree := countable_of_nodes (by decide)
  have hlawful : s.Allows (Lawful Mild) ([.start] ++ .poll :: mid ++ [.poll]) :=
    hmemory.allows hcount ⟨FileTree.grows_of_nodes (by decide), countable_of_nodes (by decide), trivial⟩
  have hsized := allows_sized hlawful
  have hfirst : (s.run [.start]).polled = some [⟨"old.log"⟩] ∧
      (∀ stage ∈ (s.run [.start]).stages, stage.saves = true) ∧
      (s.run [.start]).stages.flatMap Stage.entries ≠ [] := by decide +kernel
  obtain ⟨hpolled, hsaves, hentries⟩ := hfirst
  obtain ⟨k, hcomplete⟩ := completed_of_polled hpolled hsaves
  have hsecond : p.stages.map Stage.sights = [[(4, ⟨[98, 10]⟩)], [(3, ⟨[97, 10]⟩)]] ∧
      p.met = [(3, ⟨[97, 10]⟩)] := by decide +kernel
  obtain ⟨hsights, hmet⟩ := hsecond
  obtain ⟨stage, later, hstages, hstage, hlater⟩ := List.map_eq_cons_iff.mp hsights
  have hfound : p.FirstFound [] stage 4 ⟨[98, 10]⟩ :=
    ⟨by simp [hstage], ⟨[], later, hstages, by simp [hmet]⟩, by
      rw [hmet, List.flatMap_def, hsights]
      decide, by simp⟩
  obtain ⟨r, hr, hfp, _, hoffset, _⟩ := new_file_read_whole_iff ofConfig_followEnds rfl rfl
    (.inl ⟨rfl, rfl⟩) hcount hsized hcomplete (by simp [mid, Act.between]) hfound
  exact ⟨hsized, k, stage, hcomplete, hfound, r, hr, hfp, hoffset.mpr (.inr hentries)⟩

/-- A poll that finds nothing leaves an empty checkpoint, as of a first run. A log that comes behind a
restart is then skipped. -/
theorem new_file_skipped_after_empty_poll :
    let s := ofConsumer endFollower (ofFiles [])
    let p := s.run ([.start] ++ .poll :: [.stop, .rebuild, .start,
      .change (ofFiles [("a.log", true, [97, 10])])])
    Consumer.ofConfig followEnds = .ok endFollower ∧ followEnds.startAt = .end ∧
      followEnds.maxBatches = 0 ∧ (∃ k, (s.run [.start]).Completed k) ∧ (∃ k, p.Completed k) ∧
      ∃ stage, p.FirstFound [] stage 3 ⟨[97, 10]⟩ ∧
        (∀ r ∈ (stage.tracker.opened stage.paths stage.world).readers, r.offset = 2) ∧
        (p.step .poll).world.outlet.batches = [] := by
  intro s p
  have hfirst : (s.run [.start]).polled = some [] ∧
      ∀ stage ∈ (s.run [.start]).stages, stage.saves = true := by decide +kernel
  have hsecond : p.polled = some [⟨"a.log"⟩] ∧ (∀ stage ∈ p.stages, stage.saves = true) ∧
      p.stages.map Stage.sights = [[(3, ⟨[97, 10]⟩)]] ∧ p.met = [] ∧
      (∀ stage ∈ p.stages, ∀ r ∈ (stage.tracker.opened stage.paths stage.world).readers, r.offset = 2) ∧
      (p.step .poll).world.outlet.batches = [] := by decide +kernel
  obtain ⟨hpolled, hsaves, hsights, hmet, hoffset, hbatches⟩ := hsecond
  obtain ⟨stage, hstages, hstage⟩ := List.map_eq_singleton_iff.mp hsights
  have hfound : p.FirstFound [] stage 3 ⟨[97, 10]⟩ :=
    ⟨by simp [hstage], ⟨[], [], hstages, by simp [hmet]⟩, by
      rw [hmet, List.flatMap_def, hsights]
      decide, by simp⟩
  exact ⟨ofConfig_followEnds, rfl, rfl, completed_of_polled hfirst.1 hfirst.2,
    completed_of_polled hpolled hsaves, stage, hfound, hoffset stage (by simp [hstages]), hbatches⟩

end Session

end LogTail
