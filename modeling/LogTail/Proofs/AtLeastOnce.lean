import LogTail.Proofs.InMemory
import LogTail.Proofs.Tracking

namespace LogTail

open Record Tracker Session

/-- A reader that stands behind delivered records only. -/
def Behind (met : List (Nat × Fingerprint)) (f : Policy) (w : World) (r : Reader) : Prop :=
  ∃ n taken, Follows met f w.tree n r taken ∧ Reader.recordsFrom 0 taken ⊆ w.delivered met n

namespace Behind

variable {met : List (Nat × Fingerprint)} {f : Policy} {w w' : World} {r : Reader}

theorem onward (h : Behind met f w r) (hgrows : w.tree.Grows w'.tree)
    (haccepted : w.outlet.accepted <:+ w'.outlet.accepted) : Behind met f w' r := by
  obtain ⟨n, taken, hf, hd⟩ := h
  exact ⟨n, taken, hf.grows hgrows, List.Subset.trans hd (delivered_suffix haccepted n).subset⟩

theorem close (h : Behind met f w r) : Behind met f w r.close := by
  obtain ⟨n, taken, hf, hd⟩ := h
  exact ⟨n, taken, hf.close, hd⟩

theorem remembered (h : Behind met f w r) : Behind met f w (f.remembered r.metadata) := by
  obtain ⟨n, taken, hf, hd⟩ := h
  exact ⟨n, taken, ⟨hf.seen, hf.fits, by simp, rfl, hf.ordered⟩, hd⟩

theorem preserved (hrivals : NoRivals met) (hbegin : f.fromBeginning = true) :
    Preserved f met fun w rs => ∀ r ∈ rs, Behind met f w r where
  perm h hp r hr := h r (hp.mem_iff.mpr hr)
  stays h hr r hmem := (hr r hmem).onward (by rw [h.tree]; exact .refl _)
    h.outlet.suffix
  resumed path h hseen hsighted hmatch := by
    obtain ⟨hold, hrs⟩ := List.forall_mem_cons.mp h
    obtain ⟨n, taken, hf, hd⟩ := hold
    exact List.forall_mem_cons.mpr ⟨⟨n, taken, (hf.resume hrivals hseen hsighted hmatch path).2, hd⟩, hrs⟩
  added path h hseen hsighted _ :=
    List.forall_mem_cons.mpr ⟨⟨_, [], .fresh hbegin hseen hsighted _ path, by simp⟩, h⟩
  drained {w r rs} h := by
    obtain ⟨⟨n, taken, hf, hd⟩, hrs⟩ := List.forall_mem_cons.mp h
    obtain ⟨bs, htook, _, hlive⟩ := hf.drainOne hrivals
    intro s hs
    rcases List.mem_append.mp hs with hs | hs
    · obtain ⟨_, next, hf', hd'⟩ := hlive s (Option.mem_toList.mp hs)
      refine ⟨n, taken ++ next, by rw [htook.tree]; exact hf', ?_⟩
      rw [hd', Reader.recordsFrom_append, Nat.zero_add]
      exact List.append_subset.mpr
        ⟨List.subset_append_of_subset_left _ hd, List.subset_append_right _ _⟩
    · exact (hrs s hs).onward (by rw [htook.tree]; exact .refl _)
        htook.outlet.suffix
  closed h := by
    obtain ⟨hr, hrs⟩ := List.forall_mem_cons.mp h
    exact List.forall_mem_cons.mpr ⟨hr.close, hrs⟩

end Behind

theorem Behind.tidy {met : List (Nat × Fingerprint)} {f : Policy} {w : World} {e : Metadata}
    (hcount : Countable w.tree) (h : Behind met f w (f.remembered e)) : e.Tidy := by
  obtain ⟨n, taken, hf, _⟩ := h
  exact hf.tidy hcount

/-- A tracker that loses nothing: neither its readers nor what it gathered for a checkpoint stand behind
a record that was not delivered. -/
structure Lossless (met : List (Nat × Fingerprint)) (f : Policy) (k : Tracker) (w : World) : Prop where
  policy : k.policy = f
  readers : ∀ r ∈ k.kept, Behind met f w r
  gathered : ∀ e ∈ k.gathered, Behind met f w (f.remembered e)

/-- What is maintained of a session that delivers at least once. -/
structure Least (met : List (Nat × Fingerprint)) (f : Policy) (k : Option Tracker) (w : World)
    (files : List Metadata) : Prop where
  countable : Countable w.tree
  lossless : ∀ k', k = some k' → Lossless met f k' w
  stored : ∀ e ∈ files, Behind met f w (f.remembered e)

section Maintained

variable {met : List (Nat × Fingerprint)} {f : Policy} (hrivals : NoRivals met)
  (hbegin : f.fromBeginning = true)

theorem Lossless.least {k : Tracker} {w : World} {files : List Metadata} (h : Lossless met f k w)
    (hcount : Countable w.tree) (hfiles : ∀ e ∈ files, Behind met f w (f.remembered e)) :
    Least met f (some k) w files :=
  ⟨hcount, fun _ hk => Option.some.inj hk ▸ h, hfiles⟩

theorem Lossless.onward {k : Tracker} {w w' : World} (h : Lossless met f k w)
    (hgrows : w.tree.Grows w'.tree) (haccepted : w.outlet.accepted <:+ w'.outlet.accepted) :
    Lossless met f k w' :=
  ⟨h.policy, fun r hr => (h.readers r hr).onward hgrows haccepted,
    fun e he => (h.gathered e he).onward hgrows haccepted⟩

include hrivals hbegin

theorem Lossless.collect {k : Tracker} {w : World} (h : Lossless met f k w) {paths : List Path}
    (hsights : ∀ s ∈ k.sights w.tree paths, s ∈ met) :
    Lossless met f (k.collect paths w).1.trim (k.collect paths w).2 := by
  have hreaders := (Behind.preserved hrivals hbegin).collect h.policy hsights h.readers
  obtain ⟨halike, _, hgathered⟩ := k.collect_alike paths w
  obtain ⟨bs, htook⟩ := k.collect_took paths w
  refine ⟨halike.policy.trans h.policy, fun r hr => hreaders r (mem_trim hr), fun e he => ?_⟩
  change e ∈ (k.collect paths w).1.gathered at he
  rw [hgathered] at he
  rcases List.mem_append.mp he with he | he
  · exact (h.gathered e he).onward (by rw [htook.tree]; exact .refl _)
      htook.outlet.suffix
  · obtain ⟨r, hr, rfl⟩ := List.mem_map.mp he
    exact (hreaders r (List.mem_append_right _ hr)).remembered

theorem least_maintained : Maintained (fun _ => True) met (Least met f) where
  onward h hgrows hcount _ haccepted :=
    have hsame := ⟨[], by simpa using haccepted.symm⟩
    ⟨hcount, fun k hk => (h.lossless k hk).onward hgrows hsame,
      fun e he => (h.stored e he).onward hgrows hsame⟩
  kind _ := trivial
  countable h := h.countable
  tidy h e he := ((h.lossless _ rfl).gathered e he).tidy h.countable
  begun h := Lossless.least { h.lossless _ rfl with gathered := by simp } h.countable h.stored
  collected {k w files} paths h hsights := by
    obtain ⟨bs, htook⟩ := k.collect_took paths w
    refine ((h.lossless _ rfl).collect hrivals hbegin hsights).least (by rw [htook.tree]; exact h.countable)
      fun e he => (h.stored e he).onward (by rw [htook.tree]; exact .refl _)
        htook.outlet.suffix
  saved h := (h.lossless _ rfl).least h.countable (h.lossless _ rfl).gathered
  beginning h := by
    rw [readFromBeginning_self (by rw [(h.lossless _ rfl).policy]; exact hbegin)]
    exact h
  closed h := by
    have hk := h.lossless _ rfl
    refine Lossless.least { hk with readers := fun r hr => ?_ } h.countable h.stored
    rw [closeReaders_kept] at hr
    obtain ⟨s, hs, rfl⟩ := List.mem_map.mp hr
    exact (hk.readers s hs).close
  resumed {k w files} h := by
    have hk := h.lossless _ rfl
    have hsteady := resume_steady (by rw [hk.policy]; exact hbegin) files
    refine Lossless.least ⟨hsteady.policy.trans hk.policy, fun r hr => ?_, ?_⟩ h.countable h.stored
    · rcases mem_resume hr with hr | ⟨e, he, rfl⟩
      · exact hk.readers r hr
      · rw [hk.policy]
        exact h.stored e he
    · rw [hsteady.gathered]
      exact hk.gathered
  stored store h := Lossless.least { h.lossless _ rfl with } h.countable h.stored
  lost h := ⟨h.countable, by simp, h.stored⟩

theorem Lossless.reads {k : Tracker} {w : World} (h : Lossless met f k w) {paths : List Path}
    (hsize : 0 < f.fingerprintSize) (hsights : ∀ s ∈ k.sights w.tree paths, s ∈ met)
    (hcalm : w.outlet.Calm (k.collect paths w).2.outlet) {path : Path} {handle : Handle}
    (hpath : path ∈ paths) (hopen : w.tree.openFile path = .ok handle) :
    Reader.framed f.limit (w.tree.content handle.node) ⊆
      (k.collect paths w).2.delivered met handle.node := by
  cases hid : k.identify w.tree path with
  | none =>
      rw [content_of_identify_none hid hopen (by rw [h.policy]; exact hsize)]
      simp
  | some id =>
      obtain ⟨handle', fp⟩ := id
      obtain ⟨hopen', _⟩ := identify_some hid
      obtain rfl : handle' = handle := by simpa [hopen] using hopen'.symm
      have hsight := mem_sights hpath hid
      obtain ⟨r, hr, hfp, hnone⟩ := collect_finds hcalm (hrivals.mono hsights) hsight
      obtain ⟨bs, htook⟩ := k.collect_took paths w
      obtain ⟨n, taken, hf, hd⟩ := (Behind.preserved hrivals hbegin).collect h.policy hsights h.readers r
        (List.mem_append_right _ hr)
      obtain rfl := hrivals.same (hsights _ (hfp ▸ hsight)) hf.seen
        (Fingerprint.startsWith_refl hf.fits.filled)
      rw [h.policy] at hnone
      rw [hf.fits.taken_all f.limit_pos (by rw [htook.tree]; exact hnone), htook.tree] at hd
      exact hd

end Maintained

theorem Behind.records {met : List (Nat × Fingerprint)} {f : Policy} {w : World} {e : Metadata}
    (h : Behind met f w (f.remembered e)) : ∃ n, (n, e.fingerprint) ∈ met ∧
      ∀ a ∈ Reader.framed f.limit (w.tree.content n), a.span.offset < e.offset → a ∈ w.delivered met n := by
  obtain ⟨n, taken, hf, hd⟩ := h
  obtain ⟨left, hsplit⟩ := hf.fits.split
  refine ⟨n, hf.seen, fun a ha hlt => hd ?_⟩
  rw [Reader.framed, hsplit] at ha
  refine Reader.mem_of_offset_lt ha ?_
  rw [Nat.zero_add, ← hf.fits.offset]
  exact hlt

theorem least_renewable {met : List (Nat × Fingerprint)} {c : Config} {o : Consumer}
    (ho : Consumer.ofConfig c = .ok o) : Renewable (Least met c.policy) o := by
  obtain ⟨_, selector, rfl⟩ := Consumer.ofConfig_ok ho
  intro k w w' files h htree haccepted
  refine ⟨_, rfl, Lossless.least ⟨rfl, by simp [kept, ofParts], by simp [ofParts]⟩ ?_ fun e he => ?_⟩
  · rw [htree]
    exact h.countable
  · exact (h.stored e he).onward (by rw [htree]; exact .refl _) haccepted

theorem Session.Fresh.least {c : Config} {s : Session} (h : s.Fresh c) (met : List (Nat × Fingerprint)) :
    Keeps (Least met c.policy) s :=
  h.keeps fun _ => Lossless.least ⟨rfl, by simp [kept, ofParts], by simp [ofParts]⟩ h.countable (by simp)

theorem Least.entries {met : List (Nat × Fingerprint)} {f : Policy} {s : Session} (h : Keeps (Least met f) s)
    {bs : Bytes} {files : List Metadata} (hheld : s.store.held s.world.memory = .ok (some bs))
    (hdecode : Checkpoint.decode bs = .ok files) {e : Metadata} (he : e ∈ files) :
    ∃ n, (n, e.fingerprint) ∈ met ∧
      ∀ a ∈ Reader.framed f.limit (s.world.tree.content n), a.span.offset < e.offset → a ∈ s.world.delivered met n := by
  obtain ⟨files', hholds, hend⟩ := h.holds
  rcases hholds with ⟨_, hnone⟩ | ⟨⟨bs', hsome, hcarried⟩, -⟩
  · rw [hheld] at hnone
    cases hnone
  · rw [hheld] at hsome
    cases hsome
    rw [hcarried] at hdecode
    cases hdecode
    exact (hend.stored e he).records

theorem Session.Undisturbed.delivers_all {met : List (Nat × Fingerprint)} {f : Policy} {s : Session} {k : Tracker}
    (hrivals : NoRivals met) (hbegin : f.fromBeginning = true) (hsize : 0 < f.fingerprintSize)
    (hpoll : s.Undisturbed k) (hlawful : s.Lawful (fun _ => True) .poll)
    (hmet : ∀ x ∈ (s.step .poll).met, x ∈ met) (h : Keeps (Least met f) s) {path : Path}
    (hpath : path ∈ k.matched s.world.tree) :
    ∃ stage ∈ s.stages, path ∈ stage.paths ∧ ∀ handle, stage.world.tree.openFile path = .ok handle →
      ∀ a ∈ Reader.framed f.limit (stage.world.tree.content handle.node),
        a ∈ (s.step .poll).world.delivered met handle.node := by
  obtain ⟨stage, hstage, hreads⟩ := hpoll.reads (least_maintained hrivals hbegin) hlawful hmet h hpath
  refine ⟨stage, hstage, hreads.path, fun handle hopen a ha => ?_⟩
  obtain ⟨files, hleast⟩ := hreads.holds
  obtain ⟨bs, htook⟩ := hreads.took
  have hread := (hleast.lossless _ rfl).reads hrivals hbegin hsize hreads.sights hreads.calm hreads.path hopen ha
  exact (delivered_mono htook handle.node).subset hread

/-- At least once: wherever the process dies and however often it is built anew over the checkpoint that
is left, all records that lie before an offset in a checkpoint were delivered, and behind a poll that is
not disturbed all records of every file that it finds. -/
theorem delivers_at_least_once {c : Config} {s : Session} {acts : List Act} (hfresh : s.Fresh c)
    (hbegin : c.startAt = .beginning) (hlawful : s.Allows (Lawful fun _ => True) acts)
    (hrivals : NoRivals (s.run acts).met) :
    (∀ bs files, (s.run acts).store.held (s.run acts).world.memory = .ok (some bs) →
      Checkpoint.decode bs = .ok files → ∀ e ∈ files, ∃ n, (n, e.fingerprint) ∈ (s.run acts).met ∧
        ∀ a ∈ Reader.framed c.maxLogSize ((s.run acts).world.tree.content n),
          a.span.offset < e.offset → a ∈ (s.run acts).world.delivered (s.run acts).met n) ∧
    ∀ before k, acts = before ++ [.poll] → (s.run before).Undisturbed k →
      ∀ path ∈ k.matched (s.run before).world.tree, ∃ stage ∈ (s.run before).stages,
        path ∈ stage.paths ∧ ∀ h, stage.world.tree.openFile path = .ok h →
          ∀ a ∈ Reader.framed c.maxLogSize (stage.world.tree.content h.node),
            a ∈ (s.run acts).world.delivered (s.run acts).met h.node := by
  have hvalid := (Consumer.ofConfig_ok hfresh.built).1
  have hlimit := Policy.limit_config hvalid
  have hpolicy := Policy.fromBeginning_config hbegin
  have hJ : Maintained (fun _ => True) (s.run acts).met (Least (s.run acts).met c.policy) :=
    least_maintained hrivals hpolicy
  have hinit := hfresh.least (s.run acts).met
  have hrenew : Renewable (Least (s.run acts).met c.policy) s.origin := least_renewable hfresh.built
  refine ⟨fun bs files hheld hdecode e he => ?_, ?_⟩
  · rw [← hlimit]
    exact Least.entries (run_keeps hJ hlawful (fun _ _ _ => hrenew) (fun _ h => h) hinit) hheld hdecode he
  · rintro before k rfl hpoll path hpath
    rw [allows_append] at hlawful
    have hmet (x) (hx : x ∈ ((s.run before).step .poll).met) : x ∈ (s.run (before ++ [.poll])).met := by
      rwa [run_snoc]
    have hkeeps := run_keeps hJ hlawful.1 (fun _ _ _ => hrenew)
      (fun x hx => hmet x (((s.run before).step_met .poll).subset hx)) hinit
    have hall := hpoll.delivers_all hrivals hpolicy hvalid.fingerprintSize_pos hlawful.2.1 hmet hkeeps hpath
    rwa [← run_snoc, hlimit] at hall

theorem delivers_at_least_once_died :
    let s := ofConsumer logFollower (ofFiles [("a.log", true, [97, 10])])
    let before : List Act :=
      [.start, .poll, .change (ofFiles [("a.log", true, [97, 10, 97, 97, 10])]), .die 0 [], .start,
        .change (ofFiles [("b.log", true, [97, 10, 97, 97, 10, 98, 10])]),
        .emitter (fun _ => .accept) []]
    let acts := before ++ [.poll]
    s.Fresh followLogs ∧ s.Allows (Lawful fun _ => True) acts ∧ NoRivals (s.run acts).met ∧
      (s.run before).polled = some [⟨"b.log"⟩] ∧
      (s.run acts).world.outlet.batches.map Batch.records =
        [[⟨"a", 0, 2⟩], [⟨"aa", 2, 3⟩], [⟨"aa", 2, 3⟩, ⟨"b", 5, 2⟩]] ∧
      ∀ a ∈ [⟨"a", 0, 2⟩, ⟨"aa", 2, 3⟩, ⟨"b", 5, 2⟩],
        a ∈ (s.run acts).world.delivered (s.run acts).met 3 := by
  intro s before acts
  have hmemory : s.InMemory := inMemory_ofConsumer ofConfig_followLogs _
  have hcount : Countable s.world.tree := countable_of_nodes (by decide)
  have hfresh : s.Fresh followLogs := fresh_ofConsumer ofConfig_followLogs hcount
  have hlawful : s.Allows (Lawful fun _ => True) acts := hmemory.allows hcount
    ⟨FileTree.grows_of_nodes (by decide), countable_of_nodes (by decide),
      FileTree.grows_of_nodes (by decide), countable_of_nodes (by decide), trivial, trivial⟩
  have hrun : NoRivals (s.run acts).met ∧ (s.run before).polled = some [⟨"b.log"⟩] ∧
      (s.run acts).world.outlet.batches.map Batch.records =
        [[⟨"a", 0, 2⟩], [⟨"aa", 2, 3⟩], [⟨"aa", 2, 3⟩, ⟨"b", 5, 2⟩]] := by decide +kernel
  obtain ⟨hrivals, hpolled, hbatches⟩ := hrun
  obtain ⟨_, hall⟩ := delivers_at_least_once hfresh rfl hlawful hrivals
  obtain ⟨k, hpoll, hmatched⟩ := undisturbed_of_polled hpolled fun _ => rfl
  obtain ⟨stage, hstage, _, hread⟩ := hall before k rfl hpoll ⟨"b.log"⟩ (by simp [hmatched])
  rw [((hmemory.run before).aside hstage).2] at hread
  exact ⟨hfresh, hlawful, hrivals, hpolled, hbatches, hread ⟨3, some 0⟩ (by decide +kernel)⟩

end LogTail
