import LogTail.Proofs.Contents
import LogTail.Proofs.Continuations
import LogTail.Proofs.InMemory
import LogTail.Proofs.Tracking

namespace LogTail

open Record Tracker

structure Stands (node : Path → Nat) (met : List (Content × Fingerprint)) (f : Policy)
    (ts : List FileTree) (r : Reader) : Prop where
  handle : ∃ h, r.handle = some h ∧ h.node = node r.path
  seen : (.present (node r.path) ts, r.fingerprint) ∈ met
  bytes : r.fingerprint.bytes = (held (node r.path) ts).take f.fingerprintSize
  filled : r.fingerprint.bytes ≠ []
  offset : r.offset = (Content.present (node r.path) ts).reached f.fromBeginning f.limit ts

/-- What a tracker keeps of files that have their places: a reader of every file that is not empty, and
readers of contents that are gone. -/
structure Knows (paths : List Path) (node : Path → Nat) (met : List (Content × Fingerprint)) (f : Policy)
    (ts : List FileTree) (k : Tracker) : Prop where
  policy : k.policy = { f with fromBeginning := f.fromBeginning || !ts.isEmpty }
  known : ∀ r ∈ k.known, ∃ c, (c, r.fingerprint) ∈ met ∧ c.generation < generation c.node ts
  previous : ∀ r ∈ k.previous, r.path ∈ paths ∧ Stands node met f ts r
  covers : ∀ path ∈ paths, held (node path) ts ≠ [] → ∃ r ∈ k.previous, r.path = path
  apart : k.previous.Pairwise fun a b => a.fingerprint ≠ b.fingerprint

structure Placed (paths : List Path) (node : Path → Nat) (met : List (Content × Fingerprint)) (size : Nat)
    (ts : List FileTree) (batch : List Path) (t : FileTree) : Prop where
  batch : ∀ path, path ∈ batch ↔ path ∈ paths
  apart : ∀ p ∈ paths, ∀ q ∈ paths, node p = node q → p = q
  opens : ∀ path ∈ paths, ∃ h, t.openFile path = .ok h ∧ h.node = node path
  seen : ∀ path ∈ paths, t.content (node path) ≠ [] →
    (.present (node path) (t :: ts), .ofContent size (t.content (node path))) ∈ met

section Batch

variable {paths batch : List Path} {node : Path → Nat} {met : List (Content × Fingerprint)} {f : Policy}
  {ts : List FileTree} {k : Tracker} {w : World} (hrivals : NoRivals met)
  (hsize : 0 < f.fingerprintSize) (hk : Knows paths node met f ts k)
  (hplaced : Placed paths node met f.fingerprintSize ts batch w.tree)
include hrivals hsize hk hplaced

omit hrivals hsize in
theorem Knows.identified {path : Path} {h : Handle} {fp : Fingerprint} (hpath : path ∈ paths)
    (hid : k.identify w.tree path = some (h, fp)) :
    h.node = node path ∧ (.present (node path) (w.tree :: ts), fp) ∈ met ∧
      fp.bytes = (w.tree.content (node path)).take f.fingerprintSize ∧ fp.bytes ≠ [] := by
  obtain ⟨hopen, hbytes, hfilled⟩ := identify_some hid
  obtain ⟨h', hopen', hnode⟩ := hplaced.opens path hpath
  obtain rfl : h' = h := by simpa [hopen'] using hopen
  rw [hnode, hk.policy] at hbytes
  have hcontent : w.tree.content (node path) ≠ [] := by
    intro hempty
    rw [hempty, List.take_nil] at hbytes
    exact hfilled hbytes
  have hfp : fp = .ofContent f.fingerprintSize (w.tree.content (node path)) := congrArg Fingerprint.mk hbytes
  exact ⟨hnode, hfp ▸ hplaced.seen path hpath hcontent, hbytes, hfilled⟩

omit hrivals in
theorem Knows.identifies {path : Path} (hpath : path ∈ paths)
    (hfilled : w.tree.content (node path) ≠ []) : ∃ h fp, k.identify w.tree path = some (h, fp) := by
  cases hid : k.identify w.tree path with
  | some id => exact ⟨id.1, id.2, rfl⟩
  | none =>
      obtain ⟨h, hopen, hnode⟩ := hplaced.opens path hpath
      have hempty := content_of_identify_none hid hopen (by rw [hk.policy]; exact hsize)
      rw [hnode] at hempty
      exact absurd hempty hfilled

omit hrivals hsize in
theorem Knows.sighted {x : Nat × Fingerprint} (hx : x ∈ k.sights w.tree batch) :
    (.present x.1 (w.tree :: ts), x.2) ∈ met := by
  obtain ⟨path, hpath, h, hid, hnode⟩ := of_mem_sights hx
  obtain ⟨hplace, hseen, _⟩ := hk.identified hplaced ((hplaced.batch path).mp hpath) hid
  rwa [← hnode, hplace]

omit hsize in
theorem Knows.rivals : NoRivals (k.sights w.tree batch) := by
  intro x hx y hy hne
  refine hrivals _ (hk.sighted hplaced hx) _ (hk.sighted hplaced hy) ?_
  intro hsame
  exact hne (congrArg Content.node hsame)

omit hsize in
theorem Knows.past {r : Reader} (hr : r ∈ k.known) {x : Nat × Fingerprint}
    (hx : x ∈ k.sights w.tree batch) : x.2.startsWith r.fingerprint = false := by
  by_contra hstart
  obtain ⟨c, hseen, hlt⟩ := hk.known r hr
  have hsame := hrivals.same hseen (hk.sighted hplaced hx) (by simpa using hstart)
  rw [hsame] at hlt
  exact absurd (generation_le x.1 w.tree ts) (Nat.not_le.mpr hlt)

omit hsize in
theorem Knows.onward {r : Reader} (hr : r ∈ k.kept) {x : Nat × Fingerprint}
    (hx : x ∈ k.sights w.tree batch) (hstart : x.2.startsWith r.fingerprint = true) :
    r ∈ k.previous ∧ node r.path = x.1 := by
  rcases List.mem_append.mp hr with hknown | hprevious
  · rw [hk.past hrivals hplaced hknown hx] at hstart
    cases hstart
  · exact ⟨hprevious, congrArg Content.node
      (hrivals.same (hk.previous r hprevious).2.seen (hk.sighted hplaced hx) hstart)⟩

omit hsize in
theorem Knows.unmixed : Unmixed (k.sights w.tree batch) k.kept := by
  have hsame {x y : Nat × Fingerprint} (hx : x ∈ k.sights w.tree batch) (hy : y ∈ k.sights w.tree batch)
      (hnode : x.1 = y.1) : x.2 = y.2 := by
    obtain ⟨n, fp⟩ := x
    obtain ⟨m, fp'⟩ := y
    obtain rfl : n = m := hnode
    exact fingerprint_unique hx hy
  have honward {r : Reader} (hr : r ∈ k.kept) {x : Nat × Fingerprint} (hx : x ∈ k.sights w.tree batch) :=
    hk.onward hrivals hplaced hr hx
  refine ⟨fun x hx y hy hagrees => ?_, fun r hr x hx y hy hstart hstart' => ?_, ?_⟩
  · exact hsame hx hy ((hk.rivals hrivals hplaced).agree hx hy hagrees)
  · exact hsame hx hy ((honward hr hx hstart).2.symm.trans (honward hr hy hstart').2)
  · refine List.pairwise_append.mpr ⟨?_, ?_, fun a ha b _ x hx hstart => ?_⟩
    · refine List.pairwise_of_forall_mem_list fun a ha b _ x hx hstart => ?_
      rw [hk.past hrivals hplaced ha hx] at hstart
      cases hstart
    · refine hk.apart.imp_of_mem fun {a b} ha hb hne x hx hstart => ?_
      by_contra hstart'
      obtain ⟨_, hnode⟩ := honward (List.mem_append_right _ ha) hx hstart
      obtain ⟨_, hnode'⟩ := honward (List.mem_append_right _ hb) hx (by simpa using hstart')
      have hbytes := (hk.previous a ha).2.bytes
      rw [hnode, ← hnode', ← (hk.previous b hb).2.bytes] at hbytes
      exact hne (congrArg Fingerprint.mk hbytes)
    · rw [hk.past hrivals hplaced ha hx] at hstart
      cases hstart

omit hrivals hsize in
theorem Knows.finds {r : Reader} (hr : r ∈ (k.opened batch w).readers) :
    r.path ∈ paths ∧ (.present (node r.path) (w.tree :: ts), r.fingerprint) ∈ met ∧
      r.fingerprint.bytes = (w.tree.content (node r.path)).take f.fingerprintSize ∧
      r.fingerprint.bytes ≠ [] := by
  obtain ⟨hbatch, _, _, hid, _⟩ := opened_built hr
  have hpath := (hplaced.batch _).mp hbatch
  exact ⟨hpath, (hk.identified hplaced hpath hid).2⟩

omit hsize in
theorem Knows.reads {r : Reader} (hr : r ∈ (k.opened batch w).readers) :
    r.path ∈ paths ∧ Stands node met f (w.tree :: ts) (r.settle w.tree) ∧
      (Content.present (node r.path) (w.tree :: ts)).records f.fromBeginning f.limit (w.tree :: ts) =
        (Content.present (node r.path) (w.tree :: ts)).records f.fromBeginning f.limit ts ++
          r.ahead w.tree := by
  have hpath : r.path ∈ paths := (hplaced.batch _).mp (opened_built hr).1
  have hsource := (opened_sources (hk.unmixed hrivals hplaced)).sources r hr
  obtain ⟨h, hid, hh, hmax⟩ := hsource.identified
  obtain ⟨hnode, hseen, hbytes, hfilled⟩ := hk.identified hplaced hpath hid
  have hlimit : r.maxLogSize = f.limit := by
    rw [hmax, hk.policy]
    rfl
  suffices hon : Content.ReadOn (node r.path) f.fromBeginning f.limit w.tree ts r.offset by
    have hle := hon.offset_le
    rw [← hnode] at hle
    have hahead := Reader.ahead_of_le hh hle
    have hsettle := Reader.settle_open hh w.tree
    rw [Reader.rewound_of_le hle] at hsettle
    rw [hlimit, hnode] at hahead hsettle
    rw [hsettle, hahead]
    exact ⟨hpath, ⟨⟨h, hh, hnode⟩, hseen, hbytes, hfilled, hon.reached.symm⟩, hon.records⟩
  cases hsource with
  | @resumed h' old hid' hold hmatch hr' =>
      have hsight := mem_sights (opened_built hr).1 hid'
      obtain ⟨hprevious, hplace⟩ := hk.onward hrivals hplaced hold hsight hmatch
      have hoffset : r.offset = old.offset := by
        rw [hr', Policy.offset_resume]
        rfl
      rw [hoffset]
      obtain ⟨_, hstands⟩ := hk.previous old hprevious
      have hcontent := hrivals.same hstands.seen hseen hmatch
      obtain rfl : h = h' := by simpa [hid] using hid'
      rw [hstands.offset, show node old.path = node r.path from hplace.trans hnode]
      rw [show node old.path = node r.path from hplace.trans hnode] at hcontent
      refine Content.readOn_reached f.limit_pos (present_cons_iff.mp hcontent.symm) fun hempty => ?_
      have hnone := hstands.bytes
      rw [show node old.path = node r.path from hplace.trans hnode, hempty, List.take_nil] at hnone
      exact hstands.filled hnone
  | @added h' hid' hnone hr' =>
      obtain rfl : h = h' := by simpa [hid] using hid'
      have hnew : held (node r.path) ts <+: w.tree.content (node r.path) → held (node r.path) ts = [] := by
        intro hgrows
        by_contra hheld
        obtain ⟨old, hold, hplace⟩ := hk.covers r.path hpath hheld
        obtain ⟨_, hstands⟩ := hk.previous old hold
        have hstart : r.fingerprint.startsWith old.fingerprint = true := by
          refine Fingerprint.startsWith_iff.mpr ⟨hstands.filled, ?_⟩
          rw [hstands.bytes, hplace, hbytes]
          exact hgrows.take _
        rw [hnone old (List.mem_append_right _ hold)] at hstart
        cases hstart
      have hoffset : r.offset =
          (Content.present (node r.path) (w.tree :: ts)).start f.fromBeginning (w.tree :: ts) := by
        rw [Content.start_anew hnew, hr', Policy.offset_fresh, hk.policy, hnode]
        rfl
      rw [hoffset]
      exact Content.readOn_start hnew

theorem Knows.opens {path : Path} (hpath : path ∈ paths) (hfilled : w.tree.content (node path) ≠ []) :
    ∃ r ∈ (k.opened batch w).readers, r.path = path := by
  obtain ⟨h, fp, hid⟩ := hk.identifies hsize hplaced hpath hfilled
  obtain ⟨hnode, hseen, _, hne⟩ := hk.identified hplaced hpath hid
  have hsight := mem_sights ((hplaced.batch path).mpr hpath) hid
  obtain ⟨r, hr, rfl, _⟩ := opened_finds (hk.rivals hrivals hplaced) hsight
  obtain ⟨hpath', hseen', _⟩ := hk.finds hplaced hr
  have hcontent := hrivals.same hseen hseen' (Fingerprint.startsWith_refl hne)
  exact ⟨r, hr, hplaced.apart _ hpath' _ hpath (congrArg Content.node hcontent).symm⟩

theorem Knows.lost {r : Reader} (hr : r ∈ (k.opened batch w).lost) :
    r ∈ k.previous ∧ r.ahead w.tree = [] := by
  obtain ⟨hprevious, hlost⟩ := List.mem_filter.mp hr
  have hprevious := (k.opened_previous batch w).subset hprevious
  obtain ⟨hpath, hstands⟩ := hk.previous r hprevious
  obtain ⟨h, hh, hnode⟩ := hstands.handle
  refine ⟨hprevious, Reader.ahead_empty hh ?_⟩
  rw [hnode]
  by_contra hfilled
  obtain ⟨r', hr', hplace⟩ := hk.opens hrivals hsize hplaced hpath hfilled
  obtain ⟨_, hstands', _⟩ := hk.reads hrivals hplaced hr'
  obtain ⟨h', hh', hnode'⟩ := hstands'.handle
  rw [Reader.handle_settle] at hh'
  rw [Reader.path_settle, hplace] at hnode'
  have hsame : r.sameFile r' = true := by simp [Reader.sameFile, hh, hh', hnode, hnode']
  have hcontinues : continues r r' = true := by simp [continues, hplace, Path.same, hsame]
  have hfound : (k.opened batch w).readers.reverse.any (continues r) = true :=
    List.any_eq_true.mpr ⟨r', List.mem_reverse.mpr hr', hcontinues⟩
  rw [isLeftBehind, hfound] at hlost
  cases hlost

theorem Knows.outdated {r : Reader} (hr : r ∈ (k.opened batch w).tracker.kept) :
    ∃ c, (c, r.fingerprint) ∈ met ∧ c.generation < generation c.node (w.tree :: ts) := by
  have hsources := opened_sources (hk.unmixed hrivals hplaced)
  rcases List.mem_append.mp (hsources.sublist.subset hr) with hknown | hprevious
  · obtain ⟨c, hseen, hlt⟩ := hk.known r hknown
    exact ⟨c, hseen, Nat.lt_of_lt_of_le hlt (generation_le c.node w.tree ts)⟩
  · obtain ⟨hpath, hstands⟩ := hk.previous r hprevious
    refine ⟨_, hstands.seen, generation_lt fun hgrows => ?_⟩
    change held (node r.path) ts <+: w.tree.content (node r.path) at hgrows
    have hstart := hgrows.take f.fingerprintSize
    rw [← hstands.bytes] at hstart
    have hfilled : w.tree.content (node r.path) ≠ [] := by
      intro hempty
      rw [hempty, List.take_nil] at hstart
      exact hstands.filled (List.prefix_nil.mp hstart)
    obtain ⟨h, fp, hid⟩ := hk.identifies hsize hplaced hpath hfilled
    obtain ⟨_, _, hbytes, _⟩ := hk.identified hplaced hpath hid
    have huntaken := hsources.untaken r hr _ (mem_sights ((hplaced.batch _).mpr hpath) hid)
    rw [Fingerprint.startsWith_iff.mpr ⟨hstands.filled, hbytes ▸ hstart⟩] at huntaken
    cases huntaken

theorem Knows.opens_only {path : Path} (hpath : path ∈ paths)
    (hfilled : w.tree.content (node path) ≠ []) :
    ∃ r ∈ (k.opened batch w).readers, r.path = path ∧
      ((k.opened batch w).readers.reverse.filter fun r => decide (r.path = path)) = [r] := by
  obtain ⟨r, hr, hplace⟩ := hk.opens hrivals hsize hplaced hpath hfilled
  have hmem := List.mem_reverse.mpr hr
  refine ⟨r, hr, hplace, ?_⟩
  rw [← filter_fingerprint hmem (k.opened_apart batch w)]
  refine List.filter_congr fun r' hr' => decide_eq_decide.mpr ?_
  obtain ⟨_, hseen, hbytes, hne⟩ := hk.finds hplaced hr
  obtain ⟨hpath', hseen', hbytes', _⟩ := hk.finds hplaced (List.mem_reverse.mp hr')
  constructor
  · intro hplace'
    rw [hplace', ← hplace, ← hbytes] at hbytes'
    exact congrArg Fingerprint.mk hbytes'
  · intro hsame
    have hcontent := hrivals.same hseen hseen' (by rw [hsame]; exact Fingerprint.startsWith_refl hne)
    rw [← hplace]
    exact hplaced.apart _ hpath' _ (hplace ▸ hpath) (congrArg Content.node hcontent).symm

omit hsize in
theorem Knows.met_iff {path : Path} (hpath : path ∈ paths) (g : Nat) {r : Reader}
    (hr : r ∈ (k.opened batch w).readers) :
    (⟨node path, g⟩, r.fingerprint) ∈ met ↔
      r.path = path ∧ Content.mk (node path) g = .present (node path) (w.tree :: ts) := by
  obtain ⟨hpath', hseen, _, hne⟩ := hk.finds hplaced hr
  constructor
  · intro hmem
    have hcontent := hrivals.same hmem hseen (Fingerprint.startsWith_refl hne)
    have hplace := hplaced.apart _ hpath' _ hpath (congrArg Content.node hcontent).symm
    exact ⟨hplace, by rw [hcontent, hplace]⟩
  · rintro ⟨rfl, hcontent⟩
    rwa [hcontent]

theorem Knows.filter_readers {path : Path} (hpath : path ∈ paths) (g : Nat) :
    (Content.mk (node path) g).records f.fromBeginning f.limit (w.tree :: ts) =
      (Content.mk (node path) g).records f.fromBeginning f.limit ts ++
        ((k.opened batch w).readers.reverse.filter fun r =>
          decide ((⟨node path, g⟩, r.fingerprint) ∈ met)).flatMap (Reader.ahead w.tree) := by
  have hmet {r : Reader} (hr : r ∈ (k.opened batch w).readers.reverse) :=
    hk.met_iff hrivals hplaced hpath g (List.mem_reverse.mp hr)
  by_cases hcontent : Content.mk (node path) g = .present (node path) (w.tree :: ts)
  · have hplaces : ((k.opened batch w).readers.reverse.filter fun r =>
        decide ((⟨node path, g⟩, r.fingerprint) ∈ met)) =
        (k.opened batch w).readers.reverse.filter fun r => decide (r.path = path) :=
      List.filter_congr fun r hr => decide_eq_decide.mpr ((hmet hr).trans (and_iff_left hcontent))
    rw [hplaces, hcontent]
    by_cases hempty : w.tree.content (node path) = []
    · have hnone : ((k.opened batch w).readers.reverse.filter fun r => decide (r.path = path)) = [] := by
        refine List.filter_eq_nil_iff.mpr fun r hr hplace => ?_
        obtain ⟨_, _, hbytes, hne⟩ := hk.finds hplaced (List.mem_reverse.mp hr)
        rw [of_decide_eq_true hplace, hempty, List.take_nil] at hbytes
        exact hne hbytes
      have hnew (hgrows : held (node path) ts <+: w.tree.content (node path)) : held (node path) ts = [] :=
        List.prefix_nil.mp (hempty ▸ hgrows)
      have hlast : (Content.present (node path) (w.tree :: ts)).last (w.tree :: ts) = [] := by
        rw [Content.last_present]
        exact hempty
      rw [hnone, Content.records_of_last hlast, Content.records_of_last (Content.last_anew hnew)]
      rfl
    · obtain ⟨r, hr, hplace, honly⟩ := hk.opens_only hrivals hsize hplaced hpath hempty
      obtain ⟨_, _, hrecords⟩ := hk.reads hrivals hplaced hr
      rw [hplace] at hrecords
      rw [honly, hrecords, List.flatMap_singleton]
  · rw [Content.records_past hcontent, List.filter_eq_nil_iff.mpr, List.flatMap_nil, List.append_nil]
    intro r hr hmem
    exact hcontent ((hmet hr).mp (of_decide_eq_true hmem)).2

/-- A batch hands over what came to the present contents of its files, and nothing else. -/
theorem Knows.delivers (hcalm : w.outlet.Calm (k.collect batch w).2.outlet) :
    ∃ bs, w.Took (k.collect batch w).2 bs ∧
      (∀ b ∈ bs, ∃ path ∈ paths, ∃ g, (⟨node path, g⟩, b.metadata.fingerprint) ∈ met) ∧
      ∀ path ∈ paths, ∀ g,
        (Content.mk (node path) g).records f.fromBeginning f.limit (w.tree :: ts) =
          (Content.mk (node path) g).records f.fromBeginning f.limit ts ++
            (bs.filter fun b => (⟨node path, g⟩, b.metadata.fingerprint) ∈ met).flatMap Batch.records := by
  obtain ⟨bs, cs, htook, hlost, hread⟩ := collect_hands hcalm
  refine ⟨bs ++ cs, htook, fun b hb => ?_, fun path hpath g => ?_⟩
  · rcases List.mem_append.mp hb with hb | hb
    · obtain ⟨r, hr, hsame⟩ := hlost.stamped b hb
      obtain ⟨hpath, hstands⟩ := hk.previous r (hk.lost hrivals hsize hplaced hr).1
      exact ⟨r.path, hpath, _, hsame ▸ hstands.seen⟩
    · obtain ⟨r, hr, hsame⟩ := hread.stamped b hb
      obtain ⟨hpath, hstands, _⟩ := hk.reads hrivals hplaced (List.mem_reverse.mp hr)
      have hseen := hstands.seen
      rw [Reader.path_settle, Reader.fingerprint_settle, ← hsame] at hseen
      exact ⟨r.path, hpath, _, hseen⟩
  · have hnone : ((k.opened batch w).lost.filter fun r =>
        decide ((⟨node path, g⟩, r.fingerprint) ∈ met)).flatMap (Reader.ahead w.tree) = [] := by
      refine List.flatMap_eq_nil_iff.mpr fun r hr => ?_
      exact (hk.lost hrivals hsize hplaced (List.mem_filter.mp hr).1).2
    rw [hk.filter_readers hrivals hsize hplaced hpath g, List.filter_append, List.flatMap_append,
      hlost.records fun fp => decide ((⟨node path, g⟩, fp) ∈ met), hnone, List.nil_append,
      hread.records fun fp => decide ((⟨node path, g⟩, fp) ∈ met)]

omit hrivals hsize hk hplaced in
theorem Knows.congr {k' : Tracker} (hk : Knows paths node met f ts k) (hpolicy : k'.policy = k.policy)
    (hknown : k'.known ⊆ k.known) (hprevious : k'.previous = k.previous) :
    Knows paths node met f ts k' :=
  ⟨hpolicy.trans hk.policy, fun r hr => hk.known r (hknown hr), hprevious ▸ hk.previous,
    hprevious ▸ hk.covers, hprevious ▸ hk.apart⟩

theorem Knows.collect (hcalm : w.outlet.Calm (k.collect batch w).2.outlet) :
    Knows paths node met f (w.tree :: ts) (k.collect batch w).1.readFromBeginning := by
  obtain ⟨hprevious, hknown⟩ := collect_calm hcalm
  have halike := (k.collect_alike batch w).1
  refine ⟨?_, fun r hr => ?_, fun r hr => ?_, fun path hpath hfilled => ?_, collect_apart hcalm⟩
  · rw [readFromBeginning, halike.policy, hk.policy]
    simp
  · change r ∈ (k.collect batch w).1.known at hr
    rw [hknown] at hr
    have hkept : ∃ old ∈ (k.opened batch w).tracker.kept, old.fingerprint = r.fingerprint := by
      rcases List.mem_append.mp hr with hr | hr
      · exact ⟨r, List.mem_append_left _ hr, rfl⟩
      · obtain ⟨closed, hclosed, rfl⟩ := List.mem_map.mp hr
        rcases List.mem_append.mp hclosed with hstayed | hlost
        · exact ⟨closed, List.mem_append_right _ (List.mem_filter.mp hstayed).1, rfl⟩
        · obtain ⟨old, hold, rfl⟩ := List.mem_map.mp hlost
          exact ⟨old, List.mem_append_right _ (List.mem_filter.mp hold).1,
            (Reader.fingerprint_settle w.tree old).symm⟩
    obtain ⟨old, hold, hsame⟩ := hkept
    rw [← hsame]
    exact hk.outdated hrivals hsize hplaced hold
  · change r ∈ (k.collect batch w).1.previous at hr
    rw [hprevious] at hr
    obtain ⟨r', hr', rfl⟩ := List.mem_map.mp hr
    obtain ⟨hpath, hstands, _⟩ := hk.reads hrivals hplaced (List.mem_reverse.mp hr')
    exact ⟨by rwa [Reader.path_settle], hstands⟩
  · obtain ⟨r, hr, hplace⟩ := hk.opens hrivals hsize hplaced hpath hfilled
    refine ⟨r.settle w.tree, ?_, by rw [Reader.path_settle, hplace]⟩
    change _ ∈ (k.collect batch w).1.previous
    rw [hprevious]
    exact List.mem_map_of_mem (List.mem_reverse.mpr hr)

end Batch

theorem sightings_append (size : Nat) (nodes : List Nat) (later ts : List FileTree) :
    sightings size nodes ts ⊆ sightings size nodes (later ++ ts) := by
  induction later with
  | nil => exact List.Subset.refl _
  | cons t later ih => exact List.Subset.trans ih (List.subset_append_right _ _)

namespace Session

/-- What happens to files that keep their places. Between polls they get whatever contents; every poll
finds just these files, in one batch, and is not disturbed. -/
def InPlace (paths : List Path) (node : Path → Nat) (s : Session) : Act → Prop
  | .change _ => True
  | .poll => ∃ k, s.Undisturbed k ∧
      (k.matched s.world.tree).length ≤ max k.settings.batchFiles 1 ∧
      (∀ path, path ∈ k.matched s.world.tree ↔ path ∈ paths) ∧
      ∀ path ∈ paths, ∃ h, s.world.tree.openFile path = .ok h ∧ h.node = node path
  | _ => False

def history (s : Session) : List Act → List FileTree
  | [] => []
  | .poll :: acts => (s.step .poll).history acts ++ [s.world.tree]
  | a :: acts => (s.step a).history acts

structure UpToDate (paths : List Path) (node : Path → Nat) (met : List (Content × Fingerprint))
    (f : Policy) (ts : List FileTree) (s : Session) : Prop where
  tracker {k : Tracker} : s.consumer.phase = .running k → Knows paths node met f ts k
  stamped : ∀ b ∈ s.world.outlet.batches,
    ∃ path ∈ paths, ∃ g, (⟨node path, g⟩, b.metadata.fingerprint) ∈ met
  records : ∀ path ∈ paths, ∀ g, s.world.delivered met ⟨node path, g⟩ =
    (Content.mk (node path) g).records f.fromBeginning f.limit ts

section Run

variable {paths : List Path} {node : Path → Nat} {met : List (Content × Fingerprint)} {f : Policy}
  {ts : List FileTree} {s : Session} (hrivals : NoRivals met) (hsize : 0 < f.fingerprintSize)
  (hapart : ∀ p ∈ paths, ∀ q ∈ paths, node p = node q → p = q)
include hrivals hsize hapart

theorem UpToDate.poll (h : UpToDate paths node met f ts s) (hplace : s.InPlace paths node .poll)
    (hmet : sightings f.fingerprintSize (paths.map node) (s.world.tree :: ts) ⊆ met) :
    UpToDate paths node met f (s.world.tree :: ts) (s.step .poll) := by
  obtain ⟨k, ⟨hphase, _, hcalm⟩, hone, hbatch, hopens⟩ := hplace
  rw [step_poll hphase, outlet_poll hone] at hcalm
  have hk : Knows paths node met f ts { k with gathered := [] } :=
    (h.tracker hphase).congr rfl (List.Subset.refl _) rfl
  have hplaced : Placed paths node met f.fingerprintSize ts (k.matched s.world.tree) s.world.tree := by
    refine ⟨hbatch, hapart, hopens, fun path hpath hfilled => hmet (List.mem_append_left _ ?_)⟩
    exact List.mem_map_of_mem (List.mem_filter.mpr
      ⟨List.mem_map_of_mem hpath, by simpa [List.isEmpty_iff] using hfilled⟩)
  obtain ⟨bs, htook, hstamped, hrecords⟩ := hk.delivers hrivals hsize hplaced hcalm
  have houtlet : (s.step .poll).world.outlet =
      ({ k with gathered := [] }.collect (k.matched s.world.tree) s.world).2.outlet := by
    rw [step_poll hphase, outlet_poll hone]
  have htook : s.world.outlet.Took (s.step .poll).world.outlet bs := by
    rw [houtlet]
    exact htook.outlet
  refine ⟨fun {k'} hphase' => ?_, fun b hb => ?_, fun path hpath g => ?_⟩
  · simp only [step, Consumer.poll, hphase] at hphase'
    cases hpoll : k.poll s.world with
    | mk o w' =>
        cases o with
        | none =>
            rw [hpoll] at hphase'
            cases hphase'
        | some k'' =>
            rw [hpoll] at hphase'
            obtain rfl : k'' = k' := by simpa using hphase'
            rw [tracker_poll hone hpoll]
            exact (hk.collect hrivals hsize hplaced hcalm).congr rfl (List.drop_subset _ _) rfl
  · rw [htook.batches_eq] at hb
    rcases List.mem_append.mp hb with hb | hb
    · exact h.stamped b hb
    · exact hstamped b hb
  · rw [delivered_took htook, h.records path hpath g, hrecords path hpath g]

theorem UpToDate.run {acts : List Act} (h : UpToDate paths node met f ts s)
    (hplaces : s.Allows (InPlace paths node) acts)
    (hmet : sightings f.fingerprintSize (paths.map node) (s.history acts ++ ts) ⊆ met) :
    UpToDate paths node met f (s.history acts ++ ts) (s.run acts) := by
  induction acts generalizing s ts with
  | nil => exact h
  | cons a acts ih =>
      obtain ⟨hplace, hplaces⟩ := hplaces
      cases a with
      | change tree => exact ih ⟨h.tracker, h.stamped, h.records⟩ hplaces hmet
      | poll =>
          rw [history, List.append_assoc, List.singleton_append] at hmet ⊢
          have hsightings := List.Subset.trans (sightings_append _ _ _ _) hmet
          exact ih (h.poll hrivals hsize hapart hplace hsightings) hplaces hmet
      | emitter | memory | start | stop | rebuild | die => exact hplace.elim

end Run

theorem Fresh.upToDate {c : Config} {s : Session} (h : s.Fresh c) (paths : List Path)
    (node : Path → Nat) (met : List (Content × Fingerprint)) :
    UpToDate paths node met c.policy [] (s.step .start) := by
  obtain ⟨_, selector, horigin⟩ := Consumer.ofConfig_ok h.built
  have hphase : s.consumer.phase = .stopped (.ofParts selector c.policy c.settings) := by
    rw [h.consumer, horigin]
    rfl
  have hnone {w : World} (hw : w.outlet.accepted = s.world.outlet.accepted) : w.outlet.batches = [] := by
    rw [Outlet.batches, hw, h.outlet]
    rfl
  have hbegin {w : World} (hw : w.outlet.batches = []) (path : Path) (g : Nat) :
      w.delivered met ⟨node path, g⟩ =
        (Content.mk (node path) g).records c.policy.fromBeginning c.policy.limit [] := by
    rw [World.delivered, hw, Content.records_of_last rfl]
    rfl
  rcases start_cases s.consumer s.store s.world with
    ⟨e, w', hstart, _, _, houtlet⟩ | ⟨k, files, format, w', hphase', hload, hstart, _, _, houtlet⟩
  · have hbatches := hnone (w := w') (by rw [houtlet])
    simp only [step, hstart]
    refine ⟨fun {k} hrunning => ?_, by simp [hbatches], fun path _ g => hbegin hbatches path g⟩
    rw [hphase] at hrunning
    cases hrunning
  · obtain rfl := load_holds (.inl ⟨rfl, h.held⟩) hload
    obtain rfl : Tracker.ofParts selector c.policy c.settings = k := by
      rw [hphase] at hphase'
      cases hphase'
      rfl
    have hbatches := hnone (w := w') (by rw [houtlet]; rfl)
    simp only [step, hstart]
    refine ⟨fun {k'} hrunning => ?_, by simp [hbatches], fun path _ g => hbegin hbatches path g⟩
    cases hrunning
    exact ⟨by simp [Tracker.resume, Tracker.ofParts], by simp [Tracker.resume, Tracker.ofParts],
      by simp [Tracker.resume, Tracker.ofParts], fun _ _ hheld => absurd rfl hheld,
      by simp [Tracker.resume, Tracker.ofParts]⟩

/-- Truncation in place: of all contents that files have one after the other exactly the records are
delivered that framing yields, each once and in their order, for what the content was at the last poll
that found it. One that was there at the first poll counts from where its reader starts. -/
theorem delivers_each_content {c : Config} {s : Session} {acts : List Act} {paths : List Path}
    {node : Path → Nat} (hfresh : s.Fresh c)
    (hplaces : (s.step .start).Allows (InPlace paths node) acts)
    (hapart : ∀ p ∈ paths, ∀ q ∈ paths, node p = node q → p = q)
    (hrivals : NoRivals (sightings c.fingerprintSize (paths.map node) ((s.step .start).history acts))) :
    let ts := (s.step .start).history acts
    let met := sightings c.fingerprintSize (paths.map node) ts
    let w := ((s.step .start).run acts).world
    (∀ b ∈ w.outlet.batches, ∃ path ∈ paths, ∃ g, (⟨node path, g⟩, b.metadata.fingerprint) ∈ met) ∧
      ∀ path ∈ paths, ∀ g,
        let content : Content := ⟨node path, g⟩
        let start := content.start (c.startAt = .beginning) ts
        w.delivered met content =
          Reader.recordsFrom start (pieces c.maxLogSize ((content.last ts).drop start)) := by
  intro ts met w
  have hvalid := (Consumer.ofConfig_ok hfresh.built).1
  have hsize : 0 < c.policy.fingerprintSize := hvalid.fingerprintSize_pos
  have hend := (hfresh.upToDate paths node met).run hrivals hsize hapart hplaces
    (by rw [List.append_nil]; exact List.Subset.refl _)
  rw [List.append_nil] at hend
  refine ⟨hend.stamped, fun path hpath g => ?_⟩
  rw [← Policy.limit_config hvalid]
  exact hend.records path hpath g

def findsIn (path : Path) (n : Nat) : Session → List Act → Bool
  | _, [] => true
  | s, .change tree :: acts => findsIn path n (s.step (.change tree)) acts
  | s, .poll :: acts =>
    s.polled = some [path] && (s.world.tree.openFile path).toOption.any (·.node = n) &&
      findsIn path n (s.step .poll) acts
  | _, _ => false

theorem allows_of_findsIn {path : Path} {n : Nat} {s : Session} {acts : List Act}
    (hwilling : s.world.outlet.Willing) (hfinds : s.findsIn path n acts = true) :
    s.Allows (InPlace [path] fun _ => n) acts := by
  induction acts generalizing s with
  | nil => exact trivial
  | cons a acts ih =>
      cases a with
      | change tree => exact ⟨trivial, ih (s := s.step (.change tree)) hwilling hfinds⟩
      | poll =>
          simp only [findsIn, Bool.and_eq_true, decide_eq_true_eq] at hfinds
          obtain ⟨⟨hpolled, hopen⟩, hfinds⟩ := hfinds
          obtain ⟨k, hpoll, hmatched⟩ := undisturbed_of_polled hpolled hwilling.accepting
          obtain ⟨bs, htook⟩ := (poll_took k s.world).1
          refine ⟨⟨k, hpoll, ?_, fun path' => by rw [hmatched], fun path' hpath => ?_⟩, ih ?_ hfinds⟩
          · rw [hmatched]
            exact Nat.le_max_right _ _
          · obtain rfl : path' = path := by simpa using hpath
            cases hfile : s.world.tree.openFile path' with
            | error e =>
                rw [hfile] at hopen
                cases hopen
            | ok h =>
                rw [hfile] at hopen
                exact ⟨h, rfl, of_decide_eq_true hopen⟩
          · rw [step_poll hpoll.running]
            exact hwilling.took htook
      | emitter | memory | start | stop | rebuild | die => cases hfinds

theorem delivers_each_content_overwritten :
    let log (bs : Bytes) := ofFiles [("a.log", true, bs)]
    let s := ofConsumer logFollower (log [97, 10, 97])
    let acts : List Act := [.poll, .change (log []), .poll, .change (log [98, 10]), .poll,
      .change (log [98, 10, 98, 98, 10]), .poll, .change (log [99, 10, 99, 99, 99, 10]), .poll]
    let paths : List Path := [⟨"a.log"⟩]
    let ts := (s.step .start).history acts
    let met := sightings followLogs.fingerprintSize (paths.map fun _ => 3) ts
    let w := ((s.step .start).run acts).world
    s.Fresh followLogs ∧ (s.step .start).Allows (InPlace paths fun _ => 3) acts ∧ NoRivals met ∧
      (∀ b ∈ w.outlet.batches, ∃ g, (⟨3, g⟩, b.metadata.fingerprint) ∈ met) ∧
      w.delivered met ⟨3, 0⟩ = [⟨"a", 0, 2⟩] ∧
      w.delivered met ⟨3, 1⟩ = [⟨"b", 0, 2⟩, ⟨"bb", 2, 3⟩] ∧
      w.delivered met ⟨3, 2⟩ = [⟨"c", 0, 2⟩, ⟨"ccc", 2, 4⟩] := by
  intro log s acts paths ts met w
  have hfresh : s.Fresh followLogs :=
    fresh_ofConsumer ofConfig_followLogs (countable_of_nodes (by decide))
  have hrun : (s.step .start).findsIn ⟨"a.log"⟩ 3 acts = true ∧ NoRivals met := by decide +kernel
  obtain ⟨hfinds, hrivals⟩ := hrun
  have hplaces : (s.step .start).Allows (InPlace paths fun _ => 3) acts :=
    allows_of_findsIn hfresh.willing hfinds
  obtain ⟨hstamped, hrecords⟩ := delivers_each_content hfresh hplaces (by simp [paths]) hrivals
  have hlog : (⟨"a.log"⟩ : Path) ∈ paths := List.mem_singleton_self _
  refine ⟨hfresh, hplaces, hrivals, fun b hb => ?_, ?_, ?_, ?_⟩
  · obtain ⟨_, _, g, hseen⟩ := hstamped b hb
    exact ⟨g, hseen⟩
  · exact (hrecords _ hlog 0).trans (by decide +kernel)
  · exact (hrecords _ hlog 1).trans (by decide +kernel)
  · exact (hrecords _ hlog 2).trans (by decide +kernel)

end Session

end LogTail
