import LogTail.Proofs.History
import LogTail.Proofs.NewFiles
import LogTail.Proofs.Restoring

namespace LogTail

open Tracker List

section Streams

variable {α : Type} {stream : Fingerprint → α} {saved found : List Fingerprint}

variable [DecidableEq α] {capacity : Nat}

/-- Fingerprints name contents that are told apart by them: those of a checkpoint, each of another
content, and those found behind it, where one of a content goes on from every earlier one. There is room
for the checkpoint and for all contents that are found. -/
structure Recognisable (stream : Fingerprint → α) (capacity : Nat) (saved found : List Fingerprint) :
    Prop where
  unrelated : NoRivals ((saved ++ found).map fun fp => (stream fp, fp))
  distinct : (saved.map stream).Nodup
  onward : found.Pairwise fun f g => stream f = stream g → g.startsWith f = true
  room : saved.length + (found.map stream).dedup.length ≤ capacity

instance : Decidable (Recognisable stream capacity saved found) :=
  decidable_of_iff (NoRivals ((saved ++ found).map fun fp => (stream fp, fp)) ∧
      (saved.map stream).Nodup ∧
      (found.Pairwise fun f g => stream f = stream g → g.startsWith f = true) ∧
      saved.length + (found.map stream).dedup.length ≤ capacity)
    ⟨fun ⟨a, b, c, d⟩ => ⟨a, b, c, d⟩, fun ⟨a, b, c, d⟩ => ⟨a, b, c, d⟩⟩

namespace Recognisable

theorem same (h : Recognisable stream capacity saved found) {f g : Fingerprint}
    (hf : f ∈ saved ++ found) (hg : g ∈ saved ++ found) (hagrees : f.agrees g = true) :
    stream f = stream g :=
  h.unrelated.agree (List.mem_map_of_mem hf) (List.mem_map_of_mem hg) hagrees

theorem of_prefix (h : Recognisable stream capacity saved found) {found' : List Fingerprint}
    (hfront : found' <+: found) : Recognisable stream capacity saved found' where
  unrelated := h.unrelated.mono fun x hx => by
    obtain ⟨fp, hfp, rfl⟩ := List.mem_map.mp hx
    refine List.mem_map_of_mem ?_
    rcases List.mem_append.mp hfp with hfp | hfp
    · exact List.mem_append_left _ hfp
    · exact List.mem_append_right _ (hfront.subset hfp)
  distinct := h.distinct
  onward := h.onward.sublist hfront.sublist
  room := by
    have hfewer : (found'.map stream).dedup.length ≤ (found.map stream).dedup.length :=
      (List.nodup_dedup _).length_le_of_subset fun a ha =>
        List.mem_dedup.mpr ((hfront.map stream).subset (List.mem_dedup.mp ha))
    have := h.room
    omega

theorem last {fp : Fingerprint} (h : Recognisable stream capacity saved (found ++ [fp])) :
    ∀ g ∈ found, stream g = stream fp → fp.startsWith g = true := fun g hg =>
  (List.pairwise_append.mp h.onward).2.2 g hg fp (by simp)

end Recognisable

/-- How many fingerprints a tracker may hold: of every content that is named in the checkpoint one, and
one more of every content that was found. Those that were not found themselves are of the checkpoint. -/
structure Tally (stream : Fingerprint → α) (saved found fps : List Fingerprint) : Prop where
  come : ∀ fp ∈ fps, fp ∈ saved ++ found
  all : fps.map stream <+~ saved.map stream ++ (found.map stream).dedup
  old : (fps.filter (· ∉ found)).map stream <+~ saved.map stream

namespace Tally

variable {fps fps' : List Fingerprint} {f fp : Fingerprint}

omit [DecidableEq α] in
theorem map_subperm (f : Fingerprint → α) (h : fps' <+~ fps) : fps'.map f <+~ fps.map f := by
  obtain ⟨mid, hperm, hsub⟩ := h
  exact ⟨mid.map f, hperm.map f, hsub.map f⟩

theorem start : Tally stream saved [] saved where
  come := by simp
  all := by
    rw [List.map_nil, List.dedup_nil, List.append_nil]
  old := map_subperm stream (List.filter_sublist).subperm

theorem length_le (h : Tally stream saved found fps) :
    fps.length ≤ saved.length + (found.map stream).dedup.length := by
  have := h.all.length_le
  rwa [List.length_map, List.length_append, List.length_map] at this

theorem subperm (h : Tally stream saved found fps) (hsub : fps' <+~ fps) :
    Tally stream saved found fps' where
  come g hg := h.come g (hsub.subset hg)
  all := (map_subperm stream hsub).trans h.all
  old := (map_subperm stream (hsub.filter _)).trans h.old

theorem found_more (h : Tally stream saved found fps) (fp : Fingerprint) :
    Tally stream saved (found ++ [fp]) fps where
  come g hg := by
    rw [← List.append_assoc]
    exact List.mem_append_left _ (h.come g hg)
  all := by
    refine h.all.trans ((List.subperm_append_left _).mpr (List.subperm_iff_count.mpr fun a => ?_))
    rw [List.count_dedup, List.count_dedup]
    by_cases ha : a ∈ found.map stream
    · rw [if_pos ha, if_pos (by simp only [List.map_append, List.mem_append]; exact .inl ha)]
    · rw [if_neg ha]
      exact Nat.zero_le _
  old := by
    refine (map_subperm stream (List.Sublist.subperm ?_)).trans h.old
    refine List.monotone_filter_right fps fun g hg => ?_
    simp only [List.mem_append, not_or, decide_eq_true_eq] at hg ⊢
    exact hg.1

theorem replace (h : Tally stream saved found (f :: fps)) (hfp : fp ∈ found)
    (hsame : stream f = stream fp) : Tally stream saved found (fp :: fps) where
  come := List.forall_mem_cons.mpr ⟨List.mem_append_right _ hfp, (List.forall_mem_cons.mp h.come).2⟩
  all := by
    have hall := h.all
    rwa [List.map_cons, hsame, ← List.map_cons] at hall
  old := by
    rw [List.filter_cons_of_neg (by simpa using hfp)]
    exact (h.subperm (List.subperm_cons_self)).old

theorem add (h : Tally stream saved found fps)
    (hnone : ∀ g ∈ fps, stream g = stream fp → g ∉ found) :
    Tally stream saved (found ++ [fp]) (fp :: fps) where
  come := List.forall_mem_cons.mpr ⟨by simp, (h.found_more fp).come⟩
  all := by
    rw [List.subperm_iff_count]
    intro a
    rw [List.map_cons, List.count_cons, List.count_append, List.count_dedup]
    by_cases ha : stream fp = a
    · subst ha
      have hkept : (fps.map stream).count (stream fp) =
          ((fps.filter (· ∉ found)).map stream).count (stream fp) := by
        rw [List.count_eq_countP, List.count_eq_countP, List.countP_map, List.countP_map,
          List.countP_filter]
        refine List.countP_congr fun g hg => ?_
        simpa using hnone g hg
      have hcount := List.subperm_iff_count.mp h.old (stream fp)
      rw [← hkept] at hcount
      simpa using hcount
    · have hcount := List.subperm_iff_count.mp (h.found_more fp).all a
      rw [List.count_append, List.count_dedup] at hcount
      simpa [ha] using hcount
  old := by
    rw [List.filter_cons_of_neg (by simp)]
    exact (h.found_more fp).old

theorem unique (h : Tally stream saved found fps) (hdistinct : (saved.map stream).Nodup)
    (hnew : stream fp ∉ found.map stream) : (fps.map stream).count (stream fp) ≤ 1 := by
  have hcount := List.subperm_iff_count.mp h.all (stream fp)
  rw [List.count_append, List.count_dedup, if_neg hnew] at hcount
  exact hcount.trans (List.nodup_iff_count_le_one.mp hdistinct _)

end Tally

end Streams

namespace Tracker

variable {α : Type} [DecidableEq α] {stream : Fingerprint → α} {f : Policy} {capacity : Nat}
  {files : List Metadata} {found : List Fingerprint} {k k' : Tracker}

theorem Opens.remembers {s s' : Opening} {path : Path} (hopens : Opens s path s') {r : Reader}
    (hr : r ∈ s.tracker.known)
    (hother : ∀ h fp, s.tracker.identify s.world.tree path = some (h, fp) →
      fp.startsWith r.fingerprint = false) : r ∈ s'.tracker.known := by
  cases hopens with
  | unreadable | copy => exact hr
  | added _ _ hkept _ _ _ _ _ hprevious =>
      rw [kept, kept, hprevious, List.append_cancel_right_eq] at hkept
      rwa [hkept]
  | @resumed h fp old _ back _ hid _ hsplit hrest hmatch _ _ _ _ _ hyields =>
      have hne : r ≠ old := by
        rintro rfl
        rw [hother h fp hid] at hmatch
        cases hmatch
      rcases hyields with ⟨front, hprevious, hrest'⟩ | ⟨hprevious, back', rfl⟩
      · rw [kept, hprevious, ← List.append_assoc] at hsplit
        obtain rfl := List.append_cancel_right hsplit
        rw [kept, hrest', ← List.append_assoc] at hrest
        rwa [List.append_cancel_right (List.append_cancel_right hrest)]
      · rw [kept, ← List.cons_append, ← List.append_assoc] at hsplit
        rw [kept, hprevious, ← List.append_assoc] at hrest
        rw [List.append_cancel_right hsplit] at hr
        rw [List.append_cancel_right hrest]
        simpa [hne] using hr

/-- Readers with some fingerprints, among them known ones, while the files of a checkpoint are looked
for: the entries of contents that were not found wait among the known ones. -/
structure Pending (stream : Fingerprint → α) (f : Policy) (files : List Metadata)
    (found : List Fingerprint) (known : List Reader) (fps : List Fingerprint) : Prop where
  tally : Tally stream (files.map Metadata.fingerprint) found fps
  waiting : ∀ e ∈ files, stream e.fingerprint ∉ found.map stream → f.remembered e ∈ known

structure Awaits (stream : Fingerprint → α) (f : Policy) (capacity : Nat) (files : List Metadata)
    (found : List Fingerprint) (k : Tracker) : Prop where
  policy : k.policy = f
  limit : k.settings.capacity = capacity
  pending : Pending stream f files found k.known (k.kept.map Reader.fingerprint)

theorem Pending.opens {s s' : Opening} {path : Path} {h : Handle} {fp : Fingerprint}
    (hpending : Pending stream f files found s.tracker.known (s.live.map Reader.fingerprint))
    (htold : Recognisable stream capacity (files.map Metadata.fingerprint) (found ++ [fp]))
    (hfps : s.readers.map Reader.fingerprint = s.fingerprints)
    (hid : s.tracker.identify s.world.tree path = some (h, fp)) (hopens : Opens s path s') :
    Pending stream f files (found ++ [fp]) s'.tracker.known (s'.live.map Reader.fingerprint) := by
  have hmore := hpending.tally.found_more fp
  refine ⟨?_, fun e he hnew => ?_⟩
  · cases hopens with
    | unreadable hnone => rw [hid] at hnone; cases hnone
    | copy => exact hmore
    | @resumed _ _ old front back _ hid' _ hsplit hrest hmatch _ _ _ _ hreaders =>
        rw [hid] at hid'
        cases hid'
        have hlive : (s.live.map Reader.fingerprint).Perm
            (old.fingerprint :: (s.readers ++ (front ++ back)).map Reader.fingerprint) := by
          rw [Opening.live, hsplit, ← List.append_assoc, ← List.append_assoc, ← List.map_cons]
          exact List.perm_middle.map _
        have hold := hmore.subperm hlive.symm.subperm
        rw [Opening.live, hrest, hreaders, List.cons_append, List.map_cons, Policy.fingerprint_resume]
        exact hold.replace (by simp) (htold.same (hold.come _ (by simp)) (by simp)
          (Fingerprint.agrees_iff.mpr (.inr hmatch)))
    | added hid' hnew hkept hnone _ _ _ hreaders =>
        rw [hid] at hid'
        cases hid'
        rw [Opening.live, hkept, hreaders, List.cons_append, List.map_cons, Policy.fingerprint_fresh]
        refine hpending.tally.add fun g hg hsame hfound => ?_
        have hstart : fp.startsWith g = true := htold.last g hfound hsame
        rw [Opening.live, List.map_append, hfps] at hg
        rcases List.mem_append.mp hg with hg | hg
        · have hagrees := Fingerprint.agrees_iff.mpr (.inr hstart)
          rw [hnew g hg] at hagrees
          cases hagrees
        · obtain ⟨r, hr, rfl⟩ := List.mem_map.mp hg
          rw [hnone r hr] at hstart
          cases hstart
  · rw [List.map_append, List.mem_append, not_or] at hnew
    refine hopens.remembers (hpending.waiting e he hnew.1) fun h' fp' hid' => ?_
    rw [hid] at hid'
    cases hid'
    rw [Policy.fingerprint_remembered]
    by_contra hstart
    refine hnew.2 ?_
    rw [List.map_singleton, List.mem_singleton]
    refine htold.same (List.mem_append_left _ (List.mem_map_of_mem he)) (by simp)
      (Fingerprint.agrees_iff.mpr (.inr ?_))
    simpa using hstart

def taken (k : Tracker) (t : FileTree) (paths : List Path) : List Fingerprint :=
  (k.sights t paths).map Prod.snd

theorem taken_snoc (k : Tracker) (t : FileTree) (paths : List Path) (path : Path) :
    k.taken t (paths ++ [path]) =
      k.taken t paths ++ ((k.identify t path).map Prod.snd).toList := by
  rw [taken, sights, List.filterMap_append, List.map_append, ← sights, ← taken]
  cases hid : k.identify t path <;> simp [hid]

theorem Awaits.opened (h : k.Awaits stream f capacity files found) {paths : List Path} {w : World}
    (htold : Recognisable stream capacity (files.map Metadata.fingerprint)
      (found ++ k.taken w.tree paths)) :
    Pending stream f files (found ++ k.taken w.tree paths) (k.opened paths w).tracker.known
      ((k.opened paths w).live.map Reader.fingerprint) := by
  induction paths using List.reverseRecOn with
  | nil => simpa [taken, sights, Tracker.opened, Opening.live] using h.pending
  | append_singleton paths path ih =>
      have hopens := k.opened_opens paths path w
      have hid := k.opened_identify paths w path
      rw [taken_snoc, ← List.append_assoc] at htold ⊢
      have hpending := ih (htold.of_prefix (List.prefix_append _ _))
      cases hfile : k.identify w.tree path with
      | none =>
          rw [hfile] at hid
          rw [Option.map_none, Option.toList_none, List.append_nil]
          generalize k.opened (paths ++ [path]) w = s' at hopens ⊢
          cases hopens with
          | unreadable | copy => exact hpending
          | resumed hid' | added hid' => rw [hid] at hid'; cases hid'
      | some id =>
          rw [hfile] at hid htold
          exact hpending.opens htold (k.opened_fingerprints paths w) hid hopens

theorem Awaits.collect (h : k.Awaits stream f capacity files found) {paths : List Path} {w : World}
    (htold : Recognisable stream capacity (files.map Metadata.fingerprint)
      (found ++ k.taken w.tree paths)) :
    (k.collect paths w).1.Awaits stream f capacity files (found ++ k.taken w.tree paths) := by
  obtain ⟨halike, _, _⟩ := k.collect_alike paths w
  obtain ⟨htally, hwaiting⟩ := h.opened htold
  refine ⟨halike.policy.trans h.policy, by rw [halike.settings, h.limit], ?_, fun e he hnew => ?_⟩
  · -- reading may lose readers, and moves the others between the two lists
    refine htally.subperm ?_
    rw [collect_eq]
    generalize k.opened paths w = s
    have hlost := drain_sublist s.lost s.world
    have hread := drain_sublist s.readers.reverse (drain s.lost s.world).2
    have hprevious : (s.stayed ++ s.lost).Perm s.tracker.previous :=
      List.perm_append_comm.trans (List.filter_append_perm _ _)
    have hclose (rs : List Reader) : (rs.map Reader.close).map Reader.fingerprint =
        rs.map Reader.fingerprint := by
      rw [List.map_map]
      rfl
    simp only [kept, remember, List.map_append, hclose, Opening.live]
    refine List.Subperm.trans (List.Sublist.subperm (List.Sublist.append (List.Sublist.append
      (List.Sublist.refl _) (List.Sublist.append (List.Sublist.refl _) hlost)) hread)) ?_
    rw [← @List.map_append _ _ _ s.stayed]
    refine List.Perm.subperm ?_
    rw [List.map_reverse]
    refine (List.perm_append_comm).trans ((List.reverse_perm _).append ?_)
    exact (hprevious.map _).append_left _
  · rw [collect_eq]
    exact List.mem_append_left _ (hwaiting e he hnew)

theorem Awaits.trim (h : k.Awaits stream f capacity files found)
    (htold : Recognisable stream capacity (files.map Metadata.fingerprint) found) : k.trim = k := by
  refine trim_of_le ?_
  have hlength := h.pending.tally.length_le
  have hroom := htold.room
  rw [List.length_map] at hlength
  rw [h.limit]
  exact hlength.trans hroom

theorem Awaits.read {stage : Stage} (h : stage.tracker.Awaits stream f capacity files found)
    (htold : Recognisable stream capacity (files.map Metadata.fingerprint)
      (found ++ stage.sights.map Prod.snd)) (hread : stage.read.1 = some k') :
    k'.Awaits stream f capacity files (found ++ stage.sights.map Prod.snd) := by
  have hcollect := h.collect htold
  have hsaved := save_tracker
    (show ((stage.tracker.collect stage.paths stage.world).1.trim.save _).1 = some k' from hread)
  rw [hcollect.trim htold] at hsaved
  rw [hsaved]
  exact ⟨hcollect.policy, hcollect.limit, hcollect.pending⟩

def takenAt (stages : List Stage) : List Fingerprint := (stages.flatMap Stage.sights).map Prod.snd

theorem takenAt_snoc (stages : List Stage) (stage : Stage) :
    takenAt (stages ++ [stage]) = takenAt stages ++ stage.sights.map Prod.snd := by
  simp [takenAt]

theorem takenAt_prefix {stages stages' : List Stage} (h : stages <+: stages') :
    takenAt stages <+: takenAt stages' := by
  obtain ⟨more, rfl⟩ := h
  rw [takenAt, takenAt, List.flatMap_append, List.map_append]
  exact List.prefix_append _ _

section Polling

variable {w : World} (h : k.Awaits stream f capacity files found)
  (htold : Recognisable stream capacity (files.map Metadata.fingerprint)
    (found ++ takenAt (k.stages w)))
include h htold

theorem Awaits.stage {before behind : List Stage} {stage : Stage}
    (hsplit : k.stages w = before ++ stage :: behind) :
    stage.tracker.Awaits stream f capacity files (found ++ takenAt before) := by
  refine stagesFrom_carries
    (P := fun done k _ => k.Awaits stream f capacity files (found ++ takenAt done))
    hsplit (fun done s hdone k' hk hread => ?_) ?_
  · rw [takenAt_snoc, ← List.append_assoc]
    refine hk.read (htold.of_prefix ?_) hread
    rw [List.append_assoc, ← takenAt_snoc, List.prefix_append_right_inj]
    exact takenAt_prefix (hdone.trans ⟨_, hsplit.symm⟩)
  · rw [show takenAt [] = [] from rfl, List.append_nil]
    exact ⟨h.policy, h.limit, h.pending⟩

theorem Awaits.poll (hbegin : f.fromBeginning = true) (hpoll : (k.poll w).1 = some k') :
    k'.Awaits stream f capacity files (found ++ takenAt (k.stages w)) := by
  obtain ⟨before, stage, k'', hsplit, hread, hk⟩ := readBatches_last (chunks_ne_nil _ _) hpoll
  have hlast : k.stages w = before ++ [stage] := hsplit
  have hbehind : k''.Awaits stream f capacity files (found ++ takenAt (k.stages w)) := by
    rw [hlast, takenAt_snoc, ← List.append_assoc] at htold ⊢
    refine (Awaits.stage h ?_ hlast).read htold hread
    rw [hlast, takenAt_snoc, ← List.append_assoc]
    exact htold
  rcases hk with rfl | rfl
  · exact hbehind
  · rwa [readFromBeginning_self (by rw [hbehind.policy, hbegin])]

end Polling

theorem opened_taken {paths : List Path} {w : World} {fp : Fingerprint}
    (hfp : fp ∈ (k.opened paths w).fingerprints) : fp ∈ k.taken w.tree paths := by
  rw [← opened_fingerprints] at hfp
  obtain ⟨r, hr, rfl⟩ := List.mem_map.mp hfp
  obtain ⟨path, hpath, h, hid, _⟩ := opened_reader hr
  exact List.mem_map.mpr ⟨_, mem_sights hpath hid, rfl⟩

theorem Pending.unique {e : Metadata} {fp : Fingerprint} {s : Opening} {old : Reader}
    {front back : List Reader}
    (h : Pending stream f files found s.tracker.known (s.live.map Reader.fingerprint))
    (htold : Recognisable stream capacity (files.map Metadata.fingerprint) (found ++ [fp]))
    (he : e ∈ files) (hsame : stream fp = stream e.fingerprint)
    (hnew : stream e.fingerprint ∉ found.map stream) (hsplit : s.tracker.kept = front ++ old :: back)
    (hmatch : fp.startsWith old.fingerprint = true) : old = f.remembered e := by
  by_contra hne
  have hwaits : f.remembered e ∈ front ++ old :: back :=
    hsplit ▸ List.mem_append_left _ (h.waiting e he hnew)
  have hother : f.remembered e ∈ s.readers ++ (front ++ back) := by
    refine List.mem_append_right _ ?_
    simpa [Ne.symm hne] using hwaits
  have hlive : (s.live.map Reader.fingerprint).Perm
      (old.fingerprint :: (s.readers ++ (front ++ back)).map Reader.fingerprint) := by
    rw [Opening.live, hsplit, ← List.append_assoc, ← List.append_assoc, ← List.map_cons]
    exact List.perm_middle.map _
  have hold : stream old.fingerprint = stream e.fingerprint := by
    have hcome := (h.tally.found_more fp).come _ (hlive.mem_iff.mpr List.mem_cons_self)
    exact (htold.same hcome (by simp) (Fingerprint.agrees_iff.mpr (.inr hmatch))).trans hsame
  have hcount := h.tally.unique htold.distinct hnew
  rw [(hlive.map stream).count_eq, List.map_cons, hold, List.count_cons_self] at hcount
  have hmem : stream e.fingerprint ∈ ((s.readers ++ (front ++ back)).map Reader.fingerprint).map stream :=
    List.mem_map_of_mem (List.mem_map.mpr ⟨_, hother, Policy.fingerprint_remembered ..⟩)
  have := List.count_pos_iff.mpr hmem
  omega

theorem Awaits.goes_on (h : k.Awaits stream f capacity files found) {paths : List Path} {w : World}
    {e : Metadata} {n : Nat} {fp : Fingerprint}
    (htold : Recognisable stream capacity (files.map Metadata.fingerprint)
      (found ++ k.taken w.tree paths))
    (he : e ∈ files) (hsame : stream fp = stream e.fingerprint)
    (hnew : stream e.fingerprint ∉ found.map stream)
    (halone : ∀ x ∈ k.sights w.tree paths, stream x.2 = stream e.fingerprint → x = (n, fp))
    (hfound : (n, fp) ∈ k.sights w.tree paths) :
    ∃ handle path, handle.node = n ∧
      (if fp.startsWith e.fingerprint = true then f.resume e handle fp path
        else f.fresh (w.tree.content n).length handle fp path) ∈ (k.opened paths w).readers := by
  induction paths using List.reverseRecOn with
  | nil => simp [sights] at hfound
  | append_singleton paths path ih =>
      have hopens := k.opened_opens paths path w
      rw [taken_snoc, ← List.append_assoc] at htold
      have htold' := htold.of_prefix (List.prefix_append _ _)
      have hbefore := k.sights_snoc w.tree paths path
      by_cases hfound' : (n, fp) ∈ k.sights w.tree paths
      · obtain ⟨handle, path', hnode, hr⟩ := ih htold' (fun x hx => halone x (hbefore hx)) hfound'
        exact ⟨handle, path', hnode, hopens.readers.subset hr⟩
      -- the path is the first that leads to a file of this content
      have hid : ∃ handle, k.identify w.tree path = some (handle, fp) ∧ handle.node = n := by
        obtain ⟨path', hpath, handle, hid, hnode⟩ := of_mem_sights hfound
        rcases List.mem_append.mp hpath with hpath | hpath
        · have hmem := mem_sights hpath hid
          rw [show handle.node = n from hnode] at hmem
          exact absurd hmem hfound'
        · obtain rfl := List.mem_singleton.mp hpath
          exact ⟨handle, hid, hnode⟩
      obtain ⟨handle, hid, hnode⟩ := hid
      have hfirst (g : Fingerprint) (hg : g ∈ k.taken w.tree paths) :
          stream g ≠ stream e.fingerprint := by
        intro hstream
        obtain ⟨x, hx, rfl⟩ := List.mem_map.mp hg
        exact hfound' (halone x (hbefore hx) hstream ▸ hx)
      have hnew' : stream e.fingerprint ∉ (found ++ k.taken w.tree paths).map stream := by
        rw [List.map_append, List.mem_append, not_or]
        refine ⟨hnew, fun hmem => ?_⟩
        obtain ⟨g, hg, hstream⟩ := List.mem_map.mp hmem
        exact hfirst g hg hstream
      obtain ⟨hsteady, htook⟩ := k.opened_steady paths w
      have hpending := h.opened htold'
      rw [hid] at htold
      rw [← k.opened_identify paths w] at hid
      have hpolicy : (k.opened paths w).tracker.policy = f := hsteady.policy.trans h.policy
      refine ⟨handle, path, hnode, ?_⟩
      generalize k.opened (paths ++ [path]) w = s' at hopens ⊢
      cases hopens with
      | unreadable hnone => rw [hid] at hnone; cases hnone
      | copy hid' hmem hagrees =>
          rw [hid] at hid'
          cases hid'
          have hmem := opened_taken hmem
          refine absurd ?_ (hfirst _ hmem)
          rw [← hsame]
          exact htold.same (by simp [hmem]) (by simp) hagrees
      | resumed hid' _ hsplit _ hmatch _ _ _ _ hreaders =>
          rw [hid] at hid'
          cases hid'
          obtain rfl := hpending.unique htold he hsame hnew' hsplit hmatch
          rw [Policy.fingerprint_remembered] at hmatch
          rw [hreaders, if_pos hmatch, hpolicy]
          exact List.mem_cons_self
      | added hid' _ _ hnone _ _ _ hreaders =>
          rw [hid] at hid'
          cases hid'
          have hnot := hnone _ (List.mem_append_left _ (hpending.waiting e he hnew'))
          rw [Policy.fingerprint_remembered] at hnot
          rw [hreaders, if_neg (by simp [hnot]), hpolicy, htook.tree, hnode]
          exact List.mem_cons_self

theorem knows_snoc (k : Tracker) (r : Reader) (fp : Fingerprint) :
    { k with known := k.known ++ [r] }.knows fp = (k.knows fp || r.fingerprint.startsWith fp) := by
  simp [knows, Bool.or_assoc]

theorem unknown_apart (hknown : ∀ e ∈ files, k.knows e.fingerprint = false)
    (hapart : files.Pairwise fun e e' => e.fingerprint.startsWith e'.fingerprint = false) :
    k.unknown files = files := by
  induction files generalizing k with
  | nil => rfl
  | cons e files ih =>
      obtain ⟨hfirst, hrest⟩ := List.pairwise_cons.mp hapart
      have he := hknown e (by simp)
      rw [unknown, if_neg (by simp [he]), ih (fun e' he' => ?_) hrest]
      rw [recollect, if_neg (by simp [he]), knows_snoc, hknown e' (by simp [he']), Bool.false_or,
        Policy.fingerprint_remembered]
      exact hfirst e' he'

theorem resume_awaits (hknown : k.known = []) (hprevious : k.previous = []) (hne : files ≠ [])
    (htold : Recognisable stream k.settings.capacity (files.map Metadata.fingerprint) []) :
    (k.resume files).Awaits stream { k.policy with fromBeginning := true } k.settings.capacity files
      [] := by
  have hapart : files.Pairwise fun e e' => e.fingerprint.startsWith e'.fingerprint = false := by
    have hdistinct := htold.distinct
    rw [List.map_map, List.nodup_iff_pairwise_ne, List.pairwise_map] at hdistinct
    refine hdistinct.imp_of_mem fun {e e'} he he' hother => ?_
    by_contra hstart
    refine hother (htold.same (by simp; exact ⟨e, he, rfl⟩) (by simp; exact ⟨e', he', rfl⟩)
      (Fingerprint.agrees_iff.mpr (.inl (by simpa using hstart))))
  have hunknown : k.readFromBeginning.unknown files = files :=
    unknown_apart (fun e _ => by simp [knows, readFromBeginning, hknown, hprevious]) hapart
  have hfold := k.readFromBeginning.foldl_recollect files
  rw [hunknown] at hfold
  have hawaits : (files.foldl recollect k.readFromBeginning).Awaits stream
      { k.policy with fromBeginning := true } k.settings.capacity files [] := by
    rw [hfold]
    refine ⟨rfl, rfl, ?_, fun e he _ => ?_⟩
    · have hfps : (List.map Reader.fingerprint (files.map
          ({ k.policy with fromBeginning := true } : Policy).remembered)) =
          files.map Metadata.fingerprint := by
        rw [List.map_map]
        rfl
      simp only [kept, readFromBeginning, hknown, hprevious, List.nil_append, List.append_nil, hfps]
      exact .start
    · exact List.mem_append_right _ (List.mem_map_of_mem he)
  rw [resume, if_neg (by simpa using hne), hawaits.trim htold]
  exact hawaits

end Tracker

def Act.staysUp : Act → Bool
  | .start | .rebuild | .die _ _ => false
  | _ => true

namespace Session

variable {α : Type} [DecidableEq α] {stream : Fingerprint → α} {f : Policy} {capacity : Nat}
  {files : List Metadata} {c : Config} {s : Session}

def Awaits (stream : Fingerprint → α) (f : Policy) (capacity : Nat) (files : List Metadata)
    (s : Session) : Prop :=
  ∀ k, s.consumer.phase = .running k → k.Awaits stream f capacity files (s.met.map Prod.snd)

theorem Awaits.step {a : Act} (h : s.Awaits stream f capacity files) (ha : a.staysUp = true)
    (hbegin : f.fromBeginning = true)
    (htold : Recognisable stream capacity (files.map Metadata.fingerprint)
      ((s.step a).met.map Prod.snd)) : (s.step a).Awaits stream f capacity files := by
  cases a with
  | change | emitter | memory => exact h
  | start | rebuild | die => cases ha
  | stop =>
      intro k hk
      cases hphase : s.consumer.phase with
      | stopped | running | crashed | lost => simp [Session.step, Consumer.stop, hphase] at hk
  | poll =>
      intro k hk
      cases hphase : s.consumer.phase with
      | stopped | crashed | lost => simp [Session.step, Consumer.poll, hphase] at hk
      | running k₀ =>
          have hmet : (s.step .poll).met.map Prod.snd =
              s.met.map Prod.snd ++ takenAt (k₀.stages s.world) := by
            simp [Session.step, takenAt, stages_running hphase]
          rw [hmet] at htold ⊢
          refine (h k₀ hphase).poll htold hbegin ?_
          cases hpoll : k₀.poll s.world with
          | mk o w' =>
              simp only [Session.step, Consumer.poll, hphase, hpoll] at hk
              cases o with
              | none => simp at hk
              | some k' => simpa using hk

theorem Awaits.run {acts : List Act} (h : s.Awaits stream f capacity files)
    (hacts : ∀ a ∈ acts, a.staysUp = true) (hbegin : f.fromBeginning = true)
    (htold : Recognisable stream capacity (files.map Metadata.fingerprint)
      ((s.run acts).met.map Prod.snd)) : (s.run acts).Awaits stream f capacity files := by
  induction acts generalizing s with
  | nil => exact h
  | cons a acts ih =>
      refine ih (h.step (hacts a (by simp)) hbegin (htold.of_prefix ?_))
        (fun b hb => hacts b (by simp [hb])) htold
      exact (run_met (s.step a) acts).map _

/-- A consumer that was built from a configuration, over the checkpoint that a poll of another session
saved behind some of its batches. -/
structure Restarted (c : Config) (old : Session) (done : List Stage) (s : Session) : Prop where
  polled : done <+: old.stages
  built : Consumer.ofConfig c = .ok s.origin
  consumer : s.consumer = s.origin
  met : s.met = []
  holds : Holds s.store s.world.memory (done.flatMap Stage.entries)

def relaunch (o : Consumer) (s : Session) : Session := ⟨o, o, s.world, s.store, []⟩

theorem Completed.restarted {o : Consumer} {c₀ : Config} {acts : List Act} {k : Tracker}
    (hcomplete : (s.run acts).Completed k) (hbuilt₀ : Consumer.ofConfig c₀ = .ok s.origin)
    (hconsumer : s.consumer = s.origin) (hholds : Holds s.store s.world.memory files)
    (hcount : Countable s.world.tree) (hsized : s.Allows Sized (acts ++ [.poll]))
    (hbuilt : Consumer.ofConfig c = .ok o) :
    Restarted c (s.run acts) (s.run acts).stages (relaunch o ((s.run acts).step .poll)) := by
  obtain ⟨hacts, hpoll, _⟩ := allows_append.mp hsized
  have hkeeps := provenance_run hbuilt₀ hconsumer hholds hcount hacts
    (fun e he => List.mem_append_left _ (List.mem_map_of_mem he))
    fun x hx => List.mem_append_right (files.map Metadata.fingerprint)
      (List.mem_map_of_mem ((run_met (s.run acts) [.poll]).subset hx))
  obtain ⟨_, _, _, hleft⟩ := hcomplete.leaves
    (fun x hx => List.mem_append_right _ (List.mem_map_of_mem hx)) hpoll (fun _ h => h) hkeeps
  exact ⟨List.prefix_rfl, hbuilt, rfl, rfl, hleft⟩

theorem Restarted.awaits {old : Session} {done : List Stage} (h : Restarted c old done s)
    (hne : done.flatMap Stage.entries ≠ [])
    (htold : Recognisable stream c.capacity
      ((done.flatMap Stage.entries).map Metadata.fingerprint) []) :
    (s.step .start).Awaits stream { c.policy with fromBeginning := true } c.capacity
      (done.flatMap Stage.entries) := by
  obtain ⟨_, selector, horigin⟩ := Consumer.ofConfig_ok h.built
  have hphase : s.consumer.phase = .stopped (ofParts selector c.policy c.settings) := by
    rw [h.consumer, horigin]
    rfl
  intro k hk
  rw [show (s.step .start).met = s.met from rfl, h.met]
  rcases start_cases s.consumer s.store s.world with
    ⟨_, _, hstart, _⟩ | ⟨k₀, files', _, _, hstopped, hload, hstart, _⟩
  · simp only [Session.step, hstart, hphase] at hk
    cases hk
  · rw [hphase] at hstopped
    cases hstopped
    obtain rfl := load_holds h.holds hload
    simp only [Session.step, hstart] at hk
    cases hk
    have hawaits := resume_awaits (k := ofParts selector c.policy c.settings) rfl rfl hne htold
    exact ⟨hawaits.policy, hawaits.limit, hawaits.pending⟩

/-- In a poll a file is found. No file of its content was found before, and none but itself in the same
batch. -/
structure FirstMatched (stream : Fingerprint → α) (s : Session) (stage : Stage) (n : Nat)
    (fp : Fingerprint) : Prop where
  found : (n, fp) ∈ stage.sights
  first : ∃ earlier later, s.stages = earlier ++ stage :: later ∧
    ∀ x ∈ s.met ++ earlier.flatMap Stage.sights, stream x.2 ≠ stream fp
  alone : ∀ x ∈ stage.sights, stream x.2 = stream fp → x.1 = n

/-- Two fingerprints of a file that only grew agree, and the later one goes on from the earlier just if
its size suffices. -/
theorem goes_on_iff {st stage : Stage} {n : Nat} {f g : Fingerprint} (hf : (n, f) ∈ st.sights)
    (hg : (n, g) ∈ stage.sights) (hgrown : st.world.tree.content n <+: stage.world.tree.content n) :
    g.agrees f = true ∧
      (g.startsWith f = true ↔ f.size ≤ stage.tracker.policy.fingerprintSize) := by
  obtain ⟨_, _, h, hid, hnode⟩ := of_mem_sights hf
  obtain ⟨_, _, h', hid', hnode'⟩ := of_mem_sights hg
  have hsighted := (identify_some hid).2
  have hsighted' := (identify_some hid').2
  have hfront : f.bytes <+: stage.world.tree.content n := by
    rw [hsighted.bytes, show h.node = n from hnode]
    exact (List.take_prefix _ _).trans hgrown
  have hbytes : g.bytes = (stage.world.tree.content n).take stage.tracker.policy.fingerprintSize := by
    rw [hsighted'.bytes, show h'.node = n from hnode']
  constructor
  · have hfront' : g.bytes <+: stage.world.tree.content n := hbytes ▸ List.take_prefix _ _
    rw [Fingerprint.agrees_iff, Fingerprint.startsWith_iff, Fingerprint.startsWith_iff]
    rcases List.prefix_or_prefix_of_prefix hfront hfront' with hle | hle
    · exact .inl ⟨hsighted.filled, hle⟩
    · exact .inr ⟨hsighted'.filled, hle⟩
  · rw [Fingerprint.startsWith_iff, hbytes, List.prefix_take_iff]
    exact ⟨fun hstart => hstart.2.2, fun hle => ⟨hsighted.filled, hfront, hle⟩⟩

/-- After a restart under any configuration with room for all files, a file of the checkpoint that only
grew goes on at the stored offset when it is first matched, just if its stored fingerprint is not longer
than fingerprints are now. Otherwise it is not known again, and a new reader begins at its start. -/
theorem resumed_iff_size {old : Session} {done : List Stage} {acts : List Act} {st stage : Stage}
    {e : Metadata} {n : Nat} {fp : Fingerprint} (hrestarted : Restarted c old done s)
    (hst : st ∈ done) (hentry : e ∈ st.entries) (hfile : (n, e.fingerprint) ∈ st.sights)
    (hacts : ∀ a ∈ acts, a.staysUp = true)
    (htold : Recognisable stream c.capacity ((done.flatMap Stage.entries).map Metadata.fingerprint)
      ((s.run (.start :: acts ++ [.poll])).met.map Prod.snd))
    (hmatched : (s.run (.start :: acts)).FirstMatched stream stage n fp)
    (hgrown : st.world.tree.content n <+: stage.world.tree.content n) :
    ∃ r ∈ (stage.tracker.opened stage.paths stage.world).readers, ∃ h path, h.node = n ∧
      (e.fingerprint.size ≤ c.fingerprintSize →
        r = stage.tracker.policy.resume e h fp path ∧ r.offset = e.offset) ∧
      (c.fingerprintSize < e.fingerprint.size →
        r = stage.tracker.policy.fresh (stage.world.tree.content n).length h fp path ∧
          r.offset = 0) := by
  have he : e ∈ done.flatMap Stage.entries := List.mem_flatMap.mpr ⟨st, hst, hentry⟩
  obtain ⟨earlier, later, hsplit, hfirst⟩ := hmatched.first
  have hnone : Recognisable stream c.capacity
      ((done.flatMap Stage.entries).map Metadata.fingerprint) [] := htold.of_prefix (List.nil_prefix)
  cases hphase : (s.run (.start :: acts)).consumer.phase with
  | stopped | crashed | lost => simp [stages, hphase] at hsplit
  | running k =>
      -- up to the stage the entry waits among the remembered readers
      rw [stages_running hphase] at hsplit
      have hmet : (s.run (.start :: acts ++ [.poll])).met.map Prod.snd =
          (s.run (.start :: acts)).met.map Prod.snd ++ takenAt (k.stages (s.run (.start :: acts)).world) := by
        rw [run_snoc]
        simp [Session.step, takenAt, stages_running hphase]
      rw [hmet] at htold
      have hstarted := hrestarted.awaits (List.ne_nil_of_mem he) hnone
      have hrun := hstarted.run hacts rfl (htold.of_prefix (List.prefix_append _ _)) k hphase
      have hawaits := hrun.stage htold hsplit
      obtain ⟨hagrees, hgoes⟩ := goes_on_iff hfile hmatched.found hgrown
      have hsize : stage.tracker.policy.fingerprintSize = c.fingerprintSize := by
        rw [hawaits.policy]
        rfl
      rw [hsize] at hgoes
      rw [hsplit] at htold
      have hupto : Recognisable stream c.capacity
          ((done.flatMap Stage.entries).map Metadata.fingerprint)
          ((s.run (.start :: acts)).met.map Prod.snd ++ takenAt earlier ++
            stage.tracker.taken stage.world.tree stage.paths) := by
        refine htold.of_prefix ?_
        rw [List.append_assoc, List.prefix_append_right_inj]
        change takenAt earlier ++ stage.sights.map Prod.snd <+: _
        rw [← takenAt_snoc]
        exact takenAt_prefix ⟨later, by simp⟩
      have hsame : stream fp = stream e.fingerprint := by
        refine hupto.same (List.mem_append_right _ (List.mem_append_right _ ?_))
          (List.mem_append_left _ (List.mem_map_of_mem he)) hagrees
        exact List.mem_map.mpr ⟨_, hmatched.found, rfl⟩
      have hnew : stream e.fingerprint ∉
          ((s.run (.start :: acts)).met.map Prod.snd ++ takenAt earlier).map stream := by
        intro hmem
        rw [← hsame, takenAt, ← List.map_append, List.map_map] at hmem
        obtain ⟨x, hx, hstream⟩ := List.mem_map.mp hmem
        exact hfirst x hx hstream
      have halone : ∀ x ∈ stage.sights, stream x.2 = stream e.fingerprint → x = (n, fp) := by
        rintro ⟨m, g⟩ hx hstream
        obtain rfl : m = n := hmatched.alone _ hx (hstream.trans hsame.symm)
        rw [fingerprint_unique hx hmatched.found]
      obtain ⟨h, path, hnode, hr⟩ := hawaits.goes_on hupto he hsame hnew halone hmatched.found
      refine ⟨_, hr, h, path, hnode, fun hle => ?_, fun hlt => ?_⟩
      · rw [if_pos (hgoes.mpr hle), hawaits.policy]
        exact ⟨rfl, Policy.offset_resume ..⟩
      · rw [if_neg (fun hstart => absurd (hgoes.mp hstart) (Nat.not_le.mpr hlt)), hawaits.policy]
        exact ⟨rfl, by rw [Policy.offset_fresh, if_pos rfl]⟩

def followSized (size : Nat) : Config := { followLogs with fingerprintSize := size }

def sizedFollower (size : Nat) : Consumer :=
  .ofParts ⟨["*.log"], [], none⟩ (followSized size).policy (followSized size).settings

def longLine : Bytes := List.replicate 16 97 ++ [10]

def twoLogs (line : Bytes) : FileTree := ofFiles [("a.log", true, line), ("b.log", true, [98, 10])]

theorem completed_twoLogs :
    let s := ofConsumer logFollower (twoLogs longLine)
    s.Allows Sized ([.start] ++ [.poll]) ∧ ∃ k, (s.run [.start]).Completed k := by
  intro s
  have hmemory : s.InMemory := inMemory_ofConsumer ofConfig_followLogs _
  have hlawful : s.Allows (Lawful Mild) ([.start] ++ [.poll]) :=
    hmemory.allows (countable_of_nodes (by decide)) trivial
  have hfirst : (s.run [.start]).polled = some [⟨"a.log"⟩, ⟨"b.log"⟩] ∧
      ∀ stage ∈ (s.run [.start]).stages, stage.saves = true := by decide +kernel
  exact ⟨allows_sized hlawful, completed_of_polled hfirst.1 hfirst.2⟩

theorem restarted_twoLogs {size : Nat}
    (hsize : Consumer.ofConfig (followSized size) = .ok (sizedFollower size)) :
    let old := (ofConsumer logFollower (twoLogs longLine)).run [.start]
    Restarted (followSized size) old old.stages ((old.step .poll).relaunch (sizedFollower size)) := by
  obtain ⟨hsized, k, hcomplete⟩ := completed_twoLogs
  exact hcomplete.restarted ofConfig_followLogs rfl (.inl ⟨rfl, rfl⟩) (countable_of_nodes (by decide)) hsized
    hsize

theorem entry_twoLogs :
    let old := (ofConsumer logFollower (twoLogs longLine)).run [.start]
    ∃ st ∈ old.stages, ∃ e ∈ st.entries, e.fingerprint = ⟨longLine⟩ ∧ e.offset = 17 ∧
      (3, ⟨longLine⟩) ∈ st.sights ∧ st.world.tree.content 3 = longLine := by
  decide +kernel

theorem resumed_iff_size_equal :
    let old := (ofConsumer logFollower (twoLogs longLine)).run [.start]
    let s := (old.step .poll).relaunch (sizedFollower 17)
    let p := s.run (.start :: [.change (twoLogs (longLine ++ [99, 10]))])
    let stream : Fingerprint → Option UInt8 := fun fp => fp.bytes.head?
    Restarted (followSized 17) old old.stages s ∧
      Recognisable stream (followSized 17).capacity
        ((old.stages.flatMap Stage.entries).map Metadata.fingerprint)
        ((p.step .poll).met.map Prod.snd) ∧
      ∃ stage, p.FirstMatched stream stage 3 ⟨longLine⟩ ∧
        ∃ r ∈ (stage.tracker.opened stage.paths stage.world).readers, r.offset = 17 := by
  intro old s p stream
  have hrestarted : Restarted (followSized 17) old old.stages s := restarted_twoLogs rfl
  obtain ⟨st, hin, e, hentry, hfp, hoffset, hsight, hcontent⟩ := entry_twoLogs
  have hrun : Recognisable stream (followSized 17).capacity
        ((old.stages.flatMap Stage.entries).map Metadata.fingerprint)
        ((p.step .poll).met.map Prod.snd) ∧ p.met = [] ∧
      p.stages.map Stage.sights = [[(3, ⟨longLine⟩)], [(4, ⟨[98, 10]⟩)]] ∧
      ∀ stage ∈ p.stages, stage.world.tree.content 3 = longLine ++ [99, 10] := by decide +kernel
  obtain ⟨htold, hmet, hsights, hgrown⟩ := hrun
  obtain ⟨stage, later, hstages, hstage, _⟩ := List.map_eq_cons_iff.mp hsights
  have hmatched : p.FirstMatched stream stage 3 ⟨longLine⟩ :=
    ⟨by simp [hstage], ⟨[], later, hstages, by simp [hmet]⟩, by simp [hstage]⟩
  obtain ⟨r, hr, _, _, _, hlong, _⟩ := resumed_iff_size hrestarted hin hentry
    (hfp ▸ hsight) (by simp [Act.staysUp]) (by rw [run_snoc]; exact htold) hmatched
    (by rw [hcontent, hgrown stage (by simp [hstages])]; exact List.prefix_append _ _)
  have hequal : e.fingerprint.size ≤ (followSized 17).fingerprintSize := by rw [hfp]; decide
  exact ⟨hrestarted, htold, stage, hmatched, r, hr, (hlong hequal).2.trans hoffset⟩

/-- With a size that is one byte smaller, the log is not known again and is delivered once more. -/
theorem resumed_iff_size_smaller :
    let old := (ofConsumer logFollower (twoLogs longLine)).run [.start]
    let s := (old.step .poll).relaunch (sizedFollower 16)
    let p := s.run [.start]
    let stream : Fingerprint → Option UInt8 := fun fp => fp.bytes.head?
    Restarted (followSized 16) old old.stages s ∧
      Recognisable stream (followSized 16).capacity
        ((old.stages.flatMap Stage.entries).map Metadata.fingerprint)
        ((p.step .poll).met.map Prod.snd) ∧
      ∃ st ∈ old.stages, ∃ e ∈ st.entries, (3, e.fingerprint) ∈ st.sights ∧ e.offset = 17 ∧
        ∃ stage, p.FirstMatched stream stage 3 ⟨longLine.take 16⟩ ∧
          stage.world.tree.content 3 = st.world.tree.content 3 ∧
          (∀ r ∈ (stage.tracker.opened stage.paths stage.world).readers, r.offset = 0) ∧
          (p.step .poll).world.outlet.batches.map Batch.records =
            [[⟨"aaaaaaaaaaaaaaaa", 0, 17⟩], [⟨"b", 0, 2⟩], [⟨"aaaaaaaaaaaaaaaa", 0, 17⟩]] := by
  intro old s p stream
  have hrestarted : Restarted (followSized 16) old old.stages s := restarted_twoLogs rfl
  obtain ⟨st, hin, e, hentry, hfp, hoffset, hsight, hcontent⟩ := entry_twoLogs
  have hrun : Recognisable stream (followSized 16).capacity
        ((old.stages.flatMap Stage.entries).map Metadata.fingerprint)
        ((p.step .poll).met.map Prod.snd) ∧ p.met = [] ∧
      p.stages.map (fun stage => (stage.sights,
          (stage.tracker.opened stage.paths stage.world).readers.map Reader.offset)) =
        [([(3, ⟨longLine.take 16⟩)], [0]), ([(4, ⟨[98, 10]⟩)], [2])] ∧
      (∀ stage ∈ p.stages, stage.world.tree.content 3 = longLine) ∧
      (p.step .poll).world.outlet.batches.map Batch.records =
        [[⟨"aaaaaaaaaaaaaaaa", 0, 17⟩], [⟨"b", 0, 2⟩], [⟨"aaaaaaaaaaaaaaaa", 0, 17⟩]] := by
    decide +kernel
  obtain ⟨htold, hmet, hstages, hsame, hbatches⟩ := hrun
  obtain ⟨stage, later, hstages, hstage, _⟩ := List.map_eq_cons_iff.mp hstages
  obtain ⟨hsights, hreaders⟩ := Prod.mk.inj hstage
  refine ⟨hrestarted, htold, st, hin, e, hentry, hfp ▸ hsight, hoffset, stage,
    ⟨by simp [hsights], ⟨[], later, hstages, by simp [hmet]⟩, by simp [hsights]⟩, ?_, fun r hr => ?_,
    hbatches⟩
  · rw [hcontent, hsame stage (by simp [hstages])]
  · simpa [hreaders] using List.mem_map_of_mem (f := Reader.offset) hr

end Session

end LogTail
