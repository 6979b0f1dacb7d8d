import LogTail.Proofs.InMemory
import LogTail.Proofs.Openings
import LogTail.Proofs.Trackers

namespace LogTail

open Tracker

namespace Policy

open Json

theorem lookup_resume {f : Policy} {old : Metadata} {h : Handle} {fp : Fingerprint} {p : Path}
    {key : String} (hname : key ≠ nameAttribute) (hpath : key ≠ pathAttribute) :
    lookup key (f.resume old h fp p).metadata.attributes = lookup key old.attributes := by
  change lookup key (f.withPath p (f.withName p ⟨fp, old.offset, old.attributes⟩)).attributes = _
  have hwithPath (m : Metadata) : lookup key (f.withPath p m).attributes = lookup key m.attributes := by
    unfold withPath
    split
    · exact lookup_insertMember_ne hpath _ _
    · rfl
  have hwithName (m : Metadata) : lookup key (f.withName p m).attributes = lookup key m.attributes := by
    unfold withName
    split
    · split
      · exact lookup_insertMember_ne hname _ _
      · rfl
    · rfl
  rw [hwithPath, hwithName]

end Policy

namespace Tracker

structure ToldApart (k : Tracker) : Prop where
  filled : ∀ r ∈ k.previous, r.fingerprint.bytes ≠ []
  apart : k.previous.Pairwise fun a b => a.fingerprint.agrees b.fingerprint = false

theorem ToldApart.of_sublist {k : Tracker} {rs : List Reader}
    (hfilled : ∀ r ∈ rs, r.fingerprint.bytes ≠ [])
    (hapart : rs.Pairwise fun a b => a.fingerprint.agrees b.fingerprint = false)
    (hsub : (k.previous.map Reader.fingerprint).Sublist (rs.map Reader.fingerprint)) : k.ToldApart := by
  constructor
  · intro r hr
    obtain ⟨r', hr', hsame⟩ := List.mem_map.mp (hsub.subset (List.mem_map_of_mem hr))
    exact hsame ▸ hfilled r' hr'
  · exact List.pairwise_map.mp ((List.pairwise_map.mpr hapart : List.Pairwise
      (fun a b => Fingerprint.agrees a b = false) (rs.map Reader.fingerprint)).sublist hsub)

theorem collect_lasts_apart (k : Tracker) (paths : List Path) (w : World) :
    (k.collect paths w).1.ToldApart := by
  -- the check for copies keeps the readers of a batch apart, whatever becomes of them
  have hplaces := k.places_apart w.tree paths
  rw [← k.opened_places paths w, List.pairwise_map] at hplaces
  refine .of_sublist (fun r hr => ?_) hplaces ?_
  · obtain ⟨_, _, _, hid, _⟩ := opened_built (List.mem_reverse.mp hr)
    exact (identify_some hid).2.filled
  · rw [collect_eq]
    exact drain_sublist _ _

theorem ToldApart.lasting : Enduring ToldApart := Lasting.enduring {
  begun h := ⟨h.filled, h.apart⟩
  beginning h := ⟨h.filled, h.apart⟩
  recollected e h := by
    unfold recollect
    split
    · exact h
    · exact ⟨h.filled, h.apart⟩
  trimmed h := ⟨h.filled, h.apart⟩
  closed {k} h := by
    refine .of_sublist h.filled h.apart ?_
    rw [closeReaders, List.map_map]
    exact List.Sublist.refl _
  stored _ h := ⟨h.filled, h.apart⟩
  collected {k paths} w _ _ := k.collect_lasts_apart paths w }

variable {k : Tracker} {paths : List Path} {w : World} {old new : Reader}

/-- A reader of the last batch goes, when a path is opened, for the new reader of that path. -/
def Takes (k : Tracker) (paths : List Path) (w : World) (old new : Reader) : Prop :=
  ∃ done path left, paths = done ++ path :: left ∧
    old ∈ (k.opened done w).tracker.previous ∧ old ∉ (k.opened (done ++ [path]) w).tracker.previous ∧
    (k.opened (done ++ [path]) w).readers = new :: (k.opened done w).readers

theorem opened_previous_append (done left : List Path) :
    (k.opened (done ++ left) w).tracker.previous ⊆ (k.opened done w).tracker.previous := by
  induction left using List.reverseRecOn with
  | nil => simp
  | append_singleton left path ih =>
      rw [← List.append_assoc]
      exact fun r hr => ih ((k.opened_opens (done ++ left) path w).previous_sublist.subset hr)

theorem opened_readers_append (done left : List Path) :
    (k.opened done w).readers ⊆ (k.opened (done ++ left) w).readers := by
  induction left using List.reverseRecOn with
  | nil => simp
  | append_singleton left path ih =>
      rw [← List.append_assoc]
      exact fun r hr => (k.opened_opens (done ++ left) path w).readers.subset (ih hr)

theorem Takes.resumes (h : Takes k paths w old new) :
    new ∈ (k.opened paths w).readers ∧ new.fingerprint.startsWith old.fingerprint = true ∧
      ∃ handle, k.identify w.tree new.path = some (handle, new.fingerprint) ∧
        new = k.policy.resume old.metadata handle new.fingerprint new.path := by
  obtain ⟨done, path, left, rfl, hbefore, hbehind, hnew⟩ := h
  have hmem : new ∈ (k.opened (done ++ path :: left) w).readers := by
    have hall := opened_readers_append (k := k) (w := w) (done ++ [path]) left
    rw [List.append_assoc, List.singleton_append] at hall
    exact hall (hnew ▸ List.mem_cons_self)
  obtain ⟨hsteady, _⟩ := k.opened_steady done w
  have hopens := k.opened_opens done path w
  generalize k.opened (done ++ [path]) w = s' at hopens hbehind hnew
  cases hopens with
  | unreadable | copy => exact absurd hbefore hbehind
  | added _ _ _ _ _ _ _ _ hprevious => exact absurd (hprevious ▸ hbefore) hbehind
  | @resumed handle fp old' front back _ hid _ _ _ hmatch _ _ _ _ hreaders hyields =>
      rw [hreaders, hsteady.policy] at hnew
      obtain rfl : k.policy.resume old'.metadata handle fp path = new := (List.cons.inj hnew).1
      rw [opened_identify] at hid
      rcases hyields with ⟨front', hprevious, hrest⟩ | ⟨hprevious, _⟩
      · -- the one reader that goes is the one that matches
        obtain rfl : old = old' := by
          rw [hprevious] at hbefore
          rw [hrest] at hbehind
          simp only [List.mem_append, List.mem_cons] at hbefore hbehind
          tauto
        exact ⟨hmem, by simpa using hmatch, handle, by simpa using hid, by simp⟩
      · exact absurd (hprevious ▸ hbefore) hbehind

theorem Takes.unique {new' : Reader} (h : Takes k paths w old new) (h' : Takes k paths w old new') :
    new = new' := by
  obtain ⟨done, path, left, hpaths, hbefore, hbehind, hnew⟩ := h
  obtain ⟨done', path', left', hpaths', hbefore', hbehind', hnew'⟩ := h'
  -- once it is gone it does not come back, so it goes at the same path
  have hle {a b : List Path} {p q : Path} {l l' : List Path} (ha : paths = a ++ p :: l)
      (hb : paths = b ++ q :: l') (hgone : old ∉ (k.opened (a ++ [p]) w).tracker.previous)
      (hthere : old ∈ (k.opened b w).tracker.previous) : b.length ≤ a.length := by
    by_contra hlt
    have hwhole : a ++ [p] <+: paths := ⟨l, by simp [ha]⟩
    have hprefix : a ++ [p] <+: b := by
      refine List.prefix_of_prefix_length_le hwhole ⟨q :: l', hb.symm⟩ ?_
      simp only [List.length_append, List.length_singleton]
      omega
    obtain ⟨more, rfl⟩ := hprefix
    exact hgone (opened_previous_append _ _ hthere)
  have hlength : done.length = done'.length :=
    Nat.le_antisymm (hle hpaths' hpaths hbehind' hbefore) (hle hpaths hpaths' hbehind hbefore')
  obtain ⟨rfl, hrest⟩ := List.append_inj (hpaths.symm.trans hpaths') hlength
  obtain ⟨rfl, -⟩ := List.cons.inj hrest
  exact (List.cons.inj (hnew.symm.trans hnew')).1

theorem takes_iff_gone (hold : old ∈ k.previous) :
    (∃ new, Takes k paths w old new) ↔ old ∉ (k.opened paths w).tracker.previous := by
  constructor
  · rintro ⟨new, done, path, left, rfl, _, hbehind, _⟩ hstill
    rw [← List.singleton_append, ← List.append_assoc] at hstill
    exact hbehind (opened_previous_append _ _ hstill)
  · induction paths using List.reverseRecOn with
    | nil => exact fun hgone => absurd hold hgone
    | append_singleton paths path ih =>
        intro hgone
        by_cases hthere : old ∈ (k.opened paths w).tracker.previous
        · suffices hnew : ∃ new, (k.opened (paths ++ [path]) w).readers =
              new :: (k.opened paths w).readers by
            obtain ⟨new, hnew⟩ := hnew
            exact ⟨new, paths, path, [], rfl, hthere, hgone, hnew⟩
          rcases (k.opened_opens paths path w).eq_or_built with hsame | ⟨_, _, _, _, _, hreaders⟩
          · exact absurd hthere (hsame ▸ hgone)
          · exact ⟨_, hreaders⟩
        · obtain ⟨new, done, p, left, rfl, hbefore, hbehind, hreaders⟩ := ih hthere
          exact ⟨new, done, p, left ++ [path], by simp, hbefore, hbehind, hreaders⟩

theorem ToldApart.eq_of_startsWith (h : k.ToldApart) {a b : Reader} {fp : Fingerprint}
    {front back : List Reader} (hsub : (front ++ a :: back).Sublist k.previous) (ha : fp.startsWith a.fingerprint = true)
    (hb : fp.startsWith b.fingerprint = true) : b ∉ front ++ back := by
  intro hmem
  have hagrees : a.fingerprint.agrees b.fingerprint = true := by
    rw [Fingerprint.startsWith_iff] at ha hb
    rw [Fingerprint.agrees_iff, Fingerprint.startsWith_iff, Fingerprint.startsWith_iff]
    rcases List.prefix_or_prefix_of_prefix ha.2 hb.2 with hle | hle
    · exact .inr ⟨ha.1, hle⟩
    · exact .inl ⟨hb.1, hle⟩
  have hall := h.apart.sublist hsub
  obtain ⟨_, hback, hcross⟩ := List.pairwise_append.mp hall
  rcases List.mem_append.mp hmem with hmem | hmem
  · have hnot := hcross b hmem a List.mem_cons_self
    rw [Fingerprint.agrees_comm, hagrees] at hnot
    cases hnot
  · have hnot := (List.pairwise_cons.mp hback).1 b hmem
    rw [hagrees] at hnot
    cases hnot

theorem ToldApart.mem_opened_previous (h : k.ToldApart) :
    old ∈ (k.opened paths w).tracker.previous ↔
      old ∈ k.previous ∧
        ∀ r ∈ (k.opened paths w).readers, r.fingerprint.startsWith old.fingerprint = false := by
  induction paths using List.reverseRecOn with
  | nil => simp [opened]
  | append_singleton paths path ih =>
      have hsub := k.opened_previous paths w
      have hopens := k.opened_opens paths path w
      generalize k.opened (paths ++ [path]) w = s' at hopens ⊢
      cases hopens with
      | unreadable | copy => exact ih
      | added _ _ _ hnone _ _ _ hreaders hprevious =>
          rw [hprevious, hreaders, List.forall_mem_cons, Policy.fingerprint_fresh, ih]
          refine ⟨fun hold => ⟨hold.1, hnone old (List.mem_append_right _ (ih.mpr hold)), hold.2⟩,
            fun hold => ⟨hold.1, hold.2.2⟩⟩
      | @resumed handle fp old' front back _ _ _ _ _ hmatch hback _ _ _ hreaders hyields =>
          rw [hreaders, List.forall_mem_cons, Policy.fingerprint_resume]
          rcases hyields with ⟨front', hprevious, hrest⟩ | ⟨hprevious, hsuffix⟩
          · rw [hprevious] at hsub
            have hsplit :
                old ∈ (k.opened paths w).tracker.previous ↔ old = old' ∨ old ∈ front' ++ back := by
              rw [hprevious]
              simp only [List.mem_append, List.mem_cons]
              tauto
            rw [hrest]
            constructor
            · intro hmem
              obtain ⟨hold, hnone⟩ := ih.mp (hsplit.mpr (.inr hmem))
              refine ⟨hold, ?_, hnone⟩
              by_contra hstart
              exact h.eq_of_startsWith hsub hmatch (by simpa using hstart) hmem
            · rintro ⟨hold, hnot, hnone⟩
              refine (hsplit.mp (ih.mpr ⟨hold, hnone⟩)).resolve_left ?_
              rintro rfl
              rw [hmatch] at hnot
              cases hnot
          · rw [hprevious]
            refine ⟨fun hmem => ⟨(ih.mp hmem).1, hback old (hsuffix.subset hmem), (ih.mp hmem).2⟩, ?_⟩
            exact fun hold => ih.mpr ⟨hold.1, hold.2.2⟩

theorem mem_lost {s : Opening} :
    old ∈ s.lost ↔ old ∈ s.tracker.previous ∧ ∀ r ∈ s.readers, continues old r = false := by
  simp [Opening.lost, isLeftBehind]

theorem mem_stayed {s : Opening} :
    old ∈ s.stayed ↔ old ∈ s.tracker.previous ∧ ∃ r ∈ s.readers, continues old r = true := by
  simp [Opening.stayed, isLeftBehind]

def Opening.drains (s : Opening) (before : List Reader) (old : Reader) : ReadEnd × Reader × Outlet :=
  let w := (drain before s.world).2
  old.readIn w.tree w.outlet

theorem drainOne_left (r : Reader) (w : World) :
    (drainOne r w).1 = if (r.readIn w.tree w.outlet).1 = .crashed then none
      else some (r.readIn w.tree w.outlet).2.1 := by
  unfold drainOne
  cases r.shortLength? w.tree <;> simp only [World.log] <;>
    obtain ⟨ended, r', o⟩ := r.readIn w.tree w.outlet <;> cases ended <;> rfl

/-- What a batch puts among the readers remembered: those that stayed and what is left of those that
were lost. -/
def Opening.appended (s : Opening) : List Reader :=
  (s.stayed ++ (drain s.lost s.world).1).map Reader.close

theorem collect_known (k : Tracker) (paths : List Path) (w : World) :
    (k.collect paths w).1.known =
      (k.opened paths w).tracker.known ++ (k.opened paths w).appended := by
  rw [collect_eq]
  rfl

theorem ToldApart.nodup (h : k.ToldApart) : (k.previous.map Reader.fingerprint).Nodup := by
  refine List.pairwise_map.mpr (h.apart.imp_of_mem fun {a b} ha _ hagrees hsame => ?_)
  rw [← hsame, Fingerprint.agrees_self (h.filled a ha)] at hagrees
  cases hagrees

theorem ToldApart.lost_fate (h : k.ToldApart) (hold : old ∈ (k.opened paths w).lost) :
    ∃ before behind, (k.opened paths w).lost = before ++ old :: behind ∧
      (((k.opened paths w).drains before old).1 ≠ .crashed →
        ((k.opened paths w).drains before old).2.1.close ∈ (k.opened paths w).appended) ∧
      (((k.opened paths w).drains before old).1 = .crashed →
        ∀ r ∈ (k.opened paths w).appended, r.fingerprint ≠ old.fingerprint) := by
  have hsub := k.opened_previous paths w
  generalize k.opened paths w = s at *
  obtain ⟨before, behind, hsplit⟩ := List.append_of_mem hold
  have hleft : (drainOne old (drain before s.world).2).1 =
      if (s.drains before old).1 = .crashed then none else some (s.drains before old).2.1 :=
    drainOne_left _ _
  have hdrained : (drain s.lost s.world).1 = (drain before s.world).1 ++
      ((drainOne old (drain before s.world).2).1.toList ++
        (drain behind (drainOne old (drain before s.world).2).2).1) := by
    rw [hsplit, drain_append, drain_cons]
  refine ⟨before, behind, hsplit, fun hlive => ?_, fun hdead r hr => ?_⟩
  · rw [if_neg hlive] at hleft
    rw [Opening.appended, hdrained, hleft]
    exact List.mem_map_of_mem (by simp)
  · -- what is remembered comes from other readers of the last batch
    rw [if_pos hdead] at hleft
    rw [Opening.appended, hdrained, hleft, Option.toList_none, List.nil_append] at hr
    have hperm : (old :: (before ++ (behind ++ s.stayed))).Perm s.tracker.previous := by
      refine List.perm_middle.symm.trans ?_
      rw [← List.cons_append, ← List.append_assoc, ← hsplit]
      exact List.filter_append_perm _ _
    have hnodup := (hperm.map Reader.fingerprint).nodup_iff.mpr (h.nodup.sublist (hsub.map _))
    intro hsame
    apply (List.nodup_cons.mp hnodup).1
    rw [← hsame]
    obtain ⟨old', hold', rfl⟩ := List.mem_map.mp hr
    have hbefore := (drain_sublist before s.world).subset (a := old'.fingerprint)
    have hbehind := (drain_sublist behind (drainOne old (drain before s.world).2).2).subset
      (a := old'.fingerprint)
    change old'.fingerprint ∈ _
    simp only [List.mem_append, List.map_append] at hold' ⊢
    rcases hold' with hold' | hold' | hold'
    · exact .inr (.inr (List.mem_map_of_mem hold'))
    · exact .inl (hbefore (List.mem_map_of_mem hold'))
    · exact .inr (.inl (hbehind (List.mem_map_of_mem hold')))

theorem one_fate (hold : old ∈ k.previous) :
    (∃! new, Takes k paths w old new) ∧ old ∉ (k.opened paths w).lost ∧
        old ∉ (k.opened paths w).stayed ∨
      (¬ ∃ new, Takes k paths w old new) ∧ old ∈ (k.opened paths w).lost ∧
        old ∉ (k.opened paths w).stayed ∨
      (¬ ∃ new, Takes k paths w old new) ∧ old ∉ (k.opened paths w).lost ∧
        old ∈ (k.opened paths w).stayed := by
  have hgone : (∃ new, Takes k paths w old new) ↔ _ := takes_iff_gone hold
  by_cases htaken : ∃ new, Takes k paths w old new
  · have hnot := hgone.mp htaken
    obtain ⟨new, hnew⟩ := htaken
    exact .inl ⟨⟨new, hnew, fun _ hnew' => hnew'.unique hnew⟩, fun hl => hnot (mem_lost.mp hl).1,
      fun hs => hnot (mem_stayed.mp hs).1⟩
  · have hstill := not_not.mp (mt hgone.mpr htaken)
    by_cases hfile : ∃ r ∈ (k.opened paths w).readers, continues old r = true
    · refine .inr (.inr ⟨htaken, fun hl => ?_, mem_stayed.mpr ⟨hstill, hfile⟩⟩)
      obtain ⟨r, hr, hgoes⟩ := hfile
      rw [(mem_lost.mp hl).2 r hr] at hgoes
      cases hgoes
    · have hnone : ∀ r ∈ (k.opened paths w).readers, continues old r = false := by simpa using hfile
      exact .inr (.inl ⟨htaken, mem_lost.mpr ⟨hstill, hnone⟩, fun hs => hfile (mem_stayed.mp hs).2⟩)

theorem ToldApart.takes_iff (h : k.ToldApart) (hold : old ∈ k.previous) :
    (∃ new, Takes k paths w old new) ↔
      ∃ new ∈ (k.opened paths w).readers, new.fingerprint.startsWith old.fingerprint = true := by
  rw [takes_iff_gone hold, h.mem_opened_previous, and_iff_right hold]
  simp

theorem ToldApart.stayed_iff (h : k.ToldApart) (hold : old ∈ k.previous) :
    old ∈ (k.opened paths w).stayed ↔ (¬ ∃ new, Takes k paths w old new) ∧
      ∃ new ∈ (k.opened paths w).readers, new.path.same old.path = true ∧ old.sameFile new = true := by
  rw [mem_stayed, takes_iff_gone hold, not_not]
  refine and_congr_right fun hstill => exists_congr fun r => and_congr_right fun hr => ?_
  rw [continues, (h.mem_opened_previous.mp hstill).2 r hr, Bool.false_or, Bool.and_eq_true]

end Tracker

namespace Session

open Json in
/-- Every reader of the last batch meets one of three fates, whatever session the tracker is from and
whatever batch comes next: one new reader takes it and goes on where it stopped, or it is lost and
drained, or it is closed as it is, its file being there with another content. It is remembered unless
it is taken, but for one whose emitter dies while it is drained. -/
theorem previous_fates {c : Config} {s : Session} {acts : List Act} {k : Tracker}
    (hbuilt : Consumer.ofConfig c = .ok s.origin) (hconsumer : s.consumer = s.origin)
    (hk : (s.run acts).HasTracker k) (paths : List Path) (w : World) :
    let o := k.opened paths w
    (∀ r ∈ k.previous, r.fingerprint.bytes ≠ []) ∧
    k.previous.Pairwise (fun a b => a.fingerprint.agrees b.fingerprint = false) ∧
    (k.collect paths w).1.known = o.tracker.known ++ o.appended ∧
    ∀ old ∈ k.previous,
      ((∃! new, Takes k paths w old new) ∧ old ∉ o.lost ∧ old ∉ o.stayed ∨
        (¬ ∃ new, Takes k paths w old new) ∧ old ∈ o.lost ∧ old ∉ o.stayed ∨
        (¬ ∃ new, Takes k paths w old new) ∧ old ∉ o.lost ∧ old ∈ o.stayed) ∧
      (∀ new, Takes k paths w old new → new ∈ o.readers ∧ new.offset = old.offset ∧
        ∀ key, key ≠ Policy.nameAttribute → key ≠ Policy.pathAttribute →
          lookup key new.metadata.attributes = lookup key old.metadata.attributes) ∧
      ((∃ new, Takes k paths w old new) ↔
        ∃ new ∈ o.readers, new.fingerprint.startsWith old.fingerprint = true) ∧
      (old ∈ o.stayed ↔ (¬ ∃ new, Takes k paths w old new) ∧
        ∃ new ∈ o.readers, new.path.same old.path = true ∧ old.sameFile new = true) ∧
      (old ∈ o.stayed → old.close ∈ o.appended) ∧
      (old ∈ o.lost → ∃ before behind, o.lost = before ++ old :: behind ∧
        ((o.drains before old).1 ≠ .crashed → (o.drains before old).2.1.close ∈ o.appended) ∧
        ((o.drains before old).1 = .crashed → ∀ r ∈ o.appended, r.fingerprint ≠ old.fingerprint)) := by
  intro o
  have h : k.ToldApart := hk.lasts ToldApart.lasting hbuilt hconsumer fun _ => ⟨by simp [ofParts], .nil⟩
  refine ⟨h.filled, h.apart, k.collect_known paths w, fun old hold => ?_⟩
  refine ⟨one_fate hold, fun new hnew => ?_, h.takes_iff hold, h.stayed_iff hold, fun hs => ?_,
    h.lost_fate⟩
  · obtain ⟨hmem, _, handle, _, hresume⟩ := hnew.resumes
    refine ⟨hmem, ?_, fun key hname hpath => ?_⟩
    · rw [hresume, Policy.offset_resume]
      rfl
    · rw [hresume, Policy.lookup_resume hname hpath]
  · exact List.mem_map_of_mem (List.mem_append_left _ hs)

def followThree : Config := { followLogs with maxConcurrentFiles := 6 }

theorem previous_fates_three :
    let o : Consumer := .ofParts ⟨["*.log"], [], none⟩ followThree.policy followThree.settings
    let s := ofConsumer o
      (ofFiles [("a.log", true, [97, 10]), ("b.log", true, [98, 10]), ("c.log", true, [99, 10])])
    let tree := ofFiles [("a.log", true, [97, 10, 97, 10]), ("b.txt", true, [98, 10, 98, 10]),
      ("c.log", true, [100, 10])]
    let s' := s.run [.start, .poll, .change tree]
    Consumer.ofConfig followThree = .ok s.origin ∧
      ∃ stage ∈ s'.stages, ∃ a b c, stage.tracker.previous = [a, b, c] ∧
        (∃ new, Takes stage.tracker stage.paths stage.world a new ∧ new.offset = 2) ∧
        b ∈ (stage.tracker.opened stage.paths stage.world).lost ∧
        c.close ∈ (stage.tracker.opened stage.paths stage.world).appended ∧
        (stage.tracker.collect stage.paths stage.world).1.known.map Reader.offset = [2, 4] := by
  intro o s tree s'
  have hbuilt : Consumer.ofConfig followThree = .ok s.origin := rfl
  have hstages : s'.stages.map (fun stage =>
      (stage.tracker.previous.map fun old =>
        ((stage.tracker.opened stage.paths stage.world).readers.any fun new =>
            new.fingerprint.startsWith old.fingerprint,
          (stage.tracker.opened stage.paths stage.world).readers.any fun new =>
            new.path.same old.path && old.sameFile new,
          old.offset),
        (stage.tracker.collect stage.paths stage.world).1.known.map Reader.offset)) =
      [([(true, true, 2), (false, false, 2), (false, true, 2)], [2, 4])] := by decide +kernel
  obtain ⟨stage, hstage, hfields⟩ := List.map_eq_singleton_iff.mp hstages
  have hmem : stage ∈ s'.stages := by simp [hstage]
  obtain ⟨hprevious, hknown⟩ := Prod.mk.inj hfields
  obtain ⟨a, rest, hall, ha, hrest⟩ := List.map_eq_cons_iff.mp hprevious
  obtain ⟨b, rest', rfl, hb, hrest'⟩ := List.map_eq_cons_iff.mp hrest
  obtain ⟨c, rfl, hc⟩ := List.map_eq_singleton_iff.mp hrest'
  have hk : (s.run [.start, .poll, .change tree]).HasTracker stage.tracker := .inr ⟨stage, hmem, rfl⟩
  have hfates := previous_fates hbuilt rfl hk stage.paths stage.world
  clear_value s' tree s o
  obtain ⟨-, -, -, hfates⟩ := hfates
  simp only [Prod.mk.injEq, List.any_eq_true, List.any_eq_false, Bool.and_eq_true] at ha hb hc
  obtain ⟨-, hstarts, htaken, -⟩ := hfates a (by simp [hall])
  obtain ⟨new, hnew⟩ := htaken.mpr ha.1
  refine ⟨hbuilt, stage, hmem, a, b, c, hall, ⟨new, hnew, (hstarts new hnew).2.1.trans ha.2.2⟩, ?_, ?_,
    hknown⟩
  · obtain ⟨hfate, -, htaken, hstayed, -⟩ := hfates b (by simp [hall])
    rcases hfate with ⟨⟨new, hnew, _⟩, _⟩ | ⟨_, hlost, _⟩ | ⟨_, _, hs⟩
    · obtain ⟨r, hr, hstart⟩ := htaken.mp ⟨new, hnew⟩
      exact absurd hstart (hb.1 r hr)
    · exact hlost
    · obtain ⟨r, hr, hfile⟩ := (hstayed.mp hs).2
      exact absurd hfile (hb.2.1 r hr)
  · obtain ⟨-, -, htaken, hstayed, hclosed, -⟩ := hfates c (by simp [hall])
    refine hclosed (hstayed.mpr ⟨fun hnew => ?_, hc.2.1⟩)
    obtain ⟨r, hr, hstart⟩ := htaken.mp hnew
    exact absurd hstart (hc.1 r hr)

/-- A log that was moved away with a line more, and an emitter that dies when it gets that line. -/
theorem drained_reader_dropped :
    let s := (ofConsumer logFollower (ofFiles [("a.log", true, [97, 10])])).run
      [.start, .poll, .change (ofFiles [("a.txt", true, [97, 10, 98, 10])]),
        .emitter (fun i => if i = 1 then .acceptAndCrash else .accept) []]
    ∃ stage ∈ s.stages, ∃ old ∈ stage.tracker.previous,
      (¬ ∃ new, Takes stage.tracker stage.paths stage.world old new) ∧
        (stage.tracker.collect stage.paths stage.world).1.known = [] := by
  intro s
  have hstages : s.stages.map (fun stage => (stage.tracker.previous.length,
      (stage.tracker.opened stage.paths stage.world).readers.length,
      (stage.tracker.collect stage.paths stage.world).1.known.length)) = [(1, 0, 0)] := by
    decide +kernel
  obtain ⟨stage, hstage, hlengths⟩ := List.map_eq_singleton_iff.mp hstages
  simp only [Prod.mk.injEq, List.length_eq_zero_iff, List.length_eq_one_iff] at hlengths
  obtain ⟨⟨old, hold⟩, hreaders, hknown⟩ := hlengths
  refine ⟨stage, by simp [hstage], old, by simp [hold], ?_, hknown⟩
  rintro ⟨new, hnew⟩
  have hmem := hnew.resumes.1
  rw [hreaders] at hmem
  exact List.not_mem_nil hmem

end Session

end LogTail
