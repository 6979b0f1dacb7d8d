import LogTail.Proofs.Batches

namespace LogTail

open Record

def FileTree.Still (paths : List Path) (t t' : FileTree) : Prop :=
  ∀ path ∈ paths, t'.openFile path = t.openFile path ∧
    ∀ h, t.openFile path = .ok h → t'.node? h.node = t.node? h.node

namespace FileTree

variable {paths : List Path} {t t' : FileTree}

theorem Still.refl (paths : List Path) (t : FileTree) : t.Still paths t := fun _ _ => ⟨rfl, fun _ _ => rfl⟩

theorem Still.trans {t'' : FileTree} (h : t.Still paths t') (h' : t'.Still paths t'') :
    t.Still paths t'' := by
  intro path hpath
  obtain ⟨hopen, hnode⟩ := h path hpath
  obtain ⟨hopen', hnode'⟩ := h' path hpath
  refine ⟨hopen'.trans hopen, fun handle hh => ?_⟩
  rw [hnode' handle (hopen.trans hh), hnode handle hh]

theorem Still.content (h : t.Still paths t') {path : Path} (hpath : path ∈ paths) {handle : Handle}
    (hopen : t.openFile path = .ok handle) : t'.content handle.node = t.content handle.node := by
  simp only [FileTree.content, (h path hpath).2 handle hopen]

theorem Still.identify (h : t.Still paths t') {path : Path} (hpath : path ∈ paths) (k : Tracker) :
    k.identify t' path = k.identify t path := by
  obtain ⟨hopen, hnode⟩ := h path hpath
  unfold Tracker.identify
  rw [hopen]
  cases hfile : t.openFile path with
  | error e => rfl
  | ok handle =>
      simp only [FileTree.fingerprint, readNode, isDirectoryNode, FileTree.content, hnode handle hfile]
      rfl

end FileTree

namespace Reader

structure Rested (paths : List Path) (t : FileTree) (r : Reader) : Prop where
  settled : r.settle t = r
  seated : ∀ h, r.handle = some h → ∃ path ∈ paths, t.openFile path = .ok h

theorem settle_still {paths : List Path} {t t' : FileTree} (h : t.Still paths t') {r : Reader}
    (hseated : ∀ h, r.handle = some h → ∃ path ∈ paths, t.openFile path = .ok h) :
    r.settle t' = r.settle t := by
  cases hh : r.handle with
  | none => rw [settle_closed hh, settle_closed hh]
  | some handle =>
      obtain ⟨path, hpath, hopen⟩ := hseated handle hh
      rw [settle_open hh, settle_open hh, h.content hpath hopen]

theorem rested_close (paths : List Path) (t : FileTree) (r : Reader) : r.close.Rested paths t :=
  ⟨settle_closed rfl t, by simp [Reader.close]⟩

end Reader

namespace Tracker

/-- Some of the readers kept that are newer than all others, among them those of the last batch. -/
structure Newest (k : Tracker) (live : List Reader) : Prop where
  kept : live <:+ k.kept
  previous : live = [] ∨ k.previous <:+ live

namespace Newest

variable {k k' : Tracker} {live front back : List Reader} {old : Reader}

theorem nil (k : Tracker) : k.Newest [] := ⟨List.nil_suffix, .inl rfl⟩

theorem take (h : k.Newest live) (hsplit : k.kept = front ++ old :: back)
    (hrest : k'.kept = front ++ back) (hyields : k.Yields k' old back) :
    (∃ before, live = before ++ old :: back ∧ k'.Newest (before ++ back)) ∨
      live <:+ back ∧ k'.Newest live := by
  have hkept := h.kept
  rw [hsplit] at hkept
  rcases Nat.lt_or_ge back.length live.length with hlen | hlen
  · refine .inl ?_
    have hold : old :: back <:+ live :=
      List.suffix_of_suffix_length_le (List.suffix_append _ _) hkept (by simp; omega)
    obtain ⟨before, rfl⟩ := hold
    refine ⟨before, rfl, ?_, ?_⟩
    · obtain ⟨stale, hstale⟩ := hkept
      rw [← List.append_assoc, List.append_cancel_right_eq] at hstale
      exact ⟨stale, by rw [hrest, ← hstale, List.append_assoc]⟩
    · rcases hyields with ⟨part, hprevious, hprevious'⟩ | ⟨hprevious, hback⟩
      · have hpart := h.previous.resolve_left (by simp)
        rw [hprevious] at hpart
        obtain ⟨more, hmore⟩ := hpart
        rw [← List.append_assoc, List.append_cancel_right_eq] at hmore
        exact .inr ⟨more, by rw [hprevious', ← hmore, List.append_assoc]⟩
      · exact .inr (by rw [hprevious]; exact hback.trans (List.suffix_append _ _))
  · refine .inr ?_
    have hlive : live <:+ back :=
      List.suffix_of_suffix_length_le hkept
        ((List.suffix_cons old back).trans (List.suffix_append _ _)) hlen
    refine ⟨hlive, by rw [hrest]; exact hlive.trans (List.suffix_append _ _), ?_⟩
    rcases h.previous with hnil | hprevious
    · exact .inl hnil
    · rcases hyields with ⟨part, hprev, _⟩ | ⟨hsame, _⟩
      · -- the reader taken is of the last batch, and all of these are among the newest
        have hle := (hprevious.trans hlive).length_le
        rw [hprev, List.length_append, List.length_cons] at hle
        omega
      · exact .inr (by rwa [hsame])

theorem trim (h : k.Newest live) (hprevious : k.previous <:+ live)
    (hroom : live.length ≤ k.settings.capacity) :
    k.trim.Newest live := by
  obtain ⟨recent, rfl⟩ := hprevious
  obtain ⟨stale, hstale⟩ := h.kept
  rw [Tracker.kept, ← List.append_assoc, List.append_cancel_right_eq] at hstale
  refine ⟨?_, .inr (List.suffix_append _ _)⟩
  rw [List.length_append] at hroom
  rw [Tracker.trim, Tracker.kept]
  dsimp only
  rw [← hstale, List.drop_append_of_le_length (by rw [List.length_append]; omega), List.append_assoc]
  exact List.suffix_append _ _

end Newest

/-- What holds of the readers that were opened of late and of the newest ones kept, and is preserved when
another file is opened, read and closed. `past` are those of the batches before, and what is opened is as
`Fit` has it. -/
structure Carried (f : Policy) (t : FileTree) (past : List Reader) (Fit : Reader → Prop)
    (I : List Reader → List Reader → Prop) : Prop where
  perm {seen live live' : List Reader} : I seen live → live.Perm live' → I seen live'
  resumed {seen live : List Reader} {old : Reader} {h : Handle} {fp : Fingerprint} (path : Path) :
    I seen (old :: live) → old.settle t = old → Sighted f.fingerprintSize t h fp →
    fp.startsWith old.fingerprint = true → (∀ e ∈ seen, e.fingerprint.agrees fp = true → e ∈ past) →
    Fit (f.resume old.metadata h fp path) →
    I (seen ++ [(f.resume old.metadata h fp path).settle t]) (f.resume old.metadata h fp path :: live)
  added {seen live : List Reader} {h : Handle} {m : Metadata} (path : Path) :
    I seen live → Sighted f.fingerprintSize t h m.fingerprint →
    (∀ r ∈ live, m.fingerprint.startsWith r.fingerprint = false) →
    (∀ e ∈ seen, e.fingerprint.agrees m.fingerprint = true → e ∈ past) →
    Fit (f.build path (some h) m) →
    I (seen ++ [(f.build path (some h) m).settle t]) (f.build path (some h) m :: live)
  settled {seen live : List Reader} {r : Reader} :
    I seen (r :: live) → 0 < r.maxLogSize → I seen (r.settle t :: live)
  closed {seen live : List Reader} {r : Reader} :
    I seen (r :: live) → r.settle t = r → I seen (r.close :: live)

section Carrying

variable {t : FileTree} {followed paths : List Path} {past seen live rs : List Reader}
  {Fit : Reader → Prop} {I : List Reader → List Reader → Prop} {k : Tracker} {w : World}

theorem Carried.settle {f : Policy} (hI : Carried f t past Fit I) (hlimit : ∀ r ∈ rs, 0 < r.maxLogSize)
    (h : I seen (rs ++ live)) : I seen (rs.map (Reader.settle t) ++ live) := by
  induction rs generalizing live with
  | nil => exact h
  | cons r rs ih =>
      have hone : I seen (rs ++ r.settle t :: live) :=
        hI.perm (hI.settled h (hlimit r (by simp))) List.perm_middle.symm
      exact hI.perm (ih (fun s hs => hlimit s (by simp [hs])) hone) List.perm_middle

theorem Carried.close {f : Policy} (hI : Carried f t past Fit I) (hsettled : ∀ r ∈ rs, r.settle t = r)
    (h : I seen (rs ++ live)) : I seen (rs.map Reader.close ++ live) := by
  induction rs generalizing live with
  | nil => exact h
  | cons r rs ih =>
      have hone : I seen (rs ++ r.close :: live) :=
        hI.perm (hI.closed h (hsettled r (by simp))) List.perm_middle.symm
      exact hI.perm (ih (fun s hs => hsettled s (by simp [hs])) hone) List.perm_middle

theorem Carried.opens {f : Policy} {s s' : Opening} {path : Path} {left : List Reader}
    (hI : Carried f t past Fit I) (hopens : Opens s path s') (hpolicy : s.tracker.policy = f)
    (hsighted : ∀ h fp, s.tracker.identify s.world.tree path = some (h, fp) →
      Sighted f.fingerprintSize t h fp)
    (hfps : s.readers.map Reader.fingerprint = s.fingerprints) (hrested : ∀ r ∈ live, r.Rested followed t)
    (hfit : ∀ r ∈ s'.readers, Fit r) (hleft : s.tracker.Newest left) (hsub : left ⊆ live)
    (hheld : I (past ++ s.readers.reverse.map (Reader.settle t)) (s.readers ++ left)) :
    ∃ left', s'.tracker.Newest left' ∧ left' ⊆ live ∧
      I (past ++ s'.readers.reverse.map (Reader.settle t)) (s'.readers ++ left') := by
  have hdiffers {fp : Fingerprint} (hnew : ∀ g ∈ s.fingerprints, g.agrees fp = false) {r : Reader}
      (hr : r ∈ s.readers) : r.fingerprint.agrees fp = false :=
    hnew _ (by rw [← hfps]; exact List.mem_map_of_mem hr)
  have hpast {fp : Fingerprint} (hnew : ∀ g ∈ s.fingerprints, g.agrees fp = false) :
      ∀ e ∈ past ++ s.readers.reverse.map (Reader.settle t),
        e.fingerprint.agrees fp = true → e ∈ past := by
    intro e he hagrees
    rcases List.mem_append.mp he with he | he
    · exact he
    · obtain ⟨r, hr, rfl⟩ := List.mem_map.mp he
      rw [Reader.fingerprint_settle, hdiffers hnew (List.mem_reverse.mp hr)] at hagrees
      cases hagrees
  have hother {fp : Fingerprint} (hnew : ∀ g ∈ s.fingerprints, g.agrees fp = false)
      (hnone : ∀ r ∈ left, fp.startsWith r.fingerprint = false) :
      ∀ r ∈ s.readers ++ left, fp.startsWith r.fingerprint = false := by
    intro r hr
    rcases List.mem_append.mp hr with hr | hr
    · exact Fingerprint.startsWith_of_agrees (hdiffers hnew hr)
    · exact hnone r hr
  subst hpolicy
  cases hopens with
  | unreadable | copy => exact ⟨left, hleft, hsub, hheld⟩
  | @resumed h fp old front back _ hid hnew hsplit hrest hmatch hback _ _ _ hreaders hyields =>
      have hfits := hfit (s.tracker.policy.resume old.metadata h fp path) (by simp [hreaders])
      rcases hleft.take hsplit hrest hyields with ⟨before, rfl, hnext⟩ | ⟨hlate, hnext⟩
      · have hold := hrested old (hsub (by simp))
        have hfront : I (past ++ s.readers.reverse.map (Reader.settle t))
            (old :: (s.readers ++ (before ++ back))) :=
          hI.perm hheld (by simpa using @List.perm_middle _ old (s.readers ++ before) back)
        have hone := hI.resumed path hfront hold.settled (hsighted h fp hid) hmatch (hpast hnew) hfits
        refine ⟨before ++ back, hnext, fun r hr => hsub ?_, ?_⟩
        · rcases List.mem_append.mp hr with hr | hr <;> simp [hr]
        · rw [hreaders]
          simpa using hone
      · -- the reader taken is none of the newest, and for these the file is a new one
        have hone := @added _ _ _ _ _ hI _ _ h ⟨fp, old.metadata.offset, old.metadata.attributes⟩ path hheld
          (hsighted h fp hid) (hother hnew fun r hr => hback r (hlate.subset hr)) (hpast hnew) hfits
        refine ⟨left, hnext, hsub, ?_⟩
        rw [hreaders]
        simpa [Policy.resume] using hone
  | @added h fp _ hid hnew hkept hnone _ _ _ hreaders hprevious =>
      have hfits := hfit _ (by rw [hreaders]; exact List.mem_cons_self)
      have hone := hI.added path hheld (hsighted h fp hid)
        (hother hnew fun r hr => hnone r (hleft.kept.subset hr)) (hpast hnew) hfits
      refine ⟨left, ⟨by rw [hkept]; exact hleft.kept, by rw [hprevious]; exact hleft.previous⟩, hsub, ?_⟩
      rw [hreaders]
      simpa [Policy.fresh] using hone

variable (hI : Carried k.policy t past Fit I) (hstill : t.Still followed w.tree)
  (hfollowed : ∀ path ∈ paths, path ∈ followed) (hnewest : k.Newest live)
  (hrested : ∀ r ∈ live, r.Rested followed t) (hfit : ∀ r ∈ (k.opened paths w).readers, Fit r)
  (h : I past live)
include hI hstill hfollowed hnewest hrested hfit h

theorem Carried.opened :
    ∃ left, (k.opened paths w).tracker.Newest left ∧ left ⊆ live ∧
      I (past ++ (k.opened paths w).readers.reverse.map (Reader.settle t))
        ((k.opened paths w).readers ++ left) := by
  induction paths using List.reverseRecOn with
  | nil => exact ⟨live, hnewest, List.Subset.refl _, by simpa [Tracker.opened] using h⟩
  | append_singleton paths path ih =>
      have hopens := k.opened_opens paths path w
      obtain ⟨left, hleft, hsub, hheld⟩ := ih (fun p hp => hfollowed p (by simp [hp]))
        fun r hr => hfit r (hopens.readers.subset hr)
      refine hI.opens hopens (k.opened_steady paths w).1.policy (fun h fp hid => ?_)
        (k.opened_fingerprints paths w) hrested hfit hleft hsub hheld
      rw [opened_identify, hstill.identify (hfollowed path (by simp))] at hid
      exact (identify_some hid).2

/-- In calm it is so behind the batch, and all of the newest readers are at the ends of their files. -/
theorem Carried.collect (hcalm : w.outlet.Calm (k.collect paths w).2.outlet) :
    ∃ left, (k.collect paths w).1.Newest left ∧ (k.collect paths w).1.previous <:+ left ∧
      (∀ r ∈ left, r.Rested followed t) ∧ I (past ++ (k.collect paths w).1.previous) left := by
  obtain ⟨left, hleft, hsub, hheld⟩ := hI.opened hstill hfollowed hnewest hrested hfit h
  obtain ⟨hread, hknown⟩ := collect_calm hcalm
  have hreader {r : Reader} (hr : r ∈ (k.opened paths w).readers) :
      0 < r.maxLogSize ∧ (∀ h, r.handle = some h → ∃ path ∈ followed, t.openFile path = .ok h) ∧
        r.settle w.tree = r.settle t := by
    obtain ⟨path, hpath, h, hid, hh, hlimit⟩ := opened_reader hr
    have hseated : ∀ h, r.handle = some h → ∃ path ∈ followed, t.openFile path = .ok h := by
      intro h' hh'
      obtain rfl : h = h' := by simpa [hh] using hh'
      rw [hstill.identify (hfollowed path hpath)] at hid
      exact ⟨path, hfollowed path hpath, (identify_some hid).1⟩
    exact ⟨by rw [hlimit]; exact Nat.le_max_right _ _, hseated, Reader.settle_still hstill hseated⟩
  have hprevious : (k.collect paths w).1.previous =
      (k.opened paths w).readers.reverse.map (Reader.settle t) := by
    rw [hread]
    exact List.map_congr_left fun r hr => (hreader (List.mem_reverse.mp hr)).2.2
  have hends : ∀ r ∈ (k.collect paths w).1.previous, r.Rested followed t := by
    rw [hprevious]
    intro r hr
    obtain ⟨r', hr', rfl⟩ := List.mem_map.mp hr
    obtain ⟨hlimit, hseated, _⟩ := hreader (List.mem_reverse.mp hr')
    exact ⟨Reader.settle_settle t hlimit, by simpa using hseated⟩
  have hrest : I (past ++ (k.collect paths w).1.previous)
      ((k.collect paths w).1.previous ++ left) := by
    rw [hprevious, List.map_reverse]
    refine hI.perm (hI.settle (fun r hr => (hreader hr).1) ?_) ((List.reverse_perm _).symm.append_right _)
    rwa [List.map_reverse] at hheld
  rcases hleft.previous with rfl | hsuffix
  · refine ⟨(k.collect paths w).1.previous, ⟨List.suffix_append _ _, .inr List.suffix_rfl⟩,
      List.suffix_rfl, hends, ?_⟩
    rwa [List.append_nil] at hrest
  · obtain ⟨before, rfl⟩ := hsuffix
    obtain ⟨stale, hstale⟩ := hleft.kept
    rw [Tracker.kept, ← List.append_assoc, List.append_cancel_right_eq] at hstale
    generalize hparts : (k.opened paths w).stayed ++ (k.opened paths w).lost = parts
    have hperm : parts.Perm (k.opened paths w).tracker.previous := by
      rw [← hparts]
      exact List.perm_append_comm.trans (List.filter_append_perm _ _)
    have hparted : ∀ r ∈ parts, r.Rested followed t := fun r hr =>
      hrested r (hsub (List.mem_append_right _ (hperm.subset hr)))
    have hlost : (k.opened paths w).lost.map (Reader.settle w.tree) = (k.opened paths w).lost := by
      refine (List.map_congr_left fun r hr => ?_).trans (List.map_id _)
      have hrest := hparted r (by rw [← hparts]; exact List.mem_append_right _ hr)
      rw [Reader.settle_still hstill hrest.seated]
      exact hrest.settled
    have hbehind : (k.collect paths w).1.known = stale ++ (before ++ parts.map Reader.close) := by
      rw [hknown, hlost, hparts, ← hstale, List.append_assoc]
    refine ⟨before ++ parts.map Reader.close ++ (k.collect paths w).1.previous, ⟨?_, .inr ?_⟩, ?_, ?_, ?_⟩
    · rw [Tracker.kept, hbehind, List.append_assoc stale]
      exact List.suffix_append _ _
    · exact List.suffix_append _ _
    · exact List.suffix_append _ _
    · intro r hr
      rcases List.mem_append.mp hr with hr | hr
      · rcases List.mem_append.mp hr with hr | hr
        · exact hrested r (hsub (List.mem_append_left _ hr))
        · obtain ⟨r', hr', rfl⟩ := List.mem_map.mp hr
          exact Reader.rested_close _ _ _
      · exact hends r hr
    · have hparting : I (past ++ (k.collect paths w).1.previous)
          (parts ++ ((k.collect paths w).1.previous ++ before)) := by
        refine hI.perm hrest ?_
        rw [← List.append_assoc]
        exact List.perm_append_comm.trans (hperm.symm.append_right _)
      refine hI.perm (hI.close (fun r hr => (hparted r hr).settled) hparting) ?_
      exact (List.perm_append_comm.trans (List.perm_append_comm.append_right _)).trans
        (by rw [List.append_assoc, List.append_assoc]; exact List.perm_append_comm.append_left _)

end Carrying

end Tracker

end LogTail
