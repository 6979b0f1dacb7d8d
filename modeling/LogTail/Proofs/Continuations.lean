import LogTail.Proofs.Emissions

namespace LogTail.Tracker

/-- Of the files found no two go on from one reader, and none goes on from two. -/
structure Unmixed (found : List (Nat × Fingerprint)) (rs : List Reader) : Prop where
  files : ∀ x ∈ found, ∀ y ∈ found, x.2.agrees y.2 = true → x.2 = y.2
  once : ∀ r ∈ rs, ∀ x ∈ found, ∀ y ∈ found, x.2.startsWith r.fingerprint = true →
    y.2.startsWith r.fingerprint = true → x.2 = y.2
  sole : rs.Pairwise fun a b => ∀ x ∈ found, x.2.startsWith a.fingerprint = true →
    x.2.startsWith b.fingerprint = false

theorem Unmixed.mono {found found' : List (Nat × Fingerprint)} {rs : List Reader}
    (h : Unmixed found' rs) (hsub : ∀ x ∈ found, x ∈ found') : Unmixed found rs where
  files x hx y hy := h.files x (hsub x hx) y (hsub y hy)
  once r hr x hx y hy := h.once r hr x (hsub x hx) y (hsub y hy)
  sole := h.sole.imp fun hab x hx => hab x (hsub x hx)

inductive Source (k : Tracker) (t : FileTree) (r : Reader) : Prop
  | resumed {h : Handle} {old : Reader} (hid : k.identify t r.path = some (h, r.fingerprint))
      (hold : old ∈ k.kept) (hmatch : r.fingerprint.startsWith old.fingerprint = true)
      (hr : r = k.policy.resume old.metadata h r.fingerprint r.path) : Source k t r
  | added {h : Handle} (hid : k.identify t r.path = some (h, r.fingerprint))
      (hnone : ∀ old ∈ k.kept, r.fingerprint.startsWith old.fingerprint = false)
      (hr : r = k.policy.fresh (t.content h.node).length h r.fingerprint r.path) : Source k t r

theorem Source.identified {k : Tracker} {t : FileTree} {r : Reader} (h : Source k t r) :
    ∃ g, k.identify t r.path = some (g, r.fingerprint) ∧ r.handle = some g ∧
      r.maxLogSize = max k.policy.maxLogSize 1 := by
  cases h with
  | resumed hid _ _ hr | added hid _ hr => exact ⟨_, hid, by rw [hr]; rfl, by rw [hr]; rfl⟩

/-- The readers opened for some paths, and what is left of those that were kept: all that a file found
goes on from are taken. -/
structure Sources (k : Tracker) (w : World) (paths : List Path) (s : Opening) : Prop where
  sources : ∀ r ∈ s.readers, Source k w.tree r
  sublist : s.tracker.kept.Sublist k.kept
  untaken : ∀ r ∈ s.tracker.kept, ∀ x ∈ k.sights w.tree paths, x.2.startsWith r.fingerprint = false
  taken : ∀ r ∈ k.kept, r ∈ s.tracker.kept ∨
    ∃ x ∈ k.sights w.tree paths, x.2 ∈ s.fingerprints ∧ x.2.startsWith r.fingerprint = true
  found : ∀ f ∈ s.fingerprints, ∃ x ∈ k.sights w.tree paths, x.2 = f

theorem sights_snoc_none {k : Tracker} {t : FileTree} {paths : List Path} {path : Path}
    (hid : k.identify t path = none) : k.sights t (paths ++ [path]) = k.sights t paths := by
  simp [sights, hid]

theorem sights_snoc_some {k : Tracker} {t : FileTree} {paths : List Path} {path : Path} {h : Handle}
    {fp : Fingerprint} (hid : k.identify t path = some (h, fp)) :
    k.sights t (paths ++ [path]) = k.sights t paths ++ [(h.node, fp)] := by
  simp [sights, hid]

section Step

variable {k : Tracker} {w : World} {paths : List Path} {path : Path} {s s' : Opening} {h : Handle}
  {fp : Fingerprint} (hsources : Sources k w paths s) (hid : k.identify w.tree path = some (h, fp))
  (hunmixed : Unmixed (k.sights w.tree (paths ++ [path])) k.kept)
include hsources hid hunmixed

omit hunmixed in
theorem Sources.found_snoc (hmet : s'.fingerprints = fp :: s.fingerprints) :
    ∀ f ∈ s'.fingerprints, ∃ x ∈ k.sights w.tree (paths ++ [path]), x.2 = f := by
  rw [sights_snoc_some hid, hmet, List.forall_mem_cons]
  refine ⟨⟨(h.node, fp), by simp, rfl⟩, fun f hf => ?_⟩
  obtain ⟨x, hx, hfp⟩ := hsources.found f hf
  exact ⟨x, List.mem_append_left _ hx, hfp⟩

theorem Sources.copy {f : Fingerprint} (hmem : f ∈ s.fingerprints) (hagrees : f.agrees fp = true) :
    Sources k w (paths ++ [path]) s := by
  rw [sights_snoc_some hid] at hunmixed
  obtain ⟨x, hx, rfl⟩ := hsources.found f hmem
  have hsame : x.2 = fp := hunmixed.files x (List.mem_append_left _ hx) (h.node, fp) (by simp) hagrees
  refine ⟨hsources.sources, hsources.sublist, fun r hr y hy => ?_, fun r hr => ?_, fun f hf => ?_⟩
  · rw [sights_snoc_some hid] at hy
    rcases List.mem_append.mp hy with hy | hy
    · exact hsources.untaken r hr y hy
    · obtain rfl : y = (h.node, fp) := by simpa using hy
      have huntaken := hsources.untaken r hr x hx
      rwa [hsame] at huntaken
  · rw [sights_snoc_some hid]
    exact (hsources.taken r hr).imp_right fun ⟨y, hy, hfp, hstart⟩ =>
      ⟨y, List.mem_append_left _ hy, hfp, hstart⟩
  · rw [sights_snoc_some hid]
    obtain ⟨y, hy, hfp⟩ := hsources.found f hf
    exact ⟨y, List.mem_append_left _ hy, hfp⟩

theorem Sources.resumed {old : Reader} {front back : List Reader}
    (hsplit : s.tracker.kept = front ++ old :: back) (hrest : s'.tracker.kept = front ++ back)
    (hmatch : fp.startsWith old.fingerprint = true)
    (hback : ∀ r ∈ back, fp.startsWith r.fingerprint = false)
    (hmet : s'.fingerprints = fp :: s.fingerprints)
    (hreaders : s'.readers = k.policy.resume old.metadata h fp path :: s.readers) :
    Sources k w (paths ++ [path]) s' := by
  rw [sights_snoc_some hid] at hunmixed
  have hsole := hunmixed.sole.sublist hsources.sublist
  rw [hsplit] at hsole
  have hsub : s'.tracker.kept.Sublist s.tracker.kept := by
    rw [hsplit, hrest]
    exact (List.sublist_cons_self _ _).append_left _
  refine ⟨fun r hr => ?_, hsub.trans hsources.sublist, fun r hr y hy => ?_, fun r hr => ?_,
    hsources.found_snoc hid hmet⟩
  · rw [hreaders] at hr
    rcases List.mem_cons.mp hr with rfl | hr
    · have hold : old ∈ k.kept := hsources.sublist.subset (by rw [hsplit]; simp)
      exact .resumed (by simpa using hid) hold (by simpa using hmatch) (by simp)
    · exact hsources.sources r hr
  · rw [sights_snoc_some hid] at hy
    rcases List.mem_append.mp hy with hy | hy
    · exact hsources.untaken r (hsub.subset hr) y hy
    · obtain rfl : y = (h.node, fp) := by simpa using hy
      rw [hrest] at hr
      rcases List.mem_append.mp hr with hr | hr
      · -- a reader before the one taken: both cannot be of the file found
        by_contra hstart
        have hother := (List.pairwise_append.mp hsole).2.2 r hr old List.mem_cons_self (h.node, fp)
          (by simp) (by simpa using hstart)
        rw [hmatch] at hother
        cases hother
      · exact hback r hr
  · rw [sights_snoc_some hid, hmet, hrest]
    rcases hsources.taken r hr with hr | ⟨y, hy, hfp, hstart⟩
    · rw [hsplit] at hr
      rcases List.mem_append.mp hr with hr | hr
      · exact .inl (List.mem_append_left _ hr)
      · rcases List.mem_cons.mp hr with rfl | hr
        · exact .inr ⟨(h.node, fp), by simp, List.mem_cons_self, hmatch⟩
        · exact .inl (List.mem_append_right _ hr)
    · exact .inr ⟨y, List.mem_append_left _ hy, List.mem_cons_of_mem _ hfp, hstart⟩

theorem Sources.added (hnew : ∀ f ∈ s.fingerprints, f.agrees fp = false)
    (hkept : s'.tracker.kept = s.tracker.kept)
    (hnone : ∀ r ∈ s.tracker.kept, fp.startsWith r.fingerprint = false)
    (hmet : s'.fingerprints = fp :: s.fingerprints)
    (hreaders : s'.readers =
      k.policy.fresh (w.tree.content h.node).length h fp path :: s.readers) :
    Sources k w (paths ++ [path]) s' := by
  rw [sights_snoc_some hid] at hunmixed
  refine ⟨fun r hr => ?_, hkept ▸ hsources.sublist, fun r hr y hy => ?_, fun r hr => ?_,
    hsources.found_snoc hid hmet⟩
  · rw [hreaders] at hr
    rcases List.mem_cons.mp hr with rfl | hr
    · refine .added (by simpa using hid) (fun old hold => ?_) (by simp)
      rw [Policy.fingerprint_fresh]
      rcases hsources.taken old hold with hold' | ⟨y, hy, hfp, hstart⟩
      · exact hnone old hold'
      · -- a file that took it before would be the same file
        by_contra hstart'
        have hsame := hunmixed.once old hold y (List.mem_append_left _ hy) (h.node, fp) (by simp) hstart
          (by simpa using hstart')
        have hdiffers := hnew y.2 hfp
        rw [hsame, Fingerprint.agrees_self (identify_some hid).2.filled] at hdiffers
        cases hdiffers
    · exact hsources.sources r hr
  · rw [sights_snoc_some hid] at hy
    rw [hkept] at hr
    rcases List.mem_append.mp hy with hy | hy
    · exact hsources.untaken r hr y hy
    · obtain rfl : y = (h.node, fp) := by simpa using hy
      exact hnone r hr
  · rw [sights_snoc_some hid, hmet, hkept]
    exact (hsources.taken r hr).imp_right fun ⟨y, hy, hfp, hstart⟩ =>
      ⟨y, List.mem_append_left _ hy, List.mem_cons_of_mem _ hfp, hstart⟩

end Step

/-- The readers of a batch go on from those that their files go on from, and what is not taken is of no
file found. -/
theorem opened_sources {k : Tracker} {paths : List Path} {w : World}
    (hunmixed : Unmixed (k.sights w.tree paths) k.kept) :
    Sources k w paths (k.opened paths w) := by
  induction paths using List.reverseRecOn with
  | nil => exact ⟨by simp [opened], List.Sublist.refl _, by simp [sights], fun r hr => .inl hr,
      by simp [opened]⟩
  | append_singleton paths path ih =>
      have hsources := ih (hunmixed.mono fun _ hx => k.sights_snoc w.tree paths path hx)
      obtain ⟨hsteady, htook⟩ := k.opened_steady paths w
      have hsame := k.opened_identify paths w path
      have hopens := k.opened_opens paths path w
      generalize k.opened (paths ++ [path]) w = s' at hopens ⊢
      cases hopens with
      | unreadable hid =>
          rw [hsame] at hid
          obtain ⟨hreaders, hsublist, huntaken, htaken, hfound⟩ := hsources
          rw [← sights_snoc_none hid] at huntaken htaken hfound
          exact ⟨hreaders, hsublist, huntaken, htaken, hfound⟩
      | copy hid hmem hagrees => exact hsources.copy (hsame ▸ hid) hunmixed hmem hagrees
      | resumed hid _ hsplit hrest hmatch hback _ _ hmet hreaders =>
          rw [hsteady.policy] at hreaders
          exact hsources.resumed (hsame ▸ hid) hunmixed hsplit hrest hmatch hback hmet hreaders
      | added hid hnew hkept hnone _ _ hmet hreaders =>
          rw [hsteady.policy, htook.tree] at hreaders
          exact hsources.added (hsame ▸ hid) hunmixed hnew hkept hnone hmet hreaders

end LogTail.Tracker
