import LogTail.Proofs.ExactlyOnce
import LogTail.Proofs.Lists

namespace LogTail

open Record Tracker Session

def Obliging (verdict : Nat → Verdict) : Prop :=
  ∀ i, verdict i = .accept ∨ verdict i = .acceptAndCancel

theorem Obliging.mild {verdict : Nat → Verdict} (h : Obliging verdict) : Mild verdict := by
  intro i hi
  rcases h i with hv | hv <;> rw [hv] at hi <;> cases hi

namespace Tracker

theorem drain_fingerprints {rs : List Reader} {w : World} (hmild : Mild w.outlet.verdict) :
    (drain rs w).1.map Reader.fingerprint = rs.map Reader.fingerprint := by
  induction rs generalizing w with
  | nil => rfl
  | cons r rs ih =>
      obtain ⟨bs, htook⟩ := drainOne_took r w
      obtain ⟨r', hr'⟩ := drainOne_mild hmild r
      rw [drain_cons, hr', Option.toList_some, List.singleton_append, List.map_cons, List.map_cons,
        fingerprint_drainOne hr', ih (by rw [htook.outlet.verdict]; exact hmild)]

theorem collect_fingerprints {k : Tracker} {paths : List Path} {w : World}
    (hmild : Mild w.outlet.verdict) : (k.collect paths w).1.previous.map Reader.fingerprint =
      (k.opened paths w).readers.reverse.map Reader.fingerprint := by
  obtain ⟨_, hopened⟩ := k.opened_steady paths w
  obtain ⟨bs, hlost⟩ := drain_took (k.opened paths w).lost (k.opened paths w).world
  rw [collect_eq]
  exact drain_fingerprints (by rw [(hopened.trans hlost).outlet.verdict]; exact hmild)

theorem mem_collect {k : Tracker} {paths : List Path} {w : World} (hmild : Mild w.outlet.verdict)
    {r : Reader} (hr : r ∈ (k.collect paths w).1.previous) :
    ∃ path ∈ paths, ∃ h, k.identify w.tree path = some (h, r.fingerprint) := by
  have hfp : r.fingerprint ∈ (k.collect paths w).1.previous.map Reader.fingerprint :=
    List.mem_map_of_mem hr
  rw [collect_fingerprints hmild] at hfp
  obtain ⟨r', hr', hsame⟩ := List.mem_map.mp hfp
  obtain ⟨path, hpath, h, hid, _⟩ := opened_reader (List.mem_reverse.mp hr')
  exact ⟨path, hpath, h, by rw [← hsame]; exact hid⟩

namespace Stage

variable {met : List (Nat × Fingerprint)} {s : Stage}

theorem read_saved {st : Store} (hst : s.tracker.store = some st) (hsaves : s.saves = true)
    (htidy : ∀ e ∈ s.tracker.gathered ++ s.entries, e.Tidy) :
    ∃ k st', s.read.1 = some k ∧ k.gathered = s.tracker.gathered ++ s.entries ∧ k.store = some st' ∧
      st'.Carries s.read.2.memory (s.tracker.gathered ++ s.entries) := by
  obtain ⟨_, hstore, hgathered⟩ := s.tracker.collect_alike s.paths s.world
  obtain ⟨bs, htook⟩ := s.tracker.collect_took s.paths s.world
  have hs : (s.tracker.collect s.paths s.world).1.trim.store = some st := by rw [← hst]; exact hstore
  have hread : s.read = (s.tracker.collect s.paths s.world).1.trim.save
    (s.tracker.collect s.paths s.world).2 := rfl
  obtain ⟨ended, st', hsave, _, hlive⟩ := save_some hs (s.tracker.collect s.paths s.world).2
  have hdone : (st.save s.world.tree s.world.memory (s.tracker.gathered ++ s.entries)).1 = .done := by
    simp only [saves, hst] at hsaves
    split at hsaves
    · assumption
    · cases hsaves
  have hsaved := Store.save_saved htidy s.world.tree s.world.memory st
  change st.save _ _ (s.tracker.collect s.paths s.world).1.gathered = _ at hsave
  rw [hgathered, htook.tree, htook.memory] at hsave
  change st.save _ _ (s.tracker.gathered ++ s.entries) = _ at hsave
  rw [hsave] at hdone hsaved
  rw [← hread] at hlive hsaved
  refine ⟨_, st', hlive (by rw [show ended = .done from hdone]; simp), hgathered, rfl, hsaved.done hdone⟩

theorem entries_iff (hrivals : NoRivals met) (hmild : Mild s.world.outlet.verdict)
    (hsights : ∀ x ∈ s.sights, x ∈ met) (n : Nat) :
    (∃ e ∈ s.entries, (n, e.fingerprint) ∈ met) ↔ ∃ fp, (n, fp) ∈ s.sights := by
  constructor
  · rintro ⟨e, he, hn⟩
    obtain ⟨r, hr, rfl⟩ := List.mem_map.mp he
    obtain ⟨path, hpath, h, hid⟩ := mem_collect hmild hr
    have hseen := mem_sights hpath hid
    obtain rfl := hrivals.same hn (hsights _ hseen)
      (Fingerprint.startsWith_refl (identify_some hid).2.filled)
    exact ⟨_, hseen⟩
  · rintro ⟨fp, hfp⟩
    obtain ⟨r, hr, hsame, _⟩ := opened_finds (hrivals.mono hsights) hfp
    have hmem : r.fingerprint ∈ (s.tracker.collect s.paths s.world).1.previous.map Reader.fingerprint := by
      rw [collect_fingerprints hmild]
      exact List.mem_map_of_mem (List.mem_reverse.mpr hr)
    obtain ⟨r', hr', hfp'⟩ := List.mem_map.mp hmem
    refine ⟨r'.metadata, List.mem_map_of_mem hr', ?_⟩
    change (n, r'.fingerprint) ∈ met
    rw [hfp', hsame]
    exact hsights _ hfp

end Stage

end Tracker

/-- An entry with the present fingerprint of its file that tells exactly what was delivered of it. -/
structure Told (met : List (Nat × Fingerprint)) (f : Policy) (w : World) (e : Metadata) (n : Nat)
    (taken : List Piece) : Prop where
  follows : Follows met f w.tree n (f.remembered e) taken
  bytes : e.fingerprint.bytes = (w.tree.content n).take f.fingerprintSize
  delivered : w.delivered met n = Reader.recordsFrom 0 taken

section Telling

variable {met : List (Nat × Fingerprint)} {f : Policy} {w w' : World} {e : Metadata} {n : Nat}
  {taken : List Piece}

theorem Told.onward (h : Told met f w e n taken) (hgrows : w.tree.Grows w'.tree)
    (hsame : w'.tree.content n = w.tree.content n)
    (haccepted : w'.outlet.accepted = w.outlet.accepted) : Told met f w' e n taken :=
  ⟨h.follows.grows hgrows, by rw [hsame]; exact h.bytes, by
    rw [← h.delivered]
    simp [World.delivered, Outlet.batches, haccepted]⟩

theorem Told.collect {k : Tracker} {files : List Metadata} {paths : List Path}
    (hrivals : NoRivals met) (hbegin : f.fromBeginning = true)
    (hexact : Exact met f (fun _ => []) k w files) (hsights : ∀ s ∈ k.sights w.tree paths, s ∈ met)
    (h : Told met f w e n (pieces f.limit (w.tree.content n))) :
    Told met f (k.collect paths w).2 e n (pieces f.limit (w.tree.content n)) := by
  have hledger := (Ledger.preserved hrivals hbegin).collect hexact.policy hsights hexact.ledger
  obtain ⟨bs, htook⟩ := k.collect_took paths w
  obtain ⟨taken', left, hsplit, hd⟩ := hledger.delivered hrivals n
  have hbefore : w.delivered met n <+: (k.collect paths w).2.delivered met n :=
    delivered_mono htook.outlet n
  refine ⟨by rw [htook.tree]; exact h.follows, by rw [htook.tree]; exact h.bytes, ?_⟩
  rw [h.delivered] at hbefore
  refine (hbefore.eq_of_length_le ?_).symm
  rw [htook.tree] at hsplit
  rw [hd, hsplit, Reader.recordsFrom_append]
  simp

theorem Exact.told {k : Tracker} {files : List Metadata} {paths : List Path} (hrivals : NoRivals met)
    (hbegin : f.fromBeginning = true) (hexact : Exact met f (fun _ => []) k w files)
    (hsights : ∀ s ∈ k.sights w.tree paths, s ∈ met) {r : Reader}
    (hr : r ∈ (k.collect paths w).1.previous) :
    ∃ n taken, Told met f (k.collect paths w).2 r.metadata n taken ∧
      (w.outlet.Calm (k.collect paths w).2.outlet → taken = pieces f.limit (w.tree.content n)) := by
  have hledger := (Ledger.preserved hrivals hbegin).collect hexact.policy hsights hexact.ledger
  obtain ⟨bs, htook⟩ := k.collect_took paths w
  obtain ⟨n, taken, hf, hd⟩ := hledger.tracked r (List.mem_append_right _ hr)
  obtain ⟨path, hpath, h, hid⟩ := mem_collect hexact.ledger.mild hr
  have hseen := hsights _ (mem_sights hpath hid)
  obtain rfl := hrivals.same hseen hf.seen (Fingerprint.startsWith_refl hf.fits.filled)
  have hsighted := (identify_some hid).2
  have htold : Told met f (k.collect paths w).2 r.metadata h.node taken := by
    refine ⟨⟨hf.seen, hf.fits, by simp, rfl, hf.ordered⟩, ?_, by rw [hd, List.nil_append]⟩
    rw [htook.tree, ← hexact.policy]
    exact hsighted.bytes
  refine ⟨h.node, taken, htold, fun hcalm => ?_⟩
  obtain ⟨h', hsight, _, _, _, hnone⟩ := collect_left hcalm hr
  have hnode : h'.node = h.node := hrivals.same (hsights _ hsight) hseen
    (Fingerprint.startsWith_refl hsighted.filled)
  rw [hnode, hexact.policy] at hnone
  have hall := hf.fits.taken_all f.limit_pos (by rw [htook.tree]; exact hnone)
  rwa [htook.tree] at hall

theorem Exact.tells {k : Tracker} {files : List Metadata} {paths : List Path} (hrivals : NoRivals met)
    (hbegin : f.fromBeginning = true) (hexact : Exact met f (fun _ => []) k w files)
    (hsights : ∀ s ∈ k.sights w.tree paths, s ∈ met)
    (h : ∀ e ∈ k.gathered, ∃ n, Told met f w e n (pieces f.limit (w.tree.content n))) :
    ∀ e ∈ (k.collect paths w).1.gathered, ∃ n taken, Told met f (k.collect paths w).2 e n taken ∧
      (w.outlet.Calm (k.collect paths w).2.outlet → taken = pieces f.limit (w.tree.content n)) := by
  rw [(k.collect_alike paths w).2.2]
  intro e he
  rcases List.mem_append.mp he with he | he
  · obtain ⟨n, htold⟩ := h e he
    exact ⟨n, _, htold.collect hrivals hbegin hexact hsights, fun _ => rfl⟩
  · obtain ⟨r, hr, rfl⟩ := List.mem_map.mp he
    exact hexact.told hrivals hbegin hsights hr

end Telling

/-- A poll that an emitter takes that accepts everything, and a store that saves everything and leaves
alone the files found. -/
structure Smooth (met : List (Nat × Fingerprint)) (s : Session) : Prop where
  accepts : Obliging s.world.outlet.verdict
  saves : ∀ stage ∈ s.stages, stage.saves = true
  apart : ∀ stage ∈ s.stages, ∀ x ∈ met,
    stage.read.2.tree.content x.1 = stage.world.tree.content x.1

structure Telling (met : List (Nat × Fingerprint)) (f : Policy) (store : Store) (k : Tracker)
    (w : World) : Prop where
  amid : Amid (Once met f fun _ => []) store (some k) w
  accepts : Obliging w.outlet.verdict
  tells : ∀ e ∈ k.gathered, ∃ n, Told met f w e n (pieces f.limit (w.tree.content n))

def StoresTold (met : List (Nat × Fingerprint)) (f : Policy) : Option Tracker → World → Prop
  | some k, w => (∃ st, k.store = some st ∧ st.Carries w.memory k.gathered) ∧
      ∀ e ∈ k.gathered, ∃ n taken, Told met f w e n taken
  | none, _ => False

section Polling

variable {met : List (Nat × Fingerprint)} {f : Policy} (hrivals : NoRivals met)
  (hbegin : f.fromBeginning = true)
include hrivals hbegin

theorem Telling.read {store : Store} {stage : Stage} (hsights : ∀ x ∈ stage.sights, x ∈ met)
    (hgrows : stage.world.tree.Grows stage.read.2.tree) (hsaves : stage.saves = true)
    (hapart : ∀ x ∈ met, stage.read.2.tree.content x.1 = stage.world.tree.content x.1)
    (h : Telling met f store stage.tracker stage.world) :
    ∃ k st, stage.read.1 = some k ∧ k.store = some st ∧
      st.Carries stage.read.2.memory k.gathered ∧
      ∀ e ∈ k.gathered, ∃ n taken, Told met f stage.read.2 e n taken ∧
        (stage.world.outlet.Calm stage.read.2.outlet →
          taken = pieces f.limit (stage.read.2.tree.content n)) := by
  obtain ⟨st, files, hst, _, _, honce⟩ := h.amid
  have hexact := honce.exact _ rfl
  have htells := hexact.tells hrivals hbegin hsights h.tells
  have htidy := (hexact.collect hrivals hbegin honce.countable hsights).tidy
  obtain ⟨bs, htook⟩ := stage.tracker.collect_took stage.paths stage.world
  have hgathered : (stage.tracker.collect stage.paths stage.world).1.gathered =
      stage.tracker.gathered ++ stage.entries :=
    (stage.tracker.collect_alike stage.paths stage.world).2.2
  change ∀ e ∈ (stage.tracker.collect stage.paths stage.world).1.gathered, e.Tidy at htidy
  rw [hgathered] at htidy htells
  obtain ⟨k, st', hread, hk, hst', hheld⟩ := Stage.read_saved hst hsaves htidy
  refine ⟨k, st', hread, hst', by rw [hk]; exact hheld, fun e he => ?_⟩
  rw [hk] at he
  obtain ⟨n, taken, htold, hcalm⟩ := htells e he
  have hsame := hapart _ htold.follows.seen
  refine ⟨n, taken, htold.onward (by rw [htook.tree]; exact hgrows) (by rw [htook.tree]; exact hsame)
    (by rw [stage.read_outlet]), fun hc => ?_⟩
  rw [hsame]
  exact hcalm (by rw [← stage.read_outlet]; exact hc)

theorem poll_storesTold {store : Store} {k : Tracker} {w : World}
    (hsights : ∀ stage ∈ k.stages w, ∀ x ∈ stage.sights, x ∈ met)
    (hlawful : ∀ stage ∈ k.stages w,
      stage.world.tree.Grows stage.read.2.tree ∧ Countable stage.read.2.tree)
    (hsaves : ∀ stage ∈ k.stages w, stage.saves = true)
    (hapart : ∀ stage ∈ k.stages w, ∀ x ∈ met,
      stage.read.2.tree.content x.1 = stage.world.tree.content x.1)
    (haccepts : Obliging w.outlet.verdict)
    (h : Amid (Once met f fun _ => []) store (some k) w) :
    StoresTold met f (k.poll w).1 (k.poll w).2 := by
  have hJ : Maintained Mild met (Once met f fun _ => []) := once_maintained hrivals hbegin
  refine (readBatches_runs (P := Telling met f store) (Q := StoresTold met f) (chunks_ne_nil _ _)
    ?_ ?_ ?_ (fun _ _ h => h) ⟨h.begun hJ, haccepts, by simp⟩).1
  · intro stage hstage k' htelling hk hlook
    obtain ⟨k₁, st, hread, _, _, htells⟩ := htelling.read hrivals hbegin (hsights stage hstage)
      (hlawful stage hstage).1 (hsaves stage hstage) (hapart stage hstage)
    obtain rfl : k₁ = k' := Option.some.inj (hread.symm.trans hk)
    obtain ⟨bs, htook⟩ := stage.tracker.readBatch_took stage.paths stage.world
    have hcalm : stage.world.outlet.Calm stage.read.2.outlet :=
      htook.calm htelling.accepts (Outlet.cancelled_of_lookJoined hlook)
    refine ⟨htelling.amid.next hJ (hsights stage hstage) (hlawful stage hstage).1
      (hlawful stage hstage).2 hk, ?_, fun e he => ?_⟩
    · have hverdict : (looked stage.read.2).outlet.verdict = stage.world.outlet.verdict :=
        (stage.read.2.outlet.took_look.verdict).trans htook.verdict
      rw [hverdict]
      exact htelling.accepts
    · obtain ⟨n, taken, htold, hall⟩ := htells e he
      rw [hall hcalm] at htold
      exact ⟨n, htold.onward (.refl _) rfl stage.read.2.outlet.took_look.accepted⟩
  · intro stage hstage htelling
    obtain ⟨k₁, st, hread, hst, hheld, htells⟩ := htelling.read hrivals hbegin (hsights stage hstage)
      (hlawful stage hstage).1 (hsaves stage hstage) (hapart stage hstage)
    rw [hread]
    refine ⟨⟨st, hst, hheld⟩, fun e he => ?_⟩
    obtain ⟨n, taken, htold, _⟩ := htells e he
    exact ⟨n, taken, htold⟩
  · rintro k w ⟨hheld, htells⟩
    refine ⟨hheld, fun e he => ?_⟩
    obtain ⟨n, taken, htold⟩ := htells e he
    exact ⟨n, taken, htold.onward (.refl _) rfl w.outlet.took_look.accepted⟩

end Polling

/-- The files of a checkpoint that tell exactly what was delivered, one fingerprint for each. -/
structure Faithful (met : List (Nat × Fingerprint)) (f : Policy) (w : World) (files : List Metadata) :
    Prop where
  exact : ∀ e ∈ files, ∃ n taken, Follows met f w.tree n (f.remembered e) taken ∧
    w.delivered met n = Reader.recordsFrom 0 taken
  same : ∀ e ∈ files, ∀ e' ∈ files, ∀ n, (n, e.fingerprint) ∈ met → (n, e'.fingerprint) ∈ met →
    e.fingerprint = e'.fingerprint

def beginnings (met : List (Nat × Fingerprint)) (w : World) (files : List Metadata) (n : Nat) :
    List Record :=
  if ∃ e ∈ files, (n, e.fingerprint) ∈ met then [] else w.delivered met n

section Restarting

variable {met : List (Nat × Fingerprint)} {f : Policy} {w w' : World} {files : List Metadata}

theorem Faithful.onward (h : Faithful met f w files) (hgrows : w.tree.Grows w'.tree)
    (haccepted : w'.outlet.accepted = w.outlet.accepted) : Faithful met f w' files := by
  refine ⟨fun e he => ?_, h.same⟩
  obtain ⟨n, taken, hf, hd⟩ := h.exact e he
  refine ⟨n, taken, hf.grows hgrows, ?_⟩
  rw [← hd]
  simp [World.delivered, Outlet.batches, haccepted]

theorem Tracker.kept_recollect {k : Tracker} (hprevious : k.previous = []) {e : Metadata}
    (h : k.knows e.fingerprint = false) : (k.recollect e).kept = k.kept ++ [k.policy.remembered e] := by
  simp [recollect, h, kept, hprevious]

theorem kept_foldl_recollect {k : Tracker} (hknown : k.known = []) (hprevious : k.previous = [])
    (hsame : ∀ e ∈ files, ∀ e' ∈ files, ∀ n, (n, e.fingerprint) ∈ met → (n, e'.fingerprint) ∈ met →
      e.fingerprint = e'.fingerprint)
    (hfilled : ∀ e ∈ files, e.fingerprint.bytes ≠ []) :
    (∀ e ∈ files, ∃ r ∈ (files.foldl recollect k).kept, r.fingerprint.startsWith e.fingerprint = true) ∧
      (files.foldl recollect k).kept.Pairwise fun a b => ∀ n, (n, a.fingerprint) ∈ met →
        (n, b.fingerprint) ∉ met := by
  induction files using List.reverseRecOn with
  | nil => exact ⟨by simp, by simp [kept, hknown, hprevious]⟩
  | append_singleton files e ih =>
      obtain ⟨hcovered, hapart⟩ := ih (fun e he e' he' => hsame e (by simp [he]) e' (by simp [he']))
        fun e he => hfilled e (by simp [he])
      obtain ⟨_, hprevious'⟩ := k.foldl_recollect_steady files
      have hmem (r) := @mem_foldl_recollect k files r
      rw [hprevious] at hprevious'
      rw [List.foldl_concat]
      generalize files.foldl recollect k = k' at *
      by_cases hknows : k'.knows e.fingerprint = true
      · rw [recollect, if_pos hknows]
        refine ⟨fun e' he' => ?_, hapart⟩
        rcases List.mem_append.mp he' with he' | he'
        · exact hcovered e' he'
        · obtain rfl : e' = e := by simpa using he'
          obtain ⟨r, hr, hstart⟩ := List.any_eq_true.mp hknows
          exact ⟨r, by simpa [kept, or_comm] using hr, hstart⟩
      · rw [kept_recollect hprevious' (by simpa using hknows)]
        refine ⟨fun e' he' => ?_, List.pairwise_append.mpr ⟨hapart, by simp, fun a ha b hb n hna hnb => ?_⟩⟩
        · rcases List.mem_append.mp he' with he' | he'
          · obtain ⟨r, hr, hstart⟩ := hcovered e' he'
            exact ⟨r, List.mem_append_left _ hr, hstart⟩
          · obtain rfl : e' = e := by simpa using he'
            exact ⟨k'.policy.remembered e', by simp,
              Fingerprint.startsWith_refl (hfilled e' (by simp))⟩
        · obtain rfl : b = k'.policy.remembered e := by simpa using hb
          refine hknows (List.any_eq_true.mpr ⟨a, by simpa [kept, or_comm] using ha, ?_⟩)
          obtain ⟨e', he', rfl⟩ := (hmem a ha).resolve_left (by simp [kept, hknown, hprevious])
          change e'.fingerprint.startsWith e.fingerprint = true
          rw [hsame e' (by simp [he']) e (by simp) n hna hnb]
          exact Fingerprint.startsWith_refl (hfilled e (by simp))

theorem Faithful.restarted {k : Tracker} (h : Faithful met f w files) (hrivals : NoRivals met)
    (hbegin : f.fromBeginning = true) (hmild : Mild w.outlet.verdict) (hpolicy : k.policy = f)
    (hknown : k.known = []) (hprevious : k.previous = []) (hgathered : k.gathered = [])
    (hroom : (filesOf met).length ≤ k.settings.capacity) :
    Exact met f (beginnings met w files) (k.resume files) w files := by
  have hfilled (e : Metadata) (he : e ∈ files) : e.fingerprint.bytes ≠ [] := by
    obtain ⟨n, taken, hf, _⟩ := h.exact e he
    exact hf.fits.filled
  obtain ⟨hcovered, hapart⟩ := kept_foldl_recollect hknown hprevious h.same hfilled
  have hmem (r) (hr : r ∈ (files.foldl recollect k).kept) : ∃ e ∈ files, r = f.remembered e := by
    rw [← hpolicy]
    exact (mem_foldl_recollect hr).resolve_left (by simp [kept, hknown, hprevious])
  have hledger : Ledger met f (beginnings met w files) w (files.foldl recollect k).kept := by
    refine ⟨hmild, fun r hr => ?_, hapart, fun n hn => ?_⟩
    · obtain ⟨e, he, rfl⟩ := hmem r hr
      obtain ⟨n, taken, hf, hd⟩ := h.exact e he
      refine ⟨n, taken, hf, ?_⟩
      rw [beginnings, if_pos ⟨e, he, hf.seen⟩, hd, List.nil_append]
    · rw [beginnings, if_neg]
      rintro ⟨e, he, hseen⟩
      obtain ⟨r, hr, hstart⟩ := hcovered e he
      obtain ⟨e', he', rfl⟩ := hmem r hr
      obtain ⟨m, _, hf, _⟩ := h.exact e' he'
      exact hn _ hr (hrivals.same hseen hf.seen hstart ▸ hf.seen)
  obtain ⟨hsteady, _⟩ := k.foldl_recollect_steady files
  rw [resume_of_le (by rw [hpolicy]; exact hbegin) (Nat.le_trans hledger.length_le hroom)]
  refine ⟨hsteady.policy.trans hpolicy, by rw [hsteady.settings]; exact hroom, hledger, ?_, hmild, ?_⟩
  · rw [hsteady.gathered, hgathered]
    simp
  · rw [hsteady.gathered, hgathered, List.nil_append]
    exact List.forall_mem_map.mpr hcovered

end Restarting

section Sessions

variable {met : List (Nat × Fingerprint)} {f : Policy} {s : Session}

structure Rests (met : List (Nat × Fingerprint)) (f : Policy) (files : List Metadata) (s : Session) :
    Prop where
  held : s.store.Carries s.world.memory files
  faithful : Faithful met f s.world files

theorem Faithful.of_told {w : World} {files : List Metadata} (hrivals : NoRivals met)
    (h : ∀ e ∈ files, ∃ n taken, Told met f w e n taken) : Faithful met f w files := by
  refine ⟨fun e he => ?_, fun e he e' he' n hn hn' => ?_⟩
  · obtain ⟨n, taken, htold⟩ := h e he
    exact ⟨n, taken, htold.follows, htold.delivered⟩
  · have hbytes {e : Metadata} (he : e ∈ files) (hn : (n, e.fingerprint) ∈ met) :
        e.fingerprint.bytes = (w.tree.content n).take f.fingerprintSize := by
      obtain ⟨m, taken, htold⟩ := h e he
      rw [hrivals.same hn htold.follows.seen (Fingerprint.startsWith_refl htold.follows.fits.filled)]
      exact htold.bytes
    have hsame := (hbytes he hn).trans (hbytes he' hn').symm
    cases he : e.fingerprint
    cases he' : e'.fingerprint
    rw [he, he'] at hsame
    exact congrArg _ hsame

theorem Session.Keeps.rests {k : Tracker} (hrivals : NoRivals met) (hbegin : f.fromBeginning = true)
    (hphase : s.consumer.phase = .running k) (hlawful : s.Lawful Mild .poll)
    (hmet : ∀ x ∈ (s.step .poll).met, x ∈ met) (hsmooth : Smooth met s)
    (h : Keeps (Once met f fun _ => []) s) :
    Rests met f (s.stages.flatMap Stage.entries) (s.step .poll) := by
  have hstages := stages_running hphase
  obtain ⟨⟨files, hholds, hfiles⟩, hstore⟩ := h
  have hk : Once met f (fun _ => []) (some k) s.world files := by
    simpa [tracker?, hphase] using hfiles
  have hstores := poll_storesTold hrivals hbegin (fun stage hstage x hx => hmet x
    (mem_step_met (by rwa [hstages]) hx)) (by rw [← hstages]; exact hlawful)
    (by rw [← hstages]; exact hsmooth.saves) (by rw [← hstages]; exact hsmooth.apart) hsmooth.accepts
    ⟨s.store, files, hstore hphase, id, hholds, hk⟩
  have hgathered {k' : Tracker} (hk' : (k.poll s.world).1 = some k') :
      k'.gathered = s.stages.flatMap Stage.entries := by
    rw [hstages]
    exact gathered_readBatches (chunks_ne_nil _ _) hk'
  cases hpoll : k.poll s.world with
  | mk o w' =>
      rw [hpoll] at hstores hgathered
      cases o with
      | none => exact hstores.elim
      | some k' =>
          obtain ⟨⟨st, hst, hheld⟩, htells⟩ := hstores
          rw [hgathered rfl] at hheld htells
          have hfaith := Faithful.of_told hrivals htells
          simp only [step, Consumer.poll, hphase, hpoll, storeOf, hst]
          exact ⟨hheld, hfaith⟩

theorem Rests.step {files : List Metadata} {a : Act} (h : Rests met f files s)
    (hlawful : s.Lawful Mild a) (hlives : a.goesOn = true) (ha : a ≠ .poll) :
    Rests met f files (s.step a) := by
  obtain ⟨hheld, hfaith⟩ := h
  cases a with
  | poll => exact absurd rfl ha
  | rebuild | die => cases hlives
  | change tree => exact ⟨hheld, hfaith.onward hlawful.1 rfl⟩
  | emitter | memory => exact ⟨hheld, hfaith.onward (.refl _) rfl⟩
  | start =>
      obtain ⟨htree, hmemory, hout⟩ := s.start_world
      have haccepted : (s.step .start).world.outlet.accepted = s.world.outlet.accepted := by
        rcases hout with hout | hout
        · rw [hout]
        · rw [hout]
          rfl
      refine ⟨?_, hfaith.onward (by rw [htree]; exact .refl _) haccepted⟩
      change s.store.Carries (s.step .start).world.memory files
      rw [hmemory]
      exact hheld
  | stop =>
      cases hphase : s.consumer.phase with
      | stopped k | running k | lost | crashed =>
          simp only [Session.step, Consumer.stop, hphase]
          exact ⟨hheld, hfaith.onward (.refl _) rfl⟩

theorem Rests.run {files : List Metadata} {acts : List Act} (h : Rests met f files s)
    (hlawful : s.Allows (Lawful Mild) acts) (hlives : ∀ a ∈ acts, a.goesOn = true)
    (hquiet : .poll ∉ acts) : Rests met f files (s.run acts) := by
  induction acts generalizing s with
  | nil => exact h
  | cons a acts ih =>
      exact ih (h.step hlawful.1 (hlives a (by simp)) fun ha => hquiet (by simp [ha])) hlawful.2
        (fun b hb => hlives b (by simp [hb])) fun hb => hquiet (by simp [hb])

theorem Rests.holds {files : List Metadata} (h : Rests met f files s) (hcount : Countable s.world.tree) :
    Holds s.store s.world.memory files := by
  refine .inr ⟨h.held, fun e he => ?_⟩
  obtain ⟨n, taken, hf, _⟩ := h.faithful.exact e he
  exact hf.tidy hcount

theorem Rests.restarted {c : Config} {files : List Metadata} (h : Rests met c.policy files s)
    (hbuilt : Consumer.ofConfig c = .ok s.origin) (hrivals : NoRivals met)
    (hbegin : c.policy.fromBeginning = true) (hmild : Mild s.world.outlet.verdict)
    (hcount : Countable s.world.tree) (hroom : (filesOf met).length ≤ c.capacity) {k : Tracker}
    (hstarted : (s.run [.rebuild, .start]).consumer.phase = .running k) :
    Keeps (Once met c.policy (beginnings met s.world files)) (s.run [.rebuild, .start]) := by
  obtain ⟨_, selector, horigin⟩ := Consumer.ofConfig_ok hbuilt
  have hphase : s.origin.phase = .stopped (.ofParts selector c.policy c.settings) := by
    rw [horigin]
    rfl
  have hJ : Maintained Mild met (Once met c.policy (beginnings met s.world files)) :=
    once_maintained hrivals hbegin
  change (((s.step .rebuild).step .start).consumer.phase = .running k) at hstarted
  change Keeps _ ((s.step .rebuild).step .start)
  rcases start_cases s.origin s.store s.world with
    ⟨e, w', hstart, _⟩ | ⟨k₁, files', format, w', hphase', hload, hstart, htree, hmemory, hout⟩
  · simp only [Session.step, hstart, hphase] at hstarted
    cases hstarted
  · obtain rfl := load_holds (h.holds hcount) hload
    rw [hphase] at hphase'
    cases hphase'
    have hexact := h.faithful.restarted (k := .ofParts selector c.policy c.settings) hrivals hbegin
      hmild rfl rfl rfl rfl hroom
    have honce := hJ.stored (some s.store) (hexact.once hrivals hcount)
    simp only [Session.step, hstart]
    refine ⟨⟨files', ?_, hJ.still honce htree (by rw [hout]; rfl) (by rw [hout]; rfl)⟩, ?_⟩
    · rw [hmemory]
      exact h.holds hcount
    · rintro k' hk'
      cases hk'
      rfl

theorem named_iff {k : Tracker} (hrivals : NoRivals met) (hphase : s.consumer.phase = .running k)
    (hmild : Mild s.world.outlet.verdict) (hmet : ∀ x ∈ (s.step .poll).met, x ∈ met) (n : Nat) :
    (∃ e ∈ s.stages.flatMap Stage.entries, (n, e.fingerprint) ∈ met) ↔
      ∃ fp, (n, fp) ∈ s.stages.flatMap Stage.sights := by
  have hstage {stage : Stage} (hstage : stage ∈ s.stages) :
      (∃ e ∈ stage.entries, (n, e.fingerprint) ∈ met) ↔ ∃ fp, (n, fp) ∈ stage.sights := by
    refine stage.entries_iff hrivals ?_ (fun x hx => hmet x (mem_step_met hstage hx)) n
    rw [stages_running hphase] at hstage
    obtain ⟨⟨bs, htook⟩, _⟩ := (poll_took k s.world).2 stage hstage
    rw [htook.verdict]
    exact hmild
  simp only [List.mem_flatMap]
  constructor
  · rintro ⟨e, ⟨stage, hmem, he⟩, hn⟩
    obtain ⟨fp, hfp⟩ := (hstage hmem).mp ⟨e, he, hn⟩
    exact ⟨fp, stage, hmem, hfp⟩
  · rintro ⟨fp, stage, hmem, hfp⟩
    obtain ⟨e, he, hn⟩ := (hstage hmem).mpr ⟨fp, hfp⟩
    exact ⟨e, ⟨stage, hmem, he⟩, hn⟩

end Sessions

/-- Whether a record is accepted again. After a smooth poll the process is stopped, or just left, and
another consumer of the same configuration is started over its checkpoint. What is accepted of a file
from then on has no record that was accepted before just if that last poll, which may have been
cancelled or at its limit, came to the file, unless there is nothing that could be repeated. -/
theorem repeats_iff {c : Config} {s stopped e : Session} {before mid more : List Act}
    (hfresh : s.Fresh c) (hbegin : c.startAt = .beginning)
    (hlawful : s.Allows (Lawful Mild) (before ++ .poll :: mid ++ ([.rebuild, .start] ++ more)))
    (hlives : ∀ a ∈ before ++ .poll :: mid ++ more, a.goesOn = true) (hmid : .poll ∉ mid)
    (hstopped : s.run (before ++ .poll :: mid) = stopped)
    (hend : (stopped.run [.rebuild, .start]).run more = e)
    (hpolling : (s.run before).polling = true) (hsmooth : Smooth e.met (s.run before))
    (hstarted : (stopped.run [.rebuild, .start]).polling = true)
    (hrivals : NoRivals e.met) (hroom : (filesOf e.met).length ≤ c.capacity) (n : Nat) :
    ∃ again, e.world.delivered e.met n = stopped.world.delivered e.met n ++ again ∧
      ((stopped.world.delivered e.met n).Disjoint again ↔
        (∃ fp, (n, fp) ∈ (s.run before).stages.flatMap Stage.sights) ∨
          stopped.world.delivered e.met n = [] ∨ again = []) := by
  have hpolicy := Policy.fromBeginning_config hbegin
  have hJ : Maintained Mild e.met (Once e.met c.policy fun _ => []) := once_maintained hrivals hpolicy
  obtain ⟨k, hphase⟩ := polling_iff.mp hpolling
  obtain ⟨k', hstarted⟩ := polling_iff.mp hstarted
  obtain ⟨hfirst, hrest⟩ := allows_append.mp hlawful
  rw [hstopped] at hrest
  obtain ⟨hrenewed, hmore⟩ := allows_append.mp hrest
  have hgoes {a : Act} (ha : a ∈ before ++ .poll :: mid) (h : a.goesOn = false) : False := by
    rw [hlives a (List.mem_append_left _ ha)] at h
    cases h
  have hpolled : ((s.run before).step .poll).run mid = stopped := by
    rw [← hstopped, run_append]
    rfl
  have hmet : ∀ x ∈ stopped.met, x ∈ e.met := fun x hx => by
    rw [← hend]
    exact ((stopped.run_met _).trans (run_met _ more)).subset hx
  have hmet' : ∀ x ∈ ((s.run before).step .poll).met, x ∈ e.met := fun x hx =>
    hmet x (by rw [← hpolled]; exact (((s.run before).step .poll).run_met mid).subset hx)
  -- up to the stop everything is delivered exactly once
  have hstop : Keeps (Once e.met c.policy fun _ => []) stopped := by
    rw [← hstopped]
    exact run_keeps hJ hfirst (fun a ha h => (hgoes ha h).elim) (by rw [hstopped]; exact hmet)
      (hfresh.once hrivals hroom)
  obtain ⟨_, _, honce⟩ := hstop.holds
  obtain ⟨hbefore, hpoll, hquiet⟩ := allows_append.mp hfirst
  have hkept := run_keeps hJ hbefore (fun a ha h => (hgoes (by simp [ha]) h).elim)
    (fun x hx => hmet' x (((s.run before).step_met .poll).subset hx)) (hfresh.once hrivals hroom)
  have hnamed := named_iff hrivals hphase hsmooth.accepts.mild hmet' n
  -- the checkpoint tells how far that was for the files it names
  have hrests := (hkept.rests hrivals hpolicy hphase hpoll hmet' hsmooth).run hquiet
    (fun a ha => hlives a (by simp [ha])) hmid
  rw [hpolled] at hrests
  generalize (s.run before).stages.flatMap Stage.entries = files at *
  have hstart := hrests.restarted (by rw [← hstopped, run_origin]; exact hfresh.built) hrivals hpolicy
    honce.mild honce.countable hroom hstarted
  -- behind it each of those goes on, and every other file begins anew
  have hJ' : Maintained Mild e.met (Once e.met c.policy (beginnings e.met stopped.world files)) :=
    once_maintained hrivals hpolicy
  have hgone := run_keeps hJ' hmore (fun a ha h => by simp [hlives a (by simp [ha])] at h)
    (by rw [hend]; exact fun _ h => h) hstart
  have hgrows := (run_grows hrenewed).trans (run_grows hmore)
  obtain ⟨again, hagain⟩ := (run_delivered e.met stopped [.rebuild, .start] n).trans
    (run_delivered e.met _ more n)
  rw [hend] at hgone hgrows hagain
  obtain ⟨_, _, hall⟩ := hgone.holds
  obtain ⟨taken, left, hsplit, hd⟩ := hall.delivered n
  have hprefix : Reader.recordsFrom 0 taken <+: Reader.framed c.policy.limit (e.world.tree.content n) := by
    rw [Reader.framed, hsplit, Reader.recordsFrom_append]
    exact List.prefix_append _ _
  refine ⟨again, hagain.symm, ?_⟩
  rw [← hnamed]
  by_cases hname : ∃ m ∈ files, (n, m.fingerprint) ∈ e.met
  · rw [beginnings, if_pos hname, List.nil_append] at hd
    have hnodup : (stopped.world.delivered e.met n ++ again).Nodup := by
      rw [hagain, hd]
      exact hprefix.sublist.nodup (Reader.framed_nodup c.policy.limit_pos _)
    exact ⟨fun _ => .inl hname, fun _ => List.disjoint_of_nodup_append hnodup⟩
  · rw [beginnings, if_neg hname, ← hagain, List.append_cancel_left_eq] at hd
    rw [← hd] at hprefix
    have hfirst := (honce.delivered_prefix n).trans
      (Reader.framed_prefix c.policy.limit_pos (hgrows n))
    rw [disjoint_prefixes hfirst hprefix]
    exact (or_iff_right hname).symm

/-- A stop in the middle of a poll, behind the first of its two batches: the checkpoint does not name the
log of the second batch, which is delivered again. -/
theorem repeats_iff_stopped :
    let s := ofConsumer logFollower (ofFiles [("a.log", true, [97, 10]), ("b.log", true, [98, 10])])
    let before : List Act :=
      [.start, .poll, .change (ofFiles [("a.log", true, [97, 10, 97, 97, 10]), ("b.log", true, [98, 10])]),
        .emitter (fun _ => .acceptAndCancel) []]
    let more : List Act := [.emitter (fun _ => .accept) [], .poll]
    let stopped := s.run (before ++ .poll :: [.stop])
    let e := (stopped.run [.rebuild, .start]).run more
    s.Fresh followLogs ∧
      s.Allows (Lawful Mild) (before ++ .poll :: [.stop] ++ ([.rebuild, .start] ++ more)) ∧
      Smooth e.met (s.run before) ∧ NoRivals e.met ∧ (filesOf e.met).length ≤ followLogs.capacity ∧
      ∃ again, e.world.delivered e.met 4 = stopped.world.delivered e.met 4 ++ again ∧
        ¬ (stopped.world.delivered e.met 4).Disjoint again := by
  intro s before more stopped e
  have hmemory : s.InMemory := inMemory_ofConsumer ofConfig_followLogs _
  have hcount : Countable s.world.tree := countable_of_nodes (by decide)
  have hfresh : s.Fresh followLogs := fresh_ofConsumer ofConfig_followLogs hcount
  have hlawful : s.Allows (Lawful Mild) (before ++ .poll :: [.stop] ++ ([.rebuild, .start] ++ more)) :=
    hmemory.allows hcount
      ⟨FileTree.grows_of_nodes (by decide), countable_of_nodes (by decide), by simp [Mild],
        by simp [Mild], trivial⟩
  have hlives : ∀ a ∈ before ++ .poll :: [.stop] ++ more, a.goesOn = true := by decide
  have hrun : (s.run before).polling = true ∧ (stopped.run [.rebuild, .start]).polling = true ∧
      NoRivals e.met ∧ (filesOf e.met).length ≤ followLogs.capacity := by decide +kernel
  obtain ⟨hpolling, hstarted, hrivals, hroom⟩ := hrun
  have hsmooth : Smooth e.met (s.run before) :=
    ⟨fun _ => .inr rfl, by decide +kernel, by decide +kernel⟩
  refine ⟨hfresh, hlawful, hsmooth, hrivals, hroom, ?_⟩
  obtain ⟨again, hagain, hiff⟩ := repeats_iff hfresh rfl hlawful hlives (by simp) rfl rfl hpolling hsmooth
    hstarted hrivals hroom 4
  refine ⟨again, hagain, fun hdisjoint => ?_⟩
  have hdelivered : stopped.world.delivered e.met 4 = [⟨"b", 0, 2⟩] ∧
      e.world.delivered e.met 4 = [⟨"b", 0, 2⟩, ⟨"b", 0, 2⟩] ∧
      ∀ x ∈ (s.run before).stages.flatMap Stage.sights, x.1 ≠ 4 := by decide +kernel
  obtain ⟨hbefore, hafter, hunseen⟩ := hdelivered
  rw [hbefore, hafter] at hagain
  rcases hiff.mp hdisjoint with ⟨fp, hfp⟩ | hnil | hnil
  · exact hunseen _ hfp rfl
  · rw [hbefore] at hnil
    cases hnil
  · rw [hnil] at hagain
    cases hagain

end LogTail
