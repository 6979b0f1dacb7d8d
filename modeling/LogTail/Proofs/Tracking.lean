import LogTail.Proofs.Sessions

namespace LogTail

open Record Tracker Session Json

namespace Policy

def limit (f : Policy) : Nat := max f.maxLogSize 1

theorem limit_pos (f : Policy) : 0 < f.limit := Nat.le_max_right _ _

theorem limit_config {c : Config} (h : c.Valid) : c.policy.limit = c.maxLogSize :=
  Nat.max_eq_left h.lines

theorem fromBeginning_config {c : Config} (h : c.startAt = .beginning) : c.policy.fromBeginning = true := by
  simp [Config.policy, h]

theorem ordered_build (f : Policy) (p : Path) (h : Option Handle) {m : Metadata}
    (hm : Ordered m.attributes) : Ordered (f.build p h m).metadata.attributes := by
  have hname : Ordered (f.withName p m).attributes := by
    unfold withName
    split
    · split
      · exact ordered_insertMember hm _ _
      · exact hm
    · exact hm
  unfold build withPath
  split
  · exact ordered_insertMember hname _ _
  · exact hname

end Policy

namespace Tracker

theorem closeReaders_kept (k : Tracker) : k.closeReaders.kept = k.kept.map Reader.close := by
  simp [kept, closeReaders]

theorem foldl_recollect_steady (k : Tracker) (files : List Metadata) :
    k.Steady (files.foldl recollect k) ∧ (files.foldl recollect k).previous = k.previous := by
  induction files generalizing k with
  | nil => exact ⟨.refl k, rfl⟩
  | cons e files ih =>
      obtain ⟨hsteady, hprevious⟩ := ih (k.recollect e)
      have hone : k.Steady (k.recollect e) ∧ (k.recollect e).previous = k.previous := by
        unfold recollect
        split
        · exact ⟨.refl k, rfl⟩
        · exact ⟨⟨rfl, rfl, rfl, rfl, rfl⟩, rfl⟩
      exact ⟨hone.1.trans hsteady, hprevious.trans hone.2⟩

theorem resume_steady {k : Tracker} (hbegin : k.policy.fromBeginning = true) (files : List Metadata) :
    k.Steady (k.resume files) := by
  unfold resume
  split
  · exact .refl k
  · rw [readFromBeginning_self hbegin]
    exact (k.foldl_recollect_steady files).1.trans ⟨rfl, rfl, rfl, rfl, rfl⟩

theorem resume_of_le {k : Tracker} {files : List Metadata} (hbegin : k.policy.fromBeginning = true)
    (hroom : (files.foldl recollect k).kept.length ≤ k.settings.capacity) :
    k.resume files = files.foldl recollect k := by
  unfold resume
  split
  · next hempty => rw [List.isEmpty_iff.mp hempty, List.foldl_nil]
  · rw [readFromBeginning_self hbegin, trim_of_le]
    rw [(k.foldl_recollect_steady files).1.settings]
    exact hroom

theorem mem_foldl_recollect {k : Tracker} {files : List Metadata} {r : Reader}
    (h : r ∈ (files.foldl recollect k).kept) :
    r ∈ k.kept ∨ ∃ e ∈ files, r = k.policy.remembered e := by
  induction files generalizing k with
  | nil => exact .inl h
  | cons e files ih =>
      rcases ih h with h | ⟨e', he', hr⟩
      · unfold recollect at h
        split at h
        · exact .inl h
        · simp only [kept, List.mem_append, List.mem_singleton] at h ⊢
          rcases h with (h | h) | h
          · exact .inl (.inl h)
          · exact .inr ⟨e, by simp, h⟩
          · exact .inl (.inr h)
      · refine .inr ⟨e', by simp [he'], hr.trans ?_⟩
        unfold recollect
        split <;> rfl

theorem mem_resume {k : Tracker} {files : List Metadata} {r : Reader}
    (h : r ∈ (k.resume files).kept) : r ∈ k.kept ∨ ∃ e ∈ files, r = k.policy.remembered e := by
  unfold resume at h
  split at h
  · exact .inl h
  · exact mem_foldl_recollect (k := k.readFromBeginning) (mem_trim h)

end Tracker

/-- A reader follows a file if its fingerprint was taken of it and it stands behind some of its
pieces. -/
structure Follows (met : List (Nat × Fingerprint)) (f : Policy) (t : FileTree) (n : Nat) (r : Reader)
    (taken : List Piece) : Prop where
  seen : (n, r.fingerprint) ∈ met
  fits : Fits f.fingerprintSize f.limit (t.content n) r.metadata taken
  handle : ∀ h, r.handle = some h → h.node = n
  limit : r.maxLogSize = f.limit
  ordered : Ordered r.metadata.attributes

namespace Follows

variable {met : List (Nat × Fingerprint)} {f : Policy} {t t' : FileTree} {w : World} {n : Nat}
  {r : Reader} {taken : List Piece}

theorem grows (hf : Follows met f t n r taken) (h : t.Grows t') : Follows met f t' n r taken :=
  { hf with fits := hf.fits.grows f.limit_pos (h n) }

theorem close (hf : Follows met f t n r taken) : Follows met f t n r.close taken :=
  { hf with handle := by simp [Reader.close] }

theorem tidy (hf : Follows met f t n r taken) (hcount : Countable t) : r.metadata.Tidy :=
  ⟨hf.ordered, Nat.lt_of_le_of_lt (hf.fits.offset_le f.limit_pos) (hcount n)⟩

theorem resume (hrivals : NoRivals met) (hf : Follows met f t n r taken) {h : Handle}
    {fp : Fingerprint} (hseen : (h.node, fp) ∈ met) (hsighted : Sighted f.fingerprintSize t h fp)
    (hmatch : fp.startsWith r.fingerprint = true) (path : Path) :
    n = h.node ∧ Follows met f t n (f.resume r.metadata h fp path) taken := by
  obtain rfl : n = h.node := hrivals.same hf.seen hseen hmatch
  have hfits : Fits f.fingerprintSize f.limit (t.content h.node)
      (f.resume r.metadata h fp path).metadata taken := by
    refine ⟨?_, ?_, hf.fits.split, ?_⟩
    · change (f.resume r.metadata h fp path).fingerprint.bytes ≠ []
      rw [Policy.fingerprint_resume]
      exact hsighted.filled
    · change (f.resume r.metadata h fp path).fingerprint.bytes <+: _
      rw [Policy.fingerprint_resume, hsighted.bytes]
    · change (f.resume r.metadata h fp path).offset = _
      rw [Policy.offset_resume]
      exact hf.fits.offset
  exact ⟨rfl, by simpa using hseen, hfits, by simp, rfl, f.ordered_build _ _ hf.ordered⟩

theorem fresh (hbegin : f.fromBeginning = true) {h : Handle} {fp : Fingerprint}
    (hseen : (h.node, fp) ∈ met) (hsighted : Sighted f.fingerprintSize t h fp) (length : Nat)
    (path : Path) : Follows met f t h.node (f.fresh length h fp path) [] := by
  have hfits : Fits f.fingerprintSize f.limit (t.content h.node) (f.fresh length h fp path).metadata
      [] := by
    refine ⟨?_, ?_, ⟨_, rfl⟩, ?_⟩
    · change (f.fresh length h fp path).fingerprint.bytes ≠ []
      rw [Policy.fingerprint_fresh]
      exact hsighted.filled
    · change (f.fresh length h fp path).fingerprint.bytes <+: _
      rw [Policy.fingerprint_fresh, hsighted.bytes]
    · change (f.fresh length h fp path).offset = _
      rw [Policy.offset_fresh, hbegin]
      rfl
  exact ⟨by simpa using hseen, hfits, by simp, rfl, f.ordered_build _ _ List.Pairwise.nil⟩

theorem drainOne (hrivals : NoRivals met) (hf : Follows met f w.tree n r taken) :
    ∃ bs, w.Took (drainOne r w).2 bs ∧
      (∀ m, m ≠ n → (drainOne r w).2.delivered met m = w.delivered met m) ∧
      ∀ r', (Tracker.drainOne r w).1 = some r' → r'.fingerprint = r.fingerprint ∧
        ∃ next, Follows met f w.tree n r' (taken ++ next) ∧
          (drainOne r w).2.delivered met n =
            w.delivered met n ++ Reader.recordsFrom (extent taken) next := by
  cases hh : r.handle with
  | none =>
      rw [drainOne_closed hh]
      refine ⟨[], .refl w, fun _ _ => rfl, fun r' hr' => ?_⟩
      obtain rfl : r = r' := by simpa using hr'
      exact ⟨rfl, [], by simpa using hf, by simp⟩
  | some h =>
      obtain rfl := hf.handle h hh
      obtain ⟨bs, htook, hstamped, hread⟩ :=
        drainOne_fits f.limit_pos hh hf.limit hf.fits (Tracker.drainOne r w).2 rfl
      refine ⟨bs, htook, fun m hm => ?_, fun r' hr' => ?_⟩
      · rw [delivered_stamped htook.outlet hstamped, if_neg, List.append_nil]
        exact fun hseen => hm (hrivals.same hseen hf.seen
          (Fingerprint.startsWith_refl hf.fits.filled))
      · obtain ⟨hmoved, next, hfits, hrecords⟩ := hread r' hr'
        rw [hmoved] at hfits ⊢
        refine ⟨rfl, next, ⟨hf.seen, hfits, hf.handle, hf.limit, hf.ordered⟩, ?_⟩
        rw [delivered_stamped htook.outlet hstamped, if_pos hf.seen, hrecords]

end Follows

theorem collect_left {k : Tracker} {paths : List Path} {w : World} {r : Reader}
    (hcalm : w.outlet.Calm (k.collect paths w).2.outlet) (hr : r ∈ (k.collect paths w).1.previous) :
    ∃ h, (h.node, r.fingerprint) ∈ k.sights w.tree paths ∧ r.handle = some h ∧
      r.maxLogSize = k.policy.limit ∧ r.offset ≤ (w.tree.content h.node).length ∧
      pieces k.policy.limit ((w.tree.content h.node).drop r.offset) = [] := by
  rw [(collect_calm hcalm).1] at hr
  obtain ⟨r', hr', rfl⟩ := List.mem_map.mp hr
  obtain ⟨path, hpath, h, hid, hh, hlimit⟩ := opened_reader (List.mem_reverse.mp hr')
  have hpos : 0 < r'.maxLogSize := by
    rw [hlimit]
    exact k.policy.limit_pos
  obtain ⟨hle, hnone⟩ := Reader.pieces_settle w.tree hh hpos
  rw [show r'.maxLogSize = k.policy.limit from hlimit] at hnone
  refine ⟨h, ?_, ?_, ?_, hle, hnone⟩
  · rw [Reader.fingerprint_settle]
    exact mem_sights hpath hid
  · rw [Reader.handle_settle, hh]
  · rw [Reader.maxLogSize_settle, hlimit]
    rfl

theorem collect_finds {k : Tracker} {paths : List Path} {w : World} {n : Nat} {fp : Fingerprint}
    (hcalm : w.outlet.Calm (k.collect paths w).2.outlet) (hrivals : NoRivals (k.sights w.tree paths))
    (hx : (n, fp) ∈ k.sights w.tree paths) :
    ∃ r ∈ (k.collect paths w).1.previous, r.fingerprint = fp ∧
      pieces k.policy.limit ((w.tree.content n).drop r.offset) = [] := by
  obtain ⟨r, hr, hfp, h, hh, hnode⟩ := opened_finds hrivals hx
  have hleft : r.settle w.tree ∈ (k.collect paths w).1.previous := by
    rw [(collect_calm hcalm).1]
    exact List.mem_map_of_mem (List.mem_reverse.mpr hr)
  obtain ⟨h', _, hh', _, _, hnone⟩ := collect_left hcalm hleft
  obtain rfl : h = h' := by simpa [hh] using hh'
  rw [hnode] at hnone
  exact ⟨_, hleft, by rw [Reader.fingerprint_settle, hfp], hnone⟩

/-- An emitter that may refuse and cancel but does not die. -/
def Mild (verdict : Nat → Verdict) : Prop := ∀ i, verdict i ≠ .acceptAndCrash

theorem drainOne_mild {w : World} (hmild : Mild w.outlet.verdict) (r : Reader) :
    ∃ r', (drainOne r w).1 = some r' := by
  cases hh : r.handle with
  | none => exact ⟨r, by rw [drainOne_closed hh]⟩
  | some h =>
      obtain ⟨ended, r', _, _, _, hd, _, hres⟩ := drainOne_open hh w
      have hended : ended ≠ .crashed := by
        intro hc
        obtain ⟨i, hi⟩ := hd.crashed hc
        exact hmild i hi
      exact ⟨r', by rw [hres, if_neg hended]⟩

/-- The readers kept are those of different files, and each stands where the records delivered of its
file end. `base` is what was delivered before the ledger began. -/
structure Ledger (met : List (Nat × Fingerprint)) (f : Policy) (base : Nat → List Record) (w : World)
    (rs : List Reader) : Prop where
  mild : Mild w.outlet.verdict
  tracked : ∀ r ∈ rs, ∃ n taken, Follows met f w.tree n r taken ∧
    w.delivered met n = base n ++ Reader.recordsFrom 0 taken
  apart : rs.Pairwise fun a b => ∀ n, (n, a.fingerprint) ∈ met → (n, b.fingerprint) ∉ met
  opening : ∀ n, (∀ r ∈ rs, (n, r.fingerprint) ∉ met) → w.delivered met n = base n

namespace Ledger

variable {met : List (Nat × Fingerprint)} {f : Policy} {base : Nat → List Record} {w w' : World}
  {r : Reader} {rs rs' : List Reader}

theorem perm (h : Ledger met f base w rs) (hp : rs.Perm rs') : Ledger met f base w rs' where
  mild := h.mild
  tracked r hr := h.tracked r (hp.mem_iff.mpr hr)
  apart := h.apart.perm hp fun hab n hb ha => hab n ha hb
  opening n hn := h.opening n fun r hr => hn r (hp.mem_iff.mp hr)

theorem onward (h : Ledger met f base w rs) (hgrows : w.tree.Grows w'.tree)
    (hmild : Mild w'.outlet.verdict) (haccepted : w'.outlet.accepted = w.outlet.accepted) :
    Ledger met f base w' rs := by
  have hsame (n : Nat) : w'.delivered met n = w.delivered met n := by
    simp [World.delivered, Outlet.batches, haccepted]
  refine ⟨hmild, fun r hr => ?_, h.apart, fun n hn => by rw [hsame, h.opening n hn]⟩
  obtain ⟨n, taken, hf, hd⟩ := h.tracked r hr
  exact ⟨n, taken, hf.grows hgrows, by rw [hsame, hd]⟩

theorem replace {r' : Reader} (h : Ledger met f base w (r :: rs)) {n : Nat} {taken : List Record.Piece}
    (hf : Follows met f w.tree n r' taken)
    (hd : w.delivered met n = base n ++ Reader.recordsFrom 0 taken)
    (hsame : ∀ m, (m, r'.fingerprint) ∈ met ↔ (m, r.fingerprint) ∈ met) :
    Ledger met f base w (r' :: rs) := by
  obtain ⟨hr, hrs⟩ := List.pairwise_cons.mp h.apart
  refine ⟨h.mild, ?_, .cons (fun b hb m hm => hr b hb m ((hsame m).mp hm)) hrs, fun m hm => ?_⟩
  · intro s hs
    rcases List.mem_cons.mp hs with rfl | hs
    · exact ⟨n, taken, hf, hd⟩
    · exact h.tracked s (List.mem_cons_of_mem _ hs)
  · obtain ⟨hm, hrest⟩ := List.forall_mem_cons.mp hm
    exact h.opening m (List.forall_mem_cons.mpr ⟨fun hc => hm ((hsame m).mpr hc), hrest⟩)

theorem preserved (hrivals : NoRivals met) (hbegin : f.fromBeginning = true) :
    Preserved f met (Ledger met f base) where
  perm := perm
  stays h hl := hl.onward (by rw [h.tree]; exact .refl _) (by rw [h.outlet.verdict]; exact hl.mild)
    (by simpa using h.outlet.accepted)
  resumed {w old rs h fp} path hl hseen hsighted hmatch := by
    obtain ⟨n, taken, hf, hd⟩ := hl.tracked old (by simp)
    obtain ⟨rfl, hf'⟩ := hf.resume hrivals hseen hsighted hmatch path
    refine hl.replace hf' hd fun m => ?_
    rw [Policy.fingerprint_resume]
    constructor
    · intro hm
      rw [hrivals.same hm hseen (Fingerprint.startsWith_refl hsighted.filled)]
      exact hf.seen
    · intro hm
      rw [hrivals.same hm hseen hmatch]
      exact hseen
  added {w rs h fp} path hl hseen hsighted hnone := by
    -- no reader follows this file, or the new fingerprint would go on from its own
    have hfree : ∀ r ∈ rs, (h.node, r.fingerprint) ∉ met := by
      intro r hr hmem
      obtain ⟨n, taken, hf, _⟩ := hl.tracked r hr
      obtain rfl : h.node = n := hrivals.same hmem hf.seen (Fingerprint.startsWith_refl hf.fits.filled)
      have hstart : fp.startsWith r.fingerprint = true :=
        Fingerprint.startsWith_iff.mpr ⟨hf.fits.filled, by rw [hsighted.bytes]; exact hf.fits.start⟩
      rw [hnone r hr] at hstart
      cases hstart
    have hown {m : Nat} (hm : (m, fp) ∈ met) : m = h.node :=
      hrivals.same hm hseen (Fingerprint.startsWith_refl hsighted.filled)
    refine ⟨hl.mild, ?_, .cons ?_ hl.apart, fun n hn => ?_⟩
    · refine List.forall_mem_cons.mpr ⟨⟨h.node, [], Follows.fresh hbegin hseen hsighted _ path, ?_⟩,
        hl.tracked⟩
      simpa using hl.opening h.node hfree
    · intro b hb m hm
      rw [Policy.fingerprint_fresh] at hm
      rw [hown hm]
      exact hfree b hb
    · exact hl.opening n (List.forall_mem_cons.mp hn).2
  drained {w r rs} hl := by
    obtain ⟨n, taken, hf, hd⟩ := hl.tracked r (by simp)
    obtain ⟨r', hr'⟩ := drainOne_mild hl.mild r
    obtain ⟨bs, htook, hother, hlive⟩ := hf.drainOne hrivals
    obtain ⟨hfp, next, hf', hd'⟩ := hlive r' hr'
    obtain ⟨hfirst, hrest⟩ := List.pairwise_cons.mp hl.apart
    rw [hr']
    refine ⟨by rw [htook.outlet.verdict]; exact hl.mild, ?_, ?_, ?_⟩
    · refine List.forall_mem_cons.mpr ⟨⟨n, taken ++ next, by rw [htook.tree]; exact hf', ?_⟩, ?_⟩
      · rw [hd', hd, Reader.recordsFrom_append, List.append_assoc, Nat.zero_add]
      · intro s hs
        obtain ⟨m, taken', hm, hdm⟩ := hl.tracked s (List.mem_cons_of_mem _ hs)
        have hne : m ≠ n := fun he => hfirst s hs n hf.seen (he ▸ hm.seen)
        exact ⟨m, taken', by rw [htook.tree]; exact hm, by rw [hother m hne, hdm]⟩
    · exact .cons (fun b hb m hm => hfirst b hb m (hfp ▸ hm)) hrest
    · intro m hm
      obtain ⟨hmr, hmrs⟩ : _ ∧ ∀ s ∈ rs, (m, s.fingerprint) ∉ met := List.forall_mem_cons.mp hm
      rw [hfp] at hmr
      have hne : m ≠ n := fun he => hmr (he ▸ hf.seen)
      rw [hother m hne]
      exact hl.opening m (List.forall_mem_cons.mpr ⟨hmr, hmrs⟩)
  closed {w r rs} hl := by
    obtain ⟨n, taken, hf, hd⟩ := hl.tracked r (by simp)
    exact hl.replace hf.close hd fun m => Iff.rfl

end Ledger

/-- Every fingerprint of some was taken up by a reader. -/
structure Covers (fps : List Fingerprint) (w : World) (rs : List Reader) : Prop where
  mild : Mild w.outlet.verdict
  covered : ∀ fp ∈ fps, ∃ r ∈ rs, r.fingerprint.startsWith fp = true

theorem Covers.replace {fps : List Fingerprint} {w w' : World} {r r' : Reader} {rs : List Reader}
    (h : Covers fps w (r :: rs)) (hmild : Mild w'.outlet.verdict)
    (hfp : ∀ fp, r.fingerprint.startsWith fp = true → r'.fingerprint.startsWith fp = true) :
    Covers fps w' (r' :: rs) := by
  refine ⟨hmild, fun fp hmem => ?_⟩
  obtain ⟨s, hs, hstart⟩ := h.covered fp hmem
  rcases List.mem_cons.mp hs with rfl | hs
  · exact ⟨r', by simp, hfp fp hstart⟩
  · exact ⟨s, List.mem_cons_of_mem _ hs, hstart⟩

theorem Covers.preserved (met : List (Nat × Fingerprint)) (f : Policy) (fps : List Fingerprint) :
    Preserved f met (Covers fps) where
  perm h hp := ⟨h.mild, fun fp hmem => by
    obtain ⟨r, hr, hstart⟩ := h.covered fp hmem
    exact ⟨r, hp.mem_iff.mp hr, hstart⟩⟩
  stays h hc := ⟨by rw [h.outlet.verdict]; exact hc.mild, hc.covered⟩
  resumed path h _ _ hmatch := h.replace h.mild fun fp hstart => by
    rw [Policy.fingerprint_resume]
    exact Fingerprint.startsWith_trans hmatch hstart
  added path h _ _ _ := ⟨h.mild, fun fp hmem => by
    obtain ⟨r, hr, hstart⟩ := h.covered fp hmem
    exact ⟨r, List.mem_cons_of_mem _ hr, hstart⟩⟩
  drained {w r rs} h := by
    obtain ⟨bs, htook⟩ := drainOne_took r w
    obtain ⟨r', hr'⟩ := drainOne_mild h.mild r
    have hfp := fingerprint_drainOne hr'
    rw [hr']
    exact h.replace (by rw [htook.outlet.verdict]; exact h.mild) fun fp hstart => hfp ▸ hstart
  closed h := h.replace h.mild fun _ hstart => hstart

/-- Readers of a batch go on from themselves, so that behind it their own entries are taken up too. -/
theorem Covers.collect {k : Tracker} {paths : List Path} {w : World} {files : List Metadata}
    {met : List (Nat × Fingerprint)} (h : Covers ((k.gathered ++ files).map Metadata.fingerprint) w k.kept)
    (hsights : ∀ s ∈ k.sights w.tree paths, s ∈ met)
    (hfilled : ∀ r ∈ (k.collect paths w).1.kept, r.fingerprint.bytes ≠ []) :
    Covers (((k.collect paths w).1.gathered ++ files).map Metadata.fingerprint) (k.collect paths w).2
      (k.collect paths w).1.kept := by
  have hcovers := (Covers.preserved met k.policy _).collect rfl hsights h
  refine ⟨hcovers.mild, fun fp hfp => ?_⟩
  obtain ⟨e, he, rfl⟩ := List.mem_map.mp hfp
  rw [(k.collect_alike paths w).2.2] at he
  simp only [List.append_assoc, List.mem_append] at he
  rcases he with he | he | he
  · exact hcovers.covered _ (List.mem_map_of_mem (by simp [he]))
  · obtain ⟨r, hr, rfl⟩ := List.mem_map.mp he
    have hr' : r ∈ (k.collect paths w).1.kept := List.mem_append_right _ hr
    exact ⟨r, hr', Fingerprint.startsWith_refl (hfilled r hr')⟩
  · exact hcovers.covered _ (List.mem_map_of_mem (by simp [he]))

end LogTail
