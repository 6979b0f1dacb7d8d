import Mathlib.Data.List.Dedup
import Mathlib.Data.List.Infix
import Mathlib.Data.List.Perm.Subperm
import LogTail.Proofs.InMemory
import LogTail.Proofs.Tracking

namespace LogTail

open Record Tracker Session

namespace Tracker

theorem resume_known {k : Tracker} {files : List Metadata} (hbegin : k.policy.fromBeginning = true)
    (hroom : k.kept.length ≤ k.settings.capacity)
    (hknown : ∀ e ∈ files, ∃ r ∈ k.kept, r.fingerprint.startsWith e.fingerprint = true) :
    k.resume files = k := by
  have hfold : files.foldl recollect k = k := by
    induction files with
    | nil => rfl
    | cons e files ih =>
        obtain ⟨r, hr, hstart⟩ := hknown e (by simp)
        have hk : k.recollect e = k := by
          rw [recollect, if_pos]
          refine List.any_eq_true.mpr ⟨r, ?_, hstart⟩
          simpa [kept, or_comm] using hr
        rw [List.foldl_cons, hk]
        exact ih fun e he => hknown e (by simp [he])
  rw [resume_of_le hbegin (by rw [hfold]; exact hroom), hfold]

end Tracker

def filesOf (met : List (Nat × Fingerprint)) : List Nat := (met.map Prod.fst).dedup

theorem readers_length_le {met : List (Nat × Fingerprint)} {rs : List Reader}
    (hseen : ∀ r ∈ rs, ∃ n, (n, r.fingerprint) ∈ met)
    (hapart : rs.Pairwise fun a b => ∀ n, (n, a.fingerprint) ∈ met → (n, b.fingerprint) ∉ met) :
    rs.length ≤ (filesOf met).length := by
  suffices hns : ∃ ns : List Nat, ns.length = rs.length ∧ ns.Nodup ∧
      ∀ n ∈ ns, ∃ r ∈ rs, (n, r.fingerprint) ∈ met by
    obtain ⟨ns, hlen, hnodup, hmem⟩ := hns
    rw [← hlen]
    refine (List.subperm_of_subset hnodup fun n hn => ?_).length_le
    obtain ⟨r, _, hr⟩ := hmem n hn
    exact List.mem_dedup.mpr (List.mem_map.mpr ⟨_, hr, rfl⟩)
  induction rs with
  | nil => exact ⟨[], rfl, .nil, by simp⟩
  | cons r rs ih =>
      obtain ⟨hr, hrs⟩ := List.pairwise_cons.mp hapart
      obtain ⟨ns, hlen, hnodup, hmem⟩ := ih (fun s hs => hseen s (List.mem_cons_of_mem _ hs)) hrs
      obtain ⟨n, hn⟩ := hseen r (by simp)
      refine ⟨n :: ns, by simp [hlen], .cons (fun hin => ?_) hnodup, ?_⟩
      · obtain ⟨s, hs, hsn⟩ := hmem n hin
        exact hr s hs n hn hsn
      · refine List.forall_mem_cons.mpr ⟨⟨r, by simp, hn⟩, fun m hm => ?_⟩
        obtain ⟨s, hs, hsm⟩ := hmem m hm
        exact ⟨s, List.mem_cons_of_mem _ hs, hsm⟩

namespace Ledger

variable {met : List (Nat × Fingerprint)} {f : Policy} {base : Nat → List Record} {w : World}
  {rs : List Reader}

theorem length_le (h : Ledger met f base w rs) : rs.length ≤ (filesOf met).length := by
  refine readers_length_le (fun r hr => ?_) h.apart
  obtain ⟨n, _, hf, _⟩ := h.tracked r hr
  exact ⟨n, hf.seen⟩

theorem delivered (hrivals : NoRivals met) (h : Ledger met f base w rs) (n : Nat) :
    ∃ taken left, pieces f.limit (w.tree.content n) = taken ++ left ∧
      w.delivered met n = base n ++ Reader.recordsFrom 0 taken := by
  by_cases hr : ∃ r ∈ rs, (n, r.fingerprint) ∈ met
  · obtain ⟨r, hmem, hn⟩ := hr
    obtain ⟨m, taken, hf, hd⟩ := h.tracked r hmem
    obtain rfl := hrivals.same hn hf.seen (Fingerprint.startsWith_refl hf.fits.filled)
    obtain ⟨left, hleft⟩ := hf.fits.split
    exact ⟨taken, left, hleft, hd⟩
  · exact ⟨[], _, rfl, by
      rw [h.opening n fun r hmem hc => hr ⟨r, hmem, hc⟩]
      simp⟩

end Ledger

structure Exact (met : List (Nat × Fingerprint)) (f : Policy) (base : Nat → List Record)
    (k : Tracker) (w : World) (files : List Metadata) : Prop where
  policy : k.policy = f
  room : (filesOf met).length ≤ k.settings.capacity
  ledger : Ledger met f base w k.kept
  tidy : ∀ e ∈ k.gathered, e.Tidy
  covered : Covers ((k.gathered ++ files).map Metadata.fingerprint) w k.kept

/-- What is maintained of a session that delivers exactly once. -/
structure Once (met : List (Nat × Fingerprint)) (f : Policy) (base : Nat → List Record)
    (k : Option Tracker) (w : World) (files : List Metadata) : Prop where
  countable : Countable w.tree
  mild : Mild w.outlet.verdict
  delivered : ∀ n, ∃ taken left, pieces f.limit (w.tree.content n) = taken ++ left ∧
    w.delivered met n = base n ++ Reader.recordsFrom 0 taken
  exact : ∀ k', k = some k' → Exact met f base k' w files

section Maintained

variable {met : List (Nat × Fingerprint)} {f : Policy} {base : Nat → List Record}
  (hrivals : NoRivals met) (hbegin : f.fromBeginning = true)
include hrivals

theorem Exact.once {k : Tracker} {w : World} {files : List Metadata}
    (h : Exact met f base k w files) (hcount : Countable w.tree) :
    Once met f base (some k) w files :=
  ⟨hcount, h.ledger.mild, h.ledger.delivered hrivals, fun _ hk => Option.some.inj hk ▸ h⟩

include hbegin

theorem Exact.collect {k : Tracker} {w : World} {files : List Metadata}
    (h : Exact met f base k w files) (hcount : Countable w.tree) {paths : List Path}
    (hsights : ∀ s ∈ k.sights w.tree paths, s ∈ met) :
    Exact met f base (k.collect paths w).1.trim (k.collect paths w).2 files := by
  have hledger := (Ledger.preserved hrivals hbegin).collect h.policy hsights h.ledger
  have hcovers := h.covered.collect hsights fun r hr => by
    obtain ⟨n, taken, hf, _⟩ := hledger.tracked r hr
    exact hf.fits.filled
  obtain ⟨halike, _, hgathered⟩ := k.collect_alike paths w
  obtain ⟨bs, htook⟩ := k.collect_took paths w
  rw [← htook.tree] at hcount
  generalize k.collect paths w = c at *
  have hroom : (filesOf met).length ≤ c.1.settings.capacity := by
    rw [halike.settings]; exact h.room
  rw [trim_of_le (Nat.le_trans hledger.length_le hroom)]
  refine ⟨halike.policy.trans h.policy, hroom, hledger, fun e he => ?_, hcovers⟩
  rw [hgathered] at he
  rcases List.mem_append.mp he with he | he
  · exact h.tidy e he
  · obtain ⟨r, hr, rfl⟩ := List.mem_map.mp he
    obtain ⟨n, taken, hf, _⟩ := hledger.tracked r (List.mem_append_right _ hr)
    exact hf.tidy hcount

theorem once_maintained : Maintained Mild met (Once met f base) where
  onward {k w w' files} h hgrows hcount hmild haccepted := by
    have hsame (n : Nat) : w'.delivered met n = w.delivered met n := by
      simp [World.delivered, Outlet.batches, haccepted]
    refine ⟨hcount, hmild, fun n => ?_, fun k' hk => ?_⟩
    · obtain ⟨taken, left, hsplit, hd⟩ := h.delivered n
      obtain ⟨more, hmore⟩ := pieces_prefix f.limit_pos (hgrows n)
      exact ⟨taken, left ++ more, by rw [← hmore, hsplit, List.append_assoc], by rw [hsame, hd]⟩
    · have hk' := h.exact k' hk
      exact { hk' with
        ledger := hk'.ledger.onward hgrows hmild haccepted
        covered := ⟨hmild, hk'.covered.covered⟩ }
  kind h := h.mild
  countable h := h.countable
  tidy h := (h.exact _ rfl).tidy
  begun h := by
    have hk := h.exact _ rfl
    refine Exact.once hrivals { hk with tidy := by simp, covered := ⟨h.mild, ?_⟩ } h.countable
    intro fp hfp
    exact hk.covered.covered fp (by simp at hfp ⊢; exact .inr hfp)
  collected {k w files} paths h hsights := by
    obtain ⟨bs, htook⟩ := k.collect_took paths w
    exact ((h.exact _ rfl).collect hrivals hbegin h.countable hsights).once hrivals
      (by rw [htook.tree]; exact h.countable)
  saved h := by
    have hk := h.exact _ rfl
    refine Exact.once hrivals { hk with covered := ⟨h.mild, ?_⟩ } h.countable
    intro fp hfp
    exact hk.covered.covered fp (by simp at hfp ⊢; exact .inl hfp)
  beginning h := by
    rw [readFromBeginning_self (by rw [(h.exact _ rfl).policy]; exact hbegin)]
    exact h
  closed {k w files} h := by
    have hk := h.exact _ rfl
    have hledger : Ledger met f base w (k.kept.map Reader.close ++ []) :=
      (Ledger.preserved hrivals hbegin).close (by rw [List.append_nil]; exact hk.ledger)
    have hcovers : Covers ((k.gathered ++ files).map Metadata.fingerprint) w
        (k.kept.map Reader.close ++ []) :=
      (Covers.preserved met f _).close (by rw [List.append_nil]; exact hk.covered)
    rw [List.append_nil, ← closeReaders_kept] at hledger hcovers
    exact Exact.once hrivals ⟨hk.policy, hk.room, hledger, hk.tidy, hcovers⟩ h.countable
  resumed {k w files} h := by
    have hk := h.exact _ rfl
    rw [resume_known (by rw [hk.policy]; exact hbegin) (Nat.le_trans hk.ledger.length_le hk.room)
      fun e he => hk.covered.covered _ (List.mem_map_of_mem (by simp [he]))]
    exact h
  stored store h := by
    have hk := h.exact _ rfl
    exact Exact.once hrivals ⟨hk.policy, hk.room, hk.ledger, hk.tidy, hk.covered⟩ h.countable
  lost h := ⟨h.countable, h.mild, h.delivered, by simp⟩

theorem Exact.reads {k : Tracker} {w : World} {files : List Metadata} (h : Exact met f base k w files)
    {paths : List Path} (hsights : ∀ s ∈ k.sights w.tree paths, s ∈ met)
    (hcalm : w.outlet.Calm (k.collect paths w).2.outlet) {path : Path} {handle : Handle}
    {fp : Fingerprint} (hpath : path ∈ paths) (hid : k.identify w.tree path = some (handle, fp)) :
    (k.collect paths w).2.delivered met handle.node =
      base handle.node ++ Reader.framed f.limit (w.tree.content handle.node) := by
  have hsight := mem_sights hpath hid
  obtain ⟨r, hr, hfp, hnone⟩ := collect_finds hcalm (hrivals.mono hsights) hsight
  obtain ⟨bs, htook⟩ := k.collect_took paths w
  have hledger := (Ledger.preserved hrivals hbegin).collect h.policy hsights h.ledger
  obtain ⟨n, taken, hf, hd⟩ := hledger.tracked r (List.mem_append_right _ hr)
  obtain rfl := hrivals.same (hsights _ (hfp ▸ hsight)) hf.seen
    (Fingerprint.startsWith_refl hf.fits.filled)
  rw [h.policy] at hnone
  rw [hd, hf.fits.taken_all f.limit_pos (by rw [htook.tree]; exact hnone), htook.tree]
  rfl

end Maintained

theorem Session.Fresh.once {c : Config} {s : Session} (h : s.Fresh c) {met : List (Nat × Fingerprint)}
    (hrivals : NoRivals met) (hroom : (filesOf met).length ≤ c.capacity) :
    Keeps (Once met c.policy fun _ => []) s := by
  refine h.keeps fun selector => Exact.once hrivals ⟨rfl, hroom, ?_, ?_, ?_⟩ h.countable
  · have hnone (n : Nat) : s.world.delivered met n = [] := by
      simp [World.delivered, h.outlet, Outlet.willing, Outlet.batches]
    exact ⟨by simp [h.outlet, Outlet.willing, Mild], by simp [kept, ofParts],
      by simp [kept, ofParts], fun n _ => hnone n⟩
  · simp [ofParts]
  · exact ⟨by simp [h.outlet, Outlet.willing, Mild], by simp [ofParts]⟩

/-- What was delivered in a session that was just begun are the first records of a file. -/
theorem Once.delivered_prefix {met : List (Nat × Fingerprint)} {f : Policy} {k : Option Tracker}
    {w : World} {files : List Metadata} (h : Once met f (fun _ => []) k w files) (n : Nat) :
    w.delivered met n <+: Reader.framed f.limit (w.tree.content n) := by
  obtain ⟨taken, left, hsplit, hd⟩ := h.delivered n
  rw [hd, List.nil_append, Reader.framed, hsplit, Reader.recordsFrom_append]
  exact List.prefix_append _ _

theorem Exact.stage {met : List (Nat × Fingerprint)} {f : Policy} {base : Nat → List Record}
    {k : Tracker} {w : World} {files : List Metadata} {paths : List Path} (hrivals : NoRivals met)
    (hbegin : f.fromBeginning = true) (hsize : 0 < f.fingerprintSize) (h : Exact met f base k w files)
    (hsights : ∀ s ∈ k.sights w.tree paths, s ∈ met)
    (hcalm : w.outlet.Calm (k.collect paths w).2.outlet) {path : Path} {handle : Handle}
    (hpath : path ∈ paths) (hopen : w.tree.openFile path = .ok handle) :
    base handle.node ++ Reader.framed f.limit (w.tree.content handle.node) <+:
      (k.collect paths w).2.delivered met handle.node := by
  cases hid : k.identify w.tree path with
  | none =>
      obtain ⟨taken, left, hsplit, hd⟩ := h.ledger.delivered hrivals handle.node
      obtain ⟨bs, htook⟩ := k.collect_took paths w
      have hempty := content_of_identify_none hid hopen (by rw [h.policy]; exact hsize)
      refine List.IsPrefix.trans ?_ (delivered_mono htook.outlet _)
      rw [hd, hempty, Reader.framed_nil, List.append_nil]
      exact List.prefix_append _ _
  | some id =>
      obtain ⟨handle', fp⟩ := id
      obtain ⟨hopen', _⟩ := identify_some hid
      obtain rfl : handle' = handle := by simpa [hopen] using hopen'.symm
      rw [h.reads hrivals hbegin hsights hcalm hpath hid]

theorem Session.Undisturbed.delivers_exactly {met : List (Nat × Fingerprint)} {f : Policy} {s : Session} {k : Tracker}
    (hrivals : NoRivals met) (hbegin : f.fromBeginning = true) (hsize : 0 < f.fingerprintSize)
    (hpoll : s.Undisturbed k) (hlawful : s.Lawful Mild .poll) (hmet : ∀ x ∈ (s.step .poll).met, x ∈ met)
    (h : Keeps (Once met f fun _ => []) s) {path : Path} (hpath : path ∈ k.matched s.world.tree) :
    ∃ stage ∈ s.stages, path ∈ stage.paths ∧ ∀ handle, stage.world.tree.openFile path = .ok handle →
      (s.step .poll).world.tree.content handle.node = stage.world.tree.content handle.node →
      (s.step .poll).world.delivered met handle.node =
        Reader.framed f.limit ((s.step .poll).world.tree.content handle.node) := by
  have hJ : Maintained Mild met (Once met f fun _ => []) := once_maintained hrivals hbegin
  obtain ⟨_, _, hend⟩ := (step_keeps hJ (fun hends => by cases hends) hlawful hmet h).holds
  obtain ⟨stage, hstage, hreads⟩ := hpoll.reads hJ hlawful hmet h hpath
  refine ⟨stage, hstage, hreads.path, fun handle hopen hcontent => ?_⟩
  obtain ⟨files, honce⟩ := hreads.holds
  obtain ⟨bs, htook⟩ := hreads.took
  have hall := ((honce.exact _ rfl).stage hrivals hbegin hsize hreads.sights hreads.calm hreads.path hopen).trans
    (delivered_mono htook handle.node)
  rw [List.nil_append, ← hcontent] at hall
  exact (hend.delivered_prefix handle.node).eq_of_length_le hall.length_le

/-- Exactly once: however files grow, the emitter refuses, polls are cancelled and saves fail, what is
delivered of a file are the first of its records, in their order and each once. Behind a poll that is
not disturbed they are all records of every file that it finds. -/
theorem delivers_exactly_once {c : Config} {s : Session} {acts : List Act} (hfresh : s.Fresh c)
    (hbegin : c.startAt = .beginning) (hlawful : s.Allows (Lawful Mild) acts)
    (hlives : ∀ a ∈ acts, a.goesOn = true) (hrivals : NoRivals (s.run acts).met)
    (hroom : (filesOf (s.run acts).met).length ≤ c.capacity) :
    (∀ n, (s.run acts).world.delivered (s.run acts).met n <+:
      Reader.framed c.maxLogSize ((s.run acts).world.tree.content n)) ∧
    ∀ before k, acts = before ++ [.poll] → (s.run before).Undisturbed k →
      ∀ path ∈ k.matched (s.run before).world.tree, ∃ stage ∈ (s.run before).stages,
        path ∈ stage.paths ∧ ∀ h, stage.world.tree.openFile path = .ok h →
          (s.run acts).world.tree.content h.node = stage.world.tree.content h.node →
          (s.run acts).world.delivered (s.run acts).met h.node =
            Reader.framed c.maxLogSize ((s.run acts).world.tree.content h.node) := by
  have hvalid := (Consumer.ofConfig_ok hfresh.built).1
  have hlimit := Policy.limit_config hvalid
  have hpolicy := Policy.fromBeginning_config hbegin
  have hJ : Maintained Mild (s.run acts).met (Once (s.run acts).met c.policy fun _ => []) :=
    once_maintained hrivals hpolicy
  have hinit := hfresh.once hrivals hroom
  obtain ⟨files, _, hend⟩ :=
    (run_keeps hJ hlawful (fun a ha h => by simp [hlives a ha] at h) (fun _ h => h) hinit).holds
  refine ⟨fun n => hlimit ▸ hend.delivered_prefix n, ?_⟩
  rintro before k rfl hpoll path hpath
  rw [allows_append] at hlawful
  have hmet (x) (hx : x ∈ ((s.run before).step .poll).met) : x ∈ (s.run (before ++ [.poll])).met := by
    rwa [run_snoc]
  have hkeeps := run_keeps hJ hlawful.1 (fun a ha h => by simp [hlives a (by simp [ha])] at h)
    (fun x hx => hmet x (((s.run before).step_met .poll).subset hx)) hinit
  have hall := hpoll.delivers_exactly hrivals hpolicy hvalid.fingerprintSize_pos hlawful.2.1 hmet hkeeps hpath
  rwa [← run_snoc, hlimit] at hall

theorem delivers_exactly_once_renamed :
    let s := ofConsumer logFollower (ofFiles [("a.log", true, [97, 10])])
    let before : List Act :=
      [.emitter (fun _ => .refuse) [], .start, .poll,
        .change (ofFiles [("b.log", true, [97, 10, 97, 97, 10])]),
        .emitter (fun _ => .accept) [false, true], .poll, .stop, .start, .poll,
        .change (ofFiles [("b.log", false, [97, 10, 97, 97, 10]), ("c.log", true, [99, 10])]),
        .emitter (fun _ => .accept) []]
    let acts := before ++ [.poll]
    s.Fresh followLogs ∧ s.Allows (Lawful Mild) acts ∧ (∀ a ∈ acts, a.goesOn = true) ∧
      NoRivals (s.run acts).met ∧ (filesOf (s.run acts).met).length ≤ followLogs.capacity ∧
      (s.run before).polled = some [⟨"c.log"⟩] ∧
      (s.run acts).world.delivered (s.run acts).met 3 <+: [⟨"a", 0, 2⟩, ⟨"aa", 2, 3⟩] ∧
      (s.run acts).world.delivered (s.run acts).met 4 = [⟨"c", 0, 2⟩] := by
  intro s before acts
  have hmemory : s.InMemory := inMemory_ofConsumer ofConfig_followLogs _
  have hcount : Countable s.world.tree := countable_of_nodes (by decide)
  have hfresh : s.Fresh followLogs := fresh_ofConsumer ofConfig_followLogs hcount
  have hlawful : s.Allows (Lawful Mild) acts := hmemory.allows hcount
    ⟨by simp [Mild], FileTree.grows_of_nodes (by decide), countable_of_nodes (by decide),
      by simp [Mild], FileTree.grows_of_nodes (by decide), countable_of_nodes (by decide),
      by simp [Mild], trivial⟩
  have hrun : NoRivals (s.run acts).met ∧ (filesOf (s.run acts).met).length ≤ followLogs.capacity ∧
      (s.run before).polled = some [⟨"c.log"⟩] := by decide +kernel
  obtain ⟨hrivals, hroom, hpolled⟩ := hrun
  have htree : (s.run acts).world.tree = (s.run before).world.tree := by
    rw [show s.run acts = _ from s.run_snoc before .poll]
    exact (hmemory.run before).tree_step .poll (by simp)
  have hlives : ∀ a ∈ acts, a.goesOn = true := by decide
  obtain ⟨hfirst, hall⟩ := delivers_exactly_once hfresh rfl hlawful hlives hrivals hroom
  obtain ⟨k, hpoll, hmatched⟩ := undisturbed_of_polled hpolled fun _ => rfl
  obtain ⟨stage, hstage, _, hread⟩ := hall before k rfl hpoll ⟨"c.log"⟩ (by simp [hmatched])
  have hstaged := ((hmemory.run before).aside hstage).2
  rw [htree, hstaged] at hread
  have hprefix := hfirst 3
  rw [htree] at hprefix
  have hwhole := hread ⟨4, some 1⟩ (by decide +kernel) rfl
  exact ⟨hfresh, hlawful, hlives, hrivals, hroom, hpolled, hprefix, hwhole⟩

end LogTail
