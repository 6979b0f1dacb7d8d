import LogTail.Proofs.Emissions
import LogTail.Proofs.Tracking
import LogTail.Proofs.Unchanged

namespace LogTail.Tracker

open Record

def departed (found : List (Nat × Fingerprint)) (r : Reader) : Bool :=
  !found.any fun x => x.2.startsWith r.fingerprint

theorem departed_iff {found : List (Nat × Fingerprint)} {r : Reader} :
    departed found r = true ↔ ∀ x ∈ found, x.2.startsWith r.fingerprint = false := by
  simp [departed]

structure Grown (met : List (Nat × Fingerprint)) (t : FileTree) (size : Nat) (r : Reader) (h : Handle) :
    Prop where
  handle : r.handle = some h
  seen : (h.node, r.fingerprint) ∈ met
  filled : r.fingerprint.bytes ≠ []
  start : r.fingerprint.bytes <+: (t.content h.node).take size

theorem Grown.mono {met met' : List (Nat × Fingerprint)} {t : FileTree} {size : Nat} {r : Reader}
    {h : Handle} (hr : Grown met t size r h) (hsub : ∀ x ∈ met, x ∈ met') : Grown met' t size r h :=
  { hr with seen := hsub _ hr.seen }

theorem lost_eq_departed {k : Tracker} {paths : List Path} {w : World} {met : List (Nat × Fingerprint)}
    (hrivals : NoRivals met) (hsights : ∀ x ∈ k.sights w.tree paths, x ∈ met)
    (hgrown : ∀ r ∈ k.previous, ∃ h, Grown met w.tree k.policy.fingerprintSize r h) :
    (k.opened paths w).lost = k.previous.filter (departed (k.sights w.tree paths)) := by
  rw [← opened_passes fun x hx r _ hr => departed_iff.mp hr x hx]
  refine List.filter_congr fun r hr => ?_
  obtain ⟨h, hh, hseen, hfilled, hstart⟩ := hgrown r ((k.opened_previous paths w).subset hr)
  refine congrArg not (Bool.eq_iff_iff.mpr ?_)
  rw [List.any_eq_true, List.any_eq_true]
  constructor
  · rintro ⟨r', hr', hcontinues⟩
    obtain ⟨path, hpath, h', hid, hh', _⟩ := opened_reader (List.mem_reverse.mp hr')
    refine ⟨_, mem_sights hpath hid, ?_⟩
    rcases Bool.or_eq_true_iff.mp hcontinues with hstarts | hsame
    · exact hstarts
    · -- the file at the old path is still the same one, which has grown
      have hnode : h.node = h'.node := by
        have hfile := (Bool.and_eq_true_iff.mp hsame).2
        simpa [Reader.sameFile, hh, hh'] using hfile
      rw [Fingerprint.startsWith_iff]
      refine ⟨hfilled, ?_⟩
      rw [(identify_some hid).2.bytes, ← hnode]
      exact hstart
  · rintro ⟨x, hx, hstarts⟩
    obtain ⟨r', hr', hfp, _⟩ := opened_finds (hrivals.mono hsights) hx
    refine ⟨r', List.mem_reverse.mpr hr', Bool.or_eq_true_iff.mpr (.inl ?_)⟩
    rwa [hfp]

section Polls

variable {k k₁ : Tracker} {w w₁ w' : World}
  (hone : (k.matched w.tree).length ≤ max k.settings.batchFiles 1) (hpoll : k.poll w = (some k₁, w₁))
  (hcalm : w.outlet.Calm w₁.outlet)
include hone hpoll hcalm

theorem poll_quiet (hmatched : k₁.matched w'.tree = k.matched w.tree)
    (hstill : w.tree.Still (k.matched w.tree) w'.tree)
    (hcalm' : w'.outlet.Calm (k₁.poll w').2.outlet) :
    (k₁.poll w').2.outlet.accepted = w'.outlet.accepted := by
  obtain ⟨hsettings, hpolicy, hprevious, houtlet⟩ := poll_left hone hpoll
  have hone' : (k₁.matched w'.tree).length ≤ max k₁.settings.batchFiles 1 := by
    rwa [hmatched, hsettings]
  rw [houtlet] at hcalm
  rw [outlet_poll hone', hmatched] at hcalm' ⊢
  have hnone : Current { k with gathered := [] } (k.matched w.tree) w.tree [] [] :=
    ⟨.nil _, by simp, by simp, by simp⟩
  obtain ⟨hseats, live, hcurrent, hsuffix⟩ :=
    collect_first hnone (.refl _ _) (fun _ h => h) hcalm (by simp)
  rw [List.nil_append] at hcurrent
  have hlive : ({ k with gathered := [] }.collect (k.matched w.tree) w).1.previous = live :=
    hsuffix.eq_of_length (by simpa using hcurrent.same.length_eq.symm)
  have hbegun : Current { k₁ with gathered := [] } (k.matched w.tree) w.tree
      ({ k with gathered := [] }.collect (k.matched w.tree) w).1.previous live := by
    refine ⟨⟨?_, .inr ?_⟩, hcurrent.rested, hcurrent.limited, hcurrent.same⟩
    · rw [kept, hprevious, hlive]
      exact List.suffix_append _ _
    · rw [← hlive, ← hprevious]
  have hapart : Apart ({ k with gathered := [] }.collect (k.matched w.tree) w).1.previous := by
    have hone : List.Forall₂ (SeatedReaders { k with gathered := [] } w.tree) [k.matched w.tree]
        [({ k with gathered := [] }.collect (k.matched w.tree) w).1.previous] := .cons hseats .nil
    simpa using seatedReaders_apart hone (List.pairwise_singleton _ _)
  obtain ⟨htook, _⟩ := collect_again hbegun hstill (fun _ h => h) hcalm' (by rw [hpolicy])
    (fun p h m => by rw [hpolicy]; rfl) hseats (fun _ hr => hr) hseats.seated hapart
    (by rw [← hlive, ← hprevious])
  simpa using htook.outlet.accepted

variable (hgrown : ∀ x ∈ k.sights w.tree (k.matched w.tree),
    w.tree.content x.1 <+: w'.tree.content x.1)
include hgrown

theorem poll_left_grown {r : Reader} (hr : r ∈ k₁.previous) :
    ∃ h, Grown (k.sights w.tree (k.matched w.tree)) w'.tree k.policy.fingerprintSize r h ∧
      pieces k.policy.limit ((w.tree.content h.node).drop r.offset) = [] ∧
      r.ahead w'.tree = Reader.recordsFrom r.offset
        (pieces k.policy.limit ((w'.tree.content h.node).drop r.offset)) := by
  obtain ⟨_, _, hprevious, houtlet⟩ := poll_left hone hpoll
  rw [houtlet] at hcalm
  rw [hprevious] at hr
  obtain ⟨h, hsight, hh, hlimit, hle, hnone⟩ := collect_left hcalm hr
  have hprefix := hgrown _ hsight
  obtain ⟨_, _, g, hid, hg⟩ := of_mem_sights hsight
  obtain ⟨hbytes, hfilled⟩ := (identify_some hid).2
  have hnode : g.node = h.node := hg
  rw [hnode] at hbytes
  refine ⟨h, ⟨hh, hsight, hfilled, ?_⟩, hnone, ?_⟩
  · rw [show r.fingerprint.bytes = _ from hbytes]
    exact hprefix.take _
  · rw [Reader.ahead_of_le hh (Nat.le_trans hle hprefix.length_le), hlimit]

end Polls

def Gone (t : FileTree) (paths : List Path) (n : Nat) : Prop :=
  ∀ path ∈ paths, ∀ h, t.openFile path = .ok h → h.node ≠ n

theorem Gone.apart {k : Tracker} {t : FileTree} {paths : List Path} {met : List (Nat × Fingerprint)}
    {x y : Nat × Fingerprint} (hgone : Gone t paths x.1) (hrivals : NoRivals met)
    (hsights : ∀ x ∈ k.sights t paths, x ∈ met) (hx : x ∈ met) (hy : y ∈ k.sights t paths) :
    y.2 ≠ x.2 := by
  intro hsame
  obtain ⟨path, hpath, h, hid, hnode⟩ := of_mem_sights hy
  obtain ⟨hopen, hsighted⟩ := identify_some hid
  have hstarts : y.2.startsWith x.2 = true := by
    rw [← hsame]
    exact Fingerprint.startsWith_refl hsighted.filled
  exact hgone path hpath h hopen (hnode.trans (hrivals.same hx (hsights _ hy) hstarts).symm)

theorem departed_iff_gone {k : Tracker} {t : FileTree} {paths : List Path}
    {met : List (Nat × Fingerprint)} (hrivals : NoRivals met) (hsights : ∀ x ∈ k.sights t paths, x ∈ met)
    {r : Reader} {h : Handle} (hgrown : Grown met t k.policy.fingerprintSize r h) :
    departed (k.sights t paths) r = true ↔ Gone t paths h.node := by
  obtain ⟨_, hseen, hfilled, hstart⟩ := hgrown
  rw [departed_iff]
  constructor
  · rintro hnone path hpath g hopen hnode
    cases hid : k.identify t path with
    | none =>
        have hsize : 0 < k.policy.fingerprintSize := by
          by_contra hzero
          rw [Nat.eq_zero_of_not_pos hzero, List.take_zero] at hstart
          exact hfilled (List.prefix_nil.mp hstart)
        have hempty := content_of_identify_none hid hopen hsize
        rw [← hnode, hempty, List.take_nil] at hstart
        exact hfilled (List.prefix_nil.mp hstart)
    | some id =>
        obtain ⟨hopen', hsighted⟩ := identify_some (show k.identify t path = some (id.1, id.2) from hid)
        obtain rfl : g = id.1 := by simpa [hopen] using hopen'
        have hdiffers := hnone _ (mem_sights hpath hid)
        rw [← hnode, ← hsighted.bytes] at hstart
        rw [Fingerprint.startsWith_iff.mpr ⟨hfilled, hstart⟩] at hdiffers
        cases hdiffers
  · intro hgone x hx
    by_contra hstarts
    obtain ⟨path, hpath, g', hid, hnode⟩ := of_mem_sights hx
    have hsame := hrivals.same hseen (hsights x hx) (by simpa using hstarts)
    exact hgone path hpath g' (identify_some hid).1 (hnode.trans hsame.symm)

/-- Rotation loses nothing. What came to a file that was followed, and was then moved or removed out of
sight, is handed over with the next poll, and before anything that is read of the files found then. A
poll behind that hands nothing over unless a file changed. -/
theorem drains_departed {k k₁ k₂ : Tracker} {w w₁ w' w₂ : World}
    (hone : (k.matched w.tree).length ≤ max k.settings.batchFiles 1)
    (hpoll : k.poll w = (some k₁, w₁)) (hcalm : w.outlet.Calm w₁.outlet)
    (hgrown : ∀ x ∈ k.sights w.tree (k.matched w.tree), w.tree.content x.1 <+: w'.tree.content x.1)
    (hone' : (k₁.matched w'.tree).length ≤ max k₁.settings.batchFiles 1)
    (hpoll' : k₁.poll w' = (some k₂, w₂)) (hcalm' : w'.outlet.Calm w₂.outlet)
    (hrivals : NoRivals (k.sights w.tree (k.matched w.tree) ++
      k₁.sights w'.tree (k₁.matched w'.tree))) :
    (∃ lost built, w'.outlet.Took w₂.outlet (lost ++ built) ∧
      (∀ b ∈ lost, ∃ x ∈ k.sights w.tree (k.matched w.tree),
        Gone w'.tree (k₁.matched w'.tree) x.1 ∧ b.metadata.fingerprint = x.2) ∧
      (∀ b ∈ built, ∃ x ∈ k₁.sights w'.tree (k₁.matched w'.tree), b.metadata.fingerprint = x.2) ∧
      ∀ x ∈ k.sights w.tree (k.matched w.tree), Gone w'.tree (k₁.matched w'.tree) x.1 →
        (∀ b ∈ built, b.metadata.fingerprint ≠ x.2) ∧
        ∃ r ∈ k₁.previous, r.fingerprint = x.2 ∧
          pieces k.policy.limit ((w.tree.content x.1).drop r.offset) = [] ∧
          (lost.filter fun b => b.metadata.fingerprint = x.2).flatMap Batch.records =
            Reader.recordsFrom r.offset
              (pieces k.policy.limit ((w'.tree.content x.1).drop r.offset))) ∧
    ∀ w'', k₂.matched w''.tree = k₁.matched w'.tree →
      w'.tree.Still (k₁.matched w'.tree) w''.tree → w''.outlet.Calm (k₂.poll w'').2.outlet →
      (k₂.poll w'').2.outlet.accepted = w''.outlet.accepted := by
  obtain ⟨_, hpolicy, hprevious, houtlet⟩ := poll_left hone hpoll
  obtain ⟨_, _, _, houtlet'⟩ := poll_left hone' hpoll'
  have hcalm₁ := hcalm
  have hcalm₂ := hcalm'
  rw [houtlet] at hcalm₁
  rw [houtlet'] at hcalm₂
  have hbefore (x) (hx : x ∈ k.sights w.tree (k.matched w.tree)) := List.mem_append_left
    (k₁.sights w'.tree (k₁.matched w'.tree)) hx
  have hbehind (x) (hx : x ∈ k₁.sights w'.tree (k₁.matched w'.tree)) := List.mem_append_right
    (k.sights w.tree (k.matched w.tree)) hx
  have hleft {r : Reader} (hr : r ∈ k₁.previous) := poll_left_grown hone hpoll hcalm hgrown hr
  have hsize : k₁.policy.fingerprintSize = k.policy.fingerprintSize := by rw [hpolicy]
  have hlost : ({ k₁ with gathered := [] }.opened (k₁.matched w'.tree) w').lost =
      k₁.previous.filter (departed (k₁.sights w'.tree (k₁.matched w'.tree))) := by
    refine lost_eq_departed hrivals hbehind fun r hr => ?_
    obtain ⟨h, hr, _⟩ := hleft hr
    exact ⟨h, by rw [show _ = _ from hsize]; exact hr.mono hbefore⟩
  have hgone {r : Reader} {h : Handle}
      (hr : Grown (k.sights w.tree (k.matched w.tree)) w'.tree k.policy.fingerprintSize r h) :=
    departed_iff_gone hrivals hbehind (hsize ▸ hr.mono hbefore)
  obtain ⟨lost, built, htook, hhands, hbuilt⟩ := collect_hands hcalm₂
  rw [hlost] at hhands
  refine ⟨⟨lost, built, houtlet' ▸ htook.outlet, fun b hb => ?_, hbuilt.sighted,
    fun x hx hout => ⟨fun b hb hsame => ?_, ?_⟩⟩,
    fun w'' hmatched hstill hquiet => poll_quiet hone' hpoll' hcalm' hmatched hstill hquiet⟩
  · obtain ⟨r, hr, hsame⟩ := hhands.stamped b hb
    obtain ⟨hr, hdeparted⟩ := List.mem_filter.mp hr
    obtain ⟨h, hr, _⟩ := hleft hr
    exact ⟨_, hr.seen, (hgone hr).mp hdeparted, hsame⟩
  · obtain ⟨y, hy, hstamp⟩ := hbuilt.sighted b hb
    exact hout.apart hrivals hbehind (hbefore _ hx) hy (hstamp.symm.trans hsame)
  · obtain ⟨r, hr, hfp, _⟩ := collect_finds hcalm₁ (hrivals.mono hbefore) hx
    rw [← hprevious] at hr
    obtain ⟨h, hgrew, hnone, hahead⟩ := hleft hr
    have hnode : h.node = x.1 := (hrivals.mono hbefore).same hgrew.seen hx (by
      rw [hfp]
      exact Fingerprint.startsWith_refl (hfp ▸ hgrew.filled))
    rw [hnode] at hnone hahead
    refine ⟨r, hr, hfp, hnone, ?_⟩
    have hdeparted := (hgone hgrew).mpr (hnode ▸ hout)
    have hapart := collect_apart hcalm₁
    rw [← hprevious] at hapart
    have hrecords := hhands.records fun fp => decide (fp = x.2)
    rw [← hfp] at hrecords ⊢
    rw [hrecords, List.filter_comm, filter_fingerprint hr hapart, List.filter_cons, if_pos hdeparted]
    simpa using hahead

theorem calm_twice {k k₁ : Tracker} {o o' : Option Tracker} {w w₁ w' w₂ : World}
    (hwilling : w.outlet.Willing) (hpoll : k.poll w = (o, w₁)) (hsame : w'.outlet = w₁.outlet)
    (hpoll' : k₁.poll w' = (o', w₂)) : w.outlet.Calm w₁.outlet ∧ w'.outlet.Calm w₂.outlet := by
  obtain ⟨bs, htook⟩ := (k.poll_took w).1
  obtain ⟨cs, htook'⟩ := (k₁.poll_took w').1
  rw [hpoll] at htook
  rw [hpoll'] at htook'
  refine ⟨hwilling.calm htook, Outlet.Willing.calm ?_ htook'⟩
  rw [hsame]
  exact hwilling.took htook

open Session in
theorem drains_departed_moved :
    let k := logTracker
    let w : World := ⟨ofFiles [("a.log", true, [97, 10])], .empty, .willing, []⟩
    let k₁ := (k.poll w).1.getD k
    let w₁ := (k.poll w).2
    let w' := { w₁ with tree := ofFiles [("a.log.1", true, [97, 10, 98, 10]), ("a.log", true, [99, 10])] }
    let w₂ := (k₁.poll w').2
    w₁.outlet.batches.flatMap Batch.records = [⟨"a", 0, 2⟩] ∧
      w₂.outlet.batches.flatMap Batch.records = [⟨"a", 0, 2⟩, ⟨"b", 2, 2⟩, ⟨"c", 0, 2⟩] ∧
      ∃ lost built, w'.outlet.Took w₂.outlet (lost ++ built) ∧
        (∀ b ∈ built, b.metadata.fingerprint ≠ ⟨[97, 10]⟩) ∧
        ∃ r ∈ k₁.previous, r.fingerprint = ⟨[97, 10]⟩ ∧
          (lost.filter fun b => b.metadata.fingerprint = ⟨[97, 10]⟩).flatMap Batch.records =
            Reader.recordsFrom r.offset (pieces k.policy.limit ((w'.tree.content 3).drop r.offset)) := by
  intro k w k₁ w₁ w' w₂
  have hrun : (k.poll w).1.isSome = true ∧ (k₁.poll w').1.isSome = true ∧
      (k.matched w.tree).length ≤ max k.settings.batchFiles 1 ∧
      (k₁.matched w'.tree).length ≤ max k₁.settings.batchFiles 1 ∧
      (∀ x ∈ k.sights w.tree (k.matched w.tree), w.tree.content x.1 <+: w'.tree.content x.1) ∧
      NoRivals (k.sights w.tree (k.matched w.tree) ++ k₁.sights w'.tree (k₁.matched w'.tree)) ∧
      (3, ⟨[97, 10]⟩) ∈ k.sights w.tree (k.matched w.tree) ∧ k₁.matched w'.tree = [⟨"a.log"⟩] ∧
      w'.tree.openFile ⟨"a.log"⟩ = .ok ⟨4, some 1⟩ ∧
      w₁.outlet.batches.flatMap Batch.records = [⟨"a", 0, 2⟩] ∧
      w₂.outlet.batches.flatMap Batch.records = [⟨"a", 0, 2⟩, ⟨"b", 2, 2⟩, ⟨"c", 0, 2⟩] := by
    decide +kernel
  obtain ⟨hsome, hsome', hone, hone', hgrown, hrivals, hseen, hmatched, hopen, hfirst, hall⟩ := hrun
  have hpoll : k.poll w = (some k₁, w₁) := poll_getD hsome
  have hpoll' : k₁.poll w' = (some ((k₁.poll w').1.getD k₁), w₂) := poll_getD hsome'
  have hwilling : w.outlet.Willing := Outlet.willing_willing
  have hsame : w'.outlet = w₁.outlet := by simp only [w']
  clear_value w₂ w' k₁ w₁ k w
  obtain ⟨hcalm, hcalm'⟩ := calm_twice hwilling hpoll hsame hpoll'
  obtain ⟨⟨lost, built, htook, _, _, hdrained⟩, _⟩ :=
    drains_departed hone hpoll hcalm hgrown hone' hpoll' hcalm' hrivals
  have hgone : Gone w'.tree (k₁.matched w'.tree) 3 := by
    intro path hpath h hh hnode
    obtain rfl : path = ⟨"a.log"⟩ := by simpa [hmatched] using hpath
    rw [hopen] at hh
    cases hh
    cases hnode
  obtain ⟨hapart, r, hr, hfp, _, hrecords⟩ := hdrained _ hseen hgone
  exact ⟨hfirst, hall, lost, built, htook, hapart, r, hr, hfp, hrecords⟩

open Session in
/-- A log that was empty when it was polled is not open between the polls: what came to it before it was
moved is not read. -/
theorem empty_log_not_drained :
    let k := logTracker
    let w : World := ⟨ofFiles [("a.log", true, [])], .empty, .willing, []⟩
    let k₁ := (k.poll w).1.getD k
    let w' := { (k.poll w).2 with tree := ofFiles [("a.log.1", true, [97, 10])] }
    k.matched w.tree = [⟨"a.log"⟩] ∧ w.tree.openFile ⟨"a.log"⟩ = .ok ⟨3, some 0⟩ ∧
      (k.poll w).1.isSome = true ∧ (k.poll w).2.outlet.cancelled = false ∧
      w.tree.content 3 <+: w'.tree.content 3 ∧ k₁.matched w'.tree = [] ∧
      NoRivals (k.sights w.tree (k.matched w.tree) ++ k₁.sights w'.tree (k₁.matched w'.tree)) ∧
      (k₁.poll w').1.isSome = true ∧ (k₁.poll w').2.outlet.cancelled = false ∧
      Reader.framed k.policy.limit (w'.tree.content 3) = [⟨"a", 0, 2⟩] ∧
      (k₁.poll w').2.outlet.accepted.length = 0 := by
  decide +kernel

end LogTail.Tracker
