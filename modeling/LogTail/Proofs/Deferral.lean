import Mathlib.Data.List.Pairwise
import LogTail.Proofs.ExactlyOnce
import LogTail.Proofs.Recency
import LogTail.Proofs.Trackers

namespace LogTail

open Record Tracker Session

/-- How many files a poll comes to at most, if the number of its batches is limited. -/
def Config.reach (c : Config) : Nat := c.maxBatches * c.batchFiles

namespace Tracker

theorem sights_split (k : Tracker) (t : FileTree) (paths : List Path) (n : Nat) :
    k.sights t paths = k.sights t (paths.take n) ++ k.sights t (paths.drop n) := by
  rw [sights, sights, sights, ← List.filterMap_append, List.take_append_drop]

theorem filesOf_sights_le (k : Tracker) (t : FileTree) (paths : List Path) :
    (filesOf (k.sights t paths)).length ≤ paths.length := by
  calc (filesOf (k.sights t paths)).length
      ≤ ((k.sights t paths).map Prod.fst).length := (List.dedup_sublist _).length_le
    _ = (k.sights t paths).length := List.length_map _
    _ ≤ paths.length := List.length_filterMap_le _ _

theorem sights_still {k k' : Tracker} {followed paths : List Path} {t t' : FileTree}
    (hpolicy : k'.policy = k.policy) (hstill : t.Still followed t')
    (hpaths : ∀ path ∈ paths, path ∈ followed) : k'.sights t' paths = k.sights t paths := by
  refine List.filterMap_congr fun path hpath => ?_
  rw [hstill.identify (hpaths path hpath), identify_congr hpolicy]

def Configured (c : Config) (k : Tracker) : Prop := k.policy = c.policy ∧ k.settings = c.settings

theorem Configured.lasting {c : Config} (hbegin : c.startAt = .beginning) :
    Enduring (Configured c) := by
  have hpolicy := Policy.fromBeginning_config hbegin
  exact Lasting.enduring {
    begun := fun h => h
    beginning := fun {k} h => by
      rw [readFromBeginning_self (by rw [h.1]; exact hpolicy)]
      exact h
    recollected := fun e h => by
      unfold recollect
      split <;> exact h
    trimmed := fun h => h
    closed := fun h => h
    stored := fun _ h => h
    collected := fun w h _ =>
      have halike := (collect_alike _ _ w).1
      ⟨halike.policy.trans h.1, halike.settings.trans h.2⟩ }

end Tracker

namespace Session

def matched (s : Session) : List Path :=
  match s.consumer.phase with
  | .running k => k.matched s.world.tree
  | _ => []

/-- A poll finds the files that are followed and changes nothing of them where it saves. Other files
only grow, and the store does not crash. -/
structure Idle (followed : List Path) (s : Session) : Prop where
  matched : s.matched = followed
  still : ∀ stage ∈ s.stages, stage.world.tree.Still followed stage.read.2.tree
  survives : ∀ stage ∈ s.stages, stage.read.1.isSome = true
  lawful : s.Lawful Mild .poll

/-- What holds of a session while some files are polled that do not change: it found none of them but
the first. Each file is read once, as long as what was found can be told apart and remembered. -/
structure Waiting (c : Config) (k : Tracker) (t : FileTree) (followed : List Path) (s : Session) :
    Prop where
  polling : s.polling = true
  configured : s.consumer.Always (Configured c)
  origin : s.origin.Always (Configured c)
  willing : s.world.outlet.Willing
  still : t.Still followed s.world.tree
  found : ∀ x ∈ s.met, x ∈ k.sights t (followed.take c.reach)
  keeps {met : List (Nat × Fingerprint)} : NoRivals met → (filesOf met).length ≤ c.capacity →
    (∀ x ∈ k.sights t (followed.take c.reach), x ∈ met) → Keeps (Once met c.policy fun _ => []) s

section Poll

variable {c : Config} {k : Tracker} {t : FileTree} {followed : List Path} {s : Session}
  (hbegin : c.startAt = .beginning) (h : Waiting c k t followed s) (hidle : s.Idle followed)
include h hidle

theorem Waiting.stays :
    t.Still followed (s.step .poll).world.tree ∧
      ∀ stage ∈ s.stages, t.Still followed stage.world.tree := by
  obtain ⟨k, hphase⟩ := polling_iff.mp h.polling
  have hstages := stages_running hphase
  obtain ⟨hend, hall⟩ := readBatches_between (R := fun w w' => w.tree.Still followed w'.tree)
    (fun w => .refl _ _) (fun _ _ _ => FileTree.Still.trans) (fun w => .refl _ _)
    (fun stage hs => hidle.still stage (hstages ▸ hs))
  rw [step_poll hphase, hstages]
  exact ⟨h.still.trans hend, fun stage hs => h.still.trans (hall stage hs).1⟩

theorem Waiting.goes_on : (s.step .poll).polling = true := by
  obtain ⟨k, hphase⟩ := polling_iff.mp h.polling
  have hsurvives := hidle.survives
  rw [stages_running hphase] at hsurvives
  have hsome : (k.poll s.world).1.isSome = true :=
    (readBatches_runs (P := fun _ _ => True) (Q := fun o _ => o.isSome = true) (chunks_ne_nil _ _)
      (fun _ _ _ _ _ _ => trivial) (fun stage hs _ => hsurvives stage hs) (fun _ _ _ => rfl)
      (fun _ _ _ => rfl) trivial).1
  obtain ⟨k', hk'⟩ := Option.isSome_iff_exists.mp hsome
  refine polling_iff.mpr ⟨k', ?_⟩
  simp only [step, Consumer.poll, hphase]
  rw [show k.poll s.world = (some k', (k.poll s.world).2) from Prod.ext hk' rfl]

variable (hvalid : c.Valid) (hlimited : c.maxBatches ≠ 0)
include hvalid hlimited

theorem Waiting.reaches : (s.stages.map Stage.paths).flatten = followed.take c.reach := by
  obtain ⟨k, hphase⟩ := polling_iff.mp h.polling
  obtain ⟨_, hsettings⟩ := h.configured k (.inr hphase)
  have hsurvives := hidle.survives
  rw [stages_running hphase] at hsurvives ⊢
  have hmax : k.settings.maxBatches = c.maxBatches := by rw [hsettings]; rfl
  have hfiles : 0 < c.batchFiles := Nat.div_pos hvalid.files Nat.two_pos
  have hbatch : max k.settings.batchFiles 1 = c.batchFiles := by
    rw [hsettings]
    exact Nat.max_eq_left hfiles
  have hpaths : (k.stages s.world).map Stage.paths = (k.batches s.world.tree).take c.maxBatches := by
    rw [← hmax]
    exact stagesFrom_paths (show 0 < k.settings.maxBatches by omega) h.willing hsurvives
  have hmatched : k.matched s.world.tree = followed := by
    simpa [Session.matched, hphase] using hidle.matched
  rw [hpaths, batches, hmatched, hbatch, chunks_take_flatten hfiles, Config.reach]

theorem Waiting.paths {stage : Stage} (hstage : stage ∈ s.stages) {path : Path}
    (hpath : path ∈ stage.paths) : path ∈ followed := by
  have hfirst : path ∈ followed.take c.reach := by
    rw [← h.reaches hidle hvalid hlimited]
    exact List.mem_flatten.mpr ⟨_, List.mem_map_of_mem hstage, hpath⟩
  exact List.mem_of_mem_take hfirst

variable (hpolicy : k.policy = c.policy)
include hbegin hpolicy

theorem Waiting.finds : s.stages.flatMap Stage.sights = k.sights t (followed.take c.reach) := by
  have hsame (stage : Stage) (hstage : stage ∈ s.stages) :
      stage.sights = k.sights t stage.paths := by
    have hconf := (always_stage (Configured.lasting hbegin) h.configured hstage).1
    exact sights_still (hconf.1.trans hpolicy.symm) ((h.stays hidle).2 stage hstage)
      fun path => h.paths hidle hvalid hlimited hstage
  calc s.stages.flatMap Stage.sights
      = (s.stages.map fun stage => k.sights t stage.paths).flatten := by
        rw [List.flatMap_def, List.map_congr_left hsame]
    _ = k.sights t (s.stages.map Stage.paths).flatten := by
        simp only [Tracker.sights, List.filterMap_flatten, List.map_map, Function.comp_def]
    _ = k.sights t (followed.take c.reach) := by rw [h.reaches hidle hvalid hlimited]

theorem Waiting.met : ∀ x ∈ (s.step .poll).met, x ∈ k.sights t (followed.take c.reach) := by
  intro x hx
  rcases List.mem_append.mp hx with hx | hx
  · exact h.found x hx
  · rwa [h.finds hbegin hidle hvalid hlimited hpolicy] at hx

theorem Waiting.poll : Waiting c k t followed (s.step .poll) := by
  have hconf := Configured.lasting hbegin
  have hmet := h.met hbegin hidle hvalid hlimited hpolicy
  obtain ⟨k', hphase⟩ := polling_iff.mp h.polling
  obtain ⟨bs, htook⟩ := (poll_took k' s.world).1
  exact {
    polling := h.goes_on hidle
    configured := step_always hconf h.configured h.origin .poll
    origin := by rw [s.step_origin]; exact h.origin
    willing := by rw [step_poll hphase]; exact h.willing.took htook
    still := (h.stays hidle).1
    found := hmet
    keeps := fun hrivals hroom hsub =>
      (h.keeps hrivals hroom hsub).polls (once_maintained hrivals (Policy.fromBeginning_config hbegin))
        hidle.lawful fun x hx => hsub x (hmet x hx) }

/-- Behind a poll all records of the first files were delivered. -/
theorem Waiting.delivers {met : List (Nat × Fingerprint)} (hrivals : NoRivals met)
    (hroom : (filesOf met).length ≤ c.capacity)
    (hsub : ∀ x ∈ k.sights t (followed.take c.reach), x ∈ met) {x : Nat × Fingerprint}
    (hx : x ∈ k.sights t (followed.take c.reach)) :
    (s.step .poll).world.delivered met x.1 = Reader.framed c.maxLogSize (t.content x.1) := by
  have hfrom := Policy.fromBeginning_config hbegin
  have hlimit := Policy.limit_config hvalid
  have hmet (y) (hy : y ∈ (s.step .poll).met) : y ∈ met :=
    hsub y (h.met hbegin hidle hvalid hlimited hpolicy y hy)
  have hJ : Maintained Mild met (Once met c.policy fun _ => []) := once_maintained hrivals hfrom
  have hkeeps := h.keeps hrivals hroom hsub
  obtain ⟨files, _, hend⟩ := (hkeeps.polls hJ hidle.lawful hmet).holds
  have hmost := hend.delivered_prefix x.1
  obtain ⟨k', hphase⟩ := polling_iff.mp h.polling
  rw [← h.finds hbegin hidle hvalid hlimited hpolicy] at hx
  obtain ⟨stage, hstage, hsight⟩ := List.mem_flatMap.mp hx
  obtain ⟨path, hpath, handle, hid, hnode⟩ := of_mem_sights hsight
  -- the stage delivers all that the file holds, and no more is delivered behind it
  have hpoll := stages_running hphase ▸ hstage
  obtain ⟨_, files', _, _, _, hk⟩ := (Keeps.poll hJ hphase hidle.lawful hmet hkeeps).2 stage hpoll
  obtain ⟨⟨_, htook⟩, hbehind⟩ := poll_took k' s.world
  obtain ⟨_, htook'⟩ := (hbehind stage hpoll).2
  have hcalm := stage_calm (h.willing.calm htook) hpoll
  rw [stage.read_outlet] at hcalm htook'
  have hread := (hk.exact _ rfl).reads hrivals hfrom
    (fun y hy => hmet y (mem_step_met hstage hy)) hcalm hpath hid
  have hleast : (stage.tracker.collect stage.paths stage.world).2.delivered met handle.node <+:
      (k'.poll s.world).2.delivered met handle.node := delivered_mono htook' handle.node
  have hstill := (h.stays hidle).2 stage hstage
  have hfollowed := h.paths hidle hvalid hlimited hstage hpath
  have hopen : t.openFile path = .ok handle := by
    rw [← (hstill path hfollowed).1]
    exact (identify_some hid).1
  rw [hread, List.nil_append, hlimit, hstill.content hfollowed hopen, hnode,
    ← step_poll hphase] at hleast
  rw [hlimit, ← hnode, (h.stays hidle).1.content hfollowed hopen, hnode] at hmost
  exact hmost.eq_of_length_le hleast.length_le

end Poll

section Apart

variable {k : Tracker} {t : FileTree} {followed : List Path}
  (h : (k.sights t followed).Pairwise fun x y => x.2.agrees y.2 = false)
include h

theorem noRivals_of_apart : NoRivals (k.sights t followed) := by
  have : Std.Symm fun x y : Nat × Fingerprint => x.2.agrees y.2 = false :=
    ⟨fun x y hxy => by rwa [Fingerprint.agrees_comm]⟩
  intro x hx y hy hne
  by_contra hstart
  have hagrees := h.forall hx hy fun hxy => hne (by rw [hxy])
  rw [Fingerprint.agrees_iff.mpr (.inr (by simpa using hstart))] at hagrees
  cases hagrees

theorem node_ne_of_apart {n : Nat} {x y : Nat × Fingerprint} (hx : x ∈ k.sights t (followed.take n))
    (hy : y ∈ k.sights t (followed.drop n)) : x.1 ≠ y.1 := by
  intro hnode
  have hsplit := k.sights_split t followed n
  have hx' : (x.1, x.2) ∈ k.sights t followed := hsplit ▸ List.mem_append_left _ hx
  have hy' : (x.1, y.2) ∈ k.sights t followed := hnode ▸ hsplit ▸ List.mem_append_right _ hy
  obtain ⟨_, _, _, hid, _⟩ := of_mem_sights hx
  rw [hsplit] at h
  have hagrees := (List.pairwise_append.mp h).2.2 x hx y hy
  rw [← fingerprint_unique hx' hy', Fingerprint.agrees_self (identify_some hid).2.filled] at hagrees
  cases hagrees

end Apart

theorem Fresh.waiting {c : Config} {s : Session} {k : Tracker} (hfresh : s.Fresh c)
    (hbegin : c.startAt = .beginning) (hstart : (s.step .start).consumer.phase = .running k) :
    Waiting c k s.world.tree (k.matched s.world.tree) (s.step .start) := by
  have horigin : s.origin.Always (Configured c) := .ofConfig hfresh.built fun _ => ⟨rfl, rfl⟩
  exact {
    polling := polling_iff.mpr ⟨k, hstart⟩
    configured :=
      step_always (Configured.lasting hbegin) (hfresh.consumer ▸ horigin) horigin .start
    origin := by rw [s.step_origin]; exact horigin
    willing := hfresh.willing
    still := by rw [s.start_world.1]; exact .refl _ _
    found := fun x hx => by
      have hmet : (s.step .start).met = s.met := rfl
      rw [hmet, hfresh.met] at hx
      cases hx
    keeps := fun hrivals hroom _ =>
      (hfresh.once hrivals hroom).starts (once_maintained hrivals (Policy.fromBeginning_config hbegin)) }

theorem Waiting.untouched {c : Config} {k : Tracker} {t : FileTree} {followed : List Path} {s : Session}
    (h : Waiting c k t followed s)
    (hapart : (k.sights t followed).Pairwise fun x y => x.2.agrees y.2 = false)
    (hroom : followed.length ≤ c.capacity) {x : Nat × Fingerprint}
    (hx : x ∈ k.sights t (followed.drop c.reach)) :
    s.world.delivered (k.sights t followed) x.1 = [] := by
  have hsub (y) (hy : y ∈ k.sights t (followed.take c.reach)) : y ∈ k.sights t followed := by
    rw [k.sights_split t followed c.reach]
    exact List.mem_append_left _ hy
  have hrivals := noRivals_of_apart hapart
  have hfew : (filesOf (k.sights t (followed.take c.reach))).length ≤ c.capacity :=
    Nat.le_trans (k.filesOf_sights_le t _)
      (Nat.le_trans (List.length_take_le' _ _) hroom)
  obtain ⟨k', hphase⟩ := polling_iff.mp h.polling
  have htracker : s.tracker? = some k' := by simp [tracker?, hphase]
  obtain ⟨_, _, hall⟩ :=
    (h.keeps hrivals (Nat.le_trans (k.filesOf_sights_le t _) hroom) hsub).holds
  obtain ⟨_, _, hfirst⟩ := (h.keeps (hrivals.mono hsub) hfew fun _ hy => hy).holds
  refine (hall.exact k' htracker).ledger.opening x.1 fun r hr hseen => ?_
  -- what is kept is of the first files, as nothing else was found
  obtain ⟨n, _, hfollows, _⟩ := (hfirst.exact k' htracker).ledger.tracked r hr
  have hnode : n = x.1 := hrivals.same (hsub _ hfollows.seen) hseen
    (Fingerprint.startsWith_refl hfollows.fits.filled)
  exact node_ne_of_apart hapart hfollows.seen hx hnode

/-- A limit on the batches of a poll puts the files behind them off for good: of files that do not
change, however often they are polled, all records of the first are delivered and none of the rest. -/
theorem first_files_only {c : Config} {s : Session} {k : Tracker} (p : Nat) (hfresh : s.Fresh c)
    (hbegin : c.startAt = .beginning) (hlimited : c.maxBatches ≠ 0)
    (hstart : (s.step .start).consumer.phase = .running k)
    (hapart : (k.sights s.world.tree (k.matched s.world.tree)).Pairwise fun x y =>
      x.2.agrees y.2 = false)
    (hroom : (k.matched s.world.tree).length ≤ c.capacity)
    (hidle : ∀ q ≤ p,
      ((s.step .start).run (List.replicate q .poll)).Idle (k.matched s.world.tree)) :
    let followed := k.matched s.world.tree
    let found := k.sights s.world.tree
    let world := ((s.step .start).run (List.replicate (p + 1) .poll)).world
    (∀ x ∈ found (followed.take c.reach),
      world.delivered (found followed) x.1 =
        Reader.framed c.maxLogSize (s.world.tree.content x.1)) ∧
    ∀ x ∈ found (followed.drop c.reach), world.delivered (found followed) x.1 = [] := by
  intro followed found world
  have hvalid := (Consumer.ofConfig_ok hfresh.built).1
  have hbegun := hfresh.waiting hbegin hstart
  have hpolicy : k.policy = c.policy := (hbegun.configured k (.inr hstart)).1
  have hwaiting : ∀ q ≤ p, Waiting c k s.world.tree followed
      ((s.step .start).run (List.replicate q .poll)) := by
    intro q
    induction q with
    | zero => exact fun _ => hbegun
    | succ q ih =>
        intro hq
        rw [List.replicate_succ', run_snoc]
        exact (ih (by omega)).poll hbegin (hidle q (by omega)) hvalid hlimited hpolicy
  have hlast := hwaiting p (Nat.le_refl p)
  -- the last poll delivers what the first one did, and reaches no further
  have hworld : world = (((s.step .start).run (List.replicate p .poll)).step .poll).world := by
    rw [← run_snoc, ← List.replicate_succ']
  rw [hworld]
  refine ⟨fun x hx => ?_, fun x hx => ?_⟩
  · refine hlast.delivers hbegin (hidle p (Nat.le_refl p)) hvalid hlimited hpolicy
      (noRivals_of_apart hapart) (Nat.le_trans (k.filesOf_sights_le _ _) hroom) (fun y hy => ?_) hx
    rw [k.sights_split s.world.tree followed c.reach]
    exact List.mem_append_left _ hy
  · have hdone := hlast.poll hbegin (hidle p (Nat.le_refl p)) hvalid hlimited hpolicy
    exact hdone.untouched hapart hroom hx

theorem InMemory.idle {s : Session} (h : s.InMemory) (hcount : Countable s.world.tree)
    (hsurvives : ∀ stage ∈ s.stages, stage.read.1.isSome = true) : s.Idle s.matched where
  matched := rfl
  still stage hstage := by
    have hbefore := h.aside hstage
    have hbehind : stage.read.2.tree = s.world.tree := (readBatch_aside stage.paths hbefore).tree
    rw [hbehind, hbefore.2]
    exact .refl _ _
  survives := hsurvives
  lawful _ hstage := h.lawful hcount hstage

def followOne : Config := { followLogs with maxBatches := 1 }

def oneFollower : Consumer := .ofParts ⟨["*.log"], [], none⟩ followOne.policy followOne.settings

theorem ofConfig_followOne : Consumer.ofConfig followOne = .ok oneFollower := rfl

/-- Of two logs one is read in each poll, and the other is still put off behind the second. -/
theorem first_files_only_two :
    let s := ofConsumer oneFollower (ofFiles [("a.log", true, [97, 10]), ("b.log", true, [98, 10])])
    let k : Tracker :=
      { ofParts ⟨["*.log"], [], none⟩ followOne.policy followOne.settings with store := some .memory }
    let found := k.sights s.world.tree [⟨"a.log"⟩, ⟨"b.log"⟩]
    let polled := (s.step .start).run [.poll, .poll]
    s.Fresh followOne ∧ (s.step .start).matched = [⟨"a.log"⟩, ⟨"b.log"⟩] ∧ followOne.reach = 1 ∧
      polled.world.delivered found 3 = [⟨"a", 0, 2⟩] ∧ polled.world.delivered found 4 = [] := by
  intro s k found polled
  have hcount : Countable s.world.tree := countable_of_nodes (by decide)
  have hfresh : s.Fresh followOne := fresh_ofConsumer ofConfig_followOne hcount
  have hmemory : s.InMemory := inMemory_ofConsumer ofConfig_followOne _
  have hstart : (s.step .start).consumer.phase = .running k := rfl
  have hmatched : k.matched s.world.tree = [⟨"a.log"⟩, ⟨"b.log"⟩] := by decide +kernel
  have hpolls : ∀ q ∈ [0, 1],
      let s' := (s.step .start).run (List.replicate q .poll)
      s'.matched = [⟨"a.log"⟩, ⟨"b.log"⟩] ∧ (∀ stage ∈ s'.stages, stage.read.1.isSome = true) ∧
        ∀ n < s'.world.tree.nodes.length, (s'.world.tree.content n).length < Json.Number.limit := by
    decide +kernel
  have hidle : ∀ q ≤ 1,
      ((s.step .start).run (List.replicate q .poll)).Idle (k.matched s.world.tree) := by
    intro q hq
    obtain ⟨hsame, hsurvives, hsmall⟩ := hpolls q (by simp; omega)
    rw [hmatched, ← hsame]
    exact ((hmemory.step .start).run _).idle (countable_of_nodes hsmall) hsurvives
  obtain ⟨hread, hrest⟩ := first_files_only 1 hfresh rfl (by decide) hstart (by decide +kernel)
    (by decide +kernel) hidle
  rw [hmatched] at hread hrest
  have hfirst := hread (3, ⟨[97, 10]⟩) (by decide +kernel)
  have hsecond := hrest (4, ⟨[98, 10]⟩) (by decide +kernel)
  exact ⟨hfresh, by decide +kernel, rfl, hfirst.trans (by decide +kernel), hsecond⟩

end Session

end LogTail
