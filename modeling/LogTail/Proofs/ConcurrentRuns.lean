import LogTail.Proofs.AtLeastOnce
import LogTail.Proofs.ConcurrentPolls
import LogTail.Proofs.ExactlyOnce
import LogTail.Proofs.Trackers

namespace LogTail

open Exchange

def Act.reads : Act → Bool
  | .poll | .die _ _ => true
  | _ => false

open Tracker

namespace Session

variable {kind : (Nat → Verdict) → Prop} {met : List (Nat × Fingerprint)} {s s' s₁ : Session} {a : Act}

def behind (s : Session) (out : Option Tracker × World) (sights : List (Nat × Fingerprint)) : Session :=
  let phase := match out.1 with
    | some k => .running k
    | none => .crashed
  let consumer := { s.consumer with phase }
  { s with consumer, world := out.2, store := storeOf consumer s.store, met := s.met ++ sights }

def died (s : Session) (store : Store) (w : World) (sights : List (Nat × Fingerprint)) : Session :=
  { s with consumer := s.origin, world := w, store, met := s.met ++ sights }

/-- One act in a session where every batch is read at once, with the stages that were read to their ends. -/
inductive ActsAtOnce (s : Session) : Act → List (Stage × World) → Session → Prop
  | other {a : Act} (hidle : a.reads = true → s.polling = false) : ActsAtOnce s a [] (s.step a)
  | polls {k : Tracker} {done : List (Stage × World)} {out : Option Tracker × World}
      (hphase : s.consumer.phase = .running k) (hpoll : k.PollsAtOnce s.world done out) :
      ActsAtOnce s .poll done (s.behind out (done.flatMap fun x => x.1.sights))
  | dies {k : Tracker} {done : List (Stage × World)} {p : Standing} {paths : List Path} {rest : List (List Path)}
      {bs : List Batch} {w' : World} {looks : List Bool} (hphase : s.consumer.phase = .running k)
      (hcomes : ComesTo (k.standing s.world) done p) (hnext : p.batches = paths :: rest)
      (hdies : p.tracker.DiesAtOnce paths p.world bs w') :
      ActsAtOnce s (.die done.length looks) done (s.died (p.tracker.store.getD s.store) w'
        ((done.flatMap fun x => x.1.sights) ++ p.tracker.sights p.world.tree paths))

def LawfulAtOnce (kind : (Nat → Verdict) → Prop) (s : Session) (a : Act) (done : List (Stage × World)) : Prop :=
  if a.reads then ∀ x ∈ done, x.1.world.tree.Grows x.2.tree ∧ Countable x.2.tree else s.Lawful kind a

inductive RunsAtOnce (kind : (Nat → Verdict) → Prop) : Session → List Act → Session → Prop
  | done (s : Session) : RunsAtOnce kind s [] s
  | act {s s' s'' : Session} {a : Act} {acts : List Act} {done : List (Stage × World)}
      (hact : s.ActsAtOnce a done s') (hlawful : s.LawfulAtOnce kind a done) (rest : RunsAtOnce kind s' acts s'') :
      RunsAtOnce kind s (a :: acts) s''

/-- Sessions in which the same happened, though batches were handed over in another order. -/
structure Agrees (met : List (Nat × Fingerprint)) (s s₁ : Session) : Prop where
  origin : s₁.origin = s.origin
  consumer : s₁.consumer = s.consumer
  store : s₁.store = s.store
  found : s₁.met = s.met
  tree : s₁.world.tree = s.world.tree
  memory : s₁.world.memory = s.world.memory
  delivered (n : Nat) : s₁.world.delivered met n = s.world.delivered met n

theorem Agrees.refl (met : List (Nat × Fingerprint)) (s : Session) : Agrees met s s :=
  ⟨rfl, rfl, rfl, rfl, rfl, rfl, fun _ => rfl⟩

/-- What a session at once must keep to, so that there is one in order that agrees with it: the previous
readers are of different files. -/
structure Ready (kind : (Nat → Verdict) → Prop) (met : List (Nat × Fingerprint)) (s : Session) : Prop where
  kind : kind s.world.outlet.verdict
  consumer : s.consumer.Always fun k => Apart met k.previous
  origin : s.origin.Always fun k => Apart met k.previous

theorem step_poll_eq {k : Tracker} (h : s.consumer.phase = .running k) :
    s.step .poll = s.behind (k.poll s.world) ((k.stages s.world).flatMap Stage.sights) := by
  simp only [step, Consumer.poll, h, stages, behind]
  cases k.poll s.world with
  | mk k' w' => cases k' <;> rfl

theorem step_die_eq {stages tail : List Stage} {stage : Stage} (h : s.stages = stages ++ stage :: tail)
    (looks : List Bool) : s.step (.die stages.length looks) = s.died (stage.tracker.store.getD s.store)
      (stage.tracker.collect stage.paths
        { stage.world with outlet := stage.world.outlet.withToken looks }).2
      (stages.flatMap Stage.sights ++ stage.sights) := by
  have hnth : s.stages[stages.length]? = some stage := by
    rw [h, List.getElem?_append_right (Nat.le_refl _), Nat.sub_self]
    rfl
  have htake : s.stages.take (stages.length + 1) = stages ++ [stage] := by
    rw [h, List.take_length_add_append]
    rfl
  simp only [step, hnth, htake, died, List.flatMap_append, List.flatMap_singleton]

theorem act_at_once (hlawful : s.Lawful kind a) (hstays : ∀ n looks, a ≠ .die n looks) :
    ∃ done, s.ActsAtOnce a done (s.step a) ∧ s.LawfulAtOnce kind a done := by
  by_cases hidle : a.reads = true → s.polling = false
  · refine ⟨[], .other hidle, ?_⟩
    unfold LawfulAtOnce
    split
    · exact List.forall_mem_nil _
    · exact hlawful
  · obtain ⟨hreads, hpolling⟩ := Classical.not_imp.mp hidle
    cases a with
    | change | emitter | memory | start | stop | rebuild => cases hreads
    | die n looks => exact absurd rfl (hstays n looks)
    | poll =>
        obtain ⟨k, hphase⟩ := polling_iff.mp (Bool.not_eq_false _ ▸ hpolling)
        have hpoll := ActsAtOnce.polls hphase (k.poll_at_once s.world)
        rw [List.flatMap_map, ← step_poll_eq hphase] at hpoll
        refine ⟨_, hpoll, fun x hx => ?_⟩
        obtain ⟨stage, hstage, rfl⟩ := List.mem_map.mp hx
        exact hlawful stage (by rwa [stages_running hphase])

/-- A run in order is one way to run at once, as long as no process dies in the middle of a poll. -/
theorem runs_at_once {acts : List Act} (hlawful : s.Allows (Lawful kind) acts)
    (hstays : ∀ n looks, .die n looks ∉ acts) : RunsAtOnce kind s acts (s.run acts) := by
  induction acts generalizing s with
  | nil => exact .done s
  | cons a acts ih =>
      obtain ⟨hone, hrest⟩ := hlawful
      obtain ⟨done, hact, hlawful'⟩ :=
        act_at_once hone fun n looks ha => hstays n looks (ha ▸ List.mem_cons_self)
      exact .act hact hlawful' (ih hrest fun n looks hmem => hstays n looks (List.mem_cons_of_mem _ hmem))

theorem start_consumer (c : Consumer) (store : Store) {w w' : World} (hmemory : w'.memory = w.memory) :
    (c.start store w').2.1 = (c.start store w).2.1 := by
  unfold Consumer.start Tracker.loadFrom
  rw [hmemory]
  cases c.phase with
  | running | crashed | lost => rfl
  | stopped k => cases store.load w.memory <;> rfl

theorem delivered_congr {w w' : World} (h : w'.outlet.accepted = w.outlet.accepted) (n : Nat) :
    w'.delivered met n = w.delivered met n := by
  rw [World.delivered, World.delivered, Outlet.batches, Outlet.batches, h]

theorem start_accepted (s : Session) : (s.step .start).world.outlet.accepted = s.world.outlet.accepted := by
  rcases s.start_world.2.2 with hout | hout
  · rw [hout]
  · rw [hout]
    rfl

theorem step_idle (hidle : s.polling = false) : s.step .poll = s := by
  unfold polling at hidle
  cases hphase : s.consumer.phase with
  | running k => simp [hphase] at hidle
  | stopped | crashed | lost => simp [step, Consumer.poll, stages, storeOf, hphase]

theorem stages_idle (hidle : s.polling = false) : s.stages = [] := by
  unfold polling at hidle
  unfold stages
  cases hphase : s.consumer.phase with
  | running k => simp [hphase] at hidle
  | stopped | crashed | lost => rfl

theorem Agrees.polling (h : Agrees met s s₁) : s₁.polling = s.polling := by
  rw [Session.polling, h.consumer, Session.polling]

/-- Where nothing is read, the same act comes to the same. -/
theorem Agrees.step (h : Agrees met s s₁) (hidle : a.reads = true → s.polling = false) :
    Agrees met (s.step a) (s₁.step a) := by
  cases a with
  | change tree => exact { h with tree := rfl }
  | emitter verdict looks => exact { h with }
  | memory failGet failSet crashSet =>
      exact { h with memory := by simp only [Session.step, h.memory] }
  | start =>
      obtain ⟨htree, hmemory, -⟩ := s.start_world
      obtain ⟨htree₁, hmemory₁, -⟩ := s₁.start_world
      refine ⟨h.origin, ?_, h.store, h.found, ?_, ?_, fun n => ?_⟩
      · simp only [Session.step, h.consumer, h.store]
        exact start_consumer _ _ h.memory
      · rw [htree₁, htree, h.tree]
      · rw [hmemory₁, hmemory, h.memory]
      · rw [delivered_congr s₁.start_accepted, delivered_congr s.start_accepted, h.delivered]
  | stop =>
      obtain ⟨origin, consumer, world, store, found⟩ := s
      obtain ⟨horigin, rfl, hstore, hfound, htree, hmemory, hdelivered⟩ := h
      cases hphase : s₁.consumer.phase with
      | stopped | lost | running | crashed =>
          simp only [Session.step, Consumer.stop, hphase]
          exact ⟨horigin, rfl, hstore, hfound, htree, hmemory, hdelivered⟩
  | poll =>
      have hidle₁ := h.polling.trans (hidle rfl)
      rwa [step_idle (hidle rfl), step_idle hidle₁]
  | rebuild => exact { h with consumer := h.origin }
  | die n looks =>
      have hidle₁ := h.polling.trans (hidle rfl)
      simp only [Session.step, stages_idle (hidle rfl), stages_idle hidle₁, List.getElem?_nil]
      exact { h with consumer := h.origin }

theorem resume_previous (k : Tracker) (files : List Metadata) : (k.resume files).previous = k.previous := by
  unfold Tracker.resume
  split
  · rfl
  · exact (k.readFromBeginning.foldl_recollect_steady files).2

theorem Ready.step (h : Ready kind met s) (hidle : a.reads = true → s.polling = false)
    (hlawful : a.reads = false → s.Lawful kind a) : Ready kind met (s.step a) := by
  cases a with
  | change tree | memory => exact ⟨h.kind, h.consumer, h.origin⟩
  | emitter verdict looks => exact ⟨hlawful rfl, h.consumer, h.origin⟩
  | start =>
      refine ⟨?_, ?_, h.origin⟩
      · rcases s.start_world.2.2 with hout | hout
        · rw [hout]
          exact h.kind
        · rw [hout]
          exact h.kind
      · simp only [Session.step]
        rcases start_cases s.consumer s.store s.world with
          ⟨_, _, hstart, _⟩ | ⟨k, files, _, _, hphase, _, hstart, _⟩
        · rw [hstart]
          exact h.consumer
        · rw [hstart]
          rintro k' (hk | hk)
          · cases hk
          · cases hk
            rw [show Tracker.previous _ = k.previous from resume_previous k files]
            exact h.consumer k (.inl hphase)
  | stop =>
      cases hphase : s.consumer.phase with
      | stopped | lost =>
          simp only [Session.step, Consumer.stop, hphase]
          exact h
      | running k =>
          simp only [Session.step, Consumer.stop, hphase]
          refine ⟨h.kind, ?_, h.origin⟩
          rintro k' (hk | hk)
          · cases hk
            exact List.pairwise_map.mpr (h.consumer k (.inr hphase))
          · cases hk
      | crashed =>
          simp only [Session.step, Consumer.stop, hphase]
          refine ⟨h.kind, ?_, h.origin⟩
          rintro k' (hk | hk) <;> cases hk
  | poll =>
      rw [step_idle (hidle rfl)]
      exact h
  | rebuild => exact ⟨h.kind, h.origin, h.origin⟩
  | die n looks =>
      simp only [Session.step, stages_idle (hidle rfl), List.getElem?_nil]
      exact ⟨h.kind, h.origin, h.origin⟩

def prime (s : Session) (es : List Exchange) : Session :=
  s.step (.emitter (Outlet.verdicts s.world.outlet.offered es) (es.filterMap shown?))

theorem Agrees.prime (h : Agrees met s s₁) (es : List Exchange) : Agrees met s (s₁.prime es) := { h with }

theorem Agrees.world (h : Agrees met s s₁) :
    s₁.world = ⟨s.world.tree, s.world.memory, s₁.world.outlet, s₁.world.events⟩ := by
  obtain ⟨_, _, ⟨tree, memory, _, _⟩, _, _⟩ := s₁
  obtain ⟨-, -, -, -, rfl, rfl, -⟩ := h
  rfl

theorem sights_of_replays {done : List (Stage × World)} {stages : List Stage}
    (h : List.Forall₂ Stage.Replays done stages) :
    stages.flatMap Stage.sights = done.flatMap fun x => x.1.sights := by
  induction h with
  | nil => rfl
  | cons hone _ ih =>
      rw [List.flatMap_cons, List.flatMap_cons, ih, Stage.sights, hone.tracker, hone.tree, hone.paths]
      rfl

theorem lawful_of_replays {done : List (Stage × World)} {stages : List Stage}
    (h : List.Forall₂ Stage.Replays done stages)
    (hlawful : ∀ x ∈ done, x.1.world.tree.Grows x.2.tree ∧ Countable x.2.tree) {stage : Stage}
    (hstage : stage ∈ stages) : stage.world.tree.Grows stage.read.2.tree ∧ Countable stage.read.2.tree := by
  induction h with
  | nil => cases hstage
  | cons hone _ ih =>
      obtain ⟨hx, hdone⟩ := List.forall_mem_cons.mp hlawful
      rcases List.mem_cons.mp hstage with rfl | hstage
      · rw [hone.tree, hone.behind]
        exact hx
      · exact ih hdone hstage

/-- The verdicts of an emitter, as its readers are told them and in another order, are of the same kind. -/
def Retold (kind : (Nat → Verdict) → Prop) : Prop :=
  ∀ v v' : Nat → Verdict, (∀ i, v' i = .accept ∨ ∃ j, v' i = (v j).told) → kind v → kind v'

theorem Retold.reordered {o o' : Outlet} {bs : List Batch} {es : List Exchange} (hkind : Retold kind)
    (h : Reordered met o o' bs es) (past : Nat) (hverdict : kind o.verdict) : kind (Outlet.verdicts past es) :=
  hkind _ _ (fun i => (h.retold past i).imp_right fun ⟨j, _, _, htold⟩ => ⟨j, htold⟩) hverdict

section Reading

variable {k : Tracker} {done : List (Stage × World)} (hkind : Retold kind) (hrivals : NoRivals met)
  (hready : Ready kind met s) (hagrees : Agrees met s s₁) (hphase : s.consumer.phase = .running k)
include hkind hrivals hready hagrees hphase

theorem polls_in_order {out : Option Tracker × World} (hpoll : k.PollsAtOnce s.world done out)
    (hsights : ∀ x ∈ done, ∀ y ∈ x.1.sights, y ∈ met)
    (hlawful : ∀ x ∈ done, x.1.world.tree.Grows x.2.tree ∧ Countable x.2.tree) :
    Ready kind met (s.behind out (done.flatMap fun x => x.1.sights)) ∧
    ∃ es, kind (Outlet.verdicts s₁.world.outlet.offered es) ∧ (s₁.prime es).Lawful kind .poll ∧
      Agrees met (s.behind out (done.flatMap fun x => x.1.sights)) ((s₁.prime es).step .poll) ∧
      List.Forall₂ Stage.Replays done (s₁.prime es).stages ∧
      (s.world.outlet.Calm out.2.outlet →
        (s₁.prime es).world.outlet.Calm ((s₁.prime es).step .poll).world.outlet) := by
  obtain ⟨hleft, bs, es, hordered, hsound, hshown, hreplay⟩ :=
    hpoll.in_order hrivals hsights (hready.consumer k (.inr hphase))
  obtain ⟨o', hpasses⟩ := Outlet.primed_passes hsound s₁.world.outlet
  have hprimed := hagrees.prime es
  obtain ⟨events', hstages, hpolled⟩ :=
    hreplay (s₁.prime es).world.outlet o' (s₁.prime es).world.events hpasses
  have hphase₁ : (s₁.prime es).consumer.phase = .running k := by rw [hprimed.consumer, hphase]
  rw [← hprimed.world] at hstages hpolled
  rw [← stages_running hphase₁] at hstages
  refine ⟨⟨?_, ?_, hready.origin⟩, es, hkind.reordered hordered _ hready.kind, ?_, ?_, hstages, fun hcalm => ?_⟩
  · simp only [behind, hordered.took.verdict]
    exact hready.kind
  · intro k' hk
    cases hout : out.1 with
    | none => simp [behind, hout] at hk
    | some k₁ =>
        obtain rfl : k₁ = k' := by simpa [behind, hout] using hk
        exact hleft k₁ hout
  · exact fun stage hstage => lawful_of_replays hstages hlawful hstage
  · rw [step_poll_eq hphase₁, hpolled, ← stages_running hphase₁, sights_of_replays hstages]
    refine ⟨hagrees.origin, ?_, ?_, ?_, rfl, rfl, fun n => hordered.delivered hpasses n (hprimed.delivered n)⟩
    · simp only [behind, hprimed.consumer]
    · simp only [behind, hprimed.consumer, hprimed.store]
    · simp only [behind, hprimed.found]
  · rw [step_poll_eq hphase₁, hpolled]
    exact hordered.calm hcalm hshown hpasses

theorem dies_in_order {p : Standing} {paths : List Path} {rest : List (List Path)} {bs : List Batch} {w' : World}
    (hcomes : ComesTo (k.standing s.world) done p) (hnext : p.batches = paths :: rest)
    (hdies : p.tracker.DiesAtOnce paths p.world bs w') (hsights : ∀ x ∈ done, ∀ y ∈ x.1.sights, y ∈ met)
    (hlast : ∀ y ∈ p.tracker.sights p.world.tree paths, y ∈ met)
    (hlawful : ∀ x ∈ done, x.1.world.tree.Grows x.2.tree ∧ Countable x.2.tree) :
    let s' := s.died (p.tracker.store.getD s.store) w'
      ((done.flatMap fun x => x.1.sights) ++ p.tracker.sights p.world.tree paths)
    Ready kind met s' ∧
    ∃ es looks, kind (Outlet.verdicts s₁.world.outlet.offered es) ∧
      (s₁.prime es).Lawful kind (.die done.length looks) ∧
      Agrees met s' ((s₁.prime es).step (.die done.length looks)) := by
  intro s'
  obtain ⟨hapart, bs₀, es, hordered, hsound, -, hreplay⟩ :=
    hcomes.in_order hrivals hsights (hready.consumer k (.inr hphase))
  obtain ⟨fs, hordered', hby, htree, hmemory, hcollect⟩ :=
    hdies.in_order hapart (opened_of_different hrivals hlast)
  have hall := hordered.append hordered'
  obtain ⟨o₁, o₂, hfirst, hsecond⟩ :=
    Outlet.primed_passes_append hsound (sound_of_readers hby false) s₁.world.outlet
  have hprimed := hagrees.prime (es ++ fs)
  obtain ⟨stages, events₁, hstages, hfrom, -⟩ :=
    hreplay (s₁.prime (es ++ fs)).world.outlet o₁ (s₁.prime (es ++ fs)).world.events hfirst
  obtain ⟨events₂, hcollected⟩ := hcollect (o₁.withToken (fs.filterMap shown?)) o₂ events₁ hsecond
  have hphase₁ : (s₁.prime (es ++ fs)).consumer.phase = .running k := by rw [hprimed.consumer, hphase]
  obtain ⟨tail, hnow⟩ := stagesFrom_cons paths rest p.count p.tracker { p.world with outlet := o₁, events := events₁ }
  rw [hnext, hnow] at hfrom
  have hsplit : (s₁.prime (es ++ fs)).stages =
      stages ++ ⟨p.tracker, paths, { p.world with outlet := o₁, events := events₁ }⟩ :: tail := by
    rw [stages_running hphase₁, hprimed.world]
    exact hfrom
  rw [hstages.length_eq]
  refine ⟨⟨?_, hready.origin, hready.origin⟩, es ++ fs, fs.filterMap shown?,
    hkind.reordered hall _ hready.kind, ?_, ?_⟩
  · rw [show s'.world.outlet.verdict = s.world.outlet.verdict from hall.took.verdict]
    exact hready.kind
  · intro stage hstage
    refine lawful_of_replays hstages hlawful ?_
    rwa [hsplit, List.take_left] at hstage
  · rw [step_die_eq hsplit, sights_of_replays hstages, hcollected, hprimed.store]
    refine ⟨hprimed.origin, hprimed.origin, rfl, ?_, htree.symm, hmemory.symm, fun n => ?_⟩
    · rw [died, hprimed.found]
      rfl
    · let w₁ : World := { p.world with outlet := o₁, events := events₁ }
      have hbefore : w₁.delivered met n = p.world.delivered met n := hordered.delivered hfirst n (hprimed.delivered n)
      let w₂ : World := { w₁ with outlet := o₁.withToken (fs.filterMap shown?) }
      have hnow : w₂.delivered met n = p.world.delivered met n := hbefore
      exact hordered'.delivered hsecond n hnow

end Reading

theorem Agrees.lawful (h : Agrees met s s₁) (hidle : a.reads = true → s.polling = false)
    (hlawful : a.reads = false → s.Lawful kind a) : s₁.Lawful kind a := by
  cases a with
  | change tree =>
      rw [Lawful, h.tree]
      exact hlawful rfl
  | emitter => exact hlawful rfl
  | memory | start | stop | rebuild => trivial
  | poll | die =>
      have hnone := stages_idle (h.polling.trans (hidle rfl))
      simp [Lawful, hnone]

theorem ActsAtOnce.found {done : List (Stage × World)} (h : s.ActsAtOnce a done s') : s.met <+: s'.met := by
  cases h with
  | other => exact s.step_met a
  | polls | dies => exact List.prefix_append _ _

theorem RunsAtOnce.found {acts : List Act} (h : RunsAtOnce kind s acts s') : s.met <+: s'.met := by
  induction h with
  | done => exact List.prefix_rfl
  | act hact _ _ ih => exact hact.found.trans ih

/-- An act at once is one in order, behind an act that sets the emitter and the token if it reads. -/
theorem ActsAtOnce.in_order {done : List (Stage × World)} (hkind : Retold kind) (hrivals : NoRivals met)
    (hready : Ready kind met s) (hagrees : Agrees met s s₁) (hmet : s'.met ⊆ met) (h : s.ActsAtOnce a done s')
    (hlawful : s.LawfulAtOnce kind a done) :
    Ready kind met s' ∧ ∃ acts, s₁.Allows (Lawful kind) acts ∧ Agrees met s' (s₁.run acts) ∧
      (a.goesOn = true → ∀ b ∈ acts, b.goesOn = true) := by
  cases h with
  | other hidle =>
      have hone (hreads : a.reads = false) : s.Lawful kind a := by
        rwa [LawfulAtOnce, if_neg (by simp [hreads])] at hlawful
      exact ⟨hready.step hidle hone, [a], ⟨hagrees.lawful hidle hone, trivial⟩, hagrees.step hidle, by simp⟩
  | polls hphase hpoll =>
      obtain ⟨hready', es, hretold, hlawful', hagrees', -⟩ := polls_in_order hkind hrivals hready hagrees hphase hpoll
        (fun x hx y hy => hmet (List.mem_append_right _ (List.mem_flatMap.mpr ⟨x, hx, hy⟩))) hlawful
      refine ⟨hready', [.emitter _ _, .poll], ⟨hretold, hlawful', trivial⟩, hagrees', fun _ b hb => ?_⟩
      rcases List.mem_cons.mp hb with rfl | hb
      · rfl
      · rw [List.mem_singleton.mp hb]
        rfl
  | dies hphase hcomes hnext hdies =>
      obtain ⟨hready', es, looks, hretold, hlawful', hagrees'⟩ := dies_in_order hkind hrivals hready hagrees hphase
        hcomes hnext hdies
        (fun x hx y hy => hmet (List.mem_append_right _ (List.mem_append_left _ (List.mem_flatMap.mpr ⟨x, hx, hy⟩))))
        (fun y hy => hmet (List.mem_append_right _ (List.mem_append_right _ hy))) hlawful
      exact ⟨hready', [.emitter _ _, .die _ looks], ⟨hretold, hlawful', trivial⟩, hagrees', fun hlives => by cases hlives⟩

/-- Whatever happens in a session where batches are read at once, a session in order comes to the same store
and the same consumer, and has the same delivered of every file in the same order. -/
theorem RunsAtOnce.in_order {acts : List Act} (hkind : Retold kind) (hrivals : NoRivals met)
    (hready : Ready kind met s) (hagrees : Agrees met s s₁) (h : RunsAtOnce kind s acts s') (hmet : s'.met ⊆ met) :
    Ready kind met s' ∧ ∃ acts', s₁.Allows (Lawful kind) acts' ∧ Agrees met s' (s₁.run acts') ∧
      ((∀ a ∈ acts, a.goesOn = true) → ∀ a ∈ acts', a.goesOn = true) := by
  induction h generalizing s₁ with
  | done => exact ⟨hready, [], trivial, hagrees, by simp⟩
  | @act s s' s'' a acts done hact hlawful rest ih =>
      obtain ⟨hready', acts₁, hallows, hagrees', hlives⟩ :=
        hact.in_order hkind hrivals hready hagrees (fun x hx => hmet (rest.found.subset hx)) hlawful
      obtain ⟨hready'', acts₂, hallows', hagrees'', hlives'⟩ := ih hready' hagrees' hmet
      refine ⟨hready'', acts₁ ++ acts₂, allows_append.mpr ⟨hallows, hallows'⟩, by rwa [run_append], fun hall b hb => ?_⟩
      obtain ⟨ha, hacts⟩ := List.forall_mem_cons.mp hall
      exact (List.mem_append.mp hb).elim (hlives ha b) (hlives' hacts b)

/-- A poll at once that comes to all its batches, and in which nothing is refused or cancelled. -/
structure UndisturbedAtOnce (s : Session) (k : Tracker) (done : List (Stage × World))
    (out : Option Tracker × World) : Prop where
  running : s.consumer.phase = .running k
  polls : k.PollsAtOnce s.world done out
  completes : done.map (fun x => x.1.paths) = k.batches s.world.tree
  calm : s.world.outlet.Calm out.2.outlet

theorem paths_of_replays {done : List (Stage × World)} {stages : List Stage}
    (h : List.Forall₂ Stage.Replays done stages) : stages.map Stage.paths = done.map fun x => x.1.paths := by
  induction h with
  | nil => rfl
  | cons hone _ ih => rw [List.map_cons, List.map_cons, ih, hone.paths]

theorem RunsAtOnce.undisturbed {acts : List Act} {k : Tracker} {done : List (Stage × World)}
    {out : Option Tracker × World} (hkind : Retold kind) (hrivals : NoRivals met) (hready : Ready kind met s)
    (h : RunsAtOnce kind s acts s') (hpoll : s'.UndisturbedAtOnce k done out)
    (hlawful : s'.LawfulAtOnce kind .poll done)
    (hmet : (s'.behind out (done.flatMap fun x => x.1.sights)).met ⊆ met) :
    ∃ acts' : List Act, s.Allows (Lawful kind) acts' ∧ (s.run acts').Lawful kind .poll ∧
      ((∀ a ∈ acts, a.goesOn = true) → ∀ a ∈ acts', a.goesOn = true) ∧ (s.run acts').Undisturbed k ∧
      List.Forall₂ Stage.Replays done (s.run acts').stages ∧ Agrees met s' (s.run acts') ∧
      Agrees met (s'.behind out (done.flatMap fun x => x.1.sights)) ((s.run acts').step .poll) := by
  obtain ⟨hready', acts', hallows, hagrees, hlives⟩ := h.in_order hkind hrivals hready (Agrees.refl _ s)
    (fun x hx => hmet (List.mem_append_left _ hx))
  obtain ⟨-, es, hretold, hlawful', hagrees', hstages, hcalm⟩ :=
    polls_in_order hkind hrivals hready' hagrees hpoll.running hpoll.polls
      (fun x hx y hy => hmet (List.mem_append_right _ (List.mem_flatMap.mpr ⟨x, hx, hy⟩))) hlawful
  have hprimed := hagrees.prime es
  let emitter : Act := .emitter (Outlet.verdicts (s.run acts').world.outlet.offered es) (es.filterMap shown?)
  have hrun : s.run (acts' ++ [emitter]) = (s.run acts').prime es := run_snoc _ _ _
  refine ⟨acts' ++ [emitter], allows_append.mpr ⟨hallows, hretold, trivial⟩, ?_, fun hall a ha => ?_, ?_, ?_, ?_, ?_⟩
  · rwa [hrun]
  · rcases List.mem_append.mp ha with ha | ha
    · exact hlives hall a ha
    · rw [List.mem_singleton.mp ha]
      rfl
  · have hphase : ((s.run acts').prime es).consumer.phase = .running k := hprimed.consumer ▸ hpoll.running
    rw [hrun]
    refine ⟨hphase, ?_, hcalm hpoll.calm⟩
    rw [Completes, ← stages_running hphase, paths_of_replays hstages, hpoll.completes, hprimed.tree]
  · rwa [hrun]
  · rwa [hrun]
  · rwa [hrun]

theorem retold_mild : Retold Mild := by
  intro v v' hretold hmild i hcrash
  rcases hretold i with haccept | ⟨j, htold⟩
  · rw [hcrash] at haccept
    cases haccept
  · have hj := hmild j
    rw [hcrash] at htold
    cases hv : v j with
    | acceptAndCrash => exact hj hv
    | accept | refuse | acceptAndCancel => simp [hv, Verdict.told] at htold

theorem Fresh.ready {c : Config} (h : s.Fresh c) (haccept : kind fun _ => .accept) : Ready kind met s := by
  have horigin : s.origin.Always fun k => Apart met k.previous :=
    .ofConfig h.built fun _ => List.Pairwise.nil
  exact ⟨by rwa [h.outlet], h.consumer ▸ horigin, horigin⟩

/-- Exactly once, where all files of a batch are read at once: what is delivered of a file are the first of
its records, in their order and each once. -/
theorem RunsAtOnce.delivered_prefix {c : Config} {acts : List Act} (hfresh : s.Fresh c)
    (hbegin : c.startAt = .beginning) (h : RunsAtOnce Mild s acts s') (hlives : ∀ a ∈ acts, a.goesOn = true)
    (hrivals : NoRivals s'.met) (hroom : (filesOf s'.met).length ≤ c.capacity) (n : Nat) :
    s'.world.delivered s'.met n <+: Reader.framed c.maxLogSize (s'.world.tree.content n) := by
  have hvalid := (Consumer.ofConfig_ok hfresh.built).1
  have hpolicy := Policy.fromBeginning_config hbegin
  obtain ⟨-, acts', hlawful, hagrees, hlives'⟩ := h.in_order retold_mild hrivals
    (hfresh.ready fun _ hdies => by cases hdies) (Agrees.refl _ s) (List.Subset.refl _)
  have hends := hlives' hlives
  obtain ⟨files, _, hend⟩ := (run_keeps (once_maintained hrivals hpolicy) hlawful
    (fun a ha hdies => by simp [hends a ha] at hdies) (fun _ hx => hagrees.found ▸ hx)
    (hfresh.once hrivals hroom)).holds
  have hfirst := hend.delivered_prefix n
  rwa [hagrees.delivered, hagrees.tree, Policy.limit_config hvalid] at hfirst

/-- Behind a poll at once that is not disturbed all records of every file that it finds are delivered, each
once. -/
theorem RunsAtOnce.delivered_exactly {c : Config} {acts : List Act} {e : Session} {k : Tracker}
    {done : List (Stage × World)} {out : Option Tracker × World} (hfresh : s.Fresh c)
    (hbegin : c.startAt = .beginning) (h : RunsAtOnce Mild s acts s') (hlives : ∀ a ∈ acts, a.goesOn = true)
    (hpoll : s'.UndisturbedAtOnce k done out) (hlawful : s'.LawfulAtOnce Mild .poll done)
    (hend : s'.behind out (done.flatMap fun x => x.1.sights) = e) (hrivals : NoRivals e.met)
    (hroom : (filesOf e.met).length ≤ c.capacity) {path : Path} (hpath : path ∈ k.matched s'.world.tree) :
    ∃ x ∈ done, path ∈ x.1.paths ∧ ∀ handle, x.1.world.tree.openFile path = .ok handle →
      e.world.tree.content handle.node = x.1.world.tree.content handle.node →
      e.world.delivered e.met handle.node =
        Reader.framed c.maxLogSize (e.world.tree.content handle.node) := by
  have hvalid := (Consumer.ofConfig_ok hfresh.built).1
  have hpolicy := Policy.fromBeginning_config hbegin
  obtain ⟨acts', hallows, hlawful', hlives', hundisturbed, hstages, hbefore, hagrees⟩ :=
    h.undisturbed retold_mild hrivals (hfresh.ready fun _ hdies => by cases hdies) hpoll hlawful
      (hend ▸ List.Subset.refl _)
  rw [hend] at hagrees
  have hends := hlives' hlives
  have hmet : ∀ x ∈ ((s.run acts').step .poll).met, x ∈ e.met := fun _ hx => hagrees.found ▸ hx
  have hkeeps := run_keeps (once_maintained hrivals hpolicy) hallows
    (fun a ha hdies => by simp [hends a ha] at hdies)
    (fun _ hx => hmet _ (((s.run acts').step_met .poll).subset hx)) (hfresh.once hrivals hroom)
  obtain ⟨stage, hstage, hin, hall⟩ := hundisturbed.delivers_exactly hrivals hpolicy hvalid.fingerprintSize_pos
    hlawful' hmet hkeeps (by rwa [hbefore.tree])
  obtain ⟨x, hx, hreplays⟩ := exists_of_forall₂ hstages.flip stage hstage
  rw [hagrees.tree, Policy.limit_config hvalid, hreplays.tree] at hall
  refine ⟨x, hx, hreplays.paths ▸ hin, fun handle hopen hcontent => ?_⟩
  rw [← hagrees.delivered]
  exact hall handle hopen hcontent

/-- At least once, where all files of a batch are read at once and the process dies in the middle of it. -/
theorem RunsAtOnce.delivered_before {c : Config} {acts : List Act} (hfresh : s.Fresh c)
    (hbegin : c.startAt = .beginning) (h : RunsAtOnce (fun _ => True) s acts s') (hrivals : NoRivals s'.met)
    {bs : Bytes} {files : List Metadata} (hheld : s'.store.held s'.world.memory = .ok (some bs))
    (hdecode : Checkpoint.decode bs = .ok files) {e : Metadata} (he : e ∈ files) :
    ∃ n, (n, e.fingerprint) ∈ s'.met ∧ ∀ a ∈ Reader.framed c.maxLogSize (s'.world.tree.content n),
      a.span.offset < e.offset → a ∈ s'.world.delivered s'.met n := by
  have hvalid := (Consumer.ofConfig_ok hfresh.built).1
  have hpolicy := Policy.fromBeginning_config hbegin
  obtain ⟨-, acts', hlawful, hagrees, -⟩ := h.in_order (fun _ _ _ _ => trivial) hrivals (hfresh.ready trivial)
    (Agrees.refl _ s) (List.Subset.refl _)
  have hkeeps := run_keeps (least_maintained hrivals hpolicy) hlawful (fun _ _ _ => least_renewable hfresh.built)
    (fun _ hx => hagrees.found ▸ hx) (hfresh.least _)
  rw [← hagrees.store, ← hagrees.memory] at hheld
  obtain ⟨n, hn, hall⟩ := Least.entries hkeeps hheld hdecode he
  refine ⟨n, hn, fun a ha hlt => ?_⟩
  rw [← Policy.limit_config hvalid, ← hagrees.tree] at ha
  rw [← hagrees.delivered]
  exact hall a ha hlt

theorem RunsAtOnce.delivered_all {c : Config} {acts : List Act} {e : Session} {k : Tracker}
    {done : List (Stage × World)} {out : Option Tracker × World} (hfresh : s.Fresh c)
    (hbegin : c.startAt = .beginning) (h : RunsAtOnce (fun _ => True) s acts s')
    (hpoll : s'.UndisturbedAtOnce k done out) (hlawful : s'.LawfulAtOnce (fun _ => True) .poll done)
    (hend : s'.behind out (done.flatMap fun x => x.1.sights) = e) (hrivals : NoRivals e.met) {path : Path}
    (hpath : path ∈ k.matched s'.world.tree) :
    ∃ x ∈ done, path ∈ x.1.paths ∧ ∀ handle, x.1.world.tree.openFile path = .ok handle →
      ∀ a ∈ Reader.framed c.maxLogSize (x.1.world.tree.content handle.node),
        a ∈ e.world.delivered e.met handle.node := by
  have hvalid := (Consumer.ofConfig_ok hfresh.built).1
  have hpolicy := Policy.fromBeginning_config hbegin
  obtain ⟨acts', hallows, hlawful', -, hundisturbed, hstages, hbefore, hagrees⟩ :=
    h.undisturbed (fun _ _ _ _ => trivial) hrivals (hfresh.ready trivial) hpoll hlawful
      (hend ▸ List.Subset.refl _)
  rw [hend] at hagrees
  have hmet : ∀ x ∈ ((s.run acts').step .poll).met, x ∈ e.met := fun _ hx => hagrees.found ▸ hx
  have hkeeps := run_keeps (least_maintained hrivals hpolicy) hallows (fun _ _ _ => least_renewable hfresh.built)
    (fun _ hx => hmet _ (((s.run acts').step_met .poll).subset hx)) (hfresh.least _)
  obtain ⟨stage, hstage, hin, hall⟩ := hundisturbed.delivers_all hrivals hpolicy hvalid.fingerprintSize_pos
    hlawful' hmet hkeeps (by rwa [hbefore.tree])
  obtain ⟨x, hx, hreplays⟩ := exists_of_forall₂ hstages.flip stage hstage
  rw [Policy.limit_config hvalid, hreplays.tree] at hall
  refine ⟨x, hx, hreplays.paths ▸ hin, fun handle hopen a ha => ?_⟩
  rw [← hagrees.delivered]
  exact hall handle hopen a ha

end Session

end LogTail
