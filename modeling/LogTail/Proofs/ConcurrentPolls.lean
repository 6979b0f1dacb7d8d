import LogTail.Proofs.Sequencing

namespace LogTail

open Exchange

namespace Outlet

/-- An outlet that answers as some exchanges tell, with a token that shows what they tell of it. -/
def primed (o : Outlet) (es : List Exchange) : Outlet :=
  { o.withToken (es.filterMap shown?) with verdict := verdicts o.offered es }

theorem primed_passes_append {es fs : List Exchange} (hes : Sound false es) (hfs : Sound false fs) (o : Outlet) :
    ∃ o₁ o₂, (o.primed (es ++ fs)).Passes es o₁ ∧ (o₁.withToken (fs.filterMap shown?)).Passes fs o₂ := by
  have hnth (i : Nat) (told : Verdict) (htold : ((es ++ fs).filterMap told?)[i]? = some told) :
      (o.primed (es ++ fs)).verdict (o.offered + i) = told := verdicts_eq htold
  obtain ⟨o₁, hfirst, -, hverdict, hoffered⟩ := passes_of_answers (o := o.primed (es ++ fs)) hes
    (fun i told htold => hnth i told (by
      rw [List.filterMap_append]
      exact (List.getElem?_append_left (List.getElem?_eq_some_iff.mp htold).1).trans htold))
    List.filterMap_append
  have hoffered : o₁.offered = o.offered + (es.filterMap told?).length := hoffered
  obtain ⟨o₂, hsecond, -⟩ := passes_of_answers (o := o₁.withToken (fs.filterMap shown?)) hfs
    (fun i told htold => by
      have hshifted := hnth ((es.filterMap told?).length + i) told (by
        rw [List.filterMap_append, List.getElem?_append_right (Nat.le_add_right _ _), Nat.add_sub_cancel_left]
        exact htold)
      rwa [← Nat.add_assoc, ← hoffered, ← hverdict] at hshifted)
    (List.append_nil _).symm
  exact ⟨o₁, o₂, hfirst, hsecond⟩

theorem primed_passes {es : List Exchange} (h : Sound false es) (o : Outlet) :
    ∃ o', (o.primed es).Passes es o' := by
  obtain ⟨o', _, hpasses, -⟩ := primed_passes_append h (show Sound false [] from trivial) o
  exact ⟨o', by rwa [List.append_nil] at hpasses⟩

end Outlet

theorem Reordered.calm {met : List (Nat × Fingerprint)} {o o' o₁ : Outlet} {bs : List Batch}
    {es : List Exchange} (h : Reordered met o o' bs es) (hcalm : o.Calm o')
    (hshown : (es.filterMap shown?).any id = true → o'.cancelled = true) {past : Outlet}
    (hpasses : (past.primed es).Passes es o₁) : (past.primed es).Calm o₁ := by
  refine hpasses.calm rfl (fun i => ?_) (Bool.eq_false_iff.mpr fun hany => ?_)
  · rcases h.retold past.offered i with haccept | ⟨j, hj, hlt, htold⟩
    · exact haccept
    · exact htold.trans (by rw [hcalm.accepting j hj hlt]; rfl)
  · exact Bool.eq_false_iff.mp hcalm.intact (hshown hany)

namespace Tracker

variable {met : List (Nat × Fingerprint)} {k k' : Tracker} {paths : List Path} {w w' : World}

theorem opened_of_different (hrivals : NoRivals met) (hsights : ∀ x ∈ k.sights w.tree paths, x ∈ met) :
    Apart met (k.opened paths w).readers.reverse := by
  refine (k.opened_apart paths w).imp_of_mem fun {a b} ha hb hne n hna hnb => hne ?_
  have hfile {r : Reader} (hr : r ∈ (k.opened paths w).readers.reverse) (hn : (n, r.fingerprint) ∈ met) :
      (n, r.fingerprint) ∈ k.sights w.tree paths := by
    obtain ⟨path, hpath, h, hid, -⟩ := opened_reader (List.mem_reverse.mp hr)
    have hsight := mem_sights hpath hid
    rwa [hrivals.same (hsights _ hsight) hn (Fingerprint.startsWith_refl (identify_some hid).2.filled)] at hsight
  exact fingerprint_unique (hfile ha hna) (hfile hb hnb)

theorem readBatch_apart (hreaders : Apart met (k.opened paths w).readers.reverse)
    (hread : (k.readBatch paths w).1 = some k') : Apart met k'.previous := by
  have hprevious : k'.previous = (k.collect paths w).1.previous := by
    have hsaved : k' = { (k.collect paths w).1.trim with store := k'.store } := save_tracker hread
    rw [hsaved]
    rfl
  have hsub :=
    drain_sublist (k.opened paths w).readers.reverse (drain (k.opened paths w).lost (k.opened paths w).world).2
  rw [hprevious, collect_eq]
  rw [Apart, ← List.pairwise_map (f := Reader.fingerprint)
    (R := fun f g => ∀ n, (n, f) ∈ met → (n, g) ∉ met)] at hreaders ⊢
  exact hreaders.sublist hsub

structure Standing where
  batches : List (List Path)
  count : Nat
  tracker : Tracker
  world : World

/-- The stages that a poll leaves behind it, each with what reading it at once left. -/
inductive ComesTo : Standing → List (Stage × World) → Standing → Prop
  | here (p : Standing) : ComesTo p [] p
  | next {batch next : List Path} {batches : List (List Path)} {count : Nat} {k k' : Tracker} {w w' : World}
      {lost built : List (Nat × Batch)} {o : Outlet} {done : List (Stage × World)} {p : Standing}
      (hread : k.ReadsAtOnce batch w lost built (some k', w'))
      (hmore : reached k'.settings.maxBatches (count + 1) = false)
      (hlook : w'.outlet.lookJoined = (false, o))
      (rest : ComesTo ⟨next :: batches, count + 1, k', { w' with outlet := o }⟩ done p) :
      ComesTo ⟨batch :: next :: batches, count, k, w⟩ ((⟨k, batch, w⟩, w') :: done) p

/-- How a poll ends that reads its last batch at once: there are no more, the store crashes, the poll did
as many as it may, or the token is cancelled. -/
inductive EndsAt : Standing → Stage × World → Option Tracker × World → Prop
  | last {batch : List Path} {count : Nat} {k k' : Tracker} {w w' : World} {lost built : List (Nat × Batch)}
      (hread : k.ReadsAtOnce batch w lost built (some k', w')) :
      EndsAt ⟨[batch], count, k, w⟩ (⟨k, batch, w⟩, w') (some k'.readFromBeginning, w')
  | crashed {batch : List Path} {batches : List (List Path)} {count : Nat} {k : Tracker} {w w' : World}
      {lost built : List (Nat × Batch)} (hread : k.ReadsAtOnce batch w lost built (none, w')) :
      EndsAt ⟨batch :: batches, count, k, w⟩ (⟨k, batch, w⟩, w') (none, w')
  | limited {batch next : List Path} {batches : List (List Path)} {count : Nat} {k k' : Tracker} {w w' : World}
      {lost built : List (Nat × Batch)} (hread : k.ReadsAtOnce batch w lost built (some k', w'))
      (hreached : reached k'.settings.maxBatches (count + 1) = true) :
      EndsAt ⟨batch :: next :: batches, count, k, w⟩ (⟨k, batch, w⟩, w') (some k', w')
  | cancelled {batch next : List Path} {batches : List (List Path)} {count : Nat} {k k' : Tracker}
      {w w' : World} {lost built : List (Nat × Batch)} {o : Outlet}
      (hread : k.ReadsAtOnce batch w lost built (some k', w'))
      (hmore : reached k'.settings.maxBatches (count + 1) = false)
      (hlook : w'.outlet.lookJoined = (true, o)) :
      EndsAt ⟨batch :: next :: batches, count, k, w⟩ (⟨k, batch, w⟩, w') (some k', { w' with outlet := o })

structure Stage.Replays (x : Stage × World) (s : Stage) : Prop where
  tracker : s.tracker = x.1.tracker
  paths : s.paths = x.1.paths
  tree : s.world.tree = x.1.world.tree
  behind : s.read.2.tree = x.2.tree

theorem ReadsAtOnce.replays {lost built : List (Nat × Batch)} {out : Option Tracker × World}
    (hrivals : NoRivals met) (hsights : ∀ x ∈ (⟨k, paths, w⟩ : Stage).sights, x ∈ met)
    (hprevious : Apart met k.previous) (h : k.ReadsAtOnce paths w lost built out) :
    (∀ k', out.1 = some k' → Apart met k'.previous) ∧
    ∃ bs es, Reordered met w.outlet out.2.outlet bs es ∧ (∀ e ∈ es, e.ByReader) ∧
      (.look true ∈ es → out.2.outlet.cancelled = true) ∧
      ∀ o o' events, o.Passes es o' → ∃ events', k.readBatch paths { w with outlet := o, events } =
        (out.1, { out.2 with outlet := o', events := events' }) ∧
        Stage.Replays (⟨k, paths, w⟩, out.2) ⟨k, paths, { w with outlet := o, events }⟩ := by
  have hreaders := opened_of_different hrivals hsights
  obtain ⟨es, hordered, hby, hshown, hread⟩ := h.in_order hprevious hreaders
  refine ⟨fun k' hk' => ?_, _, es, hordered, hby, hshown, fun o o' events hpasses => ?_⟩
  · obtain ⟨o', hpasses⟩ := Outlet.primed_passes (sound_of_readers hby false) w.outlet
    obtain ⟨events', hread⟩ := hread _ o' w.events hpasses
    have hlive : (k.readBatch paths { w with outlet := w.outlet.primed es }).1 = some k' :=
      (congrArg Prod.fst hread).trans hk'
    exact readBatch_apart (w := { w with outlet := w.outlet.primed es }) (opened_of_different hrivals hsights) hlive
  · obtain ⟨events', hread⟩ := hread o o' events hpasses
    exact ⟨events', hread, rfl, rfl, rfl, congrArg (fun out => out.2.tree) hread⟩

theorem readBatches_next {batch : List Path} {o : Outlet} (next : List Path) (batches : List (List Path))
    (count : Nat) (hread : k.readBatch batch w = (some k', w'))
    (hmore : reached k'.settings.maxBatches (count + 1) = false)
    (hlook : w'.outlet.lookJoined = (false, o)) :
    stagesFrom (batch :: next :: batches) count k w =
        ⟨k, batch, w⟩ :: stagesFrom (next :: batches) (count + 1) k' { w' with outlet := o } ∧
      readBatches (batch :: next :: batches) count k w =
        readBatches (next :: batches) (count + 1) k' { w' with outlet := o } := by
  simp [stagesFrom, readBatches, hread, hmore, hlook]

theorem ComesTo.in_order {p p' : Standing} {done : List (Stage × World)} (hrivals : NoRivals met)
    (h : ComesTo p done p') (hsights : ∀ x ∈ done, ∀ y ∈ x.1.sights, y ∈ met)
    (hprevious : Apart met p.tracker.previous) :
    Apart met p'.tracker.previous ∧
    ∃ bs es, Reordered met p.world.outlet p'.world.outlet bs es ∧ Sound false es ∧
      (es.filterMap shown?).any id = false ∧
      ∀ o o' events, o.Passes es o' → ∃ stages events', List.Forall₂ Stage.Replays done stages ∧
        stagesFrom p.batches p.count p.tracker { p.world with outlet := o, events } =
          stages ++ stagesFrom p'.batches p'.count p'.tracker { p'.world with outlet := o', events := events' } ∧
        readBatches p.batches p.count p.tracker { p.world with outlet := o, events } =
          readBatches p'.batches p'.count p'.tracker { p'.world with outlet := o', events := events' } := by
  induction h with
  | here p =>
      refine ⟨hprevious, [], [], .refl met _, trivial, rfl, fun o o' events hpasses => ?_⟩
      rw [hpasses]
      exact ⟨[], events, .nil, rfl, rfl⟩
  | @next batch next batches count k k' w w' lost built o₀ done p hread hmore hlook rest ih =>
      obtain ⟨hfirst, hrest⟩ := List.forall_mem_cons.mp hsights
      obtain ⟨hleft, bs, es, hordered, hby, hshown, hreplay⟩ := hread.replays hrivals hfirst hprevious
      obtain ⟨hapart, cs, fs, hordered', hsound, hquiet, hreplay'⟩ := ih hrest (hleft k' rfl)
      have hjoined := Reordered.joined met w'.outlet false
      rw [show w'.outlet.look.2 = o₀ from congrArg Prod.snd hlook] at hjoined
      have hintact : (es.filterMap shown?).any id = false := by
        have hcancelled := Outlet.cancelled_of_lookJoined (congrArg Prod.fst hlook)
        refine Bool.eq_false_iff.mpr fun hany => ?_
        exact Bool.eq_false_iff.mp hcancelled (hshown ((any_shown_iff hby).mp hany))
      refine ⟨hapart, _, es ++ ([.joined false] ++ fs), hordered.append (hjoined.append hordered'), ?_, ?_,
        fun o o' events hpasses => ?_⟩
      · refine (sound_of_readers hby false).append ?_
        rw [hintact]
        exact ⟨(fun hc => by cases hc), hsound⟩
      · rw [List.filterMap_append, List.any_append, hintact]
        exact hquiet
      · obtain ⟨o₁, hbatch, hlook', hthen⟩ := Outlet.passes_append.mp hpasses
        obtain ⟨events₁, hread', hstage⟩ := hreplay o o₁ events hbatch
        obtain ⟨stages, events', hstages, hfrom, hend⟩ := hreplay' o₁.lookJoined.2 o' events₁ hthen
        obtain ⟨hone, hone'⟩ := readBatches_next next batches count hread' hmore
          (Prod.ext hlook' rfl)
        exact ⟨_ :: stages, events', .cons hstage hstages, by rw [hone, hfrom]; rfl, by rw [hone', hend]⟩

theorem EndsAt.in_order {p : Standing} {x : Stage × World} {out : Option Tracker × World}
    (hrivals : NoRivals met) (h : EndsAt p x out) (hsights : ∀ y ∈ x.1.sights, y ∈ met)
    (hprevious : Apart met p.tracker.previous) :
    (∀ k', out.1 = some k' → Apart met k'.previous) ∧
    ∃ bs es, Reordered met p.world.outlet out.2.outlet bs es ∧ Sound false es ∧
      ((es.filterMap shown?).any id = true → out.2.outlet.cancelled = true) ∧
      ∀ o o' events, o.Passes es o' → ∃ stage events', Stage.Replays x stage ∧
        stagesFrom p.batches p.count p.tracker { p.world with outlet := o, events } = [stage] ∧
        readBatches p.batches p.count p.tracker { p.world with outlet := o, events } =
          (out.1, { out.2 with outlet := o', events := events' }) := by
  cases h with
  | @last batch count k k' w w' _ _ hread =>
      obtain ⟨hleft, bs, es, hordered, hby, hshown, hreplay⟩ := hread.replays hrivals hsights hprevious
      refine ⟨fun _ hk => Option.some.inj hk ▸ hleft k' rfl, bs, es, hordered, sound_of_readers hby false,
        hshown ∘ (any_shown_iff hby).mp, fun o o' events hpasses => ?_⟩
      obtain ⟨events', hread', hstage⟩ := hreplay o o' events hpasses
      exact ⟨_, events', hstage, rfl, by simp [readBatches, hread']⟩
  | @crashed batch batches count k w w' _ _ hread =>
      obtain ⟨-, bs, es, hordered, hby, hshown, hreplay⟩ := hread.replays hrivals hsights hprevious
      refine ⟨(fun _ hk => by cases hk), bs, es, hordered, sound_of_readers hby false, hshown ∘ (any_shown_iff hby).mp,
        fun o o' events hpasses => ?_⟩
      obtain ⟨events', hread', hstage⟩ := hreplay o o' events hpasses
      refine ⟨_, events', hstage, ?_⟩
      cases batches with
      | nil | cons => simp [stagesFrom, readBatches, hread']
  | @limited batch next batches count k k' w w' _ _ hread hreached =>
      obtain ⟨hleft, bs, es, hordered, hby, hshown, hreplay⟩ := hread.replays hrivals hsights hprevious
      refine ⟨hleft, bs, es, hordered, sound_of_readers hby false, hshown ∘ (any_shown_iff hby).mp,
        fun o o' events hpasses => ?_⟩
      obtain ⟨events', hread', hstage⟩ := hreplay o o' events hpasses
      exact ⟨_, events', hstage, by simp [stagesFrom, readBatches, hread', hreached]⟩
  | @cancelled batch next batches count k k' w w' _ _ o₀ hread hmore hlook =>
      obtain ⟨hleft, bs, es, hordered, hby, -, hreplay⟩ := hread.replays hrivals hsights hprevious
      have hjoined := Reordered.joined met w'.outlet true
      rw [show w'.outlet.look.2 = o₀ from congrArg Prod.snd hlook] at hjoined
      refine ⟨hleft, _, es ++ [.joined true], hordered.append hjoined,
        (sound_of_readers hby false).append ?_, fun _ => ?_, fun o o' events hpasses => ?_⟩
      · exact ⟨fun _ => rfl, trivial⟩
      · injection hlook with hshown hleft
        rwa [hleft] at hshown
      obtain ⟨o₁, hbatch, hlook', hthen⟩ := Outlet.passes_append.mp hpasses
      obtain ⟨events', hread', hstage⟩ := hreplay o o₁ events hbatch
      have hjoin : o₁.lookJoined = (true, o') := Prod.ext hlook' (Eq.symm hthen)
      exact ⟨_, events', hstage, by simp [stagesFrom, readBatches, hread', hmore, hjoin]⟩

theorem stagesFrom_cons (batch : List Path) (batches : List (List Path)) (count : Nat) (k : Tracker) (w : World) :
    ∃ tail, stagesFrom (batch :: batches) count k w = ⟨k, batch, w⟩ :: tail := by
  cases batches with
  | nil => exact ⟨[], rfl⟩
  | cons next batches => exact ⟨_, rfl⟩

def standing (k : Tracker) (w : World) : Standing := ⟨k.batches w.tree, 0, { k with gathered := [] }, w⟩

/-- A poll that reads each batch at once, with the stages that it comes to and what each of them leaves. -/
def PollsAtOnce (k : Tracker) (w : World) (done : List (Stage × World)) (out : Option Tracker × World) : Prop :=
  ∃ front p last, ComesTo (k.standing w) front p ∧ EndsAt p last out ∧ done = front ++ [last]

theorem ends_or_goes_on (batch : List Path) (batches : List (List Path)) (count : Nat) (k : Tracker)
    (w : World) :
    (EndsAt ⟨batch :: batches, count, k, w⟩ (⟨k, batch, w⟩, (k.readBatch batch w).2)
        (readBatches (batch :: batches) count k w) ∧
      stagesFrom (batch :: batches) count k w = [⟨k, batch, w⟩]) ∨
    ∃ next rest k' w' o, batches = next :: rest ∧ k.readBatch batch w = (some k', w') ∧
      reached k'.settings.maxBatches (count + 1) = false ∧ w'.outlet.lookJoined = (false, o) := by
  obtain ⟨lost, built, hread⟩ := k.readBatch_at_once batch w
  cases hb : k.readBatch batch w with
  | mk k' w' =>
      rw [hb] at hread
      cases k' with
      | none =>
          left
          cases batches with
          | nil | cons => exact ⟨by simpa [readBatches, hb] using EndsAt.crashed hread, by simp [stagesFrom, hb]⟩
      | some k' =>
          cases batches with
          | nil => exact .inl ⟨by simpa [readBatches, hb] using EndsAt.last hread, rfl⟩
          | cons next rest =>
              cases hmore : reached k'.settings.maxBatches (count + 1) with
              | true =>
                  exact .inl ⟨by simpa [readBatches, hb, hmore] using EndsAt.limited hread hmore,
                    by simp [stagesFrom, hb, hmore]⟩
              | false =>
                  cases hlook : w'.outlet.lookJoined with
                  | mk shown o =>
                      cases shown with
                      | true =>
                          exact .inl ⟨by simpa [readBatches, hb, hmore, hlook] using
                            EndsAt.cancelled hread hmore hlook, by simp [stagesFrom, hb, hmore, hlook]⟩
                      | false => exact .inr ⟨next, rest, k', w', o, rfl, rfl, hmore, hlook⟩

/-- A poll in order is one way to poll at once. -/
theorem poll_at_once (k : Tracker) (w : World) :
    k.PollsAtOnce w ((k.stages w).map fun stage => (stage, stage.read.2)) (k.poll w) := by
  suffices hall : ∀ (batches : List (List Path)) (count : Nat) (k : Tracker) (w : World), batches ≠ [] →
      ∃ front p last, ComesTo ⟨batches, count, k, w⟩ front p ∧ EndsAt p last (readBatches batches count k w) ∧
        (stagesFrom batches count k w).map (fun stage => (stage, stage.read.2)) = front ++ [last] from
    hall (k.batches w.tree) 0 { k with gathered := [] } w (chunks_ne_nil _ _)
  intro batches
  induction batches with
  | nil => exact fun _ _ _ h => absurd rfl h
  | cons batch batches ih =>
      intro count k w _
      rcases ends_or_goes_on batch batches count k w with
        ⟨hends, hstages⟩ | ⟨next, rest, k', w', o, rfl, hb, hmore, hlook⟩
      · exact ⟨[], _, _, .here _, hends, by rw [hstages]; rfl⟩
      · obtain ⟨front, p, last, hcomes, hends, hdone⟩ :=
          ih (count + 1) k' { w' with outlet := o } (List.cons_ne_nil _ _)
        obtain ⟨hfrom, hpolled⟩ := readBatches_next next rest count hb hmore hlook
        obtain ⟨lost, built, hread⟩ := k.readBatch_at_once batch w
        rw [hb] at hread
        rw [hpolled, hfrom, List.map_cons, hdone, Stage.read, hb]
        exact ⟨_, p, last, .next hread hmore hlook hcomes, hends, rfl⟩

/-- Whatever the emitter and the token do while a poll reads at once, there are answers of an emitter and
looks at a token with which a poll in order comes to the same. -/
theorem PollsAtOnce.in_order {done : List (Stage × World)} {out : Option Tracker × World} (hrivals : NoRivals met)
    (h : k.PollsAtOnce w done out) (hsights : ∀ x ∈ done, ∀ y ∈ x.1.sights, y ∈ met)
    (hprevious : Apart met k.previous) :
    (∀ k', out.1 = some k' → Apart met k'.previous) ∧
    ∃ bs es, Reordered met w.outlet out.2.outlet bs es ∧ Sound false es ∧
      ((es.filterMap shown?).any id = true → out.2.outlet.cancelled = true) ∧
      ∀ o o' events, o.Passes es o' → ∃ events',
        List.Forall₂ Stage.Replays done (k.stages { w with outlet := o, events }) ∧
        k.poll { w with outlet := o, events } = (out.1, { out.2 with outlet := o', events := events' }) := by
  obtain ⟨front, p, last, hcomes, hends, rfl⟩ := h
  obtain ⟨hfront, hlast⟩ := List.forall_mem_append.mp hsights
  obtain ⟨hapart, bs, es, hordered, hsound, hquiet, hreplay⟩ := hcomes.in_order hrivals hfront hprevious
  obtain ⟨hleft, cs, fs, hordered', hsound', hshown, hreplay'⟩ :=
    hends.in_order hrivals (hlast last (List.mem_singleton_self _)) hapart
  refine ⟨hleft, _, es ++ fs, hordered.append hordered', hsound.append (by rwa [hquiet]), fun hany => ?_,
    fun o o' events hpasses => ?_⟩
  · rw [List.filterMap_append, List.any_append, hquiet] at hany
    exact hshown hany
  obtain ⟨o₁, hfirst, hsecond⟩ := Outlet.passes_append.mp hpasses
  obtain ⟨stages, events₁, hstages, hfrom, hend⟩ := hreplay o o₁ events hfirst
  obtain ⟨stage, events₂, hstage, hfrom', hend'⟩ := hreplay' o₁ o' events₁ hsecond
  refine ⟨events₂, ?_, ?_⟩
  · rw [show k.stages { w with outlet := o, events } = stages ++ [stage] from hfrom.trans (by rw [hfrom'])]
    exact List.rel_append hstages (.cons hstage .nil)
  · exact hend.trans hend'

end Tracker

end LogTail
