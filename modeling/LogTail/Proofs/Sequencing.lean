import LogTail.Proofs.Interleaving
import LogTail.Proofs.Openings
import LogTail.Proofs.Ledger

namespace LogTail

open Tracker

namespace Exchange

def told? : Exchange → Option Verdict
  | .offer _ told => some told
  | .look _ | .joined _ => none

def shown? : Exchange → Option Bool
  | .look shown | .joined shown => some shown
  | .offer _ _ => none

/-- Exchanges that may pass if the token is known to be cancelled or not: from then on no look between
batches finds it intact. -/
def Sound : Bool → List Exchange → Prop
  | _, [] => True
  | cancelled, .offer _ told :: es => told.told = told ∧ Sound cancelled es
  | cancelled, .look shown :: es => Sound (cancelled || shown) es
  | cancelled, .joined shown :: es => (cancelled = true → shown = true) ∧ Sound (cancelled || shown) es

theorem Sound.append {c : Bool} {es es' : List Exchange} (h : Sound c es)
    (h' : Sound (c || (es.filterMap shown?).any id) es') : Sound c (es ++ es') := by
  induction es generalizing c with
  | nil => simpa using h'
  | cons e es ih =>
      cases e with
      | offer => exact ⟨h.1, ih h.2 h'⟩
      | look shown => exact ih h (by simpa [shown?, Bool.or_assoc] using h')
      | joined shown => exact ⟨h.1, ih h.2 (by simpa [shown?, Bool.or_assoc] using h')⟩

theorem sound_of_readers {es : List Exchange} (h : ∀ e ∈ es, e.ByReader) (c : Bool) : Sound c es := by
  induction es generalizing c with
  | nil => trivial
  | cons e es ih =>
      obtain ⟨he, hes⟩ := List.forall_mem_cons.mp h
      cases e with
      | offer => exact ⟨he, ih hes c⟩
      | look shown => exact ih hes _
      | joined => exact he.elim

theorem any_shown_iff {es : List Exchange} (h : ∀ e ∈ es, e.ByReader) :
    (es.filterMap shown?).any id = true ↔ .look true ∈ es := by
  rw [List.any_eq_true]
  constructor
  · rintro ⟨shown, hmem, rfl⟩
    obtain ⟨e, he, hshown⟩ := List.mem_filterMap.mp hmem
    cases e with
    | offer => cases hshown
    | look shown =>
        cases hshown
        exact he
    | joined => exact (h _ he).elim
  · exact fun hmem => ⟨true, List.mem_filterMap.mpr ⟨_, hmem, rfl⟩, rfl⟩

end Exchange

open Exchange

namespace Outlet

variable {o : Outlet} {es : List Exchange} {rest : List Bool}

theorem look_of_looks {shown : Bool} (h : o.looks = shown :: rest) :
    o.look = (shown, { o with looks := rest, cancelled := o.cancelled || shown }) := by
  rw [look, h]

theorem offer_token (b : Batch) (h : (o.verdict o.offered).told = o.verdict o.offered) :
    (o.offer b).2.looks = o.looks ∧ (o.offer b).2.cancelled = o.cancelled := by
  rw [offer]
  cases hnow : o.verdict o.offered with
  | accept | refuse | acceptAndCrash => exact ⟨rfl, rfl⟩
  | acceptAndCancel => rw [hnow] at h; cases h

theorem passes_of_answers (hsound : Sound o.cancelled es)
    (hverdict : ∀ i told, (es.filterMap told?)[i]? = some told → o.verdict (o.offered + i) = told)
    (hlooks : o.looks = es.filterMap shown? ++ rest) :
    ∃ o', o.Passes es o' ∧ o'.looks = rest ∧ o'.verdict = o.verdict ∧
      o'.offered = o.offered + (es.filterMap told?).length := by
  induction es generalizing o with
  | nil => exact ⟨o, rfl, hlooks, rfl, rfl⟩
  | cons e es ih =>
      cases e with
      | offer b told =>
          have hnow : o.verdict o.offered = told := hverdict 0 told rfl
          have hlater (i : Nat) (v : Verdict) (hv : (es.filterMap told?)[i]? = some v) :
              o.verdict (o.offered + 1 + i) = v := by
            rw [Nat.add_assoc, Nat.add_comm 1]
            exact hverdict (i + 1) v hv
          -- the reader is told the verdict itself, since the token is not cancelled by it
          obtain ⟨hlooks', hcancelled⟩ := o.offer_token b (by rw [hnow]; exact hsound.1)
          have hsame := (o.took_offer b).verdict
          have hoffered := o.offered_offer b
          obtain ⟨o', hpasses, hrest, hverdict', hoffered'⟩ := ih (o := (o.offer b).2)
            (by rw [hcancelled]; exact hsound.2) (by rw [hsame, hoffered]; exact hlater)
            (by rw [hlooks', hlooks]; rfl)
          refine ⟨o', ⟨by rw [verdict_offer, hnow, hsound.1], hpasses⟩, hrest, hverdict'.trans hsame, ?_⟩
          have hlen : ((Exchange.offer b told :: es).filterMap told?).length =
              (es.filterMap told?).length + 1 := rfl
          omega
      | look shown =>
          have hlook := look_of_looks (show o.looks = shown :: (es.filterMap shown? ++ rest) from hlooks)
          obtain ⟨o', hpasses, hrest, hverdict', hoffered'⟩ := ih (o := o.look.2) (by rw [hlook]; exact hsound)
            (by rw [hlook]; exact hverdict) (by rw [hlook])
          rw [hlook] at hverdict' hoffered'
          exact ⟨o', ⟨by rw [hlook], hpasses⟩, hrest, hverdict', hoffered'⟩
      | joined shown =>
          have hlook := look_of_looks (show o.looks = shown :: (es.filterMap shown? ++ rest) from hlooks)
          obtain ⟨o', hpasses, hrest, hverdict', hoffered'⟩ := ih (o := o.look.2) (by rw [hlook]; exact hsound.2)
            (by rw [hlook]; exact hverdict) (by rw [hlook])
          rw [hlook] at hverdict' hoffered'
          refine ⟨o', ⟨?_, hpasses⟩, hrest, hverdict', hoffered'⟩
          rw [lookJoined, hlook]
          cases hcancelled : o.cancelled with
          | false => rfl
          | true => simp [hsound.1 hcancelled]

theorem Passes.calm {o' : Outlet} (h : o.Passes es o') (hintact : o.cancelled = false)
    (haccept : ∀ i, o.verdict i = .accept) (hquiet : (es.filterMap shown?).any id = false) : o.Calm o' := by
  refine ⟨?_, fun i _ _ => haccept i⟩
  induction es generalizing o with
  | nil =>
      rw [h]
      exact hintact
  | cons e es ih =>
      cases e with
      | offer b told =>
          have htaken : (o.offer b).2 = o.take b := by rw [offer, haccept]
          exact ih h.2 (by rw [htaken]; exact hintact) (by rw [htaken]; exact haccept) hquiet
      | look shown =>
          obtain ⟨hshown, hquiet⟩ := Bool.or_eq_false_iff.mp hquiet
          have hleft : o.look.2.cancelled = false := by rw [cancelled_look, hintact, h.1.trans hshown]; rfl
          exact ih h.2 hleft (o.took_look.verdict ▸ haccept) hquiet
      | joined shown =>
          obtain ⟨hshown, hquiet⟩ := Bool.or_eq_false_iff.mp hquiet
          exact ih h.2 (h.1.trans hshown) (o.took_look.verdict ▸ haccept) hquiet

def verdicts (past : Nat) (es : List Exchange) (i : Nat) : Verdict :=
  ((es.filterMap told?)[i - past]?).getD .accept

theorem verdicts_eq {past i : Nat} {told : Verdict} (h : (es.filterMap told?)[i]? = some told) :
    verdicts past es (past + i) = told := by
  rw [verdicts, Nat.add_sub_cancel_left, h]
  rfl

end Outlet

def Apart (met : List (Nat × Fingerprint)) (rs : List Reader) : Prop :=
  rs.Pairwise fun a b => ∀ n, (n, a.fingerprint) ∈ met → (n, b.fingerprint) ∉ met

theorem Apart.others {met : List (Nat × Fingerprint)} {front back : List Reader} {r : Reader} {n : Nat}
    (h : Apart met (front ++ r :: back)) (hn : (n, r.fingerprint) ∈ met) :
    (∀ a ∈ front, (n, a.fingerprint) ∉ met) ∧ ∀ a ∈ back, (n, a.fingerprint) ∉ met := by
  obtain ⟨-, hback, hfront⟩ := List.pairwise_append.mp h
  exact ⟨fun a ha ha' => hfront a ha r List.mem_cons_self n ha' hn,
    fun a ha => (List.pairwise_cons.mp hback).1 a ha n hn⟩

/-- What passes in order in place of what passed between two states of an outlet. -/
structure Reordered (met : List (Nat × Fingerprint)) (o o' : Outlet) (bs : List Batch)
    (es : List Exchange) : Prop where
  took : o.Took o' bs
  same : SameOf met bs (es.filterMap accepted?)
  told {b : Batch} {told : Verdict} :
    .offer b told ∈ es → ∃ i, o.offered ≤ i ∧ i < o'.offered ∧ told = (o.verdict i).told

theorem Reordered.refl (met : List (Nat × Fingerprint)) (o : Outlet) : Reordered met o o [] [] :=
  ⟨.refl o, fun _ => rfl, fun hmem => by cases hmem⟩

theorem Reordered.joined (met : List (Nat × Fingerprint)) (o : Outlet) (shown : Bool) :
    Reordered met o o.look.2 [] [.joined shown] :=
  ⟨o.took_look, fun _ => rfl, fun hmem => by cases List.mem_singleton.mp hmem⟩

theorem Reordered.append {met : List (Nat × Fingerprint)} {o o' o'' : Outlet} {bs cs : List Batch}
    {es fs : List Exchange} (h : Reordered met o o' bs es) (h' : Reordered met o' o'' cs fs) :
    Reordered met o o'' (bs ++ cs) (es ++ fs) where
  took := h.took.trans h'.took
  same := by
    rw [List.filterMap_append]
    exact h.same.append h'.same
  told hmem := by
    rcases List.mem_append.mp hmem with hmem | hmem
    · obtain ⟨i, hi, hlt, htold⟩ := h.told hmem
      exact ⟨i, hi, Nat.lt_of_lt_of_le hlt h'.took.offered, htold⟩
    · obtain ⟨i, hi, hlt, htold⟩ := h'.told hmem
      exact ⟨i, Nat.le_trans h.took.offered hi, hlt, h.took.verdict ▸ htold⟩

theorem Reordered.delivered {met : List (Nat × Fingerprint)} {w w' w₁ w₁' : World} {bs : List Batch}
    {es : List Exchange} (h : Reordered met w.outlet w'.outlet bs es) (hpasses : w₁.outlet.Passes es w₁'.outlet)
    (n : Nat) (hsame : w₁.delivered met n = w.delivered met n) :
    w₁'.delivered met n = w'.delivered met n := by
  rw [delivered_took h.took, delivered_took hpasses.took, hsame, h.same n]

theorem Reordered.retold {met : List (Nat × Fingerprint)} {o o' : Outlet} {bs : List Batch}
    {es : List Exchange} (h : Reordered met o o' bs es) (past i : Nat) :
    Outlet.verdicts past es i = .accept ∨
      ∃ j, o.offered ≤ j ∧ j < o'.offered ∧ Outlet.verdicts past es i = (o.verdict j).told := by
  unfold Outlet.verdicts
  cases hnth : (es.filterMap told?)[i - past]? with
  | none => exact .inl rfl
  | some told =>
      obtain ⟨e, he, htold⟩ := List.mem_filterMap.mp (List.mem_of_getElem? hnth)
      cases e with
      | look | joined => cases htold
      | offer b told' =>
          cases htold
          exact .inr (h.told he)

namespace Interleaves

variable {tasks : List ReadTask} {rs : List Reader} {w w' : World} {trace : List (Nat × Batch)}
  {left : List (Option Reader)} {cut : List Exchange} {cs : List Course} {es : List Exchange}

theorem stamped {t : FileTree} {r : Reader} {c : Course} (h : ReadTask.Takes t (.waiting r) c)
    (hreaders : ∀ e ∈ c.exchanges, e.ByReader) {b : Batch} (hb : b ∈ c.accepted) :
    b.metadata.fingerprint = r.fingerprint := by
  -- in an outlet that answers so, it takes just this course
  let o := Outlet.answering (Outlet.verdicts 0 c.exchanges) (c.exchanges.filterMap shown?)
  obtain ⟨o', hpasses, -⟩ := Outlet.passes_of_answers (o := o) (sound_of_readers hreaders false)
    (fun i told htold => Outlet.verdicts_eq htold) (List.append_nil _).symm
  obtain ⟨events, hdrained⟩ := h ⟨t, .empty, o, []⟩ o' rfl hpasses
  rw [ReadTask.finish] at hdrained
  have htook := hpasses.took
  cases hh : r.handle with
  | none =>
      rw [Tracker.drainOne_closed hh] at hdrained
      have houtlet : o' = o := (congrArg (fun out => out.2.outlet) hdrained).symm
      have hnone := htook.batches_eq
      rw [houtlet, List.self_eq_append_right] at hnone
      rw [Course.accepted, hnone] at hb
      cases hb
  | some handle =>
      obtain ⟨_, _, bs, _, _, hd, hall, _⟩ := Tracker.drainOne_open hh ⟨t, .empty, o, []⟩
      have hbs := hall.outlet.batches_eq
      rw [hdrained] at hbs
      rw [Course.accepted, List.append_cancel_left (htook.batches_eq.symm.trans hbs)] at hb
      rw [hd.stamped b hb, Reader.fingerprint_rewound]

section Stamped

variable {met : List (Nat × Fingerprint)} {n : Nat}
  (hstamped : List.Forall₂ (fun r c => ∀ b ∈ c.accepted, b.metadata.fingerprint = r.fingerprint) rs cs)
include hstamped

theorem nothing_of (hnone : ∀ r ∈ rs, (n, r.fingerprint) ∉ met) :
    (cs.flatMap Course.accepted).filter (fun b => (n, b.metadata.fingerprint) ∈ met) = [] := by
  induction hstamped with
  | nil => rfl
  | cons hone _ ih =>
      obtain ⟨hr, hrs⟩ := List.forall_mem_cons.mp hnone
      rw [List.flatMap_cons, List.filter_append, ih hrs, List.append_nil, List.filter_eq_nil_iff]
      intro b hb
      rw [hone b hb]
      simpa using hr

theorem from_reader (hparts : ∀ i, partOf i trace = cs[i]?.elim [] Course.accepted) {x : Nat × Batch}
    (hx : x ∈ trace) : ∃ hi : x.1 < rs.length, x.2.metadata.fingerprint = rs[x.1].fingerprint := by
  have hpart : x.2 ∈ partOf x.1 trace := List.mem_map.mpr ⟨x, by simp [hx], rfl⟩
  rw [hparts] at hpart
  cases hc : cs[x.1]? with
  | none =>
      rw [hc] at hpart
      cases hpart
  | some c =>
      rw [hc] at hpart
      obtain ⟨hi, rfl⟩ := List.getElem?_eq_some_iff.mp hc
      have hi' : x.1 < rs.length := hstamped.length_eq ▸ hi
      exact ⟨hi', hstamped.get hi' hi _ hpart⟩

theorem same (hapart : Apart met rs) (hparts : ∀ i, partOf i trace = cs[i]?.elim [] Course.accepted) :
    SameOf met (trace.map Prod.snd) (cs.flatMap Course.accepted) := by
  intro n
  by_cases hany : ∃ r ∈ rs, (n, r.fingerprint) ∈ met
  · obtain ⟨r, hr, hn⟩ := hany
    obtain ⟨front, back, rfl⟩ := List.append_of_mem hr
    obtain ⟨hfront, hback⟩ := hapart.others hn
    obtain ⟨front', c, back', rfl, hbefore, hc, hbehind⟩ := forall₂_split hstamped
    have hplace (x : Nat × Batch) (hx : x ∈ trace) :
        decide ((n, x.2.metadata.fingerprint) ∈ met) = decide (x.1 = front'.length) := by
      obtain ⟨hi, hfp⟩ := from_reader hstamped hparts hx
      rw [hfp, decide_eq_decide, ← hbefore.length_eq]
      constructor
      · intro hmet
        rcases Nat.lt_trichotomy x.1 front.length with hlt | heq | hgt
        · rw [List.getElem_append_left hlt] at hmet
          exact absurd hmet (hfront _ (List.getElem_mem _))
        · exact heq
        · rw [List.getElem_append_right (Nat.le_of_lt hgt), List.getElem_cons, dif_neg (by omega)] at hmet
          exact absurd hmet (hback _ (List.getElem_mem _))
      · intro heq
        simpa [heq] using hn
    have hall : c.accepted.filter (fun b => (n, b.metadata.fingerprint) ∈ met) = c.accepted :=
      List.filter_eq_self.mpr fun b hb => by simpa [hc b hb] using hn
    have hpart : partOf front'.length trace = c.accepted := by simp [hparts]
    rw [List.flatMap_append, List.flatMap_cons, List.filter_append, List.filter_append,
      nothing_of hbefore hfront, nothing_of hbehind hback, List.nil_append, List.append_nil, hall, ← hpart,
      partOf, List.filter_map]
    exact congrArg (List.map Prod.snd) (List.filter_congr hplace)
  · have hnone (r : Reader) (hr : r ∈ rs) : (n, r.fingerprint) ∉ met := fun h => hany ⟨r, hr, h⟩
    rw [nothing_of hstamped hnone, List.filter_eq_nil_iff]
    intro b hb
    obtain ⟨x, hx, rfl⟩ := List.mem_map.mp hb
    obtain ⟨hi, hfp⟩ := from_reader hstamped hparts hx
    rw [hfp]
    simpa using hnone _ (List.getElem_mem hi)

end Stamped

theorem Coursed.mono (h : Coursed [] tasks w trace w' cs es) (cut : List Exchange) :
    Coursed cut tasks w trace w' cs es :=
  { h with within := fun c hc => List.Subset.trans (h.within c hc) (by simp) }

/-- What passes to readers that take turns is put in order, reader by reader. -/
theorem Coursed.reordered {met : List (Nat × Fingerprint)} (hapart : Apart met rs)
    (h : Coursed [.look true] (rs.map .waiting) w trace w' cs es) :
    Reordered met w.outlet w'.outlet (trace.map Prod.snd) (cs.flatMap Course.exchanges) ∧
      (∀ e ∈ cs.flatMap Course.exchanges, e.ByReader) ∧
      ReadTask.Determines w.tree (Tracker.drain rs) (cs.flatMap Course.exchanges) (cs.filterMap Course.left) := by
  have htakes := List.forall₂_map_left_iff.mp h.takes
  have hreaders (c : Course) (hc : c ∈ cs) (e : Exchange) (he : e ∈ c.exchanges) : e.ByReader := by
    rcases List.mem_append.mp (h.within c hc he) with he | he
    · exact h.readers e he
    · rw [List.mem_singleton.mp he]
      trivial
  have hstamped : List.Forall₂ (fun r c => ∀ b ∈ c.accepted, b.metadata.fingerprint = r.fingerprint) rs cs := by
    refine List.forall₂_iff_get.mpr ⟨htakes.length_eq, fun i hi hi' b hb => ?_⟩
    exact stamped (htakes.get hi hi') (hreaders _ (List.get_mem _ _)) hb
  refine ⟨⟨?_, ?_, fun he => ?_⟩, fun e he => ?_, Tracker.drain_takes htakes⟩
  · rw [← h.accepted]
    exact h.passes.took
  · rw [List.filterMap_flatMap]
    exact same hstamped hapart h.parts
  · obtain ⟨c, hc, hmem⟩ := List.mem_flatMap.mp he
    rcases List.mem_append.mp (h.within c hc hmem) with hmem | hmem
    · exact h.passes.told hmem
    · cases List.mem_singleton.mp hmem
  · obtain ⟨c, hc, hmem⟩ := List.mem_flatMap.mp he
    exact hreaders c hc e hmem

theorem Coursed.shown (h : Coursed [] tasks w trace w' cs es)
    (hmem : .look true ∈ cs.flatMap Course.exchanges) : w'.outlet.cancelled = true := by
  obtain ⟨c, hc, hmem⟩ := List.mem_flatMap.mp hmem
  exact h.passes.cancelled (by simpa using h.within c hc hmem)

/-- Tasks that take turns in any order, until something stops them. -/
inductive Advances : List ReadTask → World → List (Nat × Batch) → World → Prop
  | stopped (tasks : List ReadTask) (w : World) : Advances tasks w [] w
  | turn {front back : List ReadTask} {task : ReadTask} {w w' : World} {bs : List Batch}
      {trace : List (Nat × Batch)}
      (hbatches : (task.turn w).2.outlet.batches = w.outlet.batches ++ bs)
      (rest : Advances (front ++ (task.turn w).1 :: back) (task.turn w).2 trace w') :
      Advances (front ++ task :: back) w (bs.map (front.length, ·) ++ trace) w'

/-- A task that is stopped might as well have found the token cancelled. -/
theorem Advances.coursed (h : Advances tasks w trace w') :
    ∃ cs es, Coursed [.look true] tasks w trace w' cs es := by
  induction h with
  | stopped tasks w =>
      choose course hcut htakes using ReadTask.takes_cancelled w.tree
      refine ⟨tasks.map course, [], ⟨?_, fun i => ?_, rfl, nofun, ?_, rfl, rfl, rfl⟩⟩
      · rw [List.forall₂_map_right_iff, List.forall₂_same]
        exact fun task _ => htakes task
      · have hnone (task : ReadTask) : (course task).accepted = [] :=
          List.filterMap_eq_nil_iff.mpr fun e he => by rw [List.mem_singleton.mp (hcut task he)]; rfl
        rw [List.getElem?_map]
        cases tasks[i]? with
        | none => rfl
        | some task => exact (hnone task).symm
      · rintro c hc
        obtain ⟨task, -, rfl⟩ := List.mem_map.mp hc
        exact hcut task
  | turn hbatches rest ih =>
      obtain ⟨cs, es, hcoursed⟩ := ih
      obtain ⟨cs', es', hcoursed', -⟩ := hcoursed.turn hbatches
      exact ⟨cs', es', hcoursed'⟩

end Interleaves

namespace Tracker

open Interleaves

variable {met : List (Nat × Fingerprint)} {k : Tracker} {paths : List Path} {w : World}

theorem opened_with (k : Tracker) (paths : List Path) (w : World) (o : Outlet) (events : List Event) :
    ∃ events', k.opened paths { w with outlet := o, events } =
      { k.opened paths w with world := { (k.opened paths w).world with outlet := o, events := events' } } := by
  induction paths using List.reverseRecOn with
  | nil => exact ⟨events, rfl⟩
  | append_singleton paths path ih =>
      obtain ⟨events', ih⟩ := ih
      simp only [opened, List.foldl_append, List.foldl_cons, List.foldl_nil] at ih ⊢
      rw [ih]
      generalize paths.foldl openPath ⟨k, w, [], []⟩ = s
      unfold openPath
      dsimp only
      cases s.tracker.identify s.world.tree path with
      | none => exact ⟨_, rfl⟩
      | some id =>
          by_cases hany : s.fingerprints.any (fun f => f.agrees id.2) = true
          · simp only [hany, if_true]
            exact ⟨_, rfl⟩
          · simp only [hany]
            unfold watch
            by_cases hseen : s.tracker.seen.contains path.components = true
            · simp only [hseen, if_true]
              exact ⟨_, rfl⟩
            · simp only [hseen]
              exact ⟨_, rfl⟩

theorem opened_world (k : Tracker) (paths : List Path) (w : World) :
    (k.opened paths w).world.tree = w.tree ∧ (k.opened paths w).world.memory = w.memory ∧
      (k.opened paths w).world.outlet = w.outlet := by
  obtain ⟨-, htook⟩ := k.opened_steady paths w
  obtain ⟨events, hopened⟩ := k.opened_with paths w w.outlet w.events
  exact ⟨htook.tree, htook.memory, congrArg (fun s => s.world.outlet) hopened⟩

theorem collect_of_drains {s : Opening} {drained readers : List Reader} {between behind : World}
    (hopened : k.opened paths w = s) (hlost : drain s.lost s.world = (drained, between))
    (hread : drain s.readers.reverse between = (readers, behind)) :
    k.collect paths w = (s.gather drained readers, behind) := by
  subst hopened
  have hcollect := k.collect_eq paths w
  simp only [hlost, hread] at hcollect
  exact hcollect

/-- A batch of paths is read in order with what passes when its readers take turns, those of lost files
first. -/
theorem collect_in_order {lost built : List (Nat × Batch)} {between behind : World} {cs cs' : List Course}
    {es es' : List Exchange} (hprevious : Apart met k.previous)
    (hreaders : Apart met (k.opened paths w).readers.reverse)
    (hlost : Coursed [.look true] ((k.opened paths w).lost.map .waiting) (k.opened paths w).world lost between
      cs es)
    (hbuilt : Coursed [.look true] ((k.opened paths w).readers.reverse.map .waiting) between built behind cs' es') :
    let fs := cs.flatMap Course.exchanges ++ cs'.flatMap Course.exchanges
    Reordered met w.outlet behind.outlet (lost.map Prod.snd ++ built.map Prod.snd) fs ∧
      (∀ e ∈ fs, e.ByReader) ∧ behind.tree = w.tree ∧ behind.memory = w.memory ∧
      ∀ o o' events, o.Passes fs o' → ∃ events', k.collect paths { w with outlet := o, events } =
        ((k.opened paths w).gather (cs.filterMap Course.left) (cs'.filterMap Course.left),
          { w with outlet := o', events := events' }) := by
  intro fs
  obtain ⟨htree, hmemory, houtlet⟩ := k.opened_world paths w
  have hleft : Apart met (k.opened paths w).lost :=
    hprevious.sublist (List.filter_sublist.trans (k.opened_previous paths w))
  obtain ⟨hordered, hby, hdrained⟩ := hlost.reordered hleft
  obtain ⟨hordered', hby', hdrained'⟩ := hbuilt.reordered hreaders
  rw [houtlet] at hordered
  rw [htree] at hdrained
  rw [hlost.tree, htree] at hdrained'
  refine ⟨hordered.append hordered', List.forall_mem_append.mpr ⟨hby, hby'⟩,
    (hbuilt.tree.trans hlost.tree).trans htree, (hbuilt.memory.trans hlost.memory).trans hmemory, fun o o' events hpasses => ?_⟩
  obtain ⟨o₁, hfirst, hsecond⟩ := Outlet.passes_append.mp hpasses
  obtain ⟨events₁, hopened⟩ := k.opened_with paths w o events
  obtain ⟨events₂, hd⟩ :=
    hdrained { (k.opened paths w).world with outlet := o, events := events₁ } o₁ htree hfirst
  obtain ⟨events₃, hd'⟩ :=
    hdrained' { (k.opened paths w).world with outlet := o₁, events := events₂ } o' htree hsecond
  refine ⟨events₃, (collect_of_drains hopened hd hd').trans ?_⟩
  rw [htree, hmemory]
  rfl

theorem ReadsAtOnce.in_order {lost built : List (Nat × Batch)} {out : Option Tracker × World}
    (hprevious : Apart met k.previous) (hreaders : Apart met (k.opened paths w).readers.reverse)
    (h : k.ReadsAtOnce paths w lost built out) :
    ∃ es, Reordered met w.outlet out.2.outlet (lost.map Prod.snd ++ built.map Prod.snd) es ∧
      (∀ e ∈ es, e.ByReader) ∧ (.look true ∈ es → out.2.outlet.cancelled = true) ∧
      ∀ o o' events, o.Passes es o' → ∃ events', k.readBatch paths { w with outlet := o, events } =
        (out.1, { out.2 with outlet := o', events := events' }) := by
  obtain ⟨drained, between, readers, behind, hlost, hbuilt, rfl⟩ := h
  obtain ⟨cs, es, hcs, rfl⟩ := hlost.coursed
  obtain ⟨cs', es', hcs', rfl⟩ := hbuilt.coursed
  obtain ⟨hordered, hby, htree, hmemory, hcollect⟩ :=
    collect_in_order hprevious hreaders (hcs.mono _) (hcs'.mono _)
  rw [← (((k.opened paths w).gather _ _).trim).save_outlet behind] at hordered
  refine ⟨_, hordered, hby, fun hshown => ?_, fun o o' events hpasses => ?_⟩
  · rw [save_outlet]
    rcases List.mem_append.mp hshown with hshown | hshown
    · exact hcs'.passes.took.cancelled (hcs.shown hshown)
    · exact hcs'.shown hshown
  · obtain ⟨events', hcollected⟩ := hcollect o o' events hpasses
    rw [readBatch_eq, hcollected]
    have hid (cs : List Course) : (cs.map Course.left).filterMap id = cs.filterMap Course.left := by
      simp [List.filterMap_map]
    rw [hid, hid]
    generalize ((k.opened paths w).gather (cs.filterMap Course.left) (cs'.filterMap Course.left)).trim = k'
    obtain ⟨htracker, htree', hmemory'⟩ :=
      k'.save_congr behind { w with outlet := o', events := events' } htree.symm hmemory.symm
    have houtlet := k'.save_outlet { w with outlet := o', events := events' }
    generalize k'.save { w with outlet := o', events := events' } = saved at *
    refine ⟨saved.2.events, Prod.ext htracker ?_⟩
    dsimp only at houtlet ⊢
    rw [← htree', ← hmemory', ← houtlet]

/-- A batch that is read at once until the process dies, be it before all lost files are read. -/
inductive DiesAtOnce (k : Tracker) (paths : List Path) (w : World) : List Batch → World → Prop
  | lost {trace : List (Nat × Batch)} {w' : World}
      (hlost : Advances ((k.opened paths w).lost.map .waiting) (k.opened paths w).world trace w') :
      DiesAtOnce k paths w (trace.map Prod.snd) w'
  | built {lost trace : List (Nat × Batch)} {drained : List (Option Reader)} {between w' : World}
      (hlost : Interleaves ((k.opened paths w).lost.map .waiting) (k.opened paths w).world lost drained between)
      (hbuilt : Advances ((k.opened paths w).readers.reverse.map .waiting) between trace w') :
      DiesAtOnce k paths w (lost.map Prod.snd ++ trace.map Prod.snd) w'

theorem DiesAtOnce.in_order {bs : List Batch} {w' : World} (hprevious : Apart met k.previous)
    (hreaders : Apart met (k.opened paths w).readers.reverse) (h : k.DiesAtOnce paths w bs w') :
    ∃ es, Reordered met w.outlet w'.outlet bs es ∧ (∀ e ∈ es, e.ByReader) ∧ w'.tree = w.tree ∧
      w'.memory = w.memory ∧
      ∀ o o' events, o.Passes es o' → ∃ events',
        (k.collect paths { w with outlet := o, events }).2 = { w with outlet := o', events := events' } := by
  obtain ⟨lost, built, between, cs, es, cs', es', rfl, hcs, hcs'⟩ :
      ∃ lost built between cs es cs' es', bs = lost.map Prod.snd ++ built.map Prod.snd ∧
        Coursed [.look true] ((k.opened paths w).lost.map .waiting) (k.opened paths w).world lost between cs es ∧
        Coursed [.look true] ((k.opened paths w).readers.reverse.map .waiting) between built w' cs' es' := by
    cases h with
    | lost hlost =>
        -- none of the readers of the batch has begun
        obtain ⟨cs, es, hcs⟩ := hlost.coursed
        obtain ⟨cs', es', hcs'⟩ :=
          (Advances.stopped ((k.opened paths w).readers.reverse.map .waiting) w').coursed
        exact ⟨_, [], w', cs, es, cs', es', by simp, hcs, hcs'⟩
    | built hlost hbuilt =>
        obtain ⟨cs, es, hcs, -⟩ := hlost.coursed
        obtain ⟨cs', es', hcs'⟩ := hbuilt.coursed
        exact ⟨_, _, _, cs, es, cs', es', rfl, hcs.mono _, hcs'⟩
  obtain ⟨hordered, hby, htree, hmemory, hcollect⟩ := collect_in_order hprevious hreaders hcs hcs'
  refine ⟨_, hordered, hby, htree, hmemory, fun o o' events hpasses => ?_⟩
  obtain ⟨events', hcollected⟩ := hcollect o o' events hpasses
  exact ⟨events', congrArg Prod.snd hcollected⟩

end Tracker

end LogTail
