import LogTail.Proofs.Batches
import Mathlib.Data.List.Forall2

namespace LogTail

open Record

/-- What a reader is told of a verdict. That the token is cancelled meanwhile shows in its next look. -/
def Verdict.told : Verdict → Verdict
  | .acceptAndCancel => .accept
  | v => v

theorem Verdict.told_told (v : Verdict) : v.told.told = v.told := by
  cases v <;> rfl

/-- What passes between readers and an outlet: a batch and what its reader is told, what a look of a
reader shows, or what a look between batches shows. -/
inductive Exchange
  | offer (b : Batch) (told : Verdict)
  | look (shown : Bool)
  | joined (shown : Bool)

namespace Exchange

def accepted? : Exchange → Option Batch
  | .offer b told => if told = .refuse then none else some b
  | .look _ | .joined _ => none

/-- An exchange of a reader, which is not told that the token is cancelled while its batch is accepted. -/
def ByReader : Exchange → Prop
  | .offer _ told => told.told = told
  | .look _ => True
  | .joined _ => False

end Exchange

namespace Outlet

variable {o o' : Outlet} {es es' : List Exchange}

/-- Exchanges take place one behind the other, and leave the outlet as it is then. -/
def Passes : Outlet → List Exchange → Outlet → Prop
  | o, [], o' => o' = o
  | o, .offer b told :: es, o' => (o.offer b).1.told = told ∧ (o.offer b).2.Passes es o'
  | o, .look shown :: es, o' => o.look.1 = shown ∧ o.look.2.Passes es o'
  | o, .joined shown :: es, o' => o.lookJoined.1 = shown ∧ o.lookJoined.2.Passes es o'

theorem passes_append : o.Passes (es ++ es') o' ↔ ∃ o₁, o.Passes es o₁ ∧ o₁.Passes es' o' := by
  induction es generalizing o with
  | nil => simp [Passes]
  | cons e es ih =>
      cases e with
      | offer | look | joined =>
          simp only [List.cons_append, Passes, ih]
          exact ⟨fun ⟨h, o₁, hes, hes'⟩ => ⟨o₁, ⟨h, hes⟩, hes'⟩, fun ⟨o₁, ⟨h, hes⟩, hes'⟩ => ⟨h, o₁, hes, hes'⟩⟩

theorem refused_iff {v : Verdict} : v.told = .refuse ↔ v = .refuse := by
  cases v <;> decide

theorem Passes.took (h : o.Passes es o') : o.Took o' (es.filterMap Exchange.accepted?) := by
  induction es generalizing o with
  | nil =>
      rw [h]
      exact .refl o
  | cons e es ih =>
      cases e with
      | look | joined => exact o.took_look.trans (ih h.2)
      | offer b told =>
          have htook := (o.took_offer b).trans (ih h.2)
          by_cases hrefused : (o.offer b).1 = .refuse
          · have htold : told = .refuse := by rw [← h.1, hrefused]; rfl
            rw [List.filterMap_cons_none (by rw [Exchange.accepted?, if_pos htold])]
            rwa [if_pos hrefused] at htook
          · have htold : told ≠ .refuse := fun he => hrefused (refused_iff.mp (h.1.trans he))
            rw [List.filterMap_cons_some (by rw [Exchange.accepted?, if_neg htold])]
            rwa [if_neg hrefused] at htook

theorem Passes.cancelled (h : o.Passes es o') (hshown : .look true ∈ es) : o'.cancelled = true := by
  obtain ⟨before, after, rfl⟩ := List.append_of_mem hshown
  obtain ⟨o₁, -, hlook, hafter⟩ := passes_append.mp h
  exact hafter.took.cancelled (cancelled_of_look hlook)

theorem Passes.told (h : o.Passes es o') {b : Batch} {told : Verdict} (hmem : .offer b told ∈ es) :
    ∃ i, o.offered ≤ i ∧ i < o'.offered ∧ told = (o.verdict i).told := by
  obtain ⟨before, after, rfl⟩ := List.append_of_mem hmem
  obtain ⟨o₁, hbefore, htold, hafter⟩ := passes_append.mp h
  have hlt : o₁.offered < (o₁.offer b).2.offered := by rw [offered_offer]; exact Nat.lt_succ_self _
  exact ⟨o₁.offered, hbefore.took.offered, Nat.lt_of_lt_of_le hlt hafter.took.offered,
    by rw [← htold, verdict_offer, hbefore.took.verdict]⟩

end Outlet

namespace Reader

theorem flush_offer (r : Reader) {pending : List Record} (hpending : pending ≠ []) (stop : Nat) (o : Outlet) :
    r.flush pending stop o =
      match (o.offer ⟨r.path, pending.reverse, r.metadata⟩).1.told with
      | .refuse => (.refused, r, (o.offer ⟨r.path, pending.reverse, r.metadata⟩).2)
      | .acceptAndCrash => (.crashed, r, (o.offer ⟨r.path, pending.reverse, r.metadata⟩).2)
      | _ => (.done, r.moveTo stop, (o.offer ⟨r.path, pending.reverse, r.metadata⟩).2) := by
  rw [flush, if_neg (by simpa using hpending)]
  cases o.offer ⟨r.path, pending.reverse, r.metadata⟩ with
  | mk v o' => cases v <;> rfl

theorem flush_passes (r : Reader) (pending : List Record) (stop : Nat) (o : Outlet) :
    ∃ es o' ended r', o.Passes es o' ∧ (∀ e ∈ es, e.ByReader) ∧
      ∀ o₁ o₂, o₁.Passes es o₂ → r.flush pending stop o₁ = (ended, r', o₂) := by
  by_cases hpending : pending = []
  · subst hpending
    exact ⟨[], o, .done, r.moveTo stop, rfl, nofun, fun o₁ o₂ h => by rw [h]; rfl⟩
  · refine ⟨[.offer ⟨r.path, pending.reverse, r.metadata⟩ _], _, (r.flush pending stop o).1,
      (r.flush pending stop o).2.1, ⟨rfl, rfl⟩, by simp [Exchange.ByReader, Verdict.told_told],
      fun o₁ o₂ ⟨htold, h⟩ => ?_⟩
    rw [flush_offer r hpending, flush_offer r hpending, h, htold]
    split <;> rfl

end Reader

/-- What becomes of a task: all that passes until it is over, and what is left of its reader then. -/
structure Course where
  exchanges : List Exchange
  left : Option Reader

def Course.accepted (c : Course) : List Batch := c.exchanges.filterMap Exchange.accepted?

/-- A task that reads one file. It waits for its first turn, or it has some pieces of the file before
it, or it is over, with what is left of its reader. -/
inductive ReadTask
  | waiting (r : Reader)
  | reading (pieces : List Piece) (position : Nat) (pending : List Record) (count : Nat) (r : Reader)
  | ended (r : Option Reader)

namespace ReadTask

def conclude (ending : ReadEnd × Reader × Outlet) (w : World) : Option Reader × World :=
  match ending with
  | (.crashed, _, outlet) => (none, { w with outlet }.log .readerCrashed)
  | (.refused, r, outlet) => (some r, { w with outlet }.log (.readFailed r.path r.offset .refused))
  | (_, r, outlet) => (some r, { w with outlet })

def quit (left : Option Reader × World) : ReadTask × World := (.ended left.1, left.2)

def notice (r : Reader) (w : World) : World :=
  match r.shortLength? w.tree with
  | some length => w.log (.shortFile r.path r.offset length)
  | none => w

/-- One turn. In its first a task looks how long its file is, in each of the others it takes one
piece of it, or hands over the rest. -/
def turn : ReadTask → World → ReadTask × World
  | waiting r, w =>
    let w := notice r w
    match r.handle with
    | none => (.ended (some r), w)
    | some h =>
      let content := w.tree.content h.node
      let r := r.rewound content.length
      (.reading (pieces r.maxLogSize (content.drop r.offset)) r.offset [] 0 r, w)
  | reading [] position pending _ r, w =>
    match w.outlet.look with
    | (true, o) => quit (conclude (.cancelled, r, o) w)
    | (false, o) => quit (conclude (r.flush pending position o) w)
  | reading (p :: ps) position pending count r, w =>
    match w.outlet.look with
    | (true, o) => quit (conclude (.cancelled, r, o) w)
    | (false, o) =>
      let stop := position + p.span
      let (pending, count) :=
        if p.body.isEmpty then (pending, count)
        else (Reader.recordAt position p :: pending, count + 1)
      if r.emitBatchSize ≤ count then
        match r.flush pending stop o with
        | (.done, r, outlet) => (.reading ps stop [] 0 r, { w with outlet })
        | ending => quit (conclude ending w)
      else (.reading ps stop pending count r, { w with outlet := o })
  | ended r, w => (.ended r, w)

def finish : ReadTask → World → Option Reader × World
  | waiting r, w => Tracker.drainOne r w
  | reading ps position pending count r, w =>
    conclude (Reader.deliver ps position pending count r w.outlet) w
  | ended r, w => (r, w)

theorem drainOne_eq (r : Reader) (w : World) :
    Tracker.drainOne r w = conclude (r.readIn w.tree w.outlet) (notice r w) := by
  unfold Tracker.drainOne notice
  cases r.shortLength? w.tree <;> rfl

theorem notice_eq (r : Reader) (w : World) : ∃ events, notice r w = { w with events } := by
  unfold notice
  cases r.shortLength? w.tree <;> exact ⟨_, rfl⟩

theorem turn_finish (task : ReadTask) (w : World) :
    (task.turn w).1.finish (task.turn w).2 = task.finish w := by
  cases task with
  | waiting r =>
      obtain ⟨events, hnotice⟩ := notice_eq r w
      rw [finish, drainOne_eq, turn, hnotice]
      cases hh : r.handle with
      | none => simp [finish, Reader.readIn, hh, conclude]
      | some h => simp only [finish, Reader.readIn, hh, Reader.read]
  | ended r => rfl
  | reading ps position pending count r =>
      cases ps with
      | nil =>
          rw [finish, turn, Reader.deliver]
          cases hlook : w.outlet.look with
          | mk shown o => cases shown <;> rfl
      | cons p ps =>
          rw [finish, turn, Reader.deliver]
          cases hlook : w.outlet.look with
          | mk shown o =>
              cases shown with
              | true => rfl
              | false =>
                  dsimp only
                  generalize (if p.body.isEmpty then (pending, count)
                    else (Reader.recordAt position p :: pending, count + 1)) = next
                  by_cases hfull : r.emitBatchSize ≤ next.2
                  · rw [if_pos hfull, if_pos hfull]
                    cases hflush : r.flush next.1 (position + p.span) o with
                    | mk ended rest => cases ended <;> rfl
                  · rw [if_neg hfull, if_neg hfull]
                    rfl

def Determines {α : Type} (t : FileTree) (step : World → α × World) (es : List Exchange) (a : α) : Prop :=
  ∀ w o, w.tree = t → w.outlet.Passes es o → ∃ events, step w = (a, { w with outlet := o, events })

def remains : ReadEnd → Reader → Option Reader
  | .crashed, _ => none
  | _, r => some r

theorem conclude_eq (ended : ReadEnd) (r : Reader) (o : Outlet) (w : World) :
    ∃ events, conclude (ended, r, o) w = (remains ended r, { w with outlet := o, events }) := by
  cases ended <;> exact ⟨_, rfl⟩

theorem quit_conclude (ended : ReadEnd) (r : Reader) (o : Outlet) (w : World) :
    ∃ events, quit (conclude (ended, r, o) w) = (.ended (remains ended r), { w with outlet := o, events }) := by
  obtain ⟨events, h⟩ := conclude_eq ended r o w
  exact ⟨events, by rw [h]; rfl⟩

section

variable {ps : List Piece} {p : Piece} {position : Nat} {pending : List Record} {count : Nat} {r : Reader}
  {w : World} {o : Outlet} {next : List Record × Nat}

theorem turn_cancelled (hlook : w.outlet.look = (true, o)) :
    (reading ps position pending count r).turn w = (.ended (some r), { w with outlet := o }) := by
  cases ps with
  | nil | cons =>
      rw [turn, hlook]
      rfl

theorem turn_last (hlook : w.outlet.look = (false, o)) :
    (reading [] position pending count r).turn w = quit (conclude (r.flush pending position o) w) := by
  rw [turn, hlook]

theorem turn_full (hlook : w.outlet.look = (false, o))
    (hnext : next = if p.body.isEmpty then (pending, count)
      else (Reader.recordAt position p :: pending, count + 1)) (hfull : r.emitBatchSize ≤ next.2) :
    (reading (p :: ps) position pending count r).turn w =
      match r.flush next.1 (position + p.span) o with
      | (.done, r, outlet) => (.reading ps (position + p.span) [] 0 r, { w with outlet })
      | ending => quit (conclude ending w) := by
  rw [turn, hlook]
  dsimp only
  rw [← hnext, if_pos hfull]

theorem turn_partial (hlook : w.outlet.look = (false, o))
    (hnext : next = if p.body.isEmpty then (pending, count)
      else (Reader.recordAt position p :: pending, count + 1)) (hfull : ¬ r.emitBatchSize ≤ next.2) :
    (reading (p :: ps) position pending count r).turn w =
      (.reading ps (position + p.span) next.1 next.2 r, { w with outlet := o }) := by
  rw [turn, hlook]
  dsimp only
  rw [← hnext, if_neg hfull]

end

theorem turn_waiting (t : FileTree) (r : Reader) :
    ∃ task, Determines t (waiting r).turn [] task ∧
      (task = .ended (some r) ∨
        ∃ ps position pending count r', task = .reading ps position pending count r') := by
  cases hh : r.handle with
  | none =>
      refine ⟨_, fun w o _ h => ?_, .inl rfl⟩
      obtain ⟨events, hnotice⟩ := notice_eq r w
      exact ⟨events, by rw [h, turn, hnotice]; simp [hh]⟩
  | some handle =>
      let content := t.content handle.node
      let r' := r.rewound content.length
      refine ⟨.reading (pieces r'.maxLogSize (content.drop r'.offset)) r'.offset [] 0 r', fun w o htree h => ?_,
        .inr ⟨_, _, _, _, _, rfl⟩⟩
      obtain ⟨events, hnotice⟩ := notice_eq r w
      exact ⟨events, by rw [h, turn, hnotice]; simp only [hh, htree, content, r']⟩

/-- Whatever the emitter and the token do, a turn depends on nothing but what passes in it. -/
theorem turn_determined (task : ReadTask) (w : World) :
    ∃ es o task', w.outlet.Passes es o ∧ (∀ e ∈ es, e.ByReader) ∧ Determines w.tree task.turn es task' := by
  cases task with
  | ended r => exact ⟨[], _, .ended r, rfl, nofun, fun w₁ o₁ _ h => ⟨w₁.events, by rw [h]; rfl⟩⟩
  | waiting r =>
      obtain ⟨task, hturn, -⟩ := turn_waiting w.tree r
      exact ⟨[], _, task, rfl, nofun, hturn⟩
  | reading ps position pending count r =>
      have hseen {w₁ : World} {o₁ : Outlet} {shown : Bool} {es : List Exchange}
          (h : w₁.outlet.Passes (.look shown :: es) o₁) :
          ∃ o₂, w₁.outlet.look = (shown, o₂) ∧ o₂.Passes es o₁ := ⟨_, Prod.ext h.1 rfl, h.2⟩
      cases hlook : w.outlet.look with
      | mk shown o =>
          have hpassed {es : List Exchange} {o' : Outlet} (h : o.Passes es o') :
              w.outlet.Passes (.look shown :: es) o' := ⟨by rw [hlook], by rwa [hlook]⟩
          have hby {es : List Exchange} (h : ∀ e ∈ es, e.ByReader) : ∀ e ∈ Exchange.look shown :: es, e.ByReader :=
            List.forall_mem_cons.mpr ⟨trivial, h⟩
          cases shown with
          | true =>
              refine ⟨[.look true], o, .ended (some r), hpassed rfl, hby nofun, fun w₁ o₁ _ h => ?_⟩
              obtain ⟨o₂, hshown, rfl⟩ := hseen h
              exact ⟨_, turn_cancelled hshown⟩
          | false =>
              cases ps with
              | nil =>
                  obtain ⟨es, o', ended, r', hpasses, hreaders, hflush⟩ := r.flush_passes pending position o
                  refine ⟨.look false :: es, o', .ended (remains ended r'), hpassed hpasses, hby hreaders,
                    fun w₁ o₁ _ h => ?_⟩
                  obtain ⟨o₂, hshown, hrest⟩ := hseen h
                  rw [turn_last hshown, hflush o₂ o₁ hrest]
                  exact quit_conclude _ _ _ _
              | cons p ps =>
                  obtain ⟨next, hnext⟩ : ∃ next, next = if p.body.isEmpty then (pending, count)
                    else (Reader.recordAt position p :: pending, count + 1) := ⟨_, rfl⟩
                  by_cases hfull : r.emitBatchSize ≤ next.2
                  · obtain ⟨es, o', ended, r', hpasses, hreaders, hflush⟩ :=
                      r.flush_passes next.1 (position + p.span) o
                    refine ⟨.look false :: es, o', if ended = .done then
                      .reading ps (position + p.span) [] 0 r' else .ended (remains ended r'),
                      hpassed hpasses, hby hreaders, fun w₁ o₁ _ h => ?_⟩
                    obtain ⟨o₂, hshown, hrest⟩ := hseen h
                    rw [turn_full hshown hnext hfull, hflush o₂ o₁ hrest]
                    cases ended with
                    | done => exact ⟨_, rfl⟩
                    | cancelled | refused | crashed => exact quit_conclude _ _ _ _
                  · refine ⟨[.look false], o, .reading ps (position + p.span) next.1 next.2 r,
                      hpassed rfl, hby nofun, fun w₁ o₁ _ h => ?_⟩
                    obtain ⟨o₂, hshown, rfl⟩ := hseen h
                    exact ⟨_, turn_partial hshown hnext hfull⟩

def turns (t : FileTree) : ReadTask → Nat
  | waiting r =>
    match r.handle with
    | none => 1
    | some h =>
      let content := t.content h.node
      let r := r.rewound content.length
      (pieces r.maxLogSize (content.drop r.offset)).length + 2
  | reading ps _ _ _ _ => ps.length + 1
  | ended _ => 0

theorem turns_turn (task : ReadTask) (w : World) :
    (∃ r, task = .ended r) ∨ (task.turn w).1.turns w.tree < task.turns w.tree := by
  cases task with
  | ended r => exact .inl ⟨r, rfl⟩
  | waiting r =>
      obtain ⟨events, hnotice⟩ := notice_eq r w
      refine .inr ?_
      rw [turn, turns, hnotice]
      cases hh : r.handle with
      | none => exact Nat.one_pos
      | some h => exact Nat.lt_succ_self _
  | reading ps position pending count r =>
      refine .inr ?_
      cases hlook : w.outlet.look with
      | mk shown o =>
          cases shown with
          | true =>
              rw [turn_cancelled hlook]
              exact Nat.succ_pos _
          | false =>
              cases ps with
              | nil =>
                  rw [turn_last hlook]
                  exact Nat.succ_pos _
              | cons p ps =>
                  obtain ⟨next, hnext⟩ : ∃ next, next = if p.body.isEmpty then (pending, count)
                    else (Reader.recordAt position p :: pending, count + 1) := ⟨_, rfl⟩
                  by_cases hfull : r.emitBatchSize ≤ next.2
                  · rw [turn_full hlook hnext hfull]
                    split
                    · exact Nat.lt_succ_self _
                    · exact Nat.succ_pos _
                  · rw [turn_partial hlook hnext hfull]
                    exact Nat.lt_succ_self _

def Takes (t : FileTree) (task : ReadTask) (c : Course) : Prop :=
  Determines t task.finish c.exchanges c.left

theorem takes_ended (t : FileTree) (r : Option Reader) : Takes t (.ended r) ⟨[], r⟩ :=
  fun w o _ h => ⟨w.events, by rw [h]; rfl⟩

theorem Takes.turn {t : FileTree} {task task' : ReadTask} {es : List Exchange} {c : Course}
    (h : Takes t task' c) (hturn : Determines t task.turn es task') :
    Takes t task ⟨es ++ c.exchanges, c.left⟩ := by
  intro w o htree hpasses
  obtain ⟨o₁, hfirst, hrest⟩ := Outlet.passes_append.mp hpasses
  obtain ⟨events, hturned⟩ := hturn w o₁ htree hfirst
  obtain ⟨events', hfinished⟩ := h { w with outlet := o₁, events } o htree hrest
  refine ⟨events', ?_⟩
  rw [← turn_finish, hturned, hfinished]

theorem takes_cancelled (t : FileTree) (task : ReadTask) :
    ∃ c : Course, c.exchanges ⊆ [.look true] ∧ Takes t task c := by
  have hreading (ps : List Piece) (position : Nat) (pending : List Record) (count : Nat) (r : Reader) :
      Takes t (.reading ps position pending count r) ⟨[.look true], some r⟩ := by
    have hturn : Determines t (reading ps position pending count r).turn [.look true] (.ended (some r)) := by
      rintro w o - ⟨hshown, rfl⟩
      exact ⟨_, turn_cancelled (Prod.ext hshown rfl)⟩
    exact (takes_ended t (some r)).turn hturn
  cases task with
  | ended r => exact ⟨_, List.nil_subset _, takes_ended t r⟩
  | reading ps position pending count r => exact ⟨_, List.Subset.refl _, hreading ps position pending count r⟩
  | waiting r =>
      obtain ⟨task, hturn, rfl | ⟨ps, position, pending, count, r', rfl⟩⟩ := turn_waiting t r
      · exact ⟨_, List.nil_subset _, (takes_ended t (some r)).turn hturn⟩
      · exact ⟨_, List.Subset.refl _, (hreading ps position pending count r').turn hturn⟩

end ReadTask

open ReadTask in
/-- Reading in order, with what passes to each reader one behind the other. -/
theorem Tracker.drain_takes {t : FileTree} {rs : List Reader} {cs : List Course}
    (h : List.Forall₂ (fun r c => ReadTask.Takes t (.waiting r) c) rs cs) :
    Determines t (drain rs) (cs.flatMap Course.exchanges) (cs.filterMap Course.left) := by
  induction h with
  | nil => exact fun w o _ h => ⟨w.events, by rw [h]; rfl⟩
  | @cons r c rs cs hone hrest ih =>
      intro w o htree hpasses
      obtain ⟨o₁, hfirst, hpasses⟩ := Outlet.passes_append.mp hpasses
      obtain ⟨events, hdrained⟩ := hone w o₁ htree hfirst
      rw [finish] at hdrained
      obtain ⟨events', hthen⟩ := ih { w with outlet := o₁, events } o htree hpasses
      refine ⟨events', ?_⟩
      rw [drain_cons, hdrained, hthen]
      cases hleft : c.left <;> simp [hleft]

end LogTail
