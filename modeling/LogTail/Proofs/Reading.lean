import LogTail.Reader
import LogTail.Proofs.Framing

namespace LogTail

open Record

namespace Reader

def recordsFrom : Nat → List Piece → List Record
  | _, [] => []
  | position, p :: ps =>
    if p.body.isEmpty then recordsFrom (position + p.span) ps
    else recordAt position p :: recordsFrom (position + p.span) ps

def framed (limit : Nat) (content : Bytes) : List Record := recordsFrom 0 (pieces limit content)

@[simp] theorem recordsFrom_nil (position : Nat) : recordsFrom position [] = [] := rfl

@[simp] theorem framed_nil (limit : Nat) : framed limit [] = [] := rfl

theorem recordsFrom_append (position : Nat) (ps qs : List Piece) :
    recordsFrom position (ps ++ qs) =
      recordsFrom position ps ++ recordsFrom (position + extent ps) qs := by
  induction ps generalizing position with
  | nil => simp
  | cons p ps ih =>
      simp only [List.cons_append, recordsFrom, ih, extent_cons, Nat.add_assoc]
      split <;> simp

theorem offset_of_mem_recordsFrom {position : Nat} {ps : List Piece} {a : Record}
    (h : a ∈ recordsFrom position ps) : position ≤ a.span.offset := by
  induction ps generalizing position with
  | nil => simp at h
  | cons p ps ih =>
      rw [recordsFrom] at h
      split at h
      · exact Nat.le_trans (Nat.le_add_right _ _) (ih h)
      · rcases List.mem_cons.mp h with rfl | h
        · exact Nat.le_refl _
        · exact Nat.le_trans (Nat.le_add_right _ _) (ih h)

theorem mem_of_offset_lt {position : Nat} {ps qs : List Piece} {a : Record}
    (h : a ∈ recordsFrom position (ps ++ qs)) (hlt : a.span.offset < position + extent ps) :
    a ∈ recordsFrom position ps := by
  rw [recordsFrom_append, List.mem_append] at h
  rcases h with h | h
  · exact h
  · have := offset_of_mem_recordsFrom h
    omega

theorem recordsFrom_pairwise {position : Nat} {ps : List Piece} (h : ∀ p ∈ ps, 0 < p.span) :
    (recordsFrom position ps).Pairwise (fun a b => a.span.offset < b.span.offset) := by
  induction ps generalizing position with
  | nil => exact .nil
  | cons p ps ih =>
      have hp := h p (by simp)
      have hps : ∀ q ∈ ps, 0 < q.span := fun q hq => h q (List.mem_cons_of_mem _ hq)
      rw [recordsFrom]
      split
      · exact ih hps
      · refine .cons (fun b hb => ?_) (ih hps)
        have := offset_of_mem_recordsFrom hb
        simp only [recordAt]
        omega

theorem framed_nodup {limit : Nat} (hlimit : 0 < limit) (content : Bytes) :
    (framed limit content).Nodup := by
  have h : (framed limit content).Pairwise fun a b => a.span.offset < b.span.offset :=
    recordsFrom_pairwise ((pieces_cuts hlimit content).span_pos hlimit)
  exact h.imp fun hlt he => by rw [he] at hlt; exact Nat.lt_irrefl _ hlt

theorem framed_prefix {limit : Nat} (hlimit : 0 < limit) {bs cs : Bytes} (h : bs <+: cs) :
    framed limit bs <+: framed limit cs := by
  obtain ⟨more, hm⟩ := pieces_prefix hlimit h
  exact ⟨_, by rw [framed, framed, ← hm, recordsFrom_append]⟩

@[simp] theorem moveTo_moveTo (r : Reader) (m n : Nat) : (r.moveTo m).moveTo n = r.moveTo n := rfl

@[simp] theorem moveTo_offset (r : Reader) : r.moveTo r.offset = r := rfl

@[simp] theorem offset_moveTo (r : Reader) (n : Nat) : (r.moveTo n).offset = n := rfl

@[simp] theorem fingerprint_moveTo (r : Reader) (n : Nat) :
    (r.moveTo n).fingerprint = r.fingerprint := rfl

end Reader

namespace Outlet

def Intact (o : Outlet) : Prop := o.looks = [] ∧ o.cancelled = false

/-- The outlet took some batches and nothing else happened to it, but that others were refused and
its token may have been cancelled. -/
structure Took (o o' : Outlet) (bs : List Batch) : Prop where
  accepted : o'.accepted = bs.reverse ++ o.accepted
  verdict : o'.verdict = o.verdict
  offered : o.offered ≤ o'.offered
  cancelled : o.cancelled = true → o'.cancelled = true
  intact : o.Intact → (∀ i, o.verdict i ≠ .acceptAndCancel) → o'.Intact
  cancels : ∀ i, o.offered ≤ i → i < o'.offered → o.verdict i = .acceptAndCancel →
    o'.cancelled = true

theorem Took.refl (o : Outlet) : o.Took o [] :=
  ⟨rfl, rfl, Nat.le_refl _, id, fun h _ => h, fun _ hi hlt => absurd hlt (Nat.not_lt.mpr hi)⟩

theorem Took.trans {o o' o'' : Outlet} {bs cs : List Batch} (h : o.Took o' bs)
    (h' : o'.Took o'' cs) : o.Took o'' (bs ++ cs) where
  accepted := by rw [h'.accepted, h.accepted, List.reverse_append, List.append_assoc]
  verdict := h'.verdict.trans h.verdict
  offered := Nat.le_trans h.offered h'.offered
  cancelled hc := h'.cancelled (h.cancelled hc)
  intact hn hv := h'.intact (h.intact hn hv) (by rw [h.verdict]; exact hv)
  cancels i hi hlt hv := by
    by_cases hfirst : i < o'.offered
    · exact h'.cancelled (h.cancels i hi hfirst hv)
    · exact h'.cancels i (by omega) hlt (by rw [h.verdict]; exact hv)

theorem Took.suffix {o o' : Outlet} {bs : List Batch} (h : o.Took o' bs) : o.accepted <:+ o'.accepted :=
  ⟨bs.reverse, h.accepted.symm⟩

theorem Took.batches_eq {o o' : Outlet} {bs : List Batch} (h : o.Took o' bs) :
    o'.batches = o.batches ++ bs := by
  rw [batches, h.accepted, List.reverse_append, List.reverse_reverse, batches]

/-- Nothing was refused and nothing cancelled between two states of an outlet. -/
structure Calm (o o' : Outlet) : Prop where
  intact : o'.cancelled = false
  accepting : ∀ i, o.offered ≤ i → i < o'.offered → o.verdict i = .accept

theorem Took.calm {o o' : Outlet} {bs : List Batch} (h : o.Took o' bs)
    (haccept : ∀ i, o.verdict i = .accept ∨ o.verdict i = .acceptAndCancel)
    (hintact : o'.cancelled = false) : o.Calm o' := by
  refine ⟨hintact, fun i hi hlt => (haccept i).resolve_right fun hc => ?_⟩
  rw [h.cancels i hi hlt hc] at hintact
  cases hintact

theorem Calm.left {o o' o'' : Outlet} {cs : List Batch} (h : o.Calm o'') (took : o'.Took o'' cs) :
    o.Calm o' :=
  ⟨Bool.eq_false_iff.mpr fun hc => Bool.eq_false_iff.mp h.intact (took.cancelled hc),
    fun i hi hlt => h.accepting i hi (Nat.lt_of_lt_of_le hlt took.offered)⟩

theorem Calm.right {o o' o'' : Outlet} {bs : List Batch} (h : o.Calm o'') (took : o.Took o' bs) :
    o'.Calm o'' :=
  ⟨h.intact, fun i hi hlt => by
    rw [took.verdict]; exact h.accepting i (Nat.le_trans took.offered hi) hlt⟩

structure Willing (o : Outlet) : Prop where
  intact : o.Intact
  accepting : ∀ i, o.verdict i = .accept

theorem willing_willing : willing.Willing := ⟨⟨rfl, rfl⟩, fun _ => rfl⟩

theorem Willing.took {o o' : Outlet} {bs : List Batch} (h : o.Willing) (took : o.Took o' bs) :
    o'.Willing :=
  ⟨took.intact h.intact fun i => by simp [h.accepting i], by rw [took.verdict]; exact h.accepting⟩

theorem Willing.calm {o o' : Outlet} {bs : List Batch} (h : o.Willing) (took : o.Took o' bs) :
    o.Calm o' :=
  ⟨(h.took took).intact.2, fun i _ _ => h.accepting i⟩

theorem took_look (o : Outlet) : o.Took o.look.2 [] := by
  unfold look
  split
  · exact .refl o
  · next hlooks =>
      exact ⟨rfl, rfl, Nat.le_refl _, fun hc => by simp [hc], fun h => by simp [h.1] at hlooks,
        fun i hi hlt => absurd hlt (Nat.not_lt.mpr hi)⟩

theorem cancelled_look (o : Outlet) : o.look.2.cancelled = (o.cancelled || o.look.1) := by
  unfold look
  split
  · rw [Bool.or_self]
  · rfl

theorem cancelled_of_look {o : Outlet} (h : o.look.1 = true) : o.look.2.cancelled = true := by
  rw [cancelled_look, h, Bool.or_true]

theorem cancelled_of_lookJoined {o : Outlet} (h : o.lookJoined.1 = false) : o.cancelled = false := by
  refine Bool.eq_false_iff.mpr fun hc => ?_
  have hthen : o.look.2.cancelled = true := o.took_look.cancelled hc
  exact Bool.eq_false_iff.mp h hthen

theorem look_intact {o : Outlet} (h : o.Intact) : o.look = (false, o) := by
  simp [look, h.1, h.2]

theorem lookJoined_intact {o : Outlet} (h : o.Intact) : o.lookJoined = (false, o) := by
  rw [lookJoined, look_intact h, h.2]

theorem took_offer (o : Outlet) (b : Batch) :
    o.Took (o.offer b).2 (if (o.offer b).1 = .refuse then [] else [b]) := by
  unfold offer
  cases hv : o.verdict o.offered with
  | refuse | accept | acceptAndCrash =>
      refine ⟨rfl, rfl, Nat.le_succ _, id, fun h _ => h, fun i hi hlt hc => ?_⟩
      obtain rfl : i = o.offered := Nat.le_antisymm (Nat.lt_succ_iff.mp hlt) hi
      rw [hv] at hc
      cases hc
  | acceptAndCancel =>
      exact ⟨rfl, rfl, Nat.le_succ _, fun _ => rfl, fun _ h => absurd hv (h _), fun _ _ _ _ => rfl⟩

theorem verdict_offer (o : Outlet) (b : Batch) : (o.offer b).1 = o.verdict o.offered := by
  unfold offer
  cases o.verdict o.offered <;> rfl

theorem offered_offer (o : Outlet) (b : Batch) : (o.offer b).2.offered = o.offered + 1 := by
  unfold offer
  cases o.verdict o.offered <;> rfl

theorem Calm.offer {o : Outlet} {b : Batch} (h : o.Calm (o.offer b).2) : (o.offer b).1 = .accept := by
  rw [verdict_offer]
  exact h.accepting _ (Nat.le_refl _) (by rw [offered_offer]; exact Nat.lt_succ_self _)

end Outlet

namespace Reader

/-- A delivery of pieces from a reader's offset on. The pieces taken are behind the new offset, and
unless the emitter died their records are those of the batches that were accepted. -/
structure Delivery (ps : List Piece) (r : Reader) (o : Outlet) (ended : ReadEnd) (r' : Reader)
    (o' : Outlet) (bs : List Batch) (taken left : List Piece) : Prop where
  split : ps = taken ++ left
  moved : r' = r.moveTo (r.offset + extent taken)
  took : o.Took o' bs
  stamped : ∀ b ∈ bs, b.metadata.fingerprint = r.fingerprint
  filled : ∀ b ∈ bs, b.records ≠ []
  records : ended ≠ .crashed → bs.flatMap Batch.records = recordsFrom r.offset taken
  whole : ended = .done → left = []
  calm : o.Calm o' → ended = .done
  crashed : ended = .crashed → ∃ i, o.verdict i = .acceptAndCrash

theorem Delivery.none {ps : List Piece} {r : Reader} {o o' : Outlet} {ended : ReadEnd}
    (took : o.Took o' []) (whole : ended ≠ .done) (calm : ¬ o.Calm o')
    (crashed : ended = .crashed → ∃ i, o.verdict i = .acceptAndCrash) :
    Delivery ps r o ended r o' [] [] ps :=
  ⟨rfl, rfl, took, by simp, by simp, fun _ => rfl, fun h => absurd h whole, fun h => absurd h calm,
    crashed⟩

/-- How a flush of what pends goes: there is nothing, or the batch of it is accepted, refused, or the one
over which the emitter dies. -/
inductive Flushes (r : Reader) (pending : List Record) (stop : Nat) (o : Outlet) :
    ReadEnd × Reader × Outlet → List Batch → Prop
  | idle (hnone : pending = []) : Flushes r pending stop o (.done, r.moveTo stop, o) []
  | accepted {o' : Outlet} (hfilled : pending ≠ [])
      (htook : o.Took o' [⟨r.path, pending.reverse, r.metadata⟩]) :
      Flushes r pending stop o (.done, r.moveTo stop, o') [⟨r.path, pending.reverse, r.metadata⟩]
  | refused {o' : Outlet} (htook : o.Took o' []) (huncalm : ¬ o.Calm o') :
      Flushes r pending stop o (.refused, r, o') []
  | crashed {o' : Outlet} (hfilled : pending ≠ [])
      (htook : o.Took o' [⟨r.path, pending.reverse, r.metadata⟩]) (huncalm : ¬ o.Calm o')
      (hdies : o.verdict o.offered = .acceptAndCrash) :
      Flushes r pending stop o (.crashed, r, o') [⟨r.path, pending.reverse, r.metadata⟩]

theorem flush_flushes (r : Reader) (pending : List Record) (stop : Nat) (o : Outlet) :
    ∃ bs, Flushes r pending stop o (r.flush pending stop o) bs := by
  unfold flush
  by_cases hempty : pending.isEmpty
  · rw [if_pos hempty]
    exact ⟨_, .idle (List.isEmpty_iff.mp hempty)⟩
  · rw [if_neg hempty]
    have hfilled : pending ≠ [] := by simpa using hempty
    have htook := o.took_offer ⟨r.path, pending.reverse, r.metadata⟩
    have hverdict := o.verdict_offer ⟨r.path, pending.reverse, r.metadata⟩
    have hcalm := Outlet.Calm.offer (o := o) (b := ⟨r.path, pending.reverse, r.metadata⟩)
    cases hv : (o.offer ⟨r.path, pending.reverse, r.metadata⟩) with
    | mk v o' =>
        rw [hv] at htook hverdict hcalm
        dsimp only at htook hverdict hcalm
        cases v with
        | refuse => exact ⟨_, .refused (by simpa using htook) fun h => absurd (hcalm h) (by simp)⟩
        | acceptAndCrash =>
            exact ⟨_, .crashed hfilled (by simpa using htook) (fun h => absurd (hcalm h) (by simp))
              hverdict.symm⟩
        | accept | acceptAndCancel => exact ⟨_, .accepted hfilled (by simpa using htook)⟩

theorem Flushes.took {r : Reader} {pending : List Record} {stop : Nat} {o : Outlet}
    {out : ReadEnd × Reader × Outlet} {bs : List Batch} (h : Flushes r pending stop o out bs) :
    o.Took out.2.2 bs := by
  cases h with
  | idle => exact .refl o
  | accepted _ htook | refused htook | crashed _ htook => exact htook

theorem flush_delivers (r : Reader) (o : Outlet) {pending : List Record} {ps : List Piece}
    (hpending : pending.reverse = recordsFrom r.offset ps) :
    ∃ bs taken left,
      Delivery ps r o (r.flush pending (r.offset + extent ps) o).1
        (r.flush pending (r.offset + extent ps) o).2.1
        (r.flush pending (r.offset + extent ps) o).2.2 bs taken left := by
  obtain ⟨bs, hflush⟩ := r.flush_flushes pending (r.offset + extent ps) o
  generalize r.flush pending (r.offset + extent ps) o = out at hflush ⊢
  cases hflush with
  | idle hnone =>
      exact ⟨[], ps, [], ⟨by simp, rfl, .refl o, by simp, by simp,
        fun _ => by simpa [hnone] using hpending, fun _ => rfl, fun _ => rfl, by simp⟩⟩
  | accepted hfilled htook =>
      exact ⟨_, ps, [], ⟨by simp, rfl, htook, by simp [Reader.fingerprint], by simpa using hfilled,
        fun _ => by simpa using hpending, fun _ => rfl, fun _ => rfl, by simp⟩⟩
  | refused htook huncalm => exact ⟨[], [], ps, .none htook (by simp) huncalm (by simp)⟩
  | crashed hfilled htook huncalm hdies =>
      exact ⟨_, [], ps, ⟨rfl, rfl, htook, by simp [Reader.fingerprint], by simpa using hfilled,
        by simp, by simp, fun h => absurd h huncalm, fun _ => ⟨_, hdies⟩⟩⟩

theorem Delivery.trans {ps qs : List Piece} {r r' r'' : Reader} {o o' o'' : Outlet}
    {ended : ReadEnd} {bs cs : List Batch} {taken left : List Piece}
    (h : Delivery ps r o .done r' o' bs ps []) (h' : Delivery qs r' o' ended r'' o'' cs taken left) :
    Delivery (ps ++ qs) r o ended r'' o'' (bs ++ cs) (ps ++ taken) left where
  split := by rw [h'.split, List.append_assoc]
  moved := by rw [h'.moved, h.moved, moveTo_moveTo, offset_moveTo, extent_append, Nat.add_assoc]
  took := h.took.trans h'.took
  stamped b hb := by
    rcases List.mem_append.mp hb with hb | hb
    · exact h.stamped b hb
    · rw [h'.stamped b hb, h.moved, fingerprint_moveTo]
  filled b hb := (List.mem_append.mp hb).elim (h.filled b) (h'.filled b)
  records hne := by
    rw [List.flatMap_append, h.records (by simp), h'.records hne, h.moved, offset_moveTo,
      recordsFrom_append]
  whole := h'.whole
  calm hc := h'.calm (hc.right h.took)
  crashed he := by rw [← h.took.verdict]; exact h'.crashed he

theorem Delivery.before {ps : List Piece} {r r' : Reader} {o o' : Outlet} {ended : ReadEnd}
    {bs : List Batch} {taken left : List Piece} (h : Delivery ps r o ended r' o' bs taken left)
    (hended : ended ≠ .done) (qs : List Piece) :
    Delivery (ps ++ qs) r o ended r' o' bs taken (left ++ qs) :=
  { h with
    split := by rw [h.split, List.append_assoc]
    whole := fun hd => absurd hd hended }

theorem Delivery.after_look {ps : List Piece} {r r' : Reader} {o o' : Outlet} {ended : ReadEnd}
    {bs : List Batch} {taken left : List Piece}
    (h : Delivery ps r o.look.2 ended r' o' bs taken left) :
    Delivery ps r o ended r' o' bs taken left :=
  { h with
    took := by simpa using o.took_look.trans h.took
    calm := fun hc => h.calm (hc.right o.took_look)
    crashed := fun he => by rw [← o.took_look.verdict]; exact h.crashed he }

theorem Delivery.at_look {ps : List Piece} {r : Reader} {o o' : Outlet} (h : o.look = (true, o')) :
    Delivery ps r o .cancelled r o' [] [] ps :=
  have hl : o'.cancelled = true := by simpa [h] using Outlet.cancelled_of_look (o := o) (by rw [h])
  .none (by simpa [h] using o.took_look) (by simp) (fun hc => by simp [hc.intact] at hl) (by simp)

theorem deliver_delivers (ps : List Piece) (count : Nat) (r : Reader) (o : Outlet)
    {qs : List Piece} {pending : List Record} (hpending : pending.reverse = recordsFrom r.offset qs) :
    ∃ bs taken left,
      Delivery (qs ++ ps) r o (deliver ps (r.offset + extent qs) pending count r o).1
        (deliver ps (r.offset + extent qs) pending count r o).2.1
        (deliver ps (r.offset + extent qs) pending count r o).2.2 bs taken left := by
  induction ps generalizing qs pending count r o with
  | nil =>
      rw [deliver]
      cases hlook : o.look with
      | mk shown o' =>
          cases shown with
          | true => exact ⟨_, _, _, .at_look hlook⟩
          | false =>
              obtain ⟨bs, taken, left, hd⟩ := flush_delivers r o' hpending
              exact ⟨bs, taken, left, .after_look (by rw [hlook, List.append_nil]; exact hd)⟩
  | cons p ps ih =>
      rw [deliver]
      cases hlook : o.look with
      | mk shown o' =>
          cases shown with
          | true => exact ⟨_, _, _, .at_look hlook⟩
          | false =>
              dsimp only
              rw [show r.offset + extent qs + p.span = r.offset + extent (qs ++ [p]) by
                simp [Nat.add_assoc]]
              -- what pends once this piece is added
              generalize hadded : (if p.body.isEmpty then (pending, count)
                else (recordAt (r.offset + extent qs) p :: pending, count + 1)) = added
              have hpending' : added.1.reverse = recordsFrom r.offset (qs ++ [p]) := by
                rw [recordsFrom_append, ← hpending, ← hadded, recordsFrom]
                split <;> simp
              have hassoc : qs ++ p :: ps = (qs ++ [p]) ++ ps := by simp
              split
              · obtain ⟨bs, taken, left, hd⟩ := flush_delivers r o' hpending'
                cases hf : r.flush added.1 (r.offset + extent (qs ++ [p])) o' with
                | mk ended rest =>
                    obtain ⟨r', o''⟩ := rest
                    rw [hf] at hd
                    dsimp only at hd
                    by_cases hended : ended = .done
                    · subst hended
                      have hleft := hd.whole rfl
                      have htaken : taken = qs ++ [p] := by simpa [hleft] using hd.split.symm
                      subst hleft htaken
                      have hoff : r'.offset + extent [] = r.offset + extent (qs ++ [p]) := by
                        simp [hd.moved]
                      obtain ⟨cs, taken', left', hd'⟩ := @ih 0 r' o'' [] [] rfl
                      rw [hoff] at hd'
                      refine ⟨bs ++ cs, (qs ++ [p]) ++ taken', left', .after_look ?_⟩
                      rw [hlook, hassoc]
                      exact hd.trans hd'
                    · refine ⟨bs, taken, left ++ ps, .after_look ?_⟩
                      rw [hlook, hassoc]
                      cases ended with
                      | done => exact absurd rfl hended
                      | cancelled => exact hd.before hended ps
                      | refused => exact hd.before hended ps
                      | crashed => exact hd.before hended ps
              · obtain ⟨bs, taken, left, hd⟩ := ih added.2 r o' hpending'
                exact ⟨bs, taken, left, .after_look (by rw [hlook, hassoc]; exact hd)⟩

theorem rewound_of_le {r : Reader} {length : Nat} (h : r.offset ≤ length) : r.rewound length = r := by
  simp [rewound, Nat.not_lt.mpr h]

theorem rewound_le (r : Reader) (length : Nat) : (r.rewound length).offset ≤ length := by
  unfold rewound
  split
  · simp
  · omega

/-- Reading delivers the pieces behind the offset, in a file that became shorter those of all of
it. -/
theorem read_delivers (r : Reader) (content : Bytes) (o : Outlet) :
    ∃ bs taken left,
      Delivery (pieces r.maxLogSize (content.drop (r.rewound content.length).offset))
        (r.rewound content.length) o (r.read content o).1 (r.read content o).2.1
        (r.read content o).2.2 bs taken left := by
  have hlimit : (r.rewound content.length).maxLogSize = r.maxLogSize := by
    unfold rewound
    split <;> rfl
  rw [read, ← hlimit]
  simpa using @deliver_delivers _ 0 (r.rewound content.length) o [] [] rfl

theorem read_willing (r : Reader) (content : Bytes) {o : Outlet} (ho : o.Willing) :
    let start := (r.rewound content.length).offset
    ∃ bs : List Batch, (r.read content o).1 = .done ∧ o.Took (r.read content o).2.2 bs ∧
      bs.flatMap Batch.records = recordsFrom start (pieces r.maxLogSize (content.drop start)) := by
  intro start
  obtain ⟨bs, taken, left, hd⟩ := r.read_delivers content o
  have hdone := hd.calm (ho.calm hd.took)
  have hsplit := hd.split
  rw [hd.whole hdone, List.append_nil] at hsplit
  exact ⟨bs, hdone, hd.took, by rw [hd.records (by simp [hdone]), hsplit]⟩

def settle (t : FileTree) (r : Reader) : Reader :=
  match r.handle with
  | none => r
  | some h =>
    let content := t.content h.node
    let r := r.rewound content.length
    r.moveTo (r.offset + extent (pieces r.maxLogSize (content.drop r.offset)))

theorem maxLogSize_rewound (r : Reader) (length : Nat) :
    (r.rewound length).maxLogSize = r.maxLogSize := by
  unfold rewound
  split <;> rfl

theorem handle_rewound (r : Reader) (length : Nat) : (r.rewound length).handle = r.handle := by
  unfold rewound
  split <;> rfl

theorem fingerprint_rewound (r : Reader) (length : Nat) :
    (r.rewound length).fingerprint = r.fingerprint := by
  unfold rewound
  split <;> rfl

theorem settle_closed {r : Reader} (h : r.handle = none) (t : FileTree) : r.settle t = r := by
  simp [settle, h]

theorem settle_open {r : Reader} {h : Handle} (hh : r.handle = some h) (t : FileTree) :
    r.settle t = (r.rewound (t.content h.node).length).moveTo
      ((r.rewound (t.content h.node).length).offset + extent (pieces r.maxLogSize
        ((t.content h.node).drop (r.rewound (t.content h.node).length).offset))) := by
  simp [settle, hh, maxLogSize_rewound]

@[simp] theorem handle_settle (t : FileTree) (r : Reader) : (r.settle t).handle = r.handle := by
  unfold settle
  split
  · rfl
  · exact handle_rewound r _

@[simp] theorem fingerprint_settle (t : FileTree) (r : Reader) :
    (r.settle t).fingerprint = r.fingerprint := by
  unfold settle
  split
  · rfl
  · exact fingerprint_rewound r _

@[simp] theorem maxLogSize_settle (t : FileTree) (r : Reader) :
    (r.settle t).maxLogSize = r.maxLogSize := by
  unfold settle
  split
  · rfl
  · exact maxLogSize_rewound r _

theorem settle_moveTo (t : FileTree) (r : Reader) : ∃ n, r.settle t = r.moveTo n := by
  cases hh : r.handle with
  | none => exact ⟨r.offset, settle_closed hh t⟩
  | some h =>
      rw [settle_open hh, rewound]
      split
      · exact ⟨_, moveTo_moveTo r _ _⟩
      · exact ⟨_, rfl⟩

@[simp] theorem path_settle (t : FileTree) (r : Reader) : (r.settle t).path = r.path := by
  obtain ⟨n, hn⟩ := r.settle_moveTo t
  rw [hn]
  rfl

theorem settle_of_read {r : Reader} {h : Handle} {t : FileTree} (hh : r.handle = some h)
    (hle : r.offset ≤ (t.content h.node).length)
    (hnone : pieces r.maxLogSize ((t.content h.node).drop r.offset) = []) : r.settle t = r := by
  rw [settle_open hh, rewound_of_le hle, hnone]
  simp

theorem pieces_settle {r : Reader} {h : Handle} (t : FileTree) (hh : r.handle = some h)
    (hlimit : 0 < r.maxLogSize) :
    (r.settle t).offset ≤ (t.content h.node).length ∧
      pieces r.maxLogSize ((t.content h.node).drop (r.settle t).offset) = [] := by
  rw [settle_open hh]
  have hle := rewound_le r (t.content h.node).length
  have hext := extent_pieces_le hlimit
    ((t.content h.node).drop (r.rewound (t.content h.node).length).offset)
  rw [List.length_drop] at hext
  refine ⟨by rw [offset_moveTo]; omega, ?_⟩
  rw [offset_moveTo, ← List.drop_drop]
  exact pieces_rest hlimit _

theorem settle_settle (t : FileTree) {r : Reader} (hlimit : 0 < r.maxLogSize) :
    (r.settle t).settle t = r.settle t := by
  cases hh : r.handle with
  | none => simp [settle_closed hh]
  | some h =>
      obtain ⟨hle, hnone⟩ := pieces_settle t hh hlimit
      exact settle_of_read (by simpa using hh) hle (by simpa using hnone)

end Reader

namespace Policy

variable (f : Policy) (m : Metadata) (h : Handle) (fp : Fingerprint) (p : Path) (length : Nat)

@[simp] theorem fingerprint_build (h : Option Handle) :
    (f.build p h m).fingerprint = m.fingerprint := by
  unfold build withPath withName Reader.fingerprint Metadata.withAttribute
  split <;> split <;> (try split) <;> rfl

@[simp] theorem offset_build (h : Option Handle) : (f.build p h m).offset = m.offset := by
  unfold build withPath withName Reader.offset Metadata.withAttribute
  split <;> split <;> (try split) <;> rfl

@[simp] theorem path_build (h : Option Handle) : (f.build p h m).path = p := rfl

@[simp] theorem handle_build (h : Option Handle) : (f.build p h m).handle = h := rfl

@[simp] theorem maxLogSize_build (h : Option Handle) :
    (f.build p h m).maxLogSize = max f.maxLogSize 1 := rfl

@[simp] theorem fingerprint_resume : (f.resume m h fp p).fingerprint = fp := by simp [resume]

@[simp] theorem offset_resume : (f.resume m h fp p).offset = m.offset := by simp [resume]

@[simp] theorem path_resume : (f.resume m h fp p).path = p := rfl

@[simp] theorem handle_resume : (f.resume m h fp p).handle = some h := rfl

@[simp] theorem maxLogSize_resume : (f.resume m h fp p).maxLogSize = max f.maxLogSize 1 := rfl

@[simp] theorem fingerprint_fresh : (f.fresh length h fp p).fingerprint = fp := by simp [fresh]

@[simp] theorem offset_fresh :
    (f.fresh length h fp p).offset = if f.fromBeginning then 0 else length := by simp [fresh]

@[simp] theorem path_fresh : (f.fresh length h fp p).path = p := rfl

@[simp] theorem handle_fresh : (f.fresh length h fp p).handle = some h := rfl

@[simp] theorem maxLogSize_fresh : (f.fresh length h fp p).maxLogSize = max f.maxLogSize 1 := rfl

@[simp] theorem metadata_remembered : (f.remembered m).metadata = m := rfl

@[simp] theorem fingerprint_remembered : (f.remembered m).fingerprint = m.fingerprint := rfl

@[simp] theorem handle_remembered : (f.remembered m).handle = none := rfl

end Policy

end LogTail
