import LogTail.Proofs.Lines

namespace LogTail

open Record Lines

namespace Reader

def behind (offset : Nat) (ls : List Located) : Nat := (ls.getLast?.map Located.stop).getD offset

theorem behind_append_cons (offset : Nat) (ls : List Located) (l : Located) (more : List Located) :
    behind offset (ls ++ l :: more) = behind l.stop more := by
  cases more with
  | nil => simp [behind]
  | cons m more =>
      simp [behind, List.getLast?_append, List.getLast?_eq_some_getLast (List.cons_ne_nil m more)]

/-- Of some records the first were delivered. Unless all was, the offset is where the last of them
ends. -/
structure Partly (r : Reader) (o : Outlet) (ls : List Located) (out : ReadEnd × Reader × Outlet)
    (bs : List Batch) (found : List Located) : Prop where
  took : o.Took out.2.2 bs
  records : bs.flatMap Batch.records = found.map Located.record
  first : found <+: ls
  stopped : out.1 ≠ .done → out.2.1 = r.moveTo (behind r.offset found)

namespace Partly

variable {r : Reader} {o o' : Outlet} {ls more : List Located} {out : ReadEnd × Reader × Outlet}
  {bs : List Batch} {found : List Located}

theorem nothing (h : o.Took o' []) (ended : ReadEnd) : Partly r o ls (ended, r, o') [] [] :=
  ⟨h, rfl, List.nil_prefix, fun _ => rfl⟩

theorem after (h : o.Took o' []) (h' : Partly r o' ls out bs found) : Partly r o ls out bs found :=
  { h' with took := h.trans h'.took }

theorem next {b : Batch} {l : Located} (h : o.Took o' [b])
    (hrecords : b.records = (ls ++ [l]).map Located.record)
    (h' : Partly (r.moveTo l.stop) o' more out bs found) :
    Partly r o (ls ++ l :: more) out (b :: bs) (ls ++ l :: found) where
  took := h.trans h'.took
  records := by
    rw [List.flatMap_cons, hrecords, h'.records, ← List.map_append, List.append_assoc,
      List.singleton_append]
  first := (List.prefix_append_right_inj ls).mpr (List.cons_prefix_cons.mpr ⟨rfl, h'.first⟩)
  stopped hne := by
    rw [h'.stopped hne, behind_append_cons]
    rfl

end Partly

theorem flush_partly (r : Reader) (o : Outlet) (ls : List Located) (stop : Nat)
    (hlives : (r.flush (ls.map Located.record).reverse stop o).1 ≠ .crashed) :
    ∃ bs found, Partly r o ls (r.flush (ls.map Located.record).reverse stop o) bs found := by
  obtain ⟨bs, hflush⟩ := r.flush_flushes (ls.map Located.record).reverse stop o
  generalize r.flush (ls.map Located.record).reverse stop o = out at hflush hlives ⊢
  cases hflush with
  | idle => exact ⟨[], [], .refl o, rfl, List.nil_prefix, fun h => absurd rfl h⟩
  | accepted _ htook => exact ⟨_, ls, htook, by simp, List.prefix_rfl, fun h => absurd rfl h⟩
  | refused htook => exact ⟨_, _, .nothing htook .refused⟩
  | crashed => exact absurd rfl hlives

theorem deliver_partly (ps : List Piece) (position : Nat) (ls : List Located) (r : Reader)
    (o : Outlet) (hfew : ls.length < r.emitBatchSize)
    (hlives : (deliver ps position (ls.map Located.record).reverse ls.length r o).1 ≠ .crashed) :
    ∃ bs found, Partly r o (ls ++ locate position ps)
      (deliver ps position (ls.map Located.record).reverse ls.length r o) bs found := by
  have htook := o.took_look
  induction ps generalizing position ls r o with
  | nil =>
      rw [deliver] at hlives ⊢
      rw [locate, List.append_nil]
      cases hlook : o.look with
      | mk shown o' =>
          rw [hlook] at htook
          simp only [hlook] at hlives
          cases shown with
          | true => exact ⟨_, _, .nothing htook .cancelled⟩
          | false =>
              obtain ⟨bs, found, h⟩ := r.flush_partly o' ls position hlives
              exact ⟨bs, found, h.after htook⟩
  | cons p ps ih =>
      rw [deliver] at hlives ⊢
      rw [locate]
      cases hlook : o.look with
      | mk shown o' =>
          rw [hlook] at htook
          simp only [hlook] at hlives
          cases shown with
          | true => exact ⟨_, _, .nothing htook .cancelled⟩
          | false =>
              dsimp only at hlives ⊢
              by_cases hempty : p.body.isEmpty
              · rw [if_pos hempty] at hlives ⊢
                rw [if_pos hempty]
                rw [if_neg (Nat.not_le.mpr hfew)] at hlives ⊢
                obtain ⟨bs, found, h⟩ := ih (position + p.span) ls r o' hfew hlives o'.took_look
                exact ⟨bs, found, h.after htook⟩
              · rw [if_neg hempty] at hlives ⊢
                rw [if_neg hempty]
                let l : Located := ⟨position, p.body, p.span⟩
                have hpending : recordAt position p :: (ls.map Located.record).reverse =
                    ((ls ++ [l]).map Located.record).reverse := by
                  rw [List.map_append, List.reverse_append]
                  rfl
                dsimp only at hlives ⊢
                rw [hpending] at hlives ⊢
                by_cases hfull : r.emitBatchSize ≤ ls.length + 1
                · rw [if_pos hfull] at hlives ⊢
                  obtain ⟨cs, hflush⟩ :=
                    r.flush_flushes ((ls ++ [l]).map Located.record).reverse (position + p.span) o'
                  generalize r.flush ((ls ++ [l]).map Located.record).reverse (position + p.span) o' =
                    flushed at hflush hlives ⊢
                  cases hflush with
                  | idle hnone => simp at hnone
                  | @accepted o'' _ ht =>
                      -- the next batch begins empty behind this piece
                      obtain ⟨bs, found, h⟩ := ih (position + p.span) [] (r.moveTo (position + p.span))
                        o'' (Nat.zero_lt_of_lt hfew) hlives o''.took_look
                      exact ⟨_, _, (h.next (l := l) ht (List.reverse_reverse _)).after htook⟩
                  | refused ht => exact ⟨_, _, .nothing (htook.trans ht) .refused⟩
                  | crashed => exact absurd rfl hlives
                · rw [if_neg hfull] at hlives ⊢
                  have hlen : ls.length + 1 = (ls ++ [l]).length := by simp
                  rw [hlen] at hlives ⊢
                  obtain ⟨bs, found, h⟩ := ih (position + p.span) (ls ++ [l]) r o'
                    (by rw [← hlen]; omega) hlives o'.took_look
                  rw [List.append_assoc] at h
                  exact ⟨bs, found, h.after htook⟩

/-- A call of a reader whose offset is in its file, unless it kills the emitter. What it delivers are the
first records of the lines behind the offset, and if it does not come to its end the offset is left
where the last batch it delivered ends. -/
theorem read_partly (r : Reader) (content : Bytes) (o : Outlet) (hlimit : 0 < r.maxLogSize)
    (hsize : 0 < r.emitBatchSize) (hoffset : r.offset ≤ content.length)
    (hlives : (r.read content o).1 ≠ .crashed) :
    ∃ bs found,
      Partly r o (located r.maxLogSize r.offset ((content.drop r.offset).splitOn 10))
        (r.read content o) bs found := by
  obtain ⟨ps, hcuts, -, hlocate⟩ := cuts_lines hlimit (content.drop r.offset)
  have hpieces : pieces r.maxLogSize (content.drop r.offset) = ps := (pieces_cuts hlimit _).unique hcuts
  rw [Reader.read, rewound_of_le hoffset, hpieces] at hlives ⊢
  rw [← hlocate]
  exact deliver_partly ps r.offset [] r o hsize hlives

end Reader

namespace Schedule

open Reader

/-- What may happen to a file and to the reader that follows it. A call of the reader has verdicts
and a token of its own; a reader that takes over may have other limits. -/
inductive Step
  | append (bytes : Bytes)
  | read (verdict : Nat → Verdict) (looks : List Bool)
  | resume (f : Policy) (h : Handle) (fp : Fingerprint) (path : Path)

structure State where
  content : Bytes
  reader : Reader
  accepted : List Batch

namespace State

def call (s : State) (verdict : Nat → Verdict) (looks : List Bool) : ReadEnd × Reader × Outlet :=
  s.reader.read s.content (.answering verdict looks)

def step (s : State) : Step → State
  | .append bytes => { s with content := s.content ++ bytes }
  | .read verdict looks =>
    { s with
      reader := (s.call verdict looks).2.1
      accepted := s.accepted ++ (s.call verdict looks).2.2.batches }
  | .resume f h fp path => { s with reader := f.resume s.reader.metadata h fp path }

def run (s : State) (steps : List Step) : State := steps.foldl step s

def records (s : State) : List Record := s.accepted.flatMap Batch.records

end State

def Step.Sound (limit : Nat) : Step → Prop
  | .append _ => True
  | .read verdict _ => ∀ i, verdict i ≠ .acceptAndCrash
  | .resume f _ _ _ => max f.maxLogSize 1 = limit

theorem State.call_lives (s : State) {verdict : Nat → Verdict}
    (hverdict : ∀ i, verdict i ≠ .acceptAndCrash) (looks : List Bool) :
    (s.call verdict looks).1 ≠ .crashed := by
  obtain ⟨bs, taken, left, hd⟩ := s.reader.read_delivers s.content (.answering verdict looks)
  intro hc
  obtain ⟨i, hi⟩ := hd.crashed hc
  exact hverdict i hi

/-- All that one call without any disturbance delivers. -/
def undisturbed (r : Reader) (content : Bytes) : List Record :=
  (r.read content .willing).2.2.batches.flatMap Batch.records

/-- The pieces taken so far are the first behind the offset at which reading began; the reader is
behind them, and their records were delivered. -/
structure Reads (start limit : Nat) (s : State) (taken : List Piece) : Prop where
  limit_eq : s.reader.maxLogSize = limit
  inside : start ≤ s.content.length
  first : taken <+: pieces limit (s.content.drop start)
  offset : s.reader.offset = start + extent taken
  records : s.records = recordsFrom start taken
  filled : 0 < s.reader.emitBatchSize

namespace Reads

variable {start limit : Nat} {s : State} {taken : List Piece}

theorem offset_le (hlimit : 0 < limit) (h : Reads start limit s taken) :
    s.reader.offset ≤ s.content.length := by
  obtain ⟨left, hleft⟩ := h.first
  have hext := extent_pieces_le hlimit (s.content.drop start)
  have := h.inside
  rw [← hleft, extent_append, List.length_drop] at hext
  rw [h.offset]
  omega

theorem call (hlimit : 0 < limit) (h : Reads start limit s taken) {verdict : Nat → Verdict}
    (hverdict : ∀ i, verdict i ≠ .acceptAndCrash) (looks : List Bool) :
    ∃ more, Reads start limit (s.step (.read verdict looks)) (taken ++ more) ∧
      ((Outlet.answering verdict looks).Calm (s.call verdict looks).2.2 →
        taken ++ more = pieces limit (s.content.drop start)) := by
  obtain ⟨bs, more, left, hd⟩ := s.reader.read_delivers s.content (.answering verdict looks)
  obtain ⟨rest, hrest⟩ := h.first
  have hpieces : pieces limit (s.content.drop s.reader.offset) = rest := by
    rw [h.offset, ← List.drop_drop]
    exact pieces_drop hlimit hrest.symm
  rw [rewound_of_le (h.offset_le hlimit), h.limit_eq, hpieces] at hd
  have hlives := s.call_lives hverdict looks
  have hall : taken ++ more ++ left = pieces limit (s.content.drop start) := by
    rw [List.append_assoc, ← hd.split, hrest]
  have hmoved : (s.step (.read verdict looks)).reader =
      s.reader.moveTo (s.reader.offset + extent more) := hd.moved
  have hbatches : (s.call verdict looks).2.2.batches = bs := hd.took.batches_eq
  refine ⟨more, ⟨by rw [hmoved]; exact h.limit_eq, h.inside, ⟨left, hall⟩, ?_, ?_, by
    rw [hmoved]; exact h.filled⟩, fun hcalm => ?_⟩
  · rw [hmoved, offset_moveTo, h.offset, extent_append, Nat.add_assoc]
  · change (s.accepted ++ (s.call verdict looks).2.2.batches).flatMap Batch.records = _
    have hbefore : s.accepted.flatMap Batch.records = recordsFrom start taken := h.records
    rw [hbatches, List.flatMap_append, hd.records hlives, hbefore, recordsFrom_append, h.offset]
  · rw [← hall, hd.whole (hd.calm hcalm), List.append_nil]

theorem step (hlimit : 0 < limit) (h : Reads start limit s taken) {a : Step} (ha : a.Sound limit) :
    ∃ taken', Reads start limit (s.step a) taken' := by
  cases a with
  | append bytes =>
      have hinside : start ≤ (s.content ++ bytes).length := by
        rw [List.length_append]
        exact Nat.le_trans h.inside (Nat.le_add_right _ _)
      have hfirst : pieces limit (s.content.drop start) <+:
          pieces limit ((s.content ++ bytes).drop start) := by
        rw [List.drop_append_of_le_length h.inside]
        exact pieces_prefix hlimit (List.prefix_append _ _)
      exact ⟨taken, { h with inside := hinside, first := h.first.trans hfirst }⟩
  | read verdict looks =>
      obtain ⟨more, hmore, -⟩ := h.call hlimit ha looks
      exact ⟨_, hmore⟩
  | resume f handle fp path =>
      have hoffset : (f.resume s.reader.metadata handle fp path).offset = s.reader.offset :=
        Policy.offset_resume ..
      have hfilled : 0 < (f.resume s.reader.metadata handle fp path).emitBatchSize :=
        Nat.lt_of_lt_of_le Nat.one_pos (Nat.le_max_right _ _)
      exact ⟨taken, { h with limit_eq := ha, offset := hoffset.trans h.offset, filled := hfilled }⟩

theorem run (hlimit : 0 < limit) (h : Reads start limit s taken) {steps : List Step}
    (hsteps : ∀ a ∈ steps, a.Sound limit) : ∃ taken', Reads start limit (s.run steps) taken' := by
  induction steps generalizing s taken with
  | nil => exact ⟨taken, h⟩
  | cons a steps ih =>
      obtain ⟨taken', h'⟩ := h.step hlimit (hsteps a (by simp))
      exact ih h' fun b hb => hsteps b (List.mem_cons_of_mem _ hb)

end Reads

theorem undisturbed_eq {r : Reader} {content : Bytes} (hoffset : r.offset ≤ content.length) :
    undisturbed r content =
      recordsFrom r.offset (pieces r.maxLogSize (content.drop r.offset)) := by
  obtain ⟨bs, taken, left, hd⟩ := r.read_delivers content .willing
  rw [rewound_of_le hoffset] at hd
  have hwilling : Outlet.willing.Willing := Outlet.willing_willing
  have hdone := hd.calm (hwilling.calm hd.took)
  have hbatches : (r.read content .willing).2.2.batches = bs := hd.took.batches_eq
  rw [undisturbed, hbatches, hd.records (by simp [hdone]), hd.split, hd.whole hdone, List.append_nil]

/-- However a file grows and its reader is called, refused, cancelled and taken over from, the records
accepted are the first of those that one undisturbed call on the final content delivers, and all of
them behind a call that nothing disturbs. A call that is refused or cancelled leaves the reader open
where the last batch it delivered ends. -/
theorem delivers_on_any_schedule (s : State) (steps : List Step) (hlimit : 0 < s.reader.maxLogSize)
    (hsize : 0 < s.reader.emitBatchSize) (hoffset : s.reader.offset ≤ s.content.length)
    (hnone : s.accepted = []) (hsteps : ∀ a ∈ steps, a.Sound s.reader.maxLogSize) :
    let t := s.run steps
    let all := undisturbed s.reader t.content
    t.records <+: all ∧
      ∀ verdict looks, (∀ i, verdict i ≠ .acceptAndCrash) →
        let out := t.call verdict looks
        ((Outlet.answering verdict looks).Calm out.2.2 → (t.step (.read verdict looks)).records = all) ∧
        (out.1 ≠ .done →
          out.2.1.handle = t.reader.handle ∧
          ∃ found,
            found <+: located s.reader.maxLogSize t.reader.offset
              ((t.content.drop t.reader.offset).splitOn 10) ∧
            out.2.2.batches.flatMap Batch.records = found.map Located.record ∧
            out.2.1.offset = behind t.reader.offset found) := by
  intro t all
  have hstart : Reads s.reader.offset s.reader.maxLogSize s [] :=
    ⟨rfl, hoffset, List.nil_prefix, rfl, by simp [State.records, hnone], hsize⟩
  obtain ⟨taken, h⟩ := hstart.run hlimit hsteps
  have hall : all = recordsFrom s.reader.offset (pieces s.reader.maxLogSize
      (t.content.drop s.reader.offset)) := undisturbed_eq h.inside
  refine ⟨?_, fun verdict looks hverdict => ⟨fun hcalm => ?_, fun hended => ?_⟩⟩
  · obtain ⟨left, hleft⟩ := h.first
    rw [hall, h.records, ← hleft, recordsFrom_append]
    exact List.prefix_append _ _
  · obtain ⟨more, hmore, hwhole⟩ := h.call hlimit hverdict looks
    rw [hall, hmore.records, hwhole hcalm]
  · obtain ⟨bs, found, hp⟩ := t.reader.read_partly t.content (.answering verdict looks)
      (by rw [h.limit_eq]; exact hlimit) h.filled (h.offset_le hlimit) (t.call_lives hverdict looks)
    have hstopped : (t.call verdict looks).2.1 =
        t.reader.moveTo (behind t.reader.offset found) := hp.stopped hended
    have hbatches : (t.call verdict looks).2.2.batches = bs := hp.took.batches_eq
    refine ⟨by rw [hstopped]; rfl, found, ?_, by rw [hbatches, hp.records], by rw [hstopped]; rfl⟩
    rw [← h.limit_eq]
    exact hp.first

theorem delivers_on_any_schedule_taken_over :
    let r : Reader := ⟨⟨"a.log"⟩, some ⟨3, none⟩, ⟨⟨[97]⟩, 0, []⟩, 4, 1⟩
    let s : State := ⟨[97, 10, 98, 10, 99], r, []⟩
    let f : Policy := ⟨1000, 4, 2, true, false, true⟩
    let steps : List Step :=
      [.read (fun i => if i = 1 then .refuse else .accept) [], .append [99, 10, 100, 10],
        .read (fun _ => .accept) [false, true], .resume f ⟨3, none⟩ ⟨[97, 10]⟩ ⟨"b.log"⟩]
    let t := s.run steps
    t.reader.offset = 4 ∧ t.records = [⟨"a", 0, 2⟩, ⟨"b", 2, 2⟩] ∧
      t.records <+: undisturbed s.reader t.content ∧
      (t.step (.read (fun _ => .accept) [])).records = undisturbed s.reader t.content ∧
      undisturbed s.reader t.content = [⟨"a", 0, 2⟩, ⟨"b", 2, 2⟩, ⟨"cc", 4, 3⟩, ⟨"d", 7, 2⟩] ∧
      (t.call (fun _ => .refuse) []).1 = .refused ∧
      (t.call (fun _ => .refuse) []).2.1.offset = 4 := by
  intro r s f steps t
  have hsteps : ∀ a ∈ steps, a.Sound 4 := by
    intro a ha
    simp only [steps, List.mem_cons, List.not_mem_nil, or_false] at ha
    rcases ha with rfl | rfl | rfl | rfl
    · intro i
      dsimp only
      split <;> simp
    · trivial
    · intro i
      simp
    · rfl
  obtain ⟨hfirst, hcall⟩ := delivers_on_any_schedule s steps (by decide) (by decide) (by decide) rfl hsteps
  have hlast := (hcall (fun _ => .accept) [] (by simp)).1 ⟨by decide +kernel, fun _ _ _ => rfl⟩
  exact ⟨by decide +kernel, by decide +kernel, hfirst, hlast, by decide +kernel, by decide +kernel,
    by decide +kernel⟩

end Schedule

end LogTail
