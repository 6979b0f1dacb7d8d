import LogTail.Proofs.Lines
import LogTail.Proofs.Tracking

namespace LogTail

open Record Lines

namespace Record

variable {limit : Nat} {bs rest : Bytes} {p : Piece}

/-- The limit parts the two bytes of the terminator of the line that begins here. -/
def Overruns (limit : Nat) (bs : Bytes) : Prop :=
  ∃ line rest, bs = line ++ 13 :: 10 :: rest ∧ 10 ∉ line ∧ line.length + 1 = limit

theorem cut_span_le (h : cut limit bs = some (p, rest)) :
    p.span ≤ limit ∧ ¬ Overruns limit bs ∨ p.span = limit + 1 ∧ Overruns limit bs := by
  by_cases hover : Overruns limit bs
  · obtain ⟨line, rest', rfl, hline, hlen⟩ := hover
    rw [cut_parted hline hlen] at h
    cases h
    exact .inr ⟨rfl, line, rest, rfl, hline, hlen⟩
  · refine .inl ⟨?_, hover⟩
    cases cut_cutting h with
    | line _ short => exact short
    | slice _ full _ => exact Nat.le_of_eq full
    | parted unbroken full => exact absurd ⟨_, _, rfl, unbroken, full⟩ hover

end Record

namespace Reader

theorem Flushes.records {r : Reader} {pending : List Record} {stop : Nat} {o : Outlet}
    {out : ReadEnd × Reader × Outlet} {bs : List Batch} (h : Flushes r pending stop o out bs) :
    bs.flatMap Batch.records <+: pending.reverse := by
  cases h with
  | idle | refused => exact List.nil_prefix
  | accepted | crashed => simp

theorem deliver_hands (ps : List Piece) (position : Nat) (pending : List Record) (count : Nat)
    (r : Reader) (o : Outlet) :
    ∃ bs, o.Took (deliver ps position pending count r o).2.2 bs ∧
      bs.flatMap Batch.records <+: pending.reverse ++ recordsFrom position ps := by
  induction ps generalizing position pending count r o with
  | nil =>
      rw [deliver]
      cases hlook : o.look with
      | mk shown o' =>
          have htook : o.Took o' [] := by simpa [hlook] using o.took_look
          cases shown with
          | true => exact ⟨[], htook, List.nil_prefix⟩
          | false =>
              obtain ⟨bs, hflush⟩ := r.flush_flushes pending position o'
              exact ⟨bs, htook.trans hflush.took, by simpa using hflush.records⟩
  | cons p ps ih =>
      rw [deliver]
      cases hlook : o.look with
      | mk shown o' =>
          have htook : o.Took o' [] := by simpa [hlook] using o.took_look
          cases shown with
          | true => exact ⟨[], htook, List.nil_prefix⟩
          | false =>
              dsimp only
              -- what pends once this piece is added
              generalize hadded : (if p.body.isEmpty then (pending, count)
                else (recordAt position p :: pending, count + 1)) = added
              have hrecords : pending.reverse ++ recordsFrom position (p :: ps) =
                  added.1.reverse ++ recordsFrom (position + p.span) ps := by
                rw [← hadded, recordsFrom]
                split <;> simp
              rw [hrecords]
              split
              · obtain ⟨bs, hflush⟩ := r.flush_flushes added.1 (position + p.span) o'
                have hfirst := hflush.records.trans
                  (List.prefix_append added.1.reverse (recordsFrom (position + p.span) ps))
                generalize r.flush added.1 (position + p.span) o' = flushed at hflush ⊢
                cases hflush with
                | idle hnone =>
                    obtain ⟨cs, hmore, hrest⟩ := ih (position + p.span) [] 0 (r.moveTo (position + p.span)) o'
                    exact ⟨cs, htook.trans hmore, by simpa [hnone] using hrest⟩
                | @accepted o'' _ hflushed =>
                    obtain ⟨cs, hmore, hrest⟩ := ih (position + p.span) [] 0 (r.moveTo (position + p.span)) o''
                    exact ⟨_, htook.trans (hflushed.trans hmore), by simpa using hrest⟩
                | refused hflushed | crashed _ hflushed => exact ⟨_, htook.trans hflushed, hfirst⟩
              · obtain ⟨bs, hmore, hfirst⟩ := ih (position + p.span) added.1 added.2 r o'
                exact ⟨bs, htook.trans hmore, hfirst⟩

/-- However it ends, reading hands over the first of the records behind the offset. -/
theorem read_hands (r : Reader) (content : Bytes) (o : Outlet) :
    let start := (r.rewound content.length).offset
    ∃ bs, o.Took (r.read content o).2.2 bs ∧
      bs.flatMap Batch.records <+: recordsFrom start (pieces r.maxLogSize (content.drop start)) := by
  simpa [read, maxLogSize_rewound] using
    deliver_hands (pieces r.maxLogSize (content.drop (r.rewound content.length).offset))
      (r.rewound content.length).offset [] 0 (r.rewound content.length) o

/-- In going over some bytes from `start`, a piece is cut off at `position`, and the next one behind the
bytes that this one spans. -/
structure CutAt (limit : Nat) (content : Bytes) (start position : Nat) (p : Piece) : Prop where
  reached : ∃ before, position = start + extent before ∧
    pieces limit (content.drop start) = before ++ pieces limit (content.drop position)
  cut : cut limit (content.drop position) = some (p, content.drop (position + p.span))

theorem cutAt_of_pieces {limit : Nat} (hlimit : 0 < limit) {content : Bytes} {start : Nat}
    {before behind : List Piece} {p : Piece}
    (h : pieces limit (content.drop start) = before ++ p :: behind) :
    CutAt limit content start (start + extent before) p := by
  have hrest : pieces limit (content.drop (start + extent before)) = p :: behind := by
    rw [← List.drop_drop]
    exact pieces_drop hlimit h
  have hcuts := pieces_cuts hlimit (content.drop (start + extent before))
  rw [hrest] at hcuts
  refine ⟨⟨before, rfl, by rw [h, hrest]⟩, ?_⟩
  cases hcuts with
  | piece hs _ =>
      obtain ⟨-, -, hdrop⟩ := cut_span hlimit hs
      rw [hs, ← hdrop, List.drop_drop]

/-- The records that a reader hands over are pieces of its file, each at its position, and each states
how many bytes it spans, which is where the next piece is cut off. Only where the largest limit parts the
terminator of a line is the length one more than can be stated. -/
theorem spans_exact {c : Config} (hvalid : c.validate = .ok ()) (path : Path) (handle : Option Handle)
    (m : Metadata) (content : Bytes) (o : Outlet) :
    let r := c.policy.build path handle m
    let start := (r.rewound content.length).offset
    ∃ bs : List Batch, (r.read content o).2.2.accepted = bs.reverse ++ o.accepted ∧
      ∀ a ∈ bs.flatMap Batch.records,
        ∃ p, CutAt c.maxLogSize content start a.span.offset p ∧
          a.body = Utf8.toStringLossy p.body ∧ p.span ≤ c.maxLogSize + 1 ∧
          (a.span.stop = a.span.offset + p.span ↔
            ¬ (c.maxLogSize = maxSpan ∧ Overruns c.maxLogSize (content.drop a.span.offset))) := by
  intro r start
  have hchecked : c.Valid := Config.validate_eq_ok_iff.mp hvalid
  have hlimit : r.maxLogSize = c.maxLogSize := Policy.limit_config hchecked
  have hpos : 0 < c.maxLogSize := hchecked.lines
  have hmax : c.maxLogSize ≤ maxSpan := hchecked.span
  obtain ⟨bs, htook, hfirst⟩ := r.read_hands content o
  refine ⟨bs, htook.accepted, fun a ha => ?_⟩
  obtain ⟨before, p, behind, hpieces, -, rfl⟩ := mem_recordsFrom (hfirst.subset ha)
  rw [hlimit] at hpieces
  have hcut := cutAt_of_pieces hpos hpieces
  have hstop : (recordAt (start + extent before) p).span.stop = start + extent before + p.span ↔
      p.span ≤ maxSpan := by
    simp only [recordAt, Span.stop]
    omega
  refine ⟨p, hcut, rfl, ?_, hstop.trans ?_⟩
  · rcases cut_span_le hcut.cut with ⟨hle, -⟩ | ⟨heq, -⟩ <;> omega
  · rcases cut_span_le hcut.cut with ⟨hle, hnot⟩ | ⟨heq, hover⟩
    · exact ⟨fun _ h => hnot h.2, fun _ => Nat.le_trans hle hmax⟩
    · exact ⟨fun hle h => by omega, fun h => by
        have : c.maxLogSize ≠ maxSpan := fun he => h ⟨he, hover⟩
        omega⟩

theorem read_overrun {r : Reader} {line : Bytes} {o : Outlet} (hoffset : r.offset = 0) (hline : 10 ∉ line)
    (hfilled : line ≠ []) (hlen : line.length + 1 = r.maxLogSize) (ho : o.Willing) :
    ∃ bs : List Batch, o.Took (r.read (line ++ [13, 10]) o).2.2 bs ∧
      bs.flatMap Batch.records = [recordAt 0 ⟨r.maxLogSize + 1, line⟩] := by
  have hpos : 0 < r.maxLogSize := by omega
  have hpieces : pieces r.maxLogSize (line ++ [13, 10]) = [⟨r.maxLogSize + 1, line⟩] :=
    (pieces_cuts hpos _).unique
      (.piece (cut_parted hline hlen []) (.stop (cut_dry (by simp) hpos)))
  obtain ⟨bs, -, htook, hrecords⟩ := r.read_willing (line ++ [13, 10]) ho
  refine ⟨bs, htook, ?_⟩
  rw [hrecords, rewound_of_le (hoffset ▸ Nat.zero_le _), hoffset, List.drop_zero, hpieces]
  simp [recordsFrom, hfilled]

/-- A file of one line, the largest that the largest limit leaves in one piece, with both bytes of its
terminator. -/
theorem spans_exact_parted :
    let c : Config := { Config.default with includes := ["*.log"], maxLogSize := maxSpan }
    let r := c.policy.build ⟨"a.log"⟩ none ⟨⟨[]⟩, 0, []⟩
    let content : Bytes := List.replicate (maxSpan - 1) 0 ++ [13, 10]
    c.validate = .ok () ∧
      ∃ a p, (r.read content .willing).2.2.batches.flatMap Batch.records = [a] ∧
        CutAt c.maxLogSize content 0 0 p ∧ p.span = 4294967296 ∧ a.span = ⟨0, 4294967295⟩ ∧
        a.span.stop ≠ a.span.offset + p.span := by
  intro c r content
  have hvalid : c.validate = .ok () := by decide +kernel
  obtain ⟨line, hreplicate⟩ : ∃ line, line = List.replicate (maxSpan - 1) (0 : UInt8) := ⟨_, rfl⟩
  have hcontent : content = line ++ [13, 10] := by rw [hreplicate]
  clear_value content
  have hline : 10 ∉ line := by simp [hreplicate, List.mem_replicate]
  have hlen : line.length + 1 = maxSpan := by rw [hreplicate, List.length_replicate]; rfl
  have hfilled : line ≠ [] := by
    rintro rfl
    simp [maxSpan] at hlen
  obtain ⟨bs, htook, hone⟩ := read_overrun (r := r) (o := .willing) rfl hline hfilled hlen
    Outlet.willing_willing
  obtain ⟨bs', haccepted, hspans⟩ :=
    spans_exact hvalid ⟨"a.log"⟩ none ⟨⟨[]⟩, 0, []⟩ content .willing
  rw [← hcontent] at htook
  obtain rfl : bs' = bs := by simpa using haccepted.symm.trans htook.accepted
  have hmem : recordAt 0 ⟨r.maxLogSize + 1, line⟩ ∈ bs'.flatMap Batch.records := by
    rw [hone]
    exact List.mem_singleton_self _
  obtain ⟨p, hcut, -, -, hstop⟩ := hspans _ hmem
  have hp : p = ⟨maxSpan + 1, line⟩ := by
    have h := hcut.cut
    rw [show (recordAt 0 ⟨r.maxLogSize + 1, line⟩).span.offset = 0 from rfl, List.drop_zero, hcontent,
      show c.maxLogSize = maxSpan from rfl, cut_parted hline hlen] at h
    exact (congrArg Prod.fst (Option.some.inj h)).symm
  rw [show (Reader.rewound _ _).offset = 0 from
    congrArg Reader.offset (rewound_of_le (r := r) (Nat.zero_le content.length))] at hcut
  refine ⟨hvalid, recordAt 0 ⟨r.maxLogSize + 1, line⟩, p, ?_, hcut, by rw [hp]; rfl, rfl, ?_⟩
  · rw [Outlet.batches, htook.accepted]
    simpa [Outlet.willing] using hone
  · rw [Ne, hstop, not_not]
    exact ⟨rfl, line, [], hcontent, hline, hlen⟩

end Reader

end LogTail
