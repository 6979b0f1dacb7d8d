import LogTail.Proofs.Polls

namespace LogTail

open Record Tracker

namespace Lines

/-- A record in its file: where its body begins, the body, and the bytes that it spans together with
its terminator. -/
structure Located where
  start : Nat
  body : Bytes
  span : Nat
  deriving DecidableEq, Repr

def Located.stop (l : Located) : Nat := l.start + l.span

def Located.record (l : Located) : Record :=
  ⟨Utf8.toStringLossy l.body, l.start, min l.span Reader.maxSpan⟩

def chomp (bs : Bytes) : Bytes := if bs.getLast? = some 13 then bs.dropLast else bs

/-- A slice is whole if the limit ends it and not a terminator, the first byte of which a carriage
return may be. -/
def isWhole (limit : Nat) (slice : Bytes) : Bool :=
  slice.length = limit && slice.getLast? ≠ some 13

def ofLine (limit : Nat) : Nat → List Bytes → List Located
  | _, [] => []
  | start, [last] =>
    if chomp last = [] then []
    else [⟨start, chomp last, if isWhole limit last then last.length else last.length + 1⟩]
  | start, slice :: slices =>
    ⟨start, slice, slice.length⟩ :: ofLine limit (start + slice.length) slices

def ofTail (limit : Nat) : Nat → List Bytes → List Located
  | _, [] => []
  | start, [last] => if isWhole limit last then [⟨start, last, last.length⟩] else []
  | start, slice :: slices =>
    ⟨start, slice, slice.length⟩ :: ofTail limit (start + slice.length) slices

def waiting (limit : Nat) : List Bytes → Bytes
  | [] => []
  | [last] => if isWhole limit last then [] else last
  | _ :: slices => waiting limit slices

def located (limit : Nat) : Nat → List Bytes → List Located
  | _, [] => []
  | start, [tail] => ofTail limit start (chunks limit tail)
  | start, line :: lines =>
    ofLine limit start (chunks limit line) ++ located limit (start + line.length + 1) lines

def heldBack (limit : Nat) : List Bytes → Bytes
  | [] => []
  | [tail] => waiting limit (chunks limit tail)
  | _ :: lines => heldBack limit lines

/-- Some bytes are line feeds, each with or without a carriage return before it. -/
inductive Terminators : Bytes → Prop
  | nil : Terminators []
  | feed {bs : Bytes} (h : Terminators bs) : Terminators (10 :: bs)
  | returnFeed {bs : Bytes} (h : Terminators bs) : Terminators (13 :: 10 :: bs)

/-- Bytes from a position on hold the bodies of some records, each where it begins, and nothing but
terminators before, between and behind them. A record spans its body and terminators. -/
inductive Spaced : Nat → Bytes → List Located → Prop
  | nil {position : Nat} {bs : Bytes} (h : Terminators bs) : Spaced position bs []
  | cons {position : Nat} {bs gap ending rest : Bytes} {l : Located} {ls : List Located}
      (bytes : bs = gap ++ (l.body ++ (ending ++ rest))) (before : Terminators gap)
      (behind : Terminators ending) (start : l.start = position + gap.length)
      (span : l.span = l.body.length + ending.length) (more : Spaced l.stop rest ls) :
      Spaced position bs (l :: ls)

/-- Records in batches. All batches have the same size, only the last may have fewer records, and each comes
with the metadata that the records before it left. -/
inductive Batched (size : Nat) (path : Path) : Metadata → List Located → List Batch → Prop
  | none {m : Metadata} : Batched size path m [] []
  | last {m : Metadata} {ls : List Located} (filled : ls ≠ []) (few : ls.length < size) :
      Batched size path m ls [⟨path, ls.map Located.record, m⟩]
  | full {m : Metadata} {ls : List Located} {l : Located} {rest : List Located} {bs : List Batch}
      (size_eq : ls.length + 1 = size)
      (more : Batched size path { m with offset := l.stop } rest bs) :
      Batched size path m (ls ++ l :: rest) (⟨path, (ls ++ [l]).map Located.record, m⟩ :: bs)

variable {limit : Nat}

theorem ofLine_cons {slices : List Bytes} (h : slices ≠ []) (start : Nat) (slice : Bytes) :
    ofLine limit start (slice :: slices) =
      ⟨start, slice, slice.length⟩ :: ofLine limit (start + slice.length) slices := by
  obtain ⟨s, slices, rfl⟩ := List.exists_cons_of_ne_nil h
  rfl

theorem ofTail_cons {slices : List Bytes} (h : slices ≠ []) (start : Nat) (slice : Bytes) :
    ofTail limit start (slice :: slices) =
      ⟨start, slice, slice.length⟩ :: ofTail limit (start + slice.length) slices := by
  obtain ⟨s, slices, rfl⟩ := List.exists_cons_of_ne_nil h
  rfl

theorem waiting_cons {slices : List Bytes} (h : slices ≠ []) (slice : Bytes) :
    waiting limit (slice :: slices) = waiting limit slices := by
  obtain ⟨s, slices, rfl⟩ := List.exists_cons_of_ne_nil h
  rfl

theorem chomp_append_return (bs : Bytes) : chomp (bs ++ [13]) = bs := by simp [chomp]

theorem chomp_of_ne {bs : Bytes} (h : bs.getLast? ≠ some 13) : chomp bs = bs := if_neg h

theorem chomp_append (bs : Bytes) {cs : Bytes} (h : cs ≠ []) : chomp (bs ++ cs) = bs ++ chomp cs := by
  rw [chomp, chomp, List.getLast?_append, List.getLast?_eq_some_getLast h, Option.some_or,
    List.dropLast_append_of_ne_nil h]
  split <;> rfl

theorem chomp_cases (bs : Bytes) :
    (bs.getLast? ≠ some 13 ∧ chomp bs = bs) ∨ bs.getLast? = some 13 ∧ bs = chomp bs ++ [13] := by
  by_cases h : bs.getLast? = some 13
  · obtain ⟨cs, rfl⟩ := List.getLast?_eq_some_iff.mp h
    exact .inr ⟨h, by rw [chomp_append_return]⟩
  · exact .inl ⟨h, chomp_of_ne h⟩

/-- The bodies of a line's records make up the line without the carriage return that ends it. -/
theorem flatten_ofLine (hlimit : 0 < limit) (line : Bytes) (start : Nat) :
    ((ofLine limit start (chunks limit line)).map Located.body).flatten = chomp line := by
  induction hn : line.length using Nat.strongRecOn generalizing line start with
  | ind n ih =>
      subst hn
      by_cases hle : line.length ≤ limit
      · rw [chunks_of_le hle, ofLine]
        split
        · next hempty => simp [hempty]
        · simp
      · have hdrop : line.drop limit ≠ [] := List.ne_nil_of_length_pos (by rw [List.length_drop]; omega)
        rw [chunks_of_lt hlimit (Nat.not_le.mp hle), ofLine_cons (chunks_ne_nil _ _), List.map_cons,
          List.flatten_cons, ih _ (by rw [List.length_drop]; omega) _ _ rfl, ← chomp_append _ hdrop,
          List.take_append_drop]

theorem dropReturn_reverse (bs : Bytes) : (dropReturn bs.reverse).reverse = chomp bs := by
  rcases chomp_cases bs with ⟨hne, he⟩ | ⟨-, he⟩
  · rw [he]
    cases hr : bs.reverse with
    | nil => simpa [dropReturn] using hr.symm
    | cons b t =>
        have hb : bs.getLast? = some b := by rw [← List.head?_reverse, hr]; rfl
        have : b ≠ 13 := fun h => hne (h ▸ hb)
        rw [dropReturn, if_neg this, ← hr, List.reverse_reverse]
  · rw [he]
    simp [dropReturn, chomp_append_return]

theorem sweep_line {room : Nat} {bs : Bytes} (hbs : 10 ∉ bs) (h : bs.length < room)
    (rest passed : Bytes) : sweep room (bs ++ 10 :: rest) passed = .line (bs.reverse ++ passed) rest := by
  induction bs generalizing room passed with
  | nil =>
      obtain ⟨n, rfl⟩ : ∃ n, room = n + 1 := ⟨room - 1, by simp at h; omega⟩
      simp [sweep]
  | cons b bs ih =>
      obtain ⟨n, rfl⟩ : ∃ n, room = n + 1 := ⟨room - 1, by simp at h; omega⟩
      rw [List.mem_cons, not_or] at hbs
      rw [List.cons_append, sweep, if_neg (Ne.symm hbs.1), ih hbs.2 (by simpa using h)]
      simp

theorem sweep_full {bs : Bytes} (hbs : 10 ∉ bs) (rest passed : Bytes) :
    sweep bs.length (bs ++ rest) passed = .full (bs.reverse ++ passed) rest := by
  induction bs generalizing passed with
  | nil => simp [sweep]
  | cons b bs ih =>
      rw [List.mem_cons, not_or] at hbs
      rw [List.cons_append, List.length_cons, sweep, if_neg (Ne.symm hbs.1), ih hbs.2]
      simp

theorem sweep_dry {room : Nat} {bs : Bytes} (hbs : 10 ∉ bs) (h : bs.length < room) (passed : Bytes) :
    ∃ left, sweep room bs passed = .dry (bs.reverse ++ passed) left := by
  induction bs generalizing room passed with
  | nil =>
      obtain ⟨n, rfl⟩ : ∃ n, room = n + 1 := ⟨room - 1, by simp at h; omega⟩
      exact ⟨n + 1, by simp [sweep]⟩
  | cons b bs ih =>
      obtain ⟨n, rfl⟩ : ∃ n, room = n + 1 := ⟨room - 1, by simp at h; omega⟩
      rw [List.mem_cons, not_or] at hbs
      obtain ⟨left, hleft⟩ := ih hbs.2 (by simpa using h) (b :: passed)
      exact ⟨left, by rw [sweep, if_neg (Ne.symm hbs.1), hleft]; simp⟩

theorem cut_cases (limit : Nat) (bs : Bytes) :
    (∃ line rest, bs = line ++ 10 :: rest ∧ 10 ∉ line ∧ line.length < limit) ∨
      (10 ∉ bs ∧ bs.length < limit) ∨
      ∃ slice rest, bs = slice ++ rest ∧ 10 ∉ slice ∧ slice.length = limit := by
  by_cases hfeed : 10 ∈ bs.take limit
  · obtain ⟨line, rest, htake, hline⟩ := List.eq_append_cons_of_mem hfeed
    refine .inl ⟨line, rest ++ bs.drop limit, ?_, hline, ?_⟩
    · rw [← List.cons_append, ← List.append_assoc, ← htake, List.take_append_drop]
    · have hlen := congrArg List.length htake
      rw [List.length_take, List.length_append, List.length_cons] at hlen
      omega
  · by_cases hlen : bs.length < limit
    · exact .inr (.inl ⟨by rwa [List.take_of_length_le (Nat.le_of_lt hlen)] at hfeed, hlen⟩)
    · exact .inr (.inr ⟨bs.take limit, bs.drop limit, (List.take_append_drop _ _).symm, hfeed,
        List.length_take_of_le (Nat.not_lt.mp hlen)⟩)

theorem cut_line {bs : Bytes} (hbs : 10 ∉ bs) (h : bs.length < limit) (rest : Bytes) :
    cut limit (bs ++ 10 :: rest) = some (⟨bs.length + 1, chomp bs⟩, rest) := by
  simp [cut, sweep_line hbs h, dropReturn_reverse]

theorem cut_dry {bs : Bytes} (hbs : 10 ∉ bs) (h : bs.length < limit) : cut limit bs = none := by
  obtain ⟨left, hleft⟩ := sweep_dry hbs h []
  simp [cut, hleft]

theorem cut_full {bs : Bytes} (hbs : 10 ∉ bs) (h : bs.length = limit) (rest : Bytes) :
    cut limit (bs ++ rest) = cutAtLimit bs.reverse rest := by
  subst h
  simp [cut, sweep_full hbs]

theorem cutAtLimit_whole {bs : Bytes} (h : bs.getLast? ≠ some 13) (rest : Bytes) :
    cutAtLimit bs.reverse rest = some (⟨bs.length, bs⟩, rest) := by
  simp [cutAtLimit, List.head?_reverse, h]

theorem cutAtLimit_line {bs : Bytes} (h : bs.getLast? = some 13) (rest : Bytes) :
    cutAtLimit bs.reverse (10 :: rest) = some (⟨bs.length + 1, chomp bs⟩, rest) := by
  simp [cutAtLimit, List.head?_reverse, h, dropReturn_reverse]

theorem cutAtLimit_more {bs : Bytes} {b : UInt8} (hb : b ≠ 10) (rest : Bytes) :
    cutAtLimit bs.reverse (b :: rest) = some (⟨bs.length, bs⟩, b :: rest) := by
  by_cases h : bs.getLast? = some 13
  · simp [cutAtLimit, List.head?_reverse, h, hb]
  · exact cutAtLimit_whole h _

theorem cutAtLimit_none {bs : Bytes} (h : bs.getLast? = some 13) :
    cutAtLimit bs.reverse [] = none := by
  simp [cutAtLimit, List.head?_reverse, h]

/-- What may come off the front of some bytes: a line with its terminator, a line whose terminator the
limit parts, or a slice that the limit ends, which a carriage return does only if no line feed is next. -/
inductive Cutting (limit : Nat) : Bytes → Piece → Bytes → Prop
  | line {line rest : Bytes} (unbroken : 10 ∉ line) (short : line.length < limit) :
      Cutting limit (line ++ 10 :: rest) ⟨line.length + 1, chomp line⟩ rest
  | parted {line rest : Bytes} (unbroken : 10 ∉ line) (full : line.length + 1 = limit) :
      Cutting limit (line ++ 13 :: 10 :: rest) ⟨limit + 1, line⟩ rest
  | slice {slice rest : Bytes} (unbroken : 10 ∉ slice) (full : slice.length = limit)
      (goesOn : slice.getLast? = some 13 → ∃ b t, rest = b :: t ∧ b ≠ 10) :
      Cutting limit (slice ++ rest) ⟨slice.length, slice⟩ rest

theorem cut_parted {line : Bytes} (hline : 10 ∉ line) (h : line.length + 1 = limit) (rest : Bytes) :
    cut limit (line ++ 13 :: 10 :: rest) = some (⟨limit + 1, line⟩, rest) := by
  have hfeed : 10 ∉ line ++ [13] := by simpa using hline
  rw [List.append_cons, cut_full hfeed (by simpa using h), cutAtLimit_line (by simp),
    chomp_append_return, List.length_append, List.length_singleton, h]

theorem cut_cutting {bs rest : Bytes} {p : Piece} (h : cut limit bs = some (p, rest)) :
    Cutting limit bs p rest := by
  rcases cut_cases limit bs with ⟨line, behind, rfl, hline, hlt⟩ | ⟨hfeed, hlt⟩ |
    ⟨slice, behind, rfl, hslice, hlen⟩
  · rw [cut_line hline hlt] at h
    cases h
    exact .line hline hlt
  · rw [cut_dry hfeed hlt] at h
    cases h
  · rw [cut_full hslice hlen] at h
    rcases chomp_cases slice with ⟨hne, -⟩ | ⟨hreturn, hbody⟩
    · rw [cutAtLimit_whole hne] at h
      cases h
      exact .slice hslice hlen fun hreturn => absurd hreturn hne
    · cases behind with
      | nil =>
          rw [cutAtLimit_none hreturn] at h
          cases h
      | cons b behind =>
          by_cases hb : b = 10
          · generalize chomp slice = line at hbody
            subst hbody hb
            rw [cutAtLimit_line hreturn, chomp_append_return] at h
            cases h
            rw [List.length_append, List.length_singleton] at hlen ⊢
            rw [List.append_assoc, hlen]
            exact .parted (fun hmem => hslice (List.mem_append_left _ hmem)) hlen
          · rw [cutAtLimit_more hb] at h
            cases h
            exact .slice hslice hlen fun _ => ⟨b, behind, rfl, hb⟩

theorem cut_none {bs : Bytes} : cut limit bs = none ↔
    10 ∉ bs ∧ (bs.length < limit ∨ bs.length = limit ∧ bs.getLast? = some 13) := by
  constructor
  · intro hnone
    rcases cut_cases limit bs with ⟨line, behind, rfl, hline, hlt⟩ | ⟨hfeed, hlt⟩ |
      ⟨slice, behind, rfl, hslice, hlen⟩
    · rw [cut_line hline hlt] at hnone
      cases hnone
    · exact ⟨hfeed, .inl hlt⟩
    · rw [cut_full hslice hlen] at hnone
      by_cases hreturn : slice.getLast? = some 13
      · cases behind with
        | nil => exact ⟨by simpa using hslice, .inr ⟨by simpa using hlen, by simpa using hreturn⟩⟩
        | cons b behind =>
            by_cases hb : b = 10
            · rw [hb, cutAtLimit_line hreturn] at hnone
              cases hnone
            · rw [cutAtLimit_more hb] at hnone
              cases hnone
      · rw [cutAtLimit_whole hreturn] at hnone
        cases hnone
  · rintro ⟨hfeed, hlt | ⟨hlen, hreturn⟩⟩
    · exact cut_dry hfeed hlt
    · have h := cut_full hfeed hlen []
      rwa [List.append_nil, cutAtLimit_none hreturn] at h

theorem cut_slice {bs more : Bytes} (hbs : 10 ∉ bs) (hlimit : limit < bs.length) :
    cut limit (bs ++ more) =
      some (⟨(bs.take limit).length, bs.take limit⟩, bs.drop limit ++ more) := by
  have htake : 10 ∉ bs.take limit := fun h => hbs (List.mem_of_mem_take h)
  have hlen : (bs.take limit).length = limit := List.length_take_of_le (Nat.le_of_lt hlimit)
  obtain ⟨b, t, hdrop⟩ := List.exists_cons_of_ne_nil
    (List.ne_nil_of_length_pos (l := bs.drop limit) (by rw [List.length_drop]; omega))
  have hb : b ≠ 10 := by
    rintro rfl
    exact hbs (List.mem_of_mem_drop (hdrop ▸ List.mem_cons_self))
  calc cut limit (bs ++ more)
      = cut limit (bs.take limit ++ (bs.drop limit ++ more)) := by
        rw [← List.append_assoc, List.take_append_drop]
    _ = cutAtLimit (bs.take limit).reverse (b :: (t ++ more)) := by
        rw [cut_full htake hlen, hdrop, List.cons_append]
    _ = some (⟨(bs.take limit).length, bs.take limit⟩, bs.drop limit ++ more) := by
        rw [cutAtLimit_more hb, hdrop, List.cons_append]

def locate : Nat → List Piece → List Located
  | _, [] => []
  | start, p :: ps =>
    if p.body.isEmpty then locate (start + p.span) ps
    else ⟨start, p.body, p.span⟩ :: locate (start + p.span) ps

theorem recordsFrom_eq (start : Nat) (ps : List Piece) :
    Reader.recordsFrom start ps = (locate start ps).map Located.record := by
  induction ps generalizing start with
  | nil => rfl
  | cons p ps ih =>
      rw [Reader.recordsFrom, locate, ih]
      split <;> rfl

theorem locate_append (start : Nat) (ps qs : List Piece) :
    locate start (ps ++ qs) = locate start ps ++ locate (start + extent ps) qs := by
  induction ps generalizing start with
  | nil => simp [locate]
  | cons p ps ih =>
      simp only [List.cons_append, locate, ih, extent_cons, Nat.add_assoc]
      split <;> simp

theorem mem_locate {start : Nat} {ps : List Piece} {l : Located} (h : l ∈ locate start ps) :
    ∃ before p behind, ps = before ++ p :: behind ∧ p.body ≠ [] ∧
      l = ⟨start + extent before, p.body, p.span⟩ := by
  induction ps generalizing start with
  | nil => cases h
  | cons q ps ih =>
      have further (h : l ∈ locate (start + q.span) ps) :
          ∃ before p behind, q :: ps = before ++ p :: behind ∧ p.body ≠ [] ∧
            l = ⟨start + extent before, p.body, p.span⟩ := by
        obtain ⟨before, p, behind, rfl, hbody, hl⟩ := ih h
        exact ⟨q :: before, p, behind, rfl, hbody, by rw [hl, extent_cons, Nat.add_assoc]⟩
      rw [locate] at h
      split at h
      · exact further h
      · next hbody =>
          rcases List.mem_cons.mp h with rfl | h
          · exact ⟨[], q, ps, rfl, by simpa using hbody, rfl⟩
          · exact further h

theorem mem_recordsFrom {start : Nat} {ps : List Piece} {a : Record}
    (h : a ∈ Reader.recordsFrom start ps) :
    ∃ before p behind, ps = before ++ p :: behind ∧ p.body ≠ [] ∧
      a = Reader.recordAt (start + extent before) p := by
  rw [recordsFrom_eq] at h
  obtain ⟨l, hl, rfl⟩ := List.mem_map.mp h
  obtain ⟨before, p, behind, hps, hbody, rfl⟩ := mem_locate hl
  exact ⟨before, p, behind, hps, hbody, rfl⟩

theorem offset_lt_of_mem_recordsFrom {start : Nat} {ps : List Piece} (hps : ∀ p ∈ ps, 0 < p.span)
    {a : Record} (h : a ∈ Reader.recordsFrom start ps) : a.span.offset < start + extent ps := by
  obtain ⟨before, p, behind, rfl, -, rfl⟩ := mem_recordsFrom h
  have hp := hps p (by simp)
  rw [extent_append, extent_cons]
  change start + extent before < _
  omega

theorem recordsFrom_within {start : Nat} {ps qs : List Piece} (hps : ∀ p ∈ ps, 0 < p.span)
    (hqs : ∀ q ∈ qs, 0 < q.span) (rs : List Piece) :
    (Reader.recordsFrom start (ps ++ (qs ++ rs))).filter (fun a =>
        start + extent ps ≤ a.span.offset ∧ a.span.offset < start + extent ps + extent qs) =
      Reader.recordsFrom (start + extent ps) qs := by
  rw [Reader.recordsFrom_append, Reader.recordsFrom_append, List.filter_append, List.filter_append,
    List.filter_eq_nil_iff.mpr, List.filter_eq_self.mpr, List.filter_eq_nil_iff.mpr, List.nil_append,
    List.append_nil]
  · intro a ha
    have := Reader.offset_of_mem_recordsFrom ha
    simp only [decide_eq_true_eq]
    omega
  · intro a ha
    have := Reader.offset_of_mem_recordsFrom ha
    have := offset_lt_of_mem_recordsFrom hqs ha
    simp only [decide_eq_true_eq]
    omega
  · intro a ha
    have := offset_lt_of_mem_recordsFrom hps ha
    simp only [decide_eq_true_eq]
    omega

theorem cuts_line (hlimit : 0 < limit) {line rest : Bytes} {qs : List Piece} (hline : 10 ∉ line)
    (more : Cuts limit rest qs) :
    ∃ ps, Cuts limit (line ++ 10 :: rest) (ps ++ qs) ∧ extent ps = line.length + 1 ∧
      ∀ start, locate start ps = ofLine limit start (chunks limit line) := by
  induction hn : line.length using Nat.strongRecOn generalizing line with
  | ind n ih =>
      subst hn
      rcases Nat.lt_trichotomy line.length limit with hlt | heq | hgt
      · -- the line feed comes before the limit
        refine ⟨[⟨line.length + 1, chomp line⟩], .piece (cut_line hline hlt rest) more, by simp, ?_⟩
        intro start
        have hpart : isWhole limit line = false := by simp [isWhole, Nat.ne_of_lt hlt]
        simp only [locate, chunks_of_le (Nat.le_of_lt hlt), ofLine, hpart, List.isEmpty_iff]
        rfl
      · rcases chomp_cases line with ⟨hne, hchomp⟩ | ⟨hreturn, -⟩
        · -- the line feed behind a whole slice is left for a piece without a body
          have hslice : cut limit (line ++ 10 :: rest) = some (⟨line.length, line⟩, 10 :: rest) := by
            rw [cut_full hline heq, cutAtLimit_whole hne]
          have hfeed : cut limit (10 :: rest) = some (⟨1, []⟩, rest) :=
            cut_line (by simp : 10 ∉ ([] : Bytes)) hlimit rest
          refine ⟨[⟨line.length, line⟩, ⟨1, []⟩], .piece hslice (.piece hfeed more), by simp, ?_⟩
          intro start
          have hwhole : isWhole limit line = true := by simp [isWhole, heq, hne]
          have hfilled : line ≠ [] := List.ne_nil_of_length_pos (by omega)
          simp [locate, chunks_of_le (Nat.le_of_eq heq), ofLine, hwhole, hchomp, hfilled]
        · have hslice : cut limit (line ++ 10 :: rest) =
              some (⟨line.length + 1, chomp line⟩, rest) := by
            rw [cut_full hline heq, cutAtLimit_line hreturn]
          refine ⟨[⟨line.length + 1, chomp line⟩], .piece hslice more, by simp, ?_⟩
          intro start
          have hpart : isWhole limit line = false := by simp [isWhole, hreturn]
          simp only [locate, chunks_of_le (Nat.le_of_eq heq), ofLine, hpart, List.isEmpty_iff]
          rfl
      · -- the limit ends a slice, and the line goes on behind it
        have hdrop : 10 ∉ line.drop limit := fun h => hline (List.mem_of_mem_drop h)
        obtain ⟨ps, hcuts, hext, hlocate⟩ :=
          ih (line.drop limit).length (by rw [List.length_drop]; omega) hdrop rfl
        have hlen : (line.take limit).length = limit := List.length_take_of_le (Nat.le_of_lt hgt)
        refine ⟨⟨(line.take limit).length, line.take limit⟩ :: ps, .piece (cut_slice hline hgt) hcuts,
          ?_, fun start => ?_⟩
        · simp only [extent_cons, hext, hlen, List.length_drop]
          omega
        · have hfilled : line.take limit ≠ [] := List.ne_nil_of_length_pos (by omega)
          rw [chunks_of_lt hlimit hgt, ofLine_cons (chunks_ne_nil _ _), locate,
            if_neg (by simpa using hfilled), hlocate]

theorem cuts_tail (hlimit : 0 < limit) {tail : Bytes} (htail : 10 ∉ tail) :
    ∃ ps, Cuts limit tail ps ∧
      (∃ read, tail = read ++ waiting limit (chunks limit tail) ∧ extent ps = read.length) ∧
      ∀ start, locate start ps = ofTail limit start (chunks limit tail) := by
  induction hn : tail.length using Nat.strongRecOn generalizing tail with
  | ind n ih =>
      subst hn
      rcases Nat.lt_trichotomy tail.length limit with hlt | heq | hgt
      · have hpart : isWhole limit tail = false := by simp [isWhole, Nat.ne_of_lt hlt]
        refine ⟨[], .stop (cut_dry htail hlt), ⟨[], ?_, rfl⟩, fun start => ?_⟩
        · simp [chunks_of_le (Nat.le_of_lt hlt), waiting, hpart]
        · simp [chunks_of_le (Nat.le_of_lt hlt), ofTail, hpart, locate]
      · have hcut := cut_full htail heq []
        rw [List.append_nil] at hcut
        by_cases hreturn : tail.getLast? = some 13
        · have hpart : isWhole limit tail = false := by simp [isWhole, hreturn]
          refine ⟨[], .stop (hcut.trans (cutAtLimit_none hreturn)), ⟨[], ?_, rfl⟩, fun start => ?_⟩
          · simp [chunks_of_le (Nat.le_of_eq heq), waiting, hpart]
          · simp [chunks_of_le (Nat.le_of_eq heq), ofTail, hpart, locate]
        · have hwhole : isWhole limit tail = true := by simp [isWhole, heq, hreturn]
          have hfilled : tail ≠ [] := List.ne_nil_of_length_pos (by omega)
          refine ⟨[⟨tail.length, tail⟩], .piece (hcut.trans (cutAtLimit_whole hreturn []))
            (.stop (cut_dry (by simp) hlimit)), ⟨tail, ?_, by simp⟩, fun start => ?_⟩
          · simp [chunks_of_le (Nat.le_of_eq heq), waiting, hwhole]
          · simp [chunks_of_le (Nat.le_of_eq heq), ofTail, hwhole, locate, hfilled]
      · have hdrop : 10 ∉ tail.drop limit := fun h => htail (List.mem_of_mem_drop h)
        obtain ⟨ps, hcuts, ⟨read, hread, hext⟩, hlocate⟩ :=
          ih (tail.drop limit).length (by rw [List.length_drop]; omega) hdrop rfl
        have hlen : (tail.take limit).length = limit := List.length_take_of_le (Nat.le_of_lt hgt)
        have hslice : cut limit (tail ++ []) =
            some (⟨(tail.take limit).length, tail.take limit⟩, tail.drop limit ++ []) :=
          cut_slice htail hgt
        rw [List.append_nil, List.append_nil] at hslice
        refine ⟨⟨(tail.take limit).length, tail.take limit⟩ :: ps, .piece hslice hcuts,
          ⟨tail.take limit ++ read, ?_, by simp [hext]⟩, fun start => ?_⟩
        · rw [chunks_of_lt hlimit hgt, waiting_cons (chunks_ne_nil _ _), List.append_assoc, ← hread,
            List.take_append_drop]
        · have hfilled : tail.take limit ≠ [] := List.ne_nil_of_length_pos (by omega)
          rw [chunks_of_lt hlimit hgt, ofTail_cons (chunks_ne_nil _ _), locate,
            if_neg (by simpa using hfilled), hlocate]

theorem located_cons {lines : List Bytes} (h : lines ≠ []) (start : Nat) (line : Bytes) :
    located limit start (line :: lines) =
      ofLine limit start (chunks limit line) ++ located limit (start + line.length + 1) lines := by
  obtain ⟨l, lines, rfl⟩ := List.exists_cons_of_ne_nil h
  rfl

theorem heldBack_cons {lines : List Bytes} (h : lines ≠ []) (line : Bytes) :
    heldBack limit (line :: lines) = heldBack limit lines := by
  obtain ⟨l, lines, rfl⟩ := List.exists_cons_of_ne_nil h
  rfl

theorem cuts_lines (hlimit : 0 < limit) (bs : Bytes) :
    ∃ ps, Cuts limit bs ps ∧
      (∃ read, bs = read ++ heldBack limit (bs.splitOn 10) ∧ extent ps = read.length) ∧
      ∀ start, locate start ps = located limit start (bs.splitOn 10) := by
  induction hn : bs.length using Nat.strongRecOn generalizing bs with
  | ind n ih =>
      subst hn
      by_cases hfeed : 10 ∈ bs
      · obtain ⟨line, rest, rfl, hline⟩ := List.eq_append_cons_of_mem hfeed
        obtain ⟨qs, hrest, ⟨read, hread, hext⟩, hlocate⟩ := ih rest.length (by simp; omega) rest rfl
        obtain ⟨ps, hcuts, hext', hlocate'⟩ := cuts_line hlimit hline hrest
        rw [List.splitOn_append_cons_self_of_not_mem hline]
        refine ⟨ps ++ qs, hcuts, ⟨line ++ 10 :: read, ?_, ?_⟩, fun start => ?_⟩
        · rw [heldBack_cons (List.splitOn_ne_nil _ _), List.append_assoc, List.cons_append, ← hread]
        · rw [extent_append, hext, hext', List.length_append, List.length_cons]
          omega
        · rw [located_cons (List.splitOn_ne_nil _ _), locate_append, hlocate', hext', hlocate,
            Nat.add_assoc]
      · rw [List.splitOn_eq_singleton hfeed]
        exact cuts_tail hlimit hfeed

theorem locate_pieces (hlimit : 0 < limit) (start : Nat) (bs : Bytes) :
    locate start (pieces limit bs) = located limit start (bs.splitOn 10) := by
  obtain ⟨ps, hcuts, _, hlocate⟩ := cuts_lines hlimit bs
  rw [(pieces_cuts hlimit bs).unique hcuts, hlocate]

theorem Terminators.append {bs cs : Bytes} (h : Terminators bs) (h' : Terminators cs) :
    Terminators (bs ++ cs) := by
  induction h with
  | nil => exact h'
  | feed _ ih => exact .feed ih
  | returnFeed _ ih => exact .returnFeed ih

theorem Spaced.widen {position : Nat} {gap bs : Bytes} {ls : List Located} (h : Terminators gap)
    (more : Spaced (position + gap.length) bs ls) : Spaced position (gap ++ bs) ls := by
  cases more with
  | nil h' => exact .nil (h.append h')
  | @cons _ _ gap' ending rest l ls bytes before behind start span more =>
      have hbytes : gap ++ bs = (gap ++ gap') ++ (l.body ++ (ending ++ rest)) := by
        rw [bytes, List.append_assoc]
      have hstart : l.start = position + (gap ++ gap').length := by
        rw [start, List.length_append, Nat.add_assoc]
      exact .cons hbytes (h.append before) behind hstart span more

theorem terminators_chomp (bs : Bytes) :
    ∃ ending, bs ++ [10] = chomp bs ++ ending ∧ Terminators ending := by
  rcases chomp_cases bs with ⟨-, he⟩ | ⟨-, he⟩
  · exact ⟨[10], by rw [he], .feed .nil⟩
  · refine ⟨[13, 10], ?_, .returnFeed .nil⟩
    conv => lhs; rw [he]
    simp

theorem cut_parts {bs rest : Bytes} {p : Piece} (h : cut limit bs = some (p, rest)) :
    ∃ ending, bs = p.body ++ (ending ++ rest) ∧ Terminators ending ∧
      p.span = p.body.length + ending.length := by
  cases cut_cutting h with
  | @line line _ _ _ =>
      obtain ⟨ending, he, hterm⟩ := terminators_chomp line
      refine ⟨ending, ?_, hterm, ?_⟩
      · rw [List.append_cons, he, List.append_assoc]
      · simpa using congrArg List.length he
  | parted _ full => exact ⟨[13, 10], rfl, .returnFeed .nil, by simp [← full]⟩
  | slice => exact ⟨[], rfl, .nil, rfl⟩

theorem Cuts.spaced {bs : Bytes} {ps : List Piece} (h : Cuts limit bs ps) (position : Nat) :
    Spaced position (bs.take (extent ps)) (locate position ps) := by
  induction h generalizing position with
  | stop => exact .nil (by simpa using .nil)
  | @piece bs rest p ps hs _ ih =>
      obtain ⟨ending, hbs, hterm, hspan⟩ := cut_parts hs
      have htake : bs.take (p.span + extent ps) =
          p.body ++ (ending ++ rest.take (extent ps)) := by
        rw [hbs, hspan, ← List.append_assoc, ← List.length_append, List.take_length_add_append,
          List.append_assoc]
      rw [extent_cons, htake, locate]
      split
      · next hempty =>
          rw [List.isEmpty_iff] at hempty
          rw [hempty, List.length_nil, Nat.zero_add] at hspan
          rw [hempty, List.nil_append]
          exact .widen hterm (hspan ▸ ih _)
      · exact .cons (List.nil_append _).symm .nil hterm rfl hspan (ih _)

variable {size : Nat} {path : Path} {m : Metadata} {ls : List Located} {bs : List Batch}

theorem Batched.records (h : Batched size path m ls bs) :
    bs.flatMap Batch.records = ls.map Located.record := by
  induction h with
  | none => rfl
  | last => simp
  | full _ _ ih => simp [ih]

theorem Batched.length_le (h : Batched size path m ls bs) :
    ∀ b ∈ bs, 0 < b.records.length ∧ b.records.length ≤ size := by
  induction h with
  | none => simp
  | last filled few =>
      simpa using ⟨List.length_pos_iff.mpr filled, Nat.le_of_lt few⟩
  | full size_eq _ ih =>
      intro b hb
      rcases List.mem_cons.mp hb with rfl | hb
      · exact ⟨by simp, by simp [size_eq]⟩
      · exact ih b hb

theorem Batched.length_eq (h : Batched size path m ls bs) :
    ∀ b ∈ bs.dropLast, b.records.length = size := by
  induction h with
  | none => simp
  | last => simp
  | @full _ _ _ _ bs size_eq _ ih =>
      intro b hb
      cases bs with
      | nil => simp at hb
      | cons c cs =>
          rcases List.mem_cons.mp hb with rfl | hb
          · simp [size_eq]
          · exact ih b hb

end Lines

namespace Reader

open Lines

theorem flush_willing {o : Outlet} (ho : o.Willing) (r : Reader) {pending : List Record}
    (hpending : pending ≠ []) (stop : Nat) :
    r.flush pending stop o =
      (.done, r.moveTo stop, o.take ⟨r.path, pending.reverse, r.metadata⟩) := by
  simp [flush, Outlet.offer, ho.accepting, hpending]

theorem took_take (o : Outlet) (ho : o.Willing) (b : Batch) : o.Took (o.take b) [b] := by
  simpa [Outlet.offer, ho.accepting] using o.took_offer b

theorem deliver_batched (ps : List Piece) (position : Nat) (ls : List Located) (r : Reader)
    {o : Outlet} (ho : o.Willing) (hfew : ls.length < r.emitBatchSize) :
    ∃ o' bs,
      deliver ps position (ls.map Located.record).reverse ls.length r o =
        (.done, r.moveTo (position + extent ps), o') ∧
      o.Took o' bs ∧ Batched r.emitBatchSize r.path r.metadata (ls ++ locate position ps) bs := by
  induction ps generalizing position ls r o with
  | nil =>
      rw [deliver, Outlet.look_intact ho.intact, locate, List.append_nil]
      by_cases hls : ls = []
      · exact ⟨o, [], by simp [flush, hls], .refl o, hls ▸ .none⟩
      · refine ⟨_, _, flush_willing ho r (by simpa using hls) _, took_take o ho _, ?_⟩
        rw [List.reverse_reverse]
        exact .last hls hfew
  | cons p ps ih =>
      rw [deliver, Outlet.look_intact ho.intact, locate, extent_cons, ← Nat.add_assoc]
      dsimp only
      by_cases hempty : p.body.isEmpty
      · rw [if_pos hempty, if_pos hempty, if_neg (Nat.not_le.mpr hfew)]
        exact ih (position + p.span) ls r ho hfew
      · rw [if_neg hempty, if_neg hempty]
        dsimp only
        by_cases hfull : r.emitBatchSize ≤ ls.length + 1
        · let l : Located := ⟨position, p.body, p.span⟩
          have hrecords : (recordAt position p :: (ls.map Located.record).reverse).reverse =
              (ls ++ [l]).map Located.record := by
            rw [List.reverse_cons, List.reverse_reverse, List.map_append]
            rfl
          rw [if_pos hfull, flush_willing ho r (by simp), hrecords]
          have htook := took_take o ho ⟨r.path, (ls ++ [l]).map Located.record, r.metadata⟩
          obtain ⟨o', bs, hdeliver, htook', hbatched⟩ := ih (position + p.span) []
            (r.moveTo (position + p.span)) (ho.took htook) (Nat.zero_lt_of_lt hfew)
          have hsize : ls.length + 1 = r.emitBatchSize := Nat.le_antisymm hfew hfull
          have hall : Batched r.emitBatchSize r.path r.metadata
              (ls ++ l :: locate (position + p.span) ps)
              (⟨r.path, (ls ++ [l]).map Located.record, r.metadata⟩ :: bs) := .full hsize hbatched
          exact ⟨o', _, hdeliver, htook.trans htook', hall⟩
        · rw [if_neg hfull]
          have h := ih (position + p.span) (ls ++ [⟨position, p.body, p.span⟩]) r ho
            (by simpa using hfull)
          rw [List.map_append, List.reverse_append, List.length_append, List.append_assoc] at h
          exact h

/-- Reading with nothing in its way emits just the records of the lines behind the offset, in
batches, and stops where the bytes held back begin. -/
theorem read_lines (r : Reader) (content : Bytes) (o : Outlet) (hlimit : 0 < r.maxLogSize)
    (hsize : 0 < r.emitBatchSize) (hoffset : r.offset ≤ content.length) (ho : o.Willing) :
    let lines := (content.drop r.offset).splitOn 10
    let found := located r.maxLogSize r.offset lines
    ∃ read o' bs,
      content.drop r.offset = read ++ heldBack r.maxLogSize lines ∧
      r.read content o = (.done, r.moveTo (r.offset + read.length), o') ∧
      o'.accepted = bs.reverse ++ o.accepted ∧
      bs.flatMap Batch.records = found.map Located.record ∧
      Spaced r.offset read found ∧
      (∀ line ∈ lines, ∀ start,
        ((ofLine r.maxLogSize start (chunks r.maxLogSize line)).map Located.body).flatten =
          chomp line) ∧
      Batched r.emitBatchSize r.path r.metadata found bs ∧
      (∀ b ∈ bs, 0 < b.records.length ∧ b.records.length ≤ r.emitBatchSize) ∧
      ∀ b ∈ bs.dropLast, b.records.length = r.emitBatchSize := by
  intro lines found
  obtain ⟨ps, hcuts, ⟨read, hread, hext⟩, hlocate⟩ := cuts_lines hlimit (content.drop r.offset)
  obtain ⟨o', bs, hdeliver, htook, hbatched⟩ := deliver_batched ps r.offset [] r ho hsize
  rw [List.nil_append, hlocate] at hbatched
  have hpieces : pieces r.maxLogSize (content.drop r.offset) = ps := (pieces_cuts hlimit _).unique hcuts
  refine ⟨read, o', bs, hread, ?_, htook.accepted, hbatched.records, ?_, ?_, hbatched,
    hbatched.length_le, hbatched.length_eq⟩
  · rw [Reader.read, rewound_of_le hoffset, hpieces, ← hext]
    exact hdeliver
  · have hspaced := Cuts.spaced hcuts r.offset
    rw [hext, hlocate, ← List.prefix_iff_eq_take.mp ⟨_, hread.symm⟩] at hspaced
    exact hspaced
  · intro line _ start
    exact flatten_ofLine hlimit line start

theorem read_lines_returns :
    let r : Reader := ⟨⟨"a.log"⟩, none, ⟨⟨[120]⟩, 1, []⟩, 3, 2⟩
    let content : Bytes := [120, 97, 98, 99, 100, 101, 13, 10, 10, 97, 98, 13, 10, 104, 105]
    let lines := (content.drop r.offset).splitOn 10
    lines = [[97, 98, 99, 100, 101, 13], [], [97, 98, 13], [104, 105]] ∧
      located 3 1 lines = [⟨1, [97, 98, 99], 3⟩, ⟨4, [100, 101], 4⟩, ⟨9, [97, 98], 4⟩] ∧
      ∃ (o' : Outlet) (bs : List Batch),
        r.read content .willing = (.done, r.moveTo 13, o') ∧ o'.accepted = bs.reverse ∧
        bs.flatMap Batch.records = [⟨"abc", 1, 3⟩, ⟨"de", 4, 4⟩, ⟨"ab", 9, 4⟩] := by
  intro r content lines
  have hlines : lines = [[97, 98, 99, 100, 101, 13], [], [97, 98, 13], [104, 105]] := by decide
  have hfound : located 3 1 lines = [⟨1, [97, 98, 99], 3⟩, ⟨4, [100, 101], 4⟩, ⟨9, [97, 98], 4⟩] := by
    decide
  obtain ⟨read, o', bs, hread, hdone, haccepted, hrecords, -⟩ :=
    read_lines r content .willing (by decide) (by decide) (by decide) Outlet.willing_willing
  have hlength : read.length = 12 := by
    have h := congrArg List.length hread
    rw [List.length_append, show heldBack r.maxLogSize ((content.drop r.offset).splitOn 10) = [104, 105]
      from by decide] at h
    exact Nat.add_right_cancel h.symm
  refine ⟨hlines, hfound, o', bs, ?_, ?_, ?_⟩
  · rw [hdone, hlength]
    rfl
  · simpa [Outlet.willing] using haccepted
  · rw [hrecords, show located r.maxLogSize r.offset _ = _ from hfound]
    decide +kernel

end Reader

end LogTail
