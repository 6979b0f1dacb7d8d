import Mathlib.Algebra.Ring.Nat
import LogTail.Record.Scan

namespace LogTail.Record

def cutAtLimit (passed rest : Bytes) : Option (Piece × Bytes) :=
  if passed.head? = some 13 then
    match rest with
    | [] => none
    | b :: t =>
      if b = 10 then some (⟨passed.length + 1, (dropReturn passed).reverse⟩, t)
      else some (⟨passed.length, passed.reverse⟩, b :: t)
  else some (⟨passed.length, passed.reverse⟩, rest)

/-- The next piece of bytes that come in one block, and what is left of them. -/
def cut (limit : Nat) (bs : Bytes) : Option (Piece × Bytes) :=
  match sweep limit bs [] with
  | .line passed rest => some (⟨passed.length + 1, (dropReturn passed).reverse⟩, rest)
  | .full passed rest => cutAtLimit passed rest
  | .dry _ _ => none

inductive Cuts (limit : Nat) : Bytes → List Piece → Prop
  | stop {bs : Bytes} (h : cut limit bs = none) : Cuts limit bs []
  | piece {bs rest : Bytes} {p : Piece} {ps : List Piece} (h : cut limit bs = some (p, rest))
      (more : Cuts limit rest ps) : Cuts limit bs (p :: ps)

def extent (ps : List Piece) : Nat := (ps.map Piece.span).sum

@[simp] theorem extent_nil : extent [] = 0 := rfl

@[simp] theorem extent_cons (p : Piece) (ps : List Piece) : extent (p :: ps) = p.span + extent ps := by
  simp [extent]

@[simp] theorem extent_append (ps qs : List Piece) : extent (ps ++ qs) = extent ps + extent qs := by
  simp [extent]

theorem sweep_append (room : Nat) (block more passed : Bytes) :
    sweep room (block ++ more) passed =
      match sweep room block passed with
      | .line p rest => .line p (rest ++ more)
      | .full p rest => .full p (rest ++ more)
      | .dry p room => sweep room more p := by
  induction block generalizing room passed with
  | nil => cases room <;> simp [sweep]
  | cons b t ih =>
      cases room with
      | zero => simp [sweep]
      | succ room =>
          by_cases hb : b = 10
          · simp [sweep, hb]
          · simp only [List.cons_append, sweep, hb, if_false]
            exact ih room (b :: passed)

theorem sweep_bytes (room : Nat) (bs passed : Bytes) :
    match sweep room bs passed with
    | .line p rest => passed.reverse ++ bs = p.reverse ++ 10 :: rest
    | .full p rest => passed.reverse ++ bs = p.reverse ++ rest ∧ p.length = passed.length + room
    | .dry p left => passed.reverse ++ bs = p.reverse ∧ 0 < left := by
  induction bs generalizing room passed with
  | nil => cases room <;> simp [sweep]
  | cons b t ih =>
      cases room with
      | zero => simp [sweep]
      | succ room =>
          by_cases hb : b = 10
          · simp [sweep, hb]
          · have h := ih room (b :: passed)
            simp only [sweep, hb, if_false]
            cases hs : sweep room t (b :: passed) with
            | line p rest => simpa [hs] using h
            | full p rest =>
                simp only [hs, List.reverse_cons, List.append_assoc, List.cons_append,
                  List.nil_append, List.length_cons] at h
                exact ⟨h.1, by omega⟩
            | dry p left => simpa [hs] using h

theorem firstByte_none {blocks : List Bytes} (h : firstByte blocks = none) : blocks.flatten = [] := by
  induction blocks with
  | nil => rfl
  | cons block blocks ih =>
      cases block with
      | nil => simpa [firstByte] using ih h
      | cons b t => simp [firstByte] at h

theorem firstByte_some {blocks more : List Bytes} {b : UInt8} (h : firstByte blocks = some (b, more)) :
    blocks.flatten = b :: more.flatten := by
  induction blocks with
  | nil => simp [firstByte] at h
  | cons block blocks ih =>
      cases block with
      | nil => simpa [firstByte] using ih h
      | cons c t =>
          simp only [firstByte, Option.some.injEq, Prod.mk.injEq] at h
          obtain ⟨rfl, rfl⟩ := h
          simp

theorem cutFull_flatten (passed : Bytes) (blocks : List Bytes) :
    (cutFull passed blocks).map (fun r => (r.1, r.2.flatten)) = cutAtLimit passed blocks.flatten := by
  unfold cutFull cutAtLimit
  by_cases hr : passed.head? = some 13
  · simp only [hr, if_true]
    cases hf : firstByte blocks with
    | none => simp [firstByte_none hf]
    | some r =>
        obtain ⟨b, more⟩ := r
        have hb := firstByte_some hf
        by_cases hn : b = 10 <;> simp [hb, hn]
  · simp [hr]

theorem nextFrom_flatten {room : Nat} (hroom : 0 < room) (passed : Bytes) (blocks : List Bytes) :
    (nextFrom room passed blocks).map (fun r => (r.1, r.2.flatten)) =
      match sweep room blocks.flatten passed with
      | .line p rest => some (⟨p.length + 1, (dropReturn p).reverse⟩, rest)
      | .full p rest => cutAtLimit p rest
      | .dry _ _ => none := by
  induction blocks generalizing room passed with
  | nil =>
      obtain ⟨n, rfl⟩ : ∃ n, room = n + 1 := ⟨room - 1, by omega⟩
      simp [nextFrom, sweep]
  | cons block blocks ih =>
      rw [List.flatten_cons, sweep_append]
      have hb := sweep_bytes room block passed
      cases hs : sweep room block passed with
      | line p rest => simp [nextFrom, hs]
      | full p rest => simp [nextFrom, hs, cutFull_flatten]
      | dry p left =>
          rw [hs] at hb
          simpa [nextFrom, hs] using ih hb.2 p

/-- In which blocks the bytes come makes no difference to the next piece. -/
theorem next_flatten {limit : Nat} (hlimit : 0 < limit) (blocks : List Bytes) :
    (next limit blocks).map (fun r => (r.1, r.2.flatten)) = cut limit blocks.flatten :=
  nextFrom_flatten hlimit [] blocks

theorem drop_passed (passed rest : Bytes) : (passed.reverse ++ rest).drop passed.length = rest :=
  List.drop_left' List.length_reverse

theorem drop_line (passed rest : Bytes) (b : UInt8) :
    (passed.reverse ++ b :: rest).drop (passed.length + 1) = rest := by
  simpa using drop_passed (b :: passed) rest

theorem cutAtLimit_span {passed rest left : Bytes} {p : Piece} (hp : 0 < passed.length)
    (h : cutAtLimit passed rest = some (p, left)) :
    0 < p.span ∧ p.span ≤ passed.length + rest.length ∧
      (passed.reverse ++ rest).drop p.span = left := by
  unfold cutAtLimit at h
  by_cases hr : passed.head? = some 13
  · rw [if_pos hr] at h
    cases rest with
    | nil => simp at h
    | cons b t =>
        by_cases hb : b = 10
        · simp only [hb, if_true, Option.some.injEq, Prod.mk.injEq] at h
          obtain ⟨rfl, rfl⟩ := h
          exact ⟨by simp, by simp, drop_line passed t b⟩
        · simp only [hb, if_false, Option.some.injEq, Prod.mk.injEq] at h
          obtain ⟨rfl, rfl⟩ := h
          exact ⟨hp, by simp, drop_passed passed (b :: t)⟩
  · simp only [hr, if_false, Option.some.injEq, Prod.mk.injEq] at h
    obtain ⟨rfl, rfl⟩ := h
    exact ⟨hp, by simp, drop_passed passed rest⟩

/-- A piece spans at least one byte, and what is left begins right behind it. -/
theorem cut_span {limit : Nat} (hlimit : 0 < limit) {bs rest : Bytes} {p : Piece}
    (h : cut limit bs = some (p, rest)) :
    0 < p.span ∧ p.span ≤ bs.length ∧ bs.drop p.span = rest := by
  unfold cut at h
  have hb := sweep_bytes limit bs []
  cases hs : sweep limit bs [] with
  | line passed left =>
      simp only [hs, Option.some.injEq, Prod.mk.injEq] at h hb
      obtain ⟨rfl, rfl⟩ := h
      simp only [List.reverse_nil, List.nil_append] at hb
      subst hb
      exact ⟨by simp, by simp, drop_line passed left 10⟩
  | full passed left =>
      simp only [hs] at h hb
      obtain ⟨hbs, hlen⟩ := hb
      simp only [List.reverse_nil, List.nil_append, List.length_nil, Nat.zero_add] at hbs hlen
      obtain ⟨hpos, hle, hdrop⟩ := cutAtLimit_span (by omega) h
      exact ⟨hpos, by rw [hbs]; simpa using hle, by rw [hbs, hdrop]⟩
  | dry passed room => simp [hs] at h

theorem cut_append {limit : Nat} {bs rest : Bytes} {p : Piece} (h : cut limit bs = some (p, rest))
    (more : Bytes) : cut limit (bs ++ more) = some (p, rest ++ more) := by
  unfold cut at h ⊢
  rw [sweep_append]
  cases hs : sweep limit bs [] with
  | line passed left =>
      simp only [hs, Option.some.injEq, Prod.mk.injEq] at h
      obtain ⟨rfl, rfl⟩ := h
      rfl
  | full passed left =>
      simp only [hs, cutAtLimit] at h ⊢
      by_cases hr : passed.head? = some 13
      · simp only [hr, if_true] at h ⊢
        cases left with
        | nil => simp at h
        | cons b t =>
            by_cases hb : b = 10
            · simp only [hb, if_true, Option.some.injEq, Prod.mk.injEq] at h
              obtain ⟨rfl, rfl⟩ := h
              simp [hb]
            · simp only [hb, if_false, Option.some.injEq, Prod.mk.injEq] at h
              obtain ⟨rfl, rfl⟩ := h
              simp [hb]
      · simp only [hr, if_false, Option.some.injEq, Prod.mk.injEq] at h ⊢
        obtain ⟨rfl, rfl⟩ := h
        exact ⟨rfl, rfl⟩
  | dry passed room => simp [hs] at h

theorem Cuts.unique {limit : Nat} {bs : Bytes} {ps qs : List Piece} (h : Cuts limit bs ps)
    (h' : Cuts limit bs qs) : ps = qs := by
  induction h generalizing qs with
  | stop hn =>
      cases h' with
      | stop => rfl
      | piece hs => rw [hn] at hs; cases hs
  | piece hs _ ih =>
      cases h' with
      | stop hn => rw [hn] at hs; cases hs
      | piece hs' more =>
          rw [hs] at hs'
          cases hs'
          rw [ih more]

theorem piecesFrom_cuts {limit : Nat} (hlimit : 0 < limit) (fuel : Nat) (blocks : List Bytes)
    (acc : List Piece) (hfuel : blocks.flatten.length ≤ fuel) :
    ∃ ps, piecesFrom limit fuel blocks acc = acc.reverse ++ ps ∧ Cuts limit blocks.flatten ps := by
  induction fuel generalizing blocks acc with
  | zero =>
      refine ⟨[], by simp [piecesFrom], .stop ?_⟩
      cases hc : cut limit blocks.flatten with
      | none => rfl
      | some r => obtain ⟨hpos, hle, _⟩ := cut_span hlimit hc; omega
  | succ fuel ih =>
      have hn := next_flatten hlimit blocks
      cases hs : next limit blocks with
      | none =>
          rw [hs] at hn
          exact ⟨[], by simp [piecesFrom, hs], .stop hn.symm⟩
      | some r =>
          obtain ⟨p, rest⟩ := r
          rw [hs] at hn
          obtain ⟨hpos, hle, hdrop⟩ := cut_span hlimit hn.symm
          have hlen : rest.flatten.length = blocks.flatten.length - p.span := by
            rw [← hdrop, List.length_drop]
          dsimp only at hpos hle
          obtain ⟨ps, hps, hcuts⟩ := ih rest (p :: acc) (by omega)
          exact ⟨p :: ps, by simp [piecesFrom, hs, hps], .piece hn.symm hcuts⟩

theorem blocksFrom_flatten (size fuel : Nat) (hsize : 0 < size) (bs : Bytes) (acc : List Bytes)
    (hfuel : bs.length ≤ fuel) :
    (blocksFrom size fuel bs acc).reverse.flatten = acc.reverse.flatten ++ bs := by
  induction fuel generalizing bs acc with
  | zero => simp [blocksFrom, List.length_eq_zero_iff.mp (Nat.le_zero.mp hfuel)]
  | succ fuel ih =>
      cases bs with
      | nil => simp [blocksFrom]
      | cons b t =>
          rw [blocksFrom, ih]
          · simp
          · simp only [List.length_drop, List.length_cons] at hfuel ⊢; omega
          · simp

theorem blocks_flatten (bs : Bytes) : (blocks bs).flatten = bs := by
  simpa [blocks] using blocksFrom_flatten blockSize (bs.length + 1) (by decide) bs [] (by omega)

theorem pieces_cuts {limit : Nat} (hlimit : 0 < limit) (bs : Bytes) :
    Cuts limit bs (pieces limit bs) := by
  obtain ⟨ps, hps, hcuts⟩ := piecesFrom_cuts hlimit bs.length (blocks bs) []
    (Nat.le_of_eq (by rw [blocks_flatten]))
  rw [blocks_flatten] at hcuts
  simpa [pieces, hps] using hcuts

theorem Cuts.span_pos {limit : Nat} (hlimit : 0 < limit) {bs : Bytes} {ps : List Piece}
    (h : Cuts limit bs ps) : ∀ p ∈ ps, 0 < p.span := by
  induction h with
  | stop => simp
  | piece hs _ ih =>
      intro q hq
      rcases List.mem_cons.mp hq with rfl | hq
      · exact (cut_span hlimit hs).1
      · exact ih q hq

theorem Cuts.extent_le {limit : Nat} (hlimit : 0 < limit) {bs : Bytes} {ps : List Piece}
    (h : Cuts limit bs ps) : extent ps ≤ bs.length := by
  induction h with
  | stop => simp
  | piece hs _ ih =>
      obtain ⟨_, hle, rfl⟩ := cut_span hlimit hs
      rw [List.length_drop] at ih
      rw [extent_cons]
      omega

theorem Cuts.drop {limit : Nat} (hlimit : 0 < limit) {bs : Bytes} {ps qs : List Piece}
    (h : Cuts limit bs (ps ++ qs)) : Cuts limit (bs.drop (extent ps)) qs := by
  induction ps generalizing bs with
  | nil => simpa using h
  | cons p ps ih =>
      cases h with
      | piece hs more =>
          obtain ⟨_, _, rfl⟩ := cut_span hlimit hs
          simpa [List.drop_drop] using ih more

theorem Cuts.append {limit : Nat} (hlimit : 0 < limit) {bs : Bytes} {ps qs : List Piece}
    (h : Cuts limit bs ps) (more : Bytes)
    (h' : Cuts limit (bs.drop (extent ps) ++ more) qs) : Cuts limit (bs ++ more) (ps ++ qs) := by
  induction h with
  | stop => simpa using h'
  | piece hs _ ih =>
      obtain ⟨_, _, rfl⟩ := cut_span hlimit hs
      exact .piece (cut_append hs more) (ih (by simpa [List.drop_drop] using h'))

variable {limit : Nat} (hlimit : 0 < limit)
include hlimit

theorem pieces_drop {bs : Bytes} {ps qs : List Piece} (h : pieces limit bs = ps ++ qs) :
    pieces limit (bs.drop (extent ps)) = qs :=
  (pieces_cuts hlimit _).unique (Cuts.drop hlimit (h ▸ pieces_cuts hlimit bs))

/-- What framing yields of some bytes it also yields when more have come, and goes on from there. -/
theorem pieces_append (bs more : Bytes) :
    pieces limit (bs ++ more) =
      pieces limit bs ++ pieces limit (bs.drop (extent (pieces limit bs)) ++ more) :=
  (pieces_cuts hlimit _).unique
    (.append hlimit (pieces_cuts hlimit bs) more (pieces_cuts hlimit _))

theorem pieces_prefix {bs cs : Bytes} (h : bs <+: cs) : pieces limit bs <+: pieces limit cs := by
  obtain ⟨more, rfl⟩ := h
  exact ⟨_, (pieces_append hlimit bs more).symm⟩

theorem extent_pieces_le (bs : Bytes) : extent (pieces limit bs) ≤ bs.length :=
  (pieces_cuts hlimit bs).extent_le hlimit

theorem pieces_rest (bs : Bytes) : pieces limit (bs.drop (extent (pieces limit bs))) = [] :=
  pieces_drop hlimit (List.append_nil _).symm

end LogTail.Record
