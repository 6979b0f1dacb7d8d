import LogTail.Proofs.Spans

namespace LogTail.Record

open Lines

variable {limit : Nat} {blocks : List Bytes} {p : Piece} {rest : List Bytes}

theorem cut_of_next (hlimit : 0 < limit) (h : next limit blocks = some (p, rest)) :
    cut limit blocks.flatten = some (p, rest.flatten) := by
  rw [← next_flatten hlimit, h]
  rfl

theorem next_none (hlimit : 0 < limit) : next limit blocks = none ↔
    10 ∉ blocks.flatten.take limit ∧
      (blocks.flatten.length < limit ∨
        blocks.flatten.length = limit ∧ blocks.flatten.getLast? = some 13) := by
  rw [← Option.map_eq_none_iff (f := fun r : Piece × List Bytes => (r.1, r.2.flatten)), next_flatten hlimit, cut_none]
  refine and_congr_left ?_
  intro hlength
  rw [List.take_of_length_le (by omega)]

theorem next_span (hlimit : 0 < limit) (h : next limit blocks = some (p, rest)) :
    1 ≤ p.span ∧ p.span ≤ limit + 1 ∧ p.span ≤ blocks.flatten.length ∧
      rest.flatten = blocks.flatten.drop p.span := by
  have hcut := cut_of_next hlimit h
  obtain ⟨hpos, hle, hdrop⟩ := cut_span hlimit hcut
  refine ⟨hpos, ?_, hle, hdrop.symm⟩
  rcases cut_span_le hcut with ⟨hspan, -⟩ | ⟨hspan, -⟩ <;> omega

theorem next_extended (hlimit : 0 < limit) (h : next limit blocks = some (p, rest)) {more : List Bytes}
    (hmore : blocks.flatten <+: more.flatten) : (next limit more).map Prod.fst = some p := by
  obtain ⟨behind, hbehind⟩ := hmore
  have hcut := cut_append (cut_of_next hlimit h) behind
  rw [hbehind, ← next_flatten hlimit] at hcut
  obtain ⟨r, hnext, hr⟩ := Option.map_eq_some_iff.mp hcut
  rw [hnext, Option.map_some, ← (Prod.mk.inj hr).1]

/-- What the next piece of some bytes is, and how many bytes it takes, is the same as if they came in one
block. A piece takes at least one byte and at most one more than the limit, just these bytes are gone
behind it, and it stays the same when more bytes come. There is none just if no line feed stands within the
limit and the bytes are fewer, or as many and end with a carriage return. -/
theorem next_scans (hlimit : 0 < limit) (blocks : List Bytes) :
    (next limit blocks).map (fun r => (r.1, r.2.flatten)) =
      (next limit [blocks.flatten]).map (fun r => (r.1, r.2.flatten)) ∧
    (∀ p rest, next limit blocks = some (p, rest) →
      1 ≤ p.span ∧ p.span ≤ limit + 1 ∧ p.span ≤ blocks.flatten.length ∧
      rest.flatten = blocks.flatten.drop p.span ∧
      ∀ more : List Bytes, blocks.flatten <+: more.flatten → (next limit more).map Prod.fst = some p) ∧
    (next limit blocks = none ↔ 10 ∉ blocks.flatten.take limit ∧
      (blocks.flatten.length < limit ∨
        blocks.flatten.length = limit ∧ blocks.flatten.getLast? = some 13)) := by
  refine ⟨?_, ?_, next_none hlimit⟩
  · rw [next_flatten hlimit, next_flatten hlimit, List.flatten_singleton]
  · intro p rest h
    obtain ⟨hpos, hspan, hle, hrest⟩ := next_span hlimit h
    exact ⟨hpos, hspan, hle, hrest, fun _ => next_extended hlimit h⟩

theorem next_scans_parted :
    let blocks : List Bytes := [[97], [13], [10, 98]]
    0 < 2 ∧ next 2 blocks = some (⟨3, [97]⟩, [[98]]) ∧
      1 ≤ 3 ∧ 3 ≤ 2 + 1 ∧ blocks.flatten.drop 3 = [98] ∧
      (next 2 [[97, 13, 10], [98, 99]]).map Prod.fst = some ⟨3, [97]⟩ ∧
      next 2 [[97], [13]] = none ∧ 10 ∉ ([97, 13] : Bytes) := by
  intro blocks
  obtain ⟨-, hpiece, -⟩ := next_scans (show 0 < 2 by decide) blocks
  obtain ⟨hpos, hspan, -, hrest, hmore⟩ := hpiece ⟨3, [97]⟩ [[98]] rfl
  have hnone : next 2 [[97], [13]] = none := rfl
  obtain ⟨-, -, hwaits⟩ := next_scans (show 0 < 2 by decide) [[97], [13]]
  exact ⟨by decide, rfl, hpos, hspan, hrest.symm, hmore _ ⟨[99], rfl⟩, hnone, (hwaits.mp hnone).1⟩

end LogTail.Record
