import LogTail.Proofs.Grammar

namespace LogTail.Json

open Lexeme

namespace Draft

def Void (d : Draft) : Prop := ∀ depth, ∃ f, d.value depth = .error f

def VoidItems (is : Items) : Prop := ∀ depth, ∃ f, itemValues depth is = .error f

def VoidMembers (ms : Members) : Prop := ∀ depth, ∃ f, memberValues depth ms = .error f

theorem void_flawed (f : Fault) : Void (.flawed f) := fun _ => ⟨f, rfl⟩

theorem voidItems_stop {s : Stop} (hs : s ≠ .closed) : VoidItems (.stop s) :=
  fun _ => ⟨s.listFault, by simp [itemValues, hs]⟩

theorem voidMembers_stop {s : Stop} (hs : s ≠ .closed) : VoidMembers (.stop s) :=
  fun _ => ⟨s.objectFault, by simp [memberValues, hs]⟩

theorem Void.item {d : Draft} (h : Void d) (is : Items) : VoidItems (.item d is) := by
  intro depth
  obtain ⟨f, hf⟩ := h depth
  exact ⟨f, by rw [itemValues, hf]; rfl⟩

theorem VoidItems.item {is : Items} (h : VoidItems is) (d : Draft) : VoidItems (.item d is) := by
  intro depth
  rw [itemValues]
  cases d.value depth with
  | error f => exact ⟨f, rfl⟩
  | ok v =>
      obtain ⟨f, hf⟩ := h depth
      exact ⟨f, by rw [hf]; rfl⟩

theorem voidMembers_key (f : Fault) (skim : Option Fault) (d : Draft) (ms : Members) :
    VoidMembers (.member (.error f) skim d ms) := fun _ => ⟨f, by rw [memberValues]; rfl⟩

theorem Void.member {d : Draft} (h : Void d) (key : Except Fault String) (skim : Option Fault)
    (ms : Members) : VoidMembers (.member key skim d ms) := by
  intro depth
  rw [memberValues]
  cases key with
  | error f => exact ⟨f, rfl⟩
  | ok k =>
      obtain ⟨f, hf⟩ := h depth
      exact ⟨f, by rw [hf]; rfl⟩

theorem VoidMembers.member {ms : Members} (h : VoidMembers ms) (key : Except Fault String)
    (skim : Option Fault) (d : Draft) : VoidMembers (.member key skim d ms) := by
  intro depth
  rw [memberValues]
  cases key with
  | error f => exact ⟨f, rfl⟩
  | ok k =>
      cases d.value depth with
      | error f => exact ⟨f, rfl⟩
      | ok v =>
          obtain ⟨f, hf⟩ := h depth
          exact ⟨f, by rw [hf]; rfl⟩

theorem VoidItems.array {is : Items} (h : VoidItems is) : Void (.array is) := by
  intro depth
  rw [value]
  split
  · exact ⟨_, rfl⟩
  · obtain ⟨f, hf⟩ := h (depth - 1)
    exact ⟨f, by rw [hf]; rfl⟩

theorem VoidMembers.object {ms : Members} (h : VoidMembers ms) : Void (.object ms) := by
  intro depth
  rw [value]
  split
  · exact ⟨_, rfl⟩
  · obtain ⟨f, hf⟩ := h (depth - 1)
    exact ⟨f, by rw [hf]; rfl⟩

theorem void_number {w : Lexeme Number} {d : Draft} (hw : Sane w) (h : ofNumber w = (d, none)) : Void d := by
  obtain ⟨v, skim, rest⟩ := w
  cases skim with
  | none => cases h
  | some f =>
      cases h
      obtain ⟨g, rfl⟩ := hw.resolve_left (by simp)
      exact fun _ => ⟨g, rfl⟩

theorem void_string {w : Lexeme String} {d : Draft} (hw : Sane w) (h : ofString w = (d, none)) : Void d := by
  obtain ⟨v, skim, rest⟩ := w
  cases skim with
  | none => cases h
  | some f =>
      cases h
      obtain ⟨g, rfl⟩ := hw.resolve_left (by simp)
      exact fun _ => ⟨g, rfl⟩

theorem void_name {d d' : Draft} {r : Except Fault Bytes} (h : ofName d' r = (d, none)) : Void d := by
  cases r with
  | ok rest => cases h
  | error f =>
      cases h
      exact void_flawed f

/-- What is read with some fuel without coming to an end has no value. -/
structure Unfinished (fuel : Nat) : Prop where
  value {bs d} : read fuel bs = (d, none) → Void d
  items {first bs is} : readItems fuel first bs = (is, none) → VoidItems is
  item {bs is} : readItem fuel bs = (is, none) → VoidItems is
  members {first bs ms} : readMembers fuel first bs = (ms, none) → VoidMembers ms
  member {bs ms} : readMember fuel bs = (ms, none) → VoidMembers ms

variable {fuel : Nat} {bs : Bytes}

theorem Unfinished.value_succ (h : Unfinished fuel) {d : Draft} (hread : read (fuel + 1) bs = (d, none)) :
    Void d := by
  rw [read] at hread
  split at hread
  · cases hread
    exact void_flawed _
  split at hread
  · exact void_name hread
  split at hread
  · exact void_name hread
  split at hread
  · exact void_name hread
  split at hread
  · exact void_string (sane_stringFrom _ _) hread
  split at hread
  · rw [← (Prod.mk.inj hread).1]
    exact (h.items (Prod.ext rfl (Prod.mk.inj hread).2)).array
  split at hread
  · rw [← (Prod.mk.inj hread).1]
    exact (h.members (Prod.ext rfl (Prod.mk.inj hread).2)).object
  split at hread
  · exact void_number (sane_number _) hread
  · cases hread
    exact void_flawed _

theorem Unfinished.items_succ (h : Unfinished fuel) {first : Bool} {is : Items}
    (hread : readItems (fuel + 1) first bs = (is, none)) : VoidItems is := by
  rw [readItems] at hread
  split at hread
  · cases hread
    exact voidItems_stop (by decide)
  split at hread
  · cases hread
  split at hread
  · exact h.item hread
  split at hread
  · split at hread
    · cases hread
      exact voidItems_stop (by decide)
    split at hread
    · cases hread
      exact voidItems_stop (by decide)
    · exact h.item hread
  · cases hread
    exact voidItems_stop (by decide)

theorem Unfinished.item_succ (h : Unfinished fuel) {is : Items} (hread : readItem (fuel + 1) bs = (is, none)) :
    VoidItems is := by
  rw [readItem] at hread
  split at hread
  · next hvalue =>
      cases hread
      exact (h.value hvalue).item _
  · rw [← (Prod.mk.inj hread).1]
    exact (h.items (Prod.ext rfl (Prod.mk.inj hread).2)).item _

theorem Unfinished.members_succ (h : Unfinished fuel) {first : Bool} {ms : Members}
    (hread : readMembers (fuel + 1) first bs = (ms, none)) : VoidMembers ms := by
  rw [readMembers] at hread
  split at hread
  · cases hread
    exact voidMembers_stop (by decide)
  split at hread
  · cases hread
  split at hread
  · split at hread
    · exact h.member hread
    · cases hread
      exact voidMembers_stop (by decide)
  split at hread
  · split at hread
    · cases hread
      exact voidMembers_stop (by decide)
    split at hread
    · exact h.member hread
    split at hread
    · cases hread
      exact voidMembers_stop (by decide)
    · cases hread
      exact voidMembers_stop (by decide)
  · cases hread
    exact voidMembers_stop (by decide)

theorem Unfinished.member_succ (h : Unfinished fuel) {ms : Members}
    (hread : readMember (fuel + 1) bs = (ms, none)) : VoidMembers ms := by
  have hsane : Sane (Lexeme.string bs) := sane_stringFrom _ _
  rw [readMember] at hread
  dsimp only at hread
  generalize Lexeme.string bs = key at hread hsane
  split at hread
  · next hskim =>
      cases hread
      obtain ⟨f, hf⟩ := hsane.resolve_left (Option.isSome_iff_ne_none.mp hskim)
      rw [hf]
      exact voidMembers_key f _ _ _
  split at hread
  · cases hread
    exact (void_flawed _).member _ _ _
  split at hread
  · split at hread
    · next hvalue =>
        cases hread
        exact (h.value hvalue).member _ _ _
    · rw [← (Prod.mk.inj hread).1]
      exact (h.members (Prod.ext rfl (Prod.mk.inj hread).2)).member _ _ _
  · cases hread
    exact (void_flawed _).member _ _ _

theorem unfinished (fuel : Nat) : Unfinished fuel := by
  induction fuel with
  | zero =>
      constructor
      · intro bs d h
        cases h
        exact void_flawed _
      · intro first bs is h
        cases h
        exact voidItems_stop (by decide)
      · intro bs is h
        cases h
        exact voidItems_stop (by decide)
      · intro first bs ms h
        cases h
        exact voidMembers_stop (by decide)
      · intro bs ms h
        cases h
        exact voidMembers_stop (by decide)
  | succ fuel ih =>
      exact ⟨ih.value_succ, ih.items_succ, ih.item_succ, ih.members_succ, ih.member_succ⟩

end Draft

theorem Spells.number_head {x : Bytes} {v : Except Fault Number} {skim : Option Fault}
    (h : Spells x (.number v skim)) :
    ∃ c b t, Blanks c ∧ x = c ++ b :: t ∧ (b = 45 ∨ isDigit b = true) := by
  match h with
  | .number (b := b) (x := t) hb _ => exact ⟨[], b, t, blanks_nil, rfl, hb⟩
  | .blank (b := a) ha hx =>
      obtain ⟨c, b, t, hc, rfl, hb⟩ := hx.number_head
      exact ⟨a :: c, b, t, by simpa [Blanks, ha] using hc, rfl, hb⟩

theorem Draft.read_blanks {c : Bytes} (hc : Blanks c) (fuel : Nat) (t : Bytes) :
    read fuel (c ++ t) = read fuel t := by
  rw [← read_skipBlanks, skipBlanks_append hc, read_skipBlanks]

theorem Spells.closed_of_append {x y : Bytes} {d d' : Draft} (h : Spells (x ++ y) d) (hd : d.Closed)
    (hx : Spells x d') : d'.Closed := by
  cases d' with
  | number v skim =>
      obtain ⟨c, b, t, hc, rfl, hb⟩ := hx.number_head
      have hread := h.ofBytes
      rw [List.append_assoc, Draft.ofBytes, Draft.read_blanks hc, List.cons_append,
        Draft.read_number hb] at hread
      rw [← (Prod.mk.inj hread).1] at hd
      exact hd.elim
  | _ => trivial

theorem Spells.not_cut {x y : Bytes} {d d' : Draft} (h : Spells (x ++ y) d) (hd : d.Closed)
    (hx : Spells x d') : y = [] := by
  have hfront : Draft.ofBytes (x ++ y) = (d', some y) :=
    hx.read (by simp; omega) (.inl (h.closed_of_append hd hx))
  rw [h.ofBytes] at hfront
  simpa using (Prod.mk.inj hfront).2.symm

/-- A value other than a number that was cut has neither an end nor a value. -/
theorem Spells.cut {x y : Bytes} {d : Draft} (h : Spells (x ++ y) d) (hd : d.Closed) (hy : y ≠ [])
    (fuel : Nat) : (Draft.read fuel x).2 = none ∧ (Draft.read fuel x).1.Void := by
  obtain ⟨d', r, hread⟩ : ∃ d' r, Draft.read fuel x = (d', r) := ⟨_, _, rfl⟩
  cases r with
  | none =>
      rw [hread]
      exact ⟨rfl, (Draft.unfinished fuel).value hread⟩
  | some r =>
      obtain ⟨x', rfl, hx'⟩ := (Draft.finds fuel).value hread
      rw [List.append_assoc] at h
      have hnil := h.not_cut hd hx'
      exact absurd (List.append_eq_nil_iff.mp hnil).2 hy

end LogTail.Json
