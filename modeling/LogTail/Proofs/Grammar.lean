import LogTail.Json.Draft
import LogTail.Proofs.WordEnds

namespace LogTail.Json

open Lexeme

def Blanks (c : Bytes) : Prop := ∀ b ∈ c, isBlank b = true

instance (c : Bytes) : Decidable (Blanks c) := inferInstanceAs (Decidable (∀ b ∈ c, isBlank b = true))

def Lead (first : Bool) (lead : Bytes) : Prop :=
  if first then lead = [] else ∃ c, Blanks c ∧ lead = 44 :: c

/-- The bytes of a number, which are read the same before all that does not go on with them. -/
def SpellsNumber (x : Bytes) (v : Except Fault Number) : Prop :=
  ∀ rest, Stops rest → Lexeme.number (x ++ rest) = ⟨v, none, rest⟩

def SpellsString (x : Bytes) (v : Except Fault String) : Prop :=
  ∀ rest, Lexeme.string (x ++ rest) = ⟨v, none, rest⟩

mutual

inductive Spells : Bytes → Draft → Prop
  | null : Spells [110, 117, 108, 108] .null
  | yes : Spells [116, 114, 117, 101] (.bool true)
  | no : Spells [102, 97, 108, 115, 101] (.bool false)
  | number {b : UInt8} {x : Bytes} {v} (hb : b = 45 ∨ isDigit b = true) (hx : SpellsNumber (b :: x) v) :
      Spells (b :: x) (.number v none)
  | string {x : Bytes} {v} (hx : SpellsString x v) : Spells (34 :: x) (.string v none)
  | array {x : Bytes} {is} (hx : SpellsItems true x is) : Spells (91 :: x) (.array is)
  | object {x : Bytes} {ms} (hx : SpellsMembers true x ms) : Spells (123 :: x) (.object ms)
  | blank {b : UInt8} {x : Bytes} {d} (hb : isBlank b = true) (hx : Spells x d) : Spells (b :: x) d

inductive SpellsItems : Bool → Bytes → Items → Prop
  | closed {first : Bool} : SpellsItems first [93] (.stop .closed)
  | item {first : Bool} {lead x y : Bytes} {d is} (hlead : Lead first lead) (hx : Spells x d)
      (hy : SpellsItems false y is) : SpellsItems first (lead ++ (x ++ y)) (.item d is)
  | blank {first : Bool} {b : UInt8} {x : Bytes} {is} (hb : isBlank b = true)
      (hx : SpellsItems first x is) : SpellsItems first (b :: x) is

inductive SpellsMembers : Bool → Bytes → Members → Prop
  | closed {first : Bool} : SpellsMembers first [125] (.stop .closed)
  | member {first : Bool} {lead k c x y : Bytes} {key d ms} (hlead : Lead first lead)
      (hk : SpellsString k key) (hc : Blanks c) (hx : Spells x d) (hy : SpellsMembers false y ms) :
      SpellsMembers first (lead ++ 34 :: (k ++ (c ++ 58 :: (x ++ y)))) (.member key none d ms)
  | blank {first : Bool} {b : UInt8} {x : Bytes} {ms} (hb : isBlank b = true)
      (hx : SpellsMembers first x ms) : SpellsMembers first (b :: x) ms

end

theorem Lead.none : Lead true [] := rfl

theorem Lead.comma {c : Bytes} (hc : Blanks c) : Lead false (44 :: c) := ⟨c, hc, rfl⟩

theorem blanks_nil : Blanks [] := by simp [Blanks]

theorem skipBlanks_blank {b : UInt8} (hb : isBlank b = true) (bs : Bytes) :
    skipBlanks (b :: bs) = skipBlanks bs := by
  simp [skipBlanks, hb]

theorem skipBlanks_cons {b : UInt8} (h : isBlank b = false) (t : Bytes) :
    skipBlanks (b :: t) = b :: t := by
  simp [skipBlanks, h]

theorem skipBlanks_append {c : Bytes} (hc : Blanks c) (bs : Bytes) :
    skipBlanks (c ++ bs) = skipBlanks bs :=
  List.dropWhile_append_of_pos hc

theorem skipBlanks_split (bs : Bytes) :
    ∃ c, Blanks c ∧ bs = c ++ skipBlanks bs ∧ ∀ b t, skipBlanks bs = b :: t → isBlank b = false := by
  refine ⟨bs.takeWhile isBlank, fun b hb => List.mem_takeWhile_imp hb,
    List.takeWhile_append_dropWhile.symm, ?_⟩
  intro b t h
  have hhead := List.head?_dropWhile_not isBlank bs
  rw [skipBlanks] at h
  rw [h] at hhead
  simpa using hhead

theorem skipBlanks_skipBlanks (bs : Bytes) : skipBlanks (skipBlanks bs) = skipBlanks bs := by
  obtain ⟨c, hc, hbs, _⟩ := skipBlanks_split bs
  conv => rhs; rw [hbs]
  exact (skipBlanks_append hc _).symm

theorem skipBlanks_eq_nil {bs : Bytes} : skipBlanks bs = [] ↔ Blanks bs := by
  simp [skipBlanks, Blanks, List.dropWhile_eq_nil_iff]

theorem Spells.blanks {c x : Bytes} {d : Draft} (hc : Blanks c) (hx : Spells x d) : Spells (c ++ x) d := by
  induction c with
  | nil => exact hx
  | cons b c ih => exact .blank (hc b (by simp)) (ih fun a ha => hc a (by simp [ha]))

theorem SpellsItems.blanks {first : Bool} {c x : Bytes} {is : Items} (hc : Blanks c)
    (hx : SpellsItems first x is) : SpellsItems first (c ++ x) is := by
  induction c with
  | nil => exact hx
  | cons b c ih => exact .blank (hc b (by simp)) (ih fun a ha => hc a (by simp [ha]))

theorem SpellsMembers.blanks {first : Bool} {c x : Bytes} {ms : Members} (hc : Blanks c)
    (hx : SpellsMembers first x ms) : SpellsMembers first (c ++ x) ms := by
  induction c with
  | nil => exact hx
  | cons b c ih => exact .blank (hc b (by simp)) (ih fun a ha => hc a (by simp [ha]))

namespace Draft

theorem read_skipBlanks (fuel : Nat) (bs : Bytes) : read fuel (skipBlanks bs) = read fuel bs := by
  cases fuel with
  | zero => rfl
  | succ fuel => rw [read, read, skipBlanks_skipBlanks]

theorem readItem_skipBlanks (fuel : Nat) (bs : Bytes) : readItem fuel (skipBlanks bs) = readItem fuel bs := by
  cases fuel with
  | zero => rfl
  | succ fuel => rw [readItem, readItem, read_skipBlanks]

theorem name_ok {letters bs r : Bytes} (h : Lexeme.name letters bs = .ok r) : bs = letters ++ r := by
  induction letters generalizing bs with
  | nil => cases h; rfl
  | cons c cs ih =>
      cases bs with
      | nil => cases h
      | cons b t =>
          rw [Lexeme.name] at h
          split at h
          · next hb => rw [hb, ih h]; rfl
          · cases h

/-- What is read with some fuel and comes to an end is spelled by the bytes before that end. -/
structure Finds (fuel : Nat) : Prop where
  value {bs d r} : read fuel bs = (d, some r) → ∃ x, bs = x ++ r ∧ Spells x d
  items {first bs is r} : readItems fuel first bs = (is, some r) → ∃ x, bs = x ++ r ∧ SpellsItems first x is
  item {bs is r} : readItem fuel bs = (is, some r) →
    ∃ x y d is', bs = x ++ (y ++ r) ∧ is = .item d is' ∧ Spells x d ∧ SpellsItems false y is'
  members {first bs ms r} : readMembers fuel first bs = (ms, some r) →
    ∃ x, bs = x ++ r ∧ SpellsMembers first x ms
  member {bs ms r} : readMember fuel bs = (ms, some r) →
    ∃ k c x y key d ms', bs = k ++ (c ++ 58 :: (x ++ (y ++ r))) ∧ ms = .member key none d ms' ∧
      SpellsString k key ∧ Blanks c ∧ Spells x d ∧ SpellsMembers false y ms'

variable {fuel : Nat}

theorem ofNumber_some {w : Lexeme Number} {d : Draft} {r : Bytes} (h : ofNumber w = (d, some r)) :
    ∃ v, w = ⟨v, none, r⟩ ∧ d = .number v none := by
  obtain ⟨v, skim, rest⟩ := w
  cases skim with
  | none =>
      cases h
      exact ⟨v, rfl, rfl⟩
  | some f => cases h

theorem ofString_some {w : Lexeme String} {d : Draft} {r : Bytes} (h : ofString w = (d, some r)) :
    ∃ v, w = ⟨v, none, r⟩ ∧ d = .string v none := by
  obtain ⟨v, skim, rest⟩ := w
  cases skim with
  | none =>
      cases h
      exact ⟨v, rfl, rfl⟩
  | some f => cases h

theorem Finds.value_succ (h : Finds fuel) {bs r : Bytes} {d : Draft}
    (hread : read (fuel + 1) bs = (d, some r)) : ∃ x, bs = x ++ r ∧ Spells x d := by
  obtain ⟨c, hc, hbs, -⟩ := skipBlanks_split bs
  suffices hspelled : ∃ x, skipBlanks bs = x ++ r ∧ Spells x d by
    obtain ⟨x, hx, hd⟩ := hspelled
    exact ⟨c ++ x, by rw [List.append_assoc, ← hx, ← hbs], hd.blanks hc⟩
  rw [read] at hread
  split at hread
  · cases hread
  · next b t hskip =>
      have hname {letters : Bytes} {d' : Draft} (hd' : Spells (b :: letters) d')
          (hname : ofName d' (Lexeme.name letters t) = (d, some r)) :
          ∃ x, b :: t = x ++ r ∧ Spells x d := by
        cases hok : Lexeme.name letters t with
        | error f => rw [hok] at hname; cases hname
        | ok r' =>
            rw [hok] at hname
            cases hname
            exact ⟨b :: letters, by rw [name_ok hok]; rfl, hd'⟩
      rw [hskip]
      split at hread
      · next hb => exact hname (by rw [hb]; exact .null) hread
      split at hread
      · next hb => exact hname (by rw [hb]; exact .yes) hread
      split at hread
      · next hb => exact hname (by rw [hb]; exact .no) hread
      split at hread
      · next hb =>
          obtain ⟨v, hw, rfl⟩ := ofString_some hread
          obtain ⟨x, rfl, hx⟩ := stringFrom_word hw
          exact ⟨34 :: x, by rw [hb]; rfl, .string hx⟩
      split at hread
      · next hb =>
          obtain ⟨x, rfl, hx⟩ := h.items (Prod.ext rfl (Prod.mk.inj hread).2)
          rw [← (Prod.mk.inj hread).1]
          exact ⟨91 :: x, by rw [hb]; rfl, .array hx⟩
      split at hread
      · next hb =>
          obtain ⟨x, rfl, hx⟩ := h.members (Prod.ext rfl (Prod.mk.inj hread).2)
          rw [← (Prod.mk.inj hread).1]
          exact ⟨123 :: x, by rw [hb]; rfl, .object hx⟩
      split at hread
      · obtain ⟨v, hw, rfl⟩ := ofNumber_some hread
        obtain ⟨b', x, hx, hb', hword⟩ := number_word hw
        exact ⟨b' :: x, hx, .number hb' hword⟩
      · cases hread

theorem Finds.items_succ (h : Finds fuel) {first : Bool} {bs r : Bytes} {is : Items}
    (hread : readItems (fuel + 1) first bs = (is, some r)) : ∃ x, bs = x ++ r ∧ SpellsItems first x is := by
  obtain ⟨c, hc, hbs, -⟩ := skipBlanks_split bs
  suffices hspelled : ∃ x, skipBlanks bs = x ++ r ∧ SpellsItems first x is by
    obtain ⟨x, hx, his⟩ := hspelled
    exact ⟨c ++ x, by rw [List.append_assoc, ← hx, ← hbs], his.blanks hc⟩
  rw [readItems] at hread
  split at hread
  · cases hread
  · next b t hskip =>
      rw [hskip]
      split at hread
      · next hb =>
          cases hread
          exact ⟨[93], by rw [hb]; rfl, .closed⟩
      split at hread
      · next hfirst =>
          obtain ⟨x, y, d, is', hsplit, rfl, hx, hy⟩ := h.item hread
          exact ⟨[] ++ (x ++ y), by simpa using hsplit, .item (by rw [hfirst]; exact Lead.none) hx hy⟩
      split at hread
      · next hfirst hb =>
          obtain ⟨c', hc', ht, -⟩ := skipBlanks_split t
          split at hread
          · cases hread
          · next b' t' hskip' =>
              split at hread
              · cases hread
              · obtain ⟨x, y, d, is', hsplit, rfl, hx, hy⟩ := h.item hread
                refine ⟨(44 :: c') ++ (x ++ y), ?_, .item ?_ hx hy⟩
                · rw [hb, ht, hskip', hsplit]
                  simp
                · rw [eq_false_of_ne_true hfirst]
                  exact Lead.comma hc'
      · cases hread

theorem Finds.item_succ (h : Finds fuel) {bs r : Bytes} {is : Items}
    (hread : readItem (fuel + 1) bs = (is, some r)) :
    ∃ x y d is', bs = x ++ (y ++ r) ∧ is = .item d is' ∧ Spells x d ∧ SpellsItems false y is' := by
  rw [readItem] at hread
  split at hread
  · cases hread
  · next d t hvalue =>
      obtain ⟨x, rfl, hx⟩ := h.value hvalue
      obtain ⟨y, rfl, hy⟩ := h.items (Prod.ext rfl (Prod.mk.inj hread).2)
      exact ⟨x, y, d, _, rfl, (Prod.mk.inj hread).1.symm, hx, hy⟩

theorem Finds.members_succ (h : Finds fuel) {first : Bool} {bs r : Bytes} {ms : Members}
    (hread : readMembers (fuel + 1) first bs = (ms, some r)) :
    ∃ x, bs = x ++ r ∧ SpellsMembers first x ms := by
  obtain ⟨c, hc, hbs, -⟩ := skipBlanks_split bs
  suffices hspelled : ∃ x, skipBlanks bs = x ++ r ∧ SpellsMembers first x ms by
    obtain ⟨x, hx, hms⟩ := hspelled
    exact ⟨c ++ x, by rw [List.append_assoc, ← hx, ← hbs], hms.blanks hc⟩
  rw [readMembers] at hread
  split at hread
  · cases hread
  · next b t hskip =>
      rw [hskip]
      split at hread
      · next hb =>
          cases hread
          exact ⟨[125], by rw [hb]; rfl, .closed⟩
      split at hread
      · next hfirst =>
          split at hread
          · next hb =>
              obtain ⟨k, c', x, y, key, d, ms', rfl, rfl, hk, hc', hx, hy⟩ := h.member hread
              refine ⟨[] ++ 34 :: (k ++ (c' ++ 58 :: (x ++ y))), by rw [hb]; simp, ?_⟩
              exact .member (by rw [hfirst]; exact Lead.none) hk hc' hx hy
          · cases hread
      split at hread
      · next hfirst hb =>
          obtain ⟨c₀, hc₀, ht, -⟩ := skipBlanks_split t
          split at hread
          · cases hread
          · next b' t' hskip' =>
              split at hread
              · next hb' =>
                  obtain ⟨k, c', x, y, key, d, ms', rfl, rfl, hk, hc', hx, hy⟩ := h.member hread
                  refine ⟨(44 :: c₀) ++ 34 :: (k ++ (c' ++ 58 :: (x ++ y))), ?_, .member ?_ hk hc' hx hy⟩
                  · rw [hb, ht, hskip', hb']
                    simp
                  · rw [eq_false_of_ne_true hfirst]
                    exact Lead.comma hc₀
              split at hread <;> cases hread
      · cases hread

theorem Finds.member_succ (h : Finds fuel) {bs r : Bytes} {ms : Members}
    (hread : readMember (fuel + 1) bs = (ms, some r)) :
    ∃ k c x y key d ms', bs = k ++ (c ++ 58 :: (x ++ (y ++ r))) ∧ ms = .member key none d ms' ∧
      SpellsString k key ∧ Blanks c ∧ Spells x d ∧ SpellsMembers false y ms' := by
  rw [readMember] at hread
  dsimp only at hread
  obtain ⟨key, skim, u, hstring⟩ : ∃ key skim u, Lexeme.string bs = ⟨key, skim, u⟩ := ⟨_, _, _, rfl⟩
  rw [hstring] at hread
  cases skim with
  | some f => cases hread
  | none =>
      obtain ⟨k, rfl, hk⟩ := stringFrom_word hstring
      obtain ⟨c, hc, hu, -⟩ := skipBlanks_split u
      dsimp only [Option.isSome_none] at hread
      rw [if_neg (by decide)] at hread
      split at hread
      · cases hread
      · next b t hskip =>
          split at hread
          · next hb =>
              split at hread
              · cases hread
              · next d t' hvalue =>
                  obtain ⟨x, rfl, hx⟩ := h.value hvalue
                  obtain ⟨y, rfl, hy⟩ := h.members (Prod.ext rfl (Prod.mk.inj hread).2)
                  refine ⟨k, c, x, y, key, d, _, ?_, (Prod.mk.inj hread).1.symm, hk, hc, hx, hy⟩
                  rw [← hb, ← hskip, ← hu]
          · cases hread

theorem finds (fuel : Nat) : Finds fuel := by
  induction fuel with
  | zero => exact ⟨nofun, nofun, nofun, nofun, nofun⟩
  | succ fuel ih =>
      exact ⟨ih.value_succ, ih.items_succ, ih.item_succ, ih.members_succ, ih.member_succ⟩

end Draft

theorem digit_apart {b : UInt8} (h : isDigit b = true) :
    isBlank b = false ∧ b ≠ 93 ∧ b ≠ 110 ∧ b ≠ 116 ∧ b ≠ 102 ∧ b ≠ 34 ∧ b ≠ 91 ∧ b ≠ 123 := by
  refine ⟨?_, ?_, ?_, ?_, ?_, ?_, ?_, ?_⟩
  · cases hb : isBlank b with
    | false => rfl
    | true =>
        simp only [isBlank, Bool.or_eq_true, decide_eq_true_eq] at hb
        rcases hb with ((rfl | rfl) | rfl) | rfl <;> cases h
  all_goals
    rintro rfl
    cases h

theorem Spells.head {x : Bytes} {d : Draft} (h : Spells x d) :
    ∃ c b t, Blanks c ∧ x = c ++ b :: t ∧ isBlank b = false ∧ b ≠ 93 := by
  match h with
  | .null | .yes | .no | .string _ | .array _ | .object _ =>
      exact ⟨[], _, _, blanks_nil, rfl, rfl, by decide⟩
  | .number (b := b) (x := t) hb _ =>
      refine ⟨[], b, t, blanks_nil, rfl, ?_⟩
      rcases hb with rfl | hb
      · decide
      · exact ⟨(digit_apart hb).1, (digit_apart hb).2.1⟩
  | .blank (b := a) ha hx =>
      obtain ⟨c, b, t, hc, rfl, hb⟩ := hx.head
      exact ⟨a :: c, b, t, by simpa [Blanks, ha] using hc, rfl, hb⟩

theorem Spells.length_pos {x : Bytes} {d : Draft} (h : Spells x d) : 0 < x.length := by
  obtain ⟨c, b, t, -, rfl, -⟩ := h.head
  rw [List.length_append, List.length_cons]
  omega

theorem stops_blank {b : UInt8} (h : isBlank b = true) : isDigit b = false ∧ b ≠ 46 ∧ b ≠ 101 ∧ b ≠ 69 := by
  simp only [isBlank, Bool.or_eq_true, decide_eq_true_eq] at h
  rcases h with ((rfl | rfl) | rfl) | rfl <;> decide

theorem SpellsItems.stops {y : Bytes} {is : Items} (h : SpellsItems false y is) (rest : Bytes) :
    Stops (y ++ rest) := by
  intro b t heq
  cases h with
  | closed => cases heq; decide
  | item hlead =>
      obtain ⟨c, -, rfl⟩ := hlead
      cases heq
      decide
  | blank hb =>
      cases heq
      exact stops_blank hb

theorem SpellsMembers.stops {y : Bytes} {ms : Members} (h : SpellsMembers false y ms) (rest : Bytes) :
    Stops (y ++ rest) := by
  intro b t heq
  cases h with
  | closed => cases heq; decide
  | member hlead =>
      obtain ⟨c, -, rfl⟩ := hlead
      cases heq
      decide
  | blank hb =>
      cases heq
      exact stops_blank hb

def Draft.Closed : Draft → Prop
  | .number _ _ => False
  | _ => True

namespace Draft

variable {fuel : Nat}

theorem read_blank {b : UInt8} (hb : isBlank b = true) (t : Bytes) : read fuel (b :: t) = read fuel t := by
  rw [← read_skipBlanks, skipBlanks_blank hb, read_skipBlanks]

theorem read_number {b : UInt8} (hb : b = 45 ∨ isDigit b = true) (t : Bytes) :
    read (fuel + 1) (b :: t) = ofNumber (Lexeme.number (b :: t)) := by
  have happart : isBlank b = false ∧ b ≠ 110 ∧ b ≠ 116 ∧ b ≠ 102 ∧ b ≠ 34 ∧ b ≠ 91 ∧ b ≠ 123 := by
    rcases hb with rfl | hb
    · decide
    · exact ⟨(digit_apart hb).1, (digit_apart hb).2.2⟩
  obtain ⟨hblank, h1, h2, h3, h4, h5, h6⟩ := happart
  rw [read, skipBlanks_cons hblank]
  simp only [h1, h2, h3, h4, h5, h6, hb, if_false, if_true]

theorem read_string (t : Bytes) : read (fuel + 1) (34 :: t) = ofString (Lexeme.string t) := by
  rw [read, skipBlanks_cons (by decide)]
  rfl

theorem read_array (t : Bytes) :
    read (fuel + 1) (91 :: t) = (.array (readItems fuel true t).1, (readItems fuel true t).2) := by
  rw [read, skipBlanks_cons (by decide)]
  rfl

theorem read_object (t : Bytes) :
    read (fuel + 1) (123 :: t) = (.object (readMembers fuel true t).1, (readMembers fuel true t).2) := by
  rw [read, skipBlanks_cons (by decide)]
  rfl

theorem readItems_skipBlanks (first : Bool) (bs : Bytes) :
    readItems fuel first (skipBlanks bs) = readItems fuel first bs := by
  cases fuel with
  | zero => rfl
  | succ fuel => rw [readItems, readItems, skipBlanks_skipBlanks]

theorem readMembers_skipBlanks (first : Bool) (bs : Bytes) :
    readMembers fuel first (skipBlanks bs) = readMembers fuel first bs := by
  cases fuel with
  | zero => rfl
  | succ fuel => rw [readMembers, readMembers, skipBlanks_skipBlanks]

theorem readItems_item {first : Bool} {lead x : Bytes} {d : Draft} (hlead : Lead first lead)
    (hx : Spells x d) (rest : Bytes) :
    readItems (fuel + 1) first (lead ++ (x ++ rest)) = readItem fuel (x ++ rest) := by
  obtain ⟨c, b, t, hc, rfl, hb, hend⟩ := hx.head
  have hskip : skipBlanks (c ++ b :: t ++ rest) = b :: (t ++ rest) := by
    rw [List.append_assoc, skipBlanks_append hc]
    exact skipBlanks_cons hb _
  rw [← readItem_skipBlanks, hskip]
  cases first with
  | true =>
      cases hlead
      rw [List.nil_append, readItems, hskip]
      simp [hend]
  | false =>
      obtain ⟨c', hc', rfl⟩ := hlead
      rw [List.cons_append, readItems, skipBlanks_cons (by decide)]
      simp only [skipBlanks_append hc', hskip, hend, if_false]
      rfl

theorem readItem_value {bs t : Bytes} {d : Draft} (h : read fuel bs = (d, some t)) :
    readItem (fuel + 1) bs = (.item d (readItems fuel false t).1, (readItems fuel false t).2) := by
  rw [readItem, h]

theorem readMembers_member {first : Bool} {lead : Bytes} (hlead : Lead first lead) (t : Bytes) :
    readMembers (fuel + 1) first (lead ++ 34 :: t) = readMember fuel t := by
  cases first with
  | true =>
      cases hlead
      rw [List.nil_append, readMembers, skipBlanks_cons (by decide)]
      rfl
  | false =>
      obtain ⟨c, hc, rfl⟩ := hlead
      rw [List.cons_append, readMembers, skipBlanks_cons (by decide)]
      simp [skipBlanks_append hc, skipBlanks_cons (b := 34) (by decide)]

theorem readMember_value {k c bs t : Bytes} {key : Except Fault String} {d : Draft}
    (hk : SpellsString k key) (hc : Blanks c) (h : read fuel bs = (d, some t)) :
    readMember (fuel + 1) (k ++ (c ++ 58 :: bs)) =
      (.member key none d (readMembers fuel false t).1, (readMembers fuel false t).2) := by
  rw [readMember, hk]
  simp [skipBlanks_append hc, skipBlanks_cons (b := 58) (by decide), h]

end Draft

mutual

/-- What a text spells is read from it, whatever follows it that does not go on with a number. -/
theorem Spells.read {x rest : Bytes} {d : Draft} {fuel : Nat} (h : Spells x d)
    (hfuel : 3 * x.length + 1 ≤ fuel) (hrest : d.Closed ∨ Stops rest) :
    Draft.read fuel (x ++ rest) = (d, some rest) := by
  obtain ⟨fuel, rfl⟩ : ∃ n, fuel = n + 1 := ⟨fuel - 1, by omega⟩
  match h with
  | .null | .yes | .no => rfl
  | .number hb hx =>
      have hstops : Stops rest := hrest.resolve_left id
      have hword := hx rest hstops
      rw [List.cons_append] at hword ⊢
      rw [Draft.read_number hb, hword]
      rfl
  | .string hx =>
      rw [List.cons_append, Draft.read_string, hx rest]
      rfl
  | .array hx =>
      rw [List.cons_append, Draft.read_array, hx.read (by simp at hfuel; omega)]
  | .object hx =>
      rw [List.cons_append, Draft.read_object, hx.read (by simp at hfuel; omega)]
  | .blank hb hx =>
      rw [List.cons_append, Draft.read_blank hb]
      exact hx.read (by simp at hfuel; omega) hrest

theorem SpellsItems.read {first : Bool} {y rest : Bytes} {is : Items} {fuel : Nat}
    (h : SpellsItems first y is) (hfuel : 3 * y.length + 3 ≤ fuel) :
    Draft.readItems fuel first (y ++ rest) = (is, some rest) := by
  obtain ⟨fuel, rfl⟩ : ∃ n, fuel = n + 2 := ⟨fuel - 2, by omega⟩
  match h with
  | .closed => rfl
  | .item (x := x) (y := y) hlead hx hy =>
      have hpos : 0 < x.length := hx.length_pos
      simp only [List.length_append] at hfuel
      have hvalue : Draft.read fuel (x ++ (y ++ rest)) = (_, some (y ++ rest)) :=
        hx.read (by omega) (.inr (hy.stops rest))
      rw [List.append_assoc, List.append_assoc, Draft.readItems_item hlead hx,
        Draft.readItem_value hvalue, hy.read (by omega)]
  | .blank hb hx =>
      rw [List.cons_append, ← Draft.readItems_skipBlanks, skipBlanks_blank hb, Draft.readItems_skipBlanks]
      exact hx.read (by simp at hfuel; omega)

theorem SpellsMembers.read {first : Bool} {y rest : Bytes} {ms : Members} {fuel : Nat}
    (h : SpellsMembers first y ms) (hfuel : 3 * y.length + 3 ≤ fuel) :
    Draft.readMembers fuel first (y ++ rest) = (ms, some rest) := by
  obtain ⟨fuel, rfl⟩ : ∃ n, fuel = n + 2 := ⟨fuel - 2, by omega⟩
  match h with
  | .closed => rfl
  | .member (k := k) (c := c) (x := x) (y := y) hlead hk hc hx hy =>
      simp only [List.length_append, List.length_cons] at hfuel
      have hvalue : Draft.read fuel (x ++ (y ++ rest)) = (_, some (y ++ rest)) :=
        hx.read (by omega) (.inr (hy.stops rest))
      have htext : k ++ (c ++ 58 :: (x ++ y)) ++ rest = k ++ (c ++ 58 :: (x ++ (y ++ rest))) := by simp
      rw [List.append_assoc, List.cons_append, htext, Draft.readMembers_member hlead, Draft.readMember_value hk hc hvalue,
        hy.read (by omega)]
  | .blank hb hx =>
      rw [List.cons_append, ← Draft.readMembers_skipBlanks, skipBlanks_blank hb,
        Draft.readMembers_skipBlanks]
      exact hx.read (by simp at hfuel; omega)

end

theorem Spells.ofBytes {x : Bytes} {d : Draft} (h : Spells x d) : Draft.ofBytes x = (d, some []) := by
  have hread : Draft.read (3 * x.length + 3) (x ++ []) = (d, some []) := h.read (by omega) (.inr stops_nil)
  rwa [List.append_nil] at hread

end LogTail.Json
