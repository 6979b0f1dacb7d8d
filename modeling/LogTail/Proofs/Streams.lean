import LogTail.Proofs.Counts
import LogTail.Proofs.Stores

namespace LogTail

open Json Json.Lexeme

namespace Json

theorem SpellsItems.last {first : Bool} {y : Bytes} {is : Items} (h : SpellsItems first y is) :
    ∃ t, y = t ++ [93] := by
  match h with
  | .closed => exact ⟨[], rfl⟩
  | @SpellsItems.item _ lead x _ _ _ _ _ hy =>
      obtain ⟨t, rfl⟩ := hy.last
      exact ⟨lead ++ (x ++ t), by simp⟩
  | .blank (b := b) _ hx =>
      obtain ⟨t, rfl⟩ := hx.last
      exact ⟨b :: t, rfl⟩

theorem SpellsMembers.last {first : Bool} {y : Bytes} {ms : Members} (h : SpellsMembers first y ms) :
    ∃ t, y = t ++ [125] := by
  match h with
  | .closed => exact ⟨[], rfl⟩
  | @SpellsMembers.member _ lead k c x _ _ _ _ _ _ _ _ hy =>
      obtain ⟨t, rfl⟩ := hy.last
      exact ⟨lead ++ 34 :: (k ++ (c ++ 58 :: (x ++ t))), by simp⟩
  | .blank (b := b) _ hx =>
      obtain ⟨t, rfl⟩ := hx.last
      exact ⟨b :: t, rfl⟩

structure Tight (x : Bytes) : Prop where
  first : ∀ b ∈ x.head?, isBlank b = false
  last : ∀ b ∈ x.getLast?, isBlank b = false

theorem Spells.brackets {x : Bytes} {d : Draft} (h : Spells x d)
    (hd : (∃ is, d = .array is) ∨ ∃ ms, d = .object ms) (hfirst : ∀ b ∈ x.head?, isBlank b = false) :
    d.Closed ∧ Tight x ∧ ∃ b t, x = b :: t ∧ (b = 91 ∨ b = 123) := by
  cases h with
  | array hx =>
      obtain ⟨t, rfl⟩ := hx.last
      refine ⟨trivial, ⟨hfirst, ?_⟩, 91, _, rfl, .inl rfl⟩
      rw [← List.cons_append, List.getLast?_concat]
      rintro b ⟨⟩
      rfl
  | object hx =>
      obtain ⟨t, rfl⟩ := hx.last
      refine ⟨trivial, ⟨hfirst, ?_⟩, 123, _, rfl, .inr rfl⟩
      rw [← List.cons_append, List.getLast?_concat]
      rintro b ⟨⟩
      rfl
  | blank hb =>
      rw [hfirst _ rfl] at hb
      cases hb
  | null | yes | no | number | string => rcases hd with ⟨_, h⟩ | ⟨_, h⟩ <;> cases h

theorem Draft.of_container {d : Draft} {depth : Nat} {v : Value} (h : d.value depth = .ok v)
    (hv : (∃ vs, v = .array vs) ∨ ∃ ms, v = .object ms) :
    (∃ is, d = .array is) ∨ ∃ ms, d = .object ms := by
  cases d with
  | array is => exact .inl ⟨is, rfl⟩
  | object ms => exact .inr ⟨ms, rfl⟩
  | null | bool => rcases hv with ⟨_, rfl⟩ | ⟨_, rfl⟩ <;> cases h
  | number n => cases n <;> rcases hv with ⟨_, rfl⟩ | ⟨_, rfl⟩ <;> cases h
  | string s => cases s <;> rcases hv with ⟨_, rfl⟩ | ⟨_, rfl⟩ <;> cases h
  | flawed => cases h

theorem Value.ofBytes_ok {bs : Bytes} {v : Value} (h : Value.ofBytes bs = .ok v) :
    ∃ x d c, bs = x ++ c ∧ Spells x d ∧ Blanks c ∧ d.value Draft.maxDepth = .ok v := by
  rw [Value.ofBytes] at h
  obtain ⟨d, r, hread⟩ : ∃ d r, Draft.ofBytes bs = (d, r) := ⟨_, _, rfl⟩
  rw [hread] at h
  obtain ⟨w, hw, h⟩ := Draft.bind_ok h
  obtain ⟨_, hended, h⟩ := Draft.bind_ok h
  cases h
  cases r with
  | none =>
      obtain ⟨f, hf⟩ := (Draft.unfinished _).value hread Draft.maxDepth
      rw [hf] at hw
      cases hw
  | some c =>
      obtain ⟨x, rfl, hx⟩ := (Draft.finds _).value hread
      refine ⟨x, d, c, rfl, hx, skipBlanks_eq_nil.mp ?_, hw⟩
      unfold ended at hended
      dsimp only [Option.getD_some] at hended
      split at hended
      · assumption
      · cases hended

end Json

namespace Checkpoint

theorem nextValue_container {c x : Bytes} {d : Draft} {v : Value} (hc : Blanks c) (hx : Spells x d)
    (hfirst : ∀ b ∈ x.head?, Lexeme.isBlank b = false) (hd : d.value Draft.maxDepth = .ok v)
    (hv : (∃ vs, v = .array vs) ∨ ∃ ms, v = .object ms) (rest : Bytes) :
    nextValue (c ++ (x ++ rest)) = some (.ok (v, rest)) := by
  obtain ⟨hclosed, -, b, t, rfl, hb⟩ := hx.brackets (Draft.of_container hd hv) hfirst
  have hskip : skipBlanks (c ++ (b :: t ++ rest)) = b :: (t ++ rest) := by
    rw [skipBlanks_append hc]
    exact skipBlanks_cons (hfirst b rfl) _
  have hread : Draft.ofBytes (b :: (t ++ rest)) = (d, some rest) :=
    hx.read (by simp; omega) (.inl hclosed)
  have hopens : b = 91 ∨ b = 34 ∨ b = 123 := hb.imp_right .inr
  rw [nextValue, hskip]
  simp only [hread, hd, hopens, if_true, Option.getD_some]

theorem nextValue_ok {bs rest : Bytes} {v : Value} (h : nextValue bs = some (.ok (v, rest))) :
    ∃ c b t d, bs = c ++ (b :: t ++ rest) ∧ Blanks c ∧ Lexeme.isBlank b = false ∧ Spells (b :: t) d ∧
      d.value Draft.maxDepth = .ok v ∧
      (b = 91 ∨ b = 34 ∨ b = 123 ∨ rest = [] ∨ ∃ a u, rest = a :: u ∧ a ∈ delimiters) := by
  obtain ⟨c, hc, hbs, hhead⟩ := skipBlanks_split bs
  unfold nextValue at h
  split at h
  · cases h
  · next b u hskip =>
      obtain ⟨d, r, hread⟩ : ∃ d r, Draft.ofBytes (b :: u) = (d, r) := ⟨_, _, rfl⟩
      rw [hskip] at hbs
      rw [hread] at h
      dsimp only at h
      have hanswer := Option.some.inj h
      split at hanswer
      · cases hanswer
      · next w hw =>
          cases r with
          | none =>
              obtain ⟨f, hf⟩ := (Draft.unfinished _).value hread Draft.maxDepth
              rw [hf] at hw
              cases hw
          | some r =>
              obtain ⟨x, hx, hd⟩ := (Draft.finds _).value hread
              obtain ⟨a, t, rfl⟩ := List.exists_cons_of_length_pos hd.length_pos
              obtain ⟨rfl, rfl⟩ := List.cons.inj hx
              dsimp only [Option.getD_some] at hanswer
              have hspelled : v = w ∧ rest = r ∧
                  (b = 91 ∨ b = 34 ∨ b = 123 ∨ r = [] ∨ ∃ a u, r = a :: u ∧ a ∈ delimiters) := by
                split at hanswer
                · next hopens =>
                    cases hanswer
                    exact ⟨rfl, rfl, by tauto⟩
                split at hanswer
                · cases hanswer
                  exact ⟨rfl, rfl, by simp⟩
                split at hanswer
                · next a u hdelimiter =>
                    cases hanswer
                    have hmem : a ∈ delimiters := by simpa using hdelimiter
                    exact ⟨rfl, rfl, .inr (.inr (.inr (.inr ⟨a, u, rfl, hmem⟩)))⟩
                · cases hanswer
              obtain ⟨rfl, rfl, hends⟩ := hspelled
              exact ⟨c, b, t, d, hbs, hc, hhead b _ hskip, hd, hw, hends⟩

structure EntryText (x : Bytes) (m : Metadata) : Prop where
  tight : Tight x
  reads : ∃ v, Value.ofBytes x = .ok v ∧ Entry.ofDraft .value (.ofValue v) = .ok m

inductive Entries : List Metadata → Bytes → Prop
  | nil : Entries [] []
  | cons {c x y : Bytes} {m : Metadata} {ms : List Metadata} (hc : Blanks c) (hx : EntryText x m)
      (hy : Entries ms y) : Entries (m :: ms) (c ++ (x ++ y))

theorem container_of_entry {v : Value} {m : Metadata} (h : Entry.ofDraft .value (.ofValue v) = .ok m) :
    (∃ vs, v = .array vs) ∨ ∃ ms, v = .object ms := by
  cases v with
  | array vs => exact .inl ⟨vs, rfl⟩
  | object ms => exact .inr ⟨ms, rfl⟩
  | null | bool | number | string => cases h

theorem EntryText.spells {x : Bytes} {m : Metadata} (h : EntryText x m) :
    ∃ d v, Spells x d ∧ d.value Draft.maxDepth = .ok v ∧ Entry.ofDraft .value (.ofValue v) = .ok m := by
  obtain ⟨v, hv, hm⟩ := h.reads
  obtain ⟨y, d, c, rfl, hy, hc, hd⟩ := Value.ofBytes_ok hv
  have hnil : c = [] := by
    induction c using List.reverseRecOn with
    | nil => rfl
    | append_singleton c b _ =>
        have hb := h.tight.last b (by rw [← List.append_assoc, List.getLast?_concat]; rfl)
        rw [hc b (by simp)] at hb
        cases hb
  rw [hnil, List.append_nil]
  exact ⟨d, v, hy, hd, hm⟩

theorem nextValue_entry {c x : Bytes} {m : Metadata} (hc : Blanks c) (hx : EntryText x m) (rest : Bytes) :
    ∃ v, nextValue (c ++ (x ++ rest)) = some (.ok (v, rest)) ∧ Entry.ofDraft .value (.ofValue v) = .ok m := by
  obtain ⟨d, v, hspells, hd, hm⟩ := hx.spells
  exact ⟨v, nextValue_container hc hspells hx.tight.first hd (container_of_entry hm) rest, hm⟩

theorem entry_of_nextValue {bs rest : Bytes} {v : Value} {m : Metadata}
    (h : nextValue bs = some (.ok (v, rest))) (hm : Entry.ofDraft .value (.ofValue v) = .ok m) :
    ∃ c x, bs = c ++ (x ++ rest) ∧ Blanks c ∧ EntryText x m := by
  obtain ⟨c, b, t, d, hbs, hc, hb, hx, hd, -⟩ := nextValue_ok h
  have hfirst : ∀ a ∈ (b :: t).head?, Lexeme.isBlank a = false := by
    rintro a ⟨⟩
    exact hb
  obtain ⟨-, htight, -⟩ := hx.brackets (Draft.of_container hd (container_of_entry hm)) hfirst
  exact ⟨c, b :: t, hbs, hc, htight, v, by rw [Value.ofBytes_of_spells hx, hd], hm⟩

theorem entries_text {files : List Metadata} {y : Bytes} (h : Entries files y) (rest : Bytes)
    {fuel index count : Nat} (hfuel : files.length < fuel) (hcount : count = index + files.length) :
    entries count fuel index (y ++ rest) = .ok files := by
  induction h generalizing fuel index with
  | nil =>
      obtain ⟨fuel, rfl⟩ : ∃ n, fuel = n + 1 := ⟨fuel - 1, by omega⟩
      rw [entries, if_pos (by simp [hcount])]
  | @cons c x y m ms hc hx hy ih =>
      obtain ⟨fuel, rfl⟩ : ∃ n, fuel = n + 1 := ⟨fuel - 1, by omega⟩
      rw [List.length_cons] at hfuel hcount
      obtain ⟨v, hnext, hm⟩ := nextValue_entry hc hx (y ++ rest)
      have htext : c ++ (x ++ y) ++ rest = c ++ (x ++ (y ++ rest)) := by simp
      rw [entries, if_neg (by omega), htext, hnext]
      dsimp only
      rw [hm]
      dsimp only
      rw [ih (by omega) (by omega)]
      rfl

theorem text_of_entries {files : List Metadata} {fuel index count : Nat} {bs : Bytes}
    (h : entries count fuel index bs = .ok files) :
    ∃ y rest, bs = y ++ rest ∧ Entries files y ∧ files.length = count - index := by
  induction fuel generalizing index bs files with
  | zero => cases h
  | succ fuel ih =>
      rw [entries] at h
      split at h
      · next hle =>
          cases h
          exact ⟨[], bs, rfl, .nil, by simp; omega⟩
      · next hlt =>
          split at h
          · cases h
          · cases h
          · next v rest hnext =>
              split at h
              · cases h
              · next m hm =>
                  obtain ⟨ms, hms, rfl⟩ := Draft.map_ok h
                  obtain ⟨c, x, hbs, hc, hx⟩ := entry_of_nextValue hnext hm
                  obtain ⟨y, rest', hrest, hy, hlen⟩ := ih hms
                  refine ⟨c ++ (x ++ y), rest', ?_, .cons hc hx hy, ?_⟩
                  · rw [hbs, hrest]
                    simp
                  · rw [List.length_cons, hlen]
                    omega

def Delimited (rest : Bytes) : Prop := rest = [] ∨ ∃ b t, rest = b :: t ∧ b ∈ delimiters

theorem Delimited.stops {rest : Bytes} (h : Delimited rest) : Stops rest := by
  intro b t hbt
  rcases h with rfl | ⟨a, u, rfl, ha⟩
  · cases hbt
  · obtain ⟨rfl, rfl⟩ := List.cons.inj hbt
    have hall : ∀ b ∈ delimiters, isDigit b = false ∧ b ≠ 46 ∧ b ≠ 101 ∧ b ≠ 69 := by
      decide +kernel
    exact hall a ha

theorem Entries.delimited {m : Metadata} {ms : List Metadata} {y : Bytes} (h : Entries (m :: ms) y)
    (rest : Bytes) : Delimited (y ++ rest) := by
  cases h with
  | @cons c x y _ _ hc hx hy =>
      right
      cases c with
      | nil =>
          obtain ⟨d, v, hspells, hd, hm⟩ := hx.spells
          obtain ⟨-, -, b, t, rfl, hb⟩ :=
            hspells.brackets (Draft.of_container hd (container_of_entry hm)) hx.tight.first
          refine ⟨b, t ++ y ++ rest, by simp, ?_⟩
          rcases hb with rfl | rfl <;> decide
      | cons b c =>
          refine ⟨b, c ++ (x ++ y) ++ rest, by simp, ?_⟩
          have hb := hc b (by simp)
          simp only [Lexeme.isBlank, Bool.or_eq_true, decide_eq_true_eq] at hb
          rcases hb with ((rfl | rfl) | rfl) | rfl <;> decide

theorem Entries.length_le {files : List Metadata} {y : Bytes} (h : Entries files y) :
    files.length ≤ y.length := by
  induction h with
  | nil => exact Nat.le_refl _
  | cons hc hx hy ih =>
      obtain ⟨d, v, hspells, -⟩ := hx.spells
      have hpos := hspells.length_pos
      simp only [List.length_append, List.length_cons]
      omega

theorem nextValue_count {c rest : Bytes} {n : Nat} (hc : Blanks c) (hn : n < Number.limit)
    (hrest : Delimited rest) :
    nextValue (c ++ (digits n ++ rest)) = some (.ok (.number (.nat n), rest)) := by
  have hnumber : Lexeme.number (digits n ++ rest) = ⟨.ok (.nat n), none, rest⟩ :=
    number_whole (n := .nat n) hn hrest.stops
  obtain ⟨b, t, hbt, hb⟩ := digits_cons n
  rw [hbt] at hnumber ⊢
  obtain ⟨hblank, -, -, -, -, hquote, hlist, hobject⟩ := digit_apart hb
  have hskip : skipBlanks (c ++ (b :: t ++ rest)) = b :: (t ++ rest) := by
    rw [skipBlanks_append hc]
    exact skipBlanks_cons hblank _
  have hread : Draft.ofBytes (b :: (t ++ rest)) = (.number (.ok (.nat n)) none, some rest) := by
    rw [Draft.ofBytes, Draft.read_number (.inr hb), ← List.cons_append, hnumber]
    rfl
  have hopens : ¬ (b = 91 ∨ b = 34 ∨ b = 123) := by tauto
  rw [nextValue, hskip]
  simp only [hread, Draft.value, Except.map, hopens, if_false, Option.getD_some]
  rcases hrest with rfl | ⟨a, u, rfl, ha⟩
  · rfl
  · simp [ha]

theorem count_of_nextValue {bs rest : Bytes} {n : Nat}
    (h : nextValue bs = some (.ok (.number (.nat n), rest))) :
    ∃ c, bs = c ++ (digits n ++ rest) ∧ Blanks c ∧ n < Number.limit ∧ Delimited rest := by
  obtain ⟨c, b, t, d, hbs, hc, hb, hx, hd, hends⟩ := nextValue_ok h
  obtain ⟨skim, rfl⟩ : ∃ skim, d = .number (.ok (.nat n)) skim := by
    cases d with
    | number v skim =>
        cases v with
        | ok m =>
            cases hd
            exact ⟨skim, rfl⟩
        | error f => cases hd
    | string v => cases v <;> cases hd
    | array is =>
        rw [Draft.value] at hd
        split at hd
        · cases hd
        · obtain ⟨_, -, h⟩ := Draft.map_ok hd
          cases h
    | object ms =>
        rw [Draft.value] at hd
        split at hd
        · cases hd
        · obtain ⟨_, -, h⟩ := Draft.map_ok hd
          cases h
    | null | bool | flawed => cases hd
  cases hx with
  | blank hblank => rw [hblank] at hb; cases hb
  | number hstart hword =>
      have hnumber := hword [] stops_nil
      obtain ⟨htext, hn⟩ := number_nat hnumber
      rw [List.append_nil, List.append_nil] at htext
      rw [htext] at hbs
      refine ⟨c, hbs, hc, hn, ?_⟩
      have hdigit : isDigit b = true := (digits_digits n).1.2 b (by rw [← htext]; simp)
      obtain ⟨-, -, -, -, -, hquote, hlist, hobject⟩ := digit_apart hdigit
      exact ((hends.resolve_left hlist).resolve_left hquote).resolve_left hobject

/-- A stream of some files: their number, their entries, and anything behind them. -/
structure StreamOf (files : List Metadata) (bs : Bytes) : Prop where
  parts : ∃ c y rest, bs = c ++ (digits files.length ++ (y ++ rest)) ∧ Blanks c ∧ Entries files y ∧
    (files = [] → Delimited rest)
  fits : files.length < Number.limit

theorem ofStream_iff {bs : Bytes} {files : List Metadata} :
    ofStream bs = .ok files ↔ StreamOf files bs := by
  constructor
  · intro h
    unfold ofStream at h
    split at h
    · cases h
    · next n rest hnext =>
        obtain ⟨c, hbs, hc, hn, hrest⟩ := count_of_nextValue hnext
        obtain ⟨y, rest', rfl, hy, hlen⟩ := text_of_entries h
        rw [Nat.sub_zero] at hlen
        rw [← hlen] at hbs hn
        refine ⟨⟨c, y, rest', hbs, hc, hy, ?_⟩, hn⟩
        rintro rfl
        cases hy
        exact hrest
    · cases h
    · cases h
  · rintro ⟨⟨c, y, rest, rfl, hc, hy, hrest⟩, hn⟩
    have hdelimited : Delimited (y ++ rest) := by
      cases files with
      | nil =>
          cases hy
          exact hrest rfl
      | cons m ms => exact hy.delimited rest
    unfold ofStream
    rw [nextValue_count hc hn hdelimited]
    dsimp only
    have hle := hy.length_le
    apply entries_text hy
    · simp only [List.length_append]
      omega
    · rw [Nat.zero_add]

end Checkpoint

end LogTail
