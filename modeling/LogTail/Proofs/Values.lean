import LogTail.Proofs.Cuts
import LogTail.Proofs.Members
import LogTail.Proofs.Numerals

namespace LogTail.Json

open Lexeme

namespace Value

mutual

/-- How many lists and objects of a value lie in one another. -/
def nest : Value → Nat
  | .array vs => nestItems vs + 1
  | .object ms => nestMembers ms + 1
  | .null => 0
  | .bool _ => 0
  | .number _ => 0
  | .string _ => 0

def nestItems : List Value → Nat
  | [] => 0
  | v :: vs => max (nest v) (nestItems vs)

def nestMembers : List (String × Value) → Nat
  | [] => 0
  | (_, v) :: ms => max (nest v) (nestMembers ms)

end

mutual

def WholeNumbers : Value → Prop
  | .number n => Whole n
  | .array vs => WholeItems vs
  | .object ms => WholeMembers ms
  | .null => True
  | .bool _ => True
  | .string _ => True

def WholeItems : List Value → Prop
  | [] => True
  | v :: vs => WholeNumbers v ∧ WholeItems vs

def WholeMembers : List (String × Value) → Prop
  | [] => True
  | (_, v) :: ms => WholeNumbers v ∧ WholeMembers ms

end

mutual

def ordered : Value → Value
  | .array vs => .array (orderedItems vs)
  | .object ms => .object (ofMembers (orderedMembers ms))
  | .null => .null
  | .bool b => .bool b
  | .number n => .number n
  | .string s => .string s

def orderedItems : List Value → List Value
  | [] => []
  | v :: vs => ordered v :: orderedItems vs

def orderedMembers : List (String × Value) → List (String × Value)
  | [] => []
  | (k, v) :: ms => (k, ordered v) :: orderedMembers ms

end

mutual

def redraft : Value → Draft
  | .null => .null
  | .bool b => .bool b
  | .number n => .number (Lexeme.number (Utf8.ofString n.text)).value none
  | .string s => .string (.ok s) none
  | .array vs => .array (redraftItems vs)
  | .object ms => .object (redraftMembers ms)

def redraftItems : List Value → Items
  | [] => .stop .closed
  | v :: vs => .item (redraft v) (redraftItems vs)

def redraftMembers : List (String × Value) → Members
  | [] => .stop .closed
  | (k, v) :: ms => .member (.ok k) none (redraft v) (redraftMembers ms)

end

theorem spells_number (n : Number) : Spells (print (.number n)) (redraft (.number n)) := by
  obtain ⟨b, t, v, htext, hb, hword⟩ := (numeral_text n).word
  have hv := hword [] stops_nil
  rw [List.append_nil] at hv
  rw [print, redraft, htext, hv]
  exact .number hb hword

theorem spells_quote (s : String) :
    SpellsString (Utf8.encode (s.toList.flatMap escape) ++ [34]) (.ok s) := by
  intro rest
  rw [List.append_assoc]
  exact string_quote s rest

mutual

theorem spells_print (v : Value) : Spells (print v) (redraft v) := by
  match v with
  | .null => exact .null
  | .bool true => exact .yes
  | .bool false => exact .no
  | .number n => exact spells_number n
  | .string s => exact .string (spells_quote s)
  | .array [] => exact .array .closed
  | .array (v :: vs) => exact .array (.item .none (spells_print v) (spells_printItems vs))
  | .object [] => exact .object .closed
  | .object ((k, v) :: ms) =>
      exact .object (.member .none (spells_quote k) blanks_nil (spells_print v) (spells_printMembers ms))

theorem spells_printItems (vs : List Value) : SpellsItems false (printItems vs) (redraftItems vs) := by
  match vs with
  | [] => exact .closed
  | v :: vs =>
      exact .item (.comma blanks_nil) (spells_print v) (spells_printItems vs)

theorem spells_printMembers (ms : List (String × Value)) :
    SpellsMembers false (printMembers ms) (redraftMembers ms) := by
  match ms with
  | [] => exact .closed
  | (k, v) :: ms =>
      exact .member (.comma blanks_nil) (spells_quote k) blanks_nil (spells_print v) (spells_printMembers ms)

end

theorem blanks_newLine (level : Nat) : Blanks (newLine level) := by
  intro b hb
  rcases List.mem_cons.mp hb with rfl | hb
  · rfl
  · rw [List.eq_of_mem_replicate hb]
    rfl

mutual

theorem spells_pretty (level : Nat) (v : Value) : Spells (pretty level v) (redraft v) := by
  match v with
  | .null => exact .null
  | .bool true => exact .yes
  | .bool false => exact .no
  | .number n => exact spells_number n
  | .string s => exact .string (spells_quote s)
  | .array [] => exact .array .closed
  | .array (v :: vs) =>
      have hitems : SpellsItems true (pretty (level + 1) v ++ prettyItems level vs) (redraftItems (v :: vs)) :=
        .item .none (spells_pretty (level + 1) v) (spells_prettyItems level vs)
      exact .array (hitems.blanks (blanks_newLine _))
  | .object [] => exact .object .closed
  | .object ((k, v) :: ms) =>
      have hmembers := SpellsMembers.member .none (spells_quote k) blanks_nil
        (.blank (b := 32) rfl (spells_pretty (level + 1) v)) (spells_prettyMembers level ms)
      exact .object (hmembers.blanks (blanks_newLine _))

theorem spells_prettyItems (level : Nat) (vs : List Value) :
    SpellsItems false (prettyItems level vs) (redraftItems vs) := by
  match vs with
  | [] => exact SpellsItems.closed.blanks (blanks_newLine level)
  | v :: vs =>
      have hitems := SpellsItems.item (.comma (blanks_newLine (level + 1)))
        (spells_pretty (level + 1) v) (spells_prettyItems level vs)
      exact hitems

theorem spells_prettyMembers (level : Nat) (ms : List (String × Value)) :
    SpellsMembers false (prettyMembers level ms) (redraftMembers ms) := by
  match ms with
  | [] => exact SpellsMembers.closed.blanks (blanks_newLine level)
  | (k, v) :: ms =>
      have hmembers := SpellsMembers.member (.comma (blanks_newLine (level + 1))) (spells_quote k)
        blanks_nil (.blank (b := 32) rfl (spells_pretty (level + 1) v)) (spells_prettyMembers level ms)
      exact hmembers

end

theorem print_number {n : Number} (h : Whole n) : print (.number n) = whole n := by
  cases n with
  | nat n => rfl
  | negative n =>
      have hminus : Utf8.encodeChar '-' = [45] := by decide
      simp [print, Number.text, Utf8.ofString, Utf8.encode, hminus, whole, digits]
  | float bits => cases h

mutual

theorem redraft_whole (v : Value) (h : v.WholeNumbers) : redraft v = Draft.ofValue v := by
  match v with
  | .null => rfl
  | .bool _ => rfl
  | .string _ => rfl
  | .number n =>
      have hnumber := number_whole h stops_nil
      rw [List.append_nil, ← print_number h, print] at hnumber
      rw [redraft, hnumber]
      rfl
  | .array vs => rw [redraft, redraftItems_whole vs h, Draft.ofValue]
  | .object ms => rw [redraft, redraftMembers_whole ms h, Draft.ofValue]

theorem redraftItems_whole (vs : List Value) (h : WholeItems vs) : redraftItems vs = Draft.ofItems vs := by
  match vs with
  | [] => rfl
  | v :: vs => rw [redraftItems, redraft_whole v h.1, redraftItems_whole vs h.2, Draft.ofItems]

theorem redraftMembers_whole (ms : List (String × Value)) (h : WholeMembers ms) :
    redraftMembers ms = Draft.ofMembers ms := by
  match ms with
  | [] => rfl
  | (k, v) :: ms =>
      rw [redraftMembers, redraft_whole v h.1, redraftMembers_whole ms h.2, Draft.ofMembers]

end

end Value

namespace Draft

open Value

mutual

theorem value_ofValue (v : Value) (depth : Nat) (hdepth : v.nest < depth) :
    (ofValue v).value depth = .ok v.ordered := by
  match v with
  | .null => rfl
  | .bool _ => rfl
  | .number _ => rfl
  | .string _ => rfl
  | .array vs =>
      rw [nest] at hdepth
      rw [ofValue, value, if_neg (by omega), itemValues_ofItems vs (depth - 1) (by omega)]
      rfl
  | .object ms =>
      rw [nest] at hdepth
      rw [ofValue, value, if_neg (by omega), memberValues_ofMembers ms (depth - 1) (by omega)]
      rfl

theorem itemValues_ofItems (vs : List Value) (depth : Nat) (hdepth : nestItems vs < depth) :
    itemValues depth (ofItems vs) = .ok (orderedItems vs) := by
  match vs with
  | [] => rfl
  | v :: vs =>
      rw [nestItems] at hdepth
      rw [ofItems, itemValues, value_ofValue v depth (by omega), itemValues_ofItems vs depth (by omega)]
      rfl

theorem memberValues_ofMembers (ms : List (String × Value)) (depth : Nat)
    (hdepth : nestMembers ms < depth) : memberValues depth (ofMembers ms) = .ok (orderedMembers ms) := by
  match ms with
  | [] => rfl
  | (k, v) :: ms =>
      rw [nestMembers] at hdepth
      rw [ofMembers, memberValues, value_ofValue v depth (by omega),
        memberValues_ofMembers ms depth (by omega)]
      rfl

end

mutual

theorem value_deep (v : Value) (depth : Nat) (hpos : 0 < depth) (hdepth : depth ≤ v.nest) :
    ∃ f, (ofValue v).value depth = .error f := by
  match v with
  | .null | .bool _ | .number _ | .string _ => exact absurd hdepth (Nat.not_le.mpr hpos)
  | .array vs =>
      rw [nest] at hdepth
      rw [ofValue, value]
      split
      · exact ⟨_, rfl⟩
      · obtain ⟨f, hf⟩ := itemValues_deep vs (depth - 1) (by omega) (by omega)
        exact ⟨f, by rw [hf]; rfl⟩
  | .object ms =>
      rw [nest] at hdepth
      rw [ofValue, value]
      split
      · exact ⟨_, rfl⟩
      · obtain ⟨f, hf⟩ := memberValues_deep ms (depth - 1) (by omega) (by omega)
        exact ⟨f, by rw [hf]; rfl⟩

theorem itemValues_deep (vs : List Value) (depth : Nat) (hpos : 0 < depth)
    (hdepth : depth ≤ nestItems vs) : ∃ f, itemValues depth (ofItems vs) = .error f := by
  match vs with
  | [] => exact absurd hdepth (Nat.not_le.mpr hpos)
  | v :: vs =>
      rw [nestItems] at hdepth
      rw [ofItems, itemValues]
      rcases Nat.lt_or_ge v.nest depth with hlt | hge
      · obtain ⟨f, hf⟩ := itemValues_deep vs depth hpos (by omega)
        exact ⟨f, by rw [value_ofValue v depth hlt, hf]; rfl⟩
      · obtain ⟨f, hf⟩ := value_deep v depth hpos hge
        exact ⟨f, by rw [hf]; rfl⟩

theorem memberValues_deep (ms : List (String × Value)) (depth : Nat) (hpos : 0 < depth)
    (hdepth : depth ≤ nestMembers ms) : ∃ f, memberValues depth (ofMembers ms) = .error f := by
  match ms with
  | [] => exact absurd hdepth (Nat.not_le.mpr hpos)
  | (k, v) :: ms =>
      rw [nestMembers] at hdepth
      rw [ofMembers, memberValues]
      rcases Nat.lt_or_ge v.nest depth with hlt | hge
      · obtain ⟨f, hf⟩ := memberValues_deep ms depth hpos (by omega)
        exact ⟨f, by rw [value_ofValue v depth hlt, hf]; rfl⟩
      · obtain ⟨f, hf⟩ := value_deep v depth hpos hge
        exact ⟨f, by rw [hf]; rfl⟩

end

theorem map_ok {ε α β : Type} {x : Except ε α} {f : α → β} {b : β} (h : x.map f = .ok b) :
    ∃ a, x = .ok a ∧ f a = b := by
  cases x with
  | error e => cases h
  | ok a =>
      cases h
      exact ⟨a, rfl, rfl⟩

theorem bind_ok {ε α β : Type} {x : Except ε α} {f : α → Except ε β} {b : β} (h : x >>= f = .ok b) :
    ∃ a, x = .ok a ∧ f a = .ok b := by
  cases x with
  | error e => cases h
  | ok a => exact ⟨a, rfl, h⟩

theorem orderedItems_eq {vs : List Value} (h : ∀ v ∈ vs, v.ordered = v) : orderedItems vs = vs := by
  induction vs with
  | nil => rfl
  | cons v vs ih => rw [orderedItems, h v (by simp), ih fun w hw => h w (by simp [hw])]

theorem orderedMembers_eq {ms : List (String × Value)} (h : ∀ m ∈ ms, m.2.ordered = m.2) :
    orderedMembers ms = ms := by
  induction ms with
  | nil => rfl
  | cons m ms ih => rw [orderedMembers, h m (by simp), ih fun n hn => h n (by simp [hn])]

theorem ordered_object {ms : List (String × Value)} (hms : Ordered ms)
    (h : ∀ m ∈ ms, m.2.ordered = m.2) : (Value.object ms).ordered = .object ms := by
  rw [Value.ordered, orderedMembers_eq h, ofMembers_ordered hms]

mutual

theorem ordered_value (d : Draft) (depth : Nat) (v : Value) (h : d.value depth = .ok v) :
    v.ordered = v := by
  match d with
  | .null | .bool _ => cases h; rfl
  | .number (.ok n) _ => cases h; rfl
  | .string (.ok s) _ => cases h; rfl
  | .number (.error _) _ | .string (.error _) _ | .flawed _ => cases h
  | .array is =>
      rw [value] at h
      split at h
      · cases h
      · obtain ⟨vs, hvs, hv⟩ := map_ok h
        rw [← hv, Value.ordered, orderedItems_eq (ordered_itemValues is _ vs hvs)]
  | .object ms =>
      rw [value] at h
      split at h
      · cases h
      · obtain ⟨vs, hvs, hv⟩ := map_ok h
        obtain ⟨hordered, hmem⟩ := ofMembers_spec vs
        rw [← hv]
        exact ordered_object hordered fun m hm => ordered_memberValues ms _ vs hvs m (hmem m hm)

theorem ordered_itemValues (is : Items) (depth : Nat) (vs : List Value)
    (h : itemValues depth is = .ok vs) : ∀ v ∈ vs, v.ordered = v := by
  match is with
  | .stop s =>
      rw [itemValues] at h
      split at h
      · cases h
        simp
      · cases h
  | .item d is =>
      rw [itemValues] at h
      obtain ⟨v, hv, h⟩ := bind_ok h
      obtain ⟨ws, hws, h⟩ := bind_ok h
      cases h
      intro w hw
      rcases List.mem_cons.mp hw with rfl | hw
      · exact ordered_value d depth w hv
      · exact ordered_itemValues is depth ws hws w hw

theorem ordered_memberValues (ms : Members) (depth : Nat) (vs : List (String × Value))
    (h : memberValues depth ms = .ok vs) : ∀ m ∈ vs, m.2.ordered = m.2 := by
  match ms with
  | .stop s =>
      rw [memberValues] at h
      split at h
      · cases h
        simp
      · cases h
  | .member k skim d ms =>
      rw [memberValues] at h
      obtain ⟨key, -, h⟩ := bind_ok h
      obtain ⟨v, hv, h⟩ := bind_ok h
      obtain ⟨ws, hws, h⟩ := bind_ok h
      cases h
      intro w hw
      rcases List.mem_cons.mp hw with rfl | hw
      · exact ordered_value d depth v hv
      · exact ordered_memberValues ms depth ws hws w hw

end

theorem nestItems_lt {vs : List Value} {depth : Nat} (hpos : 0 < depth) (h : ∀ v ∈ vs, v.nest < depth) :
    nestItems vs < depth := by
  induction vs with
  | nil => exact hpos
  | cons v vs ih =>
      rw [nestItems]
      exact Nat.max_lt.mpr ⟨h v (by simp), ih fun w hw => h w (by simp [hw])⟩

theorem nestMembers_lt {ms : List (String × Value)} {depth : Nat} (hpos : 0 < depth)
    (h : ∀ m ∈ ms, m.2.nest < depth) : nestMembers ms < depth := by
  induction ms with
  | nil => exact hpos
  | cons m ms ih =>
      rw [nestMembers]
      exact Nat.max_lt.mpr ⟨h m (by simp), ih fun n hn => h n (by simp [hn])⟩

mutual

theorem nest_value (d : Draft) (depth : Nat) (v : Value) (hpos : 0 < depth) (h : d.value depth = .ok v) :
    v.nest < depth := by
  match d with
  | .null | .bool _ => cases h; exact hpos
  | .number (.ok n) _ => cases h; exact hpos
  | .string (.ok s) _ => cases h; exact hpos
  | .number (.error _) _ | .string (.error _) _ | .flawed _ => cases h
  | .array is =>
      rw [value] at h
      split at h
      · cases h
      next hroom =>
      obtain ⟨vs, hvs, hv⟩ := map_ok h
      have hitems := nestItems_lt (by omega) (nest_itemValues is (depth - 1) vs (by omega) hvs)
      rw [← hv, nest]
      omega
  | .object ms =>
      rw [value] at h
      split at h
      · cases h
      next hroom =>
      obtain ⟨vs, hvs, hv⟩ := map_ok h
      obtain ⟨-, hmem⟩ := ofMembers_spec vs
      have hmembers : nestMembers (Json.ofMembers vs) < depth - 1 := nestMembers_lt (by omega) fun m hm =>
        nest_memberValues ms (depth - 1) vs (by omega) hvs m (hmem m hm)
      rw [← hv, nest]
      omega

theorem nest_itemValues (is : Items) (depth : Nat) (vs : List Value) (hpos : 0 < depth)
    (h : itemValues depth is = .ok vs) : ∀ v ∈ vs, v.nest < depth := by
  match is with
  | .stop s =>
      rw [itemValues] at h
      split at h
      · cases h
        simp
      · cases h
  | .item d is =>
      rw [itemValues] at h
      obtain ⟨v, hv, h⟩ := bind_ok h
      obtain ⟨ws, hws, h⟩ := bind_ok h
      cases h
      intro w hw
      rcases List.mem_cons.mp hw with rfl | hw
      · exact nest_value d depth w hpos hv
      · exact nest_itemValues is depth ws hpos hws w hw

theorem nest_memberValues (ms : Members) (depth : Nat) (vs : List (String × Value)) (hpos : 0 < depth)
    (h : memberValues depth ms = .ok vs) : ∀ m ∈ vs, m.2.nest < depth := by
  match ms with
  | .stop s =>
      rw [memberValues] at h
      split at h
      · cases h
        simp
      · cases h
  | .member k skim d ms =>
      rw [memberValues] at h
      obtain ⟨key, -, h⟩ := bind_ok h
      obtain ⟨v, hv, h⟩ := bind_ok h
      obtain ⟨ws, hws, h⟩ := bind_ok h
      cases h
      intro w hw
      rcases List.mem_cons.mp hw with rfl | hw
      · exact nest_value d depth v hpos hv
      · exact nest_memberValues ms depth ws hpos hws w hw

end

end Draft

namespace Value

theorem ofBytes_of_spells {x : Bytes} {d : Draft} (h : Spells x d) :
    Value.ofBytes x = d.value Draft.maxDepth := by
  rw [Value.ofBytes, h.ofBytes]
  change (do let v ← d.value Draft.maxDepth; ended (some []); return v) = _
  cases d.value Draft.maxDepth <;> rfl

/-- Parsing undoes printing, but for the order of members. -/
theorem ofBytes_print {v : Value} (hv : v.WholeNumbers) (hnest : v.nest < Draft.maxDepth) :
    Value.ofBytes v.print = .ok v.ordered := by
  rw [ofBytes_of_spells (spells_print v), redraft_whole v hv, Draft.value_ofValue v _ hnest]

theorem ordered_ofBytes {bs : Bytes} {v : Value} (h : Value.ofBytes bs = .ok v) : v.ordered = v := by
  rw [Value.ofBytes] at h
  obtain ⟨w, hw, h⟩ := Draft.bind_ok h
  obtain ⟨-, -, h⟩ := Draft.bind_ok h
  cases h
  exact Draft.ordered_value _ _ _ hw

theorem nest_ofBytes {bs : Bytes} {v : Value} (h : Value.ofBytes bs = .ok v) : v.nest < Draft.maxDepth := by
  rw [Value.ofBytes] at h
  obtain ⟨w, hw, h⟩ := Draft.bind_ok h
  obtain ⟨-, -, h⟩ := Draft.bind_ok h
  cases h
  exact Draft.nest_value _ _ _ (by decide) hw

end Value

end LogTail.Json
