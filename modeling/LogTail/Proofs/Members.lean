import LogTail.Json.Value
import Mathlib.Data.List.Infix
import Mathlib.Data.String.Basic

namespace LogTail.Json

variable {α : Type}

def Ordered (ms : List (String × α)) : Prop := ms.Pairwise fun a b => a.1 < b.1

theorem insertMember_last {k : String} {v : α} {ms : List (String × α)}
    (h : ∀ m ∈ ms, m.1 < k) : insertMember k v ms = ms ++ [(k, v)] := by
  induction ms with
  | nil => rfl
  | cons m ms ih =>
      have hm := h m (by simp)
      rw [insertMember, if_neg (String.lt_asymm hm), if_neg (fun he => by
        rw [he] at hm; exact String.lt_irrefl _ hm), ih (fun n hn => h n (by simp [hn]))]
      rfl

theorem ofMembers_ordered {ms : List (String × α)} (h : Ordered ms) : ofMembers ms = ms := by
  suffices hfold : ∀ (ms acc : List (String × α)), Ordered (acc ++ ms) →
      ms.foldl (fun acc m => insertMember m.1 m.2 acc) acc = acc ++ ms by
    simpa [ofMembers] using hfold ms [] h
  intro ms
  induction ms with
  | nil => simp
  | cons m ms ih =>
      intro acc hacc
      have hlast : ∀ a ∈ acc, a.1 < m.1 := fun a ha =>
        (List.pairwise_append.mp hacc).2.2 a ha m (by simp)
      rw [List.foldl_cons, insertMember_last hlast, ih _ (by simpa using hacc)]
      simp

theorem ofMembers_first {m : String × α} {ms : List (String × α)} (h : Ordered (m :: ms)) :
    ofMembers (ms ++ [m]) = m :: ms := by
  obtain ⟨hm, hms⟩ := List.pairwise_cons.mp h
  have hfold : ofMembers (ms ++ [m]) = insertMember m.1 m.2 (ofMembers ms) := by
    simp [ofMembers]
  rw [hfold, ofMembers_ordered hms]
  cases ms with
  | nil => rfl
  | cons n ms => rw [insertMember, if_pos (hm n (by simp))]

theorem mem_insertMember {ms : List (String × α)} {k : String} {v : α} {b : String × α}
    (h : b ∈ insertMember k v ms) : b = (k, v) ∨ b ∈ ms := by
  induction ms with
  | nil => simpa [insertMember] using h
  | cons m ms ih =>
      rw [insertMember] at h
      split at h
      · exact List.mem_cons.mp h
      · split at h
        · rcases List.mem_cons.mp h with h | h
          · exact .inl h
          · exact .inr (List.mem_cons_of_mem _ h)
        · rcases List.mem_cons.mp h with h | h
          · exact .inr (List.mem_cons.mpr (.inl h))
          · exact (ih h).imp_right (List.mem_cons_of_mem _)

theorem ordered_insertMember {ms : List (String × α)} (h : Ordered ms) (k : String) (v : α) :
    Ordered (insertMember k v ms) := by
  induction ms with
  | nil => exact List.pairwise_singleton _ _
  | cons m ms ih =>
      obtain ⟨hm, hms⟩ := List.pairwise_cons.mp h
      rw [insertMember]
      split
      · next hlt =>
          refine .cons (fun b hb => ?_) h
          rcases List.mem_cons.mp hb with rfl | hb
          · exact hlt
          · exact String.lt_trans hlt (hm b hb)
      · split
        · next heq =>
            refine .cons (fun b hb => ?_) hms
            rw [heq]
            exact hm b hb
        · next hlt hne =>
            refine .cons (fun b hb => ?_) (ih hms)
            rcases mem_insertMember hb with rfl | hb
            · exact ((lt_trichotomy k m.1).resolve_left hlt).resolve_left hne
            · exact hm b hb

theorem ofMembers_spec (ms : List (String × α)) :
    Ordered (ofMembers ms) ∧ ∀ m ∈ ofMembers ms, m ∈ ms := by
  suffices hfold : ∀ (ms acc : List (String × α)), Ordered acc →
      Ordered (ms.foldl (fun acc m => insertMember m.1 m.2 acc) acc) ∧
        ∀ m ∈ ms.foldl (fun acc m => insertMember m.1 m.2 acc) acc, m ∈ acc ∨ m ∈ ms by
    simpa [ofMembers] using hfold ms [] List.Pairwise.nil
  intro ms
  induction ms with
  | nil => exact fun acc hacc => ⟨hacc, fun m hm => .inl hm⟩
  | cons a ms ih =>
      intro acc hacc
      obtain ⟨hordered, hmem⟩ := ih _ (ordered_insertMember hacc a.1 a.2)
      refine ⟨hordered, ?_⟩
      intro m hm
      rcases hmem m hm with hm | hm
      · rcases mem_insertMember hm with rfl | hm
        · exact .inr (by simp)
        · exact .inl hm
      · exact .inr (List.mem_cons_of_mem _ hm)

theorem insertMember_map {β : Type} (f : α → β) (k : String) (v : α) (ms : List (String × α)) :
    insertMember k (f v) (ms.map fun m => (m.1, f m.2)) =
      (insertMember k v ms).map fun m => (m.1, f m.2) := by
  induction ms with
  | nil => rfl
  | cons m ms ih =>
      simp only [List.map_cons, insertMember]
      split
      · rfl
      split
      · rfl
      · rw [ih]
        rfl

theorem ofMembers_map {β : Type} (f : α → β) (ms : List (String × α)) :
    ofMembers (ms.map fun m => (m.1, f m.2)) = (ofMembers ms).map fun m => (m.1, f m.2) := by
  suffices hfold : ∀ (ms acc : List (String × α)),
      (ms.map fun m => (m.1, f m.2)).foldl (fun acc m => insertMember m.1 m.2 acc)
        (acc.map fun m => (m.1, f m.2)) =
      (ms.foldl (fun acc m => insertMember m.1 m.2 acc) acc).map fun m => (m.1, f m.2) from hfold ms []
  intro ms
  induction ms with
  | nil => exact fun _ => rfl
  | cons m ms ih =>
      intro acc
      rw [List.map_cons, List.foldl_cons, List.foldl_cons]
      dsimp only
      rw [insertMember_map]
      exact ih _

theorem lookup_cons (k : String) (m : String × α) (ms : List (String × α)) :
    lookup k (m :: ms) = if m.1 = k then some m.2 else lookup k ms := by
  unfold lookup
  rw [List.find?_cons]
  by_cases h : m.1 = k <;> simp [h]

@[simp] theorem lookup_insertMember (k : String) (v : α) (ms : List (String × α)) :
    lookup k (insertMember k v ms) = some v := by
  induction ms with
  | nil => simp [insertMember, lookup]
  | cons m ms ih =>
      obtain ⟨k', v'⟩ := m
      rw [insertMember]
      split
      · simp [lookup_cons]
      · split
        · simp [lookup_cons]
        · next hne => rw [lookup_cons, if_neg (fun h => hne h.symm), ih]

@[simp] theorem lookup_removeMember (k : String) (ms : List (String × α)) :
    lookup k (removeMember k ms) = none := by
  simp [lookup, removeMember, List.find?_eq_none]

theorem lookup_insertMember_ne {k k' : String} (hne : k' ≠ k) (v : α) (ms : List (String × α)) :
    lookup k' (insertMember k v ms) = lookup k' ms := by
  induction ms with
  | nil => rw [insertMember, lookup_cons, if_neg hne.symm]
  | cons m ms ih =>
      rw [insertMember]
      split
      · rw [lookup_cons, if_neg hne.symm]
      split
      · next heq =>
          rw [lookup_cons, lookup_cons, if_neg hne.symm, if_neg (heq ▸ hne.symm)]
      · rw [lookup_cons, lookup_cons, ih]

theorem lookup_removeMember_ne {k k' : String} (hne : k' ≠ k) (ms : List (String × α)) :
    lookup k' (removeMember k ms) = lookup k' ms := by
  induction ms with
  | nil => rfl
  | cons m ms ih =>
      rw [removeMember] at ih ⊢
      rw [List.filter_cons]
      split
      · rw [lookup_cons, lookup_cons, ih]
      · next heq =>
          have heq : m.1 = k := by simpa using heq
          rw [lookup_cons, if_neg (heq ▸ hne.symm), ih]

theorem ordered_removeMember {ms : List (String × α)} (h : Ordered ms) (k : String) :
    Ordered (removeMember k ms) :=
  h.filter _

theorem mem_of_lookup {k : String} {v : α} {ms : List (String × α)} (h : lookup k ms = some v) :
    (k, v) ∈ ms := by
  obtain ⟨m, hm, rfl⟩ := Option.map_eq_some_iff.mp h
  obtain ⟨hk, -⟩ := List.find?_eq_some_iff_append.mp hm
  have hk : m.1 = k := by simpa using hk
  rw [← hk]
  exact List.mem_of_find?_eq_some hm

theorem lookup_of_mem {ms : List (String × α)} (h : Ordered ms) {m : String × α} (hm : m ∈ ms) :
    lookup m.1 ms = some m.2 := by
  induction ms with
  | nil => cases hm
  | cons a ms ih =>
      obtain ⟨ha, hms⟩ := List.pairwise_cons.mp h
      rw [lookup_cons]
      rcases List.mem_cons.mp hm with rfl | hm
      · rw [if_pos rfl]
      · have hlt := ha m hm
        rw [if_neg (ne_of_lt hlt), ih hms hm]

end LogTail.Json
