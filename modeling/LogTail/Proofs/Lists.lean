import Mathlib.Data.List.Forall2
import Mathlib.Data.List.Infix
import Mathlib.Data.List.Pairwise

namespace LogTail

variable {α β γ : Type}

theorem exists_of_forall₂ {R : α → β → Prop} {xs : List α} {ys : List β} (h : List.Forall₂ R xs ys) :
    ∀ x ∈ xs, ∃ y ∈ ys, R x y := by
  induction h with
  | nil =>
      intro x hx
      cases hx
  | @cons a b as bs hab _ ih =>
      intro x hx
      rcases List.mem_cons.mp hx with rfl | hx
      · exact ⟨b, List.mem_cons_self, hab⟩
      · obtain ⟨y, hy, hxy⟩ := ih x hx
        exact ⟨y, List.mem_cons_of_mem b hy, hxy⟩

theorem forall₂_split {R : α → β → Prop} {as : List α} {a : α} {as' : List α} {bs : List β}
    (h : List.Forall₂ R (as ++ a :: as') bs) :
    ∃ cs b cs', bs = cs ++ b :: cs' ∧ List.Forall₂ R as cs ∧ R a b ∧ List.Forall₂ R as' cs' := by
  induction as generalizing bs with
  | nil =>
      obtain ⟨b, cs', hb, hrest, rfl⟩ := List.forall₂_cons_left_iff.mp h
      exact ⟨[], b, cs', rfl, .nil, hb, hrest⟩
  | cons x as ih =>
      obtain ⟨y, ys, hy, hys, rfl⟩ := List.forall₂_cons_left_iff.mp h
      obtain ⟨cs, b, cs', rfl, hcs, hb, hcs'⟩ := ih hys
      exact ⟨y :: cs, b, cs', rfl, .cons hy hcs, hb, hcs'⟩

theorem mapM_eq_ok {ε : Type} {f : α → Except ε β} {xs : List α} {ys : List β} :
    xs.mapM f = .ok ys ↔ List.Forall₂ (fun x y => f x = .ok y) xs ys := by
  induction xs generalizing ys with
  | nil =>
      rw [List.mapM_nil, List.forall₂_nil_left_iff]
      exact ⟨fun h => (Except.ok.inj h).symm, fun h => congrArg Except.ok h.symm⟩
  | cons x xs ih =>
      rw [List.mapM_cons, List.forall₂_cons_left_iff]
      constructor
      · intro h
        cases hx : f x with
        | error e =>
            rw [hx] at h
            cases h
        | ok y =>
            cases hxs : xs.mapM f with
            | error e =>
                rw [hx, hxs] at h
                cases h
            | ok zs =>
                rw [hx, hxs] at h
                exact ⟨y, zs, rfl, ih.mp hxs, (Except.ok.inj h).symm⟩
      · rintro ⟨y, zs, hy, hzs, rfl⟩
        rw [hy, ih.mpr hzs]
        rfl

theorem exists_mapM_ok {ε : Type} {f : α → Except ε β} {xs : List α} :
    (∃ ys, xs.mapM f = .ok ys) ↔ ∀ x ∈ xs, ∃ y, f x = .ok y := by
  simp only [mapM_eq_ok]
  constructor
  · rintro ⟨ys, h⟩ x hx
    obtain ⟨y, -, hy⟩ := exists_of_forall₂ h x hx
    exact ⟨y, hy⟩
  · intro h
    induction xs with
    | nil => exact ⟨[], .nil⟩
    | cons x xs ih =>
        obtain ⟨y, hy⟩ := h x List.mem_cons_self
        obtain ⟨ys, hys⟩ := ih fun x hx => h x (List.mem_cons_of_mem _ hx)
        exact ⟨y :: ys, .cons hy hys⟩

theorem mem_of_mapM {ε : Type} {f : α → Except ε β} {xs : List α} {ys : List β} (h : xs.mapM f = .ok ys) {y : β} :
    y ∈ ys ↔ ∃ x ∈ xs, f x = .ok y := by
  have hall := mapM_eq_ok.mp h
  constructor
  · intro hy
    exact exists_of_forall₂ hall.flip y hy
  · rintro ⟨x, hx, hxy⟩
    obtain ⟨z, hz, hxz⟩ := exists_of_forall₂ hall x hx
    rw [hxy] at hxz
    cases hxz
    exact hz

theorem mapM_eq_some {f : α → Option β} {xs : List α} {ys : List β} :
    xs.mapM f = some ys ↔ List.Forall₂ (fun x y => f x = some y) xs ys := by
  induction xs generalizing ys with
  | nil =>
      rw [List.mapM_nil, List.forall₂_nil_left_iff]
      exact ⟨fun h => (Option.some.inj h).symm, fun h => congrArg some h.symm⟩
  | cons x xs ih =>
      rw [List.mapM_cons, List.forall₂_cons_left_iff]
      constructor
      · intro h
        obtain ⟨y, hy, h⟩ := Option.bind_eq_some_iff.mp h
        obtain ⟨zs, hzs, h⟩ := Option.bind_eq_some_iff.mp h
        cases h
        exact ⟨y, zs, hy, ih.mp hzs, rfl⟩
      · rintro ⟨y, zs, hy, hzs, rfl⟩
        rw [hy, ih.mpr hzs]
        rfl

theorem map_eq_of_map_eq {g : α → β} {h : α → γ} {as bs : List α}
    (hg : as.map g = bs.map g) (hh : ∀ a ∈ as, ∀ b ∈ bs, g a = g b → h a = h b) :
    as.map h = bs.map h := by
  induction as generalizing bs with
  | nil => rw [List.map_eq_nil_iff.mp hg.symm]
  | cons a as ih =>
      cases bs with
      | nil => cases hg
      | cons b bs =>
          obtain ⟨hab, hg⟩ := List.cons.inj hg
          rw [List.map_cons, List.map_cons, hh a List.mem_cons_self b List.mem_cons_self hab,
            ih hg fun a ha b hb => hh a (List.mem_cons_of_mem _ ha) b (List.mem_cons_of_mem _ hb)]

theorem disjoint_prefixes {as bs cs : List α} (ha : as <+: cs) (hb : bs <+: cs) :
    as.Disjoint bs ↔ as = [] ∨ bs = [] := by
  constructor
  · intro hdisjoint
    cases as with
    | nil => exact .inl rfl
    | cons a as =>
        cases bs with
        | nil => exact .inr rfl
        | cons b bs =>
            obtain ⟨_, rfl⟩ := ha
            obtain rfl : b = a := (List.cons_prefix_cons.mp hb).1
            exact (hdisjoint List.mem_cons_self List.mem_cons_self).elim
  · rintro (rfl | rfl)
    · exact List.disjoint_nil_left _
    · exact List.disjoint_nil_right _

section Sorting

variable {le : α → α → Bool} {l : List α}

theorem mergeSort_attach (l : List α) (le : α → α → Bool) :
    (l.attach.mergeSort fun a b : { x // x ∈ l } => le a.1 b.1).map Subtype.val = l.mergeSort le := by
  rw [List.map_mergeSort (s := le) fun _ _ _ _ => rfl, List.attach_map_subtype_val]

/-- It is enough that the elements of a list are in order among themselves. -/
theorem pairwise_mergeSort_of_mem
    (htrans : ∀ a ∈ l, ∀ b ∈ l, ∀ c ∈ l, le a b = true → le b c = true → le a c = true)
    (htotal : ∀ a ∈ l, ∀ b ∈ l, (le a b || le b a) = true) :
    (l.mergeSort le).Pairwise fun a b => le a b = true := by
  rw [← mergeSort_attach, List.pairwise_map]
  exact List.pairwise_mergeSort (fun a b c => htrans a.1 a.2 b.1 b.2 c.1 c.2)
    (fun a b => htotal a.1 a.2 b.1 b.2) _

theorem filter_mergeSort_of_mem
    (htrans : ∀ a ∈ l, ∀ b ∈ l, ∀ c ∈ l, le a b = true → le b c = true → le a c = true)
    (htotal : ∀ a ∈ l, ∀ b ∈ l, (le a b || le b a) = true) {alike : α → Bool}
    (halike : ∀ a ∈ l, ∀ b ∈ l, alike a = true → alike b = true → le a b = true) :
    (l.mergeSort le).filter alike = l.filter alike := by
  have hsorted : (l.attach.filter fun a : { x // x ∈ l } => alike a.1).Pairwise fun a b => le a.1 b.1 = true := by
    refine List.pairwise_of_forall_mem_list ?_
    intro a ha b hb
    exact halike a.1 a.2 b.1 b.2 (List.mem_filter.mp ha).2 (List.mem_filter.mp hb).2
  have hsublist := List.sublist_mergeSort (fun a b c => htrans a.1 a.2 b.1 b.2 c.1 c.2)
    (fun a b => htotal a.1 a.2 b.1 b.2) hsorted List.filter_sublist
  have hkept := (hsublist.map Subtype.val).filter alike
  have hclass : (l.attach.filter fun a : { x // x ∈ l } => alike a.1).map Subtype.val = l.filter alike := by
    rw [← l.attach_map_subtype_val, List.filter_map, List.attach_map_subtype_val]
    rfl
  rw [mergeSort_attach, hclass, List.filter_filter] at hkept
  simp only [Bool.and_self] at hkept
  refine (hkept.eq_of_length ?_).symm
  exact ((List.mergeSort_perm l le).filter alike).length_eq.symm

end Sorting

end LogTail
