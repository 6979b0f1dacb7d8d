import LogTail.Selector
import LogTail.Proofs.Selection
import Mathlib.Data.List.Sort

namespace LogTail

open Std

namespace Path

variable {p q : Path} {ps qs : List Path}

theorem Component.compare_swap (a b : Component) : a.compare b = (b.compare a).swap := by
  cases a <;> cases b
  case name.name s t => exact OrientedOrd.eq_swap (α := String)
  all_goals rfl

theorem Component.compare_trans {a b c : Component} (hab : (a.compare b).isLE) (hbc : (b.compare c).isLE) :
    (a.compare c).isLE := by
  cases a <;> cases b <;> cases c
  case name.name.name s t u => exact TransOrd.isLE_trans (α := String) hab hbc
  -- components of different kinds: one of the three comparisons tells
  all_goals first
    | rfl
    | exact absurd hab (Bool.eq_false_iff.mp rfl)
    | exact absurd hbc (Bool.eq_false_iff.mp rfl)

theorem Component.eq_of_compare {a b : Component} (h : a.compare b = .eq) : a = b := by
  cases a <;> cases b
  case name.name s t => exact congrArg Component.name (LawfulEqOrd.eq_of_compare (α := String) h)
  all_goals first
    | rfl
    | cases h

instance : TransCmp Component.compare where
  eq_swap := Component.compare_swap _ _
  isLE_trans := Component.compare_trans

instance : LawfulEqCmp Component.compare where
  eq_of_compare := Component.eq_of_compare

theorem compareLists_eq : compareLists = List.compareLex Component.compare := by
  funext as bs
  induction as generalizing bs with
  | nil => cases bs <;> rfl
  | cons a as ih =>
      cases bs with
      | nil => rfl
      | cons b bs => rw [compareLists, ih, List.compareLex_cons_cons]

instance : TransCmp compareLists := by
  rw [compareLists_eq]
  infer_instance

instance : LawfulEqCmp compareLists := by
  rw [compareLists_eq]
  infer_instance

instance : TransCmp Path.compare where
  eq_swap {p q} := @OrientedCmp.eq_swap _ compareLists _ p.components q.components
  isLE_trans {_ _ _} hpq hqr := @TransCmp.isLE_trans _ compareLists _ _ _ _ hpq hqr

theorem compare_eq : compare p q = .eq ↔ p.components = q.components :=
  @LawfulEqCmp.compare_eq_iff_eq _ compareLists _ _ _

theorem same_iff : p.same q = true ↔ p.components = q.components :=
  decide_eq_true_iff

theorem le_iff : p.le q = true ↔ (compare p q).isLE = true :=
  decide_eq_true_iff.trans Ranking.ne_gt_iff_isLE

theorem fileName_congr (h : p.components = q.components) : p.fileName? = q.fileName? := by
  rw [fileName?, fileName?, h]

def Ascending (ps : List Path) : Prop := ps.Pairwise fun p q => compare p q = .lt

def Alike (ps qs : List Path) : Prop := ∀ cs, cs ∈ ps.map components ↔ cs ∈ qs.map components

theorem Ascending.map_components (h : Ascending ps) :
    (ps.map components).Pairwise fun as bs => compareLists as bs = .lt := by
  rw [List.pairwise_map]
  exact h

theorem Ascending.nodup (h : Ascending ps) : (ps.map components).Nodup := by
  refine h.map_components.imp ?_
  rintro as _ hlt rfl
  exact OrientedCmp.not_lt_of_lt hlt hlt

theorem Ascending.eq_of_alike (hp : Ascending ps) (hq : Ascending qs) (h : Alike ps qs) :
    ps.map components = qs.map components := by
  have hperm : (ps.map components).Perm (qs.map components) :=
    (List.perm_ext_iff_of_nodup hp.nodup hq.nodup).mpr h
  refine hperm.eq_of_pairwise ?_ hp.map_components hq.map_components
  intro as bs _ _ hab hba
  exact absurd hba (OrientedCmp.not_lt_of_lt hab)

end Path

section

variable {α : Type}

theorem Sort.sort_eq (le : α → α → Bool) (as : List α) : Sort.sort le as = as.insertionSort fun a b => le a b = true := by
  have hinsert : Sort.insert le = List.orderedInsert fun a b => le a b = true := by
    funext a bs
    induction bs with
    | nil => rfl
    | cons b bs ih => rw [Sort.insert, List.orderedInsert_cons, ih]
  rw [Sort.sort, List.insertionSort, hinsert]

theorem Sort.perm_sort (le : α → α → Bool) (as : List α) : (Sort.sort le as).Perm as := by
  rw [Sort.sort_eq]
  exact List.perm_insertionSort _ as

theorem Sort.mem_sort {le : α → α → Bool} {as : List α} {a : α} : a ∈ Sort.sort le as ↔ a ∈ as :=
  (Sort.perm_sort le as).mem_iff

theorem Sort.pairwise_sort {le : α → α → Bool} (htotal : ∀ a b, le a b = true ∨ le b a = true)
    (htrans : ∀ a b c, le a b = true → le b c = true → le a c = true) (as : List α) :
    (Sort.sort le as).Pairwise fun a b => le a b = true := by
  rw [Sort.sort_eq]
  have : Std.Total fun a b => le a b = true := ⟨htotal⟩
  have : IsTrans α fun a b => le a b = true := ⟨htrans⟩
  exact List.pairwise_insertionSort _ as

theorem Sort.sort_names {as bs : List String} (h : as.Perm bs) :
    Sort.sort (fun a b => a ≤ b) as = Sort.sort (fun a b => a ≤ b) bs := by
  have hsorted (cs : List String) : (Sort.sort (fun a b => a ≤ b) cs).Pairwise fun a b => decide (a ≤ b) = true := by
    refine Sort.pairwise_sort ?_ ?_ cs
    · intro a b
      rw [decide_eq_true_iff, decide_eq_true_iff]
      exact String.le_total a b
    · intro a b c hab hbc
      rw [decide_eq_true_iff] at hab hbc ⊢
      exact String.le_trans hab hbc
  have hperm := (Sort.perm_sort (fun a b => a ≤ b) as).trans (h.trans (Sort.perm_sort (fun a b => a ≤ b) bs).symm)
  refine hperm.eq_of_pairwise ?_ (hsorted as) (hsorted bs)
  intro a b _ _ hab hba
  exact String.le_antisymm (of_decide_eq_true hab) (of_decide_eq_true hba)

end

namespace Selector

open LogTail.Path

variable {p q : Path} {ps : List Path}

theorem squeezeFrom_sublist (p : Path) (ps : List Path) : (squeezeFrom p ps).Sublist (p :: ps) := by
  induction ps generalizing p with
  | nil => exact List.Sublist.refl _
  | cons q qs ih =>
      rw [squeezeFrom]
      split
      · exact (ih p).trans ((List.sublist_cons_self q qs).cons_cons p)
      · exact (ih q).cons_cons p

theorem squeeze_sublist (ps : List Path) : (squeeze ps).Sublist ps := by
  cases ps with
  | nil => exact List.Sublist.refl _
  | cons p ps => exact squeezeFrom_sublist p ps

theorem exists_squeezeFrom (h : q ∈ p :: ps) : ∃ r ∈ squeezeFrom p ps, r.same q = true := by
  induction ps generalizing p q with
  | nil =>
      rw [List.mem_singleton.mp h]
      exact ⟨p, List.mem_cons_self, same_iff.mpr rfl⟩
  | cons r rs ih =>
      rw [squeezeFrom]
      split
      · next hsame =>
          rcases List.mem_cons.mp h with rfl | h
          · exact ih List.mem_cons_self
          rcases List.mem_cons.mp h with rfl | h
          · -- the dropped one itself: what stays for `p` is the same
            obtain ⟨s, hs, hsp⟩ := ih (p := p) List.mem_cons_self
            exact ⟨s, hs, same_iff.mpr ((same_iff.mp hsp).trans (same_iff.mp hsame))⟩
          · exact ih (List.mem_cons_of_mem p h)
      · rcases List.mem_cons.mp h with rfl | h
        · exact ⟨q, List.mem_cons_self, same_iff.mpr rfl⟩
        · obtain ⟨s, hs, hsq⟩ := ih h
          exact ⟨s, List.mem_cons_of_mem p hs, hsq⟩

theorem exists_squeeze (h : q ∈ ps) : ∃ r ∈ squeeze ps, r.same q = true := by
  cases ps with
  | nil => cases h
  | cons p ps => exact exists_squeezeFrom h

theorem ascending_squeezeFrom (h : (p :: ps).Pairwise fun p q => p.le q = true) : Ascending (squeezeFrom p ps) := by
  induction ps generalizing p with
  | nil => exact List.pairwise_singleton _ p
  | cons q qs ih =>
      rw [squeezeFrom]
      obtain ⟨hp, htail⟩ := List.pairwise_cons.mp h
      split
      · refine ih (List.pairwise_cons.mpr ⟨?_, (List.pairwise_cons.mp htail).2⟩)
        exact fun r hr => hp r (List.mem_cons_of_mem q hr)
      · next hsame =>
          refine List.pairwise_cons.mpr ⟨?_, ih htail⟩
          intro r hr
          have hpq : p.compare q = .lt := by
            have hle := le_iff.mp (hp q List.mem_cons_self)
            rcases Ordering.isLE_iff_eq_lt_or_eq_eq.mp hle with hlt | heq
            · exact hlt
            · exact absurd (same_iff.mpr (compare_eq.mp heq)) hsame
          rcases List.mem_cons.mp ((squeezeFrom_sublist q qs).mem hr) with rfl | hr
          · exact hpq
          · exact TransCmp.lt_of_lt_of_isLE hpq (le_iff.mp ((List.pairwise_cons.mp htail).1 r hr))

theorem ascending_sorted (ps : List Path) : Ascending (sorted ps) := by
  have hsorted : (Sort.sort Path.le ps).Pairwise fun p q => p.le q = true := by
    refine Sort.pairwise_sort ?_ ?_ ps
    · intro p q
      rw [le_iff, le_iff, @OrientedCmp.eq_swap _ Path.compare _ q p]
      cases p.compare q
      · exact .inl rfl
      · exact .inl rfl
      · exact .inr rfl
    · intro p q r hpq hqr
      rw [le_iff] at hpq hqr ⊢
      exact TransCmp.isLE_trans hpq hqr
  rw [sorted]
  cases hlist : Sort.sort Path.le ps with
  | nil => exact List.Pairwise.nil
  | cons p qs =>
      rw [hlist] at hsorted
      exact ascending_squeezeFrom hsorted

theorem mem_of_sorted (h : p ∈ sorted ps) : p ∈ ps :=
  Sort.mem_sort.mp ((squeeze_sublist _).mem h)

theorem exists_sorted (h : p ∈ ps) : ∃ q ∈ sorted ps, q.same p = true :=
  exists_squeeze (Sort.mem_sort.mpr h)

end Selector

namespace Ranking

variable {ps qs : List Path}

theorem values_congr (r : Ranking) {p q : Path} (h : p.components = q.components) : r.values p = r.values q := by
  rw [values, values, Path.fileName_congr h]

def told (c : Path × List Key) : List Path.Component × List Key := (c.1.components, c.2)

theorem candidates_cons (r : Ranking) (p : Path) (ps : List Path) :
    r.candidates (p :: ps) = ((r.values p).map (p, ·)).toList ++ r.candidates ps := by
  cases h : r.values p <;> simp [candidates, h]

theorem candidates_congr (r : Ranking) (h : ps.map Path.components = qs.map Path.components) :
    (r.candidates ps).map told = (r.candidates qs).map told := by
  rw [← List.forall₂_eq_eq_eq, List.forall₂_map_left_iff, List.forall₂_map_right_iff] at h
  induction h with
  | nil => rfl
  | @cons p q _ _ hpq _ ih =>
      rw [candidates_cons, candidates_cons, List.map_append, List.map_append, ih, values_congr r hpq]
      cases r.values q with
      | none => rfl
      | some ks => simp [told, hpq]

theorem rank_congr (r : Ranking) (h : ps.map Path.components = qs.map Path.components) :
    (r.rank ps).map Path.components = (r.rank qs).map Path.components := by
  have hrank (ps : List Path) : (r.rank ps).map Path.components =
      ((((r.candidates ps).map told).mergeSort fun a b => compare r.rules a.2 b.2 ≠ .gt).take r.top).map Prod.fst := by
    have hsort := List.map_mergeSort (r := fun a b => compare r.rules a.2 b.2 ≠ .gt)
      (s := fun a b => compare r.rules a.2 b.2 ≠ .gt) (f := told) (l := r.candidates ps) fun _ _ _ _ => rfl
    rw [← hsort, ← List.map_take, rank, List.map_map, List.map_map]
    rfl
  rw [hrank, hrank, candidates_congr r h]

end Ranking

end LogTail
