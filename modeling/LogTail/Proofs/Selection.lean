import LogTail.Ranking.Basic
import LogTail.Proofs.Lists

namespace LogTail

open Std

namespace Time

instance : TransCmp DateTime.compare :=
  inferInstanceAs (TransCmp (compareLex (compareOn DateTime.seconds) (compareOn fun t => t.clock.nano)))

end Time

namespace Ranking

variable {rs : List GaugedRule} {as bs cs : List Key} {o : Ordering}

theorem Key.compare_swap (a b : Key) : b.compare a = (a.compare b).swap := by
  cases a <;> cases b
  case text.text s t => exact OrientedOrd.eq_swap (α := String)
  case number.number m n => exact OrientedOrd.eq_swap (α := Int)
  case time.time s t => exact @OrientedCmp.eq_swap _ Time.DateTime.compare _ t s
  all_goals rfl

theorem Key.compare_trans {a b c : Key} (hab : (a.compare b).isLE) (hbc : (b.compare c).isLE) :
    (a.compare c).isLE := by
  cases a <;> cases b <;> cases c
  case text.text.text s t u => exact TransOrd.isLE_trans (α := String) hab hbc
  case number.number.number l m n => exact TransOrd.isLE_trans (α := Int) hab hbc
  case time.time.time s t u => exact @TransCmp.isLE_trans _ Time.DateTime.compare _ s t u hab hbc
  -- values of different kinds: one of the three comparisons tells
  all_goals first
    | rfl
    | exact absurd hab (Bool.eq_false_iff.mp rfl)
    | exact absurd hbc (Bool.eq_false_iff.mp rfl)

instance : TransCmp Key.compare where
  eq_swap := Key.compare_swap _ _
  isLE_trans := Key.compare_trans

/-- One value stands before another: texts by their characters, numbers as integers, times by the time
they are, and the kinds one behind the other. -/
inductive Key.Before : Key → Key → Prop
  | text {s t : String} (h : s < t) : Before (.text s) (.text t)
  | number {m n : Int} (h : m < n) : Before (.number m) (.number n)
  | second {s t : Time.DateTime} (h : s.seconds < t.seconds) : Before (.time s) (.time t)
  | nano {s t : Time.DateTime} (hs : s.seconds = t.seconds) (h : s.clock.nano < t.clock.nano) :
      Before (.time s) (.time t)
  | kind {a b : Key} (h : a.rank < b.rank) : Before a b

theorem Key.compare_eq_lt {a b : Key} : a.compare b = .lt ↔ a.Before b := by
  constructor
  · intro h
    cases a <;> cases b
    case text.text s t => exact .text (compareOfLessAndEq_eq_lt.mp h)
    case number.number m n => exact .number (Std.compare_eq_lt.mp h)
    case time.time s t =>
      rcases Ordering.then_eq_lt.mp h with hs | ⟨hs, hn⟩
      · exact .second (Std.compare_eq_lt.mp hs)
      · exact .nano (Std.compare_eq_iff_eq.mp hs) (Std.compare_eq_lt.mp hn)
    all_goals exact .kind (Std.compare_eq_lt.mp h)
  · intro h
    cases h with
    | text h => exact compareOfLessAndEq_eq_lt.mpr h
    | number h => exact Std.compare_eq_lt.mpr h
    | second h => exact Ordering.then_eq_lt.mpr (.inl (Std.compare_eq_lt.mpr h))
    | nano hs h =>
        exact Ordering.then_eq_lt.mpr (.inr ⟨Std.compare_eq_iff_eq.mpr hs, Std.compare_eq_lt.mpr h⟩)
    | kind h =>
        cases a <;> cases b
        all_goals first
          | exact Std.compare_eq_lt.mpr h
          | exact absurd h (Nat.lt_irrefl _)

theorem GaugedRule.compare_eq_lt (r : GaugedRule) (a b : Key) :
    r.compare a b = .lt ↔ if r.ascending then a.Before b else b.Before a := by
  rw [GaugedRule.compare]
  split
  · exact Key.compare_eq_lt
  · rw [← Key.compare_swap]
    exact Key.compare_eq_lt

instance (r : GaugedRule) : TransCmp r.compare := by
  by_cases h : r.ascending = true
  · have heq : r.compare = Key.compare := by
      funext a b
      rw [GaugedRule.compare, if_pos h]
    rw [heq]
    infer_instance
  · have heq : r.compare = fun a b => Key.compare b a := by
      funext a b
      rw [GaugedRule.compare, if_neg h, ← Key.compare_swap]
    rw [heq]
    infer_instance

theorem compare_swap (rs : List GaugedRule) (as bs : List Key) :
    compare rs bs as = (compare rs as bs).swap := by
  induction rs generalizing as bs with
  | nil => rfl
  | cons r rs ih =>
      cases as with
      | nil => cases bs <;> rfl
      | cons a as =>
          cases bs with
          | nil => rfl
          | cons b bs =>
              rw [compare, compare, ih, Ordering.swap_then]
              exact congrArg (Ordering.then · _) (@OrientedCmp.eq_swap _ r.compare _ b a)

theorem compare_trans (habs : as.length = bs.length) (hbcs : bs.length = cs.length)
    (hab : (compare rs as bs).isLE) (hbc : (compare rs bs cs).isLE) : (compare rs as cs).isLE := by
  induction rs generalizing as bs cs with
  | nil => rfl
  | cons r rs ih =>
      cases as with
      | nil => rfl
      | cons a as =>
          cases bs with
          | nil => cases habs
          | cons b bs =>
              cases cs with
              | nil => cases hbcs
              | cons c cs =>
                  rw [compare, Ordering.isLE_then_iff_and] at hab hbc ⊢
                  refine ⟨@TransCmp.isLE_trans _ r.compare _ a b c hab.1 hbc.1, ?_⟩
                  rcases hab.2 with hlt | hab'
                  · exact .inl (TransCmp.lt_of_lt_of_isLE hlt hbc.1)
                  · rcases hbc.2 with hlt | hbc'
                    · exact .inl (TransCmp.lt_of_isLE_of_lt hab.1 hlt)
                    · exact .inr (ih (Nat.succ.inj habs) (Nat.succ.inj hbcs) hab' hbc')

/-- The rule at a place is the first one under which two lists of values do not tie. -/
def Decides (rs : List GaugedRule) (as bs : List Key) (i : Nat) (o : Ordering) : Prop :=
  (∃ r a b, rs[i]? = some r ∧ as[i]? = some a ∧ bs[i]? = some b ∧ r.compare a b = o) ∧
    ∀ j < i, ∀ r a b, rs[j]? = some r → as[j]? = some a → bs[j]? = some b → r.compare a b = .eq

theorem Decides.cons {r : GaugedRule} {a b : Key} {i : Nat} (hab : r.compare a b = .eq)
    (h : Decides rs as bs i o) : Decides (r :: rs) (a :: as) (b :: bs) (i + 1) o := by
  refine ⟨h.1, ?_⟩
  intro j hj r' a' b' hr ha hb
  cases j with
  | zero =>
      cases hr
      cases ha
      cases hb
      exact hab
  | succ j => exact h.2 j (Nat.lt_of_succ_lt_succ hj) r' a' b' hr ha hb

theorem compare_of_decides {i : Nat} (ho : o ≠ .eq) (h : Decides rs as bs i o) : compare rs as bs = o := by
  obtain ⟨⟨r, a, b, hr, ha, hb, hab⟩, hties⟩ := h
  induction rs generalizing as bs i with
  | nil => cases hr
  | cons r₀ rs ih =>
      cases as with
      | nil => cases ha
      | cons a₀ as =>
          cases bs with
          | nil => cases hb
          | cons b₀ bs =>
              cases i with
              | zero =>
                  cases hr
                  cases ha
                  cases hb
                  rw [compare, hab]
                  cases o with
                  | eq => exact absurd rfl ho
                  | lt => rfl
                  | gt => rfl
              | succ i =>
                  have htie := hties 0 (Nat.succ_pos i) r₀ a₀ b₀ rfl rfl rfl
                  rw [compare, htie]
                  exact ih (fun j hj => hties (j + 1) (Nat.succ_lt_succ hj)) hr ha hb

theorem decides_of_compare (ho : o ≠ .eq) (h : compare rs as bs = o) : ∃ i, Decides rs as bs i o := by
  induction rs generalizing as bs with
  | nil => exact absurd h.symm ho
  | cons r rs ih =>
      cases as with
      | nil => exact absurd h.symm ho
      | cons a as =>
          cases bs with
          | nil => exact absurd h.symm ho
          | cons b bs =>
              rw [compare] at h
              by_cases hab : r.compare a b = .eq
              · rw [hab] at h
                obtain ⟨i, hi⟩ := ih h
                exact ⟨i + 1, hi.cons hab⟩
              · refine ⟨0, ⟨r, a, b, rfl, rfl, rfl, ?_⟩, nofun⟩
                cases hcompare : r.compare a b with
                | eq => exact absurd hcompare hab
                | lt => rwa [hcompare] at h
                | gt => rwa [hcompare] at h

variable {r : Ranking} {ps : List Path} {p : Path} {ks : List Key}

/-- The values of a file: its name matches, and every rule reads what the name captured for it. -/
def Reads (r : Ranking) (p : Path) (ks : List Key) : Prop :=
  ∃ name groups, p.fileName? = some name ∧ r.regex.search name = some groups ∧
    List.Forall₂ (fun rule k => ∃ s, Json.lookup rule.key groups = some (some s) ∧ rule.gauge.value? s = some k)
      r.rules ks

theorem ruleValue_eq_some {groups : List (String × Option String)} {rule : GaugedRule} {k : Key} :
    ruleValue groups rule = some k ↔
      ∃ s, Json.lookup rule.key groups = some (some s) ∧ rule.gauge.value? s = some k := by
  rw [ruleValue]
  split
  · next s hs => simp [hs]
  · next hnone =>
      simp only [reduceCtorEq, false_iff]
      rintro ⟨s, hs, -⟩
      exact hnone s hs

theorem values_iff (r : Ranking) (p : Path) (ks : List Key) : r.values p = some ks ↔ Reads r p ks := by
  have hrules (groups : List (String × Option String)) : r.rules.mapM (ruleValue groups) = some ks ↔
      List.Forall₂ (fun rule k => ∃ s, Json.lookup rule.key groups = some (some s) ∧ rule.gauge.value? s = some k)
        r.rules ks := by
    simp only [mapM_eq_some, ruleValue_eq_some]
  rw [values, Reads]
  constructor
  · intro h
    obtain ⟨name, hname, h⟩ := Option.bind_eq_some_iff.mp h
    obtain ⟨groups, hgroups, h⟩ := Option.bind_eq_some_iff.mp h
    exact ⟨name, groups, hname, hgroups, (hrules groups).mp h⟩
  · rintro ⟨name, groups, hname, hgroups, h⟩
    refine Option.bind_eq_some_iff.mpr ⟨name, hname, Option.bind_eq_some_iff.mpr ⟨groups, hgroups, ?_⟩⟩
    exact (hrules groups).mpr h

theorem Reads.length_eq (h : Reads r p ks) : ks.length = r.rules.length := by
  obtain ⟨name, groups, -, -, h⟩ := h
  exact h.length_eq.symm

def order (r : Ranking) (a b : Path × List Key) : Ordering := compare r.rules a.2 b.2

theorem mem_candidates_iff : (p, ks) ∈ r.candidates ps ↔ p ∈ ps ∧ Reads r p ks := by
  rw [← values_iff, candidates, List.mem_filterMap]
  constructor
  · rintro ⟨q, hq, h⟩
    obtain ⟨_, hks, heq⟩ := Option.map_eq_some_iff.mp h
    cases heq
    exact ⟨hq, hks⟩
  · rintro ⟨hp, hks⟩
    exact ⟨p, hp, Option.map_eq_some_iff.mpr ⟨ks, hks, rfl⟩⟩

theorem exists_reads_iff (r : Ranking) (p : Path) : (r.values p).isSome = true ↔ ∃ ks, Reads r p ks := by
  simp only [Option.isSome_iff_exists, values_iff]

instance (r : Ranking) (p : Path) : Decidable (∃ ks, Reads r p ks) :=
  decidable_of_iff _ (exists_reads_iff r p)

theorem candidates_paths (r : Ranking) (ps : List Path) :
    (r.candidates ps).map Prod.fst = ps.filter fun p => ∃ ks, Reads r p ks := by
  induction ps with
  | nil => rfl
  | cons p ps ih =>
      rw [candidates] at ih ⊢
      cases hp : r.values p with
      | none =>
          have hunread : ¬ ∃ ks, Reads r p ks := by simp [← exists_reads_iff, hp]
          rw [List.filterMap_cons_none (by rw [hp]; rfl), List.filter_cons_of_neg (by simpa using hunread), ih]
      | some ks =>
          have hread : ∃ ks, Reads r p ks := ⟨ks, (values_iff r p ks).mp hp⟩
          rw [List.filterMap_cons_some (by rw [hp]; rfl), List.filter_cons_of_pos (by simpa using hread),
            List.map_cons, ih]

theorem order_trans {a b c : Path × List Key} (ha : a ∈ r.candidates ps) (hb : b ∈ r.candidates ps)
    (hc : c ∈ r.candidates ps) (hab : (r.order a b).isLE) (hbc : (r.order b c).isLE) : (r.order a c).isLE := by
  have hlength {c : Path × List Key} (hc : c ∈ r.candidates ps) := (mem_candidates_iff.mp hc).2.length_eq
  exact compare_trans ((hlength ha).trans (hlength hb).symm) ((hlength hb).trans (hlength hc).symm) hab hbc

def sorted (r : Ranking) (ps : List Path) : List (Path × List Key) :=
  (r.candidates ps).mergeSort fun a b => r.order a b ≠ .gt

theorem ne_gt_iff_isLE : o ≠ .gt ↔ o.isLE = true := by
  cases o <;> decide

theorem sorted_spec (r : Ranking) (ps : List Path) :
    (r.sorted ps).Pairwise (fun a b => (r.order a b).isLE) ∧
      ∀ c ∈ r.candidates ps, (r.sorted ps).filter (fun a => r.order c a = .eq) =
        (r.candidates ps).filter fun a => r.order c a = .eq := by
  have htrans : ∀ a ∈ r.candidates ps, ∀ b ∈ r.candidates ps, ∀ c ∈ r.candidates ps,
      decide (r.order a b ≠ .gt) = true → decide (r.order b c ≠ .gt) = true → decide (r.order a c ≠ .gt) = true := by
    intro a ha b hb c hc hab hbc
    rw [decide_eq_true_eq, ne_gt_iff_isLE] at hab hbc ⊢
    exact order_trans ha hb hc hab hbc
  have htotal : ∀ a ∈ r.candidates ps, ∀ b ∈ r.candidates ps,
      (decide (r.order a b ≠ .gt) || decide (r.order b a ≠ .gt)) = true := by
    intro a _ b _
    rw [order, order, compare_swap r.rules a.2 b.2]
    cases compare r.rules a.2 b.2 <;> rfl
  constructor
  · refine (pairwise_mergeSort_of_mem htrans htotal).imp ?_
    exact fun h => ne_gt_iff_isLE.mp (of_decide_eq_true h)
  · intro c hc
    refine filter_mergeSort_of_mem htrans htotal ?_
    intro a ha b hb hca hcb
    rw [decide_eq_true_eq] at hca hcb
    rw [decide_eq_true_eq, ne_gt_iff_isLE]
    have hac : r.order a c = .eq := by rw [order, compare_swap r.rules c.2 a.2, ← order, hca]; rfl
    exact order_trans ha hc hb (by rw [hac]; rfl) (by rw [hcb]; rfl)

/-- The best of some files, best first, and the files that are left. Files that tie stay in the order they
came, through the kept ones to the ones that are left. -/
structure Selects (r : Ranking) (ps : List Path) (kept left : List (Path × List Key)) : Prop where
  all : (kept ++ left).Perm (r.candidates ps)
  length : kept.length = min r.top (r.candidates ps).length
  ordered : kept.Pairwise fun a b => r.order a b ≠ .gt
  best : ∀ a ∈ kept, ∀ b ∈ left, r.order b a ≠ .lt
  stable : ∀ c ∈ r.candidates ps, (kept ++ left).filter (fun a => r.order c a = .eq) =
    (r.candidates ps).filter fun a => r.order c a = .eq

theorem selects_sorted (r : Ranking) (ps : List Path) :
    Selects r ps ((r.sorted ps).take r.top) ((r.sorted ps).drop r.top) := by
  obtain ⟨hsorted, hstable⟩ := sorted_spec r ps
  have hperm : (r.sorted ps).Perm (r.candidates ps) := List.mergeSort_perm _ _
  have hsplit := List.take_append_drop r.top (r.sorted ps)
  rw [← hsplit, List.pairwise_append] at hsorted
  refine ⟨?_, ?_, ?_, ?_, ?_⟩
  · rw [hsplit]
    exact hperm
  · rw [List.length_take, hperm.length_eq]
  · exact hsorted.1.imp ne_gt_iff_isLE.mpr
  · intro a ha b hb hba
    have hab := hsorted.2.2 a ha b hb
    rw [order, compare_swap r.rules b.2 a.2, ← order, hba] at hab
    cases hab
  · intro c hc
    rw [hsplit]
    exact hstable c hc

/-- A ranking keeps the best of the files that all rules can read, as many as are asked for and there are.
These files are taken in the order they came. A rule goes by the order of its values or against it, the
first rule under which two files do not tie decides, and that is a total preorder; and if more files are
asked for, more follow. -/
theorem rank_selects (r : Ranking) (ps : List Path) :
    (∀ p ks, r.values p = some ks ↔ Reads r p ks) ∧
    (∀ p ks, (p, ks) ∈ r.candidates ps ↔ p ∈ ps ∧ Reads r p ks) ∧
    (r.candidates ps).map Prod.fst = ps.filter (fun p => ∃ ks, Reads r p ks) ∧
    (∀ (rule : GaugedRule) a b, rule.compare a b = .lt ↔ if rule.ascending then a.Before b else b.Before a) ∧
    (∀ (rule : GaugedRule) a b, rule.compare b a = (rule.compare a b).swap) ∧
    (∀ a b o, o ≠ .eq → (r.order a b = o ↔ ∃ i, Decides r.rules a.2 b.2 i o)) ∧
    (∀ a b, r.order b a = (r.order a b).swap) ∧
    (∀ a ∈ r.candidates ps, ∀ b ∈ r.candidates ps, ∀ c ∈ r.candidates ps,
      r.order a b ≠ .gt → r.order b c ≠ .gt → r.order a c ≠ .gt) ∧
    (∃ kept left, Selects r ps kept left ∧ r.rank ps = kept.map Prod.fst) ∧
    ∀ top, r.top ≤ top → r.rank ps <+: Ranking.rank { r with top := top } ps := by
  refine ⟨values_iff r, fun _ _ => mem_candidates_iff, candidates_paths r ps, GaugedRule.compare_eq_lt, ?_, ?_,
    ?_, ?_, ⟨_, _, selects_sorted r ps, rfl⟩, ?_⟩
  · exact fun rule a b => @OrientedCmp.eq_swap _ rule.compare _ b a
  · exact fun a b o ho => ⟨decides_of_compare ho, fun ⟨i, hi⟩ => compare_of_decides ho hi⟩
  · exact fun a b => compare_swap r.rules a.2 b.2
  · intro a ha b hb c hc hab hbc
    rw [ne_gt_iff_isLE] at hab hbc ⊢
    exact order_trans ha hb hc hab hbc
  · intro top htop
    have hcut := (List.take_prefix_take_left htop (l := r.sorted ps)).map Prod.fst
    exact hcut

end Ranking

end LogTail
