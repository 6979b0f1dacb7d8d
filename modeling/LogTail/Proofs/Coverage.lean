import LogTail.Glob.Expand
import LogTail.Proofs.Matching
import LogTail.Proofs.Parts

namespace LogTail.Glob

open LogTail.Path

namespace Pattern

variable {p q r : Pattern} {s : List Char}

/-- The tokens of a component other than two stars: none of them stands for a slash. -/
def Inner (p : Pattern) : Prop := .components ∉ p ∧ .char '/' ∉ p

theorem Inner.tail {k : Token} (h : Inner (k :: p)) : Inner p :=
  ⟨fun hk => h.1 (List.mem_cons_of_mem k hk), fun hk => h.2 (List.mem_cons_of_mem k hk)⟩

theorem Inner.divided (h : Inner p) : Divided p := by
  induction p with
  | nil => exact List.isChain_nil
  | cons k p ih =>
      cases p with
      | nil => exact List.isChain_singleton k
      | cons k' p =>
          refine List.isChain_cons_cons.mpr ⟨?_, ih h.tail⟩
          rintro rfl
          exact absurd (by simp) h.1

theorem matches_append (hp : .components ∉ p) :
    Matches (p ++ q) s ↔ ∃ a b, s = a ++ b ∧ Matches p a ∧ Matches q b := by
  induction p generalizing s with
  | nil =>
      constructor
      · exact fun h => ⟨[], s, rfl, rfl, h⟩
      · rintro ⟨a, b, rfl, rfl, h⟩
        exact h
  | cons k p ih =>
      rw [List.mem_cons, not_or] at hp
      rcases token_cases k with rfl | rfl | hk
      · rw [List.cons_append, matches_run]
        constructor
        · rintro ⟨x, y, rfl, hx, hy⟩
          obtain ⟨a, b, rfl, ha, hb⟩ := (ih hp.2).mp hy
          exact ⟨x ++ a, b, (List.append_assoc x a b).symm, ⟨x, a, rfl, hx, ha⟩, hb⟩
        · rintro ⟨_, b, rfl, ⟨x, a, rfl, hx, ha⟩, hb⟩
          exact ⟨x, a ++ b, List.append_assoc x a b, hx, (ih hp.2).mpr ⟨a, b, rfl, ha, hb⟩⟩
      · exact absurd rfl hp.1
      · rw [List.cons_append, matches_single hk]
        constructor
        · rintro ⟨c, y, rfl, hc, hy⟩
          obtain ⟨a, b, rfl, ha, hb⟩ := (ih hp.2).mp hy
          exact ⟨c :: a, b, rfl, (matches_single hk).mpr ⟨c, a, rfl, hc, ha⟩, hb⟩
        · rintro ⟨_, b, rfl, ha, hb⟩
          obtain ⟨c, a, rfl, hc, ha⟩ := (matches_single hk).mp ha
          exact ⟨c, a ++ b, rfl, hc, (ih hp.2).mpr ⟨a, b, rfl, ha, hb⟩⟩

theorem matches_congr (h : ∀ s, Matches q s ↔ Matches r s) (p : Pattern) (s : List Char) :
    Matches (p ++ q) s ↔ Matches (p ++ r) s := by
  induction p generalizing s with
  | nil => exact h s
  | cons k p ih =>
      rw [List.cons_append, List.cons_append]
      rcases token_cases k with rfl | rfl | hk
      · simp only [matches_run, ih]
      · simp only [matches_components, Behind, ih]
      · simp only [matches_single hk, ih]

theorem matches_components_twice : Matches (.components :: .components :: p) s ↔ Matches (.components :: p) s := by
  rw [matches_components, behind_components, matches_components, or_assoc, or_self]

theorem matches_components_last (s : List Char) : Matches [.components] s := .inr (.inr rfl)

theorem matches_components_run (s : List Char) : Matches [.components, .run] s := by
  rw [matches_components]
  exact .inr (.inr ⟨[], [], rfl, List.not_mem_nil, rfl⟩)

theorem Token.admits_slash {k : Token} (h : Token.admits '/' k = true) : k = .char '/' := by
  cases k with
  | char a => rw [of_decide_eq_true h]
  | any => cases h
  | run => cases h
  | components => cases h
  | within ms => cases h
  | except ms => cases h

theorem Inner.slash (hp : Inner p) (h : Matches p s) : '/' ∉ s := by
  induction p generalizing s with
  | nil =>
      rw [matches_nil.mp h]
      exact List.not_mem_nil
  | cons k p ih =>
      rcases token_cases k with rfl | rfl | hk
      · obtain ⟨a, b, rfl, ha, hb⟩ := h
        simp [ha, ih hp.tail hb]
      · exact absurd List.mem_cons_self hp.1
      · obtain ⟨c, b, rfl, hc, hb⟩ := (matches_single hk).mp h
        rw [List.mem_cons, not_or]
        refine ⟨?_, ih hp.tail hb⟩
        rintro rfl
        exact hp.2 (Token.admits_slash hc ▸ List.mem_cons_self)

theorem Inner.of_empty (hp : Inner p) (h : Matches p []) (hs : '/' ∉ s) : p = [] ∨ Matches p s := by
  induction p generalizing s with
  | nil => exact .inl rfl
  | cons k p ih =>
      right
      rcases token_cases k with rfl | rfl | hk
      · obtain ⟨a, b, hab, -, hb⟩ := h
        obtain ⟨rfl, rfl⟩ := List.append_eq_nil_iff.mp hab.symm
        exact ⟨s, [], by simp, hs, hb⟩
      · exact absurd List.mem_cons_self hp.1
      · obtain ⟨c, b, hcb, -⟩ := (matches_single hk).mp h
        cases hcb

inductive IsComponent : Pattern → Prop
  | stars : IsComponent [.components]
  | inner {p : Pattern} (h : Inner p) : IsComponent p

theorem IsComponent.recursive (h : IsComponent p) (hp : p.isRecursive = true) : p = [.components] := by
  cases h with
  | stars => rfl
  | inner h => exact absurd (by simpa [isRecursive] using hp) h.1

theorem IsComponent.flat (h : IsComponent p) (hp : p.isRecursive = false) : Inner p := by
  cases h with
  | stars => cases hp
  | inner h => exact h

theorem IsComponent.accepts_iff (h : IsComponent p) (hp : p.isRecursive = false) (n : String) :
    p.accepts n = true ↔ Matches p n.toList :=
  Pattern.accepts_iff (h.flat hp).divided n

variable {cs : List Char} {n : String}

theorem literal_of_recursive (h : q.isRecursive = true) : q.literal? = none := by
  induction q with
  | nil => cases h
  | cons k q ih =>
      cases k with
      | char a =>
          rw [literal?, ih (by simpa [isRecursive] using h)]
          rfl
      | any | run | components | within | except => rfl

theorem literal_iff : q.literal? = some cs ↔ q = cs.map Token.char := by
  induction q generalizing cs with
  | nil => simp [literal?, eq_comm]
  | cons k q ih =>
      cases k with
      | char a =>
          rw [literal?, Option.map_eq_some_iff]
          constructor
          · rintro ⟨cs, hcs, rfl⟩
            rw [ih.mp hcs, List.map_cons]
          · intro h
            cases cs with
            | nil => cases h
            | cons c cs =>
                obtain ⟨hc, hq⟩ := List.cons.inj h
                cases hc
                exact ⟨cs, ih.mpr hq, rfl⟩
      | any | run | components | within | except => cases cs <;> simp [literal?]

theorem matches_literal {s : List Char} : Matches (cs.map Token.char) s ↔ s = cs := by
  induction cs generalizing s with
  | nil => exact matches_nil
  | cons c cs ih =>
      rw [List.map_cons, matches_single ⟨by simp, by simp⟩]
      simp only [ih]
      constructor
      · rintro ⟨a, b, rfl, ha, rfl⟩
        rw [of_decide_eq_true ha]
      · rintro rfl
        exact ⟨_, _, rfl, decide_eq_true rfl, rfl⟩

theorem flat_of_literal (h : q.literal? = some cs) : q.isRecursive = false := by
  rw [← Bool.not_eq_true]
  intro hrec
  rw [literal_of_recursive hrec] at h
  cases h

theorem accepts_literal (hq : IsComponent q) (h : q.literal? = some cs) : q.accepts n = true ↔ n = String.ofList cs := by
  rw [hq.accepts_iff (flat_of_literal h), literal_iff.mp h, matches_literal, ← String.toList_inj, String.toList_ofList]

theorem slash_of_literal (hq : IsComponent q) (h : q.literal? = some cs) : '/' ∉ cs := by
  intro hmem
  refine (hq.flat (flat_of_literal h)).2 ?_
  rw [literal_iff.mp h]
  exact List.mem_map_of_mem hmem

end Pattern

open Pattern

variable {p q : Pattern} {ps : List Pattern} {n : String} {ns : List String}

/-- The components of a pattern, put together. Two stars need no slash behind them. -/
def joined : List Pattern → Pattern
  | [] => []
  | [p] => p
  | p :: q :: ps => if p.isRecursive then p ++ joined (q :: ps) else p ++ .char '/' :: joined (q :: ps)

/-- The patterns of components, laid along some names. -/
inductive Covers : List Pattern → List String → Prop
  | last {p : Pattern} {n : String} (hp : p.isRecursive = false) (hn : p.accepts n = true) : Covers [p] [n]
  | next {p : Pattern} {n : String} {ps : List Pattern} {ns : List String} (hp : p.isRecursive = false)
      (hn : p.accepts n = true) (h : Covers ps ns) : Covers (p :: ps) (n :: ns)
  | here {p : Pattern} {ps : List Pattern} {ns : List String} (hp : p.isRecursive = true)
      (h : Covers (afterRecursive ps) ns) : Covers (p :: ps) ns
  | deep {p : Pattern} {n : String} {ps : List Pattern} {ns : List String} (hp : p.isRecursive = true)
      (h : Covers (p :: ps) ns) : Covers (p :: ps) (n :: ns)

theorem Covers.patterns_ne_nil (h : Covers ps ns) : ps ≠ [] := by
  cases h <;> simp

theorem Covers.names_ne_nil (h : Covers ps ns) : ns ≠ [] := by
  induction h with
  | here _ _ ih => exact ih
  | last | next | deep => simp

theorem afterRecursive_sublist (ps : List Pattern) : (afterRecursive ps).Sublist ps := by
  induction ps with
  | nil => exact List.Sublist.refl _
  | cons p ps ih =>
      rw [afterRecursive]
      split
      · exact ih.cons p
      · exact List.Sublist.refl _

theorem Covers.skip (h : Covers ps ns) (hp : p.isRecursive = true) : Covers (p :: ps) ns := by
  induction h with
  | last hq hn =>
      refine .here hp ?_
      rw [afterRecursive, if_neg (by simp [hq])]
      exact .last hq hn
  | next hq hn h _ =>
      refine .here hp ?_
      rw [afterRecursive, if_neg (by simp [hq])]
      exact .next hq hn h
  | here hq h _ =>
      refine .here hp ?_
      rw [afterRecursive, if_pos hq]
      exact h
  | deep hq _ ih => exact .deep hp ih

theorem Covers.append (h : Covers (p :: ps) ns) (hp : p.isRecursive = true) (pre : List String) :
    Covers (p :: ps) (pre ++ ns) := by
  induction pre with
  | nil => exact h
  | cons n pre ih => exact .deep hp ih

/-- The patterns behind a component and the names behind its own: both end, or one covers the other. -/
def Laid (ps : List Pattern) (ns : List String) : Prop := (ps = [] ∧ ns = []) ∨ Covers ps ns

theorem Laid.covers (h : Laid ps ns) (hq : q.isRecursive = false) (hn : q.accepts n = true) : Covers (q :: ps) (n :: ns) := by
  rcases h with ⟨rfl, rfl⟩ | h
  · exact .last hq hn
  · exact .next hq hn h

theorem covers_flat (hq : q.isRecursive = false) : Covers (q :: ps) (n :: ns) ↔ q.accepts n = true ∧ Laid ps ns := by
  constructor
  · intro h
    cases h with
    | last _ hn => exact ⟨hn, .inl ⟨rfl, rfl⟩⟩
    | next _ hn h => exact ⟨hn, .inr h⟩
    | here hrec => simp [hq] at hrec
    | deep hrec => simp [hq] at hrec
  · exact fun ⟨hn, h⟩ => h.covers hq hn

theorem afterRecursive_flat {q' : Pattern} {qs : List Pattern} (h : afterRecursive ps = q' :: qs) :
    q'.isRecursive = false := by
  induction ps with
  | nil => cases h
  | cons p ps ih =>
      rw [afterRecursive] at h
      split at h
      · exact ih h
      · next hp =>
          obtain ⟨rfl, -⟩ := List.cons.inj h
          exact Bool.eq_false_iff.mpr hp

theorem afterRecursive_twice (ps : List Pattern) : afterRecursive (afterRecursive ps) = afterRecursive ps := by
  cases h : afterRecursive ps with
  | nil => rfl
  | cons q qs => rw [afterRecursive, if_neg (by simp [afterRecursive_flat h])]

theorem covers_recursive (hrec : q.isRecursive = true) :
    Covers (q :: ps) ns ↔ ∃ a b, ns = a ++ b ∧ Covers (afterRecursive ps) b := by
  constructor
  · intro h
    generalize hall : q :: ps = all at h
    induction h with
    | last hq | next hq =>
        obtain ⟨rfl, -⟩ := List.cons.inj hall
        simp [hrec] at hq
    | here _ h =>
        obtain ⟨-, rfl⟩ := List.cons.inj hall
        exact ⟨[], _, rfl, h⟩
    | deep _ _ ih =>
        obtain ⟨a, b, rfl, h⟩ := ih hall
        exact ⟨_ :: a, b, rfl, h⟩
  · rintro ⟨a, b, rfl, h⟩
    exact (Covers.here hrec h).append hrec a

theorem joined_stars (hps : ps ≠ []) : joined ([.components] :: ps) = .components :: joined ps := by
  cases ps with
  | nil => exact absurd rfl hps
  | cons q ps => rfl

theorem joined_inner (hp : p.isRecursive = false) (hps : ps ≠ []) : joined (p :: ps) = p ++ .char '/' :: joined ps := by
  cases ps with
  | nil => exact absurd rfl hps
  | cons q ps => rw [joined, if_neg (by simp [hp])]

theorem matches_slash {s : List Char} : Matches (.char '/' :: p) s ↔ ∃ b, s = '/' :: b ∧ Matches p b := by
  rw [matches_single ⟨by simp, by simp⟩]
  constructor
  · rintro ⟨c, b, rfl, hc, hb⟩
    obtain rfl : c = '/' := of_decide_eq_true hc
    exact ⟨b, rfl, hb⟩
  · rintro ⟨b, rfl, hb⟩
    exact ⟨'/', b, rfl, by decide, hb⟩

theorem matches_afterRecursive (hps : ∀ p ∈ ps, IsComponent p) (hafter : afterRecursive ps ≠ []) (s : List Char) :
    Matches (.components :: joined ps) s ↔ Matches (.components :: joined (afterRecursive ps)) s := by
  induction ps with
  | nil => exact Iff.rfl
  | cons p ps ih =>
      rw [afterRecursive] at hafter ⊢
      split
      · next hp =>
          rw [if_pos hp] at hafter
          obtain rfl := (hps p List.mem_cons_self).recursive hp
          have hne : ps ≠ [] := by
            rintro rfl
            exact hafter rfl
          rw [joined_stars hne, matches_components_twice]
          exact ih (fun q hq => hps q (List.mem_cons_of_mem _ hq)) hafter
      · exact Iff.rfl

theorem covers_single (hps : ∀ p ∈ ps, IsComponent p ∧ p ≠ []) (hlast : ∀ p, ps.getLast? = some p → p.isRecursive = false)
    (hne : ps ≠ []) (hn : '/' ∉ n.toList) (h : Matches (joined ps) []) : Covers ps [n] := by
  induction ps with
  | nil => exact absurd rfl hne
  | cons p ps ih =>
      obtain ⟨hp, hpne⟩ := hps p List.mem_cons_self
      by_cases hnil : ps = []
      · subst hnil
        have hflat := hlast p rfl
        refine .last hflat ((hp.accepts_iff hflat n).mpr ?_)
        exact ((hp.flat hflat).of_empty h hn).resolve_left hpne
      · cases hrec : p.isRecursive with
        | true =>
            obtain rfl := hp.recursive hrec
            rw [joined_stars hnil, matches_components, behind_nil, or_self] at h
            refine (ih (fun q hq => hps q (List.mem_cons_of_mem _ hq)) ?_ hnil h).skip hrec
            intro q hq
            exact hlast q (by rw [List.getLast?_cons_of_ne_nil hnil, hq])
        | false =>
            rw [joined_inner hrec hnil, matches_append (hp.flat hrec).1] at h
            obtain ⟨a, b, hab, -, hb⟩ := h
            obtain ⟨c, rfl, -⟩ := matches_slash.mp hb
            simp at hab

theorem covers_of_matches (hps : ∀ p ∈ ps, IsComponent p ∧ p ≠ [])
    (hlast : ∀ p, ps.getLast? = some p → p.isRecursive = false) (hpsne : ps ≠ []) (hns : ∀ n ∈ ns, '/' ∉ n.toList)
    (hnsne : ns ≠ []) (h : Matches (joined ps) (spell ns)) : Covers ps ns := by
  induction ps generalizing ns with
  | nil => exact absurd rfl hpsne
  | cons p ps ih =>
      obtain ⟨hp, hpne⟩ := hps p List.mem_cons_self
      by_cases hnil : ps = []
      · subst hnil
        have hflat := hlast p rfl
        have hslash := (hp.flat hflat).slash h
        cases ns with
        | nil => exact absurd rfl hnsne
        | cons n ns =>
            by_cases hns' : ns = []
            · subst hns'
              rw [spell_singleton] at h
              exact .last hflat ((hp.accepts_iff hflat n).mpr h)
            · exact absurd (by simp [spell_cons n hns']) hslash
      have hps' : ∀ q ∈ ps, IsComponent q ∧ q ≠ [] := fun q hq => hps q (List.mem_cons_of_mem _ hq)
      have hlast' : ∀ q, ps.getLast? = some q → q.isRecursive = false :=
        fun q hq => hlast q (by rw [List.getLast?_cons_of_ne_nil hnil, hq])
      cases hrec : p.isRecursive with
      | false =>
          rw [joined_inner hrec hnil, matches_append (hp.flat hrec).1] at h
          obtain ⟨a, b, hab, ha, hb⟩ := h
          obtain ⟨b, rfl, htail⟩ := matches_slash.mp hb
          obtain ⟨xs, ys, rfl, hxs, rfl, hys⟩ := spell_behind hnsne hns hab
          rw [split_plain ((hp.flat hrec).slash ha)] at hxs
          obtain ⟨n, rfl, rfl⟩ := List.map_eq_singleton_iff.mp hxs
          refine .next hrec ((hp.accepts_iff hrec n).mpr ha) (ih hps' hlast' hnil ?_ hys htail)
          exact fun m hm => hns m (List.mem_append_right _ hm)
      | true =>
          obtain rfl := hp.recursive hrec
          rw [joined_stars hnil] at h
          rcases h with h | ⟨a, b, hab, hb⟩ | h
          · exact (ih hps' hlast' hnil hns hnsne h).skip hrec
          · obtain ⟨xs, ys, rfl, -, rfl, hys⟩ := spell_behind hnsne hns hab
            have htail := ih hps' hlast' hnil (fun m hm => hns m (List.mem_append_right _ hm)) hys hb
            exact (htail.skip hrec).append hrec xs
          · obtain ⟨pre, n, rfl⟩ := (List.eq_nil_or_concat' ns).resolve_left hnsne
            have hsingle := covers_single hps' hlast' hnil (hns n (by simp)) h
            exact (hsingle.skip hrec).append hrec pre

theorem matches_of_covers (hps : ∀ p ∈ ps, IsComponent p) (h : Covers ps ns) : Matches (joined ps) (spell ns) := by
  induction h with
  | @last p n hp hn =>
      rw [spell_singleton]
      exact ((hps p List.mem_cons_self).accepts_iff hp n).mp hn
  | @next p n ps ns hp hn h ih =>
      have hcomponent := hps p List.mem_cons_self
      rw [joined_inner hp h.patterns_ne_nil, spell_cons n h.names_ne_nil, matches_append (hcomponent.flat hp).1]
      refine ⟨_, _, rfl, (hcomponent.accepts_iff hp n).mp hn, matches_slash.mpr ⟨_, rfl, ih ?_⟩⟩
      exact fun q hq => hps q (List.mem_cons_of_mem _ hq)
  | @here p ps ns hp h ih =>
      obtain rfl := (hps p List.mem_cons_self).recursive hp
      have hps' : ∀ q ∈ ps, IsComponent q := fun q hq => hps q (List.mem_cons_of_mem _ hq)
      have hne : ps ≠ [] := by
        rintro rfl
        exact h.patterns_ne_nil rfl
      rw [joined_stars hne, matches_afterRecursive hps' h.patterns_ne_nil]
      exact .inl (ih fun q hq => hps' q ((afterRecursive_sublist ps).mem hq))
  | @deep p n ps ns hp h ih =>
      obtain rfl := (hps p List.mem_cons_self).recursive hp
      have hwhole := ih hps
      by_cases hnil : ps = []
      · subst hnil
        exact matches_components_last _
      · rw [joined_stars hnil] at hwhole ⊢
        rw [spell_cons n h.names_ne_nil]
        rcases hwhole with hhere | hbehind
        · exact .inr (.inl ⟨_, _, rfl, hhere⟩)
        · have hbehind' := Behind.append hbehind (n.toList ++ ['/'])
          rw [List.append_assoc, List.singleton_append] at hbehind'
          exact .inr hbehind'

/-- The whole pattern stands for the text of some names if its components cover the names. -/
theorem matches_joined (hps : ∀ p ∈ ps, IsComponent p ∧ p ≠ [])
    (hlast : ∀ p, ps.getLast? = some p → p.isRecursive = false) (hpsne : ps ≠ []) (hns : ∀ n ∈ ns, '/' ∉ n.toList)
    (hnsne : ns ≠ []) : Matches (joined ps) (spell ns) ↔ Covers ps ns :=
  ⟨covers_of_matches hps hlast hpsne hns hnsne, matches_of_covers fun p hp => (hps p hp).1⟩

end LogTail.Glob
