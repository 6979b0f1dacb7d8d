import LogTail.Proofs.PatternReading

namespace LogTail.Glob

open Pattern LogTail.Path

variable {text : String} {top slash under : Bool} {ws : List (List Char)} {ps : List Pattern} {p q : Pattern} {s : List Char}
  {names : List String}

def EndsInStars (ps : List Pattern) : Prop := ps.getLast?.any isRecursive = true

instance : Decidable (EndsInStars ps) := inferInstanceAs (Decidable (_ = true))

def deepened (ps : List Pattern) : List Pattern := if EndsInStars ps then ps ++ [[.run]] else ps

/-- Two stars at the end find directories only. With one more star behind them they find what is below. -/
def deepenedText (text : String) : String :=
  match componentPatterns text with
  | .ok ps => if EndsInStars ps then text ++ (if text.toList.getLast? = some '/' then "*" else "/*") else text
  | .error _ => text

theorem endsInStars_concat (ps : List Pattern) (p : Pattern) : EndsInStars (ps ++ [p]) ↔ p.isRecursive = true := by
  simp [EndsInStars]

theorem deepened_ne_nil (h : ps ≠ []) : deepened ps ≠ [] := by
  rw [deepened]
  split
  · simp
  · exact h

theorem deepened_last (ps : List Pattern) (p : Pattern) (h : (deepened ps).getLast? = some p) : p.isRecursive = false := by
  rw [deepened] at h
  split at h
  · rw [List.getLast?_concat] at h
    cases h
    rfl
  · next hends =>
      rw [EndsInStars, h] at hends
      simpa using hends

theorem inner_run : Inner [.run] := ⟨by simp, by simp⟩

theorem mem_deepened (h : ∀ p ∈ ps, IsComponent p ∧ p ≠ []) : ∀ p ∈ deepened ps, IsComponent p ∧ p ≠ [] := by
  intro p hp
  rw [deepened] at hp
  split at hp
  · rcases List.mem_append.mp hp with hp | hp
    · exact h p hp
    · rw [List.mem_singleton.mp hp]
      exact ⟨.inner inner_run, by simp⟩
  · exact h p hp

theorem matches_deepened (h : ∀ p ∈ ps, IsComponent p) (hends : EndsInStars ps) (s : List Char) :
    Matches (frontTokens ps) s ↔ Matches (joined (deepened ps)) s := by
  obtain ⟨init, p, rfl⟩ : ∃ init p, ps = init ++ [p] := by
    refine (List.eq_nil_or_concat' ps).resolve_left ?_
    rintro rfl
    cases hends
  have hrec := (endsInStars_concat init p).mp hends
  obtain rfl := (h p (by simp)).recursive hrec
  have hfront : frontTokens (init ++ [[.components]]) = frontTokens init ++ [.components] := by
    simp [frontTokens, hrec]
  rw [deepened, if_pos hends, joined_concat, hfront, List.append_assoc]
  exact matches_congr (fun s => iff_of_true (matches_components_last s) (matches_components_run s)) _ s

theorem getLast_of_matches (h : Matches (q ++ [.char '/']) s) : s.getLast? = some '/' := by
  induction q generalizing s with
  | nil =>
      obtain ⟨b, rfl, hb⟩ := matches_slash.mp h
      rw [matches_nil.mp hb]
      rfl
  | cons k q ih =>
      have hbehind (a : List Char) {b : List Char} (hb : b.getLast? = some '/') : (a ++ b).getLast? = some '/' := by
        rw [List.getLast?_append, hb]
        rfl
      rw [List.cons_append] at h
      rcases token_cases k with rfl | rfl | hk
      · obtain ⟨a, b, rfl, -, hb⟩ := h
        exact hbehind a (ih hb)
      · rcases h with h | ⟨a, b, rfl, hb⟩ | h
        · exact ih h
        · simpa using hbehind (a ++ ['/']) (ih hb)
        · cases ih h
      · obtain ⟨c, b, rfl, -, hb⟩ := (matches_single hk).mp h
        exact hbehind [c] (ih hb)

theorem matches_front_slash (hne : ps ≠ []) (hends : ¬ EndsInStars ps) (h : Matches (frontTokens ps) s) :
    s.getLast? = some '/' := by
  obtain ⟨init, p, rfl⟩ := (List.eq_nil_or_concat' ps).resolve_left hne
  rw [endsInStars_concat] at hends
  have hfront : frontTokens (init ++ [p]) = (frontTokens init ++ p) ++ [.char '/'] := by
    simp [frontTokens, hends]
  rw [hfront] at h
  exact getLast_of_matches h

theorem not_matches_slash (hp : IsComponent p) (hempty : p.accepts "" = false) (q : Pattern) (s : List Char) :
    ¬ Matches (p ++ q) ('/' :: s) := by
  intro h
  cases hp with
  | stars => cases hempty
  | inner hinner =>
      obtain ⟨a, b, hab, ha, -⟩ := (matches_append hinner.1).mp h
      have hslash := hinner.slash ha
      cases a with
      | nil =>
          rw [← Bool.not_eq_true, Pattern.accepts_iff hinner.divided] at hempty
          exact hempty ha
      | cons c a =>
          obtain ⟨rfl, -⟩ := List.cons.inj hab
          exact hslash List.mem_cons_self

theorem exists_frontTokens (p : Pattern) (ps : List Pattern) : ∃ q, frontTokens (p :: ps) = p ++ q := by
  rw [frontTokens_cons]
  split
  · exact ⟨_, rfl⟩
  · exact ⟨_, List.append_assoc _ _ _⟩

theorem exists_joined (p : Pattern) (ps : List Pattern) : ∃ q, joined (p :: ps) = p ++ q := by
  cases ps with
  | nil => exact ⟨[], (List.append_nil p).symm⟩
  | cons r ps =>
      rw [joined]
      split
      · exact ⟨_, rfl⟩
      · exact ⟨_, rfl⟩

theorem MadeOf.patterns_ne_nil (h : MadeOf text top slash ws ps) : ps ≠ [] := by
  intro hnil
  have hlength := h.read.length_eq
  rw [hnil, List.length_nil, List.length_eq_zero_iff] at hlength
  exact h.nonempty hlength

theorem MadeOf.components (h : MadeOf text top slash ws ps) : ∀ p ∈ ps, IsComponent p ∧ p ≠ [] :=
  fun p hp => ⟨h.isComponent p hp, fun hnil => h.filled (hnil ▸ hp)⟩

/-- A pattern accepts the path of some names if its components cover the names, from the top or from the working
directory alike. What ends in a slash accepts none, unless two stars are in front of that. -/
theorem MadeOf.accepts_iff (h : MadeOf text top slash ws ps) (hp : Pattern.ofText text = .ok p)
    (hnames : ∀ n ∈ names, IsStep n) (hne : names ≠ [])
    (hroot : under = true → top = true ∨ ∀ q, ps.head? = some q → q.accepts "" = false) :
    p.accepts (ofNames under names).text = true ↔
      under = top ∧ (slash = true → EndsInStars ps) ∧ Covers (deepened ps) names := by
  obtain ⟨p', hp', hdivided, hmatches⟩ := h.ofText
  obtain rfl : p = p' := by
    rw [hp] at hp'
    exact Except.ok.inj hp'
  have hspelled : Matches (if slash || ps.getLast?.any isRecursive then frontTokens ps else joined ps) (spell names) ↔
      (slash = true → EndsInStars ps) ∧ Covers (deepened ps) names := by
    have hcovers : Matches (joined (deepened ps)) (spell names) ↔ Covers (deepened ps) names :=
      matches_joined (mem_deepened h.components) (deepened_last ps) (deepened_ne_nil h.patterns_ne_nil)
        (fun n hn => (hnames n hn).slash) hne
    by_cases hends : EndsInStars ps
    · rw [show ps.getLast?.any isRecursive = true from hends, Bool.or_true, if_pos rfl,
        matches_deepened h.isComponent hends, hcovers]
      simp [hends]
    · rw [Bool.eq_false_iff.mpr hends, Bool.or_false, ← hcovers, deepened, if_neg hends]
      cases slash with
      | true =>
          have hno : ¬ Matches (frontTokens ps) (spell names) := fun hm =>
            getLast_spell hne hnames (matches_front_slash h.patterns_ne_nil hends hm)
          simp [hno, hends]
      | false => simp
  rw [Pattern.accepts_iff hdivided, hmatches, text_ofNames (.inr hne), compound, ← hspelled]
  cases top with
  | true =>
      cases under with
      | true =>
          rw [rootToken, if_pos rfl, if_pos rfl, List.singleton_append, List.singleton_append, matches_slash]
          simp
      | false =>
          have hno : ∀ b, spell names ≠ '/' :: b := fun b hb => head_spell hne hnames (by rw [hb]; rfl)
          rw [rootToken, if_pos rfl, if_neg Bool.false_ne_true, List.singleton_append, List.nil_append, matches_slash]
          simp [hno]
  | false =>
      cases under with
      | true =>
          have hempty := (hroot rfl).resolve_left Bool.false_ne_true
          have hno : ¬ Matches (if slash || ps.getLast?.any isRecursive then frontTokens ps else joined ps)
              ('/' :: spell names) := by
            obtain ⟨r, rs, rfl⟩ := List.exists_cons_of_ne_nil h.patterns_ne_nil
            have hr := h.isComponent r List.mem_cons_self
            split
            · obtain ⟨q, hq⟩ := exists_frontTokens r rs
              rw [hq]
              exact not_matches_slash hr (hempty r rfl) q _
            · obtain ⟨q, hq⟩ := exists_joined r rs
              rw [hq]
              exact not_matches_slash hr (hempty r rfl) q _
          rw [rootToken, if_neg Bool.false_ne_true, if_pos rfl, List.singleton_append, List.nil_append]
          exact iff_of_false hno (by simp)
      | false => simp [rootToken]

theorem pieces_intercalate (hne : ws ≠ []) (hws : ∀ w ∈ ws, '/' ∉ w ∧ w ≠ []) :
    pieces (List.intercalate ['/'] ws) = ws := by
  have hsplit := split_intercalate hne fun w hw => (hws w hw).1
  rw [pieces, hsplit, if_neg]
  intro hlast
  exact (hws [] (List.mem_of_getLast? hlast)).2 rfl

theorem head_intercalate (hne : ws ≠ []) (hws : ∀ w ∈ ws, '/' ∉ w ∧ w ≠ []) :
    (List.intercalate ['/'] ws).head? ≠ some '/' ∧ List.intercalate ['/'] ws ≠ [] := by
  obtain ⟨w, ws, rfl⟩ := List.exists_cons_of_ne_nil hne
  obtain ⟨hslash, hwne⟩ := hws w List.mem_cons_self
  have hfront : ∃ cs, List.intercalate ['/'] (w :: ws) = w ++ cs := by
    cases ws with
    | nil => exact ⟨[], by simp⟩
    | cons v ws => exact ⟨['/'] ++ List.intercalate ['/'] (v :: ws), by simp [List.intercalate_cons_cons]⟩
  obtain ⟨cs, hcs⟩ := hfront
  rw [hcs, List.head?_append_of_ne_nil _ hwne]
  exact ⟨fun hhead => hslash (List.mem_of_mem_head? hhead), by simp [hwne]⟩

theorem MadeOf.componentPatterns (h : MadeOf text top false ws ps) : componentPatterns text = .ok ps := by
  obtain ⟨hhead, hfilled⟩ := head_intercalate h.nonempty h.plain
  have htext := h.text
  rw [if_neg Bool.false_ne_true, List.append_nil] at htext
  have hmapM : (pieces (List.intercalate ['/'] ws)).mapM Pattern.ofChars = .ok ps := by
    rw [pieces_intercalate h.nonempty h.plain]
    exact mapM_eq_ok.mpr h.read
  rw [Glob.componentPatterns, htext]
  cases top with
  | true => simpa [root, hfilled] using hmapM
  | false => simpa [root, hfilled, hhead] using hmapM

theorem MadeOf.head_eq (h : MadeOf text top slash ws ps) : decide (text.toList.head? = some '/') = top := by
  obtain ⟨hhead, hfilled⟩ := head_intercalate h.nonempty h.plain
  rw [h.text]
  cases top with
  | true => simp [root]
  | false => simpa [root, List.head?_append_of_ne_nil _ hfilled] using hhead

theorem MadeOf.last_iff (h : MadeOf text top slash ws ps) : text.toList.getLast? = some '/' ↔ slash = true := by
  rw [h.text]
  cases slash with
  | true => simp
  | false =>
      obtain ⟨init, w, rfl⟩ := (List.eq_nil_or_concat' ws).resolve_left h.nonempty
      obtain ⟨hslash, hw⟩ := h.plain w (by simp)
      have hlast : w.getLast? ≠ some '/' := fun hlast => hslash (List.mem_of_getLast? hlast)
      rw [intercalate_concat, if_neg Bool.false_ne_true, List.append_nil, ← List.append_assoc,
        List.getLast?_append_of_ne_nil _ hw]
      exact iff_of_false hlast Bool.false_ne_true

theorem MadeOf.deepen (h : MadeOf text top (text.toList.getLast? = some '/') ws ps)
    (hread : Glob.componentPatterns text = .ok ps) :
    ∃ ws', MadeOf (deepenedText text) top (decide (text.toList.getLast? = some '/' ∧ ¬ EndsInStars ps)) ws' (deepened ps) ∧
      Glob.componentPatterns (deepenedText text) = .ok (deepened ps) := by
  rw [deepenedText, hread, deepened]
  dsimp only
  by_cases hends : EndsInStars ps
  · have hmade : MadeOf (text ++ if text.toList.getLast? = some '/' then "*" else "/*") top false (ws ++ [['*']])
        (ps ++ [[.run]]) := by
      refine ⟨?_, ?_, ?_, by simp, ?_⟩
      · have htext : (text ++ if text.toList.getLast? = some '/' then "*" else "/*").toList =
            root top ++ fronts ws ++ ['*'] := by
          have htext := h.text
          rw [fronts_eq h.nonempty, String.toList_append]
          by_cases hslash : text.toList.getLast? = some '/'
          · rw [if_pos hslash, htext, if_pos (decide_eq_true hslash), List.append_assoc, List.append_assoc]
            simp
          · rw [if_neg hslash, htext, if_neg (by simpa using hslash)]
            simp
        rw [htext, intercalate_concat, if_neg Bool.false_ne_true, List.append_nil, List.append_assoc]
      · exact List.rel_append h.read (.cons rfl .nil)
      · intro cs hcs
        rcases List.mem_append.mp hcs with hcs | hcs
        · exact h.plain cs hcs
        · rw [List.mem_singleton.mp hcs]
          decide
      · simp [h.filled]
    rw [if_pos hends, if_pos hends]
    simp only [hends, not_true, and_false, decide_false]
    exact ⟨_, hmade, hmade.componentPatterns⟩
  · rw [if_neg hends, if_neg hends]
    simp only [hends, not_false_eq_true, and_true]
    exact ⟨ws, h, hread⟩

end LogTail.Glob
