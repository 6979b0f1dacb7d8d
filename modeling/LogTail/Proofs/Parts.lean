import LogTail.Path
import Mathlib.Data.List.Basic
import Mathlib.Data.List.Induction

namespace LogTail.Path

theorem split_ne_nil (cs : List Char) : split cs ≠ [] := by
  cases cs with
  | nil => simp [split]
  | cons c cs =>
      rw [split]
      split
      · simp
      · split <;> simp

theorem split_slash (cs ds : List Char) : split (cs ++ '/' :: ds) = split cs ++ split ds := by
  induction cs with
  | nil => rfl
  | cons c cs ih =>
      rw [List.cons_append, split, split]
      split
      · rw [ih, List.cons_append]
      · rw [ih]
        cases hcs : split cs with
        | nil => exact absurd hcs (split_ne_nil cs)
        | cons w ws => rfl

theorem split_plain {cs : List Char} (h : '/' ∉ cs) : split cs = [cs] := by
  induction cs with
  | nil => rfl
  | cons c cs ih =>
      rw [List.mem_cons, not_or] at h
      rw [split, if_neg (Ne.symm h.1), ih h.2]

theorem slash_of_mem_split {cs w : List Char} (h : w ∈ split cs) : '/' ∉ w := by
  induction cs generalizing w with
  | nil =>
      rw [List.mem_singleton.mp h]
      exact List.not_mem_nil
  | cons c cs ih =>
      rw [split] at h
      split at h
      · rcases List.mem_cons.mp h with rfl | h
        · exact List.not_mem_nil
        · exact ih h
      · next hc =>
          split at h
          · next hnil => exact absurd hnil (split_ne_nil cs)
          · next v vs hcs =>
              rcases List.mem_cons.mp h with rfl | h
              · rw [List.mem_cons, not_or]
                exact ⟨Ne.symm hc, ih (by rw [hcs]; exact List.mem_cons_self)⟩
              · exact ih (by rw [hcs]; exact List.mem_cons_of_mem _ h)

theorem parts_last {p : Path} (cs : List Char) {s : String} (hs : '/' ∉ s.toList) (hne : s ≠ "")
    (h : p.text.toList = s.toList ∨ p.text.toList = cs ++ '/' :: s.toList) : p.parts.getLast? = some s := by
  have hlast : ∃ ws, split p.text.toList = ws ++ [s.toList] := by
    rcases h with h | h
    · exact ⟨[], by rw [h, split_plain hs]; rfl⟩
    · exact ⟨split cs, by rw [h, split_slash, split_plain hs]⟩
  obtain ⟨ws, hws⟩ := hlast
  have hkept : (!s.toList.isEmpty) = true := by simpa using hne
  rw [parts, hws, List.filter_append, List.filter_singleton, hkept, cond_true, List.map_append]
  simp

theorem parts_ofComponents {cs : List Component} {s : String} (hs : '/' ∉ s.toList) (hne : s ≠ "") :
    (ofComponents (cs ++ [.name s])).parts.getLast? = some s := by
  have hjoined (ws : List String) : (String.intercalate "/" (ws ++ [s])).toList = s.toList ∨
      ∃ before : List Char, (String.intercalate "/" (ws ++ [s])).toList = before ++ '/' :: s.toList := by
    by_cases hws : ws = []
    · left
      rw [hws, List.nil_append, String.intercalate_singleton]
    · right
      rw [String.intercalate_append_of_ne_nil hws (by simp), String.intercalate_singleton]
      exact ⟨(String.intercalate "/" ws).toList, by simp⟩
  have hroot (ws : List String) : ∃ before : List Char,
      ("/" ++ String.intercalate "/" (ws ++ [s])).toList = before ++ '/' :: s.toList := by
    rcases hjoined ws with h | ⟨before, h⟩
    · exact ⟨[], by simp [h]⟩
    · exact ⟨'/' :: before, by simp [h]⟩
  by_cases hroot' : cs.head? = some .root
  · obtain ⟨cs', rfl⟩ : ∃ cs', cs = .root :: cs' := by
      cases cs with
      | nil => cases hroot'
      | cons c cs' =>
          cases hroot'
          exact ⟨cs', rfl⟩
    obtain ⟨before, h⟩ := hroot (cs'.map Component.text)
    refine parts_last before hs hne (.inr ?_)
    rw [← h]
    simp [ofComponents, Component.text]
  · have hplain : ofComponents (cs ++ [.name s]) = ⟨String.intercalate "/" (cs.map Component.text ++ [s])⟩ := by
      rw [ofComponents]
      · simp [Component.text]
      · intro cs' hcs'
        refine hroot' ?_
        cases cs with
        | nil => cases hcs'
        | cons c cs =>
            obtain ⟨rfl, -⟩ := List.cons.inj hcs'
            rfl
    rw [hplain]
    rcases hjoined (cs.map Component.text) with h | ⟨before, h⟩
    · exact parts_last [] hs hne (.inl h)
    · exact parts_last before hs hne (.inr h)

theorem components_last {p : Path} {s : String} {c : Component} (h : p.parts.getLast? = some s)
    (hc : component? s = some c) : p.components.getLast? = some c := by
  obtain ⟨ws, hws⟩ := List.getLast?_eq_some_iff.mp h
  have hnamed : (p.parts.filterMap component?).getLast? = some c := by
    rw [hws, List.filterMap_append, List.filterMap_cons_some hc]
    exact List.getLast?_concat
  rw [components]
  split
  · simp [List.getLast?_cons, hnamed]
  · split
    · simp [List.getLast?_cons, hnamed]
    · exact hnamed

theorem fileName_of_last {p : Path} {s : String} (h : p.parts.getLast? = some s) (hhere : s ≠ ".")
    (hup : s ≠ "..") : p.fileName? = some s := by
  have hc : component? s = some (.name s) := by rw [component?, if_neg hhere, if_neg hup]
  rw [fileName?, components_last h hc]

theorem name_of_components {p : Path} {s : String} (h : .name s ∈ p.components) : s ∈ p.parts := by
  have hnamed : Component.name s ∈ p.parts.filterMap component? := by
    rw [components] at h
    split at h
    · simpa using h
    · split at h
      · simpa using h
      · exact h
  obtain ⟨w, hw, hc⟩ := List.mem_filterMap.mp hnamed
  rw [component?] at hc
  split at hc
  · cases hc
  split at hc
  · cases hc
  · cases hc
    exact hw

theorem slash_of_fileName {p : Path} {s : String} (h : p.fileName? = some s) : '/' ∉ s.toList := by
  rw [fileName?] at h
  split at h
  · next hlast =>
      cases h
      have hmem := name_of_components (List.mem_of_getLast? hlast)
      obtain ⟨w, hw, rfl⟩ := List.mem_map.mp hmem
      rw [String.toList_ofList]
      exact slash_of_mem_split (List.mem_filter.mp hw).1
  · cases h

theorem split_intercalate {ws : List (List Char)} (hne : ws ≠ []) (h : ∀ w ∈ ws, '/' ∉ w) :
    split (List.intercalate ['/'] ws) = ws := by
  induction ws with
  | nil => exact absurd rfl hne
  | cons w ws ih =>
      have hw := split_plain (h w List.mem_cons_self)
      cases ws with
      | nil => rw [List.intercalate_singleton, hw]
      | cons v ws =>
          have htail := ih (List.cons_ne_nil v ws) fun u hu => h u (List.mem_cons_of_mem w hu)
          rw [List.intercalate_cons_cons, List.append_assoc, List.singleton_append, split_slash, hw, htail,
            List.singleton_append]

theorem intercalate_split (cs : List Char) : List.intercalate ['/'] (split cs) = cs := by
  induction cs with
  | nil => rfl
  | cons c cs ih =>
      rw [split]
      cases hcs : split cs with
      | nil => exact absurd hcs (split_ne_nil cs)
      | cons w ws =>
          rw [hcs] at ih
          split
          · next hc => rw [List.intercalate_cons_cons, ih, hc, List.nil_append, List.singleton_append]
          · cases ws with
            | nil =>
                rw [List.intercalate_singleton] at ih ⊢
                rw [ih]
            | cons v ws =>
                rw [List.intercalate_cons_cons] at ih ⊢
                rw [← ih, List.cons_append, List.cons_append]

structure IsStep (s : String) : Prop where
  nonempty : s ≠ ""
  slash : '/' ∉ s.toList
  here : s ≠ "."

structure IsName (s : String) : Prop extends IsStep s where
  up : s ≠ ".."

instance : DecidablePred IsStep := fun s =>
  decidable_of_iff (s ≠ "" ∧ '/' ∉ s.toList ∧ s ≠ ".")
    ⟨fun ⟨hne, hslash, hhere⟩ => ⟨hne, hslash, hhere⟩, fun h => ⟨h.nonempty, h.slash, h.here⟩⟩

instance : DecidablePred IsName := fun s =>
  decidable_of_iff (IsStep s ∧ s ≠ "..") ⟨fun ⟨hstep, hup⟩ => ⟨hstep, hup⟩, fun h => ⟨h.toIsStep, h.up⟩⟩

theorem isStep_up : IsStep ".." := by decide

variable {top : Bool} {names pre : List String} {s : String}

def spell (names : List String) : List Char := List.intercalate ['/'] (names.map String.toList)

theorem spell_singleton (s : String) : spell [s] = s.toList := List.intercalate_singleton

theorem spell_cons (s : String) (h : names ≠ []) : spell (s :: names) = s.toList ++ '/' :: spell names := by
  cases names with
  | nil => exact absurd rfl h
  | cons n names => simp [spell, List.intercalate_cons_cons]

theorem spell_snoc (h : pre ≠ []) (s : String) : spell (pre ++ [s]) = spell pre ++ '/' :: s.toList := by
  induction pre with
  | nil => exact absurd rfl h
  | cons n pre ih =>
      cases pre with
      | nil => rw [List.singleton_append, spell_cons n (by simp), spell_singleton, spell_singleton]
      | cons m pre =>
          rw [List.cons_append, spell_cons n (by simp), ih (by simp), spell_cons n (by simp), List.append_assoc,
            List.cons_append]

theorem split_spell (hne : names ≠ []) (h : ∀ n ∈ names, '/' ∉ n.toList) :
    split (spell names) = names.map String.toList := by
  refine split_intercalate (by simpa using hne) ?_
  intro w hw
  obtain ⟨n, hn, rfl⟩ := List.mem_map.mp hw
  exact h n hn

theorem spell_behind {a b : List Char} (hne : names ≠ []) (h : ∀ n ∈ names, '/' ∉ n.toList)
    (hs : spell names = a ++ '/' :: b) :
    ∃ xs ys, names = xs ++ ys ∧ xs.map String.toList = split a ∧ spell ys = b ∧ ys ≠ [] := by
  have hsplit := split_spell hne h
  rw [hs, split_slash] at hsplit
  obtain ⟨xs, ys, rfl, hxs, hys⟩ := List.map_eq_append_iff.mp hsplit.symm
  refine ⟨xs, ys, rfl, hxs, ?_, ?_⟩
  · rw [spell, hys, intercalate_split]
  · rintro rfl
    exact split_ne_nil b hys.symm

theorem IsStep.toList_ne_nil (h : IsStep s) : s.toList ≠ [] := by simpa using h.nonempty

/-- The path of some names and ways up, from the top or from the working directory. -/
def ofNames (top : Bool) (names : List String) : Path :=
  if top then ⟨String.ofList ('/' :: spell names)⟩
  else if names = [] then ⟨"."⟩
  else ⟨String.ofList (spell names)⟩

theorem ofNames_top (names : List String) : (ofNames true names).text.toList = '/' :: spell names := by
  simp [ofNames]

theorem ofNames_relative (h : names ≠ []) : (ofNames false names).text.toList = spell names := by
  simp [ofNames, h]

theorem head_spell (hne : names ≠ []) (h : ∀ n ∈ names, IsStep n) : (spell names).head? ≠ some '/' := by
  cases names with
  | nil => exact absurd rfl hne
  | cons n names =>
      have hn := h n List.mem_cons_self
      have hhead : (spell (n :: names)).head? = n.toList.head? := by
        cases names with
        | nil => rw [spell_singleton]
        | cons m names => rw [spell_cons n (by simp), List.head?_append_of_ne_nil _ hn.toList_ne_nil]
      rw [hhead]
      exact fun hslash => hn.slash (List.mem_of_mem_head? hslash)

theorem getLast_spell (hne : names ≠ []) (h : ∀ n ∈ names, IsStep n) : (spell names).getLast? ≠ some '/' := by
  obtain ⟨pre, n, rfl⟩ := (List.eq_nil_or_concat' names).resolve_left hne
  have hn := h n (by simp)
  have hlast : (spell (pre ++ [n])).getLast? = n.toList.getLast? := by
    by_cases hpre : pre = []
    · rw [hpre, List.nil_append, spell_singleton]
    · rw [spell_snoc hpre, List.getLast?_append_of_ne_nil _ (by simp), List.getLast?_cons_of_ne_nil hn.toList_ne_nil]
  rw [hlast]
  exact fun hslash => hn.slash (List.mem_of_mem_getLast? hslash)

theorem isAbsolute_ofNames (h : ∀ n ∈ names, IsStep n) : (ofNames top names).isAbsolute = top := by
  rw [isAbsolute]
  cases top with
  | true => simp [ofNames_top]
  | false =>
      by_cases hne : names = []
      · subst hne
        rfl
      · rw [ofNames_relative hne]
        exact decide_eq_false (head_spell hne h)

theorem filter_names (h : ∀ n ∈ names, IsStep n) :
    (((names.map String.toList).filter fun s => !s.isEmpty).map String.ofList) = names := by
  have hall : (names.map String.toList).filter (fun s => !s.isEmpty) = names.map String.toList := by
    rw [List.filter_eq_self]
    intro w hw
    obtain ⟨n, hn, rfl⟩ := List.mem_map.mp hw
    simpa using (h n hn).nonempty
  rw [hall, List.map_map]
  simp [Function.comp_def]

theorem parts_ofNames (h : ∀ n ∈ names, IsStep n) (hne : top = true ∨ names ≠ []) :
    (ofNames top names).parts = names := by
  rw [parts]
  cases top with
  | true =>
      rw [ofNames_top, split, if_pos rfl]
      by_cases hnil : names = []
      · subst hnil
        rfl
      · rw [split_spell hnil fun n hn => (h n hn).slash]
        exact filter_names h
  | false =>
      have hnil : names ≠ [] := hne.resolve_left (by simp)
      rw [ofNames_relative hnil, split_spell hnil fun n hn => (h n hn).slash]
      exact filter_names h

theorem components_ofNames (h : ∀ n ∈ names, IsStep n) : (ofNames top names).components =
    (if top then [.root] else if names = [] then [.here] else []) ++ names.filterMap component? := by
  rw [components, isAbsolute_ofNames h]
  cases top with
  | true =>
      rw [parts_ofNames h (.inl rfl)]
      rfl
  | false =>
      by_cases hne : names = []
      · subst hne
        rfl
      · rw [parts_ofNames h (.inr hne), ofNames_relative hne, split_spell hne fun n hn => (h n hn).slash]
        have hfirst : (names.map String.toList).head? ≠ some ['.'] := by
          cases names with
          | nil => exact absurd rfl hne
          | cons n names =>
              intro hdot
              have hn : n = "." := String.toList_inj.mp (Option.some.inj hdot)
              exact (h n List.mem_cons_self).here hn
        rw [if_neg hfirst]
        simp [hne]

def Component.part? : Component → Option String
  | .up => some ".."
  | .name s => some s
  | _ => none

theorem filterMap_part (h : ∀ n ∈ names, IsStep n) : (names.filterMap component?).filterMap Component.part? = names := by
  rw [List.filterMap_filterMap]
  refine (List.filterMap_congr ?_).trans List.filterMap_some
  intro n hn
  rw [component?, if_neg (h n hn).here]
  split
  · next hup =>
      rw [hup]
      rfl
  · rfl

theorem part_components (h : ∀ n ∈ names, IsStep n) :
    (ofNames top names).components.filterMap Component.part? = names := by
  rw [components_ofNames h, List.filterMap_append, filterMap_part h]
  cases top with
  | true => rfl
  | false => by_cases hne : names = [] <;> simp [hne, Component.part?]

theorem component_ne_root (s : String) : component? s ≠ some .root := by
  rw [component?]
  split
  · simp
  · split <;> simp

theorem ofNames_inj {top' : Bool} {names' : List String} (h : ∀ n ∈ names, IsStep n) (h' : ∀ n ∈ names', IsStep n)
    (heq : (ofNames top names).components = (ofNames top' names').components) : top = top' ∧ names = names' := by
  have hnames := congrArg (List.filterMap Component.part?) heq
  rw [part_components h, part_components h'] at hnames
  subst hnames
  refine ⟨?_, rfl⟩
  have hroot (top : Bool) : Component.root ∈ (ofNames top names).components ↔ top = true := by
    rw [components_ofNames h]
    cases top with
    | true => simp
    | false => by_cases hne : names = [] <;> simp [hne, component_ne_root]
  rw [Bool.eq_iff_iff, ← hroot top, ← hroot top', heq]

theorem fileName_ofNames (h : ∀ n ∈ pre ++ [s], IsStep n) (hs : s ≠ "..") :
    (ofNames top (pre ++ [s])).fileName? = some s := by
  refine fileName_of_last ?_ (h s (by simp)).here hs
  rw [parts_ofNames h (.inr (by simp))]
  simp

theorem up_mem_components {p : Path} : Component.up ∈ p.components ↔ ".." ∈ p.parts := by
  have hnamed : Component.up ∈ p.parts.filterMap component? ↔ ".." ∈ p.parts := by
    rw [List.mem_filterMap]
    constructor
    · rintro ⟨w, hw, hc⟩
      rw [component?] at hc
      split at hc
      · cases hc
      split at hc
      · next hup => exact hup ▸ hw
      · cases hc
    · exact fun h => ⟨"..", h, rfl⟩
  rw [components]
  split
  · simpa using hnamed
  · split
    · simpa using hnamed
    · exact hnamed

theorem up_mem_ofNames (h : ∀ n ∈ names, IsStep n) : Component.up ∈ (ofNames top names).components ↔ ".." ∈ names := by
  by_cases hplain : top = true ∨ names ≠ []
  · rw [up_mem_components, parts_ofNames h hplain]
  · rw [not_or, Bool.not_eq_true, not_not] at hplain
    obtain ⟨rfl, rfl⟩ := hplain
    decide

variable {p : Path}

theorem relative_of_head (h : s.toList.head? ≠ some '/') : (Path.mk s).isAbsolute = false := decide_eq_false h

theorem IsStep.relative (hs : IsStep s) : (Path.mk s).isAbsolute = false :=
  relative_of_head fun hhead => hs.slash (List.mem_of_mem_head? hhead)

theorem join_cases (hs : (Path.mk s).isAbsolute = false) (hp : p.text.toList ≠ []) :
    ∃ before : List Char, (p.join ⟨s⟩).text.toList = before ++ '/' :: s.toList ∧
      ((p.endsWithSlash = false ∧ before = p.text.toList) ∨
        (p.endsWithSlash = true ∧ p.text.toList = before ++ ['/'])) := by
  have hempty : p.text.isEmpty = false := by
    rw [← Bool.not_eq_true, String.isEmpty_iff]
    exact fun hnil => hp (by rw [hnil]; rfl)
  rw [join, hs, hempty, Bool.false_or, if_neg Bool.false_ne_true]
  cases hends : p.endsWithSlash with
  | true =>
      have hlast : p.text.toList.getLast? = some '/' := of_decide_eq_true hends
      obtain ⟨before, hbefore⟩ := List.getLast?_eq_some_iff.mp hlast
      exact ⟨before, by simp [hbefore], .inr ⟨rfl, hbefore⟩⟩
  | false => exact ⟨p.text.toList, by simp, .inl ⟨rfl, rfl⟩⟩

theorem parts_join (hs : (Path.mk s).isAbsolute = false) (hp : p.text.toList ≠ []) :
    (p.join ⟨s⟩).parts = p.parts ++ (Path.mk s).parts := by
  obtain ⟨before, htext, ⟨-, hbefore⟩ | ⟨-, hbefore⟩⟩ := join_cases hs hp
  · rw [parts, htext, hbefore, split_slash, List.filter_append, List.map_append]
    rfl
  · rw [parts, parts, htext, hbefore, split_slash, split_slash]
    simp [split, parts]

theorem isAbsolute_join (hs : (Path.mk s).isAbsolute = false) (hp : p.text.toList ≠ []) :
    (p.join ⟨s⟩).isAbsolute = p.isAbsolute := by
  obtain ⟨before, htext, ⟨-, hbefore⟩ | ⟨-, hbefore⟩⟩ := join_cases hs hp
  · rw [isAbsolute, htext, hbefore, List.head?_append_of_ne_nil _ hp]
    rfl
  · rw [isAbsolute, isAbsolute, htext, hbefore]
    cases before <;> rfl

theorem size_join (hs : IsStep s) : p.text.utf8ByteSize < (p.join ⟨s⟩).text.utf8ByteSize := by
  have hpos : 0 < s.utf8ByteSize := Nat.pos_of_ne_zero (by simpa using hs.nonempty)
  rw [join, hs.relative, Bool.false_or]
  split
  · next hempty =>
      rw [String.isEmpty_iff.mp hempty]
      exact hpos
  split
  · simpa using hpos
  · simp
    omega

theorem parts_name (hs : IsStep s) : (Path.mk s).parts = [s] := by
  rw [Path.parts, split_plain hs.slash]
  simp [hs.toList_ne_nil]

theorem IsStep.endsWithSlash_join (hs : IsStep s) (hp : p.text.toList ≠ []) : (p.join ⟨s⟩).endsWithSlash = false := by
  obtain ⟨before, htext, -⟩ := join_cases hs.relative hp
  refine decide_eq_false ?_
  rw [htext, List.getLast?_append_of_ne_nil _ (by simp), List.getLast?_cons_of_ne_nil hs.toList_ne_nil]
  exact fun hslash => hs.slash (List.mem_of_mem_getLast? hslash)

theorem eq_of_text {q : Path} (h : p.text.toList = q.text.toList) : p = q := by
  cases p
  cases q
  exact congrArg Path.mk (String.toList_inj.mp h)

theorem text_ofNames (hne : top = true ∨ names ≠ []) :
    (ofNames top names).text.toList = (if top then ['/'] else []) ++ spell names := by
  cases top with
  | true => exact ofNames_top names
  | false => exact ofNames_relative (hne.resolve_left (by simp))

theorem spell_ne_nil (h : ∀ n ∈ names, IsStep n) (hne : names ≠ []) : spell names ≠ [] := by
  cases names with
  | nil => exact absurd rfl hne
  | cons n names =>
      have hn := (h n List.mem_cons_self).toList_ne_nil
      by_cases hnil : names = []
      · rwa [hnil, spell_singleton]
      · simp [spell_cons n hnil]

theorem text_ne_nil (h : ∀ n ∈ names, IsStep n) : (ofNames top names).text.toList ≠ [] := by
  cases top with
  | true => simp [ofNames_top]
  | false =>
      by_cases hne : names = []
      · subst hne
        decide
      · rw [ofNames_relative hne]
        exact spell_ne_nil h hne

theorem endsWithSlash_ofNames (h : ∀ n ∈ names, IsStep n) (hne : names ≠ []) :
    (ofNames top names).endsWithSlash = false := by
  refine decide_eq_false ?_
  rw [text_ofNames (.inr hne), List.getLast?_append_of_ne_nil _ (spell_ne_nil h hne)]
  exact getLast_spell hne h

theorem join_ofNames (h : ∀ n ∈ pre, IsStep n) (hs : IsStep s) (hne : top = true ∨ pre ≠ []) :
    (ofNames top pre).join ⟨s⟩ = ofNames top (pre ++ [s]) := by
  refine eq_of_text ?_
  obtain ⟨before, htext, hcase⟩ := join_cases hs.relative (text_ne_nil h)
  rw [htext, text_ofNames (.inr (by simp))]
  by_cases hpre : pre = []
  · subst hpre
    obtain rfl : top = true := hne.resolve_right (fun hnil => hnil rfl)
    obtain ⟨hends, -⟩ | ⟨-, hbefore⟩ := hcase
    · cases hends
    · obtain rfl : before = [] := by simpa [ofNames_top, spell] using hbefore
      rw [List.nil_append, List.nil_append, spell_singleton]
      rfl
  · rw [endsWithSlash_ofNames h hpre] at hcase
    obtain ⟨-, rfl⟩ | ⟨hends, -⟩ := hcase
    · rw [text_ofNames hne, spell_snoc hpre, List.append_assoc]
    · cases hends

theorem size_ofNames {ns : List String} (h : ∀ n ∈ pre ++ ns, IsStep n) (hne : pre ≠ []) :
    (ofNames top pre).text.utf8ByteSize ≤ (ofNames top (pre ++ ns)).text.utf8ByteSize := by
  induction ns using List.reverseRecOn with
  | nil => simp
  | append_singleton ns n ih =>
      rw [← List.append_assoc] at h ⊢
      have hfront : ∀ m ∈ pre ++ ns, IsStep m := fun m hm => h m (List.mem_append_left _ hm)
      have hn : IsStep n := h n (by simp)
      rw [← join_ofNames hfront hn (.inr (by simp [hne]))]
      exact Nat.le_trans (ih hfront) (Nat.le_of_lt (size_join hn))

theorem length_le_size (h : ∀ n ∈ names, IsStep n) : names.length ≤ (ofNames top names).text.utf8ByteSize := by
  induction names using List.reverseRecOn with
  | nil => exact Nat.zero_le _
  | append_singleton pre n ih =>
      have hpre : ∀ m ∈ pre, IsStep m := fun m hm => h m (List.mem_append_left _ hm)
      have hn : IsStep n := h n (by simp)
      rw [List.length_append, List.length_singleton]
      by_cases hplain : top = true ∨ pre ≠ []
      · rw [← join_ofNames hpre hn hplain]
        exact Nat.lt_of_le_of_lt (ih hpre) (size_join hn)
      · rw [not_or, not_not] at hplain
        obtain ⟨-, rfl⟩ := hplain
        have htext : (ofNames top ([] ++ [n])).text.toList ≠ [] := text_ne_nil h
        refine Nat.pos_of_ne_zero fun hzero => htext ?_
        rw [String.utf8ByteSize_eq_zero_iff.mp hzero]
        rfl

theorem fileName_up (h : p.parts.getLast? = some "..") : p.fileName? = none := by
  rw [fileName?, components_last h rfl]

theorem ne_nil_of_fileName (h : (ofNames top names).fileName? ≠ none) : names ≠ [] := by
  rintro rfl
  refine h ?_
  cases top <;> rfl

theorem text_ne_nil_of_up (h : Component.up ∈ p.components) : p.text.toList ≠ [] := by
  intro hnil
  rw [up_mem_components, parts, hnil] at h
  cases h

theorem up_mem_join (hs : (Path.mk s).isAbsolute = false) (hp : p.text.toList ≠ [])
    (h : Component.up ∈ p.components ∨ s = "..") : Component.up ∈ (p.join ⟨s⟩).components := by
  rw [up_mem_components] at h ⊢
  rw [parts_join hs hp, List.mem_append]
  refine h.imp_right ?_
  rintro rfl
  decide

theorem components_join_here (hp : p.text.toList ≠ []) : (p.join ⟨"."⟩).components = p.components := by
  have hdot : (Path.mk ".").isAbsolute = false := rfl
  have hnamed : (p.parts ++ (Path.mk ".").parts).filterMap component? = p.parts.filterMap component? := by
    rw [List.filterMap_append]
    simp [parts, split, component?]
  have hfirst : (split (p.join ⟨"."⟩).text.toList).head? = (split p.text.toList).head? := by
    obtain ⟨before, htext, ⟨-, hbefore⟩ | ⟨-, hbefore⟩⟩ := join_cases hdot hp
    · rw [htext, hbefore, split_slash, List.head?_append_of_ne_nil _ (split_ne_nil _)]
    · rw [htext, hbefore, split_slash, split_slash, List.head?_append_of_ne_nil _ (split_ne_nil _),
        List.head?_append_of_ne_nil _ (split_ne_nil _)]
  rw [components, components, isAbsolute_join hdot hp, parts_join hdot hp, hnamed, hfirst]

end LogTail.Path
