import LogTail.Proofs.PathOrder
import LogTail.Proofs.Relisting

namespace LogTail

open FileTree LogTail.Path

namespace Glob

variable {t : FileTree} {text : String}

theorem expand_ok : (∃ found, expand t text = .ok found) ↔
    (∃ p, Pattern.ofText text = .ok p) ∧ ∃ ps, componentPatterns text = .ok ps := by
  rw [expand]
  cases hwhole : Pattern.ofText text with
  | error f =>
      constructor
      · rintro ⟨found, h⟩
        cases h
      · rintro ⟨⟨p, h⟩, -⟩
        cases h
  | ok p =>
      cases hparts : componentPatterns text with
      | error f =>
          constructor
          · rintro ⟨found, h⟩
            cases h
          · rintro ⟨-, ps, h⟩
            cases h
      | ok ps => exact ⟨fun _ => ⟨⟨p, rfl⟩, ps, rfl⟩, fun _ => ⟨_, rfl⟩⟩

end Glob

namespace Selector

variable {t t' : FileTree} {includes excludes : List String} {criteria : Option Ranking.Criteria} {s : Selector}
  {p : Path} {all found : List Path}

theorem includePattern_ok {i i' : String} :
    includePattern i = .ok i' ↔ (∃ p, Glob.Pattern.ofText i = .ok p) ∧ i = i' := by
  rw [includePattern]
  cases Glob.Pattern.ofText i with
  | error f => simp
  | ok p => simp

theorem excludePattern_ok {e : String} {p : Glob.Pattern} :
    excludePattern e = .ok p ↔ Glob.Pattern.ofText e = .ok p := by
  rw [excludePattern]
  cases Glob.Pattern.ofText e with
  | error f => simp
  | ok p => simp

structure Made (includes excludes : List String) (criteria : Option Ranking.Criteria) (s : Selector) : Prop where
  valid : ∀ i ∈ s.includes, ∃ p, Glob.Pattern.ofText i = .ok p
  includes : s.includes = includes
  excludes : List.Forall₂ (fun e p => Glob.Pattern.ofText e = .ok p) excludes s.excludes
  ranking : rankingOf criteria = .ok s.ranking

theorem mapM_includePattern {is : List String} :
    includes.mapM includePattern = .ok is ↔ (∀ i ∈ is, ∃ p, Glob.Pattern.ofText i = .ok p) ∧ is = includes := by
  rw [mapM_eq_ok]
  simp only [includePattern_ok]
  constructor
  · intro h
    have hsame : includes = is := List.forall₂_eq_eq_eq ▸ h.imp fun _ _ hi => hi.2
    subst hsame
    refine ⟨?_, rfl⟩
    intro i hi
    obtain ⟨j, -, hj, -⟩ := exists_of_forall₂ h i hi
    exact hj
  · rintro ⟨hvalid, rfl⟩
    exact List.forall₂_same.mpr fun i hi => ⟨hvalid i hi, rfl⟩

theorem ofPatterns_ok : ofPatterns includes excludes criteria = .ok s ↔ Made includes excludes criteria s := by
  constructor
  · intro h
    rw [ofPatterns] at h
    cases hincludes : includes.mapM includePattern with
    | error f =>
        rw [hincludes] at h
        cases h
    | ok is =>
    cases hexcludes : excludes.mapM excludePattern with
    | error f =>
        rw [hincludes, hexcludes] at h
        cases h
    | ok es =>
    cases hranking : rankingOf criteria with
    | error f =>
        rw [hincludes, hexcludes, hranking] at h
        cases h
    | ok r =>
        rw [hincludes, hexcludes, hranking] at h
        cases h
        obtain ⟨hvalid, hsame⟩ := mapM_includePattern.mp hincludes
        exact ⟨hvalid, hsame, (mapM_eq_ok.mp hexcludes).imp fun _ _ => excludePattern_ok.mp, hranking⟩
  · intro h
    have hincludes := mapM_includePattern.mpr ⟨h.valid, h.includes⟩
    have hexcludes := mapM_eq_ok.mpr (h.excludes.imp fun _ _ => excludePattern_ok.mpr)
    rw [ofPatterns, hincludes, hexcludes, h.ranking]
    rfl

def Finds (t : FileTree) (includes : List String) (p : Path) : Prop :=
  ∃ i ∈ includes, ∃ found, Glob.expand t i = .ok found ∧ p ∈ found

def Bars (excludes : List String) (p : Path) : Prop :=
  ∃ e ∈ excludes, ∃ q, Glob.Pattern.ofText e = .ok q ∧ q.accepts p.text = true

/-- A path that is to be followed: behind all links it is not a directory. -/
structure Wants (t : FileTree) (includes excludes : List String) (p : Path) : Prop where
  finds : Finds t includes p
  file : t.isDirectory p = false
  kept : ¬ Bars excludes p

/-- All paths that are to be followed, each once and in order. -/
structure Collects (t : FileTree) (includes excludes : List String) (all : List Path) : Prop where
  ascending : Ascending all
  wanted : ∀ p ∈ all, Wants t includes excludes p
  complete : ∀ p, Wants t includes excludes p → ∃ q ∈ all, q.same p = true

theorem Made.isBarred_iff (h : Made includes excludes criteria s) : s.isBarred p = true ↔ Bars excludes p := by
  rw [isBarred, List.any_eq_true]
  constructor
  · rintro ⟨q, hq, haccepts⟩
    obtain ⟨e, he, hvalid⟩ := exists_of_forall₂ h.excludes.flip q hq
    exact ⟨e, he, q, hvalid, haccepts⟩
  · rintro ⟨e, he, q, hvalid, haccepts⟩
    obtain ⟨r, hr, hvalid'⟩ := exists_of_forall₂ h.excludes e he
    rw [hvalid] at hvalid'
    cases hvalid'
    exact ⟨q, hr, haccepts⟩

theorem Made.isWanted_iff (h : Made includes excludes criteria s) :
    s.isWanted t p = true ↔ t.isDirectory p = false ∧ ¬ Bars excludes p := by
  rw [isWanted, Bool.and_eq_true, Bool.not_eq_true', Bool.not_eq_true', ← h.isBarred_iff, Bool.not_eq_true]

/-- What the include patterns find, sorted, is what is to be followed. -/
theorem Made.collects {lists : List (List Path)} (h : Made includes excludes criteria s)
    (hlists : includes.mapM (Glob.expand t) = .ok lists) :
    Collects t includes excludes (sorted (lists.flatten.filter (s.isWanted t))) := by
  have hmem {p : Path} : p ∈ lists.flatten.filter (s.isWanted t) ↔ Wants t includes excludes p := by
    rw [List.mem_filter, List.mem_flatten, h.isWanted_iff]
    constructor
    · rintro ⟨⟨found, hfound, hp⟩, hfile, hkept⟩
      obtain ⟨i, hi, hexpand⟩ := (mem_of_mapM hlists).mp hfound
      exact ⟨⟨i, hi, found, hexpand, hp⟩, hfile, hkept⟩
    · rintro ⟨⟨i, hi, found, hexpand, hp⟩, hfile, hkept⟩
      exact ⟨⟨found, (mem_of_mapM hlists).mpr ⟨i, hi, hexpand⟩, hp⟩, hfile, hkept⟩
  exact ⟨ascending_sorted _, fun p hp => hmem.mp (mem_of_sorted hp), fun p hp => exists_sorted (hmem.mpr hp)⟩

theorem Made.select_ok (h : Made includes excludes criteria s) :
    (∃ found, s.select t = .ok found) ↔ ∀ i ∈ includes, ∃ ps, Glob.componentPatterns i = .ok ps := by
  have hexpand : (∃ lists, includes.mapM (Glob.expand t) = .ok lists) ↔
      ∀ i ∈ includes, ∃ ps, Glob.componentPatterns i = .ok ps := by
    rw [exists_mapM_ok]
    refine forall₂_congr fun i hi => ?_
    rw [Glob.expand_ok]
    exact and_iff_right (h.valid i (h.includes ▸ hi))
  rw [← hexpand, select, h.includes]
  cases includes.mapM (Glob.expand t) with
  | error e => simp
  | ok lists => simp

theorem Made.select_collects (h : Made includes excludes criteria s) (hselect : s.select t = .ok found) :
    ∃ all, Collects t includes excludes all ∧ found = s.ranked all := by
  rw [select, h.includes] at hselect
  cases hlists : includes.mapM (Glob.expand t) with
  | error e =>
      rw [hlists] at hselect
      cases hselect
  | ok lists =>
      rw [hlists] at hselect
      cases hselect
      exact ⟨_, h.collects hlists, rfl⟩

variable {includes' excludes' : List String} {all' : List Path} {s' : Selector}

theorem wants_congr (hincludes : ∀ i, i ∈ includes' ↔ i ∈ includes) (hexcludes : ∀ e, e ∈ excludes' ↔ e ∈ excludes)
    (h : Relisted t t') (ht : t.Tidy) (p : Path) :
    Wants t' includes' excludes' p ↔ Wants t includes excludes p := by
  have hfinds : Finds t' includes' p ↔ Finds t includes p := by
    simp only [Finds, hincludes, Glob.expand_relisted h ht]
  have hbars : Bars excludes' p ↔ Bars excludes p := by
    simp only [Bars, hexcludes]
  constructor
  · rintro ⟨hf, hfile, hkept⟩
    exact ⟨hfinds.mp hf, h.isDirectory ht ▸ hfile, fun hb => hkept (hbars.mpr hb)⟩
  · rintro ⟨hf, hfile, hkept⟩
    exact ⟨hfinds.mpr hf, by rwa [h.isDirectory ht], fun hb => hkept (hbars.mp hb)⟩

/-- There is only one ascending list of what is to be followed. -/
theorem Collects.unique (h : Collects t includes excludes all) (h' : Collects t' includes' excludes' all')
    (hwants : ∀ p, Wants t' includes' excludes' p ↔ Wants t includes excludes p) :
    all'.map components = all.map components := by
  refine h'.ascending.eq_of_alike h.ascending ?_
  intro cs
  rw [List.mem_map, List.mem_map]
  constructor
  · rintro ⟨p, hp, rfl⟩
    obtain ⟨q, hq, hsame⟩ := h.complete p ((hwants p).mp (h'.wanted p hp))
    exact ⟨q, hq, same_iff.mp hsame⟩
  · rintro ⟨p, hp, rfl⟩
    obtain ⟨q, hq, hsame⟩ := h'.complete p ((hwants p).mpr (h.wanted p hp))
    exact ⟨q, hq, same_iff.mp hsame⟩

theorem ranked_congr (hranking : s'.ranking = s.ranking) (h : all'.map components = all.map components) :
    (s'.ranked all').map components = (s.ranked all).map components := by
  rw [ranked, ranked, hranking]
  cases s.ranking with
  | none => exact h
  | some r => exact r.rank_congr h

theorem Made.exists_reordered (h : Made includes excludes criteria s)
    (hincludes : ∀ i, i ∈ includes' ↔ i ∈ includes) (hexcludes : ∀ e, e ∈ excludes' ↔ e ∈ excludes) :
    ∃ s', Made includes' excludes' criteria s' ∧ s'.ranking = s.ranking := by
  have hvalid : ∀ e ∈ excludes', ∃ p, Glob.Pattern.ofText e = .ok p := by
    intro e he
    obtain ⟨p, -, hp⟩ := exists_of_forall₂ h.excludes e ((hexcludes e).mp he)
    exact ⟨p, hp⟩
  obtain ⟨ps, hps⟩ := exists_mapM_ok.mpr hvalid
  refine ⟨⟨includes', ps, s.ranking⟩, ⟨?_, rfl, mapM_eq_ok.mp hps, h.ranking⟩, rfl⟩
  exact fun i hi => h.valid i (h.includes ▸ (hincludes i).mp hi)

/-- A selector finds its files if every component of every include pattern is a pattern by itself. They are
the ascending list of all paths that some include pattern finds, that are not directories behind all links
and that no exclude pattern accepts, or the best of these under a ranking; and the same patterns in another
order or repeated, in a tree whose directories are listed in another order, select the same paths. -/
theorem select_set (h : ofPatterns includes excludes criteria = .ok s) (ht : t.Tidy) :
    ((∃ found, s.select t = .ok found) ↔ ∀ i ∈ includes, ∃ ps, Glob.componentPatterns i = .ok ps) ∧
      ∀ found, s.select t = .ok found →
        (∃ all, Collects t includes excludes all ∧ found = s.ranked all ∧ (criteria = none → found = all)) ∧
          ∀ includes' excludes' t', (∀ i, i ∈ includes' ↔ i ∈ includes) → (∀ e, e ∈ excludes' ↔ e ∈ excludes) →
            Relisted t t' → ∃ s' found', ofPatterns includes' excludes' criteria = .ok s' ∧
              s'.select t' = .ok found' ∧ found'.map components = found.map components := by
  rw [ofPatterns_ok] at h
  refine ⟨h.select_ok, ?_⟩
  intro found hfound
  obtain ⟨all, hall, rfl⟩ := h.select_collects hfound
  constructor
  · refine ⟨all, hall, rfl, ?_⟩
    rintro rfl
    have hnone : s.ranking = none := (Except.ok.inj h.ranking).symm
    rw [ranked, hnone]
  · intro includes' excludes' t' hincludes hexcludes hrelisted
    obtain ⟨s', hs', hranking⟩ := h.exists_reordered hincludes hexcludes
    have hvalid : ∀ i ∈ includes', ∃ ps, Glob.componentPatterns i = .ok ps :=
      fun i hi => h.select_ok.mp ⟨_, hfound⟩ i ((hincludes i).mp hi)
    obtain ⟨found', hfound'⟩ := hs'.select_ok.mpr hvalid
    obtain ⟨all', hall', rfl⟩ := hs'.select_collects hfound'
    refine ⟨s', _, ofPatterns_ok.mpr hs', hfound', ranked_congr hranking ?_⟩
    exact hall.unique hall' (wants_congr hincludes hexcludes hrelisted ht)

def overlapping : Selector := ⟨["*.log", "./a*", "a.*"], [[.char 'b', .run]], none⟩

def mixed : FileTree where
  nodes := [.directory, .directory, .directory, .file [0x61], .file [0x62], .link ⟨"a.log"⟩, .directory]
  entries := [⟨home, "d.log", 6, true⟩, ⟨home, "c.log", 5, true⟩, ⟨home, "b.log", 4, true⟩, ⟨home, "a.log", 3, true⟩]

theorem tidy_mixed : mixed.Tidy :=
  tidy_of_pairwise (by decide) (by decide) (by decide) (by decide) (by decide)

theorem select_set_overlapping :
    ofPatterns ["*.log", "./a*", "a.*"] ["b*"] none = .ok overlapping ∧ mixed.Tidy ∧
      overlapping.select mixed = .ok [⟨"a.log"⟩, ⟨"c.log"⟩] ∧
      ∃ all, Collects mixed ["*.log", "./a*", "a.*"] ["b*"] all ∧ [⟨"a.log"⟩, ⟨"c.log"⟩] = overlapping.ranked all := by
  have hmade : ofPatterns ["*.log", "./a*", "a.*"] ["b*"] none = .ok overlapping := rfl
  have hselect : overlapping.select mixed = .ok [⟨"a.log"⟩, ⟨"c.log"⟩] := rfl
  obtain ⟨all, hall, hranked, -⟩ := ((select_set hmade tidy_mixed).2 _ hselect).1
  exact ⟨hmade, tidy_mixed, hselect, all, hall, hranked⟩

/-- A class with a slash is accepted, and then fails where its components are read. -/
example : (∃ p, Glob.Pattern.ofText "a[/]1.log" = .ok p) ∧
    Glob.componentPatterns "a[/]1.log" = .error (.range 1) :=
  ⟨⟨_, rfl⟩, rfl⟩

end Selector

end LogTail
