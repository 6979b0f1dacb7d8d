import LogTail.Proofs.Acceptance
import LogTail.Proofs.Expansion

namespace LogTail.Selector

open FileTree LogTail.Path Glob

variable {t : FileTree} {includes excludes : List String} {s : Selector} {all : List Path} {e : String} {p : Glob.Pattern}
  {ps : List Glob.Pattern} {under : Bool} {names : List String} {q r : Path}

/-- A path that can be looked up and is spelled with names and ways up, a name at its end. -/
structure WellSpelled (q : Path) : Prop where
  spelled : ∃ under names, q = ofNames under names ∧ ∀ n ∈ names, IsStep n
  named : q.fileName? ≠ none
  size : q.text.utf8ByteSize ≤ pathLimit

theorem WellSpelled.eq (hq : WellSpelled q) (hr : WellSpelled r) (h : q.components = r.components) : q = r := by
  obtain ⟨under, names, rfl, hnames⟩ := hq.spelled
  obtain ⟨under', names', rfl, hnames'⟩ := hr.spelled
  obtain ⟨rfl, rfl⟩ := ofNames_inj hnames hnames' h
  rfl

theorem Finds.stands (h : Finds t includes q) (ht : t.Tidy) (hq : WellSpelled q) : t.Stands q := by
  obtain ⟨i, -, found, hfound, hmem⟩ := h
  obtain ⟨under, names, rfl, hnames⟩ := hq.spelled
  obtain ⟨ps, -, rfl⟩ := expand_eq hfound
  exact ((found_of_mem _ _).1 _ _ _ hmem).comes.stands_ofNames ht hnames hq.named hq.size

theorem wants_single {found : List Path} (hfound : Glob.expand t e = .ok found) :
    Wants t [e] [] r ↔ r ∈ found ∧ t.isDirectory r = false := by
  constructor
  · rintro ⟨⟨i, hi, found', hfound', hr⟩, hfile, -⟩
    rw [List.mem_singleton.mp hi, hfound] at hfound'
    cases hfound'
    exact ⟨hr, hfile⟩
  · rintro ⟨hr, hfile⟩
    refine ⟨⟨e, List.mem_singleton_self e, found, hfound, hr⟩, hfile, ?_⟩
    rintro ⟨i, hi, -⟩
    cases hi

/-- A pattern can be held against a path. If the path is absolute, so is the pattern, or its first component does not
match the empty text; and if the path climbs, no component in front of the last matches a way up but says so. -/
structure Meets (e : String) (ps : List Glob.Pattern) (q : Path) : Prop where
  top : q.isAbsolute = true → e.toList.head? = some '/' ∨ ∀ c, ps.head? = some c → c.accepts "" = false
  up : Component.up ∈ q.components → ∀ c ∈ (deepened ps).dropLast, c.accepts ".." = true → c.literal? ≠ none

theorem accepts_iff_finds (ht : t.Tidy) (hread : componentPatterns e = .ok ps) (hfilled : [] ∉ ps)
    (hmoves : ∀ c ∈ (deepened ps).dropLast, "." ∉ dots c) (hp : Glob.Pattern.ofText e = .ok p) (hq : WellSpelled q)
    (hmeets : Meets e ps q) (hfile : t.isDirectory q = false) (hstands : t.Stands q) :
    p.accepts q.text = true ↔ ∃ r, Wants t [deepenedText e] [] r ∧ q.same r = true := by
  obtain ⟨under, names, rfl, hnames⟩ := hq.spelled
  have hne := ne_nil_of_fileName hq.named
  obtain ⟨ws, hmade⟩ := madeOf_componentPatterns hread hfilled
  obtain ⟨ws', hmade', hread'⟩ := hmade.deepen hread
  obtain ⟨p', hp', -⟩ := hmade'.ofText
  obtain ⟨found, hfound⟩ := (expand_ok (t := t)).mpr ⟨⟨p', hp'⟩, _, hread'⟩
  have hadvancing : Advancing (".." ∈ names) (deepened ps) := by
    refine advancing_of hmade'.components (deepened_last ps) hmoves ?_ hmade'.patterns_ne_nil
    exact fun hmem => hmeets.up ((up_mem_ofNames hnames).mpr hmem)
  have htop := hmeets.top
  rw [isAbsolute_ofNames hnames] at htop
  rw [hmade.accepts_iff hp hnames hne (by simpa using htop)]
  simp only [wants_single hfound, and_assoc]
  rw [found_iff ht hfound hread' hadvancing hnames hq.named hq.size hfile hstands, hmade'.head_eq, Ne, hmade'.last_iff]
  simp

variable {found left : List Path}

theorem Made.collects_all (h : Made includes excludes none s) (hselect : s.select t = .ok all) :
    Collects t includes excludes all := by
  obtain ⟨all', hall, rfl⟩ := h.select_collects hselect
  have hnone : s.ranking = none := (Except.ok.inj h.ranking).symm
  rwa [ranked, hnone]

theorem Made.snoc (h : Made includes excludes none s) (hp : Glob.Pattern.ofText e = .ok p) :
    Made includes (excludes ++ [e]) none ⟨s.includes, s.excludes ++ [p], s.ranking⟩ :=
  ⟨h.valid, h.includes, List.rel_append h.excludes (.cons hp .nil), h.ranking⟩

theorem wants_snoc (hp : Glob.Pattern.ofText e = .ok p) :
    Wants t includes (excludes ++ [e]) q ↔ Wants t includes excludes q ∧ p.accepts q.text = false := by
  have hbars : Bars (excludes ++ [e]) q ↔ Bars excludes q ∨ p.accepts q.text = true := by
    constructor
    · rintro ⟨i, hi, r, hr, haccepts⟩
      rcases List.mem_append.mp hi with hi | hi
      · exact .inl ⟨i, hi, r, hr, haccepts⟩
      · rw [List.mem_singleton.mp hi, hp] at hr
        cases hr
        exact .inr haccepts
    · rintro (⟨i, hi, r, hr, haccepts⟩ | haccepts)
      · exact ⟨i, List.mem_append_left _ hi, r, hr, haccepts⟩
      · exact ⟨e, by simp, p, hp, haccepts⟩
  constructor
  · rintro ⟨hfinds, hfile, hkept⟩
    rw [hbars, not_or, Bool.not_eq_true] at hkept
    exact ⟨⟨hfinds, hfile, hkept.1⟩, hkept.2⟩
  · rintro ⟨⟨hfinds, hfile, hkept⟩, haccepts⟩
    refine ⟨hfinds, hfile, ?_⟩
    rw [hbars, not_or, Bool.not_eq_true]
    exact ⟨hkept, haccepts⟩

theorem Collects.any_same (h : Collects t includes excludes found) :
    found.any q.same = true ↔ ∃ r, Wants t includes excludes r ∧ q.same r = true := by
  rw [List.any_eq_true]
  constructor
  · rintro ⟨r, hr, hsame⟩
    exact ⟨r, h.wanted r hr, hsame⟩
  · rintro ⟨r, hr, hsame⟩
    obtain ⟨r', hr', hsame'⟩ := h.complete r hr
    exact ⟨r', hr', same_iff.mpr ((same_iff.mp hsame).trans (same_iff.mp hsame').symm)⟩

theorem Collects.mem_iff (h : Collects t includes excludes all) (hspelled : ∀ q, Wants t includes excludes q → WellSpelled q) :
    q ∈ all ↔ Wants t includes excludes q := by
  refine ⟨h.wanted q, fun hq => ?_⟩
  obtain ⟨r, hr, hsame⟩ := h.complete q hq
  rwa [← (hspelled r (h.wanted r hr)).eq (hspelled q hq) (same_iff.mp hsame)]

theorem Collects.eq_of_wellSpelled (h : Collects t includes excludes all) (h' : Collects t includes excludes left)
    (hspelled : ∀ q, Wants t includes excludes q → WellSpelled q) : left = all := by
  have hperm : left.Perm all := by
    refine (List.perm_ext_iff_of_nodup h'.ascending.nodup.of_map h.ascending.nodup.of_map).mpr ?_
    exact fun q => (h'.mem_iff hspelled).trans (h.mem_iff hspelled).symm
  refine hperm.eq_of_pairwise ?_ h'.ascending h.ascending
  intro p q _ _ hpq hqp
  rw [Path.compare] at hpq hqp
  exact absurd hqp (Std.OrientedCmp.not_lt_of_lt hpq)

theorem Collects.filter (h : Collects t includes excludes all) (hspelled : ∀ q, Wants t includes excludes q → WellSpelled q)
    (hp : Glob.Pattern.ofText e = .ok p)
    (haccepts : ∀ q, Wants t includes excludes q → (p.accepts q.text = true ↔ found.any q.same = true)) :
    Collects t includes (excludes ++ [e]) (all.filter fun q => !found.any q.same) := by
  have hkeeps {q : Path} (hq : Wants t includes excludes q) : (!found.any q.same) = true ↔ p.accepts q.text = false := by
    rw [Bool.not_eq_true', ← Bool.not_eq_true, ← Bool.not_eq_true, haccepts q hq]
  refine ⟨h.ascending.filter _, ?_, ?_⟩
  · intro q hq
    obtain ⟨hmem, hkept⟩ := List.mem_filter.mp hq
    have hwants := h.wanted q hmem
    exact (wants_snoc hp).mpr ⟨hwants, (hkeeps hwants).mp hkept⟩
  · intro q hq
    obtain ⟨hwants, hkept⟩ := (wants_snoc hp).mp hq
    have hmem := (h.mem_iff hspelled).mpr hwants
    exact ⟨q, List.mem_filter.mpr ⟨hmem, (hkeeps hwants).mpr hkept⟩, same_iff.mpr rfl⟩

/-- Excluding a pattern removes what including it finds. Two stars at its end find directories only, so they are
taken with one more star behind them. The paths are to be spelled with names and ways up and to meet the pattern, of which no component is
empty or, but for the last, may stay in its directory. -/
theorem exclude_removes (h : ofPatterns includes excludes none = .ok s) (ht : t.Tidy) (hselect : s.select t = .ok all)
    (hread : componentPatterns e = .ok ps) (hfilled : [] ∉ ps) (hmoves : ∀ c ∈ (deepened ps).dropLast, "." ∉ dots c)
    (hspelled : ∀ q, Wants t includes excludes q → WellSpelled q) (hmeets : ∀ q, Wants t includes excludes q → Meets e ps q) :
    ∃ s' only found, ofPatterns includes (excludes ++ [e]) none = .ok s' ∧
      ofPatterns [deepenedText e] [] none = .ok only ∧ only.select t = .ok found ∧
        s'.select t = .ok (all.filter fun q => !found.any q.same) := by
  rw [ofPatterns_ok] at h
  have hall := h.collects_all hselect
  obtain ⟨ws, hmade⟩ := madeOf_componentPatterns hread hfilled
  obtain ⟨p, hp, -⟩ := hmade.ofText
  obtain ⟨ws', hmade', hread'⟩ := hmade.deepen hread
  obtain ⟨p', hp', -⟩ := hmade'.ofText
  have honly : Made [deepenedText e] [] none ⟨[deepenedText e], [], none⟩ :=
    ⟨by simpa using ⟨p', hp'⟩, rfl, .nil, rfl⟩
  obtain ⟨found, hfound⟩ := (honly.select_ok (t := t)).mpr (by simpa using ⟨_, hread'⟩)
  obtain ⟨left, hleft⟩ := ((h.snoc hp).select_ok (t := t)).mpr (h.select_ok.mp ⟨all, hselect⟩)
  have haccepts : ∀ q, Wants t includes excludes q → (p.accepts q.text = true ↔ found.any q.same = true) := by
    intro q hq
    rw [(honly.collects_all hfound).any_same]
    exact accepts_iff_finds ht hread hfilled hmoves hp (hspelled q hq) (hmeets q hq) hq.file
      (hq.finds.stands ht (hspelled q hq))
  have hfilter := hall.filter hspelled hp haccepts
  have heq := hfilter.eq_of_wellSpelled ((h.snoc hp).collects_all hleft) fun q hq => hspelled q ((wants_snoc hp).mp hq).1
  exact ⟨_, _, found, ofPatterns_ok.mpr (h.snoc hp), ofPatterns_ok.mpr honly, hfound, heq ▸ hleft⟩

def nested : FileTree where
  nodes := [.directory, .directory, .directory, .file [0x61], .directory, .file [0x62], .file [0x63]]
  entries := [⟨home, "a.log", 3, true⟩, ⟨home, "d", 4, true⟩, ⟨4, "b.log", 5, true⟩, ⟨top, "c.log", 6, true⟩]

theorem tidy_nested : nested.Tidy :=
  tidy_of_pairwise (by decide) (by decide) (by decide) (by decide) (by decide)

theorem wants_nested (h : Wants nested ["**/*.log"] [] q) : q = ⟨"a.log"⟩ ∨ q = ⟨"d/b.log"⟩ := by
  have hfound : Glob.expand nested "**/*.log" = .ok [⟨"a.log"⟩, ⟨"d/b.log"⟩] := by decide +kernel
  simpa using ((wants_single hfound).mp h).1

theorem wellSpelled_nested (h : q = ⟨"a.log"⟩ ∨ q = ⟨"d/b.log"⟩) : WellSpelled q := by
  rcases h with rfl | rfl
  · exact ⟨⟨false, ["a.log"], rfl, by decide⟩, by decide, by decide⟩
  · exact ⟨⟨false, ["d", "b.log"], rfl, by decide⟩, by decide, by decide⟩

theorem exclude_removes_nested :
    ofPatterns ["**/*.log"] [] none = .ok ⟨["**/*.log"], [], none⟩ ∧ nested.Tidy ∧
      Selector.select nested ⟨["**/*.log"], [], none⟩ = .ok [⟨"a.log"⟩, ⟨"d/b.log"⟩] ∧
      ∃ s' only found, ofPatterns ["**/*.log"] ["d/**"] none = .ok s' ∧ ofPatterns ["d/**/*"] [] none = .ok only ∧
        only.select nested = .ok found ∧
          s'.select nested = .ok ([⟨"a.log"⟩, ⟨"d/b.log"⟩].filter fun q => !found.any q.same) := by
  have hmade : ofPatterns ["**/*.log"] [] none = .ok ⟨["**/*.log"], [], none⟩ := rfl
  have hselect : Selector.select nested ⟨["**/*.log"], [], none⟩ = .ok [⟨"a.log"⟩, ⟨"d/b.log"⟩] := by decide +kernel
  have hread : componentPatterns "d/**" = .ok [[.char 'd'], [.components]] := rfl
  have hmeets : ∀ q, Wants nested ["**/*.log"] [] q → Meets "d/**" [[.char 'd'], [.components]] q := by
    intro q hq
    rcases wants_nested hq with rfl | rfl
    · exact ⟨by decide, by decide⟩
    · exact ⟨by decide, by decide⟩
  exact ⟨hmade, tidy_nested, hselect, exclude_removes hmade tidy_nested hselect hread (by decide) (by decide)
    (fun q hq => wellSpelled_nested (wants_nested hq)) hmeets⟩

/-- Excluding a pattern leaves what the selector that includes only this pattern does not find. -/
def Removes (t : FileTree) (includes excludes : List String) (e : String) : Prop :=
  ∀ s s' only all found left, ofPatterns includes excludes none = .ok s →
    ofPatterns includes (excludes ++ [e]) none = .ok s' → ofPatterns [e] [] none = .ok only → s.select t = .ok all →
      only.select t = .ok found → s'.select t = .ok left →
        left.map components = (all.filter fun q => !found.any q.same).map components

/-- Two stars at the end find directories only but accept every text. Idle dots and slashes count in a text but not on
the way through a tree, in a pattern as in a path, and two stars pass ways up and the slash of the top in a text only. -/
theorem not_removes_nested :
    ¬ Removes nested ["**/*.log"] [] "**" ∧ ¬ Removes nested ["*.log"] [] "./a.log" ∧
      ¬ Removes nested ["d/*"] [] "d//b.log" ∧ ¬ Removes nested ["d/./*.log"] [] "d/b.log" ∧
        ¬ Removes nested ["d/../*.log"] [] "**/a.log" ∧ ¬ Removes nested ["/*.log"] [] "**/c.log" := by
  refine ⟨fun h => ?_, fun h => ?_, fun h => ?_, fun h => ?_, fun h => ?_, fun h => ?_⟩
  · have hleft := h _ _ _ [⟨"a.log"⟩, ⟨"d/b.log"⟩] [] [] rfl rfl rfl (by decide +kernel)
      (by decide +kernel) (by decide +kernel)
    exact absurd hleft (by decide)
  · have hleft := h _ _ _ [⟨"a.log"⟩] [⟨"a.log"⟩] [⟨"a.log"⟩] rfl rfl rfl (by decide +kernel)
      (by decide +kernel) (by decide +kernel)
    exact absurd hleft (by decide)
  · have hleft := h _ _ _ [⟨"d/b.log"⟩] [⟨"d/b.log"⟩] [⟨"d/b.log"⟩] rfl rfl rfl (by decide +kernel)
      (by decide +kernel) (by decide +kernel)
    exact absurd hleft (by decide)
  · have hleft := h _ _ _ [⟨"d/./b.log"⟩] [⟨"d/b.log"⟩] [⟨"d/./b.log"⟩] rfl rfl rfl (by decide +kernel)
      (by decide +kernel) (by decide +kernel)
    exact absurd hleft (by decide)
  · have hleft := h _ _ _ [⟨"d/../a.log"⟩] [⟨"a.log"⟩] [] rfl rfl rfl (by decide +kernel)
      (by decide +kernel) (by decide +kernel)
    exact absurd hleft (by decide)
  · have hleft := h _ _ _ [⟨"/c.log"⟩] [] [] rfl rfl rfl (by decide +kernel)
      (by decide +kernel) (by decide +kernel)
    exact absurd hleft (by decide)

end LogTail.Selector
