import LogTail.Proofs.Parts
import LogTail.Proofs.Relisting

namespace LogTail

namespace FileTree

open LogTail.Path

variable {t : FileTree} {follow : Bool} {n dir d : Nat} {s : String} {parts : List String} {target : Target} {i : Nat}
  {e : Entry}

def Arrives (t : FileTree) (d : Nat) : Target → Prop
  | .directory n => n = d ∧ t.isDirectoryNode d = true
  | .entry _ e => e.node = d ∧ t.isDirectoryNode d = true
  | .vacant _ _ => False

theorem Leads.snoc (h : Leads t anywhere true n dir parts target) (hd : t.Arrives d target) (hs : Named s)
    (he : t.lookup d s = some (i, e)) : Leads t anywhere false n dir (parts ++ [s]) (.entry i e) := by
  induction h with
  | done n dir =>
      obtain ⟨rfl, -⟩ := hd
      exact .entry hs he fun _ _ => rfl
  | here _ ih => exact .here (ih hd)
  | up _ ih => exact .up (ih hd)
  | vacant => exact hd.elim
  | entry hs' he' hlink =>
      obtain ⟨rfl, hdir⟩ := hd
      exact .enter hs' trivial he' (isDirectoryNode_iff.mp hdir) (by simp) (.entry hs he fun _ _ => rfl)
  | enter hs' hpass he' hnode hrest _ ih => exact .enter hs' hpass he' hnode (by simp) (ih hd)
  | jump hs' hpass he' hlink hrest htext _ ih =>
      refine .jump hs' hpass he' hlink (fun hnil => absurd hnil (by simp)) htext ?_
      have h := ih hd
      rwa [List.append_assoc] at h

def Shows (t : FileTree) (d : Nat) (s : String) : Prop := s = ".." ∨ s ∈ t.names d

theorem mem_names_iff : s ∈ t.names d ↔ ∃ i e, t.lookup d s = some (i, e) := by
  have hnone : t.lookup d s = none ↔ s ∉ t.names d := by
    rw [lookup_none, names]
    simp only [List.mem_map, List.mem_filter, Bool.and_eq_true, decide_eq_true_eq, not_exists, not_and]
    exact ⟨fun h e he => h e he.1 he.2.1 he.2.2, fun h e he hlive hdir => h e ⟨he, hlive, hdir⟩⟩
  cases hfound : t.lookup d s with
  | none => simpa [hfound] using hnone
  | some found => exact iff_of_true (by simpa [hfound] using hnone) ⟨found.1, found.2, rfl⟩

theorem Leads.of_snoc (hsound : t.Sound) (h : Leads t anywhere follow n dir (parts ++ [s]) target) (hs : s ≠ ".")
    (hdir : t.isDirectoryNode dir = true) (htarget : ∀ d s, target ≠ .vacant d s) :
    ∃ d target, Leads t anywhere true n dir parts target ∧ t.Arrives d target ∧ t.Shows d s := by
  generalize hall : parts ++ [s] = all at h
  induction h generalizing parts with
  | done n dir => exact absurd hall (by simp)
  | here _ ih =>
      cases parts with
      | nil =>
          obtain ⟨rfl, -⟩ := List.cons.inj hall
          exact absurd rfl hs
      | cons w parts =>
          obtain ⟨rfl, rfl⟩ := List.cons.inj hall
          obtain ⟨d, target, h, harrives, hfound⟩ := ih hdir htarget rfl
          exact ⟨d, target, .here h, harrives, hfound⟩
  | @up n dir rest target _ ih =>
      cases parts with
      | nil =>
          obtain ⟨rfl, -⟩ := List.cons.inj hall
          exact ⟨dir, .directory dir, .done n dir, ⟨rfl, hdir⟩, .inl rfl⟩
      | cons w parts =>
          obtain ⟨rfl, rfl⟩ := List.cons.inj hall
          obtain ⟨d, target, h, harrives, hfound⟩ := ih (hsound.parentOf_directory _) htarget rfl
          exact ⟨d, target, .up h, harrives, hfound⟩
  | vacant => exact absurd rfl (htarget _ _)
  | @entry n dir i w e hs' he hlink =>
      cases parts with
      | nil =>
          obtain ⟨rfl, -⟩ := List.cons.inj hall
          exact ⟨dir, .directory dir, .done n dir, ⟨rfl, hdir⟩, .inr (mem_names_iff.mpr ⟨i, e, he⟩)⟩
      | cons w parts => exact absurd (List.cons.inj hall).2 (by simp)
  | @enter n dir i w e rest target hs' hpass he hnode hrest _ ih =>
      cases parts with
      | nil =>
          obtain ⟨-, rfl⟩ := List.cons.inj hall
          exact absurd rfl hrest
      | cons w parts =>
          obtain ⟨rfl, rfl⟩ := List.cons.inj hall
          have hnode' := isDirectoryNode_iff.mpr hnode
          obtain ⟨d, target, h, harrives, hfound⟩ := ih hnode' htarget rfl
          by_cases hnil : parts = []
          · -- the way ends in the directory that was entered
            subst hnil
            cases h
            obtain ⟨rfl, -⟩ := harrives
            refine ⟨_, .entry i e, .entry hs' he ?_, ⟨rfl, hnode'⟩, hfound⟩
            intro p hp
            rw [hnode] at hp
            cases hp
          · exact ⟨d, target, .enter hs' hpass he hnode hnil h, harrives, hfound⟩
  | @jump n dir i w e rest p target hs' hpass he hlink hrest htext _ ih =>
      cases parts with
      | nil =>
          obtain ⟨rfl, -⟩ := List.cons.inj hall
          exact ⟨dir, .directory dir, .done _ dir, ⟨rfl, hdir⟩, .inr (mem_names_iff.mpr ⟨i, e, he⟩)⟩
      | cons w parts =>
          obtain ⟨rfl, rfl⟩ := List.cons.inj hall
          have hstart : t.isDirectoryNode (if p.isAbsolute then top else dir) = true := by
            split
            · exact hsound.base _ (by decide)
            · exact hdir
          obtain ⟨d, target, h, harrives, hfound⟩ := ih hstart htarget (List.append_assoc _ _ _)
          exact ⟨d, target, .jump hs' hpass he hlink (fun _ => rfl) htext h, harrives, hfound⟩

variable {p : Path}

structure Fit (p : Path) : Prop where
  nonempty : p.text.toList ≠ []
  nul : Char.ofNat 0 ∉ p.text.toList
  size : p.text.utf8ByteSize ≤ pathLimit

theorem fit_of_resolve (h : t.resolve follow p = .ok target) : Fit p := by
  rw [FileTree.resolve] at h
  split at h
  · cases h
  next hempty =>
  split at h
  · cases h
  next hnul =>
  split at h
  · cases h
  next hsize =>
  refine ⟨?_, by simpa using hnul, Nat.le_of_not_lt hsize⟩
  intro hnil
  exact hempty (by rw [String.isEmpty_iff]; exact String.toList_eq_nil_iff.mp hnil)

theorem Fit.resolve (h : Fit p) (hslash : p.endsWithSlash = true → follow = true)
    (hentry : p.endsWithSlash = true → ∀ i e, target = .entry i e → t.isDirectoryNode e.node = true)
    (hwalk : t.walk follow linkLimit (start p) p.parts = .ok target) : t.resolve follow p = .ok target := by
  have hempty : ¬ p.text.isEmpty = true := by
    rw [String.isEmpty_iff]
    intro hnil
    exact h.nonempty (by rw [hnil]; rfl)
  have hnul : ¬ p.text.toList.contains (Char.ofNat 0) = true := by simpa using h.nul
  have hfollow : (follow || p.endsWithSlash) = follow := by
    cases hends : p.endsWithSlash with
    | true => rw [hslash hends, Bool.or_true]
    | false => exact Bool.or_false follow
  rw [start] at hwalk
  rw [FileTree.resolve, if_neg hempty, if_neg hnul, if_neg (Nat.not_lt.mpr h.size), hfollow, hwalk]
  cases target with
  | directory n => rfl
  | vacant d s => rfl
  | entry i e =>
      cases hends : p.endsWithSlash with
      | true => simp [hentry hends i e rfl]
      | false => rfl

/-- A path leads to a directory behind all links. -/
def LeadsTo (t : FileTree) (p : Path) (d : Nat) : Prop := t.locate p = .ok d ∧ t.isDirectoryNode d = true

theorem isDirectory_iff : t.isDirectory p = true ↔ ∃ d, t.LeadsTo p d := by
  rw [isDirectory]
  cases h : t.locate p with
  | error f => simp [LeadsTo, h]
  | ok n => simp [LeadsTo, h]

theorem leadsTo_iff : t.LeadsTo p d ↔ ∃ target, t.resolve true p = .ok target ∧ t.Arrives d target := by
  rw [LeadsTo, locate]
  cases t.resolve true p with
  | error f => simp
  | ok target =>
      cases target with
      | directory n => simp [Arrives]
      | entry i e => simp [Arrives]
      | vacant d s => simp [Arrives]

theorem LeadsTo.fit (h : t.LeadsTo p d) : Fit p := by
  obtain ⟨target, htarget, -⟩ := leadsTo_iff.mp h
  exact fit_of_resolve htarget

theorem Fit.join (h : Fit p) (hs : Proper s) (hsize : (p.join ⟨s⟩).text.utf8ByteSize ≤ pathLimit) :
    Fit (p.join ⟨s⟩) := by
  obtain ⟨before, htext, hbefore⟩ := join_cases hs.toIsStep.relative h.nonempty
  refine ⟨by simp [htext], ?_, hsize⟩
  have hnul : Char.ofNat 0 ∉ before := by
    rcases hbefore with ⟨-, rfl⟩ | ⟨-, hp⟩
    · exact h.nul
    · exact fun hmem => h.nul (by rw [hp]; exact List.mem_append_left _ hmem)
  rw [htext, List.mem_append, List.mem_cons]
  rintro (hmem | heq | hmem)
  · exact hnul hmem
  · exact absurd heq (by decide)
  · exact hs.nul hmem

open Glob (Spot)

def Stands (t : FileTree) (p : Path) : Prop := Spot.present t p = true

theorem stands_iff : t.Stands p ↔ ∃ target, t.resolve false p = .ok target ∧ ∀ d s, target ≠ .vacant d s := by
  rw [Stands, Spot.present]
  cases t.resolve false p with
  | error f => simp
  | ok target => cases target <;> simp

theorem start_join (hs : IsStep s) (hp : p.text.toList ≠ []) : start (p.join ⟨s⟩) = start p := by
  rw [start, start, isAbsolute_join hs.relative hp]

theorem LeadsTo.stands_join (h : t.LeadsTo p d) (hs : Proper s) (hmem : s ∈ t.names d)
    (hsize : (p.join ⟨s⟩).text.utf8ByteSize ≤ pathLimit) : t.Stands (p.join ⟨s⟩) := by
  have hfit := h.fit
  obtain ⟨i, e, he⟩ := mem_names_iff.mp hmem
  obtain ⟨target, htarget, harrives⟩ := leadsTo_iff.mp h
  obtain ⟨hwalk, -⟩ := walk_of_resolve htarget
  rw [Bool.true_or] at hwalk
  have hleads := (leads_of_walk hwalk).snoc harrives hs.named he
  have hends : (p.join ⟨s⟩).endsWithSlash = false := hs.toIsStep.endsWithSlash_join hfit.nonempty
  refine stands_iff.mpr ⟨.entry i e, ?_, nofun⟩
  refine (hfit.join hs hsize).resolve (by simp [hends]) (by simp [hends]) ?_
  rw [start_join hs.toIsStep hfit.nonempty, parts_join hs.toIsStep.relative hfit.nonempty, parts_name hs.toIsStep]
  exact hleads.walk

variable {under : Bool} {pre names : List String}

theorem walk_here (t : FileTree) (follow : Bool) (n dir : Nat) (h : ∀ w ∈ parts, w = ".") :
    t.walk follow n dir parts = .ok (.directory dir) := by
  induction parts with
  | nil => exact walk_nil t follow n dir
  | cons w parts ih =>
      rw [walk_cons, if_pos (h w List.mem_cons_self)]
      exact ih fun v hv => h v (List.mem_cons_of_mem w hv)

theorem parts_of_here (h : p.components = [.here]) : p.isAbsolute = false ∧ ∀ w ∈ p.parts, w = "." := by
  rw [components] at h
  split at h
  · cases h
  next habsolute =>
  have hnil : p.parts.filterMap component? = [] := by
    split at h
    · exact (List.cons.inj h).2
    · have hmem : Component.here ∈ p.parts.filterMap component? := by rw [h]; exact List.mem_cons_self
      obtain ⟨w, -, hw⟩ := List.mem_filterMap.mp hmem
      rw [component?] at hw
      split at hw
      · cases hw
      · split at hw <;> cases hw
  refine ⟨Bool.eq_false_iff.mpr habsolute, fun w hw => ?_⟩
  by_contra hne
  have hnone := List.filterMap_eq_nil_iff.mp hnil w hw
  rw [component?, if_neg hne] at hnone
  split at hnone <;> cases hnone

theorem LeadsTo.eq_home (h : t.LeadsTo p d) (hp : p.components = [.here]) : d = home := by
  obtain ⟨target, htarget, harrives⟩ := leadsTo_iff.mp h
  obtain ⟨habsolute, hparts⟩ := parts_of_here hp
  obtain ⟨hwalk, -⟩ := walk_of_resolve htarget
  rw [walk_here t _ _ _ hparts] at hwalk
  cases hwalk
  rw [start, habsolute] at harrives
  exact harrives.1.symm

theorem fit_name (hs : Proper s) : Fit ⟨s⟩ := by
  refine ⟨hs.toIsStep.toList_ne_nil, hs.nul, le_trans hs.fits (by decide)⟩

theorem LeadsTo.stands_step (h : t.LeadsTo p d) (hs : Proper s) (hmem : s ∈ t.names d)
    (hsize : ((Spot.ofPath t p).step s).text.utf8ByteSize ≤ pathLimit) : t.Stands ((Spot.ofPath t p).step s) := by
  rw [Spot.step] at hsize ⊢
  split
  · next hhere =>
      obtain rfl := h.eq_home (of_decide_eq_true hhere)
      obtain ⟨i, e, he⟩ := mem_names_iff.mp hmem
      have hends : (Path.mk s).endsWithSlash = false := by
        refine decide_eq_false ?_
        exact fun hslash => hs.slash (List.mem_of_mem_getLast? hslash)
      refine stands_iff.mpr ⟨.entry i e, (fit_name hs).resolve (by simp [hends]) (by simp [hends]) ?_, nofun⟩
      have hleads : Leads t anywhere false linkLimit home [s] (.entry i e) := .entry hs.named he fun _ _ => rfl
      rw [parts_name hs.toIsStep, start, hs.toIsStep.relative]
      exact hleads.walk
  · next hhere =>
      rw [if_neg hhere] at hsize
      exact h.stands_join hs hmem hsize

theorem Fit.of_join (h : Fit (p.join ⟨s⟩)) (hs : IsStep s) (hp : p.text.toList ≠ []) : Fit p := by
  obtain ⟨before, htext, hbefore⟩ := join_cases hs.relative hp
  refine ⟨hp, fun hmem => h.nul ?_, (size_join hs).le.trans h.size⟩
  rw [htext, List.mem_append, List.mem_cons]
  rcases hbefore with ⟨-, rfl⟩ | ⟨-, htext'⟩
  · exact .inl hmem
  · rw [htext', List.mem_append, List.mem_singleton] at hmem
    rcases hmem with hmem | hslash
    · exact .inl hmem
    · exact .inr (.inl hslash)

theorem start_ofNames (h : ∀ n ∈ names, IsStep n) : start (ofNames under names) = if under then top else home := by
  rw [start, isAbsolute_ofNames h]

theorem leadsTo_here (hsound : t.Sound) : t.LeadsTo (ofNames false []) home := by
  have hfit : Fit (ofNames false []) := ⟨by decide, by decide, by decide⟩
  refine leadsTo_iff.mpr ⟨.directory home, hfit.resolve nofun nofun ?_, rfl, hsound.base _ (by decide)⟩
  exact walk_here t true linkLimit home (by decide)

theorem enters (hsound : t.Sound) (hnames : ∀ n ∈ pre ++ [s], IsStep n)
    (h : t.resolve follow (ofNames under (pre ++ [s])) = .ok target) (htarget : ∀ d s, target ≠ .vacant d s) :
    ∃ d, t.LeadsTo (ofNames under pre) d ∧ t.Shows d s := by
  have hpre : ∀ n ∈ pre, IsStep n := fun n hn => hnames n (List.mem_append_left _ hn)
  have hs : IsStep s := hnames s (by simp)
  have hdir : t.isDirectoryNode (if under then top else home) = true := by
    split <;> exact hsound.base _ (by decide)
  obtain ⟨hwalk, -⟩ := walk_of_resolve h
  rw [endsWithSlash_ofNames hnames (by simp), Bool.or_false, start_ofNames hnames,
    parts_ofNames hnames (.inr (by simp))] at hwalk
  obtain ⟨d, target', hleads, harrives, hfound⟩ :=
    (leads_of_walk hwalk).of_snoc hsound hs.here hdir htarget
  refine ⟨d, ?_, hfound⟩
  by_cases hnolink : under = true ∨ pre ≠ []
  · have hjoin := join_ofNames hpre hs hnolink
    have hfit : Fit (ofNames under pre) := (hjoin ▸ fit_of_resolve h).of_join hs (text_ne_nil hpre)
    refine leadsTo_iff.mpr ⟨target', hfit.resolve (fun _ => rfl) ?_ ?_, harrives⟩
    · rintro - i e rfl
      obtain ⟨rfl, hd⟩ := harrives
      exact hd
    · rw [start_ofNames hpre, parts_ofNames hpre hnolink]
      exact hleads.walk
  · rw [not_or, Bool.not_eq_true, not_not] at hnolink
    obtain ⟨rfl, rfl⟩ := hnolink
    cases hleads
    obtain ⟨rfl, -⟩ := harrives
    exact leadsTo_here hsound

/-- All directories on the way lead on to the next part. -/
def Runs (t : FileTree) (under : Bool) (names : List String) : Prop :=
  ∀ pre s behind, names = pre ++ s :: behind → ∃ d, t.LeadsTo (ofNames under pre) d ∧ t.Shows d s

theorem runs_nil (t : FileTree) (under : Bool) : t.Runs under [] := by
  intro pre s behind h
  simp at h

theorem Runs.snoc (h : t.Runs under pre) (hs : ∃ d, t.LeadsTo (ofNames under pre) d ∧ t.Shows d s) :
    t.Runs under (pre ++ [s]) := by
  intro front w behind hall
  by_cases hbehind : behind = []
  · subst hbehind
    obtain ⟨rfl, hw⟩ := List.append_inj' hall rfl
    obtain rfl := (List.cons.inj hw).1
    exact hs
  · obtain ⟨init, v, rfl⟩ := (List.eq_nil_or_concat' behind).resolve_left hbehind
    rw [← List.cons_append, ← List.append_assoc] at hall
    obtain ⟨rfl, -⟩ := List.append_inj' hall rfl
    exact h front w init rfl

theorem runs_of_resolve (hsound : t.Sound) (hnames : ∀ n ∈ names, IsStep n) (hne : names ≠ [])
    (h : t.resolve follow (ofNames under names) = .ok target) (htarget : ∀ d s, target ≠ .vacant d s) :
    t.Runs under names := by
  induction names using List.reverseRecOn generalizing follow target with
  | nil => exact absurd rfl hne
  | append_singleton pre s ih =>
      have hs := enters hsound hnames h htarget
      refine Runs.snoc ?_ hs
      by_cases hpre : pre = []
      · rw [hpre]
        exact runs_nil t under
      · obtain ⟨d, hd, -⟩ := hs
        obtain ⟨target', htarget', harrives⟩ := leadsTo_iff.mp hd
        refine ih (fun n hn => hnames n (List.mem_append_left _ hn)) hpre htarget' ?_
        rintro d s rfl
        exact harrives

/-- A path of names stands in a tree only if all directories on its way lead on. -/
theorem Stands.runs (h : t.Stands (ofNames under names)) (hsound : t.Sound) (hnames : ∀ n ∈ names, IsStep n) :
    t.Runs under names := by
  by_cases hne : names = []
  · rw [hne]
    exact runs_nil t under
  · obtain ⟨target, htarget, hvacant⟩ := stands_iff.mp h
    exact runs_of_resolve hsound hnames hne htarget hvacant

end FileTree

end LogTail
