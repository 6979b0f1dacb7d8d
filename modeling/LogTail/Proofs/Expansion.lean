import LogTail.Proofs.Coverage
import LogTail.Proofs.Presence

namespace LogTail.Glob

open FileTree LogTail.Path Pattern

variable {t : FileTree} {mustBeDir : Bool} {fuel d : Nat} {q : Pattern} {ps : List Pattern} {p c r : Path} {name : String}

def Child (t : FileTree) (p c : Path) : Prop :=
  ∃ d name, t.LeadsTo p d ∧ name ∈ t.names d ∧ c = (Spot.ofPath t p).step name

def Next (t : FileTree) (p : Path) (name : String) : Prop :=
  if name = "." ∨ name = ".." then t.isDirectory p = true else t.Stands ((Spot.ofPath t p).step name)

theorem next_iff : ((decide (name = ".") || decide (name = "..")) && t.isDirectory p ||
    !(decide (name = ".") || decide (name = "..")) && Spot.present t ((Spot.ofPath t p).step name)) = true ↔
      Next t p name := by
  rw [Next, Stands, ← Bool.decide_or]
  by_cases hdots : name = "." ∨ name = ".."
  · rw [decide_eq_true hdots, if_pos hdots, Bool.true_and, Bool.not_true, Bool.false_and, Bool.or_false]
  · rw [decide_eq_false hdots, if_neg hdots, Bool.false_and, Bool.not_false, Bool.true_and, Bool.false_or]

/-- From a path components lead to another one. -/
inductive Comes (t : FileTree) : List Pattern → Path → Path → Prop
  | here (p : Path) : Comes t [] p p
  | literal {q : Pattern} {ps : List Pattern} {cs : List Char} {p r : Path} (hq : q.literal? = some cs)
      (hnext : Next t p (String.ofList cs)) (h : Comes t ps ((Spot.ofPath t p).step (String.ofList cs)) r) :
      Comes t (q :: ps) p r
  | dots {q : Pattern} {ps : List Pattern} {name : String} {p r : Path} (hq : q.literal? = none)
      (hdir : t.isDirectory p = true) (hname : name ∈ dots q) (h : Comes t ps (p.join ⟨name⟩) r) : Comes t (q :: ps) p r
  | child {q : Pattern} {ps : List Pattern} {name : String} {p c r : Path} (hq : q.literal? = none)
      (hrec : q.isRecursive = false) (hc : Child t p c) (hname : c.fileName? = some name)
      (haccepts : q.accepts name = true) (h : Comes t ps c r) : Comes t (q :: ps) p r
  | skip {q q' : Pattern} {ps qs : List Pattern} {name : String} {p c r : Path} (hrec : q.isRecursive = true)
      (hafter : afterRecursive ps = q' :: qs) (hc : Child t p c) (hname : c.fileName? = some name)
      (haccepts : q'.accepts name = true) (h : Comes t qs c r) : Comes t (q :: ps) p r
  | deep {q : Pattern} {ps : List Pattern} {p c r : Path} (hrec : q.isRecursive = true) (hc : Child t p c)
      (hdir : t.isDirectory c = true) (h : Comes t (q :: afterRecursive ps) c r) : Comes t (q :: ps) p r
  | under {q : Pattern} {ps : List Pattern} {p c : Path} (hrec : q.isRecursive = true) (hafter : afterRecursive ps = [])
      (hc : Child t p c) (hdir : t.isDirectory c = true) : Comes t (q :: ps) p c

structure Found (t : FileTree) (mustBeDir : Bool) (ps : List Pattern) (p r : Path) : Prop where
  comes : Comes t ps p r
  dir : mustBeDir = true → t.isDirectory r = true

theorem mem_result (h : r ∈ result mustBeDir (Spot.ofPath t p)) : Found t mustBeDir [] p r := by
  rw [result] at h
  split at h
  · cases h
  · next hdir =>
      obtain rfl := List.mem_singleton.mp h
      refine ⟨.here _, ?_⟩
      rintro rfl
      simpa [Spot.ofPath] using hdir

theorem mem_children {s : Spot} (hdir : t.isDirectory p = true) (h : s ∈ (Spot.ofPath t p).children t) :
    ∃ c, s = Spot.ofPath t c ∧ Child t p c := by
  rw [Spot.children] at h
  split at h
  · cases h
  · next d hd =>
      obtain ⟨name, hname, rfl⟩ := List.mem_map.mp h
      obtain ⟨d', hd', hnode⟩ := isDirectory_iff.mp hdir
      obtain rfl : d = d' := Except.ok.inj (hd.symm.trans hd')
      exact ⟨_, rfl, d, name, ⟨hd, hnode⟩, Sort.mem_sort.mp hname, rfl⟩

theorem mem_atSpot (hrest : ∀ ps p r, r ∈ below t mustBeDir fuel ps (Spot.ofPath t p) → Found t mustBeDir ps p r)
    (hnamed : ∀ q ps c r, r ∈ named t mustBeDir fuel q ps (Spot.ofPath t c) →
      ∃ name, c.fileName? = some name ∧ q.accepts name = true ∧ Found t mustBeDir ps c r)
    (hq : q.literal? = none) (hc : Child t p c) (h : r ∈ atSpot t mustBeDir (fuel + 1) (q :: ps) (Spot.ofPath t c)) :
    Found t mustBeDir (q :: ps) p r := by
  have hdeep (hrec : q.isRecursive = true) (hdir : (Spot.ofPath t c).isDir = true)
      (hr : r ∈ below t mustBeDir fuel (q :: afterRecursive ps) (Spot.ofPath t c)) : Found t mustBeDir (q :: ps) p r := by
    obtain ⟨hcomes, hmust⟩ := hrest _ _ _ hr
    exact ⟨.deep hrec hc hdir hcomes, hmust⟩
  rw [atSpot] at h
  split at h
  · next hrec =>
      split at h
      · next hafter =>
          split at h
          · next hdir =>
              rcases List.mem_cons.mp h with rfl | h
              · exact ⟨.under hrec hafter hc hdir, fun _ => hdir⟩
              · exact hdeep hrec hdir (by rwa [hafter])
          · cases h
      · next q' qs hafter =>
          rcases List.mem_append.mp h with h | h
          · obtain ⟨name, hname, haccepts, hcomes, hmust⟩ := hnamed _ _ _ _ h
            exact ⟨.skip hrec hafter hc hname haccepts hcomes, hmust⟩
          · split at h
            · next hdir => exact hdeep hrec hdir (by rwa [hafter])
            · cases h
  · next hrec =>
      obtain ⟨name, hname, haccepts, hcomes, hmust⟩ := hnamed _ _ _ _ h
      exact ⟨.child hq (Bool.eq_false_iff.mpr hrec) hc hname haccepts hcomes, hmust⟩

theorem mem_below (hreached : ∀ ps p r, r ∈ reached t mustBeDir fuel ps (Spot.ofPath t p) → Found t mustBeDir ps p r)
    (hatSpot : ∀ q ps p c r, q.literal? = none → Child t p c → r ∈ atSpot t mustBeDir fuel (q :: ps) (Spot.ofPath t c) →
      Found t mustBeDir (q :: ps) p r)
    (h : r ∈ below t mustBeDir (fuel + 1) (q :: ps) (Spot.ofPath t p)) : Found t mustBeDir (q :: ps) p r := by
  rw [below] at h
  split at h
  · next cs hq =>
      dsimp only at h
      split at h
      · next hnext =>
          obtain ⟨hcomes, hmust⟩ := hreached _ _ _ h
          exact ⟨.literal hq (next_iff.mp hnext) hcomes, hmust⟩
      · cases h
  · next hq =>
      split at h
      · next hdir =>
          rcases List.mem_append.mp h with h | h
          · obtain ⟨name, hname, h⟩ := List.mem_flatMap.mp h
            obtain ⟨hcomes, hmust⟩ := hreached _ _ _ h
            exact ⟨.dots hq hdir hname hcomes, hmust⟩
          · obtain ⟨s, hs, h⟩ := List.mem_flatMap.mp h
            obtain ⟨c, rfl, hc⟩ := mem_children hdir hs
            exact hatSpot _ _ _ _ _ hq hc h
      · cases h

theorem found_of_mem (mustBeDir : Bool) (fuel : Nat) :
    (∀ ps p r, r ∈ below t mustBeDir fuel ps (Spot.ofPath t p) → Found t mustBeDir ps p r) ∧
      (∀ ps p r, r ∈ reached t mustBeDir fuel ps (Spot.ofPath t p) → Found t mustBeDir ps p r) ∧
      (∀ q ps p c r, q.literal? = none → Child t p c → r ∈ atSpot t mustBeDir fuel (q :: ps) (Spot.ofPath t c) →
        Found t mustBeDir (q :: ps) p r) ∧
      ∀ q ps c r, r ∈ named t mustBeDir fuel q ps (Spot.ofPath t c) →
        ∃ name, c.fileName? = some name ∧ q.accepts name = true ∧ Found t mustBeDir ps c r := by
  induction fuel with
  | zero =>
      refine ⟨fun ps p r h => ?_, fun ps p r h => ?_, fun q ps p c r _ _ h => ?_, fun q ps c r h => ?_⟩
      · rw [below] at h
        cases h
      · rw [reached] at h
        cases h
      · rw [atSpot] at h
        cases h
      · rw [named] at h
        cases h
  | succ fuel ih =>
      obtain ⟨hbelow, hreached, hatSpot, hnamed⟩ := ih
      refine ⟨?_, ?_, ?_, ?_⟩
      · intro ps p r h
        cases ps with
        | nil =>
            rw [below] at h
            cases h
        | cons q ps => exact mem_below hreached hatSpot h
      · intro ps p r h
        cases ps with
        | nil =>
            rw [reached] at h
            exact mem_result h
        | cons q ps =>
            rw [reached] at h
            exact hbelow _ _ _ h
      · exact fun q ps p c r hq hc h => mem_atSpot hbelow hnamed hq hc h
      · intro q ps c r h
        rw [named.eq_def] at h
        dsimp only at h
        split at h
        · cases h
        · next name hname =>
            split at h
            · next haccepts =>
                refine ⟨name, hname, haccepts, ?_⟩
                cases ps with
                | nil => exact mem_result h
                | cons q' qs => exact hbelow _ _ _ h
            · cases h

variable {top under : Bool} {pre names ns : List String} {cs : List Char} {n : String}

theorem step_ofNames (hpre : ∀ n ∈ pre, IsStep n) (hn : IsStep n) :
    (Spot.ofPath t (ofNames top pre)).step n = ofNames top (pre ++ [n]) := by
  have hhere : (ofNames top pre).same ⟨"."⟩ = true ↔ top = false ∧ pre = [] := by
    rw [same_iff]
    constructor
    · intro h
      have h' : (ofNames top pre).components = (ofNames false []).components := h
      exact ofNames_inj hpre (by simp) h'
    · rintro ⟨rfl, rfl⟩
      rfl
  by_cases hnolink : top = true ∨ pre ≠ []
  · have hno : ¬ (ofNames top pre).same ⟨"."⟩ = true := by
      rw [hhere]
      rintro ⟨rfl, rfl⟩
      exact hnolink.elim nofun fun hnil => hnil rfl
    exact (if_neg hno).trans (join_ofNames hpre hn hnolink)
  · rw [not_or, Bool.not_eq_true, not_not] at hnolink
    obtain ⟨rfl, rfl⟩ := hnolink
    refine (if_pos (hhere.mpr ⟨rfl, rfl⟩)).trans (eq_of_text ?_)
    rw [List.nil_append, ofNames_relative (by simp), spell_singleton]

theorem proper_of_mem {d : Nat} (ht : t.Tidy) (h : name ∈ t.names d) : Proper name := by
  obtain ⟨e, he, rfl⟩ := List.mem_map.mp h
  obtain ⟨hmem, hlive⟩ := List.mem_filter.mp he
  rw [Bool.and_eq_true] at hlive
  exact ht.names e hmem hlive.1

theorem mem_dots (h : name ∈ dots q) : name = "." ∨ name = ".." := by
  rw [dots] at h
  split at h
  · simpa using (List.mem_filter.mp h).1
  · cases h

theorem accepts_dots (h : name ∈ dots q) : q.accepts name = true := by
  rw [dots] at h
  split at h
  · exact (List.mem_filter.mp h).2
  · cases h

theorem up_mem_step (hn : (Path.mk n).isAbsolute = false) (hp : p.text.toList ≠ [])
    (h : Component.up ∈ p.components ∨ n = "..") : Component.up ∈ ((Spot.ofPath t p).step n).components := by
  rw [Spot.step]
  split
  · next hhere =>
      obtain hup | rfl := h
      · have hsame : p.components = [.here] := same_iff.mp hhere
        simp [hsame] at hup
      · decide
  · exact up_mem_join hn hp h

theorem Comes.up (h : Comes t ps p r) (ht : t.Tidy) (hps : ∀ q ∈ ps, IsComponent q) (hup : Component.up ∈ p.components) :
    Component.up ∈ r.components := by
  have hchild {p c : Path} (hc : Child t p c) (hup : Component.up ∈ p.components) : Component.up ∈ c.components := by
    obtain ⟨d, n, -, hn, rfl⟩ := hc
    exact up_mem_step (proper_of_mem ht hn).relative (text_ne_nil_of_up hup) (.inl hup)
  induction h with
  | here => exact hup
  | @literal q ps cs p r hq _ _ ih =>
      have hslash := slash_of_literal (hps q List.mem_cons_self) hq
      refine ih (fun q hq => hps q (List.mem_cons_of_mem _ hq)) (up_mem_step ?_ (text_ne_nil_of_up hup) (.inl hup))
      refine relative_of_head fun hhead => hslash ?_
      rw [String.toList_ofList] at hhead
      exact List.mem_of_mem_head? hhead
  | @dots q ps name p r _ _ hname _ ih =>
      refine ih (fun q hq => hps q (List.mem_cons_of_mem _ hq)) (up_mem_join ?_ (text_ne_nil_of_up hup) (.inl hup))
      rcases mem_dots hname with rfl | rfl <;> rfl
  | child _ _ hc _ _ _ ih => exact ih (fun q hq => hps q (List.mem_cons_of_mem _ hq)) (hchild hc hup)
  | @skip q q' ps qs name p c r _ hafter hc _ _ _ ih =>
      refine ih (fun s hs => hps s (List.mem_cons_of_mem _ ((afterRecursive_sublist ps).mem ?_))) (hchild hc hup)
      rw [hafter]
      exact List.mem_cons_of_mem _ hs
  | @deep q ps p c r _ hc _ _ ih =>
      refine ih (fun s hs => hps s ?_) (hchild hc hup)
      exact ((afterRecursive_sublist ps).cons_cons q).mem hs
  | under _ _ hc => exact hchild hc hup

variable {climbs : Prop}

/-- Components that lead on each: none but the last stays in its directory, the last stands for a name, and on a way
that climbs none but the last goes up unless it says so itself. -/
inductive Advancing (climbs : Prop) : List Pattern → Prop
  | last {q : Pattern} (hq : IsComponent q ∧ q ≠ []) (hflat : q.isRecursive = false) : Advancing climbs [q]
  | cons {q : Pattern} {ps : List Pattern} (hq : IsComponent q ∧ q ≠ []) (hmoves : "." ∉ dots q)
      (hup : climbs → q.accepts ".." = true → q.literal? ≠ none) (h : Advancing climbs ps) : Advancing climbs (q :: ps)

theorem Advancing.components (h : Advancing climbs ps) : ∀ q ∈ ps, IsComponent q ∧ q ≠ [] := by
  induction h with
  | last hq _ => simpa using hq
  | cons hq _ _ _ ih => simpa using ⟨hq, ih⟩

theorem Advancing.afterRecursive (h : Advancing climbs ps) : Advancing climbs (afterRecursive ps) := by
  induction h with
  | @last q hq hflat =>
      rw [Glob.afterRecursive, if_neg (by simp [hflat])]
      exact .last hq hflat
  | cons hq hmoves hup h ih =>
      rw [Glob.afterRecursive]
      split
      · exact ih
      · exact .cons hq hmoves hup h

theorem Advancing.tail (h : Advancing climbs (q :: ps)) : ps = [] ∨ Advancing climbs ps := by
  cases h with
  | last => exact .inl rfl
  | cons _ _ _ h => exact .inr h

theorem Advancing.behind (h : Advancing climbs (q :: ps)) (hrec : q.isRecursive = true) :
    Advancing climbs (Glob.afterRecursive ps) := by
  cases h with
  | last _ hflat => simp [hrec] at hflat
  | cons _ _ _ h => exact h.afterRecursive

theorem Advancing.deep (h : Advancing climbs (q :: ps)) (hrec : q.isRecursive = true) :
    Advancing climbs (q :: Glob.afterRecursive ps) := by
  cases h with
  | last _ hflat => simp [hrec] at hflat
  | cons hq hmoves hup h => exact .cons hq hmoves hup h.afterRecursive

theorem advancing_of (hps : ∀ q ∈ ps, IsComponent q ∧ q ≠ []) (hlast : ∀ q, ps.getLast? = some q → q.isRecursive = false)
    (hmoves : ∀ q ∈ ps.dropLast, "." ∉ dots q)
    (hup : climbs → ∀ q ∈ ps.dropLast, q.accepts ".." = true → q.literal? ≠ none) (hne : ps ≠ []) :
    Advancing climbs ps := by
  induction ps with
  | nil => exact absurd rfl hne
  | cons q ps ih =>
      have hq := hps q List.mem_cons_self
      by_cases hnil : ps = []
      · subst hnil
        exact .last hq (hlast q rfl)
      · rw [List.dropLast_cons_of_ne_nil hnil] at hmoves hup
        refine .cons hq (hmoves q List.mem_cons_self) (fun hc => hup hc q List.mem_cons_self) (ih ?_ ?_ ?_ ?_ hnil)
        · exact fun p hp => hps p (List.mem_cons_of_mem _ hp)
        · intro p hp
          exact hlast p (by rw [List.getLast?_cons_of_ne_nil hnil, hp])
        · exact fun p hp => hmoves p (List.mem_cons_of_mem _ hp)
        · exact fun hc p hp => hup hc p (List.mem_cons_of_mem _ hp)

theorem components_step_here (hp : p.text.toList ≠ []) : ((Spot.ofPath t p).step ".").components = p.components := by
  rw [Spot.step]
  split
  · next hhere => exact (same_iff.mp hhere).symm
  · exact components_join_here hp

theorem here_mem_dots (hq : q.literal? = some cs) (hcs : String.ofList cs = ".") : "." ∈ dots q := by
  obtain rfl : cs = ['.'] := by rw [← String.toList_ofList (l := cs), hcs]; rfl
  rw [literal_iff.mp hq]
  decide

theorem Child.spelled (hc : Child t (ofNames top pre) c) (ht : t.Tidy) (hpre : ∀ n ∈ pre, IsStep n) :
    ∃ n, n ≠ ".." ∧ (∀ m ∈ pre ++ [n], IsStep m) ∧ c = ofNames top (pre ++ [n]) := by
  obtain ⟨d, n, -, hn, rfl⟩ := hc
  have hname := (proper_of_mem ht hn).toIsName
  refine ⟨n, hname.up, ?_, step_ofNames hpre hname.toIsStep⟩
  simpa [or_imp, forall_and] using ⟨hpre, hname.toIsStep⟩

theorem Comes.no_stay (h : Comes t [] p r) (hpre : ∀ n ∈ pre, IsStep n)
    (hp : p.components = (ofNames top pre).components) (hdir : t.isDirectory (ofNames top pre) = true)
    (hr : r.components = (ofNames under names).components) (hnames : ∀ n ∈ names, IsStep n) :
    t.isDirectory (ofNames under names) ≠ false := by
  cases h
  obtain ⟨rfl, rfl⟩ := ofNames_inj hpre hnames (hp.symm.trans hr)
  simp [hdir]

theorem laid_cons {qs : List Pattern} (h : under = top ∧ ∃ ns, names = pre ++ [n] ++ ns ∧ Laid qs ns)
    (hcovers : ∀ ns, Laid qs ns → Covers (q :: ps) (n :: ns)) :
    under = top ∧ ∃ ns, names = pre ++ ns ∧ Laid (q :: ps) ns := by
  obtain ⟨rfl, ns, rfl, hns⟩ := h
  exact ⟨rfl, n :: ns, by simp, .inr (hcovers ns hns)⟩

theorem Comes.laid (h : Comes t ps p r) (ht : t.Tidy) (hps : ps = [] ∨ Advancing (".." ∈ names) ps)
    (hpre : ∀ n ∈ pre, IsStep n) (hp : p = ofNames top pre)
    (hr : r.components = (ofNames under names).components) (hnames : ∀ n ∈ names, IsStep n)
    (hfile : t.isDirectory (ofNames under names) = false) (hend : (ofNames under names).fileName? ≠ none) :
    under = top ∧ ∃ ns, names = pre ++ ns ∧ Laid ps ns := by
  induction h generalizing pre with
  | here =>
      subst hp
      obtain ⟨rfl, rfl⟩ := ofNames_inj hpre hnames hr
      exact ⟨rfl, [], by simp, .inl ⟨rfl, rfl⟩⟩
  | @literal q ps cs p r hq hnext h ih =>
      subst hp
      have hadvancing := hps.resolve_left (List.cons_ne_nil q ps)
      obtain ⟨hcomponent, hqne⟩ := hadvancing.components q List.mem_cons_self
      by_cases hhere : String.ofList cs = "."
      · rw [Next, if_pos (.inl hhere)] at hnext
        cases hadvancing with
        | last =>
            rw [hhere] at h
            exact absurd hfile (h.no_stay hpre (components_step_here (text_ne_nil hpre)) hnext hr hnames)
        | cons _ hmoves => exact absurd (here_mem_dots hq hhere) hmoves
      · have hstep : IsStep (String.ofList cs) := by
          refine ⟨?_, ?_, hhere⟩
          · intro hempty
            rw [String.ofList_eq_empty_iff] at hempty
            refine hqne ?_
            rw [literal_iff.mp hq, hempty, List.map_nil]
          · rw [String.toList_ofList]
            exact slash_of_literal hcomponent hq
        have hall : ∀ m ∈ pre ++ [String.ofList cs], IsStep m := by
          simpa [or_imp, forall_and] using ⟨hpre, hstep⟩
        refine laid_cons (ih hadvancing.tail hall (step_ofNames hpre hstep) hr) fun ns hns => ?_
        exact hns.covers (flat_of_literal hq) ((accepts_literal hcomponent hq).mpr rfl)
  | @dots q ps name p r hq hdir hname h ih =>
      subst hp
      rcases mem_dots hname with rfl | rfl
      · cases hps.resolve_left (List.cons_ne_nil q ps) with
        | last => exact absurd hfile (h.no_stay hpre (components_join_here (text_ne_nil hpre)) hdir hr hnames)
        | cons _ hmoves => exact absurd hname hmoves
      · have hup := up_mem_join (s := "..") (p := ofNames top pre) rfl (text_ne_nil hpre) (.inr rfl)
        cases hps.resolve_left (List.cons_ne_nil q ps) with
        | last =>
            cases h
            refine absurd ?_ hend
            rw [← fileName_congr hr]
            refine fileName_up ?_
            rw [parts_join rfl (text_ne_nil hpre), parts_name isStep_up]
            simp
        | cons _ _ hclimbs hrest =>
            have hmem := h.up ht (fun q hq => (hrest.components q hq).1) hup
            rw [hr, up_mem_ofNames hnames] at hmem
            exact absurd hq (hclimbs hmem (accepts_dots hname))
  | @child q ps name p c r hq hrec hc hname haccepts h ih =>
      subst hp
      obtain ⟨n, hn, hall, rfl⟩ := hc.spelled ht hpre
      rw [fileName_ofNames hall hn] at hname
      obtain rfl := Option.some.inj hname
      have hadvancing := hps.resolve_left (List.cons_ne_nil q ps)
      exact laid_cons (ih hadvancing.tail hall rfl hr) fun ns hns => hns.covers hrec haccepts
  | @skip q q' ps qs name p c r hrec hafter hc hname haccepts h ih =>
      subst hp
      obtain ⟨n, hn, hall, rfl⟩ := hc.spelled ht hpre
      rw [fileName_ofNames hall hn] at hname
      obtain rfl := Option.some.inj hname
      have hbehind := (hps.resolve_left (List.cons_ne_nil q ps)).behind hrec
      rw [hafter] at hbehind
      refine laid_cons (ih hbehind.tail hall rfl hr) fun ns hns => .here hrec ?_
      rw [hafter]
      exact hns.covers (afterRecursive_flat hafter) haccepts
  | @deep q ps p c r hrec hc hdir h ih =>
      subst hp
      obtain ⟨n, -, hall, rfl⟩ := hc.spelled ht hpre
      have hdeep := (hps.resolve_left (List.cons_ne_nil q ps)).deep hrec
      refine laid_cons (ih (.inr hdeep) hall rfl hr) fun ns hns => .deep hrec ?_
      have hcovers := hns.resolve_left fun hnil => List.cons_ne_nil _ _ hnil.1
      rwa [covers_recursive hrec, afterRecursive_twice, ← covers_recursive hrec] at hcovers
  | @under q ps p c hrec hafter hc hdir =>
      have hbehind := (hps.resolve_left (List.cons_ne_nil q ps)).behind hrec
      rw [hafter] at hbehind
      cases hbehind

def EndsInDots (r : Path) : Prop := ∃ s, r.parts.getLast? = some s ∧ (s = "." ∨ s = "..")

theorem text_step_ne_nil (hp : p.text.toList ≠ []) (hn : (Path.mk n).isAbsolute = false) (hne : n ≠ "") :
    ((Spot.ofPath t p).step n).text.toList ≠ [] := by
  rw [Spot.step]
  split
  · simpa using hne
  · obtain ⟨before, htext, -⟩ := join_cases (p := (Spot.ofPath t p).path) hn hp
    simp [htext]

theorem endsInDots_join (hp : p.text.toList ≠ []) (hn : n = "." ∨ n = "..") : EndsInDots (p.join ⟨n⟩) := by
  have hparts : (Path.mk n).isAbsolute = false ∧ (Path.mk n).parts = [n] := by
    rcases hn with rfl | rfl <;> decide
  refine ⟨n, ?_, hn⟩
  rw [parts_join hparts.1 hp, hparts.2]
  simp

theorem endsInDots_step (hp : p.text.toList ≠ []) (hn : n = "." ∨ n = "..") :
    EndsInDots ((Spot.ofPath t p).step n) := by
  rw [Spot.step]
  split
  · refine ⟨n, ?_, hn⟩
    rcases hn with rfl | rfl <;> decide
  · exact endsInDots_join hp hn

theorem endsInDots_ne_nil (h : EndsInDots p) : p.text.toList ≠ [] := by
  obtain ⟨s, hs, -⟩ := h
  intro hnil
  rw [parts, hnil] at hs
  cases hs

theorem Child.stands (hc : Child t p c) (ht : t.Tidy) (hsize : c.text.utf8ByteSize ≤ pathLimit) : t.Stands c := by
  obtain ⟨d, n, hp, hn, rfl⟩ := hc
  exact hp.stands_step (proper_of_mem ht hn) hn hsize

theorem Child.text_ne_nil (hc : Child t p c) (ht : t.Tidy) : c.text.toList ≠ [] := by
  obtain ⟨d, n, hp, hn, rfl⟩ := hc
  have hname := (proper_of_mem ht hn).toIsName
  exact text_step_ne_nil hp.fit.nonempty hname.relative hname.nonempty

theorem Next.cases (h : Next t p n) (hp : p.text.toList ≠ []) :
    EndsInDots ((Spot.ofPath t p).step n) ∨ t.Stands ((Spot.ofPath t p).step n) := by
  rw [Next] at h
  split at h
  · next hdots => exact .inl (endsInDots_step hp hdots)
  · exact .inr h

theorem stands_ne_nil (h : t.Stands p) : p.text.toList ≠ [] := by
  obtain ⟨target, htarget, -⟩ := stands_iff.mp h
  exact (fit_of_resolve htarget).nonempty

theorem Comes.stands (h : Comes t ps p r) (ht : t.Tidy) (hp : p.text.toList ≠ [])
    (hsize : r.text.utf8ByteSize ≤ pathLimit) : r = p ∨ EndsInDots r ∨ t.Stands r := by
  induction h with
  | here => exact .inl rfl
  | literal hq hnext h ih =>
      have hcases := hnext.cases hp
      have hne := hcases.elim endsInDots_ne_nil stands_ne_nil
      rcases ih hne hsize with rfl | h
      · exact .inr hcases
      · exact .inr h
  | dots hq hdir hname h ih =>
      have hdots := endsInDots_join hp (mem_dots hname)
      rcases ih (endsInDots_ne_nil hdots) hsize with rfl | h
      · exact .inr (.inl hdots)
      · exact .inr h
  | child _ _ hc _ _ h ih | skip _ _ hc _ _ h ih | deep _ hc _ h ih =>
      rcases ih (hc.text_ne_nil ht) hsize with rfl | h
      · exact .inr (.inr (hc.stands ht hsize))
      · exact .inr h
  | under _ _ hc => exact .inr (.inr (hc.stands ht hsize))

theorem Comes.stands_ofNames (h : Comes t ps (ofNames top []) (ofNames under names)) (ht : t.Tidy)
    (hnames : ∀ n ∈ names, IsStep n) (hend : (ofNames under names).fileName? ≠ none)
    (hsize : (ofNames under names).text.utf8ByteSize ≤ pathLimit) : t.Stands (ofNames under names) := by
  have hne := ne_nil_of_fileName hend
  rcases h.stands ht (text_ne_nil (by simp)) hsize with heq | ⟨s, hs, hdots⟩ | h
  · exact absurd (ofNames_inj hnames (by simp) (congrArg Path.components heq)).2 hne
  · rcases hdots with rfl | rfl
    · rw [parts_ofNames hnames (.inr hne)] at hs
      exact absurd rfl (hnames _ (List.mem_of_getLast? hs)).here
    · exact absurd (fileName_up hs) hend
  · exact h

theorem named_accepted (hname : c.fileName? = some name) (haccepts : q.accepts name = true) :
    named t mustBeDir (fuel + 1) q ps (Spot.ofPath t c) = reached t mustBeDir (fuel + 1) ps (Spot.ofPath t c) := by
  have hname' : (Spot.ofPath t c).path.fileName? = some name := hname
  cases ps with
  | nil => simp only [named, reached, hname', haccepts, if_true]
  | cons q' qs => simp only [named, reached, hname', haccepts, if_true]

theorem next_of_shows (ht : t.Tidy) (hp : t.LeadsTo p d) (h : t.Shows d n)
    (hsize : ((Spot.ofPath t p).step n).text.utf8ByteSize ≤ pathLimit) : Next t p n := by
  rw [Next]
  split
  · exact isDirectory_iff.mpr ⟨d, hp⟩
  · next hdots =>
      have hn := h.resolve_left fun hup => hdots (.inr hup)
      exact hp.stands_step (proper_of_mem ht hn) hn hsize

theorem below_literal (hq : q.literal? = some cs) (hnext : Next t p (String.ofList cs))
    (h : r ∈ reached t mustBeDir fuel ps (Spot.ofPath t ((Spot.ofPath t p).step (String.ofList cs)))) :
    r ∈ below t mustBeDir (fuel + 1) (q :: ps) (Spot.ofPath t p) := by
  simp only [below, hq]
  rw [if_pos]
  · exact h
  · exact next_iff.mpr hnext

theorem below_child (hq : q.literal? = none) (hp : t.LeadsTo p d) (hn : n ∈ t.names d)
    (h : r ∈ atSpot t mustBeDir fuel (q :: ps) (Spot.ofPath t ((Spot.ofPath t p).step n))) :
    r ∈ below t mustBeDir (fuel + 1) (q :: ps) (Spot.ofPath t p) := by
  have hlocate : t.locate (Spot.ofPath t p).path = .ok d := hp.1
  have hdir : (Spot.ofPath t p).isDir = true := isDirectory_iff.mpr ⟨d, hp⟩
  have hchild : Spot.ofPath t ((Spot.ofPath t p).step n) ∈ (Spot.ofPath t p).children t := by
    rw [Spot.children, hlocate]
    exact List.mem_map_of_mem (Sort.mem_sort.mpr hn)
  simp only [below, hq, hdir, if_true]
  exact List.mem_append_right _ (List.mem_flatMap.mpr ⟨_, hchild, h⟩)

theorem atSpot_flat (hrec : q.isRecursive = false) (hname : c.fileName? = some n) (haccepts : q.accepts n = true)
    (h : r ∈ reached t mustBeDir (fuel + 1) ps (Spot.ofPath t c)) :
    r ∈ atSpot t mustBeDir (fuel + 2) (q :: ps) (Spot.ofPath t c) := by
  rw [atSpot, if_neg (by simp [hrec]), named_accepted hname haccepts]
  exact h

theorem atSpot_skip {q' : Pattern} {qs : List Pattern} (hrec : q.isRecursive = true) (hafter : afterRecursive ps = q' :: qs)
    (hname : c.fileName? = some n) (haccepts : q'.accepts n = true)
    (h : r ∈ reached t mustBeDir (fuel + 1) qs (Spot.ofPath t c)) :
    r ∈ atSpot t mustBeDir (fuel + 2) (q :: ps) (Spot.ofPath t c) := by
  rw [atSpot, if_pos hrec, hafter]
  refine List.mem_append_left _ ?_
  rw [named_accepted hname haccepts]
  exact h

theorem atSpot_deep (hrec : q.isRecursive = true) (hafter : afterRecursive ps ≠ []) (hdir : t.isDirectory c = true)
    (h : r ∈ below t mustBeDir fuel (q :: afterRecursive ps) (Spot.ofPath t c)) :
    r ∈ atSpot t mustBeDir (fuel + 1) (q :: ps) (Spot.ofPath t c) := by
  have hdir' : (Spot.ofPath t c).isDir = true := hdir
  obtain ⟨q', qs, hqs⟩ := List.exists_cons_of_ne_nil hafter
  rw [hqs] at h
  rw [atSpot, if_pos hrec, hqs]
  dsimp only
  rw [if_pos hdir']
  exact List.mem_append_right _ h

theorem Advancing.no_up (h : Advancing climbs (q :: ps)) (hcovers : Covers (q :: ps) (n :: ns)) (hq : q.literal? = none)
    (hend : (n :: ns).getLast? ≠ some "..") (hclimbs : n = ".." → climbs) : n ≠ ".." := by
  rintro rfl
  cases h with
  | last _ hflat =>
      obtain ⟨-, ⟨-, rfl⟩ | hlaid⟩ := (covers_flat hflat).mp hcovers
      · exact hend rfl
      · exact hlaid.patterns_ne_nil rfl
  | cons hcomponent _ hup =>
      refine hup (hclimbs rfl) ?_ hq
      cases hrec : q.isRecursive with
      | false => exact ((covers_flat hrec).mp hcovers).1
      | true =>
          rw [hcomponent.1.recursive hrec]
          rfl

structure Further (t : FileTree) (top : Bool) (pre : List String) (n : String) (d : Nat) : Prop where
  leads : t.LeadsTo (ofNames top pre) d
  leadsOn : t.Shows d n
  steps : ∀ m ∈ pre ++ [n], IsStep m
  size : (ofNames top (pre ++ [n])).text.utf8ByteSize ≤ pathLimit

theorem Further.step (h : Further t top pre n d) :
    (Spot.ofPath t (ofNames top pre)).step n = ofNames top (pre ++ [n]) :=
  step_ofNames (fun m hm => h.steps m (List.mem_append_left _ hm)) (h.steps n (by simp))

theorem Further.below_flat (h : Further t top pre n d) (ht : t.Tidy) (hq : IsComponent q) (hrec : q.isRecursive = false)
    (haccepts : q.accepts n = true) (hup : q.literal? = none → n ≠ "..")
    (hr : ∀ f, fuel ≤ f → r ∈ reached t mustBeDir (f + 1) ps (Spot.ofPath t (ofNames top (pre ++ [n])))) :
    r ∈ below t mustBeDir (fuel + 3) (q :: ps) (Spot.ofPath t (ofNames top pre)) := by
  cases hliteral : q.literal? with
  | some cs =>
      obtain rfl := (accepts_literal hq hliteral).mp haccepts
      refine below_literal hliteral (next_of_shows ht h.leads h.leadsOn ?_) ?_
      · rw [h.step]
        exact h.size
      · rw [h.step]
        exact hr (fuel + 1) (Nat.le_succ fuel)
  | none =>
      have hup := hup hliteral
      refine below_child hliteral h.leads (h.leadsOn.resolve_left hup) ?_
      rw [h.step]
      exact atSpot_flat hrec (fileName_ofNames h.steps hup) haccepts (hr fuel le_rfl)

theorem Further.below_skip {q' : Pattern} {qs : List Pattern} (h : Further t top pre n d) (hrec : q.isRecursive = true)
    (hup : n ≠ "..") (hafter : afterRecursive ps = q' :: qs) (haccepts : q'.accepts n = true)
    (hr : r ∈ reached t mustBeDir (fuel + 1) qs (Spot.ofPath t (ofNames top (pre ++ [n])))) :
    r ∈ below t mustBeDir (fuel + 3) (q :: ps) (Spot.ofPath t (ofNames top pre)) := by
  refine below_child (literal_of_recursive hrec) h.leads (h.leadsOn.resolve_left hup) ?_
  rw [h.step]
  exact atSpot_skip hrec hafter (fileName_ofNames h.steps hup) haccepts hr

theorem Further.below_deep (h : Further t top pre n d) (hrec : q.isRecursive = true) (hup : n ≠ "..")
    (hafter : afterRecursive ps ≠ []) (hdir : t.isDirectory (ofNames top (pre ++ [n])) = true)
    (hr : r ∈ below t mustBeDir fuel (q :: afterRecursive ps) (Spot.ofPath t (ofNames top (pre ++ [n])))) :
    r ∈ below t mustBeDir (fuel + 2) (q :: ps) (Spot.ofPath t (ofNames top pre)) := by
  refine below_child (literal_of_recursive hrec) h.leads (h.leadsOn.resolve_left hup) ?_
  rw [h.step]
  exact atSpot_deep hrec hafter hdir hr

theorem below_of_covers (ht : t.Tidy) (hps : Advancing climbs ps) (h : Covers ps ns)
    (hall : ∀ n ∈ pre ++ ns, IsStep n) (hruns : t.Runs top (pre ++ ns)) (hend : ns.getLast? ≠ some "..")
    (hclimbs : ".." ∈ ns → climbs) (hsize : (ofNames top (pre ++ ns)).text.utf8ByteSize ≤ pathLimit)
    (hfuel : 3 * ns.length ≤ fuel) :
    ofNames top (pre ++ ns) ∈ below t false fuel ps (Spot.ofPath t (ofNames top pre)) := by
  induction ns generalizing pre ps fuel with
  | nil => exact absurd rfl h.names_ne_nil
  | cons n ns ih =>
      -- a name takes three steps at most: below a directory, at what it shows, and at the name of that
      obtain ⟨fuel, rfl⟩ : ∃ f, fuel = f + 3 := ⟨fuel - 3, by simp at hfuel; omega⟩
      have hns : 3 * ns.length ≤ fuel := by simp at hfuel; omega
      obtain ⟨q, ps, rfl⟩ := List.exists_cons_of_ne_nil h.patterns_ne_nil
      obtain ⟨d, hd, hshows⟩ := hruns pre n ns rfl
      rw [List.append_cons] at hall hruns hsize ⊢
      have hfurther : Further t top pre n d :=
        ⟨hd, hshows, fun m hm => hall m (List.mem_append_left _ hm), (size_ofNames hall (by simp)).trans hsize⟩
      have hrest {qs : List Pattern} {f : Nat} (hqs : Advancing climbs qs) (hcovers : Covers qs ns) (hf : fuel ≤ f) :
          ofNames top (pre ++ [n] ++ ns) ∈ below t false f qs (Spot.ofPath t (ofNames top (pre ++ [n]))) := by
        refine ih hqs hcovers hall hruns ?_ (fun hmem => hclimbs (List.mem_cons_of_mem _ hmem)) hsize (hns.trans hf)
        rwa [List.getLast?_cons_of_ne_nil hcovers.names_ne_nil] at hend
      have hreached {qs : List Pattern} {f : Nat} (hqs : qs = [] ∨ Advancing climbs qs) (hlaid : Laid qs ns)
          (hf : fuel ≤ f) : ofNames top (pre ++ [n] ++ ns) ∈
            reached t false (f + 1) qs (Spot.ofPath t (ofNames top (pre ++ [n]))) := by
        rcases hlaid with ⟨rfl, rfl⟩ | hcovers
        · rw [reached, List.append_nil]
          exact List.mem_singleton_self _
        · obtain ⟨q, qs, rfl⟩ := List.exists_cons_of_ne_nil hcovers.patterns_ne_nil
          rw [reached]
          exact hrest (hqs.resolve_left (List.cons_ne_nil q qs)) hcovers hf
      have hup (hliteral : q.literal? = none) : n ≠ ".." :=
        hps.no_up h hliteral hend fun hn => hclimbs (hn ▸ List.mem_cons_self)
      cases hrec : q.isRecursive with
      | false =>
          obtain ⟨haccepts, hlaid⟩ := (covers_flat hrec).mp h
          have hq := (hps.components q List.mem_cons_self).1
          exact hfurther.below_flat ht hq hrec haccepts hup fun f hf => hreached hps.tail hlaid hf
      | true =>
          have hname := hup (literal_of_recursive hrec)
          obtain ⟨a, b, hab, hcovers⟩ := (covers_recursive hrec).mp h
          cases a with
          | nil =>
              obtain rfl : b = n :: ns := hab.symm
              obtain ⟨q', qs, hqs⟩ := List.exists_cons_of_ne_nil hcovers.patterns_ne_nil
              have hbehind := hps.behind hrec
              rw [hqs] at hcovers hbehind
              obtain ⟨haccepts, hlaid⟩ := (covers_flat (afterRecursive_flat hqs)).mp hcovers
              exact hfurther.below_skip hrec hname hqs haccepts (hreached hbehind.tail hlaid le_rfl)
          | cons m a =>
              have hbehind : Covers (q :: afterRecursive ps) ns := by
                rw [covers_recursive hrec, afterRecursive_twice]
                exact ⟨a, b, (List.cons.inj hab).2, hcovers⟩
              refine hfurther.below_deep hrec hname hcovers.patterns_ne_nil ?_
                (hrest (hps.deep hrec) hbehind (Nat.le_succ fuel))
              obtain ⟨w, ws, hws⟩ := List.exists_cons_of_ne_nil hbehind.names_ne_nil
              rw [hws] at hruns
              obtain ⟨d', hd', -⟩ := hruns _ w ws rfl
              exact isDirectory_iff.mpr ⟨d', hd'⟩

variable {text : String} {found : List Path}

theorem expand_eq (h : expand t text = .ok found) : ∃ ps, componentPatterns text = .ok ps ∧
    found = below t (text.toList.getLast? = some '/') (4 * (pathLimit + ps.length)) ps
      (Spot.ofPath t (ofNames (text.toList.head? = some '/') [])) := by
  rw [expand] at h
  cases hwhole : Pattern.ofText text with
  | error f =>
      rw [hwhole] at h
      cases h
  | ok p =>
  cases hparts : componentPatterns text with
  | error f =>
      rw [hwhole, hparts] at h
      cases h
  | ok ps =>
      rw [hwhole, hparts] at h
      cases h
      refine ⟨ps, rfl, ?_⟩
      by_cases htop : text.toList.head? = some '/'
      · simp only [htop, if_true, decide_true]
        rfl
      · simp only [htop, if_false, decide_false]
        rfl

/-- A pattern finds the files whose names its components cover. -/
theorem found_iff (ht : t.Tidy) (hfound : expand t text = .ok found) (hread : componentPatterns text = .ok ps)
    (hps : Advancing (".." ∈ names) ps) (hnames : ∀ n ∈ names, IsStep n) (hend : (ofNames under names).fileName? ≠ none)
    (hsize : (ofNames under names).text.utf8ByteSize ≤ pathLimit) (hfile : t.isDirectory (ofNames under names) = false)
    (hstands : t.Stands (ofNames under names)) :
    (∃ r ∈ found, t.isDirectory r = false ∧ (ofNames under names).same r = true) ↔
      under = decide (text.toList.head? = some '/') ∧ text.toList.getLast? ≠ some '/' ∧ Covers ps names := by
  have hne := ne_nil_of_fileName hend
  obtain ⟨ps', hread', rfl⟩ := expand_eq hfound
  obtain rfl : ps = ps' := by
    rw [hread] at hread'
    exact Except.ok.inj hread'
  constructor
  · rintro ⟨r, hr, hdir, hsame⟩
    obtain ⟨hcomes, hmust⟩ := (found_of_mem _ _).1 _ _ _ hr
    obtain ⟨rfl, ns, rfl, hlaid⟩ :=
      hcomes.laid ht (.inr hps) (List.forall_mem_nil IsStep) rfl (same_iff.mp hsame).symm hnames hfile hend
    refine ⟨rfl, ?_, ?_⟩
    · intro hslash
      rw [hmust (decide_eq_true hslash)] at hdir
      cases hdir
    · exact hlaid.resolve_left fun hnil => hne hnil.2
  · rintro ⟨rfl, hslash, hcovers⟩
    refine ⟨_, ?_, hfile, same_iff.mpr rfl⟩
    rw [decide_eq_false hslash]
    have hlength := (length_le_size hnames).trans hsize
    have hlast : names.getLast? ≠ some ".." := by
      intro hup
      refine hend (fileName_up ?_)
      rwa [parts_ofNames hnames (.inr hne)]
    exact below_of_covers ht hps hcovers hnames (hstands.runs ht.toSound hnames) hlast id hsize (by omega)

end LogTail.Glob
