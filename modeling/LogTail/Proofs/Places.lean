import LogTail.FileTree.Change
import Mathlib.Data.List.Basic

namespace LogTail.FileTree

variable {t t' t'' : FileTree} {pass free : Nat → String → Prop} {follow : Bool} {i j n dir : Nat} {s name : String} {e r : Entry}
  {parts : List String} {target : Target}

/-- Names stand in directories and belong to nodes that are there, and no directory shows one twice. -/
structure Sound (t : FileTree) : Prop where
  base : ∀ n ≤ top, t.isDirectoryNode n = true
  dirs : ∀ e ∈ t.entries, t.isDirectoryNode e.dir = true
  nodes : ∀ e ∈ t.entries, e.node < t.nodes.length
  apart : ∀ {i j : Nat} {e r : Entry}, t.entries[i]? = some e → t.entries[j]? = some r → e.live = true → r.live = true →
    e.dir = r.dir → e.name = r.name → i = j

theorem sound_empty : empty.Sound := by
  refine ⟨by decide, ?_, ?_, ?_⟩
  · intro e he
    cases he
  · intro e he
    cases he
  · intro i j e r he
    cases he

theorem of_lookup (h : t.lookup dir s = some (i, e)) :
    t.entries[i]? = some e ∧ e.live = true ∧ e.dir = dir ∧ e.name = s := by
  rw [lookup] at h
  split at h
  · next k hk =>
      obtain ⟨a, ha, heq⟩ := Option.map_eq_some_iff.mp h
      obtain ⟨rfl, rfl⟩ := Prod.mk.inj heq
      obtain ⟨hlt, hnamed, -⟩ := List.findIdx?_eq_some_iff_getElem.mp hk
      rw [List.getElem?_eq_getElem hlt] at ha
      cases ha
      simpa [entryNamed, List.getElem?_eq_getElem hlt, and_assoc] using hnamed
  · cases h

theorem lookup_none : t.lookup dir s = none ↔
    ∀ e ∈ t.entries, e.live = true → e.dir = dir → e.name ≠ s := by
  rw [lookup]
  split
  · next k hk =>
      obtain ⟨hlt, hnamed, -⟩ := List.findIdx?_eq_some_iff_getElem.mp hk
      rw [List.getElem?_eq_getElem hlt]
      simp only [Option.map_some, reduceCtorEq, false_iff]
      intro hnone
      simp only [entryNamed, Bool.and_eq_true, decide_eq_true_eq] at hnamed
      exact hnone _ (List.getElem_mem hlt) hnamed.1.1 hnamed.1.2 hnamed.2
  · next hnone =>
      simp only [true_iff]
      intro e he hlive hdir hname
      have hfalse := List.findIdx?_eq_none_iff.mp hnone e he
      simp [entryNamed, hlive, hdir, hname] at hfalse

theorem Sound.lookup_entry (hs : t.Sound) (he : t.entries[i]? = some e) (hlive : e.live = true) :
    t.lookup e.dir e.name = some (i, e) := by
  cases hfound : t.lookup e.dir e.name with
  | none => exact absurd rfl (lookup_none.mp hfound e (List.mem_of_getElem? he) hlive rfl)
  | some found =>
      obtain ⟨j, r⟩ := found
      obtain ⟨hr, hrlive, hdir, hname⟩ := of_lookup hfound
      obtain rfl := hs.apart he hr hlive hrlive hdir.symm hname.symm
      rw [he] at hr
      cases hr
      rfl

theorem isDirectoryNode_iff : t.isDirectoryNode n = true ↔ t.node? n = some .directory := by
  simp [isDirectoryNode]

theorem directory_lt (h : t.isDirectoryNode n = true) : n < t.nodes.length :=
  (List.getElem?_eq_some_iff.mp (isDirectoryNode_iff.mp h)).1

theorem Sound.parentOf_directory (hs : t.Sound) (dir : Nat) : t.isDirectoryNode (t.parentOf dir) = true := by
  rw [parentOf]
  split
  · exact hs.base _ (by decide)
  · split
    · next e he => exact hs.dirs e (List.mem_of_find?_eq_some he)
    · exact hs.base _ (by decide)

structure Named (s : String) : Prop where
  here : s ≠ "."
  up : s ≠ ".."
  fits : s.utf8ByteSize ≤ nameLimit

/-- The way along the parts of a path through names that may be passed, with the symbolic links that may
still be followed. -/
inductive Leads (t : FileTree) (pass : Nat → String → Prop) (follow : Bool) :
    Nat → Nat → List String → Target → Prop
  | done (n dir : Nat) : Leads t pass follow n dir [] (.directory dir)
  | here {n dir : Nat} {rest : List String} {target : Target} (h : Leads t pass follow n dir rest target) :
      Leads t pass follow n dir ("." :: rest) target
  | up {n dir : Nat} {rest : List String} {target : Target}
      (h : Leads t pass follow n (t.parentOf dir) rest target) :
      Leads t pass follow n dir (".." :: rest) target
  | vacant {n dir : Nat} {s : String} (hs : Named s) (hfree : t.lookup dir s = none) :
      Leads t pass follow n dir [s] (.vacant dir s)
  | entry {n dir i : Nat} {s : String} {e : Entry} (hs : Named s) (he : t.lookup dir s = some (i, e))
      (hlink : ∀ p, t.node? e.node = some (.link p) → follow = false) :
      Leads t pass follow n dir [s] (.entry i e)
  | enter {n dir i : Nat} {s : String} {e : Entry} {rest : List String} {target : Target} (hs : Named s)
      (hpass : pass dir s) (he : t.lookup dir s = some (i, e)) (hdir : t.node? e.node = some .directory)
      (hrest : rest ≠ []) (h : Leads t pass follow n e.node rest target) :
      Leads t pass follow n dir (s :: rest) target
  | jump {n dir i : Nat} {s : String} {e : Entry} {rest : List String} {p : Path} {target : Target}
      (hs : Named s) (hpass : pass dir s) (he : t.lookup dir s = some (i, e))
      (hlink : t.node? e.node = some (.link p)) (hrest : rest = [] → follow = true)
      (htext : p.text.isEmpty = false)
      (h : Leads t pass follow n (if p.isAbsolute then top else dir) (p.parts ++ rest) target) :
      Leads t pass follow (n + 1) dir (s :: rest) target

def anywhere (_ : Nat) (_ : String) : Prop := True

theorem walk_nil (t : FileTree) (follow : Bool) (n dir : Nat) :
    walk t follow n dir [] = .ok (.directory dir) := by
  cases n <;> rfl

theorem walk_cons (t : FileTree) (follow : Bool) (n dir : Nat) (s : String) (rest : List String) :
    walk t follow n dir (s :: rest) =
      if s = "." then walk t follow n dir rest
      else if s = ".." then walk t follow n (t.parentOf dir) rest
      else if nameLimit < s.utf8ByteSize then .error .nameTooLong
      else
        match t.lookup dir s with
        | none => if rest.isEmpty then .ok (.vacant dir s) else .error .noEntry
        | some (i, e) =>
          match t.node? e.node with
          | some .directory => if rest.isEmpty then .ok (.entry i e) else walk t follow n e.node rest
          | some (.link p) =>
            if rest.isEmpty && !follow then .ok (.entry i e)
            else if p.text.isEmpty then .error .noEntry
            else
              match n with
              | 0 => .error .loop
              | n + 1 => walk t follow n (if p.isAbsolute then top else dir) (p.parts ++ rest)
          | _ => if rest.isEmpty then .ok (.entry i e) else .error .notDirectory := by
  cases n with
  | zero => rfl
  | succ n => rfl

theorem leads_cons {rest : List String}
    (hrest : ∀ dir, walk t follow n dir rest = .ok target → Leads t anywhere follow n dir rest target)
    (hjump : ∀ m dir parts, n = m + 1 → walk t follow m dir parts = .ok target →
      Leads t anywhere follow m dir parts target)
    (h : walk t follow n dir (s :: rest) = .ok target) : Leads t anywhere follow n dir (s :: rest) target := by
  rw [walk_cons] at h
  split at h
  · next hs =>
      rw [hs]
      exact .here (hrest _ h)
  split at h
  · next hs =>
      rw [hs]
      exact .up (hrest _ h)
  split at h
  · cases h
  next hhere hup hfits =>
  have hs : Named s := ⟨hhere, hup, Nat.le_of_not_lt hfits⟩
  split at h
  · next hfree =>
      split at h
      · next hnil =>
          cases h
          rw [List.isEmpty_iff.mp hnil]
          exact .vacant hs hfree
      · cases h
  next i e he =>
  split at h
  · next hdir =>
      split at h
      · next hnil =>
          cases h
          rw [List.isEmpty_iff.mp hnil]
          refine .entry hs he ?_
          intro p hp
          rw [hdir] at hp
          cases hp
      · next hcons => exact .enter hs trivial he hdir (fun hnil => hcons (by simp [hnil])) (hrest _ h)
  · next p hlink =>
      split at h
      · next hlast =>
          cases h
          rw [Bool.and_eq_true, List.isEmpty_iff, Bool.not_eq_true'] at hlast
          rw [hlast.1]
          exact .entry hs he fun _ _ => hlast.2
      next hlast =>
      split at h
      · cases h
      next htext =>
      cases n with
      | zero => cases h
      | succ m =>
          refine .jump hs trivial he hlink ?_ (eq_false_of_ne_true htext) (hjump m _ _ rfl h)
          intro hnil
          simpa [hnil] using hlast
  · next hdir hlink =>
      split at h
      · next hnil =>
          cases h
          rw [List.isEmpty_iff.mp hnil]
          exact .entry hs he fun p hp => absurd hp (hlink p)
      · cases h

theorem leads_of_walk (h : walk t follow n dir parts = .ok target) : Leads t anywhere follow n dir parts target := by
  induction n generalizing dir parts with
  | zero =>
      induction parts generalizing dir with
      | nil =>
          cases h
          exact .done 0 dir
      | cons s rest ih => exact leads_cons (fun _ => ih) (fun _ _ _ hm => absurd hm (by omega)) h
  | succ n ihlinks =>
      induction parts generalizing dir with
      | nil =>
          cases h
          exact .done (n + 1) dir
      | cons s rest ih =>
          refine leads_cons (fun _ => ih) ?_ h
          intro m dir parts hm
          obtain rfl := Nat.succ.inj hm
          exact ihlinks

theorem Leads.walk (h : Leads t pass follow n dir parts target) : walk t follow n dir parts = .ok target := by
  induction h with
  | done n dir => exact walk_nil t follow n dir
  | here h ih => rw [walk_cons, if_pos rfl, ih]
  | up h ih => rw [walk_cons, if_neg (by decide), if_pos rfl, ih]
  | vacant hs hfree =>
      rw [walk_cons, if_neg hs.here, if_neg hs.up, if_neg (Nat.not_lt.mpr hs.fits), hfree]
      rfl
  | entry hs he hlink =>
      rw [walk_cons, if_neg hs.here, if_neg hs.up, if_neg (Nat.not_lt.mpr hs.fits), he]
      dsimp only
      split
      · rfl
      · next p hp => simp [hlink p hp]
      · rfl
  | enter hs hpass he hdir hrest h ih =>
      rw [walk_cons, if_neg hs.here, if_neg hs.up, if_neg (Nat.not_lt.mpr hs.fits), he]
      simp [hdir, hrest, ih]
  | @jump n dir i s e rest p target hs hpass he hlink hrest htext h ih =>
      rw [walk_cons, if_neg hs.here, if_neg hs.up, if_neg (Nat.not_lt.mpr hs.fits), he]
      have hlast : ¬ (rest.isEmpty && !follow) = true := by simpa using hrest
      simp only [hlink, if_neg hlast, htext, Bool.false_eq_true, if_false]
      exact ih

def targetAt (t : FileTree) (dir : Nat) (name : String) : Target :=
  match t.lookup dir name with
  | some (i, e) => .entry i e
  | none => .vacant dir name

theorem targetAt_none (h : t.lookup dir s = none) : t.targetAt dir s = .vacant dir s := by
  rw [targetAt, h]

theorem targetAt_some (h : t.lookup dir s = some (i, e)) : t.targetAt dir s = .entry i e := by
  rw [targetAt, h]

theorem targetAt_ne (t : FileTree) (dir : Nat) (s : String) (n : Nat) : t.targetAt dir s ≠ .directory n := by
  rw [targetAt]
  split <;> nofun

theorem of_targetAt_vacant (h : .vacant dir s = t.targetAt n name) :
    n = dir ∧ name = s ∧ t.lookup dir s = none := by
  cases hfound : t.lookup n name with
  | none =>
      rw [targetAt_none hfound] at h
      cases h
      exact ⟨rfl, rfl, hfound⟩
  | some found =>
      rw [targetAt_some hfound] at h
      cases h

theorem of_targetAt_entry (h : .entry i e = t.targetAt n name) : t.lookup n name = some (i, e) := by
  cases hfound : t.lookup n name with
  | none =>
      rw [targetAt_none hfound] at h
      cases h
  | some found =>
      rw [targetAt_some hfound] at h
      cases h
      rfl

def NoLinkAt (t : FileTree) (dir : Nat) (name : String) : Prop :=
  ∀ i e p, t.lookup dir name = some (i, e) → t.node? e.node ≠ some (.link p)

theorem Leads.last (hs : Named s) (hnolink : follow = true → t.NoLinkAt dir s) :
    Leads t pass follow n dir [s] (t.targetAt dir s) := by
  cases hfound : t.lookup dir s with
  | none =>
      rw [targetAt_none hfound]
      exact .vacant hs hfound
  | some found =>
      rw [targetAt_some hfound]
      refine .entry hs hfound ?_
      intro p hp
      cases follow with
      | true => exact absurd hp (hnolink rfl _ _ p hfound)
      | false => rfl

theorem Leads.found (hsound : t.Sound) (h : Leads t pass follow n dir parts target)
    (hdir : t.isDirectoryNode dir = true) :
    (∃ d, target = .directory d) ∨
      ∃ d s, target = t.targetAt d s ∧ t.isDirectoryNode d = true ∧ (follow = true → t.NoLinkAt d s) := by
  induction h with
  | done n dir => exact .inl ⟨dir, rfl⟩
  | here h ih => exact ih hdir
  | up h ih => exact ih (hsound.parentOf_directory _)
  | vacant hs hfree =>
      refine .inr ⟨_, _, (targetAt_none hfree).symm, hdir, ?_⟩
      intro _ i e p he
      rw [hfree] at he
      cases he
  | entry hs he hlink =>
      refine .inr ⟨_, _, (targetAt_some he).symm, hdir, ?_⟩
      intro hfollow i e p he' hp
      rw [he] at he'
      cases he'
      rw [hlink p hp] at hfollow
      cases hfollow
  | enter hs hpass he hnode hrest h ih => exact ih (isDirectoryNode_iff.mpr hnode)
  | jump hs hpass he hlink hrest htext h ih =>
      refine ih ?_
      split
      · exact hsound.base _ (by decide)
      · exact hdir

theorem getLast_cons {rest : List String} (h : rest.getLast? = some name) :
    (s :: rest).getLast? = some name := by
  simp [List.getLast?_cons, h]

theorem Leads.unfollowed (h : Leads t pass true n dir parts target)
    (hnolink : ∀ d s, parts.getLast? = some s → t.NoLinkAt d s) : Leads t pass false n dir parts target := by
  induction h with
  | done n dir => exact .done n dir
  | here h ih => exact .here (ih fun d s hs => hnolink d s (getLast_cons hs))
  | up h ih => exact .up (ih fun d s hs => hnolink d s (getLast_cons hs))
  | vacant hs hfree => exact .vacant hs hfree
  | entry hs he hlink => exact .entry hs he fun p hp => absurd hp (hnolink _ _ rfl _ _ p he)
  | enter hs hpass he hnode hrest h ih =>
      exact .enter hs hpass he hnode hrest (ih fun d s hs => hnolink d s (getLast_cons hs))
  | @jump n dir i s e rest p target hs hpass he hlink hrest htext h ih =>
      have hcons : rest ≠ [] := by
        rintro rfl
        exact hnolink dir s rfl i e p he hlink
      refine .jump hs hpass he hlink (fun hnil => absurd hnil hcons) htext (ih ?_)
      intro d s hlast
      rw [List.getLast?_append_of_ne_nil _ hcons] at hlast
      exact hnolink d s (getLast_cons hlast)

def Way (t : FileTree) (n : Nat) : Prop := t.node? n = some .directory ∨ ∃ p, t.node? n = some (.link p)

def around (dir : Nat) (name : String) (d : Nat) (s : String) : Prop := ¬ (d = dir ∧ s = name)

theorem Leads.around (h : Leads t pass follow n dir parts target)
    (hend : ∀ j r, t.lookup i name = some (j, r) → ¬ t.Way r.node) :
    Leads t (FileTree.around i name) follow n dir parts target := by
  induction h with
  | done n dir => exact .done n dir
  | here _ ih => exact .here ih
  | up _ ih => exact .up ih
  | vacant hs hfree => exact .vacant hs hfree
  | entry hs he hlink => exact .entry hs he hlink
  | enter hs hpass he hnode hrest _ ih =>
      refine .enter hs ?_ he hnode hrest ih
      rintro ⟨rfl, rfl⟩
      exact hend _ _ he (.inl hnode)
  | jump hs hpass he hlink hrest htext _ ih =>
      refine .jump hs ?_ he hlink hrest htext ih
      rintro ⟨rfl, rfl⟩
      exact hend _ _ he (.inr ⟨_, hlink⟩)

/-- All directories and links stay where they are, but for the names that are free to change, and no link
is new. -/
structure KeepsBut (free : Nat → String → Prop) (t t' : FileTree) : Prop where
  sound : t'.Sound
  node : ∀ {n : Nat}, t.Way n → t'.node? n = t.node? n
  entry : ∀ {dir i : Nat} {s : String} {e : Entry}, t.lookup dir s = some (i, e) → t.Way e.node →
    free dir s ∨ t'.lookup dir s = some (i, e)
  parent : ∀ {dir : Nat}, t.isDirectoryNode dir = true → t'.parentOf dir = t.parentOf dir
  link : ∀ {dir i : Nat} {s : String} {e : Entry} {p : Path}, t'.lookup dir s = some (i, e) →
    t'.node? e.node = some (.link p) → t.lookup dir s = some (i, e) ∧ t.node? e.node = some (.link p)

def nowhere (_ : Nat) (_ : String) : Prop := False

abbrev Keeps (t t' : FileTree) : Prop := KeepsBut nowhere t t'

namespace KeepsBut

theorem refl (hs : t.Sound) : KeepsBut free t t :=
  ⟨hs, fun _ => rfl, fun he _ => .inr he, fun _ => rfl, fun he hp => ⟨he, hp⟩⟩

theorem mono {free' : Nat → String → Prop} (h : KeepsBut free t t') (hfree : ∀ d s, free d s → free' d s) :
    KeepsBut free' t t' :=
  ⟨h.sound, h.node, fun he hn => (h.entry he hn).imp_left (hfree _ _), h.parent, h.link⟩

theorem way (h : KeepsBut free t t') (hn : t.Way n) : t'.Way n := by
  rw [Way, h.node hn]
  exact hn

theorem directory (h : KeepsBut free t t') (hn : t.isDirectoryNode n = true) :
    t'.isDirectoryNode n = true := by
  rw [isDirectoryNode_iff] at hn ⊢
  rw [h.node (.inl hn), hn]

theorem noLinkAt (h : KeepsBut free t t') (hnolink : t.NoLinkAt dir s) : t'.NoLinkAt dir s := by
  intro i e p he hp
  obtain ⟨he, hp⟩ := h.link he hp
  exact hnolink i e p he hp

theorem trans (h : KeepsBut free t t') (h' : KeepsBut free t' t'') : KeepsBut free t t'' where
  sound := h'.sound
  node hn := by rw [h'.node (h.way hn), h.node hn]
  entry he hn := by
    rcases h.entry he hn with hfree | he'
    · exact .inl hfree
    · exact h'.entry he' (h.way hn)
  parent hd := by rw [h'.parent (h.directory hd), h.parent hd]
  link he hp := by
    obtain ⟨he, hp⟩ := h'.link he hp
    exact h.link he hp

/-- A way to a name goes on leading there, if it passes nothing that is free to change. A last link may then
be followed only if there is none. -/
theorem leads (h : KeepsBut free t t') (hsound : t.Sound)
    (hleads : Leads t pass follow n dir parts (t.targetAt i name)) (hpass : ∀ d s, pass d s → ¬ free d s)
    (hdir : t.isDirectoryNode dir = true) (follow' : Bool) (hfollow : follow = true → follow' = true)
    (hnolink : follow' = true → t'.NoLinkAt i name) :
    Leads t' pass follow' n dir parts (t'.targetAt i name) := by
  generalize htarget : t.targetAt i name = target at hleads
  induction hleads with
  | done n dir => exact absurd htarget (targetAt_ne t i name dir)
  | here _ ih => exact .here (ih hdir htarget)
  | up _ ih =>
      refine .up ?_
      rw [h.parent hdir]
      exact ih (hsound.parentOf_directory _) htarget
  | vacant hs hfree =>
      obtain ⟨rfl, rfl, -⟩ := of_targetAt_vacant htarget.symm
      exact .last hs hnolink
  | entry hs he hlink =>
      obtain ⟨-, -, rfl, rfl⟩ := of_lookup he
      obtain ⟨-, -, rfl, rfl⟩ := of_lookup (of_targetAt_entry htarget.symm)
      exact .last hs hnolink
  | enter hs hp he hnode hrest _ ih =>
      have he' := (h.entry he (.inl hnode)).resolve_left (hpass _ _ hp)
      refine .enter hs hp he' ?_ hrest (ih (isDirectoryNode_iff.mpr hnode) htarget)
      rw [h.node (.inl hnode), hnode]
  | jump hs hp he hlink hrest htext _ ih =>
      have he' := (h.entry he (.inr ⟨_, hlink⟩)).resolve_left (hpass _ _ hp)
      refine .jump hs hp he' ?_ (fun hnil => hfollow (hrest hnil)) htext (ih ?_ htarget)
      · rw [h.node (.inr ⟨_, hlink⟩), hlink]
      · split
        · exact hsound.base _ (by decide)
        · exact hdir

end KeepsBut

variable {p : Path}

def start (p : Path) : Nat := if p.isAbsolute then top else home

theorem Sound.start_directory (hs : t.Sound) (p : Path) : t.isDirectoryNode (start p) = true := by
  rw [start]
  split <;> exact hs.base _ (by decide)

theorem walk_of_resolve (h : t.resolve follow p = .ok target) :
    t.walk (follow || p.endsWithSlash) linkLimit (start p) p.parts = .ok target ∧
      ∀ i e, target = .entry i e → p.endsWithSlash = true → t.isDirectoryNode e.node = true := by
  rw [resolve] at h
  split at h
  · cases h
  split at h
  · cases h
  split at h
  · cases h
  split at h
  · next i e hwalk =>
      split at h
      · cases h
      · next hslash =>
          cases h
          refine ⟨hwalk, ?_⟩
          rintro _ _ ⟨⟩ hends
          simpa [hends] using hslash
  · next hwalk =>
      refine ⟨h, ?_⟩
      rintro i e rfl
      exact absurd h (hwalk i e)

theorem resolve_of_walk (h : t.resolve follow p = .ok target) (hslash : p.endsWithSlash = false)
    {follow' : Bool} {target' : Target}
    (hwalk : t'.walk follow' linkLimit (start p) p.parts = .ok target') :
    t'.resolve follow' p = .ok target' := by
  rw [resolve] at h ⊢
  split at h
  · cases h
  next hempty =>
  split at h
  · cases h
  next hnul =>
  split at h
  · cases h
  next hfits =>
  rw [if_neg hempty, if_neg hnul, if_neg hfits, hslash, Bool.or_false]
  rw [start] at hwalk
  rw [hwalk]
  cases target' <;> rfl

theorem resolve_found (hs : t.Sound) (h : t.resolve follow p = .ok target) :
    (∃ d, target = .directory d) ∨
      ∃ d s, target = t.targetAt d s ∧ t.isDirectoryNode d = true ∧ (follow = true → t.NoLinkAt d s) := by
  obtain ⟨hwalk, -⟩ := walk_of_resolve h
  rcases (leads_of_walk hwalk).found hs (hs.start_directory p) with hdir | ⟨d, s, htarget, hd, hnolink⟩
  · exact .inl hdir
  · exact .inr ⟨d, s, htarget, hd, fun hfollow => hnolink (by simp [hfollow])⟩

theorem resolve_unfollowed (h : t.resolve true p = .ok target) (hslash : p.endsWithSlash = false)
    (hnolink : ∀ d s, p.parts.getLast? = some s → t.NoLinkAt d s) : t.resolve false p = .ok target := by
  obtain ⟨hwalk, -⟩ := walk_of_resolve h
  exact resolve_of_walk h hslash ((leads_of_walk hwalk).unfollowed hnolink).walk

theorem Keeps.resolve_either (h : Keeps t t') (hs : t.Sound) (hslash : p.endsWithSlash = false)
    (hp : t.resolve follow p = .ok (t.targetAt dir name)) (hnolink : follow = true → t'.NoLinkAt dir name) :
    t'.resolve follow p = .ok (t'.targetAt dir name) := by
  obtain ⟨hwalk, -⟩ := walk_of_resolve hp
  rw [hslash, Bool.or_false] at hwalk
  have hleads := h.leads hs (leads_of_walk hwalk) (fun _ _ _ => id) (hs.start_directory p) follow id hnolink
  exact resolve_of_walk hp hslash hleads.walk

theorem Keeps.resolve (h : Keeps t t') (hs : t.Sound) (hslash : p.endsWithSlash = false)
    (hp : t.resolve false p = .ok (t.targetAt dir name)) : t'.resolve false p = .ok (t'.targetAt dir name) :=
  h.resolve_either hs hslash hp nofun

/-- A path leads to a name in a directory, and not through that name. -/
structure Names (t : FileTree) (p : Path) (dir : Nat) (name : String) : Prop where
  resolve : t.resolve false p = .ok (t.targetAt dir name)
  leads : Leads t (around dir name) false linkLimit (start p) p.parts (t.targetAt dir name)

theorem names_of_resolve (hslash : p.endsWithSlash = false)
    (h : t.resolve false p = .ok (t.targetAt dir name))
    (hend : ∀ i e, t.lookup dir name = some (i, e) → ¬ t.Way e.node) : t.Names p dir name := by
  obtain ⟨hwalk, -⟩ := walk_of_resolve h
  rw [hslash] at hwalk
  exact ⟨h, (leads_of_walk hwalk).around hend⟩

theorem Names.keeps (h : t.Names p dir name) (hs : t.Sound) (hslash : p.endsWithSlash = false)
    (hkeeps : KeepsBut (fun d s => d = dir ∧ s = name) t t') :
    t'.Names p dir name ∧ (t'.NoLinkAt dir name → t'.resolve true p = .ok (t'.targetAt dir name)) := by
  have hleads (follow : Bool) (hnolink : follow = true → t'.NoLinkAt dir name) :
      Leads t' (around dir name) follow linkLimit (start p) p.parts (t'.targetAt dir name) :=
    hkeeps.leads hs h.leads (fun _ _ hpass => hpass) (hs.start_directory p) follow nofun hnolink
  constructor
  · have hname := hleads false nofun
    exact ⟨resolve_of_walk h.resolve hslash hname.walk, hname⟩
  · intro hnolink
    exact resolve_of_walk h.resolve hslash (hleads true fun _ => hnolink).walk

end LogTail.FileTree
