import LogTail.Proofs.Changes

namespace LogTail.FileTree

variable {t t' t'' : FileTree} {new : String → Node → Prop} {pass : Nat → String → Prop} {follow : Bool}
  {i n dir : Nat} {s name : String} {e : Entry} {x : Node} {parts : List String} {target : Target} {p q : Path}
  {bs : Bytes}

/-- All of a tree is in another one, and what that one names besides are nodes of its own, of which `new`
tells the names and what they are. -/
structure Extends (new : String → Node → Prop) (t t' : FileTree) : Prop where
  node : ∀ {n : Nat} {x : Node}, t.node? n = some x → t'.node? n = some x
  entry : ∀ {i : Nat} {e : Entry}, t.entries[i]? = some e → t'.entries[i]? = some e
  fresh : ∀ {i : Nat} {e : Entry}, t'.entries[i]? = some e → e.live = true →
    t.entries[i]? = some e ∨ t.nodes.length ≤ e.node ∧ ∃ x, t'.node? e.node = some x ∧ new e.name x

def anything (_ : String) (_ : Node) : Prop := True

def fileNamed (name : String) (s : String) (x : Node) : Prop := s = name ∧ ∃ bs, x = .file bs

theorem Sound.node_of_lookup (hs : t.Sound) (he : t.lookup dir s = some (i, e)) : ∃ x, t.node? e.node = some x := by
  obtain ⟨hat, -⟩ := of_lookup he
  exact ⟨_, List.getElem?_eq_getElem (hs.nodes e (List.mem_of_getElem? hat))⟩

theorem Leads.directory (hs : t.Sound) (h : Leads t pass follow n dir parts target)
    (hdir : t.isDirectoryNode dir = true) {d : Nat} (htarget : target = .directory d) :
    t.isDirectoryNode d = true := by
  induction h with
  | done n dir =>
      cases htarget
      exact hdir
  | here _ ih => exact ih hdir htarget
  | up _ ih => exact ih (hs.parentOf_directory _) htarget
  | vacant _ _ => cases htarget
  | entry _ _ _ => cases htarget
  | enter _ _ _ hnode _ _ ih => exact ih (isDirectoryNode_iff.mpr hnode) htarget
  | jump _ _ _ _ _ _ _ ih =>
      refine ih ?_ htarget
      split
      · exact hs.base _ (by decide)
      · exact hdir

theorem resolve_congr {target' : Target} (h : t.resolve follow p = .ok target)
    (hwalk : t'.walk (follow || p.endsWithSlash) linkLimit (start p) p.parts = .ok target')
    (hslash : ∀ i e, target' = .entry i e → p.endsWithSlash = true → t'.isDirectoryNode e.node = true) :
    t'.resolve follow p = .ok target' := by
  rw [resolve] at h ⊢
  split at h
  · cases h
  next hempty =>
  split at h
  · cases h
  next hnul =>
  split at h
  · cases h
  next hfits =>
  rw [if_neg hempty, if_neg hnul, if_neg hfits]
  rw [start] at hwalk
  rw [hwalk]
  cases target' with
  | directory d => rfl
  | vacant d s => rfl
  | entry i e =>
      refine if_neg ?_
      rw [Bool.and_eq_true, Bool.not_eq_true']
      rintro ⟨hend, hnot⟩
      rw [hslash i e rfl hend] at hnot
      cases hnot

namespace Extends

theorem refl (new : String → Node → Prop) (t : FileTree) : Extends new t t :=
  ⟨id, id, fun he _ => .inl he⟩

theorem length_le (h : Extends new t t') : t.nodes.length ≤ t'.nodes.length := by
  apply Nat.le_of_not_lt
  intro hlt
  have hlast := h.node (List.getElem?_eq_getElem hlt)
  exact Nat.lt_irrefl _ (List.getElem?_eq_some_iff.mp hlast).1

theorem trans (h : Extends new t t') (h' : Extends new t' t'') : Extends new t t'' where
  node hx := h'.node (h.node hx)
  entry he := h'.entry (h.entry he)
  fresh he hlive := by
    rcases h'.fresh he hlive with he | ⟨hnode, hnew⟩
    · exact (h.fresh he hlive).imp_right fun ⟨hnode, x, hx, hnew⟩ => ⟨hnode, x, h'.node hx, hnew⟩
    · exact .inr ⟨Nat.le_trans h.length_le hnode, hnew⟩

theorem before (h : Extends new t t') (wanted : Entry → Bool) {k : Nat} (hk : k < t.entries.length)
    (hbefore : ∀ j (hj : j < k), ¬ wanted (t.entries.get ⟨j, Nat.lt_trans hj hk⟩) = true) {j : Nat} (hj : j < k)
    (hlt : j < t'.entries.length) : ¬ wanted t'.entries[j] = true := by
  have hsame := h.entry (List.getElem?_eq_getElem (Nat.lt_trans hj hk))
  rw [(List.getElem?_eq_some_iff.mp hsame).2]
  exact hbefore j hj

theorem lookup (h : Extends new t t') (he : t.lookup dir s = some (i, e)) : t'.lookup dir s = some (i, e) := by
  obtain ⟨hat, hlive, rfl, rfl⟩ := of_lookup he
  obtain ⟨hlt, hget⟩ := List.getElem?_eq_some_iff.mp (h.entry hat)
  have hfirst : t'.entries.findIdx? (entryNamed e.dir e.name) = some i := by
    rw [FileTree.lookup] at he
    split at he
    · next k hk =>
        obtain ⟨a, -, heq⟩ := Option.map_eq_some_iff.mp he
        obtain ⟨rfl, -⟩ := Prod.mk.inj heq
        obtain ⟨hk, -, hbefore⟩ := List.findIdx?_eq_some_iff_getElem.mp hk
        refine List.findIdx?_eq_some_iff_getElem.mpr ⟨hlt, ?_, ?_⟩
        · simp [entryNamed, hget, hlive]
        · intro j hj
          exact h.before _ hk hbefore hj _
    · cases he
  rw [FileTree.lookup, hfirst]
  simp [h.entry hat]

theorem lookup_back (hs : t.Sound) (h : Extends new t t') (he : t'.lookup dir s = some (i, e)) :
    t.lookup dir s = some (i, e) ∨ ∃ x, t'.node? e.node = some x ∧ new s x := by
  obtain ⟨hat, hlive, rfl, rfl⟩ := of_lookup he
  rcases h.fresh hat hlive with hat | ⟨-, hnew⟩
  · exact .inl (hs.lookup_entry hat hlive)
  · exact .inr hnew

theorem lookup_none (h : Extends new t t') (hfree : t'.lookup dir s = none) : t.lookup dir s = none := by
  cases hfound : t.lookup dir s with
  | none => rfl
  | some found =>
      rw [h.lookup hfound] at hfree
      cases hfree

theorem node_of_lookup (hs : t.Sound) (h : Extends new t t') (he : t.lookup dir s = some (i, e)) :
    t'.node? e.node = t.node? e.node := by
  obtain ⟨x, hx⟩ := hs.node_of_lookup he
  rw [hx, h.node hx]

theorem parentOf (h : Extends new t t') (hdir : t.isDirectoryNode dir = true) :
    t'.parentOf dir = t.parentOf dir := by
  have hlt := directory_lt hdir
  rw [FileTree.parentOf, FileTree.parentOf]
  split
  · rfl
  cases hfound : t.entries.find? fun e => e.live && e.node = dir with
  | some e =>
      obtain ⟨hwanted, i, hi, hat, hbefore⟩ := List.find?_eq_some_iff_getElem.mp hfound
      obtain ⟨hi', hat'⟩ := List.getElem?_eq_some_iff.mp (h.entry (hat ▸ List.getElem?_eq_getElem hi))
      have hfound' : (t'.entries.find? fun e => e.live && e.node = dir) = some e := by
        refine List.find?_eq_some_iff_getElem.mpr ⟨hwanted, i, hi', hat', ?_⟩
        intro j hj
        have hnot := h.before (fun e => e.live && e.node = dir) hi
          (fun k hk => by simpa only [List.get_eq_getElem, Bool.not_eq_true', Bool.not_eq_true] using hbefore k hk) hj
          (Nat.lt_trans hj hi')
        simpa only [Bool.not_eq_true', Bool.not_eq_true] using hnot
      rw [hfound']
  | none =>
      have hnone : (t'.entries.find? fun e => e.live && e.node = dir) = none := by
        rw [List.find?_eq_none] at hfound ⊢
        intro e he hwanted
        rw [Bool.and_eq_true, decide_eq_true_eq] at hwanted
        obtain ⟨i, hi⟩ := List.getElem?_of_mem he
        rcases h.fresh hi hwanted.1 with hi | ⟨hnode, -⟩
        · exact hfound e (List.mem_of_getElem? hi) (by simpa using hwanted)
        · rw [hwanted.2] at hnode
          exact Nat.not_le.mpr hlt hnode
      rw [hnone]

theorem isDirectoryNode (hs : t.Sound) (h : Extends new t t') (he : t.lookup dir s = some (i, e)) :
    t'.isDirectoryNode e.node = t.isDirectoryNode e.node := by
  rw [FileTree.isDirectoryNode, FileTree.isDirectoryNode, h.node_of_lookup hs he]

theorem leads (hs : t.Sound) (h : Extends new t t') (hleads : Leads t pass follow n dir parts target)
    (hdir : t.isDirectoryNode dir = true) (hfree : ∀ d s, target = .vacant d s → t'.lookup d s = none) :
    Leads t' pass follow n dir parts target := by
  induction hleads with
  | done n dir => exact .done n dir
  | here _ ih => exact .here (ih hdir hfree)
  | up _ ih =>
      refine .up ?_
      rw [h.parentOf hdir]
      exact ih (hs.parentOf_directory _) hfree
  | vacant hnamed _ => exact .vacant hnamed (hfree _ _ rfl)
  | entry hnamed he hlink =>
      refine .entry hnamed (h.lookup he) ?_
      rwa [h.node_of_lookup hs he]
  | enter hnamed hp he hnode hrest _ ih =>
      exact .enter hnamed hp (h.lookup he) (h.node hnode) hrest (ih (isDirectoryNode_iff.mpr hnode) hfree)
  | jump hnamed hp he hlink hrest htext _ ih =>
      refine .jump hnamed hp (h.lookup he) (h.node hlink) hrest htext (ih ?_ hfree)
      split
      · exact hs.base _ (by decide)
      · exact hdir

theorem resolve (hs : t.Sound) (h : Extends new t t') (hp : t.resolve follow p = .ok target)
    (hfound : ∀ d s, target ≠ .vacant d s) : t'.resolve follow p = .ok target := by
  obtain ⟨hwalk, hslash⟩ := walk_of_resolve hp
  have hleads := h.leads hs (leads_of_walk hwalk) (hs.start_directory p) fun d s heq => absurd heq (hfound d s)
  refine resolve_congr hp hleads.walk ?_
  intro i e heq hend
  have hdir := hslash i e heq hend
  rw [isDirectoryNode_iff] at hdir ⊢
  exact h.node hdir

theorem contentAt (hs : t.Sound) (h : Extends new t t') (hp : t.fileExists p = true) :
    t'.contentAt p = t.contentAt p := by
  cases hfound : t.resolve true p with
  | error f =>
      rw [fileExists, locate, hfound] at hp
      cases hp
  | ok target =>
      have hread {n : Nat} (hsame : t'.node? n = t.node? n) : t'.readNode n = t.readNode n := by
        rw [readNode, readNode, FileTree.isDirectoryNode, FileTree.isDirectoryNode, content, content, hsame]
      cases target with
      | vacant d s =>
          rw [fileExists, locate, hfound] at hp
          cases hp
      | directory d =>
          have hfound' := h.resolve hs hfound (by simp)
          have hd := (leads_of_walk (walk_of_resolve hfound).1).directory hs (hs.start_directory p) rfl
          rw [isDirectoryNode_iff] at hd
          rw [FileTree.contentAt, FileTree.contentAt, openFile, openFile, hfound, hfound']
          exact hread ((h.node hd).trans hd.symm)
      | entry i e =>
          have hfound' := h.resolve hs hfound (by simp)
          rw [FileTree.contentAt, FileTree.contentAt, openFile, openFile, hfound, hfound']
          refine hread ?_
          obtain ⟨d, hd⟩ | ⟨d, s, htarget, -⟩ := resolve_found hs hfound
          · cases hd
          · exact h.node_of_lookup hs (of_targetAt_entry htarget)

theorem add (dir : Nat) (hnew : new s x) : Extends new t (t.add dir s x) where
  node hn := by rwa [node_add (List.getElem?_eq_some_iff.mp hn).1]
  entry he := by
    rw [FileTree.add, List.getElem?_append_left (List.getElem?_eq_some_iff.mp he).1, he]
  fresh he _ := by
    rcases entry_add he with he | ⟨-, rfl⟩
    · exact .inl he
    · exact .inr ⟨Nat.le_refl _, x, node_add_new t dir s x, hnew⟩

theorem makeDirectories (t : FileTree) (p : Path) : Extends anything t (t.makeDirectories p).2 := by
  refine makeAll_preserves ?_ _ (refl anything t)
  intro u u' q hu hmade
  rw [makeDirectory] at hmade
  split at hmade
  · cases hmade
    exact hu.trans (add _ trivial)
  · cases hmade
  · cases hmade

theorem setNode (h : Extends new t t') (hn : t.node? n = none) (hnew : ∀ s y, new s y → new s x) :
    Extends new t (t'.setNode n x) where
  node {k y} hk := by
    have hne : n ≠ k := by
      rintro rfl
      rw [hn] at hk
      cases hk
    rw [node?, FileTree.setNode, List.getElem?_set_ne hne]
    exact h.node hk
  entry := h.entry
  fresh {i e} he hlive := by
    refine (h.fresh he hlive).imp_right ?_
    rintro ⟨hnode, y, hy, hnewy⟩
    refine ⟨hnode, ?_⟩
    by_cases heq : n = e.node
    · refine ⟨x, ?_, hnew _ _ hnewy⟩
      rw [heq]
      exact List.getElem?_set_self (List.getElem?_eq_some_iff.mp hy).1
    · refine ⟨y, ?_, hnewy⟩
      rw [node?, FileTree.setNode, List.getElem?_set_ne heq]
      exact hy

theorem kill (h : Extends new t t') (hi : t.entries[i]? = none) : Extends new t (t'.kill i) where
  node := h.node
  entry {j r} hj := by
    have hne : j ≠ i := by
      rintro rfl
      rw [hi] at hj
      cases hj
    rw [FileTree.kill, entry_modify_ne hne]
    exact h.entry hj
  fresh he hlive := by
    rcases entry_modify he with ⟨-, r, -, rfl⟩ | ⟨-, he⟩
    · cases hlive
    · exact h.fresh he hlive

end Extends

/-- No entry bears the name, and no symbolic link ends in it. -/
structure Unused (t : FileTree) (name : String) : Prop where
  entries : ∀ e ∈ t.entries, e.live = true → e.name ≠ name
  links : ∀ {n : Nat} {p : Path}, t.node? n = some (.link p) → p.parts.getLast? ≠ some name

namespace Unused

theorem lookup (h : t.Unused name) (dir : Nat) : t.lookup dir name = none :=
  lookup_none.mpr fun e he hlive _ => h.entries e he hlive

theorem leads (h : t.Unused name) (hleads : Leads t pass follow n dir parts target)
    (hlast : ∀ s, parts.getLast? = some s → s = name) :
    (∃ d, target = .directory d) ∨ ∃ d, target = .vacant d name := by
  induction hleads with
  | done n dir => exact .inl ⟨dir, rfl⟩
  | here _ ih => exact ih fun s hs => hlast s (getLast_cons hs)
  | up _ ih => exact ih fun s hs => hlast s (getLast_cons hs)
  | @vacant n dir s _ _ =>
      obtain rfl := hlast s rfl
      exact .inr ⟨dir, rfl⟩
  | @entry n dir i s e _ he _ =>
      rw [hlast s rfl, h.lookup] at he
      cases he
  | enter _ _ _ _ _ _ ih => exact ih fun s hs => hlast s (getLast_cons hs)
  | @jump n dir i s e rest p target _ _ he _ _ _ _ ih =>
      have hcons : rest ≠ [] := by
        rintro rfl
        rw [hlast s rfl, h.lookup] at he
        cases he
      refine ih fun s hs => ?_
      rw [List.getLast?_append_of_ne_nil _ hcons] at hs
      exact hlast s (getLast_cons hs)

theorem leads_back (hs : t.Sound) (h : t.Unused name) (hextends : Extends (fileNamed name) t t')
    (hleads : Leads t' pass follow n dir parts target) (hdir : t.isDirectoryNode dir = true)
    (hlast : parts.getLast? ≠ some name) : Leads t pass follow n dir parts target := by
  have hrest {s : String} {rest : List String} (hne : (s :: rest).getLast? ≠ some name) :
      rest.getLast? ≠ some name := fun hs => hne (getLast_cons hs)
  have hpassed {d i : Nat} {s : String} {e : Entry} (he : t'.lookup d s = some (i, e))
      (hway : ∀ bs, t'.node? e.node ≠ some (.file bs)) : t.lookup d s = some (i, e) := by
    refine (hextends.lookup_back hs he).resolve_right ?_
    rintro ⟨x, hx, -, bs, rfl⟩
    exact hway bs hx
  induction hleads with
  | done n dir => exact .done n dir
  | here _ ih => exact .here (ih hdir (hrest hlast))
  | up _ ih =>
      refine .up ?_
      rw [← hextends.parentOf hdir]
      refine ih ?_ (hrest hlast)
      rw [hextends.parentOf hdir]
      exact hs.parentOf_directory _
  | vacant hnamed hfree => exact .vacant hnamed (hextends.lookup_none hfree)
  | entry hnamed he hlink =>
      have he' := (hextends.lookup_back hs he).resolve_right fun ⟨x, _, hname, _⟩ => hlast (by rw [hname]; rfl)
      refine .entry hnamed he' ?_
      rwa [← hextends.node_of_lookup hs he']
  | enter hnamed hp he hnode hcons _ ih =>
      have he' := hpassed he (by rw [hnode]; nofun)
      have hnode' := (hextends.node_of_lookup hs he').symm.trans hnode
      exact .enter hnamed hp he' hnode' hcons (ih (isDirectoryNode_iff.mpr hnode') (hrest hlast))
  | @jump n dir i s e rest p target hnamed hp he hlink hfollow htext _ ih =>
      have he' := hpassed he (by rw [hlink]; nofun)
      have hlink' := (hextends.node_of_lookup hs he').symm.trans hlink
      refine .jump hnamed hp he' hlink' hfollow htext (ih ?_ ?_)
      · split
        · exact hs.base _ (by decide)
        · exact hdir
      · by_cases hcons : rest = []
        · rw [hcons, List.append_nil]
          exact h.links hlink'
        · rw [List.getLast?_append_of_ne_nil _ hcons]
          exact hrest hlast

theorem fileExists_back (hs : t.Sound) (h : t.Unused name) (hextends : Extends (fileNamed name) t t')
    (hlast : p.parts.getLast? ≠ some name) (hp : t'.fileExists p = true) : t.fileExists p = true := by
  cases hfound : t'.resolve true p with
  | error f =>
      rw [fileExists, locate, hfound] at hp
      cases hp
  | ok target =>
      obtain ⟨hwalk, hslash⟩ := walk_of_resolve hfound
      have hleads := h.leads_back hs hextends (leads_of_walk hwalk) (hs.start_directory p) hlast
      have hfound' : t.resolve true p = .ok target := by
        refine resolve_congr hfound hleads.walk ?_
        rintro i e rfl hend
        obtain ⟨d, hd⟩ | ⟨d, s, htarget, -⟩ := hleads.found hs (hs.start_directory p)
        · cases hd
        · rw [← hextends.isDirectoryNode hs (of_targetAt_entry htarget)]
          exact hslash i e rfl hend
      rw [fileExists, locate, hfound] at hp
      rw [fileExists, locate, hfound']
      exact hp

end Unused

theorem Leads.unnamed (h : Leads t pass follow n dir parts target)
    (hlast : ∀ s, parts.getLast? = some s → s = "." ∨ s = "..") : ∃ d, target = .directory d := by
  have hnot {s : String} (hs : Named s) : ¬ (s = "." ∨ s = "..") := fun hdots => hdots.elim hs.here hs.up
  induction h with
  | done n dir => exact ⟨dir, rfl⟩
  | here _ ih => exact ih fun s hs => hlast s (getLast_cons hs)
  | up _ ih => exact ih fun s hs => hlast s (getLast_cons hs)
  | vacant hs _ => exact absurd (hlast _ rfl) (hnot hs)
  | entry hs _ _ => exact absurd (hlast _ rfl) (hnot hs)
  | enter _ _ _ _ _ _ ih => exact ih fun s hs => hlast s (getLast_cons hs)
  | @jump n dir i s e rest p target hs _ _ _ _ _ _ ih =>
      have hcons : rest ≠ [] := by
        rintro rfl
        exact hnot hs (hlast s rfl)
      refine ih fun s hs => ?_
      rw [List.getLast?_append_of_ne_nil _ hcons] at hs
      exact hlast s (getLast_cons hs)

theorem write_unnamed (hlast : ∀ s, p.parts.getLast? = some s → s = "." ∨ s = "..") : t.write p bs ≠ .ok t' := by
  intro hwrite
  rw [write] at hwrite
  cases hfound : t.resolve true p with
  | error f =>
      rw [hfound] at hwrite
      cases hwrite
  | ok target =>
      obtain ⟨d, rfl⟩ := (leads_of_walk (walk_of_resolve hfound).1).unnamed hlast
      rw [hfound] at hwrite
      cases hwrite

/-- All that is new is a file of one name in a directory, and a path leads to it. -/
structure Beside (t u : FileTree) (p : Path) (dir : Nat) (name : String) : Prop where
  slash : p.endsWithSlash = false
  sound : u.Sound
  grows : Extends (fileNamed name) t u
  found : u.lookup dir name = some (t.entries.length, ⟨dir, name, t.nodes.length, true⟩)
  leads : ∀ follow, u.resolve follow p = .ok (u.targetAt dir name)
  file : ∃ bs, u.node? t.nodes.length = some (.file bs)

variable {u u' : FileTree}

theorem Unused.write (hs : t.Sound) (h : t.Unused name) (hlast : ∀ s, p.parts.getLast? = some s → s = name)
    (hwrite : t.write p bs = .ok u) : ∃ d, Beside t u p d name := by
  rw [FileTree.write] at hwrite
  cases hfound : t.resolve true p with
  | error f =>
      rw [hfound] at hwrite
      cases hwrite
  | ok target =>
      rw [hfound] at hwrite
      rcases h.leads (leads_of_walk (walk_of_resolve hfound).1) hlast with ⟨d, rfl⟩ | ⟨d, rfl⟩
      · cases hwrite
      dsimp only at hwrite
      split at hwrite
      · cases hwrite
      next hslash =>
      cases hwrite
      have hfree := h.lookup d
      have hslash := eq_false_of_ne_true hslash
      obtain ⟨n, hn⟩ | ⟨d', s, htarget, hdir, -⟩ := resolve_found hs hfound
      · cases hn
      obtain ⟨rfl, rfl, -⟩ := of_targetAt_vacant htarget
      have hkeeps := keeps_add hs hdir hfree (.file bs) (by simp)
      have hnew : (t.add d' s (.file bs)).lookup d' s =
          some (t.entries.length, ⟨d', s, t.nodes.length, true⟩) := by
        refine hkeeps.sound.lookup_entry (e := ⟨d', s, t.nodes.length, true⟩) ?_ rfl
        simp [FileTree.add]
      have hnolink : (t.add d' s (.file bs)).NoLinkAt d' s := by
        intro i e q he hq
        rw [hnew] at he
        cases he
        rw [node_add_new] at hq
        cases hq
      rw [htarget] at hfound
      refine ⟨d', hslash, hkeeps.sound, .add _ ⟨rfl, bs, rfl⟩, hnew, ?_, bs, node_add_new t d' s _⟩
      intro follow
      cases follow with
      | true => exact hkeeps.resolve_either hs hslash hfound fun _ => hnolink
      | false =>
          refine hkeeps.resolve hs hslash (resolve_unfollowed hfound hslash ?_)
          intro k s' hs' i e q he
          obtain rfl := hlast s' hs'
          rw [h.lookup] at he
          cases he

namespace Beside

theorem entry (h : Beside t u p dir name) (follow : Bool) :
    u.resolve follow p = .ok (.entry t.entries.length ⟨dir, name, t.nodes.length, true⟩) := by
  rw [h.leads follow, targetAt_some h.found]

theorem write (h : Beside t u p dir name) (hwrite : u.write p bs = .ok u') : Beside t u' p dir name := by
  obtain ⟨old, hold⟩ := h.file
  rw [FileTree.write, h.entry true] at hwrite
  dsimp only at hwrite
  rw [not_directory hold, if_neg (by decide)] at hwrite
  cases hwrite
  have hkeeps := keeps_setNode h.sound hold bs
  have hnew : (u.setNode t.nodes.length (.file bs)).node? t.nodes.length = some (.file bs) :=
    List.getElem?_set_self (List.getElem?_eq_some_iff.mp hold).1
  refine ⟨h.slash, hkeeps.sound, h.grows.setNode (List.getElem?_eq_none (Nat.le_refl _)) ?_, h.found, ?_, bs, hnew⟩
  · rintro s y ⟨hname, -⟩
    exact ⟨hname, bs, rfl⟩
  · intro follow
    refine hkeeps.resolve_either h.sound h.slash (h.leads follow) ?_
    intro _ i e q he hq
    change u.lookup dir name = _ at he
    rw [h.found] at he
    cases he
    rw [hnew] at hq
    cases hq

theorem removeFile (h : Beside t u p dir name) (hremove : u.removeFile p = .ok u') :
    Extends (fileNamed name) t u' := by
  obtain ⟨bs, hfile⟩ := h.file
  rw [FileTree.removeFile, h.entry false] at hremove
  dsimp only at hremove
  rw [not_directory hfile, if_neg (by decide)] at hremove
  cases hremove
  exact h.grows.kill (List.getElem?_eq_none (Nat.le_refl _))

end Beside

end LogTail.FileTree
