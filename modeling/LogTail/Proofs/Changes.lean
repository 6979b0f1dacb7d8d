import LogTail.Proofs.Places

namespace LogTail.FileTree

variable {t t' : FileTree} {free : Nat → String → Prop} {i j n dir : Nat} {s name : String} {e r : Entry}
  {p q : Path} {bs : Bytes}

theorem node_add (ht : n < t.nodes.length) (node : Node) : (t.add dir s node).node? n = t.node? n :=
  List.getElem?_append_left ht

theorem node_add_new (t : FileTree) (dir : Nat) (s : String) (node : Node) :
    (t.add dir s node).node? t.nodes.length = some node := by
  simp [add, node?]

theorem Way.lt (h : t.Way n) : n < t.nodes.length := by
  rcases h with h | ⟨p, h⟩ <;> exact (List.getElem?_eq_some_iff.mp h).1

theorem entry_add {node : Node} (h : (t.add dir s node).entries[i]? = some e) :
    t.entries[i]? = some e ∨ i = t.entries.length ∧ e = ⟨dir, s, t.nodes.length, true⟩ := by
  rcases Nat.lt_trichotomy i t.entries.length with hlt | rfl | hgt
  · left
    rwa [add, List.getElem?_append_left hlt] at h
  · right
    simpa [add, eq_comm] using h
  · rw [add, List.getElem?_eq_none (by simp; omega)] at h
    cases h

theorem sound_add (hs : t.Sound) (hdir : t.isDirectoryNode dir = true) (hfree : t.lookup dir s = none)
    (node : Node) : (t.add dir s node).Sound := by
  have hdirs {d : Nat} (hd : t.isDirectoryNode d = true) : (t.add dir s node).isDirectoryNode d = true := by
    rw [isDirectoryNode_iff, node_add (directory_lt hd), isDirectoryNode_iff.mp hd]
  have hentries {e : Entry} (he : e ∈ (t.add dir s node).entries) :
      e ∈ t.entries ∨ e = ⟨dir, s, t.nodes.length, true⟩ := by
    simpa [add] using he
  refine ⟨fun n hn => hdirs (hs.base n hn), ?_, ?_, ?_⟩
  · intro e he
    rcases hentries he with he | rfl
    · exact hdirs (hs.dirs e he)
    · exact hdirs hdir
  · intro e he
    rw [add, List.length_append, List.length_singleton]
    rcases hentries he with he | rfl
    · exact Nat.lt_succ_of_lt (hs.nodes e he)
    · exact Nat.lt_succ_self _
  · intro i j e r he hr helive hrlive hed hname
    rcases entry_add he with he | ⟨rfl, rfl⟩
    · rcases entry_add hr with hr | ⟨rfl, rfl⟩
      · exact hs.apart he hr helive hrlive hed hname
      · exact absurd hname (lookup_none.mp hfree e (List.mem_of_getElem? he) helive hed)
    · rcases entry_add hr with hr | ⟨rfl, rfl⟩
      · exact absurd hname.symm (lookup_none.mp hfree r (List.mem_of_getElem? hr) hrlive hed.symm)
      · rfl

theorem keeps_add (hs : t.Sound) (hdir : t.isDirectoryNode dir = true) (hfree : t.lookup dir s = none)
    (node : Node) (hnode : ∀ p, node ≠ .link p) : Keeps t (t.add dir s node) := by
  have hsound := sound_add hs hdir hfree node
  refine ⟨hsound, fun hn => node_add hn.lt node, ?_, ?_, ?_⟩
  · intro d i s' e he hway
    obtain ⟨hat, hlive, rfl, rfl⟩ := of_lookup he
    refine .inr (hsound.lookup_entry ?_ hlive)
    rw [add, List.getElem?_append_left (List.getElem?_eq_some_iff.mp hat).1, hat]
  · intro d hd
    rw [parentOf, parentOf]
    split
    · rfl
    · have hother : t.nodes.length ≠ d := Nat.ne_of_gt (directory_lt hd)
      rw [add, List.find?_append]
      simp [hother]
  · intro d i s' e p he hp
    obtain ⟨hat, hlive, rfl, rfl⟩ := of_lookup he
    rcases entry_add hat with hat | ⟨-, rfl⟩
    · rw [node_add (hs.nodes e (List.mem_of_getElem? hat))] at hp
      exact ⟨hs.lookup_entry hat hlive, hp⟩
    · rw [node_add_new] at hp
      exact absurd (Option.some.inj hp) (hnode p)

theorem keeps_setNode (hs : t.Sound) {old : Bytes} (hfile : t.node? n = some (.file old)) (bs : Bytes) :
    Keeps t (t.setNode n (.file bs)) := by
  have hlt : n < t.nodes.length := (List.getElem?_eq_some_iff.mp hfile).1
  have hother {k : Nat} (hk : k ≠ n) : (t.setNode n (.file bs)).node? k = t.node? k :=
    List.getElem?_set_ne hk.symm
  have hway {k : Nat} (hk : t.Way k) : (t.setNode n (.file bs)).node? k = t.node? k := by
    refine hother ?_
    rintro rfl
    rcases hk with hk | ⟨p, hk⟩ <;> (rw [hfile] at hk; cases hk)
  have hdirs {d : Nat} (hd : t.isDirectoryNode d = true) :
      (t.setNode n (.file bs)).isDirectoryNode d = true := by
    rw [isDirectoryNode_iff] at hd ⊢
    rw [hway (.inl hd), hd]
  refine ⟨⟨fun k hk => hdirs (hs.base k hk), fun e he => hdirs (hs.dirs e he), ?_, hs.apart⟩, hway,
    fun he _ => .inr he, fun _ => rfl, ?_⟩
  · intro e he
    rw [setNode, List.length_set]
    exact hs.nodes e he
  · intro d i s e p he hp
    by_cases hn : e.node = n
    · rw [hn, node?, setNode, List.getElem?_set_self hlt] at hp
      cases hp
    · rw [hother hn] at hp
      exact ⟨he, hp⟩

theorem entry_modify {f : Entry → Entry} (h : (t.entries.modify i f)[j]? = some r) :
    (j = i ∧ ∃ e, t.entries[i]? = some e ∧ r = f e) ∨ (j ≠ i ∧ t.entries[j]? = some r) := by
  rw [List.getElem?_modify] at h
  obtain ⟨e, he, rfl⟩ := Option.map_eq_some_iff.mp h
  by_cases hij : i = j
  · left
    rw [if_pos hij]
    rw [← hij] at he
    exact ⟨hij.symm, e, he, rfl⟩
  · right
    rw [if_neg hij]
    exact ⟨fun h => hij h.symm, he⟩

theorem entry_modify_ne {f : Entry → Entry} (hij : j ≠ i) :
    (t.entries.modify i f)[j]? = t.entries[j]? := by
  rw [List.getElem?_modify]
  simp [hij.symm]

theorem entry_modify_self {f : Entry → Entry} (he : t.entries[i]? = some e) :
    (t.entries.modify i f)[i]? = some (f e) := by
  rw [List.getElem?_modify]
  simp [he]

theorem find_modify {f : Entry → Entry} {wanted : Entry → Bool} {es : List Entry}
    (h : ∀ e, es[i]? = some e → wanted e = false ∧ wanted (f e) = false) :
    (es.modify i f).find? wanted = es.find? wanted := by
  induction es generalizing i with
  | nil => simp
  | cons a es ih =>
      cases i with
      | zero =>
          obtain ⟨ha, hfa⟩ := h a rfl
          simp [ha, hfa]
      | succ i => simp [List.find?_cons, ih h]

theorem sound_modify (hs : t.Sound) {f : Entry → Entry} (he : t.entries[i]? = some e)
    (hnode : (f e).node = e.node) (hdir : t.isDirectoryNode (f e).dir = true)
    (hfree : (f e).live = true → ∀ {j : Nat} {r : Entry}, t.entries[j]? = some r → r.live = true →
      r.dir = (f e).dir → r.name = (f e).name → j = i) :
    Sound { t with entries := t.entries.modify i f } := by
  have hentries {r : Entry} (hr : r ∈ t.entries.modify i f) : r ∈ t.entries ∨ r = f e := by
    obtain ⟨j, hj⟩ := List.getElem?_of_mem hr
    rcases entry_modify hj with ⟨-, e', he', rfl⟩ | ⟨-, hr⟩
    · rw [he] at he'
      cases he'
      exact .inr rfl
    · exact .inl (List.mem_of_getElem? hr)
  refine ⟨hs.base, ?_, ?_, ?_⟩
  · intro r hr
    rcases hentries hr with hr | rfl
    · exact hs.dirs r hr
    · exact hdir
  · intro r hr
    rcases hentries hr with hr | rfl
    · exact hs.nodes r hr
    · rw [hnode]
      exact hs.nodes e (List.mem_of_getElem? he)
  · intro j k r r' hr hr' hlive hlive' hdirs hnames
    rcases entry_modify hr with ⟨rfl, a, ha, rfl⟩ | ⟨-, hat⟩
    · rw [he] at ha
      cases ha
      rcases entry_modify hr' with ⟨rfl, -⟩ | ⟨-, hat'⟩
      · rfl
      · exact (hfree hlive hat' hlive' hdirs.symm hnames.symm).symm
    · rcases entry_modify hr' with ⟨rfl, a, ha, rfl⟩ | ⟨-, hat'⟩
      · rw [he] at ha
        cases ha
        exact hfree hlive' hat hlive hdirs hnames
      · exact hs.apart hat hat' hlive hlive' hdirs hnames

theorem keeps_modify (hs : t.Sound) {f : Entry → Entry} (he : t.entries[i]? = some e)
    (hnode : (f e).node = e.node) (hdir : t.isDirectoryNode e.node = false)
    (hway : t.Way e.node → (f e).live = false ∧ free e.dir e.name)
    (hsound : Sound { t with entries := t.entries.modify i f }) :
    KeepsBut free t { t with entries := t.entries.modify i f } := by
  refine ⟨hsound, fun _ => rfl, ?_, ?_, ?_⟩
  · intro d j s r hr hrway
    obtain ⟨hat, hlive, rfl, rfl⟩ := of_lookup hr
    by_cases hij : j = i
    · rw [hij, he] at hat
      cases hat
      exact .inl (hway hrway).2
    · refine .inr (hsound.lookup_entry ?_ hlive)
      rw [entry_modify_ne hij, hat]
  · intro d hd
    have hne : e.node ≠ d := by
      rintro rfl
      rw [hdir] at hd
      cases hd
    rw [parentOf, parentOf]
    dsimp only
    rw [find_modify]
    intro a ha
    rw [he] at ha
    cases ha
    simp [hnode, hne]
  · intro d j s r p hr hp
    obtain ⟨hat, hlive, rfl, rfl⟩ := of_lookup hr
    rcases entry_modify hat with ⟨rfl, a, ha, rfl⟩ | ⟨-, hat⟩
    · rw [he] at ha
      cases ha
      rw [hnode] at hp
      rw [(hway (.inr ⟨p, hp⟩)).1] at hlive
      cases hlive
    · exact ⟨hs.lookup_entry hat hlive, hp⟩

theorem keeps_kill (hs : t.Sound) (he : t.entries[i]? = some e) (hdir : t.isDirectoryNode e.node = false)
    (hway : t.Way e.node → free e.dir e.name) : KeepsBut free t (t.kill i) := by
  refine keeps_modify hs he rfl hdir (fun h => ⟨rfl, hway h⟩) (sound_modify hs he rfl ?_ nofun)
  exact hs.dirs e (List.mem_of_getElem? he)

theorem not_way (h : t.node? n = some (.file bs)) : ¬ t.Way n := by
  rintro (hn | ⟨p, hn⟩) <;> (rw [h] at hn; cases hn)

theorem not_directory (h : t.node? n = some (.file bs)) : t.isDirectoryNode n = false := by
  simp [isDirectoryNode, h]

theorem keeps_moveEntry (hs : t.Sound) (he : t.entries[i]? = some e) (hlive : e.live = true)
    (hfile : t.node? e.node = some (.file bs)) (hdir : t.isDirectoryNode dir = true)
    (hfree : t.lookup dir s = none) :
    KeepsBut free t (t.moveEntry i dir s) ∧
      (t.moveEntry i dir s).lookup dir s = some (i, { e with dir := dir, name := s }) := by
  have hsound : (t.moveEntry i dir s).Sound := by
    refine sound_modify hs he rfl hdir ?_
    intro _ j r hr hrlive hrdir hname
    exact absurd hname (lookup_none.mp hfree r (List.mem_of_getElem? hr) hrlive hrdir)
  refine ⟨keeps_modify hs he rfl (not_directory hfile) (fun h => absurd h (not_way hfile)) hsound, ?_⟩
  exact hsound.lookup_entry (entry_modify_self he) hlive

theorem lookup_kill (hs : t.Sound) (hr : t.lookup dir s = some (j, r)) :
    (t.kill j).lookup dir s = none := by
  obtain ⟨hat, hlive, rfl, rfl⟩ := of_lookup hr
  rw [lookup_none]
  intro e he helive hdir hname
  obtain ⟨k, hk⟩ := List.getElem?_of_mem he
  rcases entry_modify hk with ⟨-, a, -, rfl⟩ | ⟨hne, hk⟩
  · cases helive
  · exact hne (hs.apart hk hat helive hlive hdir hname)

theorem overwrite_keeps (hs : t.Sound) (hnolink : ∀ d s, p.parts.getLast? = some s → t.NoLinkAt d s)
    (hfound : t.resolve true p = .ok (.entry i e)) (hdir : ¬ t.isDirectoryNode e.node = true) :
    Keeps t (t.setNode e.node (.file bs)) ∧
      (t.setNode e.node (.file bs)).resolve false p = .ok (.entry i e) ∧
      (t.setNode e.node (.file bs)).node? e.node = some (.file bs) := by
  have hslash : p.endsWithSlash = false := by
    refine eq_false_of_ne_true ?_
    intro hslash
    exact hdir ((walk_of_resolve hfound).2 i e rfl hslash)
  obtain ⟨n, hn⟩ | ⟨d, s, htarget, -, hlink⟩ := resolve_found hs hfound
  · cases hn
  have hlookup := of_targetAt_entry htarget
  obtain ⟨hat, -⟩ := of_lookup hlookup
  have hlt := hs.nodes e (List.mem_of_getElem? hat)
  obtain ⟨old, hold⟩ : ∃ old, t.node? e.node = some (.file old) := by
    cases hnode : t.node? e.node with
    | none => exact absurd (List.getElem?_eq_none_iff.mp hnode) (Nat.not_le.mpr hlt)
    | some node =>
        cases node with
        | file old => exact ⟨old, rfl⟩
        | directory => exact absurd (isDirectoryNode_iff.mpr hnode) hdir
        | link target => exact absurd hnode (hlink rfl i e target hlookup)
  have hkeeps := keeps_setNode hs hold bs
  refine ⟨hkeeps, ?_, List.getElem?_set_self hlt⟩
  have hp := resolve_unfollowed hfound hslash hnolink
  rw [htarget] at hp
  rw [hkeeps.resolve hs hslash hp]
  exact congrArg Except.ok (targetAt_some hlookup)

theorem create_keeps (hs : t.Sound) (hnolink : ∀ d s, p.parts.getLast? = some s → t.NoLinkAt d s)
    (hfound : t.resolve true p = .ok (.vacant dir name)) (hslash : p.endsWithSlash = false) :
    Keeps t (t.add dir name (.file bs)) ∧
      ∃ i e, (t.add dir name (.file bs)).resolve false p = .ok (.entry i e) ∧
        (t.add dir name (.file bs)).node? e.node = some (.file bs) := by
  obtain ⟨n, hn⟩ | ⟨d, s, htarget, hdir, -⟩ := resolve_found hs hfound
  · cases hn
  obtain ⟨rfl, rfl, hfree⟩ := of_targetAt_vacant htarget
  have hkeeps := keeps_add hs hdir hfree (.file bs) nofun
  have hnew : (t.add d s (.file bs)).lookup d s = some (t.entries.length, ⟨d, s, t.nodes.length, true⟩) := by
    refine hkeeps.sound.lookup_entry (e := ⟨d, s, t.nodes.length, true⟩) ?_ rfl
    simp [add]
  refine ⟨hkeeps, t.entries.length, ⟨d, s, t.nodes.length, true⟩, ?_, node_add_new t d s _⟩
  have hp := resolve_unfollowed hfound hslash hnolink
  rw [htarget] at hp
  rw [hkeeps.resolve hs hslash hp]
  exact congrArg Except.ok (targetAt_some hnew)

/-- A file can be written, unless it is reached through a link of its own name. -/
theorem write_keeps (hs : t.Sound) (hnolink : ∀ d s, p.parts.getLast? = some s → t.NoLinkAt d s)
    (h : t.write p bs = .ok t') :
    Keeps t t' ∧ ∃ i e, t'.resolve false p = .ok (.entry i e) ∧ t'.node? e.node = some (.file bs) := by
  rw [write] at h
  split at h
  · cases h
  · next i e hfound =>
      split at h
      · cases h
      next hdir =>
      cases h
      obtain ⟨hkeeps, hp, hfile⟩ := overwrite_keeps hs hnolink hfound hdir
      exact ⟨hkeeps, i, e, hp, hfile⟩
  · next d s hfound =>
      split at h
      · cases h
      next hslash =>
      cases h
      exact create_keeps hs hnolink hfound (eq_false_of_ne_true hslash)
  · cases h

theorem entry_of_resolve (hs : t.Sound) (hp : t.resolve false p = .ok (.entry i e)) :
    t.entries[i]? = some e ∧ e.live = true := by
  obtain ⟨n, hn⟩ | ⟨d, s, htarget, -⟩ := resolve_found hs hp
  · cases hn
  obtain ⟨hat, hlive, -⟩ := of_lookup (of_targetAt_entry htarget)
  exact ⟨hat, hlive⟩

theorem removeFile_keeps (hs : t.Sound) (hp : t.resolve false p = .ok (.entry i e))
    (hfile : t.node? e.node = some (.file bs)) (h : t.removeFile p = .ok t') : Keeps t t' := by
  rw [removeFile, hp] at h
  dsimp only at h
  split at h
  · cases h
  · cases h
    exact keeps_kill hs (entry_of_resolve hs hp).1 (not_directory hfile) fun h => absurd h (not_way hfile)

theorem directory_of_resolve (hs : t.Sound) (hq : t.resolve false q = .ok (t.targetAt dir name)) :
    t.isDirectoryNode dir = true := by
  rcases resolve_found hs hq with ⟨n, hn⟩ | ⟨d, s, htarget, hd, -⟩
  · exact absurd hn (targetAt_ne t dir name n)
  · cases hfound : t.lookup dir name with
    | none =>
        rw [targetAt_none hfound] at htarget
        obtain ⟨rfl, -⟩ := of_targetAt_vacant htarget
        exact hd
    | some found =>
        obtain ⟨hat, -, rfl, -⟩ := of_lookup hfound
        exact hs.dirs _ (List.mem_of_getElem? hat)

theorem keeps_replace (hs : t.Sound) (he : t.entries[i]? = some e) (hlive : e.live = true)
    (hfile : t.node? e.node = some (.file bs)) (hfound : t.lookup dir name = some (j, r))
    (hother : ¬ r.node = e.node) (hrdir : t.isDirectoryNode r.node = false) :
    KeepsBut (fun d s => d = dir ∧ s = name) t ((t.kill j).moveEntry i dir name) ∧
      ((t.kill j).moveEntry i dir name).lookup dir name = some (i, { e with dir := dir, name := name }) := by
  obtain ⟨hrat, hrlive, rfl, rfl⟩ := of_lookup hfound
  have hkill : KeepsBut (fun d s => d = r.dir ∧ s = r.name) t (t.kill j) :=
    keeps_kill hs hrat hrdir fun _ => ⟨rfl, rfl⟩
  have he' : (t.kill j).entries[i]? = some e := by
    rw [kill, entry_modify_ne, he]
    rintro rfl
    rw [he] at hrat
    cases hrat
    exact hother rfl
  have hdir := hs.dirs r (List.mem_of_getElem? hrat)
  obtain ⟨hmove, hnew⟩ := keeps_moveEntry hkill.sound he' hlive hfile hdir (lookup_kill hs hfound)
  exact ⟨hkill.trans hmove, hnew⟩

theorem rename_keeps (hs : t.Sound) (hp : t.resolve false p = .ok (.entry i e))
    (hfile : t.node? e.node = some (.file bs)) (hq : t.resolve false q = .ok (t.targetAt dir name))
    (h : t.rename p q = .ok t') :
    KeepsBut (fun d s => d = dir ∧ s = name) t t' ∧
      ∃ j r, t'.lookup dir name = some (j, r) ∧ t'.node? r.node = some (.file bs) := by
  obtain ⟨hat, hlive⟩ := entry_of_resolve hs hp
  rw [rename, hp] at h
  dsimp only at h
  cases hfound : t.lookup dir name with
  | none =>
      have hdir := directory_of_resolve hs hq
      rw [hq, not_directory hfile, targetAt_none hfound] at h
      dsimp only at h
      split at h
      · cases h
      rw [if_neg (by simp)] at h
      cases h
      obtain ⟨hkeeps, hnew⟩ := keeps_moveEntry hs hat hlive hfile hdir hfound
      exact ⟨hkeeps, _, _, hnew, hfile⟩
  | some found =>
      obtain ⟨j, r⟩ := found
      rw [hq, not_directory hfile, targetAt_some hfound] at h
      dsimp only at h
      split at h
      · next hsame =>
          cases h
          exact ⟨.refl hs, j, r, hfound, by rw [hsame, hfile]⟩
      next hother =>
      rw [if_neg (by decide)] at h
      split at h
      · cases h
      next hrdir =>
      cases h
      obtain ⟨hkeeps, hnew⟩ := keeps_replace hs hat hlive hfile hfound hother (eq_false_of_ne_true hrdir)
      obtain ⟨-, -, rfl, rfl⟩ := of_lookup hfound
      exact ⟨hkeeps, _, _, hnew, hfile⟩

theorem rename_slash (hp : t.resolve false p = .ok (.entry i e)) (hfile : t.node? e.node = some (.file bs))
    (h : t.rename p q = .ok t') : q.endsWithSlash = false := by
  have hnotdir := not_directory hfile
  refine eq_false_of_ne_true ?_
  intro hslash
  rw [rename, hp] at h
  dsimp only at h
  rw [hnotdir] at h
  split at h
  · cases h
  · cases h
  · rw [hslash] at h
    cases h
  · next j r hq =>
      have hrdir := (walk_of_resolve hq).2 j r rfl hslash
      split at h
      · next hsame =>
          rw [hsame, hnotdir] at hrdir
          cases hrdir
      · rw [hrdir] at h
        cases h

theorem makeDirectory_keeps (hs : t.Sound) (h : t.makeDirectory p = .ok t') : Keeps t t' := by
  rw [makeDirectory] at h
  split at h
  · next d s hfound =>
      cases h
      obtain ⟨n, hn⟩ | ⟨d', s', htarget, hdir, -⟩ := resolve_found hs hfound
      · cases hn
      obtain ⟨rfl, rfl, hfree⟩ := of_targetAt_vacant htarget
      exact keeps_add hs hdir hfree .directory nofun
  · cases h
  · cases h

theorem makeAll_preserves {motive : FileTree → Prop}
    (hmade : ∀ {t t' : FileTree} {p : Path}, motive t → t.makeDirectory p = .ok t' → motive t')
    (ps : List Path) (ht : motive t) : motive (makeAll ps t).2 := by
  induction ps generalizing t with
  | nil => exact ht
  | cons p ps ih =>
      rw [makeAll]
      split
      · exact ht
      split
      · next hfirst => exact hmade ht hfirst
      · have hrest := ih ht
        split
        · next hfailed =>
            rw [hfailed] at hrest
            exact hrest
        next hparents =>
        rw [hparents] at hrest
        split
        · next hlast => exact hmade hrest hlast
        · split <;> exact hrest
      · split <;> exact ht

theorem makeAll_keeps (ps : List Path) (hs : t.Sound) : Keeps t (makeAll ps t).2 :=
  makeAll_preserves (motive := Keeps t) (fun h hmade => h.trans (makeDirectory_keeps h.sound hmade)) ps (.refl hs)

theorem makeDirectories_keeps (hs : t.Sound) (p : Path) : Keeps t (t.makeDirectories p).2 :=
  makeAll_keeps _ hs

theorem contentAt_file (hp : t.resolve true p = .ok (.entry i e)) (hfile : t.node? e.node = some (.file bs)) :
    t.fileExists p = true ∧ t.contentAt p = .ok bs := by
  have hnotdir := not_directory hfile
  constructor
  · rw [fileExists, locate, hp]
  · rw [contentAt, openFile, hp]
    change t.readNode e.node = _
    rw [readNode, hnotdir, content, hfile]
    rfl

end LogTail.FileTree
