import LogTail.Selector
import LogTail.Proofs.Places
import LogTail.Proofs.Parts
import LogTail.Proofs.PathOrder

namespace LogTail

namespace FileTree

variable {t t' : FileTree} {follow : Bool} {n dir : Nat} {s : String} {parts : List String}

structure Proper (s : String) : Prop extends Path.IsName s where
  fits : s.utf8ByteSize ≤ nameLimit
  nul : Char.ofNat 0 ∉ s.toList

theorem Proper.named (h : Proper s) : Named s := ⟨h.here, h.up, h.fits⟩

instance : DecidablePred Proper := fun s =>
  decidable_of_iff (Path.IsName s ∧ s.utf8ByteSize ≤ nameLimit ∧ Char.ofNat 0 ∉ s.toList)
    ⟨fun ⟨hname, hfits, hnul⟩ => ⟨hname, hfits, hnul⟩, fun h => ⟨h.toIsName, h.fits, h.nul⟩⟩

/-- A sound tree in which every entry bears a proper name and every directory stands in one place. -/
structure Tidy (t : FileTree) : Prop extends Sound t where
  names : ∀ e ∈ t.entries, e.live = true → Proper e.name
  single : ∀ {i j : Nat} {e r : Entry}, t.entries[i]? = some e → t.entries[j]? = some r → e.live = true →
    r.live = true → e.node = r.node → t.isDirectoryNode e.node = true → i = j

def Apart (t : FileTree) (e r : Entry) : Prop :=
  e.live = true → r.live = true → ¬ (e.dir = r.dir ∧ e.name = r.name) ∧
    ¬ (e.node = r.node ∧ t.isDirectoryNode e.node = true)

instance (e r : Entry) : Decidable (Apart t e r) := inferInstanceAs (Decidable (_ → _ → _))

theorem Apart.symm {e r : Entry} (h : Apart t e r) : Apart t r e := by
  intro hr he
  obtain ⟨hname, hnode⟩ := h he hr
  refine ⟨fun ⟨hd, hs⟩ => hname ⟨hd.symm, hs.symm⟩, ?_⟩
  rintro ⟨hsame, hdir⟩
  exact hnode ⟨hsame.symm, hsame ▸ hdir⟩

theorem tidy_of_pairwise (hbase : ∀ n ≤ top, t.isDirectoryNode n = true)
    (hdirs : ∀ e ∈ t.entries, t.isDirectoryNode e.dir = true) (hnodes : ∀ e ∈ t.entries, e.node < t.nodes.length)
    (hnames : ∀ e ∈ t.entries, Proper e.name) (hapart : t.entries.Pairwise (Apart t)) : t.Tidy := by
  have htwo {i j : Nat} {e r : Entry} (he : t.entries[i]? = some e) (hr : t.entries[j]? = some r) (hne : i ≠ j) :
      Apart t e r := by
    obtain ⟨hi, rfl⟩ := List.getElem?_eq_some_iff.mp he
    obtain ⟨hj, rfl⟩ := List.getElem?_eq_some_iff.mp hr
    rcases Nat.lt_or_gt_of_ne hne with hlt | hlt
    · exact List.pairwise_iff_getElem.mp hapart i j hi hj hlt
    · exact (List.pairwise_iff_getElem.mp hapart j i hj hi hlt).symm
  refine ⟨⟨hbase, hdirs, hnodes, ?_⟩, fun e he _ => hnames e he, ?_⟩
  · intro i j e r he hr helive hrlive hdir hname
    by_contra hne
    exact (htwo he hr hne helive hrlive).1 ⟨hdir, hname⟩
  · intro i j e r he hr helive hrlive hnode hdir
    by_contra hne
    exact (htwo he hr hne helive hrlive).2 ⟨hnode, hdir⟩

/-- The same tree with its entries in another order. -/
structure Relisted (t t' : FileTree) : Prop where
  nodes : t'.nodes = t.nodes
  entries : t'.entries.Perm t.entries

def Target.place : Target → Target
  | .entry _ e => .entry 0 e
  | target => target

theorem place_cases {found found' : Except Errno Target}
    (h : found'.map Target.place = found.map Target.place) :
    (∃ f, found = .error f ∧ found' = .error f) ∨ (∃ d, found = .ok (.directory d) ∧ found' = .ok (.directory d)) ∨
      (∃ d s, found = .ok (.vacant d s) ∧ found' = .ok (.vacant d s)) ∨
      ∃ i j e, found = .ok (.entry i e) ∧ found' = .ok (.entry j e) := by
  rcases found with f | ⟨d | ⟨i, e⟩ | ⟨d, s⟩⟩ <;> rcases found' with f' | ⟨d' | ⟨j, r⟩ | ⟨d', s'⟩⟩ <;> cases h
  · exact .inl ⟨f, rfl, rfl⟩
  · exact .inr (.inl ⟨d, rfl, rfl⟩)
  · exact .inr (.inr (.inr ⟨i, j, e, rfl, rfl⟩))
  · exact .inr (.inr (.inl ⟨d, s, rfl, rfl⟩))

namespace Relisted

theorem node (h : Relisted t t') (n : Nat) : t'.node? n = t.node? n := by
  rw [node?, node?, h.nodes]

theorem isDirectoryNode (h : Relisted t t') (n : Nat) : t'.isDirectoryNode n = t.isDirectoryNode n := by
  rw [FileTree.isDirectoryNode, FileTree.isDirectoryNode, h.node]

theorem lookup (h : Relisted t t') (hs : t.Sound) (dir : Nat) (s : String) :
    (t'.lookup dir s).map Prod.snd = (t.lookup dir s).map Prod.snd := by
  cases hfound : t.lookup dir s with
  | none =>
      have hnone : t'.lookup dir s = none :=
        lookup_none.mpr fun e he => lookup_none.mp hfound e (h.entries.mem_iff.mp he)
      rw [hnone]
  | some found =>
      obtain ⟨he, hlive, hdir, hname⟩ := of_lookup hfound
      cases hfound' : t'.lookup dir s with
      | none =>
          have hmem := h.entries.mem_iff.mpr (List.mem_of_getElem? he)
          exact absurd hname (lookup_none.mp hfound' _ hmem hlive hdir)
      | some found' =>
          obtain ⟨he', hlive', hdir', hname'⟩ := of_lookup hfound'
          obtain ⟨k, hk⟩ := List.mem_iff_getElem?.mp (h.entries.mem_iff.mp (List.mem_of_getElem? he'))
          obtain rfl := hs.apart hk he hlive' hlive (hdir'.trans hdir.symm) (hname'.trans hname.symm)
          exact hk.symm.trans he

theorem parentOf (h : Relisted t t') (ht : t.Tidy) (hdir : t.isDirectoryNode dir = true) :
    t'.parentOf dir = t.parentOf dir := by
  rw [FileTree.parentOf, FileTree.parentOf]
  have hfind : (t'.entries.find? fun e => e.live && e.node = dir) = t.entries.find? fun e => e.live && e.node = dir := by
    cases hfound : t.entries.find? fun e => e.live && e.node = dir with
    | none =>
        rw [List.find?_eq_none] at hfound ⊢
        exact fun e he => hfound e (h.entries.mem_iff.mp he)
    | some e =>
        cases hfound' : t'.entries.find? fun e => e.live && e.node = dir with
        | none =>
            have hmem := h.entries.mem_iff.mpr (List.mem_of_find?_eq_some hfound)
            exact absurd (List.find?_some hfound) (List.find?_eq_none.mp hfound' e hmem)
        | some r =>
            obtain ⟨i, hi⟩ := List.mem_iff_getElem?.mp (List.mem_of_find?_eq_some hfound)
            obtain ⟨j, hj⟩ :=
              List.mem_iff_getElem?.mp (h.entries.mem_iff.mp (List.mem_of_find?_eq_some hfound'))
            have he := List.find?_some hfound
            have hr := List.find?_some hfound'
            simp only [Bool.and_eq_true, decide_eq_true_eq] at he hr
            obtain rfl := ht.single hi hj he.1 hr.1 (he.2.trans hr.2.symm) (he.2 ▸ hdir)
            exact hj.symm.trans hi
  rw [hfind]

theorem walk_cons (h : Relisted t t') (ht : t.Tidy) (hdir : t.isDirectoryNode dir = true)
    (hrest : ∀ dir, t.isDirectoryNode dir = true →
      (walk t' follow n dir parts).map Target.place = (walk t follow n dir parts).map Target.place)
    (hjump : ∀ m dir parts, n = m + 1 → t.isDirectoryNode dir = true →
      (walk t' follow m dir parts).map Target.place = (walk t follow m dir parts).map Target.place) :
    (walk t' follow n dir (s :: parts)).map Target.place = (walk t follow n dir (s :: parts)).map Target.place := by
  rw [FileTree.walk_cons, FileTree.walk_cons]
  by_cases hhere : s = "."
  · rw [if_pos hhere, if_pos hhere]
    exact hrest dir hdir
  rw [if_neg hhere, if_neg hhere]
  by_cases hup : s = ".."
  · rw [if_pos hup, if_pos hup, h.parentOf ht hdir]
    exact hrest _ (ht.parentOf_directory dir)
  rw [if_neg hup, if_neg hup]
  by_cases hlong : nameLimit < s.utf8ByteSize
  · rw [if_pos hlong, if_pos hlong]
  rw [if_neg hlong, if_neg hlong]
  have hlookup := h.lookup ht.toSound dir s
  cases hfound : t.lookup dir s with
  | none =>
      rw [hfound, Option.map_none, Option.map_eq_none_iff] at hlookup
      rw [hlookup]
  | some found =>
      obtain ⟨i, e⟩ := found
      rw [hfound, Option.map_some] at hlookup
      obtain ⟨⟨j, e'⟩, hfound', heq⟩ := Option.map_eq_some_iff.mp hlookup
      obtain rfl : e' = e := heq
      rw [hfound']
      dsimp only
      rw [h.node]
      cases hnode : t.node? e'.node with
      | none => cases hnil : parts.isEmpty <;> rfl
      | some node =>
          cases node with
          | file bs => cases hnil : parts.isEmpty <;> rfl
          | directory =>
              cases hnil : parts.isEmpty with
              | true => rfl
              | false => exact hrest _ (isDirectoryNode_iff.mpr hnode)
          | link p =>
              dsimp only
              cases hlast : parts.isEmpty && !follow with
              | true => rfl
              | false =>
                  cases htext : p.text.isEmpty with
                  | true => rfl
                  | false =>
                      cases n with
                      | zero => rfl
                      | succ m =>
                          refine hjump m _ _ rfl ?_
                          split
                          · exact ht.base _ (by decide)
                          · exact hdir

theorem walk (h : Relisted t t') (ht : t.Tidy) (hdir : t.isDirectoryNode dir = true) :
    (walk t' follow n dir parts).map Target.place = (walk t follow n dir parts).map Target.place := by
  induction n generalizing dir parts with
  | zero =>
      induction parts generalizing dir with
      | nil => rw [walk_nil, walk_nil]
      | cons s rest ih => exact h.walk_cons ht hdir (fun _ => ih) fun m _ _ hm => absurd hm (by omega)
  | succ n ihlinks =>
      induction parts generalizing dir with
      | nil => rw [walk_nil, walk_nil]
      | cons s rest ih =>
          refine h.walk_cons ht hdir (fun _ => ih) ?_
          intro m dir parts hm
          obtain rfl := Nat.succ.inj hm
          exact ihlinks

theorem resolve (h : Relisted t t') (ht : t.Tidy) (follow : Bool) (p : Path) :
    (t'.resolve follow p).map Target.place = (t.resolve follow p).map Target.place := by
  have hwalk : (FileTree.walk t' (follow || p.endsWithSlash) linkLimit (if p.isAbsolute then top else home) p.parts).map
      Target.place =
        (FileTree.walk t (follow || p.endsWithSlash) linkLimit (if p.isAbsolute then top else home) p.parts).map
          Target.place :=
    h.walk ht (ht.start_directory p)
  rw [FileTree.resolve, FileTree.resolve]
  by_cases hempty : p.text.isEmpty
  · rw [if_pos hempty, if_pos hempty]
  rw [if_neg hempty, if_neg hempty]
  by_cases hnul : p.text.toList.contains (Char.ofNat 0)
  · rw [if_pos hnul, if_pos hnul]
  rw [if_neg hnul, if_neg hnul]
  by_cases hlong : pathLimit < p.text.utf8ByteSize
  · rw [if_pos hlong, if_pos hlong]
  rw [if_neg hlong, if_neg hlong]
  obtain ⟨f, hf, hf'⟩ | ⟨d, hd, hd'⟩ | ⟨d, s, hs, hs'⟩ | ⟨i, j, e, he, he'⟩ := place_cases hwalk
  · rw [hf, hf']
  · rw [hd, hd']
  · rw [hs, hs']
  · rw [he, he']
    dsimp only
    rw [h.isDirectoryNode]
    cases p.endsWithSlash && !t.isDirectoryNode e.node <;> rfl

theorem locate (h : Relisted t t') (ht : t.Tidy) : t'.locate = t.locate := by
  funext p
  rw [FileTree.locate, FileTree.locate]
  obtain ⟨f, hf, hf'⟩ | ⟨d, hd, hd'⟩ | ⟨d, s, hs, hs'⟩ | ⟨i, j, e, he, he'⟩ := place_cases (h.resolve ht true p)
  · rw [hf, hf']
  · rw [hd, hd']
  · rw [hs, hs']
  · rw [he, he']

theorem isDirectory (h : Relisted t t') (ht : t.Tidy) : t'.isDirectory = t.isDirectory := by
  funext p
  rw [FileTree.isDirectory, FileTree.isDirectory, h.locate ht]
  cases t.locate p with
  | error f => rfl
  | ok n => exact h.isDirectoryNode n

theorem names (h : Relisted t t') (dir : Nat) : (t'.names dir).Perm (t.names dir) :=
  (h.entries.filter _).map _

end Relisted

end FileTree

namespace Glob

open FileTree

variable {t t' : FileTree}

theorem Spot.ofPath_relisted (h : Relisted t t') (ht : t.Tidy) : Spot.ofPath t' = Spot.ofPath t := by
  funext p
  rw [ofPath, ofPath, h.isDirectory ht]

theorem Spot.present_relisted (h : Relisted t t') (ht : t.Tidy) : Spot.present t' = Spot.present t := by
  funext p
  rw [present, present]
  obtain ⟨f, hf, hf'⟩ | ⟨d, hd, hd'⟩ | ⟨d, s, hs, hs'⟩ | ⟨i, j, e, he, he'⟩ := place_cases (h.resolve ht false p)
  · rw [hf, hf']
  · rw [hd, hd']
  · rw [hs, hs']
  · rw [he, he']

theorem Spot.children_relisted (h : Relisted t t') (ht : t.Tidy) (s : Spot) : s.children t' = s.children t := by
  rw [children, children, h.locate ht]
  cases t.locate s.path with
  | error f => rfl
  | ok dir =>
      dsimp only
      rw [Sort.sort_names (h.names dir), ofPath_relisted h ht]

theorem below_relisted (h : Relisted t t') (ht : t.Tidy) (mustBeDir : Bool) (fuel : Nat) :
    below t' mustBeDir fuel = below t mustBeDir fuel ∧ reached t' mustBeDir fuel = reached t mustBeDir fuel ∧
      atSpot t' mustBeDir fuel = atSpot t mustBeDir fuel ∧ named t' mustBeDir fuel = named t mustBeDir fuel := by
  induction fuel with
  | zero =>
      refine ⟨?_, ?_, ?_, ?_⟩
      · funext ps s
        rw [below, below]
      · funext ps s
        rw [reached, reached]
      · funext ps s
        rw [atSpot, atSpot]
      · funext p ps s
        rw [named, named]
  | succ fuel ih =>
      obtain ⟨hbelow, hreached, hatSpot, hnamed⟩ := ih
      refine ⟨?_, ?_, ?_, ?_⟩
      · funext ps s
        cases ps with
        | nil => rw [below, below]
        | cons p ps =>
            rw [below, below, hreached, hatSpot, Spot.ofPath_relisted h ht, Spot.present_relisted h ht,
              Spot.children_relisted h ht]
      · funext ps s
        cases ps with
        | nil => rw [reached, reached]
        | cons p ps => rw [reached, reached, hbelow]
      · funext ps s
        cases ps with
        | nil => rw [atSpot, atSpot]
        | cons p ps => rw [atSpot, atSpot, hbelow, hnamed]
      · funext p ps s
        simp only [named, hbelow]

theorem expand_relisted (h : Relisted t t') (ht : t.Tidy) : expand t' = expand t := by
  funext text
  rw [expand, expand, Spot.ofPath_relisted h ht]
  simp only [(below_relisted h ht _ _).1]

end Glob

end LogTail
