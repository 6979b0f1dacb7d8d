import Mathlib.Data.List.Induction
import LogTail.Tracker.Poll
import LogTail.Proofs.Prefixes
import LogTail.Proofs.Reading

namespace LogTail

open Record

/-- Readers handed over some batches, and nothing else changed but what was logged. -/
structure World.Took (w w' : World) (bs : List Batch) : Prop where
  tree : w'.tree = w.tree
  memory : w'.memory = w.memory
  outlet : w.outlet.Took w'.outlet bs

theorem World.Took.refl (w : World) : w.Took w [] := ⟨rfl, rfl, .refl _⟩

theorem World.Took.trans {w w' w'' : World} {bs cs : List Batch} (h : w.Took w' bs)
    (h' : w'.Took w'' cs) : w.Took w'' (bs ++ cs) :=
  ⟨h'.tree.trans h.tree, h'.memory.trans h.memory, h.outlet.trans h'.outlet⟩

namespace Tracker

theorem drainOne_closed {r : Reader} (hh : r.handle = none) (w : World) :
    drainOne r w = (some r, w) := by
  simp [drainOne, Reader.shortLength?, Reader.readIn, hh]

theorem drainOne_open {r : Reader} {h : Handle} (hh : r.handle = some h) (w : World) :
    ∃ ended r' bs taken left,
      Reader.Delivery
        (pieces r.maxLogSize
          ((w.tree.content h.node).drop (r.rewound (w.tree.content h.node).length).offset))
        (r.rewound (w.tree.content h.node).length) w.outlet ended r' (drainOne r w).2.outlet bs taken
        left ∧
      w.Took (drainOne r w).2 bs ∧
      (drainOne r w).1 = if ended = .crashed then none else some r' := by
  obtain ⟨bs, taken, left, hd⟩ := r.read_delivers (w.tree.content h.node) w.outlet
  have hin : r.readIn w.tree w.outlet = r.read (w.tree.content h.node) w.outlet := by
    simp [Reader.readIn, hh]
  cases hread : r.read (w.tree.content h.node) w.outlet with
  | mk ended rest =>
      obtain ⟨r', o'⟩ := rest
      rw [hread] at hd hin
      have hout : (drainOne r w).2.outlet = o' := by
        unfold drainOne
        cases r.shortLength? w.tree <;> simp only [World.log, hin] <;> cases ended <;> rfl
      refine ⟨ended, r', bs, taken, left, by rw [hout]; exact hd, ⟨?_, ?_, by rw [hout]; exact hd.took⟩, ?_⟩
      all_goals
        unfold drainOne
        cases r.shortLength? w.tree <;> simp only [World.log, hin] <;> cases ended <;> rfl

theorem drainOne_took (r : Reader) (w : World) : ∃ bs, w.Took (drainOne r w).2 bs := by
  cases hh : r.handle with
  | none => exact ⟨[], by rw [drainOne_closed hh]; exact .refl w⟩
  | some h =>
      obtain ⟨_, _, bs, _, _, _, htook, _⟩ := drainOne_open hh w
      exact ⟨bs, htook⟩

theorem fingerprint_drainOne {r r' : Reader} {w : World} (h : (drainOne r w).1 = some r') :
    r'.fingerprint = r.fingerprint := by
  cases hh : r.handle with
  | none =>
      rw [drainOne_closed hh] at h
      obtain rfl : r = r' := by simpa using h
      rfl
  | some handle =>
      obtain ⟨ended, r₁, _, _, _, hd, _, hres⟩ := drainOne_open hh w
      rw [hres] at h
      split at h
      · cases h
      · obtain rfl : r₁ = r' := by simpa using h
        rw [hd.moved, Reader.fingerprint_moveTo, Reader.fingerprint_rewound]

theorem drainOne_calm {r : Reader} {w : World} (hcalm : w.outlet.Calm (drainOne r w).2.outlet) :
    (drainOne r w).1 = some (r.settle w.tree) := by
  cases hh : r.handle with
  | none => rw [drainOne_closed hh, Reader.settle_closed hh]
  | some h =>
      obtain ⟨ended, r', bs, taken, left, hd, _, hres⟩ := drainOne_open hh w
      have hdone := hd.calm hcalm
      have htaken := hd.split
      rw [hd.whole hdone, List.append_nil] at htaken
      rw [hres, if_neg (by simp [hdone]), Reader.settle_open hh, hd.moved, ← htaken]

theorem drainOne_settled {r : Reader} {w : World} (hlimit : 0 < r.maxLogSize)
    (hsettled : r.settle w.tree = r) (hcalm : w.outlet.Calm (drainOne r w).2.outlet) :
    w.Took (drainOne r w).2 [] := by
  cases hh : r.handle with
  | none => rw [drainOne_closed hh]; exact .refl w
  | some h =>
      obtain ⟨ended, r', bs, taken, left, hd, htook, _⟩ := drainOne_open hh w
      obtain ⟨hle, hnone⟩ := Reader.pieces_settle w.tree hh hlimit
      rw [hsettled] at hle hnone
      rw [Reader.rewound_of_le hle, hnone] at hd
      have htaken : taken = [] := (List.append_eq_nil_iff.mp hd.split.symm).1
      have hrecords := hd.records (by simp [hd.calm hcalm])
      rw [htaken, Reader.recordsFrom_nil, List.flatMap_eq_nil_iff] at hrecords
      have hbs : bs = [] := List.eq_nil_iff_forall_not_mem.mpr
        fun b hb => hd.filled b hb (hrecords b hb)
      rwa [hbs] at htook

theorem drain_took (rs : List Reader) (w : World) : ∃ bs, w.Took (drain rs w).2 bs := by
  induction rs generalizing w with
  | nil => exact ⟨[], .refl w⟩
  | cons r rs ih =>
      obtain ⟨bs, h⟩ := drainOne_took r w
      obtain ⟨cs, h'⟩ := ih (drainOne r w).2
      exact ⟨bs ++ cs, h.trans h'⟩

theorem drain_cons (r : Reader) (rs : List Reader) (w : World) :
    drain (r :: rs) w =
      ((drainOne r w).1.toList ++ (drain rs (drainOne r w).2).1, (drain rs (drainOne r w).2).2) :=
  rfl

theorem drain_append (rs rs' : List Reader) (w : World) :
    drain (rs ++ rs') w =
      ((drain rs w).1 ++ (drain rs' (drain rs w).2).1, (drain rs' (drain rs w).2).2) := by
  induction rs generalizing w with
  | nil => rfl
  | cons r rs ih => rw [List.cons_append, drain_cons, ih, drain_cons, List.append_assoc]

theorem drain_sublist (rs : List Reader) (w : World) :
    ((drain rs w).1.map Reader.fingerprint).Sublist (rs.map Reader.fingerprint) := by
  induction rs generalizing w with
  | nil => exact .slnil
  | cons r rs ih =>
      rw [drain_cons, List.map_append, List.map_cons]
      cases hone : (drainOne r w).1 with
      | none => exact (ih _).cons _
      | some r' =>
          rw [Option.toList_some, List.map_singleton, List.singleton_append, fingerprint_drainOne hone]
          exact (ih _).cons_cons _

theorem drain_calm {rs : List Reader} {w : World} (hcalm : w.outlet.Calm (drain rs w).2.outlet) :
    (drain rs w).1 = rs.map (Reader.settle w.tree) := by
  induction rs generalizing w with
  | nil => rfl
  | cons r rs ih =>
      rw [drain_cons] at hcalm ⊢
      obtain ⟨bs, h⟩ := drainOne_took r w
      obtain ⟨cs, h'⟩ := drain_took rs (drainOne r w).2
      rw [drainOne_calm (hcalm.left h'.outlet), ih (hcalm.right h.outlet), h.tree]
      rfl

theorem drain_settled {rs : List Reader} {w : World} (hlimit : ∀ r ∈ rs, 0 < r.maxLogSize)
    (hsettled : ∀ r ∈ rs, r.settle w.tree = r) (hcalm : w.outlet.Calm (drain rs w).2.outlet) :
    w.Took (drain rs w).2 [] := by
  induction rs generalizing w with
  | nil => exact .refl w
  | cons r rs ih =>
      rw [drain_cons] at hcalm ⊢
      obtain ⟨cs, h'⟩ := drain_took rs (drainOne r w).2
      have h := drainOne_settled (hlimit r (by simp)) (hsettled r (by simp)) (hcalm.left h'.outlet)
      refine h.trans (ih (fun s hs => hlimit s (by simp [hs])) (fun s hs => ?_) (hcalm.right h.outlet))
      rw [h.tree]
      exact hsettled s (by simp [hs])

section TakeLast

variable {α : Type} {test : α → Bool}

theorem takeLast_none {as : List α} (h : takeLast test as = none) : ∀ a ∈ as, test a = false := by
  induction as with
  | nil => simp
  | cons a as ih =>
      rw [takeLast] at h
      cases htail : takeLast test as with
      | some r => simp [htail] at h
      | none =>
          rw [htail] at h
          have ha : test a = false := by simpa using h
          intro b hb
          rcases List.mem_cons.mp hb with rfl | hb
          · exact ha
          · exact ih htail b hb

theorem takeLast_some {as rest : List α} {b : α} (h : takeLast test as = some (b, rest)) :
    ∃ front back, as = front ++ b :: back ∧ rest = front ++ back ∧ test b = true ∧
      ∀ c ∈ back, test c = false := by
  induction as generalizing rest with
  | nil => simp [takeLast] at h
  | cons a as ih =>
      rw [takeLast] at h
      cases htail : takeLast test as with
      | some r =>
          obtain ⟨c, rest'⟩ := r
          simp only [htail, Option.some.injEq, Prod.mk.injEq] at h
          obtain ⟨rfl, rfl⟩ := h
          obtain ⟨front, back, rfl, rfl, hc, hback⟩ := ih htail
          exact ⟨a :: front, back, rfl, rfl, hc, hback⟩
      | none =>
          rw [htail] at h
          by_cases ha : test a = true
          · simp only [ha, if_true, Option.some.injEq, Prod.mk.injEq] at h
            obtain ⟨rfl, rfl⟩ := h
            exact ⟨[], as, rfl, rfl, ha, takeLast_none htail⟩
          · simp [ha] at h

end TakeLast

structure Steady (k k' : Tracker) : Prop where
  selector : k'.selector = k.selector
  policy : k'.policy = k.policy
  settings : k'.settings = k.settings
  store : k'.store = k.store
  gathered : k'.gathered = k.gathered

theorem Steady.refl (k : Tracker) : k.Steady k := ⟨rfl, rfl, rfl, rfl, rfl⟩

theorem Steady.trans {k k' k'' : Tracker} (h : k.Steady k') (h' : k'.Steady k'') : k.Steady k'' :=
  ⟨h'.selector.trans h.selector, h'.policy.trans h.policy, h'.settings.trans h.settings,
    h'.store.trans h.store, h'.gathered.trans h.gathered⟩

/-- The readers a tracker keeps, oldest first. -/
def kept (k : Tracker) : List Reader := k.known ++ k.previous

theorem recognise_none {k : Tracker} {fp : Fingerprint} (h : (k.recognise fp).1 = none) :
    (k.recognise fp).2 = k ∧ ∀ r ∈ k.kept, fp.startsWith r.fingerprint = false := by
  revert h
  unfold recognise
  cases hp : takeLast (fun r : Reader => fp.startsWith r.fingerprint) k.previous with
  | some r => simp
  | none =>
      cases hk : takeLast (fun r : Reader => fp.startsWith r.fingerprint) k.known with
      | some r => simp
      | none =>
          intro _
          refine ⟨rfl, fun r hr => ?_⟩
          rcases List.mem_append.mp hr with hr | hr
          · exact takeLast_none hk r hr
          · exact takeLast_none hp r hr

/-- The readers of the last batch behind one of all readers kept being taken out, those behind it being
`back`. -/
def Yields (k k' : Tracker) (old : Reader) (back : List Reader) : Prop :=
  (∃ front, k.previous = front ++ old :: back ∧ k'.previous = front ++ back) ∨
    (k'.previous = k.previous ∧ k.previous <:+ back)

theorem recognise_some {k : Tracker} {fp : Fingerprint} {old : Reader}
    (h : (k.recognise fp).1 = some old) :
    ∃ front back, k.kept = front ++ old :: back ∧ (k.recognise fp).2.kept = front ++ back ∧
      fp.startsWith old.fingerprint = true ∧ (∀ r ∈ back, fp.startsWith r.fingerprint = false) ∧
      k.Steady (k.recognise fp).2 ∧ k.Yields (k.recognise fp).2 old back := by
  revert h
  unfold recognise
  cases hp : takeLast (fun r : Reader => fp.startsWith r.fingerprint) k.previous with
  | some r =>
      intro h
      obtain rfl : r.1 = old := by simpa using h
      obtain ⟨front, back, hsplit, hrest, hold, hback⟩ := takeLast_some (b := r.1) hp
      exact ⟨k.known ++ front, back, by simp [kept, hsplit], by simp [kept, hrest], hold, hback,
        ⟨rfl, rfl, rfl, rfl, rfl⟩, .inl ⟨front, hsplit, hrest⟩⟩
  | none =>
      cases hk : takeLast (fun r : Reader => fp.startsWith r.fingerprint) k.known with
      | none => simp
      | some r =>
          intro h
          obtain rfl : r.1 = old := by simpa using h
          obtain ⟨front, back, hsplit, hrest, hold, hback⟩ := takeLast_some (b := r.1) hk
          refine ⟨front, back ++ k.previous, by simp [kept, hsplit], by simp [kept, hrest], hold, ?_,
            ⟨rfl, rfl, rfl, rfl, rfl⟩, .inr ⟨rfl, List.suffix_append _ _⟩⟩
          intro c hc
          rcases List.mem_append.mp hc with hc | hc
          · exact hback c hc
          · exact takeLast_none hp c hc

/-- How one path is opened: it cannot be read, it is a copy of one opened before it, the newest
reader that matches it goes on, or a new reader begins. -/
inductive Opens (s : Opening) (path : Path) : Opening → Prop
  | unreadable (hid : s.tracker.identify s.world.tree path = none) : Opens s path s
  | copy {h : Handle} {fp f : Fingerprint} (hid : s.tracker.identify s.world.tree path = some (h, fp))
      (hmem : f ∈ s.fingerprints) (hagrees : f.agrees fp = true) : Opens s path s
  | resumed {h : Handle} {fp : Fingerprint} {old : Reader} {front back : List Reader} {s' : Opening}
      (hid : s.tracker.identify s.world.tree path = some (h, fp))
      (hnew : ∀ f ∈ s.fingerprints, f.agrees fp = false)
      (hsplit : s.tracker.kept = front ++ old :: back) (hrest : s'.tracker.kept = front ++ back)
      (hmatch : fp.startsWith old.fingerprint = true)
      (hback : ∀ r ∈ back, fp.startsWith r.fingerprint = false)
      (hsteady : s.tracker.Steady s'.tracker) (hworld : s.world.Took s'.world [])
      (hmet : s'.fingerprints = fp :: s.fingerprints)
      (hreaders : s'.readers = s.tracker.policy.resume old.metadata h fp path :: s.readers)
      (hyields : s.tracker.Yields s'.tracker old back) : Opens s path s'
  | added {h : Handle} {fp : Fingerprint} {s' : Opening}
      (hid : s.tracker.identify s.world.tree path = some (h, fp))
      (hnew : ∀ f ∈ s.fingerprints, f.agrees fp = false)
      (hkept : s'.tracker.kept = s.tracker.kept)
      (hnone : ∀ r ∈ s.tracker.kept, fp.startsWith r.fingerprint = false)
      (hsteady : s.tracker.Steady s'.tracker) (hworld : s.world.Took s'.world [])
      (hmet : s'.fingerprints = fp :: s.fingerprints)
      (hreaders : s'.readers =
        s.tracker.policy.fresh (s.world.tree.content h.node).length h fp path :: s.readers)
      (hprevious : s'.tracker.previous = s.tracker.previous) : Opens s path s'

theorem watch_steady (k : Tracker) (path : Path) (w : World) :
    k.Steady (k.watch path w).1 ∧ (k.watch path w).1.kept = k.kept ∧
      (k.watch path w).1.previous = k.previous ∧ w.Took (k.watch path w).2 [] := by
  unfold watch
  split
  · exact ⟨.refl k, rfl, rfl, .refl w⟩
  · exact ⟨⟨rfl, rfl, rfl, rfl, rfl⟩, rfl, rfl, ⟨rfl, rfl, .refl _⟩⟩

theorem openPath_opens (s : Opening) (path : Path) : Opens s path (openPath s path) := by
  unfold openPath
  cases hid : s.tracker.identify s.world.tree path with
  | none => exact .unreadable hid
  | some id =>
      obtain ⟨h, fp⟩ := id
      dsimp only
      split
      · next hany =>
          obtain ⟨f, hmem, hagrees⟩ := List.any_eq_true.mp hany
          exact .copy hid hmem hagrees
      · next hany =>
          have hnew : ∀ f ∈ s.fingerprints, f.agrees fp = false := by simpa using hany
          obtain ⟨hk, hkept, hprevious, hw⟩ := s.tracker.watch_steady path s.world
          cases hwatch : s.tracker.watch path s.world with
          | mk k w =>
              rw [hwatch] at hk hkept hprevious hw
              dsimp only at hk hkept hprevious hw
              unfold readerFor
              cases hrec : k.recognise fp with
              | mk old? k' =>
                  cases old? with
                  | some old =>
                      obtain ⟨front, back, hsplit, hrest, hmatch, hback, hk', hyields⟩ :=
                        recognise_some (congrArg Prod.fst hrec)
                      rw [hrec] at hrest hk' hyields
                      exact .resumed hid hnew (hkept ▸ hsplit) hrest hmatch hback (hk.trans hk') hw rfl
                        (by rw [← (hk.trans hk').policy]) (by rwa [Yields, hprevious] at hyields)
                  | none =>
                      obtain ⟨hsame, hnone⟩ := recognise_none (congrArg Prod.fst hrec)
                      rw [hrec] at hsame
                      obtain rfl : k' = k := hsame
                      exact .added hid hnew hkept (hkept ▸ hnone) hk hw rfl
                        (by simp [hk.policy, hw.tree]) hprevious

def opened (k : Tracker) (paths : List Path) (w : World) : Opening :=
  paths.foldl openPath ⟨k, w, [], []⟩

section Opens

variable {s s' : Opening} {path : Path}

theorem Opens.steady (h : Opens s path s') : s.tracker.Steady s'.tracker ∧ s.world.Took s'.world [] := by
  cases h with
  | unreadable | copy => exact ⟨.refl _, .refl _⟩
  | resumed _ _ _ _ _ _ hsteady hworld | added _ _ _ _ hsteady hworld => exact ⟨hsteady, hworld⟩

theorem Opens.eq_or_built (h : Opens s path s') :
    s' = s ∨ ∃ handle m, s.tracker.identify s.world.tree path = some (handle, m.fingerprint) ∧
      (∀ f ∈ s.fingerprints, f.agrees m.fingerprint = false) ∧
      s'.fingerprints = m.fingerprint :: s.fingerprints ∧
      s'.readers = s.tracker.policy.build path (some handle) m :: s.readers := by
  cases h with
  | unreadable | copy => exact .inl rfl
  | resumed hid hnew _ _ _ _ _ _ hmet hreaders | added hid hnew _ _ _ _ hmet hreaders =>
      exact .inr ⟨_, ⟨_, _, _⟩, hid, hnew, hmet, hreaders⟩

theorem Opens.readers (h : Opens s path s') : s.readers <:+ s'.readers := by
  rcases h.eq_or_built with rfl | ⟨_, _, _, _, _, hreaders⟩
  · exact List.suffix_rfl
  · exact hreaders ▸ List.suffix_cons _ _

theorem Opens.kept_sublist (h : Opens s path s') : s'.tracker.kept.Sublist s.tracker.kept := by
  cases h with
  | unreadable | copy => exact .refl _
  | resumed _ _ hsplit hrest =>
      rw [hsplit, hrest]
      exact (List.sublist_cons_self _ _).append_left _
  | added _ _ hkept => exact hkept ▸ .refl _

theorem Opens.previous_sublist (h : Opens s path s') : s'.tracker.previous.Sublist s.tracker.previous := by
  cases h with
  | unreadable | copy => exact .refl _
  | resumed _ _ _ _ _ _ _ _ _ _ hyields =>
      rcases hyields with ⟨front, hprevious, hrest⟩ | ⟨hprevious, _⟩
      · rw [hprevious, hrest]
        exact (List.sublist_cons_self _ _).append_left _
      · exact hprevious ▸ .refl _
  | added _ _ _ _ _ _ _ _ hprevious => exact hprevious ▸ .refl _

end Opens

theorem opened_opens (k : Tracker) (paths : List Path) (path : Path) (w : World) :
    Opens (k.opened paths w) path (k.opened (paths ++ [path]) w) := by
  have hsnoc : k.opened (paths ++ [path]) w = openPath (k.opened paths w) path := by simp [opened]
  rw [hsnoc]
  exact openPath_opens _ _

/-- What holds before any path is opened, and is preserved when one is, holds of the whole batch. -/
theorem opened_preserves {motive : Opening → Prop} {k : Tracker} {w : World} (hnil : motive ⟨k, w, [], []⟩)
    (hstep : ∀ {s s' : Opening} {path : Path}, Opens s path s' → motive s → motive s') (paths : List Path) :
    motive (k.opened paths w) :=
  List.foldlRecOn paths openPath hnil fun s hs path _ => hstep (openPath_opens s path) hs

theorem opened_steady (k : Tracker) (paths : List Path) (w : World) :
    k.Steady (k.opened paths w).tracker ∧ w.Took (k.opened paths w).world [] := by
  refine opened_preserves (motive := fun s => k.Steady s.tracker ∧ w.Took s.world [])
    ⟨.refl k, .refl w⟩ (fun hopens hs => ?_) paths
  exact ⟨hs.1.trans hopens.steady.1, by simpa using hs.2.trans hopens.steady.2⟩

theorem opened_kept (k : Tracker) (paths : List Path) (w : World) :
    (k.opened paths w).tracker.kept.Sublist k.kept :=
  opened_preserves (motive := fun s => s.tracker.kept.Sublist k.kept) (.refl _)
    (fun hopens hs => hopens.kept_sublist.trans hs) paths

theorem opened_previous (k : Tracker) (paths : List Path) (w : World) :
    (k.opened paths w).tracker.previous.Sublist k.previous :=
  opened_preserves (motive := fun s => s.tracker.previous.Sublist k.previous) (.refl _)
    (fun hopens hs => hopens.previous_sublist.trans hs) paths

theorem identify_congr {k k' : Tracker} (h : k'.policy = k.policy) (t : FileTree) (path : Path) :
    k'.identify t path = k.identify t path := by
  simp [identify, h]

theorem opened_identify (k : Tracker) (paths : List Path) (w : World) (path : Path) :
    (k.opened paths w).tracker.identify (k.opened paths w).world.tree path = k.identify w.tree path := by
  obtain ⟨hsteady, htook⟩ := k.opened_steady paths w
  rw [identify_congr hsteady.policy, htook.tree]

structure Sighted (size : Nat) (t : FileTree) (h : Handle) (fp : Fingerprint) : Prop where
  bytes : fp.bytes = (t.content h.node).take size
  filled : fp.bytes ≠ []

theorem identify_some {k : Tracker} {t : FileTree} {path : Path} {h : Handle} {fp : Fingerprint}
    (hid : k.identify t path = some (h, fp)) :
    t.openFile path = .ok h ∧ Sighted k.policy.fingerprintSize t h fp := by
  unfold identify at hid
  cases hopen : t.openFile path with
  | error e => simp [hopen] at hid
  | ok h' =>
      simp only [hopen, FileTree.fingerprint, FileTree.readNode] at hid
      split at hid
      · cases hid
      · next fp' hfp =>
          by_cases hdir : t.isDirectoryNode h'.node
          · simp [hdir] at hfp
          · obtain rfl : Fingerprint.ofContent k.policy.fingerprintSize (t.content h'.node) = fp' := by
              simpa [hdir] using hfp
            split at hid
            · cases hid
            · next hempty =>
                simp only [Option.some.injEq, Prod.mk.injEq] at hid
                obtain ⟨rfl, rfl⟩ := hid
                exact ⟨rfl, rfl, by simpa [Fingerprint.isEmpty] using hempty⟩

theorem content_of_identify_none {k : Tracker} {t : FileTree} {path : Path} {h : Handle}
    (hid : k.identify t path = none) (hopen : t.openFile path = .ok h)
    (hsize : 0 < k.policy.fingerprintSize) : t.content h.node = [] := by
  unfold identify at hid
  rw [hopen] at hid
  by_cases hdir : t.isDirectoryNode h.node
  · have hnode : t.node? h.node = some .directory := by simpa [FileTree.isDirectoryNode] using hdir
    simp [FileTree.content, hnode]
  · have hfp : t.fingerprint k.policy.fingerprintSize h =
        .ok (Fingerprint.ofContent k.policy.fingerprintSize (t.content h.node)) := by
      simp [FileTree.fingerprint, FileTree.readNode, hdir]
    simp only [hfp] at hid
    split at hid
    · next hempty =>
        exact (List.take_eq_nil_iff.mp (List.isEmpty_iff.mp hempty)).resolve_left (by omega)
    · cases hid

/-- The files that a batch of paths leads to, with the fingerprints taken of them. -/
def sights (k : Tracker) (t : FileTree) (paths : List Path) : List (Nat × Fingerprint) :=
  paths.filterMap fun path => (k.identify t path).map fun id => (id.1.node, id.2)

theorem mem_sights {k : Tracker} {t : FileTree} {paths : List Path} {path : Path} {h : Handle}
    {fp : Fingerprint} (hpath : path ∈ paths) (hid : k.identify t path = some (h, fp)) :
    (h.node, fp) ∈ k.sights t paths :=
  List.mem_filterMap.mpr ⟨path, hpath, by simp [hid]⟩

theorem sights_snoc (k : Tracker) (t : FileTree) (paths : List Path) (path : Path) :
    k.sights t paths ⊆ k.sights t (paths ++ [path]) := by
  rw [sights, sights, List.filterMap_append]
  exact List.subset_append_left _ _

theorem of_mem_sights {k : Tracker} {t : FileTree} {paths : List Path} {x : Nat × Fingerprint}
    (hx : x ∈ k.sights t paths) : ∃ path ∈ paths, ∃ h, k.identify t path = some (h, x.2) ∧ h.node = x.1 := by
  obtain ⟨path, hpath, hmap⟩ := List.mem_filterMap.mp hx
  obtain ⟨⟨h, fp⟩, hid, rfl⟩ := Option.map_eq_some_iff.mp hmap
  exact ⟨path, hpath, h, hid, rfl⟩

theorem fingerprint_unique {k : Tracker} {t : FileTree} {paths : List Path} {n : Nat}
    {fp fp' : Fingerprint} (h : (n, fp) ∈ k.sights t paths) (h' : (n, fp') ∈ k.sights t paths) :
    fp = fp' := by
  obtain ⟨_, _, g, hid, hg⟩ := of_mem_sights h
  obtain ⟨_, _, g', hid', hg'⟩ := of_mem_sights h'
  have hbytes := (identify_some hid).2.bytes
  have hbytes' := (identify_some hid').2.bytes
  rw [show g.node = n from hg] at hbytes
  rw [show g'.node = n from hg', ← hbytes] at hbytes'
  obtain ⟨bs⟩ := fp
  obtain ⟨bs'⟩ := fp'
  exact congrArg Fingerprint.mk hbytes'.symm

theorem opened_built {k : Tracker} {paths : List Path} {w : World} {r : Reader}
    (hr : r ∈ (k.opened paths w).readers) :
    r.path ∈ paths ∧ ∃ h m, k.identify w.tree r.path = some (h, r.fingerprint) ∧
      r = k.policy.build r.path (some h) m := by
  induction paths using List.reverseRecOn with
  | nil => simp [opened] at hr
  | append_singleton paths path ih =>
      obtain ⟨hsteady, _⟩ := k.opened_steady paths w
      have hbefore (hr : r ∈ (k.opened paths w).readers) :
          r.path ∈ paths ++ [path] ∧ ∃ h m, k.identify w.tree r.path = some (h, r.fingerprint) ∧
            r = k.policy.build r.path (some h) m :=
        ⟨List.mem_append_left _ (ih hr).1, (ih hr).2⟩
      rcases (k.opened_opens paths path w).eq_or_built with hsame | ⟨h, m, hid, _, _, hreaders⟩
      · exact hbefore (hsame ▸ hr)
      · rw [hreaders] at hr
        rcases List.mem_cons.mp hr with rfl | hr
        · rw [opened_identify] at hid
          exact ⟨by simp, h, m, by simpa using hid, by rw [hsteady.policy]; rfl⟩
        · exact hbefore hr

theorem opened_reader {k : Tracker} {paths : List Path} {w : World} {r : Reader}
    (hr : r ∈ (k.opened paths w).readers) :
    ∃ path ∈ paths, ∃ h, k.identify w.tree path = some (h, r.fingerprint) ∧ r.handle = some h ∧
      r.maxLogSize = max k.policy.maxLogSize 1 := by
  obtain ⟨hpath, h, m, hid, hbuilt⟩ := opened_built hr
  exact ⟨r.path, hpath, h, hid, by rw [hbuilt, Policy.handle_build],
    by rw [hbuilt, Policy.maxLogSize_build]⟩

theorem opened_fingerprints (k : Tracker) (paths : List Path) (w : World) :
    (k.opened paths w).readers.map Reader.fingerprint = (k.opened paths w).fingerprints := by
  refine opened_preserves (motive := fun s => s.readers.map Reader.fingerprint = s.fingerprints) rfl
    (fun hopens hs => ?_) paths
  rcases hopens.eq_or_built with rfl | ⟨_, _, _, _, hmet, hreaders⟩
  · exact hs
  · simp [hmet, hreaders, hs]

theorem opened_covers {k : Tracker} {paths : List Path} {w : World} {path : Path} {h : Handle}
    {fp : Fingerprint} (hpath : path ∈ paths) (hid : k.identify w.tree path = some (h, fp)) :
    ∃ r ∈ (k.opened paths w).readers, r.fingerprint.agrees fp = true := by
  suffices hmem : ∃ f ∈ (k.opened paths w).fingerprints, f.agrees fp = true by
    obtain ⟨f, hf, hagrees⟩ := hmem
    rw [← opened_fingerprints] at hf
    obtain ⟨r, hr, rfl⟩ := List.mem_map.mp hf
    exact ⟨r, hr, hagrees⟩
  induction paths using List.reverseRecOn with
  | nil => simp at hpath
  | append_singleton paths last ih =>
      have hopens := k.opened_opens paths last w
      generalize k.opened (paths ++ [last]) w = s' at hopens ⊢
      rcases List.mem_append.mp hpath with hpath | hpath
      · obtain ⟨f, hf, hagrees⟩ := ih hpath
        rcases hopens.eq_or_built with rfl | ⟨_, _, _, _, hmet, _⟩
        · exact ⟨f, hf, hagrees⟩
        · exact ⟨f, by simp [hmet, hf], hagrees⟩
      · obtain rfl : path = last := by simpa using hpath
        rw [← k.opened_identify paths w] at hid
        cases hopens with
        | unreadable hnone => rw [hid] at hnone; cases hnone
        | copy hid' hmem hagrees =>
            rw [hid] at hid'
            cases hid'
            exact ⟨_, hmem, hagrees⟩
        | resumed hid' _ _ _ _ _ _ _ hmet | added hid' _ _ _ _ _ hmet =>
            rw [hid] at hid'
            cases hid'
            exact ⟨fp, by simp [hmet], Fingerprint.agrees_self (identify_some hid).2.filled⟩

/-- What holds of all readers together in a world and is preserved by all that a batch does to them,
if the files found are among some known ones. -/
structure Preserved (f : Policy) (met : List (Nat × Fingerprint))
    (I : World → List Reader → Prop) : Prop where
  perm {w : World} {rs rs' : List Reader} : I w rs → rs.Perm rs' → I w rs'
  stays {w w' : World} {rs : List Reader} : w.Took w' [] → I w rs → I w' rs
  resumed {w : World} {old : Reader} {rs : List Reader} {h : Handle} {fp : Fingerprint}
    (path : Path) : I w (old :: rs) → (h.node, fp) ∈ met → Sighted f.fingerprintSize w.tree h fp →
    fp.startsWith old.fingerprint = true → I w (f.resume old.metadata h fp path :: rs)
  added {w : World} {rs : List Reader} {h : Handle} {fp : Fingerprint} (path : Path) :
    I w rs → (h.node, fp) ∈ met → Sighted f.fingerprintSize w.tree h fp →
    (∀ r ∈ rs, fp.startsWith r.fingerprint = false) →
    I w (f.fresh (w.tree.content h.node).length h fp path :: rs)
  drained {w : World} {r : Reader} {rs : List Reader} :
    I w (r :: rs) → I (drainOne r w).2 ((drainOne r w).1.toList ++ rs)
  closed {w : World} {r : Reader} {rs : List Reader} : I w (r :: rs) → I w (r.close :: rs)

/-- The readers of a batch and those that were kept while it was opened. -/
def Opening.live (s : Opening) : List Reader := s.readers ++ s.tracker.kept

/-- A batch up to where the tracker forgets what is too much and saves. -/
def collect (k : Tracker) (paths : List Path) (w : World) : Tracker × World :=
  let (readers, k, w) := k.openAll paths w
  let (lost, kept) := k.previous.partition (isLeftBehind readers)
  let (drained, w) := drain lost w
  let (readers, w) := drain readers w
  let k := k.remember (kept ++ drained)
  ({ k with gathered := k.gathered ++ readers.map Reader.metadata, previous := readers }, w)

theorem readBatch_eq (k : Tracker) (paths : List Path) (w : World) :
    k.readBatch paths w = (k.collect paths w).1.trim.save (k.collect paths w).2 := rfl

section Preserving

variable {f : Policy} {met : List (Nat × Fingerprint)} {I : World → List Reader → Prop}
  (hI : Preserved f met I)
include hI

theorem Preserved.opened {k : Tracker} {paths : List Path} {w : World} (hf : k.policy = f)
    (hmet : ∀ s ∈ k.sights w.tree paths, s ∈ met) (h : I w k.kept) :
    I (k.opened paths w).world (k.opened paths w).live := by
  subst hf
  induction paths using List.reverseRecOn with
  | nil => exact h
  | append_singleton paths path ih =>
      have ih := ih fun s hs => hmet s (k.sights_snoc w.tree paths path hs)
      obtain ⟨hsteady, _⟩ := k.opened_steady paths w
      have hfps := k.opened_fingerprints paths w
      have hopens := k.opened_opens paths path w
      generalize k.opened (paths ++ [path]) w = s' at hopens ⊢
      have hseen {h : Handle} {fp : Fingerprint}
          (hid : (k.opened paths w).tracker.identify (k.opened paths w).world.tree path = some (h, fp)) :
          (h.node, fp) ∈ met := by
        rw [opened_identify] at hid
        exact hmet _ (mem_sights (by simp) hid)
      have hsighted {h : Handle} {fp : Fingerprint}
          (hid : (k.opened paths w).tracker.identify (k.opened paths w).world.tree path = some (h, fp)) :
          Sighted k.policy.fingerprintSize (k.opened paths w).world.tree h fp := by
        rw [← hsteady.policy]
        exact (identify_some hid).2
      generalize k.opened paths w = s at *
      cases hopens with
      | unreadable | copy => exact ih
      | @resumed h fp old front back _ hid hnew hsplit hrest hmatch _ hsteady' hworld hmet' hreaders =>
          have hold : I s.world (old :: (s.readers ++ (front ++ back))) := by
            refine hI.perm ih ?_
            rw [Opening.live, hsplit]
            simpa using @List.perm_middle _ old (s.readers ++ front) back
          have hnext := hI.stays hworld (hI.resumed path hold (hseen hid) (hsighted hid) hmatch)
          rw [Opening.live, hreaders, hrest, hsteady.policy]
          exact hnext
      | @added h fp _ hid hnew hkept hnone hsteady' hworld hmet' hreaders =>
          have hfresh : ∀ r ∈ s.live, fp.startsWith r.fingerprint = false := by
            intro r hr
            rcases List.mem_append.mp hr with hr | hr
            · exact Fingerprint.startsWith_of_agrees
                (hnew r.fingerprint (by rw [← hfps]; exact List.mem_map_of_mem hr))
            · exact hnone r hr
          have hnext := hI.stays hworld (hI.added path ih (hseen hid) (hsighted hid) hfresh)
          rw [Opening.live, hreaders, hkept, hsteady.policy]
          exact hnext

theorem Preserved.drain {rs others : List Reader} {w : World} (h : I w (rs ++ others)) :
    I (Tracker.drain rs w).2 ((Tracker.drain rs w).1 ++ others) := by
  induction rs generalizing w others with
  | nil => exact h
  | cons r rs ih =>
      rw [drain_cons]
      have hone : I (drainOne r w).2 (rs ++ ((drainOne r w).1.toList ++ others)) :=
        hI.perm (hI.drained h) (List.perm_append_comm_assoc _ _ _)
      rw [List.append_assoc]
      exact hI.perm (ih hone) (List.perm_append_comm_assoc _ _ _)

theorem Preserved.close {rs others : List Reader} {w : World} (h : I w (rs ++ others)) :
    I w (rs.map Reader.close ++ others) := by
  induction rs generalizing others with
  | nil => exact h
  | cons r rs ih =>
      have hone : I w (rs ++ (r.close :: others)) :=
        hI.perm (hI.closed h) List.perm_middle.symm
      exact hI.perm (ih hone) List.perm_middle

theorem Preserved.collect {k : Tracker} {paths : List Path} {w : World} (hf : k.policy = f)
    (hmet : ∀ s ∈ k.sights w.tree paths, s ∈ met) (h : I w k.kept) :
    I (k.collect paths w).2 (k.collect paths w).1.kept := by
  have hopened := hI.opened hf hmet h
  unfold Tracker.collect openAll
  dsimp only
  have hlive : (paths.foldl openPath ⟨k, w, [], []⟩) = k.opened paths w := rfl
  rw [hlive]
  generalize k.opened paths w = s at *
  rw [List.partition_eq_filter_filter]
  dsimp only
  generalize hlost : s.tracker.previous.filter (isLeftBehind s.readers.reverse) = lost
  generalize hstay : s.tracker.previous.filter (not ∘ isLeftBehind s.readers.reverse) = stay
  have hparts : (lost ++ stay).Perm s.tracker.previous := by
    rw [← hlost, ← hstay]
    exact List.filter_append_perm _ _
  have hrest : I s.world (lost ++ (stay ++ (s.readers.reverse ++ s.tracker.known))) := by
    refine hI.perm hopened ?_
    calc s.readers ++ (s.tracker.known ++ s.tracker.previous)
        _ |>.Perm (s.readers.reverse ++ (s.tracker.known ++ (lost ++ stay))) :=
          (List.reverse_perm _).symm.append (hparts.symm.append_left _)
        _ |>.Perm ((lost ++ stay) ++ (s.readers.reverse ++ s.tracker.known)) := by
          rw [← List.append_assoc]
          exact List.perm_append_comm
        _ = lost ++ (stay ++ (s.readers.reverse ++ s.tracker.known)) := List.append_assoc ..
  have hdrained := hI.drain hrest
  generalize Tracker.drain lost s.world = d at *
  have hbatch : I d.2 (s.readers.reverse ++ ((stay ++ d.1) ++ s.tracker.known)) := by
    refine hI.perm hdrained ?_
    rw [← List.append_assoc]
    exact (List.perm_append_comm_assoc _ _ _).trans
      ((List.perm_append_comm.append_right _).append_left _)
  have hread := hI.drain hbatch
  generalize Tracker.drain s.readers.reverse d.2 = e at *
  have hclosed := hI.close (hI.perm hread (List.perm_append_comm_assoc _ _ _))
  refine hI.perm hclosed ?_
  rw [kept, remember, List.append_assoc]
  exact ((List.perm_append_comm.append_left _).trans (List.perm_append_comm_assoc _ _ _))

end Preserving

/-- The readers of the last batch that no reader of this one goes on with. -/
def Opening.lost (s : Opening) : List Reader :=
  s.tracker.previous.filter (isLeftBehind s.readers.reverse)

def Opening.stayed (s : Opening) : List Reader :=
  s.tracker.previous.filter (not ∘ isLeftBehind s.readers.reverse)

theorem collect_eq (k : Tracker) (paths : List Path) (w : World) :
    let s := k.opened paths w
    let d := drain s.lost s.world
    let e := drain s.readers.reverse d.2
    k.collect paths w =
      ({ s.tracker.remember (s.stayed ++ d.1) with
          gathered := s.tracker.gathered ++ e.1.map Reader.metadata, previous := e.1 }, e.2) := by
  unfold collect openAll
  dsimp only
  rw [List.partition_eq_filter_filter]
  rfl

theorem collect_took (k : Tracker) (paths : List Path) (w : World) :
    ∃ bs, w.Took (k.collect paths w).2 bs := by
  obtain ⟨_, h⟩ := k.opened_steady paths w
  rw [collect_eq]
  obtain ⟨bs, h'⟩ := drain_took (k.opened paths w).lost (k.opened paths w).world
  obtain ⟨cs, h''⟩ := drain_took (k.opened paths w).readers.reverse
    (drain (k.opened paths w).lost (k.opened paths w).world).2
  exact ⟨_, h.trans (h'.trans h'')⟩

structure Alike (k k' : Tracker) : Prop where
  selector : k'.selector = k.selector
  policy : k'.policy = k.policy
  settings : k'.settings = k.settings

theorem Alike.refl (k : Tracker) : k.Alike k := ⟨rfl, rfl, rfl⟩

theorem Alike.trans {k k' k'' : Tracker} (h : k.Alike k') (h' : k'.Alike k'') : k.Alike k'' :=
  ⟨h'.selector.trans h.selector, h'.policy.trans h.policy, h'.settings.trans h.settings⟩

theorem collect_alike (k : Tracker) (paths : List Path) (w : World) :
    k.Alike (k.collect paths w).1 ∧ (k.collect paths w).1.store = k.store ∧
      (k.collect paths w).1.gathered =
        k.gathered ++ (k.collect paths w).1.previous.map Reader.metadata := by
  obtain ⟨h, _⟩ := k.opened_steady paths w
  rw [collect_eq]
  exact ⟨⟨h.selector, h.policy, h.settings⟩, h.store, by rw [h.gathered]⟩

theorem collect_calm {k : Tracker} {paths : List Path} {w : World}
    (hcalm : w.outlet.Calm (k.collect paths w).2.outlet) :
    (k.collect paths w).1.previous =
        (k.opened paths w).readers.reverse.map (Reader.settle w.tree) ∧
      (k.collect paths w).1.known = (k.opened paths w).tracker.known ++
        ((k.opened paths w).stayed ++ (k.opened paths w).lost.map (Reader.settle w.tree)).map
          Reader.close := by
  obtain ⟨_, h⟩ := k.opened_steady paths w
  rw [collect_eq] at hcalm ⊢
  obtain ⟨bs, h'⟩ := drain_took (k.opened paths w).lost (k.opened paths w).world
  obtain ⟨cs, h''⟩ := drain_took (k.opened paths w).readers.reverse
    (drain (k.opened paths w).lost (k.opened paths w).world).2
  have hlost := drain_calm ((hcalm.right h.outlet).left h''.outlet)
  have hread := drain_calm (hcalm.right (h.trans h').outlet)
  rw [h'.tree, h.tree] at hread
  rw [h.tree] at hlost
  refine ⟨hread, ?_⟩
  dsimp only [remember]
  rw [hlost]

theorem trim_of_le {k : Tracker} (h : k.kept.length ≤ k.settings.capacity) : k.trim = k := by
  rw [kept, List.length_append] at h
  rw [trim, Nat.sub_eq_zero_of_le h]
  rfl

theorem mem_trim {k : Tracker} {r : Reader} (h : r ∈ k.trim.kept) : r ∈ k.kept := by
  rcases List.mem_append.mp h with h | h
  · exact List.mem_append_left _ (List.mem_of_mem_drop h)
  · exact List.mem_append_right _ h

theorem readFromBeginning_self {k : Tracker} (h : k.policy.fromBeginning = true) :
    k.readFromBeginning = k := by
  unfold readFromBeginning
  rw [← h]

theorem save_none {k : Tracker} (hs : k.store = none) (w : World) : k.save w = (some k, w) := by
  simp [save, hs]

theorem save_some {k : Tracker} {s : Store} (hs : k.store = some s) (w : World) :
    ∃ ended s',
      s.save w.tree w.memory k.gathered = (ended, s', (k.save w).2.tree, (k.save w).2.memory) ∧
      (ended = .crashed → (k.save w).1 = none) ∧
      (ended ≠ .crashed → (k.save w).1 = some { k with store := some s' }) := by
  unfold save
  rw [hs]
  cases hsave : s.save w.tree w.memory k.gathered with
  | mk ended rest =>
      obtain ⟨s', tree, memory⟩ := rest
      cases ended with
      | done => exact ⟨.done, s', by simp [hsave], by simp, by simp [hsave]⟩
      | failed f => exact ⟨.failed f, s', by simp [hsave, World.log], by simp, by simp [hsave]⟩
      | crashed => exact ⟨.crashed, s', by simp [hsave], by simp [hsave], by simp⟩

theorem save_outlet (k : Tracker) (w : World) : (k.save w).2.outlet = w.outlet := by
  unfold save
  split
  · rfl
  · dsimp only
    split <;> rfl

theorem save_tracker {k k' : Tracker} {w : World} (h : (k.save w).1 = some k') :
    k' = { k with store := k'.store } := by
  cases hs : k.store with
  | none =>
      rw [save_none hs] at h
      obtain rfl : k = k' := by simpa using h
      rfl
  | some s =>
      obtain ⟨ended, s', _, hcrash, hlive⟩ := save_some hs w
      by_cases hc : ended = .crashed
      · rw [hcrash hc] at h
        cases h
      · rw [hlive hc] at h
        obtain rfl : _ = k' := by simpa using h
        rfl

theorem readBatch_took (k : Tracker) (paths : List Path) (w : World) :
    ∃ bs, w.outlet.Took (k.readBatch paths w).2.outlet bs := by
  obtain ⟨bs, h⟩ := k.collect_took paths w
  rw [readBatch_eq, save_outlet]
  exact ⟨bs, h.outlet⟩

theorem readBatch_settings {k k' : Tracker} {paths : List Path} {w : World}
    (h : (k.readBatch paths w).1 = some k') : k'.settings = k.settings := by
  rw [readBatch_eq] at h
  have hsaved : k' = _ := save_tracker h
  rw [hsaved]
  exact (k.collect_alike paths w).1.settings

end Tracker

end LogTail
