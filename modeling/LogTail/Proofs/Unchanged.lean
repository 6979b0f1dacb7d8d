import LogTail.Proofs.InMemory
import LogTail.Proofs.Lists
import LogTail.Proofs.Openings
import LogTail.Proofs.Polls
import LogTail.Proofs.Recency
import LogTail.Proofs.Stores

namespace LogTail

open Record

namespace Reader

theorem settle_of_same {t : FileTree} {r e : Reader} (hhandle : r.handle = e.handle)
    (hmetadata : r.metadata = e.metadata) (hlimit : r.maxLogSize = e.maxLogSize)
    (hpos : 0 < e.maxLogSize) (he : e.settle t = e) : r.settle t = r := by
  cases hh : e.handle with
  | none => exact settle_closed (hhandle.trans hh) t
  | some h =>
      obtain ⟨hle, hnone⟩ := pieces_settle t hh hpos
      have hoffset : (e.settle t).offset = r.offset := by
        rw [he, offset, offset, hmetadata]
      rw [hoffset] at hle hnone
      exact settle_of_read (hhandle.trans hh) hle (by rw [hlimit]; exact hnone)

structure Seated (k : Tracker) (t : FileTree) (e : Reader) : Prop where
  opened : ∃ h, k.identify t e.path = some (h, e.fingerprint) ∧ e.handle = some h
  limit : e.maxLogSize = max k.policy.maxLogSize 1
  settled : e.settle t = e
  built (h : Option Handle) : (k.policy.build e.path h e.metadata).metadata = e.metadata

end Reader

namespace Tracker

/-- The newest readers of a tracker are at the ends of their files, and what they note is what some
readers noted. -/
structure Current (k : Tracker) (followed : List Path) (t : FileTree) (es live : List Reader) :
    Prop where
  newest : k.Newest live
  rested : ∀ r ∈ live, r.Rested followed t
  limited : ∀ r ∈ live, 0 < r.maxLogSize
  same : (live.map Reader.metadata).Perm (es.map Reader.metadata)

def Apart (es : List Reader) : Prop :=
  ∀ e ∈ es, ∀ e' ∈ es, e.fingerprint.agrees e'.fingerprint = true → e = e'

theorem carried_first (f : Policy) (t : FileTree) (past : List Reader) :
    Carried f t past (fun r => ∀ e ∈ past, e.fingerprint.agrees r.fingerprint = false)
      fun seen live =>
        (live.map fun r => (r.settle t).metadata).Perm (seen.map Reader.metadata) ∧
          ∀ r ∈ live, 0 < r.maxLogSize where
  perm h hperm := ⟨(hperm.map _).symm.trans h.1, fun r hr => h.2 r (hperm.symm.subset hr)⟩
  resumed {seen live old h fp} path hall _ _ hmatch hpast hfit := by
    -- the reader taken stands for one seen before, of a file that agrees with this one
    obtain ⟨e, he, hmetadata⟩ := List.mem_map.mp
      (hall.1.subset (List.mem_map.mpr ⟨old, List.mem_cons_self, rfl⟩))
    have hfp : e.fingerprint = old.fingerprint := by
      rw [← Reader.fingerprint_settle t old, Reader.fingerprint, hmetadata]
      rfl
    have hagrees : e.fingerprint.agrees fp = true :=
      Fingerprint.agrees_iff.mpr (.inr (hfp ▸ hmatch))
    have := hfit e (hpast e he hagrees)
    rw [Policy.fingerprint_resume, hagrees] at this
    cases this
  added {seen live h m} path hall _ _ _ _ := by
    refine ⟨?_, List.forall_mem_cons.mpr ⟨Nat.le_max_right _ _, hall.2⟩⟩
    rw [List.map_cons, List.map_append, List.map_singleton]
    exact (hall.1.cons _).trans (List.perm_append_singleton _ _).symm
  settled {seen live r} hall hlimit := by
    refine ⟨by simpa only [List.map_cons, Reader.settle_settle t hlimit] using hall.1, ?_⟩
    refine List.forall_mem_cons.mpr ⟨?_, fun s hs => hall.2 s (List.mem_cons_of_mem _ hs)⟩
    rwa [Reader.maxLogSize_settle]
  closed {seen live r} hall hsettled := by
    refine ⟨?_, List.forall_mem_cons.mpr ⟨hall.2 r List.mem_cons_self,
      fun s hs => hall.2 s (List.mem_cons_of_mem _ hs)⟩⟩
    have hsame := hall.1
    rw [List.map_cons, hsettled] at hsame
    rw [List.map_cons, Reader.settle_closed rfl]
    exact hsame

theorem carried_again {k : Tracker} {f : Policy} {t : FileTree} {es : List Reader}
    (hbuild : ∀ p h m, f.build p h m = k.policy.build p h m) (hseated : ∀ e ∈ es, e.Seated k t)
    (hapart : Apart es) (past : List Reader) :
    Carried f t past
      (fun r => ∃ e ∈ es, e.path = r.path ∧ e.fingerprint = r.fingerprint ∧ e.handle = r.handle)
      fun _ live => (live.map Reader.metadata).Perm (es.map Reader.metadata) ∧
        ∀ r ∈ live, r.settle t = r ∧ 0 < r.maxLogSize where
  perm h hperm := ⟨(hperm.map _).symm.trans h.1, fun r hr => h.2 r (hperm.symm.subset hr)⟩
  resumed {seen live old h fp} path hall _ _ hmatch _ hfit := by
    obtain ⟨e, he, hpath, hfp, hhandle⟩ := hfit
    rw [Policy.path_resume] at hpath
    rw [Policy.fingerprint_resume] at hfp
    obtain ⟨e', he', hold⟩ := List.mem_map.mp
      (hall.1.subset (List.mem_map.mpr ⟨old, List.mem_cons_self, rfl⟩))
    have hsame : e = e' := by
      refine hapart e he e' he' (Fingerprint.agrees_iff.mpr (.inl ?_))
      rw [hfp, Reader.fingerprint, hold]
      exact hmatch
    subst hsame
    have hmetadata : (f.resume old.metadata h fp path).metadata = e.metadata := by
      have hnotes : (⟨fp, old.metadata.offset, old.metadata.attributes⟩ : Metadata) = e.metadata := by
        rw [← hfp, ← hold]
        rfl
      rw [Policy.resume, hbuild, hnotes, ← hpath]
      exact (hseated e he).built _
    have hlimit : (f.resume old.metadata h fp path).maxLogSize = e.maxLogSize := by
      rw [(hseated e he).limit, Policy.resume, hbuild]
      rfl
    have hpos : 0 < e.maxLogSize := by
      rw [(hseated e he).limit]
      exact Nat.le_max_right _ _
    refine ⟨?_, List.forall_mem_cons.mpr
      ⟨⟨?_, hlimit ▸ hpos⟩, fun r hr => hall.2 r (List.mem_cons_of_mem _ hr)⟩⟩
    · rw [List.map_cons, hmetadata, hold, ← List.map_cons]
      exact hall.1
    · exact Reader.settle_of_same hhandle.symm hmetadata hlimit hpos (hseated e he).settled
  added {seen live h m} path hall hsighted hnone _ hfit := by
    -- the file's own reader is among the newest, so that it cannot be passed over
    obtain ⟨e, he, _, hfp, _⟩ := hfit
    obtain ⟨r, hr, hmetadata⟩ := List.mem_map.mp
      (hall.1.symm.subset (List.mem_map.mpr ⟨e, he, rfl⟩))
    have hm : r.fingerprint = m.fingerprint := by
      rw [Reader.fingerprint, hmetadata]
      exact hfp.trans (Policy.fingerprint_build f m path (some h))
    have := hnone r hr
    rw [hm, Fingerprint.startsWith_refl hsighted.filled] at this
    cases this
  settled {seen live r} hall _ := by
    rwa [(hall.2 r List.mem_cons_self).1]
  closed {seen live r} hall _ :=
    ⟨hall.1, List.forall_mem_cons.mpr
      ⟨⟨Reader.settle_closed rfl t, (hall.2 r List.mem_cons_self).2⟩,
        fun s hs => hall.2 s (List.mem_cons_of_mem _ hs)⟩⟩

theorem places_length (k : Tracker) (t : FileTree) (paths : List Path) :
    (k.places t paths).length ≤ paths.length := by
  induction paths using List.reverseRecOn with
  | nil => simp [places]
  | append_singleton paths path ih =>
      rw [places_snoc, place, List.length_append, List.length_singleton]
      cases k.identify t path with
      | none => exact Nat.le_succ_of_le ih
      | some id =>
          dsimp only
          split
          · exact Nat.le_succ_of_le ih
          · rw [List.length_append, List.length_singleton]
            exact Nat.succ_le_succ ih

theorem collect_idle {k : Tracker} {paths : List Path} {w : World}
    (hlost : ∀ r ∈ (k.opened paths w).lost, r.settle w.tree = r ∧ 0 < r.maxLogSize)
    (hreaders : ∀ r ∈ (k.opened paths w).readers.reverse, r.settle w.tree = r ∧ 0 < r.maxLogSize)
    (hcalm : w.outlet.Calm (k.collect paths w).2.outlet) : w.Took (k.collect paths w).2 [] := by
  obtain ⟨_, hopen⟩ := k.opened_steady paths w
  rw [collect_eq] at hcalm ⊢
  obtain ⟨bs, hdrain⟩ := drain_took (k.opened paths w).lost (k.opened paths w).world
  obtain ⟨cs, hdrain'⟩ := drain_took (k.opened paths w).readers.reverse
    (drain (k.opened paths w).lost (k.opened paths w).world).2
  have hidle := drain_settled (fun r hr => (hlost r hr).2)
    (fun r hr => by rw [hopen.tree]; exact (hlost r hr).1)
    ((hcalm.right hopen.outlet).left hdrain'.outlet)
  have hidle' := drain_settled (fun r hr => (hreaders r hr).2)
    (fun r hr => by rw [hidle.tree, hopen.tree]; exact (hreaders r hr).1)
    ((hcalm.right hopen.outlet).right hdrain.outlet)
  simpa using hopen.trans (hidle.trans hidle')

structure SeatedReaders (k : Tracker) (t : FileTree) (batch : List Path) (rs : List Reader) : Prop where
  places : (rs.map fun r => (r.path, r.fingerprint)) = k.places t batch
  seated : ∀ r ∈ rs, r.Seated k t

section Batch

variable {k : Tracker} {followed batch : List Path} {t : FileTree} {w : World}
  {es live : List Reader} (hcurrent : Current k followed t es live)
  (hstill : t.Still followed w.tree) (hbatch : ∀ path ∈ batch, path ∈ followed)
  (hcalm : w.outlet.Calm (k.collect batch w).2.outlet)
include hstill hbatch

theorem places_still : k.places w.tree batch = k.places t batch :=
  places_congr fun path hpath => hstill.identify (hbatch path hpath) k

theorem opened_seated {r : Reader} (hr : r ∈ (k.opened batch w).readers) :
    r.settle w.tree = r.settle t ∧ (r.settle t).Seated k t := by
  obtain ⟨hpath, h, m, hid, hr⟩ := opened_built hr
  rw [hstill.identify (hbatch _ hpath)] at hid
  have hhandle : r.handle = some h := by rw [hr]; rfl
  have hlimit : r.maxLogSize = max k.policy.maxLogSize 1 := by rw [hr]; rfl
  obtain ⟨n, hn⟩ := r.settle_moveTo t
  refine ⟨Reader.settle_still hstill fun h' hh' => ?_, ⟨h, ?_, ?_⟩, ?_, ?_, fun h' => ?_⟩
  · obtain rfl : h = h' := by simpa [hhandle] using hh'
    exact ⟨_, hbatch _ hpath, (identify_some hid).1⟩
  · rw [Reader.fingerprint_settle, hn]
    exact hid
  · rw [Reader.handle_settle, hhandle]
  · rw [Reader.maxLogSize_settle, hlimit]
  · exact Reader.settle_settle t (by rw [hlimit]; exact Nat.le_max_right _ _)
  · have hsame := k.policy.build_build m r.path (some h) h'
    rw [← hr] at hsame
    have hmoved : (r.moveTo n).metadata = { r.metadata with offset := n } := rfl
    rw [hn, hmoved, show (r.moveTo n).path = r.path from rfl, Policy.build_offset]
    change { (k.policy.build r.path h' r.metadata).metadata with offset := n } = _
    rw [hsame]

include hcurrent hcalm

theorem collect_first
    (hapart : ∀ e ∈ es, ∀ x ∈ k.places t batch, e.fingerprint.agrees x.2 = false) :
    SeatedReaders k t batch (k.collect batch w).1.previous ∧
      ∃ live', Current (k.collect batch w).1 followed t (es ++ (k.collect batch w).1.previous) live' ∧
        (k.collect batch w).1.previous <:+ live' := by
  obtain ⟨hread, _⟩ := collect_calm hcalm
  have hplaces : ((k.opened batch w).readers.reverse.map fun r => (r.path, r.fingerprint)) =
      k.places t batch := (k.opened_places batch w).trans (places_still hstill hbatch)
  have hseats : SeatedReaders k t batch (k.collect batch w).1.previous := by
    rw [hread]
    refine ⟨?_, fun r hr => ?_⟩
    · rw [List.map_map, ← hplaces]
      refine List.map_congr_left fun r _ => ?_
      obtain ⟨n, hn⟩ := r.settle_moveTo w.tree
      simp only [Function.comp_apply, hn, Reader.fingerprint_moveTo]
      rfl
    · obtain ⟨r', hr', rfl⟩ := List.mem_map.mp hr
      obtain ⟨hsame, hseated⟩ := opened_seated hstill hbatch (List.mem_reverse.mp hr')
      rw [hsame]
      exact hseated
  have hstands : (live.map fun r => (r.settle t).metadata).Perm (es.map Reader.metadata) ∧
      ∀ r ∈ live, 0 < r.maxLogSize := by
    refine ⟨?_, hcurrent.limited⟩
    rw [List.map_congr_left fun r hr => by rw [(hcurrent.rested r hr).settled]]
    exact hcurrent.same
  have hfit : ∀ r ∈ (k.opened batch w).readers, ∀ e ∈ es,
      e.fingerprint.agrees r.fingerprint = false := by
    intro r hr e he
    refine hapart e he (r.path, r.fingerprint) ?_
    rw [← hplaces]
    exact List.mem_map.mpr ⟨r, List.mem_reverse.mpr hr, rfl⟩
  obtain ⟨live', hnewest, hprevious, hrested, hsame, hlimited⟩ :=
    (carried_first k.policy t es).collect hstill hbatch hcurrent.newest hcurrent.rested hfit hstands
      hcalm
  refine ⟨hseats, live', ⟨hnewest, hrested, hlimited, ?_⟩, hprevious⟩
  rw [List.map_congr_left fun r hr => by rw [(hrested r hr).settled]] at hsame
  exact hsame

/-- Behind a batch that is read again, all is as it was, and nothing was handed over. -/
theorem collect_again {k₀ : Tracker} {rs : List Reader}
    (hsize : k.policy.fingerprintSize = k₀.policy.fingerprintSize)
    (hbuild : ∀ p h m, k.policy.build p h m = k₀.policy.build p h m)
    (hseats : SeatedReaders k₀ t batch rs) (hrs : ∀ r ∈ rs, r ∈ es) (hseated : ∀ e ∈ es, e.Seated k₀ t)
    (hapart : Apart es) (hprevious : k.previous <:+ live) :
    w.Took (k.collect batch w).2 [] ∧
      (k.collect batch w).1.previous.map Reader.metadata = rs.map Reader.metadata ∧
      ∃ live', Current (k.collect batch w).1 followed t es live' ∧
        (k.collect batch w).1.previous <:+ live' := by
  have hidentify (path) : k.identify t path = k₀.identify t path := by
    simp only [identify, hsize]
  have hplaces : ((k.opened batch w).readers.reverse.map fun r => (r.path, r.fingerprint)) =
      rs.map fun r => (r.path, r.fingerprint) := by
    rw [k.opened_places batch w, places_still hstill hbatch, hseats.places]
    exact places_congr fun path _ => hidentify path
  have hfit : ∀ r ∈ (k.opened batch w).readers, ∃ e ∈ es, e.path = r.path ∧
      e.fingerprint = r.fingerprint ∧ e.handle = r.handle := by
    intro r hr
    have hplace : (r.path, r.fingerprint) ∈ rs.map fun r => (r.path, r.fingerprint) := by
      rw [← hplaces]
      exact List.mem_map.mpr ⟨r, List.mem_reverse.mpr hr, rfl⟩
    obtain ⟨e, he, hsame⟩ := List.mem_map.mp hplace
    simp only [Prod.mk.injEq] at hsame
    obtain ⟨hpath, h, m, hid, hr⟩ := opened_built hr
    obtain ⟨h', hid', hhandle⟩ := (hseats.seated e he).opened
    rw [hstill.identify (hbatch _ hpath), hidentify, ← hsame.1, hid'] at hid
    simp only [Option.some.injEq, Prod.mk.injEq] at hid
    refine ⟨e, hrs e he, hsame.1, hsame.2, ?_⟩
    rw [hhandle, hid.1, hr]
    rfl
  have hcarried := carried_again hbuild hseated hapart es
  have hheld : (live.map Reader.metadata).Perm (es.map Reader.metadata) ∧
      ∀ r ∈ live, r.settle t = r ∧ 0 < r.maxLogSize :=
    ⟨hcurrent.same, fun r hr => ⟨(hcurrent.rested r hr).settled, hcurrent.limited r hr⟩⟩
  obtain ⟨left, _, _, hopened, hends⟩ := hcarried.opened hstill hbatch hcurrent.newest hcurrent.rested
    hfit hheld
  obtain ⟨live', hnewest, hlast, hrested, hsame, hends'⟩ := hcarried.collect hstill hbatch
    hcurrent.newest hcurrent.rested hfit hheld hcalm
  have hreaders : ∀ r ∈ (k.opened batch w).readers.reverse, r.settle w.tree = r ∧ 0 < r.maxLogSize := by
    intro r hr
    rw [(opened_seated hstill hbatch (List.mem_reverse.mp hr)).1]
    exact hends r (List.mem_append_left _ (List.mem_reverse.mp hr))
  have hlost : ∀ r ∈ (k.opened batch w).lost, r.settle w.tree = r ∧ 0 < r.maxLogSize := by
    intro r hr
    have hlive := hprevious.subset ((k.opened_previous batch w).subset (List.mem_filter.mp hr).1)
    have hrest := hcurrent.rested r hlive
    rw [Reader.settle_still hstill hrest.seated]
    exact ⟨hrest.settled, hcurrent.limited r hlive⟩
  have hstay : (k.collect batch w).1.previous = (k.opened batch w).readers.reverse := by
    rw [(collect_calm hcalm).1]
    exact (List.map_congr_left fun r hr => (hreaders r hr).1).trans (List.map_id _)
  refine ⟨collect_idle hlost hreaders hcalm, ?_, live',
    ⟨hnewest, hrested, fun r hr => (hends' r hr).2, hsame⟩, hlast⟩
  rw [hstay]
  refine map_eq_of_map_eq hplaces fun r hr e he hsame' => ?_
  obtain ⟨e', he', hmetadata⟩ := List.mem_map.mp (hopened.subset
    (List.mem_map.mpr ⟨r, List.mem_append_left _ (List.mem_reverse.mp hr), rfl⟩))
  have hfp : e'.fingerprint = e.fingerprint := by
    rw [Reader.fingerprint, hmetadata]
    exact congrArg Prod.snd hsame'
  obtain ⟨h, hid, _⟩ := (hseats.seated e he).opened
  have hself : e'.fingerprint.agrees e.fingerprint = true := by
    rw [hfp]
    exact Fingerprint.agrees_self (identify_some hid).2.filled
  rw [← hmetadata, hapart e' he' e (hrs e he) hself]

end Batch

end Tracker

namespace Store

def inMemory : Store → Bool
  | .memory => true
  | .database _ _ => false

theorem inMemory_save (t : FileTree) (m : MemoryStore) (s : Store) (files : List Metadata) :
    (s.save t m files).2.1.inMemory = s.inMemory := by
  cases s with
  | memory => rfl
  | database db scope =>
      simp only [save, set]
      split <;> rfl

theorem held_memory {files : List Metadata} {t : FileTree} {m : MemoryStore}
    (h : (Store.memory.save t m files).1 = .done) :
    (Store.memory.save t m files).2.1.held (Store.memory.save t m files).2.2.2 =
      .ok (some (Checkpoint.encode files)) := by
  simp only [save, set, setMemory] at h ⊢
  split at h
  · cases h
  · split at h
    · cases h
    · simp [held, MemoryStore.put, *]

theorem find_database {files : List Metadata} {t : FileTree} {m : MemoryStore} {db : Database}
    {scope : String} (h : ((Store.database db scope).save t m files).1 = .done) :
    ∃ db', ((Store.database db scope).save t m files).2.1 = .database db' scope ∧
      db'.find scope Checkpoint.key = some (Database.stored (Checkpoint.encode files)) := by
  have hfind := Database.find_set Database.noTrouble t db scope Checkpoint.key
    (Checkpoint.encode files)
  simp only [save, set] at h ⊢
  generalize db.set Database.noTrouble t scope Checkpoint.key (Checkpoint.encode files) = result
    at h hfind ⊢
  obtain ⟨fault, db', t'⟩ := result
  cases fault with
  | none => exact ⟨db', rfl, hfind⟩
  | some f => cases h

theorem held_of_saved {s s' : Store} {files : List Metadata} {t t' : FileTree} {m m' : MemoryStore}
    (hkind : s'.inMemory = s.inMemory) (h : (s.save t m files).1 = .done)
    (h' : (s'.save t' m' files).1 = .done) :
    (s'.save t' m' files).2.1.held (s'.save t' m' files).2.2.2 =
      (s.save t m files).2.1.held (s.save t m files).2.2.2 := by
  cases s with
  | memory =>
      cases s' with
      | memory => rw [held_memory h, held_memory h']
      | database db' scope' => cases hkind
  | database db scope =>
      cases s' with
      | memory => cases hkind
      | database db' scope' =>
          obtain ⟨d, hd, hfind⟩ := find_database h
          obtain ⟨d', hd', hfind'⟩ := find_database h'
          rw [hd, hd']
          simp only [held, get, Database.get, hfind, hfind']

end Store

namespace Tracker

def SavedTo (kind : Option Bool) (k : Tracker) (w : World) : Prop :=
  (kind = none ∧ k.store = none) ∨
    ∃ (s : Store) (t : FileTree) (m : MemoryStore), kind = some s.inMemory ∧
      (s.save t m k.gathered).1 = .done ∧
      k.store = some (s.save t m k.gathered).2.1 ∧ (s.save t m k.gathered).2.2.2 = w.memory

theorem SavedTo.kind {kind : Option Bool} {k : Tracker} {w : World} (h : SavedTo kind k w) :
    k.store.map Store.inMemory = kind := by
  rcases h with ⟨rfl, hnone⟩ | ⟨s, t, m, rfl, _, hsome, _⟩
  · rw [hnone]
    rfl
  · rw [hsome, Option.map_some, Store.inMemory_save]

theorem SavedTo.held {kind : Option Bool} {k k' : Tracker} {w w' : World} (h : SavedTo kind k w)
    (h' : SavedTo kind k' w') (hsame : k'.gathered = k.gathered) :
    k'.store.map (Store.held w'.memory) = k.store.map (Store.held w.memory) := by
  rcases h with ⟨rfl, hnone⟩ | ⟨s, t, m, rfl, hdone, hsome, hmemory⟩
  · rcases h' with ⟨_, hnone'⟩ | ⟨s', t', m', hkind, _⟩
    · rw [hnone, hnone']
      rfl
    · cases hkind
  · rcases h' with ⟨hkind, _⟩ | ⟨s', t', m', hkind, hdone', hsome', hmemory'⟩
    · cases hkind
    · rw [hsame] at hdone' hsome' hmemory'
      rw [hsome, hsome', Option.map_some, Option.map_some, ← hmemory, ← hmemory',
        Store.held_of_saved (Option.some.inj hkind).symm hdone hdone']

theorem readBatch_saves {k : Tracker} {batch : List Path} {w : World}
    (hsaves : (⟨k, batch, w⟩ : Stage).saves = true) :
    ∃ k' w', k.readBatch batch w = (some k', w') ∧
      k' = { (k.collect batch w).1.trim with store := k'.store } ∧
      w'.outlet = (k.collect batch w).2.outlet ∧ SavedTo (k.store.map Store.inMemory) k' w' := by
  obtain ⟨bs, htook⟩ := k.collect_took batch w
  obtain ⟨_, hstore, hgathered⟩ := k.collect_alike batch w
  rw [readBatch_eq]
  cases hs : k.store with
  | none =>
      have hnone : (k.collect batch w).1.trim.store = none := hstore.trans hs
      exact ⟨_, _, save_none hnone _, rfl, rfl, .inl ⟨rfl, hnone⟩⟩
  | some s =>
      have hsome : (k.collect batch w).1.trim.store = some s := hstore.trans hs
      have hsaved : (s.save w.tree w.memory (k.collect batch w).1.trim.gathered).1 = .done := by
        change (s.save w.tree w.memory (k.collect batch w).1.gathered).1 = .done
        rw [hgathered]
        simp only [Stage.saves, hs] at hsaves
        split at hsaves
        · assumption
        · cases hsaves
      have hworld : (k.collect batch w).2.tree = w.tree ∧ (k.collect batch w).2.memory = w.memory :=
        ⟨htook.tree, htook.memory⟩
      obtain ⟨ended, s', hsave, _, hlive⟩ := save_some hsome (k.collect batch w).2
      rw [hworld.1, hworld.2] at hsave
      have hended : ended = .done := by rw [hsave] at hsaved; exact hsaved
      have hk := hlive (by rw [hended]; simp)
      refine ⟨_, _, Prod.ext hk rfl, rfl, save_outlet _ _, .inr ⟨s, w.tree, w.memory, rfl, hsaved, ?_, ?_⟩⟩
      · exact congrArg some (congrArg (fun r => r.2.1) hsave).symm
      · exact congrArg (fun r => r.2.2.2) hsave

theorem readBatches_chain {P : List (List Path) → Tracker → World → Prop} {Q : Stage → Prop}
    {batches : List (List Path)} (hne : batches ≠ []) {count : Nat} {k : Tracker} {w : World}
    (hwilling : ∀ rest k w, P rest k w → w.outlet.Willing)
    (hmax : ∀ next batch rest k w, P (next :: batch :: rest) k w → k.settings.maxBatches = 0)
    (hstep : ∀ batch rest k w, P (batch :: rest) k w → Q ⟨k, batch, w⟩ →
      ∃ k' w', k.readBatch batch w = (some k', w') ∧ k'.settings = k.settings ∧ P rest k' w')
    (hstages : ∀ s ∈ stagesFrom batches count k w, Q s) (h : P batches k w) :
    ∃ k' w', readBatches batches count k w = (some k'.readFromBeginning, w') ∧ P [] k' w' := by
  induction batches generalizing count k w with
  | nil => exact absurd rfl hne
  | cons batch batches ih =>
      cases batches with
      | nil =>
          obtain ⟨k', w', hread, _, hnext⟩ := hstep batch [] k w h (hstages _ (by simp [stagesFrom]))
          exact ⟨k', w', by rw [readBatches, hread], hnext⟩
      | cons next batches =>
          have hfirst : (⟨k, batch, w⟩ : Stage) ∈ stagesFrom (batch :: next :: batches) count k w :=
            List.mem_cons_self
          obtain ⟨k', w', hread, hsettings, hnext⟩ := hstep batch _ k w h (hstages _ hfirst)
          have hreached : reached k'.settings.maxBatches (count + 1) = false := by
            rw [hsettings, hmax _ _ _ _ _ h]
            rfl
          have hlook := Outlet.lookJoined_intact (hwilling _ _ _ hnext).intact
          have hrest : stagesFrom (batch :: next :: batches) count k w =
              ⟨k, batch, w⟩ :: stagesFrom (next :: batches) (count + 1) k' w' := by
            simp [stagesFrom, hread, hreached, hlook]
          have hend : readBatches (batch :: next :: batches) count k w =
              readBatches (next :: batches) (count + 1) k' w' := by
            simp [readBatches, hread, hreached, hlook]
          rw [hend]
          exact ih (by simp) (fun s hs => hstages s (hrest ▸ List.mem_cons_of_mem _ hs)) hnext

/-- Where a poll stands that began with `k₀`: the readers it leaves are `es` so far, and what it gathered
is `files`. -/
structure Amid (k₀ : Tracker) (followed : List Path) (t : FileTree) (es live : List Reader)
    (files : List Metadata) (k : Tracker) (w : World) : Prop where
  current : Current k followed t es live
  alike : k₀.Alike k
  gathered : k.gathered = files
  still : t.Still followed w.tree
  willing : w.outlet.Willing
  kind : k.store.map Store.inMemory = k₀.store.map Store.inMemory

def Stage.Works (followed : List Path) (s : Stage) : Prop :=
  s.saves = true ∧ s.world.tree.Still followed s.read.2.tree

theorem Current.congr {k k' : Tracker} {followed : List Path} {t : FileTree} {es live : List Reader}
    (h : Current k followed t es live) (hkept : k'.kept = k.kept) (hprevious : k'.previous = k.previous) :
    Current k' followed t es live :=
  ⟨⟨hkept ▸ h.newest.kept, hprevious ▸ h.newest.previous⟩, h.rested, h.limited, h.same⟩

theorem Current.trim {k : Tracker} {followed : List Path} {t : FileTree} {es live : List Reader}
    (h : Current k followed t es live) (hprevious : k.previous <:+ live)
    (hroom : es.length ≤ k.settings.capacity) : Current k.trim followed t es live := by
  have hlength : live.length = es.length := by simpa using h.same.length_eq
  exact ⟨h.newest.trim hprevious (hlength ▸ hroom), h.rested, h.limited, h.same⟩

theorem Amid.readBatch {k₀ k : Tracker} {followed batch : List Path} {t : FileTree} {w : World}
    {es es' live live' : List Reader} {files : List Metadata}
    (h : Amid k₀ followed t es live files k w) (hworks : (⟨k, batch, w⟩ : Stage).Works followed)
    (hcurrent : Current (k.collect batch w).1 followed t es' live')
    (hlast : (k.collect batch w).1.previous <:+ live') (hroom : es'.length ≤ k₀.settings.capacity) :
    ∃ k' w', k.readBatch batch w = (some k', w') ∧
      k'.previous = (k.collect batch w).1.previous ∧ w'.outlet = (k.collect batch w).2.outlet ∧
      Amid k₀ followed t es' live' (files ++ k'.previous.map Reader.metadata) k' w' ∧
      SavedTo (k₀.store.map Store.inMemory) k' w' := by
  obtain ⟨bs, htook⟩ := k.collect_took batch w
  obtain ⟨halike, _, hgathered⟩ := k.collect_alike batch w
  obtain ⟨k', w', hread, hk', houtlet, hsaved⟩ := readBatch_saves hworks.1
  have hsame := h.alike.trans halike
  have htrim := hcurrent.trim hlast (by rw [hsame.settings]; exact hroom)
  have htree : (⟨k, batch, w⟩ : Stage).read.2 = w' := by rw [Stage.read, hread]
  rw [h.kind] at hsaved
  refine ⟨k', w', hread, by rw [hk']; rfl, houtlet, ⟨?_, ?_, ?_, ?_, ?_, hsaved.kind⟩, hsaved⟩
  · rw [hk']
    exact htrim.congr rfl rfl
  · rw [hk']
    exact ⟨hsame.selector, hsame.policy, hsame.settings⟩
  · rw [hk', ← h.gathered]
    exact hgathered
  · exact h.still.trans (htree ▸ hworks.2)
  · rw [houtlet]
    exact h.willing.took htook.outlet

theorem SeatedReaders.congr {k k' : Tracker} {t : FileTree} {batch : List Path} {rs : List Reader}
    (hpolicy : k'.policy = k.policy) (h : SeatedReaders k' t batch rs) : SeatedReaders k t batch rs := by
  refine ⟨h.places.trans (places_congr fun path _ => identify_congr hpolicy t path), fun r hr => ?_⟩
  obtain ⟨⟨handle, hid, hhandle⟩, hlimit, hsettled, hbuilt⟩ := h.seated r hr
  exact ⟨⟨handle, by rwa [identify_congr hpolicy] at hid, hhandle⟩, hpolicy ▸ hlimit, hsettled,
    hpolicy ▸ hbuilt⟩

/-- No file of one batch of a poll agrees with one of another batch. -/
def Distinct (k : Tracker) (t : FileTree) : Prop :=
  ((k.batches t).map (k.places t)).Pairwise fun xs ys => ∀ x ∈ xs, ∀ y ∈ ys, x.2.agrees y.2 = false

instance (k : Tracker) (t : FileTree) : Decidable (k.Distinct t) :=
  inferInstanceAs (Decidable (List.Pairwise _ _))

theorem batches_flatten (k : Tracker) (t : FileTree) : (k.batches t).flatten = k.matched t :=
  chunks_flatten (Nat.lt_of_lt_of_le Nat.zero_lt_one (Nat.le_max_right _ _)) _

section Polls

variable {k : Tracker} {t : FileTree} {done : List (List Path)} {rss : List (List Reader)}
  (h : List.Forall₂ (SeatedReaders k t) done rss)
include h

theorem seatedReaders_length : rss.flatten.length ≤ done.flatten.length := by
  induction h with
  | nil => exact Nat.le_refl _
  | @cons batch rs _ _ hfirst _ ih =>
      have hlength : rs.length = (k.places t batch).length := by
        rw [← hfirst.places, List.length_map]
      rw [List.flatten_cons, List.flatten_cons, List.length_append, List.length_append, hlength]
      exact Nat.add_le_add (k.places_length t batch) ih

theorem seatedReaders_places : rss.map (List.map fun r => (r.path, r.fingerprint)) = done.map (k.places t) := by
  induction h with
  | nil => rfl
  | cons hfirst _ ih => rw [List.map_cons, List.map_cons, hfirst.places, ih]

theorem seatedReaders_seated : ∀ e ∈ rss.flatten, e.Seated k t := by
  induction h with
  | nil => simp
  | cons hfirst _ ih =>
      intro e he
      rcases List.mem_append.mp he with he | he
      · exact hfirst.seated e he
      · exact ih e he

theorem seatedReaders_apart
    (hdistinct : (done.map (k.places t)).Pairwise fun xs ys =>
      ∀ x ∈ xs, ∀ y ∈ ys, x.2.agrees y.2 = false) :
    Apart rss.flatten := by
  have hplaces := seatedReaders_places h
  have hall : rss.flatten.Pairwise fun a b => a.fingerprint.agrees b.fingerprint = false := by
    refine List.pairwise_flatten.mpr ⟨fun rs hrs => ?_, ?_⟩
    · have hmem : rs.map (fun r => (r.path, r.fingerprint)) ∈ done.map (k.places t) :=
        hplaces ▸ List.mem_map_of_mem hrs
      obtain ⟨batch, _, hbatch⟩ := List.mem_map.mp hmem
      have hapart := k.places_apart t batch
      rw [hbatch] at hapart
      exact List.pairwise_map.mp hapart
    · rw [← hplaces, List.pairwise_map] at hdistinct
      refine hdistinct.imp fun hxy x hx y hy => ?_
      exact hxy _ (List.mem_map_of_mem hx) _ (List.mem_map_of_mem hy)
  have : Std.Symm fun a b : Reader => a.fingerprint.agrees b.fingerprint = false :=
    ⟨fun a b hab => by rwa [Fingerprint.agrees_comm]⟩
  intro e he e' he' hagrees
  by_contra hne
  have := hall.forall he he' hne
  rw [hagrees] at this
  cases this

end Polls

def FirstTime (k : Tracker) (t : FileTree) (rest : List (List Path)) (k' : Tracker) (w' : World) : Prop :=
  ∃ done rss live, k.batches t = done ++ rest ∧ List.Forall₂ (SeatedReaders k t) done rss ∧
    Amid k (k.matched t) t rss.flatten live (rss.flatten.map Reader.metadata) k' w' ∧
    (done ≠ [] → k'.previous <:+ live ∧ SavedTo (k.store.map Store.inMemory) k' w')

theorem FirstTime.next {k k' : Tracker} {t : FileTree} {w' : World} {batch : List Path}
    {rest : List (List Path)} (hroom : (k.matched t).length ≤ k.settings.capacity)
    (hdistinct : k.Distinct t) (h : FirstTime k t (batch :: rest) k' w')
    (hworks : (⟨k', batch, w'⟩ : Stage).Works (k.matched t)) :
    ∃ k'' w'', k'.readBatch batch w' = (some k'', w'') ∧ k''.settings = k'.settings ∧
      FirstTime k t rest k'' w'' := by
  obtain ⟨done, rss, live, hsplit, hseats, hamid, _⟩ := h
  have hflatten := k.batches_flatten t
  have hbatch : ∀ path ∈ batch, path ∈ k.matched t := by
    intro path hpath
    rw [← hflatten, hsplit]
    simp [hpath]
  have hpairs := hdistinct
  rw [Distinct, hsplit, List.map_append, List.map_cons, ← seatedReaders_places hseats] at hpairs
  have hapart : ∀ e ∈ rss.flatten, ∀ x ∈ k'.places t batch, e.fingerprint.agrees x.2 = false := by
    intro e he x hx
    obtain ⟨rs, hrs, he⟩ := List.mem_flatten.mp he
    rw [places_congr fun path _ => identify_congr hamid.alike.policy t path] at hx
    exact (List.pairwise_append.mp hpairs).2.2 _ (List.mem_map_of_mem hrs) _ List.mem_cons_self
      _ (List.mem_map_of_mem he) x hx
  obtain ⟨bs, htook⟩ := k'.collect_took batch w'
  obtain ⟨hnext, live', hcurrent, hlast⟩ := collect_first hamid.current hamid.still hbatch
    (hamid.willing.calm htook.outlet) hapart
  have hseats' : List.Forall₂ (SeatedReaders k t) (done ++ [batch])
      (rss ++ [(k'.collect batch w').1.previous]) :=
    List.rel_append hseats (.cons (hnext.congr hamid.alike.policy) .nil)
  have hes : (rss ++ [(k'.collect batch w').1.previous]).flatten =
      rss.flatten ++ (k'.collect batch w').1.previous := by simp
  have hfit : (done ++ [batch]).flatten.length ≤ (k.matched t).length := by
    rw [← hflatten, hsplit]
    simp
  obtain ⟨k'', w'', hread, hprevious, _, hamid', hsaved⟩ := hamid.readBatch hworks hcurrent hlast
    (hes ▸ Nat.le_trans (seatedReaders_length hseats') (Nat.le_trans hfit hroom))
  refine ⟨k'', w'', hread, hamid'.alike.settings.trans hamid.alike.settings.symm,
    done ++ [batch], _, live', by simp [hsplit], hseats', ?_, fun _ => ⟨hprevious ▸ hlast, hsaved⟩⟩
  rw [hprevious] at hamid'
  simpa using hamid'

def OnceMore (k : Tracker) (t : FileTree) (rss : List (List Reader)) (k₁ : Tracker) (w₁ : World)
    (rest : List (List Path)) (k' : Tracker) (w' : World) : Prop :=
  ∃ before todo live, rss = before ++ todo ∧ List.Forall₂ (SeatedReaders k t) rest todo ∧
    (∀ batch ∈ rest, batch ∈ k₁.batches w₁.tree) ∧
    Amid k₁ (k₁.batches w₁.tree).flatten t rss.flatten live (before.flatten.map Reader.metadata) k' w' ∧
    k'.previous <:+ live ∧ w₁.outlet.Took w'.outlet [] ∧
    (before ≠ [] → SavedTo (k₁.store.map Store.inMemory) k' w')

section Again

variable {k k₁ : Tracker} {t : FileTree} {w₁ : World} {rss : List (List Reader)}
  (hsize : k₁.policy.fingerprintSize = k.policy.fingerprintSize)
  (hbuild : ∀ p h m, k₁.policy.build p h m = k.policy.build p h m)
  (hroom : rss.flatten.length ≤ k₁.settings.capacity) (hapart : Apart rss.flatten)
include hsize hbuild hroom hapart

theorem OnceMore.next {k' : Tracker} {w' : World} {batch : List Path} {rest : List (List Path)}
    (hseated : ∀ e ∈ rss.flatten, e.Seated k t) (h : OnceMore k t rss k₁ w₁ (batch :: rest) k' w')
    (hworks : (⟨k', batch, w'⟩ : Stage).Works (k₁.batches w₁.tree).flatten) :
    ∃ k'' w'', k'.readBatch batch w' = (some k'', w'') ∧ k''.settings = k'.settings ∧
      OnceMore k t rss k₁ w₁ rest k'' w'' := by
  obtain ⟨before, todo, live, hsplit, hrest, hmem, hamid, hprevious, htook, _⟩ := h
  obtain ⟨rs, todo, hrs, hlater, rfl⟩ := List.forall₂_cons_left_iff.mp hrest
  have hbatch : ∀ path ∈ batch, path ∈ (k₁.batches w₁.tree).flatten := fun path hpath =>
    List.mem_flatten.mpr ⟨batch, hmem batch List.mem_cons_self, hpath⟩
  have hin : ∀ r ∈ rs, r ∈ rss.flatten := by
    intro r hr
    rw [hsplit]
    simp [hr]
  obtain ⟨bs, hmore⟩ := k'.collect_took batch w'
  obtain ⟨hnone, hsame, live', hcurrent, hlast⟩ := collect_again hamid.current hamid.still hbatch
    (hamid.willing.calm hmore.outlet) (by rw [hamid.alike.policy, hsize])
    (fun p h m => by rw [hamid.alike.policy, hbuild]) hrs hin hseated hapart hprevious
  obtain ⟨k'', w'', hread, hprevious', houtlet, hamid', hsaved⟩ :=
    hamid.readBatch hworks hcurrent hlast hroom
  refine ⟨k'', w'', hread, hamid'.alike.settings.trans hamid.alike.settings.symm,
    before ++ [rs], todo, live', by simp [hsplit], hlater,
    fun b hb => hmem b (List.mem_cons_of_mem _ hb), ?_, hprevious' ▸ hlast, ?_, fun _ => hsaved⟩
  · rw [hprevious', hsame] at hamid'
    simpa using hamid'
  · rw [houtlet]
    simpa using htook.trans hnone.outlet

theorem poll_again {live : List Reader} {files : List Metadata} (hall : k₁.settings.maxBatches = 0)
    (hseats : List.Forall₂ (SeatedReaders k t) (k₁.batches w₁.tree) rss)
    (hamid : Amid k₁ (k₁.batches w₁.tree).flatten t rss.flatten live files k₁ w₁)
    (hprevious : k₁.previous <:+ live)
    (hstages : ∀ s ∈ k₁.stages w₁, s.Works (k₁.batches w₁.tree).flatten) :
    ∃ k' w', k₁.poll w₁ = (some k'.readFromBeginning, w') ∧ w₁.outlet.Took w'.outlet [] ∧
      k'.gathered = rss.flatten.map Reader.metadata ∧
      SavedTo (k₁.store.map Store.inMemory) k' w' := by
  have hbegin : OnceMore k t rss k₁ w₁ (k₁.batches w₁.tree) { k₁ with gathered := [] } w₁ :=
    ⟨[], rss, live, rfl, hseats, fun _ h => h, ⟨hamid.current.congr rfl rfl, ⟨rfl, rfl, rfl⟩, rfl,
      hamid.still, hamid.willing, rfl⟩, hprevious, .refl _, by simp⟩
  have hend : ∃ k' w', k₁.poll w₁ = (some k'.readFromBeginning, w') ∧ OnceMore k t rss k₁ w₁ [] k' w' := by
    refine readBatches_chain (P := OnceMore k t rss k₁ w₁) (chunks_ne_nil _ _) ?_ ?_ ?_ hstages hbegin
    · rintro rest k' w' ⟨_, _, _, _, _, _, hamid, _⟩
      exact hamid.willing
    · rintro next batch rest k' w' ⟨_, _, _, _, _, _, hamid, _⟩
      rw [hamid.alike.settings, hall]
    · intro batch rest k' w' h hworks
      exact h.next hsize hbuild hroom hapart (seatedReaders_seated hseats) hworks
  obtain ⟨k', w', hpoll, before, todo, live, hsplit, hrest, _, hamid, _, htook, hsaved⟩ := hend
  obtain rfl := List.forall₂_nil_left_iff.mp hrest
  rw [List.append_nil] at hsplit
  subst hsplit
  have hne : rss ≠ [] := by
    rintro rfl
    exact chunks_ne_nil _ _ (List.forall₂_nil_right_iff.mp hseats)
  exact ⟨k', w', hpoll, htook, hamid.gathered, hsaved hne⟩

end Again

section Twice

variable {k k₁ : Tracker} {w w₁ : World} (hall : k.settings.maxBatches = 0)
  (hroom : (k.matched w.tree).length ≤ k.settings.capacity) (hdistinct : k.Distinct w.tree)
include hall hroom hdistinct

/-- A first poll leaves a reader of every file that it finds, and saves what they note. -/
theorem poll_first (hwilling : w.outlet.Willing)
    (hstages : ∀ s ∈ k.stages w, s.Works (k.matched w.tree)) :
    ∃ k' w' rss live, k.poll w = (some k'.readFromBeginning, w') ∧
      List.Forall₂ (SeatedReaders k w.tree) (k.batches w.tree) rss ∧
      Amid k (k.matched w.tree) w.tree rss.flatten live (rss.flatten.map Reader.metadata) k' w' ∧
      k'.previous <:+ live ∧ SavedTo (k.store.map Store.inMemory) k' w' := by
  have hbegin : FirstTime k w.tree (k.batches w.tree) { k with gathered := [] } w :=
    ⟨[], [], [], rfl, .nil, ⟨⟨.nil _, by simp, by simp, by simp⟩, ⟨rfl, rfl, rfl⟩, rfl, .refl _ _,
      hwilling, rfl⟩, by simp⟩
  have hend : ∃ k' w', k.poll w = (some k'.readFromBeginning, w') ∧ FirstTime k w.tree [] k' w' := by
    refine readBatches_chain (P := FirstTime k w.tree) (chunks_ne_nil _ _) ?_ ?_ ?_ hstages hbegin
    · rintro rest k' w' ⟨_, _, _, _, _, hamid, _⟩
      exact hamid.willing
    · rintro next batch rest k' w' ⟨_, _, _, _, _, hamid, _⟩
      rw [hamid.alike.settings, hall]
    · intro batch rest k' w' h hworks
      exact h.next hroom hdistinct hworks
  obtain ⟨k', w', hpoll, done, rss, live, hsplit, hseats, hamid, hsaved⟩ := hend
  rw [List.append_nil] at hsplit
  subst hsplit
  obtain ⟨hprevious, hsaved⟩ := hsaved (chunks_ne_nil _ _)
  exact ⟨k', w', rss, live, hpoll, hseats, hamid, hprevious, hsaved⟩

/-- Polling is idempotent as long as files of different batches differ: a second poll of files that did
not change hands nothing over, and the store holds the same behind it. -/
theorem poll_idempotent (hwilling : w.outlet.Willing) (hpoll : k.poll w = (some k₁, w₁))
    (hmatched : k₁.matched w₁.tree = k.matched w.tree)
    (hstages : ∀ s ∈ k.stages w ++ k₁.stages w₁, s.Works (k.matched w.tree)) :
    ∃ k₂ w₂, k₁.poll w₁ = (some k₂, w₂) ∧ w₂.outlet.accepted = w₁.outlet.accepted ∧
      k₂.store.map (Store.held w₂.memory) = k₁.store.map (Store.held w₁.memory) := by
  obtain ⟨k', w', rss, live, hfirst, hseats, hamid, hprevious, hsaved⟩ := poll_first hall hroom
    hdistinct hwilling fun s hs => hstages s (List.mem_append_left _ hs)
  rw [hpoll] at hfirst
  obtain ⟨rfl, rfl⟩ : k₁ = k'.readFromBeginning ∧ w₁ = w' := by simpa using hfirst
  have hsettings : k'.readFromBeginning.settings = k.settings := hamid.alike.settings
  have hbatches : k'.readFromBeginning.batches w₁.tree = k.batches w.tree := by
    rw [batches, hmatched, hsettings]
    rfl
  have hfollowed : (k'.readFromBeginning.batches w₁.tree).flatten = k.matched w.tree := by
    rw [hbatches, k.batches_flatten]
  have hlength : rss.flatten.length ≤ k.settings.capacity := by
    refine Nat.le_trans (seatedReaders_length hseats) ?_
    rwa [k.batches_flatten]
  have hpolicy : k'.readFromBeginning.policy = { k.policy with fromBeginning := true } := by
    rw [readFromBeginning, hamid.alike.policy]
  have hbegun : Amid k'.readFromBeginning (k'.readFromBeginning.batches w₁.tree).flatten w.tree
      rss.flatten live (rss.flatten.map Reader.metadata) k'.readFromBeginning w₁ := by
    rw [hfollowed]
    exact ⟨hamid.current.congr rfl rfl, .refl _, hamid.gathered, hamid.still, hamid.willing, rfl⟩
  obtain ⟨k₂, w₂, hsecond, htook, hgathered, hsaved'⟩ := poll_again
    (by rw [hpolicy]) (fun p h m => by rw [hpolicy]; rfl) (by rw [hsettings]; exact hlength)
    (seatedReaders_apart hseats hdistinct) (by rw [hsettings, hall]) (hbatches ▸ hseats) hbegun hprevious
    fun s hs => hfollowed ▸ hstages s (List.mem_append_right _ hs)
  refine ⟨k₂.readFromBeginning, w₂, hsecond, by simpa using htook.accepted, ?_⟩
  refine hsaved.held ?_ (hgathered.trans hamid.gathered.symm)
  rwa [show k'.readFromBeginning.store.map Store.inMemory = _ from hamid.kind] at hsaved'

end Twice

theorem Stage.works_of_saves {k : Tracker} {w : World} (hstore : k.store = some .memory)
    (hsaves : ∀ s ∈ k.stages w, s.saves = true) (followed : List Path) :
    ∀ s ∈ k.stages w, s.Works followed := by
  intro s hs
  have haside := (Session.poll_aside ⟨hstore, rfl⟩).2 s hs
  have hread : s.read.2.tree = w.tree := (Session.readBatch_aside s.paths haside).tree
  refine ⟨hsaves s hs, ?_⟩
  rw [hread, haside.2]
  exact .refl _ _

theorem store_poll {k k₁ : Tracker} {w w₁ : World} (hstore : k.store = some .memory)
    (hpoll : k.poll w = (some k₁, w₁)) : k₁.store = some .memory := by
  have hend := (Session.poll_aside (w := w) ⟨hstore, rfl⟩).1
  rw [hpoll] at hend
  exact hend.1

theorem poll_getD {k : Tracker} {w : World} (h : (k.poll w).1.isSome = true) :
    k.poll w = (some ((k.poll w).1.getD k), (k.poll w).2) := by
  obtain ⟨k', hk'⟩ := Option.isSome_iff_exists.mp h
  refine Prod.ext ?_ rfl
  rw [hk', Option.getD_some]

open Session in
def logTracker : Tracker :=
  { ofParts ⟨["*.log"], [], none⟩ followLogs.policy followLogs.settings with store := some .memory }

open Session in
theorem poll_idempotent_logs :
    let k := logTracker
    let w : World :=
      ⟨ofFiles [("a.log", true, [97, 10]), ("b.log", true, [98, 10])], .empty, .willing, []⟩
    let k₁ := (k.poll w).1.getD k
    let w₁ := (k.poll w).2
    (k.stages w).length = 2 ∧ w₁.outlet.accepted.length = 2 ∧
      ∃ k₂ w₂, k₁.poll w₁ = (some k₂, w₂) ∧ w₂.outlet.accepted = w₁.outlet.accepted ∧
        k₂.store.map (Store.held w₂.memory) = k₁.store.map (Store.held w₁.memory) := by
  intro k w k₁ w₁
  have hrun : (k.poll w).1.isSome = true ∧ k.Distinct w.tree ∧
      (k.matched w.tree).length ≤ k.settings.capacity ∧ k₁.matched w₁.tree = k.matched w.tree ∧
      (∀ s ∈ k.stages w, s.saves = true) ∧ (∀ s ∈ k₁.stages w₁, s.saves = true) ∧
      (k.stages w).length = 2 ∧ w₁.outlet.accepted.length = 2 := by decide +kernel
  obtain ⟨hsome, hdistinct, hroom, hmatched, hsaves, hsaves', hstages, haccepted⟩ := hrun
  have hpoll : k.poll w = (some k₁, w₁) := poll_getD hsome
  have hall : k.settings.maxBatches = 0 := rfl
  have hwilling : w.outlet.Willing := Outlet.willing_willing
  have hstore : k.store = some .memory := rfl
  clear_value k₁ w₁ k w
  have hworks : ∀ s ∈ k.stages w ++ k₁.stages w₁, s.Works (k.matched w.tree) := by
    intro s hs
    rcases List.mem_append.mp hs with hs | hs
    · exact Stage.works_of_saves hstore hsaves _ s hs
    · exact Stage.works_of_saves (store_poll hstore hpoll) hsaves' _ s hs
  exact ⟨hstages, haccepted, poll_idempotent hall hroom hdistinct hwilling hpoll hmatched hworks⟩

open Session in
/-- Of two logs one goes on from the other, but in another batch: it takes the reader of that one, which
is read again with the next poll, and so is the line that is only in the longer one. -/
example :
    let w : World :=
      ⟨ofFiles [("a.log", true, [97, 10]), ("b.log", true, [97, 10, 98, 10])], .empty, .willing, []⟩
    let k₁ := (logTracker.poll w).1.getD logTracker
    let w₁ := (logTracker.poll w).2
    ¬ logTracker.Distinct w.tree ∧
      w₁.outlet.batches.flatMap Batch.records = [⟨"a", 0, 2⟩, ⟨"b", 2, 2⟩] ∧
      (k₁.poll w₁).2.outlet.batches.flatMap Batch.records =
        [⟨"a", 0, 2⟩, ⟨"b", 2, 2⟩, ⟨"a", 0, 2⟩, ⟨"b", 2, 2⟩] := by
  decide +kernel

end Tracker

end LogTail
