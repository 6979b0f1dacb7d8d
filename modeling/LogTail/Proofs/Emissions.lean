import LogTail.Proofs.Ledger
import LogTail.Proofs.Openings

namespace LogTail

open Record

namespace Reader

/-- The records that a reader hands over if it is read to the end. -/
def ahead (t : FileTree) (r : Reader) : List Record :=
  match r.handle with
  | none => []
  | some h =>
    let s := r.rewound (t.content h.node).length
    recordsFrom s.offset (pieces s.maxLogSize ((t.content h.node).drop s.offset))

theorem ahead_closed {r : Reader} (hh : r.handle = none) (t : FileTree) : r.ahead t = [] := by
  simp [ahead, hh]

theorem ahead_of_le {r : Reader} {h : Handle} {t : FileTree} (hh : r.handle = some h)
    (hle : r.offset ≤ (t.content h.node).length) :
    r.ahead t = recordsFrom r.offset (pieces r.maxLogSize ((t.content h.node).drop r.offset)) := by
  simp [ahead, hh, rewound_of_le hle]

theorem ahead_empty {r : Reader} {h : Handle} {t : FileTree} (hh : r.handle = some h)
    (hempty : t.content h.node = []) : r.ahead t = [] := by
  simp only [ahead, hh, hempty, List.drop_nil]
  rfl

end Reader

namespace Tracker

structure Hands (t : FileTree) (rs : List Reader) (bs : List Batch) : Prop where
  stamped : ∀ b ∈ bs, ∃ r ∈ rs, b.metadata.fingerprint = r.fingerprint
  records (p : Fingerprint → Bool) :
    (bs.filter fun b => p b.metadata.fingerprint).flatMap Batch.records =
      (rs.filter fun r => p r.fingerprint).flatMap (Reader.ahead t)

theorem Hands.nil (t : FileTree) : Hands t [] [] := ⟨by simp, fun _ => rfl⟩

theorem Hands.append {t : FileTree} {rs ss : List Reader} {bs cs : List Batch} (h : Hands t rs bs)
    (h' : Hands t ss cs) : Hands t (rs ++ ss) (bs ++ cs) where
  stamped b hb := by
    rcases List.mem_append.mp hb with hb | hb
    · obtain ⟨r, hr, hsame⟩ := h.stamped b hb
      exact ⟨r, List.mem_append_left _ hr, hsame⟩
    · obtain ⟨r, hr, hsame⟩ := h'.stamped b hb
      exact ⟨r, List.mem_append_right _ hr, hsame⟩
  records p := by
    rw [List.filter_append, List.filter_append, List.flatMap_append, List.flatMap_append, h.records,
      h'.records]

theorem drainOne_hands {r : Reader} {w : World} (hcalm : w.outlet.Calm (drainOne r w).2.outlet) :
    ∃ bs, w.Took (drainOne r w).2 bs ∧ Hands w.tree [r] bs := by
  cases hh : r.handle with
  | none =>
      rw [drainOne_closed hh]
      refine ⟨[], .refl w, by simp, fun p => ?_⟩
      rw [List.filter_cons]
      split <;> simp [Reader.ahead_closed hh]
  | some h =>
      obtain ⟨ended, r', bs, taken, left, hd, htook, _⟩ := drainOne_open hh w
      have hdone := hd.calm hcalm
      have htaken := hd.split
      rw [hd.whole hdone, List.append_nil] at htaken
      have hstamped : ∀ b ∈ bs, b.metadata.fingerprint = r.fingerprint := fun b hb => by
        rw [hd.stamped b hb, Reader.fingerprint_rewound]
      have hrecords : bs.flatMap Batch.records = r.ahead w.tree := by
        rw [hd.records (by simp [hdone]), ← htaken, Reader.ahead, hh]
        simp only [Reader.maxLogSize_rewound]
      refine ⟨bs, htook, fun b hb => ⟨r, List.mem_singleton_self r, hstamped b hb⟩, fun p => ?_⟩
      by_cases hp : p r.fingerprint = true
      · rw [List.filter_eq_self.mpr fun b hb => by rw [hstamped b hb, hp], hrecords]
        simp [hp]
      · rw [List.filter_eq_nil_iff.mpr fun b hb => by rw [hstamped b hb]; exact hp]
        simp [hp]

theorem drain_hands {rs : List Reader} {w : World} (hcalm : w.outlet.Calm (drain rs w).2.outlet) :
    ∃ bs, w.Took (drain rs w).2 bs ∧ Hands w.tree rs bs := by
  induction rs generalizing w with
  | nil => exact ⟨[], .refl w, .nil _⟩
  | cons r rs ih =>
      rw [drain_cons] at hcalm ⊢
      obtain ⟨_, hrest⟩ := drain_took rs (drainOne r w).2
      obtain ⟨bs, htook, hbs⟩ := drainOne_hands (hcalm.left hrest.outlet)
      obtain ⟨cs, htook', hcs⟩ := ih (hcalm.right htook.outlet)
      rw [htook.tree] at hcs
      exact ⟨bs ++ cs, htook.trans htook', hbs.append hcs⟩

theorem Hands.sighted {k : Tracker} {paths : List Path} {w : World} {bs : List Batch}
    (h : Hands w.tree (k.opened paths w).readers.reverse bs) :
    ∀ b ∈ bs, ∃ x ∈ k.sights w.tree paths, b.metadata.fingerprint = x.2 := by
  intro b hb
  obtain ⟨r, hr, hsame⟩ := h.stamped b hb
  obtain ⟨path, hpath, _, hid, _⟩ := opened_reader (List.mem_reverse.mp hr)
  exact ⟨_, mem_sights hpath hid, hsame⟩

/-- What a batch hands over: first what is left of files that no reader goes on with, then what the files
of the batch have. -/
theorem collect_hands {k : Tracker} {paths : List Path} {w : World}
    (hcalm : w.outlet.Calm (k.collect paths w).2.outlet) :
    ∃ bs cs, w.Took (k.collect paths w).2 (bs ++ cs) ∧ Hands w.tree (k.opened paths w).lost bs ∧
      Hands w.tree (k.opened paths w).readers.reverse cs := by
  obtain ⟨_, hopen⟩ := k.opened_steady paths w
  rw [collect_eq] at hcalm ⊢
  obtain ⟨_, hread⟩ := drain_took (k.opened paths w).readers.reverse
    (drain (k.opened paths w).lost (k.opened paths w).world).2
  have hcalm' := hcalm.right hopen.outlet
  obtain ⟨bs, hlost, hbs⟩ := drain_hands (hcalm'.left hread.outlet)
  obtain ⟨cs, hread, hcs⟩ := drain_hands (hcalm'.right hlost.outlet)
  rw [hlost.tree, hopen.tree] at hcs
  rw [hopen.tree] at hbs
  exact ⟨bs, cs, by simpa using hopen.trans (hlost.trans hread), hbs, hcs⟩

theorem opened_passes {k : Tracker} {paths : List Path} {w : World} {p : Reader → Bool}
    (hp : ∀ x ∈ k.sights w.tree paths, ∀ r ∈ k.previous, p r = true → x.2.startsWith r.fingerprint = false) :
    (k.opened paths w).tracker.previous.filter p = k.previous.filter p := by
  induction paths using List.reverseRecOn with
  | nil => rfl
  | append_singleton paths path ih =>
      have ih := ih fun x hx => hp x (k.sights_snoc w.tree paths path hx)
      have hsub := k.opened_previous paths w
      have hopens := k.opened_opens paths path w
      generalize k.opened (paths ++ [path]) w = s' at hopens ⊢
      cases hopens with
      | unreadable | copy => exact ih
      | @resumed h fp old front back _ hid _ _ _ hmatch _ _ _ _ _ hyields =>
          rcases hyields with ⟨part, hprevious, hrest⟩ | ⟨hprevious, _⟩
          · rw [opened_identify] at hid
            have hold : p old = false := by
              by_contra hpold
              have hmem : old ∈ k.previous := hsub.subset (by rw [hprevious]; simp)
              have := hp _ (mem_sights (by simp) hid) old hmem (by simpa using hpold)
              rw [hmatch] at this
              cases this
            rw [← ih, hprevious, hrest]
            simp [hold]
          · rw [hprevious, ih]
      | added _ _ _ _ _ _ _ _ hprevious => rw [hprevious, ih]

theorem filter_fingerprint {rs : List Reader} {r : Reader} (hr : r ∈ rs)
    (hapart : rs.Pairwise fun a b => a.fingerprint ≠ b.fingerprint) :
    rs.filter (fun s => decide (s.fingerprint = r.fingerprint)) = [r] := by
  obtain ⟨front, back, rfl⟩ := List.append_of_mem hr
  obtain ⟨_, hback, hfront⟩ := List.pairwise_append.mp hapart
  rw [List.filter_append, List.filter_cons, if_pos (by simp),
    List.filter_eq_nil_iff.mpr fun s hs => by simpa using hfront s hs r List.mem_cons_self,
    List.filter_eq_nil_iff.mpr fun s hs => by
      simpa using fun hsame => (List.pairwise_cons.mp hback).1 s hs (Eq.symm hsame)]
  rfl

theorem collect_apart {k : Tracker} {paths : List Path} {w : World}
    (hcalm : w.outlet.Calm (k.collect paths w).2.outlet) :
    (k.collect paths w).1.previous.Pairwise fun a b => a.fingerprint ≠ b.fingerprint := by
  rw [(collect_calm hcalm).1, List.pairwise_map]
  simpa only [Reader.fingerprint_settle] using k.opened_apart paths w

theorem batches_of_le {k : Tracker} {t : FileTree}
    (h : (k.matched t).length ≤ max k.settings.batchFiles 1) : k.batches t = [k.matched t] :=
  chunks_of_le h

theorem poll_eq_readBatch {k : Tracker} {w : World}
    (hone : (k.matched w.tree).length ≤ max k.settings.batchFiles 1) :
    k.poll w = (({ k with gathered := [] }.readBatch (k.matched w.tree) w).1.map readFromBeginning,
      ({ k with gathered := [] }.readBatch (k.matched w.tree) w).2) := by
  rw [poll_eq, batches_of_le hone, readBatches]
  cases { k with gathered := [] }.readBatch (k.matched w.tree) w with
  | mk o w' => cases o <;> rfl

theorem outlet_poll {k : Tracker} {w : World}
    (hone : (k.matched w.tree).length ≤ max k.settings.batchFiles 1) :
    (k.poll w).2.outlet = ({ k with gathered := [] }.collect (k.matched w.tree) w).2.outlet := by
  rw [poll_eq_readBatch hone, readBatch_eq]
  exact save_outlet _ _

theorem tracker_poll {k k' : Tracker} {w w' : World}
    (hone : (k.matched w.tree).length ≤ max k.settings.batchFiles 1) (hpoll : k.poll w = (some k', w')) :
    k' = { ({ k with gathered := [] }.collect (k.matched w.tree) w).1.trim.readFromBeginning with
        store := k'.store } := by
  rw [poll_eq_readBatch hone, readBatch_eq, Prod.mk.injEq, Option.map_eq_some_iff] at hpoll
  obtain ⟨⟨k₁, hk₁, rfl⟩, _⟩ := hpoll
  rw [save_tracker hk₁]
  rfl

theorem poll_left {k k₁ : Tracker} {w w₁ : World}
    (hone : (k.matched w.tree).length ≤ max k.settings.batchFiles 1) (hpoll : k.poll w = (some k₁, w₁)) :
    k₁.settings = k.settings ∧ k₁.policy = { k.policy with fromBeginning := true } ∧
      k₁.previous = ({ k with gathered := [] }.collect (k.matched w.tree) w).1.previous ∧
      w₁.outlet = ({ k with gathered := [] }.collect (k.matched w.tree) w).2.outlet := by
  have halike := ({ k with gathered := [] }.collect_alike (k.matched w.tree) w).1
  have houtlet := outlet_poll hone
  rw [hpoll] at houtlet
  have hk₁ := tracker_poll hone hpoll
  refine ⟨?_, ?_, ?_, houtlet⟩
  · rw [hk₁]
    exact halike.settings
  · rw [hk₁]
    exact congrArg (fun f : Policy => { f with fromBeginning := true }) halike.policy
  · rw [hk₁]
    rfl

end Tracker

end LogTail
