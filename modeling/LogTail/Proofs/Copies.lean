import LogTail.Proofs.Lines
import LogTail.Proofs.Tracking
import LogTail.Proofs.InMemory

namespace LogTail

open Record Lines Tracker

namespace Record

variable {limit : Nat}

theorem cut_of_none_append {bs more rest : Bytes} {p : Piece} (hnone : cut limit bs = none)
    (h : cut limit (bs ++ more) = some (p, rest)) :
    bs.length < p.span ∨ p = ⟨bs.length, bs⟩ ∧ bs.getLast? = some 13 := by
  obtain ⟨hfeed, hfew⟩ := cut_none.mp hnone
  have hcutting := cut_cutting h
  generalize hall : bs ++ more = all at hcutting
  cases hcutting with
  | line unbroken short =>
      refine .inl ?_
      rcases List.append_eq_append_iff.mp hall with ⟨t, rfl, -⟩ | ⟨t, rfl, ht⟩
      · simp only [List.length_append]
        omega
      · cases t with
        | nil => simp
        | cons b t =>
            cases ht
            exact absurd (by simp) hfeed
  | parted _ full =>
      refine .inl ?_
      dsimp only
      omega
  | slice unbroken full _ =>
      rcases hfew with hlt | ⟨hlen, hreturn⟩
      · exact .inl (full ▸ hlt)
      · obtain ⟨rfl, -⟩ := List.append_inj hall (hlen.trans full.symm)
        exact .inr ⟨rfl, hreturn⟩

end Record

namespace Lines

variable {limit : Nat} (hlimit : 0 < limit)
include hlimit

theorem located_take (n : Nat) (bs : Bytes) :
    located limit 0 ((bs.take n).splitOn 10) ⊆ located limit 0 (bs.splitOn 10) := by
  obtain ⟨more, hmore⟩ := pieces_prefix hlimit (List.take_prefix n bs)
  rw [← locate_pieces hlimit, ← locate_pieces hlimit, ← hmore, locate_append]
  exact List.subset_append_left _ _

theorem located_within {n : Nat} {bs : Bytes} (hn : n ≤ bs.length) {l : Located}
    (hl : l ∈ located limit 0 (bs.splitOn 10))
    (hstop : l.stop < n ∨ l.stop = n ∧ (l.span = l.body.length → l.body.getLast? ≠ some 13)) :
    l ∈ located limit 0 ((bs.take n).splitOn 10) := by
  have hextent := extent_pieces_le hlimit (bs.take n)
  have hcut := pieces_append hlimit (bs.take n) (bs.drop n)
  rw [List.take_append_drop] at hcut
  rw [← locate_pieces hlimit, hcut, locate_append, List.mem_append, locate_pieces hlimit] at hl
  refine hl.resolve_right fun hlater => ?_
  -- the bytes behind the last piece of the first ones, which are all in the next piece
  have hleft : 0 + extent (pieces limit (bs.take n)) +
      ((bs.take n).drop (extent (pieces limit (bs.take n)))).length = n := by
    rw [List.length_take_of_le hn] at hextent
    rw [List.length_drop, List.length_take_of_le hn]
    omega
  have hnone := pieces_rest hlimit (bs.take n)
  generalize (bs.take n).drop (extent (pieces limit (bs.take n))) = left at hlater hleft hnone
  have hcuts := pieces_cuts hlimit (left ++ bs.drop n)
  obtain ⟨before, p, behind, hpieces, -, rfl⟩ := mem_locate hlater
  have hspans := hcuts.span_pos hlimit
  rw [hpieces] at hcuts hspans
  have hnone : cut limit left = none := by
    have h := pieces_cuts hlimit left
    rw [hnone] at h
    cases h with
    | stop h => exact h
  simp only [Located.stop] at hstop
  cases before with
  | nil =>
      cases hcuts with
      | piece hfirst =>
          rcases cut_of_none_append hnone hfirst with hlong | ⟨rfl, hreturn⟩
          · simp only [extent_nil] at hstop
            omega
          · exact (hstop.resolve_left (by simp; omega)).2 rfl hreturn
  | cons q before =>
      have hp := hspans p (by simp)
      cases hcuts with
      | piece hfirst =>
          have hq : left.length ≤ q.span := by
            rcases cut_of_none_append hnone hfirst with hlong | ⟨rfl, -⟩
            · exact Nat.le_of_lt hlong
            · exact Nat.le_refl _
          simp only [extent_cons] at hstop
          omega

end Lines

namespace Tracker

theorem Sighted.agrees {size : Nat} {t : FileTree} {g h : Handle} {f fp : Fingerprint}
    (hf : Sighted size t g f) (hfp : Sighted size t h fp) (hagrees : f.agrees fp = true) :
    (t.content g.node).take (min f.size fp.size) = (t.content h.node).take (min f.size fp.size) := by
  have htake {h : Handle} {fp : Fingerprint} (hfp : Sighted size t h fp) {n : Nat} (hn : n ≤ fp.size) :
      (t.content h.node).take n = fp.bytes.take n := by
    have hsize : n ≤ size := Nat.le_trans hn (by rw [Fingerprint.size, hfp.bytes]; exact List.length_take_le _ _)
    rw [hfp.bytes, List.take_take, Nat.min_eq_left hsize]
  rw [htake hf (Nat.min_le_left _ _), htake hfp (Nat.min_le_right _ _)]
  simp only [Fingerprint.agrees, Bool.and_eq_true, beq_iff_eq] at hagrees
  exact hagrees.2

theorem Sighted.size_le {size : Nat} {t : FileTree} {h : Handle} {fp : Fingerprint}
    (hfp : Sighted size t h fp) : fp.size ≤ (t.content h.node).length := by
  rw [Fingerprint.size, hfp.bytes]
  exact List.length_take_le' _ _

theorem opened_copied {k : Tracker} {done : List Path} {path : Path} {w : World} {h : Handle}
    {fp : Fingerprint} (hid : k.identify w.tree path = some (h, fp))
    (hskipped : (k.opened (done ++ [path]) w).readers = (k.opened done w).readers) :
    ∃ r ∈ (k.opened done w).readers, r.fingerprint.agrees fp = true := by
  have hopens := k.opened_opens done path w
  rw [← k.opened_identify done w] at hid
  generalize k.opened (done ++ [path]) w = s' at hopens hskipped
  cases hopens with
  | unreadable hnone => rw [hid] at hnone; cases hnone
  | copy hid' hmem hagrees =>
      rw [hid] at hid'
      cases hid'
      rw [← opened_fingerprints] at hmem
      obtain ⟨r, hr, rfl⟩ := List.mem_map.mp hmem
      exact ⟨r, hr, hagrees⟩
  | resumed _ _ _ _ _ _ _ _ _ hreaders | added _ _ _ _ _ _ _ hreaders =>
      exact absurd (hreaders.symm.trans hskipped) (List.cons_ne_self _ _)

/-- A file that no reader is opened for is a copy of one that a reader was opened for. Each record of it
that ends within the bytes that both fingerprints hold is a record of that file too, at the same position
and with the same body; only where the limit cut it off at a carriage return, the last of these bytes,
may the other file go on with a line feed. -/
theorem copy_records {k : Tracker} {done : List Path} {path : Path} {w : World} {h : Handle}
    {fp : Fingerprint} (hid : k.identify w.tree path = some (h, fp))
    (hskipped : (k.opened (done ++ [path]) w).readers = (k.opened done w).readers) :
    (∃ r ∈ (k.opened done w).readers, r.fingerprint.agrees fp = true) ∧
      ∀ r ∈ (k.opened done w).readers, r.fingerprint.agrees fp = true →
        ∃ g, w.tree.openFile r.path = .ok g ∧ r.handle = some g ∧
          let copy := w.tree.content h.node
          let original := w.tree.content g.node
          let n := min r.fingerprint.size fp.size
          ∀ l ∈ located k.policy.limit 0 (copy.splitOn 10),
            (l.stop < n ∨ l.stop = n ∧ (l.span = l.body.length → l.body.getLast? ≠ some 13) ∨
              copy.length ≤ n) →
              l ∈ located k.policy.limit 0 (original.splitOn 10) := by
  refine ⟨opened_copied hid hskipped, fun r hr hagrees => ?_⟩
  obtain ⟨-, g, m, hid', hbuilt⟩ := opened_built hr
  obtain ⟨hopen, hsighted⟩ := identify_some hid'
  obtain ⟨-, hsighted'⟩ := identify_some hid
  refine ⟨g, hopen, by rw [hbuilt, Policy.handle_build], ?_⟩
  intro copy original n l hl hstop
  have hlimit := k.policy.limit_pos
  have hn : n ≤ copy.length := Nat.le_trans (Nat.min_le_right _ _) hsighted'.size_le
  have htake : original.take n = copy.take n := hsighted.agrees hsighted' hagrees
  have hwithin : l ∈ located k.policy.limit 0 ((copy.take n).splitOn 10) := by
    rcases hstop with hlt | hend | hshort
    · exact located_within hlimit hn hl (.inl hlt)
    · exact located_within hlimit hn hl (.inr hend)
    · rwa [List.take_of_length_le hshort]
  exact located_take hlimit n original (htake ▸ hwithin)

end Tracker

namespace Session

def followPairs : Config := { followLogs with maxConcurrentFiles := 4, fingerprintSize := 16 }

def pairFollower : Consumer := .ofParts ⟨["*.log"], [], none⟩ followPairs.policy followPairs.settings

theorem ofConfig_followPairs : Consumer.ofConfig followPairs = .ok pairFollower := rfl

end Session

open Session

/-- The second log has just the first of the two records of the first one. -/
theorem Tracker.copy_records_shorter :
    let k : Tracker := .ofParts ⟨["*.log"], [], none⟩ followPairs.policy followPairs.settings
    let w : World := ⟨ofFiles [("a.log", true, [97, 10, 98, 10]), ("b.log", true, [97, 10])], .empty,
      .willing, []⟩
    (k.opened ([⟨"a.log"⟩] ++ [⟨"b.log"⟩]) w).readers = (k.opened [⟨"a.log"⟩] w).readers ∧
      ∃ r ∈ (k.opened [⟨"a.log"⟩] w).readers, ∃ g, w.tree.openFile r.path = .ok g ∧ r.handle = some g ∧
        (⟨0, [97], 2⟩ : Located) ∈
          located k.policy.limit 0 ((w.tree.content g.node).splitOn 10) := by
  intro k w
  have hskipped : (k.opened ([⟨"a.log"⟩] ++ [⟨"b.log"⟩]) w).readers =
      (k.opened [⟨"a.log"⟩] w).readers := rfl
  have hfound : (k.identify w.tree ⟨"b.log"⟩).map (fun id => (id.1.node, id.2.size)) = some (4, 2) := by
    decide +kernel
  have hsizes : ∀ r ∈ (k.opened [⟨"a.log"⟩] w).readers, r.fingerprint.size = 4 := by decide +kernel
  obtain ⟨⟨h, fp⟩, hid, hcopy⟩ := Option.map_eq_some_iff.mp hfound
  simp only [Prod.mk.injEq] at hcopy
  obtain ⟨⟨r, hr, hagrees⟩, hall⟩ := copy_records hid hskipped
  obtain ⟨g, hopen, hhandle, hrecords⟩ := hall r hr hagrees
  refine ⟨hskipped, r, hr, g, hopen, hhandle, hrecords _ ?_ (.inr (.inr ?_))⟩
  · rw [hcopy.1]
    decide +kernel
  · rw [hcopy.1, hcopy.2, hsizes r hr]
    decide +kernel

/-- Two logs with the same first line, which fills the fingerprint: of the second nothing is read. -/
theorem Session.differing_copy_skipped :
    let heading : Bytes := List.replicate 16 97
    let s := (ofConsumer pairFollower (ofFiles [("a.log", true, heading ++ [10, 97, 10]),
      ("b.log", true, heading ++ [10, 98, 10])])).run [.start]
    let found (stage : Stage) (path : Path) := (stage.tracker.identify stage.world.tree path).map
      fun id => located stage.tracker.policy.limit 0 ((stage.world.tree.content id.1.node).splitOn 10)
    Consumer.ofConfig followPairs = .ok s.origin ∧ followPairs.startAt = .beginning ∧
      s.stages.map Stage.paths = [[⟨"a.log"⟩, ⟨"b.log"⟩]] ∧
      s.stages.map (fun stage =>
        (stage.tracker.opened stage.paths stage.world).readers.map Reader.path) = [[⟨"a.log"⟩]] ∧
      s.stages.map (found · ⟨"a.log"⟩) = [some [⟨0, heading, 17⟩, ⟨17, [97], 2⟩]] ∧
      s.stages.map (found · ⟨"b.log"⟩) = [some [⟨0, heading, 17⟩, ⟨17, [98], 2⟩]] ∧
      ((s.run [.poll]).world.outlet.batches.flatMap Batch.records).map Record.body =
        ["aaaaaaaaaaaaaaaa", "a"] := by
  refine ⟨ofConfig_followPairs, rfl, ?_, ?_, ?_, ?_, ?_⟩
  all_goals decide +kernel

end LogTail
