import LogTail.Proofs.Checkpoints
import LogTail.Proofs.Polls

namespace LogTail

open Record Tracker

/-- Files are created and appended to, moved or removed, but what they hold stays. -/
def FileTree.Grows (t t' : FileTree) : Prop := ∀ n, t.content n <+: t'.content n

theorem FileTree.Grows.refl (t : FileTree) : t.Grows t := fun _ => List.prefix_rfl

theorem FileTree.Grows.trans {t t' t'' : FileTree} (h : t.Grows t') (h' : t'.Grows t'') :
    t.Grows t'' := fun n => (h n).trans (h' n)

theorem FileTree.content_of_length_le {t : FileTree} {n : Nat} (h : t.nodes.length ≤ n) :
    t.content n = [] := by
  simp [content, node?, List.getElem?_eq_none h]

theorem FileTree.grows_of_nodes {t t' : FileTree}
    (h : ∀ n < t.nodes.length, t.content n <+: t'.content n) : t.Grows t' := by
  intro n
  by_cases hn : n < t.nodes.length
  · exact h n hn
  · rw [content_of_length_le (by omega)]
    exact List.nil_prefix

section Rivals

variable {α : Type} {met met' : List (α × Fingerprint)} {m n : α} {f g : Fingerprint}

/-- No fingerprint taken of one file is a start of one taken of another. What fingerprints are taken of
may be files or what else is told apart by them. -/
def NoRivals (met : List (α × Fingerprint)) : Prop :=
  ∀ a ∈ met, ∀ b ∈ met, a.1 ≠ b.1 → b.2.startsWith a.2 = false

instance [DecidableEq α] (met : List (α × Fingerprint)) : Decidable (NoRivals met) :=
  inferInstanceAs (Decidable (∀ a ∈ met, ∀ b ∈ met, a.1 ≠ b.1 → b.2.startsWith a.2 = false))

theorem NoRivals.same (hrivals : NoRivals met) (hf : (m, f) ∈ met) (hg : (n, g) ∈ met)
    (h : g.startsWith f = true) : m = n := by
  by_contra hne
  have := hrivals _ hf _ hg hne
  rw [h] at this
  cases this

theorem NoRivals.agree (hrivals : NoRivals met) (hf : (m, f) ∈ met) (hg : (n, g) ∈ met)
    (h : f.agrees g = true) : m = n := by
  rcases Fingerprint.agrees_iff.mp h with hback | hfore
  · exact (hrivals.same hg hf hback).symm
  · exact hrivals.same hf hg hfore

theorem NoRivals.mono (h : NoRivals met') (hsub : ∀ s ∈ met, s ∈ met') : NoRivals met :=
  fun a ha b hb => h a (hsub a ha) b (hsub b hb)

end Rivals

theorem Tracker.opened_finds {k : Tracker} {paths : List Path} {w : World} {n : Nat} {fp : Fingerprint}
    (hrivals : NoRivals (k.sights w.tree paths)) (hx : (n, fp) ∈ k.sights w.tree paths) :
    ∃ r ∈ (k.opened paths w).readers, r.fingerprint = fp ∧ ∃ h, r.handle = some h ∧ h.node = n := by
  obtain ⟨path, hpath, _, hid, _⟩ := of_mem_sights hx
  obtain ⟨r, hr, hagrees⟩ := opened_covers hpath hid
  obtain ⟨path', hpath', h, hid', hh, _⟩ := opened_reader hr
  have hx' := mem_sights hpath' hid'
  have hnode : h.node = n := hrivals.agree hx' hx hagrees
  rw [hnode] at hx'
  exact ⟨r, hr, fingerprint_unique hx' hx, h, hh, hnode⟩

section Delivered

variable {α : Type} [DecidableEq α] {met : List (α × Fingerprint)} {w w' : World}

/-- The records delivered of a file, in the order of their acceptance: those of the batches that are
stamped with a fingerprint of the file. -/
def World.delivered (met : List (α × Fingerprint)) (w : World) (n : α) : List Record :=
  (w.outlet.batches.filter fun b => (n, b.metadata.fingerprint) ∈ met).flatMap Batch.records

/-- Batches that hold the same of every file, in an order of their own. -/
def SameOf (met : List (α × Fingerprint)) (bs bs' : List Batch) : Prop :=
  ∀ n, bs.filter (fun b => (n, b.metadata.fingerprint) ∈ met) =
    bs'.filter fun b => (n, b.metadata.fingerprint) ∈ met

theorem SameOf.append {bs bs' cs cs' : List Batch} (h : SameOf met bs bs')
    (h' : SameOf met cs cs') : SameOf met (bs ++ cs) (bs' ++ cs') := by
  intro n
  rw [List.filter_append, List.filter_append, h n, h' n]

theorem delivered_took {bs : List Batch} (h : w.outlet.Took w'.outlet bs) (n : α) :
    w'.delivered met n =
      w.delivered met n ++
        (bs.filter fun b => (n, b.metadata.fingerprint) ∈ met).flatMap Batch.records := by
  simp [World.delivered, Outlet.batches, h.accepted]

theorem delivered_mono {bs : List Batch} (h : w.outlet.Took w'.outlet bs) (n : α) :
    w.delivered met n <+: w'.delivered met n :=
  ⟨_, (delivered_took h n).symm⟩

theorem delivered_suffix (h : w.outlet.accepted <:+ w'.outlet.accepted) (n : α) :
    w.delivered met n <+: w'.delivered met n := by
  obtain ⟨bs, hbs⟩ := h
  simp [World.delivered, Outlet.batches, ← hbs]

theorem delivered_stamped {bs : List Batch} {fp : Fingerprint} (h : w.outlet.Took w'.outlet bs)
    (hstamped : ∀ b ∈ bs, b.metadata.fingerprint = fp) (n : α) :
    w'.delivered met n =
      w.delivered met n ++ if (n, fp) ∈ met then bs.flatMap Batch.records else [] := by
  rw [delivered_took h n]
  congr 1
  split
  · next hmem =>
      rw [List.filter_eq_self.mpr fun b hb => by simp [hstamped b hb, hmem]]
  · next hmem =>
      rw [List.filter_eq_nil_iff.mpr fun b hb => by simp [hstamped b hb, hmem]]
      rfl

end Delivered

/-- What is known of a file fits it: the fingerprint is a start of it, and the offset lies behind some
of its first pieces. -/
structure Fits (size limit : Nat) (content : Bytes) (m : Metadata) (taken : List Piece) : Prop where
  filled : m.fingerprint.bytes ≠ []
  start : m.fingerprint.bytes <+: content.take size
  split : ∃ left, pieces limit content = taken ++ left
  offset : m.offset = extent taken

namespace Fits

variable {size limit : Nat} {content content' : Bytes} {m : Metadata} {taken : List Piece}

theorem grows (hlimit : 0 < limit) (h : Fits size limit content m taken) (hg : content <+: content') :
    Fits size limit content' m taken := by
  obtain ⟨left, hleft⟩ := h.split
  obtain ⟨more, hmore⟩ := pieces_prefix hlimit hg
  obtain ⟨hstart, hsize⟩ := List.prefix_take_iff.mp h.start
  exact ⟨h.filled, List.prefix_take_iff.mpr ⟨hstart.trans hg, hsize⟩,
    ⟨left ++ more, by rw [← hmore, hleft]; simp⟩, h.offset⟩

theorem offset_le (hlimit : 0 < limit) (h : Fits size limit content m taken) :
    m.offset ≤ content.length := by
  obtain ⟨left, hleft⟩ := h.split
  have hle := extent_pieces_le hlimit content
  rw [hleft, extent_append] at hle
  rw [h.offset]
  omega

theorem pieces_left (hlimit : 0 < limit) (h : Fits size limit content m taken) :
    pieces limit content = taken ++ pieces limit (content.drop m.offset) := by
  obtain ⟨left, hleft⟩ := h.split
  rw [h.offset, pieces_drop hlimit hleft, hleft]

theorem taken_all (hlimit : 0 < limit) (h : Fits size limit content m taken)
    (hnone : pieces limit (content.drop m.offset) = []) : taken = pieces limit content := by
  rw [h.pieces_left hlimit, hnone, List.append_nil]

end Fits

section Draining

variable {size limit : Nat} {r : Reader} {h : Handle} {w : World} {taken : List Piece}

/-- Reading a file goes on behind the pieces that were taken, and delivers the records of those that
are taken next; nothing is delivered of any other file. -/
theorem drainOne_fits (hlimit : 0 < limit) (hh : r.handle = some h) (hr : r.maxLogSize = limit)
    (hfits : Fits size limit (w.tree.content h.node) r.metadata taken) (w' : World)
    (hw' : (drainOne r w).2 = w') :
    ∃ bs, w.Took w' bs ∧ (∀ b ∈ bs, b.metadata.fingerprint = r.fingerprint) ∧
      ∀ r', (drainOne r w).1 = some r' →
        r' = r.moveTo r'.offset ∧
        ∃ next, Fits size limit (w.tree.content h.node) r'.metadata (taken ++ next) ∧
          bs.flatMap Batch.records = Reader.recordsFrom (extent taken) next := by
  subst hw' hr
  obtain ⟨ended, r₁, bs, next, left, hd, htook, hres⟩ := drainOne_open hh w
  have hoffset : r.offset = extent taken := hfits.offset
  have hrewound := Reader.rewound_of_le (hfits.offset_le hlimit : r.offset ≤ _)
  rw [hrewound] at hd
  refine ⟨bs, htook, hd.stamped, fun r' hr' => ?_⟩
  rw [hres] at hr'
  have hended : ended ≠ .crashed := by
    rintro rfl
    cases hr'
  obtain rfl : r₁ = r' := by simpa [hended] using hr'
  have hmoved := hd.moved
  refine ⟨by rw [hmoved]; rfl, next, ?_, by rw [hd.records hended, hoffset]⟩
  have hsplit := hfits.pieces_left hlimit
  rw [show r.metadata.offset = r.offset from rfl, hd.split] at hsplit
  rw [hmoved]
  exact ⟨hfits.filled, hfits.start, ⟨left, by rw [hsplit, List.append_assoc]⟩, by
    rw [extent_append, ← hoffset]; rfl⟩

end Draining

end LogTail
