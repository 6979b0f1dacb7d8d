import LogTail.Reader
import LogTail.Proofs.Prefixes

namespace LogTail.Fingerprint

variable {a b c : Fingerprint}

theorem startsWith_antisymm (h : a.startsWith b = true) (h' : b.startsWith a = true) : a.bytes = b.bytes := by
  rw [startsWith_iff] at h h'
  exact h'.2.eq_of_length_le h.2.length_le

theorem agrees_of_startsWith (h : a.startsWith b = true) (h' : a.startsWith c = true) : b.agrees c = true := by
  rw [startsWith_iff] at h h'
  rcases List.prefix_or_prefix_of_prefix h.2 h'.2 with hbc | hcb
  · exact agrees_iff.mpr (.inr (startsWith_iff.mpr ⟨h.1, hbc⟩))
  · exact agrees_iff.mpr (.inl (startsWith_iff.mpr ⟨h'.1, hcb⟩))

theorem startsWith_ofContent {n m : Nat} (hle : n ≤ m) (content more : Bytes)
    (h : (ofContent n content).bytes ≠ []) :
    (ofContent m (content ++ more)).startsWith (ofContent n content) = true := by
  have hgrown : content.take n <+: (content ++ more).take n := by
    rw [List.take_append]
    exact List.prefix_append _ _
  exact startsWith_iff.mpr ⟨h, hgrown.trans (List.take_prefix_take_left hle)⟩

theorem fingerprint_ok {t : FileTree} {h : Handle} {content : Bytes} (hread : t.readNode h.node = .ok content)
    (n : Nat) : t.fingerprint n h = .ok (ofContent n content) := by
  rw [FileTree.fingerprint, hread]
  rfl

/-- The laws of fingerprints. Two of them agree just if one goes on from the other; going on from another one
is transitive and goes both ways only between equal bytes; and what one fingerprint goes on from agrees.
The fingerprint of a file, through whichever open file it is taken, is gone on from by that of every longer
content that begins with the same bytes, if no fewer bytes are looked at. -/
theorem fingerprints_ordered :
    (∀ a b : Fingerprint, a.agrees b = true ↔ a.startsWith b = true ∨ b.startsWith a = true) ∧
    (∀ a b c : Fingerprint, a.startsWith b = true → b.startsWith c = true → a.startsWith c = true) ∧
    (∀ a b : Fingerprint, a.startsWith b = true → b.startsWith a = true → a.bytes = b.bytes) ∧
    (∀ a b c : Fingerprint, a.startsWith b = true → a.startsWith c = true → b.agrees c = true) ∧
    ∀ (t t' : FileTree) (h h' : Handle) (content more : Bytes) (n m : Nat), n ≤ m →
      t.readNode h.node = .ok content → t'.readNode h'.node = .ok (content ++ more) →
      ∃ a b, t.fingerprint n h = .ok a ∧ t'.fingerprint m h' = .ok b ∧
        (a.isEmpty = false → b.startsWith a = true) := by
  refine ⟨fun _ _ => agrees_iff, fun _ _ _ => startsWith_trans, fun _ _ => startsWith_antisymm,
    fun _ _ _ => agrees_of_startsWith, ?_⟩
  intro t t' h h' content more n m hle hread hread'
  refine ⟨_, _, fingerprint_ok hread n, fingerprint_ok hread' m, ?_⟩
  intro hfilled
  exact startsWith_ofContent hle content more (List.isEmpty_eq_false_iff.mp hfilled)

theorem fingerprints_ordered_grown :
    let t : FileTree := ⟨[.directory, .directory, .directory, .file [97, 10]], []⟩
    let t' : FileTree := ⟨[.directory, .directory, .directory, .file [97, 10, 98, 10]], []⟩
    ∃ a b, t.fingerprint 1 ⟨3, none⟩ = .ok a ∧ t'.fingerprint 3 ⟨3, none⟩ = .ok b ∧
      a.isEmpty = false ∧ b.startsWith a = true ∧ a.agrees b = true := by
  intro t t'
  obtain ⟨hagrees, -, -, -, hgrows⟩ := fingerprints_ordered
  obtain ⟨a, b, ha, hb, hgoes⟩ := hgrows t t' ⟨3, none⟩ ⟨3, none⟩ [97, 10] [98, 10] 1 3 (by decide) rfl rfl
  have hfilled : a.isEmpty = false := by
    cases ha
    rfl
  exact ⟨a, b, ha, hb, hfilled, hgoes hfilled, (hagrees a b).mpr (.inr (hgoes hfilled))⟩

end LogTail.Fingerprint
