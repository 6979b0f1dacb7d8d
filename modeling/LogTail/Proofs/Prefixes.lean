import LogTail.Fingerprint

namespace LogTail.Fingerprint

variable {a b c : Fingerprint}

theorem startsWith_iff : a.startsWith b = true ↔ b.bytes ≠ [] ∧ b.bytes <+: a.bytes := by
  simp [startsWith]

theorem startsWith_refl (h : a.bytes ≠ []) : a.startsWith a = true :=
  startsWith_iff.mpr ⟨h, List.prefix_rfl⟩

theorem startsWith_trans (h : a.startsWith b = true) (h' : b.startsWith c = true) :
    a.startsWith c = true := by
  rw [startsWith_iff] at *
  exact ⟨h'.1, h'.2.trans h.2⟩

theorem agrees_comm (a b : Fingerprint) : a.agrees b = b.agrees a := by
  unfold agrees
  dsimp only
  rw [Nat.min_comm, Bool.beq_comm]

theorem agrees_of_le (h : a.bytes.length ≤ b.bytes.length) : a.agrees b = b.startsWith a := by
  rw [Bool.eq_iff_iff, startsWith_iff, List.prefix_iff_eq_take]
  simp [agrees, Nat.min_eq_left h]

theorem startsWith_swap (h : a.startsWith b = true) (hle : a.bytes.length ≤ b.bytes.length) :
    b.startsWith a = true := by
  rw [startsWith_iff] at *
  have he : b.bytes = a.bytes := h.2.eq_of_length (Nat.le_antisymm h.2.length_le hle)
  rw [← he]
  exact ⟨h.1, List.prefix_rfl⟩

theorem agrees_iff : a.agrees b = true ↔ a.startsWith b = true ∨ b.startsWith a = true := by
  rcases Nat.le_total a.bytes.length b.bytes.length with hle | hle
  · rw [agrees_of_le hle]
    exact ⟨.inr, fun h => h.elim (startsWith_swap · hle) id⟩
  · rw [agrees_comm, agrees_of_le hle]
    exact ⟨.inl, fun h => h.elim id (startsWith_swap · hle)⟩

theorem startsWith_of_agrees (h : a.agrees b = false) : b.startsWith a = false := by
  cases hs : b.startsWith a with
  | false => rfl
  | true => rw [agrees_iff.mpr (.inr hs)] at h; cases h

theorem agrees_self (h : a.bytes ≠ []) : a.agrees a = true :=
  agrees_iff.mpr (.inl (startsWith_refl h))

end LogTail.Fingerprint
