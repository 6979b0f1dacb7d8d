import LogTail.Proofs.Tracking
import LogTail.Proofs.InMemory

namespace LogTail.Tracker

variable {k k' : Tracker} {files : List Metadata} {e : Metadata} {fp : Fingerprint}

/-- The entries that are not remembered when their turn comes. -/
def unknown : Tracker → List Metadata → List Metadata
  | _, [] => []
  | k, e :: files =>
    if k.knows e.fingerprint then unknown k files else e :: unknown (k.recollect e) files

theorem knows_iff :
    k.knows fp = true ↔ ∃ r, (r ∈ k.previous ∨ r ∈ k.known) ∧ r.fingerprint.startsWith fp = true := by
  simp [knows, or_and_right, exists_or]

theorem knows_onward (h : k.knows fp = true) (hprevious : k'.previous = k.previous)
    (hknown : k.known ⊆ k'.known) : k'.knows fp = true := by
  obtain ⟨r, hr, hstart⟩ := knows_iff.mp h
  rw [knows_iff, hprevious]
  exact ⟨r, hr.imp_right fun hr => hknown hr, hstart⟩

theorem knows_empty (h : fp.bytes = []) : k.knows fp = false := by
  simp [knows, Fingerprint.startsWith, h]

theorem foldl_recollect (k : Tracker) (files : List Metadata) :
    files.foldl recollect k =
      { k with known := k.known ++ (k.unknown files).map k.policy.remembered } := by
  induction files generalizing k with
  | nil => simp [unknown]
  | cons e files ih =>
      rw [List.foldl_cons, ih, unknown]
      by_cases hknows : k.knows e.fingerprint = true
      · rw [recollect, if_pos hknows, if_pos hknows]
      · rw [if_neg hknows]
        simp [recollect, hknows]

theorem of_mem_unknown (he : e ∈ k.unknown files) : e ∈ files ∧ k.knows e.fingerprint = false := by
  induction files generalizing k with
  | nil => simp [unknown] at he
  | cons e' files ih =>
      rw [unknown] at he
      by_cases hknows : k.knows e'.fingerprint = true
      · rw [if_pos hknows] at he
        exact ⟨List.mem_cons_of_mem _ (ih he).1, (ih he).2⟩
      · rw [if_neg hknows] at he
        rcases List.mem_cons.mp he with rfl | he
        · exact ⟨List.mem_cons_self, by simpa using hknows⟩
        · refine ⟨List.mem_cons_of_mem _ (ih he).1, ?_⟩
          by_contra hold
          have hstill : (k.recollect e').knows e.fingerprint = true :=
            knows_onward (by simpa using hold) (by simp [recollect, hknows])
              (by simp [recollect, hknows])
          rw [(ih he).2] at hstill
          cases hstill

theorem unknown_eq_nil : k.unknown files = [] ↔ ∀ e ∈ files, k.knows e.fingerprint = true := by
  induction files with
  | nil => simp [unknown]
  | cons e files ih =>
      rw [unknown, List.forall_mem_cons]
      by_cases hknows : k.knows e.fingerprint = true
      · simp [hknows, ih]
      · simp [hknows]

theorem length_unknown_le : (k.unknown files).length ≤ files.length := by
  induction files generalizing k with
  | nil => simp [unknown]
  | cons e files ih =>
      rw [unknown]
      split
      · exact Nat.le_succ_of_le ih
      · exact Nat.succ_le_succ ih

theorem knows_foldl_recollect (he : e ∈ files) (hfilled : e.fingerprint.bytes ≠ []) :
    (files.foldl recollect k).knows e.fingerprint = true := by
  induction files generalizing k with
  | nil => simp at he
  | cons e' files ih =>
      rcases List.mem_cons.mp he with rfl | he
      · have hone : (k.recollect e).knows e.fingerprint = true := by
          by_cases hknows : k.knows e.fingerprint = true
          · rwa [recollect, if_pos hknows]
          · rw [recollect, if_neg hknows, knows_iff]
            exact ⟨k.policy.remembered e, .inr (by simp), Fingerprint.startsWith_refl hfilled⟩
        rw [List.foldl_cons, foldl_recollect]
        exact knows_onward hone rfl (List.subset_append_left _ _)
      · exact ih he

/-- What a tracker is behind a restore: with a checkpoint that was not empty it begins all other files
at their beginnings and keeps no more than it may, and with room to spare it remembers every entry. -/
structure Restored (k : Tracker) (files : List Metadata) : Prop where
  begins : files ≠ [] → k.policy.fromBeginning = true
  room : files ≠ [] → k.known = [] ∨ k.kept.length ≤ k.settings.capacity
  covers : k.kept.length + files.length ≤ k.settings.capacity →
    ∀ e ∈ files, e.fingerprint.bytes ≠ [] → k.knows e.fingerprint = true

theorem resume_restored (k : Tracker) (files : List Metadata) : (k.resume files).Restored files := by
  by_cases hnone : files = []
  · subst hnone
    exact ⟨by simp, by simp, by simp⟩
  have hresume : k.resume files = (files.foldl recollect k.readFromBeginning).trim := by
    rw [resume, if_neg (by simpa using hnone)]
  have hpolicy := (k.readFromBeginning.foldl_recollect_steady files).1.policy
  have hall {e : Metadata} (he : e ∈ files) (hfilled : e.fingerprint.bytes ≠ []) :=
    knows_foldl_recollect (k := k.readFromBeginning) he hfilled
  have hsome : 0 < files.length := List.length_pos_iff.mpr hnone
  rw [hresume]
  generalize files.foldl recollect k.readFromBeginning = k' at *
  refine ⟨fun _ => ?_, fun _ => ?_, fun hroom e he hfilled => ?_⟩
  · rw [trim, hpolicy]
    rfl
  · simp only [trim, kept, List.length_append, List.length_drop, List.drop_eq_nil_iff]
    omega
  · rw [trim_of_le]
    · exact hall he hfilled
    · simp only [trim, kept, List.length_append, List.length_drop] at hroom ⊢
      omega

def excess (k : Tracker) (files : List Metadata) : Nat :=
  min (k.unknown files).length (k.kept.length + (k.unknown files).length - k.settings.capacity)

namespace Restored

variable (h : k.Restored files)
include h

theorem again :
    k.resume files =
      { k with
        known := (k.known ++ (k.unknown files).map k.policy.remembered).drop (k.excess files) } := by
  by_cases hnone : files = []
  · subst hnone
    simp [resume, unknown, excess]
  rw [resume, if_neg (by simpa using hnone), readFromBeginning_self (h.begins hnone), foldl_recollect,
    trim]
  have hroom := h.room hnone
  congr 1
  simp only [excess, kept, List.length_append, List.length_map] at hroom ⊢
  rcases hroom with hroom | hroom
  · rw [hroom, List.nil_append, List.length_nil, Nat.zero_add]
    by_cases hfits : k.previous.length ≤ k.settings.capacity
    · congr 1
      omega
    · rw [List.drop_of_length_le (by simp; omega), List.drop_of_length_le (by simp; omega)]
  · congr 1
    omega

theorem same_iff (hfilled : ∀ e ∈ files, e.fingerprint.bytes ≠ []) :
    (k.resume files).known = k.known ↔
      (∀ e ∈ files, k.knows e.fingerprint = true) ∨ k.settings.capacity ≤ k.previous.length := by
  rw [h.again]
  dsimp only
  by_cases hnone : k.unknown files = []
  · have hall := unknown_eq_nil.mp hnone
    exact iff_of_true (by simp [hnone, excess]) (.inl hall)
  have hfiles : files ≠ [] := by
    rintro rfl
    exact hnone rfl
  have hroom := h.room hfiles
  rw [kept, List.length_append] at hroom
  constructor
  · intro hsame
    by_contra hnot
    obtain ⟨-, hplace⟩ : _ ∧ ¬ k.settings.capacity ≤ k.previous.length := not_or.mp hnot
    -- the last entry that is taken up is never among the readers forgotten, so it was remembered before
    obtain ⟨others, e, hlast⟩ := (List.eq_nil_or_concat' (k.unknown files)).resolve_left hnone
    have hlength := congrArg List.length hsame
    simp only [excess, kept, hlast, List.map_append, List.length_append, List.length_drop,
      List.length_map, List.length_singleton] at hlength
    have hmem : k.policy.remembered e ∈ k.known := by
      rw [← hsame, hlast, List.map_append, ← List.append_assoc, List.drop_append_of_le_length]
      · simp
      · simp only [excess, kept, hlast, List.length_append, List.length_map, List.length_singleton]
        omega
    obtain ⟨he, hunknown⟩ := of_mem_unknown (e := e) (show e ∈ k.unknown files by simp [hlast])
    have hknows : k.knows e.fingerprint = true :=
      knows_iff.mpr ⟨_, .inr hmem, Fingerprint.startsWith_refl (hfilled e he)⟩
    rw [hunknown] at hknows
    cases hknows
  · rintro (hall | hplace)
    · exact absurd (unknown_eq_nil.mpr hall) hnone
    · have hknown : k.known = [] := by
        rcases hroom with hnil | hle
        · exact hnil
        · exact List.length_eq_zero_iff.mp (by omega)
      rw [hknown, List.nil_append, List.drop_eq_nil_iff, excess, kept, List.length_append,
        List.length_map]
      omega

theorem same_iff_filled (hroom : k.kept.length + files.length ≤ k.settings.capacity) :
    (k.resume files).known = k.known ↔ ∀ e ∈ files, e.fingerprint.bytes ≠ [] := by
  have hfew : (k.unknown files).length ≤ files.length := length_unknown_le
  have hexcess : k.excess files = 0 := by
    rw [excess]
    omega
  rw [h.again]
  dsimp only
  rw [hexcess, List.drop_zero, List.append_right_eq_self, List.map_eq_nil_iff, unknown_eq_nil]
  refine ⟨fun hall e he hempty => ?_, fun hfilled e he => h.covers hroom e he (hfilled e he)⟩
  have hnot := knows_empty (k := k) hempty
  rw [hall e he] at hnot
  cases hnot

omit h in
theorem withStore (h : k.Restored files) (s : Store) : { k with store := some s }.Restored files :=
  ⟨h.begins, h.room, h.covers⟩

end Restored

theorem loadFrom_ok {s : Store} {w w₁ : World} (h : k.loadFrom s w = (.ok k', w₁)) :
    ∃ files format, s.load w.memory = .ok (files, format) ∧
      k' = { k.resume files with store := some s } ∧ w₁.memory = w.memory := by
  unfold loadFrom at h
  cases hload : s.load w.memory with
  | error f => simp [hload] at h
  | ok loaded =>
      obtain ⟨files, format⟩ := loaded
      simp only [hload, Prod.mk.injEq, Except.ok.injEq] at h
      obtain ⟨rfl, rfl⟩ := h
      refine ⟨files, format, rfl, rfl, ?_⟩
      by_cases hstream : format = .stream <;> by_cases hnone : files.isEmpty = true <;>
        simp [hstream, hnone, World.log]

theorem loadFrom_of_load {s : Store} {w : World} {files : List Metadata} {format : Checkpoint.Format}
    (h : s.load w.memory = .ok (files, format)) :
    ∃ w', k.loadFrom s w = (.ok { k.resume files with store := some s }, w') := by
  unfold loadFrom
  rw [h]
  exact ⟨_, rfl⟩

/-- A checkpoint that is restored again is read the same, and all but the history stays as it is. What
is not remembered is taken up again, and as many of the oldest readers are forgotten as are too much
then. So with fingerprints that all have bytes the history stays as it is just if every entry is still
remembered, and with room for all entries once more just if all their fingerprints have bytes. -/
theorem restored_twice {k k₁ : Tracker} {s : Store} {w w₁ : World}
    (h : k.loadFrom s w = (.ok k₁, w₁)) :
    ∃ files format k₂ w₂, s.load w.memory = .ok (files, format) ∧
      k₁.loadFrom s w₁ = (.ok k₂, w₂) ∧ k₂ = { k₁ with known := k₂.known } ∧
      k₂.known = (k₁.known ++ (k₁.unknown files).map k₁.policy.remembered).drop (k₁.excess files) ∧
      ((∀ e ∈ files, e.fingerprint.bytes ≠ []) →
        (k₂.known = k₁.known ↔ (∀ e ∈ files, k₁.knows e.fingerprint = true) ∨
          k₁.settings.capacity ≤ k₁.previous.length)) ∧
      (k₁.kept.length + files.length ≤ k₁.settings.capacity →
        (k₂.known = k₁.known ↔ ∀ e ∈ files, e.fingerprint.bytes ≠ [])) := by
  obtain ⟨files, format, hload, hk, hmemory⟩ := loadFrom_ok h
  have hrestored : k₁.Restored files := hk ▸ (k.resume_restored files).withStore s
  obtain ⟨w₂, hagain⟩ := loadFrom_of_load (k := k₁) (hmemory ▸ hload)
  have hstore : k₁.store = some s := by rw [hk]
  refine ⟨files, format, _, w₂, hload, hagain, ?_, ?_, hrestored.same_iff, hrestored.same_iff_filled⟩
  · rw [hrestored.again, ← hstore]
  · rw [hrestored.again]

open Session in
/-- An older checkpoint of a log and of a file without bytes, in a history of two: restored once more,
it takes the place of the log for the empty file. -/
theorem restored_twice_empty :
    let text := "2\n\x7b\"Fingerprint\":\x7b\"first_bytes\":\"YQo=\"\x7d,\"Offset\":2\x7d\n" ++
      "\x7b\"Fingerprint\":\x7b\"first_bytes\":null\x7d,\"Offset\":0\x7d\n"
    let k := ofParts ⟨["*.log"], [], none⟩ followLogs.policy { followLogs.settings with capacity := 2 }
    let w : World := ⟨ofFiles [], .put .empty Checkpoint.key (Utf8.ofString text), .willing, []⟩
    ∃ k₁ w₁ k₂ w₂, k.loadFrom .memory w = (.ok k₁, w₁) ∧ k₁.loadFrom .memory w₁ = (.ok k₂, w₂) ∧
      k₁.known.map Reader.fingerprint = [⟨[97, 10]⟩, ⟨[]⟩] ∧
      k₂.known.map Reader.fingerprint = [⟨[]⟩, ⟨[]⟩] := by
  intro text k w
  let files : List Metadata := [⟨⟨[97, 10]⟩, 2, []⟩, ⟨⟨[]⟩, 0, []⟩]
  have hload : Store.memory.load w.memory = .ok (files, .stream) := by
    have hloaded : (Store.memory.load w.memory).toOption = some (files, .stream) := by decide +kernel
    cases hl : Store.memory.load w.memory with
    | error f => simp [hl, Except.toOption] at hloaded
    | ok loaded => simpa [hl, Except.toOption] using hloaded
  obtain ⟨w₁, hfirst⟩ := loadFrom_of_load (k := k) hload
  obtain ⟨files', format, k₂, w₂, hload', hsecond, -, hknown, -⟩ := restored_twice hfirst
  obtain ⟨rfl, rfl⟩ : files' = files ∧ format = .stream := by simpa [hload, eq_comm] using hload'
  refine ⟨_, w₁, k₂, w₂, hfirst, hsecond, by decide +kernel, ?_⟩
  rw [hknown]
  decide +kernel

end LogTail.Tracker
