import LogTail.Store.Basic
import LogTail.Proofs.Checkpoints

namespace LogTail

open Json

namespace Database

theorem find_withScope (db : Database) (scope key : String)
    (f : List (String × Value) → List (String × Value)) :
    (db.withScope scope f).find scope key = lookup key (f ((lookup scope db.scopes).getD [])) := by
  simp [find, withScope]

theorem stored_inOrder {files : List Metadata} (h : ∀ m ∈ files, m.offset < Number.limit) :
    stored (Checkpoint.encode files) = Checkpoint.document (files.map Metadata.inOrder) := by
  rw [stored, Checkpoint.ofBytes_encode h]
  rfl

theorem stored_encode {files : List Metadata} (h : ∀ m ∈ files, m.Tidy) :
    stored (Checkpoint.encode files) = Checkpoint.document files := by
  rw [stored_inOrder fun m hm => (h m hm).offset, Checkpoint.map_inOrder h]

theorem find_set (trouble : Trouble) (t : FileTree) (db : Database) (scope key : String) (bs : Bytes) :
    (db.set trouble t scope key bs).2.1.find scope key =
      if (db.set trouble t scope key bs).1.isNone then some (stored bs) else db.find scope key := by
  unfold set
  dsimp only
  split
  · simp [find_withScope]
  · split
    · simp [find_withScope]
    · cases hfind : db.find scope key with
      | none => simp [find_withScope]
      | some v => simp [find_withScope]

end Database

namespace Store

/-- The checkpoint a store holds, were it asked for it and answered. -/
def held (m : MemoryStore) : Store → Except Store.Fault (Option Bytes)
  | .memory => .ok (lookup Checkpoint.key m.values)
  | .database db scope => (Store.database db scope).get m Checkpoint.key

def Carries (m : MemoryStore) (files : List Metadata) (s : Store) : Prop :=
  ∃ bs, s.held m = .ok (some bs) ∧ Checkpoint.decode bs = .ok files

theorem get_held {m : MemoryStore} {s : Store} {v : Option Bytes}
    (h : s.get m Checkpoint.key = .ok v) : s.held m = .ok v := by
  cases s with
  | memory =>
      rw [get] at h
      cases hfail : m.failGet with
      | true => simp [hfail] at h
      | false => simpa [hfail, held] using h
  | database db scope => exact h

theorem held_congr {m m' : MemoryStore} {db db' : Database} {scope : String}
    (h : db'.find scope Checkpoint.key = db.find scope Checkpoint.key) :
    (Store.database db' scope).held m' = (Store.database db scope).held m := by
  simp [held, get, Database.get, h]

theorem carries_document {m : MemoryStore} {db : Database} {scope : String} {files : List Metadata}
    (hfiles : ∀ e ∈ files, e.Tidy)
    (h : db.find scope Checkpoint.key = some (Checkpoint.document files)) :
    (Store.database db scope).Carries m files := by
  refine ⟨(Checkpoint.document files).print, ?_, Checkpoint.decode_document hfiles⟩
  simp only [held, get, Database.get, h]
  rfl

theorem held_values {m m' : MemoryStore} (h : m'.values = m.values) (s : Store) :
    s.held m' = s.held m := by
  cases s with
  | memory => simp [held, h]
  | database db scope => rfl

structure Saved (files : List Metadata) (m : MemoryStore) (s : Store) (ended : Stored)
    (m' : MemoryStore) (s' : Store) : Prop where
  done : ended = .done → s'.Carries m' files
  undone : ended ≠ .done → s'.held m' = s.held m

theorem save_saved {files : List Metadata} (h : ∀ m ∈ files, m.Tidy) (t : FileTree) (m : MemoryStore)
    (s : Store) :
    Saved files m s (s.save t m files).1 (s.save t m files).2.2.2 (s.save t m files).2.1 := by
  cases s with
  | memory =>
      simp only [save, set, setMemory]
      split
      · exact ⟨by simp, fun _ => rfl⟩
      · split
        · exact ⟨by simp, fun _ => rfl⟩
        · exact ⟨fun _ => ⟨_, by simp [held, MemoryStore.put], Checkpoint.decode_encode h⟩, by simp⟩
  | database db scope =>
      have hfind := Database.find_set Database.noTrouble t db scope Checkpoint.key
        (Checkpoint.encode files)
      rw [Database.stored_encode h] at hfind
      simp only [save, set]
      generalize db.set Database.noTrouble t scope Checkpoint.key (Checkpoint.encode files) = result
        at hfind ⊢
      obtain ⟨fault, db', t'⟩ := result
      cases fault with
      | none => exact ⟨fun _ => carries_document h (by simpa using hfind), by simp⟩
      | some f => exact ⟨by simp, fun _ => held_congr (by simpa using hfind)⟩

theorem save_kind (t : FileTree) (m : MemoryStore) (s : Store) (files : List Metadata) :
    ((s.save t m files).2.1 = .memory → s = .memory) ∧
      ((s.save t m files).1 = .crashed → s = .memory ∧ (s.save t m files).2.1 = .memory) := by
  cases s with
  | memory => exact ⟨fun _ => rfl, fun _ => ⟨rfl, rfl⟩⟩
  | database db scope =>
      simp only [save, set]
      split <;> simp

end Store

end LogTail
