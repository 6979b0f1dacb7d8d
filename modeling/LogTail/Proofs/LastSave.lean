import LogTail.Proofs.Durability

namespace LogTail

open Json

namespace Checkpoint

theorem format_object {bs : Bytes} {ms : List (String × Value)} (hblank : bs.all isBlank = false)
    (hparse : Value.ofBytes bs = .ok (.object ms)) : format bs = .document := by
  rw [format, hblank, hparse]
  rfl

theorem format_encode {files : List Metadata} (h : ∀ m ∈ files, m.offset < Number.limit) :
    format (encode files) = .document := by
  refine format_object ?_ (ofBytes_encode h)
  simp [encode, Document.written, Value.print, isBlank]

theorem format_document {files : List Metadata} (h : ∀ m ∈ files, m.Tidy) :
    format (document files).print = .document := by
  refine format_object ?_ (ofBytes_document h)
  simp [document, Document.toValue, Value.print, isBlank]

theorem nest_document {files : List Metadata} : (document files).nest ≤ 4 := by
  have hitems : Value.nestItems (files.map Metadata.toValue) ≤ 2 := by
    induction files with
    | nil => exact Nat.zero_le _
    | cons m files ih =>
        rw [List.map_cons, Value.nestItems, (Metadata.nest_toValue m).1]
        exact Nat.max_le.mpr ⟨le_rfl, ih⟩
  simp only [document_eq, Value.nest, Value.nestMembers, Value.nat]
  omega

theorem readable_document {files : List Metadata} (h : ∀ m ∈ files, m.Tidy) :
    Database.Readable (document files) := by
  obtain ⟨hwhole, -⟩ := whole_document fun m hm => (h m hm).offset
  refine Database.readable_iff.mpr ⟨document files, ?_⟩
  refine (Database.rereads_iff (Value.exact_whole hwhole) (ordered_document h)).mpr ⟨?_, rfl⟩
  exact nest_document.trans_lt (by decide)

end Checkpoint

namespace Store

variable {t t' t₀ : FileTree} {m m' m₀ : MemoryStore} {p p' p₀ : Store} {db : Database} {scope : String}
  {files written : List Metadata}

theorem load_document (h : ∀ e ∈ files, e.Tidy)
    (hfind : db.find scope Checkpoint.key = some (Checkpoint.document files)) (m : MemoryStore) :
    (Store.database db scope).load m = .ok (files, .document) := by
  have hget : (Store.database db scope).get m Checkpoint.key =
      .ok (some (Checkpoint.document files).print) := by
    rw [get, Database.get, hfind]
    rfl
  rw [load_of_get hget, Checkpoint.decode_document h, Checkpoint.format_document h]

def saveAll (t : FileTree) (m : MemoryStore) (p : Store) :
    List (List Metadata) → Store × FileTree × MemoryStore
  | [] => (p, t, m)
  | files :: rest =>
    match p.save t m files with
    | (_, p, t, m) => saveAll t m p rest

/-- A database that can be opened anew once it has taken a checkpoint in one of its scopes. -/
structure Reopenable (file : Path) (scope : String) (t : FileTree) (db : Database) : Prop where
  path : db.path = file
  placed : Database.Placed t file
  order : Database.InOrder db.scopes
  others : ∀ scope' key' v, (scope', key') ≠ (scope, Checkpoint.key) → db.find scope' key' = some v →
    Database.Readable v

theorem save_database (t : FileTree) (m : MemoryStore) (db : Database) (scope : String)
    (files : List Metadata) :
    (Store.database db scope).save t m files =
      let r := db.set Database.noTrouble t scope Checkpoint.key (Checkpoint.encode files)
      (r.1.elim .done fun f => .failed (.database f), .database r.2.1 scope, r.2.2, m) := by
  rw [save, set]
  generalize db.set Database.noTrouble t scope Checkpoint.key (Checkpoint.encode files) = r
  obtain ⟨fault, db', t'⟩ := r
  cases fault <;> rfl

variable {file : Path}

theorem Reopenable.set (h : Reopenable file scope t db) (htext : file.text.isEmpty = false) (bs : Bytes) :
    Reopenable file scope (db.set Database.noTrouble t scope Checkpoint.key bs).2.2
      (db.set Database.noTrouble t scope Checkpoint.key bs).2.1 := by
  obtain ⟨rfl, hplaced, horder, hothers⟩ := h
  obtain ⟨hnext, -⟩ := Database.set_file hplaced htext Database.noTrouble scope Checkpoint.key bs
  have hsettled := Database.set_settled Database.noTrouble t db scope Checkpoint.key bs
  refine ⟨hsettled.path, hnext, hsettled.order horder, ?_⟩
  intro scope' key' v hne hfind
  rw [hsettled.others scope' key' hne] at hfind
  exact hothers scope' key' v hne hfind

theorem Reopenable.saveAll (h : Reopenable file scope t db) (htext : file.text.isEmpty = false)
    (earlier : List (List Metadata)) (m : MemoryStore) :
    ∃ db' t' m', (Store.database db scope).saveAll t m earlier = (.database db' scope, t', m') ∧
      Reopenable file scope t' db' := by
  induction earlier generalizing t m db with
  | nil => exact ⟨db, t, m, rfl, h⟩
  | cons files earlier ih =>
      rw [Store.saveAll, save_database]
      exact ih (h.set htext _) m

def Willing (m : MemoryStore) : Store → Prop
  | .memory => m.failSet m.saves = false ∧ m.crashSet m.saves = false
  | .database db _ => db.isInMemory = true

theorem save_willing (h : p.Willing m) (files : List Metadata) : (p.save t m files).1 = .done := by
  cases p with
  | memory =>
      obtain ⟨hfail, hcrash⟩ := h
      simp [save, set, setMemory, hfail, hcrash]
  | database db scope =>
      have hmemory : db.isInMemory = true := h
      rw [save_database, Database.set, hmemory]
      rfl

theorem offsets_written (hfiles : ∀ e ∈ files, e.Tidy) (hwritten : written.map Metadata.inOrder = files) :
    ∀ e ∈ written, e.offset < Number.limit := by
  intro e he
  refine (hfiles e.inOrder ?_).offset
  rw [← hwritten]
  exact List.mem_map_of_mem he

theorem find_saved (hfiles : ∀ e ∈ files, e.Tidy) (hwritten : written.map Metadata.inOrder = files)
    (hdone : ((Store.database db scope).save t m written).1 = .done) :
    (db.set Database.noTrouble t scope Checkpoint.key (Checkpoint.encode written)).1 = none ∧
      (db.set Database.noTrouble t scope Checkpoint.key (Checkpoint.encode written)).2.1.find scope
        Checkpoint.key = some (Checkpoint.document files) := by
  have hfind := Database.find_set Database.noTrouble t db scope Checkpoint.key (Checkpoint.encode written)
  rw [Database.stored_inOrder (offsets_written hfiles hwritten), hwritten] at hfind
  rw [save_database] at hdone
  generalize db.set Database.noTrouble t scope Checkpoint.key (Checkpoint.encode written) = r at hfind hdone ⊢
  obtain ⟨fault, db', t'⟩ := r
  cases fault with
  | none => exact ⟨rfl, hfind⟩
  | some f => cases hdone

theorem load_saved (hfiles : ∀ e ∈ files, e.Tidy) (hwritten : written.map Metadata.inOrder = files)
    (hdone : (p.save t m written).1 = .done) (hget : p = .memory → m.failGet = false) :
    (p.save t m written).2.1.load (p.save t m written).2.2.2 = .ok (files, .document) := by
  cases p with
  | memory =>
      have hoffsets := offsets_written hfiles hwritten
      simp only [save, set, setMemory] at hdone ⊢
      split at hdone
      · cases hdone
      next hcrash =>
      split at hdone
      · cases hdone
      next hfail =>
      rw [if_neg hcrash, if_neg hfail]
      have hkept : Store.memory.get (({ m with saves := m.saves + 1 } : MemoryStore).put Checkpoint.key
          (Checkpoint.encode written)) Checkpoint.key = .ok (some (Checkpoint.encode written)) := by
        simp [get, MemoryStore.put, hget rfl]
      dsimp only
      rw [load_of_get hkept, Checkpoint.decode_inOrder hoffsets, Checkpoint.format_encode hoffsets, hwritten]
  | database db scope =>
      rw [save_database]
      exact load_document hfiles (find_saved hfiles hwritten hdone).2 _

theorem open_saved (h : Reopenable file scope t db) (htext : file.text.isEmpty = false)
    (hfiles : ∀ e ∈ files, e.Tidy) (hwritten : written.map Metadata.inOrder = files)
    (hdone : ((Store.database db scope).save t m written).1 = .done) (m' : MemoryStore) :
    ∃ reopened, Database.openAt ((Store.database db scope).save t m written).2.2.1 file =
        (.ok reopened, ((Store.database db scope).save t m written).2.2.1) ∧
      (Store.database reopened scope).load m' = .ok (files, .document) := by
  obtain ⟨hnone, hfind⟩ := find_saved hfiles hwritten hdone
  have hnext := h.set htext (Checkpoint.encode written)
  obtain ⟨rfl, hplaced, -, -⟩ := h
  obtain ⟨-, hopened⟩ := Database.set_file hplaced htext Database.noTrouble scope Checkpoint.key
    (Checkpoint.encode written)
  have hread := hopened hnone
  rw [save_database]
  generalize db.set Database.noTrouble t scope Checkpoint.key (Checkpoint.encode written) = r
    at hread hnext hfind ⊢
  obtain ⟨fault, live, t'⟩ := r
  dsimp only at hread hnext hfind ⊢
  have hreadable : ∀ scope' key v, live.find scope' key = some v → Database.Readable v := by
    intro scope' key v hv
    by_cases hplace : (scope', key) = (scope, Checkpoint.key)
    · obtain ⟨rfl, rfl⟩ := Prod.mk.inj hplace
      rw [hfind] at hv
      cases hv
      exact Checkpoint.readable_document hfiles
    · exact hnext.others scope' key v hplace hv
  obtain ⟨hwhole, -⟩ := Checkpoint.whole_document fun e he => (hfiles e he).offset
  obtain ⟨scopes, hscopes, hkept⟩ := Database.ofText_readable hnext.order hreadable
  rw [hscopes] at hread
  refine ⟨_, hread, load_document hfiles ?_ m'⟩
  exact hkept _ scope Checkpoint.key _ hfind (Value.exact_whole hwhole) (Checkpoint.ordered_document hfiles)

/-- The checkpoint that was saved last is loaded, the same files in the same order, in whatever order their
attributes were written: from a store that keeps bytes, from a database in use, and from one opened anew
if each of its other values can be read on its own. -/
theorem load_last_save (hfiles : ∀ e ∈ files, e.Tidy) (hwritten : written.map Metadata.inOrder = files)
    (earlier : List (List Metadata)) {ended : Stored} (hearlier : p₀.saveAll t₀ m₀ earlier = (p, t, m))
    (hlast : p.save t m written = (ended, p', t', m')) :
    (p.Willing m → ended = .done) ∧
    (ended = .done → (p = .memory → m.failGet = false) → p'.load m' = .ok (files, .document)) ∧
    (ended = .done → ∀ db scope file, p₀ = .database db scope → Reopenable file scope t₀ db →
      file.text.isEmpty = false →
      ∃ reopened, Database.openAt t' file = (.ok reopened, t') ∧
        (Store.database reopened scope).load m' = .ok (files, .document)) := by
  refine ⟨?_, ?_, ?_⟩
  · intro hwilling
    have hdone := save_willing (t := t) hwilling written
    rwa [hlast] at hdone
  · rintro rfl hget
    have hload := load_saved (t := t) hfiles hwritten (by rw [hlast]) hget
    rwa [hlast] at hload
  · rintro rfl db₀ scope file rfl hreopenable htext
    obtain ⟨db, t₁, m₁, hsaved, h⟩ := hreopenable.saveAll htext earlier m₀
    rw [hsaved] at hearlier
    cases hearlier
    have hopen := open_saved (m := m) h htext hfiles hwritten (by rw [hlast]) m'
    rwa [hlast] at hopen

def oneFile : List Metadata := [⟨⟨[0, 255]⟩, 7, [("a", "x"), ("b", "y")]⟩]

def oneFileWritten : List Metadata := [⟨⟨[0, 255]⟩, 7, [("b", "y"), ("a", "x")]⟩]

def savedNone : Store × FileTree × MemoryStore :=
  (Store.database ⟨⟨"db.json"⟩, []⟩ "scope").saveAll .empty .empty [[]]

def savedOne : Stored × Store × FileTree × MemoryStore :=
  savedNone.1.save savedNone.2.1 savedNone.2.2 oneFileWritten

theorem load_last_save_reopened :
    savedOne.1 = .done ∧ savedOne.2.1.load savedOne.2.2.2 = .ok (oneFile, .document) ∧
      ∃ reopened, Database.openAt savedOne.2.2.1 ⟨"db.json"⟩ = (.ok reopened, savedOne.2.2.1) ∧
        (Store.database reopened "scope").load savedOne.2.2.2 = .ok (oneFile, .document) := by
  have hfiles : ∀ e ∈ oneFile, e.Tidy := by
    intro e he
    rw [List.mem_singleton.mp he]
    refine ⟨List.pairwise_map.mp (by decide : ["a", "b"].Pairwise (· < ·)), by decide⟩
  have hdone : savedOne.1 = .done := rfl
  have hlast : savedNone.1.save savedNone.2.1 savedNone.2.2 oneFileWritten = (.done, savedOne.2) := by
    rw [← hdone]
    rfl
  have hserving : Database.Serving ⟨"db.json"⟩ .empty ⟨⟨"db.json"⟩, []⟩ :=
    Database.fresh_empty.serving rfl
  have hsaved : (Store.database ⟨⟨"db.json"⟩, []⟩ "scope").saveAll .empty .empty [[]] = savedNone := rfl
  obtain ⟨-, hlive, hopen⟩ := load_last_save hfiles (by decide) [[]] hsaved hlast
  refine ⟨hdone, hlive rfl nofun, hopen rfl _ "scope" _ rfl ⟨rfl, hserving.placed, hserving.order, ?_⟩ rfl⟩
  intro scope' key' v _ hfind
  cases hfind

end Store

end LogTail
