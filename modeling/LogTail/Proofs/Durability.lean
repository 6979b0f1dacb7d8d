import LogTail.Proofs.Replacing
import LogTail.Proofs.Loading

namespace LogTail

open Json

namespace Database

variable {t t' t₀ : FileTree} {p : Path} {db db' : Database} {trouble : Trouble} {scope key : String}
  {bs : Bytes}

theorem find_withScope_ne {f : List (String × Value) → List (String × Value)} {scope' key' : String}
    (hf : scope' = scope → ∀ ms, lookup key' (f ms) = lookup key' ms) :
    (db.withScope scope f).find scope' key' = db.find scope' key' := by
  by_cases hscope : scope' = scope
  · rw [hscope, find_withScope, hf hscope, find]
    cases lookup scope db.scopes <;> rfl
  · rw [find, withScope, lookup_insertMember_ne hscope, find]

theorem inOrder_withScope (h : InOrder db.scopes) {f : List (String × Value) → List (String × Value)}
    (hf : ∀ ms, Ordered ms → Ordered (f ms)) : InOrder (db.withScope scope f).scopes := by
  refine ⟨ordered_insertMember h.order _ _, ?_⟩
  intro s hs
  rcases mem_insertMember hs with rfl | hs
  · apply hf
    cases hfound : lookup scope db.scopes with
    | none => exact List.Pairwise.nil
    | some ms => exact h.keys _ (mem_of_lookup hfound)
  · exact h.keys s hs

structure Settled (db db' : Database) (scope key : String) : Prop where
  path : db'.path = db.path
  order : InOrder db.scopes → InOrder db'.scopes
  others : ∀ scope' key', (scope', key') ≠ (scope, key) → db'.find scope' key' = db.find scope' key'

theorem Settled.trans {db₁ db₂ db₃ : Database} (h : Settled db₁ db₂ scope key)
    (h' : Settled db₂ db₃ scope key) : Settled db₁ db₃ scope key where
  path := h'.path.trans h.path
  order ho := h'.order (h.order ho)
  others scope' key' hne := (h'.others scope' key' hne).trans (h.others scope' key' hne)

theorem settled_withScope {f : List (String × Value) → List (String × Value)} (db : Database) (scope : String)
    (hf : ∀ ms, Ordered ms → Ordered (f ms))
    (hothers : ∀ key', key' ≠ key → ∀ ms, lookup key' (f ms) = lookup key' ms) :
    Settled db (db.withScope scope f) scope key := by
  refine ⟨rfl, fun h => inOrder_withScope h hf, ?_⟩
  intro scope' key' hne
  apply find_withScope_ne
  intro hscope
  exact hothers key' fun hkey => hne (by rw [hscope, hkey])

theorem set_settled (trouble : Trouble) (t : FileTree) (db : Database) (scope key : String) (bs : Bytes) :
    Settled db (db.set trouble t scope key bs).2.1 scope key := by
  have hinsert (db : Database) (v : Value) : Settled db (db.withScope scope (insertMember key v)) scope key :=
    settled_withScope db scope (fun _ hms => ordered_insertMember hms key v) fun _ hne =>
      lookup_insertMember_ne hne v
  have hremove (db : Database) : Settled db (db.withScope scope (removeMember key)) scope key :=
    settled_withScope db scope (fun _ hms => ordered_removeMember hms key) fun _ => lookup_removeMember_ne
  rw [set]
  dsimp only
  split
  · exact hinsert db _
  split
  · exact hinsert db _
  · dsimp only
    split
    · exact (hinsert db _).trans (hinsert _ _)
    · exact (hinsert db _).trans (hremove _)

/-- A value that is set leaves the place of the file; if that succeeds, the file is the document of the
database. -/
theorem set_file (h : Placed t db.path) (hfile : db.isInMemory = false) (trouble : Trouble)
    (scope key : String) (bs : Bytes) :
    Placed (db.set trouble t scope key bs).2.2 db.path ∧
      ((db.set trouble t scope key bs).1 = none →
        openAt (db.set trouble t scope key bs).2.2 db.path =
          (opened db.path (Draft.ofText scopesOfDraft
            ((document (db.set trouble t scope key bs).2.1.scopes).pretty 0)),
            (db.set trouble t scope key bs).2.2)) := by
  rw [set]
  dsimp only
  rw [hfile, if_neg (by decide)]
  obtain ⟨hplaced, hdone⟩ := replaceFile_placed h trouble
    ((document (db.withScope scope (insertMember key (stored bs))).scopes).pretty 0)
  generalize replaceFile trouble t db.path _ = result at hplaced hdone ⊢
  obtain ⟨fault, t'⟩ := result
  cases fault with
  | none =>
      obtain ⟨hexists, hcontent⟩ := hdone rfl
      dsimp only at hexists hcontent hplaced ⊢
      exact ⟨hplaced, fun _ => openAt_content hexists hcontent⟩
  | some f => exact ⟨hplaced, nofun⟩

theorem stored_exact (h : ∀ v, Value.ofBytes bs = .ok v → v.Exact) :
    (stored bs).Exact ∧ (stored bs).ordered = stored bs := by
  rw [stored]
  split
  · next hv => exact ⟨h _ hv, Value.ordered_ofBytes hv⟩
  · next hv => exact ⟨h _ hv, Value.ordered_ofBytes hv⟩
  · exact ⟨rfl, rfl⟩

structure Call where
  scope : String
  key : String
  bytes : Bytes
  trouble : Trouble

def Call.run (c : Call) (t : FileTree) (db : Database) : Option Fault × Database × FileTree :=
  db.set c.trouble t c.scope c.key c.bytes

def serve : List Call → FileTree → Database → Database × FileTree
  | [], t, db => (db, t)
  | c :: cs, t, db => serve cs (c.run t db).2.2 (c.run t db).2.1

/-- A path where a database is made: no file is there, and one can stand there once the directories above
it are made. No symbolic link bears the name of a temporary file: through one, a write would reach a file
elsewhere. -/
structure Fresh (t : FileTree) (p : Path) : Prop where
  sound : t.Sound
  text : p.text.isEmpty = false
  absent : t.fileExists p = false
  place : p.endsWithSlash = false → ∃ d s, (makeParents t p).2.Names p d s
  clear : ∀ n d s, (temporary p n).parts.getLast? = some s → t.NoLinkAt d s

/-- A database in use, all of whose values are read exactly. -/
structure Serving (p : Path) (t : FileTree) (db : Database) : Prop where
  path : db.path = p
  placed : Placed t p
  order : InOrder db.scopes
  values : ∀ scope key v, db.find scope key = some v → v.Exact ∧ v.ordered = v

theorem makeParents_keeps (hs : t.Sound) (p : Path) : t.Keeps (makeParents t p).2 := by
  rw [makeParents]
  split
  · split
    · exact .refl hs
    · exact t.makeDirectories_keeps hs _
  · exact .refl hs

theorem Fresh.serving (h : Fresh t₀ p) (hopen : openAt t₀ p = (.ok db, t)) : Serving p t db := by
  have hkeeps := makeParents_keeps h.sound p
  have hplace := h.place
  rw [openAt, h.absent, if_neg (by decide)] at hopen
  generalize makeParents t₀ p = made at hopen hkeeps hplace
  obtain ⟨fault, t₁⟩ := made
  cases fault with
  | some e => cases hopen
  | none =>
      cases hopen
      have horder : InOrder [] := ⟨List.Pairwise.nil, fun s hs => absurd hs List.not_mem_nil⟩
      refine ⟨rfl, ⟨hkeeps.sound, hplace, ?_⟩, horder, ?_⟩
      · exact fun n d s hs => hkeeps.noLinkAt (h.clear n d s hs)
      · intro scope key v hfind
        cases hfind

theorem Serving.run (h : Serving p t db) (htext : p.text.isEmpty = false) (c : Call)
    (hexact : ∀ v, Value.ofBytes c.bytes = .ok v → v.Exact) :
    Serving p (c.run t db).2.2 (c.run t db).2.1 := by
  obtain ⟨rfl, hplaced, horder, hvalues⟩ := h
  obtain ⟨hnext, -⟩ := set_file hplaced htext c.trouble c.scope c.key c.bytes
  have hsettled := set_settled c.trouble t db c.scope c.key c.bytes
  have hfind := find_set c.trouble t db c.scope c.key c.bytes
  rw [Call.run]
  refine ⟨hsettled.path, hnext, hsettled.order horder, ?_⟩
  intro scope key v hv
  by_cases hplace : (scope, key) = (c.scope, c.key)
  · obtain ⟨rfl, rfl⟩ := Prod.mk.inj hplace
    rw [hfind] at hv
    split at hv
    · cases hv
      exact stored_exact hexact
    · exact hvalues _ _ v hv
  · rw [hsettled.others scope key hplace] at hv
    exact hvalues scope key v hv

theorem Serving.serve (h : Serving p t db) (htext : p.text.isEmpty = false) (calls : List Call)
    (hexact : ∀ c ∈ calls, ∀ v, Value.ofBytes c.bytes = .ok v → v.Exact) :
    Serving p (serve calls t db).2 (serve calls t db).1 := by
  induction calls generalizing t db with
  | nil => exact h
  | cons c calls ih =>
      rw [Database.serve]
      apply ih
      · exact h.run htext c (hexact c (by simp))
      · intro d hd
        exact hexact d (by simp [hd])

/-- Behind a call that succeeded the database that is opened anew answers as the live one does, as long as
no value nests deeper than the document around it allows. A deeper one is taken all the same, and then
the database cannot be opened any more. -/
theorem reopens_unless_deep {opened before live : Database} {t₁ t₂ : FileTree} (hfresh : Fresh t₀ p)
    (hopen : openAt t₀ p = (.ok opened, t)) (calls : List Call) (last : Call)
    (hexact : ∀ c ∈ last :: calls, ∀ v, Value.ofBytes c.bytes = .ok v → v.Exact)
    (hcalls : serve calls t opened = (before, t₁)) (hlast : last.run t₁ before = (none, live, t₂)) :
    ((∀ scope key v, live.find scope key = some v → v.nest < room) →
      ∃ reopened, openAt t₂ p = (.ok reopened, t₂) ∧
        ∀ scope key, reopened.get scope key = live.get scope key) ∧
    ((∃ scope key v, live.find scope key = some v ∧ room ≤ v.nest) →
      ∃ m, openAt t₂ p = (.error (.cannotParse m), t₂)) := by
  have hbefore := (hfresh.serving hopen).serve hfresh.text calls fun c hc => hexact c (by simp [hc])
  rw [hcalls] at hbefore
  have hlive := hbefore.run hfresh.text last (hexact last (by simp))
  obtain ⟨rfl, hplaced, -, -⟩ := hbefore
  obtain ⟨-, hreopen⟩ := set_file hplaced hfresh.text last.trouble last.scope last.key last.bytes
  rw [Call.run] at hlast hlive
  rw [hlast] at hreopen hlive
  have hread := hreopen rfl
  dsimp only at hread hlive
  constructor
  · intro hshallow
    have hscopes := (ofText_exact hlive.order hlive.values).mpr ⟨hshallow, rfl⟩
    rw [hscopes] at hread
    exact ⟨_, hread, fun _ _ => rfl⟩
  · rintro ⟨scope, key, v, hfind, hdeep⟩
    cases hscopes : Draft.ofText scopesOfDraft ((document live.scopes).pretty 0) with
    | error m =>
        rw [hscopes] at hread
        exact ⟨m, hread⟩
    | ok scopes =>
        have hshallow := ((ofText_exact hlive.order hlive.values).mp hscopes).1 scope key v hfind
        exact absurd hshallow (Nat.not_lt.mpr hdeep)

def nested : Nat → Value
  | 0 => .array []
  | n + 1 => .array [nested n]

theorem nested_spec (n : Nat) :
    (nested n).WholeNumbers ∧ (nested n).nest = n + 1 ∧ (nested n).ordered = nested n := by
  induction n with
  | zero => exact ⟨trivial, rfl, rfl⟩
  | succ n ih =>
      obtain ⟨hwhole, hnest, hordered⟩ := ih
      refine ⟨⟨hwhole, trivial⟩, ?_, ?_⟩
      · simp [nested, Value.nest, Value.nestItems, hnest]
      · simp [nested, Value.ordered, Value.orderedItems, hordered]

theorem ofBytes_nested {n : Nat} (hn : n < 127) : Value.ofBytes (nested n).print = .ok (nested n) := by
  obtain ⟨hwhole, hnest, hordered⟩ := nested_spec n
  rw [Value.ofBytes_print hwhole (by rw [hnest]; exact Nat.succ_lt_succ hn), hordered]

theorem stored_nested {n : Nat} (hn : n < 127) : stored (nested n).print = nested n := by
  rw [stored, ofBytes_nested hn]
  cases n <;> rfl

theorem fresh_empty : Fresh .empty ⟨"db.json"⟩ := by
  refine ⟨FileTree.sound_empty, by decide, by decide, ?_, ?_⟩
  · intro hslash
    refine ⟨FileTree.home, "db.json", FileTree.names_of_resolve hslash rfl ?_⟩
    intro i e he
    cases he
  · intro n d s hs i e p he
    cases he

def first (v : Value) : Option Fault × Database × FileTree :=
  Call.run ⟨"scope", "key", v.print, noTrouble⟩ .empty ⟨⟨"db.json"⟩, []⟩

theorem first_done (v : Value) : first v = (none, (first v).2.1, (first v).2.2) := rfl

theorem first_database {n : Nat} (hn : n < 127) :
    (first (nested n)).2.1 = ⟨⟨"db.json"⟩, [("scope", [("key", nested n)])]⟩ := by
  change (⟨_, [("scope", [("key", stored (nested n).print)])]⟩ : Database) = _
  rw [stored_nested hn]

/-- A value of 124 lists in each other is there again, and one of 125 costs the whole database. -/
theorem reopens_unless_deep_lost :
    (∃ reopened, openAt (first (nested 123)).2.2 ⟨"db.json"⟩ = (.ok reopened, (first (nested 123)).2.2) ∧
      ∀ scope key, reopened.get scope key = (first (nested 123)).2.1.get scope key) ∧
    ∃ m, openAt (first (nested 124)).2.2 ⟨"db.json"⟩ = (.error (.cannotParse m), (first (nested 124)).2.2) := by
  have hexact {n : Nat} (hn : n < 127) : ∀ c ∈ [(⟨"scope", "key", (nested n).print, noTrouble⟩ : Call)],
      ∀ v, Value.ofBytes c.bytes = .ok v → v.Exact := by
    intro c hc v hv
    rw [List.mem_singleton.mp hc, ofBytes_nested hn] at hv
    cases hv
    exact Value.exact_whole (nested_spec n).1
  constructor
  · refine (reopens_unless_deep fresh_empty rfl [] _ (hexact (by decide)) rfl (first_done _)).1 ?_
    intro scope key v hfind
    rw [first_database (by decide)] at hfind
    obtain ⟨s, hs, m, hm, rfl⟩ := mem_of_find hfind
    rw [List.mem_singleton.mp hs] at hm
    rw [List.mem_singleton.mp hm]
    exact (nested_spec 123).2.1.trans_lt (by decide)
  · refine (reopens_unless_deep fresh_empty rfl [] _ (hexact (by decide)) rfl (first_done _)).2 ?_
    refine ⟨"scope", "key", nested 124, ?_, (nested_spec 124).2.1.ge⟩
    rw [first_database (by decide)]
    rfl

end Database

end LogTail
