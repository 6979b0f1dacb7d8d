import LogTail.Proofs.Stores

namespace LogTail

open Json

namespace Json

variable {α β : Type}

def Alike (related : α → β → Prop) (ms : List (String × α)) (as : List (String × β)) : Prop :=
  List.Forall₂ (fun m a => a.1 = m.1 ∧ related m.2 a.2) ms as

namespace Alike

variable {related : α → β → Prop} {ms : List (String × α)} {as : List (String × β)}

theorem keys (h : Alike related ms as) : as.map Prod.fst = ms.map Prod.fst := by
  induction h with
  | nil => rfl
  | cons hm _ ih => rw [List.map_cons, List.map_cons, hm.1, ih]

theorem ordered (h : Alike related ms as) (hms : Ordered ms) : Ordered as := by
  have hkeys : (ms.map Prod.fst).Pairwise (· < ·) := List.pairwise_map.mpr hms
  rw [← h.keys] at hkeys
  exact List.pairwise_map.mp hkeys

theorem lookup_some (h : Alike related ms as) {k : String} {v : α} (hv : lookup k ms = some v) :
    ∃ a, lookup k as = some a ∧ related v a := by
  induction h with
  | nil => cases hv
  | @cons m a ms as hm _ ih =>
      rw [lookup_cons] at hv
      rw [lookup_cons, hm.1]
      split at hv
      · next hk =>
          cases hv
          exact ⟨a.2, if_pos hk, hm.2⟩
      · next hk =>
          rw [if_neg hk]
          exact ih hv

theorem exists_of_forall (h : ∀ m ∈ ms, ∃ a, related m.2 a) : ∃ as, Alike related ms as := by
  induction ms with
  | nil => exact ⟨[], .nil⟩
  | cons m ms ih =>
      obtain ⟨a, ha⟩ := h m (by simp)
      obtain ⟨as, has⟩ := ih fun n hn => h n (by simp [hn])
      exact ⟨(m.1, a) :: as, .cons ⟨rfl, ha⟩ has⟩

theorem congr {related' : α → β → Prop} (h : ∀ m ∈ ms, ∀ a, related m.2 a ↔ related' m.2 a) :
    Alike related ms as ↔ Alike related' ms as := by
  have himp {r r' : α → β → Prop} (hr : ∀ m ∈ ms, ∀ a, r m.2 a → r' m.2 a) (halike : Alike r ms as) :
      Alike r' ms as := by
    induction halike with
    | nil => exact .nil
    | cons ha _ ih =>
        exact .cons ⟨ha.1, hr _ (by simp) _ ha.2⟩
          (ih (fun m hm => h m (by simp [hm])) fun m hm => hr m (by simp [hm]))
  exact ⟨himp fun m hm a => (h m hm a).mp, himp fun m hm a => (h m hm a).mpr⟩

theorem exists_of_mem (h : Alike related ms as) {m : String × α} (hm : m ∈ ms) : ∃ a, related m.2 a := by
  induction h with
  | nil => cases hm
  | cons ha _ ih =>
      rcases List.mem_cons.mp hm with rfl | hm
      · exact ⟨_, ha.2⟩
      · exact ih hm

theorem refl {related : α → α → Prop} {ms : List (String × α)} (h : ∀ m ∈ ms, related m.2 m.2) :
    Alike related ms ms := by
  induction ms with
  | nil => exact .nil
  | cons m ms ih => exact .cons ⟨rfl, h m (by simp)⟩ (ih fun n hn => h n (by simp [hn]))

theorem eq {as : List (String × α)} {related : α → α → Prop} {ms : List (String × α)}
    (h : Alike related ms as) (hself : ∀ m ∈ ms, ∀ a, related m.2 a → a = m.2) : as = ms := by
  induction h with
  | nil => rfl
  | cons ha _ ih =>
      rw [ih fun m hm => hself m (by simp [hm]), Prod.ext ha.1 (hself _ (by simp) _ ha.2)]

end Alike

/-- The text of a value is read as that value, but for how deep it goes. -/
def Value.Exact (v : Value) : Prop := redraft v = Draft.ofValue v

theorem Value.exact_whole {v : Value} (h : v.WholeNumbers) : v.Exact := redraft_whole v h

namespace Draft

open Value

theorem membersWith_redraft {read : Draft → Decoded β} (g : α → Value) {ms : List (String × α)}
    {as : List (String × β)} :
    membersWith read (redraftMembers (ms.map fun m => (m.1, g m.2))) = .ok as ↔
      Alike (fun v a => read (redraft (g v)) = .ok a) ms as := by
  induction ms generalizing as with
  | nil =>
      constructor
      · intro h
        cases h
        exact .nil
      · intro h
        cases h
        rfl
  | cons m ms ih =>
      rw [List.map_cons, redraftMembers, membersWith]
      constructor
      · intro h
        obtain ⟨k, hk, h⟩ := bind_ok h
        obtain ⟨a, ha, h⟩ := bind_ok h
        obtain ⟨bs, hbs, h⟩ := bind_ok h
        cases hk
        cases h
        exact .cons ⟨rfl, ha⟩ (ih.mp hbs)
      · intro h
        cases h with
        | @cons _ a _ as ha hrest =>
            obtain ⟨k, a⟩ := a
            obtain ⟨rfl, ha⟩ := ha
            rw [ha, ih.mpr hrest]
            rfl

theorem asMap_redraft {depth : Nat} (hdepth : 1 < depth) {read : Source → Draft → Decoded β}
    (g : α → Value) {ms : List (String × α)} (hms : Ordered ms) {as : List (String × β)} :
    (redraft (.object (ms.map fun m => (m.1, g m.2)))).asMap (.text depth) read = .ok as ↔
      Alike (fun v a => read (.text (depth - 1)) (redraft (g v)) = .ok a) ms as := by
  have henter : (Source.text depth).enter = .ok (.text (depth - 1)) := if_neg (by omega)
  rw [redraft, asMap, henter]
  change (membersWith (read (.text (depth - 1))) _ >>= fun as => .ok (Json.ofMembers as)) = .ok as ↔ _
  constructor
  · intro h
    obtain ⟨bs, hbs, h⟩ := bind_ok h
    cases h
    have halike := (membersWith_redraft g).mp hbs
    rwa [ofMembers_ordered (halike.ordered hms)]
  · intro h
    rw [(membersWith_redraft g).mpr h]
    exact congrArg Except.ok (ofMembers_ordered (h.ordered hms))

end Draft

end Json

namespace Database

open Value

def room : Nat := Draft.maxDepth - 3

def Rereads (v w : Value) : Prop := (redraft v).value room = .ok w

structure InOrder (scopes : Scopes) : Prop where
  order : Ordered scopes
  keys : ∀ s ∈ scopes, Ordered s.2

theorem liftFault_ok {α : Type} {x : Except Json.Fault α} {a : α} : liftFault x = .ok a ↔ x = .ok a := by
  cases x with
  | ok b =>
      constructor
      · intro h
        cases h
        rfl
      · intro h
        cases h
        rfl
  | error f => exact ⟨nofun, nofun⟩

theorem scopesOfDraft_member (d : Draft) :
    scopesOfDraft .start (.object (.member (.ok "scopes") none d (.stop .closed))) =
      d.asMap (.text (Draft.maxDepth - 1)) fun src d => d.asMap src Draft.asValue := by
  change (do
    let (seen, a) ← Draft.recordMembers (.text (Draft.maxDepth - 1)) fields
      (.member (.ok "scopes") none d (.stop .closed)) [] []
    Draft.firstMissing fields seen
    return a : Decoded Scopes) = _
  rw [Draft.recordMembers_known (by simp [fields]; rfl) rfl]
  dsimp only
  cases d.asMap (.text (Draft.maxDepth - 1)) fun src d => d.asMap src Draft.asValue <;> rfl

theorem ofText_document {scopes out : Scopes} (h : InOrder scopes) :
    Draft.ofText scopesOfDraft ((document scopes).pretty 0) = .ok out ↔
      Alike (Alike Rereads) scopes out := by
  have hread : Draft.ofText scopesOfDraft ((document scopes).pretty 0) =
      scopesOfDraft .start (redraft (document scopes)) := by
    rw [Draft.ofText, (spells_pretty 0 (document scopes)).ofBytes]
    change (do
      let a ← scopesOfDraft .start (redraft (document scopes))
      liftFault (ended (some []))
      return a : Decoded Scopes) = _
    cases scopesOfDraft .start (redraft (document scopes)) <;> rfl
  rw [hread, document, redraft, redraftMembers, redraftMembers, scopesOfDraft_member,
    Draft.asMap_redraft (by decide) _ h.order]
  apply Alike.congr
  intro s hs as
  have hkeys : Value.object s.2 = .object (s.2.map fun m => (m.1, id m.2)) := by simp
  rw [hkeys, Draft.asMap_redraft (by decide) _ (h.keys s hs)]
  apply Alike.congr
  intro m hm w
  exact liftFault_ok

theorem rereads_iff {v w : Value} (hexact : v.Exact) (hordered : v.ordered = v) :
    Rereads v w ↔ v.nest < room ∧ w = v := by
  rw [Rereads, hexact]
  constructor
  · intro h
    rcases Nat.lt_or_ge v.nest room with hlt | hge
    · rw [Draft.value_ofValue v room hlt, hordered] at h
      cases h
      exact ⟨hlt, rfl⟩
    · obtain ⟨f, hf⟩ := Draft.value_deep v room (by decide) hge
      rw [hf] at h
      cases h
  · rintro ⟨hlt, hw⟩
    rw [Draft.value_ofValue v room hlt, hordered, hw]

variable {db : Database}

theorem find_of_mem (h : InOrder db.scopes) {s : String × List (String × Value)} (hs : s ∈ db.scopes)
    {m : String × Value} (hm : m ∈ s.2) : db.find s.1 m.1 = some m.2 := by
  rw [find, lookup_of_mem h.order hs]
  exact lookup_of_mem (h.keys s hs) hm

theorem mem_of_find {scope key : String} {v : Value} (h : db.find scope key = some v) :
    ∃ s ∈ db.scopes, ∃ m ∈ s.2, m.2 = v := by
  obtain ⟨ms, hms, hv⟩ := Option.bind_eq_some_iff.mp h
  exact ⟨_, mem_of_lookup hms, _, mem_of_lookup hv, rfl⟩

/-- A database whose values are read exactly is read again as it is, unless one of them is too deep. -/
theorem ofText_exact (h : InOrder db.scopes)
    (hvalues : ∀ scope key v, db.find scope key = some v → v.Exact ∧ v.ordered = v) {out : Scopes} :
    Draft.ofText scopesOfDraft ((document db.scopes).pretty 0) = .ok out ↔
      (∀ scope key v, db.find scope key = some v → v.nest < room) ∧ out = db.scopes := by
  have hreread {s : String × List (String × Value)} (hs : s ∈ db.scopes) {m : String × Value}
      (hm : m ∈ s.2) (w : Value) : Rereads m.2 w ↔ m.2.nest < room ∧ w = m.2 := by
    obtain ⟨hexact, hordered⟩ := hvalues _ _ _ (find_of_mem h hs hm)
    exact rereads_iff hexact hordered
  rw [ofText_document h]
  constructor
  · intro halike
    constructor
    · intro scope key v hfind
      obtain ⟨s, hs, m, hm, rfl⟩ := mem_of_find hfind
      obtain ⟨as, has⟩ := halike.exists_of_mem hs
      obtain ⟨w, hw⟩ := has.exists_of_mem hm
      exact ((hreread hs hm w).mp hw).1
    · apply halike.eq
      intro s hs as has
      apply has.eq
      intro m hm w hw
      exact ((hreread hs hm w).mp hw).2
  · rintro ⟨hdeep, rfl⟩
    refine .refl fun s hs => .refl fun m hm => ?_
    exact (hreread hs hm m.2).mpr ⟨hdeep _ _ _ (find_of_mem h hs hm), rfl⟩

def Readable (v : Value) : Prop :=
  ∃ scopes, Draft.ofText scopesOfDraft ((document [("", [("", v)])]).pretty 0) = .ok scopes

theorem inOrder_single (scope key : String) (v : Value) : InOrder [(scope, [(key, v)])] := by
  refine ⟨List.pairwise_singleton _ _, ?_⟩
  intro s hs
  rw [List.mem_singleton.mp hs]
  exact List.pairwise_singleton _ _

theorem readable_iff {v : Value} : Readable v ↔ ∃ w, Rereads v w := by
  constructor
  · rintro ⟨scopes, hscopes⟩
    obtain ⟨as, has⟩ := ((ofText_document (inOrder_single "" "" v)).mp hscopes).exists_of_mem
      (List.mem_singleton_self _)
    exact has.exists_of_mem (m := ("", v)) (List.mem_singleton_self _)
  · rintro ⟨w, hw⟩
    refine ⟨[("", [("", w)])], (ofText_document (inOrder_single "" "" v)).mpr ?_⟩
    exact .cons ⟨rfl, .cons ⟨rfl, hw⟩ .nil⟩ .nil

/-- A database can be read if each of its values can be read alone, and a value that is read exactly
stands in it as before. -/
theorem ofText_readable (h : InOrder db.scopes)
    (hvalues : ∀ scope key v, db.find scope key = some v → Readable v) :
    ∃ scopes, Draft.ofText scopesOfDraft ((document db.scopes).pretty 0) = .ok scopes ∧
      ∀ p scope key v, db.find scope key = some v → v.Exact → v.ordered = v →
        (⟨p, scopes⟩ : Database).find scope key = some v := by
  obtain ⟨scopes, halike⟩ : ∃ scopes, Alike (Alike Rereads) db.scopes scopes := by
    refine Alike.exists_of_forall fun s hs => Alike.exists_of_forall fun m hm => ?_
    exact readable_iff.mp (hvalues _ _ _ (find_of_mem h hs hm))
  refine ⟨scopes, (ofText_document h).mpr halike, ?_⟩
  intro p scope key v hfind hexact hordered
  obtain ⟨ms, hms, hv⟩ := Option.bind_eq_some_iff.mp hfind
  obtain ⟨as, has, hscope⟩ := halike.lookup_some hms
  obtain ⟨w, hw, hkey⟩ := hscope.lookup_some hv
  rw [find, has, Option.bind_some, hw, ((rereads_iff hexact hordered).mp hkey).2]

end Database

end LogTail
