import LogTail.Proofs.Batches

namespace LogTail

namespace Json

variable {α : Type} {k l : String} {v u : α}

theorem insertMember_insertMember (k : String) (v : α) (ms : List (String × α)) :
    insertMember k v (insertMember k v ms) = insertMember k v ms := by
  induction ms with
  | nil => rw [insertMember, insertMember, if_neg (String.lt_irrefl k), if_pos rfl]
  | cons m ms ih =>
      obtain ⟨l, u⟩ := m
      by_cases hlt : k < l
      · rw [insertMember, if_pos hlt, insertMember, if_neg (String.lt_irrefl k), if_pos rfl]
      · by_cases he : k = l
        · rw [insertMember, if_neg hlt, if_pos he, insertMember, if_neg (String.lt_irrefl k), if_pos rfl]
        · rw [insertMember, if_neg hlt, if_neg he, insertMember, if_neg hlt, if_neg he, ih]

theorem insertMember_before (hkl : k < l) (v u : α) (ms : List (String × α)) :
    insertMember k v (insertMember l u (insertMember k v ms)) =
      insertMember l u (insertMember k v ms) := by
  have hlk : ¬ l < k := fun h => String.lt_irrefl k (String.lt_trans hkl h)
  have hne : l ≠ k := by
    rintro rfl
    exact String.lt_irrefl l hkl
  induction ms with
  | nil =>
      have hnone : insertMember k v [] = [(k, v)] := rfl
      have hone : insertMember l u [(k, v)] = [(k, v), (l, u)] := by
        rw [insertMember, if_neg hlk, if_neg hne]
        rfl
      rw [hnone, hone, insertMember, if_neg (String.lt_irrefl k), if_pos rfl]
  | cons m ms ih =>
      obtain ⟨j, x⟩ := m
      by_cases hkj : k < j
      · rw [insertMember, if_pos hkj, insertMember, if_neg hlk, if_neg hne, insertMember,
          if_neg (String.lt_irrefl k), if_pos rfl]
      · by_cases he : k = j
        · rw [insertMember, if_neg hkj, if_pos he, insertMember, if_neg hlk, if_neg hne, insertMember,
            if_neg (String.lt_irrefl k), if_pos rfl]
        · rw [insertMember, if_neg hkj, if_neg he, insertMember]
          by_cases hlj : l < j
          · exact absurd (String.lt_trans hkl hlj) hkj
          · by_cases hej : l = j
            · exact absurd (hej ▸ hkl) hkj
            · rw [if_neg hlj, if_neg hej, insertMember, if_neg hkj, if_neg he, ih]

end Json

namespace Policy

open Json

variable (f : Policy) (m : Metadata) (p : Path)

theorem build_build (h h' : Option Handle) :
    (f.build p h' (f.build p h m).metadata).metadata = (f.build p h m).metadata := by
  have hkeys : nameAttribute < pathAttribute := by decide
  change f.withPath p (f.withName p (f.withPath p (f.withName p m))) = f.withPath p (f.withName p m)
  unfold withPath withName Metadata.withAttribute
  cases p.fileName? with
  | none =>
      dsimp only
      split
      · rw [insertMember_insertMember]
      · rfl
  | some name =>
      dsimp only
      by_cases hname : f.includeFileName = true
      · rw [if_pos hname]
        by_cases hpath : f.includeFilePath = true
        · simp only [if_pos hpath, if_pos hname, insertMember_before hkeys, insertMember_insertMember]
        · simp only [if_neg hpath, if_pos hname, insertMember_insertMember]
      · by_cases hpath : f.includeFilePath = true
        · simp only [if_pos hpath, if_neg hname, insertMember_insertMember]
        · simp only [if_neg hpath, if_neg hname]

theorem build_offset (h : Option Handle) (n : Nat) :
    f.build p h { m with offset := n } = (f.build p h m).moveTo n := by
  unfold build withPath withName Metadata.withAttribute
  split <;> split <;> (try split) <;> rfl

end Policy

namespace Tracker

/-- The paths at which readers were opened, with the fingerprints found there: one more, unless there
is no file or a copy of one found before. -/
def place (k : Tracker) (t : FileTree) (found : List (Path × Fingerprint)) (path : Path) :
    List (Path × Fingerprint) :=
  match k.identify t path with
  | none => found
  | some (_, fp) => if found.any (·.2.agrees fp) then found else found ++ [(path, fp)]

def places (k : Tracker) (t : FileTree) (paths : List Path) : List (Path × Fingerprint) :=
  paths.foldl (k.place t) []

variable {k k' : Tracker} {t t' : FileTree} {paths : List Path} {w : World}

theorem places_snoc (k : Tracker) (t : FileTree) (paths : List Path) (path : Path) :
    k.places t (paths ++ [path]) = k.place t (k.places t paths) path := by
  simp [places]

theorem places_congr (h : ∀ path ∈ paths, k'.identify t' path = k.identify t path) :
    k'.places t' paths = k.places t paths := by
  induction paths using List.reverseRecOn with
  | nil => rfl
  | append_singleton paths path ih =>
      rw [places_snoc, places_snoc, ih fun p hp => h p (by simp [hp])]
      simp only [place, h path (by simp)]

theorem places_apart (k : Tracker) (t : FileTree) (paths : List Path) :
    (k.places t paths).Pairwise fun x y => x.2.agrees y.2 = false := by
  induction paths using List.reverseRecOn with
  | nil => exact .nil
  | append_singleton paths path ih =>
      rw [places_snoc, place]
      cases k.identify t path with
      | none => exact ih
      | some id =>
          dsimp only
          split
          · exact ih
          · next hany =>
              refine List.pairwise_append.mpr ⟨ih, List.pairwise_singleton .., fun x hx y hy => ?_⟩
              obtain rfl : y = (path, id.2) := by simpa using hy
              simpa using fun h => hany (List.any_eq_true.mpr ⟨x, hx, h⟩)

/-- Readers are opened at just these places, whatever readers are kept. -/
theorem opened_places (k : Tracker) (paths : List Path) (w : World) :
    (k.opened paths w).readers.reverse.map (fun r => (r.path, r.fingerprint)) =
      k.places w.tree paths := by
  induction paths using List.reverseRecOn with
  | nil => rfl
  | append_singleton paths path ih =>
      have hfps : (k.opened paths w).fingerprints.reverse = (k.places w.tree paths).map Prod.snd := by
        rw [← ih, List.map_map, ← k.opened_fingerprints, ← List.map_reverse]
        rfl
      have hany (fp : Fingerprint) : (k.places w.tree paths).any (fun x => x.2.agrees fp) =
          (k.opened paths w).fingerprints.any fun f => f.agrees fp := by
        rw [← List.any_reverse (l := (k.opened paths w).fingerprints), hfps, List.any_map]
        rfl
      have hopens := k.opened_opens paths path w
      rw [places_snoc, place, ← k.opened_identify paths w]
      simp only [hany]
      generalize k.opened (paths ++ [path]) w = s' at hopens ⊢
      cases hopens with
      | unreadable hnone => rw [hnone, ih]
      | copy hsome hmem hagrees =>
          rw [hsome, ih]
          exact (if_pos (List.any_eq_true.mpr ⟨_, hmem, hagrees⟩)).symm
      | @resumed _ fp _ _ _ _ hsome hnew _ _ _ _ _ _ _ hreaders
      | @added _ fp _ hsome hnew _ _ _ _ _ hreaders =>
          have hnone : (k.opened paths w).fingerprints.any (fun f => f.agrees fp) = false := by
            simpa using hnew
          simp only [hsome, hnone, Bool.false_eq_true, if_false, hreaders, List.reverse_cons,
            List.map_append, ih]
          simp

theorem opened_apart (k : Tracker) (paths : List Path) (w : World) :
    (k.opened paths w).readers.reverse.Pairwise fun a b => a.fingerprint ≠ b.fingerprint := by
  have hplaces := k.places_apart w.tree paths
  rw [← k.opened_places paths w, List.pairwise_map] at hplaces
  refine hplaces.imp_of_mem fun {a b} ha _ hab hsame => ?_
  obtain ⟨_, _, _, hid, _⟩ := opened_reader (List.mem_reverse.mp ha)
  rw [← hsame, Fingerprint.agrees_self (identify_some hid).2.filled] at hab
  cases hab

end Tracker

end LogTail
