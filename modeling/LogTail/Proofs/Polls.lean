import LogTail.Proofs.Batches
import LogTail.Proofs.Chunks

namespace LogTail.Tracker

structure Stage where
  tracker : Tracker
  paths : List Path
  world : World

namespace Stage

def read (s : Stage) : Option Tracker × World := s.tracker.readBatch s.paths s.world

def sights (s : Stage) : List (Nat × Fingerprint) := s.tracker.sights s.world.tree s.paths

def readers (s : Stage) : List Reader := (s.tracker.collect s.paths s.world).1.previous

def entries (s : Stage) : List Metadata := s.readers.map Reader.metadata

def saves (s : Stage) : Bool :=
  match s.tracker.store with
  | none => true
  | some st =>
    match (st.save s.world.tree s.world.memory (s.tracker.gathered ++ s.entries)).1 with
    | .done => true
    | _ => false

theorem read_outlet (s : Stage) : s.read.2.outlet = (s.tracker.collect s.paths s.world).2.outlet :=
  save_outlet _ _

theorem read_gathered {s : Stage} {k : Tracker} (h : s.read.1 = some k) :
    k.gathered = s.tracker.gathered ++ s.entries := by
  rw [save_tracker (show ((s.tracker.collect s.paths s.world).1.trim.save _).1 = some k from h)]
  exact (s.tracker.collect_alike s.paths s.world).2.2

end Stage

/-- The batches that a poll comes to, of which `count` are done before. -/
def stagesFrom : List (List Path) → Nat → Tracker → World → List Stage
  | [], _, _, _ => []
  | [batch], _, k, w => [⟨k, batch, w⟩]
  | batch :: batches, count, k, w =>
    ⟨k, batch, w⟩ ::
      match k.readBatch batch w with
      | (none, _) => []
      | (some k, w) =>
        if reached k.settings.maxBatches (count + 1) then []
        else
          match w.outlet.lookJoined with
          | (true, _) => []
          | (false, outlet) => stagesFrom batches (count + 1) k { w with outlet }

def batches (k : Tracker) (t : FileTree) : List (List Path) :=
  chunks (max k.settings.batchFiles 1) (k.matched t)

def stages (k : Tracker) (w : World) : List Stage :=
  stagesFrom (k.batches w.tree) 0 { k with gathered := [] } w

def Completes (k : Tracker) (w : World) : Prop :=
  (k.stages w).map Stage.paths = k.batches w.tree

def looked (w : World) : World := { w with outlet := w.outlet.lookJoined.2 }

theorem poll_eq (k : Tracker) (w : World) :
    k.poll w = readBatches (k.batches w.tree) 0 { k with gathered := [] } w := rfl

theorem readBatches_cases (batch next : List Path) (batches : List (List Path)) (count : Nat)
    (k : Tracker) (w : World) :
    (stagesFrom (batch :: next :: batches) count k w = [⟨k, batch, w⟩] ∧
      (readBatches (batch :: next :: batches) count k w = k.readBatch batch w ∨
        ∃ k' w', k.readBatch batch w = (some k', w') ∧
          (reached k'.settings.maxBatches (count + 1) = false → w'.outlet.lookJoined.1 = true) ∧
          readBatches (batch :: next :: batches) count k w = (some k', looked w'))) ∨
    ∃ k' w', k.readBatch batch w = (some k', w') ∧ w'.outlet.lookJoined.1 = false ∧
      stagesFrom (batch :: next :: batches) count k w =
        ⟨k, batch, w⟩ :: stagesFrom (next :: batches) (count + 1) k' (looked w') ∧
      readBatches (batch :: next :: batches) count k w =
        readBatches (next :: batches) (count + 1) k' (looked w') := by
  cases hb : k.readBatch batch w with
  | mk k' w' =>
      cases k' with
      | none => exact .inl ⟨by simp [stagesFrom, hb], .inl (by simp [readBatches, hb])⟩
      | some k' =>
          by_cases hmax : reached k'.settings.maxBatches (count + 1) = true
          · exact .inl ⟨by simp [stagesFrom, hb, hmax], .inl (by simp [readBatches, hb, hmax])⟩
          · cases hl : w'.outlet.lookJoined with
            | mk shown outlet =>
                cases shown with
                | true =>
                    exact .inl ⟨by simp [stagesFrom, hb, hmax, hl], .inr ⟨k', w', rfl, by simp [hl],
                      by simp [readBatches, hb, hmax, hl, looked]⟩⟩
                | false =>
                    exact .inr ⟨k', w', rfl, by simp [hl], by simp [stagesFrom, hb, hmax, hl, looked],
                      by simp [readBatches, hb, hmax, hl, looked]⟩

/-- What holds at the first stage and passes from every stage to the next holds at all stages, and what
the last stage makes of it holds behind the poll. Behind a stage that is not the last the token is not
cancelled. -/
theorem readBatches_runs {P : Tracker → World → Prop} {Q : Option Tracker → World → Prop}
    {batches : List (List Path)} {count : Nat} {k : Tracker} {w : World} (hne : batches ≠ [])
    (hnext : ∀ s ∈ stagesFrom batches count k w, ∀ k', P s.tracker s.world → s.read.1 = some k' →
      s.read.2.outlet.lookJoined.1 = false → P k' (looked s.read.2))
    (hlast : ∀ s ∈ stagesFrom batches count k w, P s.tracker s.world → Q s.read.1 s.read.2)
    (hlook : ∀ k w, Q (some k) w → Q (some k) (looked w))
    (hbegin : ∀ k w, Q (some k) w → Q (some k.readFromBeginning) w) (h : P k w) :
    Q (readBatches batches count k w).1 (readBatches batches count k w).2 ∧
      ∀ s ∈ stagesFrom batches count k w, P s.tracker s.world := by
  induction batches generalizing count k w with
  | nil => exact absurd rfl hne
  | cons batch batches ih =>
      cases batches with
      | nil =>
          have hone : Q (k.readBatch batch w).1 (k.readBatch batch w).2 :=
            hlast ⟨k, batch, w⟩ (by simp [stagesFrom]) h
          refine ⟨?_, by simpa [stagesFrom] using h⟩
          rw [readBatches]
          cases hb : k.readBatch batch w with
          | mk k' w' =>
              rw [hb] at hone
              cases k' with
              | none => exact hone
              | some k' => exact hbegin k' w' hone
      | cons next batches =>
          rcases readBatches_cases batch next batches count k w with
            ⟨hstages, hend⟩ | ⟨k', w', hb, hcancel, hstages, hend⟩
          · rw [hstages] at hlast ⊢
            have hone : Q (k.readBatch batch w).1 (k.readBatch batch w).2 :=
              hlast ⟨k, batch, w⟩ (by simp) h
            refine ⟨?_, by simpa using h⟩
            rcases hend with hend | ⟨k', w', hb, _, hend⟩
            · rwa [hend]
            · rw [hb] at hone
              rw [hend]
              exact hlook k' w' hone
          · rw [hstages] at hnext hlast ⊢
            have hread : (⟨k, batch, w⟩ : Stage).read = (some k', w') := hb
            have hone := hnext ⟨k, batch, w⟩ (by simp) k' h (by rw [hread]) (by rw [hread]; exact hcancel)
            rw [hread] at hone
            obtain ⟨hend', hall⟩ := ih (by simp) (fun s hs => hnext s (List.mem_cons_of_mem _ hs))
              (fun s hs => hlast s (List.mem_cons_of_mem _ hs)) hone
            rw [hend]
            exact ⟨hend', List.forall_mem_cons.mpr ⟨h, hall⟩⟩

theorem gathered_readBatches {batches : List (List Path)} (hne : batches ≠ []) {count : Nat}
    {k k' : Tracker} {w : World} (h : (readBatches batches count k w).1 = some k') :
    k'.gathered = k.gathered ++ (stagesFrom batches count k w).flatMap Stage.entries := by
  induction batches generalizing count k w with
  | nil => exact absurd rfl hne
  | cons batch batches ih =>
      have hone {k₁ : Tracker} (hk : (k.readBatch batch w).1 = some k₁) :
          k₁.gathered = k.gathered ++ (⟨k, batch, w⟩ : Stage).entries :=
        Stage.read_gathered (s := ⟨k, batch, w⟩) hk
      cases batches with
      | nil =>
          simp only [stagesFrom, List.flatMap_singleton]
          rw [readBatches] at h
          cases hb : k.readBatch batch w with
          | mk k₁ w₁ =>
              rw [hb] at h hone
              cases k₁ with
              | none => cases h
              | some k₁ =>
                  cases h
                  exact (hone rfl : k₁.gathered = _)
      | cons next batches =>
          rcases readBatches_cases batch next batches count k w with
            ⟨hstages, hend⟩ | ⟨k₁, w₁, hb, _, hstages, hend⟩
          · rw [hstages, List.flatMap_singleton]
            rcases hend with hend | ⟨k₁, w₁, hb, _, hend⟩
            · rw [hend] at h
              exact hone h
            · rw [hend] at h
              cases h
              exact hone (by rw [hb])
          · rw [hend] at h
            rw [hstages, List.flatMap_cons, ih (by simp) h, hone (by rw [hb]), List.append_assoc]

theorem paths_of_mem_stagesFrom {batches : List (List Path)} {count : Nat} {k : Tracker} {w : World}
    {stage : Stage} (h : stage ∈ stagesFrom batches count k w) : stage.paths ∈ batches := by
  induction batches generalizing count k w with
  | nil => exact absurd h (List.not_mem_nil)
  | cons batch batches ih =>
      cases batches with
      | nil =>
          obtain rfl := List.mem_singleton.mp h
          exact List.mem_singleton_self _
      | cons next batches =>
          rcases readBatches_cases batch next batches count k w with
            ⟨hstages, _⟩ | ⟨k', w', _, _, hstages, _⟩
          · rw [hstages] at h
            obtain rfl := List.mem_singleton.mp h
            exact List.mem_cons_self
          · rw [hstages] at h
            rcases List.mem_cons.mp h with rfl | h
            · exact List.mem_cons_self
            · exact List.mem_cons_of_mem _ (ih h)

theorem stagesFrom_paths {batches : List (List Path)} {count : Nat} {k : Tracker} {w : World}
    (hcount : count < k.settings.maxBatches) (hwilling : w.outlet.Willing)
    (hsurvives : ∀ s ∈ stagesFrom batches count k w, s.read.1.isSome = true) :
    (stagesFrom batches count k w).map Stage.paths =
      batches.take (k.settings.maxBatches - count) := by
  induction batches generalizing count k w with
  | nil => simp [stagesFrom]
  | cons batch batches ih =>
      obtain ⟨left, hleft⟩ := Nat.exists_eq_add_of_lt hcount
      rw [show k.settings.maxBatches - count = left + 1 by omega, List.take_succ_cons]
      cases batches with
      | nil => simp [stagesFrom]
      | cons next batches =>
          cases hread : k.readBatch batch w with
          | mk o w' =>
              cases o with
              | none =>
                  have hsome := hsurvives ⟨k, batch, w⟩ (by simp [stagesFrom, hread])
                  rw [Stage.read, hread] at hsome
                  cases hsome
              | some k' =>
                  have hsettings : k'.settings = k.settings := readBatch_settings (by rw [hread])
                  obtain ⟨bs, htook⟩ := k.readBatch_took batch w
                  rw [hread] at htook
                  have hlook := Outlet.lookJoined_intact (hwilling.took htook).intact
                  -- the next poll does not go on here: it begins again with the first batch
                  by_cases hmax : reached k'.settings.maxBatches (count + 1) = true
                  · have hlast : left = 0 := by
                      simp only [reached, hsettings, ne_eq, decide_not, Bool.and_eq_true,
                        Bool.not_eq_true', decide_eq_false_iff_not, decide_eq_true_eq] at hmax
                      omega
                    simp [stagesFrom, hread, hmax, hlast]
                  · have hmore : count + 1 < k'.settings.maxBatches := by
                      simp only [reached, hsettings, ne_eq, decide_not, Bool.and_eq_true,
                        Bool.not_eq_true', decide_eq_false_iff_not, decide_eq_true_eq] at hmax
                      rw [hsettings]
                      omega
                    have hstages : stagesFrom (batch :: next :: batches) count k w =
                        ⟨k, batch, w⟩ :: stagesFrom (next :: batches) (count + 1) k' w' := by
                      simp [stagesFrom, hread, hmax, hlook]
                    rw [hstages] at hsurvives ⊢
                    have hrest := ih hmore (hwilling.took htook) fun s hs =>
                      hsurvives s (List.mem_cons_of_mem _ hs)
                    rw [List.map_cons, hrest, hsettings,
                      show k.settings.maxBatches - (count + 1) = left by omega]

theorem stagesFrom_carries {P : List Stage → Tracker → World → Prop} {batches : List (List Path)}
    {count : Nat} {k : Tracker} {w : World} {before behind : List Stage} {stage : Stage}
    (hsplit : stagesFrom batches count k w = before ++ stage :: behind)
    (hnext : ∀ done s, done ++ [s] <+: before → ∀ k', P done s.tracker s.world → s.read.1 = some k' →
      P (done ++ [s]) k' (looked s.read.2))
    (h : P [] k w) : P before stage.tracker stage.world := by
  induction batches generalizing count k w before P with
  | nil => simp [stagesFrom] at hsplit
  | cons batch batches ih =>
      cases batches with
      | nil =>
          obtain ⟨rfl, hsplit⟩ := List.singleton_eq_append_iff.mp hsplit |>.resolve_right (by simp)
          cases hsplit
          exact h
      | cons next batches =>
          rcases readBatches_cases batch next batches count k w with
            ⟨hstages, _⟩ | ⟨k', w', hb, _, hstages, _⟩
          · rw [hstages] at hsplit
            obtain ⟨rfl, hsplit⟩ := List.singleton_eq_append_iff.mp hsplit |>.resolve_right (by simp)
            cases hsplit
            exact h
          · rw [hstages] at hsplit
            cases before with
            | nil =>
                cases hsplit
                exact h
            | cons s before =>
                obtain ⟨rfl, htail⟩ := List.cons.inj hsplit
                have hread : (⟨k, batch, w⟩ : Stage).read = (some k', w') := hb
                have hone := hnext [] ⟨k, batch, w⟩ (by simp) k' h (by rw [hread])
                rw [hread] at hone
                exact ih (P := fun done => P (⟨k, batch, w⟩ :: done)) htail
                  (fun done s hdone => hnext (⟨k, batch, w⟩ :: done) s
                    (List.prefix_cons_inj _ |>.mpr hdone)) hone

theorem stagesFrom_preserves {P : Tracker → World → Prop} {batches : List (List Path)}
    {count : Nat} {k : Tracker} {w : World} {before behind : List Stage} {stage : Stage}
    (hsplit : stagesFrom batches count k w = before ++ stage :: behind)
    (hnext : ∀ s ∈ before, ∀ k', P s.tracker s.world → s.read.1 = some k' → P k' (looked s.read.2))
    (h : P k w) : P stage.tracker stage.world :=
  stagesFrom_carries (P := fun _ => P) hsplit (fun _ s hdone => hnext s (hdone.subset (by simp))) h

theorem readBatches_last {batches : List (List Path)} (hne : batches ≠ []) {count : Nat}
    {k k' : Tracker} {w : World} (h : (readBatches batches count k w).1 = some k') :
    ∃ before stage k'', stagesFrom batches count k w = before ++ [stage] ∧ stage.read.1 = some k'' ∧
      (k' = k'' ∨ k' = k''.readFromBeginning) := by
  induction batches generalizing count k w with
  | nil => exact absurd rfl hne
  | cons batch batches ih =>
      cases batches with
      | nil =>
          rw [readBatches] at h
          cases hb : k.readBatch batch w with
          | mk k'' w'' =>
              rw [hb] at h
              cases k'' with
              | none => cases h
              | some k'' =>
                  cases h
                  exact ⟨[], ⟨k, batch, w⟩, k'', rfl, congrArg Prod.fst hb, .inr rfl⟩
      | cons next batches =>
          rcases readBatches_cases batch next batches count k w with
            ⟨hstages, hend⟩ | ⟨k₁, w₁, hb, _, hstages, hend⟩
          · rcases hend with hend | ⟨k₁, w₁, hb, _, hend⟩
            · rw [hend] at h
              exact ⟨[], _, k', hstages, h, .inl rfl⟩
            · rw [hend] at h
              cases h
              exact ⟨[], _, k', hstages, congrArg Prod.fst hb, .inl rfl⟩
          · rw [hend] at h
            obtain ⟨before, stage, k'', hsplit, hread, hk⟩ := ih (by simp) h
            exact ⟨_ :: before, stage, k'', by rw [hstages, hsplit]; rfl, hread, hk⟩

/-- What lies between the worlds of a poll: whatever relates the worlds before and behind every stage
relates those of the poll. -/
theorem readBatches_between {R : World → World → Prop} (hrefl : ∀ w, R w w)
    (htrans : ∀ w w' w'', R w w' → R w' w'' → R w w'') (hlook : ∀ w, R w (looked w))
    {batches : List (List Path)} {count : Nat} {k : Tracker} {w : World}
    (hread : ∀ s ∈ stagesFrom batches count k w, R s.world s.read.2) :
    R w (readBatches batches count k w).2 ∧
      ∀ s ∈ stagesFrom batches count k w,
        R w s.world ∧ R s.read.2 (readBatches batches count k w).2 := by
  induction batches generalizing count k w with
  | nil => exact ⟨hrefl w, by simp [stagesFrom]⟩
  | cons batch batches ih =>
      cases batches with
      | nil =>
          have hone : R w (k.readBatch batch w).2 := hread ⟨k, batch, w⟩ (by simp [stagesFrom])
          have hend : (readBatches [batch] count k w).2 = (k.readBatch batch w).2 := by
            rw [readBatches]
            cases k.readBatch batch w with
            | mk k' w' => cases k' <;> rfl
          rw [hend]
          refine ⟨hone, ?_⟩
          simp only [stagesFrom, List.mem_singleton]
          rintro s rfl
          exact ⟨hrefl w, hrefl _⟩
      | cons next batches =>
          rcases readBatches_cases batch next batches count k w with
            ⟨hstages, hend⟩ | ⟨k', w', hb, _, hstages, hend⟩
          · rw [hstages] at hread ⊢
            have hone : R w (k.readBatch batch w).2 := hread ⟨k, batch, w⟩ (by simp)
            have hlast : R (k.readBatch batch w).2
                (readBatches (batch :: next :: batches) count k w).2 := by
              rcases hend with hend | ⟨k', w', hb, _, hend⟩
              · rw [hend]; exact hrefl _
              · rw [hend, hb]; exact hlook w'
            refine ⟨htrans _ _ _ hone hlast, ?_⟩
            simp only [List.mem_singleton]
            rintro s rfl
            exact ⟨hrefl w, hlast⟩
          · rw [hstages] at hread ⊢
            have hone : R w (k.readBatch batch w).2 := hread ⟨k, batch, w⟩ (by simp)
            rw [hb] at hone
            obtain ⟨hlast, hall⟩ := ih (fun s hs => hread s (List.mem_cons_of_mem _ hs))
            rw [hend]
            have hnext := htrans _ _ _ hone (hlook w')
            refine ⟨htrans _ _ _ hnext hlast, fun s hs => ?_⟩
            rcases List.mem_cons.mp hs with rfl | hs
            · refine ⟨hrefl w, ?_⟩
              change R (k.readBatch batch w).2 _
              rw [hb]
              exact htrans _ _ _ (hlook w') hlast
            · exact ⟨htrans _ _ _ hnext (hall s hs).1, (hall s hs).2⟩

theorem poll_took (k : Tracker) (w : World) :
    (∃ bs, w.outlet.Took (k.poll w).2.outlet bs) ∧
      ∀ s ∈ k.stages w, (∃ bs, w.outlet.Took s.world.outlet bs) ∧
        ∃ bs, s.read.2.outlet.Took (k.poll w).2.outlet bs :=
  readBatches_between (R := fun w w' => ∃ bs, w.outlet.Took w'.outlet bs) (fun _ => ⟨[], .refl _⟩)
    (fun _ _ _ h h' => ⟨_, h.choose_spec.trans h'.choose_spec⟩) (fun w => ⟨[], w.outlet.took_look⟩)
    fun s _ => s.tracker.readBatch_took s.paths s.world

theorem stage_calm {k : Tracker} {w : World} (hcalm : w.outlet.Calm (k.poll w).2.outlet) {s : Stage}
    (hs : s ∈ k.stages w) : s.world.outlet.Calm s.read.2.outlet := by
  obtain ⟨_, hall⟩ := poll_took k w
  obtain ⟨⟨bs, hbefore⟩, ⟨cs, hbehind⟩⟩ := hall s hs
  exact (hcalm.right hbefore).left hbehind

theorem Completes.stage {k : Tracker} {w : World} (h : k.Completes w) {path : Path}
    (hpath : path ∈ k.matched w.tree) : ∃ s ∈ k.stages w, path ∈ s.paths := by
  rw [← chunks_flatten (n := max k.settings.batchFiles 1) (by omega) (k.matched w.tree)] at hpath
  obtain ⟨batch, hbatch, hpath⟩ := List.mem_flatten.mp hpath
  rw [show chunks _ _ = k.batches w.tree from rfl, ← h] at hbatch
  obtain ⟨s, hs, rfl⟩ := List.mem_map.mp hbatch
  exact ⟨s, hs, hpath⟩

end LogTail.Tracker
