import LogTail.Glob.Pattern
import Mathlib.Data.List.Chain

namespace LogTail.Glob

namespace Pattern

variable {p q : Pattern} {k : Token} {c : Char} {s : List Char}

/-- The texts that a pattern stands for. -/
def Matches : Pattern → List Char → Prop
  | [], s => s = []
  | .run :: p, s => ∃ a b, s = a ++ b ∧ '/' ∉ a ∧ Matches p b
  | .components :: p, s => Matches p s ∨ (∃ a b, s = a ++ '/' :: b ∧ Matches p b) ∨ Matches p []
  | k :: p, s => ∃ c b, s = c :: b ∧ Token.admits c k = true ∧ Matches p b

def Token.Single (k : Token) : Prop := k ≠ .run ∧ k ≠ .components

theorem token_cases (k : Token) : k = .run ∨ k = .components ∨ Token.Single k := by
  cases k <;> simp [Token.Single]

theorem matches_nil : Matches [] s ↔ s = [] := Iff.rfl

theorem matches_run : Matches (.run :: p) s ↔ ∃ a b, s = a ++ b ∧ '/' ∉ a ∧ Matches p b := Iff.rfl

theorem matches_single (hk : Token.Single k) :
    Matches (k :: p) s ↔ ∃ c b, s = c :: b ∧ Token.admits c k = true ∧ Matches p b := by
  obtain ⟨hrun, hcomponents⟩ := hk
  cases k with
  | run => exact absurd rfl hrun
  | components => exact absurd rfl hcomponents
  | char a => exact Iff.rfl
  | any => exact Iff.rfl
  | within ms => exact Iff.rfl
  | except ms => exact Iff.rfl

theorem matchFrom_single_nil (hk : Token.Single k) (p : Pattern) : matchFrom (k :: p) [] = .exhausted := by
  obtain ⟨hrun, hcomponents⟩ := hk
  cases k <;> first
    | exact absurd rfl hrun
    | exact absurd rfl hcomponents
    | rfl

theorem matchFrom_single_cons (hk : Token.Single k) (p : Pattern) (c : Char) (s : List Char) :
    matchFrom (k :: p) (c :: s) = if Token.admits c k then matchFrom p s else .mismatch := by
  obtain ⟨hrun, hcomponents⟩ := hk
  cases k <;> first
    | exact absurd rfl hrun
    | exact absurd rfl hcomponents
    | rfl

theorem matchFrom_run_nil (p : Pattern) : matchFrom (.run :: p) [] = matchFrom p [] := by
  rw [matchFrom]
  cases h : matchFrom p [] <;> simp [tryAlong, h]

theorem matchFrom_run_cons (p : Pattern) (c : Char) (s : List Char) :
    matchFrom (.run :: p) (c :: s) =
      match matchFrom p (c :: s) with
      | .mismatch => if c = '/' then .mismatch else matchFrom (.run :: p) s
      | v => v := by
  rw [matchFrom, matchFrom]
  cases matchFrom p (c :: s) with
  | matched => rfl
  | exhausted => rfl
  | mismatch =>
      by_cases hc : c = '/'
      · simp [tryAlong, hc]
      · simp [tryAlong, hc]

def tryBehind (p : Pattern) (s : List Char) : Verdict := tryAlong (matchFrom p) (fun _ => true) (· = '/') s

theorem matchFrom_components (p : Pattern) (s : List Char) :
    matchFrom (.components :: p) s =
      match matchFrom p s with
      | .mismatch => tryBehind p s
      | v => v := rfl

theorem tryBehind_nil (p : Pattern) : tryBehind p [] = matchFrom p [] := rfl

theorem tryBehind_slash (p : Pattern) (s : List Char) : tryBehind p ('/' :: s) = matchFrom (.components :: p) s := rfl

theorem tryBehind_cons (hc : c ≠ '/') (p : Pattern) (s : List Char) : tryBehind p (c :: s) = tryBehind p s := by
  simp [tryBehind, tryAlong, hc]

def Somewhere (p : Pattern) (s : List Char) : Prop := ∃ a b, s = a ++ b ∧ Matches p b

def Behind (p : Pattern) (s : List Char) : Prop := (∃ a b, s = a ++ '/' :: b ∧ Matches p b) ∨ Matches p []

theorem matches_components : Matches (.components :: p) s ↔ Matches p s ∨ Behind p s := Iff.rfl

theorem behind_nil : Behind p [] ↔ Matches p [] := by
  simp [Behind]

theorem behind_slash : Behind p ('/' :: s) ↔ Matches p s ∨ Behind p s := by
  rw [Behind, Behind, ← or_assoc]
  refine or_congr_left ?_
  constructor
  · rintro ⟨a, b, hs, h⟩
    cases a with
    | nil =>
        obtain rfl := (List.cons.inj hs).2
        exact .inl h
    | cons d a => exact .inr ⟨a, b, (List.cons.inj hs).2, h⟩
  · rintro (h | ⟨a, b, rfl, h⟩)
    · exact ⟨[], s, rfl, h⟩
    · exact ⟨'/' :: a, b, rfl, h⟩

theorem behind_cons (hc : c ≠ '/') : Behind p (c :: s) ↔ Behind p s := by
  rw [Behind, Behind]
  refine or_congr_left ?_
  constructor
  · rintro ⟨a, b, hs, h⟩
    cases a with
    | nil => exact absurd (List.cons.inj hs).1 hc
    | cons d a => exact ⟨a, b, (List.cons.inj hs).2, h⟩
  · rintro ⟨a, b, rfl, h⟩
    exact ⟨c :: a, b, rfl, h⟩

theorem Behind.append (h : Behind p s) (a : List Char) : Behind p (a ++ s) := by
  rcases h with ⟨x, y, rfl, h⟩ | h
  · exact .inl ⟨a ++ x, y, by simp, h⟩
  · exact .inr h

theorem Behind.somewhere (h : Behind p s) : Somewhere p s := by
  rcases h with ⟨a, b, rfl, h⟩ | h
  · exact ⟨a ++ ['/'], b, by simp, h⟩
  · exact ⟨s, [], by simp, h⟩

theorem behind_components : Behind (.components :: p) s ↔ Behind p s := by
  constructor
  · rintro (⟨a, b, rfl, h | h⟩ | h | h)
    · exact .inl ⟨a, b, rfl, h⟩
    · simpa using Behind.append h (a ++ ['/'])
    · exact .inr h
    · exact .inr (behind_nil.mp h)
  · rintro (⟨a, b, rfl, h⟩ | h)
    · exact .inl ⟨a, b, rfl, .inl h⟩
    · exact .inr (.inl h)

theorem somewhere_nil : Somewhere p [] ↔ Matches p [] := by
  simp [Somewhere]

theorem somewhere_cons : Somewhere p (c :: s) ↔ Matches p (c :: s) ∨ Somewhere p s := by
  constructor
  · rintro ⟨a, b, hs, h⟩
    cases a with
    | nil => exact .inl (by rwa [hs])
    | cons d a => exact .inr ⟨a, b, (List.cons.inj hs).2, h⟩
  · rintro (h | ⟨a, b, rfl, h⟩)
    · exact ⟨[], c :: s, rfl, h⟩
    · exact ⟨c :: a, b, rfl, h⟩

theorem somewhere_self (h : Matches p s) : Somewhere p s := ⟨[], s, rfl, h⟩

theorem matches_run_nil : Matches (.run :: p) [] ↔ Matches p [] := by
  simp [matches_run]

theorem matches_run_cons : Matches (.run :: p) (c :: s) ↔ Matches p (c :: s) ∨ (c ≠ '/' ∧ Matches (.run :: p) s) := by
  rw [matches_run, matches_run]
  constructor
  · rintro ⟨a, b, hs, ha, h⟩
    cases a with
    | nil => exact .inl (by rwa [hs])
    | cons d a =>
        obtain ⟨rfl, rfl⟩ := List.cons.inj hs
        rw [List.mem_cons, not_or] at ha
        exact .inr ⟨Ne.symm ha.1, a, b, rfl, ha.2, h⟩
  · rintro (h | ⟨hc, a, b, rfl, ha, h⟩)
    · exact ⟨[], c :: s, rfl, List.not_mem_nil, h⟩
    · exact ⟨c :: a, b, rfl, by simp [ha, Ne.symm hc], h⟩

theorem somewhere_run : Somewhere (.run :: p) s ↔ Somewhere p s := by
  constructor
  · rintro ⟨a, b, rfl, x, y, rfl, -, h⟩
    exact ⟨a ++ x, y, by simp, h⟩
  · rintro ⟨a, b, rfl, h⟩
    exact ⟨a, b, rfl, [], b, rfl, List.not_mem_nil, h⟩

/-- Two stars stand only at the start, behind a slash or behind two stars. -/
def Divided (p : Pattern) : Prop :=
  p.IsChain fun k k' => k' = .components → k = .char '/' ∨ k = .components

/-- What a verdict says about a text. When the text has come to its end, the starts that are left fail too:
all of them, but if the pattern begins with two stars only those where a component begins. -/
structure Judges (p : Pattern) (s : List Char) : Prop where
  matched : matchFrom p s = .matched ↔ Matches p s
  here : matchFrom p s = .exhausted → ¬ Matches p s
  behind : matchFrom p s = .exhausted → ¬ Behind p s
  anywhere : matchFrom p s = .exhausted → p.head? ≠ some .components → ¬ Somewhere p s

theorem Judges.of_somewhere (hmatched : matchFrom p s = .matched ↔ Matches p s)
    (h : matchFrom p s = .exhausted → ¬ Somewhere p s) : Judges p s :=
  ⟨hmatched, fun he hm => h he (somewhere_self hm), fun he hb => h he hb.somewhere, fun he _ => h he⟩

theorem Judges.mismatch (h : Judges p s) (hv : matchFrom p s = .mismatch) : ¬ Matches p s := by
  rw [← h.matched, hv]
  nofun

theorem judges_nil (s : List Char) : Judges [] s := by
  cases s with
  | nil => exact ⟨by simp [matchFrom, Matches], nofun, nofun, nofun⟩
  | cons c s => exact ⟨by simp [matchFrom, Matches], nofun, nofun, nofun⟩

theorem judges_run (hp : ∀ s, Judges p s) (hhead : p.head? ≠ some .components) (s : List Char) :
    Judges (.run :: p) s := by
  suffices h : (matchFrom (.run :: p) s = .matched ↔ Matches (.run :: p) s) ∧
      (matchFrom (.run :: p) s = .exhausted → ¬ Somewhere p s) from
    .of_somewhere h.1 fun he => somewhere_run.not.mpr (h.2 he)
  induction s with
  | nil =>
      rw [matchFrom_run_nil, matches_run_nil]
      exact ⟨(hp []).matched, fun he => (hp []).anywhere he hhead⟩
  | cons c s ih =>
      rw [matchFrom_run_cons, matches_run_cons, somewhere_cons]
      cases hv : matchFrom p (c :: s) with
      | matched => simp [(hp (c :: s)).matched.mp hv]
      | exhausted =>
          have hnone := (hp (c :: s)).anywhere hv hhead
          have hrun : ¬ Matches (.run :: p) s := fun h =>
            hnone (somewhere_cons.mpr (.inr (somewhere_run.mp (somewhere_self h))))
          rw [somewhere_cons] at hnone
          refine ⟨?_, fun _ => hnone⟩
          simp [hrun, (hp (c :: s)).here hv]
      | mismatch =>
          have hno := (hp (c :: s)).mismatch hv
          by_cases hc : c = '/'
          · simp [hc, hc ▸ hno]
          · simpa [hc, hno] using ih

theorem judges_components (hp : ∀ s, Judges p s) (s : List Char) : Judges (.components :: p) s := by
  have hbehind : (tryBehind p s = .matched ↔ Behind p s) ∧ (tryBehind p s = .exhausted → ¬ Behind p s) := by
    induction s with
    | nil =>
        rw [tryBehind_nil, behind_nil]
        exact ⟨(hp []).matched, (hp []).here⟩
    | cons c s ih =>
        by_cases hc : c = '/'
        · subst hc
          rw [tryBehind_slash, behind_slash, matchFrom_components]
          cases hv : matchFrom p s with
          | matched => simp [(hp s).matched.mp hv]
          | exhausted => simp [(hp s).here hv, (hp s).behind hv]
          | mismatch => simpa [(hp s).mismatch hv] using ih
        · rw [tryBehind_cons hc, behind_cons hc]
          exact ih
  have hwhole : (matchFrom (.components :: p) s = .matched ↔ Matches (.components :: p) s) ∧
      (matchFrom (.components :: p) s = .exhausted → ¬ Matches (.components :: p) s) := by
    rw [matchFrom_components, matches_components]
    cases hv : matchFrom p s with
    | matched => simp [(hp s).matched.mp hv]
    | exhausted => simp [(hp s).here hv, (hp s).behind hv]
    | mismatch => simpa [(hp s).mismatch hv] using hbehind
  refine ⟨hwhole.1, hwhole.2, ?_, fun _ hhead => absurd rfl hhead⟩
  intro he
  rw [behind_components]
  exact fun hb => hwhole.2 he (matches_components.mpr (.inr hb))

theorem judges_single (hk : Token.Single k) (hp : ∀ s, Judges p s)
    (hslash : p.head? = some .components → k = .char '/') (s : List Char) : Judges (k :: p) s := by
  cases s with
  | nil =>
      have hnone : ¬ Matches (k :: p) [] := by
        rw [matches_single hk]
        rintro ⟨c, b, hs, -⟩
        cases hs
      rw [← somewhere_nil] at hnone
      refine .of_somewhere ?_ fun _ => hnone
      rw [matchFrom_single_nil hk]
      simpa using somewhere_nil.not.mp hnone
  | cons c s =>
      have hmatches : Matches (k :: p) (c :: s) ↔ Token.admits c k = true ∧ Matches p s := by
        rw [matches_single hk]
        constructor
        · rintro ⟨d, b, hs, hadmits, h⟩
          obtain ⟨rfl, rfl⟩ := List.cons.inj hs
          exact ⟨hadmits, h⟩
        · rintro ⟨hadmits, h⟩
          exact ⟨c, s, rfl, hadmits, h⟩
      by_cases hc : Token.admits c k = true
      · refine .of_somewhere ?_ ?_
        · rw [matchFrom_single_cons hk, if_pos hc, hmatches, (hp s).matched]
          exact (and_iff_right hc).symm
        · intro he
          rw [matchFrom_single_cons hk, if_pos hc] at he
          rw [somewhere_cons, hmatches]
          rintro (⟨-, h⟩ | ⟨a, b, rfl, h⟩)
          · exact (hp s).here he h
          · obtain ⟨d, b, rfl, hd, hb⟩ := (matches_single hk).mp h
            -- a later start takes a character too, which is a slash if two stars are next
            by_cases hhead : p.head? = some .components
            · obtain rfl := hslash hhead
              obtain rfl : d = '/' := of_decide_eq_true hd
              exact (hp _).behind he (.inl ⟨a, b, rfl, hb⟩)
            · exact (hp _).anywhere he hhead ⟨a ++ [d], b, by simp, hb⟩
      · refine .of_somewhere ?_ ?_
        · rw [matchFrom_single_cons hk, if_neg hc, hmatches]
          simp [hc]
        · rw [matchFrom_single_cons hk, if_neg hc]
          nofun

theorem judges (hp : Divided p) (s : List Char) : Judges p s := by
  induction p generalizing s with
  | nil => exact judges_nil s
  | cons k p ih =>
      have htail : ∀ s, Judges p s := ih hp.tail
      have hnext : p.head? = some .components → k = .char '/' ∨ k = .components := by
        intro hhead
        cases p with
        | nil => cases hhead
        | cons k' p =>
            obtain rfl := Option.some.inj hhead
            exact (List.isChain_cons_cons.mp hp).1 rfl
      rcases token_cases k with rfl | rfl | hk
      · exact judges_run htail (fun hhead => by simpa using hnext hhead) s
      · exact judges_components htail s
      · exact judges_single hk htail (fun hhead => (hnext hhead).resolve_right hk.2) s

/-- The matcher says what a pattern stands for. -/
theorem accepts_iff (hp : Divided p) (s : String) : p.accepts s = true ↔ Matches p s.toList :=
  decide_eq_true_iff.trans (judges hp s.toList).matched

end Pattern

end LogTail.Glob
