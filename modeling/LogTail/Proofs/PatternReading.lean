import LogTail.Proofs.Coverage
import LogTail.Proofs.Selectors
import Mathlib.Data.List.TakeWhile

namespace LogTail.Glob.Pattern

variable {previous : Option Char} {cs t rest more : List Char} {acc acc' : List Token} {p : Pattern} {k : Token} {c : Char}

theorem bracketed_iff : bracketed t = some (cs, rest) ↔
    ∃ c a, t = c :: (a ++ ']' :: rest) ∧ ']' ∉ a ∧ cs = c :: a := by
  constructor
  · intro h
    cases t with
    | nil => cases h
    | cons c t =>
        rw [bracketed] at h
        split at h
        · cases h
        · next d rest' hdrop =>
            cases h
            have hd : d = ']' := by
              have hhead := List.head?_dropWhile_not (· ≠ ']') t
              rw [hdrop] at hhead
              simpa using hhead
            subst hd
            have hsplit := List.takeWhile_append_dropWhile (p := (· ≠ ']')) (l := t)
            rw [hdrop] at hsplit
            refine ⟨c, t.takeWhile (· ≠ ']'), by rw [hsplit], ?_, rfl⟩
            exact fun hmem => by simpa using List.mem_takeWhile_imp hmem
  · rintro ⟨c, a, rfl, ha, rfl⟩
    have hall : ∀ d ∈ a, decide (d ≠ ']') = true := fun d hd => decide_eq_true fun heq => ha (heq ▸ hd)
    have htake : (a ++ ']' :: rest).takeWhile (· ≠ ']') = a := by
      rw [List.takeWhile_append_of_pos hall]
      simp
    have hdrop : (a ++ ']' :: rest).dropWhile (· ≠ ']') = ']' :: rest := by
      rw [List.dropWhile_append_of_pos hall]
      simp
    rw [bracketed]
    simp only [hdrop, htake]

theorem bracketed_append (h : bracketed t = some (cs, rest)) (more : List Char) :
    bracketed (t ++ more) = some (cs, rest ++ more) := by
  obtain ⟨c, a, rfl, ha, rfl⟩ := bracketed_iff.mp h
  exact bracketed_iff.mpr ⟨c, a, by simp, ha, rfl⟩

inductive IsClass : Token → Prop
  | within (ms : List Member) : IsClass (.within ms)
  | except (ms : List Member) : IsClass (.except ms)

theorem charClass_plain (h : t.head? ≠ some '!') :
    charClass t = (bracketed t).map fun (cs, rest) => (.within (members cs), rest) := by
  rw [charClass.eq_def]
  split
  · exact absurd rfl h
  · rfl

theorem charClass_some (h : charClass t = some (k, rest)) :
    IsClass k ∧ (∃ front, t = front ++ rest ∧ front ≠ []) ∧ ∀ more, charClass (t ++ more) = some (k, rest ++ more) := by
  by_cases hbang : t.head? = some '!'
  · obtain ⟨u, rfl⟩ : ∃ u, t = '!' :: u := List.head?_eq_some_iff.mp hbang
    obtain ⟨⟨cs, rest⟩, hb, heq⟩ := Option.map_eq_some_iff.mp h
    cases heq
    have happend := bracketed_append hb
    obtain ⟨c, a, rfl, -, -⟩ := bracketed_iff.mp hb
    refine ⟨.except _, ⟨'!' :: c :: (a ++ [']']), by simp, by simp⟩, ?_⟩
    intro more
    rw [List.cons_append, charClass, happend more]
    rfl
  · rw [charClass_plain hbang] at h
    obtain ⟨⟨cs, rest⟩, hb, heq⟩ := Option.map_eq_some_iff.mp h
    cases heq
    have happend := bracketed_append hb
    obtain ⟨c, a, rfl, -, -⟩ := bracketed_iff.mp hb
    refine ⟨.within _, ⟨c :: (a ++ [']']), by simp, by simp⟩, ?_⟩
    intro more
    rw [charClass_plain (by simpa using hbang), happend more]
    rfl

def Begins (previous : Option Char) : Prop := previous = none ∨ previous = some '/'

/-- What is read behind a character, with the tokens so far, last first. -/
inductive Reads : Option Char → List Char → List Token → Pattern → Prop
  | done (previous : Option Char) (acc : List Token) : Reads previous [] acc acc.reverse
  | any {previous : Option Char} {t : List Char} {acc : List Token} {p : Pattern}
      (h : Reads (some '?') t (.any :: acc) p) : Reads previous ('?' :: t) acc p
  | run {previous : Option Char} {t : List Char} {acc : List Token} {p : Pattern} (hone : t.head? ≠ some '*')
      (h : Reads (some '*') t (.run :: acc) p) : Reads previous ('*' :: t) acc p
  | last {previous : Option Char} (hbegins : Begins previous) (acc : List Token) :
      Reads previous ['*', '*'] acc (addComponents acc).reverse
  | stars {previous : Option Char} {t : List Char} {acc : List Token} {p : Pattern} (hbegins : Begins previous)
      (h : Reads (some '/') t (addComponents acc) p) : Reads previous ('*' :: '*' :: '/' :: t) acc p
  | ofClass {previous : Option Char} {t rest : List Char} {acc : List Token} {p : Pattern} {k : Token}
      (hk : charClass t = some (k, rest)) (h : Reads (some ']') rest (k :: acc) p) : Reads previous ('[' :: t) acc p
  | char {previous : Option Char} {c : Char} {t : List Char} {acc : List Token} {p : Pattern}
      (hc : c ≠ '?' ∧ c ≠ '*' ∧ c ≠ '[') (h : Reads (some c) t (.char c :: acc) p) : Reads previous (c :: t) acc p

theorem readFrom_char (hc : c ≠ '?' ∧ c ≠ '*' ∧ c ≠ '[') (fuel pos : Nat) (previous : Option Char) (t : List Char)
    (acc : List Token) :
    readFrom (fuel + 1) pos previous (c :: t) acc = readFrom fuel (pos + 1) (some c) t (.char c :: acc) := by
  rw [readFrom]
  · exact hc.1
  · exact hc.2.1
  · exact hc.2.2

theorem takeWhile_star (hone : t.head? ≠ some '*') : t.takeWhile (· = '*') = [] ∧ t.dropWhile (· = '*') = t := by
  cases t with
  | nil => exact ⟨rfl, rfl⟩
  | cons c t => exact ⟨List.takeWhile_cons_of_neg (by simpa using hone), List.dropWhile_cons_of_neg (by simpa using hone)⟩

theorem readFrom_run (hone : t.head? ≠ some '*') (fuel pos : Nat) (previous : Option Char) (acc : List Token) :
    readFrom (fuel + 1) pos previous ('*' :: t) acc = readFrom fuel (pos + 1) (some '*') t (.run :: acc) := by
  rw [readFrom, (takeWhile_star hone).1, (takeWhile_star hone).2]
  rfl

theorem readFrom_last (hbegins : Begins previous) (fuel pos : Nat) (acc : List Token) :
    readFrom (fuel + 1) pos previous ['*', '*'] acc = .ok (addComponents acc).reverse := by
  rw [readFrom]
  exact if_pos hbegins

theorem readFrom_stars (hbegins : Begins previous) (fuel pos : Nat) (t : List Char) (acc : List Token) :
    readFrom (fuel + 1) pos previous ('*' :: '*' :: '/' :: t) acc =
      readFrom fuel (pos + 3) (some '/') t (addComponents acc) := by
  rw [readFrom]
  exact if_pos hbegins

theorem stars_of_readFrom {fuel pos : Nat} (h : readFrom (fuel + 1) pos previous ('*' :: '*' :: t) acc = .ok p) :
    Begins previous ∧ ((t = [] ∧ p = (addComponents acc).reverse) ∨
      ∃ u, t = '/' :: u ∧ readFrom fuel (pos + 3) (some '/') u (addComponents acc) = .ok p) := by
  rw [readFrom] at h
  split at h
  · cases h
  next hcount =>
  split at h
  · next hcount' => simp at hcount'
  split at h
  · next hbegins =>
      refine ⟨hbegins, ?_⟩
      have hone : t.head? ≠ some '*' := by
        intro hone
        obtain ⟨u, rfl⟩ := List.head?_eq_some_iff.mp hone
        simp at hcount
      have hrest : ('*' :: t).dropWhile (· = '*') = t := by
        rw [List.dropWhile_cons_of_pos (by rfl), (takeWhile_star hone).2]
      rw [hrest] at h
      split at h
      · exact .inl ⟨rfl, (Except.ok.inj h).symm⟩
      · exact .inr ⟨_, rfl, h⟩
      · cases h
  · cases h

theorem Reads.read (h : Reads previous cs acc p) {fuel : Nat} (hfuel : cs.length < fuel) (pos : Nat) :
    readFrom fuel pos previous cs acc = .ok p := by
  induction h generalizing fuel pos with
  | done previous acc =>
      cases fuel with
      | zero => rfl
      | succ fuel => rfl
  | any h ih =>
      cases fuel with
      | zero => exact absurd hfuel (Nat.not_lt_zero _)
      | succ fuel => exact ih (Nat.lt_of_succ_lt_succ hfuel) _
  | run hone h ih =>
      cases fuel with
      | zero => exact absurd hfuel (Nat.not_lt_zero _)
      | succ fuel =>
          rw [readFrom_run hone]
          exact ih (Nat.lt_of_succ_lt_succ hfuel) _
  | last hbegins acc =>
      cases fuel with
      | zero => exact absurd hfuel (Nat.not_lt_zero _)
      | succ fuel => exact readFrom_last hbegins fuel pos acc
  | stars hbegins h ih =>
      cases fuel with
      | zero => exact absurd hfuel (Nat.not_lt_zero _)
      | succ fuel =>
          rw [readFrom_stars hbegins]
          refine ih ?_ _
          simp only [List.length_cons] at hfuel
          omega
  | ofClass hk h ih =>
      cases fuel with
      | zero => exact absurd hfuel (Nat.not_lt_zero _)
      | succ fuel =>
          obtain ⟨-, ⟨front, rfl, -⟩, -⟩ := charClass_some hk
          rw [readFrom, hk]
          refine ih ?_ _
          simp only [List.length_cons, List.length_append] at hfuel
          omega
  | char hc h ih =>
      cases fuel with
      | zero => exact absurd hfuel (Nat.not_lt_zero _)
      | succ fuel =>
          rw [readFrom_char hc]
          exact ih (Nat.lt_of_succ_lt_succ hfuel) _

/-- Whatever is read, the relation says. -/
theorem reads_of_readFrom {fuel pos : Nat} (hfuel : cs.length < fuel)
    (h : readFrom fuel pos previous cs acc = .ok p) : Reads previous cs acc p := by
  induction fuel generalizing pos previous cs acc with
  | zero => exact absurd hfuel (Nat.not_lt_zero _)
  | succ fuel ih =>
      cases cs with
      | nil =>
          cases h
          exact .done previous acc
      | cons c t =>
          have hrest : t.length < fuel := Nat.lt_of_succ_lt_succ hfuel
          by_cases hany : c = '?'
          · subst hany
            exact .any (ih hrest h)
          by_cases hclass : c = '['
          · subst hclass
            rw [readFrom] at h
            split at h
            · cases h
            · next k rest hk =>
                obtain ⟨-, ⟨front, rfl, -⟩, -⟩ := charClass_some hk
                refine .ofClass hk (ih ?_ h)
                rw [List.length_append] at hrest
                omega
          by_cases hstar : c = '*'
          · subst hstar
            by_cases hone : t.head? = some '*'
            · obtain ⟨t, rfl⟩ := List.head?_eq_some_iff.mp hone
              obtain ⟨hbegins, ⟨rfl, rfl⟩ | ⟨u, rfl, hu⟩⟩ := stars_of_readFrom h
              · exact .last hbegins acc
              · refine .stars hbegins (ih ?_ hu)
                simp only [List.length_cons] at hrest
                omega
            · rw [readFrom_run hone] at h
              exact .run hone (ih hrest h)
          rw [readFrom_char ⟨hany, hstar, hclass⟩] at h
          exact .char ⟨hany, hstar, hclass⟩ (ih hrest h)

theorem ofChars_ok : ofChars cs = .ok p ↔ Reads none cs [] p :=
  ⟨reads_of_readFrom (Nat.lt_succ_self _), fun h => h.read (Nat.lt_succ_self _) 0⟩

theorem Inner.cons (hk : k ≠ .components ∧ k ≠ .char '/') (h : Inner p) : Inner (k :: p) :=
  ⟨by simp [h.1, Ne.symm hk.1], by simp [h.2, Ne.symm hk.2]⟩

theorem not_begins (h : c ≠ '/') : ¬ Begins (some c) := by
  simp [Begins, h]

def Ends (more : List Char) : Prop := more = [] ∨ more.head? = some '/'

/-- A component other than two stars is read alone as it is read in front of others and behind them. -/
structure ReadsAlone (cs : List Char) (acc : List Token) (p own : Pattern) : Prop where
  tokens : p = acc.reverse ++ own
  inner : Inner own
  between : ∀ {previous : Option Char} {acc : List Token} {more : List Char} {q : Pattern}, Ends more →
    (∀ previous, Reads previous more (own.reverse ++ acc) q) → Reads previous (cs ++ more) acc q

theorem Reads.alone (h : Reads previous cs acc p) (hcs : '/' ∉ cs) (hplain : Begins previous → cs ≠ ['*', '*']) :
    ∃ own, ReadsAlone cs acc p own := by
  induction h with
  | done previous acc =>
      exact ⟨[], (List.append_nil _).symm, ⟨List.not_mem_nil, List.not_mem_nil⟩, fun _ hmore => hmore _⟩
  | any h ih =>
      rw [List.mem_cons, not_or] at hcs
      obtain ⟨own, hown⟩ := ih hcs.2 fun hb => absurd hb (not_begins (by decide))
      refine ⟨.any :: own, by simp [hown.tokens], hown.inner.cons (by simp), fun hends hmore => ?_⟩
      exact .any (hown.between hends (by simpa using hmore))
  | @run previous t acc p hone h ih =>
      rw [List.mem_cons, not_or] at hcs
      obtain ⟨own, hown⟩ := ih hcs.2 fun hb => absurd hb (not_begins (by decide))
      refine ⟨.run :: own, by simp [hown.tokens], hown.inner.cons (by simp), fun {previous acc more q} hends hmore => ?_⟩
      refine .run ?_ (hown.between hends (by simpa using hmore))
      cases t with
      | nil => rcases hends with rfl | hslash <;> simp [*]
      | cons c t => exact hone
  | last hbegins acc => exact absurd rfl (hplain hbegins)
  | stars hbegins h _ => exact absurd (by simp) hcs
  | @ofClass previous t rest acc p k hk h ih =>
      obtain ⟨hclass, ⟨front, rfl, -⟩, happend⟩ := charClass_some hk
      rw [List.mem_cons, List.mem_append, not_or, not_or] at hcs
      obtain ⟨own, hown⟩ := ih hcs.2.2 fun hb => absurd hb (not_begins (by decide))
      refine ⟨k :: own, by simp [hown.tokens], hown.inner.cons ?_, fun {previous acc more q} hends hmore => ?_⟩
      · cases hclass <;> simp
      · exact .ofClass (happend more) (hown.between hends (by simpa using hmore))
  | @char previous c t acc p hc h ih =>
      rw [List.mem_cons, not_or] at hcs
      obtain ⟨own, hown⟩ := ih hcs.2 fun hb => absurd hb (not_begins (Ne.symm hcs.1))
      refine ⟨.char c :: own, by simp [hown.tokens], hown.inner.cons (by simp [Ne.symm hcs.1]), fun hends hmore => ?_⟩
      exact .char hc (hown.between hends (by simpa using hmore))

theorem component_cases (hcs : '/' ∉ cs) (h : ofChars cs = .ok p) :
    (cs = ['*', '*'] ∧ p = [.components]) ∨ (p.isRecursive = false ∧ ReadsAlone cs [] p p) := by
  by_cases hstars : cs = ['*', '*']
  · subst hstars
    cases h
    exact .inl ⟨rfl, rfl⟩
  · obtain ⟨own, hown⟩ := (ofChars_ok.mp h).alone hcs fun _ => hstars
    obtain rfl : p = own := hown.tokens
    exact .inr ⟨by simpa [isRecursive] using hown.inner.1, hown⟩

theorem isComponent_ofChars (hcs : '/' ∉ cs) (h : ofChars cs = .ok p) : IsComponent p := by
  rcases component_cases hcs h with ⟨-, rfl⟩ | ⟨-, halone⟩
  · exact .stars
  · exact .inner halone.inner

variable {pieces : List (List Char)} {ps : List Pattern} {piece : List Char} {q : Pattern}

def fronts (pieces : List (List Char)) : List Char := pieces.flatMap (· ++ ['/'])

def gather (acc : List Token) (ps : List Pattern) : List Token :=
  ps.foldl (fun acc p => if p.isRecursive then addComponents acc else .char '/' :: (p.reverse ++ acc)) acc

theorem intercalate_concat (pieces : List (List Char)) (piece : List Char) :
    List.intercalate ['/'] (pieces ++ [piece]) = fronts pieces ++ piece := by
  induction pieces with
  | nil => exact List.intercalate_singleton
  | cons cs pieces ih =>
      rw [fronts, List.flatMap_cons, ← fronts, List.append_assoc, ← ih]
      cases pieces with
      | nil => simp
      | cons ds pieces => simp [List.intercalate_cons_cons]

theorem reads_fronts (h : List.Forall₂ (fun cs p => ofChars cs = .ok p) pieces ps) (hslash : ∀ cs ∈ pieces, '/' ∉ cs)
    (hbegins : Begins previous)
    (hrest : ∀ previous, Begins previous → Reads previous rest (gather acc ps) q) :
    Reads previous (fronts pieces ++ rest) acc q := by
  induction h generalizing previous acc with
  | nil => exact hrest previous hbegins
  | @cons cs p pieces ps hp h ih =>
      have hcs := hslash cs List.mem_cons_self
      have htail {acc : List Token} (hrest : ∀ previous, Begins previous → Reads previous rest (gather acc ps) q) :
          Reads (some '/') (fronts pieces ++ rest) acc q :=
        ih (fun es hes => hslash es (List.mem_cons_of_mem _ hes)) (.inr rfl) hrest
      have htext : fronts (cs :: pieces) ++ rest = cs ++ '/' :: (fronts pieces ++ rest) := by simp [fronts]
      rw [gather, List.foldl_cons] at hrest
      rw [htext]
      rcases component_cases hcs hp with ⟨rfl, rfl⟩ | ⟨hrec, halone⟩
      · exact .stars hbegins (htail hrest)
      · rw [hrec, if_neg Bool.false_ne_true] at hrest
        exact halone.between (.inr rfl) fun previous => .char (by decide) (htail hrest)

def lastly (acc : List Token) (p : Pattern) : List Token := if p.isRecursive then addComponents acc else p.reverse ++ acc

theorem reads_last (h : ofChars piece = .ok p) (hslash : '/' ∉ piece) (hbegins : Begins previous) :
    Reads previous piece acc (lastly acc p).reverse := by
  rw [lastly]
  rcases component_cases hslash h with ⟨rfl, rfl⟩ | ⟨hrec, halone⟩
  · exact .last hbegins acc
  · rw [hrec, if_neg Bool.false_ne_true, ← List.append_nil piece]
    exact halone.between (.inl rfl) fun previous => .done previous _

def frontTokens (ps : List Pattern) : Pattern := ps.flatMap fun p => if p.isRecursive then p else p ++ [.char '/']

theorem frontTokens_cons (p : Pattern) (ps : List Pattern) :
    frontTokens (p :: ps) = (if p.isRecursive then p else p ++ [.char '/']) ++ frontTokens ps := by
  rw [frontTokens, List.flatMap_cons, ← frontTokens]

theorem joined_concat (ps : List Pattern) (p : Pattern) : joined (ps ++ [p]) = frontTokens ps ++ p := by
  induction ps with
  | nil => rfl
  | cons q ps ih =>
      rw [frontTokens_cons, List.append_assoc, ← ih]
      cases ps with
      | nil =>
          rw [List.nil_append, List.cons_append, List.nil_append, joined]
          split <;> simp [joined, *]
      | cons r ps =>
          rw [List.cons_append, List.cons_append, joined, ← List.cons_append]
          split <;> simp

theorem matches_addComponents (acc : List Token) (q : Pattern) (s : List Char) :
    Matches ((addComponents acc).reverse ++ q) s ↔ Matches (acc.reverse ++ .components :: q) s := by
  rw [addComponents.eq_def]
  split
  · next k acc =>
      rw [List.reverse_cons, List.append_assoc, List.append_assoc, List.singleton_append, List.singleton_append]
      exact (matches_congr (fun s => matches_components_twice) _ s).symm
  · simp

theorem matches_gather (hps : ∀ p ∈ ps, IsComponent p) (acc : List Token) (q : Pattern) (s : List Char) :
    Matches ((gather acc ps).reverse ++ q) s ↔ Matches (acc.reverse ++ frontTokens ps ++ q) s := by
  induction ps generalizing acc with
  | nil => simp [gather, frontTokens]
  | cons p ps ih =>
      have hp := hps p List.mem_cons_self
      rw [gather, List.foldl_cons, ← gather, ih fun q hq => hps q (List.mem_cons_of_mem _ hq), frontTokens_cons]
      cases hrec : p.isRecursive with
      | true =>
          obtain rfl := hp.recursive hrec
          simp only [if_true, List.append_assoc]
          rw [matches_addComponents]
          rfl
      | false => simp

theorem matches_lastly (hp : IsComponent p) (acc : List Token) (s : List Char) :
    Matches (lastly acc p).reverse s ↔ Matches (acc.reverse ++ p) s := by
  rw [lastly]
  cases hrec : p.isRecursive with
  | true =>
      obtain rfl := hp.recursive hrec
      simpa using matches_addComponents acc [] s
  | false => simp

structure Ready (acc : List Token) : Prop where
  divided : Divided acc.reverse
  slash : ∀ k, acc.head? = some k → k = .char '/' ∨ k = .components

theorem divided_snoc (h : Divided acc.reverse)
    (hk : k = .components → ∀ k', acc.head? = some k' → k' = .char '/' ∨ k' = .components) :
    Divided (k :: acc).reverse := by
  rw [List.reverse_cons, Divided, List.isChain_append]
  refine ⟨h, List.isChain_singleton k, ?_⟩
  intro x hx y hy hcomponents
  obtain rfl : k = y := by simpa using hy
  rw [List.getLast?_reverse] at hx
  exact hk hcomponents x hx

theorem Ready.addComponents (h : Ready acc) : Ready (addComponents acc) := by
  rw [Pattern.addComponents.eq_def]
  split
  · exact h
  · exact ⟨divided_snoc h.divided fun _ => h.slash, by simp⟩

theorem Ready.inner (h : Ready acc) (hp : Inner p) : Divided (p.reverse ++ acc).reverse := by
  induction p using List.reverseRecOn with
  | nil => exact h.divided
  | append_singleton p k ih =>
      have hk : k ≠ .components := fun heq => hp.1 (by simp [heq])
      have hreverse : (p ++ [k]).reverse ++ acc = k :: (p.reverse ++ acc) := by simp
      rw [hreverse]
      refine divided_snoc (ih ⟨?_, ?_⟩) fun heq => absurd heq hk
      · exact fun hmem => hp.1 (List.mem_append_left _ hmem)
      · exact fun hmem => hp.2 (List.mem_append_left _ hmem)

theorem Ready.gather (h : Ready acc) (hps : ∀ p ∈ ps, IsComponent p) : Ready (gather acc ps) := by
  induction ps generalizing acc with
  | nil => exact h
  | cons p ps ih =>
      rw [Pattern.gather, List.foldl_cons, ← Pattern.gather]
      refine ih ?_ fun q hq => hps q (List.mem_cons_of_mem _ hq)
      split
      · exact h.addComponents
      · next hrec =>
          have hinner := (hps p List.mem_cons_self).flat (Bool.eq_false_iff.mpr hrec)
          exact ⟨divided_snoc (h.inner hinner) (by simp), by simp⟩

theorem Ready.lastly (h : Ready acc) (hp : IsComponent p) : Divided (lastly acc p).reverse := by
  rw [Pattern.lastly]
  split
  · exact h.addComponents.divided
  · next hrec => exact h.inner (hp.flat (Bool.eq_false_iff.mpr hrec))

variable {text : String} {top : Bool}

def root (top : Bool) : List Char := if top then ['/'] else []

def rootToken (top : Bool) : Pattern := if top then [.char '/'] else []

theorem reads_root (h : ∀ previous, Begins previous → Reads previous cs (rootToken top) p) : Reads none (root top ++ cs) [] p := by
  cases top with
  | true => exact .char (by decide) (h _ (.inr rfl))
  | false => exact h none (.inl rfl)

theorem ready_root (top : Bool) : Ready (rootToken top) := by
  cases top with
  | true => exact ⟨List.isChain_singleton _, by simp [rootToken]⟩
  | false => exact ⟨List.isChain_nil, by simp [rootToken]⟩

theorem reverse_rootToken (top : Bool) : (rootToken top).reverse = rootToken top := by
  cases top <;> rfl

end LogTail.Glob.Pattern

namespace LogTail.Glob

open Pattern

variable {text : String} {ps : List Pattern}

variable {top slash : Bool} {ws : List (List Char)}

/-- How a text is made of pieces that are read as the patterns of its components. -/
structure MadeOf (text : String) (top slash : Bool) (ws : List (List Char)) (ps : List Pattern) : Prop where
  text : text.toList = root top ++ List.intercalate ['/'] ws ++ (if slash then ['/'] else [])
  read : List.Forall₂ (fun cs p => ofChars cs = .ok p) ws ps
  plain : ∀ cs ∈ ws, '/' ∉ cs ∧ cs ≠ []
  nonempty : ws ≠ []
  filled : [] ∉ ps

def compound (top slash : Bool) (ps : List Pattern) : Pattern :=
  rootToken top ++ if slash || ps.getLast?.any isRecursive then frontTokens ps else joined ps

theorem fronts_eq (hne : ws ≠ []) :
    fronts ws = List.intercalate ['/'] ws ++ ['/'] := by
  obtain ⟨init, piece, rfl⟩ := (List.eq_nil_or_concat' ws).resolve_left hne
  rw [intercalate_concat, fronts, List.flatMap_append, ← fronts]
  simp

theorem pieces_spec {cs : List Char} (hcs : cs ≠ []) :
    pieces cs ≠ [] ∧ (∀ piece ∈ pieces cs, '/' ∉ piece) ∧
      cs = List.intercalate ['/'] (pieces cs) ++ (if cs.getLast? = some '/' then ['/'] else []) := by
  have hsplit := Path.intercalate_split cs
  rw [pieces]
  split
  · next hlast =>
      obtain ⟨init, hinit⟩ := List.getLast?_eq_some_iff.mp hlast
      have hplain : ∀ piece ∈ init, '/' ∉ piece := fun piece hpiece =>
        Path.slash_of_mem_split (by rw [hinit]; exact List.mem_append_left _ hpiece)
      rw [hinit, intercalate_concat, List.append_nil] at hsplit
      have hne : init ≠ [] := by
        rintro rfl
        exact hcs hsplit.symm
      rw [hinit, List.dropLast_concat]
      refine ⟨hne, hplain, ?_⟩
      rw [← hsplit, fronts_eq hne]
      simp
  · next hlast =>
      refine ⟨Path.split_ne_nil cs, fun piece => Path.slash_of_mem_split, ?_⟩
      obtain ⟨init, piece, hinit⟩ := (List.eq_nil_or_concat' _).resolve_left (Path.split_ne_nil cs)
      have hpiece : piece ≠ [] := by
        rintro rfl
        exact hlast (by rw [hinit, List.getLast?_concat])
      have hplain : '/' ∉ piece := Path.slash_of_mem_split (by rw [hinit]; simp)
      have hend : cs.getLast? ≠ some '/' := by
        rw [← hsplit, hinit, intercalate_concat, List.getLast?_append_of_ne_nil _ hpiece]
        exact fun hslash => hplain (List.mem_of_mem_getLast? hslash)
      rw [if_neg hend, List.append_nil, hsplit]

theorem madeOf_componentPatterns (h : componentPatterns text = .ok ps) (hne : [] ∉ ps) :
    ∃ ws, MadeOf text (text.toList.head? = some '/') (text.toList.getLast? = some '/') ws ps := by
  rw [componentPatterns] at h
  generalize htext : text.toList = cs at h ⊢
  have hroot : cs = root (decide (cs.head? = some '/')) ++ if cs.head? = some '/' then cs.drop 1 else cs := by
    cases cs with
    | nil => rfl
    | cons c cs =>
        by_cases hc : c = '/'
        · simp [root, hc]
        · simp [root, hc]
  generalize (if cs.head? = some '/' then cs.drop 1 else cs) = rest at h hroot
  by_cases hrest : rest = []
  · subst hrest
    cases h
    exact absurd List.mem_cons_self hne
  · rw [if_neg (by simpa using hrest)] at h
    obtain ⟨hpieces, hplain, hjoin⟩ := pieces_spec hrest
    have hread := mapM_eq_ok.mp h
    have hends : cs.getLast? = rest.getLast? := by
      rw [hroot, List.getLast?_append_of_ne_nil _ hrest]
    refine ⟨pieces rest, ?_, hread, fun piece hpiece => ⟨hplain piece hpiece, ?_⟩, hpieces, hne⟩
    · rw [htext, hends, List.append_assoc]
      simp only [decide_eq_true_eq, ← hjoin]
      exact hroot
    · rintro rfl
      obtain ⟨p, hp, hempty⟩ := exists_of_forall₂ hread [] hpiece
      cases hempty
      exact hne hp

theorem MadeOf.isComponent (h : MadeOf text top slash ws ps) : ∀ p ∈ ps, IsComponent p := by
  intro p hp
  obtain ⟨piece, hpiece, hread⟩ := exists_of_forall₂ h.read.flip p hp
  exact isComponent_ofChars (h.plain piece hpiece).1 hread

/-- A pattern of valid components is valid, and stands for what its components stand for, put together. -/
theorem MadeOf.ofText (h : MadeOf text top slash ws ps) :
    ∃ p, Pattern.ofText text = .ok p ∧ Divided p ∧ ∀ s, Matches p s ↔ Matches (compound top slash ps) s := by
  have hcomponents := h.isComponent
  have hready := ready_root top
  rw [Pattern.ofText, h.text, List.append_assoc, compound]
  cases hslash : slash with
  | true =>
      -- the last component is read like all others
      have hread (previous : Option Char) (hbegins : Begins previous) :
          Reads previous (fronts ws ++ []) (rootToken top) (gather (rootToken top) ps).reverse :=
        reads_fronts h.read (fun cs hcs => (h.plain cs hcs).1) hbegins fun previous _ => .done previous _
      have hgather := matches_gather hcomponents (rootToken top) []
      refine ⟨(gather (rootToken top) ps).reverse, ofChars_ok.mpr (reads_root fun previous hbegins => ?_), ?_, ?_⟩
      · rw [if_pos rfl, ← fronts_eq h.nonempty, ← List.append_nil (fronts ws)]
        exact hread previous hbegins
      · exact (hready.gather hcomponents).divided
      · simpa [reverse_rootToken] using hgather
  | false =>
      obtain ⟨init, piece, rfl⟩ := (List.eq_nil_or_concat' ws).resolve_left h.nonempty
      obtain ⟨ps, p, _, rfl, hinit, hlast, ⟨⟩⟩ := forall₂_split h.read
      have hps : ∀ q ∈ ps, IsComponent q := fun q hq => hcomponents q (List.mem_append_left _ hq)
      have hp : IsComponent p := hcomponents p (by simp)
      have hpiece := (h.plain piece (by simp)).1
      refine ⟨(lastly (gather (rootToken top) ps) p).reverse, ofChars_ok.mpr (reads_root fun previous hbegins => ?_),
        ?_, ?_⟩
      · rw [if_neg Bool.false_ne_true, List.append_nil, intercalate_concat]
        refine reads_fronts hinit (fun cs hcs => (h.plain cs (List.mem_append_left _ hcs)).1) hbegins ?_
        exact fun previous hbegins => reads_last hlast hpiece hbegins
      · exact (hready.gather hps).lastly hp
      · intro s
        have htokens : (if (false || (ps ++ [p]).getLast?.any isRecursive) = true then frontTokens (ps ++ [p])
            else joined (ps ++ [p])) = frontTokens ps ++ p := by
          rw [joined_concat, List.getLast?_concat, Option.any_some, Bool.false_or]
          split
          · next hrec => simp [frontTokens, hrec]
          · rfl
        rw [matches_lastly hp, matches_gather hps, reverse_rootToken, htokens, List.append_assoc]

end LogTail.Glob
