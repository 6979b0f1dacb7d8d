import LogTail.Proofs.Words
import Mathlib.Data.List.TakeWhile

namespace LogTail.Json.Lexeme

theorem digits_split (bs : Bytes) :
    bs = bs.takeWhile isDigit ++ bs.dropWhile isDigit ∧
      (∀ b ∈ bs.takeWhile isDigit, isDigit b = true) ∧
      ∀ b t, bs.dropWhile isDigit = b :: t → isDigit b = false := by
  refine ⟨List.takeWhile_append_dropWhile.symm, fun b hb => List.mem_takeWhile_imp hb, ?_⟩
  intro b t h
  have hhead := List.head?_dropWhile_not isDigit bs
  rw [h] at hhead
  simpa using hhead

variable {minus below : Bool} {whole bs r : Bytes} {fraction : Option Bytes} {v : Except Fault Number}

theorem number'_some {exponent : Option (Bool × Bytes)} {r' : Bytes}
    (h : number' minus whole fraction exponent r = ⟨v, none, r'⟩) :
    r' = r ∧ ∀ rest, number' minus whole fraction exponent rest = ⟨v, none, rest⟩ := by
  unfold number' at h ⊢
  split at h <;> cases h <;> exact ⟨rfl, fun _ => rfl⟩

def exponentDigits (minus : Bool) (whole : Bytes) (fraction : Option Bytes) (below : Bool) (bs : Bytes) :
    Lexeme Number :=
  if (bs.takeWhile isDigit).isEmpty then noDigit bs
  else number' minus whole fraction (some (below, bs.takeWhile isDigit)) (bs.dropWhile isDigit)

theorem exponentDigits_word (h : exponentDigits minus whole fraction below bs = ⟨v, none, r⟩) :
    ∃ b x, bs = b :: x ++ r ∧ isDigit b = true ∧
      ∀ rest, Stops rest → exponentDigits minus whole fraction below (b :: x ++ rest) = ⟨v, none, rest⟩ := by
  obtain ⟨hsplit, hdigits, -⟩ := digits_split bs
  unfold exponentDigits at h
  cases hds : bs.takeWhile isDigit with
  | nil => simp [hds, noDigit, failed] at h
  | cons b x =>
      rw [hds] at h hsplit hdigits
      obtain ⟨rfl, hall⟩ := number'_some h
      refine ⟨b, x, hsplit, hdigits b (by simp), ?_⟩
      intro rest hrest
      obtain ⟨htake, hdrop⟩ := takeWhile_append hdigits fun c t hc => (hrest c t hc).1
      rw [exponentDigits, htake, hdrop]
      exact hall rest

theorem exponentPart_minus {b : UInt8} (hb : b = 101 ∨ b = 69) (t : Bytes) :
    exponentPart minus whole fraction (b :: 45 :: t) = exponentDigits minus whole fraction true t := by
  simp [exponentPart, hb, exponentDigits]

theorem exponentPart_plus {b : UInt8} (hb : b = 101 ∨ b = 69) (t : Bytes) :
    exponentPart minus whole fraction (b :: 43 :: t) = exponentDigits minus whole fraction false t := by
  simp [exponentPart, hb, exponentDigits]

theorem exponentPart_bare {b : UInt8} (hb : b = 101 ∨ b = 69) {t : Bytes} (hminus : t.head? ≠ some 45)
    (hplus : t.head? ≠ some 43) :
    exponentPart minus whole fraction (b :: t) = exponentDigits minus whole fraction false t := by
  simp [exponentPart, hb, exponentDigits, hminus, hplus]

theorem exponentPart_none (h : ∀ b t, bs = b :: t → b ≠ 101 ∧ b ≠ 69) :
    exponentPart minus whole fraction bs = number' minus whole fraction none bs := by
  cases bs with
  | nil => rfl
  | cons b t =>
      obtain ⟨he, hE⟩ := h b t rfl
      simp [exponentPart, he, hE]

theorem exponentPart_cases (minus : Bool) (whole : Bytes) (fraction : Option Bytes) (bs : Bytes) :
    (∀ b t, bs = b :: t → b ≠ 101 ∧ b ≠ 69) ∨
    ∃ b sign below t, bs = b :: (sign ++ t) ∧ (b = 101 ∨ b = 69) ∧
      exponentPart minus whole fraction bs = exponentDigits minus whole fraction below t ∧
      ∀ d u, isDigit d = true → exponentPart minus whole fraction (b :: (sign ++ d :: u)) =
        exponentDigits minus whole fraction below (d :: u) := by
  by_cases hletter : ∃ b t, bs = b :: t ∧ (b = 101 ∨ b = 69)
  · right
    obtain ⟨b, t, rfl, hb⟩ := hletter
    by_cases hminus : ∃ u, t = 45 :: u
    · obtain ⟨u, rfl⟩ := hminus
      exact ⟨b, [45], true, u, rfl, hb, exponentPart_minus hb u, fun d u _ => exponentPart_minus hb _⟩
    by_cases hplus : ∃ u, t = 43 :: u
    · obtain ⟨u, rfl⟩ := hplus
      exact ⟨b, [43], false, u, rfl, hb, exponentPart_plus hb u, fun d u _ => exponentPart_plus hb _⟩
    refine ⟨b, [], false, t, rfl, hb, exponentPart_bare hb ?_ ?_, ?_⟩
    · simpa [List.head?_eq_some_iff] using hminus
    · simpa [List.head?_eq_some_iff] using hplus
    · intro d u hd
      refine exponentPart_bare hb ?_ ?_ <;> rintro heq <;> cases heq <;> cases hd
  · left
    intro b t hbs
    rw [← not_or]
    exact fun hb => hletter ⟨b, t, hbs, hb⟩

theorem exponentPart_word (h : exponentPart minus whole fraction bs = ⟨v, none, r⟩) :
    ∃ x, bs = x ++ r ∧ (∀ b t, x = b :: t → b = 101 ∨ b = 69) ∧
      ∀ rest, Stops rest → exponentPart minus whole fraction (x ++ rest) = ⟨v, none, rest⟩ := by
  rcases exponentPart_cases minus whole fraction bs with hnone | ⟨b, sign, below, t, rfl, hb, hpart, hall⟩
  · rw [exponentPart_none hnone] at h
    obtain ⟨rfl, hall⟩ := number'_some h
    refine ⟨[], rfl, by simp, ?_⟩
    intro rest hrest
    exact (exponentPart_none fun b t hb => (hrest b t hb).2.2).trans (hall rest)
  · rw [hpart] at h
    obtain ⟨d, x, rfl, hd, hword⟩ := exponentDigits_word h
    refine ⟨b :: (sign ++ d :: x), by simp, ?_, ?_⟩
    · intro c s hc
      cases hc
      exact hb
    · intro rest hrest
      have htext : b :: (sign ++ d :: x) ++ rest = b :: (sign ++ d :: (x ++ rest)) := by simp
      rw [htext, hall d _ hd]
      exact hword rest hrest

theorem fractionPart_point (t : Bytes) :
    fractionPart minus whole (46 :: t) =
      if (t.takeWhile isDigit).isEmpty then noDigit t
      else exponentPart minus whole (some (t.takeWhile isDigit)) (t.dropWhile isDigit) := rfl

theorem fractionPart_none (h : ∀ b t, bs = b :: t → b ≠ 46) :
    fractionPart minus whole bs = exponentPart minus whole none bs := by
  unfold fractionPart
  split
  · next t => exact absurd rfl (h 46 t rfl)
  · rfl

theorem fractionPart_word (h : fractionPart minus whole bs = ⟨v, none, r⟩) :
    ∃ x, bs = x ++ r ∧ (∀ b t, x = b :: t → isDigit b = false) ∧
      ∀ rest, Stops rest → fractionPart minus whole (x ++ rest) = ⟨v, none, rest⟩ := by
  have hletters {b : UInt8} (hb : b = 101 ∨ b = 69) : isDigit b = false ∧ b ≠ 46 := by
    rcases hb with rfl | rfl <;> decide
  by_cases hpoint : ∃ t, bs = 46 :: t
  · obtain ⟨t, rfl⟩ := hpoint
    obtain ⟨hsplit, hdigits, -⟩ := digits_split t
    rw [fractionPart_point] at h
    split at h
    · cases h
    · next hds =>
        obtain ⟨x, hx, hhead, hall⟩ := exponentPart_word h
        refine ⟨46 :: (t.takeWhile isDigit ++ x), ?_, ?_, ?_⟩
        · rw [List.cons_append, List.append_assoc, ← hx, ← hsplit]
        · intro b s hb
          cases hb
          decide
        · intro rest hrest
          obtain ⟨htake, hdrop⟩ := takeWhile_append (b := x ++ rest) hdigits fun c s hc => by
            cases x with
            | nil => exact (hrest c s hc).1
            | cons d x =>
                cases hc
                exact (hletters (hhead c x rfl)).1
          rw [List.cons_append, List.append_assoc, fractionPart_point, htake, hdrop, if_neg hds]
          exact hall rest hrest
  · rw [fractionPart_none fun b t hbs hb => hpoint ⟨t, by rw [hbs, hb]⟩] at h
    obtain ⟨x, rfl, hhead, hall⟩ := exponentPart_word h
    refine ⟨x, rfl, fun b t hb => (hletters (hhead b t hb)).1, ?_⟩
    intro rest hrest
    refine (fractionPart_none fun b t hb => ?_).trans (hall rest hrest)
    cases x with
    | nil => exact (hrest b t hb).2.1
    | cons d x =>
        cases hb
        exact (hletters (hhead b x rfl)).2

theorem unsigned_word (h : unsigned minus bs = ⟨v, none, r⟩) :
    ∃ b x, bs = b :: x ++ r ∧ isDigit b = true ∧
      ∀ rest, Stops rest → unsigned minus (b :: x ++ rest) = ⟨v, none, rest⟩ := by
  obtain ⟨hsplit, hdigits, -⟩ := digits_split bs
  unfold unsigned at h
  dsimp only at h
  split at h
  · cases h
  · cases h
  · next hnone hzero =>
      obtain ⟨x, hx, hhead, hall⟩ := fractionPart_word h
      cases hds : bs.takeWhile isDigit with
      | nil => exact absurd hds hnone
      | cons b ds =>
          rw [hds] at hsplit hdigits hzero hall
          rw [hx] at hsplit
          refine ⟨b, ds ++ x, by simpa using hsplit, hdigits b (by simp), ?_⟩
          intro rest hrest
          obtain ⟨htake, hdrop⟩ := takeWhile_append (b := x ++ rest) hdigits fun c s hc => by
            cases x with
            | nil => exact (hrest c s hc).1
            | cons d x =>
                cases hc
                exact hhead c x rfl
          have htext : b :: (ds ++ x) ++ rest = b :: ds ++ (x ++ rest) := by simp
          unfold unsigned
          rw [htext, htake, hdrop]
          dsimp only
          split
          · next heq => cases heq
          · next heq =>
              cases heq
              exact absurd rfl (hzero _ _)
          · exact hall rest hrest

theorem number_word (h : number bs = ⟨v, none, r⟩) :
    ∃ b x, bs = b :: x ++ r ∧ (b = 45 ∨ isDigit b = true) ∧
      ∀ rest, Stops rest → number (b :: x ++ rest) = ⟨v, none, rest⟩ := by
  by_cases hminus : ∃ t, bs = 45 :: t
  · obtain ⟨t, rfl⟩ := hminus
    change unsigned true t = _ at h
    obtain ⟨b, x, rfl, -, hall⟩ := unsigned_word h
    exact ⟨45, b :: x, by simp, .inl rfl, hall⟩
  · have hunescaped {c : UInt8} {u : Bytes} (hc : c ≠ 45) : number (c :: u) = unsigned false (c :: u) := by
      unfold number
      split
      · next heq =>
          cases heq
          exact absurd rfl hc
      · rfl
    cases bs with
    | nil => cases h
    | cons c u =>
        have hc : c ≠ 45 := fun he => hminus ⟨u, by rw [he]⟩
        rw [hunescaped hc] at h
        obtain ⟨b, x, hx, hb, hall⟩ := unsigned_word h
        cases hx
        refine ⟨c, x, rfl, .inr hb, ?_⟩
        intro rest hrest
        exact (hunescaped hc).trans (hall rest hrest)

theorem stringFrom_hex {a b c d : UInt8} {u : Nat} (h : hexUnit? a b c d = some u)
    (s : Except Fault Spelt) (t : Bytes) :
    stringFrom s (92 :: 117 :: a :: b :: c :: d :: t) = stringFrom (s.bind (Spelt.unit u)) t := by
  conv => lhs; rw [stringFrom.eq_def]
  simp [h]

theorem stringFrom_letter {e b : UInt8} (h : plainEscape? e = some b) (he : e ≠ 117)
    (s : Except Fault Spelt) (t : Bytes) :
    stringFrom s (92 :: e :: t) = stringFrom (s.bind (Spelt.byte b)) t := by
  conv => lhs; rw [stringFrom.eq_def]
  simp [h, he]

theorem stringFrom_unescapedByte {b : UInt8} (h : Unescaped b) (s : Except Fault Spelt) (t : Bytes) :
    stringFrom s (b :: t) = stringFrom (s.bind (Spelt.byte b)) t := by
  obtain ⟨hlow, hquote, hslash⟩ := h
  conv => lhs; rw [stringFrom.eq_def]
  simp [hquote, hslash, UInt8.not_lt.mpr hlow]

theorem stringFrom_word {s : Except Fault Spelt} {bs r : Bytes} {v : Except Fault String}
    (h : stringFrom s bs = ⟨v, none, r⟩) :
    ∃ x, bs = x ++ r ∧ ∀ rest, stringFrom s (x ++ rest) = ⟨v, none, rest⟩ := by
  fun_induction stringFrom s bs with
  | case1 | case3 | case5 | case6 | case8 | case9 => cases h
  | case2 s t =>
      cases h
      refine ⟨[34], rfl, ?_⟩
      intro rest
      rw [List.singleton_append, stringFrom.eq_def]
      rfl
  | case4 s a b c d t u hu _ ih =>
      obtain ⟨x, rfl, hall⟩ := ih h
      exact ⟨92 :: 117 :: a :: b :: c :: d :: x, rfl, fun rest => (stringFrom_hex hu s _).trans (hall rest)⟩
  | case7 s e t he b hb _ ih =>
      obtain ⟨x, rfl, hall⟩ := ih h
      exact ⟨92 :: e :: x, rfl, fun rest => (stringFrom_letter hb he s _).trans (hall rest)⟩
  | case10 s b t hquote hslash hlow ih =>
      obtain ⟨x, rfl, hall⟩ := ih h
      have hunescaped : Unescaped b := ⟨UInt8.not_lt.mp hlow, hquote, hslash⟩
      exact ⟨b :: x, rfl, fun rest => (stringFrom_unescapedByte hunescaped s _).trans (hall rest)⟩

def Sane {α : Type} (w : Lexeme α) : Prop := w.skim = none ∨ ∃ f, w.value = .error f

theorem sane_failed {α : Type} (f g : Fault) : Sane (failed f g : Lexeme α) := .inr ⟨f, rfl⟩

theorem sane_number' (exponent : Option (Bool × Bytes)) :
    Sane (number' minus whole fraction exponent r) := by
  refine .inl ?_
  unfold number'
  split <;> rfl

theorem sane_exponentDigits : Sane (exponentDigits minus whole fraction below bs) := by
  unfold exponentDigits
  split
  · exact sane_failed _ _
  · exact sane_number' _

theorem sane_exponentPart : Sane (exponentPart minus whole fraction bs) := by
  rcases exponentPart_cases minus whole fraction bs with hnone | ⟨_, _, _, _, _, _, hpart, _⟩
  · rw [exponentPart_none hnone]
    exact sane_number' _
  · rw [hpart]
    exact sane_exponentDigits

theorem sane_number (bs : Bytes) : Sane (number bs) := by
  have hunsigned (minus : Bool) (bs : Bytes) : Sane (unsigned minus bs) := by
    unfold unsigned
    dsimp only
    split
    · exact sane_failed _ _
    · exact sane_failed _ _
    · unfold fractionPart
      split
      · dsimp only
        split
        · exact sane_failed _ _
        · exact sane_exponentPart
      · exact sane_exponentPart
  unfold number
  split
  · exact hunsigned true _
  · exact hunsigned false _

theorem sane_stringFrom (s : Except Fault Spelt) (bs : Bytes) : Sane (stringFrom s bs) := by
  have hbind {g : Spelt → Except Fault String} (hg : ∀ a, ∃ f, g a = .error f) (s : Except Fault Spelt) :
      ∃ f, s.bind g = .error f := by
    cases s with
    | error f => exact ⟨f, rfl⟩
    | ok a => exact hg a
  have hfaulted (f : Fault) (a : Spelt) : ∃ f', Spelt.faulted f a = .error f' := by
    unfold Spelt.faulted
    split
    · exact ⟨_, rfl⟩
    · exact ⟨f, rfl⟩
  fun_induction stringFrom s bs with
  | case1 s | case3 s | case5 s | case6 s => exact .inr (hbind (fun _ => ⟨_, rfl⟩) s)
  | case2 => exact .inl rfl
  | case8 s | case9 s => exact .inr (hbind (hfaulted _) s)
  | case4 _ _ _ _ _ _ _ _ _ ih | case7 _ _ _ _ _ _ _ ih | case10 _ _ _ _ _ _ ih => exact ih

end LogTail.Json.Lexeme
