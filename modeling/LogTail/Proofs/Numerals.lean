import LogTail.Proofs.Decimals
import LogTail.Proofs.Grammar

namespace LogTail.Json

open Lexeme

def Digits (ds : Bytes) : Prop := ds ≠ [] ∧ ∀ b ∈ ds, isDigit b = true

/-- A minus, if any, digits that begin with a zero only if that is all, a point and digits, if any,
and an exponent with its sign, if any. -/
structure Numeral (x : Bytes) : Prop where
  parts : ∃ minus whole fraction exponent : Bytes, x = minus ++ (whole ++ (fraction ++ exponent)) ∧
    (minus = [] ∨ minus = [45]) ∧
    (Digits whole ∧ ∀ t, whole = 48 :: t → t = []) ∧
    (fraction = [] ∨ ∃ ds, Digits ds ∧ fraction = 46 :: ds) ∧
    (exponent = [] ∨ ∃ s ds, (s = 43 ∨ s = 45) ∧ Digits ds ∧ exponent = 101 :: s :: ds)

def Ends {α : Type} (w : Lexeme α) : Prop := ∃ v, w = ⟨v, none, []⟩

theorem ends_number' (minus : Bool) (whole : Bytes) (fraction : Option Bytes)
    (exponent : Option (Bool × Bytes)) : Ends (number' minus whole fraction exponent []) := by
  unfold number'
  split <;> exact ⟨_, rfl⟩

theorem takeWhile_digits_nil {ds : Bytes} (h : Digits ds) :
    ds.takeWhile isDigit = ds ∧ ds.dropWhile isDigit = [] := by
  simpa using takeWhile_append (b := []) h.2 (by simp)

theorem ends_exponentDigits {minus below : Bool} {whole ds : Bytes} {fraction : Option Bytes}
    (h : Digits ds) : Ends (exponentDigits minus whole fraction below ds) := by
  obtain ⟨htake, hdrop⟩ := takeWhile_digits_nil h
  rw [exponentDigits, htake, hdrop, if_neg (by simpa using h.1)]
  exact ends_number' _ _ _ _

theorem ends_exponentPart {minus : Bool} {whole exponent : Bytes} {fraction : Option Bytes}
    (h : exponent = [] ∨ ∃ s ds, (s = 43 ∨ s = 45) ∧ Digits ds ∧ exponent = 101 :: s :: ds) :
    Ends (exponentPart minus whole fraction exponent) := by
  rcases h with rfl | ⟨s, ds, rfl | rfl, hds, rfl⟩
  · exact ends_number' _ _ _ _
  · rw [exponentPart_plus (.inl rfl)]
    exact ends_exponentDigits hds
  · rw [exponentPart_minus (.inl rfl)]
    exact ends_exponentDigits hds

theorem exponent_head {exponent : Bytes}
    (h : exponent = [] ∨ ∃ s ds, (s = 43 ∨ s = 45) ∧ Digits ds ∧ exponent = 101 :: s :: ds) :
    ∀ b t, exponent = b :: t → b = 101 := by
  rintro b t heq
  rcases h with rfl | ⟨s, ds, -, -, rfl⟩
  · cases heq
  · exact (List.cons.inj heq).1.symm

theorem ends_fractionPart {minus : Bool} {whole fraction exponent : Bytes}
    (hf : fraction = [] ∨ ∃ ds, Digits ds ∧ fraction = 46 :: ds)
    (he : exponent = [] ∨ ∃ s ds, (s = 43 ∨ s = 45) ∧ Digits ds ∧ exponent = 101 :: s :: ds) :
    Ends (fractionPart minus whole (fraction ++ exponent)) := by
  rcases hf with rfl | ⟨ds, hds, rfl⟩
  · rw [List.nil_append, fractionPart_none fun b t h => by rw [exponent_head he b t h]; decide]
    exact ends_exponentPart he
  · obtain ⟨htake, hdrop⟩ := takeWhile_append (b := exponent) hds.2 fun c t hc => by
      rw [exponent_head he c t hc]
      decide
    rw [List.cons_append, fractionPart_point, htake, hdrop, if_neg (by simpa using hds.1)]
    exact ends_exponentPart he

theorem ends_unsigned (minus : Bool) {whole fraction exponent : Bytes} (hdigits : Digits whole)
    (hzero : ∀ t, whole = 48 :: t → t = []) (hf : fraction = [] ∨ ∃ ds, Digits ds ∧ fraction = 46 :: ds)
    (he : exponent = [] ∨ ∃ s ds, (s = 43 ∨ s = 45) ∧ Digits ds ∧ exponent = 101 :: s :: ds) :
    Ends (unsigned minus (whole ++ (fraction ++ exponent))) := by
  have hhead : ∀ b t, fraction ++ exponent = b :: t → isDigit b = false := by
    intro b t h
    rcases hf with rfl | ⟨ds, -, rfl⟩
    · rw [exponent_head he b t h]
      decide
    · cases h
      decide
  obtain ⟨htake, hdrop⟩ := takeWhile_append hdigits.2 hhead
  unfold unsigned
  rw [htake, hdrop]
  dsimp only
  split
  · exact absurd rfl hdigits.1
  · cases hzero _ rfl
  · exact ends_fractionPart hf he

theorem ends_number {x : Bytes} (h : Numeral x) : Ends (Lexeme.number x) := by
  obtain ⟨minus, whole, fraction, exponent, rfl, rfl | rfl, ⟨hdigits, hzero⟩, hf, he⟩ := h.parts
  · have hends := ends_unsigned false hdigits hzero hf he
    have hplain : Lexeme.number ([] ++ (whole ++ (fraction ++ exponent))) =
        unsigned false (whole ++ (fraction ++ exponent)) := by
      obtain ⟨b, t, rfl⟩ := List.exists_cons_of_ne_nil hdigits.1
      have hb := hdigits.2 b (by simp)
      unfold Lexeme.number
      split
      · next heq =>
          cases heq
          cases hb
      · rfl
    rw [hplain]
    exact hends
  · have hends := ends_unsigned true hdigits hzero hf he
    exact hends

theorem Numeral.word {x : Bytes} (h : Numeral x) :
    ∃ b t v, x = b :: t ∧ (b = 45 ∨ isDigit b = true) ∧ SpellsNumber (b :: t) v := by
  obtain ⟨v, hv⟩ := ends_number h
  obtain ⟨b, t, hx, hb, hword⟩ := number_word hv
  rw [List.append_nil] at hx
  exact ⟨b, t, v, hx, hb, hword⟩

theorem digits_encode_chars {cs : List Char} (h : ∀ c ∈ cs, c.isDigit = true) (hne : cs ≠ []) :
    Digits (Utf8.encode cs) := by
  refine ⟨?_, (digits_encode h).1⟩
  obtain ⟨c, t, rfl⟩ := List.exists_cons_of_ne_nil hne
  obtain ⟨b, hb, -⟩ := digit_encode (h c (by simp))
  rw [Utf8.encode, List.flatMap_cons, hb]
  simp

theorem encode_head {c : Char} {cs : List Char} (h : ∀ x ∈ c :: cs, x.isDigit = true) (hc : c ≠ '0') :
    ∀ t, Utf8.encode (c :: cs) ≠ 48 :: t := by
  intro t heq
  obtain ⟨b, hb, hdigit, hval⟩ := digit_encode (h c (by simp))
  rw [Utf8.encode, List.flatMap_cons, hb] at heq
  have h48 : b = 48 := (List.cons.inj heq).1
  have hlow : 48 ≤ c.toNat := by
    have hc' := h c (by simp)
    simp only [Char.isDigit, Bool.and_eq_true, decide_eq_true_eq] at hc'
    exact UInt32.le_iff_toNat_le.mp hc'.1
  rw [h48, show (48 : UInt8).toNat = 48 from rfl] at hval
  apply hc
  rw [← Char.ofNat_toNat c, show c.toNat = 48 by omega]

theorem digits_digits (n : Nat) : Digits (digits n) ∧ ∀ t, digits n = 48 :: t → t = [] := by
  obtain ⟨b, u, hu, hzero⟩ := digits_head n
  refine ⟨⟨by simp [hu], (digits_spec n).1⟩, ?_⟩
  intro t ht
  rw [hu] at ht
  cases ht
  exact hzero rfl

theorem numeral_whole (n : Nat) : Numeral (digits n) ∧ Numeral (45 :: digits n) :=
  ⟨⟨[], digits n, [], [], by simp, .inl rfl, digits_digits n, .inl rfl, .inl rfl⟩,
    ⟨[45], digits n, [], [], by simp, .inr rfl, digits_digits n, .inl rfl, .inl rfl⟩⟩

def DigitChars (cs : List Char) : Prop := cs ≠ [] ∧ ∀ c ∈ cs, c.isDigit = true

theorem DigitChars.digits {cs : List Char} (h : DigitChars cs) : Digits (Utf8.encode cs) :=
  digits_encode_chars h.2 h.1

theorem numeral_chars {minus whole fraction exponent : List Char} (hm : minus = [] ∨ minus = ['-'])
    (hdigits : DigitChars whole) (hwhole : whole.head? ≠ some '0' ∨ whole.length = 1)
    (hf : fraction = [] ∨ ∃ ds, DigitChars ds ∧ fraction = '.' :: ds)
    (he : exponent = [] ∨ ∃ s ds, (s = '+' ∨ s = '-') ∧ DigitChars ds ∧ exponent = 'e' :: s :: ds) :
    Numeral (Utf8.encode (minus ++ (whole ++ (fraction ++ exponent)))) := by
  refine ⟨Utf8.encode minus, Utf8.encode whole, Utf8.encode fraction, Utf8.encode exponent,
    by simp only [Utf8.encode_append], ?_, ⟨hdigits.digits, ?_⟩, ?_, ?_⟩
  · rcases hm with rfl | rfl
    · exact .inl rfl
    · exact .inr (by decide)
  · intro t ht
    obtain ⟨c, cs, rfl⟩ := List.exists_cons_of_ne_nil hdigits.1
    rcases hwhole with hne | hone
    · exact absurd ht (encode_head hdigits.2 (by simpa using hne) t)
    · obtain rfl : cs = [] := by simpa using hone
      obtain ⟨b, hb, -⟩ := digit_encode (hdigits.2 c (by simp))
      rw [Utf8.encode, List.flatMap_singleton, hb] at ht
      exact (List.cons.inj ht).2.symm
  · rcases hf with rfl | ⟨ds, hds, rfl⟩
    · exact .inl rfl
    · exact .inr ⟨_, hds.digits, rfl⟩
  · rcases he with rfl | ⟨s, ds, rfl | rfl, hds, rfl⟩
    · exact .inl rfl
    · exact .inr ⟨43, _, .inl rfl, hds.digits, rfl⟩
    · exact .inr ⟨45, _, .inr rfl, hds.digits, rfl⟩

theorem digitChars_zeros {cs : List Char} (h : DigitChars cs) (n : Nat) :
    DigitChars (List.replicate n '0' ++ cs) ∧ DigitChars (cs ++ List.replicate n '0') := by
  have hzeros : ∀ c ∈ List.replicate n '0', c.isDigit = true := by
    intro c hc
    rw [List.eq_of_mem_replicate hc]
    decide
  constructor
  · refine ⟨by simp [h.1], ?_⟩
    intro c hc
    exact (List.mem_append.mp hc).elim (hzeros c) (h.2 c)
  · refine ⟨by simp [h.1], ?_⟩
    intro c hc
    exact (List.mem_append.mp hc).elim (h.2 c) (hzeros c)

theorem digitChars_toDigits (n : Nat) : DigitChars (Nat.toDigits 10 n) :=
  ⟨Nat.toDigits_ne_nil, fun _ hc => Nat.isDigit_of_mem_toDigits (by decide) (by decide) hc⟩

theorem digitChars_zero : DigitChars ['0'] := by
  refine ⟨List.cons_ne_nil _ _, ?_⟩
  intro c hc
  rw [List.mem_singleton.mp hc]
  rfl

theorem numeral_scientific {minus cs : List Char} {c s : Char} (hm : minus = [] ∨ minus = ['-'])
    (hall : ∀ x ∈ c :: cs, x.isDigit = true) (hs : s = '+' ∨ s = '-') (n : Nat) :
    Numeral (Utf8.encode
      (minus ++ ((c :: if cs = [] then [] else '.' :: cs) ++ 'e' :: s :: Nat.toDigits 10 n))) := by
  have hhead : DigitChars [c] := ⟨by simp, by simpa using hall c (by simp)⟩
  have hexp : ∃ s' ds, (s' = '+' ∨ s' = '-') ∧ DigitChars ds ∧
      'e' :: s :: Nat.toDigits 10 n = 'e' :: s' :: ds :=
    ⟨s, _, hs, digitChars_toDigits n, rfl⟩
  split
  · exact numeral_chars hm hhead (.inr rfl) (.inl rfl) (.inr hexp)
  · next hcs =>
      have hfraction : DigitChars cs := ⟨hcs, fun x hx => hall x (by simp [hx])⟩
      exact numeral_chars hm hhead (.inr rfl) (.inr ⟨cs, hfraction, rfl⟩) (.inr hexp)

theorem numeral_positional {minus whole fraction : List Char} (hm : minus = [] ∨ minus = ['-'])
    (hdigits : DigitChars whole) (hwhole : whole.head? ≠ some '0' ∨ whole.length = 1)
    (hf : DigitChars fraction) : Numeral (Utf8.encode (minus ++ (whole ++ '.' :: fraction))) := by
  have hnum := numeral_chars hm hdigits hwhole (.inr ⟨fraction, hf, rfl⟩) (.inl rfl)
  rwa [List.append_nil] at hnum

theorem numeral_float (bits : UInt64) : Numeral (Utf8.ofString (Number.floatText bits)) := by
  obtain ⟨minus, hm, hsign⟩ : ∃ minus : List Char, (minus = [] ∨ minus = ['-']) ∧
      (if Number.signBit ≤ bits.toNat then "-" else "").toList = minus := by
    split
    · exact ⟨_, .inr rfl, rfl⟩
    · exact ⟨_, .inl rfl, rfl⟩
  unfold Number.floatText Utf8.ofString
  dsimp only
  split
  · have hnum := numeral_positional hm digitChars_zero (.inr rfl) digitChars_zero
    rw [String.toList_append, hsign]
    exact hnum
  · next hne =>
      obtain ⟨c, cs, hds, hc, hall⟩ := Shortest.digits_spec hne
      have hdigits : DigitChars (c :: cs) := ⟨by simp, hall⟩
      rw [String.toList_append, hsign, hds]
      generalize (Shortest.digits bits).2 = e
      split
      · have hnum (s : Char) (hs : s = '+' ∨ s = '-') := numeral_scientific hm hall hs e.natAbs
        by_cases hneg : e < 0
        · have hminus := hnum '-' (.inr rfl)
          cases cs <;> simpa [hneg] using hminus
        · have hplus := hnum '+' (.inl rfl)
          cases cs <;> simpa [hneg] using hplus
      split
      · have hfraction := (digitChars_zeros hdigits ((-e).toNat - 1)).1
        have hnum := numeral_positional hm digitChars_zero (.inr rfl) hfraction
        simpa using hnum
      split
      · have hwhole := (digitChars_zeros hdigits (e.toNat + 1 - (c :: cs).length)).2
        have hnum := numeral_positional hm hwhole (.inl (by simpa using hc)) digitChars_zero
        simpa using hnum
      · next hlong =>
          have hlen : e.toNat + 1 < (c :: cs).length := Nat.not_le.mp hlong
          have hwhole : DigitChars ((c :: cs).take (e.toNat + 1)) :=
            ⟨by simp, fun x hx => hall x (List.mem_of_mem_take hx)⟩
          have hfraction : DigitChars ((c :: cs).drop (e.toNat + 1)) :=
            ⟨by simpa using hlen, fun x hx => hall x (List.mem_of_mem_drop hx)⟩
          have hnum := numeral_positional hm hwhole (.inl (by simpa using hc)) hfraction
          simpa using hnum

theorem numeral_text (n : Number) : Numeral (Utf8.ofString n.text) := by
  cases n with
  | nat n => exact (numeral_whole n).1
  | negative n =>
      have hminus : Utf8.ofString ("-" ++ toString n) = 45 :: digits n := by
        have hchar : Utf8.encodeChar '-' = [45] := by decide
        simp [Utf8.ofString, Utf8.encode, hchar, digits]
      rw [Number.text, hminus]
      exact (numeral_whole n).2
  | float bits => exact numeral_float bits

end LogTail.Json
