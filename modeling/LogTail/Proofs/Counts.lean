import LogTail.Proofs.Numerals
import Mathlib.Data.List.Induction

namespace LogTail.Json

open Lexeme

namespace Number

theorem fill_fits {sig n : Nat} {ds : List Nat} (hsig : sig < limit) (h : fill sig ds = (n, 0)) :
    ds.foldl (fun n d => n * 10 + d) sig = n ∧ n < limit := by
  induction ds generalizing sig with
  | nil =>
      cases h
      exact ⟨rfl, hsig⟩
  | cons d ds ih =>
      rw [fill] at h
      split at h
      · cases h
      · next hlt => exact ih (Nat.not_le.mp hlt) h

theorem ofParts_float {minus : Bool} {sig : Nat} {e : Int} {n : Nat} : ofParts minus sig e ≠ some (.nat n) := by
  unfold ofParts
  cases scaled 4 sig.toUInt64.toFloat e <;> simp

theorem ofDigits_nat {minus : Bool} {whole : List Nat} {fraction : Option (List Nat)}
    {exponent : Option (Bool × List Nat)} {n : Nat}
    (h : ofDigits minus whole fraction exponent = some (.nat n)) :
    minus = false ∧ fraction = none ∧ exponent = none ∧ fill 0 whole = (n, 0) := by
  obtain ⟨sig, left, hfill⟩ : ∃ sig left, fill 0 whole = (sig, left) := ⟨_, _, rfl⟩
  unfold ofDigits at h
  rw [hfill] at h
  dsimp only at h
  split at h
  · split at h
    · next hleft =>
        cases minus with
        | false =>
            cases h
            exact ⟨rfl, rfl, rfl, by rw [hfill, hleft]⟩
        | true =>
            simp only [Bool.not_true, Bool.false_eq_true, if_false] at h
            split at h <;> cases h
    · exact absurd h ofParts_float
  · split at h
    · exact absurd h ofParts_float
    · split at h
      · split at h <;> cases h
      · exact absurd h ofParts_float

end Number

namespace Lexeme

theorem digits_succ {n : Nat} (h : 10 ≤ n) : digits n = digits (n / 10) ++ [(48 + n % 10).toUInt8] := by
  have hdigit : ∀ k < 10, Utf8.encodeChar k.digitChar = [(48 + k).toUInt8] := by decide
  rw [digits_eq, digits_eq, Nat.toDigits_of_base_le (by decide) h, Utf8.encode_append, Utf8.encode,
    Utf8.encode, List.flatMap_singleton, hdigit _ (Nat.mod_lt n (by decide))]

theorem digits_lt {n : Nat} (h : n < 10) : digits n = [(48 + n).toUInt8] := by
  have hdigit : ∀ k < 10, Utf8.encodeChar k.digitChar = [(48 + k).toUInt8] := by decide
  rw [digits_eq, Nat.toDigits_of_lt_base h, Utf8.encode, List.flatMap_singleton, hdigit n h]

theorem digit_value {b : UInt8} (h : isDigit b = true) :
    b.toNat - 48 < 10 ∧ (48 + (b.toNat - 48)).toUInt8 = b := by
  simp only [isDigit, Bool.and_eq_true, decide_eq_true_eq] at h
  have hlow : 48 ≤ b.toNat := UInt8.le_iff_toNat_le.mp h.1
  have hhigh : b.toNat ≤ 57 := UInt8.le_iff_toNat_le.mp h.2
  refine ⟨by omega, ?_⟩
  rw [Nat.add_sub_cancel' hlow]
  exact UInt8.toNat.inj (toNat_byte (by omega))

theorem digits_unique {ds : Bytes} (h : Digits ds) (hzero : ∀ t, ds = 48 :: t → t = []) :
    digits ((digitValues ds).foldl (fun n d => n * 10 + d) 0) = ds := by
  induction ds using List.reverseRecOn with
  | nil => exact absurd rfl h.1
  | append_singleton ds b ih =>
      obtain ⟨hlt, hb⟩ := digit_value (h.2 b (by simp))
      have hvalue : (digitValues (ds ++ [b])).foldl (fun n d => n * 10 + d) 0 =
          (digitValues ds).foldl (fun n d => n * 10 + d) 0 * 10 + (b.toNat - 48) := by
        simp [digitValues]
      rw [hvalue]
      cases ds with
      | nil =>
          change digits (0 * 10 + (b.toNat - 48)) = [b]
          rw [Nat.zero_mul, Nat.zero_add, digits_lt hlt, hb]
      | cons c ds =>
          have hc : c ≠ 48 := by
            rintro rfl
            have hnil := hzero (ds ++ [b]) rfl
            simp at hnil
          have hfront := ih ⟨by simp, fun a ha => h.2 a (List.mem_append_left _ ha)⟩
            fun t ht => absurd (List.cons.inj ht).1 hc
          generalize (digitValues (c :: ds)).foldl (fun n d => n * 10 + d) 0 = n at *
          have hpos : n ≠ 0 := by
            rintro rfl
            have hhead : digits 0 = [48] := by decide
            rw [hhead] at hfront
            exact hc (List.cons.inj hfront).1.symm
          rw [digits_succ (by omega), show (n * 10 + (b.toNat - 48)) / 10 = n by omega, hfront,
            show 48 + (n * 10 + (b.toNat - 48)) % 10 = 48 + (b.toNat - 48) by omega, hb]

variable {minus : Bool} {whole bs r r' : Bytes} {fraction : Option Bytes} {n : Nat}

theorem number'_nat {exponent : Option (Bool × Bytes)}
    (h : number' minus whole fraction exponent r = ⟨.ok (.nat n), none, r'⟩) :
    r' = r ∧ minus = false ∧ fraction = none ∧ exponent = none ∧
      Number.fill 0 (digitValues whole) = (n, 0) := by
  have hrest := (number'_some h).1
  unfold number' at h
  split at h
  · next m hm =>
      cases h
      obtain ⟨hminus, hfraction, hexponent, hfill⟩ := Number.ofDigits_nat hm
      exact ⟨rfl, hminus, Option.map_eq_none_iff.mp hfraction, Option.map_eq_none_iff.mp hexponent, hfill⟩
  · cases h

theorem exponentPart_nat (h : exponentPart minus whole fraction bs = ⟨.ok (.nat n), none, r⟩) :
    r = bs ∧ minus = false ∧ fraction = none ∧ Number.fill 0 (digitValues whole) = (n, 0) := by
  rcases exponentPart_cases minus whole fraction bs with hnone | ⟨b, sign, below, t, rfl, -, hpart, -⟩
  · rw [exponentPart_none hnone] at h
    obtain ⟨hr, hminus, hfraction, -, hfill⟩ := number'_nat h
    exact ⟨hr, hminus, hfraction, hfill⟩
  · rw [hpart, exponentDigits] at h
    split at h
    · cases h
    · cases (number'_nat h).2.2.2.1

theorem fractionPart_nat (h : fractionPart minus whole bs = ⟨.ok (.nat n), none, r⟩) :
    r = bs ∧ minus = false ∧ Number.fill 0 (digitValues whole) = (n, 0) := by
  by_cases hpoint : ∃ t, bs = 46 :: t
  · obtain ⟨t, rfl⟩ := hpoint
    rw [fractionPart_point] at h
    split at h
    · cases h
    · cases (exponentPart_nat h).2.2.1
  · rw [fractionPart_none fun b t hbs hb => hpoint ⟨t, by rw [hbs, hb]⟩] at h
    obtain ⟨hr, hminus, -, hfill⟩ := exponentPart_nat h
    exact ⟨hr, hminus, hfill⟩

theorem number_nat (h : number bs = ⟨.ok (.nat n), none, r⟩) : bs = digits n ++ r ∧ n < Number.limit := by
  have hunsigned {minus : Bool} {bs : Bytes} (h : unsigned minus bs = ⟨.ok (.nat n), none, r⟩) :
      minus = false ∧ bs = digits n ++ r ∧ n < Number.limit := by
    obtain ⟨hsplit, hdigits, -⟩ := digits_split bs
    unfold unsigned at h
    dsimp only at h
    split at h
    · cases h
    · cases h
    · next hnil hzero =>
        obtain ⟨rfl, hminus, hfill⟩ := fractionPart_nat h
        obtain ⟨hvalue, hlt⟩ := Number.fill_fits (by decide) hfill
        have hwhole := digits_unique ⟨hnil, hdigits⟩ fun t ht => by
          cases t with
          | nil => rfl
          | cons a t => exact absurd ht (hzero a t)
        rw [hvalue] at hwhole
        exact ⟨hminus, by rw [hwhole]; exact hsplit, hlt⟩
  unfold number at h
  split at h
  · cases (hunsigned h).1
  · exact (hunsigned h).2

end Lexeme

end LogTail.Json
