import LogTail.Proofs.Numerals
import LogTail.Proofs.Stamps

namespace LogTail.Time

open Json (DigitChars digitChars_toDigits digitChars_zeros)

namespace Layout

theorem whiteSpace_eq : Unicode.whiteSpace =
    [(9, 13), (32, 32), (133, 133), (160, 160), (5760, 5760), (8192, 8202), (8232, 8233), (8239, 8239),
      (8287, 8287), (12288, 12288)] := by
  decide

theorem isSpace_eq_false {c : Char} (hlow : 32 < c.toNat) (hhigh : c.toNat < 133) : isSpace c = false := by
  simp only [isSpace, Unicode.CharSet.contains, whiteSpace_eq, Unicode.CharSet.mem]
  rw [if_neg (by omega), if_neg (by omega), if_pos hhigh]
  simp only [Bool.or_false, Bool.or_eq_false_iff, decide_eq_false_iff_not]
  omega

theorem digit_bounds {c : Char} (h : c.isDigit = true) : 48 ≤ c.toNat ∧ c.toNat ≤ 57 := by
  simp only [Char.isDigit, Bool.and_eq_true, decide_eq_true_eq, ge_iff_le] at h
  exact h

theorem alpha_bounds {c : Char} (h : c.isAlpha = true) : 65 ≤ c.toNat ∧ c.toNat ≤ 122 := by
  change (decide (65 ≤ c.val ∧ c.val ≤ 90) || (decide (97 ≤ c.val) && decide (c.val ≤ 122))) = true at h
  simp only [Bool.or_eq_true, Bool.and_eq_true, decide_eq_true_eq, UInt32.le_iff_toNat_le] at h
  change 65 ≤ c.val.toNat ∧ c.val.toNat ≤ 90 ∨ 97 ≤ c.val.toNat ∧ c.val.toNat ≤ 122 at h
  change 65 ≤ c.val.toNat ∧ c.val.toNat ≤ 122
  omega

theorem isSpace_digit {c : Char} (h : c.isDigit = true) : isSpace c = false := by
  have := digit_bounds h
  exact isSpace_eq_false (by omega) (by omega)

theorem isSpace_alpha {c : Char} (h : c.isAlpha = true) : isSpace c = false := by
  have := alpha_bounds h
  exact isSpace_eq_false (by omega) (by omega)

theorem isSpace_blank {c : Char} (h : c = ' ' ∨ c = '\n' ∨ c = '\t') : isSpace c = true := by
  rcases h with rfl | rfl | rfl <;> simp [isSpace, Unicode.CharSet.contains, whiteSpace_eq, Unicode.CharSet.mem]

end Layout

namespace Taken

open Layout

def opens (p : Char → Bool) (cs : List Char) : Bool := cs.head?.any p

section Opening

variable {p : Char → Bool} {cs : List Char} (h : opens p cs = false)
include h

theorem takeWhile_not_opens : cs.takeWhile p = [] := by
  cases cs with
  | nil => rfl
  | cons c cs => exact List.takeWhile_cons_of_neg (by simpa [opens] using h)

theorem dropWhile_not_opens : cs.dropWhile p = cs := by
  cases cs with
  | nil => rfl
  | cons c cs => exact List.dropWhile_cons_of_neg (by simpa [opens] using h)

end Opening

theorem opens_append {p : Char → Bool} {cs : List Char} (hne : cs ≠ []) (rest : List Char) :
    opens p (cs ++ rest) = opens p cs := by
  obtain ⟨c, cs, rfl⟩ := List.exists_cons_of_ne_nil hne
  rfl

theorem trimStart_blanks {bs : List Char} (h : ∀ c ∈ bs, isSpace c = true) (cs : List Char) :
    trimStart (bs ++ cs) = trimStart cs :=
  List.dropWhile_append_of_pos h

theorem trimStart_trimStart (cs : List Char) : trimStart (trimStart cs) = trimStart cs := by
  induction cs with
  | nil => rfl
  | cons c cs ih =>
      by_cases h : isSpace c = true <;> simp_all [trimStart]

theorem byteSize_append (cs ds : List Char) : byteSize (cs ++ ds) = byteSize cs + byteSize ds := by
  have hstart (k : Nat) : ds.foldl (fun n c => n + c.utf8Size) k = k + byteSize ds := by
    unfold byteSize
    induction ds generalizing k with
    | nil => rfl
    | cons d ds ih => rw [List.foldl_cons, List.foldl_cons, ih, ih (0 + _), Nat.zero_add, Nat.add_assoc]
  rw [byteSize, List.foldl_append]
  exact hstart _

theorem length_le_byteSize (cs : List Char) : cs.length ≤ byteSize cs := by
  induction cs with
  | nil => exact Nat.le_refl 0
  | cons c cs ih =>
      have := c.utf8Size_pos
      have happ := byteSize_append [c] cs
      have hone : byteSize [c] = c.utf8Size := Nat.zero_add _
      rw [List.singleton_append] at happ
      rw [List.length_cons]
      omega

theorem literal_append (s rest : List Char) : literal s (s ++ rest) = .ok ((), rest) := by
  rw [literal, byteSize_append, if_neg (by omega), if_pos (by simp), List.drop_left]

theorem value_eq (ds : List Char) : value ds = Nat.ofDigitChars 10 ds 0 := by
  simp only [value, Nat.ofDigitChars_eq_foldl, Nat.mul_comm]

theorem number_digits {ds rest : List Char} {max : Option Nat} {min : Nat} (hds : DigitChars ds)
    (hmin : min ≤ ds.length) (hmax : ∀ m ∈ max, ds.length ≤ m)
    (hend : max = some ds.length ∨ opens Char.isDigit rest = false) (hsmall : value ds < 0x8000000000000000) :
    number min max (ds ++ rest) = .ok (value ds, rest) := by
  have hrun : (max.elim (ds ++ rest) (ds ++ rest).take).takeWhile Char.isDigit = ds := by
    have hself : ds.takeWhile Char.isDigit = ds := by
      have hall := @List.takeWhile_append_of_pos _ _ ds [] hds.2
      simpa using hall
    rcases hend with rfl | hopen
    · rw [Option.elim_some, List.take_left, hself]
    · cases max with
      | none =>
          rw [Option.elim_none, List.takeWhile_append_of_pos hds.2, takeWhile_not_opens hopen, List.append_nil]
      | some m =>
          have hopen' : opens Char.isDigit (rest.take (m - ds.length)) = false := by
            cases rest with
            | nil => simp [opens]
            | cons c rest => cases m - ds.length <;> simp_all [opens]
          rw [Option.elim_some, List.take_append, List.take_of_length_le (hmax m rfl),
            List.takeWhile_append_of_pos hds.2, takeWhile_not_opens hopen', List.append_nil]
  have hsize := length_le_byteSize ds
  simp only [number, hrun]
  rw [byteSize_append, if_neg (by omega), if_neg (by omega), if_neg (by omega), List.drop_left]

theorem signed_digits {ds rest : List Char} (hds : DigitChars ds) (max : Nat) :
    signed max (ds ++ rest) = (number 1 (some max) (ds ++ rest)).map fun (n, t) => ((n : Int), t) := by
  obtain ⟨d, ds, rfl⟩ := List.exists_cons_of_ne_nil hds.1
  have hd := digit_bounds (hds.2 d (by simp))
  unfold signed
  split
  · next heq =>
      obtain rfl := (List.cons.inj heq).1
      simp at hd
  · next heq =>
      obtain rfl := (List.cons.inj heq).1
      simp at hd
  · rfl

theorem trimStart_digits {ds : List Char} (hds : DigitChars ds) (rest : List Char) :
    trimStart (ds ++ rest) = ds ++ rest := by
  obtain ⟨d, ds, rfl⟩ := List.exists_cons_of_ne_nil hds.1
  exact List.dropWhile_cons_of_neg (by rw [isSpace_digit (hds.2 d (by simp))]; simp)

end Taken

namespace Layout

def shown (width : Nat) (p : Pad) (n : Nat) : List Char :=
  List.replicate (if p = .zero then width - (Nat.toDigits 10 n).length else 0) '0' ++ Nat.toDigits 10 n

theorem digitChars_shown (width : Nat) (p : Pad) (n : Nat) : DigitChars (shown width p n) :=
  (digitChars_zeros (digitChars_toDigits n) _).1

theorem value_shown (width : Nat) (p : Pad) (n : Nat) : Taken.value (shown width p n) = n := by
  rw [Taken.value_eq, shown, Nat.ofDigitChars_append, Nat.ofDigitChars_replicate_zero, Nat.mul_zero,
    Nat.ofDigitChars_ten_toDigits]

theorem shown_zero (width n : Nat) : shown width .zero n = (zeros width n).toList := by
  simp [shown, zeros, padded]

theorem padded_toList (width : Nat) (p : Pad) (n : Nat) :
    ∃ bs, (∀ c ∈ bs, isSpace c = true) ∧ (padded width p n).toList = bs ++ shown width p n := by
  cases p with
  | none => exact ⟨[], by simp, by simp [padded, shown]⟩
  | zero => exact ⟨[], by simp, by simp [padded, shown]⟩
  | space =>
      refine ⟨List.replicate (width - (Nat.toDigits 10 n).length) ' ', ?_, by simp [padded, shown]⟩
      intro c hc
      rw [List.eq_of_mem_replicate hc]
      decide

variable {width n : Nat}

theorem length_shown_zero (hwidth : 0 < width) (hn : n < 10 ^ width) :
    (shown width .zero n).length = width := by
  have := (Nat.length_toDigits_le_iff (by decide) hwidth).mpr hn
  simp only [shown, if_true, List.length_append, List.length_replicate]
  omega

theorem length_shown_le (hwidth : 0 < width) (hn : n < 10 ^ width) (p : Pad) :
    (shown width p n).length ≤ width := by
  have hle := (Nat.length_toDigits_le_iff (by decide) hwidth).mpr hn
  simp only [shown, List.length_append, List.length_replicate]
  split <;> omega

theorem length_shown_full (hn : n < 10 ^ width) (hwidth : width = 1 ∨ 0 < width ∧ 10 ^ (width - 1) ≤ n)
    (p : Pad) : (shown width p n).length = width := by
  have hle := length_shown_le (by omega) hn p
  have hge : width ≤ (Nat.toDigits 10 n).length := by
    rcases hwidth with rfl | ⟨hpos, hfull⟩
    · exact Nat.length_toDigits_pos
    · by_cases hone : width = 1
      · rw [hone]
        exact Nat.length_toDigits_pos
      · have hiff := @Nat.length_toDigits_le_iff 10 n (width - 1) (by decide) (by omega)
        have hlt := mt hiff.mp (Nat.not_lt.mpr hfull)
        omega
  have : (Nat.toDigits 10 n).length ≤ (shown width p n).length := by
    simp [shown]
  omega

theorem trimStart_padded (width : Nat) (p : Pad) (n : Nat) (rest : List Char) :
    Taken.trimStart ((padded width p n).toList ++ rest) = shown width p n ++ rest := by
  obtain ⟨bs, hbs, heq⟩ := padded_toList width p n
  rw [heq, List.append_assoc, Taken.trimStart_blanks hbs, Taken.trimStart_digits (digitChars_shown width p n)]

end Layout

namespace Numeric

open Layout

def width (n : Numeric) : Nat := n.maxDigits.getD 9

theorem writeNumeric_eq (t : DateTime) (p : Pad) (n : Numeric) :
    writeNumeric t p n = padded n.width p (n.value t) := by
  have hone (m : Nat) : toString m = padded 1 p m := by
    have hpos := Nat.length_toDigits_pos (b := 10) (n := m)
    have hzero : 1 - (Nat.toDigits 10 m).length = 0 := by omega
    cases p <;> simp [padded, hzero, Nat.repr_eq_ofList_toDigits]
  cases n with
  | quarter | daysFromSun | daysFromMon => exact hone _
  | _ => rfl

def fills (n : Numeric) (p : Pad) : Bool :=
  match n with
  | .year | .yearDiv100 | .isoYear | .quarter | .daysFromSun | .daysFromMon => true
  | .timestamp => false
  | _ => p = .zero

variable {t : DateTime} {n : Numeric}

theorem maxDigits_eq (hn : n ≠ .timestamp) : n.maxDigits = some n.width := by
  cases n <;> first | rfl | exact absurd rfl hn

theorem value_lt (h : t.InCentury) (hn : n ≠ .timestamp) : n.value t < 10 ^ n.width := by
  have := h.year_ge
  have := h.year_le
  have := h.isoYear_ge
  have := h.isoYear_le
  have := h.date.month_le
  have := h.date.day_le_31
  have := Date.weekFrom_le h.date 6
  have := Date.weekFrom_le h.date 0
  have := h.isoWeek_bounds
  have := h.ordinal_bounds
  have := Date.weekday_lt t.date
  have := h.hour
  have := h.minute
  have := h.shownSecond_le
  cases n with
  | timestamp => exact absurd rfl hn
  | _ =>
    simp only [width, maxDigits, value, Option.getD_some, Date.quarter, shownHour12]
    first | omega | (split <;> omega)

theorem length_fills (h : t.InCentury) {p : Pad} (hfill : n.fills p = true) :
    n.maxDigits = some (shown n.width p (n.value t)).length := by
  have hn : n ≠ .timestamp := by
    rintro rfl
    simp [fills] at hfill
  have hlt := value_lt h hn
  have hyear := h.year_ge
  have hyear' := h.year_le
  have hiso := h.isoYear_ge
  rw [maxDigits_eq hn, Option.some.injEq, eq_comm]
  by_cases hp : p = .zero
  · subst hp
    exact length_shown_zero (by cases n <;> decide) hlt
  · apply length_shown_full hlt
    cases n with
    | year | yearDiv100 | isoYear =>
        refine .inr ⟨by decide, ?_⟩
        simp only [width, maxDigits, value, Option.getD_some]
        omega
    | quarter | daysFromSun | daysFromMon => exact .inl rfl
    | _ => simp [fills, hp] at hfill

theorem take_digits {cs ds rest : List Char} (hds : DigitChars ds) (htrim : Taken.trimStart cs = ds ++ rest) :
    n.take cs = (Taken.number 1 n.maxDigits (ds ++ rest)).map fun (v, t) => ((v : Int), t) := by
  unfold take
  rw [htrim]
  cases n with
  | year | isoYear => exact Taken.signed_digits hds 4
  | _ => rfl

theorem value_small (h : t.InCentury) : n.value t < 0x8000000000000000 := by
  by_cases hn : n = .timestamp
  · have := h.seconds_bounds
    rw [hn, value]
    omega
  · refine Nat.lt_of_lt_of_le (value_lt h hn) ?_
    cases n <;> decide

/-- A number that was written is read, if it has all its digits or ends before the next text. -/
theorem take_written (h : t.InCentury) {p : Pad} {rest : List Char}
    (hend : n.fills p = true ∨ Taken.opens Char.isDigit rest = false) :
    n.take ((writeNumeric t p n).toList ++ rest) = .ok ((n.value t : Int), rest) := by
  have hdigits := digitChars_shown n.width p (n.value t)
  have hvalue := value_shown n.width p (n.value t)
  rw [writeNumeric_eq, take_digits hdigits (trimStart_padded n.width p (n.value t) rest),
    Taken.number_digits hdigits (List.length_pos_iff.mpr hdigits.1), hvalue]
  · rfl
  · intro m hm
    have hn : n ≠ .timestamp := by
      rintro rfl
      simp [maxDigits] at hm
    obtain rfl : n.width = m := by simpa [maxDigits_eq hn] using hm
    exact length_shown_le (by cases n <;> decide) (value_lt h hn) p
  · exact hend.imp_left (length_fills h)
  · rw [hvalue]
    exact value_small h

end Numeric

namespace Taken

open Layout

section Names

variable {names : List String} {name : List Char} {i : Nat}

theorem shortNameOf_append (hlength : 3 ≤ name.length)
    (hfind : (names.findIdx? fun n => sameLetters (n.toList.take 3) (name.take 3)) = some i) (rest : List Char) :
    shortNameOf names (name ++ rest) = .ok (i, name.drop 3 ++ rest) := by
  have hsize := length_le_byteSize (name ++ rest)
  rw [List.length_append] at hsize
  rw [shortNameOf, if_neg (by omega), List.take_append_of_le_length hlength, hfind,
    List.drop_append_of_le_length hlength]

theorem name_append (hlength : 3 ≤ (names.getD i "").toList.length)
    (hfind : (names.findIdx? fun n => sameLetters (n.toList.take 3) ((names.getD i "").toList.take 3)) = some i)
    (rest : List Char) :
    shortNameOf names ((shortName (names.getD i "")).toList ++ rest) = .ok (i, rest) ∧
      nameOf names ((names.getD i "").toList ++ rest) = .ok (i, rest) := by
  constructor
  · have hthree : ((names.getD i "").toList.take 3).length = 3 := by
      rw [List.length_take]
      omega
    have htake : ((names.getD i "").toList.take 3).take 3 = (names.getD i "").toList.take 3 := by
      rw [List.take_take, Nat.min_self]
    rw [shortName, String.toList_ofList, shortNameOf_append (Nat.le_of_eq hthree.symm) (by rwa [htake]),
      List.drop_of_length_le (by omega), List.nil_append]
  · simp only [nameOf, shortNameOf_append hlength hfind, bind, Except.bind, pure, Except.pure]
    rw [List.take_left, if_pos (by simp [sameLetters]), List.drop_left]

theorem monthName_append {i : Nat} (hi : i < 12) (rest : List Char) :
    shortNameOf monthNames ((shortName (monthNames.getD i "")).toList ++ rest) = .ok (i, rest) ∧
      nameOf monthNames ((monthNames.getD i "").toList ++ rest) = .ok (i, rest) := by
  have hall : ∀ j < 12, 3 ≤ (monthNames.getD j "").toList.length ∧
      (monthNames.findIdx? fun n => sameLetters (n.toList.take 3) ((monthNames.getD j "").toList.take 3)) =
        some j := by
    decide
  exact name_append (hall i hi).1 (hall i hi).2 rest

theorem weekdayName_append {i : Nat} (hi : i < 7) (rest : List Char) :
    shortNameOf weekdayNames ((shortName (weekdayNames.getD i "")).toList ++ rest) = .ok (i, rest) ∧
      nameOf weekdayNames ((weekdayNames.getD i "").toList ++ rest) = .ok (i, rest) := by
  have hall : ∀ j < 7, 3 ≤ (weekdayNames.getD j "").toList.length ∧
      (weekdayNames.findIdx? fun n => sameLetters (n.toList.take 3) ((weekdayNames.getD j "").toList.take 3)) =
        some j := by
    decide
  exact name_append (hall i hi).1 (hall i hi).2 rest

end Names

theorem half_append (rest : List Char) :
    half ('a' :: 'm' :: rest) = .ok (false, rest) ∧ half ('A' :: 'M' :: rest) = .ok (false, rest) ∧
      half ('p' :: 'm' :: rest) = .ok (true, rest) ∧ half ('P' :: 'M' :: rest) = .ok (true, rest) := by
  have hsize (a b : Char) : ¬ byteSize (a :: b :: rest) < 2 := by
    have := length_le_byteSize (a :: b :: rest)
    simp only [List.length_cons] at this
    omega
  simp only [half, if_neg (hsize _ _)]
  exact ⟨rfl, rfl, rfl, rfl⟩

theorem fixedFraction_zeros {digits n : Nat} (hpos : 0 < digits) (hle : digits ≤ 9) (hn : n < 10 ^ digits)
    (rest : List Char) :
    fixedFraction digits ((zeros digits n).toList ++ rest) = .ok (n * 10 ^ (9 - digits), rest) := by
  have hlength := length_shown_zero hpos hn
  have hsmall : n < 0x8000000000000000 :=
    Nat.lt_of_lt_of_le hn (Nat.le_trans (Nat.pow_le_pow_right (by decide) hle) (by decide))
  rw [← shown_zero, fixedFraction, number_digits (digitChars_shown digits .zero n) (by omega)
    (by simp [hlength]) (.inl (by rw [hlength])) (by rwa [value_shown]), value_shown]
  rfl

theorem fraction_zeros {digits n : Nat} (hpos : 0 < digits) (hle : digits ≤ 9) (hn : n < 10 ^ digits)
    {rest : List Char} (hrest : opens Char.isDigit rest = false) :
    fraction ((zeros digits n).toList ++ rest) = .ok (n * 10 ^ (9 - digits), rest) := by
  have hlength := length_shown_zero hpos hn
  have hsmall : n < 0x8000000000000000 :=
    Nat.lt_of_lt_of_le hn (Nat.le_trans (Nat.pow_le_pow_right (by decide) hle) (by decide))
  rw [← shown_zero, fraction, number_digits (digitChars_shown digits .zero n) (by omega)
    (by simp [hlength, hle]) (.inr hrest) (by rwa [value_shown]), value_shown]
  simp [bind, Except.bind, pure, Except.pure, dropWhile_not_opens hrest, hlength]

theorem offset_append (rest : List Char) :
    offset ('+' :: '0' :: '0' :: '0' :: '0' :: rest) = .ok (0, rest) ∧
      offset ('+' :: '0' :: '0' :: ':' :: '0' :: '0' :: rest) = .ok (0, rest) := by
  have hzero : colonOrSpace '0' = false := by decide
  have hcolon : colonOrSpace ':' = true := by decide
  constructor <;>
    simp [offset, sign, twoDigits, value, hzero, hcolon, bind, Except.bind, pure, Except.pure]

theorem trimStart_plus (rest : List Char) : trimStart ('+' :: rest) = '+' :: rest :=
  List.dropWhile_cons_of_neg (by decide)

theorem zone_append (rest : List Char) :
    zone ('+' :: '0' :: '0' :: ':' :: '0' :: '0' :: rest) = .ok (0, rest) := by
  rw [zone, if_neg (by simp [sameLetters]), (offset_append rest).2]
  rfl

end Taken

theorem Layout.writeFraction_cases {n : Nat} (hn : n < 1000000000) :
    n = 0 ∧ writeFraction n = "" ∨
      ∃ digits m, 0 < digits ∧ digits ≤ 9 ∧ m < 10 ^ digits ∧ m * 10 ^ (9 - digits) = n ∧
        writeFraction n = "." ++ zeros digits m := by
  by_cases hzero : n = 0
  · exact .inl ⟨hzero, by rw [hzero]; rfl⟩
  refine .inr ?_
  unfold writeFraction
  rw [if_neg hzero]
  split
  · exact ⟨3, n / 1000000, by decide, by decide, by omega, by omega, rfl⟩
  split
  · exact ⟨6, n / 1000, by decide, by decide, by omega, by omega, rfl⟩
  · exact ⟨9, n, by decide, by decide, by omega, by omega, rfl⟩

def Layout.separatedText (t : DateTime) (separator : Char) : List Numeric → List Char
  | [] => []
  | [n] => (writeNumeric t .zero n).toList
  | n :: ns => (writeNumeric t .zero n).toList ++ separator :: separatedText t separator ns

/-- The nanoseconds of a time, cut to some digits. -/
def DateTime.cutNano (t : DateTime) (digits : Nat) : Nat :=
  t.clock.nano % 1000000000 / 10 ^ (9 - digits) * 10 ^ (9 - digits)

namespace Fields

/-- Fields hold what was read of a time, and their nanoseconds, if any, are cut to some digits. -/
def Tells (t : DateTime) (digits : Nat) (slots : List Slot) (f : Fields) : Prop :=
  ∃ nano, (∀ v ∈ nano, v = t.cutNano digits) ∧ f = told t nano slots

namespace Tells

variable {t : DateTime} {digits : Nat} {slots : List Slot} {f : Fields} (hf : f.Tells t digits slots)
include hf

theorem setNano : ∃ g, f.setNano (t.cutNano digits) = .ok g ∧ g.Tells t digits slots := by
  obtain ⟨nano, hnano, rfl⟩ := hf
  have hcut : t.cutNano digits ≤ 999999999 := by
    have := Nat.div_mul_le_self (t.clock.nano % 1000000000) (10 ^ (9 - digits))
    rw [DateTime.cutNano]
    omega
  have hagree : agree nano (t.cutNano digits) = .ok (some (t.cutNano digits)) := by
    cases nano with
    | none => rfl
    | some v => simp [agree, hnano v rfl]
  refine ⟨told t (some (t.cutNano digits)) slots, ?_, _, by simp, rfl⟩
  rw [Fields.setNano, within_eq (by omega)]
  simp [bind, Except.bind, pure, Except.pure, told, hagree]

theorem set (h : t.InCentury) (n : Numeric) (hn : n = .nanosecond → digits = 9) :
    ∃ g, n.set (n.value t) f = .ok g ∧ g.Tells t digits (slots ++ n.slots) := by
  by_cases hnano : n = .nanosecond
  · subst hnano
    have hcut : t.cutNano digits = Numeric.nanosecond.value t := by
      rw [hn rfl, DateTime.cutNano, Numeric.value, Nat.sub_self, Nat.pow_zero, Nat.div_one, Nat.mul_one]
    simpa only [hcut, Numeric.set, Numeric.slots, List.append_nil] using hf.setNano
  · obtain ⟨nano, hcut, rfl⟩ := hf
    exact ⟨_, set_told h hnano, nano, hcut, rfl⟩

theorem setWeekday : ∃ g, f.setWeekday t.date.weekday = .ok g ∧ g.Tells t digits (slots ++ [.weekday]) := by
  obtain ⟨nano, hnano, rfl⟩ := hf
  refine ⟨told t nano (slots ++ [.weekday]), ?_, nano, hnano, rfl⟩
  simp [Fields.setWeekday, told, agree_noted, bind, Except.bind, pure, Except.pure]

theorem setHalf (h : t.InCentury) :
    ∃ g, f.setHalf (!decide (t.clock.hour < 12)) = .ok g ∧ g.Tells t digits (slots ++ [.half]) := by
  obtain ⟨nano, hnano, rfl⟩ := hf
  have hhour := h.hour
  have hhalf : (if (!decide (t.clock.hour < 12)) = true then 1 else 0) = t.clock.hour / 12 := by
    by_cases hm : t.clock.hour < 12 <;> simp [hm] <;> omega
  refine ⟨told t nano (slots ++ [.half]), ?_, nano, hnano, rfl⟩
  rw [Fields.setHalf, hhalf]
  simp [told, agree_noted, bind, Except.bind, pure, Except.pure]

theorem setOffset : ∃ g, f.setOffset 0 = .ok g ∧ g.Tells t digits (slots ++ [.offset]) := by
  obtain ⟨nano, hnano, rfl⟩ := hf
  refine ⟨told t nano (slots ++ [.offset]), ?_, nano, hnano, rfl⟩
  simp [Fields.setOffset, told, agree_noted, bind, Except.bind, pure, Except.pure]

theorem read (h : t.InCentury) (n : Numeric) (hn : n = .nanosecond → digits = 9) {p : Pad}
    (rest : List Char) (hend : n.fills p = true ∨ Taken.opens Char.isDigit rest = false) :
    ∃ g, n.read f ((Layout.writeNumeric t p n).toList ++ rest) = .ok (g, rest) ∧
      g.Tells t digits (slots ++ n.slots) := by
  obtain ⟨g, hset, hg⟩ := hf.set h n hn
  refine ⟨g, ?_, hg⟩
  simp only [Numeric.read, Numeric.take_written h hend, hset, bind, Except.bind, pure, Except.pure]

theorem readSeparated (h : t.InCentury) (separator : Char) (hsep : Layout.isSpace separator = false)
    (ns : List Numeric) (hns : ∀ n ∈ ns, n.fills .zero = true ∧ n ≠ .nanosecond) (rest : List Char) :
    ∃ g, f.readSeparated separator ns (Layout.separatedText t separator ns ++ rest) = .ok (g, rest) ∧
      g.Tells t digits (slots ++ ns.flatMap Numeric.slots) := by
  induction ns generalizing f slots with
  | nil => exact ⟨f, rfl, by simpa using hf⟩
  | cons n ns ih =>
      obtain ⟨hfill, hne⟩ := hns n (by simp)
      cases ns with
      | nil =>
          obtain ⟨g, hread, hg⟩ := hf.read h n (absurd · hne) rest (.inl hfill)
          exact ⟨g, hread, by simpa using hg⟩
      | cons m ns =>
          obtain ⟨g, hread, hg⟩ := hf.read h n (absurd · hne)
            (separator :: (Layout.separatedText t separator (m :: ns) ++ rest)) (.inl hfill)
          obtain ⟨g', hread', hg'⟩ := ih hg fun n hn => hns n (List.mem_cons_of_mem _ hn)
          have htrim (cs : List Char) : Taken.trimStart (separator :: cs) = separator :: cs :=
            List.dropWhile_cons_of_neg (by simp [hsep])
          have hliteral (cs : List Char) : Taken.literal [separator] (separator :: cs) = .ok ((), cs) :=
            Taken.literal_append [separator] cs
          refine ⟨g', ?_, by simpa using hg'⟩
          simp only [Fields.readSeparated, Layout.separatedText, List.append_assoc, List.cons_append, hread,
            htrim, hliteral, bind, Except.bind]
          exact hread'

omit hf in
theorem fraction_lt (t : DateTime) (hle : digits ≤ 9) :
    t.clock.nano % 1000000000 / 10 ^ (9 - digits) < 10 ^ digits := by
  rw [Nat.div_lt_iff_lt_mul (Nat.pow_pos (by decide)), ← Nat.pow_add, Nat.add_sub_cancel' hle]
  exact Nat.mod_lt _ (by decide)

theorem readFixedFraction (hpos : 0 < digits) (hle : digits ≤ 9) (rest : List Char) :
    ∃ g, f.readFixedFraction digits
        ((Layout.zeros digits (t.clock.nano % 1000000000 / 10 ^ (9 - digits))).toList ++ rest) =
          .ok (g, rest) ∧ g.Tells t digits slots := by
  obtain ⟨g, hset, hg⟩ := hf.setNano
  refine ⟨g, ?_, hg⟩
  rw [DateTime.cutNano] at hset
  simp only [Fields.readFixedFraction, Taken.fixedFraction_zeros hpos hle (fraction_lt t hle), hset, bind,
    Except.bind, pure, Except.pure]

theorem readPoint (hpos : 0 < digits) (hle : digits ≤ 9) (rest : List Char) :
    ∃ g, f.readFraction (Taken.fixedFraction digits)
        ('.' :: ((Layout.zeros digits (t.clock.nano % 1000000000 / 10 ^ (9 - digits))).toList ++ rest)) =
          .ok (g, rest) ∧ g.Tells t digits slots := by
  obtain ⟨g, hset, hg⟩ := hf.setNano
  refine ⟨g, ?_, hg⟩
  rw [DateTime.cutNano] at hset
  simp only [Fields.readFraction, Taken.fixedFraction_zeros hpos hle (fraction_lt t hle), hset, bind,
    Except.bind, pure, Except.pure]

theorem readFraction (hdigits : digits = 9) (rest : List Char)
    (hrest : Taken.opens (fun c => c.isDigit || c = '.') rest = false) :
    ∃ g, f.readFraction Taken.fraction ((Layout.writeFraction (t.clock.nano % 1000000000)).toList ++ rest) =
      .ok (g, rest) ∧ g.Tells t digits slots := by
  have hopen : Taken.opens Char.isDigit rest = false ∧ rest.head? ≠ some '.' := by
    cases rest with
    | nil => simp [Taken.opens]
    | cons c rest => simpa [Taken.opens] using hrest
  rcases Layout.writeFraction_cases (Nat.mod_lt t.clock.nano (show 0 < 1000000000 by decide)) with
    ⟨-, hwrite⟩ | ⟨k, m, hpos, hle, hm, hmul, hwrite⟩
  · refine ⟨f, ?_, hf⟩
    rw [hwrite, String.toList_empty, List.nil_append, Fields.readFraction]
    rintro cs rfl
    simp at hopen
  · obtain ⟨g, hset, hg⟩ := hf.setNano
    refine ⟨g, ?_, hg⟩
    have hcut : m * 10 ^ (9 - k) = t.cutNano digits := by
      rw [hmul, hdigits, DateTime.cutNano, Nat.sub_self, Nat.pow_zero, Nat.div_one, Nat.mul_one]
    rw [hwrite, String.toList_append]
    simp [Fields.readFraction, Taken.fraction_zeros hpos hle hm hopen.1, hcut, hset, bind, Except.bind, pure,
      Except.pure]

theorem readOffset {cs rest : List Char} (hread : Taken.offset (Taken.trimStart cs) = .ok (0, rest)) :
    ∃ g, f.readOffset cs = .ok (g, rest) ∧ g.Tells t digits (slots ++ [.offset]) := by
  obtain ⟨g, hset, hg⟩ := hf.setOffset
  refine ⟨g, ?_, hg⟩
  simp only [Fields.readOffset, hread, hset, bind, Except.bind, pure, Except.pure]

theorem readRfc3339 (h : t.InCentury) (hdigits : digits = 9) {zone rest : List Char}
    (hopen : Taken.opens (fun c => c.isDigit || c = '.') zone = false)
    (hzone : Taken.zone (Taken.trimStart zone) = .ok (0, rest)) :
    ∃ g, f.readRfc3339 (Layout.separatedText t '-' [.year, .month, .day] ++ 'T' ::
          (Layout.separatedText t ':' [.hour, .minute, .second] ++
            ((Layout.writeFraction (t.clock.nano % 1000000000)).toList ++ zone))) = .ok (g, rest) ∧
      g.Tells t digits (slots ++ [.year, .month, .day, .half, .hour12, .minute, .second, .offset]) := by
  obtain ⟨g₁, hdate, hg₁⟩ := hf.readSeparated h '-' (by decide) [.year, .month, .day] (by decide)
    ('T' :: (Layout.separatedText t ':' [.hour, .minute, .second] ++
      ((Layout.writeFraction (t.clock.nano % 1000000000)).toList ++ zone)))
  obtain ⟨g₂, hclock, hg₂⟩ := hg₁.readSeparated h ':' (by decide) [.hour, .minute, .second] (by decide)
    ((Layout.writeFraction (t.clock.nano % 1000000000)).toList ++ zone)
  obtain ⟨g₃, hfraction, hg₃⟩ := hg₂.readFraction hdigits zone hopen
  obtain ⟨g₄, hoffset, hg₄⟩ := hg₃.setOffset
  have hend (cs : List Char) : Fields.dateEnd ('T' :: cs) = .ok ((), cs) := by
    simp [Fields.dateEnd]
  refine ⟨g₄, ?_, by simpa [Numeric.slots] using hg₄⟩
  simp only [Fields.readRfc3339, hdate, hend, hclock, hfraction, hzone, hoffset, bind, Except.bind, pure,
    Except.pure]

end Tells

end Fields

end LogTail.Time
