import Mathlib.Tactic.ByContra
import Mathlib.Tactic.Simps.Basic
import LogTail.Proofs.Calendar

namespace LogTail.Time

inductive Slot
  | year | yearDiv100 | yearMod100 | isoYear | isoYearMod100 | quarter | month | weekFromSun
  | weekFromMon | isoWeek | weekday | ordinal | day | half | hour12 | minute | second | timestamp
  | offset
  deriving DecidableEq

def noted {α : Type} (slots : List Slot) (s : Slot) (a : α) : Option α :=
  if s ∈ slots then some a else none

namespace Fields

/-- The fields of a time in universal time, as far as they were read. -/
@[simps]
def told (t : DateTime) (nano : Option Nat) (slots : List Slot) : Fields where
  year := noted slots .year t.date.year
  yearDiv100 := noted slots .yearDiv100 (t.date.year / 100)
  yearMod100 := noted slots .yearMod100 (t.date.year % 100)
  isoYear := noted slots .isoYear t.date.isoWeek.1
  isoYearMod100 := noted slots .isoYearMod100 (t.date.isoWeek.1 % 100)
  quarter := noted slots .quarter t.date.quarter
  month := noted slots .month t.date.month
  weekFromSun := noted slots .weekFromSun (t.date.weekFrom 6)
  weekFromMon := noted slots .weekFromMon (t.date.weekFrom 0)
  isoWeek := noted slots .isoWeek t.date.isoWeek.2
  weekday := noted slots .weekday t.date.weekday
  ordinal := noted slots .ordinal t.date.ordinal
  day := noted slots .day t.date.day
  half := noted slots .half (t.clock.hour / 12)
  hour12 := noted slots .hour12 (t.clock.hour % 12)
  minute := noted slots .minute t.clock.minute
  second := noted slots .second (Layout.shownSecond t.clock)
  nano := nano
  timestamp := noted slots .timestamp t.seconds
  offset := noted slots .offset 0

end Fields

section Noting

variable {α : Type} {slots : List Slot} {s : Slot} {a : α}

theorem noted_eq_some {b : α} : noted slots s a = some b ↔ s ∈ slots ∧ a = b := by
  unfold noted
  split <;> simp [*]

theorem noted_pos (h : s ∈ slots) (a : α) : noted slots s a = some a := if_pos h

theorem noted_neg (h : s ∉ slots) (a : α) : noted slots s a = none := if_neg h

@[simp] theorem noted_append (slots more : List Slot) (s : Slot) (a : α) :
    noted (slots ++ more) s a = if s ∈ more then some a else noted slots s a := by
  unfold noted
  by_cases h : s ∈ more <;> simp [h]

@[simp] theorem fits_noted [DecidableEq α] : Fields.fits (noted slots s a) a = true := by
  unfold noted Fields.fits
  split <;> simp

theorem agree_noted [DecidableEq α] : Fields.agree (noted slots s a) a = .ok (some a) := by
  unfold noted Fields.agree
  split <;> simp_all

end Noting

namespace Fields

theorem fitsPart_noted {slots : List Slot} {s : Slot} {year part : Int} (h : 0 ≤ year) :
    fitsPart (noted slots s part) year part = true := by
  unfold noted fitsPart
  split <;> simp_all

variable {t : DateTime} {nano : Option Nat} {slots : List Slot}

theorem within_eq {low high : Int} {v : Nat} (h : low ≤ v ∧ v ≤ high) :
    within low high v = .ok v := by
  rw [within, if_pos h, Int.toNat_natCast]

end Fields

/-- A time of the hundred years that two digits tell apart. -/
structure DateTime.InCentury (t : DateTime) : Prop where
  date : t.date.Valid
  year_ge : 1970 ≤ t.date.year
  year_le : t.date.year ≤ 2069
  hour : t.clock.hour < 24
  minute : t.clock.minute < 60
  second : t.clock.second < 60
  nano : t.clock.nano < 2000000000

namespace DateTime.InCentury

variable {t : DateTime} (h : t.InCentury)
include h

theorem isInRange : Date.isInRange t.date.year = true := by
  have := h.year_ge
  have := h.year_le
  simp only [Date.isInRange, firstYear, lastYear, Bool.and_eq_true]
  exact ⟨decide_eq_true (by omega), decide_eq_true (by omega)⟩

theorem isoYear_ge : 1970 ≤ t.date.isoWeek.1 := Date.isoWeek_year_ge h.date h.year_ge

theorem isoYear_le : t.date.isoWeek.1 ≤ 2070 := by
  have := (Date.isoWeek_year_bounds h.date).2
  have := h.year_le
  omega

theorem isoWeek_bounds : 1 ≤ t.date.isoWeek.2 ∧ t.date.isoWeek.2 ≤ 53 := by
  obtain ⟨hpos, hle, -⟩ := Date.isoWeek_cases h.date
  have := weeksInYear_bounds t.date.isoWeek.1
  omega

theorem ordinal_bounds : 1 ≤ t.date.ordinal ∧ t.date.ordinal ≤ 366 := by
  have := h.date.ordinal_pos
  have := h.date.ordinal_le
  have := daysInYear_bounds t.date.year
  omega

theorem shownSecond_le : Layout.shownSecond t.clock ≤ 60 := by
  have := h.second
  have := h.nano
  rw [Layout.shownSecond]
  omega

theorem seconds_bounds : 0 ≤ t.seconds ∧ t.seconds < 10000000000 := by
  have hyear := h.year_ge
  have hyear' := h.year_le
  have hday := h.ordinal_bounds
  have hhour := h.hour
  have hminute := h.minute
  have hsecond := h.second
  simp only [DateTime.seconds, Date.dayNumber, DateTime.epochDay, daysToYear,
    Int.fdiv_eq_ediv_of_nonneg _ (show (0 : Int) ≤ 4 by decide),
    Int.fdiv_eq_ediv_of_nonneg _ (show (0 : Int) ≤ 100 by decide),
    Int.fdiv_eq_ediv_of_nonneg _ (show (0 : Int) ≤ 400 by decide)]
  omega

end DateTime.InCentury

namespace Numeric

def value (t : DateTime) : Numeric → Nat
  | .year => t.date.year.toNat
  | .yearDiv100 => t.date.year.toNat / 100
  | .yearMod100 => t.date.year.toNat % 100
  | .isoYear => t.date.isoWeek.1.toNat
  | .isoYearMod100 => t.date.isoWeek.1.toNat % 100
  | .quarter => t.date.quarter
  | .month => t.date.month
  | .day => t.date.day
  | .weekFromSun => t.date.weekFrom 6
  | .weekFromMon => t.date.weekFrom 0
  | .isoWeek => t.date.isoWeek.2
  | .daysFromSun => (t.date.weekday + 1) % 7
  | .daysFromMon => t.date.weekday + 1
  | .ordinal => t.date.ordinal
  | .hour => t.clock.hour
  | .hour12 => Layout.shownHour12 t.clock.hour
  | .minute => t.clock.minute
  | .second => Layout.shownSecond t.clock
  | .nanosecond => t.clock.nano % 1000000000
  | .timestamp => t.seconds.toNat

def slots : Numeric → List Slot
  | .year => [.year]
  | .yearDiv100 => [.yearDiv100]
  | .yearMod100 => [.yearMod100]
  | .isoYear => [.isoYear]
  | .isoYearMod100 => [.isoYearMod100]
  | .quarter => [.quarter]
  | .month => [.month]
  | .day => [.day]
  | .weekFromSun => [.weekFromSun]
  | .weekFromMon => [.weekFromMon]
  | .isoWeek => [.isoWeek]
  | .daysFromSun => [.weekday]
  | .daysFromMon => [.weekday]
  | .ordinal => [.ordinal]
  | .hour => [.half, .hour12]
  | .hour12 => [.hour12]
  | .minute => [.minute]
  | .second => [.second]
  | .nanosecond => []
  | .timestamp => [.timestamp]

end Numeric

namespace Fields

variable {t : DateTime} {nano : Option Nat} {slots : List Slot}

theorem set_told (h : t.InCentury) {n : Numeric} (hn : n ≠ .nanosecond) :
    n.set (n.value t) (told t nano slots) = .ok (told t nano (slots ++ n.slots)) := by
  have hyear := h.year_ge
  have hyear' := h.year_le
  have hiso := h.isoYear_ge
  have hiso' := h.isoYear_le
  cases n with
  | nanosecond => exact absurd rfl hn
  | year | isoYear =>
      simp only [Numeric.set, Numeric.value, setYear, setIsoYear, yearLimit,
        Int.toNat_of_nonneg (show 0 ≤ t.date.year by omega),
        Int.toNat_of_nonneg (show 0 ≤ t.date.isoWeek.1 by omega)]
      rw [if_neg (by omega)]
      simp [told, agree_noted, bind, Except.bind, pure, Except.pure, Numeric.slots]
  | yearDiv100 | yearMod100 | isoYearMod100 =>
      have hdiv : ((t.date.year.toNat / 100 : Nat) : Int) = t.date.year / 100 := by omega
      have hmod : ((t.date.year.toNat % 100 : Nat) : Int) = t.date.year % 100 := by omega
      have hiso : ((t.date.isoWeek.1.toNat % 100 : Nat) : Int) = t.date.isoWeek.1 % 100 := by omega
      simp only [Numeric.set, Numeric.value, setYearDiv100, setYearMod100, setIsoYearMod100, yearLimit]
      rw [within_eq (by omega)]
      simp only [hdiv, hmod, hiso, bind, Except.bind, pure, Except.pure]
      simp [told, agree_noted, Numeric.slots]
  | daysFromSun | daysFromMon =>
      have hweekday := Date.weekday_lt t.date
      have hsunday : ((t.date.weekday + 1) % 7 + 6) % 7 = t.date.weekday := by omega
      simp only [Numeric.set, Numeric.value, setDaysFromSun, setDaysFromMon]
      rw [within_eq (by omega)]
      simp [told, agree_noted, bind, Except.bind, pure, Except.pure, Numeric.slots, setWeekday, hsunday]
  | hour | hour12 =>
      have hhour := h.hour
      have hshown : 1 ≤ Layout.shownHour12 t.clock.hour ∧ Layout.shownHour12 t.clock.hour ≤ 12 ∧
          Layout.shownHour12 t.clock.hour % 12 = t.clock.hour % 12 := by
        rw [Layout.shownHour12]
        split <;> omega
      simp only [Numeric.set, Numeric.value, setHour, halfOfHour, hourWithinHalf, setHour12]
      rw [within_eq (by omega)]
      simp [told, agree_noted, bind, Except.bind, pure, Except.pure, Numeric.slots, hshown]
  | timestamp =>
      simp only [Numeric.set, Numeric.value, setTimestamp, Int.toNat_of_nonneg h.seconds_bounds.1]
      simp [told, agree_noted, bind, Except.bind, pure, Except.pure, Numeric.slots]
  | quarter | month | day | weekFromSun | weekFromMon | isoWeek | ordinal | minute | second =>
      have hmonth := h.date.month_pos
      have hmonth' := h.date.month_le
      have hquarter : 1 ≤ t.date.quarter ∧ t.date.quarter ≤ 4 := by
        rw [Date.quarter]
        omega
      have hday := h.date.day_pos
      have hday' := h.date.day_le_31
      have hsun := Date.weekFrom_le h.date 6
      have hmon := Date.weekFrom_le h.date 0
      have hweek := h.isoWeek_bounds
      have hordinal := h.ordinal_bounds
      have hminute := h.minute
      have hsecond := h.shownSecond_le
      simp only [Numeric.set, Numeric.value, setQuarter, setMonth, setDay, setWeekFromSun, setWeekFromMon,
        setIsoWeek, setOrdinal, setMinute, setSecond]
      rw [within_eq (by omega)]
      simp [told, agree_noted, bind, Except.bind, pure, Except.pure, Numeric.slots]

def HasYear (slots : List Slot) : Prop := .year ∈ slots ∨ .yearMod100 ∈ slots

def HasIsoYear (slots : List Slot) : Prop := .isoYear ∈ slots ∨ .isoYearMod100 ∈ slots

def DatedByYear (slots : List Slot) : Prop :=
  HasYear slots ∧ (.month ∈ slots ∧ .day ∈ slots ∨ .ordinal ∈ slots ∨
    .weekFromSun ∈ slots ∧ .weekday ∈ slots ∨ .weekFromMon ∈ slots ∧ .weekday ∈ slots)

def DatedByWeek (slots : List Slot) : Prop :=
  HasIsoYear slots ∧ .isoWeek ∈ slots ∧ .weekday ∈ slots

/-- What a date is worked out from. The first two digits of a year do not stand alone. -/
def Dated (slots : List Slot) : Prop :=
  (.yearDiv100 ∈ slots → HasYear slots) ∧ (DatedByYear slots ∨ DatedByWeek slots)

instance : Decidable (HasYear slots) := inferInstanceAs (Decidable (_ ∨ _))

instance : Decidable (HasIsoYear slots) := inferInstanceAs (Decidable (_ ∨ _))

instance : Decidable (DatedByYear slots) := inferInstanceAs (Decidable (_ ∧ _))

instance : Decidable (DatedByWeek slots) := inferInstanceAs (Decidable (_ ∧ _))

theorem resolveYear_told (h : t.InCentury) (hdiv : .yearDiv100 ∈ slots → HasYear slots) :
    resolveYear (noted slots .year t.date.year) (noted slots .yearDiv100 (t.date.year / 100))
        (noted slots .yearMod100 (t.date.year % 100)) =
      .ok (if HasYear slots then some t.date.year else none) := by
  have hyear := h.year_ge
  have hyear' := h.year_le
  by_cases hy : Slot.year ∈ slots
  · rw [if_pos (show HasYear slots from .inl hy), noted_pos hy]
    unfold noted
    split <;> split <;> simp [resolveYear]
    all_goals omega
  · by_cases hm : Slot.yearMod100 ∈ slots
    · rw [if_pos (show HasYear slots from .inr hm), noted_neg hy, noted_pos hm]
      unfold noted
      split
      · rw [resolveYear, if_neg (by rw [yearLimit]; omega), Int.mul_comm, Int.mul_ediv_add_emod]
      · rw [resolveYear]
        congr 2
        split <;> omega
    · have hnot : ¬ HasYear slots := not_or.mpr ⟨hy, hm⟩
      rw [if_neg hnot, noted_neg hy, noted_neg hm, noted_neg fun hd => hnot (hdiv hd), resolveYear]

theorem resolveIsoYear_told (h : t.InCentury) :
    ∃ y, resolveYear (noted slots .isoYear t.date.isoWeek.1) none
        (noted slots .isoYearMod100 (t.date.isoWeek.1 % 100)) = .ok y ∧
      (y.isSome → HasIsoYear slots) ∧
      (HasIsoYear slots → t.date.isoWeek.1 ≤ 2069 ∨ .isoYear ∈ slots → y = some t.date.isoWeek.1) := by
  have hyear := h.isoYear_ge
  by_cases hy : Slot.isoYear ∈ slots
  · refine ⟨some t.date.isoWeek.1, ?_, fun _ => .inl hy, fun _ _ => rfl⟩
    rw [noted_pos hy]
    unfold noted
    split <;> simp [resolveYear]
    omega
  · rw [noted_neg hy]
    by_cases hm : Slot.isoYearMod100 ∈ slots
    · rw [noted_pos hm]
      refine ⟨_, rfl, fun _ => .inr hm, fun _ hpivot => congrArg some ?_⟩
      have hle := hpivot.resolve_right hy
      split <;> omega
    · rw [noted_neg hm]
      exact ⟨none, rfl, by simp, fun hhas => absurd hhas (not_or.mpr ⟨hy, hm⟩)⟩

theorem fitsDate_told (h : t.InCentury) : (told t nano slots).fitsDate t.date = true := by
  have := h.year_ge
  simp only [fitsDate, told, fits_noted, fitsPart_noted (show 0 ≤ t.date.year by omega), Bool.and_self]

theorem fitsIsoWeek_told (h : t.InCentury) : (told t nano slots).fitsIsoWeek t.date = true := by
  have := h.isoYear_ge
  simp only [fitsIsoWeek, told, fits_noted, fitsPart_noted (show 0 ≤ t.date.isoWeek.1 by omega),
    Bool.and_self]

theorem fitsOrdinal_told : (told t nano slots).fitsOrdinal t.date = true := by
  simp only [fitsOrdinal, told, fits_noted, Bool.and_self]

theorem weekDate_weekFrom (h : t.InCentury) {start : Nat} (hstart : start < 7) :
    weekDate t.date.year (t.date.weekFrom start) t.date.weekday start = .ok t.date := by
  obtain ⟨hpos, hdate⟩ := Date.ofOrdinal?_ofWeek h.date hstart h.isInRange
  simp only [weekDate, h.isInRange, hdate]
  rw [if_neg (by simp), if_neg (by omega)]

theorem date_cases (h : t.InCentury) (hdiv : .yearDiv100 ∈ slots → HasYear slots) {y : Option Int}
    (hiso : resolveYear (noted slots .isoYear t.date.isoWeek.1) none
      (noted slots .isoYearMod100 (t.date.isoWeek.1 % 100)) = .ok y) :
    (DatedByYear slots ∧ (told t nano slots).date = .ok t.date) ∨
      (¬ DatedByYear slots ∧ y.isSome ∧ .isoWeek ∈ slots ∧ .weekday ∈ slots ∧
        (y = some t.date.isoWeek.1 → (told t nano slots).date = .ok t.date)) ∨
      (¬ DatedByYear slots ∧ (y = none ∨ .isoWeek ∉ slots ∨ .weekday ∉ slots) ∧
        (told t nano slots).date = .error .notEnough) := by
  have hparts := Date.ofParts?_parts h.date h.isInRange
  have hordinal := Date.ofOrdinal?_ordinal h.date h.isInRange
  have hsunday := @weekDate_weekFrom t h 6 (by decide)
  have hmonday := @weekDate_weekFrom t h 0 (by decide)
  have hisoWeek := Date.ofIsoWeek?_isoWeek h.date h.isInRange
  have hfits : (told t nano slots).fitsDate t.date = true := fitsDate_told h
  have hweek : (told t nano slots).fitsIsoWeek t.date = true := fitsIsoWeek_told h
  have hyearDay : (told t nano slots).fitsOrdinal t.date = true := fitsOrdinal_told
  simp only [Fields.date, told_year, told_yearDiv100, told_yearMod100, told_isoYear, told_isoYearMod100,
    told_month, told_day, told_ordinal, told_weekFromSun, told_weekFromMon, told_weekday, told_isoWeek,
    told_quarter, resolveYear_told h hdiv, hiso, bind, Except.bind]
  split
  · next hyear hmonth hday =>
      obtain ⟨hy, ⟨⟩⟩ := Option.ite_none_right_eq_some.mp hyear
      obtain ⟨hm, rfl⟩ := noted_eq_some.mp hmonth
      obtain ⟨hd, rfl⟩ := noted_eq_some.mp hday
      exact .inl ⟨⟨hy, .inl ⟨hm, hd⟩⟩, by simp [hparts, orRange, verified, hweek, hyearDay]⟩
  next hnoParts =>
  split
  · next hyear hday =>
      obtain ⟨hy, ⟨⟩⟩ := Option.ite_none_right_eq_some.mp hyear
      obtain ⟨ho, rfl⟩ := noted_eq_some.mp hday
      exact .inl ⟨⟨hy, .inr (.inl ho)⟩, by simp [hordinal, orRange, verified, hfits, hweek, hyearDay]⟩
  next hnoOrdinal =>
  split
  · next hyear hnumber hday =>
      obtain ⟨hy, ⟨⟩⟩ := Option.ite_none_right_eq_some.mp hyear
      obtain ⟨hs, rfl⟩ := noted_eq_some.mp hnumber
      obtain ⟨hw, rfl⟩ := noted_eq_some.mp hday
      exact .inl ⟨⟨hy, .inr (.inr (.inl ⟨hs, hw⟩))⟩, by simp [hsunday, verified, hfits, hweek, hyearDay]⟩
  next hnoSunday =>
  split
  · next hyear hnumber hday =>
      obtain ⟨hy, ⟨⟩⟩ := Option.ite_none_right_eq_some.mp hyear
      obtain ⟨hs, rfl⟩ := noted_eq_some.mp hnumber
      obtain ⟨hw, rfl⟩ := noted_eq_some.mp hday
      exact .inl ⟨⟨hy, .inr (.inr (.inr ⟨hs, hw⟩))⟩, by simp [hmonday, verified, hfits, hweek, hyearDay]⟩
  next hnoMonday =>
  have hnot : ¬ DatedByYear slots := by
    rintro ⟨hy, hdays⟩
    have hyear : (if HasYear slots then some t.date.year else none) = some t.date.year := if_pos hy
    rcases hdays with ⟨hm, hd⟩ | ho | ⟨hs, hw⟩ | ⟨hs, hw⟩
    · exact hnoParts _ _ _ hyear (noted_pos hm _) (noted_pos hd _)
    · exact hnoOrdinal _ _ hyear (noted_pos ho _)
    · exact hnoSunday _ _ _ hyear (noted_pos hs _) (noted_pos hw _)
    · exact hnoMonday _ _ _ hyear (noted_pos hs _) (noted_pos hw _)
  split
  · next hnumber hday =>
      obtain ⟨hi, rfl⟩ := noted_eq_some.mp hnumber
      obtain ⟨hw, rfl⟩ := noted_eq_some.mp hday
      refine .inr (.inl ⟨hnot, rfl, hi, hw, fun hy => ?_⟩)
      obtain rfl := Option.some.inj hy
      simp [hisoWeek, orRange, verified, hfits, hyearDay]
  · next hnoWeek =>
      refine .inr (.inr ⟨hnot, ?_, rfl⟩)
      by_contra hall
      simp only [not_or, not_not] at hall
      obtain ⟨hy, hi, hw⟩ := hall
      obtain ⟨z, hz⟩ := Option.ne_none_iff_exists'.mp hy
      exact hnoWeek _ _ _ hz (noted_pos hi _) (noted_pos hw _)

/-- If a date can be worked out, it is the one of the time, unless two digits have to stand for the year
2070. -/
theorem date_told (h : t.InCentury) (hdated : Dated slots)
    (hpivot : t.date.isoWeek.1 ≤ 2069 ∨ .isoYear ∈ slots ∨ DatedByYear slots) :
    (told t nano slots).date = .ok t.date := by
  obtain ⟨y, hiso, -, hyear⟩ := @resolveIsoYear_told t slots h
  rcases @date_cases t nano slots h hdated.1 y hiso with ⟨-, hdate⟩ | ⟨hnot, hweek⟩ | ⟨hnot, hnone, -⟩
  · exact hdate
  all_goals
    obtain ⟨hhas, hweekIn, hdayIn⟩ := hdated.2.resolve_left hnot
    have hy := hyear hhas (hpivot.imp_right (·.resolve_right hnot))
  · exact hweek.2.2.2 hy
  · exact absurd hnone (by simp [hy, hweekIn, hdayIn])

theorem dated_of_date (h : t.InCentury) {d : Date} (hd : (told t nano slots).date = .ok d) : Dated slots := by
  have hdiv : .yearDiv100 ∈ slots → HasYear slots := by
    intro hmem
    by_contra hnot
    obtain ⟨hy, hm⟩ := not_or.mp hnot
    simp [Fields.date, told, noted_pos hmem, noted_neg hy, noted_neg hm, resolveYear, bind, Except.bind] at hd
  refine ⟨hdiv, ?_⟩
  obtain ⟨y, hiso, hsome, -⟩ := @resolveIsoYear_told t slots h
  rcases @date_cases t nano slots h hdiv y hiso with ⟨hby, -⟩ | ⟨-, hy, hweek, hday, -⟩ | ⟨-, -, herror⟩
  · exact .inl hby
  · exact .inr ⟨hsome hy, hweek, hday⟩
  · rw [hd] at herror
    exact absurd herror (by simp)

section Filling

variable {f : Fields}

theorem attempt_agree {α : Type} [DecidableEq α] {old : Option α} {a : α} (put : Option α → Fields)
    (hput : put old = f) :
    attempt (fun _ => (agree old a).map put) f = put (some (old.getD a)) := by
  cases old with
  | none => rfl
  | some b => by_cases h : b = a <;> simp [attempt, agree, h, Except.map, ← hput]

theorem attempt_setMinute : attempt (setMinute 0) f = { f with minute := some (f.minute.getD 0) } :=
  attempt_agree (fun m => { f with minute := m }) rfl

theorem attempt_setSecond : attempt (setSecond 0) f = { f with second := some (f.second.getD 0) } :=
  attempt_agree (fun m => { f with second := m }) rfl

theorem attempt_hourWithinHalf :
    attempt (hourWithinHalf 0) f = { f with hour12 := some (f.hour12.getD 0) } :=
  attempt_agree (fun m => { f with hour12 := m }) rfl

theorem fillClock_eq : f.fillClock =
    { f with
      half := some (f.half.getD 0)
      hour12 := if f.half.getD 0 = 0 then some (f.hour12.getD 0) else f.hour12
      minute := some (f.minute.getD 0)
      second := some (f.second.getD 0) } := by
  unfold fillClock
  simp only [attempt_setMinute, attempt_setSecond, attempt_hourWithinHalf]
  cases hh : f.half with
  | none => simp [halfOfHour, within, agree, hh, bind, Except.bind, pure, Except.pure]
  | some a =>
      by_cases hzero : a = 0 <;>
        simp [halfOfHour, within, agree, hh, hzero, bind, Except.bind, pure, Except.pure]

theorem fillClock_date : f.fillClock.date = f.date := by
  rw [fillClock_eq]
  rfl

end Filling

def Clocked (slots : List Slot) : Prop := .half ∈ slots → .hour12 ∈ slots

instance : Decidable (Clocked slots) := inferInstanceAs (Decidable (_ → _))

theorem clock_told (hclock : Clocked slots) : ∃ c, (told t nano slots).fillClock.clock = .ok c := by
  rw [fillClock_eq]
  simp only [clock, Option.isNone_some, Bool.false_eq_true, and_false, if_false]
  by_cases hhalf : Slot.half ∈ slots
  · simp only [told_half, told_hour12, noted_pos hhalf, noted_pos (hclock hhalf), Option.getD_some,
      ite_self]
    exact ⟨_, rfl⟩
  · simp only [told_half, noted_neg hhalf, Option.getD_none, if_true]
    exact ⟨_, rfl⟩

theorem clocked_of_clock {c : Clock} (hnoon : t.clock.hour / 12 ≠ 0)
    (hc : (told t nano slots).fillClock.clock = .ok c) : Clocked slots := by
  intro hhalf
  by_contra hhour
  simp [fillClock_eq, clock, noted_pos hhalf, noted_neg hhour, hnoon] at hc

end Fields

namespace DateTime

open Fields (told Dated Clocked)

variable {t : DateTime} {nano : Option Nat} {slots : List Slot}

theorem ofFields_told (h : t.InCentury) (hdated : Dated slots) (hclock : Clocked slots)
    (hpivot : t.date.isoWeek.1 ≤ 2069 ∨ .isoYear ∈ slots ∨ Fields.DatedByYear slots) :
    ∃ u, ofFields (told t nano slots) = .ok u ∧ u.date = t.date := by
  obtain ⟨c, hc⟩ := @Fields.clock_told t nano slots hclock
  refine ⟨⟨t.date, c⟩, ?_, rfl⟩
  simp only [ofFields, Fields.fillClock_date, Fields.date_told h hdated hpivot, hc, bind, Except.bind, pure,
    Except.pure]

theorem dated_of_ofFields (h : t.InCentury) (hnoon : t.clock.hour / 12 ≠ 0) {u : DateTime}
    (hu : ofFields (told t nano slots) = .ok u) : Dated slots ∧ Clocked slots := by
  simp only [ofFields, Fields.fillClock_date, bind, Except.bind, pure, Except.pure] at hu
  split at hu
  · simp at hu
  next d hd =>
  split at hu
  · simp at hu
  next c hc => exact ⟨Fields.dated_of_date h hd, Fields.clocked_of_clock hnoon hc⟩

end DateTime

end LogTail.Time
