import LogTail.Time.Zone

namespace LogTail.Time

theorem daysToYear_succ (y : Int) : daysToYear (y + 1) = daysToYear y + daysInYear y := by
  simp only [daysToYear, daysInYear, Int.fdiv_eq_ediv_of_nonneg _ (show (0 : Int) ≤ 4 by decide),
    Int.fdiv_eq_ediv_of_nonneg _ (show (0 : Int) ≤ 100 by decide),
    Int.fdiv_eq_ediv_of_nonneg _ (show (0 : Int) ≤ 400 by decide)]
  cases hleap : isLeap y with
  | true =>
      simp only [isLeap, Bool.and_eq_true, Bool.or_eq_true, decide_eq_true_eq] at hleap
      simp only [if_true]
      omega
  | false =>
      simp only [isLeap, Bool.and_eq_false_iff, Bool.or_eq_false_iff, decide_eq_false_iff_not] at hleap
      simp only [Bool.false_eq_true, if_false]
      omega

theorem daysInYear_bounds (y : Int) : 365 ≤ daysInYear y ∧ daysInYear y ≤ 366 := by
  unfold daysInYear
  split <;> omega

theorem daysBefore_succ {y : Int} {m : Nat} (hm : 1 ≤ m) :
    daysBefore y (m + 1) = daysBefore y m + daysInMonth y m := by
  obtain ⟨k, rfl⟩ := Nat.exists_eq_add_of_le' hm
  simp [daysBefore, List.range_succ]

theorem daysBefore_mono {y : Int} {m n : Nat} (hm : 1 ≤ m) (hmn : m ≤ n) :
    daysBefore y m ≤ daysBefore y n := by
  induction hmn with
  | refl => exact Nat.le_refl _
  | @step n hn ih =>
      rw [daysBefore_succ (Nat.le_trans hm hn)]
      omega

theorem daysBefore_year (y : Int) : daysBefore y 13 = daysInYear y := by
  unfold daysInYear
  cases hleap : isLeap y <;> simp [daysBefore, List.range_succ, daysInMonth, hleap]

theorem weekdayOfNewYear_lt (y : Int) : weekdayOfNewYear y < 7 := by
  rw [weekdayOfNewYear]
  omega

theorem weeksInYear_bounds (y : Int) : 52 ≤ weeksInYear y ∧ weeksInYear y ≤ 53 := by
  unfold weeksInYear
  split <;> omega

theorem weeksInYear_iff (y : Int) :
    (daysInYear y = 365 ∧ (weeksInYear y = 53 ↔ weekdayOfNewYear y = 3)) ∨
      (daysInYear y = 366 ∧ (weeksInYear y = 53 ↔ weekdayOfNewYear y = 2 ∨ weekdayOfNewYear y = 3)) := by
  unfold daysInYear weeksInYear
  cases isLeap y
  · simp
  · refine .inr ⟨rfl, ?_⟩
    by_cases h : weekdayOfNewYear y = 2 <;> simp [h]

theorem weekdayOfNewYear_succ (y : Int) :
    weekdayOfNewYear (y + 1) = (weekdayOfNewYear y + daysInYear y) % 7 := by
  rw [weekdayOfNewYear, weekdayOfNewYear, daysToYear_succ]
  omega

namespace Date

structure Valid (d : Date) : Prop where
  month_pos : 1 ≤ d.month
  month_le : d.month ≤ 12
  day_pos : 1 ≤ d.day
  day_le : d.day ≤ daysInMonth d.year d.month

variable {d : Date} (h : d.Valid)
include h

namespace Valid

theorem ordinal_pos : 1 ≤ d.ordinal := by
  have := h.day_pos
  rw [ordinal]
  omega

theorem ordinal_le : d.ordinal ≤ daysInYear d.year := by
  have hnext := daysBefore_succ (y := d.year) h.month_pos
  have hyear := daysBefore_mono (y := d.year) (m := d.month + 1) (n := 13) (by omega)
    (by have := h.month_le; omega)
  rw [daysBefore_year] at hyear
  have := h.day_le
  rw [ordinal]
  omega

theorem day_le_31 : d.day ≤ 31 := by
  have hle := h.day_le
  unfold daysInMonth at hle
  repeat' split at hle
  all_goals omega

end Valid

omit h in
theorem monthOf_daysBefore {y : Int} {fuel m n day : Nat} (hm : 1 ≤ m) (hmn : m ≤ n)
    (hfuel : n - m ≤ fuel) (hpos : 1 ≤ day) (hday : day ≤ daysInMonth y n) :
    monthOf y fuel m (daysBefore y n - daysBefore y m + day) = (n, day) := by
  induction fuel generalizing m with
  | zero =>
      obtain rfl : m = n := by omega
      rw [Nat.sub_self, Nat.zero_add, monthOf]
  | succ fuel ih =>
      by_cases he : m = n
      · subst he
        rw [Nat.sub_self, Nat.zero_add, monthOf, if_pos hday]
      · have hnext := daysBefore_succ (y := y) hm
        have hmono := daysBefore_mono (y := y) (m := m + 1) (n := n) (by omega) (by omega)
        have hrest := ih (m := m + 1) (by omega) (by omega) (by omega)
        rw [monthOf, if_neg (by omega), ← hrest]
        congr 1
        omega

theorem ofParts?_parts (hrange : isInRange d.year = true) : ofParts? d.year d.month d.day = some d := by
  rw [ofParts?, if_pos]
  simp [hrange, h.month_pos, h.month_le, h.day_pos, h.day_le]

theorem ofOrdinal?_ordinal (hrange : isInRange d.year = true) :
    ofOrdinal? d.year d.ordinal = some d := by
  have hmonth : monthOf d.year 11 1 (daysBefore d.year d.month - daysBefore d.year 1 + d.day) =
      (d.month, d.day) :=
    monthOf_daysBefore (Nat.le_refl 1) h.month_pos (by have := h.month_le; omega) h.day_pos h.day_le
  rw [show daysBefore d.year 1 = 0 from rfl, Nat.sub_zero, ← ordinal] at hmonth
  rw [ofOrdinal?, if_pos (by simp [hrange, h.ordinal_pos, h.ordinal_le]), hmonth]

omit h in
theorem weekday_lt (d : Date) : d.weekday < 7 := by
  rw [weekday]
  omega

omit h in
theorem weekday_eq (d : Date) : d.weekday = ((daysToYear d.year + d.ordinal - 1) % 7).toNat := rfl

theorem weekFrom_le (start : Nat) : d.weekFrom start ≤ 53 := by
  have := h.ordinal_le
  have := daysInYear_bounds d.year
  rw [weekFrom]
  omega

theorem ofWeek_weekFrom {start : Nat} (hstart : start < 7) :
    ofWeek d.year (d.weekFrom start) d.weekday start = d.ordinal := by
  have hpos := h.ordinal_pos
  have hweekday := d.weekday_eq
  simp only [ofWeek, weekFrom, weekdayOfNewYear]
  generalize daysToYear d.year = n at *
  generalize d.ordinal = o at *
  generalize d.weekday = w at *
  omega

theorem ofOrdinal?_ofWeek {start : Nat} (hstart : start < 7) (hrange : isInRange d.year = true) :
    0 < ofWeek d.year (d.weekFrom start) d.weekday start ∧
      ofOrdinal? d.year (ofWeek d.year (d.weekFrom start) d.weekday start).toNat = some d := by
  rw [ofWeek_weekFrom h hstart]
  have := h.ordinal_pos
  exact ⟨by omega, ofOrdinal?_ordinal h hrange⟩

/-- The day of the year, told from the Monday of the first week. -/
def isoDay (y : Int) (week weekday : Nat) : Int :=
  (if weekdayOfNewYear y ≤ 3 then (1 : Int) - weekdayOfNewYear y else 8 - weekdayOfNewYear y) +
    7 * ((week : Int) - 1) + weekday

omit h in
theorem ofIsoWeek?_eq {y : Int} {week weekday : Nat} (hpos : 1 ≤ week) (hle : week ≤ weeksInYear y) :
    ofIsoWeek? y week weekday = ofOffset? y (isoDay y week weekday) := by
  rw [ofIsoWeek?, if_neg (by omega)]
  rfl

omit h in
theorem weekday_newYear (hpos : 1 ≤ d.ordinal) :
    d.weekday = (weekdayOfNewYear d.year + d.ordinal - 1) % 7 := by
  rw [weekday_eq, weekdayOfNewYear]
  omega

theorem isoWeek_cases :
    1 ≤ d.isoWeek.2 ∧ d.isoWeek.2 ≤ weeksInYear d.isoWeek.1 ∧
      ((d.isoWeek.1 = d.year ∧ isoDay d.isoWeek.1 d.isoWeek.2 d.weekday = d.ordinal) ∨
        (d.isoWeek.1 = d.year - 1 ∧
          isoDay d.isoWeek.1 d.isoWeek.2 d.weekday = d.ordinal + daysInYear (d.year - 1)) ∨
        (d.isoWeek.1 = d.year + 1 ∧
          isoDay d.isoWeek.1 d.isoWeek.2 d.weekday = d.ordinal - daysInYear d.year)) := by
  have hpos := h.ordinal_pos
  have hle := h.ordinal_le
  have hweekday := weekday_newYear hpos
  have hlt := weekdayOfNewYear_lt d.year
  have hweeks := weeksInYear_bounds (d.year - 1)
  simp only [isoWeek]
  by_cases hbefore : (d.ordinal + 9 - d.weekday) / 7 = 0
  · have hyear := weekdayOfNewYear_succ (d.year - 1)
    have hlt' := weekdayOfNewYear_lt (d.year - 1)
    have hdays := weeksInYear_iff (d.year - 1)
    rw [Int.sub_add_cancel] at hyear
    rw [if_pos hbefore]
    dsimp only
    refine ⟨by omega, Nat.le_refl _, .inr (.inl ⟨rfl, ?_⟩)⟩
    rw [isoDay]
    split <;> omega
  · rw [if_neg hbefore]
    by_cases hbehind : weeksInYear d.year < (d.ordinal + 9 - d.weekday) / 7
    · have hyear := weekdayOfNewYear_succ d.year
      have hdays := weeksInYear_iff d.year
      have hmore := weeksInYear_bounds d.year
      have hnext := weeksInYear_bounds (d.year + 1)
      rw [if_pos hbehind]
      dsimp only
      refine ⟨Nat.le_refl _, by omega, .inr (.inr ⟨rfl, ?_⟩)⟩
      rw [isoDay]
      split <;> omega
    · rw [if_neg hbehind]
      dsimp only
      refine ⟨by omega, by omega, .inl ⟨rfl, ?_⟩⟩
      rw [isoDay]
      split <;> omega

theorem ofIsoWeek?_isoWeek (hrange : isInRange d.year = true) :
    ofIsoWeek? d.isoWeek.1 d.isoWeek.2 d.weekday = some d := by
  have hpos := h.ordinal_pos
  have hle := h.ordinal_le
  have hday := ofOrdinal?_ordinal h hrange
  obtain ⟨hweek, hweeks, hcases⟩ := isoWeek_cases h
  rw [ofIsoWeek?_eq hweek hweeks, ofOffset?]
  rcases hcases with ⟨hyear, hiso⟩ | ⟨hyear, hiso⟩ | ⟨hyear, hiso⟩
  · rw [hiso, hyear, if_neg (by omega), if_neg (by omega)]
    exact hday
  · rw [hiso, hyear, if_neg (by omega), if_pos (by omega), Int.sub_add_cancel, Int.add_sub_cancel]
    exact hday
  · rw [hiso, hyear, if_pos (by omega), Int.add_sub_cancel, Int.sub_add_cancel]
    exact hday

theorem isoWeek_year_bounds : d.year - 1 ≤ d.isoWeek.1 ∧ d.isoWeek.1 ≤ d.year + 1 := by
  obtain ⟨-, -, hcases⟩ := isoWeek_cases h
  omega

theorem isoWeek_year_ge (hyear : 1970 ≤ d.year) : 1970 ≤ d.isoWeek.1 := by
  have hpos := h.ordinal_pos
  have hlt := weekday_lt d
  obtain ⟨-, hweeks, hcases⟩ := isoWeek_cases h
  have hbounds := isoWeek_year_bounds h
  refine Int.not_lt.mp fun hless => ?_
  have hlast : d.isoWeek.1 = 1969 := by omega
  have hnew : weekdayOfNewYear 1969 = 2 := by decide
  have hnumber : weeksInYear 1969 = 52 := by decide
  have hdays : daysInYear 1969 = 365 := by decide
  rw [hlast] at hweeks hcases
  have hyear : d.year = 1970 := by omega
  rw [isoDay, hnew, if_pos (by decide), hyear, show (1970 : Int) - 1 = 1969 by decide, hdays] at hcases
  omega

end Date

end LogTail.Time
