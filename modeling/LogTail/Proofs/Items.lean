import LogTail.Proofs.Written

namespace LogTail.Time

open Json (DigitChars)
open Layout Taken

namespace Item

def writable : Item → Bool
  | .error | .fixed .offsetPermissive => false
  | _ => true

def chars (t : DateTime) (item : Item) : List Char := ((writeItem? t item).getD "").toList

variable {t : DateTime}

theorem writeItem?_eq (item : Item) :
    writeItem? t item = if item.writable then some (String.ofList (item.chars t)) else none := by
  cases item with
  | fixed f => cases f <;> simp [chars, writable, writeItem?, writeFixed?]
  | _ => simp [chars, writable, writeItem?]

/-- Literal text has no blanks, and blanks are nothing else. -/
def WellFormed : Item → Prop
  | .literal s => s ≠ [] ∧ ∀ c ∈ s, isSpace c = false
  | .space s => s ≠ [] ∧ ∀ c ∈ s, isSpace c = true
  | _ => True

instance : (item : Item) → Decidable item.WellFormed
  | .literal _ | .space _ => inferInstanceAs (Decidable (_ ∧ _))
  | .numeric _ _ | .fixed _ | .error => inferInstanceAs (Decidable True)

end Item

namespace Fixed

def slots : Fixed → List Slot
  | .shortMonth | .longMonth => [.month]
  | .shortWeekday | .longWeekday => [.weekday]
  | .lowerAmPm | .upperAmPm => [.half]
  | .offset | .offsetColon | .offsetDoubleColon | .offsetTripleColon | .offsetPermissive => [.offset]
  | .rfc3339 => [.year, .month, .day, .half, .hour12, .minute, .second, .offset]
  | _ => []

def precision? : Fixed → Option Nat
  | .fraction | .fraction9 | .digits9 | .rfc3339 => some 9
  | .fraction6 | .digits6 => some 6
  | .fraction3 | .digits3 => some 3
  | _ => none

/-- Does an item end where it should, with this text behind it? An offset has hours and minutes. -/
def apart (f : Fixed) (rest : List Char) : Bool :=
  match f with
  | .fraction => !opens (fun c => c.isDigit || c = '.') rest
  | .zoneName => !opens (fun c => !isSpace c) rest
  | .offsetDoubleColon | .offsetTripleColon | .offsetPermissive => false
  | _ => true

end Fixed

namespace Item

def slots : Item → List Slot
  | .numeric n _ => n.slots
  | .fixed f => f.slots
  | _ => []

def precision? : Item → Option Nat
  | .numeric .nanosecond _ => some 9
  | .fixed f => f.precision?
  | _ => none

def apart (item : Item) (rest : List Char) : Bool :=
  match item with
  | .numeric n p => n.fills p || !opens Char.isDigit rest
  | .fixed f => f.apart rest
  | .error => false
  | _ => true

def isBlank : Item → Bool
  | .space _ => true
  | _ => false

def left (item : Item) (rest : List Char) : List Char := if item.isBlank then trimStart rest else rest

end Item

namespace Fields.Tells

variable {t : DateTime} {digits : Nat} {slots : List Slot} {f : Fields} (hf : f.Tells t digits slots)
include hf

theorem readMonth (h : t.InCentury) (rest : List Char) :
    ∃ g, Fields.readFixed .shortMonth f ((Item.fixed .shortMonth).chars t ++ rest) = .ok (g, rest) ∧
      Fields.readFixed .longMonth f ((Item.fixed .longMonth).chars t ++ rest) = .ok (g, rest) ∧
      g.Tells t digits (slots ++ [.month]) := by
  have hpos := h.date.month_pos
  have hle := h.date.month_le
  obtain ⟨hshort, hlong⟩ := @monthName_append (t.date.month - 1) (by omega) rest
  obtain ⟨g, hset, hg⟩ := hf.set h .month (by simp)
  have hvalue : ((t.date.month - 1 : Nat) : Int) + 1 = (t.date.month : Int) := by omega
  have hput : f.setMonth t.date.month = .ok g := hset
  refine ⟨g, ?_, ?_, hg⟩
  · change Fields.readFixed .shortMonth f ((shortName (monthNames.getD (t.date.month - 1) "")).toList ++ rest) = _
    simp only [Fields.readFixed, hshort, bind, Except.bind, hvalue, hput, pure, Except.pure]
  · change Fields.readFixed .longMonth f ((monthNames.getD (t.date.month - 1) "").toList ++ rest) = _
    simp only [Fields.readFixed, hlong, bind, Except.bind, hvalue, hput, pure, Except.pure]

theorem readWeekday (rest : List Char) :
    ∃ g, Fields.readFixed .shortWeekday f ((Item.fixed .shortWeekday).chars t ++ rest) = .ok (g, rest) ∧
      Fields.readFixed .longWeekday f ((Item.fixed .longWeekday).chars t ++ rest) = .ok (g, rest) ∧
      g.Tells t digits (slots ++ [.weekday]) := by
  obtain ⟨hshort, hlong⟩ := weekdayName_append (Date.weekday_lt t.date) rest
  obtain ⟨g, hset, hg⟩ := hf.setWeekday
  refine ⟨g, ?_, ?_, hg⟩
  · change Fields.readFixed .shortWeekday f ((shortName (weekdayNames.getD t.date.weekday "")).toList ++ rest) = _
    simp only [Fields.readFixed, hshort, bind, Except.bind, hset, pure, Except.pure]
  · change Fields.readFixed .longWeekday f ((weekdayNames.getD t.date.weekday "").toList ++ rest) = _
    simp only [Fields.readFixed, hlong, bind, Except.bind, hset, pure, Except.pure]

theorem readHalf (h : t.InCentury) (rest : List Char) :
    ∃ g, Fields.readFixed .lowerAmPm f ((Item.fixed .lowerAmPm).chars t ++ rest) = .ok (g, rest) ∧
      Fields.readFixed .upperAmPm f ((Item.fixed .upperAmPm).chars t ++ rest) = .ok (g, rest) ∧
      g.Tells t digits (slots ++ [.half]) := by
  obtain ⟨g, hset, hg⟩ := hf.setHalf h
  obtain ⟨ham, hAM, hpm, hPM⟩ := half_append rest
  refine ⟨g, ?_, ?_, hg⟩
  all_goals by_cases hnoon : t.clock.hour < 12
  all_goals
    simp only [hnoon, decide_true, decide_false, Bool.not_true, Bool.not_false] at hset
    simp [Item.chars, writeItem?, writeFixed?, hnoon, Fields.readFixed, ham, hAM, hpm, hPM, hset, bind,
      Except.bind, pure, Except.pure]

theorem readFixed (h : t.InCentury) {fx : Fixed} {rest : List Char}
    (hprecision : ∀ q ∈ fx.precision?, q = digits) (hapart : fx.apart rest = true) :
    ∃ g, Fields.readFixed fx f ((Item.fixed fx).chars t ++ rest) = .ok (g, rest) ∧
      g.Tells t digits (slots ++ fx.slots) := by
  cases fx with
  | shortMonth =>
      obtain ⟨g, hshort, -, hg⟩ := hf.readMonth h rest
      exact ⟨g, hshort, hg⟩
  | longMonth =>
      obtain ⟨g, -, hlong, hg⟩ := hf.readMonth h rest
      exact ⟨g, hlong, hg⟩
  | shortWeekday =>
      obtain ⟨g, hshort, -, hg⟩ := hf.readWeekday rest
      exact ⟨g, hshort, hg⟩
  | longWeekday =>
      obtain ⟨g, -, hlong, hg⟩ := hf.readWeekday rest
      exact ⟨g, hlong, hg⟩
  | lowerAmPm =>
      obtain ⟨g, hlower, -, hg⟩ := hf.readHalf h rest
      exact ⟨g, hlower, hg⟩
  | upperAmPm =>
      obtain ⟨g, -, hupper, hg⟩ := hf.readHalf h rest
      exact ⟨g, hupper, hg⟩
  | fraction =>
      have hopen : opens (fun c => c.isDigit || c = '.') rest = false := by
        simpa [Fixed.apart] using hapart
      obtain ⟨g, hread, hg⟩ := hf.readFraction (hprecision 9 rfl).symm rest hopen
      exact ⟨g, hread, by simpa [Fixed.slots] using hg⟩
  | fraction3 | fraction6 | fraction9 =>
      obtain rfl := hprecision _ rfl
      obtain ⟨g, hread, hg⟩ := hf.readPoint (by decide) (by decide) rest
      refine ⟨g, ?_, by simpa [Fixed.slots] using hg⟩
      simpa [Item.chars, writeItem?, writeFixed?, Fields.readFixed] using hread
  | digits3 | digits6 | digits9 =>
      obtain rfl := hprecision _ rfl
      obtain ⟨g, hread, hg⟩ := hf.readFixedFraction (by decide) (by decide) rest
      refine ⟨g, ?_, by simpa [Fixed.slots] using hg⟩
      simpa [Item.chars, writeItem?, writeFixed?, Fields.readFixed] using hread
  | zoneName =>
      have hopen : opens (fun c => !isSpace c) rest = false := by simpa [Fixed.apart] using hapart
      refine ⟨f, ?_, by simpa [Fixed.slots] using hf⟩
      have htext : (Item.fixed .zoneName).chars t = ['U', 'T', 'C'] := by
        simp [Item.chars, writeItem?, writeFixed?]
      have hletters : ∀ c ∈ ['U', 'T', 'C'], (!isSpace c) = true := by
        simp [isSpace_alpha]
      rw [htext, Fields.readFixed, List.dropWhile_append_of_pos hletters, dropWhile_not_opens hopen]
  | offset =>
      obtain ⟨g, hread, hg⟩ := hf.readOffset (by rw [trimStart_plus]; exact (offset_append rest).1)
      refine ⟨g, ?_, hg⟩
      simpa [Item.chars, writeItem?, writeFixed?, Fields.readFixed] using hread
  | offsetColon =>
      obtain ⟨g, hread, hg⟩ := hf.readOffset (by rw [trimStart_plus]; exact (offset_append rest).2)
      refine ⟨g, ?_, hg⟩
      simpa [Item.chars, writeItem?, writeFixed?, Fields.readFixed] using hread
  | rfc3339 =>
      have hzone := zone_append rest
      rw [← trimStart_plus] at hzone
      obtain ⟨g, hread, hg⟩ := hf.readRfc3339 h (hprecision 9 rfl).symm rfl hzone
      refine ⟨g, ?_, hg⟩
      have htext : (Item.fixed .rfc3339).chars t ++ rest = separatedText t '-' [.year, .month, .day] ++ 'T' ::
          (separatedText t ':' [.hour, .minute, .second] ++
            ((writeFraction (t.clock.nano % 1000000000)).toList ++
              '+' :: '0' :: '0' :: ':' :: '0' :: '0' :: rest)) := by
        simp [Item.chars, writeItem?, writeFixed?, writeRfc3339, separatedText, writeNumeric, zeros]
      rw [htext]
      exact hread
  | offsetDoubleColon | offsetTripleColon | offsetPermissive => simp [Fixed.apart] at hapart

theorem readItem (h : t.InCentury) {item : Item} {rest : List Char} (hwf : item.WellFormed)
    (hprecision : ∀ q ∈ item.precision?, q = digits) (hapart : item.apart rest = true) :
    ∃ g, Fields.readItem item f (item.chars t ++ rest) = .ok (g, item.left rest) ∧
      g.Tells t digits (slots ++ item.slots) := by
  cases item with
  | literal s =>
      refine ⟨f, ?_, by simpa [Item.slots] using hf⟩
      simp [Fields.readItem, Item.chars, writeItem?, literal_append, Item.left, Item.isBlank, bind, Except.bind,
        pure, Except.pure]
  | space s =>
      refine ⟨f, ?_, by simpa [Item.slots] using hf⟩
      have htrim := trimStart_blanks hwf.2 rest
      simp [Fields.readItem, Item.chars, writeItem?, Item.left, Item.isBlank, htrim]
  | numeric n p =>
      have hend : n.fills p = true ∨ opens Char.isDigit rest = false := by simpa [Item.apart] using hapart
      have hn : n = .nanosecond → digits = 9 := by
        rintro rfl
        exact (hprecision 9 rfl).symm
      exact hf.read h n hn rest hend
  | fixed fx => exact hf.readFixed h hprecision hapart
  | error => simp [Item.apart] at hapart

end Fields.Tells

namespace Taken

theorem opens_digits {ds : List Char} (hds : DigitChars ds) : opens Char.isDigit ds = true := by
  obtain ⟨d, ds, rfl⟩ := List.exists_cons_of_ne_nil hds.1
  exact hds.2 d (by simp)

theorem opens_zeros (width n : Nat) : opens Char.isDigit (zeros width n).toList = true := by
  rw [← shown_zero]
  exact opens_digits (digitChars_shown width .zero n)

theorem opens_monthNames : ∀ i < 12, opens Char.isAlpha (monthNames.getD i "").toList = true ∧
    opens Char.isAlpha ((monthNames.getD i "").toList.take 3) = true := by
  decide

theorem opens_weekdayNames : ∀ i < 7, opens Char.isAlpha (weekdayNames.getD i "").toList = true ∧
    opens Char.isAlpha ((weekdayNames.getD i "").toList.take 3) = true := by
  decide

theorem ne_nil_of_opens {p : Char → Bool} {cs : List Char} (h : opens p cs = true) : cs ≠ [] := by
  rintro rfl
  simp [opens] at h

theorem opens_apart {p q : Char → Bool} {cs : List Char} (hpq : ∀ c, p c = true → q c = false)
    (h : opens p cs = true) : opens q cs = false := by
  cases cs with
  | nil => rfl
  | cons c cs => exact hpq c h

theorem opens_mono {p q : Char → Bool} {cs : List Char} (hpq : ∀ c, p c = true → q c = true)
    (h : opens p cs = true) : opens q cs = true := by
  cases cs with
  | nil => simp [opens] at h
  | cons c cs => exact hpq c h

end Taken

namespace Fixed

def isPoint : Fixed → Bool
  | .fraction | .fraction3 | .fraction6 | .fraction9 => true
  | _ => false

def isDigits : Fixed → Bool
  | .digits3 | .digits6 | .digits9 | .rfc3339 => true
  | _ => false

def begins (f : Fixed) (c : Char) : Bool :=
  if f.isPoint then c = '.' else if f.isDigits then c.isDigit else c.isAlpha || c = '+'

theorem not_space_of_begins {f : Fixed} {c : Char} (h : f.begins c = true) : isSpace c = false := by
  unfold begins at h
  split at h
  · obtain rfl : c = '.' := by simpa using h
    exact isSpace_eq_false (by decide) (by decide)
  split at h
  · exact isSpace_digit h
  rcases (Bool.or_eq_true _ _).mp h with halpha | hplus
  · exact isSpace_alpha halpha
  · obtain rfl : c = '+' := by simpa using hplus
    exact isSpace_eq_false (by decide) (by decide)

theorem opens_chars {t : DateTime} (h : t.InCentury) {f : Fixed} (hw : (Item.fixed f).writable = true) :
    f = .fraction ∧ (Item.fixed f).chars t = [] ∨ opens f.begins ((Item.fixed f).chars t) = true := by
  have hpos := h.date.month_pos
  have hle := h.date.month_le
  have hmonth := opens_monthNames (t.date.month - 1) (by omega)
  have hweekday := opens_weekdayNames t.date.weekday (Date.weekday_lt t.date)
  have halpha {g : Fixed} (hpoint : g.isPoint = false) (hdigits : g.isDigits = false) (c : Char)
      (hc : c.isAlpha = true) : g.begins c = true := by
    simp [begins, hpoint, hdigits, hc]
  cases f with
  | shortMonth =>
      refine .inr (opens_mono (halpha rfl rfl) ?_)
      simpa [Item.chars, writeItem?, writeFixed?, shortName] using hmonth.2
  | longMonth =>
      refine .inr (opens_mono (halpha rfl rfl) ?_)
      simpa [Item.chars, writeItem?, writeFixed?] using hmonth.1
  | shortWeekday =>
      refine .inr (opens_mono (halpha rfl rfl) ?_)
      simpa [Item.chars, writeItem?, writeFixed?, shortName] using hweekday.2
  | longWeekday =>
      refine .inr (opens_mono (halpha rfl rfl) ?_)
      simpa [Item.chars, writeItem?, writeFixed?] using hweekday.1
  | lowerAmPm | upperAmPm =>
      refine .inr (opens_mono (halpha rfl rfl) ?_)
      simp only [Item.chars, writeItem?, writeFixed?, Option.getD_some]
      split <;> decide
  | fraction =>
      have hdot : Fixed.begins .fraction '.' = true := rfl
      rcases writeFraction_cases (Nat.mod_lt t.clock.nano (show 0 < 1000000000 by decide)) with
        ⟨-, hwrite⟩ | ⟨k, m, -, -, -, -, hwrite⟩
      · exact .inl ⟨rfl, by simp [Item.chars, writeItem?, writeFixed?, hwrite]⟩
      · refine .inr ?_
        simp [Item.chars, writeItem?, writeFixed?, hwrite, opens, hdot]
  | fraction3 | fraction6 | fraction9 =>
      refine .inr ?_
      simp [Item.chars, writeItem?, writeFixed?, opens, begins, isPoint]
  | digits3 | digits6 | digits9 => exact .inr (opens_zeros _ _)
  | rfc3339 =>
      refine .inr ?_
      have hyear := opens_zeros 4 t.date.year.toNat
      simp only [Item.chars, writeItem?, writeFixed?, writeRfc3339, Option.getD_some, String.toList_append,
        List.append_assoc]
      rw [opens_append (ne_nil_of_opens hyear)]
      exact hyear
  | offsetPermissive => simp [Item.writable] at hw
  | _ =>
      refine .inr ?_
      simp only [Item.chars, writeItem?, writeFixed?, Option.getD_some]
      decide

end Fixed

end LogTail.Time
