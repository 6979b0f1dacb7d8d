import LogTail.Proofs.Items
import LogTail.Ranking.Basic

namespace LogTail.Time

open Layout Taken

namespace Layout

def chars (t : DateTime) (layout : Layout) : List Char := layout.flatMap (Item.chars t)

variable {t : DateTime}

theorem write?_eq (layout : Layout) :
    layout.write? t = if layout.all Item.writable then some (String.ofList (chars t layout)) else none := by
  have hmap : layout.mapM (writeItem? t) =
      if layout.all Item.writable then some (layout.map fun item => String.ofList (item.chars t))
      else none := by
    induction layout with
    | nil => rfl
    | cons item layout ih =>
        rw [List.mapM_cons, ih, Item.writeItem?_eq]
        cases hitem : item.writable <;> cases hall : layout.all Item.writable <;> simp [hitem, hall]
  rw [write?, hmap]
  split
  · rw [Option.map_some, Option.some.injEq, ← String.toList_inj, String.toList_join]
    simp [chars, List.flatMap_map]
  · rfl

end Layout

namespace Layout

theorem specifier_wellFormed (c : Char) : ∀ item ∈ specifier c, item.WellFormed := by
  unfold specifier
  split <;> simp [Item.WellFormed, zero, lit, blank, slashed, clock, isSpace_eq_false, isSpace_blank]

theorem longSpecifier_wellFormed (c : Char) (cs : List Char) :
    ∀ item ∈ (longSpecifier c cs).1, item.WellFormed := by
  unfold longSpecifier
  split
  all_goals first | exact specifier_wellFormed c | simp [Item.WellFormed]

theorem repad_wellFormed (p : Pad) (layout : Layout) : ∀ item ∈ repad p layout, item.WellFormed := by
  unfold repad
  split <;> simp [Item.WellFormed]

theorem directive_wellFormed (cs : List Char) : ∀ item ∈ (directive cs).1, item.WellFormed := by
  unfold directive
  split
  · simp [Item.WellFormed]
  split
  · simp [Item.WellFormed]
  · exact repad_wellFormed _ _
  split
  · split <;> simp [Item.WellFormed]
  · exact longSpecifier_wellFormed _ _

theorem readFrom_wellFormed (fuel : Nat) (cs : List Char) : ∀ item ∈ readFrom fuel cs, item.WellFormed := by
  induction fuel generalizing cs with
  | zero => simp [readFrom]
  | succ fuel ih =>
      unfold readFrom
      split
      · simp
      · intro item hitem
        exact (List.mem_append.mp hitem).elim (directive_wellFormed _ item) (ih _ item)
      · next c t _ =>
        split
        · next hspace =>
            intro item hitem
            rcases List.mem_cons.mp hitem with rfl | hmem
            · refine ⟨by simp, fun d hd => ?_⟩
              rcases List.mem_cons.mp hd with rfl | hd
              · exact hspace
              · exact List.mem_takeWhile_imp hd
            · exact ih _ item hmem
        · next hspace =>
            intro item hitem
            rcases List.mem_cons.mp hitem with rfl | hmem
            · refine ⟨by simp, fun d hd => ?_⟩
              rcases List.mem_cons.mp hd with rfl | hd
              · simpa using hspace
              · have htext := List.mem_takeWhile_imp hd
                simp only [Bool.and_eq_true, Bool.not_eq_true'] at htext
                exact htext.1
            · exact ih _ item hmem

theorem ofText_wellFormed (s : String) : ∀ item ∈ ofText s, item.WellFormed := readFrom_wellFormed _ _

end Layout

namespace Layout

def mayOpen (p : Char → Bool) : Layout → Bool
  | [] => false
  | .literal s :: _ => opens p s
  | .space _ :: _ => false
  | .numeric _ _ :: _ => true
  | .fixed f :: rest => f.isDigits || (f.isPoint && p '.') || (f = .fraction && mayOpen p rest)
  | .error :: _ => true

end Layout

namespace Item

def endsBefore (rest : Layout) : Item → Bool
  | .numeric n p => n.fills p || !mayOpen Char.isDigit rest
  | .fixed .fraction => !mayOpen (fun c => c.isDigit || c = '.') rest
  | .fixed .zoneName =>
    match rest with
    | [] => true
    | item :: _ => item.isBlank
  | .fixed .offsetDoubleColon | .fixed .offsetTripleColon => false
  | _ => true

end Item

namespace Layout

/-- Does every item end where it should? Behind blanks, a fraction could not be told from what follows
it. -/
def separated : Bool → Layout → Bool
  | _, [] => true
  | trimmed, item :: rest =>
    !(trimmed && item = .fixed .fraction) && item.endsBefore rest && separated item.isBlank rest

/-- A layout that can be written, of items as they are read from a text. -/
structure Sound (layout : Layout) : Prop where
  wellFormed : ∀ item ∈ layout, item.WellFormed
  writable : ∀ item ∈ layout, item.writable = true

theorem Sound.tail {item : Item} {layout : Layout} (h : Sound (item :: layout)) : Sound layout :=
  ⟨fun i hi => h.wellFormed i (List.mem_cons_of_mem _ hi),
    fun i hi => h.writable i (List.mem_cons_of_mem _ hi)⟩

variable {t : DateTime}

theorem chars_cons (t : DateTime) (item : Item) (layout : Layout) :
    chars t (item :: layout) = item.chars t ++ chars t layout := List.flatMap_cons

theorem plain_of_numeric {c : Char} (h : c.isDigit = true ∨ c = '.') :
    isSpace c = false ∧ (c.isAlpha || c = '+') = false := by
  rcases h with hdigit | rfl
  · have hbounds := digit_bounds hdigit
    refine ⟨isSpace_digit hdigit, Bool.or_eq_false_iff.mpr ⟨?_, decide_eq_false ?_⟩⟩
    · by_contra halpha
      have := alpha_bounds (by simpa using halpha)
      omega
    · rintro rfl
      simp at hbounds
  · decide

theorem opens_of_mayOpen (h : t.InCentury) {p : Char → Bool}
    (hp : ∀ c, p c = true → c.isDigit = true ∨ c = '.') {layout : Layout} (hlayout : Sound layout)
    (hmay : mayOpen p layout = false) : opens p (chars t layout) = false := by
  induction layout with
  | nil => rfl
  | cons item layout ih =>
      have hwf := hlayout.wellFormed item (by simp)
      have hplain {c : Char} (hc : isSpace c = true ∨ (c.isAlpha || c = '+') = true) : p c = false := by
        by_contra hnot
        obtain ⟨hspace, halpha⟩ := plain_of_numeric (hp c (by simpa using hnot))
        simp [hspace, halpha] at hc
      rw [chars_cons]
      cases item with
      | literal s =>
          have hchars : (Item.literal s).chars t = s := by simp [Item.chars, writeItem?]
          rw [hchars, opens_append hwf.1]
          exact hmay
      | space s =>
          obtain ⟨c, s, rfl⟩ := List.exists_cons_of_ne_nil hwf.1
          have hchars : (Item.space (c :: s)).chars t = c :: s := by simp [Item.chars, writeItem?]
          rw [hchars]
          exact hplain (.inl (hwf.2 c (by simp)))
      | numeric n q => simp [mayOpen] at hmay
      | error => simp [mayOpen] at hmay
      | fixed f =>
          simp only [mayOpen, Bool.or_eq_false_iff, Bool.and_eq_false_iff, decide_eq_false_iff_not] at hmay
          obtain ⟨⟨hdigits, hpoint⟩, hrest⟩ := hmay
          rcases Fixed.opens_chars h (hlayout.writable (.fixed f) (by simp)) with ⟨rfl, hnil⟩ | hopen
          · rw [hnil, List.nil_append]
            exact ih hlayout.tail (hrest.resolve_left (by simp))
          · rw [opens_append (ne_nil_of_opens hopen)]
            refine opens_apart (fun c hc => ?_) hopen
            cases hdot : f.isPoint with
            | true =>
                obtain rfl : c = '.' := by simpa [Fixed.begins, hdot] using hc
                exact hpoint.resolve_left (by simp [hdot])
            | false => exact hplain (.inr (by simpa [Fixed.begins, hdot, hdigits] using hc))

end Layout

namespace Item

variable {t : DateTime} (h : t.InCentury) {item : Item} {layout : Layout} (hlayout : Sound (item :: layout))
include h hlayout

theorem apart_of_endsBefore (hends : item.endsBefore layout = true) :
    item.apart (Layout.chars t layout) = true := by
  have hopen {p : Char → Bool} (hp : ∀ c, p c = true → c.isDigit = true ∨ c = '.')
      (hmay : (!mayOpen p layout) = true) : (!opens p (Layout.chars t layout)) = true := by
    rw [Bool.not_eq_true'] at hmay ⊢
    exact opens_of_mayOpen h hp hlayout.tail hmay
  cases item with
  | literal s | space s => rfl
  | error => exact absurd (hlayout.writable .error (by simp)) (by simp [writable])
  | numeric n p =>
      rw [endsBefore, Bool.or_eq_true] at hends
      rw [apart, Bool.or_eq_true]
      exact hends.imp_right (hopen fun c hc => .inl hc)
  | fixed f =>
      cases f with
      | fraction => exact hopen (by simp) hends
      | zoneName =>
          cases layout with
          | nil => rfl
          | cons next layout =>
              cases next with
              | space s =>
                  have hwf := hlayout.wellFormed (.space s) (by simp)
                  obtain ⟨c, s, rfl⟩ := List.exists_cons_of_ne_nil hwf.1
                  have hblank := hwf.2 c (by simp)
                  simp [apart, Fixed.apart, Layout.chars_cons, chars, writeItem?, opens, hblank]
              | _ => simp [endsBefore, isBlank] at hends
      | offsetDoubleColon | offsetTripleColon => simp [endsBefore] at hends
      | offsetPermissive =>
          exact absurd (hlayout.writable (.fixed .offsetPermissive) (by simp)) (by simp [writable])
      | _ => rfl

theorem readItem_trimStart (hne : item ≠ .fixed .fraction) (f : Fields) (rest : List Char) :
    Fields.readItem item f (trimStart (item.chars t ++ rest)) =
      Fields.readItem item f (item.chars t ++ rest) := by
  have hwf := hlayout.wellFormed item (by simp)
  cases item with
  | error => rfl
  | space s => simp only [Fields.readItem, trimStart_trimStart]
  | numeric n p => simp only [Fields.readItem, Numeric.read, Numeric.take, trimStart_trimStart]
  | literal s =>
      obtain ⟨c, s, rfl⟩ := List.exists_cons_of_ne_nil hwf.1
      have hplain : opens isSpace ((Item.literal (c :: s)).chars t ++ rest) = false := by
        simp [chars, writeItem?, opens, hwf.2 c (by simp)]
      rw [trimStart, dropWhile_not_opens hplain]
  | fixed fx =>
      rcases Fixed.opens_chars h (hlayout.writable (.fixed fx) (by simp)) with ⟨rfl, -⟩ | hopen
      · exact absurd rfl hne
      · have hplain : opens isSpace ((Item.fixed fx).chars t ++ rest) = false := by
          rw [opens_append (ne_nil_of_opens hopen)]
          exact opens_apart (fun c => Fixed.not_space_of_begins) hopen
        rw [trimStart, dropWhile_not_opens hplain]

end Item

namespace Layout

def slots (layout : Layout) : List Slot := layout.flatMap Item.slots

variable {t : DateTime} {digits : Nat}

theorem readItems_chars (h : t.InCentury) {layout : Layout} {trimmed : Bool} (hlayout : Sound layout)
    (hsep : separated trimmed layout = true)
    (hprecision : ∀ item ∈ layout, ∀ q ∈ item.precision?, q = digits) {slots : List Slot} {f : Fields}
    (hf : f.Tells t digits slots) :
    ∃ g, Fields.readItems layout f (if trimmed then trimStart (chars t layout) else chars t layout) =
        .ok (g, []) ∧ g.Tells t digits (slots ++ layout.slots) := by
  induction layout generalizing trimmed f slots with
  | nil => exact ⟨f, by cases trimmed <;> rfl, by simpa [Layout.slots] using hf⟩
  | cons item layout ih =>
      simp only [separated, Bool.and_eq_true, Bool.not_eq_true', Bool.and_eq_false_iff,
        decide_eq_false_iff_not] at hsep
      obtain ⟨⟨hfraction, hends⟩, htail⟩ := hsep
      obtain ⟨g, hread, hg⟩ := hf.readItem h (hlayout.wellFormed item (by simp)) (hprecision item (by simp))
        (Item.apart_of_endsBefore h hlayout hends)
      obtain ⟨g', hread', hg'⟩ := ih hlayout.tail htail
        (fun i hi => hprecision i (List.mem_cons_of_mem _ hi)) hg
      have hfirst : Fields.readItem item f
          (if trimmed then trimStart (chars t (item :: layout)) else chars t (item :: layout)) =
            .ok (g, item.left (chars t layout)) := by
        rw [chars_cons]
        cases trimmed with
        | false => exact hread
        | true =>
            rw [if_pos rfl, Item.readItem_trimStart h hlayout (hfraction.resolve_left (by simp))]
            exact hread
      refine ⟨g', ?_, by simpa [Layout.slots] using hg'⟩
      rw [Fields.readItems, hfirst]
      exact hread'

/-- No item runs into the next one, and fractions of a second all have the same number of digits. -/
structure Unambiguous (layout : Layout) : Prop where
  separated : layout.separated false = true
  precision : (layout.filterMap Item.precision?).Pairwise (· = ·)

theorem Unambiguous.one_precision {layout : Layout} (h : layout.Unambiguous) :
    ∃ digits, ∀ item ∈ layout, ∀ q ∈ item.precision?, q = digits := by
  have hmem {item : Item} (hitem : item ∈ layout) {q : Nat} (hq : q ∈ item.precision?) :
      q ∈ layout.filterMap Item.precision? := List.mem_filterMap.mpr ⟨item, hitem, hq⟩
  have hall := h.precision
  cases hps : layout.filterMap Item.precision? with
  | nil => exact ⟨0, fun item hitem q hq => absurd (hmem hitem hq) (by simp [hps])⟩
  | cons p ps =>
      refine ⟨p, fun item hitem q hq => ?_⟩
      have hq' := hmem hitem hq
      rw [hps] at hall hq'
      rcases List.mem_cons.mp hq' with rfl | hin
      · rfl
      · exact (List.rel_of_pairwise_cons hall hin).symm

theorem told_empty (t : DateTime) : Fields.told t none [] = Fields.empty := rfl

/-- What a layout writes, it reads as fields of that time. -/
theorem ofText_write (s : String) (hunambiguous : (ofText s).Unambiguous) {sample : String} {t₀ : DateTime}
    (hsample : (ofText s).write? t₀ = some sample) :
    ∃ digits, ∀ t : DateTime, t.InCentury → ∃ text g, (ofText s).write? t = some text ∧
      Fields.ofText (ofText s) text = .ok g ∧ g.Tells t digits (ofText s).slots := by
  obtain ⟨digits, hdigits⟩ := hunambiguous.one_precision
  rw [write?_eq] at hsample
  have hw : (ofText s).all Item.writable = true := by
    by_contra hnot
    simp [hnot] at hsample
  have hsound : Sound (ofText s) := ⟨ofText_wellFormed s, List.all_eq_true.mp hw⟩
  refine ⟨digits, fun t ht => ?_⟩
  obtain ⟨g, hread, hg⟩ := readItems_chars ht hsound hunambiguous.separated hdigits
    ⟨none, by simp, (told_empty t).symm⟩
  refine ⟨_, g, by rw [write?_eq, if_pos hw], ?_, by simpa using hg⟩
  rw [if_neg Bool.false_ne_true] at hread
  rw [Fields.ofText, String.toList_ofList, hread]

end Layout

end LogTail.Time

namespace LogTail.Ranking.Gauge

open Time

theorem sampleTime_inCentury : sampleTime.InCentury :=
  ⟨⟨by decide, by decide, by decide, by decide⟩, by decide, by decide, by decide, by decide, by decide,
    by decide⟩

theorem checkLayout_ok {layout : String} (h : checkLayout layout = .ok ()) :
    ∃ sample u, (Layout.ofText layout).write? sampleTime = some sample ∧
      DateTime.ofText layout .universal sample = .ok u := by
  unfold checkLayout at h
  split at h
  · simp at h
  split at h
  · simp at h
  next sample hsample =>
  split at h
  · simp at h
  next u hu => exact ⟨sample, u, hsample, hu⟩

/-- The check of a layout looks at the date of one time only, and not at which date it is. If no item runs
into the next one, that is enough for all times of the hundred years: their dates are read back. Only a
year of two digits that has to stand for 2070, in the week of 31 December 2069, cannot be told. -/
theorem reads_back_date {layout location : String} {t : DateTime}
    (haccepted : ofMeasure (.timestamp layout location) = .ok (.timestamp layout .universal))
    (hunambiguous : (Layout.ofText layout).Unambiguous) (ht : t.InCentury)
    (hyear : t.date.isoWeek.1 ≤ 2069 ∨ .isoYear ∈ (Layout.ofText layout).slots ∨
      Fields.DatedByYear (Layout.ofText layout).slots) :
    ∃ text u, (Layout.ofText layout).write? t = some text ∧
      value? text (.timestamp layout .universal) = some (.time u) ∧ u.date = t.date := by
  have hcheck : checkLayout layout = .ok () := by
    cases hc : checkLayout layout with
    | error e => simp [ofMeasure, hc, bind, Except.bind] at haccepted
    | ok _ => rfl
  obtain ⟨sample, v, hsample, hv⟩ := checkLayout_ok hcheck
  obtain ⟨digits, hall⟩ := Layout.ofText_write layout hunambiguous hsample
  -- the sample has shown that the fields are enough for a date and, as it is in the afternoon, for an hour
  have henough : Fields.Dated (Layout.ofText layout).slots ∧ Fields.Clocked (Layout.ofText layout).slots := by
    obtain ⟨text, g, htext, hg, nano, -, rfl⟩ := hall sampleTime sampleTime_inCentury
    obtain rfl := Option.some.inj (htext.symm.trans hsample)
    simp only [DateTime.ofText, hg] at hv
    split at hv
    · simp at hv
    next w hw => exact DateTime.dated_of_ofFields sampleTime_inCentury (by decide) hw
  obtain ⟨text, g, htext, hg, nano, -, rfl⟩ := hall t ht
  obtain ⟨u, hu, hdate⟩ := @DateTime.ofFields_told t nano _ ht henough.1 henough.2 hyear
  exact ⟨text, u, htext, by simp [value?, DateTime.ofText, hg, hu, Zone.toUniversal], hdate⟩

theorem reads_back_date_leap_day :
    ∃ text u, (Layout.ofText "%Y-%m-%d").write? ⟨⟨2024, 2, 29⟩, ⟨0, 0, 0, 0⟩⟩ = some text ∧
      value? text (.timestamp "%Y-%m-%d" .universal) = some (.time u) ∧ u.date = ⟨2024, 2, 29⟩ :=
  @reads_back_date "%Y-%m-%d" "UTC" _ (by decide) ⟨by decide, by decide⟩
    ⟨⟨by decide, by decide, by decide, by decide⟩, by decide, by decide, by decide, by decide, by decide,
      by decide⟩ (.inl (by decide))

/-- A month without its zero runs into the day, and what was written for January is read as October. -/
example : checkLayout "%Y%-m%d" = .ok () ∧
    (Layout.ofText "%Y%-m%d").write? ⟨⟨2006, 1, 2⟩, ⟨0, 0, 0, 0⟩⟩ = some "2006102" ∧
      value? "2006102" (.timestamp "%Y%-m%d" .universal) = some (.time ⟨⟨2006, 10, 2⟩, ⟨0, 0, 0, 0⟩⟩) := by
  decide

end LogTail.Ranking.Gauge
