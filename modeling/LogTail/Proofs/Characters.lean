import LogTail.Proofs.Lines
import LogTail.Proofs.Text

namespace LogTail

open Record Tracker

namespace Utf8

theorem encodeChar_bytes (c : Char) :
    ∃ b t, encodeChar c = b :: t ∧ (b.toNat < 0x80 → t = [] ∧ b.toNat = c.toNat) ∧
      ∀ b' ∈ t, 0x80 ≤ b'.toNat ∧ first b'.toNat = .bad := by
  have hvalid := valid_toNat c
  have hlast {n : Nat} (h : 0x80 ≤ n) (h' : n < 0xC0) :
      0x80 ≤ n.toUInt8.toNat ∧ first n.toUInt8.toNat = .bad := by
    rw [toNat_byte (by omega), first, if_neg (by omega), if_pos (by omega)]
    exact ⟨h, rfl⟩
  unfold encodeChar
  generalize c.toNat = n at *
  dsimp only
  split
  · exact ⟨_, _, rfl, fun _ => ⟨rfl, toNat_byte (by omega)⟩, by simp⟩
  · split
    · refine ⟨_, _, rfl, fun h => ?_, ?_⟩
      · rw [toNat_byte (by omega)] at h
        omega
      · simp only [List.forall_mem_cons]
        exact ⟨hlast (by omega) (by omega), by simp⟩
    · split
      · refine ⟨_, _, rfl, fun h => ?_, ?_⟩
        · rw [toNat_byte (by omega)] at h
          omega
        · simp only [List.forall_mem_cons]
          exact ⟨hlast (by omega) (by omega), hlast (by omega) (by omega), by simp⟩
      · refine ⟨_, _, rfl, fun h => ?_, ?_⟩
        · rw [toNat_byte (by omega)] at h
          omega
        · simp only [List.forall_mem_cons]
          exact ⟨hlast (by omega) (by omega), hlast (by omega) (by omega),
            hlast (by omega) (by omega), by simp⟩

theorem encodeChar_of_mem {c : Char} {b : UInt8} (h : b ∈ encodeChar c) (hb : b.toNat < 0x80) :
    encodeChar c = [b] ∧ c = Char.ofNat b.toNat := by
  obtain ⟨b', t, hbytes, hfirst, hrest⟩ := encodeChar_bytes c
  rw [hbytes] at h
  rcases List.mem_cons.mp h with rfl | h
  · obtain ⟨rfl, hsame⟩ := hfirst hb
    exact ⟨hbytes, by rw [hsame, Char.ofNat_toNat]⟩
  · have := (hrest b h).1
    omega

theorem feed_mem_encode {cs : List Char} : (10 : UInt8) ∈ encode cs ↔ '\n' ∈ cs := by
  constructor
  · intro h
    obtain ⟨c, hc, hb⟩ := List.mem_flatMap.mp h
    rw [(encodeChar_of_mem hb (by decide)).2] at hc
    exact hc
  · exact fun h => List.mem_flatMap.mpr ⟨'\n', h, by decide⟩

theorem getLast_encode {cs : List Char} {b : UInt8} (h : (encode cs).getLast? = some b)
    (hb : b.toNat < 0x80) : cs.getLast? = some (Char.ofNat b.toNat) := by
  induction cs using List.reverseRecOn with
  | nil => simp [encode] at h
  | append_singleton cs c _ =>
      obtain ⟨b', t, hbytes, -⟩ := encodeChar_bytes c
      have hlast : (encodeChar c).getLast? = some b := by
        rw [encode_append, encode_cons, List.getLast?_append, show encode [] = [] from rfl,
          List.append_nil, hbytes] at h
        rw [hbytes, ← h, List.getLast?_eq_some_getLast (List.cons_ne_nil _ _), Option.some_or]
      have hc := (encodeChar_of_mem (List.mem_of_getLast? hlast) hb).2
      rw [List.getLast?_concat, ← hc]

def Begun.Sane (s : Begun) : Prop := 0x80 ≤ s.low ∧ s.high < 0xC0

theorem sane_first {b : Nat} {s : Begun} (h : first b = .more s) : s.Sane := by
  unfold first at h
  repeat' split at h
  all_goals cases h
  all_goals constructor <;> dsimp only <;> omega

theorem sane_continued {s s' : Begun} {b : Nat} (h : continued s b = .more s') : s'.Sane := by
  unfold continued at h
  split at h
  · cases h
  · dsimp only at h
    split at h <;> cases h
    exact ⟨Nat.le_refl 0x80, Nat.le_refl 0xC0⟩

theorem first_of_continued {s : Begun} (hs : s.Sane) {b : Nat} (h : continued s b ≠ .bad) :
    first b = .bad := by
  unfold continued at h
  split at h
  · exact absurd rfl h
  · have := hs.1
    have := hs.2
    rw [first, if_neg (by omega), if_pos (by omega)]

theorem scan_acc (st : Option Begun) (bs : Bytes) (acc : List (Option Char)) :
    scan st bs acc = scan st bs [] ++ acc := by
  induction bs generalizing st acc with
  | nil => cases st <;> rfl
  | cons b t ih =>
      cases st with
      | none =>
          simp only [scan]
          split
          · rw [ih, ih none [_]]; simp
          · exact ih _ _
          · rw [ih, ih none [_]]; simp
      | some s =>
          simp only [scan]
          split
          · rw [ih, ih none [_]]; simp
          · exact ih _ _
          · split
            · rw [ih, ih none [_, _]]; simp
            · rw [ih, ih _ [_]]; simp
            · rw [ih, ih none [_, _]]; simp

@[simp] theorem length_scan_cons (st : Option Begun) (bs : Bytes) (c : Option Char)
    (acc : List (Option Char)) : (scan st bs (c :: acc)).length = (scan st bs acc).length + 1 := by
  rw [scan_acc, scan_acc st bs acc, List.length_append, List.length_append, List.length_cons]
  omega

theorem length_scan_begun {s : Begun} (hs : s.Sane) (bs : Bytes) (acc : List (Option Char)) :
    (scan (some s) bs acc).length ≤ (scan none bs acc).length + 1 := by
  induction bs generalizing s acc with
  | nil => simp [scan]
  | cons b t ih =>
      simp only [scan]
      cases hc : continued s b.toNat with
      | char c => simp [first_of_continued hs (by rw [hc]; simp : continued s b.toNat ≠ .bad)]
      | more s' =>
          simp only [first_of_continued hs (by rw [hc]; simp : continued s b.toNat ≠ .bad),
            length_scan_cons]
          exact Nat.le_succ_of_le (ih (sane_continued hc) acc)
      | bad => cases first b.toNat <;> simp

theorem length_scan_append {st : Option Begun} (hst : ∀ s, st = some s → s.Sane) (as bs : Bytes)
    (acc : List (Option Char)) :
    (scan st (as ++ bs) acc).length ≤ (scan st as acc).length + (scan none bs []).length := by
  induction as generalizing st acc with
  | nil =>
      rw [List.nil_append, scan_acc, List.length_append]
      cases st with
      | none => simp [scan, Nat.add_comm]
      | some s =>
          have := length_scan_begun (hst s rfl) bs []
          simp only [scan, List.length_cons]
          omega
  | cons b t ih =>
      have hnone : ∀ s, (none : Option Begun) = some s → s.Sane := by simp
      cases st with
      | none =>
          simp only [List.cons_append, scan]
          cases hf : first b.toNat with
          | char c => exact ih hnone _
          | more s => exact ih (by rintro _ ⟨⟩; exact sane_first hf) _
          | bad => exact ih hnone _
      | some s =>
          simp only [List.cons_append, scan]
          cases hc : continued s b.toNat with
          | char c => exact ih hnone _
          | more s' => exact ih (by rintro _ ⟨⟩; exact sane_continued hc) _
          | bad =>
              cases hf : first b.toNat with
              | char c => exact ih hnone _
              | more s' => exact ih (by rintro _ ⟨⟩; exact sane_first hf) _
              | bad => exact ih hnone _

theorem decodeLossy_eq (bs : Bytes) :
    decodeLossy bs = (scan none bs []).reverse.map fun c => c.getD (Char.ofNat 0xFFFD) := by
  have h (l : List (Option Char)) (cs : List Char) :
      l.foldl (fun cs c => c.getD (Char.ofNat 0xFFFD) :: cs) cs =
        l.reverse.map (fun c => c.getD (Char.ofNat 0xFFFD)) ++ cs := by
    induction l generalizing cs with
    | nil => rfl
    | cons c l ih => rw [List.foldl_cons, ih]; simp
  rw [decodeLossy, h, List.append_nil]

theorem length_decodeLossy (bs : Bytes) : (decodeLossy bs).length = (scan none bs []).length := by
  simp [decodeLossy_eq]

@[simp] theorem decodeLossy_nil : decodeLossy [] = [] := rfl

@[simp] theorem decodeLossy_encode (cs : List Char) : decodeLossy (encode cs) = cs := by
  rw [decodeLossy_eq, scan_encode, List.append_nil, List.reverse_reverse, List.map_map]
  exact List.map_id cs

theorem length_decodeLossy_flatten (pieces : List Bytes) :
    (decodeLossy pieces.flatten).length ≤ (pieces.flatMap decodeLossy).length := by
  induction pieces with
  | nil => exact Nat.le_refl _
  | cons p ps ih =>
      rw [List.flatten_cons, List.flatMap_cons, List.length_append]
      refine Nat.le_trans ?_ (Nat.add_le_add_left ih _)
      simpa only [length_decodeLossy] using length_scan_append (by simp) p ps.flatten []

theorem scan_bad {bs : Bytes} (h : ∀ b ∈ bs, first b.toNat = .bad) (rest : Bytes)
    (acc : List (Option Char)) :
    (scan none (bs ++ rest) acc).length = bs.length + (scan none rest acc).length := by
  induction bs generalizing acc with
  | nil => simp
  | cons b t ih =>
      simp only [List.cons_append, scan, h b (by simp), List.length_cons]
      rw [ih (fun b hb => h b (List.mem_cons_of_mem _ hb)), length_scan_cons]
      omega

theorem length_scan_pos {st : Option Begun} {bs : Bytes} (h : st ≠ none ∨ bs ≠ []) :
    0 < (scan st bs []).length := by
  induction bs generalizing st with
  | nil =>
      cases st with
      | none => simp at h
      | some s => simp [scan]
  | cons b t ih =>
      cases st with
      | none =>
          simp only [scan]
          cases first b.toNat with
          | char c | bad => simp
          | more s => exact ih (.inl (Option.some_ne_none s))
      | some s =>
          simp only [scan]
          cases continued s b.toNat with
          | char c => simp
          | more s' => exact ih (.inl (Option.some_ne_none s'))
          | bad => cases first b.toNat <;> simp

/-- A character cut in two leaves more characters than there were. -/
theorem length_decodeLossy_cut (before behind : List Char) {c : Char} {n : Nat} (hpos : 0 < n)
    (hlt : n < (encodeChar c).length) :
    before.length + 1 + behind.length <
      (decodeLossy (encode before ++ (encodeChar c).take n)).length +
        (decodeLossy ((encodeChar c).drop n ++ encode behind)).length := by
  obtain ⟨b, t, hbytes, -, hrest⟩ := encodeChar_bytes c
  obtain ⟨m, rfl⟩ : ∃ m, n = m + 1 := ⟨n - 1, by omega⟩
  have hdrop : ∀ b' ∈ (encodeChar c).drop (m + 1), first b'.toNat = .bad := by
    rw [hbytes, List.drop_succ_cons]
    exact fun b' hb' => (hrest b' (List.mem_of_mem_drop hb')).2
  have htaken : 0 < (scan none ((encodeChar c).take (m + 1)) []).length :=
    length_scan_pos (.inr (by simp [hbytes]))
  have hleft : 0 < ((encodeChar c).drop (m + 1)).length := by
    rw [List.length_drop]
    omega
  rw [length_decodeLossy, length_decodeLossy, scan_encode_append, List.append_nil, scan_acc,
    scan_bad hdrop, scan_encode]
  simp only [List.length_append, List.length_reverse, List.length_map, List.length_nil]
  omega

/-- A character of a text lies across a multiple of the limit. -/
def Straddles (limit : Nat) (cs : List Char) : Prop :=
  ∃ before c behind count, cs = before ++ c :: behind ∧
    (encode before).length < count * limit ∧ count * limit < (encode (before ++ [c])).length

theorem boundary_or_inside (cs : List Char) {n : Nat} (h : n ≤ (encode cs).length) :
    (∃ before behind, cs = before ++ behind ∧ (encode before).length = n) ∨
      ∃ before c behind, cs = before ++ c :: behind ∧
        (encode before).length < n ∧ n < (encode (before ++ [c])).length := by
  induction cs generalizing n with
  | nil => exact .inl ⟨[], [], rfl, (Nat.le_zero.mp h).symm⟩
  | cons c cs ih =>
      rw [encode_cons, List.length_append] at h
      by_cases hzero : n = 0
      · exact .inl ⟨[], c :: cs, rfl, hzero.symm⟩
      · by_cases hin : n < (encodeChar c).length
        · exact .inr ⟨[], c, cs, rfl, Nat.pos_of_ne_zero hzero, by simpa [encode] using hin⟩
        · rcases ih (n := n - (encodeChar c).length) (by omega) with
            ⟨before, behind, rfl, hlen⟩ | ⟨before, d, behind, rfl, hlt, hgt⟩
          · refine .inl ⟨c :: before, behind, rfl, ?_⟩
            rw [encode_cons, List.length_append]
            omega
          · refine .inr ⟨c :: before, d, behind, rfl, ?_, ?_⟩
            · rw [encode_cons, List.length_append]
              omega
            · rw [List.cons_append, encode_cons, List.length_append]
              omega

variable {limit : Nat} (hlimit : 0 < limit)
include hlimit

theorem slices_of_not_straddles {cs : List Char} (h : ¬ Straddles limit cs) :
    (chunks limit (encode cs)).flatMap decodeLossy = cs := by
  generalize hbytes : encode cs = bytes
  induction bytes using chunks_induction hlimit generalizing cs with
  | last bytes hfew =>
      rw [chunks_of_le hfew, ← hbytes, List.flatMap_singleton, decodeLossy_encode]
  | more bytes hmore ih =>
      rcases boundary_or_inside cs (n := limit) (by rw [hbytes]; omega) with
        ⟨before, behind, rfl, hlen⟩ | ⟨before, c, behind, hcs, hlt, hgt⟩
      · have hbehind : ¬ Straddles limit behind := by
          rintro ⟨before', c, behind', count, rfl, hlt, hgt⟩
          refine h ⟨before ++ before', c, behind', count + 1, by simp, ?_, ?_⟩
          · rw [encode_append, List.length_append, Nat.succ_mul]
            omega
          · rw [List.append_assoc, encode_append, List.length_append, Nat.succ_mul]
            omega
        have htake : bytes.take limit = encode before := by
          rw [← hbytes, encode_append, List.take_left' hlen]
        have hdrop : bytes.drop limit = encode behind := by
          rw [← hbytes, encode_append, List.drop_left' hlen]
        rw [chunks_of_lt hlimit hmore, List.flatMap_cons, htake, decodeLossy_encode,
          ih hbehind hdrop.symm]
      · exact absurd ⟨before, c, behind, 1, hcs, by omega, by omega⟩ h

theorem slices_of_straddles {cs : List Char} (h : Straddles limit cs) :
    cs.length < ((chunks limit (encode cs)).flatMap decodeLossy).length := by
  obtain ⟨before, c, behind, count, rfl, hlt, hgt⟩ := h
  rw [encode_append, List.length_append, show encode [c] = encodeChar c from List.append_nil _] at hgt
  obtain ⟨m, hm⟩ : ∃ m, count * limit = (encode before).length + m :=
    ⟨count * limit - (encode before).length, by omega⟩
  have hbytes : encode (before ++ c :: behind) = encode before ++ (encodeChar c ++ encode behind) := by
    rw [encode_append, encode_cons]
  have hshort : m < (encodeChar c).length := by omega
  have hfirst : (encode (before ++ c :: behind)).take (count * limit) =
      encode before ++ (encodeChar c).take m := by
    rw [hm, hbytes, List.take_length_add_append, List.take_append_of_le_length (Nat.le_of_lt hshort)]
  have hrest : (encode (before ++ c :: behind)).drop (count * limit) =
      (encodeChar c).drop m ++ encode behind := by
    rw [hm, hbytes, List.drop_length_add_append, List.drop_append_of_le_length (Nat.le_of_lt hshort)]
  have hcut := length_decodeLossy_cut before behind (by omega) hshort
  rw [← hfirst, ← hrest, ← chunks_take_flatten hlimit, ← chunks_drop_flatten hlimit] at hcut
  have hparts := List.take_append_drop count (chunks limit (encode (before ++ c :: behind)))
  calc (before ++ c :: behind).length
      = before.length + 1 + behind.length := by simp; omega
    _ < _ := hcut
    _ ≤ _ := Nat.add_le_add (length_decodeLossy_flatten _) (length_decodeLossy_flatten _)
    _ = _ := by rw [← List.length_append, ← List.flatMap_append, hparts]

/-- The slices of a text, each decoded on its own, make up the text just if no character lies across a
multiple of the limit. -/
theorem slices_iff (cs : List Char) :
    (chunks limit (encode cs)).flatMap decodeLossy = cs ↔ ¬ Straddles limit cs := by
  refine ⟨fun h hacross => ?_, slices_of_not_straddles hlimit⟩
  have := slices_of_straddles hlimit hacross
  rw [h] at this
  exact Nat.lt_irrefl _ this

end Utf8

namespace Lines

open Utf8

def chompText (cs : List Char) : List Char := if cs.getLast? = some '\r' then cs.dropLast else cs

theorem chomp_encode (cs : List Char) : chomp (encode cs) = encode (chompText cs) := by
  by_cases h : cs.getLast? = some '\r'
  · obtain ⟨cs, rfl⟩ := List.getLast?_eq_some_iff.mp h
    rw [chompText, if_pos h, List.dropLast_concat, encode_append]
    exact chomp_append_return _
  · rw [chompText, if_neg h, chomp_of_ne fun hlast => h (getLast_encode hlast (by decide))]

variable {limit : Nat} (hlimit : 0 < limit)
include hlimit

theorem bodies_ofLine (line : Bytes) (start : Nat) :
    (ofLine limit start (chunks limit line)).flatMap (fun l => decodeLossy l.body) =
      (chunks limit (chomp line)).flatMap decodeLossy := by
  induction line using chunks_induction hlimit generalizing start with
  | last line hfew =>
      have hshort : (chomp line).length ≤ limit := by
        rcases chomp_cases line with ⟨-, he⟩ | ⟨-, he⟩
        · rwa [he]
        · rw [he, List.length_append] at hfew
          exact Nat.le_of_add_right_le hfew
      rw [chunks_of_le hfew, chunks_of_le hshort, ofLine]
      split
      · next hempty => simp [hempty]
      · simp
  | more line hmore ih =>
      have hfilled : line.drop limit ≠ [] :=
        List.ne_nil_of_length_pos (by rw [List.length_drop]; omega)
      have hlen : (line.take limit).length = limit := List.length_take_of_le (Nat.le_of_lt hmore)
      have hchomp : chomp line = line.take limit ++ chomp (line.drop limit) := by
        rw [← chomp_append _ hfilled, List.take_append_drop]
      rw [chunks_of_lt hlimit hmore, ofLine_cons (chunks_ne_nil _ _), List.flatMap_cons, ih, hchomp]
      by_cases hempty : chomp (line.drop limit) = []
      · -- the last slice was just the carriage return
        rw [hempty, List.append_nil, chunks_of_le (Nat.le_of_eq hlen), chunks_of_le (Nat.zero_le _)]
        simp
      · have hlonger : limit < (line.take limit ++ chomp (line.drop limit)).length := by
          have := List.length_pos_iff.mpr hempty
          rw [List.length_append]
          omega
        rw [chunks_of_lt hlimit hlonger, List.take_left' hlen, List.drop_left' hlen, List.flatMap_cons]

theorem extent_of_feed {bs : Bytes} (h : bs = [] ∨ bs.getLast? = some 10) :
    extent (pieces limit bs) = bs.length := by
  refine Nat.le_antisymm (extent_pieces_le hlimit bs) (Nat.not_lt.mp fun hlt => ?_)
  have hlast : (bs.drop (extent (pieces limit bs))).getLast? = some 10 := by
    rw [List.getLast?_drop, if_neg (by omega)]
    exact h.resolve_left fun hempty => by simp [hempty] at hlt
  have hcuts := pieces_cuts hlimit (bs.drop (extent (pieces limit bs)))
  rw [pieces_rest hlimit] at hcuts
  cases hcuts with
  | stop hnone => exact (cut_none.mp hnone).1 (List.mem_of_getLast? hlast)

omit hlimit in
theorem drop_feed {head : List Char} (h : head = [] ∨ head.getLast? = some '\n') (n : Nat) :
    (encode head).drop n = [] ∨ ((encode head).drop n).getLast? = some 10 := by
  rcases h with rfl | h
  · exact .inl (by simp [encode])
  · obtain ⟨head, rfl⟩ := List.getLast?_eq_some_iff.mp h
    by_cases hle : (encode (head ++ ['\n'])).length ≤ n
    · exact .inl (List.drop_eq_nil_of_le hle)
    · rw [List.getLast?_drop, if_neg hle, encode_append]
      exact .inr List.getLast?_concat

end Lines

namespace Reader

open Lines Utf8

/-- What comes out of a line of a text, wherever before it reading begins: the bodies of its records make
up the line, without its line feed and one carriage return before that, just if no character lies
across a multiple of the limit in bytes, counted from the start of the line. -/
theorem line_text_iff (r : Reader) (hlimit : 0 < r.maxLogSize) {head line rest : List Char}
    (hhead : head = [] ∨ head.getLast? = some '\n') (hline : '\n' ∉ line)
    (hoffset : r.offset ≤ (encode head).length) {o : Outlet} (ho : o.Willing) :
    let content := encode (head ++ line ++ '\n' :: rest)
    let start := (encode head).length
    let stop := (encode (head ++ line ++ ['\n'])).length
    ∃ bs : List Batch, (r.read content o).1 = .done ∧
      (r.read content o).2.2.accepted = bs.reverse ++ o.accepted ∧
      (((bs.flatMap Batch.records).filter fun a => start ≤ a.span.offset ∧ a.span.offset < stop).flatMap
        (fun a => a.body.toList) = chompText line ↔ ¬ Straddles r.maxLogSize (chompText line)) := by
  intro content start stop
  obtain ⟨bs, hdone, htook, hrecords⟩ := r.read_willing content ho
  refine ⟨bs, hdone, htook.accepted, ?_⟩
  have hcontent : content = encode head ++ (encode line ++ 10 :: encode rest) := by
    simp only [content, encode_append, encode_cons, List.append_assoc]
    rfl
  have hlines : 10 ∉ encode line := fun h => hline (feed_mem_encode.mp h)
  have hle : r.offset ≤ content.length := by
    rw [hcontent, List.length_append]
    omega
  -- the pieces before the line end where it starts
  let before := (encode head).drop r.offset
  have hbefore : r.offset + extent (pieces r.maxLogSize before) = start := by
    rw [extent_of_feed hlimit (drop_feed hhead r.offset), List.length_drop]
    exact Nat.add_sub_of_le hoffset
  obtain ⟨ps, hcuts, hext, hlocate⟩ := cuts_line hlimit hlines (pieces_cuts hlimit (encode rest))
  have hstop : stop = start + extent ps := by
    simp only [stop, start, hext, encode_append, List.length_append]
    rw [Nat.add_assoc]
    rfl
  have hpieces : pieces r.maxLogSize (content.drop r.offset) =
      pieces r.maxLogSize before ++ (ps ++ pieces r.maxLogSize (encode rest)) := by
    rw [hcontent, List.drop_append_of_le_length hoffset, pieces_append hlimit,
      extent_of_feed hlimit (drop_feed hhead r.offset), List.drop_length, List.nil_append,
      (pieces_cuts hlimit _).unique hcuts]
  have hfound : (bs.flatMap Batch.records).filter
        (fun a => start ≤ a.span.offset ∧ a.span.offset < stop) =
      (ofLine r.maxLogSize start (chunks r.maxLogSize (encode line))).map Located.record := by
    have hspans := hcuts.span_pos hlimit
    rw [hrecords, rewound_of_le hle, hpieces, hstop, ← hbefore,
      recordsFrom_within ((pieces_cuts hlimit before).span_pos hlimit)
        (fun p hp => hspans p (List.mem_append_left _ hp)), recordsFrom_eq, hlocate]
  have hbodies : ((bs.flatMap Batch.records).filter
        (fun a => start ≤ a.span.offset ∧ a.span.offset < stop)).flatMap (fun a => a.body.toList) =
      (chunks r.maxLogSize (encode (chompText line))).flatMap decodeLossy := by
    rw [hfound, List.flatMap_map, ← chomp_encode, ← bodies_ofLine hlimit (encode line) start]
    simp only [Located.record, toStringLossy, String.toList_ofList]
  rw [hbodies, slices_iff hlimit]

theorem line_text_iff_between :
    let r : Reader := ⟨⟨"a.log"⟩, none, ⟨⟨[120]⟩, 1, []⟩, 4, 100⟩
    let text := ['x', '\n'] ++ ['a', 'a', 'é', 'b', '\r'] ++ '\n' :: ['y']
    ¬ Straddles 4 ['a', 'a', 'é', 'b'] ∧
      ∃ bs : List Batch, (r.read (encode text) .willing).1 = .done ∧
        (r.read (encode text) .willing).2.2.accepted = bs.reverse ∧
        (((bs.flatMap Batch.records).filter fun a => 2 ≤ a.span.offset ∧ a.span.offset < 9).flatMap
          fun a => a.body.toList) = ['a', 'a', 'é', 'b'] := by
  intro r text
  have hclear : ¬ Straddles 4 ['a', 'a', 'é', 'b'] := (slices_iff (by decide) _).mp (by decide)
  obtain ⟨bs, hdone, haccepted, hiff⟩ := @line_text_iff r (by decide) ['x', '\n']
    ['a', 'a', 'é', 'b', '\r'] ['y'] (.inr rfl) (by decide) (by decide) .willing Outlet.willing_willing
  exact ⟨hclear, bs, hdone, haccepted.trans (List.append_nil _), hiff.mpr hclear⟩

/-- A character of two bytes behind three others, and a limit of four bytes. -/
theorem character_cut :
    let r : Reader := ⟨⟨"a.log"⟩, none, ⟨⟨[]⟩, 0, []⟩, 4, 100⟩
    let line := ['a', 'a', 'a', 'é']
    let ended := r.read (encode (line ++ ['\n'])) .willing
    ended.1 = .done ∧
      (ended.2.2.batches.flatMap Batch.records).map Record.body = ["aaa\uFFFD", "\uFFFD"] ∧
      (ended.2.2.batches.flatMap Batch.records).flatMap (fun a => a.body.toList) ≠ chompText line := by
  decide +kernel

end Reader

end LogTail
