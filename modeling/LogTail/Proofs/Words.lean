import LogTail.Json.Lexeme
import LogTail.Proofs.Text

namespace LogTail.Json.Lexeme

def digits (n : Nat) : Bytes := Utf8.ofString (toString n)

def Stops (rest : Bytes) : Prop :=
  ∀ b t, rest = b :: t → isDigit b = false ∧ b ≠ 46 ∧ b ≠ 101 ∧ b ≠ 69

theorem stops_nil : Stops [] := by simp [Stops]

theorem digit_spec : ∀ n < 128, (Char.ofNat n).isDigit = true →
    Utf8.encodeChar (Char.ofNat n) = [n.toUInt8] ∧ isDigit n.toUInt8 = true ∧
      n.toUInt8.toNat - 48 = n - 48 := by
  decide +kernel

theorem digit_encode {c : Char} (hc : c.isDigit = true) :
    ∃ b, Utf8.encodeChar c = [b] ∧ isDigit b = true ∧ b.toNat - 48 = c.toNat - 48 := by
  have hlt : c.toNat < 128 := by
    simp only [Char.isDigit, Bool.and_eq_true, decide_eq_true_eq] at hc
    exact Nat.lt_of_le_of_lt (UInt32.le_iff_toNat_le.mp hc.2) (by decide)
  have h := digit_spec c.toNat hlt
  rw [Char.ofNat_toNat] at h
  exact ⟨_, h hc⟩

theorem digits_encode {cs : List Char} (h : ∀ c ∈ cs, c.isDigit = true) :
    (∀ b ∈ Utf8.encode cs, isDigit b = true) ∧
      digitValues (Utf8.encode cs) = cs.map fun c => c.toNat - 48 := by
  induction cs with
  | nil => simp [Utf8.encode, digitValues]
  | cons c cs ih =>
      obtain ⟨b, hb, hdigit, hval⟩ := digit_encode (h c (by simp))
      obtain ⟨hall, hvals⟩ := ih fun d hd => h d (by simp [hd])
      rw [Utf8.encode, List.flatMap_cons, hb]
      change (∀ b' ∈ b :: Utf8.encode cs, _) ∧ digitValues (b :: Utf8.encode cs) = _
      refine ⟨by simpa [hdigit] using hall, ?_⟩
      rw [digitValues, List.map_cons, ← digitValues, hvals, hval, List.map_cons]

theorem fill_digits {ds : List Nat} {sig : Nat}
    (h : ds.foldl (fun n d => n * 10 + d) sig < Number.limit) :
    Number.fill sig ds = (ds.foldl (fun n d => n * 10 + d) sig, 0) := by
  induction ds generalizing sig with
  | nil => rfl
  | cons d ds ih =>
      have hle : ∀ (ds : List Nat) (s : Nat), s ≤ ds.foldl (fun n d => n * 10 + d) s := by
        intro ds
        induction ds with
        | nil => exact fun s => Nat.le_refl s
        | cons e ds ih' => exact fun s => Nat.le_trans (by omega) (ih' (s * 10 + e))
      have hd := hle ds (sig * 10 + d)
      rw [Number.fill, if_neg (Nat.not_le.mpr (Nat.lt_of_le_of_lt hd h))]
      exact ih h

theorem digits_eq (n : Nat) : digits n = Utf8.encode (Nat.toDigits 10 n) := by
  simp [digits, Utf8.ofString]

theorem digits_spec (n : Nat) :
    (∀ b ∈ digits n, isDigit b = true) ∧
      (digitValues (digits n)).foldl (fun m d => m * 10 + d) 0 = n := by
  obtain ⟨hall, hvals⟩ := @digits_encode (Nat.toDigits 10 n)
    fun c hc => Nat.isDigit_of_mem_toDigits (by decide) (by decide) hc
  rw [digits_eq]
  refine ⟨hall, ?_⟩
  rw [hvals, List.foldl_map]
  have hn := Nat.ofDigitChars_ten_toDigits (n := n)
  rw [Nat.ofDigitChars_eq_foldl] at hn
  simpa [Nat.mul_comm] using hn

theorem digits_head (n : Nat) : ∃ b t, digits n = b :: t ∧ (b = 48 → t = []) := by
  induction n using Nat.strongRecOn with
  | ind n ih =>
      by_cases hn : n < 10
      · obtain ⟨b, hb, _⟩ := digit_encode (Nat.isDigit_of_mem_toDigits (b := 10) (n := n)
          (c := n.digitChar) (by decide) (by decide) (by simp [Nat.toDigits_of_lt_base hn]))
        refine ⟨b, [], ?_, fun _ => rfl⟩
        rw [digits_eq, Nat.toDigits_of_lt_base hn, Utf8.encode, List.flatMap_singleton, hb]
      · obtain ⟨b, t, hbt, hzero⟩ := ih (n / 10) (by omega)
        refine ⟨b, t ++ Utf8.encodeChar (n % 10).digitChar, ?_, fun h48 => ?_⟩
        · rw [digits_eq, Nat.toDigits_of_base_le (by decide) (by omega), Utf8.encode,
            List.flatMap_append, List.flatMap_singleton, ← Utf8.encode, ← digits_eq, hbt,
            List.cons_append]
        · have hval := (digits_spec (n / 10)).2
          rw [hbt, hzero h48, h48] at hval
          have : n / 10 = 0 := hval.symm
          omega

theorem digits_cons (n : Nat) : ∃ b t, digits n = b :: t ∧ isDigit b = true := by
  obtain ⟨b, t, hbt, -⟩ := digits_head n
  exact ⟨b, t, hbt, (digits_spec n).1 b (by simp [hbt])⟩

theorem takeWhile_append {p : UInt8 → Bool} {a b : Bytes} (ha : ∀ c ∈ a, p c = true)
    (hb : ∀ c t, b = c :: t → p c = false) :
    (a ++ b).takeWhile p = a ∧ (a ++ b).dropWhile p = b := by
  have hnone : b.takeWhile p = [] ∧ b.dropWhile p = b := by
    cases b with
    | nil => exact ⟨rfl, rfl⟩
    | cons c t => simp [hb c t rfl]
  rw [List.takeWhile_append_of_pos ha, List.dropWhile_append_of_pos ha, hnone.1, hnone.2,
    List.append_nil]
  exact ⟨rfl, rfl⟩

theorem exponentPart_stops {minus : Bool} {whole rest : Bytes} (hrest : Stops rest) :
    fractionPart minus whole rest = number' minus whole none none rest := by
  unfold fractionPart
  cases rest with
  | nil => rfl
  | cons b t =>
      obtain ⟨_, hpoint, he, hE⟩ := hrest b t rfl
      split
      · next heq =>
          cases heq
          exact absurd rfl hpoint
      · simp [exponentPart, he, hE]

theorem unsigned_digits (minus : Bool) (n : Nat) {rest : Bytes} (hrest : Stops rest) :
    unsigned minus (digits n ++ rest) = number' minus (digits n) none none rest := by
  obtain ⟨hall, _⟩ := digits_spec n
  obtain ⟨htake, hdrop⟩ := takeWhile_append hall fun c t hc => (hrest c t hc).1
  obtain ⟨b, t, hbt, hzero⟩ := digits_head n
  unfold unsigned
  rw [htake, hdrop]
  dsimp only
  split
  · next heq => rw [hbt] at heq; cases heq
  · next heq =>
      rw [hbt] at heq
      cases heq
      cases hzero rfl
  · exact exponentPart_stops hrest

def whole : Number → Bytes
  | .nat n => digits n
  | .negative n => 45 :: digits n
  | .float _ => []

def Whole : Number → Prop
  | .nat n => n < Number.limit
  | .negative n => 0 < n ∧ n ≤ Number.signBit
  | .float _ => False

theorem number_whole {n : Number} (hn : Whole n) {rest : Bytes} (hrest : Stops rest) :
    number (whole n ++ rest) = ⟨.ok n, none, rest⟩ := by
  have hfill {n : Nat} (hn : n < Number.limit) : Number.fill 0 (digitValues (digits n)) = (n, 0) := by
    have hvals := (digits_spec n).2
    rw [fill_digits (by rw [hvals]; exact hn), hvals]
  cases n with
  | nat n =>
      obtain ⟨b, t, hbt, hb⟩ := digits_cons n
      have hunsigned : number (digits n ++ rest) = unsigned false (digits n ++ rest) := by
        unfold number
        split
        · next heq =>
            rw [hbt] at heq
            cases heq
            cases hb
        · rfl
      rw [whole, hunsigned, unsigned_digits false n hrest]
      simp [number', Number.ofDigits, hfill hn]
  | negative n =>
      have hlt : n < Number.limit := Nat.lt_of_le_of_lt hn.2 (by decide)
      change unsigned true (digits n ++ rest) = _
      rw [unsigned_digits true n hrest]
      simp [number', Number.ofDigits, hfill hlt, hn.1, hn.2]
  | float bits => cases hn

def Unescaped (b : UInt8) : Prop := 32 ≤ b ∧ b ≠ 34 ∧ b ≠ 92

theorem stringFrom_byte {b : UInt8} (h : Unescaped b) (acc t : Bytes) :
    stringFrom (.ok ⟨acc, none⟩) (b :: t) = stringFrom (.ok ⟨b :: acc, none⟩) t := by
  obtain ⟨hlow, hquote, hslash⟩ := h
  conv => lhs; rw [stringFrom.eq_def]
  dsimp only
  rw [if_neg hquote, if_neg hslash, if_neg (by simpa using hlow)]
  rfl

theorem stringFrom_escape {e b : UInt8} (h : plainEscape? e = some b) (he : e ≠ 117) (acc t : Bytes) :
    stringFrom (.ok ⟨acc, none⟩) (92 :: e :: t) = stringFrom (.ok ⟨b :: acc, none⟩) t := by
  conv => lhs; rw [stringFrom.eq_def]
  simp only [h, he, if_false]
  rfl

theorem stringFrom_unit {a b c d : UInt8} {u : Nat} (h : hexUnit? a b c d = some u) (hu : u < 0xD800)
    (acc t : Bytes) :
    stringFrom (.ok ⟨acc, none⟩) (92 :: 117 :: a :: b :: c :: d :: t) =
      stringFrom (.ok ⟨(Utf8.encodeChar (Char.ofNat u)).reverse ++ acc, none⟩) t := by
  have hunit : (Except.ok ⟨acc, none⟩ : Except Fault Spelt).bind (Spelt.unit u) =
      .ok ⟨(Utf8.encodeChar (Char.ofNat u)).reverse ++ acc, none⟩ := by
    change Spelt.unit u ⟨acc, none⟩ = _
    unfold Spelt.unit
    dsimp only
    rw [if_neg (by omega), if_neg (by omega)]
  conv => lhs; rw [stringFrom.eq_def]
  simp only [h, hunit]
  rfl

theorem stringFrom_unescaped {bs : Bytes} (h : ∀ b ∈ bs, Unescaped b) (acc rest : Bytes) :
    stringFrom (.ok ⟨acc, none⟩) (bs ++ rest) = stringFrom (.ok ⟨bs.reverse ++ acc, none⟩) rest := by
  induction bs generalizing acc with
  | nil => rfl
  | cons b bs ih =>
      rw [List.cons_append, stringFrom_byte (h b (by simp)), ih (fun c hc => h c (by simp [hc]))]
      simp

theorem unescaped_of_le {n : Nat} (hlow : 0x20 ≤ n) (hlt : n < 0x100) (hquote : n ≠ 34)
    (hslash : n ≠ 92) : Unescaped n.toUInt8 := by
  have hn := toNat_byte hlt
  refine ⟨?_, fun h => ?_, fun h => ?_⟩
  · rw [UInt8.le_iff_toNat_le, hn]
    exact hlow
  · exact hquote (by rw [← hn, h]; rfl)
  · exact hslash (by rw [← hn, h]; rfl)

theorem unescaped_encodeChar {c : Char} (hlow : 0x20 ≤ c.toNat) (hquote : c.toNat ≠ 34)
    (hslash : c.toNat ≠ 92) : ∀ b ∈ Utf8.encodeChar c, Unescaped b := by
  have hvalid := Utf8.valid_toNat c
  unfold Utf8.encodeChar
  generalize c.toNat = n at *
  dsimp only
  split
  · simpa using unescaped_of_le hlow (by omega) hquote hslash
  · split
    · have h₁ := unescaped_of_le (n := 0xC0 + n / 0x40) (by omega) (by omega) (by omega) (by omega)
      have h₂ := unescaped_of_le (n := 0x80 + n % 0x40) (by omega) (by omega) (by omega) (by omega)
      simp only [List.forall_mem_cons]
      exact ⟨h₁, h₂, by simp⟩
    · split
      · have h₁ := unescaped_of_le (n := 0xE0 + n / 0x1000) (by omega) (by omega) (by omega) (by omega)
        have h₂ := unescaped_of_le (n := 0x80 + n / 0x40 % 0x40) (by omega) (by omega) (by omega) (by omega)
        have h₃ := unescaped_of_le (n := 0x80 + n % 0x40) (by omega) (by omega) (by omega) (by omega)
        simp only [List.forall_mem_cons]
        exact ⟨h₁, h₂, h₃, by simp⟩
      · have h₁ := unescaped_of_le (n := 0xF0 + n / 0x40000) (by omega) (by omega) (by omega) (by omega)
        have h₂ := unescaped_of_le (n := 0x80 + n / 0x1000 % 0x40) (by omega) (by omega) (by omega)
          (by omega)
        have h₃ := unescaped_of_le (n := 0x80 + n / 0x40 % 0x40) (by omega) (by omega) (by omega) (by omega)
        have h₄ := unescaped_of_le (n := 0x80 + n % 0x40) (by omega) (by omega) (by omega) (by omega)
        simp only [List.forall_mem_cons]
        exact ⟨h₁, h₂, h₃, h₄, by simp⟩

def hexByte (n : Nat) : UInt8 := (Value.hexDigit n).toNat.toUInt8

theorem escape_control : ∀ n < 0x20,
    Utf8.encode ['\\', 'u', '0', '0', Value.hexDigit (n / 16), Value.hexDigit (n % 16)] =
      [92, 117, 48, 48, hexByte (n / 16), hexByte (n % 16)] ∧
      hexUnit? 48 48 (hexByte (n / 16)) (hexByte (n % 16)) = some n := by
  decide +kernel

theorem stringFrom_char (c : Char) (acc rest : Bytes) :
    stringFrom (.ok ⟨acc, none⟩) (Utf8.encode (Value.escape c) ++ rest) =
      stringFrom (.ok ⟨(Utf8.encodeChar c).reverse ++ acc, none⟩) rest := by
  have hunescaped (e b : UInt8) (d : Char) (hc : c = d) (hesc : Utf8.encode (Value.escape d) = [92, e])
      (hchar : Utf8.encodeChar d = [b]) (hb : plainEscape? e = some b) (he : e ≠ 117) :
      stringFrom (.ok ⟨acc, none⟩) (Utf8.encode (Value.escape c) ++ rest) =
        stringFrom (.ok ⟨(Utf8.encodeChar c).reverse ++ acc, none⟩) rest := by
    rw [hc, hesc, hchar]
    exact stringFrom_escape hb he acc rest
  by_cases h1 : c = '"'
  · exact hunescaped 34 34 _ h1 (by decide) (by decide) (by decide) (by decide)
  by_cases h2 : c = '\\'
  · exact hunescaped 92 92 _ h2 (by decide) (by decide) (by decide) (by decide)
  by_cases h3 : c = '\n'
  · exact hunescaped 110 10 _ h3 (by decide) (by decide) (by decide) (by decide)
  by_cases h4 : c = '\r'
  · exact hunescaped 114 13 _ h4 (by decide) (by decide) (by decide) (by decide)
  by_cases h5 : c = '\t'
  · exact hunescaped 116 9 _ h5 (by decide) (by decide) (by decide) (by decide)
  by_cases h6 : c = Char.ofNat 8
  · exact hunescaped 98 8 _ h6 (by decide) (by decide) (by decide) (by decide)
  by_cases h7 : c = Char.ofNat 12
  · exact hunescaped 102 12 _ h7 (by decide) (by decide) (by decide) (by decide)
  unfold Value.escape
  rw [if_neg h1, if_neg h2, if_neg h3, if_neg h4, if_neg h5, if_neg h6, if_neg h7]
  split
  · next hlow =>
      obtain ⟨hesc, hunit⟩ := escape_control c.toNat hlow
      rw [hesc]
      have h := stringFrom_unit hunit (by omega) acc rest
      rw [Char.ofNat_toNat] at h
      exact h
  · next hlow =>
      rw [Utf8.encode, List.flatMap_singleton]
      refine stringFrom_unescaped (unescaped_encodeChar (by omega) (fun h => h1 ?_) (fun h => h2 ?_)) acc rest
      · rw [← Char.ofNat_toNat c, h]
      · rw [← Char.ofNat_toNat c, h]

theorem stringFrom_chars (cs : List Char) (acc rest : Bytes) :
    stringFrom (.ok ⟨acc, none⟩) (Utf8.encode (cs.flatMap Value.escape) ++ rest) =
      stringFrom (.ok ⟨(Utf8.encode cs).reverse ++ acc, none⟩) rest := by
  induction cs generalizing acc with
  | nil => rfl
  | cons c cs ih =>
      rw [List.flatMap_cons, Utf8.encode, List.flatMap_append, List.append_assoc, ← Utf8.encode,
        stringFrom_char, ← Utf8.encode, ih]
      simp [Utf8.encode]

theorem string_quote (s : String) (rest : Bytes) :
    string (Utf8.encode (s.toList.flatMap Value.escape) ++ 34 :: rest) = ⟨.ok s, none, rest⟩ := by
  have hfinish : (Except.ok ⟨(Utf8.encode s.toList).reverse ++ [], none⟩ : Except Fault Spelt).bind
      Spelt.finish = .ok s := by
    change Spelt.finish ⟨(Utf8.ofString s).reverse ++ [], none⟩ = _
    simp [Spelt.finish, Utf8.toString_ofString]
  rw [string, stringFrom_chars]
  conv => lhs; rw [stringFrom.eq_def]
  simp only [hfinish, if_true]

end LogTail.Json.Lexeme
