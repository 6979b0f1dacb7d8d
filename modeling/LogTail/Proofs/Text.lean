import LogTail.Base64
import LogTail.Utf8

namespace LogTail

theorem toNat_byte {n : Nat} (h : n < 256) : n.toUInt8.toNat = n := by
  simp [Nat.toUInt8, UInt8.toNat_ofNat', Nat.mod_eq_of_lt h]

namespace Utf8

theorem valid_toNat (c : Char) : c.toNat < 0xD800 ∨ 0xDFFF < c.toNat ∧ c.toNat < 0x110000 := c.valid

theorem continued_last {low high bits b : Nat} (hlow : low ≤ b) (hhigh : b ≤ high) :
    continued ⟨0, low, high, bits⟩ b = .char (Char.ofNat (bits * 0x40 + (b - 0x80))) := by
  simp [continued, Nat.not_lt.mpr hlow, Nat.not_lt.mpr hhigh]

theorem continued_more (owed bits : Nat) {low high b : Nat} (hlow : low ≤ b) (hhigh : b ≤ high) :
    continued ⟨owed + 1, low, high, bits⟩ b =
      .more ⟨owed, 0x80, 0xBF, bits * 0x40 + (b - 0x80)⟩ := by
  simp [continued, Nat.not_lt.mpr hlow, Nat.not_lt.mpr hhigh]

theorem scan_encodeChar (c : Char) (bs : Bytes) (acc : List (Option Char)) :
    scan none (encodeChar c ++ bs) acc = scan none bs (some c :: acc) := by
  have hvalid := valid_toNat c
  have hc : Char.ofNat c.toNat = c := Char.ofNat_toNat c
  unfold encodeChar
  generalize c.toNat = n at *
  dsimp only
  by_cases h1 : n < 0x80
  · simp only [if_pos h1, List.cons_append, List.nil_append, scan, toNat_byte (n := n) (by omega),
      first, hc]
  rw [if_neg h1]
  by_cases h2 : n < 0x800
  · have hfirst : first (0xC0 + n / 0x40) = .more ⟨0, 0x80, 0xBF, n / 0x40⟩ := by
      rw [first, if_neg (by omega), if_neg (by omega), if_pos (by omega)]
      simp
    have hlast : continued ⟨0, 0x80, 0xBF, n / 0x40⟩ (0x80 + n % 0x40) = .char c := by
      rw [continued_last (by omega) (by omega),
        show n / 0x40 * 0x40 + (0x80 + n % 0x40 - 0x80) = n by omega, hc]
    simp only [if_pos h2, List.cons_append, List.nil_append, scan, hfirst, hlast,
      toNat_byte (n := 0xC0 + n / 0x40) (by omega), toNat_byte (n := 0x80 + n % 0x40) (by omega)]
  rw [if_neg h2]
  by_cases h3 : n < 0x10000
  · have hfirst : ∃ low high, first (0xE0 + n / 0x1000) = .more ⟨1, low, high, n / 0x1000⟩ ∧
        low ≤ 0x80 + n / 0x40 % 0x40 ∧ 0x80 + n / 0x40 % 0x40 ≤ high := by
      refine ⟨if 0xE0 + n / 0x1000 = 0xE0 then 0xA0 else 0x80,
        if 0xE0 + n / 0x1000 = 0xED then 0x9F else 0xBF, ?_, ?_, ?_⟩
      · rw [first, if_neg (by omega), if_neg (by omega), if_neg (by omega), if_pos (by omega),
          Nat.add_sub_cancel_left]
      · split <;> omega
      · split <;> omega
    obtain ⟨low, high, hfirst, hlow, hhigh⟩ := hfirst
    have hnext := continued_more 0 (n / 0x1000) hlow hhigh
    have hlast : continued ⟨0, 0x80, 0xBF, n / 0x1000 * 0x40 + (0x80 + n / 0x40 % 0x40 - 0x80)⟩
        (0x80 + n % 0x40) = .char c := by
      rw [continued_last (by omega) (by omega),
        show (n / 0x1000 * 0x40 + (0x80 + n / 0x40 % 0x40 - 0x80)) * 0x40 +
          (0x80 + n % 0x40 - 0x80) = n by omega, hc]
    simp only [if_pos h3, List.cons_append, List.nil_append, scan, hfirst, hnext, hlast,
      toNat_byte (n := 0xE0 + n / 0x1000) (by omega),
      toNat_byte (n := 0x80 + n / 0x40 % 0x40) (by omega), toNat_byte (n := 0x80 + n % 0x40) (by omega)]
  · have hfirst : ∃ low high, first (0xF0 + n / 0x40000) = .more ⟨2, low, high, n / 0x40000⟩ ∧
        low ≤ 0x80 + n / 0x1000 % 0x40 ∧ 0x80 + n / 0x1000 % 0x40 ≤ high := by
      refine ⟨if 0xF0 + n / 0x40000 = 0xF0 then 0x90 else 0x80,
        if 0xF0 + n / 0x40000 = 0xF4 then 0x8F else 0xBF, ?_, ?_, ?_⟩
      · rw [first, if_neg (by omega), if_neg (by omega), if_neg (by omega), if_neg (by omega),
          if_pos (by omega), Nat.add_sub_cancel_left]
      · split <;> omega
      · split <;> omega
    obtain ⟨low, high, hfirst, hlow, hhigh⟩ := hfirst
    have hnext := continued_more 1 (n / 0x40000) hlow hhigh
    have hnext' := continued_more 0 (n / 0x40000 * 0x40 + (0x80 + n / 0x1000 % 0x40 - 0x80))
      (show 0x80 ≤ 0x80 + n / 0x40 % 0x40 by omega) (show 0x80 + n / 0x40 % 0x40 ≤ 0xBF by omega)
    have hlast : continued ⟨0, 0x80, 0xBF, (n / 0x40000 * 0x40 +
        (0x80 + n / 0x1000 % 0x40 - 0x80)) * 0x40 + (0x80 + n / 0x40 % 0x40 - 0x80)⟩
        (0x80 + n % 0x40) = .char c := by
      rw [continued_last (by omega) (by omega),
        show ((n / 0x40000 * 0x40 + (0x80 + n / 0x1000 % 0x40 - 0x80)) * 0x40 +
          (0x80 + n / 0x40 % 0x40 - 0x80)) * 0x40 + (0x80 + n % 0x40 - 0x80) = n by omega, hc]
    simp only [if_neg h3, List.cons_append, List.nil_append, scan, hfirst, hnext, hnext', hlast,
      toNat_byte (n := 0xF0 + n / 0x40000) (by omega),
      toNat_byte (n := 0x80 + n / 0x1000 % 0x40) (by omega),
      toNat_byte (n := 0x80 + n / 0x40 % 0x40) (by omega), toNat_byte (n := 0x80 + n % 0x40) (by omega)]

theorem encode_append (cs ds : List Char) : encode (cs ++ ds) = encode cs ++ encode ds :=
  List.flatMap_append

theorem encode_cons (c : Char) (cs : List Char) : encode (c :: cs) = encodeChar c ++ encode cs := rfl

theorem scan_encode_append (cs : List Char) (bs : Bytes) (acc : List (Option Char)) :
    scan none (encode cs ++ bs) acc = scan none bs ((cs.map some).reverse ++ acc) := by
  induction cs generalizing acc with
  | nil => rfl
  | cons c cs ih =>
      rw [encode_cons, List.append_assoc, scan_encodeChar, ih]
      simp

theorem scan_encode (cs : List Char) (acc : List (Option Char)) :
    scan none (encode cs) acc = (cs.map some).reverse ++ acc := by
  simpa [scan] using scan_encode_append cs [] acc

theorem decode_encode (cs : List Char) : decode? (encode cs) = some cs := by
  rw [decode?, scan_encode, List.append_nil, List.foldl_reverse]
  induction cs with
  | nil => rfl
  | cons c cs ih => rw [List.map_cons, List.foldr_cons, ih]; rfl

theorem toString_ofString (s : String) : toString? (ofString s) = some s := by
  simp [toString?, ofString, decode_encode]

end Utf8

namespace Base64

def code (n : Nat) : UInt8 := (symbol n).toNat.toUInt8

theorem code_spec : ∀ n < 64, Utf8.encodeChar (symbol n) = [code n] ∧ sextet? (code n) = some n ∧
    code n ≠ pad := by
  decide +kernel

theorem encode_symbol {n : Nat} (h : n < 64) : Utf8.encodeChar (symbol n) = [code n] :=
  (code_spec n h).1

theorem sextet_code {n : Nat} (h : n < 64) : sextet? (code n) = some n := (code_spec n h).2.1

theorem code_ne_pad {n : Nat} (h : n < 64) : code n ≠ pad := (code_spec n h).2.2

theorem encode_pad : Utf8.encodeChar '=' = [pad] := by decide

def groups : Bytes → Bytes
  | a :: b :: c :: t =>
    let n := a.toNat * 0x10000 + b.toNat * 0x100 + c.toNat
    code (n / 262144) :: code (n / 4096 % 64) :: code (n / 64 % 64) :: code (n % 64) :: groups t
  | [a, b] =>
    let n := a.toNat * 0x100 + b.toNat
    [code (n / 1024), code (n / 16 % 64), code (n % 16 * 4), pad]
  | [a] => [code (a.toNat / 4), code (a.toNat % 4 * 16), pad, pad]
  | [] => []

theorem encode_encodeAux (bs : Bytes) (acc : List Char) :
    Utf8.encode (encodeAux bs acc).reverse = Utf8.encode acc.reverse ++ groups bs := by
  fun_induction encodeAux bs acc with
  | case1 a b c t acc n ih =>
      have hn : n < 0x1000000 := by
        have := a.toNat_lt; have := b.toNat_lt; have := c.toNat_lt
        omega
      rw [ih, groups]
      change _ = _ ++ code (n / 262144) :: code (n / 4096 % 64) :: code (n / 64 % 64) ::
        code (n % 64) :: groups t
      generalize n = m at *
      simp (disch := omega) [Utf8.encode, encode_symbol]
  | case2 a b acc n =>
      have hn : n < 0x10000 := by
        have := a.toNat_lt; have := b.toNat_lt
        omega
      rw [groups]
      change _ = _ ++ [code (n / 1024), code (n / 16 % 64), code (n % 16 * 4), pad]
      generalize n = m at *
      simp (disch := omega) [Utf8.encode, encode_symbol, encode_pad]
  | case3 a acc n =>
      have hn : n < 0x100 := a.toNat_lt
      rw [groups]
      change _ = _ ++ [code (n / 4), code (n % 4 * 16), pad, pad]
      generalize n = m at *
      simp (disch := omega) [Utf8.encode, encode_symbol, encode_pad]
  | case4 acc => simp [groups]

theorem ofString_encode (bs : Bytes) : Utf8.ofString (encode bs) = groups bs := by
  simpa [Utf8.ofString, encode, Utf8.encode] using encode_encodeAux bs []

theorem length_groups (bs : Bytes) : (groups bs).length % 4 = 0 := by
  fun_induction groups bs with
  | case1 a b c t n ih =>
      simp only [List.length_cons]
      omega
  | case2 | case3 | case4 => simp

theorem groups_cons_ne_nil (b : UInt8) (t : Bytes) : groups (b :: t) ≠ [] := by
  unfold groups
  split <;> simp_all

theorem toUInt8_toNat {n : Nat} {a : UInt8} (h : n = a.toNat) : n.toUInt8 = a := by
  subst h
  exact UInt8.ofNat_toNat

theorem sextets_codes {a b c d : Nat} (offset : Nat) (ha : a < 64) (hb : b < 64) (hc : c < 64)
    (hd : d < 64) : sextets offset [code a, code b, code c, code d] = .ok [a, b, c, d] := by
  simp [sextets, sextet_code, ha, hb, hc, hd, Except.map]

theorem lastGroup_code {n : Nat} (h : n < 64) (offset i : Nat) (t : Bytes) (ns : List Nat) :
    lastGroup offset i (code n :: t) ns 0 = lastGroup offset (i + 1) t (n :: ns) 0 := by
  simp [lastGroup, code_ne_pad h, sextet_code h]

theorem decodeLast_three {a b c d : Nat} (offset : Nat) (ha : a < 64) (hb : b < 64) (hc : c < 64)
    (hd : d < 64) : decodeLast offset [code a, code b, code c, code d] =
      .ok [(a * 4 + b / 16).toUInt8, (b % 16 * 16 + c / 4).toUInt8, (c % 4 * 64 + d).toUInt8] := by
  have hgroup : lastGroup offset 0 [code a, code b, code c, code d] [] 0 = .ok ([a, b, c, d], 0) := by
    rw [lastGroup_code ha, lastGroup_code hb, lastGroup_code hc, lastGroup_code hd]
    rfl
  simp [decodeLast, hgroup, bind, Except.bind]

theorem decodeLast_two {a b c : Nat} (offset : Nat) (ha : a < 64) (hb : b < 64) (hc : c < 64)
    (hzero : c % 4 = 0) : decodeLast offset [code a, code b, code c, pad] =
      .ok [(a * 4 + b / 16).toUInt8, (b % 16 * 16 + c / 4).toUInt8] := by
  have hgroup : lastGroup offset 0 [code a, code b, code c, pad] [] 0 = .ok ([a, b, c], 1) := by
    rw [lastGroup_code ha, lastGroup_code hb, lastGroup_code hc]
    rfl
  simp [decodeLast, hgroup, hzero, bind, Except.bind]

theorem decodeLast_one {a b : Nat} (offset : Nat) (ha : a < 64) (hb : b < 64)
    (hzero : b % 16 = 0) : decodeLast offset [code a, code b, pad, pad] =
      .ok [(a * 4 + b / 16).toUInt8] := by
  have hgroup : lastGroup offset 0 [code a, code b, pad, pad] [] 0 = .ok ([a, b], 2) := by
    rw [lastGroup_code ha, lastGroup_code hb]
    rfl
  simp [decodeLast, hgroup, hzero, bind, Except.bind]

theorem decodeAux_groups (bs : Bytes) (offset : Nat) (acc : Bytes) (h : bs ≠ []) :
    decodeAux offset (groups bs) acc = .ok (acc.reverse ++ bs) := by
  fun_induction groups bs generalizing offset acc with
  | case1 a b c t n ih =>
      have hlt := a.toNat_lt; have hlt' := b.toNat_lt; have hlt'' := c.toNat_lt
      have ha : (n / 262144 * 4 + n / 4096 % 64 / 16).toUInt8 = a := toUInt8_toNat (by omega)
      have hb : (n / 4096 % 64 % 16 * 16 + n / 64 % 64 / 4).toUInt8 = b := toUInt8_toNat (by omega)
      have hc : (n / 64 % 64 % 4 * 64 + n % 64).toUInt8 = c := toUInt8_toNat (by omega)
      cases t with
      | nil =>
          rw [groups, decodeAux, decodeLast_three offset (by omega) (by omega) (by omega) (by omega),
            ha, hb, hc]
          · rfl
          · simp
      | cons d t =>
          cases hmore : groups (d :: t) with
          | nil => exact absurd hmore (groups_cons_ne_nil d t)
          | cons e more =>
              rw [decodeAux, sextets_codes offset (by omega) (by omega) (by omega) (by omega)]
              dsimp only
              rw [← hmore, ih _ _ (by simp), ha, hb, hc]
              simp
  | case2 a b n =>
      have hlt := a.toNat_lt; have hlt' := b.toNat_lt
      have ha : (n / 1024 * 4 + n / 16 % 64 / 16).toUInt8 = a := toUInt8_toNat (by omega)
      have hb : (n / 16 % 64 % 16 * 16 + n % 16 * 4 / 4).toUInt8 = b := toUInt8_toNat (by omega)
      rw [decodeAux, decodeLast_two offset (by omega) (by omega) (by omega) (by omega), ha, hb]
      · rfl
      · simp
  | case3 a =>
      have hlt := a.toNat_lt
      have ha : (a.toNat / 4 * 4 + a.toNat % 4 * 16 / 16).toUInt8 = a := toUInt8_toNat (by omega)
      rw [decodeAux, decodeLast_one offset (by omega) (by omega) (by omega), ha]
      · rfl
      · simp
  | case4 => exact absurd rfl h

theorem decode_encode (bs : Bytes) : decode (Utf8.ofString (encode bs)) = .ok bs := by
  have hlen := length_groups bs
  rw [ofString_encode, decode]
  cases hbs : bs with
  | nil => rfl
  | cons b t =>
      rw [hbs] at hlen
      cases hlast : (groups (b :: t)).getLast? with
      | none => exact absurd (List.getLast?_eq_none_iff.mp hlast) (groups_cons_ne_nil b t)
      | some last =>
          dsimp only
          rw [if_neg (by omega)]
          exact decodeAux_groups (b :: t) 0 [] (by simp)

end Base64

end LogTail
