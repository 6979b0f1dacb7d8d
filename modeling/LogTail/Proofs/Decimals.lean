import LogTail.Json.Number
import Mathlib.Data.List.TakeWhile
import Mathlib.Tactic.Ring
import Mathlib.Tactic.Linarith

namespace LogTail.Json.Shortest

theorem quarter_eq (m : Nat) (q : Int) :
    quarter m q = ⟨m * 2 ^ q.toNat, 4 * 2 ^ (-q).toNat⟩ := by
  unfold quarter
  split
  · next h => simp [Int.toNat_of_nonpos (Int.le_of_lt h), Nat.pow_eq]
  · next h => simp [Int.toNat_of_nonpos (Int.neg_nonpos_of_nonneg (Int.not_lt.mp h)), Nat.pow_eq]

theorem scale_eq (r : Ratio) (e : Int) :
    r.scale e = ⟨r.num * 10 ^ e.toNat, r.den * 10 ^ (-e).toNat⟩ := by
  unfold Ratio.scale
  split
  · next h => simp [Int.toNat_of_nonpos (Int.le_of_lt h), Nat.pow_eq]
  · next h => simp [Int.toNat_of_nonpos (Int.neg_nonpos_of_nonneg (Int.not_lt.mp h)), Nat.pow_eq]

def Ratio.Reaches (r : Ratio) (e : Int) : Prop := r.den * 10 ^ e.toNat ≤ r.num * 10 ^ (-e).toNat

theorem reaches_below {r : Ratio} (fuel k : Nat) (h : r.den ≤ r.num * 10 ^ (fuel + k)) :
    r.Reaches (below r fuel k) := by
  have hreaches {k : Nat} (h : r.den ≤ r.num * 10 ^ k) : r.Reaches (-(k : Int)) := by
    simpa [Ratio.Reaches] using h
  induction fuel generalizing k with
  | zero => exact hreaches (by simpa using h)
  | succ fuel ih =>
      rw [below]
      split
      · next hk => exact hreaches hk
      · apply ih
        rwa [Nat.add_right_comm] at h

theorem pow_length_le {n : Nat} (h : 0 < n) : 10 ^ ((Nat.toDigits 10 n).length - 1) ≤ n := by
  by_cases hone : (Nat.toDigits 10 n).length - 1 = 0
  · rw [hone]
    exact h
  · have hlt : ¬ (Nat.toDigits 10 n).length ≤ (Nat.toDigits 10 n).length - 1 := by omega
    rw [Nat.length_toDigits_le_iff (by decide) (by omega)] at hlt
    exact Nat.not_lt.mp hlt

theorem reaches_magnitude {r : Ratio} {n : Nat} (hn : n = 400 + 1) (hden : 0 < r.den)
    (h : r.den ≤ r.num * 10 ^ n) : r.Reaches (magnitude r) := by
  unfold magnitude
  split
  · next hle =>
      have hpos := Nat.length_toDigits_pos (b := 10) (n := r.num / r.den)
      have hpow := pow_length_le (Nat.div_pos hle hden)
      have hcast : ((Nat.toDigits 10 (r.num / r.den)).length : Int) - 1 =
          ((Nat.toDigits 10 (r.num / r.den)).length - 1 : Nat) := by omega
      rw [hcast, Ratio.Reaches, Int.toNat_natCast, Int.toNat_of_nonpos (by omega), Nat.pow_zero,
        Nat.mul_one]
      exact (Nat.mul_le_mul_left r.den hpow).trans (Nat.mul_div_le r.num r.den)
  · exact reaches_below 400 1 (by rwa [hn] at h)

theorem sixteen_le_scale {r : Ratio} {e : Int} (h : r.Reaches e) :
    (r.scale (16 - e)).den * 10 ^ 16 ≤ (r.scale (16 - e)).num := by
  rw [scale_eq]
  have hexp : (16 - e).toNat + e.toNat = (-(16 - e)).toNat + 16 + (-e).toNat := by omega
  refine Nat.le_of_mul_le_mul_right ?_ (Nat.pow_pos (n := e.toNat) (by decide : 0 < 10))
  calc r.den * 10 ^ (-(16 - e)).toNat * 10 ^ 16 * 10 ^ e.toNat
      = r.den * 10 ^ e.toNat * 10 ^ ((-(16 - e)).toNat + 16) := by ring
    _ ≤ r.num * 10 ^ (-e).toNat * 10 ^ ((-(16 - e)).toNat + 16) := Nat.mul_le_mul_right _ h
    _ = r.num * 10 ^ ((-(16 - e)).toNat + 16 + (-e).toNat) := by ring
    _ = r.num * 10 ^ (16 - e).toNat * 10 ^ e.toNat := by rw [← hexp]; ring

theorem scaled_quarter (m : Nat) (q shift : Int) :
    (quarter m q).scale shift =
      ⟨m * (2 ^ q.toNat * 10 ^ shift.toNat), 4 * 2 ^ (-q).toNat * 10 ^ (-shift).toNat⟩ := by
  rw [quarter_eq, scale_eq, Nat.mul_assoc]

def lowEnd (m : Nat) (q : Int) : Nat := if m = hiddenBit ∧ -1074 < q then 4 * m - 1 else 4 * m - 2

theorem lowEnd_pos {m : Nat} (h : 0 < m) (q : Int) : 0 < lowEnd m q := by
  unfold lowEnd
  split <;> omega

/-- The multiple `x` of `den` lies where it reads back as the double of mantissa `m`. -/
def Inside (m low num den x : Nat) : Prop :=
  if m % 2 = 0 then low * num ≤ x * den ∧ x * den ≤ (4 * m + 2) * num
  else low * num < x * den ∧ x * den < (4 * m + 2) * num

instance (m low num den x : Nat) : Decidable (Inside m low num den x) :=
  inferInstanceAs (Decidable (ite _ _ _))

theorem Inside.pos {m low num den x : Nat} (h : Inside m low num den x) (hlow : 0 < low) (hnum : 0 < num) :
    x ≠ 0 := by
  rintro rfl
  have hpos : 0 < low * num := Nat.mul_pos hlow hnum
  unfold Inside at h
  split at h <;> omega

theorem inside_or {m low num den : Nat} (hnum : 0 < num) (hden : 0 < den) (hlow : low < 4 * m)
    (h : den < (4 * m + 2 - low) * num) :
    Inside m low num den (4 * m * num / den) ∨ Inside m low num den (4 * m * num / den + 1) := by
  have hfloor : 4 * m * num / den * den ≤ 4 * m * num := Nat.div_mul_le_self _ _
  have hceil : 4 * m * num < (4 * m * num / den + 1) * den := Nat.lt_mul_of_div_lt (Nat.lt_succ_self _) hden
  have hhigh : 4 * m * num < (4 * m + 2) * num := Nat.mul_lt_mul_of_pos_right (by omega) hnum
  have hwidth : low * num + (4 * m + 2 - low) * num = (4 * m + 2) * num := by
    rw [← Nat.add_mul]
    congr 1
    omega
  have hlow' : low * num < 4 * m * num := Nat.mul_lt_mul_of_pos_right hlow hnum
  have hnext : (4 * m * num / den + 1) * den = 4 * m * num / den * den + den := Nat.succ_mul _ _
  unfold Inside
  rw [hnext] at hceil ⊢
  generalize 4 * m * num / den * den = x at *
  generalize (4 * m + 2) * num = high at *
  generalize low * num = lo at *
  split <;> omega

theorem onGrid_cases (m : Nat) (q e : Int) (n : Nat) {num den : Nat}
    (hnum : num = 2 ^ q.toNat * 10 ^ ((n : Int) - 1 - e).toNat)
    (hden : den = 4 * 2 ^ (-q).toNat * 10 ^ (-((n : Int) - 1 - e)).toNat) :
    (∃ d, Inside m (lowEnd m q) num den d ∧ onGrid m q e n = some d) ∨
    (¬ Inside m (lowEnd m q) num den (4 * m * num / den) ∧
      ¬ Inside m (lowEnd m q) num den (4 * m * num / den + 1) ∧ onGrid m q e n = none) := by
  have hinside (low x : Nat) :
      (if m % 2 = 0 then decide (low * num ≤ x * den ∧ x * den ≤ (4 * m + 2) * num)
        else decide (low * num < x * den ∧ x * den < (4 * m + 2) * num)) =
      decide (Inside m low num den x) := by
    unfold Inside
    split <;> rfl
  unfold onGrid
  rw [← lowEnd]
  simp only [scaled_quarter, ← hnum, ← hden, hinside]
  generalize 4 * m * num / den = x
  by_cases hx : Inside m (lowEnd m q) num den x
  · left
    by_cases hy : Inside m (lowEnd m q) num den (x + 1)
    · simp only [hx, hy, decide_true]
      split
      · exact ⟨_, hy, rfl⟩
      · exact ⟨_, hx, rfl⟩
    · exact ⟨x, hx, by simp only [hx, hy, decide_true, decide_false]⟩
  · by_cases hy : Inside m (lowEnd m q) num den (x + 1)
    · left
      exact ⟨x + 1, hy, by simp only [hx, hy, decide_true, decide_false]⟩
    · exact .inr ⟨hx, hy, by simp only [hx, hy, decide_false]⟩

variable {m : Nat} {q e : Int}

theorem onGrid_ne_zero {n d : Nat} (hm : 0 < m) (h : onGrid m q e n = some d) : d ≠ 0 := by
  rcases onGrid_cases m q e n rfl rfl with ⟨d', hd', hgrid⟩ | ⟨-, -, hgrid⟩
  · rw [hgrid] at h
    cases h
    exact hd'.pos (lowEnd_pos hm q) (by positivity)
  · rw [hgrid] at h
    cases h

theorem onGrid_seventeen (hm : 0 < m) (hlt : m < 2 * hiddenBit) (h : (quarter (4 * m) q).Reaches e) :
    ∃ d, onGrid m q e 17 = some d := by
  obtain ⟨num, hnum⟩ : ∃ num, num = 2 ^ q.toNat * 10 ^ (((17 : Nat) : Int) - 1 - e).toNat := ⟨_, rfl⟩
  obtain ⟨den, hden⟩ : ∃ den, den = 4 * 2 ^ (-q).toNat * 10 ^ (-(((17 : Nat) : Int) - 1 - e)).toNat := ⟨_, rfl⟩
  have hscale := sixteen_le_scale h
  rw [scaled_quarter] at hscale
  change 4 * 2 ^ (-q).toNat * 10 ^ (-(((17 : Nat) : Int) - 1 - e)).toNat * 10 ^ 16 ≤
    4 * m * (2 ^ q.toNat * 10 ^ (((17 : Nat) : Int) - 1 - e).toNat) at hscale
  rw [← hnum, ← hden] at hscale
  have hnumPos : 0 < num := by rw [hnum]; positivity
  have hdenPos : 0 < den := by rw [hden]; positivity
  have hwidth : den < (4 * m + 2 - lowEnd m q) * num := by
    simp only [hiddenBit] at hlt
    unfold lowEnd
    split
    · next hbit =>
        rw [hbit.1, hiddenBit] at hscale ⊢
        norm_num at hscale ⊢
        omega
    · have hmul : 4 * m * num ≤ 0x80000000000000 * num := Nat.mul_le_mul_right num (by omega)
      have hfour : 4 * m + 2 - (4 * m - 2) = 4 := by omega
      rw [hfour]
      norm_num at hscale
      omega
  rcases onGrid_cases m q e 17 hnum hden with ⟨d, -, hgrid⟩ | ⟨hx, hy, -⟩
  · exact ⟨d, hgrid⟩
  · have hlow : lowEnd m q < 4 * m := by
      unfold lowEnd
      split <;> omega
    exact absurd (inside_or hnumPos hdenPos hlow hwidth) (not_or.mpr ⟨hx, hy⟩)

theorem search_ne_zero (hm : 0 < m) (hlast : ∃ d, onGrid m q e 17 = some d) (fuel n : Nat)
    (h : n + fuel = 17) : (search m q e fuel n).1 ≠ 0 := by
  induction fuel generalizing n with
  | zero =>
      obtain ⟨d, hd⟩ := hlast
      obtain rfl : n = 17 := h
      rw [search, hd]
      exact onGrid_ne_zero hm hd
  | succ fuel ih =>
      rw [search]
      split
      · next hd => exact onGrid_ne_zero hm hd
      · exact ih (n + 1) (by omega)

theorem toDigits_head {n : Nat} (h : n ≠ 0) : ∃ c cs, Nat.toDigits 10 n = c :: cs ∧ c ≠ '0' := by
  induction n using Nat.strongRecOn with
  | ind n ih =>
      by_cases hn : n < 10
      · rw [Nat.toDigits_of_lt_base hn]
        refine ⟨_, _, rfl, ?_⟩
        have hdigit : ∀ n < 10, n ≠ 0 → n.digitChar ≠ '0' := by decide
        exact hdigit n hn h
      · obtain ⟨c, cs, hcs, hc⟩ := ih (n / 10) (by omega) (by omega)
        rw [Nat.toDigits_of_base_le (by decide) (by omega), hcs]
        exact ⟨c, _, rfl, hc⟩

theorem parts_spec {bits : UInt64} (h : bits.toNat % Number.signBit ≠ 0) :
    0 < (parts bits).1 ∧ (parts bits).1 < 2 * hiddenBit ∧ -1074 ≤ (parts bits).2 := by
  have hbits := bits.toNat_lt
  simp only [Number.signBit] at h
  unfold parts
  dsimp only
  split
  · simp only [hiddenBit] at *
    omega
  · simp only [hiddenBit] at *
    omega

theorem reaches_parts {m : Nat} {q : Int} (hm : 0 < m) (hq : -1074 ≤ q) :
    (quarter (4 * m) q).Reaches (magnitude (quarter (4 * m) q)) := by
  rw [quarter_eq]
  obtain ⟨n, hn⟩ : ∃ n, n = 400 + 1 := ⟨_, rfl⟩
  apply reaches_magnitude hn (by positivity)
  have hpos : 0 < m * 2 ^ q.toNat := by positivity
  calc 4 * 2 ^ (-q).toNat ≤ 4 * 2 ^ (3 * n) :=
        Nat.mul_le_mul_left 4 (Nat.pow_le_pow_right (by decide) (by omega))
    _ = 4 * 8 ^ n := by rw [Nat.pow_mul]
    _ ≤ 4 * (m * 2 ^ q.toNat) * 10 ^ n := Nat.mul_le_mul (by omega) (Nat.pow_le_pow_left (by decide) _)
    _ = 4 * m * 2 ^ q.toNat * 10 ^ n := by rw [Nat.mul_assoc 4 m]

theorem digits_spec {bits : UInt64} (h : bits.toNat % Number.signBit ≠ 0) :
    ∃ c cs, (digits bits).1 = c :: cs ∧ c ≠ '0' ∧ ∀ x ∈ c :: cs, x.isDigit = true := by
  obtain ⟨hm, hlt, hq⟩ := parts_spec h
  have hreach := reaches_parts hm hq
  have hne := search_ne_zero hm (onGrid_seventeen hm hlt hreach) 16 1 rfl
  obtain ⟨c, cs, hcs, hc⟩ := toDigits_head hne
  have hdigits : (digits bits).1 = ((c :: cs).reverse.dropWhile (· == '0')).reverse := by
    rw [← hcs]
    rfl
  have hall : ∀ x ∈ c :: cs, x.isDigit = true := by
    intro x hx
    rw [← hcs] at hx
    exact Nat.isDigit_of_mem_toDigits (by decide) (by decide) hx
  obtain ⟨zeros, hzeros⟩ : ∃ zeros, c :: cs = (digits bits).1 ++ zeros ∧ ∀ z ∈ zeros, z = '0' := by
    refine ⟨((c :: cs).reverse.takeWhile (· == '0')).reverse, ?_, ?_⟩
    · rw [hdigits, ← List.reverse_append, List.takeWhile_append_dropWhile, List.reverse_reverse]
    · intro z hz
      simpa using List.mem_takeWhile_imp (List.mem_reverse.mp hz)
  cases hds : (digits bits).1 with
  | nil =>
      rw [hds] at hzeros
      exact absurd (hzeros.2 c (by rw [← List.nil_append zeros, ← hzeros.1]; simp)) hc
  | cons c' cs' =>
      rw [hds] at hzeros
      have hhead : c = c' := (List.cons.inj hzeros.1).1
      refine ⟨c', cs', rfl, hhead ▸ hc, ?_⟩
      intro x hx
      exact hall x (by rw [hzeros.1]; exact List.mem_append_left _ hx)

end LogTail.Json.Shortest
