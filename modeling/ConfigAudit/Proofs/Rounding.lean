import ConfigAudit.Proofs.Doubles
import Mathlib.Algebra.Order.Archimedean.Basic
import Mathlib.Tactic.FieldSimp
import Mathlib.Algebra.Order.Field.Power
import Mathlib.Tactic.Positivity

/-!
# Rounding to doubles

`Double.ofRatio` finds the double that is nearest to a quotient. Here its steps are read on rational
numbers: `floorLog2` is the exponent of the power of two below the quotient, `roundHalfEven` the
nearest whole number, `normalize` forgets how a mantissa is widened.
-/

namespace ConfigAudit.Double

/-! ### Scaling by powers of two -/

section Scaling

variable {num den : ℕ}

theorem scaleByTwo_div (num den : ℕ) (shift : ℤ) :
    ((scaleByTwo num den shift).1 : ℚ) / (scaleByTwo num den shift).2 =
      num / den * 2 ^ shift := by
  unfold scaleByTwo
  by_cases h : 0 ≤ shift
  · rw [if_pos h, Nat.cast_mul, natCast_pow_toNat 2 h, Nat.cast_ofNat]
    ring
  · have hneg : 0 ≤ -shift := by omega
    rw [if_neg h, Nat.cast_mul, natCast_pow_toNat 2 hneg, Nat.cast_ofNat, zpow_neg,
      div_mul_eq_div_div, div_inv_eq_mul]

theorem scaleByTwo_snd_pos (num : ℕ) (hden : 0 < den) (shift : ℤ) :
    0 < (scaleByTwo num den shift).2 := by
  unfold scaleByTwo
  split
  · exact hden
  · exact Nat.mul_pos hden (Nat.pow_pos (by decide))

end Scaling

/-! ### The exponent of a quotient -/

theorem two_zpow_pos (e : ℤ) : (0 : ℚ) < 2 ^ e := zpow_pos (by norm_num) e

theorem two_zpow_add (d e : ℤ) : (2 : ℚ) ^ (d + e) = 2 ^ d * 2 ^ e :=
  zpow_add₀ (by norm_num) d e

theorem two_zpow_eq_two_mul (e : ℤ) : (2 : ℚ) ^ e = 2 * 2 ^ (e - 1) := by
  rw [show e = 1 + (e - 1) by ring, two_zpow_add, zpow_one, add_sub_cancel_left]

theorem two_zpow_lt_iff {d e : ℤ} : (2 : ℚ) ^ d < 2 ^ e ↔ d < e :=
  zpow_lt_zpow_iff_right₀ (by norm_num)

theorem two_zpow_log2_le {n : ℕ} (hn : 0 < n) : (2 : ℚ) ^ (n.log2 : ℤ) ≤ n := by
  rw [zpow_natCast]
  exact_mod_cast Nat.log2_self_le hn.ne'

theorem lt_two_zpow_log2 (n : ℕ) : (n : ℚ) < 2 ^ ((n.log2 : ℤ) + 1) := by
  have h : n < 2 ^ (n.log2 + 1) := Nat.lt_log2_self
  rw [show ((n.log2 : ℤ) + 1) = ((n.log2 + 1 : ℕ) : ℤ) by push_cast; ring, zpow_natCast]
  exact_mod_cast h

/-- The difference of the logarithms is the exponent of a quotient, or one more. -/
theorem quotient_bounds {num den : ℕ} (hnum : 0 < num) (hden : 0 < den) :
    (2 : ℚ) ^ ((num.log2 : ℤ) - den.log2 - 1) ≤ num / den ∧
      (num : ℚ) / den < 2 ^ ((num.log2 : ℤ) - den.log2 + 1) := by
  have hd : (0 : ℚ) < den := by exact_mod_cast hden
  constructor
  · rw [le_div_iff₀ hd]
    calc (2 : ℚ) ^ ((num.log2 : ℤ) - den.log2 - 1) * den
        ≤ 2 ^ ((num.log2 : ℤ) - den.log2 - 1) * 2 ^ ((den.log2 : ℤ) + 1) :=
          mul_le_mul_of_nonneg_left (lt_two_zpow_log2 den).le (two_zpow_pos _).le
      _ = 2 ^ (num.log2 : ℤ) := by
          rw [← two_zpow_add]
          congr 1
          ring
      _ ≤ num := two_zpow_log2_le hnum
  · rw [div_lt_iff₀ hd]
    calc (num : ℚ) < 2 ^ ((num.log2 : ℤ) + 1) := lt_two_zpow_log2 num
      _ = 2 ^ ((num.log2 : ℤ) - den.log2 + 1) * 2 ^ (den.log2 : ℤ) := by
          rw [← two_zpow_add]
          congr 1
          ring
      _ ≤ 2 ^ ((num.log2 : ℤ) - den.log2 + 1) * den :=
          mul_le_mul_of_nonneg_left (two_zpow_log2_le hden) (two_zpow_pos _).le

theorem floorLog2_eq_ite (num den : ℕ) :
    floorLog2 num den =
      let guess : ℤ := num.log2 - den.log2
      if (scaleByTwo num den (-guess)).1 < (scaleByTwo num den (-guess)).2 then guess - 1
      else guess := rfl

/-- The exponent of a quotient of positive numbers. -/
theorem floorLog2_spec {num den : ℕ} (hnum : 0 < num) (hden : 0 < den) :
    (2 : ℚ) ^ floorLog2 num den ≤ num / den ∧ (num : ℚ) / den < 2 ^ (floorLog2 num den + 1) := by
  obtain ⟨hlower, hupper⟩ := quotient_bounds hnum hden
  rw [floorLog2_eq_ite]
  set guess : ℤ := (num.log2 : ℤ) - den.log2
  have hpos : (0 : ℚ) < (scaleByTwo num den (-guess)).2 := by
    exact_mod_cast scaleByTwo_snd_pos num hden (-guess)
  -- the comparison of the scaled numbers decides between the two exponents that are left
  have hcompare : (scaleByTwo num den (-guess)).1 < (scaleByTwo num den (-guess)).2 ↔
      (num : ℚ) / den < 2 ^ guess := by
    rw [← Nat.cast_lt (α := ℚ), ← div_lt_one hpos, scaleByTwo_div, zpow_neg, mul_inv_lt_iff₀
      (two_zpow_pos guess), one_mul]
  by_cases hlt : (scaleByTwo num den (-guess)).1 < (scaleByTwo num den (-guess)).2
  · rw [if_pos hlt, sub_add_cancel]
    exact ⟨hlower, hcompare.1 hlt⟩
  · rw [if_neg hlt]
    exact ⟨not_lt.1 (mt hcompare.2 hlt), hupper⟩

/-! ### The nearest whole number -/

/-- Whatever is at most one half away from a whole number is rounded to it, if the number is even or
the distance is smaller. -/
theorem roundHalfEven_eq {num den n : ℕ} (hden : 0 < den) (hlow : (n : ℚ) - 1 / 2 ≤ num / den)
    (hhigh : (num : ℚ) / den ≤ n + 1 / 2)
    (htie : n % 2 = 0 ∨ (n : ℚ) - 1 / 2 < num / den ∧ (num : ℚ) / den < n + 1 / 2) :
    roundHalfEven num den = n := by
  have hd : (0 : ℚ) < den := by exact_mod_cast hden
  -- the same bounds without fractions
  have hlow' : 2 * (n * den) ≤ 2 * num + den := by
    rw [le_div_iff₀ hd] at hlow
    have : (2 * (n * den) : ℚ) ≤ 2 * num + den := by linarith
    exact_mod_cast this
  have hhigh' : 2 * num ≤ 2 * (n * den) + den := by
    rw [div_le_iff₀ hd] at hhigh
    have : (2 * num : ℚ) ≤ 2 * (n * den) + den := by linarith
    exact_mod_cast this
  have htie' : n % 2 = 0 ∨ 2 * (n * den) < 2 * num + den ∧ 2 * num < 2 * (n * den) + den := by
    refine htie.imp_right fun ⟨hl, hh⟩ => ?_
    rw [lt_div_iff₀ hd] at hl
    rw [div_lt_iff₀ hd] at hh
    constructor
    · have : (2 * (n * den) : ℚ) < 2 * num + den := by linarith
      exact_mod_cast this
    · have : (2 * num : ℚ) < 2 * (n * den) + den := by linarith
      exact_mod_cast this
  have hdivision : num / den * den + num % den = num := Nat.div_add_mod' num den
  have hrest : num % den < den := Nat.mod_lt num hden
  have hfloor : num / den ≤ n := by
    by_contra hless
    have hmul : (n + 1) * den ≤ num / den * den := Nat.mul_le_mul_right den (by omega)
    rw [Nat.succ_mul] at hmul
    omega
  have hceil : n ≤ num / den + 1 := by
    by_contra hless
    have hmul : (num / den + 2) * den ≤ n * den := Nat.mul_le_mul_right den (by omega)
    rw [Nat.add_mul] at hmul
    omega
  simp only [roundHalfEven]
  rcases Nat.eq_or_lt_of_le hfloor with heq | hlt
  · rw [← heq] at hlow' hhigh' htie' ⊢
    split_ifs <;> omega
  · have heq : n = num / den + 1 := by omega
    have hproduct : (num / den + 1) * den = num / den * den + den := Nat.succ_mul _ _
    rw [heq, hproduct] at hlow' hhigh' htie'
    rw [heq]
    split_ifs <;> omega

/-! ### Widened mantissas -/

theorem stripTwos_odd {m : ℕ} (hm : m % 2 = 1) (k fuel : ℕ) (hfuel : k ≤ fuel) (e : ℤ) :
    stripTwos fuel (m * 2 ^ k) e = (m, e + k) := by
  induction k generalizing fuel e with
  | zero =>
    cases fuel with
    | zero => simp [stripTwos]
    | succ fuel => simp [stripTwos, hm]
  | succ k ih =>
    obtain ⟨fuel, rfl⟩ : ∃ f, fuel = f + 1 := ⟨fuel - 1, by omega⟩
    have heven : m * 2 ^ (k + 1) % 2 = 0 := by
      rw [pow_succ, ← mul_assoc]
      exact Nat.mul_mod_left _ 2
    have hhalf : m * 2 ^ (k + 1) / 2 = m * 2 ^ k := by
      rw [pow_succ, ← mul_assoc]
      exact Nat.mul_div_cancel _ (by decide)
    rw [stripTwos, if_pos heven, hhalf, ih fuel (by omega)]
    congr 1
    push_cast
    ring

/-- Normalization takes an odd mantissa out of a widened one. -/
theorem normalize_widened {m : ℕ} (hm : m % 2 = 1) (s : Bool) (k : ℕ) (e : ℤ) :
    normalize s (m * 2 ^ k) e = finite s m (e + k) := by
  have hpos : 0 < m := by omega
  have hne : m * 2 ^ k ≠ 0 := by positivity
  have hfuel : k ≤ (m * 2 ^ k).log2 := by
    rw [Nat.le_log2 hne]
    exact Nat.le_mul_of_pos_left _ hpos
  rw [normalize, if_neg hne, stripTwos_odd hm k _ hfuel]

/-! ### The nearest double -/

/-- Mantissa and exponent of a double at full precision: the mantissa has 53 bits, or it has fewer
bits and the exponent is the least one. -/
structure FullPrecision (m : ℕ) (e : ℤ) : Prop where
  pos : 0 < m
  lt : m < 2 ^ 53
  full : 2 ^ 52 ≤ m ∨ e = -1074
  least : -1074 ≤ e
  limit : (m.log2 : ℤ) + e < 1024

/-- How far below a mantissa numbers are still rounded to it: half a unit, and half of this below a
power of two, where the doubles are twice as dense. -/
def gapBelow (m : ℕ) (e : ℤ) : ℚ := if m = 2 ^ 52 ∧ -1074 < e then 1 / 4 else 1 / 2

/-- The rational numbers that are rounded to the double `m * 2 ^ e`, which is given at full
precision. The ends belong to an even mantissa only. -/
structure Near (m : ℕ) (e : ℤ) (q : ℚ) : Prop where
  low : (m - gapBelow m e) * 2 ^ e ≤ q
  high : q ≤ (m + 1 / 2) * 2 ^ e
  tie : m % 2 = 0 ∨ (m - gapBelow m e) * 2 ^ e < q ∧ q < (m + 1 / 2) * 2 ^ e

theorem gapBelow_pos (m : ℕ) (e : ℤ) : 0 < gapBelow m e := by
  unfold gapBelow
  split <;> norm_num

theorem gapBelow_le (m : ℕ) (e : ℤ) : gapBelow m e ≤ 1 / 2 := by
  unfold gapBelow
  split <;> norm_num

theorem ofRatio_eq_ite {num den : ℕ} (hnum : 0 < num) (hden : 0 < den) (s : Bool) {last : ℤ}
    (hlast : max (floorLog2 num den - 52) (-1074) = last) :
    ofRatio s num den =
      let m := roundHalfEven (scaleByTwo num den (-last)).1 (scaleByTwo num den (-last)).2
      if 1024 ≤ (m.log2 : ℤ) + last then .infinite s else normalize s m last := by
  have hpos : ¬ (num = 0 ∨ den = 0) := by omega
  rw [ofRatio, if_neg hpos, ← hlast]
  rfl

section Near

variable {m : ℕ} {e : ℤ} {num den : ℕ}

/-- The quotient in units of the last place. -/
theorem roundHalfEven_scaled {n : ℕ} {last : ℤ} (hden : 0 < den)
    (hlow : ((n : ℚ) - 1 / 2) * 2 ^ last ≤ num / den)
    (hhigh : (num : ℚ) / den ≤ (n + 1 / 2) * 2 ^ last)
    (htie : n % 2 = 0 ∨ ((n : ℚ) - 1 / 2) * 2 ^ last < num / den ∧
      (num : ℚ) / den < (n + 1 / 2) * 2 ^ last) :
    roundHalfEven (scaleByTwo num den (-last)).1 (scaleByTwo num den (-last)).2 = n := by
  have hunit := two_zpow_pos last
  have hscaled : ((scaleByTwo num den (-last)).1 : ℚ) / (scaleByTwo num den (-last)).2 =
      num / den / 2 ^ last := by
    rw [scaleByTwo_div, zpow_neg, div_eq_mul_inv (num / den : ℚ)]
  refine roundHalfEven_eq (scaleByTwo_snd_pos num hden _) ?_ ?_ ?_
  · rwa [hscaled, le_div_iff₀ hunit]
  · rwa [hscaled, div_le_iff₀ hunit]
  · rwa [hscaled, lt_div_iff₀ hunit, div_lt_iff₀ hunit]

theorem quotient_lt_of_near (hm : FullPrecision m e) (h : Near m e (num / den)) :
    (num : ℚ) / den < 2 ^ (e + 53) := by
  have hlt : (m : ℚ) + 1 ≤ 2 ^ (53 : ℤ) := by
    have := hm.lt
    norm_num
    exact_mod_cast this
  have hunit := two_zpow_pos e
  calc (num : ℚ) / den ≤ (m + 1 / 2) * 2 ^ e := h.high
    _ < 2 ^ (53 : ℤ) * 2 ^ e := by
        apply mul_lt_mul_of_pos_right _ hunit
        linarith
    _ = 2 ^ (e + 53) := by rw [mul_comm, two_zpow_add]

/-- Only the double `2 ^ (e + 52)` is near to numbers below it in the range of its exponent. -/
theorem eq_of_near_of_lt (hm : FullPrecision m e) (h : Near m e (num / den))
    (hlt : (num : ℚ) / den < 2 ^ (e + 52)) (he : -1074 < e) :
    m = 2 ^ 52 ∧ (2 ^ (53 : ℤ) - 1 / 2) * 2 ^ (e - 1) ≤ (num : ℚ) / den := by
  have hunit := two_zpow_pos e
  have hfull : 2 ^ 52 ≤ m := hm.full.resolve_right (by omega)
  have hm52 : m = 2 ^ 52 := by
    have hlow : ((m : ℚ) - gapBelow m e) * 2 ^ e < 2 ^ (52 : ℤ) * 2 ^ e := by
      rw [← two_zpow_add, add_comm (52 : ℤ)]
      exact h.low.trans_lt hlt
    have hless : (m : ℚ) - gapBelow m e < 2 ^ (52 : ℤ) := lt_of_mul_lt_mul_right hlow hunit.le
    have hpow : (2 : ℚ) ^ (52 : ℤ) = 2 ^ 52 := by norm_num
    have hm' : (m : ℚ) < 2 ^ 52 + 1 := by linarith [gapBelow_le m e]
    have hm'' : m < 2 ^ 52 + 1 := by exact_mod_cast hm'
    omega
  refine ⟨hm52, ?_⟩
  have hgap : gapBelow m e = 1 / 4 := if_pos ⟨hm52, he⟩
  have hlow := h.low
  rw [hgap, hm52] at hlow
  calc ((2 : ℚ) ^ (53 : ℤ) - 1 / 2) * 2 ^ (e - 1)
      = (((2 ^ 52 : ℕ) : ℚ) - 1 / 4) * 2 ^ e := by
        rw [two_zpow_eq_two_mul e]
        push_cast
        norm_num
        ring
    _ ≤ num / den := hlow

/-- Just below a power of two, units have half the size, and rounding goes up to the power. -/
theorem ofRatio_of_near_of_lt (hm : FullPrecision m e) (hnum : 0 < num) (hden : 0 < den)
    (h : Near m e (num / den)) (hlt : (num : ℚ) / den < 2 ^ (e + 52)) (he : -1074 < e) (s : Bool) :
    ofRatio s num den = normalize s m e := by
  have hunit := two_zpow_pos (e - 1)
  obtain ⟨hm52, hlow⟩ := eq_of_near_of_lt hm h hlt he
  have hhigh : (num : ℚ) / den < 2 ^ (53 : ℤ) * 2 ^ (e - 1) := by
    rw [← two_zpow_add, show (53 : ℤ) + (e - 1) = e + 52 by ring]
    exact hlt
  -- the quotient is less than a unit below the power, so that its exponent is one less
  have hlast : max (floorLog2 num den - 52) (-1074) = e - 1 := by
    obtain ⟨hfloor, hfloor'⟩ := floorLog2_spec hnum hden
    have hlt' : floorLog2 num den < e + 52 := two_zpow_lt_iff.1 (hfloor.trans_lt hlt)
    have hgt : e + 51 < floorLog2 num den + 1 := by
      refine two_zpow_lt_iff.1 (lt_of_le_of_lt ?_ hfloor')
      refine le_trans ?_ hlow
      rw [show e + 51 = 52 + (e - 1) by ring, two_zpow_add]
      apply mul_le_mul_of_nonneg_right _ hunit.le
      norm_num
    omega
  have hround : roundHalfEven (scaleByTwo num den (-(e - 1))).1
      (scaleByTwo num den (-(e - 1))).2 = 2 ^ 53 := by
    refine roundHalfEven_scaled hden ?_ ?_ (.inl (by norm_num))
    · push_cast
      exact_mod_cast hlow
    · have hle : (2 : ℚ) ^ (53 : ℤ) ≤ ((2 ^ 53 : ℕ) : ℚ) + 1 / 2 := by norm_num
      exact hhigh.le.trans (mul_le_mul_of_nonneg_right hle hunit.le)
  have hlimit : ¬ 1024 ≤ ((2 ^ 53 : ℕ).log2 : ℤ) + (e - 1) := by
    have hlog := hm.limit
    rw [hm52, Nat.log2_two_pow] at hlog
    rw [Nat.log2_two_pow]
    omega
  rw [ofRatio_eq_ite hnum hden s hlast, hround, if_neg hlimit, hm52]
  -- both sides are the power of two
  have hone : (1 : ℕ) % 2 = 1 := rfl
  have hleft := normalize_widened hone s 53 (e - 1)
  have hright := normalize_widened hone s 52 e
  rw [one_mul] at hleft hright
  rw [hleft, hright, show e - 1 + (53 : ℕ) = e + (52 : ℕ) by push_cast; ring]

/-- **Numbers near a double are rounded to it.** -/
theorem ofRatio_of_near (hm : FullPrecision m e) (hnum : 0 < num) (hden : 0 < den)
    (h : Near m e (num / den)) (s : Bool) : ofRatio s num den = normalize s m e := by
  by_cases hdense : (num : ℚ) / den < 2 ^ (e + 52) ∧ -1074 < e
  · exact ofRatio_of_near_of_lt hm hnum hden h hdense.1 hdense.2 s
  · have hunit := two_zpow_pos e
    -- the last place of the quotient is the one of the double
    have hlast : max (floorLog2 num den - 52) (-1074) = e := by
      obtain ⟨hfloor, hfloor'⟩ := floorLog2_spec hnum hden
      have hlt : floorLog2 num den < e + 53 :=
        two_zpow_lt_iff.1 (hfloor.trans_lt (quotient_lt_of_near hm h))
      have hleast := hm.least
      rw [not_and_or, not_lt] at hdense
      rcases hdense with hge | hnone
      · have hgt : e + 52 < floorLog2 num den + 1 := two_zpow_lt_iff.1 (hge.trans_lt hfloor')
        omega
      · omega
    have hround : roundHalfEven (scaleByTwo num den (-e)).1 (scaleByTwo num den (-e)).2 = m := by
      have hgap : ((m : ℚ) - 1 / 2) * 2 ^ e ≤ (m - gapBelow m e) * 2 ^ e := by
        apply mul_le_mul_of_nonneg_right _ hunit.le
        linarith [gapBelow_le m e]
      refine roundHalfEven_scaled hden (hgap.trans h.low) h.high ?_
      exact h.tie.imp_right fun ⟨hlow, hhigh⟩ => ⟨hgap.trans_lt hlow, hhigh⟩
    have hlimit : ¬ 1024 ≤ (m.log2 : ℤ) + e := not_le.2 hm.limit
    rw [ofRatio_eq_ite hnum hden s hlast, hround, if_neg hlimit]

end Near

end ConfigAudit.Double
