import ConfigAudit.Proofs.Rounding
import Mathlib.Data.Nat.Factorization.Basic

/-!
# Shortest decimals read back

The decimal that `Double.shortest` finds lies in the interval of numbers that are rounded to the
double, and `Double.ofDecimal` rounds every decimal in that interval to the double. So a double is
read back from each way to write its shortest decimal (`ofDecimal_of_eq_shortest`).

* `Rounding.Describes`: what the fields of a rounding interval stand for;
* `shortest_near`: the grids of `Rounding.search` become fine enough before the search ends;
* `ofDecimal_of_near`: the bounds on exponents in `Double.ofDecimal` exclude no double.
-/

namespace ConfigAudit

namespace Decimal

/-- The rational number of a decimal. -/
def toRat (d : Decimal) : ℚ := d.digits * 10 ^ d.exponent

theorem ten_zpow_add_one (e : ℤ) : (10 : ℚ) ^ (e + 1) = 10 * 10 ^ e := by
  rw [zpow_add₀ (by norm_num), zpow_one, mul_comm]

/-- Removing zeros at the end does not change the number. -/
theorem trim_spec (fuel : ℕ) {d : Decimal} (h : 0 < d.digits) :
    0 < (d.trim fuel).digits ∧ (d.trim fuel).toRat = d.toRat := by
  induction fuel generalizing d with
  | zero => exact ⟨h, rfl⟩
  | succ fuel ih =>
    rw [trim]
    split_ifs with hten
    · have hdigits : d.digits = d.digits / 10 * 10 := by omega
      obtain ⟨hpos, hvalue⟩ := @ih ⟨d.digits / 10, d.exponent + 1⟩ (by dsimp only; omega)
      refine ⟨hpos, hvalue.trans ?_⟩
      have hcast : (d.digits : ℚ) = (d.digits / 10 : ℕ) * 10 := by exact_mod_cast hdigits
      rw [toRat, toRat, hcast, ten_zpow_add_one]
      ring
    · exact ⟨h, rfl⟩

end Decimal

namespace Double

/-! ### Finite doubles -/

/-- Mantissa and exponent of a finite double other than zero, with an exponent as large as it can
be. -/
structure Canonical (m : ℕ) (e : ℤ) : Prop where
  odd : m % 2 = 1
  lt : m < 2 ^ 53
  least : -1074 ≤ e
  limit : (m.log2 : ℤ) + e < 1024

/-- The finite doubles: the two zeros and the canonical ones. -/
inductive Finite : Double → Prop
  | zero (s : Bool) : Finite (.finite s 0 0)
  | nonzero (s : Bool) {m : ℕ} {e : ℤ} (h : Canonical m e) : Finite (.finite s m e)

/-- The number of bits by which a mantissa is widened to full precision. -/
def widening (m : ℕ) (e : ℤ) : ℕ := (min (52 - (m.log2 : ℤ)) (e + 1074)).toNat

section Canonical

variable {m : ℕ} {e : ℤ}

theorem Canonical.pos (h : Canonical m e) : 0 < m := by
  have := h.odd
  omega

theorem Canonical.log2_le (h : Canonical m e) : m.log2 ≤ 52 := by
  have : m.log2 < 53 := (Nat.log2_lt h.pos.ne').2 h.lt
  omega

theorem Canonical.widening_eq (h : Canonical m e) :
    (widening m e : ℤ) = min (52 - (m.log2 : ℤ)) (e + 1074) := by
  have := h.log2_le
  have := h.least
  unfold widening
  omega

theorem log2_widened (hm : 0 < m) (k : ℕ) : (m * 2 ^ k).log2 = m.log2 + k := by
  have hne : m * 2 ^ k ≠ 0 := by positivity
  rw [Nat.log2_eq_iff hne, pow_add, add_right_comm, pow_add]
  constructor
  · exact Nat.mul_le_mul_right _ (Nat.log2_self_le hm.ne')
  · exact Nat.mul_lt_mul_of_pos_right Nat.lt_log2_self (by positivity)

theorem Canonical.fullPrecision (h : Canonical m e) :
    FullPrecision (m * 2 ^ widening m e) (e - widening m e) := by
  have hpos : 0 < m * 2 ^ widening m e := Nat.mul_pos h.pos (by positivity)
  have hlog : (m * 2 ^ widening m e).log2 = m.log2 + widening m e := log2_widened h.pos _
  have hwiden := h.widening_eq
  refine ⟨hpos, ?_, ?_, ?_, ?_⟩
  · rw [← Nat.log2_lt hpos.ne', hlog]
    omega
  · rw [← Nat.le_log2 hpos.ne', hlog]
    omega
  · omega
  · have := h.limit
    rw [hlog]
    push_cast
    omega

theorem Canonical.normalize_widened (h : Canonical m e) (s : Bool) :
    normalize s (m * 2 ^ widening m e) (e - widening m e) = finite s m e := by
  rw [Double.normalize_widened h.odd, sub_add_cancel]

theorem widened_mul (m : ℕ) (e : ℤ) (k : ℕ) : ((m * 2 ^ k : ℕ) : ℚ) * 2 ^ (e - k) = m * 2 ^ e := by
  rw [Nat.cast_mul, Nat.cast_pow, Nat.cast_ofNat, zpow_sub₀ (by norm_num), zpow_natCast]
  field_simp

end Canonical

/-! ### Rounding intervals -/

/-- A double is near to itself. -/
theorem near_self (m : ℕ) (e : ℤ) : Near m e (m * 2 ^ e) := by
  have hunit := two_zpow_pos e
  have hlow : ((m : ℚ) - gapBelow m e) * 2 ^ e < m * 2 ^ e := by
    apply mul_lt_mul_of_pos_right _ hunit
    linarith [gapBelow_pos m e]
  have hhigh : (m : ℚ) * 2 ^ e < (m + 1 / 2) * 2 ^ e := by
    apply mul_lt_mul_of_pos_right _ hunit
    linarith
  exact ⟨hlow.le, hhigh.le, .inr ⟨hlow, hhigh⟩⟩

/-- The rounding interval of a double, which is given at full precision. -/
structure Rounding.Describes (r : Rounding) (m : ℕ) (e : ℤ) : Prop where
  den_pos : 0 < r.den
  value : (r.value : ℚ) / r.den = m * 2 ^ e
  low : (r.low : ℚ) / r.den = (m - gapBelow m e) * 2 ^ e
  high : (r.high : ℚ) / r.den = (m + 1 / 2) * 2 ^ e
  closed : r.closed = true ↔ m % 2 = 0

theorem Canonical.describes {m : ℕ} {e : ℤ} (h : Canonical m e) :
    (rounding m e).Describes (m * 2 ^ widening m e) (e - widening m e) := by
  have hfull := h.fullPrecision
  have hpower : ((m * 2 ^ widening m e).log2 = 52 ∧ m * 2 ^ widening m e = 2 ^ 52) ∧
      -1074 < e - widening m e ↔
        m * 2 ^ widening m e = 2 ^ 52 ∧ -1074 < e - widening m e := by
    refine and_congr_left fun _ => and_iff_right_of_imp fun hm => ?_
    rw [hm, Nat.log2_two_pow]
  -- the definition in terms of the widened mantissa and exponent
  change Rounding.Describes
    { value := 4 * (m * 2 ^ widening m e) * (scaleByTwo 1 4 (e - widening m e)).1
      low := (if ((m * 2 ^ widening m e).log2 = 52 && m * 2 ^ widening m e = 2 ^ 52 &&
          -1074 < e - widening m e) = true then 4 * (m * 2 ^ widening m e) - 1
        else 4 * (m * 2 ^ widening m e) - 2) * (scaleByTwo 1 4 (e - widening m e)).1
      high := (4 * (m * 2 ^ widening m e) + 2) * (scaleByTwo 1 4 (e - widening m e)).1
      den := (scaleByTwo 1 4 (e - widening m e)).2
      closed := m * 2 ^ widening m e % 2 = 0 } _ _
  generalize m * 2 ^ widening m e = M at *
  generalize e - widening m e = E at *
  have hunit : ((scaleByTwo 1 4 E).1 : ℚ) / (scaleByTwo 1 4 E).2 = 2 ^ E / 4 := by
    rw [scaleByTwo_div]
    push_cast
    ring
  have hM := hfull.pos
  refine ⟨scaleByTwo_snd_pos 1 (by decide) E, ?_, ?_, ?_, ?_⟩ <;> dsimp only
  · push_cast
    rw [mul_div_assoc, hunit]
    ring
  · rw [Nat.cast_mul, mul_div_assoc, hunit, gapBelow]
    simp only [Bool.and_eq_true, decide_eq_true_eq, hpower]
    split_ifs
    · rw [Nat.cast_sub (by omega)]
      push_cast
      ring
    · rw [Nat.cast_sub (by omega)]
      push_cast
      ring
  · push_cast
    rw [mul_div_assoc, hunit]
    ring
  · exact decide_eq_true_iff

namespace Rounding

variable {r : Rounding} {m : ℕ} {e : ℤ}

theorem contains_iff (h : r.Describes m e) (num : ℕ) {den : ℕ} (hden : 0 < den) :
    r.contains num den = true ↔ Near m e (num / den) := by
  have hd : (0 : ℚ) < den := by exact_mod_cast hden
  have hr : (0 : ℚ) < r.den := by exact_mod_cast h.den_pos
  have hlow : r.low * den ≤ num * r.den ↔ ((m : ℚ) - gapBelow m e) * 2 ^ e ≤ num / den := by
    rw [← h.low, div_le_div_iff₀ hr hd]
    exact_mod_cast Iff.rfl
  have hhigh : num * r.den ≤ r.high * den ↔ (num : ℚ) / den ≤ (m + 1 / 2) * 2 ^ e := by
    rw [← h.high, div_le_div_iff₀ hd hr]
    exact_mod_cast Iff.rfl
  have hlow' : r.low * den < num * r.den ↔ ((m : ℚ) - gapBelow m e) * 2 ^ e < num / den := by
    rw [← h.low, div_lt_div_iff₀ hr hd]
    exact_mod_cast Iff.rfl
  have hhigh' : num * r.den < r.high * den ↔ (num : ℚ) / den < (m + 1 / 2) * 2 ^ e := by
    rw [← h.high, div_lt_div_iff₀ hd hr]
    exact_mod_cast Iff.rfl
  simp only [contains]
  by_cases hclosed : r.closed = true
  · rw [if_pos hclosed, Bool.and_eq_true, decide_eq_true_iff, decide_eq_true_iff, hlow, hhigh]
    exact ⟨fun ⟨hl, hh⟩ => ⟨hl, hh, .inl (h.closed.1 hclosed)⟩, fun hnear => ⟨hnear.low, hnear.high⟩⟩
  · rw [if_neg hclosed, Bool.and_eq_true, decide_eq_true_iff, decide_eq_true_iff, hlow', hhigh']
    refine ⟨fun ⟨hl, hh⟩ => ⟨hl.le, hh.le, .inr ⟨hl, hh⟩⟩, fun hnear => ?_⟩
    exact hnear.tie.resolve_left (mt h.closed.2 hclosed)

/-- The unit of a grid as a fraction. -/
theorem exists_unit (place : ℤ) : ∃ unit scale : ℕ,
    (if 0 ≤ place then (Nat.pow 10 place.toNat, 1) else (1, Nat.pow 10 (-place).toNat)) =
      (unit, scale) ∧ 0 < unit ∧ 0 < scale ∧ (unit : ℚ) / scale = 10 ^ place := by
  by_cases hplace : 0 ≤ place
  · refine ⟨Nat.pow 10 place.toNat, 1, if_pos hplace, Nat.pow_pos (by decide), by decide, ?_⟩
    rw [natCast_pow_toNat 10 hplace, Nat.cast_one, div_one, Nat.cast_ofNat]
  · have hneg : 0 ≤ -place := by omega
    refine ⟨1, Nat.pow 10 (-place).toNat, if_neg hplace, by decide, Nat.pow_pos (by decide), ?_⟩
    rw [natCast_pow_toNat 10 hneg, Nat.cast_one, Nat.cast_ofNat, zpow_neg, one_div, inv_inv]

/-- What is found on a grid lies in the interval. -/
theorem near_of_onGrid (h : r.Describes m e) {place : ℤ} {d : Decimal}
    (hd : r.onGrid place = some d) : 0 < d.digits ∧ Near m e d.toRat := by
  obtain ⟨unit, scale, hunit, -, hscale, hratio⟩ := exists_unit place
  have hnear {n : ℕ} (hn : r.contains (n * unit) scale = true) :
      Near m e (Decimal.toRat ⟨n, place⟩) := by
    rw [contains_iff h _ hscale, Nat.cast_mul, mul_div_assoc, hratio] at hn
    exact hn
  simp only [onGrid, hunit] at hd
  generalize r.value * scale / (r.den * unit) = below at hd
  have hleft (hok : (below != 0 && r.contains (below * unit) scale) = true) :
      0 < below ∧ Near m e (Decimal.toRat ⟨below, place⟩) := by
    rw [Bool.and_eq_true, bne_iff_ne] at hok
    exact ⟨Nat.pos_of_ne_zero hok.1, hnear hok.2⟩
  have hright (hok : r.contains ((below + 1) * unit) scale = true) :
      0 < below + 1 ∧ Near m e (Decimal.toRat ⟨below + 1, place⟩) :=
    ⟨Nat.succ_pos below, hnear hok⟩
  split_ifs at hd with hboth hmiddle hbelow habove <;> cases hd
  · exact hleft (Bool.and_eq_true_iff.1 hboth).1
  · exact hright (Bool.and_eq_true_iff.1 hboth).2
  · exact hleft hbelow
  · exact hright habove

/-- On a grid that is finer than half a unit of the last place, the neighbour above is found. -/
theorem onGrid_isSome (h : r.Describes m e) {place : ℤ} (hplace : (10 : ℚ) ^ place < 2 ^ (e - 1)) :
    (r.onGrid place).isSome := by
  obtain ⟨unit, scale, hunit, hunit_pos, hscale, hratio⟩ := exists_unit place
  have hhalf := two_zpow_eq_two_mul e
  have hd : (0 : ℚ) < r.den := by exact_mod_cast h.den_pos
  have hs : (0 : ℚ) < scale := by exact_mod_cast hscale
  have hu : (0 : ℚ) < unit := by exact_mod_cast hunit_pos
  simp only [onGrid, hunit]
  set below := r.value * scale / (r.den * unit)
  have hstep : 0 < r.den * unit := Nat.mul_pos h.den_pos hunit_pos
  have hleft : (below : ℚ) * 10 ^ place ≤ m * 2 ^ e := by
    have hle : below * (r.den * unit) ≤ r.value * scale := Nat.div_mul_le_self _ _
    have hle' : (below : ℚ) * (r.den * unit) ≤ r.value * scale := by exact_mod_cast hle
    rw [← hratio, ← h.value, ← mul_div_assoc, div_le_div_iff₀ hs hd]
    linarith
  have hright : (m : ℚ) * 2 ^ e < (below + 1) * 10 ^ place := by
    have hlt : r.value * scale < (r.den * unit) * (below + 1) := Nat.lt_mul_div_succ _ hstep
    have hlt' : (r.value : ℚ) * scale < (r.den * unit) * (below + 1) := by exact_mod_cast hlt
    rw [← hratio, ← h.value, ← mul_div_assoc, div_lt_div_iff₀ hd hs]
    linarith
  -- the neighbour is above the double, by less than the step of the grid
  have hnear : Near m e ((below + 1) * 10 ^ place) := by
    have hlow := ((near_self m e).low).trans_lt hright
    have hhigh : ((below : ℚ) + 1) * 10 ^ place < (m + 1 / 2) * 2 ^ e := by
      linarith
    exact ⟨hlow.le, hhigh.le, .inr ⟨hlow, hhigh⟩⟩
  have habove : r.contains ((below + 1) * unit) scale = true := by
    rw [contains_iff h _ hscale, Nat.cast_mul, mul_div_assoc, hratio]
    exact_mod_cast hnear
  simp only [habove, Bool.and_true, if_true]
  split_ifs <;> rfl

theorem search_eq_of_onGrid_isSome (r : Rounding) (fuel : ℕ) {place : ℤ} {k : ℕ} (hk : k < fuel)
    (h : (r.onGrid (place - k)).isSome) :
    ∃ p d, r.onGrid p = some d ∧ r.search fuel place = d.trim 400 := by
  induction fuel generalizing place k with
  | zero => omega
  | succ fuel ih =>
    rw [search]
    cases hgrid : r.onGrid place with
    | some d => exact ⟨place, d, hgrid, rfl⟩
    | none =>
      cases k with
      | zero =>
        rw [Nat.cast_zero, sub_zero, hgrid] at h
        cases h
      | succ k =>
        refine ih (k := k) (by omega) ?_
        rwa [show place - 1 - (k : ℤ) = place - (k + 1 : ℕ) by push_cast; ring]

end Rounding

/-! ### The grids are fine enough -/

theorem floorLog10_le (num den fuel : ℕ) (e : ℤ) : floorLog10 num den fuel e ≤ e := by
  induction fuel generalizing e with
  | zero => exact le_refl e
  | succ fuel ih =>
    simp only [floorLog10]
    split_ifs
    · exact le_refl e
    · have := ih (e - 1)
      omega
    · exact le_refl e
    · have := ih (e - 1)
      omega

/-- Powers of ten at the guessed exponent, scaled to natural numbers. -/
theorem guess_scaled : ∀ j < 2098,
    10 ^ ((30103 * j + 7669378) / 100000) * 2 ^ 1127 < 2 ^ j * 10 ^ 416 := by
  decide +kernel

/-- Seventeen places after the guessed one, the unit is below half a unit in the last place. -/
theorem ten_zpow_guess_lt {L : ℤ} (hlow : -1074 ≤ L) (hhigh : L < 1024) :
    (10 : ℚ) ^ (L * 30103 / 100000 + 1 - 17) < 2 ^ (L - 53) := by
  obtain ⟨j, hj⟩ : ∃ j : ℕ, L = j - 1074 := ⟨(L + 1074).toNat, by omega⟩
  have hguess : L * 30103 / 100000 + 1 - 17 =
      (((30103 * j + 7669378) / 100000 : ℕ) : ℤ) - (416 : ℕ) := by
    rw [hj]
    push_cast
    omega
  have hscaled : (10 : ℚ) ^ ((30103 * j + 7669378) / 100000) * 2 ^ 1127 < 2 ^ j * 10 ^ 416 := by
    exact_mod_cast guess_scaled j (by omega)
  rw [hguess, show L - 53 = (j : ℤ) - (1127 : ℕ) by rw [hj]; push_cast; ring,
    zpow_sub₀ (by norm_num), zpow_sub₀ (by norm_num), zpow_natCast, zpow_natCast, zpow_natCast,
    zpow_natCast, div_lt_div_iff₀ (by positivity) (by positivity)]
  exact hscaled

/-- The shortest decimal is rounded to the double. -/
theorem shortest_near {m : ℕ} {e : ℤ} (h : Canonical m e) : 0 < (shortest m e).digits ∧
    Near (m * 2 ^ widening m e) (e - widening m e) (shortest m e).toRat := by
  have hdescribes := h.describes
  set r := rounding m e
  set guess : ℤ := ((m.log2 : ℤ) + e) * 30103 / 100000 + 1 with hguess
  set first := floorLog10 r.value r.den 3 guess
  have hle : first ≤ guess := floorLog10_le _ _ _ _
  -- the last of the eighteen grids is finer than half a unit of the last place
  have hfine : (10 : ℚ) ^ (first - (17 : ℕ)) < 2 ^ (e - widening m e - 1) := by
    have hleast := h.least
    have hlog := h.log2_le
    have hwiden := h.widening_eq
    calc (10 : ℚ) ^ (first - (17 : ℕ)) ≤ 10 ^ (guess - 17) :=
          zpow_le_zpow_right₀ (by norm_num) (by push_cast; omega)
      _ < 2 ^ ((m.log2 : ℤ) + e - 53) := ten_zpow_guess_lt (by omega) h.limit
      _ ≤ 2 ^ (e - widening m e - 1) := zpow_le_zpow_right₀ (by norm_num) (by omega)
  obtain ⟨p, d, hd, hsearch⟩ := r.search_eq_of_onGrid_isSome 18 (k := 17) (by decide)
    (Rounding.onGrid_isSome hdescribes hfine)
  obtain ⟨hpos, hnear⟩ := Rounding.near_of_onGrid hdescribes hd
  obtain ⟨htrim_pos, htrim⟩ := Decimal.trim_spec 400 hpos
  have hshortest : shortest m e = d.trim 400 := hsearch
  rw [hshortest, htrim]
  exact ⟨htrim_pos, hnear⟩

/-! ### Reading decimals -/

section Reading

variable {m digits : ℕ} {e exponent : ℤ}

theorem near_lower_bound (hm : FullPrecision m e) {q : ℚ} (h : Near m e q) :
    (2 : ℚ) ^ (-1075 : ℤ) ≤ q := by
  have hone : (1 : ℚ) ≤ m := by exact_mod_cast hm.pos
  calc (2 : ℚ) ^ (-1075 : ℤ) = 1 / 2 * 2 ^ (-1074 : ℤ) := by
        rw [show (-1074 : ℤ) = 1 + -1075 by norm_num, two_zpow_add, zpow_one]
        ring
    _ ≤ (m - gapBelow m e) * 2 ^ e := by
        apply mul_le_mul _ (zpow_le_zpow_right₀ (by norm_num) hm.least) (two_zpow_pos _).le
        · linarith [gapBelow_le m e]
        · linarith [gapBelow_le m e]
    _ ≤ q := h.low

theorem near_upper_bound (hm : FullPrecision m e) {q : ℚ} (h : Near m e q) :
    q < (2 : ℚ) ^ (1024 : ℤ) := by
  have hlimit : (m.log2 : ℤ) + 1 + e ≤ 1024 := by
    have := hm.limit
    omega
  have hlog : (m : ℚ) + 1 / 2 < 2 ^ ((m.log2 : ℤ) + 1) := by
    have hlt : m + 1 ≤ 2 ^ (m.log2 + 1) := Nat.lt_log2_self
    have hlt' : (m : ℚ) + 1 ≤ 2 ^ (m.log2 + 1) := by exact_mod_cast hlt
    rw [show ((m.log2 : ℤ) + 1) = ((m.log2 + 1 : ℕ) : ℤ) by push_cast; ring, zpow_natCast]
    linarith
  calc q ≤ (m + 1 / 2) * 2 ^ e := h.high
    _ < 2 ^ ((m.log2 : ℤ) + 1) * 2 ^ e := mul_lt_mul_of_pos_right hlog (two_zpow_pos e)
    _ = 2 ^ ((m.log2 : ℤ) + 1 + e) := (two_zpow_add _ _).symm
    _ ≤ 2 ^ (1024 : ℤ) := zpow_le_zpow_right₀ (by norm_num) hlimit

/-- A number is at least as large as a power of ten with a quarter of its bits. -/
theorem ten_pow_le (hdigits : 0 < digits) : 10 ^ (digits.log2 / 4) ≤ digits :=
  calc 10 ^ (digits.log2 / 4) ≤ (2 ^ 4) ^ (digits.log2 / 4) := Nat.pow_le_pow_left (by decide) _
    _ = 2 ^ (4 * (digits.log2 / 4)) := (pow_mul 2 4 _).symm
    _ ≤ 2 ^ digits.log2 := Nat.pow_le_pow_right (by decide) (Nat.mul_div_le _ 4)
    _ ≤ digits := Nat.log2_self_le hdigits.ne'

/-- A number is below a power of ten with a third of its bits. -/
theorem lt_ten_pow (digits : ℕ) : digits < 10 ^ (digits.log2 / 3 + 1) :=
  calc digits < 2 ^ (digits.log2 + 1) := Nat.lt_log2_self
    _ ≤ 2 ^ (3 * (digits.log2 / 3 + 1)) := Nat.pow_le_pow_right (by decide) (by omega)
    _ = (2 ^ 3) ^ (digits.log2 / 3 + 1) := pow_mul 2 3 _
    _ ≤ 10 ^ (digits.log2 / 3 + 1) := Nat.pow_le_pow_left (by decide) _

/-- Decimals near a double are not so large that they are refused without a computation. -/
theorem not_large_of_near (hm : FullPrecision m e) (hdigits : 0 < digits)
    (h : Near m e (digits * 10 ^ exponent)) :
    ¬ 320 < exponent + (digits.log2 : ℤ) / 4 := by
  intro hlarge
  have hpow : (10 : ℚ) ^ (digits.log2 / 4) ≤ digits := by exact_mod_cast ten_pow_le hdigits
  have hunit : (0 : ℚ) < 10 ^ exponent := by positivity
  have hten : (2 : ℚ) ^ (1024 : ℤ) ≤ 10 ^ (320 : ℤ) := by
    rw [show (1024 : ℤ) = (1024 : ℕ) by norm_num, show (320 : ℤ) = (320 : ℕ) by norm_num,
      zpow_natCast, zpow_natCast]
    exact_mod_cast (by decide +kernel : 2 ^ 1024 ≤ 10 ^ 320)
  have hbound : (10 : ℚ) ^ (320 : ℤ) ≤ digits * 10 ^ exponent :=
    calc (10 : ℚ) ^ (320 : ℤ) ≤ 10 ^ (((digits.log2 / 4 : ℕ) : ℤ) + exponent) :=
          zpow_le_zpow_right₀ (by norm_num) (by push_cast; omega)
      _ = 10 ^ (digits.log2 / 4) * 10 ^ exponent := by rw [zpow_add₀ (by norm_num), zpow_natCast]
      _ ≤ digits * 10 ^ exponent := mul_le_mul_of_nonneg_right hpow hunit.le
  exact absurd (near_upper_bound hm h) (not_lt.2 (hten.trans hbound))

/-- Nor are they so small. -/
theorem not_small_of_near (hm : FullPrecision m e) (h : Near m e (digits * 10 ^ exponent)) :
    ¬ exponent + (digits.log2 : ℤ) / 3 + 1 < -340 := by
  intro hsmall
  have hpow : (digits : ℚ) < 10 ^ (digits.log2 / 3 + 1) := by exact_mod_cast lt_ten_pow digits
  have hunit : (0 : ℚ) < 10 ^ exponent := by positivity
  have hten : (10 : ℚ) ^ (-340 : ℤ) ≤ 2 ^ (-1075 : ℤ) := by
    rw [zpow_neg, zpow_neg, inv_le_inv₀ (by positivity) (by positivity),
      show (1075 : ℤ) = (1075 : ℕ) by norm_num, show (340 : ℤ) = (340 : ℕ) by norm_num,
      zpow_natCast, zpow_natCast]
    exact_mod_cast (by decide +kernel : 2 ^ 1075 ≤ 10 ^ 340)
  have hbound : (digits : ℚ) * 10 ^ exponent < 10 ^ (-340 : ℤ) :=
    calc (digits : ℚ) * 10 ^ exponent < 10 ^ (digits.log2 / 3 + 1) * 10 ^ exponent :=
          mul_lt_mul_of_pos_right hpow hunit
      _ = 10 ^ (((digits.log2 / 3 + 1 : ℕ) : ℤ) + exponent) := by
          rw [zpow_add₀ (by norm_num), zpow_natCast]
      _ ≤ 10 ^ (-340 : ℤ) := zpow_le_zpow_right₀ (by norm_num) (by push_cast; omega)
  exact absurd (near_lower_bound hm h) (not_le.2 (hbound.trans_le hten))

/-- **Decimals near a double are read as this double.** -/
theorem ofDecimal_of_near (hm : FullPrecision m e) (hdigits : 0 < digits)
    (h : Near m e (digits * 10 ^ exponent)) (s : Bool) :
    ofDecimal s digits exponent = normalize s m e := by
  simp only [ofDecimal, if_neg hdigits.ne', if_neg (not_large_of_near hm hdigits h),
    if_neg (not_small_of_near hm h)]
  by_cases hexponent : 0 ≤ exponent
  · rw [if_pos hexponent]
    have hvalue : ((digits * Nat.pow 10 exponent.toNat : ℕ) : ℚ) / (1 : ℕ) =
        digits * 10 ^ exponent := by
      rw [Nat.cast_mul, natCast_pow_toNat 10 hexponent, Nat.cast_one, div_one, Nat.cast_ofNat]
    exact ofRatio_of_near hm (Nat.mul_pos hdigits (Nat.pow_pos (by decide))) (by decide)
      (hvalue ▸ h) s
  · have hneg : 0 ≤ -exponent := by omega
    rw [if_neg hexponent]
    have hvalue : (digits : ℚ) / (Nat.pow 10 (-exponent).toNat : ℕ) = digits * 10 ^ exponent := by
      rw [natCast_pow_toNat 10 hneg, Nat.cast_ofNat, zpow_neg, div_inv_eq_mul]
    exact ofRatio_of_near hm hdigits (Nat.pow_pos (by decide)) (hvalue ▸ h) s

/-- A double is read back from every way to write its shortest decimal. -/
theorem ofDecimal_of_eq_shortest (hm : Canonical m e)
    (h : (digits : ℚ) * 10 ^ exponent = (shortest m e).toRat) (s : Bool) :
    ofDecimal s digits exponent = finite s m e := by
  obtain ⟨hpos, hnear⟩ := shortest_near hm
  have hdigits : 0 < digits := by
    rcases Nat.eq_zero_or_pos digits with hzero | hpos'
    · have hne : (shortest m e).toRat ≠ 0 := by
        unfold Decimal.toRat
        positivity
      rw [hzero, Nat.cast_zero, zero_mul] at h
      exact absurd h.symm hne
    · exact hpos'
  rw [← h] at hnear
  rw [ofDecimal_of_near hm.fullPrecision hdigits hnear, hm.normalize_widened]

end Reading

/-! ### Whole numbers -/

theorem natAbs_signed (s : Bool) (n : ℕ) : (signed s n).natAbs = n := by
  cases s with
  | false => exact Int.natAbs_natCast n
  | true => exact (Int.natAbs_neg n).trans (Int.natAbs_natCast n)

theorem signed_lt_zero_iff (s : Bool) {n : ℕ} (hn : 0 < n) : signed s n < 0 ↔ s = true := by
  cases s with
  | false => simp [signed]
  | true => simpa [signed] using hn

/-- A double that is equal to a whole number is the double nearest to it. -/
theorem ofInt_of_toInt? {s : Bool} {m : ℕ} {e : ℤ} (h : Canonical m e) {n : ℤ}
    (hn : (finite s m e).toInt? = some n) : ofInt n = finite s m e := by
  -- an odd mantissa leaves a fraction under every negative exponent
  have hexponent : 0 ≤ e := by
    by_contra hneg
    have hdvd : 2 ∣ Nat.pow 2 (-e).toNat := dvd_pow_self 2 (by omega)
    have hodd := h.odd
    rw [toInt?, if_neg hneg] at hn
    split_ifs at hn with hzero
    have := hdvd.trans (Nat.dvd_of_mod_eq_zero hzero)
    omega
  have hpos : 0 < m * Nat.pow 2 e.toNat := Nat.mul_pos h.pos (Nat.pow_pos (by decide))
  rw [toInt?, if_pos hexponent, Option.some.injEq] at hn
  have habs : n.natAbs = m * Nat.pow 2 e.toNat := by rw [← hn, natAbs_signed]
  have hsign : decide (n < 0) = s := by
    rw [Bool.eq_iff_iff, decide_eq_true_iff, ← hn]
    exact signed_lt_zero_iff s hpos
  have hvalue : ((m * Nat.pow 2 e.toNat : ℕ) : ℚ) / (1 : ℕ) =
      (m * 2 ^ widening m e : ℕ) * 2 ^ (e - widening m e) := by
    rw [widened_mul, Nat.cast_mul, natCast_pow_toNat 2 hexponent, Nat.cast_one, div_one,
      Nat.cast_ofNat]
  rw [ofInt, habs, hsign, ofRatio_of_near h.fullPrecision hpos (by decide)
    (hvalue ▸ near_self _ _), h.normalize_widened]

theorem roundHalfEven_le {num den k : ℕ} (h : num ≤ k * den) (hden : 0 < den) :
    roundHalfEven num den ≤ k := by
  have hfloor : num / den ≤ k := Nat.div_le_of_le_mul (by rwa [Nat.mul_comm] at h)
  have hdivision : num / den * den + num % den = num := Nat.div_add_mod' num den
  simp only [roundHalfEven]
  rcases Nat.eq_or_lt_of_le hfloor with heq | hlt
  · rw [heq] at hdivision ⊢
    have hrest : num % den = 0 := by
      omega
    rw [hrest, Nat.mul_zero, if_pos hden]
  · split_ifs <;> omega

theorem finite_normalize {m : ℕ} {e : ℤ} (hm : 0 < m) (hle : m ≤ 2 ^ 53) (hleast : -1074 ≤ e)
    (hlimit : (m.log2 : ℤ) + e < 1024) (s : Bool) : (normalize s m e).Finite := by
  obtain ⟨k, n, hodd, rfl⟩ := Nat.exists_eq_two_pow_mul_odd hm.ne'
  have hn : n % 2 = 1 := Nat.odd_iff.1 hodd
  have hpos : 0 < n := by
    omega
  have hpow : 0 < 2 ^ k := by positivity
  have hn_le : n ≤ 2 ^ k * n := Nat.le_mul_of_pos_left n hpow
  rw [Nat.mul_comm, log2_widened hpos] at hlimit
  rw [Nat.mul_comm, Double.normalize_widened hn]
  refine .nonzero s ⟨hn, ?_, ?_, ?_⟩
  · omega
  · omega
  · push_cast at hlimit
    omega

/-- A quotient in units of the last place is rounded to 53 bits, or to the power above them. -/
theorem roundHalfEven_scaled_le {num den : ℕ} (hden : 0 < den) {last : ℤ}
    (h : (num : ℚ) / den < 2 ^ (last + 53)) :
    roundHalfEven (scaleByTwo num den (-last)).1 (scaleByTwo num den (-last)).2 ≤ 2 ^ 53 := by
  have hden' := scaleByTwo_snd_pos num hden (-last)
  have hd : (0 : ℚ) < (scaleByTwo num den (-last)).2 := by exact_mod_cast hden'
  have hscaled : ((scaleByTwo num den (-last)).1 : ℚ) / (scaleByTwo num den (-last)).2 ≤
      2 ^ 53 := by
    rw [scaleByTwo_div]
    calc (num : ℚ) / den * 2 ^ (-last) ≤ 2 ^ (last + 53) * 2 ^ (-last) :=
          mul_le_mul_of_nonneg_right h.le (two_zpow_pos _).le
      _ = 2 ^ (53 : ℤ) := by rw [← two_zpow_add, add_comm last, add_neg_cancel_right]
      _ = 2 ^ 53 := by norm_num
  refine roundHalfEven_le ?_ hden'
  rw [div_le_iff₀ hd] at hscaled
  exact_mod_cast hscaled

/-- Quotients far below the limit are rounded to finite doubles. -/
theorem finite_ofRatio {num den : ℕ} (hden : 0 < den)
    (h : (num : ℚ) / den < 2 ^ (1023 : ℤ)) (s : Bool) : (ofRatio s num den).Finite := by
  rcases Nat.eq_zero_or_pos num with hzero | hnum
  · rw [ofRatio, if_pos (.inl hzero)]
    exact .zero s
  obtain ⟨hfloor, hfloor'⟩ := floorLog2_spec hnum hden
  obtain ⟨last, hlast⟩ : ∃ last, max (floorLog2 num den - 52) (-1074) = last := ⟨_, rfl⟩
  have hexponent : floorLog2 num den < 1023 := two_zpow_lt_iff.1 (hfloor.trans_lt h)
  have hround : roundHalfEven (scaleByTwo num den (-last)).1 (scaleByTwo num den (-last)).2 ≤
      2 ^ 53 :=
    roundHalfEven_scaled_le hden
      (hfloor'.trans_le (zpow_le_zpow_right₀ (by norm_num) (by omega)))
  rw [ofRatio_eq_ite hnum hden s hlast]
  generalize roundHalfEven (scaleByTwo num den (-last)).1 (scaleByTwo num den (-last)).2 = m at *
  dsimp only
  rcases Nat.eq_zero_or_pos m with hzero | hm
  · -- the quotient is rounded to zero
    have hlimit : ¬ 1024 ≤ ((Nat.log2 0 : ℕ) : ℤ) + last := by
      rw [Nat.log2_zero]
      omega
    rw [hzero, if_neg hlimit]
    exact .zero s
  · have hlog : m.log2 ≤ 53 := by
      have hlt : m.log2 < 54 := (Nat.log2_lt hm.ne').2 (by omega)
      omega
    have hlimit : (m.log2 : ℤ) + last < 1024 := by
      omega
    rw [if_neg (not_le.2 hlimit)]
    exact finite_normalize hm hround (by omega) hlimit s

/-- Whole numbers of 64 bits are finite as doubles. -/
theorem finite_ofInt {n : ℤ} (h : n.natAbs ≤ 2 ^ 64) : (ofInt n).Finite := by
  refine finite_ofRatio (by decide) ?_ _
  have hcast : (n.natAbs : ℚ) ≤ 2 ^ 64 := by exact_mod_cast h
  rw [Nat.cast_one, div_one]
  calc (n.natAbs : ℚ) ≤ 2 ^ (64 : ℤ) := hcast
    _ < 2 ^ (1023 : ℤ) := two_zpow_lt_iff.2 (by decide)

end Double

end ConfigAudit
