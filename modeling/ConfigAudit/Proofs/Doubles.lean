import ConfigAudit.Number
import Mathlib.Data.Rat.Floor

/-!
# Doubles as rational numbers

A finite double is a rational number, and so is every number. What is computed on mantissas and
exponents is read here on rational numbers: powers with a whole exponent and the whole part.
-/

namespace ConfigAudit

/-- The whole part of a rational number, toward zero. -/
def wholePart (q : ℚ) : ℤ := if 0 ≤ q then ⌊q⌋ else ⌈q⌉

theorem wholePart_intCast (n : ℤ) : wholePart n = n := by
  unfold wholePart
  split <;> simp

theorem wholePart_neg (q : ℚ) : wholePart (-q) = -wholePart q := by
  unfold wholePart
  rcases lt_trichotomy q 0 with hneg | hzero | hpos
  · have hq : 0 ≤ -q := by linarith
    rw [if_pos hq, if_neg (not_le.2 hneg), Int.floor_neg]
  · simp [hzero]
  · have hq : ¬ 0 ≤ -q := by linarith
    rw [if_neg hq, if_pos hpos.le, Int.ceil_neg]

theorem wholePart_natCast_div (m n : ℕ) : wholePart (m / n : ℚ) = (m / n : ℕ) := by
  have hnonneg : (0 : ℚ) ≤ m / n := by positivity
  rw [wholePart, if_pos hnonneg, Rat.floor_natCast_div_natCast, Int.natCast_div]

/-- A power with a natural exponent. -/
theorem natCast_pow_toNat (b : ℕ) {e : ℤ} (h : 0 ≤ e) :
    ((Nat.pow b e.toNat : ℕ) : ℚ) = (b : ℚ) ^ e := by
  obtain ⟨n, rfl⟩ := Int.eq_ofNat_of_zero_le h
  change ((b ^ n : ℕ) : ℚ) = (b : ℚ) ^ (n : ℤ)
  rw [zpow_natCast, Nat.cast_pow]

namespace Double

/-- The rational number that a finite double is equal to, and zero for all other doubles. -/
def toRat : Double → ℚ
  | .finite s m e => (if s then -1 else 1) * (m * 2 ^ e)
  | _ => 0

/-- The whole part of a finite double is the one of its rational number. -/
theorem truncate?_finite (s : Bool) (m : ℕ) (e : ℤ) :
    (finite s m e).truncate? = some (wholePart (finite s m e).toRat) := by
  have hsign (n : ℕ) (h : wholePart (m * 2 ^ e : ℚ) = n) :
      wholePart (finite s m e).toRat = signed s n := by
    cases s with
    | false =>
      rw [show (finite false m e).toRat = m * 2 ^ e by simp [toRat], h]
      rfl
    | true =>
      rw [show (finite true m e).toRat = -(m * 2 ^ e) by simp [toRat], wholePart_neg, h]
      rfl
  rw [truncate?]
  by_cases he : 0 ≤ e
  · rw [if_pos he, hsign (m * Nat.pow 2 e.toNat)]
    have hcast : ((m * Nat.pow 2 e.toNat : ℕ) : ℚ) = m * 2 ^ e := by
      rw [Nat.cast_mul, natCast_pow_toNat 2 he, Nat.cast_ofNat]
    rw [← hcast]
    exact wholePart_intCast _
  · have hneg : 0 ≤ -e := by omega
    rw [if_neg he, hsign (m / Nat.pow 2 (-e).toNat)]
    have hcast : (m : ℚ) * 2 ^ e = m / (Nat.pow 2 (-e).toNat : ℕ) := by
      rw [natCast_pow_toNat 2 hneg, Nat.cast_ofNat, zpow_neg, div_inv_eq_mul]
    rw [hcast]
    exact wholePart_natCast_div m _

end Double

/-- The rational number that a number is equal to. -/
def Number.toRat : Number → ℚ
  | .whole n => n
  | .real x => x.toRat

end ConfigAudit
