import ConfigAudit.Proofs.Scores

/-!
# Where scores are exact

A score can be computed of any two words, also of counts that no list in memory reaches. The product
with one hundred may then leave the range of words. Checks for overflow stop the program there;
without them the score is taken of what is left of the product, and is too small. So the counts with
exact scores are those whose product fits.

* `percentage`: the score without any bound on numbers;
* `mod_div_lt`: what is cut off the product is missing from the quotient;
* `score_exact_iff`: which scores are exact, and what the others are.
-/

namespace ConfigAudit

/-- The whole part of the percentage of passed findings; without findings it is zero. -/
def percentage (passed total : ℕ) : ℕ := if total = 0 then 0 else 100 * min passed total / total

theorem percentage_eq (passed total : ℕ) :
    percentage passed total = 100 * min passed total / total := by
  unfold percentage
  split_ifs with hzero
  · rw [hzero, Nat.div_zero]
  · rfl

/-- What is cut off a product of at least a word shows in the quotient by any word. -/
theorem mod_div_lt {product total : ℕ} (htotal : 0 < total) (hword : total < 2 ^ 64)
    (hproduct : 2 ^ 64 ≤ product) : product % 2 ^ 64 / total < product / total := by
  have hcut : product % 2 ^ 64 + total ≤ product := by omega
  calc product % 2 ^ 64 / total
      < product % 2 ^ 64 / total + 1 := Nat.lt_succ_self _
    _ = (product % 2 ^ 64 + total) / total := (Nat.add_div_right _ htotal).symm
    _ ≤ product / total := Nat.div_le_div_right hcut

/-- A score is too small as soon as the product does not fit. -/
theorem score_toNat_lt {passed total : UInt64}
    (h : 2 ^ 64 ≤ 100 * min passed.toNat total.toNat) :
    (score passed total).toNat < percentage passed.toNat total.toNat := by
  have hword : total.toNat < 2 ^ 64 := total.toNat_lt
  have htotal : 0 < total.toNat := by omega
  rw [score_toNat_eq, percentage_eq]
  exact mod_div_lt htotal hword h

theorem score_toNat_eq_percentage {passed total : UInt64}
    (h : 100 * min passed.toNat total.toNat < 2 ^ 64) :
    (score passed total).toNat = percentage passed.toNat total.toNat := by
  rw [score_toNat_eq, percentage_eq, Nat.mod_eq_of_lt h]

/-- **Where scores are exact.** Of all words, those and only those have the exact percentage as
their score for which one hundred times the smaller one is a word again. For all others, checks for
overflow stop the program, and without checks the score is too small. Cutting the quotient down to a
byte never loses anything. -/
theorem score_exact_iff (passed total : UInt64) :
    let product := 100 * min passed.toNat total.toNat
    let exact := percentage passed.toNat total.toNat
    ((score? passed total).map UInt8.toNat = some exact ↔ product < 2 ^ 64) ∧
    (score? passed total = none ↔ 2 ^ 64 ≤ product) ∧
    ((score passed total).toNat = exact ↔ product < 2 ^ 64) ∧
    ((score passed total).toNat < exact ↔ 2 ^ 64 ≤ product) ∧
    ((min passed total * 100).toNat = product ↔ product < 2 ^ 64) ∧
    (min passed total * 100 / total).toUInt8.toNat = (min passed total * 100 / total).toNat := by
  intro product exact
  have hchecked : score? passed total =
      if product < 2 ^ 64 then some (score passed total) else none := score?_eq passed total
  have hcast := toNat_toUInt8_quotient passed total
  rcases Nat.lt_or_ge product (2 ^ 64) with hfits | hwraps
  · have hexact : (score passed total).toNat = exact := score_toNat_eq_percentage hfits
    have hproduct := (toNat_product passed total).trans (Nat.mod_eq_of_lt hfits)
    have hsome : (score? passed total).map UInt8.toNat = some exact := by
      rw [hchecked, if_pos hfits, Option.map_some, hexact]
    have hgoes : score? passed total ≠ none := by
      rw [hchecked, if_pos hfits]
      exact Option.some_ne_none _
    exact ⟨iff_of_true hsome hfits, iff_of_false hgoes (by omega), iff_of_true hexact hfits,
      iff_of_false (by omega) (by omega), iff_of_true hproduct hfits, hcast⟩
  · have hless : (score passed total).toNat < exact := score_toNat_lt hwraps
    have hproduct : (min passed total * 100).toNat < 2 ^ 64 := UInt64.toNat_lt _
    have hstops : score? passed total = none := by
      rw [hchecked, if_neg (by omega)]
    have hnone : (score? passed total).map UInt8.toNat ≠ some exact := by
      rw [hstops]
      exact nofun
    exact ⟨iff_of_false hnone (by omega), iff_of_true hstops hwraps,
      iff_of_false (by omega) (by omega), iff_of_true hless hwraps,
      iff_of_false (by omega) (by omega), hcast⟩

/-- The smallest counts, all passed, that have no exact score: the program stops, or goes on with
the score of nothing passed. -/
theorem full_score_lost :
    score? 184467440737095517 184467440737095517 = none ∧
      (score 184467440737095517 184467440737095517).toNat = 0 ∧
      percentage 184467440737095517 184467440737095517 = 100 ∧
      (¬ ∀ passed total : UInt64,
        (score? passed total).map UInt8.toNat = some (percentage passed.toNat total.toNat)) ∧
      ¬ ∀ passed total : UInt64,
        (score passed total).toNat = percentage passed.toNat total.toNat := by
  refine ⟨by decide, by decide, by decide, fun h => ?_, fun h => ?_⟩
  · exact absurd (h 184467440737095517 184467440737095517) (by decide)
  · exact absurd (h 184467440737095517 184467440737095517) (by decide)

end ConfigAudit
