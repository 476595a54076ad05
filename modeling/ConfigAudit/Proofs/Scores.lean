import ConfigAudit.Findings.ScanResult
import Mathlib.Algebra.Order.Ring.Nat

/-!
# The score of a scan

Scores are computed in words of 64 bits, and the last step cuts a word down to a byte. As long as
the collections of findings fit in memory, no step loses anything, and the score is the whole part
of the percentage of passed findings.

* `quotient_eq_hundred_iff`, `quotient_le_succ`, `quotient_succ_le`: when the percentage is full,
  and how it moves;
* `score_toNat_eq`: a score as numbers, with the product cut down to a word;
* `lossless_of_fitsInMemory`: the words and the byte hold what is computed;
* `Json.Gains`: engine output that lists one more item;
* `score_of_answer`: the score of what an engine answers.
-/

namespace ConfigAudit

/-! ### The percentage -/

section Percentage

variable {passed total : ℕ}

theorem quotient_le_hundred (h : passed ≤ total) : 100 * passed / total ≤ 100 := by
  have hmul : 100 * passed ≤ total * 100 := by omega
  exact Nat.div_le_of_le_mul hmul

/-- All of it is reached only if there is something and all of it has passed. -/
theorem quotient_eq_hundred_iff (h : passed ≤ total) :
    100 * passed / total = 100 ↔ 0 < passed ∧ passed = total := by
  constructor
  · intro hquotient
    have hpos : 0 < total := by
      rcases Nat.eq_zero_or_pos total with hzero | hpos
      · rw [hzero, Nat.div_zero] at hquotient
        omega
      · exact hpos
    have hle : 100 * total ≤ 100 * passed := (Nat.le_div_iff_mul_le hpos).1 (Nat.le_of_eq hquotient.symm)
    omega
  · rintro ⟨hpos, rfl⟩
    exact Nat.mul_div_cancel 100 hpos

/-- One more finding that has passed makes no smaller share. -/
theorem quotient_le_succ (h : passed ≤ total) :
    100 * passed / total ≤ 100 * (passed + 1) / (total + 1) := by
  have hquotient := quotient_le_hundred h
  have hmul : 100 * passed / total * total ≤ 100 * passed := Nat.div_mul_le_self _ _
  rw [Nat.le_div_iff_mul_le (Nat.succ_pos total), Nat.mul_succ]
  omega

/-- One more finding that has not passed makes no larger share. -/
theorem quotient_succ_le (h : passed ≤ total) :
    100 * passed / (total + 1) ≤ 100 * passed / total := by
  rcases Nat.eq_zero_or_pos total with hzero | hpos
  · have hpassed : passed = 0 := by omega
    rw [hpassed, Nat.mul_zero, Nat.zero_div]
    exact Nat.zero_le _
  · exact Nat.div_le_div_left (Nat.le_succ total) hpos

end Percentage

/-! ### Words -/

section Words

variable (passed total : UInt64)

/-- The product is cut down to a word. -/
theorem toNat_product :
    (min passed total * 100).toNat = 100 * min passed.toNat total.toNat % 2 ^ 64 := by
  rw [UInt64.toNat_mul, UInt64.toNat_min, Nat.mul_comm]
  rfl

theorem toNat_quotient :
    (min passed total * 100 / total).toNat =
      100 * min passed.toNat total.toNat % 2 ^ 64 / total.toNat := by
  rw [UInt64.toNat_div, toNat_product]

/-- The quotient is at most one hundred, also of a product that is cut down. -/
theorem toNat_quotient_le : (min passed total * 100 / total).toNat ≤ 100 := by
  rw [toNat_quotient]
  calc 100 * min passed.toNat total.toNat % 2 ^ 64 / total.toNat
      ≤ 100 * min passed.toNat total.toNat / total.toNat := Nat.div_le_div_right (Nat.mod_le _ _)
    _ ≤ 100 := quotient_le_hundred (Nat.min_le_right _ _)

/-- A byte holds the quotient. -/
theorem toNat_toUInt8_quotient :
    (min passed total * 100 / total).toUInt8.toNat = (min passed total * 100 / total).toNat := by
  have hle := toNat_quotient_le passed total
  rw [UInt64.toNat_toUInt8]
  exact Nat.mod_eq_of_lt (by omega)

theorem score_toNat_eq :
    (score passed total).toNat =
      100 * min passed.toNat total.toNat % 2 ^ 64 / total.toNat := by
  unfold score
  split_ifs with hzero
  · rw [hzero, UInt64.toNat_zero, Nat.div_zero]
    rfl
  · rw [toNat_toUInt8_quotient, toNat_quotient]

/-- Checks for overflow stop the program at a product beyond words, and change nothing else. -/
theorem score?_eq :
    score? passed total =
      if 100 * min passed.toNat total.toNat < 2 ^ 64 then some (score passed total) else none := by
  have hproduct : (min passed total).toNat * (100 : UInt64).toNat =
      100 * min passed.toNat total.toNat := by
    rw [UInt64.toNat_min, Nat.mul_comm]
    rfl
  have hsize : UInt64.size = 2 ^ 64 := rfl
  unfold score? mulWord? score
  rw [hproduct, hsize]
  by_cases hzero : total = 0
  · rw [if_pos hzero, if_pos hzero, hzero, UInt64.toNat_zero, Nat.min_zero, if_pos (by decide)]
  · rw [if_neg hzero, if_neg hzero]
    split_ifs <;> rfl

end Words

/-- The bytes of a finding in a list: five texts, each kept as three words. -/
def Finding.byteCount : ℕ := 5 * (3 * 8)

/-- The bytes that a list can take up at most. -/
def maxListBytes : ℕ := 0x7fffffffffffffff

/-- An evaluation whose collections can stand in memory. -/
def Evaluation.FitsInMemory (e : Evaluation) : Prop :=
  ∀ findings ∈ [e.violations, e.warnings, e.passed],
    findings.length * Finding.byteCount ≤ maxListBytes

/-- The score of these counts is computed without loss: words hold the counts and the product with
one hundred, a byte holds the quotient, and checks for overflow stop nothing. -/
structure LosslessScore (passed total : ℕ) : Prop where
  passed_toNat : (UInt64.ofNat passed).toNat = passed
  total_toNat : (UInt64.ofNat total).toNat = total
  product_toNat : (min (UInt64.ofNat passed) (UInt64.ofNat total) * 100).toNat = 100 * passed
  quotient_toNat :
    (min (UInt64.ofNat passed) (UInt64.ofNat total) * 100 / UInt64.ofNat total).toUInt8.toNat =
      (min (UInt64.ofNat passed) (UInt64.ofNat total) * 100 / UInt64.ofNat total).toNat
  score?_eq_some :
    score? (UInt64.ofNat passed) (UInt64.ofNat total) =
      some (score (UInt64.ofNat passed) (UInt64.ofNat total))

namespace Evaluation

theorem passed_length_le_total (e : Evaluation) : e.passed.length ≤ e.total :=
  Nat.le_add_left _ _

theorem lossless_of_fitsInMemory {e : Evaluation} (h : e.FitsInMemory) :
    LosslessScore e.passed.length e.total := by
  have hviolations : e.violations.length * 120 ≤ 0x7fffffffffffffff := h _ (by simp)
  have hwarnings : e.warnings.length * 120 ≤ 0x7fffffffffffffff := h _ (by simp)
  have hpassed : e.passed.length * 120 ≤ 0x7fffffffffffffff := h _ (by simp)
  have htotal : e.total = e.violations.length + e.warnings.length + e.passed.length := rfl
  have hle := e.passed_length_le_total
  have hp : (UInt64.ofNat e.passed.length).toNat = e.passed.length :=
    UInt64.toNat_ofNat_of_lt' (by change _ < 2 ^ 64; omega)
  have ht : (UInt64.ofNat e.total).toNat = e.total :=
    UInt64.toNat_ofNat_of_lt' (by change _ < 2 ^ 64; omega)
  -- a word holds the product by the bound on the lists
  have hproduct : 100 * e.passed.length < 2 ^ 64 := by omega
  refine ⟨hp, ht, ?_, toNat_toUInt8_quotient _ _, ?_⟩
  · rw [toNat_product, hp, ht, Nat.min_eq_left hle]
    exact Nat.mod_eq_of_lt hproduct
  · rw [score?_eq, hp, ht, Nat.min_eq_left hle, if_pos hproduct]

end Evaluation

theorem LosslessScore.score_toNat {passed total : ℕ} (h : LosslessScore passed total) :
    (score (UInt64.ofNat passed) (UInt64.ofNat total)).toNat = 100 * passed / total := by
  rw [score_toNat_eq, ← toNat_product, h.product_toNat, h.total_toNat]

/-! ### Engine output -/

/-- The items that engine output lists in a collection. -/
def Json.listed (raw : Json) (key : String) : List Json := ((raw.get? key).bind Json.array?).getD []

/-- The other output lists one more item, at some place of one collection. -/
structure Json.Gains (raw : Json) (key : String) (item : Json) (more : Json) : Prop where
  inserted : ∃ before after,
    raw.listed key = before ++ after ∧ more.listed key = before ++ item :: after
  others : ∀ other, other ≠ key → more.listed other = raw.listed other

namespace Evaluation

theorem collection_eq (raw : Json) (key : String) :
    collection raw key = (raw.listed key).filterMap Finding.ofJson? := by
  unfold collection Json.listed
  cases (raw.get? key).bind Json.array? with
  | none => rfl
  | some items => rfl

section Gains

variable {raw more item : Json} {key : String}

/-- A well-formed item adds one finding. -/
theorem length_collection_gains (h : raw.Gains key item more) {f : Finding}
    (hf : Finding.ofJson? item = some f) :
    (collection more key).length = (collection raw key).length + 1 := by
  obtain ⟨before, after, hraw, hmore⟩ := h.inserted
  rw [collection_eq, collection_eq, hraw, hmore, List.filterMap_append, List.filterMap_append,
    List.filterMap_cons_some hf, List.length_append, List.length_append, List.length_cons,
    Nat.add_assoc]

theorem collection_gains_of_ne (h : raw.Gains key item more) (other : String)
    (hother : other ≠ key) : collection more other = collection raw other := by
  rw [collection_eq, collection_eq, h.others other hother]

end Gains

end Evaluation

/-! ### Scores of answers -/

namespace Evaluation

section Scores

variable {e e' : Evaluation} (scannedAt : Timestamp)

theorem score_toNat (h : e.FitsInMemory) :
    (ScanResult.ofEvaluation e scannedAt).score.toNat = 100 * e.passed.length / e.total :=
  (lossless_of_fitsInMemory h).score_toNat

theorem score_toNat_le (h : e.FitsInMemory) :
    (ScanResult.ofEvaluation e scannedAt).score.toNat ≤ 100 := by
  rw [score_toNat scannedAt h]
  exact quotient_le_hundred e.passed_length_le_total

theorem score_eq_hundred_iff (h : e.FitsInMemory) :
    (ScanResult.ofEvaluation e scannedAt).score = 100 ↔
      e.passed ≠ [] ∧ e.violations = [] ∧ e.warnings = [] := by
  have htotal : e.total = e.violations.length + e.warnings.length + e.passed.length := rfl
  rw [← UInt8.toNat_inj, score_toNat scannedAt h, show (100 : UInt8).toNat = 100 from rfl,
    quotient_eq_hundred_iff e.passed_length_le_total, ← List.length_pos_iff,
    ← List.length_eq_zero_iff, ← List.length_eq_zero_iff]
  omega

theorem score_lt_of_hasViolations (h : e.FitsInMemory)
    (hviolations : (ScanResult.ofEvaluation e scannedAt).hasViolations = true) :
    (ScanResult.ofEvaluation e scannedAt).score < 100 := by
  have hne : (ScanResult.ofEvaluation e scannedAt).score ≠ 100 := by
    intro hfull
    have hnil : e.violations = [] := ((score_eq_hundred_iff scannedAt h).1 hfull).2.1
    have hsome : (!e.violations.isEmpty) = true := hviolations
    rw [hnil] at hsome
    cases hsome
  have hle := score_toNat_le scannedAt h
  rw [ne_eq, ← UInt8.toNat_inj] at hne
  rw [UInt8.lt_iff_toNat_lt]
  exact Nat.lt_of_le_of_ne hle hne

/-- A passed finding that comes in addition does not lower the score. -/
theorem score_le_of_passed (h : e.FitsInMemory) (h' : e'.FitsInMemory)
    (hpassed : e'.passed.length = e.passed.length + 1) (htotal : e'.total = e.total + 1) :
    (ScanResult.ofEvaluation e scannedAt).score ≤ (ScanResult.ofEvaluation e' scannedAt).score := by
  rw [UInt8.le_iff_toNat_le, score_toNat scannedAt h, score_toNat scannedAt h', hpassed, htotal]
  exact quotient_le_succ e.passed_length_le_total

/-- Any other finding that comes in addition does not raise it. -/
theorem score_le_of_not_passed (h : e.FitsInMemory) (h' : e'.FitsInMemory)
    (hpassed : e'.passed.length = e.passed.length) (htotal : e'.total = e.total + 1) :
    (ScanResult.ofEvaluation e' scannedAt).score ≤ (ScanResult.ofEvaluation e scannedAt).score := by
  rw [UInt8.le_iff_toNat_le, score_toNat scannedAt h, score_toNat scannedAt h', hpassed, htotal]
  exact quotient_succ_le e.passed_length_le_total

end Scores

section Gains

variable {raw more item : Json} {key : String} {f : Finding}

/-- A well-formed item that is listed in addition counts once, in its own collection. -/
theorem counts_of_gains (h : raw.Gains key item more) (hf : Finding.ofJson? item = some f)
    (hkey : key ∈ ["violations", "warnings", "passed"]) :
    (ofJson more).total = (ofJson raw).total + 1 ∧
      (ofJson more).passed.length =
        (ofJson raw).passed.length + if key = "passed" then 1 else 0 := by
  have hgrown := length_collection_gains h hf
  simp only [total, ofJson]
  rw [List.mem_cons, List.mem_cons, List.mem_singleton] at hkey
  rcases hkey with rfl | rfl | rfl
  · rw [collection_gains_of_ne h "warnings" (by decide),
      collection_gains_of_ne h "passed" (by decide), hgrown, if_neg (by decide)]
    omega
  · rw [collection_gains_of_ne h "violations" (by decide),
      collection_gains_of_ne h "passed" (by decide), hgrown, if_neg (by decide)]
    omega
  · rw [collection_gains_of_ne h "violations" (by decide),
      collection_gains_of_ne h "warnings" (by decide), hgrown, if_pos rfl]
    omega

end Gains

end Evaluation

/-- **The score of an answer.** If the findings that are kept of an answer fit in memory, then the
score is the whole part of their percentage of passed findings, computed without loss. It is full
only if there are passed findings and no others, and one more finding moves it in the right
direction. -/
theorem score_of_answer (raw : Json) (scannedAt : Timestamp)
    (hfits : (Evaluation.ofJson raw).FitsInMemory) :
    let e := Evaluation.ofJson raw
    let r := ScanResult.ofEvaluation e scannedAt
    (r.score.toNat = 100 * e.passed.length / e.total ∧ r.score.toNat ≤ 100 ∧
      (e.total = 0 → r.score = 0)) ∧
    ((r.score = 100 ↔ e.passed ≠ [] ∧ e.violations = [] ∧ e.warnings = []) ∧
      (r.hasViolations = true → r.score < 100)) ∧
    LosslessScore e.passed.length e.total ∧
    ∀ (key : String) (item : Json) (f : Finding) (more : Json),
      raw.Gains key item more → Finding.ofJson? item = some f →
      (Evaluation.ofJson more).FitsInMemory →
      let r' := ScanResult.ofEvaluation (Evaluation.ofJson more) scannedAt
      (key = "passed" → r.score ≤ r'.score) ∧
        (key = "violations" ∨ key = "warnings" → r'.score ≤ r.score) := by
  refine ⟨⟨?_, ?_, ?_⟩, ⟨?_, ?_⟩, ?_, ?_⟩
  · exact Evaluation.score_toNat scannedAt hfits
  · exact Evaluation.score_toNat_le scannedAt hfits
  · intro hzero
    rw [← UInt8.toNat_inj, Evaluation.score_toNat scannedAt hfits, hzero, Nat.div_zero]
    rfl
  · exact Evaluation.score_eq_hundred_iff scannedAt hfits
  · exact Evaluation.score_lt_of_hasViolations scannedAt hfits
  · exact Evaluation.lossless_of_fitsInMemory hfits
  · intro key item f more hgains hf hfits'
    refine ⟨fun hkey => ?_, fun hkey => ?_⟩
    · subst hkey
      obtain ⟨htotal, hpassed⟩ := Evaluation.counts_of_gains hgains hf (by simp)
      exact Evaluation.score_le_of_passed scannedAt hfits hfits' hpassed htotal
    · have hne : key ≠ "passed" := by rcases hkey with rfl | rfl <;> decide
      obtain ⟨htotal, hpassed⟩ :=
        Evaluation.counts_of_gains hgains hf (by rcases hkey with rfl | rfl <;> simp)
      rw [if_neg hne] at hpassed
      exact Evaluation.score_le_of_not_passed scannedAt hfits hfits' hpassed htotal

/-- A finding about a bucket. -/
def bucketFinding : Finding := ⟨"CC6.6", "high", "aws_s3_bucket.logs", "checked", none⟩

/-- Two passed findings, a violation, an item that is no finding, and no warnings at all. -/
def partialAnswer : Json :=
  .object [("violations", .array [.string "none", bucketFinding.toJson]),
    ("passed", .array [bucketFinding.toJson, bucketFinding.toJson])]

/-- The same with a third passed finding. -/
def improvedAnswer : Json :=
  .object [("violations", .array [.string "none", bucketFinding.toJson]),
    ("passed", .array [bucketFinding.toJson, bucketFinding.toJson, bucketFinding.toJson])]

theorem partialAnswer_gains :
    partialAnswer.Gains "passed" bucketFinding.toJson improvedAnswer where
  inserted := ⟨[bucketFinding.toJson, bucketFinding.toJson], [], rfl, rfl⟩
  others := by
    intro other hother
    simp [Json.listed, Json.get?, partialAnswer, improvedAnswer, OrderedMap.lookup, hother.symm]

theorem score_of_answer_partial :
    (Evaluation.ofJson partialAnswer).FitsInMemory ∧
      (Evaluation.ofJson improvedAnswer).FitsInMemory ∧
      partialAnswer.Gains "passed" bucketFinding.toJson improvedAnswer ∧
      Finding.ofJson? bucketFinding.toJson = some bucketFinding ∧
      (ScanResult.ofEvaluation (Evaluation.ofJson partialAnswer) ⟨0, 0⟩).score.toNat = 66 ∧
      (ScanResult.ofEvaluation (Evaluation.ofJson partialAnswer) ⟨0, 0⟩).score < 100 ∧
      (ScanResult.ofEvaluation (Evaluation.ofJson partialAnswer) ⟨0, 0⟩).score ≤
        (ScanResult.ofEvaluation (Evaluation.ofJson improvedAnswer) ⟨0, 0⟩).score := by
  have hfits : (Evaluation.ofJson partialAnswer).FitsInMemory := by
    unfold Evaluation.FitsInMemory
    decide
  have hfits' : (Evaluation.ofJson improvedAnswer).FitsInMemory := by
    unfold Evaluation.FitsInMemory
    decide
  have hf : Finding.ofJson? bucketFinding.toJson = some bucketFinding := by decide
  obtain ⟨⟨hscore, -, -⟩, ⟨-, hless⟩, -, hgains⟩ := score_of_answer partialAnswer ⟨0, 0⟩ hfits
  obtain ⟨hle, -⟩ := hgains "passed" bucketFinding.toJson bucketFinding improvedAnswer
    partialAnswer_gains hf hfits'
  exact ⟨hfits, hfits', partialAnswer_gains, hf, hscore.trans (by decide), hless (by decide),
    hle rfl⟩

end ConfigAudit
