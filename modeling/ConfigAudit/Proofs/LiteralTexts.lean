import ConfigAudit.Proofs.References
import ConfigAudit.Proofs.ValueTexts
import Mathlib.Data.Nat.Cast.Field

/-!
# What the text of a literal says

A literal becomes a value and then JSON. Nothing is lost on the way except digits of large whole
numbers: the JSON has the shape of the literal, and every number up to `2 ^ 53` that is whole is
written as a whole number, all others as the nearest doubles.

* `Double.toInt?_eq_some_iff`, `Double.toRat_ofInt`: which doubles are whole numbers, and which
  whole numbers are doubles;
* `Number.WrittenAs`, `Json.Denotes`: the rules for numbers and for all literals;
* `literal_denoted_by_text`: the text of a literal is read as JSON that denotes it.
-/

namespace ConfigAudit

open OrderedMap

/-! ### Whole numbers as doubles -/

/-- A quotient that is a whole number up to its sign leaves no remainder. -/
theorem mod_eq_zero_of_natCast_div {m d : ℕ} (hd : (d : ℚ) ≠ 0) {k : ℤ}
    (h : (m : ℚ) / d = |(k : ℚ)|) : m % d = 0 := by
  rw [div_eq_iff hd] at h
  have hcast : (m : ℚ) = (k.natAbs * d : ℕ) := by
    rw [h, Nat.cast_mul, Nat.cast_natAbs, Int.cast_abs]
  have hm : m = k.natAbs * d := by exact_mod_cast hcast
  rw [hm, Nat.mul_mod_left]

namespace Double

theorem intCast_signed (s : Bool) (n : ℕ) : ((signed s n : ℤ) : ℚ) = (if s then -1 else 1) * n := by
  cases s <;> simp [signed]

/-- A finite double is a whole number exactly if its rational number is this whole number. -/
theorem toInt?_eq_some_iff (s : Bool) (m : ℕ) (e : ℤ) {k : ℤ} :
    (finite s m e).toInt? = some k ↔ (finite s m e).toRat = k := by
  have hwhole {n : ℕ} (hn : (m : ℚ) * 2 ^ e = n) :
      some (signed s n) = some k ↔ (finite s m e).toRat = k := by
    rw [Option.some.injEq, toRat, hn, ← intCast_signed, Int.cast_inj]
  rw [toInt?]
  by_cases he : 0 ≤ e
  · rw [if_pos he]
    apply hwhole
    rw [Nat.cast_mul, natCast_pow_toNat 2 he, Nat.cast_ofNat]
  · have hneg : 0 ≤ -e := by omega
    have hdiv : (m : ℚ) * 2 ^ e = m / (Nat.pow 2 (-e).toNat : ℕ) := by
      rw [natCast_pow_toNat 2 hneg, Nat.cast_ofNat, zpow_neg, div_inv_eq_mul]
    have hpos : 0 < Nat.pow 2 (-e).toNat := Nat.pow_pos (by decide)
    have hne : ((Nat.pow 2 (-e).toNat : ℕ) : ℚ) ≠ 0 := by exact_mod_cast hpos.ne'
    rw [if_neg he]
    split_ifs with hmod
    · apply hwhole
      rw [hdiv, Nat.cast_div (Nat.dvd_of_mod_eq_zero hmod) hne]
    · -- a whole number would be a multiple of the denominator
      constructor
      · intro h
        cases h
      · intro h
        have hnonneg : (0 : ℚ) ≤ m / (Nat.pow 2 (-e).toNat : ℕ) := by positivity
        have habs : (m : ℚ) / (Nat.pow 2 (-e).toNat : ℕ) = |(k : ℚ)| := by
          rw [← h, toRat, hdiv, abs_mul, abs_of_nonneg hnonneg]
          cases s <;> simp
        exact absurd (mod_eq_zero_of_natCast_div hne habs) hmod

/-- Up to `2 ^ 53`, whole numbers are doubles. -/
theorem toRat_ofInt {n : ℤ} (h : n.natAbs ≤ 2 ^ 53) : (ofInt n).toRat = n := by
  by_cases hzero : n = 0
  · subst hzero
    simp [ofInt, ofRatio, toRat]
  · obtain ⟨k, m, hodd, hn⟩ := Nat.exists_eq_two_pow_mul_odd (Int.natAbs_ne_zero.2 hzero)
    have hm : m % 2 = 1 := Nat.odd_iff.1 hodd
    have hpos : 0 < m := by omega
    have hmk : m ≤ 2 ^ k * m := Nat.le_mul_of_pos_left m (by positivity)
    have hlog : m.log2 + k < 54 := by
      rw [← log2_widened hpos k, Nat.mul_comm, ← hn, Nat.log2_lt (Int.natAbs_ne_zero.2 hzero)]
      omega
    have hcanonical : Canonical m k := ⟨hm, by omega, by omega, by omega⟩
    have hint : (finite (decide (n < 0)) m k).toInt? = some n := by
      have hk : (0 : ℤ) ≤ k := Int.natCast_nonneg k
      rw [toInt?, if_pos hk, Int.toNat_natCast, Option.some.injEq]
      change signed (decide (n < 0)) (m * 2 ^ k) = n
      rw [Nat.mul_comm, ← hn]
      by_cases hneg : n < 0
      · simp only [signed, hneg, decide_true, if_true]
        omega
      · simp only [signed, hneg, decide_false]
        simp
        omega
    rw [ofInt_of_toInt? hcanonical hint]
    exact (toInt?_eq_some_iff _ _ _).1 hint

end Double

/-! ### Numbers -/

/-- How a number is written: as a whole number if it is one up to `2 ^ 53`, and in every case as a
number that is equal to the nearest double. -/
structure Number.WrittenAs (n m : Number) : Prop where
  whole : ∀ k : ℤ, n.toRat = k → k.natAbs ≤ 2 ^ 53 → m = .whole k
  nearest : m.toRat = n.toDouble.toRat

/-- The JSON form of a finite double is never null. -/
theorem Value.numberJson_finite {x : Double} (hx : x.Finite) :
    ∃ m : Number, numberJson x = .number m ∧ m.toRat = x.toRat ∧
      ∀ k : ℤ, x.toRat = k → k.natAbs ≤ 2 ^ 53 → m = .whole k := by
  obtain ⟨s, m, e, rfl⟩ : ∃ s m e, x = .finite s m e := by
    cases hx with
    | zero s => exact ⟨s, 0, 0, rfl⟩
    | nonzero s _ => exact ⟨s, _, _, rfl⟩
  have hfinite : (Double.finite s m e).isFinite = true := rfl
  rw [numberJson, if_pos hfinite]
  cases hn : (Double.finite s m e).toInt? with
  | none =>
    refine ⟨.real (.finite s m e), rfl, rfl, ?_⟩
    intro k hk
    rw [(Double.toInt?_eq_some_iff s m e).2 hk] at hn
    cases hn
  | some n =>
    have hvalue : (Double.finite s m e).toRat = n := (Double.toInt?_eq_some_iff s m e).1 hn
    by_cases hsmall : n.natAbs ≤ maxSafe
    · simp only [if_pos hsmall]
      refine ⟨.whole n, rfl, hvalue.symm, ?_⟩
      intro k hk _
      rw [hvalue, Int.cast_inj] at hk
      rw [hk]
    · simp only [if_neg hsmall]
      refine ⟨.real (.finite s m e), rfl, rfl, ?_⟩
      intro k hk hsafe
      rw [hvalue, Int.cast_inj] at hk
      exact absurd (hk ▸ hsafe) hsmall

theorem Number.Standard.writtenAs {n : Number} (h : n.Standard) :
    ∃ m : Number, Value.numberJson n.toDouble = .number m ∧ n.WrittenAs m := by
  obtain ⟨m, hm, hnearest, hwhole⟩ := Value.numberJson_finite h.finite_toDouble
  refine ⟨m, hm, ⟨?_, hnearest⟩⟩
  intro k hk hsmall
  refine hwhole k ?_ hsmall
  cases h with
  | @whole n _ =>
    obtain rfl : n = k := Int.cast_inj.1 hk
    exact Double.toRat_ofInt hsmall
  | real _ => exact hk

/-! ### Literals -/

/-- JSON that denotes a literal: the same constants and strings, the same number of items in order,
the same keys in order, and numbers as they are written. -/
inductive Json.Denotes : Json → Literal → Prop
  | null : Denotes .null .null
  | bool (b : Bool) : Denotes (.bool b) (.bool b)
  | number {m n : Number} (h : n.WrittenAs m) : Denotes (.number m) (.number n)
  | string (s : String) : Denotes (.string s) (.string s)
  | array {items : List Json} {vs : List Literal} (h : List.Forall₂ Denotes items vs) :
      Denotes (.array items) (.list vs)
  | object {members : OrderedMap Json} {ms : OrderedMap Literal}
      (hkeys : members.keys = ms.keys)
      (h : List.Forall₂ Denotes (members.map Prod.snd) (ms.map Prod.snd)) :
      Denotes (.object members) (.object ms)

namespace Value

theorem denotes_toJson_ofLiteral {v : Literal} (h : v.WellFormed)
    (hn : ∀ n ∈ v.numbers, n.Standard) : (ofLiteral v).toJson.Denotes v := by
  induction h with
  | null => exact .null
  | bool b => exact .bool b
  | @number n _ =>
    obtain ⟨m, hm, hwritten⟩ := (hn n (List.mem_singleton_self n)).writtenAs
    rw [ofLiteral, toJson, hm]
    exact .number hwritten
  | string s => exact .string s
  | @list items _ ih =>
    rw [ofLiteral, toJson, itemsJson_eq_map, ofLiterals_eq_map, List.map_map]
    refine .array (List.forall₂_map_left_iff.2 (List.forall₂_same.2 ?_))
    intro w hw
    exact ih w hw fun n hmem => hn n (Literal.numbers_subset_itemNumbers hw hmem)
  | @object ms _ _ ih =>
    rw [ofLiteral, toJson, entriesJson_eq_map, ofMembers_eq_map, List.map_map]
    refine .object ?_ ?_
    · simp [keys]
    · rw [List.map_map, List.forall₂_map_left_iff, List.forall₂_map_right_iff, List.forall₂_same]
      intro e he
      exact ih e he fun n hmem => hn n (Literal.numbers_subset_memberNumbers he hmem)

/-- Collecting the members of an object into a map merges and drops none of them. -/
theorem ofLiteral_object {ms : OrderedMap Literal} (h : (Literal.object ms).WellFormed) :
    ofLiteral (.object ms) = .map (ofEntries (ms.map fun e => (e.1, ofLiteral e.2))) := by
  cases h with
  | object hdistinct _ =>
    have hvalues : Distinct (ms.map fun e => (e.1, ofLiteral e.2)) := hdistinct.mapValues ofLiteral
    rw [ofLiteral, ofMembers_eq_map, hvalues.ofEntries_eq]

end Value

/-- **The text of a literal denotes it.** A literal with distinct keys and with numbers that are
whole numbers of 64 bits or finite doubles becomes JSON of the same shape, its text is read as this
JSON, and no member of an object is lost when they are collected. A whole number up to `2 ^ 53` is
written in digits. -/
theorem literal_denoted_by_text {v : Literal} (h : v.WellFormed)
    (hn : ∀ n ∈ v.numbers, n.Standard) :
    let j := (Value.ofLiteral v).toJson
    j.Denotes v ∧
    Json.parseExact? (Json.compact j) = some j ∧
    (∀ ms, v = .object ms →
      Value.ofLiteral v = .map (ofEntries (ms.map fun e => (e.1, Value.ofLiteral e.2)))) ∧
    ∀ (n : Number) (k : ℤ), v = .number n → n.toRat = k → k.natAbs ≤ 2 ^ 53 →
      Json.compact j = toString k := by
  refine ⟨Value.denotes_toJson_ofLiteral h hn, ?_, ?_, ?_⟩
  · exact Json.parseExact?_compact (Value.fits_toJson (Value.storable_ofLiteral h hn))
  · rintro ms rfl
    exact Value.ofLiteral_object h
  · rintro n k rfl hk hsmall
    obtain ⟨m, hm, hwritten⟩ := (hn n (List.mem_singleton_self n)).writtenAs
    rw [Value.ofLiteral, Value.toJson, hm, hwritten.whole k hk hsmall]
    exact Number.ofList_wholeChars k

/-- A literal of every kind, with numbers on both sides of `2 ^ 53`. -/
def mixedLiteral : Literal :=
  .object [("port", .number (.whole 443)), ("ratio", .number (.real (.finite false 1 (-1)))),
    ("least", .number (.whole (-0x20000000000000))), ("large", .number (.whole 0x20000000000001)),
    ("zero", .number (.real (.finite true 0 0))), ("missing", .null),
    ("tags", .list [.string "a", .bool true, .string "a"])]

theorem mixedLiteral_wellFormed : mixedLiteral.WellFormed := by
  refine .object ?_ ?_
  · unfold Distinct
    decide
  · simp only [List.forall_mem_cons, List.not_mem_nil, false_implies, implies_true, and_true]
    refine ⟨.number ?_, .number ?_, .number ?_, .number ?_, .number ?_, .null, .list ?_⟩
    · exact Double.ofInt_ne_nan _
    · simp [Number.toDouble]
    · exact Double.ofInt_ne_nan _
    · exact Double.ofInt_ne_nan _
    · simp [Number.toDouble]
    · simp only [List.forall_mem_cons, List.not_mem_nil, false_implies, implies_true, and_true]
      exact ⟨.string _, .bool _, .string _⟩

theorem literal_denoted_by_text_mixed :
    mixedLiteral.WellFormed ∧ (∀ n ∈ mixedLiteral.numbers, n.Standard) ∧
      (Value.ofLiteral mixedLiteral).toJson.Denotes mixedLiteral ∧
      Json.compact (Value.ofLiteral mixedLiteral).toJson =
        "\x7b\"port\":443,\"ratio\":0.5,\"least\":-9007199254740992," ++
          "\"large\":9007199254740992,\"zero\":0,\"missing\":null," ++
          "\"tags\":[\"a\",true,\"a\"]\x7d" := by
  have hn : ∀ n ∈ mixedLiteral.numbers, n.Standard := by
    have hnumbers : mixedLiteral.numbers =
        [.whole 443, .real (.finite false 1 (-1)), .whole (-0x20000000000000),
          .whole 0x20000000000001, .real (.finite true 0 0)] := rfl
    simp only [hnumbers, List.forall_mem_cons, List.not_mem_nil, false_implies, implies_true,
      and_true]
    refine ⟨.whole (by decide), .real (.nonzero _ ?_), .whole (by decide), .whole (by decide),
      .real (.zero _)⟩
    exact ⟨by decide, by decide, by decide, by decide⟩
  have hdenotes := (literal_denoted_by_text mixedLiteral_wellFormed hn).1
  exact ⟨mixedLiteral_wellFormed, hn, hdenotes, by decide +kernel⟩

end ConfigAudit
