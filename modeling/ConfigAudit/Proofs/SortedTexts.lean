import ConfigAudit.Proofs.ValueEquivalence

/-!
# Texts with sorted members

Values are equal exactly if their compact JSON texts are the same once the members of all objects
are sorted by key. So such a text is a normal form of a value up to equality: it drops the order of
entries and the sign of a zero, and nothing else.

* `numberJson_eq_iff`: finite doubles are written alike exactly if they are equal numbers;
* `sortEntries_eq_iff`: sorted members are the same exactly if look-ups are;
* `equals_iff_sortMembers_eq`: equal values are those with the same sorted JSON, by induction on the
  value;
* `equality_laws`: the laws of equality and of texts.
-/

namespace ConfigAudit

open OrderedMap

/-! ### Numbers -/

/-- Odd numbers are told apart from each other and from their even multiples. -/
theorem eq_of_mul_two_pow {m n i j : ℕ} (hm : m % 2 = 1) (hij : i ≤ j)
    (h : m * 2 ^ i = n * 2 ^ j) : m = n ∧ i = j := by
  obtain ⟨k, rfl⟩ := Nat.exists_eq_add_of_le hij
  have hcancel : m = n * 2 ^ k := by
    rw [pow_add, Nat.mul_comm (2 ^ i), ← Nat.mul_assoc] at h
    exact Nat.eq_of_mul_eq_mul_right (by positivity) h
  cases k with
  | zero => exact ⟨by omega, rfl⟩
  | succ k =>
    rw [pow_succ, ← Nat.mul_assoc] at hcancel
    omega

namespace Double

/-- Canonical doubles of the same size are the same. -/
theorem eq_of_numEq {s s' : Bool} {m m' : ℕ} {e e' : ℤ} (h : Canonical m e) (h' : Canonical m' e')
    (hequal : (finite s m e).numEq (finite s' m' e') = true) :
    finite s m e = finite s' m' e' := by
  simp only [numEq, align, beq_iff_eq] at hequal
  have hpos (k : ℕ) : 0 < m * Nat.pow 2 k := Nat.mul_pos h.pos (Nat.pow_pos (by decide))
  have hpos' (k : ℕ) : 0 < m' * Nat.pow 2 k := Nat.mul_pos h'.pos (Nat.pow_pos (by decide))
  have hsign : s = s' := by
    rw [Bool.eq_iff_iff, ← signed_lt_zero_iff s (hpos _), ← signed_lt_zero_iff s' (hpos' _), hequal]
  have hsize : m * 2 ^ (e - min e e').toNat = m' * 2 ^ (e' - min e e').toNat := by
    have habs := congrArg Int.natAbs hequal
    rwa [natAbs_signed, natAbs_signed] at habs
  -- over the smaller exponent one of the powers is one
  rcases le_total (e - min e e').toNat (e' - min e e').toNat with hle | hle
  · obtain ⟨rfl, hexponent⟩ := eq_of_mul_two_pow h.odd hle hsize
    obtain rfl : e = e' := by omega
    rw [hsign]
  · obtain ⟨rfl, hexponent⟩ := eq_of_mul_two_pow h'.odd hle hsize.symm
    obtain rfl : e = e' := by omega
    rw [hsign]

theorem toRat_eq_zero_iff (s : Bool) (m : ℕ) (e : ℤ) : (finite s m e).toRat = 0 ↔ m = 0 := by
  have hpow : (2 : ℚ) ^ e ≠ 0 := by positivity
  cases s <;> simp [toRat, hpow]

/-- Finite doubles are equal numbers exactly if they differ in the sign of a zero at most. -/
theorem numEq_iff_plain_eq {x y : Double} (hx : x.Finite) (hy : y.Finite) :
    x.numEq y = true ↔ x.plain = y.plain := by
  refine ⟨fun h => ?_, numEq_of_plain_eq hx⟩
  cases hx with
  | zero s =>
    cases hy with
    | zero t => rfl
    | nonzero t hm =>
      rw [numEq_finite_iff, (toRat_eq_zero_iff s 0 0).2 rfl, eq_comm, toRat_eq_zero_iff] at h
      exact absurd h hm.pos.ne'
  | nonzero s hm =>
    cases hy with
    | zero t =>
      rw [numEq_finite_iff, (toRat_eq_zero_iff t 0 0).2 rfl, toRat_eq_zero_iff] at h
      exact absurd h hm.pos.ne'
    | nonzero t hm' => rw [eq_of_numEq hm hm' h]

end Double

namespace Value

/-- The sign of a zero is not written. -/
theorem numberJson_plain {x : Double} (hx : x.Finite) : numberJson x.plain = numberJson x := by
  cases hx with
  | zero s => cases s <;> rfl
  | nonzero s hm => rw [Double.plain, if_neg hm.pos.ne']

/-- Finite doubles are written alike exactly if they are equal numbers. -/
theorem numberJson_eq_iff {x y : Double} (hx : x.Finite) (hy : y.Finite) :
    numberJson x = numberJson y ↔ x.numEq y = true := by
  rw [Double.numEq_iff_plain_eq hx hy]
  constructor
  · intro h
    obtain ⟨n, hn, -, hvalue⟩ := numberJson_eq hx
    obtain ⟨n', hn', -, hvalue'⟩ := numberJson_eq hy
    rw [hn, hn', Json.number.injEq] at h
    rw [← hvalue, ← hvalue', h]
  · intro h
    rw [← numberJson_plain hx, ← numberJson_plain hy, h]

end Value

/-! ### Sorted members -/

namespace Json

theorem perm_insertSorted (key : String) (value : Json) (members : List (String × Json)) :
    (insertSorted key value members).Perm ((key, value) :: members) := by
  induction members with
  | nil => exact .refl _
  | cons e rest ih =>
    rw [insertSorted]
    split_ifs
    · exact .refl _
    · exact (ih.cons e).trans (.swap _ _ rest)

theorem pairwise_insertSorted (key : String) (value : Json) {members : List (String × Json)}
    (h : members.Pairwise fun e f => e.1 ≤ f.1) :
    (insertSorted key value members).Pairwise fun e f => e.1 ≤ f.1 := by
  induction members with
  | nil => exact List.pairwise_singleton _ _
  | cons e rest ih =>
    obtain ⟨he, hrest⟩ := List.pairwise_cons.1 h
    rw [insertSorted]
    split_ifs with hkey
    · refine List.pairwise_cons.2 ⟨fun f hf => ?_, h⟩
      rcases List.mem_cons.1 hf with rfl | hf
      · exact hkey.le
      · exact hkey.le.trans (he f hf)
    · -- what is inserted further down is not below the first key
      refine List.pairwise_cons.2 ⟨fun f hf => ?_, ih hrest⟩
      rcases List.mem_cons.1 ((perm_insertSorted key value rest).mem_iff.1 hf) with rfl | hf
      · exact not_lt.1 hkey
      · exact he f hf

theorem sortItems_eq_map (items : List Json) : sortItems items = items.map sortMembers := by
  induction items with
  | nil => rfl
  | cons j rest ih => rw [sortItems, ih, List.map_cons]

theorem perm_sortEntries (members : List (String × Json)) :
    (sortEntries members).Perm (members.map fun e => (e.1, e.2.sortMembers)) := by
  induction members with
  | nil => exact .refl _
  | cons e rest ih =>
    rw [sortEntries, List.map_cons]
    exact (perm_insertSorted _ _ _).trans (ih.cons _)

theorem pairwise_sortEntries (members : List (String × Json)) :
    (sortEntries members).Pairwise fun e f => e.1 ≤ f.1 := by
  induction members with
  | nil => exact .nil
  | cons e rest ih =>
    rw [sortEntries]
    exact pairwise_insertSorted _ _ ih

theorem distinct_sortEntries {members : OrderedMap Json} (h : members.Distinct) :
    Distinct (sortEntries members) :=
  ((perm_sortEntries members).map Prod.fst).nodup_iff.2 (h.mapValues sortMembers)

/-- Objects have the same sorted members exactly if they hold the same under every key. -/
theorem sortEntries_eq_iff {ms ns : OrderedMap Json} (hm : ms.Distinct) (hn : ns.Distinct) :
    sortEntries ms = sortEntries ns ↔
      ∀ key, (ms.lookup key).map sortMembers = (ns.lookup key).map sortMembers := by
  have hm' : Distinct (ms.map fun e => (e.1, e.2.sortMembers)) := hm.mapValues sortMembers
  have hn' : Distinct (ns.map fun e => (e.1, e.2.sortMembers)) := hn.mapValues sortMembers
  constructor
  · intro h key
    have hperm := (perm_sortEntries ms).symm.trans (h ▸ perm_sortEntries ns)
    rw [← lookup_mapValues, ← lookup_mapValues]
    exact hm'.lookup_perm hperm key
  · intro h
    have hperm := hm'.perm_of_lookup_eq hn' fun key => by
      rw [lookup_mapValues, lookup_mapValues, h key]
    exact (distinct_sortEntries hm).eq_of_sorted
      ((perm_sortEntries ms).trans (hperm.trans (perm_sortEntries ns).symm))
      (pairwise_sortEntries ms) (pairwise_sortEntries ns)

/-- A text tells the values that it can hold apart. -/
theorem eq_of_compact_eq {j k : Json} (hj : j.Fits) (hk : k.Fits) (h : j.compact = k.compact) :
    j = k := by
  have hread : some j = some k := by
    rw [← parseExact?_compact hj, ← parseExact?_compact hk, h]
  exact Option.some.inj hread

end Json

/-! ### Sorted texts -/

namespace Value

theorem Storable.wellFormed {v : Value} (h : v.Storable) : v.WellFormed := by
  induction h with
  | null => exact .null
  | bool b => exact .bool b
  | number hx => exact .number fun h => by rw [h] at hx; cases hx
  | string s => exact .string s
  | list _ ih => exact .list ih
  | map hdistinct _ ih => exact .map hdistinct ih

theorem fits_sortMembers {v : Value} (h : v.Storable) : v.toJson.sortMembers.Fits := by
  induction h with
  | null => exact .null
  | bool b => exact .bool b
  | number hx =>
    obtain ⟨n, hn, hfinite, -⟩ := numberJson_eq hx
    rw [toJson, hn]
    exact .number hfinite
  | string s => exact .string s
  | list _ ih =>
    rw [toJson, itemsJson_eq_map, Json.sortMembers, Json.sortItems_eq_map, List.map_map]
    exact Json.fits_array (List.forall_mem_map.2 ih)
  | @map ms hdistinct _ ih =>
    have hmembers : Distinct (ms.map fun e => (e.1, e.2.toJson)) := hdistinct.mapValues toJson
    rw [toJson, entriesJson_eq_map, Json.sortMembers]
    refine Json.fits_object (Json.distinct_sortEntries hmembers) fun e he => ?_
    have hmem := (Json.perm_sortEntries _).mem_iff.1 he
    rw [List.map_map] at hmem
    obtain ⟨d, hd, rfl⟩ := List.mem_map.1 hmem
    exact ih d hd

section Relations

variable {α β : Type} {R : α → α → Prop} {f : α → β}

/-- A relation that is sameness of images is, between lists, sameness of the lists of images. -/
theorem forall₂_iff_map_eq {xs ys : List α} (h : ∀ a ∈ xs, ∀ b ∈ ys, (R a b ↔ f a = f b)) :
    List.Forall₂ R xs ys ↔ xs.map f = ys.map f := by
  rw [forall₂_iff_of_mem h, ← List.forall₂_eq_eq_eq, List.forall₂_map_left_iff,
    List.forall₂_map_right_iff]

theorem rel_iff_map_eq {x y : Option α}
    (h : ∀ a, x = some a → ∀ b, y = some b → (R a b ↔ f a = f b)) :
    Option.Rel R x y ↔ x.map f = y.map f := by
  constructor
  · rintro (hab | _)
    · exact congrArg some ((h _ rfl _ rfl).1 hab)
    · rfl
  · intro hmap
    cases x with
    | none =>
      rw [Option.map_none, eq_comm, Option.map_eq_none_iff] at hmap
      rw [hmap]
      exact .none
    | some a =>
      rw [Option.map_some, eq_comm, Option.map_eq_some_iff] at hmap
      obtain ⟨b, rfl, hba⟩ := hmap
      exact .some ((h a rfl b rfl).2 hba.symm)

end Relations

theorem storable_singleton {v : Value} (h : v.Storable) : (Value.list [v]).Storable :=
  .list (by simpa using h)

theorem sortMembers_number {x : Double} (hx : x.Finite) :
    ∃ n, (Value.number x).toJson.sortMembers = .number n ∧ numberJson x = .number n := by
  obtain ⟨n, hn, -, -⟩ := numberJson_eq hx
  exact ⟨n, by rw [toJson, hn, Json.sortMembers], hn⟩

theorem equals_number_iff {v : Value} {y : Double} (hv : v.Storable) (hy : y.Finite) :
    Equals v (.number y) ↔ v.toJson.sortMembers = (Value.number y).toJson.sortMembers := by
  obtain ⟨n, hn, hynumber⟩ := sortMembers_number hy
  rw [hn]
  cases hv with
  | number hx =>
    obtain ⟨m, hm, hxnumber⟩ := sortMembers_number hx
    rw [hm, ← hxnumber, ← hynumber, numberJson_eq_iff hx hy, Equals, equal]
  | _ => simp [Equals, equal, toJson, Json.sortMembers]

/-- Equal values are those with the same JSON once members are sorted. -/
theorem equals_iff_sortMembers_eq {v w : Value} (hv : v.Storable) (hw : w.Storable) :
    Equals v w ↔ v.toJson.sortMembers = w.toJson.sortMembers := by
  -- values of different kinds are neither equal nor written alike
  induction hv generalizing w with
  | null =>
    cases hw with
    | number hy => exact equals_number_iff .null hy
    | _ => simp [Equals, equal, toJson, Json.sortMembers]
  | bool b =>
    cases hw with
    | number hy => exact equals_number_iff (.bool b) hy
    | _ => simp [Equals, equal, toJson, Json.sortMembers]
  | string s =>
    cases hw with
    | number hy => exact equals_number_iff (.string s) hy
    | _ => simp [Equals, equal, toJson, Json.sortMembers]
  | number hx =>
    cases hw with
    | number hy => exact equals_number_iff (.number hx) hy
    | _ =>
      obtain ⟨n, hn, -⟩ := sortMembers_number hx
      rw [hn]
      simp [Equals, equal, toJson, Json.sortMembers]
  | list hitems ih =>
    cases hw with
    | list hitems' =>
      rw [equal_list_iff, forall₂_iff_map_eq fun v hv w hw => ih v hv (hitems' w hw)]
      simp only [toJson, itemsJson_eq_map, Json.sortMembers, Json.sortItems_eq_map, List.map_map,
        Json.array.injEq, Function.comp_def]
    | number hy => exact equals_number_iff (.list hitems) hy
    | _ => simp [Equals, equal, toJson, Json.sortMembers]
  | @map ms hdistinct hentries ih =>
    cases hw with
    | @map ns hdistinct' hentries' =>
      have hm : Distinct (ms.map fun e => (e.1, e.2.toJson)) := hdistinct.mapValues toJson
      have hn : Distinct (ns.map fun e => (e.1, e.2.toJson)) := hdistinct'.mapValues toJson
      rw [equal_map_iff hdistinct hdistinct', toJson, toJson, entriesJson_eq_map,
        entriesJson_eq_map, Json.sortMembers, Json.sortMembers, Json.object.injEq,
        Json.sortEntries_eq_iff hm hn]
      refine forall_congr' fun key => ?_
      rw [lookup_mapValues, lookup_mapValues, Option.map_map, Option.map_map]
      refine rel_iff_map_eq fun v hv w hw => ?_
      exact ih _ (mem_of_lookup_eq_some hv) (hentries' _ (mem_of_lookup_eq_some hw))
    | number hy => exact equals_number_iff (.map hdistinct hentries) hy
    | _ => simp [Equals, equal, toJson, Json.sortMembers]

/-- Equal values are those with the same sorted text. -/
theorem equals_iff_sortedText_eq {v w : Value} (hv : v.Storable) (hw : w.Storable) :
    Equals v w ↔ v.toJson.sortMembers.compact = w.toJson.sortMembers.compact := by
  rw [equals_iff_sortMembers_eq hv hw]
  exact ⟨congrArg Json.compact, Json.eq_of_compact_eq (fits_sortMembers hv) (fits_sortMembers hw)⟩

/-- Equality of values is an equivalence without `nan`. Lists are equal item by item and maps key by
key, so maps may be reordered everywhere, and finite values are equal if their sorted texts are. -/
theorem equality_laws :
    (Equivalence fun v w : { v : Value // v.WellFormed } => Equals v.1 w.1) ∧
    (∀ xs ys : List Value, Equals (.list xs) (.list ys) ↔ List.Forall₂ Equals xs ys) ∧
    (∀ ms ns : Config, ms.Distinct → ns.Distinct →
      (Equals (.map ms) (.map ns) ↔
        ∀ key, Option.Rel Equals (ms.lookup key) (ns.lookup key))) ∧
    (∀ v w : Value, v.WellFormed → Relation.ReflTransGen Reordered v w → Equals v w) ∧
    ∀ v w : Value, v.Storable → w.Storable →
      (Equals v w ↔ v.toJson.sortMembers.compact = w.toJson.sortMembers.compact) := by
  refine ⟨equals_equivalence, ?lists, ?maps, ?reordered, ?texts⟩
  case lists => exact fun _ _ => equal_list_iff
  case maps => exact fun _ _ => equal_map_iff
  case reordered => exact fun _ _ hv h => (equals_of_reordered hv h).2
  case texts => exact fun _ _ => equals_iff_sortedText_eq

/-- A zero of either sign and a `null`, in a map inside a list. -/
def zeroThenNull (s : Bool) : Value := .list [.map [("x", .number (.finite s 0 0)), ("y", .null)]]

/-- The map of `zeroThenNull` in the other order. -/
def nullThenZero (s : Bool) : Value := .list [.map [("y", .null), ("x", .number (.finite s 0 0))]]

theorem equality_laws_zeros :
    (zeroThenNull false).Storable ∧ (nullThenZero true).Storable ∧
    Equals (zeroThenNull false) (nullThenZero false) ∧
    (zeroThenNull false).toJson.sortMembers.compact =
      (nullThenZero true).toJson.sortMembers.compact ∧
    ¬ Equals (.list [.bool true, .bool false]) (.list [.bool false, .bool true]) := by
  obtain ⟨-, hlists, -, hreordered, htexts⟩ := equality_laws
  have hplus : (zeroThenNull false).Storable := storable_singleton <|
    .map (by simp [Distinct, keys]) (by simp [Storable.null, Storable.number (.zero _)])
  have hminus : (nullThenZero true).Storable := storable_singleton <|
    .map (by simp [Distinct, keys]) (by simp [Storable.null, Storable.number (.zero _)])
  refine ⟨hplus, hminus, ?_, ?_, ?_⟩
  · refine hreordered _ _ hplus.wellFormed (.single ?_)
    exact @Reordered.item [] [] _ _ (.entries (.swap _ _ _))
  · exact (htexts _ _ hplus hminus).1 rfl
  · rw [hlists]
    simp [Equals, equal]

end Value

end ConfigAudit
