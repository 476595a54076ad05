import ConfigAudit.Document.Basic
import ConfigAudit.Proofs.JsonTexts
import ConfigAudit.Proofs.ValueEquality
import ConfigAudit.Value.Json

/-!
# Values read back from their JSON form

Values are written with whole numbers where they can, and read with every number turned into a
double. What is read is the value itself, except that a negative zero comes back as zero, since it
is written as a whole number; equality of values does not see the difference.

* `Storable`: finite numbers, and no key twice in a map;
* `ofJson_toJson`: storable values are read back;
* `equal_of_plain_eq`: values that differ in the signs of zeros only are equal;
* `HasStandardNumbers.storable_extract`: extracted maps are storable if the numbers in the body and
  in its literal values are whole numbers of 64 bits or finite.
-/

namespace ConfigAudit

open OrderedMap

/-! ### Reading values -/

/-- A double without the sign of a zero. -/
def Double.plain : Double → Double
  | .finite s m e => if m = 0 then .finite false 0 0 else .finite s m e
  | x => x

namespace Value

mutual

/-- A value without the signs of zeros. -/
def plain : Value → Value
  | .number x => .number x.plain
  | .list items => .list (plainItems items)
  | .map entries => .map (plainEntries entries)
  | v => v

/-- Items without the signs of zeros. -/
def plainItems : List Value → List Value
  | [] => []
  | v :: rest => plain v :: plainItems rest

/-- Entries without the signs of zeros. -/
def plainEntries : List (String × Value) → List (String × Value)
  | [] => []
  | (k, v) :: rest => (k, plain v) :: plainEntries rest

end

mutual

/-- The value of a JSON form. -/
def ofJson : Json → Value
  | .null => .null
  | .bool b => .bool b
  | .number n => .number n.toDouble
  | .string s => .string s
  | .array items => .list (itemsOfJson items)
  | .object members => .map (entriesOfJson members)

/-- The values of items. -/
def itemsOfJson : List Json → List Value
  | [] => []
  | j :: rest => ofJson j :: itemsOfJson rest

/-- The values of members. -/
def entriesOfJson : List (String × Json) → List (String × Value)
  | [] => []
  | (k, j) :: rest => (k, ofJson j) :: entriesOfJson rest

end

/-- A value that a text can hold: its numbers are finite, and no key occurs twice in a map. -/
inductive Storable : Value → Prop
  | null : Storable .null
  | bool (b : Bool) : Storable (.bool b)
  | number {x : Double} (hx : x.Finite) : Storable (.number x)
  | string (s : String) : Storable (.string s)
  | list {items : List Value} (hitems : ∀ v ∈ items, Storable v) : Storable (.list items)
  | map {entries : Config} (hdistinct : entries.Distinct) (hentries : ∀ e ∈ entries, Storable e.2) :
      Storable (.map entries)

theorem storable_closed : Closed Storable := ⟨.bool, .list, .map⟩

section Maps

theorem plainItems_eq_map (items : List Value) : plainItems items = items.map plain := by
  induction items with
  | nil => rfl
  | cons v rest ih => rw [plainItems, ih, List.map_cons]

theorem plainEntries_eq_map (entries : List (String × Value)) :
    plainEntries entries = entries.map fun e => (e.1, e.2.plain) := by
  induction entries with
  | nil => rfl
  | cons e rest ih => rw [plainEntries, ih, List.map_cons]

theorem itemsJson_eq_map (items : List Value) : itemsJson items = items.map toJson := by
  induction items with
  | nil => rfl
  | cons v rest ih => rw [itemsJson, ih, List.map_cons]

theorem entriesJson_eq_map (entries : List (String × Value)) :
    entriesJson entries = entries.map fun e => (e.1, e.2.toJson) := by
  induction entries with
  | nil => rfl
  | cons e rest ih => rw [entriesJson, ih, List.map_cons]

theorem itemsOfJson_eq_map (items : List Json) : itemsOfJson items = items.map ofJson := by
  induction items with
  | nil => rfl
  | cons j rest ih => rw [itemsOfJson, ih, List.map_cons]

theorem entriesOfJson_eq_map (members : List (String × Json)) :
    entriesOfJson members = members.map fun e => (e.1, ofJson e.2) := by
  induction members with
  | nil => rfl
  | cons e rest ih => rw [entriesOfJson, ih, List.map_cons]

end Maps

/-- A finite double is written as a finite number that is equal to it. -/
theorem numberJson_eq {x : Double} (hx : x.Finite) :
    ∃ n : Number, numberJson x = .number n ∧ n.Finite ∧ n.toDouble = x.plain := by
  cases hx with
  | zero s =>
    refine ⟨.whole 0, ?_, .whole 0, rfl⟩
    cases s <;> rfl
  | @nonzero s m e h =>
    have hplain : (Double.finite s m e).plain = .finite s m e := if_neg h.pos.ne'
    have hreal : ∃ n : Number, Json.number (.real (.finite s m e)) = .number n ∧ n.Finite ∧
        n.toDouble = (Double.finite s m e).plain :=
      ⟨.real (.finite s m e), rfl, .real (.nonzero s h), hplain.symm⟩
    have hfinite : (Double.finite s m e).isFinite = true := rfl
    -- written as a whole number if it is one and fits
    rw [numberJson, if_pos hfinite]
    cases hn : (Double.finite s m e).toInt? with
    | none => exact hreal
    | some n =>
      dsimp only
      split_ifs
      · exact ⟨.whole n, rfl, .whole n, (Double.ofInt_of_toInt? h hn).trans hplain.symm⟩
      · exact hreal

theorem fits_toJson {v : Value} (h : v.Storable) : v.toJson.Fits := by
  induction h with
  | null => exact .null
  | bool b => exact .bool b
  | number hx =>
    obtain ⟨n, hn, hfinite, -⟩ := numberJson_eq hx
    rw [toJson, hn]
    exact .number hfinite
  | string s => exact .string s
  | list _ ih =>
    rw [toJson, itemsJson_eq_map]
    exact Json.fits_array (List.forall_mem_map.2 ih)
  | map hdistinct _ ih =>
    rw [toJson, entriesJson_eq_map]
    exact Json.fits_object (hdistinct.mapValues toJson) (List.forall_mem_map.2 ih)

theorem ofJson_toJson {v : Value} (h : v.Storable) : ofJson v.toJson = v.plain := by
  induction h with
  | null => rfl
  | bool b => rfl
  | number hx =>
    obtain ⟨n, hn, -, hvalue⟩ := numberJson_eq hx
    rw [toJson, hn, ofJson, hvalue, plain]
  | string s => rfl
  | list _ ih =>
    rw [toJson, itemsJson_eq_map, ofJson, itemsOfJson_eq_map, plain, plainItems_eq_map,
      List.map_map]
    exact congrArg Value.list (List.map_congr_left ih)
  | map _ _ ih =>
    rw [toJson, entriesJson_eq_map, ofJson, entriesOfJson_eq_map, plain, plainEntries_eq_map,
      List.map_map]
    exact congrArg Value.map (List.map_congr_left fun e he => Prod.ext rfl (ih e he))

end Value

/-! ### Equality -/

theorem Double.numEq_of_plain_eq {x y : Double} (hx : x.Finite) (h : x.plain = y.plain) :
    x.numEq y = true := by
  cases hx with
  | zero s =>
    have hzero : (Double.finite s 0 0).plain = .finite false 0 0 := rfl
    rw [hzero] at h
    cases y with
    | nan => cases h
    | infinite t => cases h
    | finite t m e =>
      -- the other number is a zero of some sign
      have hm : m = 0 := by
        by_contra hne
        rw [plain, if_neg hne, Double.finite.injEq] at h
        exact hne h.2.1.symm
      subst hm
      cases s <;> cases t <;> simp [numEq, align, signed]
  | @nonzero s m e hm =>
    have hself : (Double.finite s m e).plain = .finite s m e := if_neg hm.pos.ne'
    rw [hself] at h
    cases y with
    | nan => cases h
    | infinite t => cases h
    | finite t n f =>
      have hn : n ≠ 0 := by
        rintro rfl
        cases h
        exact absurd rfl hm.pos.ne'
      rw [plain, if_neg hn] at h
      rw [← h]
      exact numEq_self (by simp)

namespace Value

/-- Values that differ in the signs of zeros only are equal. -/
theorem equal_of_plain_eq {v w : Value} (hv : v.Storable) (h : v.plain = w.plain) :
    equal v w = true := by
  induction hv generalizing w with
  | null => cases w <;> simp_all [plain, equal]
  | bool b => cases w <;> simp_all [plain, equal]
  | number hx =>
    cases w with
    | number y =>
      rw [plain, plain, Value.number.injEq] at h
      exact Double.numEq_of_plain_eq hx h
    | _ => simp [plain] at h
  | string s => cases w <;> simp_all [plain, equal]
  | list _ ih =>
    cases w with
    | list ys =>
      rw [plain, plain, Value.list.injEq, plainItems_eq_map, plainItems_eq_map] at h
      rw [equal]
      exact equalItems_of_map_eq (fun v hv w => ih v hv) h
    | _ => simp [plain] at h
  | @map ms hdistinct _ ih =>
    cases w with
    | map ns =>
      rw [plain, plain, Value.map.injEq, plainEntries_eq_map, plainEntries_eq_map] at h
      rw [equal, Bool.and_eq_true, beq_iff_eq, entriesIn_iff]
      obtain ⟨hlength, hlookup⟩ := hdistinct.lookup_of_map_eq h
      refine ⟨hlength, fun e he => ?_⟩
      obtain ⟨b, hb, hplain⟩ := hlookup e he
      exact ⟨b, hb, ih e he hplain⟩
    | _ => simp [plain] at h

end Value

/-! ### Extracted maps -/

/-- A whole number of 64 bits or a finite double. -/
inductive Number.Standard : Number → Prop
  | whole {n : ℤ} (hn : Number.inRange n = true) : Standard (.whole n)
  | real {x : Double} (hx : x.Finite) : Standard (.real x)

theorem Number.Standard.finite_toDouble {n : Number} (h : n.Standard) : n.toDouble.Finite := by
  cases h with
  | whole hn =>
    refine Double.finite_ofInt ?_
    simp only [Number.inRange, Bool.and_eq_true, decide_eq_true_eq] at hn
    obtain ⟨hlow, hhigh⟩ := hn
    unfold Number.minWhole at hlow
    unfold Number.maxWhole at hhigh
    omega
  | real hx => exact hx

theorem Double.Finite.ne_nan {x : Double} (h : x.Finite) : x ≠ .nan := by
  cases h <;> simp

mutual

/-- The numbers in a literal. -/
def Literal.numbers : Literal → List Number
  | .number n => [n]
  | .list items => Literal.itemNumbers items
  | .object members => Literal.memberNumbers members
  | _ => []

/-- The numbers in items. -/
def Literal.itemNumbers : List Literal → List Number
  | [] => []
  | v :: rest => v.numbers ++ Literal.itemNumbers rest

/-- The numbers in members. -/
def Literal.memberNumbers : List (String × Literal) → List Number
  | [] => []
  | (_, v) :: rest => v.numbers ++ Literal.memberNumbers rest

end

namespace Literal

theorem numbers_subset_itemNumbers {v : Literal} {items : List Literal} (h : v ∈ items) :
    v.numbers ⊆ itemNumbers items := by
  induction items with
  | nil => cases h
  | cons w rest ih =>
    rw [itemNumbers]
    rcases List.mem_cons.1 h with rfl | h
    · exact List.subset_append_left _ _
    · exact List.subset_append_of_subset_right _ (ih h)

theorem numbers_subset_memberNumbers {e : String × Literal} {members : List (String × Literal)}
    (h : e ∈ members) : e.2.numbers ⊆ memberNumbers members := by
  induction members with
  | nil => cases h
  | cons f rest ih =>
    obtain ⟨k, v⟩ := f
    rw [memberNumbers]
    rcases List.mem_cons.1 h with rfl | h
    · exact List.subset_append_left _ _
    · exact List.subset_append_of_subset_right _ (ih h)

end Literal

theorem Value.storable_ofLiteral {v : Literal} (h : v.WellFormed)
    (hn : ∀ n ∈ v.numbers, n.Standard) : (ofLiteral v).Storable := by
  induction h with
  | null => exact .null
  | bool b => exact .bool b
  | @number n _ => exact .number (hn n (List.mem_singleton_self n)).finite_toDouble
  | string s => exact .string s
  | list _ ih =>
    rw [ofLiteral, ofLiterals_eq_map]
    refine .list (List.forall_mem_map.2 fun w hw => ?_)
    exact ih w hw fun n hmem => hn n (Literal.numbers_subset_itemNumbers hw hmem)
  | object hdistinct _ ih =>
    rw [ofLiteral, ofMembers_eq_map]
    refine .map (hdistinct.mapValues ofLiteral) (List.forall_mem_map.2 fun e he => ?_)
    exact ih e he fun n hmem => hn n (Literal.numbers_subset_memberNumbers he hmem)

/-- All numbers are whole numbers of 64 bits or finite doubles: those that are written in a body,
and those in the literal values of its attributes. -/
structure Body.HasStandardNumbers (body : Body) : Prop where
  written : ∀ n ∈ body.numerals, n.Standard
  evaluated : ∀ e ∈ body.expressions, ∀ v, e.literal? = some v → ∀ n ∈ v.numbers, n.Standard

section Bodies

variable {body : Body} {e : Expr} {v : Value}

theorem Body.HasStandardNumbers.storable_resolve? (h : body.HasStandardNumbers)
    (he : e ∈ body.expressions) (hv : e.resolve? = some v) : v.Storable := by
  rw [Expr.resolve?_eq, Option.or_eq_some_iff] at hv
  obtain hv | ⟨-, hv⟩ := hv
  · obtain ⟨w, hw, rfl⟩ := Option.map_eq_some_iff.1 hv
    have hempty : Scope.WellFormed [] := by simp [Scope.WellFormed]
    have hwritten : ∀ n ∈ e.numerals, n.toDouble ≠ .nan := fun n hn =>
      (h.written n (body.numerals_of_mem he hn)).finite_toDouble.ne_nan
    exact Value.storable_ofLiteral (e.wellFormed_eval hempty hwritten hw) (h.evaluated e he w hw)
  · obtain ⟨path, -, rfl⟩ := Option.map_eq_some_iff.1 hv
    exact .string path

theorem Block.expressions_subset {b : Block} (hb : b ∈ body.blocks) :
    b.body.expressions ⊆ body.expressions :=
  Structure.expressions_subset (Body.mem_blocks.1 hb)

/-- The extracted map of a block. -/
theorem Body.HasStandardNumbers.storable_extract (h : body.HasStandardNumbers) {b : Block}
    (hb : b ∈ body.blocks) (table : NestingTable) :
    (Value.map (extract table b.body)).Storable :=
  Value.storable_closed.extractAt table 0 fun _ he _ hv =>
    h.storable_resolve? (Block.expressions_subset hb he) hv

/-- A single attribute of a block. -/
theorem Body.HasStandardNumbers.storable_attribute? (h : body.HasStandardNumbers) {b : Block}
    (hb : b ∈ body.blocks) {name : String} (hv : b.body.attribute? name = some v) :
    v.Storable := by
  obtain ⟨⟨key, expr⟩, hfind, hresolve⟩ := Option.bind_eq_some_iff.1 hv
  have hmem : Structure.attribute key expr ∈ b.body :=
    Body.mem_attributes.1 (List.mem_of_find?_eq_some hfind)
  have hexpr : expr ∈ b.body.expressions :=
    Structure.expressions_subset hmem (List.mem_singleton_self expr)
  exact h.storable_resolve? (Block.expressions_subset hb hexpr) hresolve

end Bodies

end ConfigAudit
