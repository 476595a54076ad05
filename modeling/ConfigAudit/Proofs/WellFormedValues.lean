import ConfigAudit.Proofs.Extraction
import ConfigAudit.Proofs.Resolution
import ConfigAudit.Proofs.WellFormedLiterals

/-!
# Extraction yields well-formed values

The same notion for values: no number is `nan`, and no key occurs twice in a map. Values come from
literals, from paths and from assembled maps. What assembling keeps, `Closed`, holds of an extracted
map as soon as it holds of the values of its attributes (`Closed.extractAt`), so an extracted map is
well formed as soon as no number in its body is `nan` (`wellFormed_extractAt`).
-/

namespace ConfigAudit

open OrderedMap

namespace Value

/-- A value as it can be read from a text: no number is `nan`, and no key occurs twice in a map. -/
inductive WellFormed : Value → Prop
  | null : WellFormed .null
  | bool (b : Bool) : WellFormed (.bool b)
  | number {x : Double} (hx : x ≠ .nan) : WellFormed (.number x)
  | string (s : String) : WellFormed (.string s)
  | list {items : List Value} (hitems : ∀ v ∈ items, WellFormed v) : WellFormed (.list items)
  | map {entries : Config} (hdistinct : entries.Distinct)
      (hentries : ∀ e ∈ entries, WellFormed e.2) : WellFormed (.map entries)

theorem ofLiterals_eq_map (items : List Literal) : ofLiterals items = items.map ofLiteral := by
  induction items with
  | nil => rfl
  | cons v rest ih => rw [ofLiterals, ih, List.map_cons]

theorem ofMembers_eq_map (members : List (String × Literal)) :
    ofMembers members = members.map fun e => (e.1, ofLiteral e.2) := by
  induction members with
  | nil => rfl
  | cons e rest ih => rw [ofMembers, ih, List.map_cons]

theorem wellFormed_ofLiteral {v : Literal} (h : v.WellFormed) : (ofLiteral v).WellFormed := by
  induction h with
  | null => exact .null
  | bool b => exact .bool b
  | number hn => exact .number hn
  | string s => exact .string s
  | list _ ih =>
    rw [ofLiteral, ofLiterals_eq_map]
    exact .list (List.forall_mem_map.2 ih)
  | object hdistinct _ ih =>
    rw [ofLiteral, ofMembers_eq_map]
    exact .map (hdistinct.mapValues ofLiteral) (List.forall_mem_map.2 ih)

/-- A property of values that truth values have, and lists and maps without repeated keys as soon as
what is in them has it. -/
structure Closed (P : Value → Prop) : Prop where
  bool (b : Bool) : P (.bool b)
  list {items : List Value} (hitems : ∀ v ∈ items, P v) : P (.list items)
  map {entries : Config} (hdistinct : entries.Distinct) (hentries : ∀ e ∈ entries, P e.2) :
    P (.map entries)

theorem wellFormed_closed : Closed WellFormed := ⟨.bool, .list, .map⟩

theorem Closed.ofSiblings {P : Value → Prop} (hP : Closed P) {children : List Config}
    (h : ∀ c ∈ children, P (.map c)) : P (ofSiblings children) := by
  have hcontent : ∀ c ∈ withContent children, P (.map c) :=
    fun c hc => h c (List.mem_filter.1 hc).1
  rw [Value.ofSiblings]
  split
  · exact hP.bool true
  · rename_i child honly
    exact hcontent child (honly ▸ List.mem_singleton_self child)
  · exact hP.list (List.forall_mem_map.2 hcontent)

end Value

theorem Expr.wellFormed_resolve? {e : Expr} (hn : ∀ n ∈ e.numerals, n.toDouble ≠ .nan) {v : Value}
    (h : e.resolve? = some v) : v.WellFormed := by
  rw [resolve?_eq, Option.or_eq_some_iff] at h
  obtain h | ⟨-, h⟩ := h
  · obtain ⟨w, hw, rfl⟩ := Option.map_eq_some_iff.1 h
    have hempty : Scope.WellFormed [] := by simp [Scope.WellFormed]
    exact Value.wellFormed_ofLiteral (e.wellFormed_eval hempty hn hw)
  · obtain ⟨path, -, rfl⟩ := Option.map_eq_some_iff.1 h
    exact .string path

mutual

/-- The numbers in the attributes of a structure. -/
def Structure.numerals : Structure → List Number
  | .attribute _ expr => expr.numerals
  | .block _ _ inner => Body.numerals inner

/-- The numbers in the attributes of a body, at every level. -/
def Body.numerals : Body → List Number
  | [] => []
  | s :: rest => s.numerals ++ Body.numerals rest

end

mutual

/-- The expressions of the attributes of a structure. -/
def Structure.expressions : Structure → List Expr
  | .attribute _ expr => [expr]
  | .block _ _ inner => Body.expressions inner

/-- The expressions of the attributes of a body, at every level. -/
def Body.expressions : Body → List Expr
  | [] => []
  | s :: rest => s.expressions ++ Body.expressions rest

end

theorem Structure.expressions_subset {s : Structure} {body : Body} (h : s ∈ body) :
    s.expressions ⊆ body.expressions := by
  induction body with
  | nil => cases h
  | cons t rest ih =>
    rw [Body.expressions]
    rcases List.mem_cons.1 h with rfl | h
    · exact List.subset_append_left _ _
    · exact List.subset_append_of_subset_right _ (ih h)

mutual

theorem Structure.numerals_of_mem {e : Expr} : ∀ s : Structure, e ∈ s.expressions →
    e.numerals ⊆ s.numerals
  | .attribute _ expr, h => by
    rw [Structure.expressions, List.mem_singleton] at h
    rw [Structure.numerals, h]
    exact List.Subset.refl _
  | .block _ _ inner, h => by
    rw [Structure.numerals]
    exact Body.numerals_of_mem inner h

/-- The numbers in an attribute are numbers in the body. -/
theorem Body.numerals_of_mem {e : Expr} : ∀ body : Body, e ∈ body.expressions →
    e.numerals ⊆ body.numerals
  | [], h => by cases h
  | s :: rest, h => by
    rw [Body.expressions, List.mem_append] at h
    rw [Body.numerals]
    rcases h with h | h
    · exact List.subset_append_of_subset_left _ (Structure.numerals_of_mem s h)
    · exact List.subset_append_of_subset_right _ (Body.numerals_of_mem rest h)

end

/-- Extracted maps have a property at every depth if the values of all attributes have it. -/
theorem Value.Closed.extractAt {P : Value → Prop} (hP : Closed P) (table : NestingTable)
    (depth : Nat) {body : Body}
    (h : ∀ e ∈ body.expressions, ∀ v, e.resolve? = some v → P v) :
    P (.map (extractAt table depth body)) := by
  induction body using Body.induction generalizing depth with
  | step body ih =>
    refine hP.map (distinct_assemble _ _) fun e he => ?_
    have hlookup : (ConfigAudit.extractAt table depth body).lookup e.1 = some e.2 :=
      (distinct_assemble _ _).lookup_eq_some.2 he
    rw [lookup_extractAt] at hlookup
    split_ifs at hlookup with hblocks
    · rw [← Option.some.inj hlookup]
      refine hP.ofSiblings (List.forall_mem_map.2 fun b hb => ?_)
      have hmem := Body.mem_blocks.1 (List.mem_filter.1 hb).1
      exact ih _ _ _ hmem (depth + 1) fun expr hexpr =>
        h expr (Structure.expressions_subset hmem hexpr)
    · obtain ⟨expr, hexpr, hv⟩ := List.mem_filterMap.1 (List.mem_of_getLast? hlookup)
      have hmem := Body.mem_attributes.1 (mem_valuesOf.1 hexpr)
      exact h expr (Structure.expressions_subset hmem (List.mem_singleton_self expr)) _ hv

/-- Extracted maps are well formed, at every depth. -/
theorem wellFormed_extractAt (table : NestingTable) (depth : Nat) {body : Body}
    (hn : ∀ n ∈ body.numerals, n.toDouble ≠ .nan) :
    (Value.map (extractAt table depth body)).WellFormed := by
  refine Value.wellFormed_closed.extractAt table depth fun e he v hv => ?_
  exact e.wellFormed_resolve? (fun n hnum => hn n (body.numerals_of_mem he hnum)) hv

end ConfigAudit
