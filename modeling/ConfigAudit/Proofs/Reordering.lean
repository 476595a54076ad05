import ConfigAudit.Proofs.SourceOrder
import ConfigAudit.Proofs.ValueEquality

/-!
# Reordering

What is read from a body is read from slots: a key of a config is answered by the attributes of one
name or by the blocks of one kind, and a document keeps the resource blocks in one list and looks an
output up by its name. A reordering that keeps the order inside every slot, `Body.Shuffled`, goes
unnoticed up to the order of map entries.

* `Body.Shuffled.filterMap_eq`: what is read from one slot does not change;
* `lookup_extractAt_shuffled`: so no entry of a config changes, and
  `sortKeys_extractAt_rearranged` carries this through reorderings at every level;
* `resources_shuffled`, `lookup_inputs_perm` and `lookup_outputs_shuffled`: the parts of a document;
* `reordering_invariant`: both for all bodies.
-/

namespace ConfigAudit

open OrderedMap

/-! ### Slots -/

/-- A permutation of structures that keeps the order of those in one slot. Structures without slot
move freely. -/
structure Body.Shuffled {σ : Type} [DecidableEq σ] (slot? : Structure → Option σ)
    (body body' : Body) : Prop where
  perm : body.Perm body'
  order : ∀ slot, body.filter (slot? · = some slot) = body'.filter (slot? · = some slot)

namespace Body.Shuffled

variable {σ β : Type} [DecidableEq σ] {slot? : Structure → Option σ} {body body' : Body}

theorem refl (body : Body) : Body.Shuffled slot? body body where
  perm := .refl body
  order _ := rfl

/-- Neighbours in different slots change places. -/
theorem swap {s t : Structure} (h : ∀ slot, slot? s = some slot → slot? t ≠ some slot)
    (before after : Body) :
    Body.Shuffled slot? (before ++ s :: t :: after) (before ++ t :: s :: after) where
  perm := (List.Perm.swap t s after).append_left before
  order slot := by
    simp only [List.filter_append, List.filter_cons, decide_eq_true_eq]
    split_ifs with hs ht
    · exact absurd ht (h slot hs)
    · rfl
    · rfl
    · rfl

/-- What is read from one slot only is read in the same order. -/
theorem filterMap_eq (h : Body.Shuffled slot? body body') (slot : σ) {f : Structure → Option β}
    (hf : ∀ s, slot? s ≠ some slot → f s = none) : body.filterMap f = body'.filterMap f := by
  have hfilter (l : Body) : l.filterMap f = (l.filter (slot? · = some slot)).filterMap f := by
    rw [List.filterMap_filter]
    refine List.filterMap_congr fun s _ => ?_
    split_ifs with hs
    · rfl
    · exact hf s (by simpa using hs)
  rw [hfilter body, hfilter body', h.order]

theorem attributes_filterMap_eq (h : Body.Shuffled slot? body body') (slot : σ)
    {f : String × Expr → Option β}
    (hf : ∀ name expr, slot? (.attribute name expr) ≠ some slot → f (name, expr) = none) :
    body.attributes.filterMap f = body'.attributes.filterMap f := by
  rw [attributes, attributes, List.filterMap_filterMap, List.filterMap_filterMap]
  refine h.filterMap_eq slot fun s hs => ?_
  rcases s with ⟨name, expr⟩ | _
  · exact hf name expr hs
  · rfl

theorem blocks_filterMap_eq (h : Body.Shuffled slot? body body') (slot : σ)
    {f : Block → Option β}
    (hf : ∀ b, slot? (.block b.kind b.labels b.body) ≠ some slot → f b = none) :
    body.blocks.filterMap f = body'.blocks.filterMap f := by
  rw [blocks, blocks, List.filterMap_filterMap, List.filterMap_filterMap]
  refine h.filterMap_eq slot fun s hs => ?_
  rcases s with _ | ⟨kind, labels, inner⟩
  · rfl
  · exact hf ⟨kind, labels, inner⟩ hs

end Body.Shuffled

/-! ### Configs -/

/-- Where the extraction of a body reads a structure: under the name of an attribute, or under the
kind of a block. -/
inductive Slot
  | attribute (name : String)
  | block (kind : String)
  deriving DecidableEq

/-- The slot of a structure. -/
def Structure.slot? : Structure → Option Slot
  | .attribute name _ => some (.attribute name)
  | .block kind _ _ => some (.block kind)

/-- Structures that differ in the order inside blocks, at any level below: the structures inside are
rearranged where they stand and then change places. -/
inductive Structure.Rearranged : Structure → Structure → Prop
  | attribute (name : String) (expr : Expr) :
      Rearranged (.attribute name expr) (.attribute name expr)
  | block (kind : String) (labels : List String) {inner middle inner' : Body}
      (inside : List.Forall₂ Rearranged inner middle)
      (shuffled : Body.Shuffled Structure.slot? middle inner') :
      Rearranged (.block kind labels inner) (.block kind labels inner')

/-- Bodies that differ in the order of structures, at any level: attributes of one name and blocks
of one kind that stand in the same body keep their order. -/
def Body.Rearranged (body body' : Body) : Prop :=
  ∃ middle, List.Forall₂ Structure.Rearranged body middle ∧
    Body.Shuffled Structure.slot? middle body'

/-- One level of reordering changes no entry of a config. -/
theorem lookup_extractAt_shuffled {body body' : Body}
    (h : Body.Shuffled Structure.slot? body body') (table : NestingTable) (depth : Nat)
    (key : String) :
    (extractAt table depth body).lookup key = (extractAt table depth body').lookup key := by
  have hblocks : body.blocksOf key = body'.blocksOf key := by
    rw [Body.blocksOf, Body.blocksOf, ← List.filterMap_eq_filter]
    refine h.blocks_filterMap_eq (.block key) fun b hb => ?_
    rw [Option.guard_eq_none_iff]
    exact decide_eq_false fun hk => hb (by rw [Structure.slot?, hk])
  have hattributes : valuesOf body.attributes key = valuesOf body'.attributes key :=
    h.attributes_filterMap_eq (.attribute key) fun name expr hname =>
      if_neg fun hk : name = key => hname (by rw [Structure.slot?, hk])
  rw [lookup_extractAt, lookup_extractAt, hblocks, Body.lastResolved?, Body.lastResolved?,
    hattributes]

section Inside

variable {body middle : Body}

theorem attributes_rearranged (h : List.Forall₂ Structure.Rearranged body middle) :
    body.attributes = middle.attributes := by
  induction h with
  | nil => rfl
  | cons hs _ ih =>
    cases hs with
    | «attribute» name expr => exact congrArg ((name, expr) :: ·) ih
    | block kind labels _ _ => exact ih

/-- What cannot tell the bodies of blocks apart from their reorderings cannot tell the blocks of a
kind apart either. -/
theorem map_blocksOf_rearranged {β : Type} (h : List.Forall₂ Structure.Rearranged body middle)
    (key : String) (f : Body → β)
    (hf : ∀ kind labels inner, Structure.block kind labels inner ∈ body →
      ∀ inner', Body.Rearranged inner inner' → f inner = f inner') :
    (body.blocksOf key).map (fun b => f b.body) =
      (Body.blocksOf middle key).map fun b => f b.body := by
  induction h with
  | nil => rfl
  | cons hs _ ih =>
    have hrest := ih fun kind labels inner hmem =>
      hf kind labels inner (List.mem_cons_of_mem _ hmem)
    cases hs with
    | «attribute» name expr => exact hrest
    | block kind labels inside shuffled =>
      have hinner := hf kind labels _ List.mem_cons_self _ ⟨_, inside, shuffled⟩
      simp only [Body.blocksOf, Body.blocks_block, List.filter_cons] at hrest ⊢
      split_ifs
      · rw [List.map_cons, List.map_cons, hrest, hinner]
      · exact hrest

end Inside

namespace Value

/-- Whether a value is a map without entries. -/
def isEmptyMap : Value → Bool
  | .map [] => true
  | _ => false

/-- The value that stands for the contents of sibling blocks. -/
def ofContents : List Value → Value
  | [] => .bool true
  | [content] => content
  | several => .list several

theorem isEmptyMap_sortKeys (c : Config) : (sortKeys (.map c)).isEmptyMap = c.isEmpty := by
  cases c with
  | nil => rfl
  | cons e rest =>
    have hlength := (perm_sortByKey (sortEntries (e :: rest))).length_eq
    rw [sortKeys, List.isEmpty_cons]
    cases h : sortByKey (sortEntries (e :: rest)) with
    | nil =>
      rw [h, sortEntries_eq_map] at hlength
      simp at hlength
    | cons => rfl

/-- The form of merged siblings depends on the forms of their maps only: emptiness, which decides
between a mark, a map and a list, is part of the form. -/
theorem sortKeys_ofSiblings (children : List Config) :
    (ofSiblings children).sortKeys =
      ofContents ((children.map fun c => sortKeys (.map c)).filter (!·.isEmptyMap)) := by
  have hcontent : (children.map fun c => sortKeys (.map c)).filter (!·.isEmptyMap) =
      (withContent children).map fun c => sortKeys (.map c) := by
    rw [List.filter_map, withContent]
    simp only [Function.comp_def, isEmptyMap_sortKeys]
  rw [hcontent, ofSiblings]
  rcases withContent children with _ | ⟨c, _ | ⟨d, rest⟩⟩
  · rfl
  · rfl
  · simp [sortKeys, sortItems_eq_map, ofContents]

end Value

/-- Reordering at every level changes a config only in the order of its entries. -/
theorem sortKeys_extractAt_rearranged (table : NestingTable) {body body' : Body}
    (h : body.Rearranged body') (depth : Nat) :
    Value.sortKeys (.map (extractAt table depth body)) =
      Value.sortKeys (.map (extractAt table depth body')) := by
  induction body using Body.induction generalizing body' depth with
  | step body ih =>
    obtain ⟨middle, hinside, hshuffled⟩ := h
    refine Value.sortKeys_map_congr (distinct_assemble _ _) (distinct_assemble _ _) fun key => ?_
    -- one level below, the forms of the maps of the followed blocks are the same one by one
    have hforms : (body.blocksOf key).map
          (fun b => Value.sortKeys (.map (extractAt table (depth + 1) b.body))) =
        (Body.blocksOf middle key).map
          fun b => Value.sortKeys (.map (extractAt table (depth + 1) b.body)) :=
      map_blocksOf_rearranged hinside key
        (fun inner => Value.sortKeys (.map (extractAt table (depth + 1) inner)))
        fun kind labels inner hmem inner' hinner => ih kind labels inner hmem hinner (depth + 1)
    have hnil : body.blocksOf key = [] ↔ Body.blocksOf middle key = [] := by
      rw [← List.map_eq_nil_iff, hforms, List.map_eq_nil_iff]
    rw [← lookup_extractAt_shuffled hshuffled, lookup_extractAt, lookup_extractAt,
      Body.lastResolved?, Body.lastResolved?, attributes_rearranged hinside]
    simp only [ne_eq, hnil]
    split_ifs
    · rw [Option.map_some, Option.map_some, Value.sortKeys_ofSiblings, Value.sortKeys_ofSiblings,
        List.map_map, List.map_map]
      exact congrArg (fun vs => some (Value.ofContents (vs.filter (!·.isEmptyMap)))) hforms
    · rfl

/-! ### Documents -/

/-- Where a document reads a top-level structure: in the list of resources, or under the name of an
output. -/
inductive TopSlot
  | resource
  | output (name : String)
  deriving DecidableEq

/-- The slot of a top-level structure. Variables say no more than their names and have none. -/
def Structure.topSlot? : Structure → Option TopSlot
  | .attribute .. => none
  | .block kind labels _ =>
    if kind = "resource" then some .resource
    else if kind = "output" then labels.head?.map .output
    else none

namespace Document

variable {body body' : Body}

theorem resources_shuffled (h : Body.Shuffled Structure.topSlot? body body')
    (table : NestingTable) : (ofBody table body).resources = (ofBody table body').resources := by
  rw [ofBody_eq, ofBody_eq]
  exact h.blocks_filterMap_eq .resource fun b hb => if_neg fun hk => hb (if_pos hk)

theorem lookup_outputs_shuffled (h : Body.Shuffled Structure.topSlot? body body')
    (table : NestingTable) (name : String) :
    (ofBody table body).outputs.lookup name = (ofBody table body').outputs.lookup name := by
  rw [ofBody_eq, ofBody_eq, lookup_ofEntries, lookup_ofEntries, valuesOf, valuesOf,
    List.filterMap_filterMap, List.filterMap_filterMap]
  refine congrArg List.getLast? (h.blocks_filterMap_eq (.output name) fun b hb => ?_)
  rw [Block.output?]
  split_ifs with hkind
  · cases hlabel : b.labels.head? with
    | none => rfl
    | some label =>
      refine if_neg fun hname => hb ?_
      rw [← show label = name from hname]
      simp [Structure.topSlot?, hkind, hlabel]
  · rfl

/-- Variables do not depend on the order of structures at all. -/
theorem lookup_inputs_perm (h : body.Perm body') (table : NestingTable) (name : String) :
    (ofBody table body).inputs.lookup name = (ofBody table body').inputs.lookup name := by
  have hkeys :
      name ∈ (ofBody table body).inputs.keys ↔ name ∈ (ofBody table body').inputs.keys := by
    rw [ofBody_eq, ofBody_eq, keys_ofEntries, keys_ofEntries, List.mem_eraseDups,
      List.mem_eraseDups]
    exact (((h.filterMap _).filterMap _).map _).mem_iff
  by_cases hk : name ∈ (ofBody table body).inputs.keys
  · obtain ⟨v, hv⟩ := Option.isSome_iff_exists.1 ((lookup_isSome _ _).2 hk)
    obtain ⟨w, hw⟩ := Option.isSome_iff_exists.1 ((lookup_isSome _ _).2 (hkeys.1 hk))
    rw [hv, hw, eq_of_lookup_inputs hv, eq_of_lookup_inputs hw]
  · rw [lookup_eq_none.2 hk, lookup_eq_none.2 (mt hkeys.2 hk)]

end Document

/-- **Order matters inside slots only.** If at every level the attributes of one name and the
blocks of one kind keep their order, then the configs are equal as values; the sorted forms are the
same even where a number is `nan`, which no configuration text contains and which is not equal to
itself. If at the top level the resource blocks and the output blocks of one name keep their order,
then the documents have the same list of resources and the same variables and outputs by name. -/
theorem reordering_invariant (table : NestingTable) :
    (∀ body body' : Body, body.Rearranged body' →
      Value.sortKeys (.map (extract table body)) = Value.sortKeys (.map (extract table body')) ∧
      ((∀ n ∈ body.numerals, n.toDouble ≠ .nan) →
        Value.equal (.map (extract table body)) (.map (extract table body')) = true)) ∧
    ∀ body body' : Body, Body.Shuffled Structure.topSlot? body body' →
      (Document.ofBody table body).resources = (Document.ofBody table body').resources ∧
      ∀ name,
        (Document.ofBody table body).inputs.lookup name =
          (Document.ofBody table body').inputs.lookup name ∧
        (Document.ofBody table body).outputs.lookup name =
          (Document.ofBody table body').outputs.lookup name := by
  refine ⟨fun body body' h => ?_, fun body body' h => ?_⟩
  · have hform := sortKeys_extractAt_rearranged table h 0
    refine ⟨hform, fun hn => ?_⟩
    exact Value.equal_of_sortKeys_eq (wellFormed_extractAt table 0 hn) hform
  · refine ⟨Document.resources_shuffled h table, fun name => ⟨?_, ?_⟩⟩
    · exact Document.lookup_inputs_perm h.perm table name
    · exact Document.lookup_outputs_shuffled h table name

/-- A rule with two attributes before the access list, and a rule without content. -/
def scatteredBody : Body :=
  [.block "rule" [] [.attribute "id" (.number (.whole 1)), .attribute "status" (.bool true)],
    .attribute "acl" (.string "private"), .block "rule" [] []]

/-- The access list first, and the attributes of the rule the other way round. -/
def gatheredBody : Body :=
  [.attribute "acl" (.string "private"),
    .block "rule" [] [.attribute "status" (.bool true), .attribute "id" (.number (.whole 1))],
    .block "rule" [] []]

theorem scatteredBody_rearranged : Body.Rearranged scatteredBody gatheredBody := by
  refine ⟨_, .cons (.block "rule" [] (.cons (.attribute _ _) (.cons (.attribute _ _) .nil))
    (.swap ?_ [] [])) (.cons (.attribute _ _) (.cons (.block "rule" [] .nil (.refl [])) .nil)),
    .swap ?_ [] _⟩
  · rintro slot ⟨⟩
    simp [Structure.slot?]
  · rintro slot ⟨⟩
    simp [Structure.slot?]

/-- A variable before a resource. -/
def variableFirst : Body :=
  [.block "variable" ["v"] [], .block "resource" ["t", "r"] scatteredBody]

/-- The resource before the variable. -/
def resourceFirst : Body :=
  [.block "resource" ["t", "r"] scatteredBody, .block "variable" ["v"] []]

theorem reordering_invariant_bodies :
    Body.Rearranged scatteredBody gatheredBody ∧
      (∀ n ∈ scatteredBody.numerals, n.toDouble ≠ .nan) ∧
      Value.equal (.map (extract .standard scatteredBody)) (.map (extract .standard gatheredBody)) =
        true ∧
      Body.Shuffled Structure.topSlot? variableFirst resourceFirst ∧
      (Document.ofBody .standard variableFirst).resources =
        (Document.ofBody .standard resourceFirst).resources := by
  obtain ⟨hconfigs, hdocuments⟩ := reordering_invariant .standard
  have hnumerals : ∀ n ∈ scatteredBody.numerals, n.toDouble ≠ .nan := by
    intro n hn
    rw [List.mem_singleton.1 (show n ∈ [Number.whole 1] from hn)]
    exact Double.ofInt_ne_nan 1
  have hshuffled : Body.Shuffled Structure.topSlot? variableFirst resourceFirst := by
    refine .swap ?_ [] []
    rintro slot ⟨⟩
  exact ⟨scatteredBody_rearranged, hnumerals,
    (hconfigs _ _ scatteredBody_rearranged).2 hnumerals, hshuffled, (hdocuments _ _ hshuffled).1⟩

end ConfigAudit
