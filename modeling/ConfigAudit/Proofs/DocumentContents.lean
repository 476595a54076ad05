import ConfigAudit.Proofs.Documents
import ConfigAudit.Proofs.Extraction
import Mathlib.Data.List.Forall2

/-!
# What a document holds

A document is said entry by entry, without a run over the blocks:

* one resource for every `resource` block with exactly two labels, in source order;
* one variable for every name of `variable` blocks, where the name occurs first;
* one output for every name of `output` blocks, where the name occurs first, from the last block of
  that name.

`ofBody_contents` is this list; nothing else of a body enters, further labels included.
-/

namespace ConfigAudit

open OrderedMap

/-- What a resource says of its block. -/
structure Resource.Describes (table : NestingTable) (b : Block) (r : Resource) : Prop where
  labels : b.labels = [r.type, r.name]
  address : r.address = r.type ++ "." ++ r.name
  config : r.config = extract table b.body

namespace Body

/-- The blocks of a kind that have a name, which is their first label, in source order. -/
def named (body : Body) (kind : String) : List (String × Block) :=
  (body.blocksOf kind).filterMap fun b => b.labels.head?.map fun name => (name, b)

/-- The names of the blocks of a kind, each where it occurs first. -/
def names (body : Body) (kind : String) : List String := (keys (body.named kind)).eraseDups

/-- The last block of a kind with a name. -/
def lastNamed? (body : Body) (kind name : String) : Option Block :=
  (valuesOf (body.named kind) name).getLast?

end Body

/-- A `variable` or `output` block with its name as the only label. -/
def Structure.onlyNamed : Structure → Structure
  | .attribute name expr => .attribute name expr
  | .block kind labels inner =>
    if kind = "variable" ∨ kind = "output" then .block kind (labels.take 1) inner
    else .block kind labels inner

namespace OrderedMap

variable {α β : Type}

/-- A map with distinct keys, entry by entry. -/
theorem Distinct.forall₂_keys {m : OrderedMap α} (h : m.Distinct) :
    List.Forall₂ (fun key e => e.1 = key ∧ m.lookup key = some e.2) m.keys m := by
  rw [OrderedMap.keys, List.forall₂_map_left_iff, List.forall₂_same]
  exact fun e he => ⟨rfl, h.lookup_eq_some.2 he⟩

/-- The map of entries that are made from others, key by key: every key where it occurs first, with
what is made from its last value. -/
theorem forall₂_ofEntries (f : String → α → β) (entries : List (String × α)) :
    List.Forall₂ (fun key e => e.1 = key ∧
        ∃ a, (valuesOf entries key).getLast? = some a ∧ e.2 = f key a)
      (keys entries).eraseDups (ofEntries (entries.map fun e => (e.1, f e.1 e.2))) := by
  have hkeys : (ofEntries (entries.map fun e => (e.1, f e.1 e.2))).keys =
      (keys entries).eraseDups := by
    rw [keys_ofEntries, keys_mapEntries]
  rw [← hkeys]
  refine (distinct_ofEntries _).forall₂_keys.imp fun key e he => ⟨he.1, ?_⟩
  have hlookup := he.2
  rw [lookup_ofEntries, valuesOf_mapEntries, List.getLast?_map, Option.map_eq_some_iff] at hlookup
  obtain ⟨a, ha, hf⟩ := hlookup
  exact ⟨a, ha, hf.symm⟩

end OrderedMap

namespace Block

theorem describes_of_resource? {table : NestingTable} {b : Block} {r : Resource}
    (h : b.resource? table = some r) : r.Describes table b := by
  unfold resource? at h
  split_ifs at h
  split at h
  · rename_i type name hlabels
    cases h
    exact ⟨hlabels, rfl, rfl⟩
  · cases h

theorem isSome_resource? (table : NestingTable) (b : Block) :
    (b.resource? table).isSome ↔ b.kind = "resource" ∧ b.labels.length = 2 := by
  unfold resource?
  split_ifs with hkind
  · rcases hlabels : b.labels with _ | ⟨type, _ | ⟨name, _ | ⟨third, rest⟩⟩⟩ <;> simp [hkind]
  · simp [hkind]

end Block

namespace Document

/-- The resources, block by block. -/
theorem forall₂_resources (table : NestingTable) (body : Body) :
    List.Forall₂ (Resource.Describes table)
      ((body.blocksOf "resource").filter fun b => b.labels.length = 2)
      (ofBody table body).resources := by
  rw [ofBody_eq, Body.blocksOf, List.filter_filter]
  induction body.blocks with
  | nil => exact .nil
  | cons b rest ih =>
    rw [List.filter_cons]
    cases hr : b.resource? table with
    | none =>
      have hskip : ¬(b.kind = "resource" ∧ b.labels.length = 2) := by
        rw [← Block.isSome_resource? table b, hr]
        exact Bool.false_ne_true
      rw [List.filterMap_cons_none hr, if_neg (by simpa [and_comm] using hskip)]
      exact ih
    | some r =>
      have hkept : b.kind = "resource" ∧ b.labels.length = 2 := by
        rw [← Block.isSome_resource? table b, hr]
        rfl
      rw [List.filterMap_cons_some hr, if_pos (by simp [hkept])]
      exact .cons (Block.describes_of_resource? hr) ih

/-- What the named blocks of a kind contribute. -/
theorem filterMap_named {α : Type} (kind : String) (f : String → Block → α) (body : Body) :
    (body.blocks.filterMap fun b =>
      if b.kind = kind then b.labels.head?.map fun name => (name, f name b) else none) =
    (body.named kind).map fun e => (e.1, f e.1 e.2) := by
  rw [Body.named, Body.blocksOf, List.filterMap_filter, List.map_filterMap]
  refine List.filterMap_congr fun b _ => ?_
  by_cases hkind : b.kind = kind
  · simp [hkind, Function.comp_def]
  · simp [hkind]

theorem forall₂_inputs (table : NestingTable) (body : Body) :
    List.Forall₂ (fun name e => e.1 = name ∧ e.2.name = name)
      (body.names "variable") (ofBody table body).inputs := by
  rw [ofBody_eq, Body.names]
  have hinputs := filterMap_named "variable" (fun name _ => Variable.mk name) body
  have hentries := forall₂_ofEntries (fun name _ => Variable.mk name) (body.named "variable")
  rw [← hinputs] at hentries
  refine hentries.imp fun name e he => ⟨he.1, ?_⟩
  obtain ⟨-, b, -, hvariable⟩ := he
  rw [hvariable]

theorem forall₂_outputs (table : NestingTable) (body : Body) :
    List.Forall₂ (fun name e => e.1 = name ∧ e.2.name = name ∧
        ∃ b, body.lastNamed? "output" name = some b ∧ e.2 = Output.ofBody name b.body)
      (body.names "output") (ofBody table body).outputs := by
  rw [ofBody_eq, Body.names]
  have houtputs := filterMap_named "output" (fun name b => Output.ofBody name b.body) body
  have hentries := forall₂_ofEntries (fun name b => Output.ofBody name b.body) (body.named "output")
  rw [← houtputs] at hentries
  refine hentries.imp fun name e he => ⟨he.1, ?_, he.2⟩
  obtain ⟨-, b, -, houtput⟩ := he
  rw [houtput]
  rfl

/-- What a part of a document reads from a block is read without the labels that are dropped. -/
theorem filterMap_onlyNamed {β : Type} {f : Block → Option β}
    (hf : ∀ kind labels inner, kind = "variable" ∨ kind = "output" →
      f ⟨kind, labels.take 1, inner⟩ = f ⟨kind, labels, inner⟩) (body : Body) :
    (Body.blocks (body.map Structure.onlyNamed)).filterMap f = body.blocks.filterMap f := by
  rw [Body.blocks, Body.blocks, List.filterMap_filterMap, List.filterMap_filterMap,
    List.filterMap_map]
  refine List.filterMap_congr fun s _ => ?_
  rcases s with ⟨name, expr⟩ | ⟨kind, labels, inner⟩
  · rfl
  · rw [Function.comp_apply, Structure.onlyNamed]
    split_ifs with hkind
    · exact hf kind labels inner hkind
    · rfl

/-- Labels of variables and outputs after the first are ignored. -/
theorem ofBody_onlyNamed (table : NestingTable) (body : Body) :
    ofBody table (body.map Structure.onlyNamed) = ofBody table body := by
  rw [ofBody_eq, ofBody_eq]
  congr 1
  · refine filterMap_onlyNamed (fun kind labels inner hkind => ?_) body
    rcases hkind with rfl | rfl <;> rfl
  · refine congrArg ofEntries (filterMap_onlyNamed (fun kind labels inner _ => ?_) body)
    cases labels <;> rfl
  · refine congrArg ofEntries (filterMap_onlyNamed (fun kind labels inner _ => ?_) body)
    cases labels <;> rfl

/-- **What a document holds.** Its resources are, in source order, those that the `resource` blocks
with exactly two labels describe. Its variables are the names of the `variable` blocks and its
outputs those of the `output` blocks, each name once and where it occurs first; every output is that
of the last block of its name. Further labels of variables and outputs are ignored. -/
theorem ofBody_contents (table : NestingTable) (body : Body) :
    List.Forall₂ (Resource.Describes table)
      ((body.blocksOf "resource").filter fun b => b.labels.length = 2)
      (ofBody table body).resources ∧
    List.Forall₂ (fun name e => e.1 = name ∧ e.2.name = name)
      (body.names "variable") (ofBody table body).inputs ∧
    List.Forall₂ (fun name e => e.1 = name ∧ e.2.name = name ∧
        ∃ b, body.lastNamed? "output" name = some b ∧ e.2 = Output.ofBody name b.body)
      (body.names "output") (ofBody table body).outputs ∧
    ofBody table (body.map Structure.onlyNamed) = ofBody table body :=
  ⟨forall₂_resources table body, forall₂_inputs table body, forall₂_outputs table body,
    ofBody_onlyNamed table body⟩

end Document

end ConfigAudit
