import ConfigAudit.Extraction.Basic
import ConfigAudit.Proofs.OrderedMaps
import ConfigAudit.Proofs.Siblings
import Mathlib.Data.List.Basic

/-!
# What an extracted map holds

`extractAt_eq` is the recursion of extraction over the block tree: a map is assembled from the
attributes of a body and from the maps of its followed children one level below. What is found in it
under a key then depends on two lists only, the children of that kind and the attributes of that
name.

* `lookup_assemble`: the children of a kind hide the attributes of the same name;
* `valuesOf_followedChildren`: which children a table leaves over;
* `keys_extractAt`: the keys and their order;
* `extractAt_answers`: what is found under every key.

`Body.induction` is the induction over the block tree that the recursion calls for.
-/

namespace ConfigAudit

open OrderedMap

/-- The blocks of a kind, in source order. -/
def Body.blocksOf (body : Body) (kind : String) : List Block :=
  body.blocks.filter fun b => b.kind = kind

/-- What the last attribute with a name resolves to, among those that resolve. -/
def Body.lastResolved? (body : Body) (name : String) : Option Value :=
  ((valuesOf body.attributes name).filterMap Expr.resolve?).getLast?

/-! ### The recursion over the block tree -/

/-- Induction over the block tree: to prove something of a body, assume it of the bodies of its
blocks. -/
theorem Body.induction {motive : Body → Prop}
    (step : ∀ body : Body,
      (∀ kind labels inner, Structure.block kind labels inner ∈ body → motive inner) → motive body)
    (body : Body) : motive body :=
  step body fun _ _ inner _ => Body.induction step inner
termination_by sizeOf body
decreasing_by
  rename_i hmem
  have := List.sizeOf_lt_of_mem hmem
  simp only [Structure.block.sizeOf_spec] at this
  omega

theorem Body.mem_blocks {body : Body} {b : Block} :
    b ∈ body.blocks ↔ Structure.block b.kind b.labels b.body ∈ body := by
  rw [Body.blocks, List.mem_filterMap]
  constructor
  · rintro ⟨⟨name, expr⟩ | ⟨kind, labels, inner⟩, hmem, hs⟩
    · cases hs
    · cases hs
      exact hmem
  · intro hmem
    exact ⟨_, hmem, rfl⟩

theorem Body.mem_attributes {body : Body} {name : String} {expr : Expr} :
    (name, expr) ∈ body.attributes ↔ Structure.attribute name expr ∈ body := by
  rw [Body.attributes, List.mem_filterMap]
  constructor
  · rintro ⟨⟨name', expr'⟩ | ⟨kind, labels, inner⟩, hmem, hs⟩
    · cases hs
      exact hmem
    · cases hs
  · intro hmem
    exact ⟨_, hmem, rfl⟩

/-- The entry of an attribute that resolves. -/
def Structure.entry? : Structure → Option (String × Value)
  | .attribute name expr => expr.resolve?.map (name, ·)
  | .block .. => none

theorem attributeEntries_eq_filterMap (body : Body) :
    attributeEntries body = body.filterMap Structure.entry? := by
  rw [attributeEntries, Body.attributes, List.filterMap_filterMap]
  refine List.filterMap_congr fun s _ => ?_
  cases s <;> rfl

theorem followedChild_block (table : NestingTable) (depth : Nat) (kind : String)
    (labels : List String) (inner : Body) :
    followedChild table depth (.block kind labels inner) =
      if table.follows kind depth then some (kind, extractAt table depth inner) else none := by
  rw [followedChild]
  rfl

theorem followedChildren_eq_filterMap (table : NestingTable) (depth : Nat) (body : Body) :
    followedChildren table depth body = body.filterMap (followedChild table depth) := by
  induction body with
  | nil => rfl
  | cons s rest ih =>
    rw [followedChildren, List.filterMap_cons, ih]
    cases followedChild table depth s <;> rfl

theorem followedChildren_eq (table : NestingTable) (depth : Nat) (body : Body) :
    followedChildren table depth body =
      body.blocks.filterMap fun b =>
        if table.follows b.kind depth then some (b.kind, extractAt table depth b.body)
        else none := by
  rw [followedChildren_eq_filterMap, Body.blocks, List.filterMap_filterMap]
  refine List.filterMap_congr fun s _ => ?_
  rcases s with ⟨name, expr⟩ | ⟨kind, labels, inner⟩
  · rfl
  · exact followedChild_block table depth kind labels inner

/-- A map is assembled from the maps of the followed children one level below. -/
theorem extractAt_eq (table : NestingTable) (depth : Nat) (body : Body) :
    extractAt table depth body =
      assemble body (body.blocks.filterMap fun b =>
        if table.follows b.kind (depth + 1) then some (b.kind, extractAt table (depth + 1) b.body)
        else none) := by
  rw [extractAt, followedChildren_eq]

/-- The maps of the children of a kind: of all blocks of the kind where it is followed, or none. -/
theorem valuesOf_followedChildren (table : NestingTable) (depth : Nat) (body : Body)
    (kind : String) :
    valuesOf (followedChildren table depth body) kind =
      if table.follows kind depth then
        (body.blocksOf kind).map fun b => extractAt table depth b.body
      else [] := by
  rw [followedChildren_eq, Body.blocksOf]
  induction body.blocks with
  | nil => simp
  | cons b rest ih =>
    rw [List.filterMap_cons, List.filter_cons]
    by_cases hk : b.kind = kind
    · subst hk
      by_cases hf : table.follows b.kind depth
      · simp only [hf, if_true] at ih ⊢
        simp [valuesOf_cons, ih]
      · simp only [hf] at ih ⊢
        simpa using ih
    · by_cases hf : table.follows b.kind depth
      · simp [hf, hk, valuesOf_cons, ih]
      · simp [hf, hk, ih]

/-! ### Merging siblings -/

theorem groupSiblings_append_singleton (children : List (String × Config))
    (child : String × Config) :
    groupSiblings (children ++ [child]) =
      (groupSiblings children).alter child.1 fun old => (old.getD .absent).absorb child.2 := by
  rw [groupSiblings, List.foldl_append]
  rfl

theorem distinct_groupSiblings (children : List (String × Config)) :
    (groupSiblings children).Distinct := by
  induction children using List.reverseRecOn with
  | nil => exact distinct_nil
  | append_singleton children child ih =>
    rw [groupSiblings_append_singleton, alter]
    exact ih.insert _ _

/-- Every kind that occurs is bound to what its children amount to. -/
theorem lookup_groupSiblings (children : List (String × Config)) (kind : String) :
    (groupSiblings children).lookup kind =
      if valuesOf children kind = [] then none
      else some (Siblings.ofChildren (valuesOf children kind)) := by
  induction children using List.reverseRecOn with
  | nil => rfl
  | append_singleton children child ih =>
    rw [groupSiblings_append_singleton, lookup_alter, valuesOf_append, ih]
    -- the last child only matters to its own kind
    by_cases hk : child.1 = kind
    · have hlast : valuesOf [child] kind = [child.2] := by simp [valuesOf_cons, hk]
      have hne : valuesOf children kind ++ [child.2] ≠ [] := by simp
      rw [if_pos hk, hlast, if_neg hne, Siblings.ofChildren_append_singleton]
      split_ifs with hnil
      · rw [hnil]
        rfl
      · rfl
    · have hlast : valuesOf [child] kind = [] := by simp [valuesOf_cons, hk]
      rw [if_neg hk, hlast, List.append_nil]

/-- Kinds stand in the order of their first occurrences. -/
theorem keys_groupSiblings (children : List (String × Config)) :
    (groupSiblings children).keys = (keys children).eraseDups := by
  induction children using List.reverseRecOn with
  | nil => rfl
  | append_singleton children child ih =>
    have hkeys : keys (children ++ [child]) = keys children ++ [child.1] := List.map_append
    rw [groupSiblings_append_singleton, alter, keys_insert, ih, hkeys, eraseDups_append_singleton]
    simp only [List.mem_eraseDups]

/-- No kind is bound to the absence of blocks. -/
theorem value?_isSome_of_mem_groupSiblings {children : List (String × Config)}
    {group : String × Siblings} (h : group ∈ groupSiblings children) : group.2.value?.isSome := by
  have hlookup := (distinct_groupSiblings children).lookup_eq_some.2 h
  rw [lookup_groupSiblings] at hlookup
  split_ifs at hlookup with hnil
  rw [← Option.some.inj hlookup, Siblings.value?_ofChildren hnil, Option.isSome_some]

theorem keys_siblingEntries (children : List (String × Config)) :
    keys (siblingEntries (groupSiblings children)) = (keys children).eraseDups := by
  rw [← keys_groupSiblings]
  exact keys_filterMap_of_isSome Siblings.value? fun _ => value?_isSome_of_mem_groupSiblings

/-- The entries of merged siblings: one for every kind that occurs. -/
theorem valuesOf_siblingEntries (children : List (String × Config)) (kind : String) :
    valuesOf (siblingEntries (groupSiblings children)) kind =
      if valuesOf children kind = [] then [] else [Value.ofSiblings (valuesOf children kind)] := by
  have hgroups := (distinct_groupSiblings children).valuesOf_eq kind
  rw [lookup_groupSiblings] at hgroups
  have hentries := valuesOf_filterMap Siblings.value? (groupSiblings children) kind
  rw [hgroups] at hentries
  refine hentries.trans ?_
  -- a kind is never bound to the absence of blocks, so every kind that occurs has a value
  split_ifs with hnil
  · rfl
  · rw [Option.toList_some, List.filterMap_cons_some (Siblings.value?_ofChildren hnil),
      List.filterMap_nil]

/-! ### Assembled maps -/

theorem valuesOf_attributeEntries (body : Body) (name : String) :
    valuesOf (attributeEntries body) name =
      (valuesOf body.attributes name).filterMap Expr.resolve? :=
  valuesOf_filterMap Expr.resolve? body.attributes name

theorem distinct_assemble (body : Body) (children : List (String × Config)) :
    (assemble body children).Distinct := (distinct_ofEntries _).merge _

/-- The children of a kind hide the attributes of the same name. -/
theorem lookup_assemble (body : Body) (children : List (String × Config)) (key : String) :
    (assemble body children).lookup key =
      if valuesOf children key = [] then body.lastResolved? key
      else some (Value.ofSiblings (valuesOf children key)) := by
  rw [assemble, lookup_merge, lookup_ofEntries, valuesOf_siblingEntries, valuesOf_attributeEntries]
  split_ifs <;> rfl

/-- First the names of attributes that resolve, then the kinds of children that are no such names,
each where it occurs first. -/
theorem keys_assemble (body : Body) (children : List (String × Config)) :
    (assemble body children).keys =
      (keys (attributeEntries body)).eraseDups ++
        (keys children).eraseDups.filter fun kind => kind ∉ keys (attributeEntries body) := by
  have happend : keys (attributeEntries body ++ siblingEntries (groupSiblings children)) =
      keys (attributeEntries body) ++ (keys children).eraseDups := by
    rw [← keys_siblingEntries]
    exact List.map_append
  rw [assemble, ← ofEntries_append, keys_ofEntries, happend, List.eraseDups_append,
    List.removeAll, eraseDups_filter, eraseDups_eraseDups]
  simp only [List.contains_eq_mem, decide_not]

theorem keys_followedChildren (table : NestingTable) (depth : Nat) (body : Body) :
    keys (followedChildren table depth body) =
      (body.blocks.map Block.kind).filter (table.follows · depth) := by
  rw [followedChildren_eq]
  induction body.blocks with
  | nil => rfl
  | cons b rest ih =>
    rw [List.filterMap_cons, List.map_cons, List.filter_cons, ← ih]
    split_ifs <;> rfl

/-- The keys of an extracted map: the names of attributes that resolve and, if they are no such
names, the kinds of followed blocks. -/
theorem keys_extractAt (table : NestingTable) (depth : Nat) (body : Body) :
    (extractAt table depth body).keys =
      (keys (attributeEntries body)).eraseDups ++
        ((body.blocks.map Block.kind).eraseDups.filter (table.follows · (depth + 1))).filter
          fun kind => kind ∉ keys (attributeEntries body) := by
  rw [extractAt, keys_assemble, keys_followedChildren, eraseDups_filter]

/-- Where a kind is followed, its blocks decide; elsewhere the attributes do. -/
theorem lookup_extractAt (table : NestingTable) (depth : Nat) (body : Body) (key : String) :
    (extractAt table depth body).lookup key =
      if table.follows key (depth + 1) ∧ body.blocksOf key ≠ [] then
        some (Value.ofSiblings
          ((body.blocksOf key).map fun b => extractAt table (depth + 1) b.body))
      else body.lastResolved? key := by
  rw [extractAt, lookup_assemble, valuesOf_followedChildren]
  by_cases hf : table.follows key (depth + 1)
  · by_cases hb : body.blocksOf key = []
    · simp [hf, hb]
    · simp [hf, hb]
  · simp [hf]

/-- **What an extracted map answers.** Its keys are distinct, and every key is answered by the
merged blocks of that kind if there are any that the table follows, and otherwise by the last
attribute of that name that resolves. Nothing else is a key. -/
theorem extractAt_answers (table : NestingTable) (depth : Nat) (body : Body) :
    (extractAt table depth body).Distinct ∧ ∀ key,
      (extractAt table depth body).lookup key =
        (if table.follows key (depth + 1) ∧ body.blocksOf key ≠ [] then
          some (Value.ofSiblings
            ((body.blocksOf key).map fun b => extractAt table (depth + 1) b.body))
        else body.lastResolved? key) ∧
      (key ∈ (extractAt table depth body).keys ↔
        (table.follows key (depth + 1) ∧ body.blocksOf key ≠ []) ∨
          ∃ expr ∈ valuesOf body.attributes key, expr.resolve?.isSome) := by
  refine ⟨distinct_assemble _ _, fun key => ⟨lookup_extractAt table depth body key, ?_⟩⟩
  rw [← lookup_isSome, lookup_extractAt]
  split_ifs with h
  · simp [h]
  · simp [h, Body.lastResolved?]

end ConfigAudit
