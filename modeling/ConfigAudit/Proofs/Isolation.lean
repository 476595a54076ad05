import ConfigAudit.Proofs.Extraction
import ConfigAudit.Proofs.Merging

/-!
# Isolation

Extraction is best effort: what cannot be used is left out, and nothing else suffers from it.

* `ofBody_insert_skipped`: structures that a document takes no notice of may come and go;
* `ofBody_replace_resource`: the body of a resource block matters to the config of this resource
  only;
* `lookup_extract_attribute_of_ne`, `lookup_extract_attribute_hidden` and
  `lookup_extract_attribute_once`: the expression of an attribute matters to the entry of its name
  only, and to none if a followed block hides it;
* `best_effort_isolation`: all of this for documents.
-/

namespace ConfigAudit

open OrderedMap

/-- Top-level structures that a document takes no notice of. -/
inductive Structure.Skipped : Structure → Prop
  | rootAttribute (name : String) (expr : Expr) : Skipped (.attribute name expr)
  | otherKind (kind : String) (labels : List String) (body : Body)
      (resource : kind ≠ "resource") (input : kind ≠ "variable") (output : kind ≠ "output") :
      Skipped (.block kind labels body)
  | labelCount (labels : List String) (body : Body) (count : labels.length ≠ 2) :
      Skipped (.block "resource" labels body)
  | unnamedVariable (body : Body) : Skipped (.block "variable" [] body)
  | unnamedOutput (body : Body) : Skipped (.block "output" [] body)

/-- A body with a resource block at some place. -/
def Body.withResource (before : Body) (type name : String) (inner after : Body) : Body :=
  before ++ .block "resource" [type, name] inner :: after

namespace Document

/-- Two documents that differ at most in the config of one resource. -/
def ConfigReplaced (d d' : Document) (position : Nat) (config config' : Config) : Prop :=
  ∃ type name, d.resources[position]? = some (.named type name config) ∧
    d' = { d with resources := d.resources.set position (.named type name config') }

/-! ### Skipped structures -/

theorem ofBody_skipped (table : NestingTable) {s : Structure} (h : s.Skipped) :
    ofBody table [s] = empty := by
  cases h with
  | rootAttribute name expr => rfl
  | otherKind kind labels body hresource hinput houtput =>
    rw [ofBody, Body.blocks_block, Body.blocks_nil, List.foldl_cons, List.foldl_nil, addBlock_eq]
    simp [Block.resource?, Block.input?, Block.output?, hresource, hinput, houtput, empty]
  | labelCount labels body hcount =>
    rw [ofBody, Body.blocks_block, Body.blocks_nil, List.foldl_cons, List.foldl_nil, addBlock_eq]
    rcases labels with _ | ⟨type, _ | ⟨name, _ | ⟨third, rest⟩⟩⟩
    · simp [Block.resource?, Block.input?, Block.output?, empty]
    · simp [Block.resource?, Block.input?, Block.output?, empty]
    · exact absurd rfl hcount
    · simp [Block.resource?, Block.input?, Block.output?, empty]
  | unnamedVariable body => rfl
  | unnamedOutput body => rfl

/-- A skipped structure may stand anywhere. -/
theorem ofBody_insert_skipped (table : NestingTable) (before after : Body) {s : Structure}
    (h : s.Skipped) : ofBody table (before ++ s :: after) = ofBody table (before ++ after) := by
  rw [List.append_cons, ofBody_append, ofBody_append, ofBody_skipped table h, merge_empty,
    ← ofBody_append]

/-! ### Resource bodies -/

theorem ofBody_resource (table : NestingTable) (type name : String) (inner : Body) :
    ofBody table [.block "resource" [type, name] inner] =
      ⟨[.named type name (extract table inner)], [], []⟩ := rfl

/-- The resource of a block stands between those before and those after it. -/
theorem ofBody_withResource (table : NestingTable) (before after : Body) (type name : String)
    (inner : Body) :
    ofBody table (before.withResource type name inner after) =
      ⟨(ofBody table before).resources ++
          .named type name (extract table inner) :: (ofBody table after).resources,
        (ofBody table before).inputs.merge (ofBody table after).inputs,
        (ofBody table before).outputs.merge (ofBody table after).outputs⟩ := by
  rw [Body.withResource, List.append_cons, ofBody_append, ofBody_append, ofBody_resource]
  simp [merge]

/-- Another body of a resource block changes the config of this resource and nothing else. -/
theorem ofBody_replace_resource (table : NestingTable) (before after : Body) (type name : String)
    (inner inner' : Body) :
    ConfigReplaced (ofBody table (before.withResource type name inner after))
      (ofBody table (before.withResource type name inner' after))
      (ofBody table before).resources.length (extract table inner) (extract table inner') := by
  refine ⟨type, name, ?_, ?_⟩
  · rw [ofBody_withResource]
    simp
  · rw [ofBody_withResource, ofBody_withResource]
    simp

end Document

/-! ### Attributes of resource bodies -/

section Attributes

variable (pre post : Body) (key : String) (e : Expr)

theorem blocksOf_attribute (kind : String) :
    Body.blocksOf (pre ++ .attribute key e :: post) kind = Body.blocksOf (pre ++ post) kind := by
  rw [Body.blocksOf, Body.blocksOf, Body.blocks_append, Body.blocks_append, Body.blocks_attribute]

theorem valuesOf_attribute (name : String) :
    valuesOf (Body.attributes (pre ++ .attribute key e :: post)) name =
      valuesOf pre.attributes name ++ (if key = name then [e] else []) ++
        valuesOf post.attributes name := by
  have hcons : Body.attributes (.attribute key e :: post) = (key, e) :: post.attributes := rfl
  rw [Body.attributes_append, hcons, valuesOf_append, valuesOf_cons]
  split_ifs
  · rw [List.append_assoc, List.singleton_append]
  · rw [List.append_nil]

/-- An attribute does not matter to what other names resolve to. -/
theorem lastResolved?_attribute_of_ne {name : String} (h : name ≠ key) :
    Body.lastResolved? (pre ++ .attribute key e :: post) name =
      Body.lastResolved? (pre ++ post) name := by
  rw [Body.lastResolved?, Body.lastResolved?, valuesOf_attribute, if_neg (Ne.symm h),
    List.append_nil, ← valuesOf_append, ← Body.attributes_append]

/-- An attribute whose name is not repeated decides what its name resolves to. -/
theorem lastResolved?_attribute_once (h : key ∉ keys (Body.attributes (pre ++ post))) :
    Body.lastResolved? (pre ++ .attribute key e :: post) key = e.resolve? := by
  have hnil : valuesOf pre.attributes key ++ valuesOf post.attributes key = [] := by
    rw [← valuesOf_append, ← Body.attributes_append]
    by_contra hne
    exact h (valuesOf_ne_nil.1 hne)
  obtain ⟨hpre, hpost⟩ := List.append_eq_nil_iff.1 hnil
  rw [Body.lastResolved?, valuesOf_attribute, if_pos rfl, hpre, hpost]
  cases he : e.resolve? <;> simp [he]

variable (table : NestingTable)

theorem lookup_extract_attribute_of_ne {name : String} (h : name ≠ key) :
    (extract table (pre ++ .attribute key e :: post)).lookup name =
      (extract table (pre ++ post)).lookup name := by
  rw [extract, extract, lookup_extractAt, lookup_extractAt, blocksOf_attribute,
    lastResolved?_attribute_of_ne pre post key e h]

theorem lookup_extract_attribute_hidden (hfollows : table.follows key 1)
    (hblocks : Body.blocksOf (pre ++ post) key ≠ []) :
    (extract table (pre ++ .attribute key e :: post)).lookup key =
      (extract table (pre ++ post)).lookup key := by
  rw [extract, extract, lookup_extractAt, lookup_extractAt, blocksOf_attribute,
    if_pos ⟨hfollows, hblocks⟩, if_pos ⟨hfollows, hblocks⟩]

theorem lookup_extract_attribute_once (h : key ∉ keys (Body.attributes (pre ++ post)))
    (hblocks : ¬(table.follows key 1 ∧ Body.blocksOf (pre ++ post) key ≠ [])) :
    (extract table (pre ++ .attribute key e :: post)).lookup key = e.resolve? := by
  rw [extract, lookup_extractAt, blocksOf_attribute, if_neg hblocks,
    lastResolved?_attribute_once pre post key e h]

end Attributes

namespace Document

/-- **Best-effort isolation.** At every place of every body,

* skipped structures may be inserted or deleted without any effect;
* another body of a resource block changes the config of this resource only;
* another expression of an attribute in a resource body changes at most the entry of its name in
  this config, and not even that one if a followed block is of this kind. Otherwise, if the name is
  not repeated, the entry is what the expression resolves to. -/
theorem best_effort_isolation (table : NestingTable) (before after : Body) :
    (∀ s : Structure, s.Skipped →
      ofBody table (before ++ s :: after) = ofBody table (before ++ after)) ∧
    ∀ type name : String,
      (∀ inner inner' : Body,
        ConfigReplaced (ofBody table (before.withResource type name inner after))
          (ofBody table (before.withResource type name inner' after))
          (ofBody table before).resources.length (extract table inner) (extract table inner')) ∧
      ∀ (pre post : Body) (key : String) (e e' : Expr), ∃ config config' : Config,
        ConfigReplaced
          (ofBody table (before.withResource type name (pre ++ .attribute key e :: post) after))
          (ofBody table (before.withResource type name (pre ++ .attribute key e' :: post) after))
          (ofBody table before).resources.length config config' ∧
        (∀ k, k ≠ key → config'.lookup k = config.lookup k) ∧
        (table.follows key 1 → Body.blocksOf (pre ++ post) key ≠ [] →
          ∀ k, config'.lookup k = config.lookup k) ∧
        (key ∉ keys (Body.attributes (pre ++ post)) →
          ¬(table.follows key 1 ∧ Body.blocksOf (pre ++ post) key ≠ []) →
          config.lookup key = e.resolve? ∧ config'.lookup key = e'.resolve?) := by
  refine ⟨fun s h => ofBody_insert_skipped table before after h, fun type name => ⟨?_, ?_⟩⟩
  · intro inner inner'
    exact ofBody_replace_resource table before after type name inner inner'
  · intro pre post key e e'
    refine ⟨_, _, ofBody_replace_resource table before after type name _ _, ?_, ?_, ?_⟩
    · intro k hk
      rw [lookup_extract_attribute_of_ne pre post key e' table hk,
        lookup_extract_attribute_of_ne pre post key e table hk]
    · intro hfollows hblocks k
      by_cases hk : k = key
      · subst hk
        rw [lookup_extract_attribute_hidden pre post k e' table hfollows hblocks,
          lookup_extract_attribute_hidden pre post k e table hfollows hblocks]
      · rw [lookup_extract_attribute_of_ne pre post key e' table hk,
          lookup_extract_attribute_of_ne pre post key e table hk]
    · intro honce hblocks
      exact ⟨lookup_extract_attribute_once pre post key e table honce hblocks,
        lookup_extract_attribute_once pre post key e' table honce hblocks⟩

/-- At the end of the two texts: a resource without a name, an attribute `versioning` beside a block
of this kind, and an attribute `acl` that stands alone. -/
theorem best_effort_isolation_twoTexts :
    (Structure.block "resource" ["logs"] []).Skipped ∧
      ofBody .standard (twoBodies.flatten ++ [.block "resource" ["logs"] []]) =
        ofBody .standard (twoBodies.flatten ++ []) ∧
      NestingTable.standard.follows "versioning" 1 ∧
      (∃ config config' : Config,
        ConfigReplaced
          (ofBody .standard (Body.withResource twoBodies.flatten "bucket" "logs"
            [.attribute "versioning" .null, .block "versioning" [] []] []))
          (ofBody .standard (Body.withResource twoBodies.flatten "bucket" "logs"
            [.attribute "versioning" (.variable "v"), .block "versioning" [] []] []))
          (ofBody .standard twoBodies.flatten).resources.length config config' ∧
        ∀ k, config'.lookup k = config.lookup k) ∧
      ∃ config config' : Config,
        ConfigReplaced
          (ofBody .standard (Body.withResource twoBodies.flatten "bucket" "logs"
            [.attribute "acl" .null] []))
          (ofBody .standard (Body.withResource twoBodies.flatten "bucket" "logs"
            [.attribute "acl" (.call "f" [])] []))
          (ofBody .standard twoBodies.flatten).resources.length config config' ∧
        (∀ k, k ≠ "acl" → config'.lookup k = config.lookup k) ∧
        config.lookup "acl" = some .null ∧ config'.lookup "acl" = none := by
  have hskipped : (Structure.block "resource" ["logs"] []).Skipped :=
    .labelCount ["logs"] [] (by decide)
  have hfollows : NestingTable.standard.follows "versioning" 1 := by decide
  obtain ⟨hinsert, hresource⟩ := best_effort_isolation .standard twoBodies.flatten []
  obtain ⟨-, hattribute⟩ := hresource "bucket" "logs"
  refine ⟨hskipped, hinsert _ hskipped, hfollows, ?_, ?_⟩
  · obtain ⟨config, config', hreplaced, -, hhidden, -⟩ :=
      hattribute [] [.block "versioning" [] []] "versioning" .null (.variable "v")
    exact ⟨config, config', hreplaced, hhidden hfollows (List.cons_ne_nil _ _)⟩
  · obtain ⟨config, config', hreplaced, hne, -, honce⟩ :=
      hattribute [] [] "acl" .null (.call "f" [])
    obtain ⟨hnull, hcall⟩ := honce List.not_mem_nil fun h => h.2 rfl
    exact ⟨config, config', hreplaced, hne, hnull.trans (by with_unfolding_all rfl),
      hcall.trans (by with_unfolding_all rfl)⟩

end Document

end ConfigAudit
