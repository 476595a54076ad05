import ConfigAudit.Proofs.Extraction
import ConfigAudit.Proofs.ValueTexts

/-!
# The order of keys

An extracted map lists its keys in source order: first the names of attributes that resolve, then
the kinds of followed blocks, each where it occurs first. A kind that is also such a name stays
among the names, with the value of its blocks. Maps of nested blocks are listed by the same rule,
and texts list the members of every map as the map does.

* `FirstOccurrences`: distinct entries of a list, ordered by the places of their first occurrences;
* `SourceOrdered`: the rule, for a map and for the maps of the blocks below it;
* `compact_map`, `compact_list`: the texts of maps and lists, piece by piece;
* `keys_in_source_order`: extracted maps follow the rule, and their texts keep it.
-/

namespace ConfigAudit

open OrderedMap

/-! ### First occurrences -/

/-- The second list holds every entry of the first, ordered by the places where they occur first. -/
structure FirstOccurrences (l firsts : List String) : Prop where
  mem_iff : ∀ a, a ∈ firsts ↔ a ∈ l
  order : firsts.Pairwise fun a b => l.idxOf a < l.idxOf b

theorem firstOccurrences_eraseDups (l : List String) : FirstOccurrences l l.eraseDups where
  mem_iff _ := List.mem_eraseDups
  order := by
    -- from the right: the last entry is either known already or the first of its kind
    induction l using List.reverseRecOn with
    | nil => exact .nil
    | append_singleton l a ih =>
      have hkept : l.eraseDups.Pairwise fun b c => (l ++ [a]).idxOf b < (l ++ [a]).idxOf c := by
        refine ih.imp_of_mem ?_
        intro b c hb hc hlt
        rw [List.idxOf_append_of_mem (List.mem_eraseDups.1 hb),
          List.idxOf_append_of_mem (List.mem_eraseDups.1 hc)]
        exact hlt
      rw [eraseDups_append_singleton]
      split_ifs with ha
      · exact hkept
      · rw [List.pairwise_append]
        refine ⟨hkept, List.pairwise_singleton _ a, ?_⟩
        intro b hb c hc
        rw [List.mem_singleton.1 hc, List.idxOf_append_of_mem (List.mem_eraseDups.1 hb),
          List.idxOf_append_of_notMem ha]
        have hlt := List.idxOf_lt_length_of_mem (List.mem_eraseDups.1 hb)
        omega

/-! ### Keys in source order -/

namespace Body

/-- The names of the attributes that resolve, in source order. -/
def resolvedNames (body : Body) : List String :=
  (body.attributes.filter fun a => a.2.resolve?.isSome).map Prod.fst

/-- The kinds of the blocks that are followed at a depth, in source order. -/
def followedKinds (table : NestingTable) (depth : ℕ) (body : Body) : List String :=
  (body.blocks.map Block.kind).filter fun kind => table.follows kind depth

theorem keys_attributeEntries (body : Body) :
    keys (attributeEntries body) = body.resolvedNames := by
  rw [attributeEntries, resolvedNames]
  induction body.attributes with
  | nil => rfl
  | cons a rest ih =>
    obtain ⟨name, expr⟩ := a
    cases h : expr.resolve? with
    | none => simp [h, ih]
    | some v => simp [h, ih]

theorem mem_followedKinds {table : NestingTable} {depth : ℕ} {body : Body} {kind : String} :
    kind ∈ body.followedKinds table depth ↔ table.follows kind depth ∧ body.blocksOf kind ≠ [] := by
  have hblocks : kind ∈ body.blocks.map Block.kind ↔ body.blocksOf kind ≠ [] := by
    simp [blocksOf, List.filter_eq_nil_iff]
  rw [followedKinds, List.mem_filter, hblocks, and_comm]

end Body

/-- The entries of a map stand in source order: first the names of attributes that resolve, then the
kinds of followed blocks that are no such names, each where it occurs first and none twice. Under a
kind stand the merged maps of its blocks, and these are in source order as well. -/
inductive SourceOrdered (table : NestingTable) : ℕ → Body → Config → Prop
  | assembled {depth : ℕ} {body : Body} {config : Config} {names kinds : List String}
      (child : Block → Config)
      (hdistinct : config.Distinct)
      (hkeys : config.keys = names ++ kinds)
      (hnames : FirstOccurrences body.resolvedNames names)
      (hkinds : FirstOccurrences
        ((body.followedKinds table (depth + 1)).filter fun kind => kind ∉ body.resolvedNames) kinds)
      (hvalue : ∀ kind ∈ body.followedKinds table (depth + 1),
        config.lookup kind = some (Value.ofSiblings ((body.blocksOf kind).map child)))
      (hchild : ∀ b ∈ body.blocks, table.follows b.kind (depth + 1) →
        SourceOrdered table (depth + 1) b.body (child b)) :
      SourceOrdered table depth body config

theorem sourceOrdered_extractAt (table : NestingTable) (depth : ℕ) (body : Body) :
    SourceOrdered table depth body (extractAt table depth body) := by
  induction body using Body.induction generalizing depth with
  | step body ih =>
    have hkeys := keys_extractAt table depth body
    rw [body.keys_attributeEntries, ← eraseDups_filter, ← eraseDups_filter] at hkeys
    refine .assembled (fun b => extractAt table (depth + 1) b.body) (distinct_assemble _ _) hkeys
      (firstOccurrences_eraseDups _) (firstOccurrences_eraseDups _) ?_ ?_
    · intro kind hkind
      rw [lookup_extractAt, if_pos (Body.mem_followedKinds.1 hkind)]
    · intro b hb _
      exact ih b.kind b.labels b.body (Body.mem_blocks.1 hb) (depth + 1)

/-! ### Texts -/

namespace Json

/-- The text of a member: the quoted key, a colon and the text of the value. -/
def memberText (key text : String) : String := String.ofList (quote key) ++ ":" ++ text

/-- The characters of a member. -/
def memberChars (e : String × Json) : List Char := quote e.1 ++ ':' :: compactChars e.2

theorem ofList_memberChars (e : String × Json) :
    String.ofList (memberChars e) = memberText e.1 e.2.compact := by
  rw [← String.toList_inj]
  simp [memberChars, memberText, compact]

theorem compactItems_eq (j : Json) (items : List Json) :
    compactChars j ++ compactItems items =
      [','].intercalate ((j :: items).map compactChars) ++ [']'] := by
  induction items generalizing j with
  | nil => simp [compactItems]
  | cons i items ih => simp [compactItems, ih i]

theorem compactMembers_eq (e : String × Json) (members : List (String × Json)) :
    memberChars e ++ compactMembers members =
      [','].intercalate ((e :: members).map memberChars) ++ ['\x7d'] := by
  induction members generalizing e with
  | nil => simp [compactMembers]
  | cons f members ih =>
    have hrest : compactMembers (f :: members) =
        ',' :: (memberChars f ++ compactMembers members) := by
      simp [compactMembers, memberChars]
    rw [hrest, ih f]
    simp

theorem intercalate_map_ofList (texts : List (List Char)) :
    ",".intercalate (texts.map String.ofList) = String.ofList ([','].intercalate texts) := by
  have hchars : (texts.map String.ofList).map String.toList = texts := by
    simp [Function.comp_def]
  rw [← String.toList_inj, String.toList_intercalate, hchars]
  exact String.toList_ofList.symm

/-- The items of an array stand between brackets in their order. -/
theorem compact_array (items : List Json) :
    compact (.array items) = "[" ++ ",".intercalate (items.map compact) ++ "]" := by
  have hitems : items.map compact = (items.map compactChars).map String.ofList := by
    rw [List.map_map]
    rfl
  rw [hitems, intercalate_map_ofList]
  cases items with
  | nil => rfl
  | cons j items =>
    rw [compact, compactChars, compactItems_eq, ← String.toList_inj]
    simp

/-- The members of an object stand between braces in their order. -/
theorem compact_object (members : List (String × Json)) :
    compact (.object members) =
      "\x7b" ++ ",".intercalate (members.map fun e => memberText e.1 e.2.compact) ++ "\x7d" := by
  have hmembers : (members.map fun e => memberText e.1 e.2.compact) =
      (members.map memberChars).map String.ofList := by
    rw [List.map_map]
    exact List.map_congr_left fun e _ => (ofList_memberChars e).symm
  rw [hmembers, intercalate_map_ofList]
  cases members with
  | nil => rfl
  | cons e members =>
    have hfirst : compactChars (.object (e :: members)) =
        '\x7b' :: (memberChars e ++ compactMembers members) := by
      simp [compactChars, memberChars]
    rw [compact, hfirst, compactMembers_eq, ← String.toList_inj]
    simp

end Json

namespace Value

theorem compact_list (items : List Value) :
    (Value.list items).toJson.compact =
      "[" ++ ",".intercalate (items.map fun v => v.toJson.compact) ++ "]" := by
  rw [toJson, itemsJson_eq_map, Json.compact_array, List.map_map]
  rfl

theorem compact_map (entries : Config) :
    (Value.map entries).toJson.compact =
      "\x7b" ++ ",".intercalate (entries.map fun e => Json.memberText e.1 e.2.toJson.compact) ++
        "\x7d" := by
  rw [toJson, entriesJson_eq_map, Json.compact_object, List.map_map]
  rfl

end Value

/-- **Keys stand in source order.** The keys of an extracted map are the names of attributes that
resolve and then the kinds of followed blocks, each once and where it occurs first, and so are those
of all maps that are extracted from the blocks below. The text of a map lists its members in the
order of its keys, and the text of a list its items, however deeply they are nested. -/
theorem keys_in_source_order (table : NestingTable) (depth : ℕ) (body : Body) :
    SourceOrdered table depth body (extractAt table depth body) ∧
    (∀ config : Config, (Value.map config).toJson.compact =
      "\x7b" ++ ",".intercalate (config.map fun e => Json.memberText e.1 e.2.toJson.compact) ++
        "\x7d") ∧
    ∀ items : List Value, (Value.list items).toJson.compact =
      "[" ++ ",".intercalate (items.map fun v => v.toJson.compact) ++ "]" :=
  ⟨sourceOrdered_extractAt table depth body, Value.compact_map, Value.compact_list⟩

-- the block takes the place of the attribute before it, an attribute that does not resolve has none
example : (extract .standard
    [.block "rule" [] [], .attribute "acl" (.call "f" []), .attribute "versioning" .null,
      .attribute "bucket" .null, .block "versioning" [] [.attribute "enabled" (.bool true)]]).keys =
    ["versioning", "bucket", "rule"] := by
  cbv

end ConfigAudit
