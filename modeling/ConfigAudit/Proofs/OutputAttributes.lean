import ConfigAudit.Proofs.AttributeNames
import ConfigAudit.Proofs.Documents

/-!
# Attributes of outputs

The attributes of an output block are read in another way than those of an extracted body. An output
takes the first attribute of a name and drops it if it does not resolve; an extracted map takes the
last one that resolves. The two differ only through attributes after the first of a name, and in
bodies that are read from a text there are none.

* `Body.attribute?_eq`, `Body.lastResolved?_eq`: the two readings, over the attributes of one name;
* `Body.bind_attribute?_eq_iff`: when they agree;
* `output_agrees`: outputs and the maps extracted from the same bodies.
-/

namespace ConfigAudit

open OrderedMap

namespace Body

variable {body : Body} {key : String}

/-- What the attributes with a name come to after the first of them: what the last of these resolves
to, among those that resolve. -/
def laterResolved? (body : Body) (key : String) : Option Value :=
  ((valuesOf body.attributes key).tail.filterMap Expr.resolve?).getLast?

/-- At most one attribute has the name. -/
def Unrepeated (body : Body) (key : String) : Prop := (valuesOf body.attributes key).length ≤ 1

instance (body : Body) (key : String) : Decidable (body.Unrepeated key) :=
  inferInstanceAs (Decidable (_ ≤ _))

/-! ### Two readings -/

/-- The first attribute of a name decides, whether it resolves or not. -/
theorem attribute?_eq (body : Body) (key : String) :
    body.attribute? key = (valuesOf body.attributes key).head?.bind Expr.resolve? := by
  rw [attribute?]
  induction body.attributes with
  | nil => rfl
  | cons e rest ih =>
    rw [List.find?_cons, valuesOf_cons]
    by_cases hk : e.1 = key
    · simp [hk]
    · rw [beq_false_of_ne hk, if_neg hk]
      exact ih

/-- A later attribute that resolves hides the first. -/
theorem lastResolved?_eq (body : Body) (key : String) :
    body.lastResolved? key = (body.laterResolved? key).or (body.attribute? key) := by
  rw [lastResolved?, laterResolved?, attribute?_eq]
  cases valuesOf body.attributes key with
  | nil => rfl
  | cons e rest =>
    have hfirst : ([e].filterMap Expr.resolve?).getLast? = e.resolve? := by
      cases he : e.resolve? <;> simp [he]
    rw [← List.singleton_append, List.filterMap_append, List.getLast?_append, hfirst]
    rfl

/-- What is read of the value agrees unless a later attribute resolves otherwise. -/
theorem bind_attribute?_eq_iff {α : Type} (body : Body) (key : String) (f : Value → Option α) :
    (body.attribute? key).bind f = (body.lastResolved? key).bind f ↔
      ∀ v, body.laterResolved? key = some v → (body.attribute? key).bind f = f v := by
  rw [lastResolved?_eq]
  -- without a later attribute that resolves, both sides are the first one
  cases body.laterResolved? key with
  | none => simp
  | some v => simp

theorem Unrepeated.laterResolved?_eq (h : body.Unrepeated key) :
    body.laterResolved? key = none := by
  have htail : (valuesOf body.attributes key).tail = [] := by
    rw [← List.length_eq_zero_iff, List.length_tail]
    exact Nat.sub_eq_zero_of_le h
  rw [laterResolved?, htail]
  rfl

theorem DistinctNames.unrepeated (h : body.DistinctNames) (key : String) :
    body.Unrepeated key := by
  rw [Unrepeated, h.distinct.valuesOf_eq]
  exact Option.length_toList_le

end Body

/-- Nothing is followed by the empty table, so only attributes are found. -/
theorem lookup_extract_empty (body : Body) (key : String) :
    (extract .empty body).lookup key = body.lastResolved? key := by
  have hfollows : NestingTable.empty.follows key 1 = false := rfl
  rw [extract, lookup_extractAt, if_neg (by simp [hfollows])]

/-! ### Outputs -/

namespace Output

/-- An output holds what an extracted map has for its value and, if it is a string, for its
description. -/
structure Agrees (o : Output) (config : Config) : Prop where
  value : o.value = config.lookup "value"
  description : o.description = (config.lookup "description").bind Value.string?

variable (name : String) (body : Body)

theorem value_eq_iff : (ofBody name body).value = (extract .empty body).lookup "value" ↔
    ∀ v, body.laterResolved? "value" = some v → (ofBody name body).value = some v := by
  have h := body.bind_attribute?_eq_iff "value" some
  rwa [Option.bind_fun_some, Option.bind_fun_some, ← lookup_extract_empty] at h

theorem description_eq_iff :
    (ofBody name body).description = ((extract .empty body).lookup "description").bind
        Value.string? ↔
      ∀ v, body.laterResolved? "description" = some v →
        (ofBody name body).description = v.string? := by
  rw [lookup_extract_empty]
  exact Body.bind_attribute?_eq_iff body "description" Value.string?

variable {name body}

/-- An output whose value and description are given once agrees with the extracted map. -/
theorem agrees_of_unrepeated (hvalue : body.Unrepeated "value")
    (hdescription : body.Unrepeated "description") :
    (ofBody name body).Agrees (extract .empty body) where
  value := by
    rw [value_eq_iff, hvalue.laterResolved?_eq]
    exact nofun
  description := by
    rw [description_eq_iff, hdescription.laterResolved?_eq]
    exact nofun

end Output

/-- An output of a document stands in an output block with its name. -/
theorem Document.exists_block_of_mem_outputs {table : NestingTable} {body : Body}
    {e : String × Output} (h : e ∈ (ofBody table body).outputs) :
    ∃ b ∈ body.blocks, b.kind = "output" ∧ b.labels.head? = some e.1 ∧
      e.2 = Output.ofBody e.1 b.body := by
  rw [ofBody_eq] at h
  obtain ⟨b, hb, he⟩ := List.mem_filterMap.1 (mem_of_mem_ofEntries h)
  unfold Block.output? at he
  split_ifs at he with hkind
  obtain ⟨name, hname, rfl⟩ := Option.map_eq_some_iff.1 he
  exact ⟨b, hb, hkind, hname, rfl⟩

/-- **Outputs and extracted maps.** The value of an output is the one in the map extracted from the
same body without nested blocks, exactly if the attributes after the first of that name do not
resolve, or come to what the first resolves to; so it is with descriptions, as far as they are
strings. A name that is not repeated is read alike. No body that is read from a text repeats a name,
neither at the top nor in a block, so every output of a document that is read agrees with the map of
its block. -/
theorem output_agrees :
    (∀ (name : String) (body : Body),
      ((Output.ofBody name body).value = (extract .empty body).lookup "value" ↔
        ∀ v, body.laterResolved? "value" = some v →
          (Output.ofBody name body).value = some v) ∧
      ((Output.ofBody name body).description =
          ((extract .empty body).lookup "description").bind Value.string? ↔
        ∀ v, body.laterResolved? "description" = some v →
          (Output.ofBody name body).description = v.string?)) ∧
    (∀ (name : String) (body : Body), body.Unrepeated "value" → body.Unrepeated "description" →
      (Output.ofBody name body).Agrees (extract .empty body)) ∧
    (∀ (text : String) (body : Body), Body.parse? text = some body → body.DistinctNames) ∧
    ∀ (table : NestingTable) (text : String) (d : Document),
      Document.parse? table text = some d → ∀ e ∈ d.outputs,
        ∃ body b, Body.parse? text = some body ∧ b ∈ body.blocks ∧ b.kind = "output" ∧
          b.labels.head? = some e.1 ∧ e.2 = Output.ofBody e.1 b.body ∧
          e.2.Agrees (extract .empty b.body) := by
  refine ⟨fun name body => ⟨Output.value_eq_iff name body, Output.description_eq_iff name body⟩,
    fun _ _ => Output.agrees_of_unrepeated, fun _ _ => Body.distinctNames_of_parse?,
    fun table text d hd e he => ?_⟩
  obtain ⟨body, hbody, rfl⟩ := Option.map_eq_some_iff.1 hd
  obtain ⟨b, hb, hkind, hname, houtput⟩ := Document.exists_block_of_mem_outputs he
  have hdistinct := (Body.distinctNames_of_parse? hbody).of_mem_blocks hb
  refine ⟨body, b, hbody, hb, hkind, hname, houtput, ?_⟩
  rw [houtput]
  exact Output.agrees_of_unrepeated (hdistinct.unrepeated _) (hdistinct.unrepeated _)

/-- An output that refers to an attribute, with a description that is no string. -/
def referringBody : Body :=
  [.attribute "value" (.traversal (.variable "b") [.attribute "arn"]),
    .attribute "description" (.bool true), .attribute "sensitive" (.bool true)]

theorem output_agrees_referring :
    referringBody.Unrepeated "value" ∧ referringBody.Unrepeated "description" ∧
      (Output.ofBody "arn" referringBody).Agrees (extract .empty referringBody) ∧
      (Output.ofBody "arn" referringBody).value = some (.string "b.arn") ∧
      (Output.ofBody "arn" referringBody).description = none ∧
      ∃ body d, Body.parse? "output \"o\" \x7b\n  value = [1, 2]\n\x7d\n" = some body ∧
        body.DistinctNames ∧
        Document.parse? .standard "output \"o\" \x7b\n  value = [1, 2]\n\x7d\n" = some d ∧
        d.outputs.keys = ["o"] ∧
        ∀ e ∈ d.outputs, ∃ b : Block, b.labels.head? = some e.1 ∧
          e.2.Agrees (extract .empty b.body) := by
  have hvalue : referringBody.Unrepeated "value" := by decide
  have hdescription : referringBody.Unrepeated "description" := by decide
  have hread : (Document.parse? .standard "output \"o\" \x7b\n  value = [1, 2]\n\x7d\n").map
      (fun d => d.outputs.keys) = some ["o"] := by
    decide +kernel
  obtain ⟨d, hd, hkeys⟩ := Option.map_eq_some_iff.1 hread
  obtain ⟨body, hbody, -⟩ := Option.map_eq_some_iff.1 hd
  refine ⟨hvalue, hdescription, output_agrees.2.1 "arn" referringBody hvalue hdescription,
    by with_unfolding_all rfl, by with_unfolding_all rfl, body, d, hbody,
    output_agrees.2.2.1 _ body hbody, hd, hkeys, fun e he => ?_⟩
  obtain ⟨_, b, -, -, -, hname, -, hagrees⟩ := output_agrees.2.2.2 _ _ d hd e he
  exact ⟨b, hname, hagrees⟩

/-- A body that no text holds: the name is repeated, and the first of its attributes is a splat,
which does not resolve. -/
def repeatedBody : Body :=
  [.attribute "value" (.traversal (.variable "a") [.fullSplat]),
    .attribute "description" (.string "first"), .attribute "value" (.string "second"),
    .attribute "description" (.string "second")]

/-- Where names are repeated, the output and the extracted map differ. -/
theorem repeated_output_disagrees :
    (Output.ofBody "o" repeatedBody).value = none ∧
      (extract .empty repeatedBody).lookup "value" = some (.string "second") ∧
      (Output.ofBody "o" repeatedBody).description = some "first" ∧
      (extract .empty repeatedBody).lookup "description" = some (.string "second") ∧
      ¬ (Output.ofBody "o" repeatedBody).Agrees (extract .empty repeatedBody) ∧
      (Body.parse? "value = a[*]\nvalue = \"second\"\n").isNone := by
  have hvalue : (Output.ofBody "o" repeatedBody).value = none := by
    with_unfolding_all rfl
  have hlookup : (extract .empty repeatedBody).lookup "value" = some (.string "second") := by
    with_unfolding_all rfl
  refine ⟨hvalue, hlookup, by with_unfolding_all rfl, by with_unfolding_all rfl, fun h => ?_,
    by decide +kernel⟩
  have hsame := h.value
  rw [hvalue, hlookup] at hsame
  cases hsame

end ConfigAudit
