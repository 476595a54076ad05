import ConfigAudit.Document.Json
import ConfigAudit.Proofs.Documents
import ConfigAudit.Proofs.ValueTexts

/-!
# Documents read back from their texts

A document reaches the engine as compact JSON text. `Document.decode?` reads such a text and takes
the members of resources and outputs apart. What it finds is the document itself, up to the signs
of zeros; so a text belongs to one document only.

* `Storable`: finite numbers and no key twice;
* `decode?_compact`: resources, order, keys, absent values and absent descriptions are all kept;
* `equal_of_plain_eq`: equality of documents only sees what the text keeps;
* `storable_ofBody`: documents of bodies with standard numbers are storable.
-/

namespace ConfigAudit

open OrderedMap

/-! ### Documents -/

/-- The members of an object. -/
def Json.members? : Json → Option (List (String × Json))
  | .object members => some members
  | _ => none

/-- The resource of a JSON form. -/
def Resource.ofJson? (j : Json) : Option Resource := do
  let type ← (j.get? "type").bind Json.string?
  let name ← (j.get? "name").bind Json.string?
  let address ← (j.get? "address").bind Json.string?
  let config ← (j.get? "config").bind Json.members?
  pure { type, name, address, config := Value.entriesOfJson config }

/-- The variable of a JSON form. -/
def Variable.ofJson? (j : Json) : Option Variable := do
  let name ← (j.get? "name").bind Json.string?
  pure { name }

/-- The output of a JSON form. Without a member there is no value, or no description. -/
def Output.ofJson? (j : Json) : Option Output := do
  let name ← (j.get? "name").bind Json.string?
  pure { name, value := (j.get? "value").map Value.ofJson
         description := (j.get? "description").bind Json.string? }

/-- The map of an object whose members are read in one way. -/
def entriesOfJson? {α : Type} (read : Json → Option α) (j : Json) : Option (OrderedMap α) := do
  let members ← j.members?
  members.mapM fun e => (read e.2).map (e.1, ·)

namespace Document

/-- The document of a JSON form. -/
def ofJson? (j : Json) : Option Document := do
  let resources ← (j.get? "resources").bind Json.array?
  let inputs ← j.get? "variables"
  let outputs ← j.get? "outputs"
  pure { resources := ← resources.mapM Resource.ofJson?
         inputs := ← entriesOfJson? Variable.ofJson? inputs
         outputs := ← entriesOfJson? Output.ofJson? outputs }

/-- The document of a JSON text. -/
def decode? (text : String) : Option Document := (Json.parseExact? text).bind ofJson?

end Document

/-- A resource without the signs of zeros. -/
def Resource.plain (r : Resource) : Resource := { r with config := Value.plainEntries r.config }

/-- An output without the signs of zeros. -/
def Output.plain (o : Output) : Output := { o with value := o.value.map Value.plain }

namespace Document

/-- A document without the signs of zeros. -/
def plain (d : Document) : Document :=
  { d with resources := d.resources.map Resource.plain
           outputs := d.outputs.map fun e => (e.1, e.2.plain) }

/-- A document that a text can hold: its numbers are finite, and no key occurs twice in a map. -/
structure Storable (d : Document) : Prop where
  configs : ∀ r ∈ d.resources, (Value.map r.config).Storable
  inputs : d.inputs.Distinct
  outputs : d.outputs.Distinct
  values : ∀ e ∈ d.outputs, ∀ v, e.2.value = some v → v.Storable

end Document

theorem mapM_map_eq_some {α β γ : Type} {f : β → Option γ} {g : α → β} {k : α → γ} {xs : List α}
    (h : ∀ x ∈ xs, f (g x) = some (k x)) : (xs.map g).mapM f = some (xs.map k) := by
  induction xs with
  | nil => rfl
  | cons x xs ih =>
    rw [List.forall_mem_cons] at h
    rw [List.map_cons, List.mapM_cons, h.1, ih h.2]
    rfl

section Parts

theorem Resource.fits_toJson {r : Resource} (h : (Value.map r.config).Storable) :
    r.toJson.Fits := by
  have hdistinct : ["type", "name", "address", "config"].Nodup := by
    decide
  have hconfig : (Json.object (Value.entriesJson r.config)).Fits := Value.fits_toJson h
  refine Json.fits_object hdistinct ?_
  simp only [List.forall_mem_cons]
  exact ⟨.string _, .string _, .string _, hconfig, by simp⟩

theorem Resource.ofJson?_toJson {r : Resource} (h : (Value.map r.config).Storable) :
    Resource.ofJson? r.toJson = some r.plain := by
  have hconfig : Value.entriesOfJson (Value.entriesJson r.config) = Value.plainEntries r.config :=
    Value.map.inj (Value.ofJson_toJson h)
  rw [Resource.plain, ← hconfig]
  rfl

theorem Variable.fits_toJson (v : Variable) : v.toJson.Fits := by
  refine Json.fits_object (List.nodup_singleton "name") ?_
  simp only [List.forall_mem_cons]
  exact ⟨.string _, by simp⟩

theorem Output.fits_toJson {o : Output} (h : ∀ v, o.value = some v → v.Storable) :
    o.toJson.Fits := by
  refine Json.fits_object ?_ fun e he => ?_
  · cases o.value <;> cases o.description <;> simp [Distinct]
  · simp only [List.mem_append, List.mem_singleton, Option.mem_toList,
      Option.map_eq_some_iff] at he
    rcases he with (rfl | ⟨v, hv, rfl⟩) | ⟨s, -, rfl⟩
    · exact .string _
    · exact Value.fits_toJson (h v hv)
    · exact .string _

theorem Output.ofJson?_toJson {o : Output} (h : ∀ v, o.value = some v → v.Storable) :
    Output.ofJson? o.toJson = some o.plain := by
  obtain ⟨name, value, description⟩ := o
  have hvalue (v : Value) (hv : value = some v) : Value.ofJson v.toJson = v.plain :=
    Value.ofJson_toJson (h v hv)
  cases value with
  | none => cases description <;> rfl
  | some v =>
    rw [Output.plain, Option.map_some, ← hvalue v rfl]
    cases description <;> rfl

/-- A map that is written entry by entry is read entry by entry. -/
theorem entriesOfJson?_map {α : Type} {write : α → Json} {read : Json → Option α} {back : α → α}
    {m : OrderedMap α} (h : ∀ e ∈ m, read (write e.2) = some (back e.2)) :
    entriesOfJson? read (.object (m.map fun e => (e.1, write e.2))) =
      some (m.map fun e => (e.1, back e.2)) := by
  show (m.map fun e => (e.1, write e.2)).mapM (fun e => (read e.2).map (e.1, ·)) = _
  refine mapM_map_eq_some fun e he => ?_
  rw [h e he, Option.map_some]

end Parts

namespace Document

variable {d d' : Document}

theorem fits_toJson (h : d.Storable) : d.toJson.Fits := by
  have hdistinct : ["resources", "variables", "outputs"].Nodup := by
    decide
  have hresources : (Json.array (d.resources.map Resource.toJson)).Fits :=
    Json.fits_array (List.forall_mem_map.2 fun r hr => Resource.fits_toJson (h.configs r hr))
  have hinputs : (Json.object (d.inputs.map fun e => (e.1, e.2.toJson))).Fits :=
    Json.fits_object (h.inputs.mapValues Variable.toJson)
      (List.forall_mem_map.2 fun e _ => e.2.fits_toJson)
  have houtputs : (Json.object (d.outputs.map fun e => (e.1, e.2.toJson))).Fits :=
    Json.fits_object (h.outputs.mapValues Output.toJson)
      (List.forall_mem_map.2 fun e he => Output.fits_toJson (h.values e he))
  refine Json.fits_object hdistinct ?_
  simp only [List.forall_mem_cons]
  exact ⟨hresources, hinputs, houtputs, by simp⟩

theorem ofJson?_toJson (h : d.Storable) : ofJson? d.toJson = some d.plain := by
  have hresources : (d.resources.map Resource.toJson).mapM Resource.ofJson? =
      some (d.resources.map Resource.plain) :=
    mapM_map_eq_some fun r hr => Resource.ofJson?_toJson (h.configs r hr)
  have hinputs : entriesOfJson? Variable.ofJson?
      (.object (d.inputs.map fun e => (e.1, e.2.toJson))) = some d.inputs := by
    have hback : entriesOfJson? Variable.ofJson?
        (.object (d.inputs.map fun e => (e.1, e.2.toJson))) =
          some (d.inputs.map fun e => (e.1, id e.2)) := entriesOfJson?_map fun e _ => rfl
    have hid : (d.inputs.map fun e => (e.1, id e.2)) = d.inputs := List.map_id d.inputs
    rwa [hid] at hback
  have houtputs : entriesOfJson? Output.ofJson?
      (.object (d.outputs.map fun e => (e.1, e.2.toJson))) =
        some (d.outputs.map fun e => (e.1, e.2.plain)) :=
    entriesOfJson?_map fun e he => Output.ofJson?_toJson (h.values e he)
  have hparts : ofJson? d.toJson = (do
      pure { resources := ← (d.resources.map Resource.toJson).mapM Resource.ofJson?
             inputs := ← entriesOfJson? Variable.ofJson?
               (.object (d.inputs.map fun e => (e.1, e.2.toJson)))
             outputs := ← entriesOfJson? Output.ofJson?
               (.object (d.outputs.map fun e => (e.1, e.2.toJson))) }) := rfl
  rw [hparts, hresources, hinputs, houtputs]
  rfl

/-- **A document is found again in its text.** -/
theorem decode?_compact (h : d.Storable) : decode? d.toJson.compact = some d.plain := by
  rw [decode?, Json.parseExact?_compact (fits_toJson h), Option.bind_some, ofJson?_toJson h]

/-- Documents with one text are the same up to the signs of zeros. -/
theorem plain_eq_of_compact_eq (h : d.Storable) (h' : d'.Storable)
    (htext : d.toJson.compact = d'.toJson.compact) : d.plain = d'.plain := by
  have hdecode : some d.plain = some d'.plain := by
    rw [← decode?_compact h, ← decode?_compact h', htext]
  exact Option.some.inj hdecode

end Document

/-! ### Equality -/

/-- Equality of maps: equally many keys, and an equal value under each. -/
def OrderedMap.equalBy {α : Type} (equal : α → α → Bool) (m n : OrderedMap α) : Bool :=
  m.length == n.length && m.all fun e =>
    match lookup n e.1 with
    | some b => equal e.2 b
    | none => false

/-- Equality of optional values. -/
def equalOption {α : Type} (equal : α → α → Bool) : Option α → Option α → Bool
  | none, none => true
  | some a, some b => equal a b
  | _, _ => false

/-- Equality of resources. -/
def Resource.equal (r s : Resource) : Bool :=
  r.type == s.type && r.name == s.name && r.address == s.address &&
    Value.equal (.map r.config) (.map s.config)

/-- Equality of outputs. -/
def Output.equal (o p : Output) : Bool :=
  o.name == p.name && equalOption Value.equal o.value p.value && o.description == p.description

/-- Equality of documents. The order of resources matters, that of variables, outputs and map
entries does not. -/
def Document.equal (d d' : Document) : Bool :=
  d.resources.isEqv d'.resources Resource.equal &&
    OrderedMap.equalBy (· == ·) d.inputs d'.inputs &&
    OrderedMap.equalBy Output.equal d.outputs d'.outputs

/-- Maps with the same images of their values are equal. -/
theorem OrderedMap.equalBy_of_map_eq {α β : Type} {equal : α → α → Bool} {f : α → β}
    {m n : OrderedMap α} (hm : m.Distinct)
    (h : (m.map fun e => (e.1, f e.2)) = n.map fun e => (e.1, f e.2))
    (hequal : ∀ e ∈ m, ∀ b, f e.2 = f b → equal e.2 b = true) : equalBy equal m n = true := by
  obtain ⟨hlength, hlookup⟩ := hm.lookup_of_map_eq h
  rw [equalBy, Bool.and_eq_true, beq_iff_eq, List.all_eq_true]
  refine ⟨hlength, fun e he => ?_⟩
  obtain ⟨b, hb, hf⟩ := hlookup e he
  rw [hb]
  exact hequal e he b hf

theorem Resource.equal_of_plain_eq {r s : Resource} (hr : (Value.map r.config).Storable)
    (h : r.plain = s.plain) : r.equal s = true := by
  obtain ⟨type, name, address, config⟩ := r
  obtain ⟨type', name', address', config'⟩ := s
  simp only [plain, Resource.mk.injEq] at h
  obtain ⟨rfl, rfl, rfl, hconfig⟩ := h
  have hequal : Value.equal (.map config) (.map config') = true :=
    Value.equal_of_plain_eq hr (congrArg Value.map hconfig)
  simp [equal, hequal]

theorem Output.equal_of_plain_eq {o p : Output} (ho : ∀ v, o.value = some v → v.Storable)
    (h : o.plain = p.plain) : o.equal p = true := by
  obtain ⟨name, value, description⟩ := o
  obtain ⟨name', value', description'⟩ := p
  simp only [plain, Output.mk.injEq] at h
  obtain ⟨rfl, hvalue, rfl⟩ := h
  have hequal : equalOption Value.equal value value' = true := by
    cases value with
    | none =>
      cases value' with
      | none => rfl
      | some w => cases hvalue
    | some v =>
      cases value' with
      | none => cases hvalue
      | some w => exact Value.equal_of_plain_eq (ho v rfl) (Option.some.inj hvalue)
  simp [equal, hequal]

theorem isEqv_of_map_plain_eq {rs ss : List Resource}
    (hr : ∀ r ∈ rs, (Value.map r.config).Storable)
    (h : rs.map Resource.plain = ss.map Resource.plain) : rs.isEqv ss Resource.equal = true := by
  induction rs generalizing ss with
  | nil =>
    cases ss with
    | nil => rfl
    | cons s ss => cases h
  | cons r rs ih =>
    cases ss with
    | nil => cases h
    | cons s ss =>
      rw [List.map_cons, List.map_cons, List.cons.injEq] at h
      rw [List.forall_mem_cons] at hr
      rw [List.isEqv, Resource.equal_of_plain_eq hr.1 h.1, ih hr.2 h.2, Bool.and_self]

namespace Document

/-- Documents that differ in the signs of zeros only are equal. -/
theorem equal_of_plain_eq {d d' : Document} (h : d.Storable) (hplain : d.plain = d'.plain) :
    d.equal d' = true := by
  simp only [plain, Document.mk.injEq] at hplain
  obtain ⟨hresources, hinputs, houtputs⟩ := hplain
  have hinputs' : OrderedMap.equalBy (· == ·) d.inputs d'.inputs = true := by
    refine OrderedMap.equalBy_of_map_eq (f := id) h.inputs (by rw [hinputs]) fun e _ b hb => ?_
    rw [beq_iff_eq]
    exact hb
  have houtputs' : OrderedMap.equalBy Output.equal d.outputs d'.outputs = true :=
    OrderedMap.equalBy_of_map_eq h.outputs houtputs fun e he _ =>
      Output.equal_of_plain_eq (h.values e he)
  rw [equal, isEqv_of_map_plain_eq h.configs hresources, hinputs', houtputs']
  rfl

/-! ### Aggregated documents -/

/-- Documents of bodies with standard numbers can be held by a text. -/
theorem storable_ofBody {body : Body} (h : body.HasStandardNumbers) (table : NestingTable) :
    (ofBody table body).Storable where
  configs r hr := by
    rw [ofBody_eq] at hr
    obtain ⟨b, hb, hresource⟩ := List.mem_filterMap.1 hr
    -- the map of a resource is extracted from its block
    have hconfig : r.config = extract table b.body := by
      unfold Block.resource? at hresource
      split_ifs at hresource
      split at hresource
      · cases hresource
        rfl
      · cases hresource
    rw [hconfig]
    exact h.storable_extract hb table
  inputs := distinct_inputs_ofBody table body
  outputs := distinct_outputs_ofBody table body
  values e he v hv := by
    rw [ofBody_eq] at he
    obtain ⟨b, hb, houtput⟩ := List.mem_filterMap.1 (mem_of_mem_ofEntries he)
    unfold Block.output? at houtput
    split_ifs at houtput
    obtain ⟨name, -, hname⟩ := Option.map_eq_some_iff.1 houtput
    rw [← hname] at hv
    exact h.storable_attribute? hb hv

/-- **The text of a document loses nothing.** A document with finite numbers is found again in its
compact text, with all resources in order, all keys in order, absent values and absent descriptions;
only a negative zero comes back as zero. So documents with the same text are equal. Documents of
bodies are among them if all numbers are whole numbers of 64 bits or finite doubles. -/
theorem text_loses_nothing :
    (∀ (table : NestingTable) (body : Body), body.HasStandardNumbers →
      (ofBody table body).Storable) ∧
    (∀ d : Document, d.Storable → decode? d.toJson.compact = some d.plain) ∧
    ∀ d d' : Document, d.Storable → d'.Storable → d.toJson.compact = d'.toJson.compact →
      d.plain = d'.plain ∧ d.equal d' = true := by
  refine ⟨fun table body h => storable_ofBody h table, fun d h => decode?_compact h, ?_⟩
  intro d d' h h' htext
  have hplain := plain_eq_of_compact_eq h h' htext
  exact ⟨hplain, equal_of_plain_eq h hplain⟩

/-- A map with a tenth, a zero of either sign and a string to be escaped. -/
def mixedConfig (negative : Bool) : Config :=
  [("ratio", .number (.finite false 3602879701896397 (-55))),
    ("offset", .number (.finite negative 0 0)), ("tags", .list [.null, .string "a\"b", .map []])]

/-- A document with such a map, an absent value beside a null, and an empty description. -/
def handBuilt (negative : Bool) : Document :=
  { resources := [.named "aws_s3_bucket" "logs" (mixedConfig negative)]
    inputs := [("region", ⟨"region"⟩)]
    outputs := [("arn", ⟨"arn", none, some ""⟩), ("id", ⟨"id", some .null, none⟩)] }

theorem storable_mixedConfig (negative : Bool) : (Value.map (mixedConfig negative)).Storable := by
  have htenth : Double.Canonical 3602879701896397 (-55) := by
    constructor <;> decide
  have htags : (Value.list [.null, .string "a\"b", .map []]).Storable := by
    refine .list ?_
    simp only [List.forall_mem_cons]
    exact ⟨.null, .string _, .map distinct_nil (by simp), by simp⟩
  have hdistinct : ["ratio", "offset", "tags"].Nodup := by
    decide
  refine .map hdistinct ?_
  simp only [mixedConfig, List.forall_mem_cons]
  exact ⟨.number (.nonzero false htenth), .number (.zero negative), htags, by simp⟩

theorem storable_handBuilt (negative : Bool) : (handBuilt negative).Storable where
  configs r hr := by
    obtain rfl := List.mem_singleton.1 hr
    exact storable_mixedConfig negative
  inputs := List.nodup_singleton "region"
  outputs := by
    show ["arn", "id"].Nodup
    decide
  values e he v hv := by
    simp only [handBuilt, List.mem_cons, List.not_mem_nil, or_false] at he
    rcases he with rfl | rfl
    · cases hv
    · cases hv
      exact .null

/-- A body with one resource. -/
def portBody : Body :=
  [.block "resource" ["aws_instance", "web"] [.attribute "port" (.number (.whole 443))]]

theorem portBody_hasStandardNumbers : portBody.HasStandardNumbers where
  written n hn := by
    obtain rfl : n = .whole 443 := by
      simpa [portBody, Body.numerals, Structure.numerals, Expr.numerals] using hn
    exact .whole rfl
  evaluated e he v hv n hn := by
    obtain rfl : e = .number (.whole 443) := by
      simpa [portBody, Body.expressions, Structure.expressions] using he
    have hvalue : (Expr.number (.whole 443)).literal? = some (.number (.whole 443)) :=
      Expr.eval_number _ _
    rw [hvalue] at hv
    cases hv
    obtain rfl := List.mem_singleton.1 hn
    exact .whole rfl

/-- A body, a document, and two documents with the same text. -/
theorem text_loses_nothing_handBuilt :
    (portBody.HasStandardNumbers ∧ (ofBody .standard portBody).Storable) ∧
    ((handBuilt true).Storable ∧
      decode? (handBuilt true).toJson.compact = some (handBuilt true).plain) ∧
    (handBuilt true).toJson.compact = (handBuilt false).toJson.compact ∧
      (handBuilt true).plain = (handBuilt false).plain ∧
        (handBuilt true).equal (handBuilt false) = true := by
  have htext : (handBuilt true).toJson.compact = (handBuilt false).toJson.compact :=
    congrArg Json.compact rfl
  refine ⟨⟨portBody_hasStandardNumbers, ?_⟩, ⟨storable_handBuilt true, ?_⟩, htext, ?_⟩
  · exact text_loses_nothing.1 .standard portBody portBody_hasStandardNumbers
  · exact text_loses_nothing.2.1 (handBuilt true) (storable_handBuilt true)
  · exact text_loses_nothing.2.2 _ _ (storable_handBuilt true) (storable_handBuilt false) htext

end Document

end ConfigAudit
