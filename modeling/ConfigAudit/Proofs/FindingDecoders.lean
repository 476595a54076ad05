import ConfigAudit.Proofs.LenientReading
import ConfigAudit.Proofs.OrderedMaps

/-!
# Two decoders of findings

A single finding is decoded leniently, by looking its fields up, or strictly. The strict decoding
goes through the members of an object in their order and puts each field into a slot of its own
(`decodeMembers?`); members that are no fields are passed over. On objects both decodings give the
same finding, except that the strict one refuses a remediation that is neither a text nor null,
which the lenient one takes for none.

* `exists_filled`, `foldlM_fillSlot_eq_none`: what a run over members leaves in the slots, and when
  it breaks off;
* `decode?_object`: the strict decoding in terms of look-ups;
* `decoders_agree_on_objects`: where the decodings agree.
-/

namespace ConfigAudit.Finding

open OrderedMap

/-! ### Member by member -/

/-- What the fields that have been met so far hold. -/
abbrev Slots := OrderedMap (Option String)

/-- What a field holds: a text, and the remediation possibly none. -/
def fieldText? (key : String) (value : Json) : Option (Option String) :=
  if key = "remediation" then optionalText? value else value.string?.map some

/-- Take in one member. A field that is met again is an error, and so is a value that it cannot
hold. -/
def fillSlot (slots : Slots) (member : String × Json) : Option Slots :=
  if member.1 ∈ fields then
    if member.1 ∈ slots.keys then none
    else (fieldText? member.1 member.2).map (slots.insert member.1)
  else some slots

/-- The finding in the slots: only the remediation may be missing. -/
def ofSlots? (slots : Slots) : Option Finding := do
  let control ← (slots.lookup "control").join
  let severity ← (slots.lookup "severity").join
  let resource ← (slots.lookup "resource").join
  let message ← (slots.lookup "message").join
  some { control, severity, resource, message, remediation := (slots.lookup "remediation").join }

/-- Decode the members of an object one after the other. -/
def decodeMembers? (members : OrderedMap Json) : Option Finding :=
  (members.foldlM fillSlot []).bind ofSlots?

section Slots

variable {members : OrderedMap Json}

theorem fillSlot_of_notMem (slots : Slots) {member : String × Json} (h : member.1 ∉ fields) :
    fillSlot slots member = some slots := if_neg h

theorem fillSlot_of_mem {slots : Slots} {member : String × Json} (h : member.1 ∈ fields)
    (hnew : member.1 ∉ slots.keys) :
    fillSlot slots member = (fieldText? member.1 member.2).map (slots.insert member.1) := by
  rw [fillSlot, if_pos h, if_neg hnew]

/-- If every field holds what it can hold, the run ends with all fields in their slots. -/
theorem exists_filled (hdistinct : members.Distinct) {slots : Slots}
    (hnew : ∀ key ∈ members.keys, key ∉ slots.keys)
    (htext : ∀ e ∈ members, e.1 ∈ fields → (fieldText? e.1 e.2).isSome) :
    ∃ filled, members.foldlM fillSlot slots = some filled ∧ ∀ key ∈ fields,
      filled.lookup key = (slots.lookup key).or ((members.lookup key).bind (fieldText? key)) := by
  induction members generalizing slots with
  | nil => exact ⟨slots, rfl, fun key _ => by simp⟩
  | cons e rest ih =>
    obtain ⟨he, hrest⟩ := List.nodup_cons.1 hdistinct
    rw [keys_cons, List.forall_mem_cons] at hnew
    rw [List.forall_mem_cons] at htext
    by_cases hfield : e.1 ∈ fields
    · obtain ⟨text, hheld⟩ := Option.isSome_iff_exists.1 (htext.1 hfield)
      have hstep : fillSlot slots e = some (slots.insert e.1 text) := by
        rw [fillSlot_of_mem hfield hnew.1, hheld, Option.map_some]
      -- the slot that is filled now is not met again
      have hnew' : ∀ key ∈ keys rest, key ∉ (slots.insert e.1 text).keys := by
        intro key hkey hmem
        rw [keys_insert, if_neg hnew.1, List.mem_append, List.mem_singleton] at hmem
        rcases hmem with hmem | rfl
        · exact hnew.2 key hkey hmem
        · exact he hkey
      obtain ⟨filled, hrun, hlookup⟩ := ih hrest hnew' htext.2
      refine ⟨filled, by rw [List.foldlM_cons, hstep]; exact hrun, fun key hkey => ?_⟩
      rw [hlookup key hkey, lookup_insert, OrderedMap.lookup]
      by_cases hsame : e.1 = key
      · subst hsame
        rw [if_pos rfl, if_pos rfl, lookup_eq_none.2 hnew.1]
        simp [hheld]
      · rw [if_neg hsame, if_neg hsame]
    · obtain ⟨filled, hrun, hlookup⟩ := ih hrest hnew.2 htext.2
      refine ⟨filled, by rw [List.foldlM_cons, fillSlot_of_notMem slots hfield]; exact hrun, ?_⟩
      intro key hkey
      have hother : e.1 ≠ key := by
        rintro rfl
        exact hfield hkey
      rw [hlookup key hkey, OrderedMap.lookup, if_neg hother]

/-- A field with a value that it cannot hold breaks the run off. -/
theorem foldlM_fillSlot_eq_none {e : String × Json} (he : e ∈ members) (hfield : e.1 ∈ fields)
    (htext : fieldText? e.1 e.2 = none) (slots : Slots) : members.foldlM fillSlot slots = none := by
  induction members generalizing slots with
  | nil => cases he
  | cons d rest ih =>
    rw [List.foldlM_cons]
    rcases List.mem_cons.1 he with rfl | he
    · have hstep : fillSlot slots e = none := by
        rw [fillSlot, if_pos hfield, htext, Option.map_none, ite_self]
      rw [hstep]
      rfl
    · cases hstep : fillSlot slots d with
      | none => rfl
      | some next => exact ih he next

end Slots

/-! ### By look-ups -/

/-- A remediation that is neither a text nor null. -/
def MalformedRemediation (members : OrderedMap Json) : Prop :=
  ∃ j, members.lookup "remediation" = some j ∧ j ≠ .null ∧ ∀ text, j ≠ .string text

section LookUps

variable {members : OrderedMap Json} {f : Finding}

theorem optionalText?_eq_none_iff {j : Json} :
    optionalText? j = none ↔ j ≠ .null ∧ ∀ text, j ≠ .string text := by
  cases j <;> simp [optionalText?]

theorem decode?_eq_none_of_malformed (h : MalformedRemediation members) :
    decode? (.object members) = none := by
  obtain ⟨j, hlookup, hj⟩ := h
  have htext : optionalText? j = none := optionalText?_eq_none_iff.2 hj
  simp [decode?, Json.get?, hlookup, htext]

/-- Apart from such a remediation, both decodings are the same look-ups. -/
theorem decode?_eq_ofJson? (h : ¬ MalformedRemediation members) :
    decode? (.object members) = ofJson? (.object members) := by
  simp only [decode?, ofJson?, Json.get?]
  have hremediation := textField_object members "remediation"
  cases hlookup : members.lookup "remediation" with
  | none =>
    rw [hlookup] at hremediation
    simp [hremediation]
  | some j =>
    rw [hlookup, Option.bind_some] at hremediation
    cases j with
    | null => simp [optionalText?, hremediation, Json.string?]
    | string text => simp [optionalText?, hremediation, Json.string?]
    | _ => exact absurd ⟨_, hlookup, by simp, by simp⟩ h

theorem decode?_object : decode? (.object members) = some f ↔
    ofJson? (.object members) = some f ∧ ¬ MalformedRemediation members := by
  by_cases h : MalformedRemediation members
  · simp [decode?_eq_none_of_malformed h, h]
  · simp [decode?_eq_ofJson? h, h]

/-! ### Both ways to decode strictly -/

/-- The text that a slot holds in the end is the one that is looked up. -/
theorem join_fieldText? (members : OrderedMap Json) (key : String) :
    ((members.lookup key).bind (fieldText? key)).join = textField (.object members) key := by
  rw [textField_object]
  cases members.lookup key with
  | none => rfl
  | some j =>
    rw [Option.bind_some, Option.bind_some, fieldText?]
    split_ifs
    · cases j <;> rfl
    · cases j.string? <;> rfl

/-- In a finding all required fields are texts. -/
theorem StatedIn.exists_text (h : f.StatedIn members) {key : String} (hkey : key ∈ required) :
    ∃ text, members.lookup key = some (.string text) := by
  simp only [required, List.mem_cons, List.not_mem_nil, or_false] at hkey
  rcases hkey with rfl | rfl | rfl | rfl
  · exact ⟨_, h.control⟩
  · exact ⟨_, h.severity⟩
  · exact ⟨_, h.resource⟩
  · exact ⟨_, h.message⟩

/-- What is decoded holds in each field what the field can hold. -/
theorem isSome_fieldText?_of_decode? (hdistinct : members.Distinct)
    (h : decode? (.object members) = some f) {e : String × Json} (he : e ∈ members)
    (hfield : e.1 ∈ fields) : (fieldText? e.1 e.2).isSome := by
  obtain ⟨hread, hremediation⟩ := decode?_object.1 h
  have hlookup : members.lookup e.1 = some e.2 := hdistinct.lookup_eq_some.2 he
  rw [fieldText?]
  split_ifs with hname
  · rw [Option.isSome_iff_ne_none, ne_eq, optionalText?_eq_none_iff]
    rintro ⟨hnull, htext⟩
    exact hremediation ⟨e.2, hname ▸ hlookup, hnull, htext⟩
  · have hrequired : e.1 ∈ required := (List.mem_cons.1 hfield).resolve_left hname
    obtain ⟨text, htext⟩ := ((ofJson?_object members).1 hread).exists_text hrequired
    rw [hlookup] at htext
    rw [Option.some.inj htext]
    rfl

/-- Going through the members is looking the fields up. -/
theorem decodeMembers?_eq_decode? (hdistinct : members.Distinct) :
    decodeMembers? members = decode? (.object members) := by
  by_cases htext : ∀ e ∈ members, e.1 ∈ fields → (fieldText? e.1 e.2).isSome
  · have hempty : ∀ key ∈ members.keys, key ∉ keys ([] : Slots) := by simp
    obtain ⟨filled, hrun, hlookup⟩ := exists_filled hdistinct hempty htext
    have hslot : ∀ key ∈ fields, (filled.lookup key).join = textField (.object members) key := by
      intro key hkey
      rw [hlookup key hkey, lookup_nil, Option.none_or, join_fieldText?]
    have hremediation : ¬ MalformedRemediation members := by
      rintro ⟨j, hj, hmalformed⟩
      have hheld := htext _ (mem_of_lookup_eq_some hj) (by simp [fields])
      rw [show fieldText? "remediation" j = none from optionalText?_eq_none_iff.2 hmalformed]
        at hheld
      cases hheld
    simp only [fields, required, List.forall_mem_cons] at hslot
    obtain ⟨hr, hcontrol, hseverity, hresource, hmessage, -⟩ := hslot
    rw [decode?_eq_ofJson? hremediation, decodeMembers?, hrun, Option.bind_some]
    simp only [ofSlots?, ofJson?, hr, hcontrol, hseverity, hresource, hmessage]
  · simp only [not_forall, Bool.not_eq_true, Option.isSome_eq_false_iff,
      Option.isNone_iff_eq_none] at htext
    obtain ⟨e, he, hfield, hheld⟩ := htext
    rw [decodeMembers?, foldlM_fillSlot_eq_none he hfield hheld, Option.bind_none]
    cases hdecode : decode? (.object members) with
    | none => rfl
    | some f =>
      have hsome := isSome_fieldText?_of_decode? hdistinct hdecode he hfield
      rw [hheld] at hsome
      cases hsome

end LookUps

/-- **The decoders agree on objects.** The strict decoding of an object, field by field in the order
of its members, is a look-up of the fields. What it decodes, the lenient decoding does as well; and
what the lenient decoding finds is decoded strictly unless the remediation is neither a text nor
null, when it is refused. What is no object is nothing to the lenient decoding. -/
theorem decoders_agree_on_objects :
    (∀ members : OrderedMap Json, members.Distinct →
      decode? (.object members) = decodeMembers? members) ∧
    (∀ (members : OrderedMap Json) (f : Finding),
      decode? (.object members) = some f → ofJson? (.object members) = some f) ∧
    (∀ (members : OrderedMap Json) (f : Finding), ofJson? (.object members) = some f →
      (¬ MalformedRemediation members → decode? (.object members) = some f) ∧
      (MalformedRemediation members → decode? (.object members) = none)) ∧
    ∀ j : Json, (∀ members, j ≠ .object members) → ofJson? j = none := by
  refine ⟨?_, ?_, ?_, ?_⟩
  · intro members hdistinct
    exact (decodeMembers?_eq_decode? hdistinct).symm
  · intro members f h
    exact (decode?_object.1 h).1
  · intro members f h
    exact ⟨fun hremediation => decode?_object.2 ⟨h, hremediation⟩, decode?_eq_none_of_malformed⟩
  · intro j hj
    exact ofJson?_of_not_object hj

/-- The members of a finding about a bucket, one that is no field, and a remediation. -/
def remediated (remediation : Json) : OrderedMap Json :=
  [("message", .string "checked"), ("remediation", remediation), ("note", .int 1),
    ("resource", .string "aws_s3_bucket.logs"), ("severity", .string "high"),
    ("control", .string "CC6.6")]

theorem decoders_agree_on_objects_remediated :
    (remediated .null).Distinct ∧
      decode? (.object (remediated .null)) = decodeMembers? (remediated .null) ∧
      ¬ MalformedRemediation (remediated .null) ∧
      decode? (.object (remediated .null)) = some bucketFinding ∧
      ofJson? (.object (remediated .null)) = some bucketFinding ∧
      ofJson? (.object (remediated (.int 1))) = some bucketFinding ∧
      MalformedRemediation (remediated (.int 1)) ∧
      decode? (.object (remediated (.int 1))) = none ∧
      ofJson? (.array [.string "CC6.6"]) = none := by
  obtain ⟨hmembers, hstrict, hlenient, hother⟩ := decoders_agree_on_objects
  have hdistinct : (remediated .null).Distinct := by
    unfold Distinct
    decide
  have hnull : ¬ MalformedRemediation (remediated .null) := by
    rintro ⟨j, hj, hne, -⟩
    exact hne (Option.some.inj hj).symm
  have hodd : MalformedRemediation (remediated (.int 1)) := ⟨.int 1, rfl, by simp [Json.int]⟩
  have hread : ofJson? (.object (remediated .null)) = some bucketFinding := by decide
  have hread' : ofJson? (.object (remediated (.int 1))) = some bucketFinding := by decide
  have hdecode := (hlenient _ _ hread).1 hnull
  exact ⟨hdistinct, hmembers _ hdistinct, hnull, hdecode, hstrict _ _ hdecode, hread', hodd,
    (hlenient _ _ hread').2 hodd, hother _ (by simp)⟩

end ConfigAudit.Finding
