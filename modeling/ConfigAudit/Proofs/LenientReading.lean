import ConfigAudit.Proofs.Scores
import Mathlib.Data.List.Forall2

/-!
# Engine output is read leniently

A collection of engine output is read item by item: the items that are findings are kept in order,
and no other item has any effect on them. So engine output may be padded with malformed items, and
with members that nobody asks for, and says the same.

* `Json.isFinding`, `Finding.StatedIn`: which items are findings, and what they say;
* `Json.Lists`: what engine output lists under a key;
* `Edited`: lists with some entries put in or taken out, and `Json.Padded`: engine output edited at
  every level;
* `engine_output_read_leniently`: what is kept, and what does not matter to it.
-/

namespace ConfigAudit

open OrderedMap

/-! ### Edited lists -/

/-- The second list comes from the first: loose entries are put in or taken out anywhere, and every
other entry is replaced by one that says the same. -/
inductive Edited {α : Type} (loose : α → Prop) (same : α → α → Prop) : List α → List α → Prop
  | nil : Edited loose same [] []
  | keep {a b : α} {as bs : List α} (h : same a b) (hrest : Edited loose same as bs) :
      Edited loose same (a :: as) (b :: bs)
  | put {b : α} {as bs : List α} (h : loose b) (hrest : Edited loose same as bs) :
      Edited loose same as (b :: bs)
  | take {a : α} {as bs : List α} (h : loose a) (hrest : Edited loose same as bs) :
      Edited loose same (a :: as) bs

namespace Edited

section Lists

variable {α β : Type} {loose : α → Prop} {same : α → α → Prop} {as bs : List α}

theorem filterMap_eq (h : Edited loose same as bs) {f : α → Option β}
    (hloose : ∀ a, loose a → f a = none) (hsame : ∀ a b, same a b → f a = f b) :
    as.filterMap f = bs.filterMap f := by
  induction h with
  | nil => rfl
  | keep h _ ih => simp only [List.filterMap_cons, hsame _ _ h, ih]
  | put h _ ih => rw [List.filterMap_cons_none (hloose _ h), ih]
  | take h _ ih => rw [List.filterMap_cons_none (hloose _ h), ih]

end Lists

/-- What is read from the value under a key, if only members under other keys are loose. -/
theorem lookup_bind_eq {α β : Type} {known : List String}
    {same : String × α → String × α → Prop} {ms ns : OrderedMap α}
    (h : Edited (fun e => e.1 ∉ known) same ms ns) {f : α → Option β}
    (hsame : ∀ e e', same e e' → e.1 = e'.1 ∧ f e.2 = f e'.2) {key : String} (hkey : key ∈ known) :
    (ms.lookup key).bind f = (ns.lookup key).bind f := by
  have hother {e : String × α} (he : e.1 ∉ known) : e.1 ≠ key := by
    rintro rfl
    exact he hkey
  induction h with
  | nil => rfl
  | @keep e e' ms ns h _ ih =>
    obtain ⟨hname, hvalue⟩ := hsame e e' h
    by_cases he : e.1 = key
    · have he' : e'.1 = key := hname ▸ he
      simp [lookup, he, he', hvalue]
    · have he' : e'.1 ≠ key := hname ▸ he
      simp [lookup, he, he', ih]
  | put h _ ih => simp [lookup, hother h, ih]
  | take h _ ih => simp [lookup, hother h, ih]

end Edited

/-! ### Single findings -/

namespace Finding

/-- The members that every finding has. -/
def required : List String := ["control", "severity", "resource", "message"]

/-- All members that are read. -/
def fields : List String := "remediation" :: required

/-- The members of an object say a finding: all texts but the remediation, which is there exactly if
it is a text. -/
structure StatedIn (f : Finding) (members : OrderedMap Json) : Prop where
  control : members.lookup "control" = some (.string f.control)
  severity : members.lookup "severity" = some (.string f.severity)
  resource : members.lookup "resource" = some (.string f.resource)
  message : members.lookup "message" = some (.string f.message)
  remediation : ∀ text,
    f.remediation = some text ↔ members.lookup "remediation" = some (.string text)

end Finding

/-- Whether an item is a finding: an object whose required members are all texts. -/
def Json.isFinding : Json → Bool
  | .object members =>
    Finding.required.all fun field => ((OrderedMap.lookup members field).bind Json.string?).isSome
  | _ => false

namespace Finding

section Items

variable {item : Json} {f : Finding} {members : OrderedMap Json} {key text : String}

theorem textField_object (members : OrderedMap Json) (key : String) :
    textField (.object members) key = (members.lookup key).bind Json.string? := rfl

theorem textField_eq_some_iff :
    textField (.object members) key = some text ↔ members.lookup key = some (.string text) := by
  rw [textField_object]
  cases members.lookup key with
  | none => simp
  | some j => cases j <;> simp [Json.string?]

theorem ofJson?_object (members : OrderedMap Json) :
    ofJson? (.object members) = some f ↔ f.StatedIn members := by
  obtain ⟨control, severity, resource, message, remediation⟩ := f
  constructor
  · intro h
    simp only [ofJson?, Option.bind_eq_bind, Option.bind_eq_some_iff] at h
    obtain ⟨_, hcontrol, _, hseverity, _, hresource, _, hmessage, h⟩ := h
    cases h
    exact ⟨textField_eq_some_iff.1 hcontrol, textField_eq_some_iff.1 hseverity,
      textField_eq_some_iff.1 hresource, textField_eq_some_iff.1 hmessage,
      fun _ => textField_eq_some_iff⟩
  · intro h
    have hremediation : textField (.object members) "remediation" = remediation := by
      refine Option.ext fun text => ?_
      rw [textField_eq_some_iff]
      exact (h.remediation text).symm
    simp [ofJson?, textField_eq_some_iff.2 h.control, textField_eq_some_iff.2 h.severity,
      textField_eq_some_iff.2 h.resource, textField_eq_some_iff.2 h.message, hremediation]

/-- What is no object is no finding. -/
theorem ofJson?_of_not_object (h : ∀ members, item ≠ .object members) : ofJson? item = none := by
  cases item with
  | object members => exact absurd rfl (h members)
  | _ => rfl

theorem ofJson?_eq_some_iff :
    ofJson? item = some f ↔ ∃ members, item = .object members ∧ f.StatedIn members := by
  constructor
  · intro h
    by_cases hobject : ∃ members, item = .object members
    · obtain ⟨members, rfl⟩ := hobject
      exact ⟨members, rfl, (ofJson?_object members).1 h⟩
    · rw [ofJson?_of_not_object (not_exists.1 hobject)] at h
      cases h
  · rintro ⟨members, rfl, h⟩
    exact (ofJson?_object members).2 h

/-- The items that are kept are the ones that are findings. -/
theorem isSome_ofJson? (item : Json) : (ofJson? item).isSome = item.isFinding := by
  cases item with
  | object members =>
    simp only [ofJson?, Json.isFinding, required, List.all_cons, List.all_nil, textField_object]
    cases (lookup members "control").bind Json.string? <;>
      cases (lookup members "severity").bind Json.string? <;>
      cases (lookup members "resource").bind Json.string? <;>
      cases (lookup members "message").bind Json.string? <;> rfl
  | _ => rfl

theorem ofJson?_eq_none_iff : ofJson? item = none ↔ item.isFinding = false := by
  rw [← isSome_ofJson?, Option.isSome_eq_false_iff, Option.isNone_iff_eq_none]

/-- Only the fields of findings are read. -/
theorem ofJson?_congr {a b : Json} (h : ∀ key ∈ fields, textField a key = textField b key) :
    ofJson? a = ofJson? b := by
  simp only [fields, required, List.forall_mem_cons] at h
  obtain ⟨hremediation, hcontrol, hseverity, hresource, hmessage, -⟩ := h
  simp only [ofJson?, hcontrol, hseverity, hresource, hmessage, hremediation]

end Items

end Finding

/-! ### Collections -/

/-- What engine output lists under a key: the items of the array there. -/
inductive Json.Lists (raw : Json) (key : String) : List Json → Prop
  | array {members : OrderedMap Json} {items : List Json} (hraw : raw = .object members)
      (h : members.lookup key = some (.array items)) : Lists raw key items
  | noObject (h : ∀ members, raw ≠ .object members) : Lists raw key []
  | missing {members : OrderedMap Json} (hraw : raw = .object members)
      (h : members.lookup key = none) : Lists raw key []
  | noArray {members : OrderedMap Json} {j : Json} (hraw : raw = .object members)
      (h : members.lookup key = some j) (hj : ∀ items, j ≠ .array items) : Lists raw key []

namespace Json

theorem lists_listed (raw : Json) (key : String) : raw.Lists key (raw.listed key) := by
  cases raw with
  | object members =>
    have hlisted : (object members).listed key = ((lookup members key).bind array?).getD [] := rfl
    rw [hlisted]
    cases h : lookup members key with
    | none => exact .missing rfl h
    | some j =>
      cases j with
      | array items => exact .array rfl h
      | _ => exact .noArray rfl h (by simp)
  | _ => exact .noObject (by simp)

end Json

namespace Evaluation

/-- Findings are what engine output says under a key: they state, one by one and in order, the
listed items that are findings. -/
def Collects (raw : Json) (key : String) (findings : List Finding) : Prop :=
  ∃ items, raw.Lists key items ∧
    List.Forall₂ (fun item f => ∃ members, item = .object members ∧ f.StatedIn members)
      (items.filter Json.isFinding) findings

theorem forall₂_filterMap_ofJson? (items : List Json) :
    List.Forall₂ (fun item f => ∃ members, item = .object members ∧ Finding.StatedIn f members)
      (items.filter Json.isFinding) (items.filterMap Finding.ofJson?) := by
  induction items with
  | nil => exact .nil
  | cons item rest ih =>
    rw [List.filter_cons, ← Finding.isSome_ofJson?]
    cases h : Finding.ofJson? item with
    | none =>
      rw [List.filterMap_cons_none h]
      exact ih
    | some f =>
      rw [List.filterMap_cons_some h]
      exact .cons (Finding.ofJson?_eq_some_iff.1 h) ih

theorem collects_collection (raw : Json) (key : String) :
    Collects raw key (collection raw key) := by
  refine ⟨raw.listed key, raw.lists_listed key, ?_⟩
  rw [collection_eq]
  exact forall₂_filterMap_ofJson? (raw.listed key)

/-- The keys under which engine output is read. -/
def collections : List String := ["violations", "warnings", "passed"]

end Evaluation

/-! ### Padding -/

/-- Items that differ at most in members that are not read. -/
inductive Json.SameItem : Json → Json → Prop
  | refl (item : Json) : SameItem item item
  | members {ms ns : OrderedMap Json} (h : Edited (fun e => e.1 ∉ Finding.fields) Eq ms ns) :
      SameItem (.object ms) (.object ns)

/-- Members of engine output that differ at most, if they hold arrays, in malformed items and in
members of items that are not read. -/
inductive Json.SameMember : String × Json → String × Json → Prop
  | refl (e : String × Json) : SameMember e e
  | items (key : String) {as bs : List Json}
      (h : Edited (fun item => item.isFinding = false) SameItem as bs) :
      SameMember (key, .array as) (key, .array bs)

/-- Engine output that is padded in another way: malformed items are put in or taken out of its
collections, and members that are not read out of its items and out of itself. -/
inductive Json.Padded : Json → Json → Prop
  | refl (raw : Json) : Padded raw raw
  | members {ms ns : OrderedMap Json}
      (h : Edited (fun e => e.1 ∉ Evaluation.collections) SameMember ms ns) :
      Padded (.object ms) (.object ns)

theorem Json.SameItem.ofJson?_eq {a b : Json} (h : a.SameItem b) :
    Finding.ofJson? a = Finding.ofJson? b := by
  cases h with
  | refl => rfl
  | @members ms ns h =>
    refine Finding.ofJson?_congr fun key hkey => ?_
    rw [Finding.textField_object, Finding.textField_object]
    exact h.lookup_bind_eq (by rintro e _ rfl; exact ⟨rfl, rfl⟩) hkey

/-- Padding a collection leaves its findings as they are. -/
theorem Json.SameMember.findings_eq {e e' : String × Json} (h : SameMember e e') :
    e.1 = e'.1 ∧ e.2.array?.map (List.filterMap Finding.ofJson?) =
      e'.2.array?.map (List.filterMap Finding.ofJson?) := by
  cases h with
  | refl => exact ⟨rfl, rfl⟩
  | items key h =>
    refine ⟨rfl, congrArg some ?_⟩
    refine h.filterMap_eq ?_ ?_
    · intro item hitem
      exact Finding.ofJson?_eq_none_iff.2 hitem
    · intro a b hab
      exact hab.ofJson?_eq

namespace Evaluation

theorem collection_eq_getD (raw : Json) (key : String) :
    collection raw key =
      ((raw.get? key).bind fun j => j.array?.map (List.filterMap Finding.ofJson?)).getD [] := by
  unfold collection
  cases raw.get? key with
  | none => rfl
  | some j =>
    cases h : j.array? <;> simp [h]

theorem collection_padded {raw more : Json} (h : raw.Padded more) {key : String}
    (hkey : key ∈ collections) : collection more key = collection raw key := by
  cases h with
  | refl => rfl
  | members h =>
    have hfindings := h.lookup_bind_eq
      (f := fun j => j.array?.map (List.filterMap Finding.ofJson?))
      (fun _ _ => Json.SameMember.findings_eq) hkey
    rw [collection_eq_getD, collection_eq_getD]
    exact congrArg (Option.getD · []) hfindings.symm

theorem ofJson_padded {raw more : Json} (h : raw.Padded more) : ofJson more = ofJson raw := by
  simp only [ofJson]
  rw [collection_padded h (by simp [collections]), collection_padded h (by simp [collections]),
    collection_padded h (by simp [collections])]

/-- Another value under a key matters to this collection only. -/
theorem collection_insert_of_ne (members : OrderedMap Json) {key other : String}
    (hother : other ≠ key) (j : Json) :
    collection (.object (members.insert key j)) other = collection (.object members) other := by
  have hlookup : (Json.object (members.insert key j)).get? other =
      (Json.object members).get? other := by
    simp only [Json.get?]
    rw [lookup_insert, if_neg hother.symm]
  rw [collection, collection, hlookup]

end Evaluation

/-- **Engine output is read leniently.** Each collection states in order the listed items that are
findings; it is empty if nothing is listed. Padding has no effect on the evaluation nor on the
score, and what stands in place of one collection has none on the other two. -/
theorem engine_output_read_leniently :
    (∀ raw : Json,
      Evaluation.Collects raw "violations" (Evaluation.ofJson raw).violations ∧
      Evaluation.Collects raw "warnings" (Evaluation.ofJson raw).warnings ∧
      Evaluation.Collects raw "passed" (Evaluation.ofJson raw).passed) ∧
    (∀ raw more : Json, raw.Padded more →
      Evaluation.ofJson more = Evaluation.ofJson raw ∧
      ∀ scannedAt : Timestamp,
        (ScanResult.ofEvaluation (Evaluation.ofJson more) scannedAt).score =
          (ScanResult.ofEvaluation (Evaluation.ofJson raw) scannedAt).score) ∧
    ∀ (members : OrderedMap Json) (key : String) (j : Json),
      let e := Evaluation.ofJson (.object members)
      let e' := Evaluation.ofJson (.object (members.insert key j))
      (key ≠ "violations" → e'.violations = e.violations) ∧
      (key ≠ "warnings" → e'.warnings = e.warnings) ∧
      (key ≠ "passed" → e'.passed = e.passed) := by
  refine ⟨?_, ?_, ?_⟩
  · intro raw
    exact ⟨Evaluation.collects_collection raw _, Evaluation.collects_collection raw _,
      Evaluation.collects_collection raw _⟩
  · intro raw more h
    have heq := Evaluation.ofJson_padded h
    exact ⟨heq, fun scannedAt => by rw [heq]⟩
  · intro members key j
    exact ⟨fun h => Evaluation.collection_insert_of_ne members h.symm j,
      fun h => Evaluation.collection_insert_of_ne members h.symm j,
      fun h => Evaluation.collection_insert_of_ne members h.symm j⟩

/-- The finding about a bucket with a member that nobody asks for. -/
def notedFinding : Json :=
  .object [("note", .string "by hand"), ("control", .string "CC6.6"), ("severity", .string "high"),
    ("resource", .string "aws_s3_bucket.logs"), ("message", .string "checked")]

/-- The partial answer with another member, a noted finding and malformed items in other places. -/
def paddedAnswer : Json :=
  .object [("engine", .string "rules"),
    ("violations", .array [notedFinding, .object [("control", .int 6)]]),
    ("passed", .array [bucketFinding.toJson, .null, bucketFinding.toJson])]

theorem partialAnswer_padded : partialAnswer.Padded paddedAnswer := by
  have hnoted : Json.SameItem bucketFinding.toJson notedFinding :=
    .members (.put (by decide) (.keep rfl (.keep rfl (.keep rfl (.keep rfl .nil)))))
  have hsame : Json.SameItem bucketFinding.toJson bucketFinding.toJson := .refl _
  refine .members (.put (by decide) (.keep (.items _ ?_) (.keep (.items _ ?_) .nil)))
  · exact .take rfl (.keep hnoted (.put rfl .nil))
  · exact .keep hsame (.put rfl (.keep hsame .nil))

theorem engine_output_read_leniently_padded :
    partialAnswer.Padded paddedAnswer ∧
      Evaluation.ofJson paddedAnswer = Evaluation.ofJson partialAnswer ∧
      Evaluation.ofJson partialAnswer =
        ⟨[bucketFinding], [], [bucketFinding, bucketFinding]⟩ ∧
      "passed" ≠ "violations" ∧
      (Evaluation.ofJson (.object [("violations", .array [notedFinding]),
        ("passed", .string "all")])).violations = [bucketFinding] := by
  obtain ⟨-, hpadded, hreplaced⟩ := engine_output_read_leniently
  obtain ⟨hviolations, -, -⟩ :=
    hreplaced [("violations", .array [notedFinding]), ("passed", .array [])] "passed"
      (.string "all")
  have hread : Evaluation.ofJson partialAnswer =
      ⟨[bucketFinding], [], [bucketFinding, bucketFinding]⟩ := by decide
  have hne : "passed" ≠ "violations" := by decide
  exact ⟨partialAnswer_padded, (hpadded _ _ partialAnswer_padded).1, hread, hne,
    (hviolations hne).trans (by decide)⟩

end ConfigAudit
