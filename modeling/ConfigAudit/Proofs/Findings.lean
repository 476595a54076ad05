import ConfigAudit.Findings.ScanResult

/-!
# Findings are read back

Findings are written with a member for each text and read by looking the members up. What is written
is read back by both readings, the lenient one of engine output and the strict one of single
findings, so that evaluations and results keep their collections (`findings_read_back`).

* `collection_of_get?`: a collection is found wherever it stands in an object;
* `ofJson_of_collections`: so an object with three collections is an evaluation, whatever else is in
  it.
-/

namespace ConfigAudit

namespace Finding

/-- The lenient reading of a written finding. -/
theorem ofJson?_toJson (f : Finding) : ofJson? f.toJson = some f := by
  obtain ⟨control, severity, resource, message, remediation⟩ := f
  cases remediation with
  | none => rfl
  | some r => rfl

/-- The strict reading of a written finding. -/
theorem decode?_toJson (f : Finding) : decode? f.toJson = some f := by
  obtain ⟨control, severity, resource, message, remediation⟩ := f
  cases remediation with
  | none => rfl
  | some r => rfl

end Finding

namespace Evaluation

/-- No written finding is dropped. -/
theorem filterMap_ofJson?_toJson (findings : List Finding) :
    (findings.map Finding.toJson).filterMap Finding.ofJson? = findings := by
  induction findings with
  | nil => rfl
  | cons f rest ih => rw [List.map_cons, List.filterMap_cons, Finding.ofJson?_toJson, ih]

/-- A written collection is read back from its member. -/
theorem collection_of_get? {raw : Json} {key : String} {findings : List Finding}
    (h : raw.get? key = some (collectionJson findings)) : collection raw key = findings := by
  have harray : (raw.get? key).bind Json.array? = some (findings.map Finding.toJson) := by
    rw [h]
    rfl
  rw [collection, harray]
  exact filterMap_ofJson?_toJson findings

/-- An object with three written collections is read as these. -/
theorem ofJson_of_collections {raw : Json} {violations warnings passed : List Finding}
    (hviolations : raw.get? "violations" = some (collectionJson violations))
    (hwarnings : raw.get? "warnings" = some (collectionJson warnings))
    (hpassed : raw.get? "passed" = some (collectionJson passed)) :
    ofJson raw = ⟨violations, warnings, passed⟩ := by
  rw [ofJson, collection_of_get? hviolations, collection_of_get? hwarnings,
    collection_of_get? hpassed]

theorem ofJson_toJson (e : Evaluation) : ofJson e.toJson = e :=
  ofJson_of_collections rfl rfl rfl

/-- The score and the time of a result are no obstacle. -/
theorem ofJson_result (r : ScanResult) :
    ofJson r.toJson = ⟨r.violations, r.warnings, r.passed⟩ :=
  ofJson_of_collections rfl rfl rfl

end Evaluation

/-- **Findings are read back.** Evaluations are read back from their JSON form with all collections
in order, and so are the collections of results. Hence reading any engine output, writing it and
reading it again changes nothing more. Single findings are read back by both readings. -/
theorem findings_read_back :
    (∀ e : Evaluation, Evaluation.ofJson e.toJson = e) ∧
    (∀ r : ScanResult, Evaluation.ofJson r.toJson = ⟨r.violations, r.warnings, r.passed⟩) ∧
    (∀ raw : Json,
      Evaluation.ofJson (Evaluation.ofJson raw).toJson = Evaluation.ofJson raw) ∧
    ∀ f : Finding, Finding.ofJson? f.toJson = some f ∧ Finding.decode? f.toJson = some f := by
  refine ⟨Evaluation.ofJson_toJson, Evaluation.ofJson_result, ?_, ?_⟩
  · intro raw
    exact Evaluation.ofJson_toJson (Evaluation.ofJson raw)
  · intro f
    exact ⟨f.ofJson?_toJson, f.decode?_toJson⟩

end ConfigAudit
