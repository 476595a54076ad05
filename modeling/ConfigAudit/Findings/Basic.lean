import ConfigAudit.Json.Basic

/-!
# Findings

What a rule engine reports about resources. A finding has four texts and possibly a remediation; an
evaluation has three collections of findings. Reading engine output is lenient: missing collections
are empty and malformed findings are dropped. `Finding.decode?` is the strict reading of a single
finding, which also accepts a list of fields.
-/

namespace ConfigAudit

/-- One reported item. -/
structure Finding where
  control : String
  severity : String
  resource : String
  message : String
  remediation : Option String
  deriving DecidableEq, Repr

namespace Finding

/-- The text of an object member. -/
def textField (raw : Json) (key : String) : Option String := (raw.get? key).bind Json.string?

/-- Read a finding from engine output: an object with four texts. A remediation that is no text is
ignored. -/
def ofJson? (raw : Json) : Option Finding := do
  let control ← textField raw "control"
  let severity ← textField raw "severity"
  let resource ← textField raw "resource"
  let message ← textField raw "message"
  some { control, severity, resource, message, remediation := textField raw "remediation" }

/-- An optional text: a string or null. -/
def optionalText? : Json → Option (Option String)
  | .null => some none
  | .string s => some (some s)
  | _ => none

/-- Decode a finding strictly: an object whose remediation is a text, null or absent, or a list of
the four or five fields in order. -/
def decode? : Json → Option Finding
  | .object members => do
    let raw := Json.object members
    let remediation ← match raw.get? "remediation" with
      | none => some none
      | some r => optionalText? r
    let control ← textField raw "control"
    let severity ← textField raw "severity"
    let resource ← textField raw "resource"
    let message ← textField raw "message"
    some { control, severity, resource, message, remediation }
  | .array [.string control, .string severity, .string resource, .string message] =>
    some { control, severity, resource, message, remediation := none }
  | .array [.string control, .string severity, .string resource, .string message, r] => do
    let remediation ← optionalText? r
    some { control, severity, resource, message, remediation }
  | _ => none

/-- The JSON form of a finding; an absent remediation has no member. -/
def toJson (f : Finding) : Json :=
  .object ([("control", Json.string f.control), ("severity", .string f.severity),
    ("resource", .string f.resource), ("message", .string f.message)]
    ++ (f.remediation.map fun r => ("remediation", Json.string r)).toList)

end Finding

/-- The findings of one evaluation: rules that are broken, in doubt, or hold. -/
structure Evaluation where
  violations : List Finding
  warnings : List Finding
  passed : List Finding
  deriving DecidableEq, Repr

namespace Evaluation

/-- The well-formed findings of a collection of engine output, in order. -/
def collection (raw : Json) (key : String) : List Finding :=
  match (raw.get? key).bind Json.array? with
  | some items => items.filterMap Finding.ofJson?
  | none => []

/-- Read engine output. -/
def ofJson (raw : Json) : Evaluation :=
  { violations := collection raw "violations"
    warnings := collection raw "warnings"
    passed := collection raw "passed" }

/-- The number of findings. -/
def total (e : Evaluation) : Nat := e.violations.length + e.warnings.length + e.passed.length

/-- The JSON form of a collection. -/
def collectionJson (findings : List Finding) : Json := .array (findings.map Finding.toJson)

/-- The JSON form of an evaluation. -/
def toJson (e : Evaluation) : Json :=
  .object [("violations", collectionJson e.violations), ("warnings", collectionJson e.warnings),
    ("passed", collectionJson e.passed)]

end Evaluation

end ConfigAudit
