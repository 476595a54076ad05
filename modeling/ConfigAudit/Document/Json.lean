import ConfigAudit.Document.Basic
import ConfigAudit.Value.Json

/-!
# Documents as JSON

The form in which a rule engine receives a document. An output without value or description has no
member for it, so an unresolved value differs from a literal null.
-/

namespace ConfigAudit

/-- The JSON form of a resource. -/
def Resource.toJson (r : Resource) : Json :=
  .object [("type", .string r.type), ("name", .string r.name), ("address", .string r.address),
    ("config", .object (Value.entriesJson r.config))]

/-- The JSON form of a variable. -/
def Variable.toJson (v : Variable) : Json := .object [("name", .string v.name)]

/-- The JSON form of an output. -/
def Output.toJson (o : Output) : Json :=
  .object ([("name", Json.string o.name)]
    ++ (o.value.map fun v => ("value", v.toJson)).toList
    ++ (o.description.map fun s => ("description", Json.string s)).toList)

/-- The JSON form of a document. -/
def Document.toJson (d : Document) : Json :=
  .object [("resources", .array (d.resources.map Resource.toJson)),
    ("variables", .object (d.inputs.map fun (k, v) => (k, v.toJson))),
    ("outputs", .object (d.outputs.map fun (k, o) => (k, o.toJson)))]

end ConfigAudit
