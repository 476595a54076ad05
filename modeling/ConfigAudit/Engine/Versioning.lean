import ConfigAudit.Engine.Basic
import ConfigAudit.Findings.Basic

/-!
# The versioning rule

A rule set without a program behind it: every resource has to turn versioning on. A resource that
does not is a violation, or only a warning if it has a `skip` entry.
-/

namespace ConfigAudit.Versioning

/-- Whether a resource turns versioning on. -/
def isEnabled (r : Resource) : Bool :=
  match (OrderedMap.lookup r.config "versioning").bind (·.get? "enabled") with
  | some (.bool true) => true
  | _ => false

/-- Whether a resource asks to be skipped. -/
def isSkipped (r : Resource) : Bool := (OrderedMap.lookup r.config "skip").isSome

/-- The finding about a resource. -/
def finding (r : Resource) : Finding :=
  { control := r.type
    severity := r.name
    resource := r.address
    message := (Json.object (Value.entriesJson r.config)).compact
    remediation := none }

/-- The findings about all resources of a document, in order. -/
def evaluate (d : Document) : Evaluation :=
  { violations := (d.resources.filter fun r => !isEnabled r && !isSkipped r).map finding
    warnings := (d.resources.filter fun r => !isEnabled r && isSkipped r).map finding
    passed := (d.resources.filter isEnabled).map finding }

/-- The rule set as an engine. -/
def engine {m : Type → Type} [Monad m] : RuleEngine m := fun d => pure (.ok (evaluate d).toJson)

end ConfigAudit.Versioning
