import ConfigAudit.Reference.Basic
import ConfigAudit.Value.Basic

/-!
# Resolution

An attribute expression resolves to its literal value, or, if it has none, to the path of the
reference it denotes. Expressions that are neither are omitted.
-/

namespace ConfigAudit

/-- Why an expression has no literal value: it denotes a reference with a path, or anything else. -/
inductive Unevaluated
  | reference (path : String)
  | other
  deriving DecidableEq, Repr

namespace Expr

/-- The literal value of an expression, or why it has none. -/
def evaluateLiteral (e : Expr) : Except Unevaluated Literal :=
  match e.literal? with
  | some v => .ok v
  | none =>
    match e.path? with
    | some path => .error (.reference path)
    | none => .error .other

/-- The value that an attribute with this expression takes, if it takes one. -/
def resolve? (e : Expr) : Option Value :=
  match e.evaluateLiteral with
  | .ok v => some (Value.ofLiteral v)
  | .error (.reference path) => some (.string path)
  | .error .other => none

end Expr

end ConfigAudit
