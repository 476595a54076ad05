import ConfigAudit.Syntax.Expr

/-!
# Bodies

A configuration text is a body: a list of attributes and of blocks, which hold bodies themselves.
-/

namespace ConfigAudit

/-- An attribute, `name = expr`, or a block, `kind "label" … { body }`. -/
inductive Structure
  | attribute (name : String) (expr : Expr)
  | block (kind : String) (labels : List String) (body : List Structure)

/-- Attributes and blocks in source order. -/
abbrev Body := List Structure

/-- A block taken out of a body: the word that begins it, the labels after it, and what stands
between the braces. -/
structure Block where
  kind : String
  labels : List String
  body : Body

namespace Body

/-- The attributes in source order. -/
def attributes (body : Body) : List (String × Expr) :=
  body.filterMap fun
    | .attribute name expr => some (name, expr)
    | .block .. => none

/-- The blocks in source order. -/
def blocks (body : Body) : List Block :=
  body.filterMap fun
    | .attribute .. => none
    | .block kind labels inner => some ⟨kind, labels, inner⟩

end Body

end ConfigAudit
