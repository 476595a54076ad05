import ConfigAudit.Evaluation.Basic
import ConfigAudit.Reference.Quoted

/-!
# References

A reference is a variable followed by attribute names and literal index keys. It is read off the
syntax: parentheses and templates of a single interpolation are looked through, index keys are
evaluated, and a splat or a key of another kind makes the expression no reference. Its path writes
the segments one after the other.
-/

namespace ConfigAudit

/-- A segment of a reference after its root: an attribute name, an index, or a string key. -/
inductive Segment
  | name (s : String)
  | index (n : Int)
  | key (s : String)
  deriving DecidableEq, Repr

namespace Segment

/-- The text of a segment. -/
def chars : Segment → List Char
  | .name s => '.' :: s.toList
  | .index n => '[' :: (Number.wholeChars n ++ [']'])
  | .key s => '[' :: (Quoted.encode s.toList ++ [']'])

/-- A whole number brought into the signed range of 64 bits. -/
def clamp (n : Int) : Int := max Number.minWhole (min n Number.maxSigned)

/-- The index that a number stands for: its whole part, in the signed range of 64 bits. -/
def ofNumber : Number → Segment
  | .whole n => .index (clamp n)
  | .real x => .index (clamp ((x.truncate?).getD 0))

/-- The segment of an evaluated index key. -/
def ofKey? : Literal → Option Segment
  | .number n => some (ofNumber n)
  | .string s => some (.key s)
  | _ => none

end Segment

/-- The segment of a traversal step. -/
def Step.segment? : Step → Option Segment
  | .attribute name => some (.name name)
  | .position n => some (.index n)
  | .index key => key.literal?.bind Segment.ofKey?
  | .attributeSplat => none
  | .fullSplat => none

/-- A variable with the segments after it. -/
structure Reference where
  root : String
  segments : List Segment
  deriving DecidableEq, Repr

namespace Reference

/-- The path of a reference, as characters. -/
def pathChars (r : Reference) : List Char := r.root.toList ++ r.segments.flatMap Segment.chars

/-- The path of a reference. -/
def path (r : Reference) : String := String.ofList r.pathChars

/-- A reference with more segments at its end. -/
def extend (r : Reference) (segments : List Segment) : Reference :=
  { r with segments := r.segments ++ segments }

end Reference

/-- The reference that an expression denotes. -/
def Expr.reference? : Expr → Option Reference
  | .variable name => some ⟨name, []⟩
  | .traversal base steps => do
    let r ← base.reference?
    let segments ← steps.mapM Step.segment?
    some (r.extend segments)
  | .parens inner => inner.reference?
  | .template [.interpolation _ inner] => inner.reference?
  | .heredoc [.interpolation _ inner] => inner.reference?
  | _ => none

/-- The path of the reference that an expression denotes. -/
def Expr.path? (e : Expr) : Option String := e.reference?.map Reference.path

end ConfigAudit
