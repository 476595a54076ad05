import ConfigAudit.Extraction.Nesting
import ConfigAudit.Extraction.Siblings
import ConfigAudit.Resolution
import ConfigAudit.Syntax.Body

/-!
# Extraction

A body becomes a map: every attribute that resolves, in source order, and then one entry per kind of
nested block that the table follows, merged from all siblings of that kind. The entry of a block
takes the place of an attribute of the same name.
-/

namespace ConfigAudit

/-- Insert the attributes of a body that resolve. -/
def attributeEntries (body : Body) : List (String × Value) :=
  body.attributes.filterMap fun (name, expr) => expr.resolve?.map (name, ·)

/-- Merge extracted blocks by kind, in the order in which the kinds appear first. -/
def groupSiblings (children : List (String × Config)) : OrderedMap Siblings :=
  children.foldl (fun groups (kind, child) =>
    groups.alter kind fun old => (old.getD .absent).absorb child) []

/-- The entries of merged siblings. -/
def siblingEntries (groups : OrderedMap Siblings) : List (String × Value) :=
  groups.filterMap fun (kind, siblings) => siblings.value?.map (kind, ·)

/-- The map of a body from its attributes and its extracted children. -/
def assemble (body : Body) (children : List (String × Config)) : Config :=
  OrderedMap.merge (OrderedMap.ofEntries (attributeEntries body))
    (siblingEntries (groupSiblings children))

mutual

/-- The extracted map of a block that is followed at a depth, with its kind. -/
def followedChild (table : NestingTable) (depth : Nat) : Structure → Option (String × Config)
  | .attribute .. => none
  | .block kind _ inner =>
    if table.follows kind depth then
      some (kind, assemble inner (followedChildren table (depth + 1) inner))
    else none

/-- The extracted maps of the blocks of a body that are followed at a depth, with their kinds. -/
def followedChildren (table : NestingTable) (depth : Nat) : List Structure → List (String × Config)
  | [] => []
  | s :: rest =>
    match followedChild table depth s with
    | some child => child :: followedChildren table depth rest
    | none => followedChildren table depth rest

end

/-- The map of a body that stands at a depth. -/
def extractAt (table : NestingTable) (depth : Nat) (body : Body) : Config :=
  assemble body (followedChildren table (depth + 1) body)

/-- The map of the body of a top-level block. -/
def extract (table : NestingTable) (body : Body) : Config := extractAt table 0 body

end ConfigAudit
