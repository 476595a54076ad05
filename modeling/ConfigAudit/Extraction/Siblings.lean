import ConfigAudit.Value.Basic

/-!
# Siblings

How repeated sibling blocks of one kind become one value. Blocks without content only leave a mark;
the first block with content replaces the mark by its map, and further ones make a list of all
blocks with content in source order.
-/

namespace ConfigAudit

/-- What the siblings seen so far amount to: no block, blocks without content only, one block with
content, or several. -/
inductive Siblings
  | absent
  | marker
  | single (child : Config)
  | many (children : List Config)
  deriving Repr, Inhabited

namespace Siblings

/-- Take in one more block. -/
def absorb : Siblings → Config → Siblings
  | .absent, [] => .marker
  | .marker, [] => .marker
  | .single first, [] => .single first
  | .many all, [] => .many all
  | .absent, e :: es => .single (e :: es)
  | .marker, e :: es => .single (e :: es)
  | .single first, e :: es => .many [first, e :: es]
  | .many all, e :: es => .many (all ++ [e :: es])

/-- The value of the siblings; nothing if there is no block. -/
def value? : Siblings → Option Value
  | .absent => none
  | .marker => some (.bool true)
  | .single child => some (.map child)
  | .many children => some (.list (children.map .map))

/-- The siblings that a list of blocks amounts to. -/
def ofChildren (children : List Config) : Siblings := children.foldl absorb .absent

end Siblings

end ConfigAudit
