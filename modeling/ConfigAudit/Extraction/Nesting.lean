/-!
# Nesting tables

Which nested blocks are followed, by their kind and their depth. A direct child of the extracted
block has depth one; no table follows anything below `maxDepth`.
-/

namespace ConfigAudit

/-- A kind of nested block with the range of depths at which it is followed. -/
structure NestingRule where
  kind : String
  low : Nat
  high : Nat
  deriving DecidableEq, Repr

/-- Whether a rule follows a kind at a depth. -/
def NestingRule.covers (rule : NestingRule) (kind : String) (depth : Nat) : Bool :=
  rule.kind == kind && rule.low ≤ depth && depth ≤ rule.high

/-- The rules in the order in which they were added. -/
structure NestingTable where
  rules : List NestingRule
  deriving DecidableEq, Repr

namespace NestingTable

/-- No block is followed below this depth. -/
def maxDepth : Nat := 2

/-- The table that follows nothing. -/
def empty : NestingTable := ⟨[]⟩

/-- Follow a kind at a range of depths as well. -/
def follow (table : NestingTable) (kind : String) (low high : Nat) : NestingTable :=
  ⟨table.rules ++ [⟨kind, low, high⟩]⟩

/-- Whether a kind is followed at a depth. -/
def follows (table : NestingTable) (kind : String) (depth : Nat) : Bool :=
  depth ≤ maxDepth && table.rules.any (·.covers kind depth)

/-- No table reaches below the greatest depth. -/
theorem follows_of_maxDepth_lt (table : NestingTable) (kind : String) {depth : Nat}
    (h : maxDepth < depth) : table.follows kind depth = false := by
  rw [follows, decide_eq_false (Nat.not_le_of_lt h), Bool.false_and]

/-- The table of the blocks that matter to common rule sets. -/
def standard : NestingTable :=
  (((((((empty.follow "server_side_encryption_configuration" 1 1).follow "logging" 1 1).follow
    "versioning" 1 1).follow "versioning_configuration" 1 1).follow "default_action" 1 1).follow
    "rule" 1 2).follow "redirect" 1 2).follow "apply_server_side_encryption_by_default" 2 2

end NestingTable

end ConfigAudit
