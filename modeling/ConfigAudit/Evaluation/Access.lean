import ConfigAudit.Literal.Basic

/-!
# Access into literals

Following the steps of a traversal into a literal, once the index keys have been evaluated. An
attribute splat spreads over the attribute names directly after it, a full splat over all steps
after it; `null` has no elements to spread over, and a literal that is no list is its own element.
-/

namespace ConfigAudit

/-- A traversal step with an evaluated key. -/
inductive Access
  | attribute (name : String)
  | position (index : Nat)
  | index (key : Literal)
  | attributeSplat
  | fullSplat

namespace Literal

/-- The member of an object. -/
def member? : Literal → String → Option Literal
  | .object members, key => OrderedMap.lookup members key
  | _, _ => none

/-- The item of a list at a position. -/
def item? : Literal → Nat → Option Literal
  | .list items, n => items[n]?
  | _, _ => none

/-- The part of a literal under a key: a position for lists, a name for objects. -/
def at? (v : Literal) : Literal → Option Literal
  | .number (.whole n) => if 0 ≤ n then v.item? n.toNat else none
  | .string key => v.member? key
  | _ => none

/-- The elements that a splat spreads over. -/
def spread : Literal → List Literal
  | .null => []
  | .list items => items
  | v => [v]

/-- The names at the beginning of a list of steps. -/
def leadingNames : List Access → List String
  | .attribute name :: rest => name :: leadingNames rest
  | _ => []

/-- The steps after the names at the beginning. -/
def afterNames : List Access → List Access
  | .attribute _ :: rest => afterNames rest
  | steps => steps

theorem length_afterNames_le (steps : List Access) : (afterNames steps).length ≤ steps.length := by
  fun_induction afterNames steps with
  | case1 _ rest ih => exact Nat.le_succ_of_le ih
  | case2 => exact Nat.le_refl _

/-- Follow names into objects. -/
def followNames (v : Literal) (names : List String) : Option Literal := names.foldlM member? v

/-- Follow steps into a literal. -/
def follow (v : Literal) : List Access → Option Literal
  | [] => some v
  | .attribute name :: rest => do follow (← v.member? name) rest
  | .position n :: rest => do follow (← v.item? n) rest
  | .index key :: rest => do follow (← v.at? key) rest
  | .attributeSplat :: rest => do
    let items ← v.spread.mapM (followNames · (leadingNames rest))
    follow (.list items) (afterNames rest)
  | .fullSplat :: rest => do
    let items ← v.spread.mapM (follow · rest)
    some (.list items)
termination_by steps => steps.length
decreasing_by
  all_goals
    have shorter := length_afterNames_le rest
    simp only [List.length_cons]
    omega

/-- The keys and elements that a loop runs over; only lists and objects have them. -/
def elements? : Literal → Option (List (Literal × Literal))
  | .list items => some (items.zipIdx.map fun (v, i) => (.number (.whole i), v))
  | .object members => some (members.map fun (k, v) => (.string k, v))
  | _ => none

end Literal

end ConfigAudit
