import ConfigAudit.Json.Basic
import ConfigAudit.Value.Basic

/-!
# Values as JSON

Whole numbers up to `2 ^ 53` in absolute value are written as whole numbers, other finite numbers as
doubles, and numbers that are not finite as null. Maps keep the order of their entries.
-/

namespace ConfigAudit.Value

/-- The largest whole number up to which all whole numbers are doubles: `2 ^ 53`. -/
def maxSafe : Nat := 0x20000000000000

/-- The JSON form of a number. -/
def numberJson (x : Double) : Json :=
  if x.isFinite then
    match x.toInt? with
    | some n => if n.natAbs ≤ maxSafe then .number (.whole n) else .number (.real x)
    | none => .number (.real x)
  else .null

mutual

/-- The JSON form of a value. -/
def toJson : Value → Json
  | .null => .null
  | .bool b => .bool b
  | .number x => numberJson x
  | .string s => .string s
  | .list items => .array (itemsJson items)
  | .map entries => .object (entriesJson entries)

/-- The JSON forms of the items of a list. -/
def itemsJson : List Value → List Json
  | [] => []
  | v :: rest => toJson v :: itemsJson rest

/-- The JSON forms of the entries of a map. -/
def entriesJson : List (String × Value) → List (String × Json)
  | [] => []
  | (k, v) :: rest => (k, toJson v) :: entriesJson rest

end

end ConfigAudit.Value
