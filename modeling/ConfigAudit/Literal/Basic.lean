import ConfigAudit.Number
import ConfigAudit.OrderedMap

/-!
# Literals

What an expression without variables evaluates to. Equality of literals ignores the order of object
members and compares numbers by value.
-/

namespace ConfigAudit

/-- The result of evaluating an expression. -/
inductive Literal
  | null
  | bool (b : Bool)
  | number (n : Number)
  | string (s : String)
  | list (items : List Literal)
  | object (members : List (String × Literal))
  deriving Repr, Inhabited

mutual

/-- Equality of literals. -/
def Literal.equal : Literal → Literal → Bool
  | .null, .null => true
  | .bool a, .bool b => a == b
  | .number a, .number b => a.numEq b
  | .string a, .string b => a == b
  | .list xs, .list ys => equalLists xs ys
  | .object ms, .object ns => ms.length == ns.length && membersIn ms ns
  | _, _ => false

/-- Equality of lists, item by item. -/
def equalLists : List Literal → List Literal → Bool
  | [], [] => true
  | a :: xs, b :: ys => a.equal b && equalLists xs ys
  | _, _ => false

/-- Whether every member of the first object has an equal one in the second. -/
def membersIn : List (String × Literal) → List (String × Literal) → Bool
  | [], _ => true
  | (k, a) :: ms, ns =>
    (match OrderedMap.lookup ns k with
      | some b => a.equal b
      | none => false) && membersIn ms ns

end

end ConfigAudit
