import ConfigAudit.Number
import ConfigAudit.OrderedMap

/-!
# JSON values

The tree of a JSON text. Objects keep their members in order; `sortMembers` brings the members of
every object into the order of their keys.
-/

namespace ConfigAudit

/-- A JSON value. -/
inductive Json
  | null
  | bool (b : Bool)
  | number (n : Number)
  | string (s : String)
  | array (items : List Json)
  | object (members : List (String × Json))
  deriving Repr, Inhabited

namespace Json

/-- A whole number. -/
def int (n : Int) : Json := .number (.whole n)

/-- The member of an object under a key; nothing for other values. -/
def get? : Json → String → Option Json
  | .object members, key => OrderedMap.lookup members key
  | _, _ => none

/-- The text of a string value. -/
def string? : Json → Option String
  | .string s => some s
  | _ => none

/-- The items of an array. -/
def array? : Json → Option (List Json)
  | .array items => some items
  | _ => none

/-- Insert a member into a list that is sorted by key, before the first larger key. -/
def insertSorted (key : String) (value : Json) : List (String × Json) → List (String × Json)
  | [] => [(key, value)]
  | (k, v) :: rest =>
    if key < k then (key, value) :: (k, v) :: rest else (k, v) :: insertSorted key value rest

mutual

/-- The same value with the members of every object sorted by key. -/
def sortMembers : Json → Json
  | .array items => .array (sortItems items)
  | .object members => .object (sortEntries members)
  | .null => .null
  | .bool b => .bool b
  | .number n => .number n
  | .string s => .string s

/-- Sort inside every item. -/
def sortItems : List Json → List Json
  | [] => []
  | j :: rest => sortMembers j :: sortItems rest

/-- Sort inside every member, then the members by insertion. -/
def sortEntries : List (String × Json) → List (String × Json)
  | [] => []
  | (k, j) :: rest => insertSorted k (sortMembers j) (sortEntries rest)

end

end Json

end ConfigAudit
