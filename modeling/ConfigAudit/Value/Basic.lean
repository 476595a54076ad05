import ConfigAudit.Literal.Basic

/-!
# Values

The normalized form of configuration data. Numbers are doubles, so large whole numbers lose digits;
maps keep the order of the source, but equality ignores it.
-/

namespace ConfigAudit

/-- A normalized value. -/
inductive Value
  | null
  | bool (b : Bool)
  | number (x : Double)
  | string (s : String)
  | list (items : List Value)
  | map (entries : List (String × Value))
  deriving Repr, Inhabited

/-- A map from keys to values. -/
abbrev Config := OrderedMap Value

namespace Value

/-- Whether a value is null. -/
def isNull : Value → Bool
  | .null => true
  | _ => false

/-- The text of a string. -/
def string? : Value → Option String
  | .string s => some s
  | _ => none

/-- The number. -/
def number? : Value → Option Double
  | .number x => some x
  | _ => none

/-- The truth value. -/
def bool? : Value → Option Bool
  | .bool b => some b
  | _ => none

/-- The items of a list. -/
def list? : Value → Option (List Value)
  | .list items => some items
  | _ => none

/-- The entries of a map. -/
def map? : Value → Option Config
  | .map entries => some entries
  | _ => none

/-- The value under a key; nothing for missing keys and for values that are no maps. -/
def get? (v : Value) (key : String) : Option Value :=
  v.map?.bind fun entries => OrderedMap.lookup entries key

mutual

/-- The value of a literal. -/
def ofLiteral : Literal → Value
  | .null => .null
  | .bool b => .bool b
  | .number n => .number n.toDouble
  | .string s => .string s
  | .list items => .list (ofLiterals items)
  | .object members => .map (ofMembers members)

/-- The values of the items of a list. -/
def ofLiterals : List Literal → List Value
  | [] => []
  | v :: rest => ofLiteral v :: ofLiterals rest

/-- The values of the members of an object. -/
def ofMembers : List (String × Literal) → List (String × Value)
  | [] => []
  | (k, v) :: rest => (k, ofLiteral v) :: ofMembers rest

end

mutual

/-- Equality of values. The order of map entries does not matter, that of list items does. -/
def equal : Value → Value → Bool
  | .null, .null => true
  | .bool a, .bool b => a == b
  | .number x, .number y => x.numEq y
  | .string a, .string b => a == b
  | .list xs, .list ys => equalItems xs ys
  | .map ms, .map ns => ms.length == ns.length && entriesIn ms ns
  | _, _ => false

/-- Equality of lists, item by item. -/
def equalItems : List Value → List Value → Bool
  | [], [] => true
  | a :: xs, b :: ys => equal a b && equalItems xs ys
  | _, _ => false

/-- Whether every entry of the first map has an equal one in the second. -/
def entriesIn : List (String × Value) → List (String × Value) → Bool
  | [], _ => true
  | (k, a) :: ms, ns =>
    (match OrderedMap.lookup ns k with
      | some b => equal a b
      | none => false) && entriesIn ms ns

end

end Value

end ConfigAudit
