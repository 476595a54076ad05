import ConfigAudit.Json.Printer
import ConfigAudit.Literal.Basic

/-!
# Text of literals

How a literal stands inside a string: strings as they are, numbers and constants as written, lists
and objects over several lines with two blanks per level, keys in quotes, and commas between the
items of lists only.
-/

namespace ConfigAudit.Literal

mutual

/-- The text of a literal inside a list or object at a nesting level. -/
def nestedChars (level : Nat) : Literal → List Char
  | .null => ['n', 'u', 'l', 'l']
  | .bool true => ['t', 'r', 'u', 'e']
  | .bool false => ['f', 'a', 'l', 's', 'e']
  | .number n => (n.render Layout.plain).toList
  | .string s => Json.quote s
  | .list [] => ['[', ']']
  | .list (v :: rest) =>
    '[' :: (Json.newline (level + 1) ++ nestedChars (level + 1) v ++ itemChars level rest)
  | .object [] => ['\x7b', '\x7d']
  | .object (m :: rest) => '\x7b' :: (memberChars level m ++ memberListChars level rest)

/-- The items after the first and the closing bracket. -/
def itemChars (level : Nat) : List Literal → List Char
  | [] => Json.newline level ++ [']']
  | v :: rest =>
    ',' :: (Json.newline (level + 1) ++ nestedChars (level + 1) v ++ itemChars level rest)

/-- One member on a line of its own. -/
def memberChars (level : Nat) : String × Literal → List Char
  | (k, v) =>
    Json.newline (level + 1) ++ Json.quote k ++ ' ' :: '=' :: ' ' :: nestedChars (level + 1) v

/-- The members after the first and the closing brace. -/
def memberListChars (level : Nat) : List (String × Literal) → List Char
  | [] => Json.newline level ++ ['\x7d']
  | m :: rest => memberChars level m ++ memberListChars level rest

end

/-- The text of a literal inside a string. -/
def textChars : Literal → List Char
  | .string s => s.toList
  | v => nestedChars 0 v

/-- The text of a literal used as an object key; only strings, constants and numbers have one. -/
def keyText? : Literal → Option String
  | .string s => some s
  | .bool true => some "true"
  | .bool false => some "false"
  | .number n => some (n.render Layout.plain)
  | _ => none

end ConfigAudit.Literal
