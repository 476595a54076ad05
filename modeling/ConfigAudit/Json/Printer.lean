import ConfigAudit.Json.Basic

/-!
# JSON text

Compact text without blanks, and indented text with two spaces per level, one item or member per
line, and empty containers closed at once. Strings escape the quote, the backslash and the control
characters below the space, nothing else.
-/

namespace ConfigAudit.Json

/-- A hexadecimal digit in lower case. -/
def hexDigit (n : Nat) : Char := if n < 10 then Char.ofNat (48 + n) else Char.ofNat (87 + n)

/-- How a character stands inside quotes. -/
def escapeChar (c : Char) : List Char :=
  if c = '"' then ['\\', '"']
  else if c = '\\' then ['\\', '\\']
  else if c.toNat = 8 then ['\\', 'b']
  else if c.toNat = 12 then ['\\', 'f']
  else if c = '\n' then ['\\', 'n']
  else if c = '\r' then ['\\', 'r']
  else if c = '\t' then ['\\', 't']
  else if c.toNat < 32 then ['\\', 'u', '0', '0', hexDigit (c.toNat / 16), hexDigit (c.toNat % 16)]
  else [c]

/-- The characters between the quotes. -/
def escape : List Char → List Char
  | [] => []
  | c :: rest => escapeChar c ++ escape rest

/-- A quoted string. -/
def quote (s : String) : List Char := '"' :: (escape s.toList ++ ['"'])

/-- The text of a number; numbers that are not finite are written as `null`. -/
def numberChars : Number → List Char
  | .whole n => Number.wholeChars n
  | .real x => if x.isFinite then (Layout.json.render x).toList else ['n', 'u', 'l', 'l']

mutual

/-- Compact text. -/
def compactChars : Json → List Char
  | .null => ['n', 'u', 'l', 'l']
  | .bool true => ['t', 'r', 'u', 'e']
  | .bool false => ['f', 'a', 'l', 's', 'e']
  | .number n => numberChars n
  | .string s => quote s
  | .array [] => ['[', ']']
  | .array (j :: rest) => '[' :: (compactChars j ++ compactItems rest)
  | .object [] => ['\x7b', '\x7d']
  | .object ((k, j) :: rest) =>
    '\x7b' :: (quote k ++ ':' :: (compactChars j ++ compactMembers rest))

/-- The items after the first and the closing bracket. -/
def compactItems : List Json → List Char
  | [] => [']']
  | j :: rest => ',' :: (compactChars j ++ compactItems rest)

/-- The members after the first and the closing brace. -/
def compactMembers : List (String × Json) → List Char
  | [] => ['\x7d']
  | (k, j) :: rest => ',' :: (quote k ++ ':' :: (compactChars j ++ compactMembers rest))

end

/-- Compact text. -/
def compact (j : Json) : String := String.ofList (compactChars j)

/-- A line break followed by the blanks of a nesting level. -/
def newline (level : Nat) : List Char := '\n' :: List.replicate (2 * level) ' '

mutual

/-- Indented text of a value at a nesting level. -/
def prettyChars (level : Nat) : Json → List Char
  | .array [] => ['[', ']']
  | .array (j :: rest) =>
    '[' :: (newline (level + 1) ++ prettyChars (level + 1) j ++ prettyItems level rest)
  | .object [] => ['\x7b', '\x7d']
  | .object ((k, j) :: rest) =>
    '\x7b' :: (newline (level + 1) ++ quote k ++ ':' :: ' ' :: prettyChars (level + 1) j
      ++ prettyMembers level rest)
  | .null => compactChars .null
  | .bool b => compactChars (.bool b)
  | .number n => compactChars (.number n)
  | .string s => compactChars (.string s)

/-- The items after the first and the closing bracket. -/
def prettyItems (level : Nat) : List Json → List Char
  | [] => newline level ++ [']']
  | j :: rest => ',' :: (newline (level + 1) ++ prettyChars (level + 1) j ++ prettyItems level rest)

/-- The members after the first and the closing brace. -/
def prettyMembers (level : Nat) : List (String × Json) → List Char
  | [] => newline level ++ ['\x7d']
  | (k, j) :: rest =>
    ',' :: (newline (level + 1) ++ quote k ++ ':' :: ' ' :: prettyChars (level + 1) j
      ++ prettyMembers level rest)

end

/-- Indented text. -/
def pretty (j : Json) : String := String.ofList (prettyChars 0 j)

end ConfigAudit.Json
