import ConfigAudit.Double.Layout
import ConfigAudit.Json.Basic
import ConfigAudit.Yaml.Scalar

/-!
# YAML text

Block style with two spaces for each level. A list below a key is not indented further, and the
first entry of a map or list inside a list stands on the line of its hyphen. Empty containers are
written in brackets. A key that is long or has several lines is marked by `?` and its value by `:`.
-/

namespace ConfigAudit.Yaml

/-- The longest key in bytes that is written in front of a colon. -/
def maxSimpleKey : Nat := 128

/-- Whether a key is written in front of a colon. -/
def isSimpleKey (key : String) : Bool := key.utf8ByteSize ≤ maxSimpleKey && !key.toList.any isBreak

/-- Where a value stands: behind a simple key, behind the mark of a list item or of a value, or at
the beginning of the text. -/
inductive Place
  | afterKey
  | afterMark
  | root
  deriving DecidableEq, Repr

/-- Text with a line end behind it, unless it has one already. -/
def line (text : List Char) : List Char :=
  if text.getLast?.any isBreak then text else text ++ ['\n']

/-- A number; one that is not finite is written as null. -/
def number : Number → List Char
  | .whole n => Number.wholeChars n
  | .real x => if x.isFinite then (Layout.plain.render x).toList else ['n', 'u', 'l', 'l']

/-- A scalar or an empty container in its place. -/
def atom (place : Place) (text : List Char) : List Char :=
  line (if place = .root then text else ' ' :: text)

/-- What stands between a mark or key and the first entry of a container whose entries begin in a
column. -/
def opening (place : Place) (column : Nat) : List Char :=
  match place with
  | .root => []
  | .afterKey => '\n' :: spaces column
  | .afterMark => [' ']

/-- The column of the entries of a map inside a container whose entries begin in a column. -/
def mapColumn (place : Place) (column : Nat) : Nat := if place = .root then 0 else column + step

/-- The column of the hyphens of a list. -/
def listColumn (place : Place) (column : Nat) : Nat :=
  if place = .afterMark then column + step else column

/-- The key of an entry and the mark of its value. -/
def keyPart (column : Nat) (key : String) : List Char :=
  if isSimpleKey key then scalar true (column + step) key ++ [':']
  else '?' :: atom .afterMark (scalar false (column + step) key) ++ spaces column ++ [':']

/-- The place of the value behind a key. -/
def valuePlace (key : String) : Place := if isSimpleKey key then .afterKey else .afterMark

mutual

/-- The text of a value in its place, inside a container whose entries begin in a column. -/
def node (place : Place) (column : Nat) : Json → List Char
  | .null => atom place ['n', 'u', 'l', 'l']
  | .bool true => atom place ['t', 'r', 'u', 'e']
  | .bool false => atom place ['f', 'a', 'l', 's', 'e']
  | .number n => atom place (number n)
  | .string s => atom place (scalar false (column + step) s)
  | .array [] => atom place ['[', ']']
  | .array (j :: rest) =>
    let inner := listColumn place column
    opening place inner ++ '-' :: (node .afterMark inner j ++ items inner rest)
  | .object [] => atom place ['\x7b', '\x7d']
  | .object ((key, j) :: rest) =>
    let inner := mapColumn place column
    opening place inner ++ keyPart inner key ++ node (valuePlace key) inner j ++ members inner rest

/-- The items of a list after the first one. -/
def items (column : Nat) : List Json → List Char
  | [] => []
  | j :: rest => spaces column ++ '-' :: (node .afterMark column j ++ items column rest)

/-- The entries of a map after the first one. -/
def members (column : Nat) : List (String × Json) → List Char
  | [] => []
  | (key, j) :: rest =>
    spaces column ++ keyPart column key ++ node (valuePlace key) column j ++ members column rest

end

/-- The text of a value. -/
def print (j : Json) : String := String.ofList (node .root 0 j)

end ConfigAudit.Yaml
