/-!
# White space

The Unicode property White_Space, and the two kinds of it that line-oriented rules tell apart.
-/

namespace ConfigAudit

/-- Unicode white space. -/
def isWhiteSpace (c : Char) : Bool :=
  let n := c.toNat
  (9 ≤ n && n ≤ 13) || n = 0x20 || n = 0x85 || n = 0xA0 || n = 0x1680 ||
  (0x2000 ≤ n && n ≤ 0x200A) || n = 0x2028 || n = 0x2029 || n = 0x202F || n = 0x205F || n = 0x3000

/-- White space that does not end a line. -/
def isLineSpace (c : Char) : Bool := isWhiteSpace c && c != '\n' && c != '\r'

/-- Remove white space at the end. -/
def trimRight (p : Char → Bool) (s : List Char) : List Char := (s.reverse.dropWhile p).reverse

/-- Remove white space at both ends. -/
def trimWhiteSpace (s : String) : String :=
  String.ofList (trimRight isWhiteSpace (s.toList.dropWhile isWhiteSpace))

end ConfigAudit
