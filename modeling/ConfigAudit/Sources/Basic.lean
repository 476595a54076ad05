/-!
# Sources

Configuration texts in the order in which they were loaded, each with the path it came from, if any.
They are merged by concatenation, each text followed by a blank line.
-/

namespace ConfigAudit

/-- A loaded text, with the path that it was loaded from. -/
structure Source where
  path : Option String
  text : String
  deriving DecidableEq, Repr

/-- Texts in load order. -/
abbrev Sources := List Source

namespace Sources

/-- What follows every text in the concatenation. -/
def separator : String := "\n\n"

/-- Add a text at the end. -/
def insert (sources : Sources) (path : Option String) (text : String) : Sources :=
  sources ++ [⟨path, text⟩]

/-- All texts, each with the separator after it. -/
def concatenated (sources : Sources) : String :=
  String.join (sources.map fun s => s.text ++ separator)

end Sources

end ConfigAudit
