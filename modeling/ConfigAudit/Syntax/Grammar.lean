import ConfigAudit.Syntax.Blanks
import ConfigAudit.Syntax.Expr

/-!
# Nonterminals

The readers of expressions and of templates call each other. Each of them is written over a record
of both, `Nonterminals`, and `Nonterminals.at` ties the knot for a given depth of nesting. Every
nested reading comes after at least one character of its own, so the length of the text bounds the
depth and no text is refused for lack of it.
-/

namespace ConfigAudit.Syntax

/-- The next piece of literal text of a template; nothing where the literal text ends. Each place
where templates stand has its own rules for it. -/
abbrev TextReader := Reader (Option (List Char))

/-- The readers that may be used recursively: that of an expression, where the flag says whether
free blanks separate its parts, and that of the parts of a template up to the end of its text. -/
structure Nonterminals where
  expr : Bool → Reader Expr
  parts : TextReader → Reader (List Part)

/-- The readers for a depth of nesting, from the rules that read one level. -/
def Nonterminals.at (expr : Nonterminals → Bool → Reader Expr)
    (parts : Nonterminals → TextReader → Reader (List Part)) : Nat → Nonterminals
  | 0 => { expr := fun _ => failure, parts := fun _ => failure }
  | depth + 1 =>
    { expr := fun free s => expr (Nonterminals.at expr parts depth) free s
      parts := fun text s => parts (Nonterminals.at expr parts depth) text s }

end ConfigAudit.Syntax
