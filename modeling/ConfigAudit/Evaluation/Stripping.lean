import ConfigAudit.Syntax.Expr
import ConfigAudit.Text.WhiteSpace

/-!
# Stripping

A strip marker removes, from the literal text next to it, the white space up to the line break and
then that one line break.
-/

namespace ConfigAudit

/-- Remove blanks and one line break at the beginning. -/
def stripStart (s : List Char) : List Char :=
  match s.dropWhile isLineSpace with
  | '\n' :: t => t
  | '\r' :: '\n' :: t => t
  | t => t

/-- Remove blanks and one line break at the end. -/
def stripEnd (s : List Char) : List Char :=
  match s.reverse.dropWhile isLineSpace with
  | '\n' :: '\r' :: t => t.reverse
  | '\n' :: t => t.reverse
  | t => t.reverse

/-- Strip a text where a marker stands next to it. -/
def stripText (before after : Bool) (s : List Char) : List Char :=
  let s := if before then stripStart s else s
  if after then stripEnd s else s

namespace Part

/-- Whether a part strips the text before it. -/
def stripsBefore : Part → Bool
  | .text _ => false
  | .interpolation strip _ => strip.before
  | .choice _ opening _ _ _ _ => opening.before
  | .repetition _ _ opening _ _ => opening.before

/-- Whether a part strips the text after it. -/
def stripsAfter : Part → Bool
  | .text _ => false
  | .interpolation strip _ => strip.after
  | .choice _ _ _ _ _ closing => closing.after
  | .repetition _ _ _ _ closing => closing.after

/-- Whether the first of some parts, or what follows them if there are none, strips the text before
it. -/
def nextStrips (parts : List Part) (after : Bool) : Bool :=
  match parts with
  | [] => after
  | p :: _ => p.stripsBefore

end Part

end ConfigAudit
