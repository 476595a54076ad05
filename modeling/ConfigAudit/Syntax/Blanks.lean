import ConfigAudit.Text.Reader

/-!
# Blanks, comments and names

Two kinds of blanks separate the words of a configuration text. *Inline blanks* are spaces, tabs and
`/* … */` comments, which may span lines. *Free blanks* also hold line breaks and the line comments
that begin with `#` or `//`.
-/

namespace ConfigAudit.Syntax

open ConfigAudit.Reader

/-- A space or a tab. -/
def isSpace (c : Char) : Bool := c = ' ' || c = '\t'

/-- The number of characters up to the end of a comment, if the comment ends. -/
def commentLength? : List Char → Option Nat
  | [] => none
  | '*' :: '/' :: _ => some 2
  | _ :: s => (commentLength? s).map (· + 1)

/-- One comment `/* … */`. -/
def inlineComment : Reader Unit := do
  word "/*"
  match commentLength? (← rest) with
  | some n => skip n
  | none => failure

/-- One comment from `#` or `//` to the end of the line. -/
def lineComment : Reader Unit := do
  if (← looksAt "#") || (← looksAt "//") then let _ ← run (· != '\n') else failure

/-- One piece of inline blanks. -/
def inlineBlank : Reader Unit := do
  if ← looksLike isSpace then let _ ← run isSpace else inlineComment

/-- One piece of free blanks. -/
def freeBlank : Reader Unit := do
  if ← looksLike (fun c => isSpace c || c = '\n' || c = '\r') then
    let _ ← run fun c => isSpace c || c = '\n' || c = '\r'
  else if ← looksAt "/*" then inlineComment
  else lineComment

/-- Inline blanks. -/
def inlineBlanks : Reader Unit := do let _ ← many inlineBlank

/-- Free blanks. -/
def freeBlanks : Reader Unit := do let _ ← many freeBlank

/-- Blanks of the kind that a place allows. -/
def blanks (free : Bool) : Reader Unit := if free then freeBlanks else inlineBlanks

/-- A line break, with or without a carriage return. -/
def lineBreak : Reader Unit := do
  if ← looksAt "\n" then skip 1 else word "\r\n"

/-- Whether a line break comes next. -/
def looksAtLineBreak : Reader Bool := do pure ((← looksAt "\n") || (← looksAt "\r\n"))

/-- Whether a line comment comes next. -/
def looksAtLineComment : Reader Bool := do pure ((← looksAt "#") || (← looksAt "//"))

/-- Whether a character begins a name. -/
def beginsName (c : Char) : Bool := c.isAlpha || c = '_'

/-- Whether a character continues a name. -/
def continuesName (c : Char) : Bool := c.isAlphanum || c = '_' || c = '-'

/-- A name: a letter or underscore, then letters, digits, underscores and hyphens, all ASCII. -/
def name : Reader String := do
  if ← looksLike beginsName then
    let cs ← run continuesName
    pure (String.ofList cs)
  else failure

end ConfigAudit.Syntax
