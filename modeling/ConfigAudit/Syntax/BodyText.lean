import ConfigAudit.Syntax.Body
import ConfigAudit.Syntax.Expression

/-!
# Reading bodies

A body is a sequence of attributes and blocks, each up to the end of its line. The body of a block
stands on lines of its own or, with at most one attribute, between braces on one line. An attribute
name may occur once in a body.
-/

namespace ConfigAudit

namespace Syntax

open ConfigAudit.Reader

/-- What may stand before a line break: inline blanks and a line comment. -/
def lineTail : Reader Unit := do
  inlineBlanks
  if ← looksAtLineComment then lineComment

/-- The end of a line, or of the text. -/
def lineEnd : Reader Unit := do
  lineTail
  if ← atEnd then pure () else lineBreak

/-- The labels of a block up to its opening brace. -/
def labels : Reader (List String) :=
  iterate (fun (acc : List String) => do
    inlineBlanks
    if ← looksLike (· = '\x7b') then pure (.inr acc.reverse)
    else if ← looksLike (· = '"') then
      let l ← quotedLabel
      pure (.inl (l :: acc))
    else
      let l ← name
      pure (.inl (l :: acc))) []

/-- The value of an attribute after its name. -/
def attributeValue (inner : Nonterminals) : Reader Expr := do
  char '='
  inlineBlanks
  inner.expr false

/-- A body on one line, up to its closing brace. -/
def lineBody (inner : Nonterminals) : Reader Body := do
  inlineBlanks
  if ← looksLike (· = '\x7d') then
    char '\x7d'
    pure []
  else
    let key ← name
    inlineBlanks
    let e ← attributeValue inner
    inlineBlanks
    char '\x7d'
    pure [.attribute key e]

/-- A block body. -/
def blockBody (inner : Nonterminals) (body : Reader Body) : Reader Body := do
  char '\x7b'
  let start ← here
  match ← attempt (do lineTail; lineBreak) with
  | some () =>
    let b ← body
    char '\x7d'
    pure b
  | none =>
    restore start
    lineBody inner

/-- An attribute or a block. -/
def attributeOrBlock (inner : Nonterminals) (body : Reader Body) : Reader Structure := do
  let word ← name
  inlineBlanks
  if ← looksLike (· = '=') then
    let e ← attributeValue inner
    pure (.attribute word e)
  else
    let ls ← labels
    let b ← blockBody inner body
    pure (.block word ls b)

/-- One level of a body: all structures, each with the end of its line. -/
def bodyLevel (inner : Nonterminals) (body : Reader Body) : Reader Body :=
  iterate (fun (acc : Body) => do
    freeBlanks
    if ← looksLike beginsName then
      let s ← attributeOrBlock inner body
      lineEnd
      match s with
      | .attribute key _ =>
        if acc.any (fun
          | .attribute k _ => k == key
          | .block .. => false) then failure
        else pure (.inl (s :: acc))
      | .block .. => pure (.inl (s :: acc))
    else pure (.inr acc.reverse)) []

/-- A body whose blocks nest at most to a depth. -/
def bodyAt (inner : Nonterminals) : Nat → Reader Body
  | 0 => failure
  | depth + 1 => fun s => bodyLevel inner (bodyAt inner depth) s

end Syntax

/-- The body that a configuration text holds, if it is well formed. -/
def Body.parse? (text : String) : Option Body :=
  let s := text.toList
  let depth := s.length + 1
  Reader.readAll (Syntax.bodyAt (Syntax.nonterminals depth) depth) s

/-- The expression that a quoted template with the given raw text denotes, if it is well formed.
Backslashes mean nothing in raw text. -/
def Expr.parseTemplate? (text : String) : Option Expr :=
  let s := text.toList
  let depth := s.length + 1
  (Reader.readAll ((Syntax.nonterminals depth).parts (Syntax.plainText fun _ => false)) s).map
    fun parts => .template (Syntax.joinText parts)

end ConfigAudit
