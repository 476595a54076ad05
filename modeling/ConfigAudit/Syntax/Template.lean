import ConfigAudit.Syntax.Grammar

/-!
# Templates

Literal text, interpolations `${ … }` and directives `%{ if … }` and `%{ for … }`. A `~` directly
inside a brace is a strip marker. `$${` and `%%{` stand for the braces themselves.
-/

namespace ConfigAudit.Syntax

open ConfigAudit.Reader

/-- Whether an interpolation or a directive begins here. -/
def beginsPart : List Char → Bool
  | '$' :: '\x7b' :: _ => true
  | '%' :: '\x7b' :: _ => true
  | _ => false

/-- What an escaped brace of three characters stands for. -/
def escapedBrace? : List Char → Option (List Char)
  | '$' :: '$' :: '\x7b' :: _ => some ['$', '\x7b']
  | '%' :: '%' :: '\x7b' :: _ => some ['%', '\x7b']
  | _ => none

/-- Literal text without escapes of its own, up to a position where it ends. -/
def plainText (ends : List Char → Bool) : TextReader := do
  let text ← iterate (fun (acc : List Char) => do
    let s ← rest
    if s.isEmpty || ends s then pure (.inr acc.reverse)
    else match escapedBrace? s with
      | some cs =>
        skip 3
        pure (.inl (cs.reverse ++ acc))
      | none =>
        if beginsPart s then pure (.inr acc.reverse)
        else
          let c ← any
          pure (.inl (c :: acc))) []
  pure (if text.isEmpty then none else some text)

/-- A strip marker, if there is one. -/
def stripMarker : Reader Bool := do
  let marked ← looksLike (· = '~')
  if marked then char '~'
  pure marked

/-- The end of a tag: free blanks, a strip marker, the closing brace. -/
def closeTag : Reader Bool := do
  freeBlanks
  let after ← stripMarker
  char '\x7d'
  pure after

/-- The beginning of a directive up to its keyword. -/
def openDirective : Reader Bool := do
  word "%\x7b"
  let before ← stripMarker
  freeBlanks
  pure before

/-- A directive that consists of a keyword only. -/
def keywordTag (keyword : String) : Reader Strip := do
  let before ← openDirective
  word keyword
  let after ← closeTag
  pure ⟨before, after⟩

/-- Whether the next directive has a keyword. -/
def looksAtDirective (keyword : String) : Reader Bool := do
  let start ← here
  let found ← attempt (do let _ ← openDirective; word keyword)
  restore start
  pure found.isSome

/-- The names and the collection of a loop, up to the end of the collection. -/
def loopHead (collection : Reader Expr) : Reader (Binder × Expr) := do
  freeBlanks
  let first ← name
  freeBlanks
  let binder ← do
    if ← looksLike (· = ',') then
      char ','
      freeBlanks
      let second ← name
      freeBlanks
      pure { key := some first, value := second }
    else pure { key := none, value := first }
  word "in"
  freeBlanks
  let e ← collection
  freeBlanks
  pure (binder, e)

/-- An interpolation. -/
def interpolation (expr : Reader Expr) : Reader Part := do
  word "$\x7b"
  let before ← stripMarker
  freeBlanks
  let e ← expr
  let after ← closeTag
  pure (.interpolation ⟨before, after⟩ e)

/-- A choice between two texts. -/
def choice (expr : Reader Expr) (parts : Reader (List Part)) : Reader Part := do
  let before ← openDirective
  word "if"
  freeBlanks
  let condition ← expr
  let after ← closeTag
  let yes ← parts
  let (middle, no) ← do
    if ← looksAtDirective "else" then
      let strip ← keywordTag "else"
      let no ← parts
      pure (some strip, no)
    else pure (none, [])
  let closing ← keywordTag "endif"
  pure (.choice condition ⟨before, after⟩ yes middle no closing)

/-- A text repeated for the elements of a collection. -/
def repetition (expr : Reader Expr) (parts : Reader (List Part)) : Reader Part := do
  let before ← openDirective
  word "for"
  let (binder, collection) ← loopHead expr
  let after ← closeTag
  let body ← parts
  let closing ← keywordTag "endfor"
  pure (.repetition binder collection ⟨before, after⟩ body closing)

/-- Join neighbouring pieces of literal text. -/
def joinText : List Part → List Part
  | .text a :: rest =>
    match joinText rest with
    | .text b :: more => .text (a ++ b) :: more
    | more => .text a :: more
  | p :: rest => p :: joinText rest
  | [] => []

/-- The parts of a template up to the end of its text or a directive that does not begin a part. -/
def templateParts (inner : Nonterminals) (text : TextReader) : Reader (List Part) :=
  iterate (fun (acc : List Part) => do
    let s ← rest
    match s with
    | '$' :: '\x7b' :: _ =>
      let p ← interpolation (inner.expr false)
      pure (.inl (p :: acc))
    | '%' :: '\x7b' :: _ =>
      if ← looksAtDirective "if" then
        let p ← choice (inner.expr false) (inner.parts text)
        pure (.inl (p :: acc))
      else if ← looksAtDirective "for" then
        let p ← repetition (inner.expr false) (inner.parts text)
        pure (.inl (p :: acc))
      else pure (.inr acc.reverse)
    | _ =>
      match ← text with
      | some t => pure (.inl (.text t :: acc))
      | none => pure (.inr acc.reverse)) []

end ConfigAudit.Syntax
