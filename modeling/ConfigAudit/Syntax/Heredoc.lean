import ConfigAudit.Syntax.Template
import ConfigAudit.Text.WhiteSpace

/-!
# Heredocs

`<<ID` or `<<-ID`, a line break, lines, and a last line that begins, after blanks, with `ID`. The
text runs to the line break before that line and includes it; a heredoc without a line of its own is
empty. The form `<<-` removes the common indentation.
-/

namespace ConfigAudit.Syntax

open ConfigAudit.Reader

/-- Whether blanks and the marker come next. -/
def beginsMarker (marker : List Char) (s : List Char) : Bool :=
  marker.isPrefixOf (s.dropWhile isSpace)

/-- Whether a line break and then the marker come next. -/
def endsHeredoc (marker : List Char) : List Char → Bool
  | '\n' :: s => beginsMarker marker s
  | '\r' :: '\n' :: s => beginsMarker marker s
  | _ => false

/-- The lines of a text without their line breaks; a line break at the very end begins no line. -/
def lines (s : List Char) : List (List Char) :=
  let unreturned (line : List Char) : List Char :=
    if line.getLast? = some '\r' then line.dropLast else line
  let rec go (current : List Char) : List Char → List (List Char)
    | [] => if current.isEmpty then [] else [current.reverse]
    | '\n' :: t => unreturned current.reverse :: go [] t
    | c :: t => go (c :: current) t
  go [] s

/-- The least number of leading white-space characters over the lines that are not empty. The first
line is left out when it continues an interpolation. -/
def leastIndent (continued : Bool) (s : List Char) : Option Nat :=
  ((lines s).drop (if continued then 1 else 0)).foldl (fun least line =>
    if line.isEmpty then least
    else
      let n := (line.takeWhile isWhiteSpace).length
      some (least.elim n (min n))) none

/-- The least indentation of a template. An interpolation or directive at the start of a line is not
indented. -/
def commonIndent : Bool → List Part → Option Nat
  | _, [] => none
  | continued, .text s :: rest =>
    let here := leastIndent continued s
    let later := commonIndent (s.getLast? != some '\n') rest
    match here, later with
    | some m, some n => some (min m n)
    | some m, none => some m
    | none, later => later
  | continued, _ :: rest => if continued then commonIndent true rest else some 0

/-- Remove a number of characters from the lines of a text; line breaks become plain. -/
def dedentText (n : Nat) (continued : Bool) (s : List Char) : List Char :=
  let cut : List (List Char) := match lines s with
    | [] => []
    | first :: rest => (if continued then first else first.drop n) :: rest.map (·.drop n)
  let body := List.intercalate ['\n'] cut
  if s.getLast? = some '\n' then body ++ ['\n'] else body

/-- Remove a number of characters from the lines of a template. -/
def dedentParts (n : Nat) : Bool → List Part → List Part
  | _, [] => []
  | continued, .text s :: rest =>
    .text (dedentText n continued s) :: dedentParts n (s.getLast? != some '\n') rest
  | _, p :: rest => p :: dedentParts n true rest

/-- Remove the common indentation, if there is one. -/
def dedent (parts : List Part) : List Part :=
  match commonIndent false parts with
  | none => parts
  | some n => if n = 0 then parts else dedentParts n false parts

/-- The marker after blanks. -/
def endMarker (marker : String) : Reader Unit := do
  let _ ← run isSpace
  word marker

/-- The line break before the marker, as text. -/
def lastLineBreak : Reader (List Char) := do
  if ← looksAt "\n" then
    skip 1
    pure ['\n']
  else
    word "\r\n"
    pure ['\r', '\n']

/-- A heredoc. The reading with at least one line is preferred to the empty one. -/
def heredoc (inner : Nonterminals) : Reader Expr := do
  word "<<"
  let indented ← looksLike (· = '-')
  if indented then char '-'
  let marker ← name
  lineBreak
  let content ← attempt (do
    let parts ← inner.parts (plainText (endsHeredoc marker.toList))
    let last ← lastLineBreak
    endMarker marker
    pure (joinText (parts ++ [.text last])))
  match content with
  | some parts => pure (.heredoc (if indented then dedent parts else parts))
  | none =>
    endMarker marker
    pure (.heredoc [])

end ConfigAudit.Syntax
