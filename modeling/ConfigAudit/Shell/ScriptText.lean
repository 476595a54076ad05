import ConfigAudit.Shell.Script
import ConfigAudit.Text.Reader

/-!
# Reading scripts

Commands end at a semicolon or a line end; `|` binds tighter than `&&` and `||`, which bind equally.
Quotes, backslashes and dollar signs have their usual meaning inside words. Readers for words and
commands take the reader for a nested script as an argument; the text itself bounds the nesting.
-/

namespace ConfigAudit.Shell

open Reader

/-- Letters and the underscore, which begin a name. -/
def isNameStart (c : Char) : Bool := c.isAlpha || c = '_'

/-- Letters, digits and the underscore, which continue a name. -/
def isNameChar (c : Char) : Bool := c.isAlphanum || c = '_'

/-- The characters that end a word outside quotes. -/
def endsWord (c : Char) : Bool := c ∈ [' ', '\t', '\n', ';', '&', '|', '<', '>', '(', ')']

/-- Parameters of one character. -/
def isSpecialParameter (c : Char) : Bool :=
  c.isDigit || c ∈ ['$', '?', '#', '@', '*', '!', '-']

/-- Blanks, joined lines and a comment up to its line end. -/
def blanks : Reader Unit := do
  let _ ← many (do
    let c ← any
    if c = ' ' || c = '\t' then pure ()
    else if c = '\\' then char '\n'
    else if c = '#' then let _ ← run (· != '\n')
    else failure)

/-- Blanks and line ends. -/
def emptyLines : Reader Unit := do
  blanks
  let _ ← many (do char '\n'; blanks)

/-- A name. -/
def name : Reader String := do
  let cs ← run isNameChar
  if (cs.head?.map isNameStart).getD false then pure (String.ofList cs) else failure

/-- What follows a dollar sign. Before a character that begins no parameter it stands for itself. -/
def afterDollar (script : Reader (List Command)) (quoted : Bool) : Reader Piece := do
  let c ← peek
  if c = '(' then
    char '('
    let body ← script
    char ')'
    pure (.output body quoted)
  else if c = '\x7b' then
    char '\x7b'
    let cs ← run (· != '\x7d')
    char '\x7d'
    if cs.all isNameChar && !cs.isEmpty then pure (.parameter (String.ofList cs) quoted) else failure
  else if isNameStart c then
    let n ← name
    pure (.parameter n quoted)
  else if isSpecialParameter c then
    char c
    pure (.parameter (String.ofList [c]) quoted)
  else pure (.text ['$'])

/-- The rest of a word in double quotes, after the opening quote. -/
def doubleQuoted (script : Reader (List Command)) : Reader Word :=
  iterate (fun acc => do
    let c ← any
    if c = '"' then pure (.inr acc.reverse)
    else if c = '\x60' then failure
    else if c = '$' then
      let piece ← afterDollar script true
      pure (.inl (piece :: acc))
    else if c = '\\' then
      let d ← any
      if d = '\n' then pure (.inl acc)
      else if d ∈ ['$', '\x60', '"', '\\'] then pure (.inl (.text [d] :: acc))
      else pure (.inl (.text ['\\', d] :: acc))
    else pure (.inl (.text [c] :: acc))) [.text []]

/-- One quoted or unquoted part of a word. -/
def wordPart (script : Reader (List Command)) : Reader Word := do
  let c ← any
  if endsWord c || c = '\x60' then failure
  else if c = '\x27' then
    let cs ← run (· != '\x27')
    char '\x27'
    pure [.text cs]
  else if c = '"' then doubleQuoted script
  else if c = '$' then
    let piece ← afterDollar script false
    pure [piece]
  else if c = '\\' then
    let d ← any
    pure (if d = '\n' then [] else [.text [d]])
  else pure [.text [c]]

/-- A word; it has at least one part. -/
def word (script : Reader (List Command)) : Reader Word := do
  let parts ← many (wordPart script)
  if parts.isEmpty then failure else pure parts.flatten

/-- A redirection, with the number of its stream in front or understood. -/
def redirection (script : Reader (List Command)) : Reader Redirection := do
  let digits ← run Char.isDigit
  let c ← any
  let following ← peek
  let (standard, mode) ←
    if c = '<' then
      if following = '&' then pure (0, RedirectionMode.duplicate)
      else if following = '<' || following = '>' then failure
      else pure (0, .input)
    else if c = '>' then
      if following = '&' then pure (1, RedirectionMode.duplicate)
      else if following = '>' then pure (1, .append)
      else pure (1, .output)
    else failure
  if following = '&' || following = '>' || following = '|' then char following
  blanks
  let target ← word script
  pure (.mk ((String.ofList digits).toNat?.getD standard) mode target)

/-- Redirections after a group. -/
def redirections (script : Reader (List Command)) : Reader (List Redirection) :=
  many (do blanks; redirection script)

/-- An assignment in front of a simple command. -/
def assignment (script : Reader (List Command)) : Reader (String × Word) := do
  let n ← name
  char '='
  let value ← attempt (word script)
  pure (n, value.getD [.text []])

/-- The parts of a simple command that were read so far, each list reversed. -/
structure SimpleParts where
  assignments : List (String × Word) := []
  words : List Word := []
  redirections : List Redirection := []

/-- A simple command; it has at least one part. -/
def simpleCommand (script : Reader (List Command)) : Reader Command :=
  iterate (fun (parts : SimpleParts) => do
    blanks
    if let some r ← attempt (redirection script) then
      return .inl { parts with redirections := r :: parts.redirections }
    if parts.words.isEmpty then
      if let some a ← attempt (assignment script) then
        return .inl { parts with assignments := a :: parts.assignments }
    if let some w ← attempt (word script) then
      return .inl { parts with words := w :: parts.words }
    if parts.words.isEmpty && parts.assignments.isEmpty && parts.redirections.isEmpty then failure
    pure (.inr (.simple parts.assignments.reverse parts.words.reverse parts.redirections.reverse))) {}

/-- A reserved word of one character at the place of a command. -/
def reserved (c : Char) : Reader Unit := do
  char c
  let next ← peek
  if endsWord next || next = '\x00' then pure () else failure

/-- One command without operators. -/
def command (script : Reader (List Command)) : Reader Command := do
  blanks
  if let some () ← attempt (char '(') then
    let body ← script
    char ')'
    return .subshell body (← redirections script)
  if let some () ← attempt (reserved '\x7b') then
    let body ← script
    reserved '\x7d'
    return .group body (← redirections script)
  if (← attempt (reserved '\x7d')).isSome then failure
  simpleCommand script

/-- Commands joined by pipes, possibly negated as a whole. -/
def pipeline (script : Reader (List Command)) : Reader Command := do
  blanks
  let negation ← attempt (reserved '!')
  let first ← command script
  let rest ← many (do
    blanks
    char '|'
    if ← looksAt "|" then failure
    emptyLines
    command script)
  let whole := rest.foldl .pipe first
  pure (if negation.isSome then .negated whole else whole)

/-- Pipelines joined by `&&` and `||`, from the left. -/
def conditional (script : Reader (List Command)) : Reader Command := do
  let first ← pipeline script
  let rest ← many (do
    blanks
    let both ← looksAt "&&"
    if both then Reader.word "&&" else Reader.word "||"
    emptyLines
    let next ← pipeline script
    pure (both, next))
  pure (rest.foldl (fun c (both, next) => if both then .both c next else .either c next) first)

/-- A script up to the end of the text or a closing bracket. The first argument bounds the
nesting. -/
def script : Nat → Reader (List Command)
  | 0 => failure
  | depth + 1 => do
    emptyLines
    iterate (fun acc => do
      match ← attempt (conditional (script depth)) with
      | none => pure (.inr acc.reverse)
      | some c =>
        blanks
        match ← attempt (char ';') with
        | some () =>
          emptyLines
          pure (.inl (c :: acc))
        | none =>
          if ← looksAt "\n" then
            emptyLines
            pure (.inl (c :: acc))
          else pure (.inr (c :: acc).reverse)) []

/-- The commands of a text. -/
def parse? (text : String) : Option (List Command) :=
  readAll (script (text.length + 1)) text.toList

end ConfigAudit.Shell
