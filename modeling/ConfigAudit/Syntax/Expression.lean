import ConfigAudit.Syntax.Heredoc
import ConfigAudit.Syntax.Numeral
import ConfigAudit.Syntax.Quoted
import ConfigAudit.Syntax.Sameness

/-!
# Reading expressions

An expression is a term, any number of traversal steps, and then possibly `? a : b` or a binary
operator and a whole expression; so operators nest to the right, and precedence is left to
evaluation. Parts are separated by inline blanks, directly inside parentheses by free blanks.
-/

namespace ConfigAudit.Syntax

open ConfigAudit.Reader

/-- Whether a loop begins here: its keyword and then a blank or a comment. -/
def beginsLoop : List Char → Bool
  | 'f' :: 'o' :: 'r' :: c :: _ => c = ' ' || c = '\t' || c = '#' || c = '/'
  | _ => false

/-- The filter at the end of a loop, if there is one. -/
def loopFilter (inner : Nonterminals) : Reader (Option Expr) := do
  if ← looksAt "if" then
    word "if"
    freeBlanks
    let e ← inner.expr false
    freeBlanks
    pure (some e)
  else pure none

/-- A loop that builds a list, from its keyword to the closing bracket. -/
def listLoop (inner : Nonterminals) : Reader Expr := do
  word "for"
  let (binder, collection) ← loopHead (inner.expr false)
  char ':'
  freeBlanks
  let body ← inner.expr false
  freeBlanks
  let filter ← loopFilter inner
  char ']'
  pure (.forList binder collection body filter)

/-- A loop that builds an object, from its keyword to the closing brace. -/
def objectLoop (inner : Nonterminals) : Reader Expr := do
  word "for"
  let (binder, collection) ← loopHead (inner.expr false)
  char ':'
  freeBlanks
  let key ← inner.expr false
  freeBlanks
  word "=>"
  freeBlanks
  let body ← inner.expr false
  freeBlanks
  let grouped ← looksAt "..."
  if grouped then word "..."
  let start ← here
  if grouped then freeBlanks
  let filter ← loopFilter inner
  if filter.isNone then restore start
  char '\x7d'
  pure (.forObject binder collection key body grouped filter)

/-- The items of a list up to the closing bracket. -/
def listItems (inner : Nonterminals) : Reader (List Expr) :=
  iterate (fun (acc : List Expr) => do
    if ← looksLike (· = ']') then
      char ']'
      pure (.inr acc.reverse)
    else
      let e ← inner.expr false
      freeBlanks
      if ← looksLike (· = ',') then
        char ','
        freeBlanks
        pure (.inl (e :: acc))
      else
        char ']'
        pure (.inr (e :: acc).reverse)) []

/-- A list or a list loop. -/
def list (inner : Nonterminals) : Reader Expr := do
  char '['
  freeBlanks
  if beginsLoop (← rest) then listLoop inner
  else
    let items ← listItems inner
    pure (.list items)

/-- The end of an object item, and whether the object ends with it. -/
def itemEnd : Reader Bool := do
  inlineBlanks
  if ← looksAtLineComment then lineComment
  if ← looksAtLineBreak then
    freeBlanks
    pure false
  else if ← looksLike (· = ',') then
    char ','
    freeBlanks
    pure false
  else pure true

/-- An object item. A bare name as key names itself. -/
def objectItem (inner : Nonterminals) : Reader ObjectItem := do
  let key ← inner.expr false
  inlineBlanks
  if ← looksLike (· = ':') then char ':' else char '='
  inlineBlanks
  let value ← inner.expr false
  match key with
  | .variable name => pure (.named name value)
  | key => pure (.computed key value)

/-- The items of an object up to the closing brace. -/
def objectItems (inner : Nonterminals) : Reader (List ObjectItem) :=
  iterate (fun (acc : List ObjectItem) => do
    if ← looksLike (· = '\x7d') then
      char '\x7d'
      pure (.inr acc)
    else
      let item ← objectItem inner
      let ended ← itemEnd
      let items := item.addTo acc
      if ended then
        char '\x7d'
        pure (.inr items)
      else pure (.inl items)) []

/-- An object or an object loop. -/
def object (inner : Nonterminals) : Reader Expr := do
  char '\x7b'
  freeBlanks
  if beginsLoop (← rest) then objectLoop inner
  else
    let items ← objectItems inner
    pure (.object items)

/-- The arguments of a call up to the closing parenthesis. -/
def callArguments (inner : Nonterminals) : Reader (List Expr) := do
  char '('
  freeBlanks
  iterate (fun (acc : List Expr) => do
    if ← looksLike (· = ')') then
      char ')'
      pure (.inr acc.reverse)
    else
      let e ← inner.expr false
      freeBlanks
      if ← looksLike (· = ',') then
        char ','
        freeBlanks
        pure (.inl (e :: acc))
      else
        if ← looksAt "..." then
          word "..."
          freeBlanks
        char ')'
        pure (.inr (e :: acc).reverse)) []

/-- A constant, a variable or a call. Free blanks may stand before the arguments of a call. -/
def nameTerm (inner : Nonterminals) : Reader Expr := do
  let word ← name
  let start ← here
  freeBlanks
  if ← looksLike (· = '(') then
    let args ← callArguments inner
    pure (.call word args)
  else
    restore start
    match word with
    | "null" => pure .null
    | "true" => pure (.bool true)
    | "false" => pure (.bool false)
    | word => pure (.variable word)

/-- An expression in parentheses. -/
def parenthesized (inner : Nonterminals) : Reader Expr := do
  char '('
  freeBlanks
  let e ← inner.expr true
  freeBlanks
  char ')'
  pure (.parens e)

/-- The prefix operators before a term, of which only the last one counts, and a minus sign that
belongs to a numeral. -/
def unaryOperators (free : Bool) : Reader (Option UnaryOp × Bool) :=
  iterate (fun (op : Option UnaryOp) => do
    if ← looksLike (· = '-') then
      char '-'
      let start ← here
      inlineBlanks
      if ← looksLike Char.isDigit then pure (.inr (op, true))
      else
        restore start
        blanks free
        pure (.inl (some .neg))
    else if ← looksLike (· = '!') then
      char '!'
      blanks free
      pure (.inl (some .not))
    else pure (.inr (op, false))) none

/-- A term without prefix operators. -/
def bareTerm (inner : Nonterminals) : Reader Expr := do
  let c ← peek
  if c = '"' then quoted inner
  else if c = '[' then list inner
  else if c = '\x7b' then object inner
  else if c = '(' then parenthesized inner
  else if c = '<' then heredoc inner
  else if c.isDigit then
    let n ← numeral
    pure (.number n)
  else nameTerm inner

/-- A term with its prefix operators. -/
def term (inner : Nonterminals) (free : Bool) : Reader Expr := do
  let (op, minus) ← unaryOperators free
  let e ← do
    if minus then
      let n ← numeral
      pure (Expr.number n.neg)
    else bareTerm inner
  match op with
  | some op => pure (.unary op e)
  | none => pure e

/-- A traversal step. -/
def step (inner : Nonterminals) : Reader Step := do
  if ← looksLike (· = '.') then
    char '.'
    freeBlanks
    let c ← peek
    if c = '*' then
      char '*'
      pure .attributeSplat
    else if c.isDigit then
      let n ← position
      pure (.position n)
    else
      let n ← name
      pure (.attribute n)
  else
    char '['
    freeBlanks
    if ← looksLike (· = '*') then
      char '*'
      freeBlanks
      char ']'
      pure .fullSplat
    else
      let e ← inner.expr false
      freeBlanks
      char ']'
      pure (.index e)

/-- Whether a traversal step begins here; two points do not. -/
def beginsStep : List Char → Bool
  | '.' :: '.' :: _ => false
  | '.' :: _ => true
  | '[' :: _ => true
  | _ => false

/-- The traversal steps after a term. -/
def steps (inner : Nonterminals) (free : Bool) : Reader (List Step) :=
  iterate (fun (acc : List Step) => do
    let start ← here
    blanks free
    if beginsStep (← rest) then
      let s ← step inner
      pure (.inl (s :: acc))
    else
      restore start
      pure (.inr acc.reverse)) []

/-- The binary operator at the beginning of a text, and the number of its characters. -/
def binaryOp? : List Char → Option (BinaryOp × Nat)
  | '=' :: '=' :: _ => some (.eq, 2)
  | '!' :: '=' :: _ => some (.notEq, 2)
  | '<' :: '=' :: _ => some (.lessEq, 2)
  | '>' :: '=' :: _ => some (.greaterEq, 2)
  | '&' :: '&' :: _ => some (.and, 2)
  | '|' :: '|' :: _ => some (.or, 2)
  | '<' :: _ => some (.less, 1)
  | '>' :: _ => some (.greater, 1)
  | '+' :: _ => some (.add, 1)
  | '-' :: _ => some (.sub, 1)
  | '*' :: _ => some (.mul, 1)
  | '%' :: _ => some (.rem, 1)
  | '/' :: '/' :: _ => none
  | '/' :: '*' :: _ => none
  | '/' :: _ => some (.div, 1)
  | _ => none

/-- One level of an expression. -/
def expression (inner : Nonterminals) (free : Bool) : Reader Expr := do
  let t ← term inner free
  let ss ← steps inner free
  let e := if ss.isEmpty then t else .traversal t ss
  let start ← here
  blanks free
  if ← looksLike (· = '?') then
    char '?'
    blanks free
    let yes ← inner.expr free
    blanks free
    char ':'
    blanks free
    let no ← inner.expr free
    pure (.conditional e yes no)
  else match binaryOp? (← rest) with
    | some (op, width) =>
      skip width
      blanks free
      let right ← inner.expr free
      pure (.binary e op right)
    | none =>
      restore start
      pure e

/-- The readers for a depth of nesting. -/
def nonterminals (depth : Nat) : Nonterminals := Nonterminals.at expression templateParts depth

end ConfigAudit.Syntax
