import ConfigAudit.Number

/-!
# Expressions

The syntax of expressions and of the templates inside them. Parentheses are kept, since they bound
the regrouping of operators, and so are the strip markers of templates.
-/

namespace ConfigAudit

/-- Prefix operators, of arithmetic and of logic. -/
inductive UnaryOp
  | neg
  | not
  deriving DecidableEq, Repr

/-- Operators between two expressions. -/
inductive BinaryOp
  | mul | div | rem | add | sub
  | less | lessEq | greater | greaterEq
  | eq | notEq
  | and | or
  deriving DecidableEq, Repr

/-- Strip markers of an interpolation or directive: one at its beginning strips the text before it,
one at its end the text after it. -/
structure Strip where
  before : Bool
  after : Bool
  deriving DecidableEq, Repr

/-- The head of a loop: the collection is bound to a value name and possibly a name for the key or
index. -/
structure Binder where
  key : Option String
  value : String
  deriving DecidableEq, Repr

mutual

/-- Expressions. A `template` is a quoted string with interpolations or directives; a `heredoc`
stands over several lines, and its value is a text even if it is a single interpolation. Loops build
lists or objects and may have a filter; if an object is `grouped`, the values of equal keys are
collected in lists. -/
inductive Expr
  | null
  | bool (b : Bool)
  | number (n : Number)
  | string (s : String)
  | variable (name : String)
  | template (parts : List Part)
  | heredoc (parts : List Part)
  | list (items : List Expr)
  | object (items : List ObjectItem)
  | parens (inner : Expr)
  | call (function : String) (args : List Expr)
  | unary (op : UnaryOp) (operand : Expr)
  | binary (left : Expr) (op : BinaryOp) (right : Expr)
  | conditional (condition yes no : Expr)
  | traversal (base : Expr) (steps : List Step)
  | forList (binder : Binder) (collection body : Expr) (filter : Option Expr)
  | forObject (binder : Binder) (collection key body : Expr) (grouped : Bool)
      (filter : Option Expr)

/-- An item of an object: a key that names itself, or a key that is computed. -/
inductive ObjectItem
  | named (key : String) (value : Expr)
  | computed (key value : Expr)

/-- Steps of a traversal: `.name`, `.2`, `[key]`, and the two splats: `.*` spreads over the
attributes that follow, `[*]` over all steps that follow. -/
inductive Step
  | attribute (name : String)
  | position (index : Nat)
  | index (key : Expr)
  | attributeSplat
  | fullSplat

/-- Parts of a template. A choice has three markers; without an else part there is no middle marker.
A repetition has two. -/
inductive Part
  | text (s : List Char)
  | interpolation (strip : Strip) (expr : Expr)
  | choice (condition : Expr) (opening : Strip) (yes : List Part)
      (middle : Option Strip) (no : List Part) (closing : Strip)
  | repetition (binder : Binder) (collection : Expr) (opening : Strip) (body : List Part)
      (closing : Strip)

end

instance : Inhabited Expr := ⟨.null⟩

end ConfigAudit
