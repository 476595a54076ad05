import ConfigAudit.Evaluation.Access
import ConfigAudit.Evaluation.Operators
import ConfigAudit.Evaluation.Stripping
import ConfigAudit.Literal.Printer

/-!
# Evaluation

Expressions are evaluated under the variables of enclosing loops and nothing else: any other
variable and every call has no value, and an expression without a value leaves every expression
around it without one, except for branches that are not chosen. A quoted template that is a single
interpolation has the value of its expression, any other template is text.

Each expression denotes a tree of operations: a binary expression the tree of its operands, any
other expression a single value. The value of an expression is the value of its tree.
-/

namespace ConfigAudit

/-- The variables of enclosing loops, innermost first. -/
abbrev Scope := List (String × Literal)

/-- Bind the names of a loop to an element. The name of the value hides the name of the key. -/
def Binder.bind (binder : Binder) (scope : Scope) (key value : Literal) : Scope :=
  match binder.key with
  | some k => (binder.value, value) :: (k, key) :: scope
  | none => (binder.value, value) :: scope

namespace Literal

/-- A truth value. -/
def bool? : Literal → Option Bool
  | .bool b => some b
  | _ => none

/-- Collect keyed values: a repeated key is refused, or its values are collected when grouped. -/
def collect (grouped : Bool) (entries : List (String × Literal)) : Option Literal :=
  if grouped then
    let groups : OrderedMap (List Literal) :=
      entries.foldl (fun acc e => acc.insert e.1 ((acc.lookup e.1).getD [] ++ [e.2])) []
    some (.object (groups.map fun (k, vs) => (k, .list vs)))
  else if (entries.map Prod.fst).Nodup then some (.object entries)
  else none

end Literal

mutual

/-- The tree of operations that an expression denotes. -/
def Expr.operation : Expr → Scope → Option Operation
  | .null, _ => some (.leaf .null)
  | .bool b, _ => some (.leaf (.bool b))
  | .number n, _ => some (.leaf (.number n))
  | .string s, _ => some (.leaf (.string s))
  | .variable name, scope => (OrderedMap.lookup scope name).map .leaf
  | .template [.interpolation _ e], scope => do
    let v ← (e.operation scope).bind Operation.value
    some (.leaf v)
  | .template parts, scope => do
    let cs ← partsText parts false false scope
    some (.leaf (.string (String.ofList cs)))
  | .heredoc parts, scope => do
    let cs ← partsText parts false false scope
    some (.leaf (.string (String.ofList cs)))
  | .list items, scope => do
    let vs ← listValues items scope
    some (.leaf (.list vs))
  | .object items, scope => do
    let entries ← itemValues items scope
    some (.leaf (.object (OrderedMap.ofEntries entries)))
  | .parens inner, scope => do
    let v ← (inner.operation scope).bind Operation.value
    some (.leaf v)
  | .call _ _, _ => none
  | .unary op operand, scope => do
    let v ← (operand.operation scope).bind Operation.value
    (Literal.unary op v).map .leaf
  | .binary left op right, scope => do
    let l ← left.operation scope
    let r ← right.operation scope
    some (.node l op r)
  | .conditional condition yes no, scope => do
    let c ← (condition.operation scope).bind Operation.value
    let v ← match c with
      | .bool true => (yes.operation scope).bind Operation.value
      | .bool false => (no.operation scope).bind Operation.value
      | _ => none
    some (.leaf v)
  | .traversal base steps, scope => do
    let v ← (base.operation scope).bind Operation.value
    let accesses ← stepValues steps scope
    (v.follow accesses).map .leaf
  | .forList binder collection body filter, scope => do
    let c ← (collection.operation scope).bind Operation.value
    let elements ← c.elements?
    let vs ← elements.mapM fun (k, v) => do
      let inner := binder.bind scope k v
      if ← filterValue filter inner then
        let w ← (body.operation inner).bind Operation.value
        some [w]
      else some []
    some (.leaf (.list vs.flatten))
  | .forObject binder collection key body grouped filter, scope => do
    let c ← (collection.operation scope).bind Operation.value
    let elements ← c.elements?
    let entries ← elements.mapM fun (k, v) => do
      let inner := binder.bind scope k v
      if ← filterValue filter inner then
        let name ← ((key.operation inner).bind Operation.value).bind Literal.keyText?
        let w ← (body.operation inner).bind Operation.value
        some [(name, w)]
      else some []
    (Literal.collect grouped entries.flatten).map .leaf
termination_by structural e => e

/-- The truth value of a filter; without one every element is kept. -/
def filterValue : Option Expr → Scope → Option Bool
  | none, _ => some true
  | some e, scope => ((e.operation scope).bind Operation.value).bind Literal.bool?

/-- The values of expressions. -/
def listValues : List Expr → Scope → Option (List Literal)
  | [], _ => some []
  | e :: rest, scope => do
    let v ← (e.operation scope).bind Operation.value
    let vs ← listValues rest scope
    some (v :: vs)

/-- The key and value of an object item. -/
def ObjectItem.entry : ObjectItem → Scope → Option (String × Literal)
  | .named key e, scope => do
    let v ← (e.operation scope).bind Operation.value
    some (key, v)
  | .computed k e, scope => do
    let name ← ((k.operation scope).bind Operation.value).bind Literal.keyText?
    let v ← (e.operation scope).bind Operation.value
    some (name, v)

/-- The keys and values of object items. -/
def itemValues : List ObjectItem → Scope → Option (List (String × Literal))
  | [], _ => some []
  | item :: rest, scope => do
    let e ← item.entry scope
    let es ← itemValues rest scope
    some (e :: es)

/-- A traversal step with its key evaluated. -/
def Step.access : Step → Scope → Option Access
  | .attribute name, _ => some (.attribute name)
  | .position n, _ => some (.position n)
  | .index key, scope => do
    let v ← (key.operation scope).bind Operation.value
    some (.index v)
  | .attributeSplat, _ => some .attributeSplat
  | .fullSplat, _ => some .fullSplat

/-- Traversal steps with their keys evaluated. -/
def stepValues : List Step → Scope → Option (List Access)
  | [], _ => some []
  | step :: rest, scope => do
    let a ← step.access scope
    let as ← stepValues rest scope
    some (a :: as)

/-- The text of a part; for literal text, `before` and `after` tell whether it is stripped. -/
def Part.chars : Part → Bool → Bool → Scope → Option (List Char)
  | .text s, before, after, _ => some (stripText before after s)
  | .interpolation _ e, _, _, scope => do
    let v ← (e.operation scope).bind Operation.value
    some v.textChars
  | .choice condition opening yes middle no closing, _, _, scope => do
    let c ← (condition.operation scope).bind Operation.value
    match c with
    | .bool true => partsText yes opening.after (middle.getD closing).before scope
    | .bool false => partsText no ((middle.getD closing).after) closing.before scope
    | _ => none
  | .repetition binder collection opening body closing, _, _, scope => do
    let c ← (collection.operation scope).bind Operation.value
    let elements ← c.elements?
    let texts ← elements.mapM fun (k, v) =>
      partsText body opening.after closing.before (binder.bind scope k v)
    some texts.flatten

/-- The text of parts between a possible strip marker before and one after them. -/
def partsText : List Part → Bool → Bool → Scope → Option (List Char)
  | [], _, _, _ => some []
  | p :: rest, before, after, scope => do
    let cs ← p.chars before (Part.nextStrips rest after) scope
    let ds ← partsText rest p.stripsAfter after scope
    some (cs ++ ds)

end

/-- The value of an expression under the variables of loops. -/
def Expr.eval (e : Expr) (scope : Scope) : Option Literal := (e.operation scope).bind Operation.value

/-- The value of an expression without any variables. -/
def Expr.literal? (e : Expr) : Option Literal := e.eval []

end ConfigAudit
