import ConfigAudit.Syntax.Expr

/-!
# Sameness of expressions

Two expressions are the same when they have the same syntax tree; numbers are compared by value.
An object literal uses it to let a repeated key replace the earlier item.
-/

namespace ConfigAudit

mutual

/-- Whether two expressions have the same syntax tree. -/
def Expr.same : Expr → Expr → Bool
  | .null, .null => true
  | .bool a, .bool b => a == b
  | .number a, .number b => a.numEq b
  | .string a, .string b => a == b
  | .variable a, .variable b => a == b
  | .template p, .template q => sameParts p q
  | .heredoc p, .heredoc q => sameParts p q
  | .list xs, .list ys => sameExprs xs ys
  | .object xs, .object ys => sameItems xs ys
  | .parens a, .parens b => a.same b
  | .call f xs, .call g ys => f == g && sameExprs xs ys
  | .unary o a, .unary o' b => o == o' && a.same b
  | .binary a o b, .binary a' o' b' => o == o' && a.same a' && b.same b'
  | .conditional a b c, .conditional a' b' c' => a.same a' && b.same b' && c.same c'
  | .traversal a xs, .traversal b ys => a.same b && sameSteps xs ys
  | .forList n c b f, .forList n' c' b' f' =>
    n == n' && c.same c' && b.same b' && sameFilter f f'
  | .forObject n c k b g f, .forObject n' c' k' b' g' f' =>
    n == n' && c.same c' && k.same k' && b.same b' && g == g' && sameFilter f f'
  | _, _ => false

/-- Sameness of optional expressions. -/
def sameFilter : Option Expr → Option Expr → Bool
  | none, none => true
  | some a, some b => a.same b
  | _, _ => false

/-- Sameness of lists of expressions. -/
def sameExprs : List Expr → List Expr → Bool
  | [], [] => true
  | a :: xs, b :: ys => a.same b && sameExprs xs ys
  | _, _ => false

/-- Sameness of object items. -/
def ObjectItem.same : ObjectItem → ObjectItem → Bool
  | .named k a, .named l b => k == l && a.same b
  | .computed k a, .computed l b => k.same l && a.same b
  | _, _ => false

/-- Sameness of lists of object items. -/
def sameItems : List ObjectItem → List ObjectItem → Bool
  | [], [] => true
  | a :: xs, b :: ys => a.same b && sameItems xs ys
  | _, _ => false

/-- Sameness of traversal steps. -/
def Step.same : Step → Step → Bool
  | .attribute a, .attribute b => a == b
  | .position a, .position b => a == b
  | .index a, .index b => a.same b
  | .attributeSplat, .attributeSplat => true
  | .fullSplat, .fullSplat => true
  | _, _ => false

/-- Sameness of lists of steps. -/
def sameSteps : List Step → List Step → Bool
  | [], [] => true
  | a :: xs, b :: ys => a.same b && sameSteps xs ys
  | _, _ => false

/-- Sameness of template parts. -/
def Part.same : Part → Part → Bool
  | .text a, .text b => a == b
  | .interpolation s a, .interpolation s' b => s == s' && a.same b
  | .choice c o y m n e, .choice c' o' y' m' n' e' =>
    o == o' && m == m' && e == e' && c.same c' && sameParts y y' && sameParts n n'
  | .repetition n c o b e, .repetition n' c' o' b' e' =>
    n == n' && o == o' && e == e' && c.same c' && sameParts b b'
  | _, _ => false

/-- Sameness of lists of template parts. -/
def sameParts : List Part → List Part → Bool
  | [], [] => true
  | a :: xs, b :: ys => a.same b && sameParts xs ys
  | _, _ => false

end

/-- Whether two items have the same key. -/
def ObjectItem.sameKey : ObjectItem → ObjectItem → Bool
  | .named k _, .named l _ => k == l
  | .computed k _, .computed l _ => k.same l
  | _, _ => false

/-- Add an item to an object literal; it takes the place of an item with the same key. -/
def ObjectItem.addTo (item : ObjectItem) : List ObjectItem → List ObjectItem
  | [] => [item]
  | old :: rest => if old.sameKey item then item :: rest else old :: item.addTo rest

end ConfigAudit
