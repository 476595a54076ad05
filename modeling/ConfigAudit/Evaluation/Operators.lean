import ConfigAudit.Literal.Basic
import ConfigAudit.Syntax.Expr

/-!
# Operators

The value of a tree of binary operations over literals. The reader nests operators to the right;
before an operation is computed, its operands that are operations themselves are regrouped, and then
the operation with them, so that operators of higher precedence come first. Operators of equal
precedence are left as they are.

Regrouping keeps the number of operations, which bounds the computation.
-/

namespace ConfigAudit

/-- The binding strength of an operator. -/
def BinaryOp.precedence : BinaryOp → Nat
  | .mul | .div | .rem => 6
  | .add | .sub => 5
  | .less | .lessEq | .greater | .greaterEq => 4
  | .eq | .notEq => 3
  | .and => 2
  | .or => 1

namespace Literal

/-- A prefix operation. -/
def unary : UnaryOp → Literal → Option Literal
  | .neg, .number n => some (.number n.neg)
  | .not, .bool b => some (.bool !b)
  | _, _ => none

/-- An arithmetic operation; operands that are no numbers have no result. -/
def arithmetic (op : Number → Number → Option Number) : Literal → Literal → Option Literal
  | .number a, .number b => (op a b).map .number
  | _, _ => none

/-- A comparison of numbers. -/
def comparison (op : Number → Number → Bool) : Literal → Literal → Option Literal
  | .number a, .number b => some (.bool (op a b))
  | _, _ => none

/-- A logical operation. -/
def logical (op : Bool → Bool → Bool) : Literal → Literal → Option Literal
  | .bool a, .bool b => some (.bool (op a b))
  | _, _ => none

/-- A binary operation. -/
def binary : BinaryOp → Literal → Literal → Option Literal
  | .mul => arithmetic Number.mul
  | .div => arithmetic Number.div
  | .rem => arithmetic Number.rem
  | .add => arithmetic Number.add
  | .sub => arithmetic Number.sub
  | .less => comparison Number.numLt
  | .lessEq => comparison fun a b => a.numLt b || a.numEq b
  | .greater => comparison fun a b => b.numLt a
  | .greaterEq => comparison fun a b => b.numLt a || a.numEq b
  | .eq => fun a b => some (.bool (a.equal b))
  | .notEq => fun a b => some (.bool !(a.equal b))
  | .and => logical (· && ·)
  | .or => logical (· || ·)

end Literal

/-- A tree of binary operations over literals. -/
inductive Operation
  | leaf (value : Literal)
  | node (left : Operation) (op : BinaryOp) (right : Operation)

namespace Operation

/-- The number of operations. -/
def size : Operation → Nat
  | .leaf _ => 0
  | .node l _ r => l.size + r.size + 1

/-- The top operation of a tree. -/
structure Top where
  left : Operation
  op : BinaryOp
  right : Operation

/-- The number of operations. -/
def Top.size (t : Top) : Nat := t.left.size + t.right.size + 1

/-- The tree of a top operation. -/
def Top.toOperation (t : Top) : Operation := .node t.left t.op t.right

/-- Regroup an operation whose right operand is an operation. -/
def regroupRight (a : Operation) (op : BinaryOp) (b : Operation) (r : BinaryOp) (c : Operation) :
    Top :=
  if r.precedence < op.precedence then ⟨.node a op b, r, c⟩ else ⟨a, op, .node b r c⟩

/-- Regroup an operation whose left operand is an operation. -/
def regroupLeft (a : Operation) (l : BinaryOp) (b : Operation) (op : BinaryOp) (c : Operation) :
    Top :=
  if l.precedence < op.precedence then ⟨a, l, .node b op c⟩ else ⟨.node a l b, op, c⟩

/-- Regroup an operation with regrouped operands. -/
def regroupTop : Operation → BinaryOp → Operation → Top
  | .node a l b, op, .node c r d =>
    if l.precedence < op.precedence then ⟨a, l, (regroupRight b op c r d).toOperation⟩
    else if r.precedence < op.precedence then ⟨(regroupLeft a l b op c).toOperation, r, d⟩
    else ⟨.node a l b, op, .node c r d⟩
  | a, op, .node b r c => regroupRight a op b r c
  | .node a l b, op, c => regroupLeft a l b op c
  | a, op, b => ⟨a, op, b⟩

/-- Regroup an operation, its operands first. -/
def regroup : Operation → Operation
  | .leaf v => .leaf v
  | .node l op r => (regroupTop l.regroup op r.regroup).toOperation

theorem size_regroupTop (l : Operation) (op : BinaryOp) (r : Operation) :
    (regroupTop l op r).size = l.size + r.size + 1 := by
  cases l <;> cases r <;> simp only [regroupTop, regroupRight, regroupLeft] <;> (repeat' split) <;>
    simp only [Top.size, Top.toOperation, size] <;> omega

theorem size_regroup (t : Operation) : t.regroup.size = t.size := by
  induction t with
  | leaf => rfl
  | node l op r ihl ihr =>
    have h := size_regroupTop l.regroup op r.regroup
    simp only [Top.size] at h
    simp only [regroup, Top.toOperation, size]
    omega

/-- The value of a tree. Both operands are computed, also those of logical operators. -/
def value : Operation → Option Literal
  | .leaf v => some v
  | .node l op r =>
    match h : regroupTop l.regroup op r.regroup with
    | ⟨a, top, b⟩ => do
      have hsize : a.size + b.size + 1 = l.size + r.size + 1 := by
        have := size_regroupTop l.regroup op r.regroup
        rw [h, size_regroup, size_regroup] at this
        exact this
      let x ← a.value
      let y ← b.value
      Literal.binary top x y
termination_by t => t.size
decreasing_by all_goals simp only [size]; omega

end Operation

end ConfigAudit
