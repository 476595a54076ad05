import ConfigAudit.Evaluation.Basic

/-!
# Evaluation by the shape of an expression

Evaluation goes through trees of operations, which only matter to binary expressions. The equations
of this module say what every other expression evaluates to in terms of the values of its parts:
a part without a value leaves the whole without one, up to branches that are not chosen. Of a binary
expression it is enough to know that its value is the result of some operation
(`eval_binary_eq_some`), whatever the regrouping makes of the operands.
-/

namespace ConfigAudit

@[simp] theorem Operation.value_leaf (v : Literal) : (leaf v).value = some v := by rw [value]

@[simp] theorem Operation.map_leaf_bind_value (v : Option Literal) :
    (v.map leaf).bind value = v := by
  cases v with
  | none => rfl
  | some w => rw [Option.map_some, Option.bind_some, value_leaf]

namespace Expr

attribute [local simp] eval operation Option.bind_assoc Option.map_eq_bind Function.comp_def

variable (scope : Scope)

theorem eval_null : null.eval scope = some .null := by simp

theorem eval_bool (b : Bool) : (Expr.bool b).eval scope = some (.bool b) := by simp

theorem eval_number (n : Number) : (Expr.number n).eval scope = some (.number n) := by simp

theorem eval_string (s : String) : (Expr.string s).eval scope = some (.string s) := by simp

theorem eval_variable (name : String) :
    (Expr.variable name).eval scope = OrderedMap.lookup scope name := by
  simp

theorem eval_interpolation (strip : Strip) (inner : Expr) :
    (template [.interpolation strip inner]).eval scope = inner.eval scope := by
  simp

/-- Any other template is text. -/
theorem eval_template {parts : List Part}
    (h : ∀ strip inner, parts ≠ [.interpolation strip inner]) :
    (template parts).eval scope =
      (partsText parts false false scope).map fun cs => .string (String.ofList cs) := by
  rw [eval, operation]
  · simp
  · exact h

theorem eval_heredoc (parts : List Part) :
    (heredoc parts).eval scope =
      (partsText parts false false scope).map fun cs => .string (String.ofList cs) := by
  simp

/-- Across lines, a single interpolation is text as well. -/
theorem eval_heredoc_interpolation (strip : Strip) (inner : Expr) :
    (heredoc [.interpolation strip inner]).eval scope =
      (inner.eval scope).map fun v => .string (String.ofList v.textChars) := by
  simp [partsText, Part.chars]

theorem eval_list (items : List Expr) :
    (list items).eval scope = (listValues items scope).map .list := by
  simp

theorem eval_object (items : List ObjectItem) :
    (object items).eval scope =
      (itemValues items scope).map fun entries => .object (OrderedMap.ofEntries entries) := by
  simp

theorem eval_parens (inner : Expr) : (parens inner).eval scope = inner.eval scope := by
  simp

theorem eval_call (function : String) (args : List Expr) :
    (call function args).eval scope = none := by
  simp

theorem eval_unary (op : UnaryOp) (operand : Expr) :
    (unary op operand).eval scope = (operand.eval scope).bind (Literal.unary op) := by
  simp

variable {scope} in
/-- Every value of a binary expression is the result of an operation. -/
theorem eval_binary_eq_some {left right : Expr} {op : BinaryOp} {v : Literal}
    (h : (binary left op right).eval scope = some v) :
    ∃ top x y, Literal.binary top x y = some v := by
  rw [eval, operation] at h
  obtain ⟨t, ht, hv⟩ := Option.bind_eq_some_iff.1 h
  obtain ⟨l, -, ht⟩ := Option.bind_eq_some_iff.1 ht
  obtain ⟨r, -, ht⟩ := Option.bind_eq_some_iff.1 ht
  cases ht
  rw [Operation.value] at hv
  obtain ⟨x, -, hv⟩ := Option.bind_eq_some_iff.1 hv
  obtain ⟨y, -, hv⟩ := Option.bind_eq_some_iff.1 hv
  exact ⟨_, x, y, hv⟩

theorem eval_conditional (condition yes no : Expr) :
    (conditional condition yes no).eval scope =
      (condition.eval scope).bind fun c => c.bool?.bind fun b =>
        if b then yes.eval scope else no.eval scope := by
  simp only [eval, operation]
  cases (condition.operation scope).bind Operation.value with
  | none => rfl
  | some c =>
    cases c with
    | bool b => cases b <;> simp [Literal.bool?]
    | _ => rfl

theorem eval_traversal (base : Expr) (steps : List Step) :
    (traversal base steps).eval scope =
      (base.eval scope).bind fun v => (stepValues steps scope).bind v.follow := by
  simp

theorem eval_forList (binder : Binder) (collection body : Expr) (filter : Option Expr) :
    (forList binder collection body filter).eval scope =
      (collection.eval scope).bind fun c => c.elements?.bind fun elements =>
        (elements.mapM fun e => (filterValue filter (binder.bind scope e.1 e.2)).bind fun kept =>
          if kept then (body.eval (binder.bind scope e.1 e.2)).map ([·]) else some []).map
            fun vs => .list vs.flatten := by
  simp

theorem eval_forObject (binder : Binder) (collection key body : Expr) (grouped : Bool)
    (filter : Option Expr) :
    (forObject binder collection key body grouped filter).eval scope =
      (collection.eval scope).bind fun c => c.elements?.bind fun elements =>
        (elements.mapM fun e => (filterValue filter (binder.bind scope e.1 e.2)).bind fun kept =>
          if kept then
            ((key.eval (binder.bind scope e.1 e.2)).bind Literal.keyText?).bind fun name =>
              (body.eval (binder.bind scope e.1 e.2)).map fun w => [(name, w)]
          else some []).bind fun entries => Literal.collect grouped entries.flatten := by
  simp

end Expr

end ConfigAudit
