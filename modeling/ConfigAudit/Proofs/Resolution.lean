import ConfigAudit.Proofs.Evaluation
import ConfigAudit.Resolution

/-!
# Literal values and references

An expression is walked in two ways: it is evaluated, and a reference is read off its syntax. The
reading looks through traversals, parentheses and single interpolations, and evaluation has no value
for any of these without a value of the inner expression. So a reference, which begins with a
variable that is not bound, is never evaluated, and the two results of resolution exclude each
other.

* `eval_eq_none_of_reference?`: a reference has no value where its root is not bound;
* `resolve?_eq`: what an expression resolves to;
* `reference_never_evaluates`: all of this without any variables.
-/

namespace ConfigAudit.Expr

/-! ### References have no value -/

/-- A reference has no value where its root is not bound. -/
theorem eval_eq_none_of_reference? {e : Expr} {r : Reference} (h : e.reference? = some r)
    {scope : Scope} (hroot : OrderedMap.lookup scope r.root = none) : e.eval scope = none := by
  fun_induction Expr.reference? e generalizing r with
  | case1 name =>
    cases h
    rw [eval_variable, hroot]
  | case2 base steps ih =>
    -- the segments go to the end, so the root is the one of the base
    obtain ⟨prior, hbase, h⟩ := Option.bind_eq_some_iff.1 h
    obtain ⟨segments, -, h⟩ := Option.bind_eq_some_iff.1 h
    cases h
    rw [eval_traversal, ih hbase hroot, Option.bind_none]
  | case3 inner ih => rw [eval_parens, ih h hroot]
  | case4 strip inner ih => rw [eval_interpolation, ih h hroot]
  | case5 strip inner ih => rw [eval_heredoc_interpolation, ih h hroot, Option.map_none]
  | case6 => cases h

theorem literal?_eq_none_of_path? {e : Expr} {path : String} (h : e.path? = some path) :
    e.literal? = none := by
  obtain ⟨r, hr, -⟩ := Option.map_eq_some_iff.1 h
  exact eval_eq_none_of_reference? hr rfl

/-! ### Resolution -/

/-- An expression resolves to its literal value or else to the path of its reference. -/
theorem resolve?_eq (e : Expr) :
    e.resolve? = (e.literal?.map Value.ofLiteral).or (e.path?.map .string) := by
  rw [resolve?, evaluateLiteral]
  cases e.literal? with
  | some v => rfl
  | none => cases e.path? <;> rfl

/-- **References are never evaluated.** An expression that denotes a reference has no literal value,
is reported as this reference and resolves to its path; and only an expression that has neither a
literal value nor a path does not resolve. -/
theorem reference_never_evaluates (e : Expr) :
    (∀ path, e.path? = some path →
      e.literal? = none ∧ e.evaluateLiteral = .error (.reference path) ∧
        e.resolve? = some (.string path)) ∧
    (e.resolve? = none ↔ e.literal? = none ∧ e.path? = none) := by
  refine ⟨fun path hpath => ?_, ?_⟩
  · have hliteral := literal?_eq_none_of_path? hpath
    refine ⟨hliteral, ?_, ?_⟩
    · rw [evaluateLiteral, hliteral, hpath]
    · rw [resolve?_eq, hliteral, hpath]
      rfl
  · rw [resolve?_eq, Option.or_eq_none_iff, Option.map_eq_none_iff, Option.map_eq_none_iff]

/-- A reference behind an interpolation and parentheses: `("${a.b}")["c"]`. -/
def wrappedReference : Expr :=
  .traversal
    (.parens (.template [.interpolation ⟨false, false⟩ (.traversal (.variable "a")
      [.attribute "b"])]))
    [.index (.string "c")]

theorem wrappedReference_never_evaluates :
    wrappedReference.path? = some "a.b[\"c\"]" ∧ wrappedReference.literal? = none ∧
      wrappedReference.evaluateLiteral = .error (.reference "a.b[\"c\"]") ∧
      wrappedReference.resolve? = some (.string "a.b[\"c\"]") := by
  have hpath : wrappedReference.path? = some "a.b[\"c\"]" := by with_unfolding_all rfl
  exact ⟨hpath, (reference_never_evaluates wrappedReference).1 _ hpath⟩

end ConfigAudit.Expr
