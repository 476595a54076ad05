import ConfigAudit.Proofs.Doubles
import ConfigAudit.Proofs.Resolution

/-!
# What denotes a reference

The references that expressions denote, as rules. A variable denotes itself, parentheses and single
interpolations denote what is inside them, and a traversal adds one segment for each of its steps:

* a name or a position stands for itself;
* an index key stands for the whole part of its number, brought into the signed range of 64 bits, or
  for its string.

Whatever no rule reaches denotes nothing: splats, other keys and other expressions.

* `Expr.Denotes`, `Expr.Refused`: the rules, and what they leave out;
* `reference?_eq_some_iff`, `reference?_eq_none_iff`: references are read off by these rules;
* `Reference.path_eq`: how a reference is written;
* `path_of_reference`: both together, and that grouping does not matter.
-/

namespace ConfigAudit

/-! ### Rules -/

/-- The segment that a step stands for. -/
inductive Step.Denotes : Step → Segment → Prop
  | name (s : String) : Denotes (.attribute s) (.name s)
  | position (n : ℕ) : Denotes (.position n) (.index n)
  | number {key : Expr} {n : Number} (hkey : key.literal? = some (.number n)) :
      Denotes (.index key) (.index (Segment.clamp (wholePart n.toRat)))
  | string {key : Expr} {s : String} (hkey : key.literal? = some (.string s)) :
      Denotes (.index key) (.key s)

/-- A step that stands for no segment. -/
inductive Step.Refused : Step → Prop
  | attributeSplat : Refused .attributeSplat
  | fullSplat : Refused .fullSplat
  | unevaluated {key : Expr} (hkey : key.literal? = none) : Refused (.index key)
  | otherType {key : Expr} {v : Literal} (hkey : key.literal? = some v)
      (hnumber : ∀ n, v ≠ .number n) (hstring : ∀ s, v ≠ .string s) : Refused (.index key)

namespace Expr

/-- The reference that an expression denotes. -/
inductive Denotes : Expr → Reference → Prop
  | root (name : String) : Denotes (.variable name) ⟨name, []⟩
  | parens {inner : Expr} {r : Reference} (h : inner.Denotes r) : Denotes (.parens inner) r
  | interpolation {strip : Strip} {inner : Expr} {r : Reference} (h : inner.Denotes r) :
      Denotes (.template [.interpolation strip inner]) r
  | lines {strip : Strip} {inner : Expr} {r : Reference} (h : inner.Denotes r) :
      Denotes (.heredoc [.interpolation strip inner]) r
  | traversal {base : Expr} {root : String} {before segments : List Segment} {steps : List Step}
      (h : base.Denotes ⟨root, before⟩) (hsteps : List.Forall₂ Step.Denotes steps segments) :
      Denotes (.traversal base steps) ⟨root, before ++ segments⟩

/-- An expression of a kind that no reference is made of. -/
def IsForeign : Expr → Prop
  | .variable _ => False
  | .traversal _ _ => False
  | .parens _ => False
  | .template [.interpolation _ _] => False
  | .heredoc [.interpolation _ _] => False
  | _ => True

/-- An expression that denotes no reference. -/
inductive Refused : Expr → Prop
  | foreign {e : Expr} (h : e.IsForeign) : Refused e
  | parens {inner : Expr} (h : inner.Refused) : Refused (.parens inner)
  | interpolation {strip : Strip} {inner : Expr} (h : inner.Refused) :
      Refused (.template [.interpolation strip inner])
  | lines {strip : Strip} {inner : Expr} (h : inner.Refused) :
      Refused (.heredoc [.interpolation strip inner])
  | base {base : Expr} {steps : List Step} (h : base.Refused) : Refused (.traversal base steps)
  | step {base : Expr} {steps : List Step} {step : Step} (hmem : step ∈ steps)
      (h : step.Refused) : Refused (.traversal base steps)

end Expr

/-! ### Segments -/

theorem Segment.ofNumber_eq (n : Number) :
    Segment.ofNumber n = .index (Segment.clamp (wholePart n.toRat)) := by
  cases n with
  | whole n => rw [ofNumber, Number.toRat, wholePart_intCast]
  | real x =>
    cases x with
    | finite s m e =>
      rw [ofNumber, Double.truncate?_finite, Option.getD_some]
      rfl
    | _ =>
      have hzero : wholePart 0 = 0 := by simp [wholePart]
      simp [ofNumber, Double.truncate?, Number.toRat, Double.toRat, hzero]

namespace Step

theorem Denotes.segment?_eq {step : Step} {s : Segment} (h : step.Denotes s) :
    step.segment? = some s := by
  cases h with
  | name s => rfl
  | position n => rfl
  | number hkey => rw [segment?, hkey, Option.bind_some, Segment.ofKey?, Segment.ofNumber_eq]
  | string hkey => rw [segment?, hkey, Option.bind_some, Segment.ofKey?]

theorem Refused.segment?_eq {step : Step} (h : step.Refused) : step.segment? = none := by
  cases h with
  | attributeSplat => rfl
  | fullSplat => rfl
  | unevaluated hkey => rw [segment?, hkey, Option.bind_none]
  | @otherType key v hkey hnumber hstring =>
    rw [segment?, hkey, Option.bind_some]
    cases v with
    | number n => exact absurd rfl (hnumber n)
    | string s => exact absurd rfl (hstring s)
    | _ => rfl

/-- A step stands for a segment or is refused. -/
theorem denotes_or_refused (step : Step) : (∃ s, step.Denotes s) ∨ step.Refused := by
  match step with
  | .attribute s => exact .inl ⟨_, .name s⟩
  | .position n => exact .inl ⟨_, .position n⟩
  | .attributeSplat => exact .inr .attributeSplat
  | .fullSplat => exact .inr .fullSplat
  | .index key =>
    cases hkey : key.literal? with
    | none => exact .inr (.unevaluated hkey)
    | some v =>
      cases v with
      | number n => exact .inl ⟨_, .number hkey⟩
      | string s => exact .inl ⟨_, .string hkey⟩
      | _ => exact .inr (.otherType hkey (by simp) (by simp))

theorem segment?_eq_some_iff {step : Step} {s : Segment} :
    step.segment? = some s ↔ step.Denotes s := by
  constructor
  · intro h
    rcases step.denotes_or_refused with ⟨s', hs'⟩ | hrefused
    · rw [hs'.segment?_eq] at h
      cases h
      exact hs'
    · rw [hrefused.segment?_eq] at h
      cases h
  · exact Denotes.segment?_eq

theorem segment?_eq_none_iff {step : Step} : step.segment? = none ↔ step.Refused := by
  constructor
  · intro h
    rcases step.denotes_or_refused with ⟨s, hs⟩ | hrefused
    · rw [hs.segment?_eq] at h
      cases h
    · exact hrefused
  · exact Refused.segment?_eq

theorem mapM_segment?_eq_some_iff {steps : List Step} {segments : List Segment} :
    steps.mapM segment? = some segments ↔ List.Forall₂ Denotes steps segments := by
  induction steps generalizing segments with
  | nil => simp [eq_comm]
  | cons step rest ih =>
    rw [List.mapM_cons, List.forall₂_cons_left_iff]
    constructor
    · intro h
      obtain ⟨s, hs, h⟩ := Option.bind_eq_some_iff.1 h
      obtain ⟨ss, hss, h⟩ := Option.bind_eq_some_iff.1 h
      cases h
      exact ⟨s, ss, segment?_eq_some_iff.1 hs, ih.1 hss, rfl⟩
    · rintro ⟨s, ss, hs, hss, rfl⟩
      rw [segment?_eq_some_iff.2 hs, ih.2 hss]
      rfl

theorem mapM_segment?_eq_none_iff {steps : List Step} :
    steps.mapM segment? = none ↔ ∃ step ∈ steps, step.Refused := by
  induction steps with
  | nil => simp
  | cons step rest ih =>
    rw [List.mapM_cons, List.exists_mem_cons_iff, ← ih, ← segment?_eq_none_iff]
    cases step.segment? with
    | none => simp
    | some s => cases rest.mapM segment? <;> simp

end Step

namespace Expr

/-! ### References -/

theorem Denotes.reference?_eq {e : Expr} {r : Reference} (h : e.Denotes r) :
    e.reference? = some r := by
  induction h with
  | root name => rfl
  | parens _ ih => rw [reference?, ih]
  | interpolation _ ih => rw [reference?, ih]
  | lines _ ih => rw [reference?, ih]
  | traversal _ hsteps ih =>
    rw [reference?, ih, Step.mapM_segment?_eq_some_iff.2 hsteps]
    rfl

theorem IsForeign.reference?_eq {e : Expr} (h : e.IsForeign) : e.reference? = none := by
  fun_cases Expr.reference? e with
  | case6 => rfl
  | _ => exact h.elim

theorem Refused.reference?_eq {e : Expr} (h : e.Refused) : e.reference? = none := by
  induction h with
  | foreign h => exact h.reference?_eq
  | parens _ ih => rw [reference?, ih]
  | interpolation _ ih => rw [reference?, ih]
  | lines _ ih => rw [reference?, ih]
  | base _ ih =>
    rw [reference?, ih]
    rfl
  | @step base steps step hmem h =>
    rw [reference?, Step.mapM_segment?_eq_none_iff.2 ⟨step, hmem, h⟩]
    cases base.reference? <;> rfl

/-- Every expression denotes a reference or is refused. -/
theorem denotes_or_refused (e : Expr) : (∃ r, e.Denotes r) ∨ e.Refused := by
  fun_induction Expr.reference? e with
  | case1 name => exact .inl ⟨_, .root name⟩
  | case2 base steps ih =>
    rcases ih with ⟨⟨root, before⟩, hbase⟩ | hbase
    · -- the base is a reference, so the steps decide
      cases hsteps : steps.mapM Step.segment? with
      | none =>
        obtain ⟨step, hmem, hstep⟩ := Step.mapM_segment?_eq_none_iff.1 hsteps
        exact .inr (.step hmem hstep)
      | some segments =>
        exact .inl ⟨_, .traversal hbase (Step.mapM_segment?_eq_some_iff.1 hsteps)⟩
    · exact .inr (.base hbase)
  | case3 inner ih =>
    exact ih.imp (Exists.imp fun _ h => .parens h) .parens
  | case4 strip inner ih =>
    exact ih.imp (Exists.imp fun _ h => .interpolation h) .interpolation
  | case5 strip inner ih =>
    exact ih.imp (Exists.imp fun _ h => .lines h) .lines
  | case6 e hvariable htraversal hparens hinterpolation hlines =>
    refine .inr (.foreign ?_)
    unfold IsForeign
    split <;> simp_all

theorem reference?_eq_some_iff {e : Expr} {r : Reference} :
    e.reference? = some r ↔ e.Denotes r := by
  constructor
  · intro h
    rcases e.denotes_or_refused with ⟨r', hr'⟩ | hrefused
    · rw [hr'.reference?_eq] at h
      cases h
      exact hr'
    · rw [hrefused.reference?_eq] at h
      cases h
  · exact Denotes.reference?_eq

theorem reference?_eq_none_iff {e : Expr} : e.reference? = none ↔ e.Refused := by
  constructor
  · intro h
    rcases e.denotes_or_refused with ⟨r, hr⟩ | hrefused
    · rw [hr.reference?_eq] at h
      cases h
    · exact hrefused
  · exact Refused.reference?_eq

end Expr

/-! ### Paths -/

/-- The text of a segment: a name after a point, an index or a quoted key in brackets. -/
def Segment.text : Segment → String
  | .name s => "." ++ s
  | .index n => "[" ++ toString n ++ "]"
  | .key s => "[" ++ String.ofList (Quoted.encode s.toList) ++ "]"

theorem Number.ofList_wholeChars (n : ℤ) : String.ofList (Number.wholeChars n) = toString n := by
  rw [Int.toString_eq_repr]
  cases n with
  | ofNat n =>
    have hn : ¬ Int.ofNat n < 0 := not_lt.2 (Int.natCast_nonneg n)
    rw [Number.wholeChars, if_neg hn]
    exact Nat.repr_eq_ofList_toDigits.symm
  | negSucc n =>
    rw [Number.wholeChars, if_pos (Int.negSucc_lt_zero n), String.ofList_cons]
    change _ = "-" ++ (n + 1).repr
    rw [Nat.repr_eq_ofList_toDigits]
    rfl

theorem Segment.ofList_chars (s : Segment) : String.ofList s.chars = s.text := by
  cases s with
  | name s => simp [chars, text, String.ofList_cons]
  | index n => simp [chars, text, String.ofList_cons, Number.ofList_wholeChars, String.append_assoc]
  | key s => simp [chars, text, String.ofList_cons, String.append_assoc]

/-- The path of a reference writes the root and the segments one after the other. -/
theorem Reference.path_eq (r : Reference) :
    r.path = r.root ++ String.join (r.segments.map Segment.text) := by
  have hsegments (segments : List Segment) : String.ofList (segments.flatMap Segment.chars) =
      String.join (segments.map Segment.text) := by
    induction segments with
    | nil => rfl
    | cons s rest ih =>
      rw [List.flatMap_cons, String.ofList_append, ih, Segment.ofList_chars, List.map_cons,
        String.join_cons]
  rw [path, pathChars, String.ofList_append, String.ofList_toList, hsegments]

/-! ### Grouping -/

/-- What may stand around an expression without changing the reference. -/
inductive Wrapper
  | parens
  | interpolation (strip : Strip)
  | lines (strip : Strip)

namespace Expr

/-- An expression inside wrappers, the outermost first. -/
def wrapped (e : Expr) : List Wrapper → Expr
  | [] => e
  | .parens :: rest => .parens (e.wrapped rest)
  | .interpolation strip :: rest => .template [.interpolation strip (e.wrapped rest)]
  | .lines strip :: rest => .heredoc [.interpolation strip (e.wrapped rest)]

theorem reference?_wrapped (e : Expr) (wrappers : List Wrapper) :
    (e.wrapped wrappers).reference? = e.reference? := by
  fun_induction wrapped e wrappers with
  | case1 => rfl
  | case2 rest ih => rw [reference?, ih]
  | case3 strip rest ih => rw [reference?, ih]
  | case4 strip rest ih => rw [reference?, ih]

/-- The steps of a traversal may be divided between two traversals, the first of them wrapped. -/
theorem reference?_traversal_append (base : Expr) (before after : List Step)
    (wrappers : List Wrapper) :
    (traversal ((traversal base before).wrapped wrappers) after).reference? =
      (traversal base (before ++ after)).reference? := by
  rw [reference?, reference?_wrapped, reference?, reference?, List.mapM_append]
  cases base.reference? with
  | none => rfl
  | some r =>
    cases before.mapM Step.segment? with
    | none => rfl
    | some ss =>
      cases after.mapM Step.segment? with
      | none => rfl
      | some ts => simp [Reference.extend]

/-- **Paths of references.** An expression has a path exactly if it denotes a reference, and then
the path is this reference written out. It has none exactly if it is refused: for a splat, for a key
that has no value or one of another type, or for a root of another kind. How the steps are grouped
by traversals, parentheses and interpolations does not matter. -/
theorem path_of_reference :
    (∀ (e : Expr) (path : String),
      e.path? = some path ↔ ∃ r : Reference, e.Denotes r ∧
        path = r.root ++ String.join (r.segments.map Segment.text)) ∧
    (∀ e : Expr, e.path? = none ↔ e.Refused) ∧
    ∀ (base : Expr) (before after : List Step) (wrappers : List Wrapper),
      (traversal ((traversal base before).wrapped wrappers) after).path? =
        (traversal base (before ++ after)).path? := by
  refine ⟨fun e path => ?_, fun e => ?_, fun base before after wrappers => ?_⟩
  · rw [path?, Option.map_eq_some_iff]
    simp only [reference?_eq_some_iff, Reference.path_eq, @eq_comm _ _ path]
  · rw [path?, Option.map_eq_none_iff, reference?_eq_none_iff]
  · rw [path?, path?, reference?_traversal_append]

end Expr

end ConfigAudit
