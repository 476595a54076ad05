import ConfigAudit.Proofs.References
import ConfigAudit.Syntax.BodyText
import Std.Data.String.ToNat

/-!
# The two spellings of an index

An index stands after a point or in brackets, and a path has both in brackets. A position after a
point is written as it is. What stands in brackets is evaluated, and its whole part is brought into
the signed range of 64 bits, so positions from `2 ^ 63` on have no spelling in brackets with the
same path.

* `Step.Spells`, `Step.shown`: the index that a step spells and the one that its path shows;
* `Step.Spells.path?_eq`: the path of a base with one index after it;
* `Expr.path_of_spelled_index`: where the spellings agree, and which indices share a path;
* `Expr.far_indices_share_path`: a text with an index that its path does not show.
-/

namespace ConfigAudit

/-! ### Steps that spell an index -/

namespace Step

/-- The index that a step spells: a position, or a key that evaluates to a natural number. -/
inductive Spells : Step → ℕ → Prop
  | position (n : ℕ) : Spells (.position n) n
  | key {key : Expr} {m : Number} {n : ℕ} (hkey : key.literal? = some (.number m))
      (hm : m.toRat = n) : Spells (.index key) n

/-- The index that a path shows for a step which spells `n`. Keys stop at the largest signed number
of 64 bits. -/
def shown (n : ℕ) : Step → ℕ
  | .index _ => min n (2 ^ 63 - 1)
  | _ => n

end Step

theorem Segment.clamp_natCast (n : ℕ) : clamp n = (min n (2 ^ 63 - 1) : ℕ) := by
  unfold clamp Number.minWhole Number.maxSigned
  omega

namespace Step

/-- A whole number in brackets spells itself. -/
theorem spells_whole (n : ℕ) : Spells (.index (.number (.whole n))) n := by
  have hkey : (Expr.number (.whole n)).literal? = some (.number (.whole n)) := by
    rw [Expr.literal?, Expr.eval, Expr.operation, Option.bind_some, Operation.value]
  exact .key hkey (Int.cast_natCast n)

theorem Spells.segment?_eq {step : Step} {n : ℕ} (h : step.Spells n) :
    step.segment? = some (.index (step.shown n)) := by
  cases h with
  | position n => rfl
  | @key key m n hkey hm =>
    have hwhole : wholePart m.toRat = n := by
      rw [hm, ← Int.cast_natCast, wholePart_intCast]
    rw [(Denotes.number hkey).segment?_eq, hwhole, Segment.clamp_natCast]
    rfl

/-- Below `2 ^ 63` a path shows the index that is spelled. -/
theorem shown_of_lt {n : ℕ} (step : Step) (hn : n < 2 ^ 63) : step.shown n = n := by
  cases step with
  | index key => exact min_eq_left (by omega)
  | _ => rfl

end Step

/-! ### Paths that end in an index -/

/-- The text of an index in a path. -/
def indexText (n : ℕ) : String := "[" ++ toString n ++ "]"

/-- Different indices have different texts. -/
theorem indexText_inj {m n : ℕ} : indexText m = indexText n ↔ m = n := by
  unfold indexText
  rw [String.append_left_inj, String.append_right_inj]
  exact Nat.repr_inj

theorem Reference.path_extend (r : Reference) (s : Segment) :
    (r.extend [s]).path = r.path ++ s.text := by
  simp [path, pathChars, extend, Segment.ofList_chars, String.append_assoc]

namespace Expr

variable {base : Expr} {p : String}

/-- One more step writes its segment after the path. -/
theorem path?_traversal_singleton (hbase : base.path? = some p) {step : Step} {s : Segment}
    (hstep : step.segment? = some s) : (traversal base [step]).path? = some (p ++ s.text) := by
  obtain ⟨r, hr, rfl⟩ := Option.map_eq_some_iff.1 hbase
  have hsteps : [step].mapM Step.segment? = some [s] := by simp [hstep]
  rw [path?, reference?, hr, hsteps, ← Reference.path_extend]
  rfl

/-- An index is written in brackets, as far as its step shows it. -/
theorem path?_of_spells (hbase : base.path? = some p) {step : Step} {n : ℕ}
    (h : step.Spells n) : (traversal base [step]).path? = some (p ++ indexText (step.shown n)) :=
  path?_traversal_singleton hbase h.segment?_eq

/-- Two indices after one base have the same path exactly if the same index is shown. -/
theorem path?_inj_of_spells (hbase : base.path? = some p) {step step' : Step} {n n' : ℕ}
    (h : step.Spells n) (h' : step'.Spells n') :
    (traversal base [step]).path? = (traversal base [step']).path? ↔
      step.shown n = step'.shown n' := by
  rw [path?_of_spells hbase h, path?_of_spells hbase h', Option.some_inj,
    String.append_right_inj, indexText_inj]

/-- **Paths of indices.** After a base with a path, a position is written in decimal, and so is a
natural number in brackets up to `2 ^ 63 - 1`, the index that stands for all larger ones. So the two
spellings of an index agree exactly below `2 ^ 63`, and there different indices never have the same
path. -/
theorem path_of_spelled_index (hbase : base.path? = some p) :
    (∀ n : ℕ, (traversal base [.position n]).path? = some (p ++ "[" ++ toString n ++ "]")) ∧
    (∀ (key : Expr) (n : ℕ), Step.Spells (.index key) n →
      (traversal base [.index key]).path? =
        some (p ++ "[" ++ toString (min n (2 ^ 63 - 1)) ++ "]") ∧
      ((traversal base [.index key]).path? = (traversal base [.position n]).path? ↔
        n < 2 ^ 63)) ∧
    (∀ m n : ℕ, (traversal base [.position m]).path? = (traversal base [.position n]).path? →
      m = n) ∧
    ∀ (step step' : Step) (n n' : ℕ), step.Spells n → step'.Spells n' → n < 2 ^ 63 →
      n' < 2 ^ 63 → (traversal base [step]).path? = (traversal base [step']).path? → n = n' := by
  refine ⟨fun n => ?_, fun key n hkey => ⟨?_, ?_⟩, fun m n h => ?_, ?_⟩
  · rw [path?_of_spells hbase (.position n)]
    simp only [indexText, Step.shown, String.append_assoc]
  · rw [path?_of_spells hbase hkey]
    simp only [indexText, Step.shown, String.append_assoc]
  · rw [path?_inj_of_spells hbase hkey (.position n)]
    simp only [Step.shown]
    omega
  · exact (path?_inj_of_spells hbase (.position m) (.position n)).1 h
  · intro step step' n n' h h' hn hn' hpath
    have hshown := (path?_inj_of_spells hbase h h').1 hpath
    rwa [step.shown_of_lt hn, step'.shown_of_lt hn'] at hshown

theorem path_of_spelled_index_port :
    (Expr.variable "ports").path? = some "ports" ∧ Step.Spells (.index (.number (.whole 443))) 443 ∧
      (traversal (.variable "ports") [.position 443]).path? = some "ports[443]" ∧
      (traversal (.variable "ports") [.index (.number (.whole 443))]).path? =
        (traversal (.variable "ports") [.position 443]).path? := by
  have hbase : (Expr.variable "ports").path? = some "ports" := rfl
  have hkey := Step.spells_whole 443
  obtain ⟨hposition, hbracket, -⟩ := path_of_spelled_index hbase
  exact ⟨hbase, hkey, hposition 443, (hbracket _ _ hkey).2.2 (by decide)⟩

/-- From `2 ^ 63` on an index in brackets is not shown in its path: it has the path of the index
before it, and another one than the same index after a point. -/
theorem far_indices_share_path :
    ((Body.parse? ("after = a.9223372036854775808\nfar = a[9223372036854775808]\n" ++
        "near = a[9223372036854775807]\n")).map fun body =>
          body.attributes.map fun e => e.2.path?) =
      some [some "a[9223372036854775808]", some "a[9223372036854775807]",
        some "a[9223372036854775807]"] ∧
    Step.Spells (.index (.number (.whole 9223372036854775808))) 9223372036854775808 ∧
    (traversal (.variable "a") [.index (.number (.whole 9223372036854775808))]).path? =
      some "a[9223372036854775807]" :=
  ⟨by decide +kernel, Step.spells_whole 9223372036854775808, by decide +kernel⟩

end Expr

end ConfigAudit
