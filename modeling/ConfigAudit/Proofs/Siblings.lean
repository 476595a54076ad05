import ConfigAudit.Extraction.Siblings
import Mathlib.Data.List.Induction
import Mathlib.Data.List.Infix

/-!
# Siblings in closed form

What a list of sibling blocks amounts to, said without a run over them: only the blocks with content
count, unless there is none.

* `closed`: the closed form, and `ofChildren_eq_closed`: it is what a run leads to;
* `scanl_absorb`: every state on the way is the closed form of the children so far;
* `rank_le_rank_absorb`: a step never goes back;
* `run_in_closed_form`: both, with what a run keeps and what values it can end in.
-/

namespace ConfigAudit

/-- The children with content. -/
def withContent (children : List Config) : List Config := children.filter fun c => !c.isEmpty

/-- The value that stands for sibling blocks: a mark if none has content, the map of the only one
that has, or the list of all that have. -/
def Value.ofSiblings (children : List Config) : Value :=
  match withContent children with
  | [] => .bool true
  | [child] => .map child
  | several => .list (several.map .map)

namespace Siblings

/-- The state that a list of children leads to. -/
def closed (children : List Config) : Siblings :=
  if children = [] then .absent
  else match withContent children with
    | [] => .marker
    | [child] => .single child
    | several => .many several

@[simp] theorem ofChildren_nil : ofChildren [] = .absent := rfl

theorem ofChildren_append_singleton (children : List Config) (child : Config) :
    ofChildren (children ++ [child]) = (ofChildren children).absorb child := by
  rw [ofChildren, List.foldl_append]
  rfl

/-- One more child: the closed form follows the transitions. -/
theorem closed_append_singleton (children : List Config) (child : Config) :
    closed (children ++ [child]) = (closed children).absorb child := by
  by_cases hnil : children = []
  · subst hnil
    cases child <;> rfl
  · have hne : children ++ [child] ≠ [] := by simp
    rw [closed, closed, if_neg hne, if_neg hnil]
    cases child with
    | nil =>
      -- nothing is added to the children with content
      have hcontent : withContent (children ++ [[]]) = withContent children := by
        simp [withContent]
      rw [hcontent]
      rcases withContent children with _ | ⟨c, _ | ⟨d, rest⟩⟩ <;> rfl
    | cons e es =>
      have hcontent : withContent (children ++ [e :: es]) = withContent children ++ [e :: es] := by
        simp [withContent]
      rw [hcontent]
      rcases withContent children with _ | ⟨c, _ | ⟨d, rest⟩⟩ <;> rfl

/-- The state after any number of children is the closed form. -/
theorem ofChildren_eq_closed (children : List Config) : ofChildren children = closed children := by
  induction children using List.reverseRecOn with
  | nil => rfl
  | append_singleton children child ih =>
    rw [ofChildren_append_singleton, ih, closed_append_singleton]

/-- At least one child makes a value. -/
theorem value?_ofChildren {children : List Config} (h : children ≠ []) :
    (ofChildren children).value? = some (Value.ofSiblings children) := by
  rw [ofChildren_eq_closed, closed, if_neg h, Value.ofSiblings]
  rcases withContent children with _ | ⟨c, _ | ⟨d, rest⟩⟩ <;> rfl

/-! ### Runs -/

theorem withContent_eq_nil_iff {children : List Config} :
    withContent children = [] ↔ ∀ c ∈ children, c = [] := by
  simp [withContent, List.filter_eq_nil_iff]

theorem ne_nil_of_mem_withContent {children : List Config} {c : Config}
    (h : c ∈ withContent children) : c ≠ [] := by
  have hcontent := (List.mem_filter.1 h).2
  rintro rfl
  simp at hcontent

/-- The states on the way through a list of children are what its front parts amount to. -/
theorem scanl_absorb (children : List Config) :
    children.scanl absorb .absent = children.inits.map ofChildren := by
  have hfrom (start : Siblings) :
      children.scanl absorb start = children.inits.map fun front => front.foldl absorb start := by
    induction children generalizing start with
    | nil => simp
    | cons child rest ih => simp [ih]
  exact hfrom .absent

/-- The maps that a state holds. -/
def contents : Siblings → List Config
  | .absent => []
  | .marker => []
  | .single child => [child]
  | .many children => children

/-- A step keeps the maps and adds the new one behind them, if it has content. -/
theorem contents_absorb (s : Siblings) (child : Config) :
    (s.absorb child).contents = s.contents ++ withContent [child] := by
  cases s <;> cases child <;> simp [absorb, contents, withContent]

/-- A run loses, repeats and moves no child with content. -/
theorem contents_ofChildren (children : List Config) :
    (ofChildren children).contents = withContent children := by
  induction children using List.reverseRecOn with
  | nil => rfl
  | append_singleton children child ih =>
    rw [ofChildren_append_singleton, contents_absorb, ih, withContent, withContent, withContent,
      List.filter_append]

/-- How far a state is: no block, blocks without content only, one with content, several. -/
def rank : Siblings → Nat
  | .absent => 0
  | .marker => 1
  | .single _ => 2
  | .many _ => 3

/-- A step never goes back. -/
theorem rank_le_rank_absorb (s : Siblings) (child : Config) : s.rank ≤ (s.absorb child).rank := by
  cases s <;> cases child <;> simp [absorb, rank]

/-- A run never goes back. -/
theorem rank_ofChildren_le (before after : List Config) :
    (ofChildren before).rank ≤ (ofChildren (before ++ after)).rank := by
  induction after using List.reverseRecOn with
  | nil => rw [List.append_nil]
  | append_singleton after child ih =>
    rw [← List.append_assoc, ofChildren_append_singleton]
    exact ih.trans (rank_le_rank_absorb _ _)

section ClosedForm

variable {children : List Config}

theorem ofChildren_eq_absent_iff : ofChildren children = .absent ↔ children = [] := by
  rw [ofChildren_eq_closed, closed]
  split_ifs with hnil
  · simp [hnil]
  · rcases withContent children with _ | ⟨c, _ | ⟨d, rest⟩⟩ <;> simp [hnil]

theorem ofChildren_eq_marker_iff :
    ofChildren children = .marker ↔ children ≠ [] ∧ ∀ c ∈ children, c = [] := by
  rw [← withContent_eq_nil_iff, ofChildren_eq_closed, closed]
  split_ifs with hnil
  · simp [hnil]
  · rcases withContent children with _ | ⟨c, _ | ⟨d, rest⟩⟩ <;> simp [hnil]

theorem ofChildren_eq_single_iff {child : Config} :
    ofChildren children = .single child ↔ withContent children = [child] := by
  rw [ofChildren_eq_closed, closed]
  split_ifs with hnil
  · simp [hnil, withContent]
  · rcases withContent children with _ | ⟨c, _ | ⟨d, rest⟩⟩ <;> simp

theorem ofChildren_eq_many_iff {several : List Config} :
    ofChildren children = .many several ↔ withContent children = several ∧ 2 ≤ several.length := by
  have hshort {front : List Config} (h : front.length < 2) :
      ¬(front = several ∧ 2 ≤ several.length) := by
    rintro ⟨rfl, hlength⟩
    omega
  rw [ofChildren_eq_closed, closed]
  split_ifs with hnil
  · subst hnil
    exact iff_of_false nofun (hshort (by simp [withContent]))
  · rcases withContent children with _ | ⟨c, _ | ⟨d, rest⟩⟩
    · exact iff_of_false nofun (hshort (by simp))
    · exact iff_of_false nofun (hshort (by simp))
    · simp only [many.injEq, iff_self_and]
      rintro rfl
      simp

/-- Children without content only matter to whether there is a child at all. -/
theorem ofChildren_congr {others : List Config} (hnil : others = [] ↔ children = [])
    (hcontent : withContent others = withContent children) :
    ofChildren others = ofChildren children := by
  rw [ofChildren_eq_closed, ofChildren_eq_closed, closed, closed, hcontent]
  simp only [hnil]

/-- Siblings never end in an empty map, in a list of less than two items or in a list that holds an
empty map. -/
theorem substantial_of_value? {value : Value} (h : (ofChildren children).value? = some value) :
    value ≠ .map [] ∧ value ≠ .list [] ∧ (∀ item, value ≠ .list [item]) ∧
      ∀ items, value = .list items → .map [] ∉ items := by
  cases hstate : ofChildren children with
  | absent =>
    rw [hstate] at h
    cases h
  | marker =>
    rw [hstate] at h
    cases h
    exact ⟨nofun, nofun, nofun, nofun⟩
  | single child =>
    rw [hstate] at h
    cases h
    have hmem : child ∈ withContent children := by
      rw [ofChildren_eq_single_iff.1 hstate]
      exact List.mem_singleton_self child
    have hchild : child ≠ [] := ne_nil_of_mem_withContent hmem
    exact ⟨by simpa using hchild, nofun, nofun, nofun⟩
  | many several =>
    rw [hstate] at h
    cases h
    obtain ⟨hseveral, hlength⟩ := ofChildren_eq_many_iff.1 hstate
    have hnotShort {items : List Value} (hitems : items.length < 2) :
        Value.list (several.map .map) ≠ .list items := by
      intro heq
      have hsame := congrArg List.length (Value.list.inj heq)
      rw [List.length_map] at hsame
      omega
    refine ⟨nofun, hnotShort (by simp), fun item => hnotShort (by simp), fun items hitems => ?_⟩
    cases hitems
    intro hmem
    obtain ⟨child, hchild, hmap⟩ := List.mem_map.1 hmem
    rw [← hseveral] at hchild
    exact ne_nil_of_mem_withContent hchild (Value.map.inj hmap)

end ClosedForm

/-- **Siblings in closed form.** After every front part of a list of children the state is the
closed form of this part: no block, blocks without content only, the only one with content, or all
those with content in their order. So a run keeps all children with content in order, those without
content do not matter once there is a child, no step goes back, and the value at the end is no empty
map, no list of less than two items and no list with an empty map in it. -/
theorem run_in_closed_form (children : List Config) :
    children.scanl absorb .absent = children.inits.map ofChildren ∧
    (ofChildren children = .absent ↔ children = []) ∧
    (ofChildren children = .marker ↔ children ≠ [] ∧ ∀ c ∈ children, c = []) ∧
    (∀ child, ofChildren children = .single child ↔ withContent children = [child]) ∧
    (∀ several, ofChildren children = .many several ↔
      withContent children = several ∧ 2 ≤ several.length) ∧
    (ofChildren children).contents = withContent children ∧
    (∀ others : List Config, (others = [] ↔ children = []) →
      withContent others = withContent children → ofChildren others = ofChildren children) ∧
    (∀ after, (ofChildren children).rank ≤ (ofChildren (children ++ after)).rank) ∧
    ∀ value, (ofChildren children).value? = some value →
      value ≠ .map [] ∧ value ≠ .list [] ∧ (∀ item, value ≠ .list [item]) ∧
        ∀ items, value = .list items → .map [] ∉ items :=
  ⟨scanl_absorb children, ofChildren_eq_absent_iff, ofChildren_eq_marker_iff,
    fun _ => ofChildren_eq_single_iff, fun _ => ofChildren_eq_many_iff,
    contents_ofChildren children, fun _ => ofChildren_congr, rank_ofChildren_le children,
    fun _ => substantial_of_value?⟩

end Siblings

end ConfigAudit
