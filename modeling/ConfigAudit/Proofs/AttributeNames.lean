import ConfigAudit.Proofs.Extraction
import ConfigAudit.Proofs.Readers
import ConfigAudit.Syntax.BodyText

/-!
# Attribute names in bodies that are read

The tree of a body may hold two attributes of one name, but no text does: a body is read one
structure after the other, and an attribute whose name stands before it in the same body ends the
reading without a result. This holds at every level, since the bodies of blocks are read in the same
way or hold one attribute at most.

* `Body.DistinctNames`: no name is repeated, at any level;
* `Syntax.yields_bodyLevel`: the invariant of the loop over one level;
* `Body.distinctNames_of_parse?`: bodies that are read have distinct names.
-/

namespace ConfigAudit

open OrderedMap

/-- No two attributes of a body have the same name, nor do any in the bodies of its blocks. -/
inductive Body.DistinctNames : Body → Prop
  | intro {body : Body} (names : Distinct body.attributes)
      (blocks : ∀ kind labels inner, Structure.block kind labels inner ∈ body →
        DistinctNames inner) : DistinctNames body

/-- No two attributes inside a structure have the same name. -/
def Structure.DistinctNames : Structure → Prop
  | .attribute .. => True
  | .block _ _ inner => Body.DistinctNames inner

namespace Body.DistinctNames

theorem nil : DistinctNames [] := .intro distinct_nil nofun

variable {body : Body}

theorem distinct (h : body.DistinctNames) : Distinct body.attributes := by
  obtain ⟨hnames, -⟩ := h
  exact hnames

/-- The body of a block has distinct names too. -/
theorem of_mem_blocks (h : body.DistinctNames) {b : Block} (hb : b ∈ body.blocks) :
    b.body.DistinctNames := by
  obtain ⟨-, hblocks⟩ := h
  exact hblocks b.kind b.labels b.body (mem_blocks.1 hb)

/-- A structure may come in front, unless it is an attribute with a name of the body. -/
theorem cons {s : Structure} (hs : s.DistinctNames) (h : body.DistinctNames)
    (hnew : ∀ name expr, s = .attribute name expr → name ∉ keys body.attributes) :
    DistinctNames (s :: body) := by
  obtain ⟨hnames, hblocks⟩ := h
  rcases s with ⟨name, expr⟩ | ⟨kind, labels, inner⟩
  · refine .intro (List.nodup_cons.2 ⟨hnew name expr rfl, hnames⟩) fun kind labels inner hmem => ?_
    rcases List.mem_cons.1 hmem with heq | hmem
    · cases heq
    · exact hblocks kind labels inner hmem
  · refine .intro hnames fun kind' labels' inner' hmem => ?_
    rcases List.mem_cons.1 hmem with heq | hmem
    · cases heq
      exact hs
    · exact hblocks kind' labels' inner' hmem

theorem reverse (h : body.DistinctNames) : DistinctNames body.reverse := by
  obtain ⟨hnames, hblocks⟩ := h
  refine .intro ?_ fun kind labels inner hmem =>
    hblocks kind labels inner (List.mem_reverse.1 hmem)
  have hkeys : keys (attributes body.reverse) = (keys body.attributes).reverse := by
    rw [attributes, List.filterMap_reverse, OrderedMap.keys, List.map_reverse]
    rfl
  rw [Distinct, hkeys, List.nodup_reverse]
  exact hnames

end Body.DistinctNames

namespace Syntax

open Reader

variable {inner : Nonterminals} {body : Reader Body}

/-- A body on one line has at most one attribute. -/
theorem yields_lineBody (inner : Nonterminals) :
    Yields (lineBody inner) Body.DistinctNames := by
  unfold lineBody
  refine yields_bind fun _ => yields_bind fun closes => ?_
  cases closes with
  | true => exact yields_bind fun _ => Yields.pure .nil
  | false =>
    refine yields_bind fun name => yields_bind fun _ => yields_bind fun expr => ?_
    refine yields_bind fun _ => yields_bind fun _ => Yields.pure ?_
    exact .cons trivial .nil fun _ _ _ => List.not_mem_nil

theorem yields_blockBody (h : Yields body Body.DistinctNames) :
    Yields (blockBody inner body) Body.DistinctNames := by
  unfold blockBody
  refine yields_bind fun _ => yields_bind fun start => yields_bind fun lineBreak? => ?_
  cases lineBreak? with
  | some _ => exact h.bind fun b hb => yields_bind fun _ => Yields.pure hb
  | none => exact yields_bind fun _ => yields_lineBody inner

theorem yields_attributeOrBlock (h : Yields body Body.DistinctNames) :
    Yields (attributeOrBlock inner body) Structure.DistinctNames := by
  unfold attributeOrBlock
  refine yields_bind fun name => yields_bind fun _ => yields_bind fun assigns => ?_
  cases assigns with
  | true => exact yields_bind fun expr => Yields.pure trivial
  | false =>
    exact yields_bind fun labels => (yields_blockBody h).bind fun b hb => Yields.pure hb

/-- A level is read with distinct names if the levels below are: what has been read so far, the last
structure first, has distinct names. -/
theorem yields_bodyLevel (h : Yields body Body.DistinctNames) :
    Yields (bodyLevel inner body) Body.DistinctNames := by
  unfold bodyLevel
  refine Yields.iterate Body.DistinctNames (fun before hbefore => ?_) .nil
  refine yields_bind fun _ => yields_bind fun more => ?_
  cases more with
  | false => exact Yields.pure hbefore.reverse
  | true =>
    refine (yields_attributeOrBlock h).bind fun s hs => yields_bind fun _ => ?_
    rcases s with ⟨name, expr⟩ | ⟨kind, labels, inner⟩
    · -- the loop goes on only if no attribute before has the name
      dsimp only
      split_ifs with hrepeated
      · exact yields_failure
      · refine Yields.pure (hbefore.cons hs fun name' expr' heq hmem => hrepeated ?_)
        cases heq
        obtain ⟨e, he, rfl⟩ := List.mem_map.1 hmem
        exact List.any_eq_true.2 ⟨_, Body.mem_attributes.1 he, beq_self_eq_true e.1⟩
    · exact Yields.pure (hbefore.cons hs nofun)

theorem yields_bodyAt (inner : Nonterminals) (depth : ℕ) :
    Yields (bodyAt inner depth) Body.DistinctNames := by
  induction depth with
  | zero => exact yields_failure
  | succ depth ih => exact yields_bodyLevel ih

end Syntax

/-- **No text repeats an attribute name**, neither at the top nor in a block. -/
theorem Body.distinctNames_of_parse? {text : String} {body : Body}
    (h : Body.parse? text = some body) : body.DistinctNames :=
  (Syntax.yields_bodyAt _ _).readAll h

end ConfigAudit
