import ConfigAudit.Document.Basic
import ConfigAudit.Proofs.OrderedMaps

/-!
# Documents by their parts

Every top-level block contributes to at most one part of a document. `ofBody_eq` reads a document as
three lists of contributions, so that facts about documents become facts about lists and about maps
of entries.
-/

namespace ConfigAudit

open OrderedMap

namespace Body

@[simp] theorem blocks_nil : Body.blocks [] = [] := rfl

@[simp] theorem blocks_attribute (name : String) (expr : Expr) (rest : Body) :
    Body.blocks (.attribute name expr :: rest) = Body.blocks rest := rfl

@[simp] theorem blocks_block (kind : String) (labels : List String) (inner rest : Body) :
    Body.blocks (.block kind labels inner :: rest) =
      ⟨kind, labels, inner⟩ :: Body.blocks rest := rfl

theorem blocks_append (before after : Body) :
    Body.blocks (before ++ after) = before.blocks ++ after.blocks := List.filterMap_append

theorem attributes_append (before after : Body) :
    Body.attributes (before ++ after) = before.attributes ++ after.attributes :=
  List.filterMap_append

end Body

namespace Block

/-- The resource that a block describes. -/
def resource? (table : NestingTable) (b : Block) : Option Resource :=
  if b.kind = "resource" then
    match b.labels with
    | [type, name] => some (.named type name (extract table b.body))
    | _ => none
  else none

/-- The entry of the variable that a block describes. -/
def input? (b : Block) : Option (String × Variable) :=
  if b.kind = "variable" then b.labels.head?.map fun name => (name, ⟨name⟩) else none

/-- The entry of the output that a block describes. -/
def output? (b : Block) : Option (String × Output) :=
  if b.kind = "output" then b.labels.head?.map fun name => (name, Output.ofBody name b.body)
  else none

end Block

namespace Document

/-- Taking in a block appends its resource and inserts its entries. -/
theorem addBlock_eq (table : NestingTable) (d : Document) (b : Block) :
    addBlock table d b =
      ⟨d.resources ++ (b.resource? table).toList, d.inputs.merge b.input?.toList,
        d.outputs.merge b.output?.toList⟩ := by
  obtain ⟨kind, labels, body⟩ := b
  unfold addBlock Block.resource? Block.input? Block.output?
  -- the three kinds exclude each other, so at most one part grows
  by_cases hr : kind = "resource"
  · subst hr
    rcases labels with _ | ⟨type, _ | ⟨name, _ | ⟨third, rest⟩⟩⟩ <;> simp
  · by_cases hv : kind = "variable"
    · subst hv
      cases labels <;> simp
    · by_cases ho : kind = "output"
      · subst ho
        cases labels <;> simp
      · cases labels <;> simp [hr, hv, ho]

/-- Taking in blocks one after the other appends all their contributions. -/
theorem foldl_addBlock (table : NestingTable) (blocks : List Block) (d : Document) :
    blocks.foldl (addBlock table) d =
      ⟨d.resources ++ blocks.filterMap (Block.resource? table),
        d.inputs.merge (blocks.filterMap Block.input?),
        d.outputs.merge (blocks.filterMap Block.output?)⟩ := by
  induction blocks generalizing d with
  | nil => simp
  | cons b rest ih =>
    have hcons {β : Type} (f : Block → Option β) :
        (b :: rest).filterMap f = (f b).toList ++ rest.filterMap f := by
      cases hf : f b <;> simp [hf]
    rw [List.foldl_cons, ih, addBlock_eq, hcons, hcons, hcons, merge_append, merge_append,
      List.append_assoc]

/-- The three parts of a document, in source order. -/
theorem ofBody_eq (table : NestingTable) (body : Body) :
    ofBody table body =
      ⟨body.blocks.filterMap (Block.resource? table),
        ofEntries (body.blocks.filterMap Block.input?),
        ofEntries (body.blocks.filterMap Block.output?)⟩ := by
  rw [ofBody, foldl_addBlock, empty, List.nil_append]
  rfl

theorem distinct_inputs_ofBody (table : NestingTable) (body : Body) :
    (ofBody table body).inputs.Distinct := by
  rw [ofBody_eq]
  exact distinct_ofEntries _

theorem distinct_outputs_ofBody (table : NestingTable) (body : Body) :
    (ofBody table body).outputs.Distinct := by
  rw [ofBody_eq]
  exact distinct_ofEntries _

end Document

end ConfigAudit
