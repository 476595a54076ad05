import ConfigAudit.Extraction.Basic
import ConfigAudit.Syntax.BodyText

/-!
# Documents

The normalized form of a whole configuration: every resource in source order, variables and outputs
by name. Only top-level blocks count.

* a `resource` block has exactly two labels, its type and its name;
* a `variable` or `output` block is named by its first label, and the last block of a name wins at
  the position of the first;
* all other blocks and all top-level attributes are skipped.
-/

namespace ConfigAudit

/-- A resource: its type and name are the labels of the block, and rules refer to it by the
address. -/
structure Resource where
  type : String
  name : String
  address : String
  config : Config
  deriving Repr

/-- A resource at its own address: type and name joined by a point. -/
def Resource.named (type name : String) (config : Config) : Resource :=
  { type, name, address := type ++ "." ++ name, config }

/-- A variable. -/
structure Variable where
  name : String
  deriving DecidableEq, Repr

/-- An output, with its value if that resolves, and its description if that resolves to a string. -/
structure Output where
  name : String
  value : Option Value
  description : Option String
  deriving Repr

/-- A normalized configuration: all resources in source order, and input variables and outputs by
name. -/
structure Document where
  resources : List Resource
  inputs : OrderedMap Variable
  outputs : OrderedMap Output
  deriving Repr

namespace Document

/-- The document of an empty configuration. -/
def empty : Document := ⟨[], [], []⟩

/-- The resources with an address, in source order. -/
def resourcesAt (d : Document) (address : String) : List Resource :=
  d.resources.filter (·.address == address)

end Document

/-- The resolved value of the first attribute with a name. -/
def Body.attribute? (body : Body) (name : String) : Option Value :=
  (body.attributes.find? (·.1 == name)).bind fun (_, expr) => expr.resolve?

/-- The output that a block body describes. -/
def Output.ofBody (name : String) (body : Body) : Output :=
  { name, value := body.attribute? "value"
    description := (body.attribute? "description").bind Value.string? }

namespace Document

/-- Take in one top-level block. -/
def addBlock (table : NestingTable) (d : Document) (block : Block) : Document :=
  match block.kind, block.labels with
  | "resource", [type, name] =>
    { d with resources := d.resources ++ [.named type name (extract table block.body)] }
  | "variable", name :: _ => { d with inputs := d.inputs.insert name ⟨name⟩ }
  | "output", name :: _ =>
    { d with outputs := d.outputs.insert name (Output.ofBody name block.body) }
  | _, _ => d

/-- The document of a body. -/
def ofBody (table : NestingTable) (body : Body) : Document :=
  body.blocks.foldl (addBlock table) empty

/-- The document of a configuration text, if it is well formed. -/
def parse? (table : NestingTable) (text : String) : Option Document :=
  (Body.parse? text).map (ofBody table)

end Document

end ConfigAudit
