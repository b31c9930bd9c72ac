import DocSchema.Extraction.Declaration
import DocSchema.Schema.Registry

set_option autoImplicit false

namespace DocSchema

structure PlacedType where
  origin : Path
  node : SchemaNode

/-- A step that adds types to a table. -/
abbrev Layout := StateM (Array PlacedType)

namespace Declaration

def place (origin : Path) (shape : Shape SchemaId) (metadata : Metadata) : Layout SchemaId :=
  modifyGet fun table => (table.size, table.push ⟨origin, shape, metadata⟩)

mutual

def layOut : Declaration → Layout SchemaId
  | .node origin shape metadata => do
    let shape ← layOutShape shape
    place origin shape metadata

def layOutShape : Shape Declaration → Layout (Shape SchemaId)
  | .text length pattern language => return .text length pattern language
  | .integer range multipleOf => return .integer range multipleOf
  | .float range multipleOf => return .float range multipleOf
  | .boolean => return .boolean
  | .null => return .null
  | .any => return .any
  | .literal expected => return .literal expected
  | .record fields allowsUnknown => return .record (← layOutFields fields) allowsUnknown
  | .array item length isUnique => return .array (← layOut item) length isUnique
  | .map key value size => return .map (← layOut key) (← layOut value) size
  | .tuple elements => return .tuple (← layOutList elements)
  | .union variants representation => return .union (← layOutVariants variants) representation
  | .reference name => return .reference name

def layOutFields : List (Field Declaration) → Layout (List (Field SchemaId))
  | [] => return []
  | ⟨name, d, isOptional⟩ :: fs => return ⟨name, ← layOut d, isOptional⟩ :: (← layOutFields fs)

def layOutList : List Declaration → Layout (List SchemaId)
  | [] => return []
  | d :: ds => return (← layOut d) :: (← layOutList ds)

def layOutVariants : List (Variant Declaration) → Layout (List (Variant SchemaId))
  | [] => return []
  | ⟨name, d⟩ :: vs => return ⟨name, ← layOut d⟩ :: (← layOutVariants vs)

end

end Declaration

/-- A declaration with the name it is registered under, and its naming options. -/
structure NamedType where
  name : Bytes
  declaration : Declaration
  naming : Naming

structure Declarations where
  types : List NamedType
  naming : Naming
  root : Declaration

namespace Declarations

def layOut (d : Declarations) : Layout (List SchemaId × SchemaId) := do
  let ids ← d.types.mapM fun t => t.declaration.layOut
  return (ids, ← d.root.layOut)

def table (d : Declarations) : Array PlacedType × Schema :=
  let ((ids, root), placed) := d.layOut.run #[]
  let schema : Schema :=
    { nodes := placed.map (·.node)
      root
      naming := d.naming
      typeNaming := Dictionary.ofList (d.types.map fun t => (t.name, t.naming)) }
  (placed, schema.defineAll ((d.types.map (·.name)).zip ids))

/-- The first reference to a type that is not declared, with the path of its source. -/
def undefined? (placed : Array PlacedType) (s : Schema) : Option (Bytes × Path) :=
  placed.toList.findSome? fun t =>
    match t.node.shape with
    | .reference name => if (s.find? name).isNone then some (name, t.origin) else none
    | _ => none

end Declarations

end DocSchema
