import DocSchema.Document
import DocSchema.Extraction.Table

/-!
Extraction: the schema that an annotated value declares. Named types stand under `$types` of the root;
the root itself declares the type of a whole document.
-/

set_option autoImplicit false

namespace DocSchema

structure Extraction where
  schema : Schema
  /-- Whether the source holds declarations only. -/
  isPure : Bool

namespace Declarations

/-- The types that entries declare, where the names in `seen` are taken. -/
def namedTypes (path : Path) (seen : List Bytes) : List (Key × Value) → Extract (List NamedType)
  | [] => .ok []
  | (key, v) :: es =>
    let typePath := path ++ [key.segment]
    match key.spelling? with
    | none => refuse .typeNameNotText typePath
    | some name => do
      let declaration ← Declaration.ofValue v typePath .typeEntry
      if name ∈ seen then refuse (.duplicateType name) typePath
      let naming ← Naming.ofValue v typePath
      return { name, declaration, naming } :: (← namedTypes path (name :: seen) es)

def typesOf (v : Value) : Extract (List NamedType) :=
  let path : Path := [.ext Directive.types.name]
  match v.directive? .types with
  | none => .ok []
  | some types =>
    match types.content with
    | .map es => namedTypes path [] es
    | _ => refuse .typesNotMap path

def ofValue (v : Value) : Extract Declarations := do
  let types ← typesOf v
  let naming ← Naming.ofValue v []
  let root ← Declaration.ofValue v [] .root
  return { types, naming, root }

end Declarations

/-- The schema that a value declares. All references have to name a declared type. -/
def extractValue (v : Value) : Extract Extraction := do
  let declarations ← Declarations.ofValue v
  let (placed, schema) := declarations.table
  match Declarations.undefined? placed schema with
  | some (name, path) => refuse (.undefinedType name) path
  | none => return { schema, isPure := !v.holdsData }

/-- The schema that a document declares. -/
def extract (d : Document) : Extract Extraction :=
  extractValue d.value

end DocSchema
