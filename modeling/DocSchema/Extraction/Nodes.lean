import DocSchema.Extraction

set_option autoImplicit false

namespace DocSchema

/-- What a node and its parts hold, without what is below the parts. -/
def Document.glance (d : Document) (id : NodeId) : Value :=
  d.valueTo 2 id

/-- For each node whether it declares a type, once that is known. -/
abbrev Memo := Array (Option Bool)

abbrev Extractor := StateT Memo Extract

namespace Extractor

abbrev Reader := NodeId → Path → Placement → Extractor Declaration

/-- The answer that is known for a node, else the one that is found, which is kept. -/
def remember (id : NodeId) (find : Extractor Bool) : Extractor Bool := do
  match (← get)[id]? with
  | some (some answer) => return answer
  | _ =>
    let answer ← find
    modify fun memo => memo.setIfInBounds id (some answer)
    return answer

variable (d : Document)

/-- Whether a node declares a type, itself or in a part of it, down to `depth` levels. -/
def isDeclaredTo : (depth : Nat) → NodeId → Extractor Bool
  | 0, _ => return false
  | depth + 1, id => remember id do
    let node := d.node id
    if node.extensions.any (fun x => Directive.declares x.1) || node.content.typeExpression?.isSome then
      return true
    else
      match node.content with
      | .map es => es.anyM fun e => isDeclaredTo depth e.2
      | .tuple ids => ids.anyM (isDeclaredTo depth)
      | _ => return false

/-- Whether a node declares a type, itself or in a part of it. -/
def isDeclared (id : NodeId) : Extractor Bool :=
  isDeclaredTo d d.size id

def holdsDataTo : (depth : Nat) → NodeId → Bool
  | 0, _ => false
  | depth + 1, id =>
    match (d.node id).content with
    | .hole => false
    | .primitive p => (Content.primitive p : Content NodeId).typeExpression?.isNone
    | .map es => es.any fun e => holdsDataTo depth e.2
    | .array ids => ids.isEmpty || ids.any (holdsDataTo depth)
    | .tuple ids => ids.any (holdsDataTo depth)

def typeDirectives (read : NodeId → Path → Extract Declaration) (path : Path) (index : UInt8) :
    List NodeId → Extract (List Declaration)
  | [] => .ok []
  | id :: ids =>
    return (← read id (path ++ [.tuple index])) :: (← typeDirectives read path (index + 1) ids)

/-- The type under `$type`: a type expression, or a tuple of such types, down to `depth` levels. -/
def typeDirectiveTo : (depth : Nat) → NodeId → Path → Extract Declaration
  | 0, _, path => refuse (.typeNotText (Content.hole : Content NodeId).kindName) path
  | depth + 1, id, path =>
    match (d.node id).content with
    | .tuple ids => return .bare path (.tuple (← typeDirectives (typeDirectiveTo depth) path 0 ids))
    | content =>
      match (d.glance id).textContent? with
      | none => refuse (.typeNotText content.kindName) path
      | some s =>
        match TypeExpression.parse? s with
        | some e => .ok (.bare path (Declaration.ofExpression e))
        | none => refuse (.notTypeExpression s) path

def tupleElements (read : Reader) (path : Path) (index : UInt8) :
    List NodeId → Extractor (List Declaration)
  | [] => return []
  | id :: ids => do
    let elementPath := path ++ [.tuple index]
    let element ←
      if ← isDeclared d id then read id elementPath .nested else pure (.bare elementPath .any)
    return element :: (← tupleElements read path (index + 1) ids)

def recordFields (read : Reader) (path : Path) (seen : List Bytes) :
    List (Key × NodeId) → Extractor (List (Field Declaration))
  | [] => return []
  | (key, id) :: es =>
    match key.spelling? with
    | none => do
      -- Such a declaration is logged and has no other effect.
      let _ ← isDeclared d id
      recordFields read path seen es
    | some name => do
      let fieldPath := path ++ [key.segment]
      if name ∈ seen then refuse (.duplicateField name) fieldPath
      else if ← isDeclared d id then
        let schema ← read id fieldPath .nested
        let isOptional ← Declaration.optionalFlag (d.glance id) fieldPath
        return { name, schema, isOptional } :: (← recordFields read path (name :: seen) es)
      else recordFields read path (name :: seen) es

def unionVariants (read : Reader) (path : Path) (seen : List Bytes) :
    List (Key × NodeId) → Extractor (List (Variant Declaration))
  | [] => return []
  | (key, id) :: es =>
    let variantPath := path ++ [key.segment]
    match key.spelling? with
    | none => refuse .variantNameNotText variantPath
    | some name =>
      if name ∈ seen then refuse (.duplicateVariant name) variantPath
      else do
        let schema ←
          match (d.node id).content with
          | .primitive .null => pure (.bare variantPath .null)
          | content => do
            let declaration ← read id variantPath .variant
            if content.isHole || declaration.isEmptyRecord then refuse (.emptyVariant name) variantPath
            else pure declaration
        return { name, schema } :: (← unionVariants read path (name :: seen) es)

def union (read : Reader) (owner variants : NodeId) (path : Path) :
    Extractor (Shape Declaration) := do
  let variantsPath := path ++ [.ext Directive.variants.name]
  match (d.node variants).content with
  | .map es =>
    let members ← unionVariants d read variantsPath [] es
    if members.isEmpty then refuse .noVariants variantsPath
    match (d.node owner).extension? Directive.variantRepr.name with
    | none => return .union members .tagged
    | some r =>
      let reprPath := path ++ [.ext Directive.variantRepr.name]
      return .union members (← Declaration.representation (d.glance r) reprPath)
  | _ => refuse .variantsNotMap variantsPath

def map (read : Reader) (declaration : NodeId) (path : Path) : Extractor (Shape Declaration) :=
  let content := (d.node declaration).content
  match content.field? "key", content.field? "value" with
  | some key, some value => do
    let key ← read key (path ++ [.ident "key"]) .nested
    let value ← read value (path ++ [.ident "value"]) .nested
    return .map key value {}
  | _, _ => refuse .incompleteMap path

def unannotated (read : Reader) (id : NodeId) (path : Path) (placement : Placement) :
    Extractor (Shape Declaration) :=
  match (d.node id).content.typeExpression? with
  | some e => return Declaration.ofExpression e
  | none =>
    match (d.node id).content with
    | .tuple ids => do
      if ← isDeclared d id then return .tuple (← tupleElements d read path 0 ids) else return .any
    | .map es => do
      let isRecord ← if placement = .variant then pure true else isDeclared d id
      if isRecord then
        let fields ← recordFields d read path [] es
        return .record fields (← Declaration.unknownFieldsPolicy (d.glance id) path)
      else return .any
    | _ => return .any

/-- The type of a node with the base directive `a`, which names the node `held`. -/
def annotated (read : Reader) (id : NodeId) (a : Directive) (held : NodeId) (path : Path) :
    Extractor (Path × Shape Declaration) :=
  let heldPath := path ++ [.ext a.name]
  match a with
  | .type => do
    let declaration ← typeDirectiveTo d d.size held heldPath
    return (declaration.origin, declaration.shape)
  | .array => return (path, .array (← read held heldPath .nested) {} false)
  | .map => return (path, ← map d read held heldPath)
  | .literal => return (path, .literal (d.valueAt held).bare)
  | _ => return (path, ← union d read id held path)

/-- The base directives of a node, with the nodes that they name. -/
def baseDirectives (id : NodeId) : List (Directive × NodeId) :=
  Directive.base.filterMap fun a => ((d.node id).extension? a.name).map fun held => (a, held)

def base (read : Reader) (id : NodeId) (path : Path) (placement : Placement) :
    Extractor (Path × Shape Declaration) :=
  match baseDirectives d id with
  | [] => return (path, ← unannotated d read id path placement)
  | [(a, held)] =>
    let content := (d.node id).content
    match content.typeExpression? with
    | none => annotated d read id a held path
    | some _ =>
      refuse (.conflictingExpression a.name ((content.primitive?.map (·.describe)).getD [])) path
  | (a, _) :: (b, _) :: _ => refuse (.conflictingDirectives a.name b.name) path

/-- The declaration that a node makes, given how those in its parts are read. -/
def readWith (read : Reader) : Reader := fun id path placement => do
  let extensions := (d.node id).extensions
  let (origin, shape) ← base d read id path placement
  let shape ← Constraint.applyAll path shape (extensions.map fun x => (x.1, d.glance x.2))
  let metadata ← Metadata.noteAll placement path {} (extensions.map fun x => (x.1, d.valueAt x.2))
  return .node origin shape metadata

def readTo : (depth : Nat) → Reader
  | 0 => fun _ path _ => return .bare path .any
  | depth + 1 => readWith d (readTo depth)

def namedTypes (path : Path) (seen : List Bytes) : List (Key × NodeId) → Extractor (List NamedType)
  | [] => return []
  | (key, id) :: es =>
    let typePath := path ++ [key.segment]
    match key.spelling? with
    | none => refuse .typeNameNotText typePath
    | some name => do
      let declaration ← readTo d d.size id typePath .typeEntry
      if name ∈ seen then refuse (.duplicateType name) typePath
      let naming ← Naming.ofValue (d.glance id) typePath
      return { name, declaration, naming } :: (← namedTypes path (name :: seen) es)

def types : Extractor (List NamedType) :=
  let path : Path := [.ext Directive.types.name]
  match (d.node Document.root).extension? Directive.types.name with
  | none => return []
  | some types =>
    match (d.node types).content with
    | .map es => namedTypes d path [] es
    | _ => refuse .typesNotMap path

def declarations : Extractor Declarations := do
  let types ← types d
  let naming ← Naming.ofValue (d.glance Document.root) []
  let root ← readTo d d.size Document.root [] .root
  return { types, naming, root }

/-- The schema that a document declares, from its nodes. -/
def run : Extract Extraction := do
  let declarations ← (declarations d).run' (Array.replicate d.size none)
  let (placed, schema) := declarations.table
  match Declarations.undefined? placed schema with
  | some (name, path) => refuse (.undefinedType name) path
  | none => return { schema, isPure := !holdsDataTo d d.size Document.root }

end Extractor

end DocSchema
