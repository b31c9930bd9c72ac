import DocSchema.Extraction.Constraint
import DocSchema.Extraction.Metadata

set_option autoImplicit false

namespace DocSchema

/-- A type, held with all below it, and the path of its source. -/
inductive Declaration where
  | node (origin : Path) (shape : Shape Declaration) (metadata : Metadata)

namespace Declaration

def origin : Declaration → Path
  | .node path _ _ => path

def shape : Declaration → Shape Declaration
  | .node _ s _ => s

def metadata : Declaration → Metadata
  | .node _ _ m => m

def bare (path : Path) (s : Shape Declaration) : Declaration :=
  .node path s {}

def isEmptyRecord (d : Declaration) : Bool :=
  match d.shape with
  | .record [] _ => true
  | _ => false

abbrev Reader := Value → Path → Placement → Extract Declaration

def ofExpression : TypeExpression → Shape Declaration
  | .text => .text {} none none
  | .integer => .integer {} none
  | .float => .float {} none
  | .boolean => .boolean
  | .null => .null
  | .any => .any
  | .reference name => .reference name

mutual

/-- The type under `$type`: a type expression, or a tuple of such types. -/
def ofTypeDirective (path : Path) : Value → Extract Declaration
  | .node (.tuple vs) _ => return bare path (.tuple (← ofTypeDirectives path 0 vs))
  | .node c x =>
    match (Value.node c x).textContent? with
    | none => refuse (.typeNotText c.kindName) path
    | some s =>
      match TypeExpression.parse? s with
      | some e => .ok (bare path (ofExpression e))
      | none => refuse (.notTypeExpression s) path

def ofTypeDirectives (path : Path) (index : UInt8) : List Value → Extract (List Declaration)
  | [] => .ok []
  | v :: vs =>
    return (← ofTypeDirective (path ++ [.tuple index]) v) :: (← ofTypeDirectives path (index + 1) vs)

end

/-- The elements of a tuple, the first one at `index`. An element that declares nothing may be
anything. -/
def tupleElements (read : Reader) (path : Path) (index : UInt8) :
    List Value → Extract (List Declaration)
  | [] => .ok []
  | v :: vs => do
    let elementPath := path ++ [.tuple index]
    let element ← if v.isDeclared then read v elementPath .nested else pure (bare elementPath .any)
    return element :: (← tupleElements read path (index + 1) vs)

def optionalFlag (v : Value) (path : Path) : Extract Bool :=
  match v.directive? .optional with
  | none => .ok false
  | some flag =>
    match flag.bool? with
    | some b => .ok b
    | none =>
        refuse (.malformed Directive.optional.name .boolean)
          (path ++ [.ext Directive.optional.name])

/-- The fields that the entries of a map declare, where the names in `seen` are taken. -/
def recordFields (read : Reader) (path : Path) (seen : List Bytes) :
    List (Key × Value) → Extract (List (Field Declaration))
  | [] => .ok []
  | (key, v) :: es =>
    match key.spelling? with
    | none => recordFields read path seen es
    | some name =>
      let fieldPath := path ++ [key.segment]
      if name ∈ seen then refuse (.duplicateField name) fieldPath
      else if v.isDeclared then do
        let schema ← read v fieldPath .nested
        let isOptional ← optionalFlag v fieldPath
        return { name, schema, isOptional } :: (← recordFields read path (name :: seen) es)
      else recordFields read path (name :: seen) es

/-- Whether a record admits fields that it does not declare. -/
def unknownFieldsPolicy (v : Value) (path : Path) : Extract Bool :=
  match v.directive? .unknownFields with
  | none => .ok false
  | some policy =>
    if policy.textContent? = some (utf8 "allow") then .ok true
    else if policy.textContent? = some (utf8 "deny") then .ok false
    else refuse .unknownFieldsPolicy (path ++ [.ext Directive.unknownFields.name])

/-- The tag and the content that the entries of `$variant-repr` name, over those found before. -/
def representationParts (path : Path) (tag content : Option Bytes) :
    List (Key × Value) → Extract (Option Bytes × Option Bytes)
  | [] => .ok (tag, content)
  | (key, v) :: es =>
    if key.spelling? = some (utf8 "tag") then representationParts path v.textContent? content es
    else if key.spelling? = some (utf8 "content") then
      match v.textContent? with
      | some s => representationParts path tag (some s) es
      | none => refuse .representationContentNotText (path ++ [key.segment])
    else refuse .representationUnexpectedKey (path ++ [key.segment])

def representation (v : Value) (path : Path) : Extract Representation :=
  match v.textContent?, v.content with
  | some s, _ =>
    if s = utf8 "external" then .ok .external
    else if s = utf8 "tagged" then .ok .tagged
    else refuse (.unknownRepresentation s) path
  | none, .map es => do
    match ← representationParts path none none es with
    | (none, _) => refuse .representationWithoutTag path
    | (some tag, none) => return .internal tag
    | (some tag, some content) =>
      if content = tag then refuse .representationTagIsContent path else return .adjacent tag content
  | none, _ => refuse .representationNotMap path

/-- The variants that the entries under `$variants` declare, where the names in `seen` are taken.
Null declares a variant without content. -/
def unionVariants (read : Reader) (path : Path) (seen : List Bytes) :
    List (Key × Value) → Extract (List (Variant Declaration))
  | [] => .ok []
  | (key, v) :: es =>
    let variantPath := path ++ [key.segment]
    match key.spelling? with
    | none => refuse .variantNameNotText variantPath
    | some name =>
      if name ∈ seen then refuse (.duplicateVariant name) variantPath
      else do
        let schema ←
          match v.content with
          | .primitive .null => pure (bare variantPath .null)
          | _ => do
            let d ← read v variantPath .variant
            if v.content.isHole || d.isEmptyRecord then refuse (.emptyVariant name) variantPath else pure d
        return { name, schema } :: (← unionVariants read path (name :: seen) es)

def union (read : Reader) (v variants : Value) (path : Path) : Extract (Shape Declaration) := do
  let variantsPath := path ++ [.ext Directive.variants.name]
  match variants.content with
  | .map es =>
    let members ← unionVariants read variantsPath [] es
    if members.isEmpty then refuse .noVariants variantsPath
    match v.directive? .variantRepr with
    | none => return .union members .tagged
    | some r =>
        return .union members (← representation r (path ++ [.ext Directive.variantRepr.name]))
  | _ => refuse .variantsNotMap variantsPath

def map (read : Reader) (declaration : Value) (path : Path) : Extract (Shape Declaration) :=
  match declaration.content.field? "key", declaration.content.field? "value" with
  | some key, some value => do
    let key ← read key (path ++ [.ident "key"]) .nested
    let value ← read value (path ++ [.ident "value"]) .nested
    return .map key value {}
  | _, _ => refuse .incompleteMap path

def unannotated (read : Reader) (v : Value) (path : Path) (placement : Placement) :
    Extract (Shape Declaration) :=
  match v.content.typeExpression? with
  | some e => .ok (ofExpression e)
  | none =>
    match v.content with
    | .tuple vs =>
      if v.isDeclared then return .tuple (← tupleElements read path 0 vs) else .ok .any
    | .map es =>
      if placement = .variant ∨ v.isDeclared then do
        let fields ← recordFields read path [] es
        return .record fields (← unknownFieldsPolicy v path)
      else .ok .any
    | _ => .ok .any

/-- The type of a value with the base directive `a`, which holds `v'`. -/
def annotated (read : Reader) (v : Value) (a : Directive) (held : Value) (path : Path) :
    Extract (Path × Shape Declaration) :=
  let heldPath := path ++ [.ext a.name]
  match a with
  | .type => do
    let d ← ofTypeDirective heldPath held
    return (d.origin, d.shape)
  | .array => return (path, .array (← read held heldPath .nested) {} false)
  | .map => return (path, ← map read held heldPath)
  | .literal => return (path, .literal held.bare)
  | _ => return (path, ← union read v held path)

/-- The type of a value before its constraints, and the path of its source. -/
def base (read : Reader) (v : Value) (path : Path) (placement : Placement) :
    Extract (Path × Shape Declaration) :=
  match Directive.base.filterMap fun a => (v.directive? a).map fun held => (a, held) with
  | [] => return (path, ← unannotated read v path placement)
  | [(a, held)] =>
    match v.content.typeExpression? with
    | none => annotated read v a held path
    | some _ =>
      refuse (.conflictingExpression a.name ((v.content.primitive?.map (·.describe)).getD [])) path
  | (a, _) :: (b, _) :: _ => refuse (.conflictingDirectives a.name b.name) path

/-- The declaration that a value makes, given how those in its parts are read. -/
def readWith (read : Reader) : Reader := fun v path placement => do
  let (origin, shape) ← base read v path placement
  let shape ← Constraint.applyAll path shape v.extensions
  let metadata ← Metadata.noteAll placement path {} v.extensions
  return .node origin shape metadata

def readTo : (depth : Nat) → Reader
  | 0 => fun _ path _ => .ok (bare path .any)
  | depth + 1 => readWith (readTo depth)

/-- The declaration that a value makes. No value has more levels than nodes. -/
def ofValue : Reader := fun v path placement =>
  readTo v.size v path placement

end Declaration

end DocSchema
