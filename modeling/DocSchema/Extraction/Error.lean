import DocSchema.Path

set_option autoImplicit false

namespace DocSchema

/-- What the value of a directive fails to be. -/
inductive Requirement where
  /-- Allowed on a type of this kind. -/
  | applicable (kind : Bytes)
  | pair
  | orderedCounts
  | text
  | regularExpression
  | count
  | nonemptyLength
  | nonemptyItems
  /-- Two numbers as the type has them. -/
  | bounds (isInteger : Bool)
  | positive (isInteger : Bool)
  | number (isInteger : Bool)
  | boolean
  | array
  | renameRule
deriving DecidableEq

def numberName (isInteger : Bool) : Bytes :=
  if isInteger then "an integer" else "a number"

def Requirement.message : Requirement → Bytes
  | .applicable kind => "does not apply to " ++ kind
  | .pair => "must be a (min, max) tuple"
  | .orderedCounts => "must hold two non-negative integers with min <= max"
  | .text => "must be text"
  | .regularExpression => "is not a valid regular expression"
  | .count => "must be a non-negative integer"
  | .nonemptyLength => "leaves an empty length range"
  | .nonemptyItems => "leaves an empty item count range"
  | .bounds isInteger => "bounds must be " ++ numberName isInteger
  | .positive isInteger => "must be " ++ numberName isInteger ++ utf8 " greater than zero"
  | .number isInteger => "must be " ++ numberName isInteger
  | .boolean => "must be a boolean"
  | .array => "must be an array"
  | .renameRule =>
    "must be one of camelCase, snake_case, kebab-case, PascalCase, lowercase, UPPERCASE"

inductive Defect where
  | conflictingDirectives (first second : Bytes)
  | conflictingExpression (directive expression : Bytes)
  | malformed (directive : Bytes) (requirement : Requirement)
  | typesNotMap
  | typeNameNotText
  | typeNotText (kind : Bytes)
  | notTypeExpression (text : Bytes)
  | incompleteMap
  | variantsNotMap
  | variantNameNotText
  | duplicateType (name : Bytes)
  | duplicateField (name : Bytes)
  | duplicateVariant (name : Bytes)
  | undefinedType (name : Bytes)
  | emptyVariant (name : Bytes)
  | noVariants
  | unknownRepresentation (name : Bytes)
  | representationNotMap
  | representationContentNotText
  | representationUnexpectedKey
  | representationWithoutTag
  | representationTagIsContent
  | representationWithoutVariants
  | unknownFieldsPolicy
deriving DecidableEq

namespace Defect

def kind : Defect → Bytes
  | .conflictingDirectives .. => "ConflictingTypeAnnotation"
  | .conflictingExpression .. => "ConflictingTypeAnnotation"
  | .malformed .. => "MalformedConstraint"
  | .typesNotMap => "InvalidTypeExpression"
  | .typeNameNotText => "InvalidTypeExpression"
  | .typeNotText _ => "InvalidTypeExpression"
  | .notTypeExpression _ => "InvalidTypeExpression"
  | .incompleteMap => "InvalidTypeExpression"
  | .variantsNotMap => "InvalidTypeExpression"
  | .variantNameNotText => "InvalidTypeExpression"
  | .duplicateType _ => "DuplicateField"
  | .duplicateField _ => "DuplicateField"
  | .duplicateVariant _ => "DuplicateVariant"
  | .undefinedType _ => "DanglingReference"
  | .emptyVariant _ => "EmptyVariant"
  | .noVariants => "EmptyVariant"
  | .unknownRepresentation _ => "InvalidVariantRepr"
  | .representationNotMap => "InvalidVariantRepr"
  | .representationContentNotText => "InvalidVariantRepr"
  | .representationUnexpectedKey => "InvalidVariantRepr"
  | .representationWithoutTag => "InvalidVariantRepr"
  | .representationTagIsContent => "InvalidVariantRepr"
  | .representationWithoutVariants => "InvalidVariantRepr"
  | .unknownFieldsPolicy => "InvalidUnknownFieldsPolicy"

def message : Defect → Bytes
  | .conflictingDirectives first second =>
    "$" ++ first ++ utf8 " and $" ++ second ++ utf8 " cannot be combined"
  | .conflictingExpression directive expression =>
    "$" ++ directive ++ utf8 " conflicts with the inline type expression " ++ expression
  | .malformed directive requirement => "$" ++ directive ++ utf8 " " ++ requirement.message
  | .typesNotMap => "$types must be a map of type declarations"
  | .typeNameNotText => "type names must be identifiers or text keys"
  | .typeNotText kind => "$type expects a type expression, found " ++ kind
  | .notTypeExpression text => "'" ++ text ++ utf8 "' is not a type expression"
  | .incompleteMap => "$map needs both 'key' and 'value' declarations"
  | .variantsNotMap => "$variants must be a map of variant declarations"
  | .variantNameNotText => "variant names must be identifiers or text keys"
  | .duplicateType name => "type '" ++ name ++ utf8 "' is defined more than once"
  | .duplicateField name => "field '" ++ name ++ utf8 "' is declared more than once"
  | .duplicateVariant name => "variant '" ++ name ++ utf8 "' is declared more than once"
  | .undefinedType name => "type '" ++ name ++ utf8 "' is not defined"
  | .emptyVariant name =>
    "variant '" ++ name ++ utf8 "' declares no fields, use null for a unit variant"
  | .noVariants => "union declares no variants"
  | .unknownRepresentation name => "unsupported variant representation '" ++ name ++ utf8 "'"
  | .representationNotMap =>
    "$variant-repr must be text or a map with 'tag' and optional 'content'"
  | .representationContentNotText => "'content' must be text"
  | .representationUnexpectedKey => "unexpected key in $variant-repr"
  | .representationWithoutTag => "$variant-repr needs a text 'tag'"
  | .representationTagIsContent => "'tag' and 'content' must differ"
  | .representationWithoutVariants => "$variant-repr requires $variants on the same node"
  | .unknownFieldsPolicy => "$unknown-fields must be \"deny\" or \"allow\""

end Defect

/-- A defect and the path of the declaration that has it. -/
structure ExtractionError where
  defect : Defect
  path : Path
deriving DecidableEq

abbrev Extract := Except ExtractionError

def refuse {α : Type} (defect : Defect) (path : Path) : Extract α :=
  .error ⟨defect, path⟩

end DocSchema
