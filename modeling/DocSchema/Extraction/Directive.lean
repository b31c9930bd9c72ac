import DocSchema.Schema.TypeExpression
import DocSchema.Value

set_option autoImplicit false

namespace DocSchema

/-- An extension with a meaning for schemas. -/
inductive Directive where
  | type
  | array
  | map
  | literal
  | variants
  | variantRepr
  | variant
  | optional
  | unknownFields
  | length
  | minLength
  | maxLength
  | pattern
  | language
  | range
  | minimum
  | maximum
  | exclusiveMin
  | exclusiveMax
  | multipleOf
  | minItems
  | maxItems
  | unique
  | minSize
  | maxSize
  | description
  | deprecated
  | default
  | examples
  | types
deriving DecidableEq

namespace Directive

def names : List (Directive × String) :=
  [(type, "type"), (array, "array"), (map, "map"), (literal, "literal"), (variants, "variants"),
    (variantRepr, "variant-repr"), (variant, "variant"), (optional, "optional"),
    (unknownFields, "unknown-fields"), (length, "length"), (minLength, "min-length"),
    (maxLength, "max-length"), (pattern, "pattern"), (language, "language"), (range, "range"),
    (minimum, "minimum"), (maximum, "maximum"), (exclusiveMin, "exclusive-min"),
    (exclusiveMax, "exclusive-max"), (multipleOf, "multiple-of"), (minItems, "min-items"),
    (maxItems, "max-items"), (unique, "unique"), (minSize, "min-size"), (maxSize, "max-size"),
    (description, "description"), (deprecated, "deprecated"), (default, "default"),
    (examples, "examples"), (types, "types")]

def name (a : Directive) : Bytes :=
  ((names.find? fun entry => entry.1 == a).map fun entry => utf8 entry.2).getD []

def ofName? (s : Bytes) : Option Directive :=
  (names.find? fun entry => utf8 entry.2 == s).map (·.1)

/-- The directives that give a value its type. A value has one of them at most. -/
def base : List Directive :=
  [type, array, map, literal, variants]

/-- Whether the extension of the given name declares a type on its own. -/
def declares (s : Bytes) : Bool :=
  (ofName? s).any fun a => a == optional || base.contains a

end Directive

namespace Value

def directive? (a : Directive) (v : Value) : Option Value :=
  v.extension? a.name

def textContent? (v : Value) : Option Bytes :=
  v.text?.map (·.content)

end Value

/-- The type expression that a content is: a text without a language tag that reads as one. -/
def Content.typeExpression? {α : Type} : Content α → Option TypeExpression
  | .primitive (.text ⟨s, .implicit⟩) => TypeExpression.parse? s
  | _ => none

namespace Value

mutual

/-- Whether a value declares a type, itself or in a part of it; elements of arrays do not count. -/
def isDeclared : Value → Bool
  | .node c x =>
    x.any (fun item => Directive.declares item.1) || c.typeExpression?.isSome || isDeclaredContent c

def isDeclaredContent : Content Value → Bool
  | .map es => isDeclaredEntries es
  | .tuple vs => isDeclaredList vs
  | _ => false

def isDeclaredEntries : List (Key × Value) → Bool
  | [] => false
  | (_, v) :: es => v.isDeclared || isDeclaredEntries es

def isDeclaredList : List Value → Bool
  | [] => false
  | v :: vs => v.isDeclared || isDeclaredList vs

end

mutual

/-- Whether a value holds data: a primitive that is no type expression, or an empty array. -/
def holdsData : Value → Bool
  | .node c _ => holdsDataContent c

def holdsDataContent : Content Value → Bool
  | .hole => false
  | .primitive p => (Content.typeExpression? (α := Value) (.primitive p)).isNone
  | .map es => holdsDataEntries es
  | .array vs => vs.isEmpty || holdsDataList vs
  | .tuple vs => holdsDataList vs

def holdsDataEntries : List (Key × Value) → Bool
  | [] => false
  | (_, v) :: es => v.holdsData || holdsDataEntries es

def holdsDataList : List Value → Bool
  | [] => false
  | v :: vs => v.holdsData || holdsDataList vs

end

end Value

end DocSchema
