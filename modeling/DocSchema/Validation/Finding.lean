import DocSchema.Json.Compact
import DocSchema.Number.Range
import DocSchema.Schema.Registry
import DocSchema.Value.Json

set_option autoImplicit false

namespace DocSchema

/-- How a value disagrees with its type. -/
inductive Mismatch where
  | wrongKind (expected found : Bytes)
  | missingField (name : Bytes)
  | missingContent (name : Bytes)
  | missingValue
  | unknownField (label : Bytes)
  | outOfRange (value : Number) (range : Range)
  | notMultiple (value divisor : Number)
  | textLength (length : Nat) (bounds : Counts)
  | patternMismatch (pattern : Bytes)
  | languageMismatch (expected found : Bytes)
  | arrayLength (length : Nat) (bounds : Counts)
  | mapSize (size : Nat) (bounds : Counts)
  | duplicateItem (first : Nat)
  | invalidKey (key : Literal) (kind : Bytes)
  | wrongKey (key : Literal)
  | wrongLiteral (expected : Value)
  | wrongArity (expected found : Nat)
  | missingVariantExtension
  | missingVariantKey
  | missingTagField (name : Bytes)
  | variantExtensionNotText (kind : Bytes)
  | tagFieldNotText (kind : Bytes)
  | unknownVariant (name : Bytes)
  | severalNamed (names : List Bytes)
  | severalMatched (names : List Bytes)
  | noneMatched
  | conflictingTags (extension value : Bytes)
  | undefinedType (name : Bytes)
  | tooDeep (limit : Nat)

namespace Mismatch

def kind : Mismatch → Bytes
  | .wrongKind .. => "TypeMismatch"
  | .missingField _ => "MissingField"
  | .missingContent _ => "MissingField"
  | .missingValue => "MissingField"
  | .unknownField _ => "UnknownField"
  | .outOfRange .. => "OutOfRange"
  | .notMultiple .. => "NotMultipleOf"
  | .textLength .. => "LengthOutOfBounds"
  | .patternMismatch _ => "PatternMismatch"
  | .languageMismatch .. => "LanguageMismatch"
  | .arrayLength .. => "ArrayLengthOutOfBounds"
  | .mapSize .. => "MapSizeOutOfBounds"
  | .duplicateItem _ => "NotUnique"
  | .invalidKey .. => "InvalidKey"
  | .wrongKey _ => "LiteralMismatch"
  | .wrongLiteral _ => "LiteralMismatch"
  | .wrongArity .. => "ArityMismatch"
  | .missingVariantExtension => "MissingVariantTag"
  | .missingVariantKey => "MissingVariantTag"
  | .missingTagField _ => "MissingVariantTag"
  | .variantExtensionNotText _ => "InvalidVariantTag"
  | .tagFieldNotText _ => "InvalidVariantTag"
  | .unknownVariant _ => "UnknownVariant"
  | .severalNamed _ => "AmbiguousVariant"
  | .severalMatched _ => "AmbiguousVariant"
  | .noneMatched => "NoVariantMatched"
  | .conflictingTags .. => "ConflictingVariantTags"
  | .undefinedType _ => "DanglingReference"
  | .tooDeep _ => "RecursionLimit"

/-- The text of the mismatch, unless it names a literal that cannot be written. -/
def title? (dump? : Json.Writer) : Mismatch → Option Bytes
  | .wrongKind expected found => some ("expected " ++ expected ++ utf8 ", found " ++ found)
  | .missingField name => some ("missing required field '" ++ name ++ utf8 "'")
  | .missingContent name => some ("missing content field '" ++ name ++ utf8 "'")
  | .missingValue => some "required value is missing"
  | .unknownField label => some ("unknown field '" ++ label ++ utf8 "'")
  | .outOfRange value range => some (value.text ++ utf8 " is outside the range " ++ range.text)
  | .notMultiple value divisor => some (value.text ++ utf8 " is not a multiple of " ++ divisor.text)
  | .textLength length bounds =>
    some ("text length " ++ Bytes.ofNat length ++ utf8 " is outside " ++ bounds.text)
  | .patternMismatch pattern => some ("text does not match pattern '" ++ pattern ++ utf8 "'")
  | .languageMismatch expected found =>
    some ("expected language '" ++ expected ++ utf8 "', found '" ++ found ++ utf8 "'")
  | .arrayLength length bounds =>
    some ("array has " ++ Bytes.ofNat length ++ utf8 " items, expected " ++ bounds.text)
  | .mapSize size bounds =>
    some ("map has " ++ Bytes.ofNat size ++ utf8 " entries, expected " ++ bounds.text)
  | .duplicateItem first => some ("item duplicates item " ++ Bytes.ofNat first)
  | .invalidKey key kind =>
    some ("key " ++ key.render ++ utf8 " does not fit the " ++ kind ++ utf8 " key type")
  | .wrongKey key => some ("key " ++ key.render ++ utf8 " differs from the expected literal")
  | .wrongLiteral expected => (dump? expected.toJson).map (utf8 "expected the literal " ++ ·)
  | .wrongArity expected found =>
    some ("expected " ++ Bytes.ofNat expected ++ utf8 " elements, found " ++ Bytes.ofNat found)
  | .missingVariantExtension => some "missing $variant tag"
  | .missingVariantKey => some "expected exactly one key naming a variant"
  | .missingTagField name => some ("missing tag field '" ++ name ++ utf8 "'")
  | .variantExtensionNotText kind => some ("$variant must be text, found " ++ kind)
  | .tagFieldNotText kind => some ("variant tag must be text, found " ++ kind)
  | .unknownVariant name => some ("unknown variant '" ++ name ++ utf8 "'")
  | .severalNamed names => some ("value names several variants: " ++ Bytes.commaList names)
  | .severalMatched names => some ("value matches several variants: " ++ Bytes.commaList names)
  | .noneMatched => some "value matches none of the variants"
  | .conflictingTags extension value =>
    some ("$variant names '" ++ extension ++ utf8 "' but the value names '" ++ value ++ utf8 "'")
  | .undefinedType name => some ("type '" ++ name ++ utf8 "' is not defined")
  | .tooDeep limit => some ("nesting exceeds " ++ Bytes.ofNat limit ++ utf8 " levels")

/-- What is shown of the mismatch: its text without blanks in a literal, and nothing where there is
none. -/
def title (m : Mismatch) : Bytes :=
  (m.title? Json.compact).getD []

end Mismatch

/-- Why a schema is unusable. -/
inductive Flaw where
  | missingNode
  | missingTarget (name : Bytes)
  | unresolved (name : Bytes)
  | cycle (name : Bytes)
  | invalidPattern (pattern : Bytes)
deriving DecidableEq

namespace Flaw

def kind : Flaw → Bytes
  | .missingNode => "InvalidSchemaNode"
  | .missingTarget _ => "InvalidSchemaNode"
  | .unresolved _ => "InvalidSchemaNode"
  | .cycle _ => "ReferenceCycle"
  | .invalidPattern _ => "InvalidPattern"

def message : Flaw → Bytes
  | .missingNode => "schema node does not exist"
  | .missingTarget name => "type '" ++ name ++ utf8 "' points to a missing schema node"
  | .unresolved name => "unresolved reference to '" ++ name ++ utf8 "'"
  | .cycle name => "type '" ++ name ++ utf8 "' refers to itself without structure"
  | .invalidPattern pattern => "pattern '" ++ pattern ++ utf8 "' does not compile"

end Flaw

/-- A mismatch and the path of the value. -/
structure Finding where
  path : Path
  mismatch : Mismatch

/-- A flaw of the schema and the path of the value that met it. -/
structure Failure where
  path : Path
  flaw : Flaw
deriving DecidableEq

/-- The kind and the text of a warning, of which there is only one. -/
inductive Warning where
  | deprecated
deriving DecidableEq

namespace Warning

def kind : Warning → Bytes
  | .deprecated => "Deprecated"

def title : Warning → Bytes
  | .deprecated => "deprecated value is used"

end Warning

end DocSchema
