import DocSchema.Value.Equality

set_option autoImplicit false

namespace DocSchema

structure Counts where
  min : Option Nat := none
  max : Option Nat := none
deriving DecidableEq

namespace Counts

def admits (c : Counts) (n : Nat) : Bool :=
  c.min.all (· ≤ n) && c.max.all (n ≤ ·)

/-- Whether no count lies within the bounds, as far as both are given. -/
def isEmpty (c : Counts) : Bool :=
  match c.min, c.max with
  | some min, some max => max < min
  | _, _ => false

def text (c : Counts) : Bytes :=
  utf8 "[" ++ ((c.min.map Bytes.ofNat).getD "0") ++ utf8 ", " ++
    ((c.max.map Bytes.ofNat).getD "inf")
    ++ utf8 "]"

end Counts

inductive Representation where
  /-- By the extension `$variant`. -/
  | tagged
  /-- By the only key of a map, which holds the content. -/
  | external
  /-- By a field of the content itself. -/
  | internal (tag : Bytes)
  /-- By a field beside the one that holds the content. -/
  | adjacent (tag content : Bytes)
deriving DecidableEq

structure Field (α : Type) where
  name : Bytes
  schema : α
  isOptional : Bool := false

structure Variant (α : Type) where
  name : Bytes
  schema : α

/-- What a type demands of a value. -/
inductive Shape (α : Type) where
  | text (length : Counts) (pattern language : Option Bytes)
  | integer (range : Range) (multipleOf : Option Int64)
  | float (range : Range) (multipleOf : Option Number)
  | boolean
  | null
  | any
  | literal (expected : Value)
  | record (fields : List (Field α)) (allowsUnknown : Bool)
  | array (item : α) (length : Counts) (isUnique : Bool)
  | map (key value : α) (size : Counts)
  | tuple (elements : List α)
  | union (variants : List (Variant α)) (representation : Representation)
  | reference (name : Bytes)

namespace Shape

variable {α β : Type}

def kindName : Shape α → Bytes
  | .text .. => "text"
  | .integer .. => "integer"
  | .float .. => "float"
  | .boolean => "boolean"
  | .null => "null"
  | .any => "any"
  | .literal _ => "literal"
  | .record .. => "record"
  | .array .. => "array"
  | .map .. => "map"
  | .tuple _ => "tuple"
  | .union .. => "union"
  | .reference _ => "reference"

def children : Shape α → List α
  | .record fields _ => fields.map (·.schema)
  | .array item _ _ => [item]
  | .map key value _ => [key, value]
  | .tuple elements => elements
  | .union variants _ => variants.map (·.schema)
  | _ => []

/-- Whether the shape is `any`. -/
def isAny : Shape α → Bool
  | .any => true
  | _ => false

def isNull : Shape α → Bool
  | .null => true
  | _ => false

def field? (name : Bytes) : Shape α → Option (Field α)
  | .record fields _ => fields.find? (·.name == name)
  | _ => none

def variant? (name : Bytes) : Shape α → Option (Variant α)
  | .union variants _ => variants.find? (·.name == name)
  | _ => none

end Shape

/-- What is said about a type. It never decides whether a value conforms. -/
structure Metadata where
  description : Option Bytes := none
  isDeprecated : Bool := false
  defaultValue : Option Value := none
  examples : List Value := []
  /-- Extensions without a meaning of their own, in order. -/
  extensions : List (Bytes × Value) := []

def Metadata.same (m n : Metadata) : Bool :=
  m.description == n.description && m.isDeprecated == n.isDeprecated
    && bothOrNeither Value.same m.defaultValue n.defaultValue
    && sameList Value.same m.examples n.examples
    && sameList (fun a b => a.1 == b.1 && a.2.same b.2) m.extensions n.extensions

end DocSchema
