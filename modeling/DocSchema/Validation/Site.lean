import DocSchema.Validation.Finding

set_option autoImplicit false

namespace DocSchema

/-- A value being validated. The position tells it apart from all other values under the same
root. -/
structure Site where
  value : Value
  path : Path := []
  position : List Nat := []

namespace Site

def part (s : Site) (index : Nat) (step : Segment) (v : Value) : Site :=
  ⟨v, s.path ++ [step], s.position ++ [index]⟩

def entries? (s : Site) : Option (List (Key × Site)) :=
  s.value.content.entries?.map fun es =>
    es.mapIdx fun i (key, v) => (key, s.part i key.segment v)

def array? (s : Site) : Option (List Site) :=
  s.value.content.array?.map fun vs => vs.mapIdx fun i v => s.part i (.array (some i)) v

def tuple? (s : Site) : Option (List Site) :=
  s.value.content.tuple?.map fun vs => vs.mapIdx fun i v => s.part i (.tuple i.toUInt8) v

/-- The first part of a map whose key is spelled `name`. Its path has the step to a field. -/
def field? (s : Site) (name : Bytes) : Option Site :=
  (s.entries?.bind fun es => es.find? fun e => e.1.spelling? == some name).map fun e =>
    { e.2 with path := s.path ++ [.field name] }

def kindName (s : Site) : Bytes :=
  s.value.content.kindName

end Site

/-- The variant that a value was found to be of, and where its content lies. -/
structure Selection where
  position : List Nat
  union : SchemaId
  variant : SchemaId
  target : Site

inductive Target where
  | node (id : SchemaId) (node : SchemaNode)
  | undefined (name : Bytes)

/-- The type at the end of the references from `id`, for a value at `path`. -/
def Schema.target (s : Schema) (id : SchemaId) (path : Path) : Except Failure Target :=
  match s.resolve id with
  | .found id node => .ok (.node id node)
  | .dangling name => .ok (.undefined name)
  | .cyclic name => .error ⟨path, .cycle name⟩
  | .missing => .error ⟨path, .missingNode⟩
  | .missingTarget name => .error ⟨path, .missingTarget name⟩

end DocSchema
