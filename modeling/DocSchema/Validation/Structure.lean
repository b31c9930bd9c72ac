import DocSchema.Validation.Scalar

set_option autoImplicit false

namespace DocSchema

/-- What the checks of one level share: the schema, how a missing tag is treated, and the check of
the level below. -/
structure Walk where
  schema : Schema
  /-- Whether the variant of a value without a tag is inferred. -/
  isLenient : Bool
  check : SchemaId → Site → Check

/-- Reports the entries whose keys are not spelled like a known name. -/
def unknownFields (isKnown : Bytes → Bool) (entries : List (Key × Site)) : Check :=
  entries.forM fun e =>
    Check.expect (e.1.spelling?.any isKnown) e.2.path (.unknownField e.1.label)

namespace Walk

def field (w : Walk) (s : Site) (f : Field SchemaId) : Check :=
  match s.field? f.name with
  | some part => w.check f.schema part
  | none => Check.expect f.isOptional (s.path ++ [.field f.name]) (.missingField f.name)

/-- Checks the fields of a record and whether there are others. The name of a tag that shares the
map is no unknown field. -/
def record (w : Walk) (fields : List (Field SchemaId)) (allowsUnknown : Bool) (tag : Option Bytes)
    (s : Site) : Check :=
  match s.entries? with
  | none => Check.wrongKind "record" s
  | some entries => do
    fields.forM (w.field s)
    if allowsUnknown then pure ()
    else unknownFields (fun name => tag == some name || fields.any (·.name == name)) entries

/-- The first of the items that equals the one at `index`, if that one comes later. -/
def duplicate? (items : List Site) (index : Nat) (item : Site) : Option Nat :=
  (items.take index).findIdx? fun earlier => earlier.value.same item.value

def duplicates (items : List Site) : Check :=
  (items.mapIdx fun i item => (i, item)).forM fun (i, item) =>
    match duplicate? items i item with
    | some first => Walker.report item.path (.duplicateItem first)
    | none => pure ()

/-- Checks the length of an array, its items, and whether they are different. -/
def array (w : Walk) (item : SchemaId) (length : Counts) (isUnique : Bool) (s : Site) : Check :=
  match s.array? with
  | none => Check.wrongKind "array" s
  | some items => do
    let n := items.length
    Check.expect (length.admits n) s.path (.arrayLength n length)
    items.forM (w.check item)
    if isUnique then duplicates items else pure ()

def map (w : Walk) (key value : SchemaId) (size : Counts) (s : Site) : Check :=
  match s.entries? with
  | none => Check.wrongKind "map" s
  | some entries => do
    let n := entries.length
    Check.expect (size.admits n) s.path (.mapSize n size)
    entries.forM fun e => do
      Check.key w.schema key e.1 e.2.path
      w.check value e.2

/-- Checks the arity of a tuple, once, and the elements that it and its type have in common. -/
def tuple (w : Walk) (types : List SchemaId) (s : Site) : Check :=
  match s.tuple? with
  | none => Check.wrongKind "tuple" s
  | some elements => do
    let expected := types.length
    let actual := elements.length
    Check.expect (expected == actual) s.path (.wrongArity expected actual)
    (types.zip elements).forM fun e => w.check e.1 e.2

end Walk

end DocSchema
