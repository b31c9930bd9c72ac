import DocSchema.Schema.Registry
import Mathlib.Data.List.Nodup

set_option autoImplicit false

namespace DocSchema

def reindex (types : List (Bytes × SchemaId)) : Std.HashMap Bytes Nat :=
  types.zipIdx.foldl (fun index entry => index.insertIfNew entry.1.1 entry.2) ∅

/-- A table of types with a registry of names and the index of the registry. -/
structure IndexedSchema where
  nodes : Array SchemaNode := #[]
  root : SchemaId := invalidId
  types : List (Bytes × SchemaId) := []
  /-- The positions in `types`. -/
  index : Std.HashMap Bytes Nat := ∅
  naming : Naming := {}
  typeNaming : Dictionary Naming := []

namespace IndexedSchema

def add (s : IndexedSchema) (n : SchemaNode) : SchemaId × IndexedSchema :=
  (s.nodes.size, { s with nodes := s.nodes.push n })

/-- Registers a type, unless the name is taken, and answers whether it did. -/
def define (s : IndexedSchema) (name : Bytes) (id : SchemaId) : Bool × IndexedSchema :=
  if s.index.contains name then (false, s)
  else
    (true, { s with
      index := s.index.insertIfNew name s.types.length
      types := s.types ++ [(name, id)] })

def find? (s : IndexedSchema) (name : Bytes) : Option SchemaId := do
  let position ← s.index[name]?
  return (← s.types[position]?).2

/-- Removes a type from the registry together with its naming options, and answers whether it was
there. -/
def remove (s : IndexedSchema) (name : Bytes) : Bool × IndexedSchema :=
  match s.index[name]? with
  | none => (false, s)
  | some position =>
    let types := s.types.eraseIdx position
    (true, { s with
      types := types
      index := reindex types
      typeNaming := s.typeNaming.erase name })

/-- Hands out the naming options of a type for a change. A type without options gets empty ones. -/
def alterNaming (s : IndexedSchema) (name : Bytes) (change : Naming → Naming) : IndexedSchema :=
  { s with typeNaming := s.typeNaming.insert name (change ((lookup? name s.typeNaming).getD {})) }

end IndexedSchema

inductive Registration where
  | add (n : SchemaNode)
  | define (name : Bytes) (id : SchemaId)
  | remove (name : Bytes)
  | setRoot (id : SchemaId)
  | alterNaming (name : Bytes) (change : Naming → Naming)

namespace Registration

inductive Answer where
  | added (id : SchemaId)
  /-- Whether the call did what it was asked for. -/
  | done (success : Bool)
  | silent
deriving DecidableEq

abbrev Log := List (Registration × Answer)

def apply (s : IndexedSchema) : Registration → Answer × IndexedSchema
  | .add n => (s.add n).map .added id
  | .define name type => (s.define name type).map .done id
  | .remove name => (s.remove name).map .done id
  | .setRoot type => (.silent, { s with root := type })
  | .alterNaming name change => (.silent, s.alterNaming name change)

def applyPlain (s : Schema) : Registration → Answer × Schema
  | .add n => (.added s.size, s.add n)
  | .define name type =>
      ((s.define? name type).elim (.done false, s) fun defined => (.done true, defined))
  | .remove name => ((s.remove? name).elim (.done false, s) fun removed => (.done true, removed))
  | .setRoot type => (.silent, { s with root := type })
  | .alterNaming name change =>
    (.silent, s.setTypeNaming name (change ((lookup? name s.typeNaming).getD {})))

/-- Makes some calls one after the other, and keeps their answers. -/
def run {σ : Type} (apply : σ → Registration → Answer × σ) : σ → List Registration → Log × σ
  | s, [] => ([], s)
  | s, call :: calls =>
    let (answer, s') := apply s call
    (run apply s' calls).map ((call, answer) :: ·) id

/-- The name and the type that a call registered, if it did. -/
def defined? : Registration × Answer → Option (Bytes × SchemaId)
  | (.define name id, .done true) => some (name, id)
  | _ => none

def removes (name : Bytes) : Registration × Answer → Bool
  | (.remove other, .done true) => other == name
  | _ => false

def standing : Log → List (Bytes × SchemaId)
  | [] => []
  | entry :: later =>
    match defined? entry with
    | some type => if later.any (removes type.1) then standing later else type :: standing later
    | none => standing later

end Registration

end DocSchema
