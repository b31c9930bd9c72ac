import DocSchema.Schema.Naming
import DocSchema.Schema.Shape
import DocSchema.Text.Dictionary

set_option autoImplicit false

namespace DocSchema

/-- The position of a type in the table of its schema. -/
abbrev SchemaId := Nat

/-- A type of a schema. -/
structure SchemaNode where
  shape : Shape SchemaId
  metadata : Metadata := {}

/-- A table of types. -/
structure Schema where
  nodes : Array SchemaNode := #[]
  root : SchemaId := invalidId
  types : List (Bytes × SchemaId) := []
  /-- No name is registered twice. -/
  distinct : (types.map (·.1)).Nodup := by exact List.nodup_nil
  naming : Naming := {}
  typeNaming : Dictionary Naming := []

namespace Schema

def size (s : Schema) : Nat :=
  s.nodes.size

def node? (s : Schema) (id : SchemaId) : Option SchemaNode :=
  s.nodes[id]?

def contains (s : Schema) (id : SchemaId) : Bool :=
  id < s.size

/-- Adds a type, whose id is the old size of the table. -/
def add (s : Schema) (n : SchemaNode) : Schema :=
  { s with nodes := s.nodes.push n }

def find? (s : Schema) (name : Bytes) : Option SchemaId :=
  lookup? name s.types

theorem nodup_define {types : List (Bytes × SchemaId)} (distinct : (types.map (·.1)).Nodup)
    {name : Bytes} (fresh : lookup? name types = none) (id : SchemaId) :
    ((types ++ [(name, id)]).map (·.1)).Nodup := by
  rw [List.map_append, List.nodup_append]
  refine ⟨distinct, by simp, ?_⟩
  intro taken member other single
  obtain ⟨item, inside, rfl⟩ := List.mem_map.1 member
  obtain rfl : other = name := by simpa using single
  intro same
  have absent := List.find?_eq_none.1 (Option.map_eq_none_iff.1 fresh) item inside
  exact absent (by simpa using same)

def define? (s : Schema) (name : Bytes) (id : SchemaId) : Option Schema :=
  match fresh : s.find? name with
  | some _ => none
  | none => some { s with
      types := s.types ++ [(name, id)]
      distinct := nodup_define s.distinct fresh id }

/-- Registers types in order. Names that are taken by then are passed over. -/
def defineAll (s : Schema) (types : List (Bytes × SchemaId)) : Schema :=
  types.foldl (fun s entry => (s.define? entry.1 entry.2).getD s) s

/-- Removes a type from the registry together with its naming options, if it is there. -/
def remove? (s : Schema) (name : Bytes) : Option Schema :=
  if (s.find? name).isSome then
    some { s with
      types := s.types.filter fun entry => entry.1 != name
      distinct := s.distinct.sublist (List.filter_sublist.map _)
      typeNaming := s.typeNaming.erase name }
  else none

def setTypeNaming (s : Schema) (name : Bytes) (naming : Naming) : Schema :=
  { s with typeNaming := s.typeNaming.insert name naming }

inductive Resolution where
  /-- At a type that is no reference. -/
  | found (id : SchemaId) (node : SchemaNode)
  /-- At a name that is not registered. -/
  | dangling (name : Bytes)
  /-- Nowhere: the reference of this name was met before. -/
  | cyclic (name : Bytes)
  /-- At an id outside the table, where the chain began. -/
  | missing
  /-- At an id outside the table, registered under this name. -/
  | missingTarget (name : Bytes)

/-- Follows references from `id`, having met those in `chain`. -/
def follow (s : Schema) : (fuel : Nat) → (chain : List SchemaId) → SchemaId → Resolution
  | 0, _, _ => .missing
  | fuel + 1, chain, id =>
    match s.node? id with
    | none => .missing
    | some ⟨.reference name, _⟩ =>
      if id ∈ chain then .cyclic name
      else
        match s.find? name with
        | none => .dangling name
        | some target =>
          if s.contains target then s.follow fuel (id :: chain) target else .missingTarget name
    | some node => .found id node

/-- The end of the chain of references from `id`. A chain that ends is no longer than the table. -/
def resolve (s : Schema) (id : SchemaId) : Resolution :=
  s.follow (s.size + 1) [] id

end Schema

end DocSchema
