import DocSchema.Path

set_option autoImplicit false

namespace DocSchema

def invalidId : Nat :=
  UInt64.size - 1

/-- What a node holds, apart from its extensions. -/
inductive Content (α : Type) where
  /-- Declared but not filled. -/
  | hole
  | primitive (p : Primitive)
  | map (entries : List (Key × α))
  | array (elements : List α)
  | tuple (elements : List α)

/-- A content with the table of its extensions. -/
structure Node (α : Type) where
  content : Content α := .hole
  extensions : List (Bytes × α) := []

variable {α β : Type}

def lookup? {κ : Type} [DecidableEq κ] (k : κ) (items : List (κ × α)) : Option α :=
  (items.find? fun item => item.1 == k).map (·.2)

theorem mem_of_lookup? {κ : Type} [DecidableEq κ] {k : κ} {items : List (κ × α)} {a : α}
    (h : lookup? k items = some a) : (k, a) ∈ items := by
  obtain ⟨⟨k', a'⟩, hf, rfl⟩ := Option.map_eq_some_iff.1 h
  have hk : k' = k := by simpa using List.find?_some hf
  exact hk ▸ List.mem_of_find?_eq_some hf

namespace Content

def mapParts (f : α → β) : Content α → Content β
  | .hole => .hole
  | .primitive p => .primitive p
  | .map es => .map (es.map fun (k, a) => (k, f a))
  | .array as => .array (as.map f)
  | .tuple as => .tuple (as.map f)

def parts : Content α → List α
  | .map es => es.map (·.2)
  | .array as => as
  | .tuple as => as
  | _ => []

def isHole : Content α → Bool
  | .hole => true
  | _ => false

def primitive? : Content α → Option Primitive
  | .primitive p => some p
  | _ => none

def entries? : Content α → Option (List (Key × α))
  | .map es => some es
  | _ => none

def array? : Content α → Option (List α)
  | .array as => some as
  | _ => none

def tuple? : Content α → Option (List α)
  | .tuple as => some as
  | _ => none

def find? (k : Key) (c : Content α) : Option α :=
  c.entries?.bind (lookup? k)

def field? (name : Bytes) (c : Content α) : Option α :=
  c.entries?.bind fun es => (es.find? fun e => e.1.spelling? == some name).map (·.2)

def kindName : Content α → Bytes
  | .hole => "hole"
  | .primitive p => p.kindName
  | .map _ => "map"
  | .array _ => "array"
  | .tuple _ => "tuple"

end Content

namespace Node

def mapParts (f : α → β) (n : Node α) : Node β :=
  ⟨n.content.mapParts f, n.extensions.map fun (name, a) => (name, f a)⟩

/-- The parts in order, those of the extensions last. -/
def parts (n : Node α) : List α :=
  n.content.parts ++ n.extensions.map (·.2)

def extension? (name : Bytes) (n : Node α) : Option α :=
  lookup? name n.extensions

def step? (n : Node α) : Segment → Option α
  | .ident name => n.content.find? (.ident name)
  | .ext name => n.extension? name
  | .key l => n.content.find? (.literal l)
  | .tuple index => n.content.tuple?.bind (·[index.toNat]?)
  | .array index => n.content.array?.bind fun as => index.bind (as[·]?)

end Node

end DocSchema
