import DocSchema.Document

set_option autoImplicit false

namespace DocSchema

/-- A node under construction and its path from the root. -/
structure Slot where
  node : Node NodeId := {}
  path : Path := []

/-- A document under construction, until it is finished. -/
inductive Builder where
  | building (slots : Array Slot)
  | finished

/-- A call that reads and changes a document under construction. -/
abbrev Build := ExceptT PathError (StateM Builder)

inductive Compound where
  | map
  | array
  | tuple

def Compound.empty : Compound → Content NodeId
  | .map => .map []
  | .array => .array []
  | .tuple => .tuple []

def Compound.admits : Compound → Content NodeId → Bool
  | .map, .map _ => true
  | .array, .array _ => true
  | .tuple, .tuple _ => true
  | _, _ => false

namespace Builder

def new : Builder :=
  .building #[{}]

def root? : Builder → Option NodeId
  | .building _ => some Document.root
  | .finished => none

/-- The document built, and a builder that refuses all calls. -/
def finish : Builder → Option Document × Builder
  | .building slots => (some ⟨slots.map (·.node)⟩, .finished)
  | .finished => (none, .finished)

def slot (id : NodeId) : Build Slot := do
  match ← get with
  | .finished => throw ⟨.documentFinalized, []⟩
  | .building slots =>
    match slots[id]? with
    | some s => pure s
    | none => throw ⟨.pathNotFound, []⟩

def node (id : NodeId) : Build (Node NodeId) :=
  return (← slot id).node

def update (id : NodeId) (f : Node NodeId → Node NodeId) : Build Unit :=
  modify fun
    | .building slots => .building (slots.modify id fun s => { s with node := f s.node })
    | .finished => .finished

def allocate (path : Path) : Build NodeId := do
  match ← get with
  | .finished => throw ⟨.documentFinalized, []⟩
  | .building slots =>
    set (Builder.building (slots.push { path }))
    pure slots.size

/-- The node of the given id and its path, once a hole has taken on the kind. Fails with `mismatch`
if the node is of another kind. -/
def require (id : NodeId) (kind : Compound) (mismatch : PathErrorKind) : Build Slot := do
  let s ← slot id
  if s.node.content.isHole then
    let node := { s.node with content := kind.empty }
    update id fun _ => node
    pure { s with node }
  else if kind.admits s.node.content then
    pure s
  else
    throw ⟨mismatch, s.path⟩

def append (id : NodeId) (key : Key) (child : NodeId) : Build Unit :=
  update id fun n =>
    match n.content with
    | .map es => { n with content := .map (es ++ [(key, child)]) }
    | _ => n

def appendElement (id child : NodeId) : Build Unit :=
  update id fun n =>
    match n.content with
    | .array as => { n with content := .array (as ++ [child]) }
    | .tuple as => { n with content := .tuple (as ++ [child]) }
    | _ => n

def insertExtension (parent : NodeId) (name : Bytes) : Build NodeId := do
  let s ← slot parent
  let path := s.path ++ [.ext name]
  if (s.node.extension? name).isSome then throw ⟨.alreadyAssigned, path⟩
  let child ← allocate path
  update parent fun n => { n with extensions := n.extensions ++ [(name, child)] }
  pure child

/-- Adds an entry to a map, or an extension if the key is one. -/
def insert (parent : NodeId) (key : Key) : Build NodeId :=
  match key with
  | .ext name => insertExtension parent name
  | _ => do
    let s ← require parent .map .expectedMap
    let path := s.path ++ [key.segment]
    if (s.node.content.find? key).isSome then throw ⟨.alreadyAssigned, path⟩
    let child ← allocate path
    append parent key child
    pure child

/-- Adds an element at the end of an array. If an index is given it has to be that of the end. -/
def pushArray (parent : NodeId) (index : Option Nat) : Build NodeId := do
  let s ← require parent .array .expectedArray
  let position := s.node.content.parts.length
  if index.any (· != position) then throw ⟨.indexOutOfRange, s.path ++ [.array index]⟩
  let child ← allocate (s.path ++ [.array (some position)])
  appendElement parent child
  pure child

/-- Adds an element at the end of a tuple, whose index has to be `index`. -/
def pushTuple (parent : NodeId) (index : UInt8) : Build NodeId := do
  let s ← require parent .tuple .expectedTuple
  let path := s.path ++ [.tuple index]
  if index.toNat ≠ s.node.content.parts.length then throw ⟨.indexOutOfRange, path⟩
  let child ← allocate path
  appendElement parent child
  pure child

def assign (id : NodeId) (p : Primitive) : Build Unit := do
  let s ← slot id
  if !s.node.content.isHole then throw ⟨.alreadyAssigned, s.path⟩
  update id fun n => { n with content := .primitive p }

/-- Makes a hole a map, an array or a tuple; one of the kind stays as it is. -/
def make (id : NodeId) (kind : Compound) : Build Unit :=
  discard (require id kind .alreadyAssigned)

def insertSegment (parent : NodeId) : Segment → Build NodeId
  | .ident name => insert parent (.ident name)
  | .ext name => insertExtension parent name
  | .key l => insert parent (.literal l)
  | .tuple index => pushTuple parent index
  | .array index => pushArray parent index

/-- The part that the step names, added if it is missing. -/
def ensureStep (current : NodeId) (s : Segment) : Build NodeId := do
  match (← node current).step? s with
  | some next => pure next
  | none => insertSegment current s

/-- The node at the end of a path from `start`, adding what is missing. -/
def ensure (path : Path) (start : NodeId) : Build NodeId := do
  let _ ← slot start
  path.foldlM ensureStep start

end Builder

end DocSchema
