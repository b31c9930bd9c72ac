import DocSchema.Value.Equality

set_option autoImplicit false

namespace DocSchema

/-- The position of a node in the table of its document. -/
abbrev NodeId := Nat

inductive PathErrorKind where
  | pathNotFound
  | expectedMap
  | expectedArray
  | expectedTuple
  | alreadyAssigned
  | indexOutOfRange
  | documentFinalized
deriving DecidableEq

def PathErrorKind.name : PathErrorKind → Bytes
  | .pathNotFound => "PathNotFound"
  | .expectedMap => "ExpectedMap"
  | .expectedArray => "ExpectedArray"
  | .expectedTuple => "ExpectedTuple"
  | .alreadyAssigned => "AlreadyAssigned"
  | .indexOutOfRange => "IndexOutOfRange"
  | .documentFinalized => "DocumentFinalized"

structure PathError where
  kind : PathErrorKind
  path : Path
deriving DecidableEq

def PathError.message (e : PathError) : Bytes :=
  e.kind.name ++ utf8 " at " ++ e.path.render

/-- A table of nodes. The first one is the root. -/
structure Document where
  nodes : Array (Node NodeId)

namespace Document

def root : NodeId :=
  0

def size (d : Document) : Nat :=
  d.nodes.size

/-- The node of the given id, a hole if there is none. -/
def node (d : Document) (id : NodeId) : Node NodeId :=
  (d.nodes[id]?).getD {}

/-- Follows a path from the node `current`, which `visited` led to. -/
def follow (d : Document) (visited : Path) (current : NodeId) : Path → Except PathError NodeId
  | [] => .ok current
  | s :: rest =>
    match (d.node current).step? s with
    | some next => d.follow (visited ++ [s]) next rest
    | none => .error ⟨.pathNotFound, visited ++ [s]⟩

/-- The node at the end of a path from `start`. Fails at the first step that leads nowhere. -/
def resolve (d : Document) (path : Path) (start : NodeId) : Except PathError NodeId :=
  d.follow [] start path

/-- The value of a node, down to `depth` levels. -/
def valueTo (d : Document) : (depth : Nat) → NodeId → Value
  | 0, _ => .of .hole
  | depth + 1, id =>
    let node := (d.node id).mapParts (d.valueTo depth)
    .node node.content node.extensions

/-- The value of a node. No document has more levels than nodes. -/
def valueAt (d : Document) (id : NodeId) : Value :=
  d.valueTo d.size id

def value (d : Document) : Value :=
  d.valueAt root

/-- Equality of documents is equality of their values. -/
def same (d e : Document) : Bool :=
  d.value.same e.value

end Document

end DocSchema
