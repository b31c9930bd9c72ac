import DocSchema.Document.Builder

set_option autoImplicit false

namespace DocSchema

namespace Builder

mutual

/-- Fills the hole `id` with a value. -/
def fill (id : NodeId) : Value → Build Unit
  | .node c x => do
    fillContent id c
    fillExtensions id x

/-- Fills the hole `id` with a content. A tuple has at most 256 elements. -/
def fillContent (id : NodeId) : Content Value → Build Unit
  | .hole => pure ()
  | .primitive p => assign id p
  | .map es => do
    make id .map
    fillEntries id es
  | .array vs => do
    make id .array
    fillArray id vs
  | .tuple vs => do
    make id .tuple
    if 256 < vs.length then throw ⟨.indexOutOfRange, []⟩
    fillTuple id 0 vs

def fillEntries (id : NodeId) : List (Key × Value) → Build Unit
  | [] => pure ()
  | (key, v) :: es => do
    let child ← insert id key
    fill child v
    fillEntries id es

def fillArray (id : NodeId) : List Value → Build Unit
  | [] => pure ()
  | v :: vs => do
    let child ← pushArray id none
    fill child v
    fillArray id vs

/-- Adds elements to the tuple `id`, the first one at `index`. -/
def fillTuple (id : NodeId) (index : UInt8) : List Value → Build Unit
  | [] => pure ()
  | v :: vs => do
    let child ← pushTuple id index
    fill child v
    fillTuple id (index + 1) vs

def fillExtensions (id : NodeId) : List (Bytes × Value) → Build Unit
  | [] => pure ()
  | (name, v) :: x => do
    let child ← insertExtension id name
    fill child v
    fillExtensions id x

end

end Builder

/-- A document with the given value, if keys and names are unique where they have to be and no tuple
is too long. -/
def Document.ofValue (v : Value) : Except PathError Document :=
  match (Builder.fill Document.root v).run.run Builder.new with
  | (.error e, _) => .error e
  | (.ok (), b) =>
    match b.finish.1 with
    | some d => .ok d
    | none => .error ⟨.documentFinalized, []⟩

end DocSchema
