import DocSchema.Schema.Registry

set_option autoImplicit false

namespace DocSchema

/-- The pairs of types below two shapes that agree in all else. -/
def Shape.match? : Shape SchemaId → Shape SchemaId → Option (List (SchemaId × SchemaId))
  | .text l p g, .text l' p' g' => if l = l' ∧ p = p' ∧ g = g' then some [] else none
  | .integer r m, .integer r' m' => if r.same r' ∧ m = m' then some [] else none
  | .float r m, .float r' m' => if r.same r' ∧ bothOrNeither Number.same m m' then some [] else none
  | .boolean, .boolean => some []
  | .null, .null => some []
  | .any, .any => some []
  | .literal v, .literal w => if v.same w then some [] else none
  | .record fs allows, .record gs allows' =>
    if allows = allows' ∧ sameList (fun f g => f.name == g.name && f.isOptional == g.isOptional) fs gs then
      some ((fs.map (·.schema)).zip (gs.map (·.schema)))
    else none
  | .array i l u, .array i' l' u' => if l = l' ∧ u = u' then some [(i, i')] else none
  | .map k v n, .map k' v' n' => if n = n' then some [(k, k'), (v, v')] else none
  | .tuple es, .tuple es' => if es.length = es'.length then some (es.zip es') else none
  | .union vs r, .union ws r' =>
    if r = r' ∧ sameList (fun v w => v.name == w.name) vs ws then
      some ((vs.map (·.schema)).zip (ws.map (·.schema)))
    else none
  | .reference n, .reference n' => if n = n' then some [] else none
  | _, _ => none

namespace Schema

/-- Compares the types of a pair and all below. Gives the pairs met so far if no difference shows.
Ids outside their tables are equal. -/
def agree (s t : Schema) :
    (fuel : Nat) → (met : List (SchemaId × SchemaId)) → SchemaId × SchemaId →
      Option (List (SchemaId × SchemaId))
  | 0, _, _ => none
  | fuel + 1, met, (x, y) =>
    match s.node? x, t.node? y with
    | none, none => some met
    | some m, some n =>
      if (x, y) ∈ met then some met
      else if m.metadata.same n.metadata then
        match m.shape.match? n.shape with
        | some pairs => pairs.foldlM (s.agree t fuel) ((x, y) :: met)
        | none => none
      else none
    | _, _ => none

/-- The pairs of roots and of types of the same name, unless a name of `s` is not in `t`. -/
def namedPairs? (s t : Schema) : Option (List (SchemaId × SchemaId)) :=
  (s.types.mapM fun entry => (t.find? entry.1).map fun id => (entry.2, id)).map
    ((s.root, t.root) :: ·)

def setNamings (s : Schema) : Dictionary Naming :=
  s.typeNaming.filter fun entry => !entry.2.isEmpty

/-- Whether no difference shows between the schemas. A comparison meets every pair of ids once. -/
def equivalent (s t : Schema) : Bool :=
  s.types.length == t.types.length && s.naming == t.naming && s.setNamings == t.setNamings
    && match s.namedPairs? t with
      | some pairs => (pairs.foldlM (s.agree t (s.size * t.size + 1)) []).isSome
      | none => false

end Schema

end DocSchema
