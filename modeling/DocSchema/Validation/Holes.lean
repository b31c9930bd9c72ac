import DocSchema.Validation.Walker

set_option autoImplicit false

namespace DocSchema

/-- The variant last selected for a value of a union. -/
def Selection.last? (selections : List Selection) (union : SchemaId) (s : Site) :
    Option Selection :=
  selections.reverse.find? fun c => c.union == union && c.position == s.position

/-- The parts of a value that have to be complete for the value to be: each with its type and with
whether it may be missing. -/
def Site.required (s : Site) (selections : List Selection) (id : SchemaId) :
    Shape SchemaId → List (SchemaId × Site × Bool)
  | .record fields _ =>
    fields.filterMap fun f => (s.field? f.name).map fun part => (f.schema, part, f.isOptional)
  | .array item _ _ => (s.array?.getD []).map fun part => (item, part, false)
  | .map _ value _ => (s.entries?.getD []).map fun e => (value, e.2, false)
  | .tuple elements => (elements.zip (s.tuple?.getD [])).map fun (e, part) => (e, part, false)
  | .union .. =>
    match Selection.last? selections id s with
    | some c => [(c.variant, c.target, false)]
    | none => []
  | _ => []

def Check.hole (path : Path) (isOptional : Bool) (shape : Shape SchemaId) : Check :=
  if isOptional || shape.isAny then pure () else Walker.reportMissing path

/-- Reports the required holes in a value, `depth` levels down. -/
def Schema.complete (schema : Schema) (selections : List Selection) :
    (depth : Nat) → SchemaId → Site → (isOptional : Bool) → Check
  | 0, _, _, _ => pure ()
  | depth + 1, id, s, isOptional => do
    match ← Walker.lift (schema.target id s.path) with
    | .undefined _ => pure ()
    | .node target node =>
      if s.value.content.isHole then Check.hole s.path isOptional node.shape
      else
        (s.required selections target node.shape).forM fun (part, site, isOptional) =>
          schema.complete selections depth part site isOptional

end DocSchema
