import DocSchema.Validation.Union

set_option autoImplicit false

namespace DocSchema

structure Settings where
  /-- Whether the variant of a value without a tag is inferred. -/
  isLenient : Bool := false
  /-- How many levels of values and variants are checked. -/
  maxDepth : Nat := 256
  /-- How many errors are kept; zero keeps all. -/
  maxErrors : Nat := 0

def Check.deprecation (isDeprecated : Bool) (path : Path) : Check :=
  if isDeprecated then Walker.warn path .deprecated else pure ()

namespace Walk

/-- Checks a value against a type that is no reference. -/
def shape (w : Walk) (id : SchemaId) (s : Site) : Shape SchemaId → Check
  | .text length pattern language =>
    match s.value.text? with
    | some t => Check.text length pattern language t s.path
    | none => Check.wrongKind "text" s
  | .integer range multipleOf =>
    match s.value.content.primitive? with
    | some (.int i) => Check.integer range multipleOf i s.path
    | _ => Check.wrongKind "integer" s
  | .float range multipleOf =>
    match s.value.content.primitive? with
    | some (.float x) => Check.float range multipleOf x s.path
    | _ => Check.wrongKind "float" s
  | .boolean =>
    match s.value.content.primitive? with
    | some (.bool _) => pure ()
    | _ => Check.wrongKind "boolean" s
  | .null =>
    match s.value.content.primitive? with
    | some .null => pure ()
    | _ => Check.wrongKind "null" s
  | .any => pure ()
  | .literal expected => Check.expect (s.value.bare.same expected) s.path (.wrongLiteral expected)
  | .record fields allowsUnknown => w.record fields allowsUnknown none s
  | .array item length isUnique => w.array item length isUnique s
  | .map key value size => w.map key value size s
  | .tuple elements => w.tuple elements s
  | .union variants representation => w.union ⟨id, variants, representation⟩ s
  | .reference name => Walker.abort ⟨s.path, .unresolved name⟩

end Walk

namespace Schema

def isDeprecated (schema : Schema) (id : SchemaId) : Bool :=
  (schema.node? id).any (·.metadata.isDeprecated)

/-- Checks a value against a type, `depth` levels down. -/
def check (schema : Schema) (settings : Settings) : (depth : Nat) → SchemaId → Site → Check
  | 0, _, s => Walker.report s.path (.tooDeep settings.maxDepth)
  | depth + 1, id, s => do
    match ← Walker.follow schema id s.path with
    | none => pure ()
    | some (target, node) =>
      if s.value.content.isHole then pure ()
      else do
        Check.deprecation (schema.isDeprecated id || node.metadata.isDeprecated) s.path
        Walk.shape ⟨schema, settings.isLenient, schema.check settings depth⟩ target s node.shape

end Schema

end DocSchema
