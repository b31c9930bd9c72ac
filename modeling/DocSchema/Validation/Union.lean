import DocSchema.Validation.Structure

set_option autoImplicit false

namespace DocSchema

structure UnionType where
  id : SchemaId
  variants : List (Variant SchemaId)
  representation : Representation

namespace UnionType

def find? (u : UnionType) (name : Bytes) : Option (Variant SchemaId) :=
  u.variants.find? (·.name == name)

end UnionType

/-- The variant that a value was found to be of, the content to check against it, and the tag if it
shares the map with the variant's own fields. -/
structure Choice where
  variant : Variant SchemaId
  target : Site
  tag : Option Bytes := none

namespace Walk

variable (w : Walk) (u : UnionType)

def refuse (path : Path) (m : Mismatch) : Walker (Option Choice) := do
  Walker.report path m
  return none

/-- Chooses the named variant for the content at `target`. A name of no variant is reported at
`tagPath`. -/
def choose (name : Bytes) (target : Site) (tagPath : Path) (tag : Option Bytes) :
    Walker (Option Choice) :=
  match u.find? name with
  | none => refuse tagPath (.unknownVariant name)
  | some v => return some ⟨v, target, tag⟩

/-- Whether all fields of a record that have to be there are among the names. -/
def hasRequired (fields : List (Field SchemaId)) (present : List Bytes) : Bool :=
  fields.all fun f => f.isOptional || present.contains f.name

def covers (fields : List (Field SchemaId)) (present : List Bytes) : Bool :=
  present.all fun name => fields.any (·.name == name)

/-- Whether a value could be of a variant, and if so, whether the variant declares all its fields.
Records compete for maps by the names of their fields; otherwise the value has to pass a check. -/
def candidate? (s : Site) (v : Variant SchemaId) : Walker (Option Bool) := do
  match ← Walker.lift (w.schema.target v.schema s.path) with
  | .undefined _ => return none
  | .node _ node =>
    match node.shape, s.entries? with
    | .record fields _, some entries =>
      let present := entries.filterMap fun e => e.1.spelling?
      return if hasRequired fields present then some (covers fields present) else none
    | _, _ => do
      return if ← Walker.accepts (w.check v.schema s) then some false else none

/-- The variants that a value could be of, each with whether it declares all the fields. -/
def candidates (s : Site) : List (Variant SchemaId) → Walker (List (Variant SchemaId × Bool))
  | [] => return []
  | v :: vs => do
    let found ← w.candidate? s v
    let rest ← candidates s vs
    return (found.map fun covers => (v, covers)).toList ++ rest

/-- The only candidate, or the only one that declares all the fields. -/
def choice? (candidates : List (Variant SchemaId × Bool)) : Option (Variant SchemaId) :=
  match candidates with
  | [c] => some c.1
  | _ =>
    match candidates.filter (·.2) with
    | [c] => some c.1
    | _ => none

def infer (target : Site) : Walker (Option Choice) := do
  let found ← w.candidates target u.variants
  match choice? found with
  | some v => choose u v.name target target.path none
  | none =>
    if found.isEmpty then refuse target.path .noneMatched
    else refuse target.path (.severalMatched (found.map (·.1.name)))

def untagged (target : Site) : Walker (Option Choice) :=
  if w.isLenient then w.infer u target
  else
    match u.representation with
    | .internal tag => refuse target.path (.missingTagField tag)
    | .adjacent tag _ => refuse target.path (.missingTagField tag)
    | .external => refuse target.path (.missingTagField [])
    | .tagged => refuse target.path .missingVariantExtension

def extensionPath (s : Site) : Path :=
  s.path ++ [.ext "variant"]

/-- Treats a value whose only possible tag is the extension. -/
def byExtension (s : Site) (extension : Option Bytes) : Walker (Option Choice) :=
  match extension with
  | some name => choose u name s (extensionPath s) none
  | none => w.untagged u s

/-- Whether the extension names another variant than the value does. -/
def conflicts (extension : Option Bytes) (name : Bytes) : Bool :=
  extension.any (· != name)

/-- Chooses the variant that the value names, unless the extension names another one. -/
def agreed (s : Site) (extension : Option Bytes) (name : Bytes) (chosen : Walker (Option Choice)) :
    Walker (Option Choice) :=
  if conflicts extension name then refuse s.path (.conflictingTags (extension.getD []) name)
  else chosen

/-- The entries whose keys name a variant, each with its index. -/
def namedEntries (entries : List (Key × Site)) : List (Nat × Bytes × Site) :=
  (entries.mapIdx fun i e => (i, e)).filterMap fun (i, key, content) =>
    key.spelling?.bind fun name =>
      if (u.find? name).isSome then some (i, name, content) else none

def external (s : Site) (extension : Option Bytes) : Walker (Option Choice) :=
  let entries := s.entries?.getD []
  match namedEntries u entries with
  | [] =>
    if extension.isSome then w.byExtension u s extension
    else refuse s.path .missingVariantKey
  | [(i, name, content)] =>
    agreed s extension name do
      unknownFields (fun _ => false) (entries.eraseIdx i)
      choose u name content content.path none
  | named => refuse s.path (.severalNamed (named.map (·.2.1)))

def withTag (field : Site) (next : Bytes → Walker (Option Choice)) : Walker (Option Choice) :=
  match field.value.text? with
  | some t => next t.content
  | none => refuse field.path (.tagFieldNotText field.kindName)

/-- Finds the variant of a map with the tag among the fields of the content. -/
def internal (tag : Bytes) (s : Site) (extension : Option Bytes) : Walker (Option Choice) :=
  if s.entries?.isNone then refuse s.path (.wrongKind "map" s.kindName)
  else
    match s.field? tag with
    | none => w.byExtension u s extension
    | some field =>
      withTag field fun name =>
        agreed s extension name (choose u name s field.path (some tag))

/-- Checks the named variant of a map without content: only a variant without content may lack
it. -/
def contentless (content name : Bytes) (s : Site) (tagPath : Path) : Check :=
  match u.find? name with
  | none => Walker.report tagPath (.unknownVariant name)
  | some v => do
    match ← Walker.follow w.schema v.schema s.path with
    | none => pure ()
    | some (_, node) =>
      Check.expect node.shape.isNull (s.path ++ [.field content]) (.missingContent content)

/-- Finds the named variant of a map with one field for the tag and one for the content. -/
def adjacentNamed (content name : Bytes) (s : Site) (tagPath : Path) : Walker (Option Choice) :=
  match s.field? content with
  | some part => choose u name part tagPath none
  | none => do
    w.contentless u content name s tagPath
    return none

/-- Finds the variant of a map with one field for the tag and one for the content. -/
def adjacent (tag content : Bytes) (s : Site) (extension : Option Bytes) :
    Walker (Option Choice) :=
  match s.entries? with
  | none => refuse s.path (.wrongKind "map" s.kindName)
  | some entries => do
    unknownFields (fun name => name == tag || name == content) entries
    match s.field? tag, extension with
    | some field, _ =>
      withTag field fun name =>
        agreed s extension name (w.adjacentNamed u content name s field.path)
    | none, some name => w.adjacentNamed u content name s (extensionPath s)
    | none, none =>
      match s.field? content with
      | some part => w.untagged u part
      | none => refuse s.path (.missingTagField tag)

/-- Finds the variant of a value. The extension `$variant` may name it whatever the
representation. -/
def dispatch (s : Site) : Walker (Option Choice) :=
  let named (extension : Option Bytes) : Walker (Option Choice) :=
    match u.representation with
    | .tagged => w.byExtension u s extension
    | .external => w.external u s extension
    | .internal tag => w.internal u tag s extension
    | .adjacent tag content => w.adjacent u tag content s extension
  match s.value.extension? "variant" with
  | none => named none
  | some extension =>
    match extension.text? with
    | some t => named (some t.content)
    | none => refuse (extensionPath s) (.variantExtensionNotText extension.content.kindName)

/-- Checks a value against a variant. A tag that shares the map with the variant's own fields is not
one of them. -/
def variant (id : SchemaId) (tag : Option Bytes) (s : Site) : Check :=
  match tag with
  | none => w.check id s
  | some name => do
    match ← Walker.follow w.schema id s.path with
    | none => pure ()
    | some (_, node) =>
      match node.shape with
      | .record fields allowsUnknown => w.record fields allowsUnknown tag s
      | .null => unknownFields (· == name) (s.entries?.getD [])
      | _ => w.check id s

/-- Checks a value against a union. The chosen variant is kept for the search for holes. -/
def union (s : Site) : Check := do
  match ← w.dispatch u s with
  | none => pure ()
  | some c => do
    Walker.select ⟨s.position, u.id, c.variant.schema, c.target⟩
    w.variant c.variant.schema c.tag c.target

end Walk

end DocSchema
