import DocSchema.Extraction.Directive
import DocSchema.Extraction.Error
import DocSchema.Schema.Naming
import DocSchema.Schema.Shape

set_option autoImplicit false

namespace DocSchema

inductive Placement where
  | root
  /-- Under a name in `$types`. -/
  | typeEntry
  /-- Under a name in `$variants`. -/
  | variant
  | nested
deriving DecidableEq

namespace Placement

def isNamed : Placement → Bool
  | .root => true
  | .typeEntry => true
  | _ => false

end Placement

/-- Whether the extension of the given name is a naming option. -/
def isNamingOption (name : Bytes) : Bool :=
  name == utf8 "rename" || name == utf8 "rename-all"

namespace Metadata

/-- Adds what one extension says. An extension without a meaning is kept as it is. -/
def note (placement : Placement) (name : Bytes) (v : Value) (m : Metadata) :
    Except Requirement Metadata :=
  match Directive.ofName? name with
  | some .description =>
    match v.textContent? with
    | some s => .ok { m with description := some s }
    | none => .error .text
  | some .deprecated =>
    match v.bool? with
    | some b => .ok { m with isDeprecated := b }
    | none => .error .boolean
  | some .default => .ok { m with defaultValue := some v }
  | some .examples =>
    match v.content.array? with
    | some vs => .ok { m with examples := m.examples ++ vs }
    | none => .error .array
  | some _ => .ok m
  | none =>
    if isNamingOption name && placement.isNamed then .ok m
    else .ok { m with extensions := m.extensions ++ [(name, v)] }

/-- Adds what the extensions of a declaration at `path` say, in their order. -/
def noteAll (placement : Placement) (path : Path) (m : Metadata) :
    List (Bytes × Value) → Extract Metadata
  | [] => .ok m
  | (name, v) :: rest =>
    match note placement name v m with
    | .ok m => noteAll placement path m rest
    | .error requirement => refuse (.malformed name requirement) (path ++ [.ext name])

end Metadata

def Naming.ofValue (v : Value) (path : Path) : Extract Naming := do
  let rename ←
    match v.extension? "rename" with
    | none => pure none
    | some r =>
      match r.textContent? with
      | some s => pure (some s)
      | none => refuse (.malformed "rename" .text) (path ++ [.ext "rename"])
  let renameAll ←
    match v.extension? "rename-all" with
    | none => pure none
    | some r =>
      match r.textContent?.bind RenameRule.ofName? with
      | some rule => pure (some rule)
      | none => refuse (.malformed "rename-all" .renameRule) (path ++ [.ext "rename-all"])
  return { rename, renameAll }

end DocSchema
