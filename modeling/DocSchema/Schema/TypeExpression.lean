import DocSchema.Text.Identifier

set_option autoImplicit false

namespace DocSchema

inductive TypeExpression where
  | text
  | integer
  | float
  | boolean
  | null
  | any
  | reference (name : Bytes)
deriving DecidableEq

namespace TypeExpression

def ofBasic? (s : Bytes) : Option TypeExpression :=
  if s = utf8 "text" ∨ s = utf8 "string" then some .text
  else if s = utf8 "integer" then some .integer
  else if s = utf8 "float" then some .float
  else if s = utf8 "boolean" ∨ s = utf8 "bool" then some .boolean
  else if s = utf8 "null" then some .null
  else if s = utf8 "any" then some .any
  else none

/-- A reference: `$types.name`, or the name alone if it begins with a capital letter. -/
def ofReference? (s : Bytes) : Option TypeExpression :=
  let mark := utf8 "$types."
  if mark.isPrefixOf s then
    let name := s.drop mark.length
    if Bytes.isIdentifier name then some (.reference name) else none
  else if s.head?.any Bytes.isUpper && Bytes.isIdentifier s then some (.reference s)
  else none

/-- Reads an expression. A dot in front changes nothing. -/
def parse? (s : Bytes) : Option TypeExpression :=
  let s := match s with
    | 46 :: rest => rest
    | s => s
  (ofBasic? s).orElse fun _ => ofReference? s

end TypeExpression

end DocSchema
