import DocSchema.Primitive
import DocSchema.Text.Identifier

set_option autoImplicit false

namespace DocSchema

inductive Literal where
  | text (s : Bytes)
  | int (i : Int64)
  | bool (b : Bool)
deriving DecidableEq

/-- The key of an entry: `name`, `$name`, or a literal. -/
inductive Key where
  | ident (name : Bytes)
  | ext (name : Bytes)
  | literal (l : Literal)
deriving DecidableEq

namespace Literal

def render : Literal → Bytes
  | .text s => Bytes.quoted s
  | .int i => Bytes.ofInt i.toInt
  | .bool b => truthText b

def bare : Literal → Bytes
  | .text s => s
  | l => l.render

end Literal

namespace Key

/-- The literal of a key; names count as text. -/
def value : Key → Literal
  | .ident name => .text name
  | .ext name => .text name
  | .literal l => l

/-- The name under which a record field matches the key: that of an identifier or of a text. -/
def spelling? : Key → Option Bytes
  | .ident name => some name
  | .literal (.text s) => some s
  | _ => none

def ext? : Key → Option Bytes
  | .ext name => some name
  | _ => none

/-- How messages name the key: by its spelling, else as the literal is written. -/
def label (k : Key) : Bytes :=
  k.spelling?.getD k.value.render

end Key

end DocSchema
