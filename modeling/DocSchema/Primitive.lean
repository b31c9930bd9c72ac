import DocSchema.Number.Range

set_option autoImplicit false

namespace DocSchema

/-- The language of a text, told by how the text is delimited. -/
inductive Language where
  /-- A quoted string. -/
  | plaintext
  /-- Code without a language tag. -/
  | implicit
  /-- Code tagged with the name of its language. -/
  | named (name : Bytes)
deriving DecidableEq

structure Text where
  content : Bytes
  language : Language
deriving DecidableEq

inductive Primitive where
  | null
  | bool (b : Bool)
  | int (i : Int64)
  | float (x : Binary64)
  | text (t : Text)
deriving DecidableEq

def truthText (b : Bool) : Bytes :=
  if b then utf8 "true" else utf8 "false"

/-- The text as delimited in a source: quoted, or between backticks behind its language. -/
def Text.describe (t : Text) : Bytes :=
  match t.language with
  | .plaintext => Bytes.quoted t.content
  | .implicit => utf8 "\x60" ++ t.content ++ utf8 "\x60"
  | .named name => name ++ utf8 "\x60" ++ t.content ++ utf8 "\x60"

namespace Primitive

def kindName : Primitive → Bytes
  | .null => "null"
  | .bool _ => "boolean"
  | .int _ => "integer"
  | .float _ => "float"
  | .text _ => "text"

def describe : Primitive → Bytes
  | .null => "null"
  | .bool b => truthText b
  | .int i => Bytes.ofInt i.toInt
  | .float x => x.text
  | .text t => t.describe

/-- Equality of kind and value; floats are compared as numbers. -/
def same : Primitive → Primitive → Bool
  | .float x, .float y => x.same y
  | p, q => p == q

def text? : Primitive → Option Text
  | .text t => some t
  | _ => none

def int? : Primitive → Option Int64
  | .int i => some i
  | _ => none

def bool? : Primitive → Option Bool
  | .bool b => some b
  | _ => none

def number? : Primitive → Option Number
  | .int i => some (.int i)
  | .float x => some (.float x)
  | _ => none

end Primitive

end DocSchema
