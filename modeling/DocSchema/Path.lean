import DocSchema.Key

set_option autoImplicit false

namespace DocSchema

/-- One step from a node to a part of it. -/
inductive Segment where
  | ident (name : Bytes)
  | ext (name : Bytes)
  | key (l : Literal)
  /-- The position in a tuple. -/
  | tuple (index : UInt8)
  /-- The position in an array, or the position behind its end. -/
  | array (index : Option Nat)
deriving DecidableEq

abbrev Path := List Segment

def Key.segment : Key → Segment
  | .ident name => .ident name
  | .ext name => .ext name
  | .literal l => .key l

def Segment.field (name : Bytes) : Segment :=
  if Bytes.isIdentifier name then .ident name else .key (.text name)

namespace Segment

/-- Whether the step is written in brackets, without a dot before it. -/
def isBracketed : Segment → Bool
  | .array _ => true
  | _ => false

def render : Segment → Bytes
  | .ident name => name
  | .ext name => utf8 "$" ++ name
  | .key l => l.render
  | .tuple index => utf8 "#" ++ Bytes.ofNat index.toNat
  | .array (some index) => utf8 "[" ++ Bytes.ofNat index ++ utf8 "]"
  | .array none => "[]"

end Segment

namespace Path

def renderTail : Path → Bytes
  | [] => []
  | s :: rest => (if s.isBracketed then [] else utf8 ".") ++ s.render ++ renderTail rest

/-- The written form; the empty path is `(root)`. -/
def render : Path → Bytes
  | [] => "(root)"
  | s :: rest => s.render ++ renderTail rest

end Path

end DocSchema
