import DocSchema.Json
import DocSchema.Value

set_option autoImplicit false

namespace DocSchema

def Primitive.toJson : Primitive → Json
  | .null => .null
  | .bool b => .bool b
  | .int i => .int i
  | .float x => .float x
  | .text t => .string t.content

namespace Value

mutual

def toJson : Value → Json
  | .node c _ => contentToJson c

def contentToJson : Content Value → Json
  | .hole => .null
  | .primitive p => p.toJson
  | .map es => .object (entriesToJson es)
  | .array vs => .array (listToJson vs)
  | .tuple vs => .array (listToJson vs)

/-- Entries as members set one after another, keys without quotes. -/
def entriesToJson : List (Key × Value) → List (Bytes × Json)
  | [] => []
  | (k, v) :: es => (k.value.bare, v.toJson) :: entriesToJson es

def listToJson : List Value → List Json
  | [] => []
  | v :: vs => v.toJson :: listToJson vs

end

mutual

/-- A JSON tree as a value. An unsigned number beyond the signed range becomes the nearest float. -/
def ofJson : Json → Value
  | .null => .of (.primitive .null)
  | .bool b => .of (.primitive (.bool b))
  | .int i => .of (.primitive (.int i))
  | .uint n =>
    if n.toNat < Int64.size / 2 then .of (.primitive (.int (Int64.ofNat n.toNat)))
    else .of (.primitive (.float (.ofUInt64 n)))
  | .float x => .of (.primitive (.float x))
  | .string s => .of (.primitive (.text ⟨s, .plaintext⟩))
  | .array items => .of (.array (ofItems items))
  | .object members => .of (.map (ofMembers members))

def ofItems : List Json → List Value
  | [] => []
  | j :: rest => ofJson j :: ofItems rest

/-- Members as entries; a key that is an identifier becomes one. -/
def ofMembers : List (Bytes × Json) → List (Key × Value)
  | [] => []
  | (key, j) :: rest =>
    (if Bytes.isIdentifier key then .ident key else .literal (.text key),
      ofJson j) :: ofMembers rest

end

end Value

end DocSchema
