import DocSchema.Json
import DocSchema.Number.Layout
import DocSchema.Text.Dictionary

set_option autoImplicit false

namespace DocSchema

namespace Json

/-- The object of the given members, the last one of each key. -/
def ofMembers (members : List (Bytes × Json)) : Json :=
  .object (Dictionary.ofList members)

def hexDigit (d : UInt8) : UInt8 :=
  if d < 10 then 48 + d else 87 + d

/-- A byte inside a string: control characters, quotes and backslashes are escaped. -/
def escapeByte (c : UInt8) : Bytes :=
  if c = 34 then "\\\""
  else if c = 92 then "\\\\"
  else if c = 8 then "\\b"
  else if c = 12 then "\\f"
  else if c = 10 then "\\n"
  else if c = 13 then "\\r"
  else if c = 9 then "\\t"
  else if c < 32 then utf8 "\\u00" ++ [hexDigit (c / 16), hexDigit (c % 16)]
  else [c]

def quote? (s : Bytes) : Option Bytes :=
  if s.IsUtf8 then some (34 :: s.flatMap escapeByte ++ [34]) else none

def member? (m : Bytes × Option Bytes) : Option Bytes := do
  return (← quote? m.1) ++ utf8 ":" ++ (← m.2)

def between (first last : Bytes) (texts : List Bytes) : Bytes :=
  first ++ (utf8 ",").intercalate texts ++ last

mutual

/-- The text without blanks. -/
def compact : Json → Option Bytes
  | .null => some "null"
  | .bool b => some (if b then "true" else "false")
  | .int i => some (Bytes.ofInt i.toInt)
  | .uint n => some (Bytes.ofNat n.toNat)
  | .float x => some x.jsonText
  | .string s => quote? s
  | .array items => ((compactItems items).mapM id).map (between "[" "]")
  | .object members =>
    ((Dictionary.ofList (compactMembers members)).mapM member?).map (between "\x7b" "\x7d")

def compactItems : List Json → List (Option Bytes)
  | [] => []
  | j :: rest => compact j :: compactItems rest

def compactMembers : List (Bytes × Json) → List (Bytes × Option Bytes)
  | [] => []
  | (key, j) :: rest => (key, compact j) :: compactMembers rest

end

/-- What is shown of a tree: its text without blanks, and nothing where there is none. -/
def dump (j : Json) : Bytes :=
  j.compact.getD []

end Json

end DocSchema
