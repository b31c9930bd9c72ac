import DocSchema.Pattern.Search
import DocSchema.Validation.Walker

set_option autoImplicit false

namespace DocSchema

def Language.name? : Language → Option Bytes
  | .plaintext => some "plaintext"
  | .implicit => none
  | .named name => some name

namespace Check

def expect (holds : Bool) (path : Path) (m : Mismatch) : Check :=
  if holds then pure () else Walker.report path m

def wrongKind (expected : Bytes) (s : Site) : Check :=
  Walker.report s.path (.wrongKind expected s.kindName)

/-- Checks the language of a text. A text that does not say its language has any. -/
def language (expected : Option Bytes) (t : Text) (path : Path) : Check :=
  match expected, t.language.name? with
  | some expected, some found => expect (found == expected) path (.languageMismatch expected found)
  | _, _ => pure ()

def pattern (p : Option Bytes) (t : Text) (path : Path) : Check :=
  match p with
  | none => pure ()
  | some p =>
    match Pattern.compile? p with
    | none => Walker.abort ⟨path, .invalidPattern p⟩
    | some compiled => expect (compiled.isFoundIn t.content) path (.patternMismatch p)

def text (length : Counts) (p lang : Option Bytes) (t : Text) (path : Path) : Check := do
  language lang t path
  let n := Bytes.codePoints t.content
  expect (length.admits n) path (.textLength n length)
  pattern p t path

/-- Whether an integer is a multiple of a divisor. A divisor that is not positive divides all. -/
def divides (m i : Int64) : Bool :=
  m ≤ 0 || i.toInt.tmod m.toInt == 0

def integer (range : Range) (multipleOf : Option Int64) (i : Int64) (path : Path) : Check := do
  expect (range.admits (.int i)) path (.outOfRange (.int i) range)
  match multipleOf with
  | none => pure ()
  | some m => expect (divides m i) path (.notMultiple (.int i) (.int m))

def float (range : Range) (multipleOf : Option Number) (x : Binary64) (path : Path) : Check := do
  expect (range.admits (.float x)) path (.outOfRange (.float x) range)
  match multipleOf with
  | none => pure ()
  | some m => expect (Number.isMultipleOf (.float x) m) path (.notMultiple (.float x) m)

def isKey (expected : Value) (key : Literal) : Bool :=
  match expected.content.primitive?, key with
  | some (.text t), .text s => t.content == s
  | some (.int i), .int j => i == j
  | some (.bool b), .bool c => b == c
  | _, _ => false

def keyShape (l : Literal) (path : Path) (shape : Shape SchemaId) : Check :=
  match shape, l with
  | .any, _ => pure ()
  | .text length p lang, .text s => text length p lang ⟨s, .plaintext⟩ path
  | .integer range multipleOf, .int i => integer range multipleOf i path
  | .boolean, .bool _ => pure ()
  | .literal expected, l => expect (isKey expected l) path (.wrongKey l)
  | shape, l => Walker.report path (.invalidKey l shape.kindName)

/-- Checks the key of a map entry at `path` against the type of keys. -/
def key (schema : Schema) (id : SchemaId) (k : Key) (path : Path) : Check := do
  match ← Walker.follow schema id path with
  | none => pure ()
  | some (_, node) => keyShape k.value path node.shape

end Check

end DocSchema
