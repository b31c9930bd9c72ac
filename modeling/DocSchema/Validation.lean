import DocSchema.Document
import DocSchema.Validation.Holes
import DocSchema.Validation.Levels

/-!
Validation: whether a value conforms to a schema. A first pass checks the structure and passes over
holes; a second one reports the holes where a value is required, following the variants that the
first one selected.
-/

set_option autoImplicit false

namespace DocSchema

structure Report where
  errors : List Finding
  warnings : List (Path × Warning)
  /-- Whether errors were left out. -/
  isTruncated : Bool
  /-- Whether a required value is missing. -/
  isIncomplete : Bool

def Report.isValid (r : Report) : Bool :=
  r.errors.isEmpty

def Ledger.toReport (l : Ledger) : Report :=
  ⟨l.errors, l.warnings, l.isTruncated, l.isIncomplete⟩

/-- Validates a value against a type of a schema. Both passes write to one ledger. -/
def validateValue (v : Value) (schema : Schema) (id : SchemaId) (settings : Settings) :
    Except Failure Report := do
  if !schema.contains id then throw ⟨[], .missingNode⟩
  let s : Site := ⟨v, [], []⟩
  let ((), l) ← (schema.check settings settings.maxDepth id s).run settings.maxErrors {}
  let ((), l) ←
    (schema.complete l.selections settings.maxDepth id s false).run settings.maxErrors l
  return l.toReport

/-- Validates a node of a document against a type of a schema. -/
def validateNode (d : Document) (node : NodeId) (schema : Schema) (id : SchemaId)
    (settings : Settings) : Except Failure Report :=
  validateValue (d.valueAt node) schema id settings

/-- The mismatches that a validation puts into words, in order, until the end or a failure. -/
def wordsOf (v : Value) (schema : Schema) (id : SchemaId) (settings : Settings) : List Mismatch :=
  if schema.contains id then
    let s : Site := ⟨v, [], []⟩
    let first := schema.check settings settings.maxDepth id s
    first.worded () ++
      match first.run settings.maxErrors {} with
      | .ok ((), l) => (schema.complete l.selections settings.maxDepth id s false).worded ()
      | .error _ => []
  else []

/-- What becomes of a validation whose literals are written by `dump?`. Each mismatch is put into
words as it is found; if that cannot be done, then there is neither a report nor a failure. -/
def validateNodeWith (dump? : Json.Writer) (d : Document) (node : NodeId) (schema : Schema)
    (id : SchemaId) (settings : Settings) : Option (Except Failure Report) :=
  if (wordsOf (d.valueAt node) schema id settings).all fun m => (m.title? dump?).isSome then
    some (validateNode d node schema id settings)
  else none

/-- Validates a document against the root type of a schema. -/
def validate (d : Document) (schema : Schema) (settings : Settings) : Except Failure Report :=
  validateNode d Document.root schema schema.root settings

end DocSchema
