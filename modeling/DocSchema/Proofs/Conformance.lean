import DocSchema.Proofs.References

set_option autoImplicit false

namespace DocSchema

namespace Value

def entries (v : Value) : List (Key × Value) :=
  v.content.entries?.getD []

/-- Whether the value has no hole and no map with two keys of one spelling, extensions apart. -/
inductive IsFilled : Value → Prop
  | intro {v : Value} (filled : v.content ≠ .hole)
      (distinct : (v.entries.filterMap (·.1.spelling?)).Nodup)
      (parts : ∀ part ∈ v.content.parts, IsFilled part) : IsFilled v

/-- The variant that the extension of a value names: none without the extension, and nothing at all
if it is no text. -/
def NamesVariant (v : Value) (extension : Option Bytes) : Prop :=
  match v.extension? "variant" with
  | none => extension = none
  | some named => ∃ t, named.text? = some t ∧ extension = some t.content

end Value

section Leaves

/-- Whether a text has the language, the length and the pattern that are demanded. -/
def AdmitsText (length : Counts) (pattern language : Option Bytes) (t : Text) : Prop :=
  (∀ expected ∈ language, ∀ found ∈ t.language.name?, found = expected) ∧
    length.admits (Bytes.codePoints t.content) = true ∧
    ∀ p ∈ pattern, ∃ compiled, Pattern.compile? p = some compiled ∧
      compiled.isFoundIn t.content = true

/-- Whether an integer lies in the range and is a multiple of the divisor. -/
def AdmitsInteger (range : Range) (multipleOf : Option Int64) (i : Int64) : Prop :=
  range.admits (.int i) = true ∧ ∀ m ∈ multipleOf, Check.divides m i = true

/-- Whether a float lies in the range and is a multiple of the divisor. -/
def AdmitsFloat (range : Range) (multipleOf : Option Number) (x : Binary64) : Prop :=
  range.admits (.float x) = true ∧ ∀ m ∈ multipleOf, Number.isMultipleOf (.float x) m = true

def Shape.AdmitsKey (shape : Shape SchemaId) (key : Literal) : Prop :=
  match shape, key with
  | .any, _ => True
  | .text length pattern language, .text s => AdmitsText length pattern language ⟨s, .plaintext⟩
  | .integer range multipleOf, .int i => AdmitsInteger range multipleOf i
  | .boolean, .bool _ => True
  | .literal expected, key => Check.isKey expected key = true
  | _, _ => False

end Leaves

section Parts

variable (schema : Schema) (parts : SchemaId → Value → Prop)

/-- Whether a map has all required fields, its fields are of their types, and it has no others
unless they are allowed. The tag of a union may stand among the fields. -/
def AdmitsRecord (fields : List (Field SchemaId)) (allowsUnknown : Bool) (tag : Option Bytes)
    (v : Value) : Prop :=
  ∃ entries, v.content = .map entries ∧
    (∀ f ∈ fields, f.isOptional = true ∨ ∃ e ∈ entries, e.1.spelling? = some f.name) ∧
    (∀ f ∈ fields, ∀ e ∈ entries, e.1.spelling? = some f.name → parts f.schema e.2) ∧
    (allowsUnknown = true ∨ ∀ e ∈ entries, ∃ name, e.1.spelling? = some name ∧
      (tag = some name ∨ ∃ f ∈ fields, f.name = name))

/-- Whether a list has the right length, its items are of their type, and no two of them are equal
if they have to be different. -/
def AdmitsArray (item : SchemaId) (length : Counts) (isUnique : Bool) (v : Value) : Prop :=
  ∃ items, v.content = .array items ∧ length.admits items.length = true ∧
    (∀ x ∈ items, parts item x) ∧
    (isUnique = true → items.Pairwise fun x y => ¬ x.same y = true)

/-- Whether a map has the right size and its keys and values are of their types. -/
def AdmitsMap (key value : SchemaId) (size : Counts) (v : Value) : Prop :=
  ∃ entries, v.content = .map entries ∧ size.admits entries.length = true ∧
    ∀ e ∈ entries, (∃ node, schema.Resolves key node ∧ node.shape.AdmitsKey e.1.value) ∧
      parts value e.2

/-- Whether a tuple has an element of each type, and no others. -/
def AdmitsTuple (types : List SchemaId) (v : Value) : Prop :=
  ∃ elements, v.content = .tuple elements ∧ List.Forall₂ parts types elements

/-- Whether a content is of a variant. A tag that shares the map with the content is none of its
fields; only a variant without content may lack it. -/
def AdmitsVariant (id : SchemaId) (tag : Option Bytes) : Option Value → Prop
  | none => ∃ node, schema.Resolves id node ∧ node.shape = .null
  | some v =>
    match tag with
    | none => parts id v
    | some name => ∃ node, schema.Resolves id node ∧
      match node.shape with
      | .record fields allowsUnknown => AdmitsRecord parts fields allowsUnknown (some name) v
      | .null => ∀ e ∈ v.entries, e.1.spelling? = some name
      | _ => parts id v

end Parts

/-- The entry of a map with a key of the given spelling, if there is one. -/
inductive HoldsField (entries : List (Key × Value)) (name : Bytes) : Option Value → Prop
  | present {key : Key} {v : Value} (member : (key, v) ∈ entries)
      (spelled : key.spelling? = some name) : HoldsField entries name (some v)
  | absent (unspelled : ∀ e ∈ entries, e.1.spelling? ≠ some name) : HoldsField entries name none

/-- How a value names a variant: the name, the content if there is one, and the tag if it shares the
map with the content. Where the value itself names a variant, the extension may not name another. -/
inductive Reads (isVariant : Bytes → Prop) (v : Value) (extension : Option Bytes) :
    Representation → Bytes → Option Value → Option Bytes → Prop
  | tagged {name : Bytes} (named : extension = some name) :
      Reads isVariant v extension .tagged name (some v) none
  | external {key : Key} {name : Bytes} {content : Value} (only : v.content = .map [(key, content)])
      (spelled : key.spelling? = some name) (variant : isVariant name)
      (agrees : ∀ other ∈ extension, other = name) :
      Reads isVariant v extension .external name (some content) none
  | externalByExtension {name : Bytes} (named : extension = some name)
      (unnamed : ∀ e ∈ v.entries, ∀ other, e.1.spelling? = some other → ¬ isVariant other) :
      Reads isVariant v extension .external name (some v) none
  | internal {tag : Bytes} {entries : List (Key × Value)} {field : Value} {t : Text}
      (map : v.content = .map entries) (found : HoldsField entries tag (some field))
      (text : field.text? = some t) (agrees : ∀ other ∈ extension, other = t.content) :
      Reads isVariant v extension (.internal tag) t.content (some v) (some tag)
  | internalByExtension {tag name : Bytes} {entries : List (Key × Value)}
      (map : v.content = .map entries) (untagged : HoldsField entries tag none)
      (named : extension = some name) :
      Reads isVariant v extension (.internal tag) name (some v) none
  | adjacent {tag body : Bytes} {entries : List (Key × Value)} {field : Value} {t : Text}
      {content : Option Value} (map : v.content = .map entries)
      (known : ∀ e ∈ entries, e.1.spelling? = some tag ∨ e.1.spelling? = some body)
      (found : HoldsField entries tag (some field)) (text : field.text? = some t)
      (agrees : ∀ other ∈ extension, other = t.content) (holds : HoldsField entries body content) :
      Reads isVariant v extension (.adjacent tag body) t.content content none
  | adjacentByExtension {tag body name : Bytes} {entries : List (Key × Value)}
      {content : Option Value} (map : v.content = .map entries)
      (known : ∀ e ∈ entries, e.1.spelling? = some tag ∨ e.1.spelling? = some body)
      (untagged : HoldsField entries tag none) (named : extension = some name)
      (holds : HoldsField entries body content) :
      Reads isVariant v extension (.adjacent tag body) name content none

/-- Whether the value names exactly one variant and its content is of this variant. -/
def AdmitsUnion (schema : Schema) (parts : SchemaId → Value → Prop)
    (variants : List (Variant SchemaId)) (representation : Representation) (v : Value) : Prop :=
  ∃ extension name content tag, v.NamesVariant extension ∧
    Reads (fun other => ∃ w ∈ variants, w.name = other) v extension representation name content tag ∧
    ∃ variant, variants.find? (·.name == name) = some variant ∧
      AdmitsVariant schema parts variant.schema tag content

/-- Whether a type that is no reference admits a value, given which parts are of which types. -/
def Shape.Admits (schema : Schema) (parts : SchemaId → Value → Prop) (v : Value) :
    Shape SchemaId → Prop
  | .text length pattern language => ∃ t, v.text? = some t ∧ AdmitsText length pattern language t
  | .integer range multipleOf =>
    ∃ i, v.content = .primitive (.int i) ∧ AdmitsInteger range multipleOf i
  | .float range multipleOf =>
    ∃ x, v.content = .primitive (.float x) ∧ AdmitsFloat range multipleOf x
  | .boolean => ∃ b, v.content = .primitive (.bool b)
  | .null => v.content = .primitive .null
  | .any => True
  | .literal expected => v.bare.same expected = true
  | .record fields allowsUnknown => AdmitsRecord parts fields allowsUnknown none v
  | .array item length isUnique => AdmitsArray parts item length isUnique v
  | .map key value size => AdmitsMap schema parts key value size v
  | .tuple types => AdmitsTuple parts types v
  | .union variants representation => AdmitsUnion schema parts variants representation v
  | .reference _ => False

/-- A value conforms to a type if the type at the end of its references admits the value and all
parts that it asks about conform. -/
inductive Conforms (schema : Schema) : SchemaId → Value → Prop
  | intro {id : SchemaId} {v : Value} {node : SchemaNode} (parts : SchemaId → Value → Prop)
      (conform : ∀ i part, parts i part → Conforms schema i part)
      (resolved : schema.Resolves id node) (admitted : node.shape.Admits schema parts v) :
      Conforms schema id v

section Monotone

variable {schema : Schema} {parts wider : SchemaId → Value → Prop} {v : Value}

theorem AdmitsRecord.mono {fields : List (Field SchemaId)} {allowsUnknown : Bool}
    {tag : Option Bytes} (more : ∀ i part, parts i part → wider i part)
    (admitted : AdmitsRecord parts fields allowsUnknown tag v) :
    AdmitsRecord wider fields allowsUnknown tag v := by
  obtain ⟨entries, map, required, typed, known⟩ := admitted
  exact ⟨entries, map, required,
    fun f declared e inside spelled => more _ _ (typed f declared e inside spelled), known⟩

theorem AdmitsVariant.mono {id : SchemaId} {tag : Option Bytes} {content : Option Value}
    (more : ∀ i part, parts i part → wider i part)
    (admitted : AdmitsVariant schema parts id tag content) :
    AdmitsVariant schema wider id tag content := by
  cases content with
  | none => exact admitted
  | some v =>
      cases tag with
      | none => exact more _ _ admitted
      | some name =>
          obtain ⟨node, resolved, shaped⟩ := admitted
          refine ⟨node, resolved, ?_⟩
          revert shaped
          cases node.shape
          case record fields allowsUnknown => exact AdmitsRecord.mono more
          case null => exact fun shaped => shaped
          all_goals exact more _ _

/-- The more parts conform, the more wholes are admitted. -/
theorem Shape.Admits.mono {shape : Shape SchemaId} (more : ∀ i part, parts i part → wider i part)
    (admitted : shape.Admits schema parts v) : shape.Admits schema wider v := by
  cases shape with
  | record fields allowsUnknown => exact AdmitsRecord.mono more admitted
  | array item length isUnique =>
      obtain ⟨items, array, counted, typed, unique⟩ := admitted
      exact ⟨items, array, counted, fun x inside => more _ _ (typed x inside), unique⟩
  | map key value size =>
      obtain ⟨entries, map, counted, typed⟩ := admitted
      exact ⟨entries, map, counted, fun e inside =>
        ⟨(typed e inside).1, more _ _ (typed e inside).2⟩⟩
  | tuple types =>
      obtain ⟨elements, tuple, typed⟩ := admitted
      exact ⟨elements, tuple, typed.imp fun {i x} => more i x⟩
  | union variants representation =>
      obtain ⟨extension, name, content, tag, named, reads, variant, found, admitted⟩ := admitted
      exact ⟨extension, name, content, tag, named, reads, variant, found, admitted.mono more⟩
  | _ => exact admitted

end Monotone

/-- Conformance is a fixed point: what a type asks about the parts is that they conform. -/
theorem conforms_iff {schema : Schema} {id : SchemaId} {v : Value} :
    Conforms schema id v ↔
      ∃ node, schema.Resolves id node ∧ node.shape.Admits schema (Conforms schema) v := by
  constructor
  · rintro ⟨parts, conform, resolved, admitted⟩
    exact ⟨_, resolved, admitted.mono conform⟩
  · rintro ⟨node, resolved, admitted⟩
    exact .intro (Conforms schema) (fun _ _ conforms => conforms) resolved admitted

end DocSchema
