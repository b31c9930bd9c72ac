import DocSchema.Extraction.Directive
import DocSchema.Extraction.Error
import DocSchema.Pattern.Search
import DocSchema.Schema.Shape

set_option autoImplicit false

namespace DocSchema

namespace Value

def count? (v : Value) : Option Nat :=
  match v.int? with
  | some i => if 0 ≤ i.toInt then some i.toInt.toNat else none
  | none => none

/-- The number that the root holds, if a type of the kind admits it. -/
def numberOf? (isInteger : Bool) (v : Value) : Option Number :=
  if isInteger then v.int?.map .int else v.number?

def pair? (v : Value) : Option (Value × Value) :=
  match v.content with
  | .tuple [a, b] => some (a, b)
  | _ => none

end Value

namespace Constraint

def counts (v : Value) : Except Requirement Counts :=
  match v.pair? with
  | none => .error .pair
  | some (a, b) =>
    match a.count?, b.count? with
    | some min, some max => if min ≤ max then .ok ⟨some min, some max⟩ else .error .orderedCounts
    | _, _ => .error .orderedCounts

def count (v : Value) : Except Requirement Nat :=
  match v.count? with
  | some n => .ok n
  | none => .error .count

def text (v : Value) : Except Requirement Bytes :=
  match v.textContent? with
  | some s => .ok s
  | none => .error .text

def pattern (v : Value) : Except Requirement Bytes := do
  let s ← text v
  if (Pattern.compile? s).isSome then .ok s else .error .regularExpression

def truth (v : Value) : Except Requirement Bool :=
  match v.bool? with
  | some b => .ok b
  | none => .error .boolean

def number (isInteger : Bool) (requirement : Requirement) (v : Value) : Except Requirement Number :=
  match v.numberOf? isInteger with
  | some n => .ok n
  | none => .error requirement

/-- A range from a pair of numbers, both of which belong to it. -/
def range (isInteger : Bool) (v : Value) : Except Requirement Range :=
  match v.pair? with
  | none => .error .pair
  | some (a, b) => do
    let min ← number isInteger (.bounds isInteger) a
    let max ← number isInteger (.bounds isInteger) b
    .ok ⟨some ⟨min, false⟩, some ⟨max, false⟩⟩

/-- A number above zero. -/
def divisor (isInteger : Bool) (v : Value) : Except Requirement Number := do
  let n ← number isInteger (.positive isInteger) v
  if n.isPositive then .ok n else .error (.positive isInteger)

def narrow (isInteger : Bool) (a : Directive) (v : Value) (r : Range) :
    Except Requirement Range := do
  match a with
  | .range => range isInteger v
  | .minimum => return { r with min := some ⟨← number isInteger (.number isInteger) v, false⟩ }
  | .exclusiveMin => return { r with min := some ⟨← number isInteger (.number isInteger) v, true⟩ }
  | .maximum => return { r with max := some ⟨← number isInteger (.number isInteger) v, false⟩ }
  | .exclusiveMax => return { r with max := some ⟨← number isInteger (.number isInteger) v, true⟩ }
  | _ => return r

/-- Bounds that some length of a text meets. -/
def lengthOf (c : Counts) : Except Requirement Counts :=
  if c.isEmpty then .error .nonemptyLength else .ok c

def itemsOf (c : Counts) : Except Requirement Counts :=
  if c.isEmpty then .error .nonemptyItems else .ok c

variable {α : Type}

def constrainText (a : Directive) (v : Value) : Shape α → Except Requirement (Shape α)
  | .text length pat language => do
    match a with
    | .length => return .text (← lengthOf (← counts v)) pat language
    | .minLength => return .text (← lengthOf { length with min := some (← count v) }) pat language
    | .maxLength => return .text (← lengthOf { length with max := some (← count v) }) pat language
    | .pattern => return .text (← lengthOf length) (some (← pattern v)) language
    | .language => return .text (← lengthOf length) pat (some (← text v))
    | _ => return .text length pat language
  | s => .error (.applicable s.kindName)

def constrainNumber (a : Directive) (v : Value) : Shape α → Except Requirement (Shape α)
  | .integer r m => do
    match a with
    | .multipleOf =>
      match ← divisor true v with
      | .int i => return .integer r (some i)
      | .float _ => return .integer r m
    | _ => return .integer (← narrow true a v r) m
  | .float r m => do
    match a with
    | .multipleOf => return .float r (some (← divisor false v))
    | _ => return .float (← narrow false a v r) m
  | s => .error (.applicable s.kindName)

def constrainArray (a : Directive) (v : Value) : Shape α → Except Requirement (Shape α)
  | .array item length isUnique => do
    match a with
    | .minItems => return .array item (← itemsOf { length with min := some (← count v) }) isUnique
    | .maxItems => return .array item (← itemsOf { length with max := some (← count v) }) isUnique
    | .unique => return .array item length (← truth v)
    | _ => return .array item length isUnique
  | s => .error (.applicable s.kindName)

def constrainMap (a : Directive) (v : Value) : Shape α → Except Requirement (Shape α)
  | .map key value size => do
    match a with
    | .minSize => return .map key value { size with min := some (← count v) }
    | .maxSize => return .map key value { size with max := some (← count v) }
    | _ => return .map key value size
  | s => .error (.applicable s.kindName)

/-- The kinds of types that a directive constrains. -/
inductive Target where
  | text
  | number
  | array
  | map
  | record
  | union
deriving DecidableEq

/-- The kind of types that a directive constrains, if it is a constraint. -/
def target? : Directive → Option Target
  | .length => some .text
  | .minLength => some .text
  | .maxLength => some .text
  | .pattern => some .text
  | .language => some .text
  | .range => some .number
  | .minimum => some .number
  | .maximum => some .number
  | .exclusiveMin => some .number
  | .exclusiveMax => some .number
  | .multipleOf => some .number
  | .minItems => some .array
  | .maxItems => some .array
  | .unique => some .array
  | .minSize => some .map
  | .maxSize => some .map
  | .unknownFields => some .record
  | .variantRepr => some .union
  | _ => none

def malformed (name : Bytes) : Except Requirement (Shape α) → Except Defect (Shape α)
  | .ok s => .ok s
  | .error requirement => .error (.malformed name requirement)

/-- Applies one extension to a type. What is no constraint changes nothing. -/
def apply (name : Bytes) (v : Value) (s : Shape α) : Except Defect (Shape α) :=
  match Directive.ofName? name with
  | none => .ok s
  | some a =>
    match target? a with
    | none => .ok s
    | some .text => malformed name (constrainText a v s)
    | some .number => malformed name (constrainNumber a v s)
    | some .array => malformed name (constrainArray a v s)
    | some .map => malformed name (constrainMap a v s)
    | some .record =>
      match s with
      | .record .. => .ok s
      | _ => .error (.malformed name (.applicable s.kindName))
    | some .union =>
      match s with
      | .union .. => .ok s
      | _ => .error .representationWithoutVariants

/-- Applies the extensions of a declaration at `path` in their order. -/
def applyAll (path : Path) (s : Shape α) : List (Bytes × Value) → Extract (Shape α)
  | [] => .ok s
  | (name, v) :: rest =>
    match apply name v s with
    | .ok s => applyAll path s rest
    | .error defect => refuse defect (path ++ [.ext name])

end Constraint

end DocSchema
