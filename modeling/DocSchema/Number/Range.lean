import DocSchema.Number.Comparison
import DocSchema.Number.Divisibility

set_option autoImplicit false

namespace DocSchema

/-- A number as written: an integer or a floating-point number. -/
inductive Number where
  | int (i : Int64)
  | float (x : Binary64)
deriving DecidableEq

structure Bound where
  limit : Number
  exclusive : Bool
deriving DecidableEq

structure Range where
  min : Option Bound := none
  max : Option Bound := none
deriving DecidableEq

/-- Whether both are absent, or both are present and related by `same`. -/
def bothOrNeither {α : Type} (same : α → α → Bool) : Option α → Option α → Bool
  | none, none => true
  | some a, some b => same a b
  | _, _ => false

namespace Number

/-- Equality of kind and value; the zeros are equal and a NaN equals nothing. -/
def same : Number → Number → Bool
  | .int i, .int j => i == j
  | .float x, .float y => x.same y
  | _, _ => false

/-- The point on the extended number line; a NaN has none. -/
def extended? : Number → Option Extended
  | .int i => some (.ofInt i.toInt)
  | .float x => x.extended?

def compare? : Number → Number → Option Ordering
  | .int i, .int j => some (Ord.compare i.toInt j.toInt)
  | .int i, .float y => y.extended?.map fun q => (q.compareInt i).swap
  | .float x, .int j => x.extended?.map (·.compareInt j)
  | .float x, .float y =>
    match x.extended?, y.extended? with
    | some p, some q => some (p.compare q)
    | _, _ => none

/-- The decimal of the absolute value as spelled, if it is finite. -/
def decimal? : Number → Option Decimal64
  | .int i => some (Decimal64.ofInt64 i)
  | .float x => Decimal64.ofBinary64? x

def isPositive (n : Number) : Bool :=
  n.extended?.any fun p => p.compare (.units 0) == .gt

def text : Number → Bytes
  | .int i => Bytes.ofInt i.toInt
  | .float x => x.text

/-- Whether `value` is an integer multiple of `divisor`, both as spelled. -/
def isMultipleOf (value divisor : Number) : Bool :=
  match value.decimal?, divisor.decimal? with
  | some v, some d => v.isMultiple d
  | _, _ => false

end Number

namespace Bound

def same (a b : Bound) : Bool :=
  a.limit.same b.limit && a.exclusive == b.exclusive

/-- Whether `value` lies on the side of the end where `beyond` does not hold. A NaN on either side
lies on neither. -/
def admits (beyond : Ordering) (b : Bound) (value : Number) : Bool :=
  match value.compare? b.limit with
  | some order => order != beyond && !(b.exclusive && order == .eq)
  | none => false

end Bound

namespace Range

def same (r s : Range) : Bool :=
  bothOrNeither Bound.same r.min s.min && bothOrNeither Bound.same r.max s.max

def admits (r : Range) (value : Number) : Bool :=
  r.min.all (·.admits .lt value) && r.max.all (·.admits .gt value)

/-- Interval notation: square brackets at ends that belong to the range. -/
def text (r : Range) : Bytes :=
  (match r.min with
    | some b => (if b.exclusive then utf8 "(" else utf8 "[") ++ b.limit.text
    | none => utf8 "(-inf")
  ++ utf8 ", "
  ++ (match r.max with
    | some b => b.limit.text ++ (if b.exclusive then utf8 ")" else utf8 "]")
    | none => utf8 "inf)")

end Range

end DocSchema
