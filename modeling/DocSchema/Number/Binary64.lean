set_option autoImplicit false

namespace DocSchema

-- A power of naturals or integers is the core library's, whatever else is imported.
attribute [local instance (high)] instPowNat

/-- A binary floating-point number: a sign bit, 11 exponent bits and 52 fraction bits. -/
structure Binary64 where
  bits : UInt64
deriving DecidableEq, Inhabited

/-- A point of the extended number line. A finite point counts units of 2^-1074. -/
inductive Extended where
  | negInf
  | units (n : Int)
  | posInf
deriving DecidableEq

namespace Extended

def ofInt (i : Int) : Extended :=
  .units (i * 2 ^ (1074 : Nat))

/-- The order of the line, from the least point to the greatest. -/
def compare : Extended → Extended → Ordering
  | .negInf, .negInf => .eq
  | .negInf, _ => .lt
  | _, .negInf => .gt
  | .units m, .units n => Ord.compare m n
  | .units _, .posInf => .lt
  | .posInf, .units _ => .gt
  | .posInf, .posInf => .eq

end Extended

namespace Binary64

def isNegative (x : Binary64) : Bool :=
  2 ^ (63 : Nat) ≤ x.bits.toNat

def exponent (x : Binary64) : Nat :=
  x.bits.toNat / 2 ^ (52 : Nat) % 2 ^ (11 : Nat)

def fraction (x : Binary64) : Nat :=
  x.bits.toNat % 2 ^ (52 : Nat)

def isFinite (x : Binary64) : Bool :=
  x.exponent != 2047

def isNaN (x : Binary64) : Bool :=
  x.exponent == 2047 && x.fraction != 0

/-- The significand of a finite number, with its leading one where it has one. -/
def significand (x : Binary64) : Nat :=
  if x.exponent = 0 then x.fraction else 2 ^ (52 : Nat) + x.fraction

/-- The power of two, in units of 2^-1074, that the significand counts. -/
def scale (x : Binary64) : Nat :=
  x.exponent - 1

/-- The absolute value of a finite number, in units of 2^-1074. -/
def magnitude (x : Binary64) : Nat :=
  x.significand * 2 ^ x.scale

/-- The point on the extended line that `x` stands for; a NaN has none. -/
def extended? (x : Binary64) : Option Extended :=
  if x.isFinite then
    some (.units (if x.isNegative then -x.magnitude else x.magnitude))
  else if x.fraction = 0 then
    some (if x.isNegative then .negInf else .posInf)
  else
    none

/-- Equality as numbers: the zeros are equal, and a NaN equals nothing. -/
def same (x y : Binary64) : Bool :=
  match x.extended?, y.extended? with
  | some p, some q => p == q
  | _, _ => false

/-- The integer nearest to `n / 2 ^ k`, a tie to the even one. -/
def roundShift (n k : Nat) : Nat :=
  let quotient := n / 2 ^ k
  let rest := 2 * (n % 2 ^ k)
  if 2 ^ k < rest ∨ (rest = 2 ^ k ∧ quotient % 2 = 1) then quotient + 1 else quotient

/-- The nearest number to `n`, a tie to the even significand. A significand that rounds up to
`2 ^ 53` carries into the exponent bits. -/
def ofUInt64 (n : UInt64) : Binary64 :=
  if n = 0 then ⟨0⟩
  else
    let top := n.toNat.log2
    let significand := if top ≤ 52 then n.toNat * 2 ^ (52 - top) else roundShift n.toNat (top - 52)
    ⟨UInt64.ofNat ((top + 1022) * 2 ^ (52 : Nat) + significand)⟩

end Binary64

end DocSchema
