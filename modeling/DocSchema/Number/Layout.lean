import DocSchema.Number.Shortest
import DocSchema.Text.Bytes

set_option autoImplicit false

namespace DocSchema

-- A power of naturals or integers is the core library's, whatever else is imported.
attribute [local instance (high)] instPowNat

namespace Decimal

def digits (d : Decimal) : Bytes :=
  Bytes.ofNat d.coefficient

/-- The number of places before the point, negative if zeros follow the point. -/
def point (d : Decimal) : Int :=
  d.digits.length + d.exponent

def positional (d : Decimal) : Bytes :=
  if 0 ≤ d.exponent then
    d.digits ++ List.replicate d.exponent.toNat (Bytes.digit 0)
  else if 0 < d.point then
    d.digits.take d.point.toNat ++ utf8 "." ++ d.digits.drop d.point.toNat
  else
    utf8 "0." ++ List.replicate (-d.point).toNat (Bytes.digit 0) ++ d.digits

/-- An exponent with its sign and at least two digits. -/
def exponentMark (e : Int) : Bytes :=
  let digits := Bytes.ofNat e.natAbs
  utf8 "e" ++ (if e < 0 then utf8 "-" else utf8 "+")
    ++ (if digits.length < 2 then utf8 "0" else []) ++ digits

/-- Scientific notation: one digit before the point, and no point behind a single digit. -/
def scientific (d : Decimal) : Bytes :=
  let mantissa :=
    match d.digits with
    | [] => []
    | [c] => [c]
    | c :: rest => c :: utf8 "." ++ rest
  mantissa ++ exponentMark (d.point - 1)

/-- Whether positional notation takes no more room than scientific notation. -/
def isPlain (d : Decimal) : Bool :=
  let length : Int := d.digits.length
  if length = 1 then -3 ≤ d.exponent && d.exponent ≤ 4
  else -(length + 3) ≤ d.exponent && d.exponent ≤ 5

end Decimal

namespace Binary64

def whole (x : Binary64) : Nat :=
  x.magnitude / 2 ^ (1074 : Nat)

def sign (x : Binary64) : Bytes :=
  if x.isNegative then utf8 "-" else []

/-- The decimal that the plain form of a finite number spells, without its sign: the shortest one,
but all digits of a whole number that ends in zeros when written positionally. -/
def spelled (x : Binary64) : Decimal :=
  let d := x.shortest
  if d.isPlain && 0 < d.exponent then ⟨x.whole, 0⟩ else d

def text (x : Binary64) : Bytes :=
  if x.isNaN then utf8 "nan"
  else if !x.isFinite then x.sign ++ utf8 "inf"
  else if x.shortest.isPlain then x.sign ++ x.spelled.positional
  else x.sign ++ x.shortest.scientific

/-- The JSON form: positional from 0.0001 up to 15 places, with a point in every positional number;
what is not finite becomes `null`. -/
def jsonText (x : Binary64) : Bytes :=
  if !x.isFinite then utf8 "null"
  else
    let d := x.shortest
    if d.coefficient = 0 then x.sign ++ utf8 "0.0"
    else if -4 < d.point && d.point ≤ 15 then
      x.sign ++ d.positional ++ (if 0 ≤ d.exponent then utf8 ".0" else [])
    else x.sign ++ d.scientific

end Binary64

end DocSchema
