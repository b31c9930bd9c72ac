import DocSchema.Text.Digits

set_option autoImplicit false

namespace DocSchema

/-- The digits of a number, and by which power of ten the number that they spell is scaled. -/
structure Numeral where
  digits : Bytes := []
  scale : Int := 0
deriving DecidableEq

namespace Numeral

/-- The exponent behind its mark. A plus sign changes nothing. -/
def readExponent? : Bytes → Option Int
  | 43 :: s => Bytes.readInt? (Int32.size / 2) s
  | s => Bytes.readInt? (Int32.size / 2) s

/-- Goes on reading behind the numeral `n`. Each digit behind the point scales the number down. -/
def readFrom? (n : Numeral) (isFraction : Bool) : Bytes → Option Numeral
  | [] => some n
  | c :: s =>
    if c = 45 then n.readFrom? isFraction s
    else if c = 46 then n.readFrom? true s
    else if c = 101 ∨ c = 69 then (readExponent? s).map fun e => { n with scale := n.scale + e }
    else readFrom? ⟨n.digits ++ [c], if isFraction then n.scale - 1 else n.scale⟩ isFraction s

def read? (s : Bytes) : Option Numeral :=
  readFrom? {} false s

/-- Drops zeros in front of the last digit, counting them; the digits are given last one first. -/
def popZeros (scale : Int) : Bytes → Numeral
  | 48 :: c :: s => popZeros (scale + 1) (c :: s)
  | digits => ⟨digits.reverse, scale⟩

/-- Moves trailing zeros into the scale. The first digit stays. -/
def stripZeros (n : Numeral) : Numeral :=
  popZeros n.scale n.digits.reverse

end Numeral

end DocSchema
