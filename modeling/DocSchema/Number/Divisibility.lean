import DocSchema.Number.Layout
import DocSchema.Number.Numeral

set_option autoImplicit false

namespace DocSchema

/-- The unsigned decimal `mantissa * 10 ^ exponent` with a 64-bit mantissa. -/
structure Decimal64 where
  mantissa : UInt64
  exponent : Int
deriving DecidableEq

namespace Decimal64

/-- Moves the trailing zeros of the mantissa into the exponent. -/
def normalise (d : Decimal64) : Decimal64 :=
  if h : d.mantissa ≠ 0 ∧ d.mantissa % 10 = 0 then
    normalise ⟨d.mantissa / 10, d.exponent + 1⟩
  else d
termination_by d.mantissa.toNat
decreasing_by
  have : d.mantissa.toNat ≠ 0 := fun h0 => h.1 (UInt64.toNat_inj.1 h0)
  simp only [UInt64.toNat_div]
  exact Nat.div_lt_self (Nat.pos_of_ne_zero this) (by decide)

def ofInt64 (i : Int64) : Decimal64 :=
  normalise ⟨UInt64.ofNat i.toInt.natAbs, 0⟩

def mantissaOf (digits : Bytes) : UInt64 :=
  digits.foldl (fun m c => m * 10 + (c - 48).toUInt64) 0

/-- The decimal of a numeral, from which trailing zeros have moved into the exponent. -/
def ofNumeral (n : Numeral) : Decimal64 :=
  let n := n.stripZeros
  normalise ⟨mantissaOf n.digits, n.scale⟩

/-- The decimal spelled by the plain form of `x`, without its sign. Infinities and NaN spell
none. -/
def ofBinary64? (x : Binary64) : Option Decimal64 :=
  if x.isFinite then (Numeral.read? x.text).map ofNumeral else none

/-- The sum of two residues modulo `m`, without leaving 64 bits. -/
def addMod (a b m : UInt64) : UInt64 :=
  if m - b ≤ a then a - (m - b) else a + b

/-- Adds `a * b` to `sum` modulo `m` by doubling, for the lowest `bits` bits of `b`. -/
def mulAddMod (m : UInt64) : (bits : Nat) → (sum a b : UInt64) → UInt64
  | 0, sum, _, _ => sum
  | bits + 1, sum, a, b =>
    if b = 0 then sum
    else mulAddMod m bits (if b % 2 = 1 then addMod sum a m else sum) (addMod a a m) (b / 2)

def mulMod (a b m : UInt64) : UInt64 :=
  mulAddMod m 64 0 (a % m) b

/-- The residue of `r * 10 ^ k` modulo `m`, stopping early at zero. -/
def scaleMod (m : UInt64) : (k : Nat) → (r : UInt64) → UInt64
  | 0, r => r
  | k + 1, r => if r = 0 then 0 else scaleMod m k (mulMod r 10 m)

def scale? : (k : Nat) → (m : UInt64) → Option UInt64
  | 0, m => some m
  | k + 1, m => if (UInt64.size - 1) / 10 < m.toNat then none else scale? k (m * 10)

/-- Whether `value` is an integer multiple of `divisor`. Nothing is a multiple of zero. -/
def isMultiple (value divisor : Decimal64) : Bool :=
  if divisor.mantissa = 0 then false
  else if value.mantissa = 0 then true
  else if divisor.exponent ≤ value.exponent then
    scaleMod divisor.mantissa (value.exponent - divisor.exponent).toNat
      (value.mantissa % divisor.mantissa) == 0
  else
    match scale? (divisor.exponent - value.exponent).toNat divisor.mantissa with
    | some scaled => value.mantissa % scaled == 0
    | none => false

end Decimal64

end DocSchema
