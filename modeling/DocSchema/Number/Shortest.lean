import DocSchema.Number.Binary64

set_option autoImplicit false

namespace DocSchema

-- A power of naturals or integers is the core library's, whatever else is imported.
attribute [local instance (high)] instPowNat

structure Decimal where
  coefficient : Nat
  exponent : Int
deriving DecidableEq

structure Neighbourhood where
  low : Nat
  value : Nat
  high : Nat
  /-- Whether the ends belong to the interval. -/
  closed : Bool

namespace Neighbourhood

/-- The numbers that round to the finite number `x`, without its sign. A power of two has its
lower neighbour at half the distance, unless it is the least normal number. Ends go to the even
significand. -/
def of (x : Binary64) : Neighbourhood :=
  let unit := 2 ^ x.scale
  let value := 4 * x.significand * unit
  { low := value - (if x.fraction = 0 ∧ 1 < x.exponent then unit else 2 * unit)
    value
    high := value + 2 * unit
    closed := x.significand % 2 = 0 }

/-- The interval scaled by `10 ^ -p`, with the denominator that makes its ends integers. -/
def scaled (n : Neighbourhood) (p : Int) : Neighbourhood × Nat :=
  let factor := 10 ^ (-p).toNat
  ({ low := n.low * factor, value := n.value * factor, high := n.high * factor, closed := n.closed },
    2 ^ (1076 : Nat) * 10 ^ p.toNat)

def holds (n : Neighbourhood) (point : Nat) : Bool :=
  if n.closed then n.low ≤ point && point ≤ n.high else n.low < point && point < n.high

/-- The multiple of `10 ^ p` in the interval that is nearest to the value, a tie to the even one;
`none` if the interval holds no multiple. Only the two neighbours of the value can be it. -/
def nearest? (n : Neighbourhood) (p : Int) : Option Nat :=
  let (scaled, unit) := n.scaled p
  let below := scaled.value / unit
  let above := below + 1
  let down := scaled.value - below * unit
  let up := above * unit - scaled.value
  match scaled.holds (below * unit), scaled.holds (above * unit) with
  | false, false => none
  | true, false => some below
  | false, true => some above
  | true, true => some (if down < up ∨ (down = up ∧ below % 2 = 0) then below else above)

end Neighbourhood

/-- The exponents of ten that a shortest decimal can have, from the greatest down. -/
def Decimal.exponents : List Int :=
  (List.range 634).map fun k : Nat => (309 : Int) - k

/-- The shortest decimal that reads back as the finite number `x` without its sign: it lies on the
coarsest decimal grid that meets the interval around `x`. -/
def Binary64.shortest (x : Binary64) : Decimal :=
  if x.significand = 0 then ⟨0, 0⟩
  else
    let n := Neighbourhood.of x
    (Decimal.exponents.findSome? fun p => (n.nearest? p).map fun c => ⟨c, p⟩).getD ⟨0, 0⟩

end DocSchema
