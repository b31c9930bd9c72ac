import DocSchema.Number.Binary64

set_option autoImplicit false

namespace DocSchema

-- A power of naturals or integers is the core library's, whatever else is imported.
attribute [local instance (high)] instPowNat

namespace Extended

/-- How many units of 2^-1074 lie between an integer and the next one. -/
def unitsPerOne : Int :=
  2 ^ (1074 : Nat)

/-- Where a point lies from an integer. A point that no integer of 64 bits has as its whole part
lies beyond all of them; of any other the whole part is found by rounding towards zero. -/
def compareInt : Extended → Int64 → Ordering
  | .posInf, _ => .gt
  | .negInf, _ => .lt
  | .units n, i =>
    if 2 ^ (63 : Nat) * unitsPerOne ≤ n then .gt
    else if n < -(2 ^ (63 : Nat) * unitsPerOne) then .lt
    else
      let whole := Int64.ofInt (n.tdiv unitsPerOne)
      if whole = i then Ord.compare (n - whole.toInt * unitsPerOne) 0
      else Ord.compare whole.toInt i.toInt

end Extended

end DocSchema
