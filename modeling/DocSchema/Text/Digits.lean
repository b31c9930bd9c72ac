import DocSchema.Text.Bytes

set_option autoImplicit false

namespace DocSchema

namespace Bytes

def isDigit (c : UInt8) : Bool :=
  48 ≤ c && c ≤ 57

/-- The number that the digits spell, most significant digit first. -/
def digitsValue (s : Bytes) : Nat :=
  s.foldl (fun n c => 10 * n + (c - 48).toNat) 0

/-- The number spelled by one or more digits, provided it is below `limit`. -/
def readNat? (limit : Nat) (s : Bytes) : Option Nat :=
  if !s.isEmpty && s.all isDigit && digitsValue s < limit then some (digitsValue s) else none

/-- The integer from `-limit` up to below `limit` spelled by digits after an optional minus sign. -/
def readInt? (limit : Nat) : Bytes → Option Int
  | 45 :: s => (readNat? (limit + 1) s).map fun n => -Int.ofNat n
  | s => (readNat? limit s).map Int.ofNat

/-- The 64-bit integer spelled by digits after an optional minus sign. -/
def readInt64? (s : Bytes) : Option Int64 :=
  (readInt? (Int64.size / 2) s).map Int64.ofInt

end Bytes

end DocSchema
