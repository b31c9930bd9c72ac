import DocSchema.Text.Digits

set_option autoImplicit false

namespace DocSchema

namespace Bytes

def isUpper (c : UInt8) : Bool :=
  65 ≤ c && c ≤ 90

def isLower (c : UInt8) : Bool :=
  97 ≤ c && c ≤ 122

/-- Whether `c` may stand in an identifier: an ASCII letter or digit, `_`, `-`, or a byte of a code
point beyond ASCII. -/
def isIdentifierByte (c : UInt8) : Bool :=
  isLower c || isUpper c || isDigit c || c == 95 || c == 45 || 128 ≤ c

/-- Whether `s` is an identifier: not empty, identifier bytes only, and neither a digit nor `-` in
front. -/
def isIdentifier : Bytes → Bool
  | [] => false
  | c :: s => !isDigit c && c != 45 && (c :: s).all isIdentifierByte

end Bytes

end DocSchema
