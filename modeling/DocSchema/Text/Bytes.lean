set_option autoImplicit false

namespace DocSchema

/-- A text, as the bytes of its UTF-8 encoding. -/
abbrev Bytes := List UInt8

def utf8 (s : String) : Bytes :=
  s.toList.flatMap String.utf8EncodeChar

instance : Coe String Bytes := ⟨utf8⟩

instance : LawfulBEq Bytes := inferInstance

namespace Bytes

def digit (d : Nat) : UInt8 :=
  48 + d.toUInt8

def ofNat (n : Nat) : Bytes :=
  if n < 10 then [digit n] else ofNat (n / 10) ++ [digit (n % 10)]

/-- The decimal numeral of `i`, with a minus sign when negative. -/
def ofInt (i : Int) : Bytes :=
  if i < 0 then 45 :: ofNat i.natAbs else ofNat i.natAbs

/-- Writes a backslash before a quote and before a backslash. -/
def escape : Bytes → Bytes
  | [] => []
  | c :: s => if c = 34 ∨ c = 92 then 92 :: c :: escape s else c :: escape s

/-- The text between double quotes, with `escape` applied. -/
def quoted (s : Bytes) : Bytes :=
  34 :: escape s ++ [34]

def isContinuation (c : UInt8) : Bool :=
  c &&& 0xC0 == 0x80

/-- The number of code points, one for each byte that does not continue another. -/
def codePoints (s : Bytes) : Nat :=
  s.countP fun c => !isContinuation c

/-- The texts with commas between them. Empty texts in front leave no trace. -/
def commaList (texts : List Bytes) : Bytes :=
  texts.foldl (fun list s => if list.isEmpty then s else list ++ utf8 ", " ++ s) []

end Bytes

end DocSchema
