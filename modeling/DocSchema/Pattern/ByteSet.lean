import DocSchema.Text.Identifier

set_option autoImplicit false

namespace DocSchema.Pattern

/-- A named category of bytes. -/
inductive Category where
  | alnum
  | alpha
  | blank
  | cntrl
  | digit
  | graph
  | lower
  | print
  | punct
  | space
  | upper
  | word
  | xdigit
deriving DecidableEq

def isAlpha (c : UInt8) : Bool :=
  Bytes.isLower c || Bytes.isUpper c

def isAlnum (c : UInt8) : Bool :=
  isAlpha c || Bytes.isDigit c

def isGraph (c : UInt8) : Bool :=
  33 ≤ c && c ≤ 126

def isHexDigit (c : UInt8) : Bool :=
  Bytes.isDigit c || (65 ≤ c && c ≤ 70) || (97 ≤ c && c ≤ 102)

/-- Whether `c` may stand in a word: a letter, a digit or `_`. -/
def isWord (c : UInt8) : Bool :=
  isAlnum c || c == 95

/-- The small letter of a capital letter; any other byte is left as it is. -/
def toLower (c : UInt8) : UInt8 :=
  if Bytes.isUpper c then c + 32 else c

def Category.has : Category → UInt8 → Bool
  | .alnum, c => isAlnum c
  | .alpha, c => isAlpha c
  | .blank, c => c == 32 || c == 9
  | .cntrl, c => c < 32 || c == 127
  | .digit, c => Bytes.isDigit c
  | .graph, c => isGraph c
  | .lower, c => Bytes.isLower c
  | .print, c => isGraph c || c == 32
  | .punct, c => isGraph c && !isAlnum c
  | .space, c => c == 32 || (9 ≤ c && c ≤ 13)
  | .upper, c => Bytes.isUpper c
  | .word, c => isWord c
  | .xdigit, c => isHexDigit c

def categories : List (String × Category) :=
  [("d", .digit), ("w", .word), ("s", .space), ("alnum", .alnum), ("alpha", .alpha),
    ("blank", .blank), ("cntrl", .cntrl), ("digit", .digit), ("graph", .graph), ("lower", .lower),
    ("print", .print), ("punct", .punct), ("space", .space), ("upper", .upper),
    ("xdigit", .xdigit)]

/-- The category of a name, whatever the case of its letters. -/
def Category.ofName? (name : Bytes) : Option Category :=
  (categories.find? fun entry => utf8 entry.1 == name.map toLower).map (·.2)

def characterNames : List String :=
  ["NUL", "SOH", "STX", "ETX", "EOT", "ENQ", "ACK", "alert", "backspace", "tab", "newline",
    "vertical-tab", "form-feed", "carriage-return", "SO", "SI", "DLE", "DC1", "DC2", "DC3", "DC4",
    "NAK", "SYN", "ETB", "CAN", "EM", "SUB", "ESC", "IS4", "IS3", "IS2", "IS1", "space",
    "exclamation-mark", "quotation-mark", "number-sign", "dollar-sign", "percent-sign",
    "ampersand", "apostrophe", "left-parenthesis", "right-parenthesis", "asterisk", "plus-sign",
    "comma", "hyphen", "period", "slash", "zero", "one", "two", "three", "four", "five", "six",
    "seven", "eight", "nine", "colon", "semicolon", "less-than-sign", "equals-sign",
    "greater-than-sign", "question-mark", "commercial-at", "A", "B", "C", "D", "E", "F", "G", "H",
    "I", "J", "K", "L", "M", "N", "O", "P", "Q", "R", "S", "T", "U", "V", "W", "X", "Y", "Z",
    "left-square-bracket", "backslash", "right-square-bracket", "circumflex", "underscore",
    "grave-accent", "a", "b", "c", "d", "e", "f", "g", "h", "i", "j", "k", "l", "m", "n", "o", "p",
    "q", "r", "s", "t", "u", "v", "w", "x", "y", "z", "left-curly-bracket", "vertical-line",
    "right-curly-bracket", "tilde", "DEL"]

def characterOfName? (name : Bytes) : Option UInt8 :=
  (characterNames.findIdx? fun n => utf8 n == name).map (·.toUInt8)

inductive Item where
  | byte (c : UInt8)
  /-- From `first` to `last`, where bytes beyond ASCII come before it. -/
  | range (first last : UInt8)
  /-- A category, or all bytes outside it. -/
  | category (k : Category) (negated : Bool)
  /-- A character in either case. -/
  | folded (c : UInt8)
deriving DecidableEq

/-- Whether `a` comes no later than `b`: bytes beyond ASCII come first. -/
def signedLe (a b : UInt8) : Bool :=
  (a + 128) ≤ (b + 128)

def Item.has : Item → UInt8 → Bool
  | .byte d, c => c == d
  | .range first last, c => signedLe first c && signedLe c last
  | .category k negated, c => k.has c != negated
  | .folded d, c => toLower c == toLower d

/-- The union of some parts, or all bytes outside it. -/
structure ByteSet where
  items : List Item
  negated : Bool := false
deriving DecidableEq

namespace ByteSet

def has (s : ByteSet) (c : UInt8) : Bool :=
  s.items.any (·.has c) != s.negated

def single (c : UInt8) : ByteSet :=
  ⟨[.byte c], false⟩

/-- All bytes that do not end a line. -/
def inLine : ByteSet :=
  ⟨[.byte 10, .byte 13], true⟩

end ByteSet

end DocSchema.Pattern
