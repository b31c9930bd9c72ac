import DocSchema.Pattern.Regex

set_option autoImplicit false

namespace DocSchema.Pattern

inductive Escape where
  | byte (c : UInt8)
  | category (k : Category) (negated : Bool)
  | boundary (negated : Bool)
  | reference (group : Nat)
deriving DecidableEq

def hexValue (c : UInt8) : Nat :=
  if Bytes.isDigit c then (c - 48).toNat else (toLower c - 87).toNat

/-- The byte with the code of `n` hexadecimal digits, of which the last two count. -/
def readHex? (n : Nat) (s : Bytes) : Option (Escape × Bytes) :=
  let digits := s.take n
  if digits.length = n ∧ digits.all isHexDigit then
    some (.byte (UInt8.ofNat (digits.foldl (fun v c => 16 * v + hexValue c) 0)), s.drop n)
  else none

/-- What follows a backslash. Within brackets `\b` is the backspace. -/
def readEscape? (bracket : Bool) : Bytes → Option (Escape × Bytes)
  | [] => none
  | c :: s =>
    if c = 48 then some (.byte 0, s)
    else if c = 98 then some (if bracket then .byte 8 else .boundary false, s)
    else if c = 66 then some (.boundary true, s)
    else if c = 102 then some (.byte 12, s)
    else if c = 110 then some (.byte 10, s)
    else if c = 114 then some (.byte 13, s)
    else if c = 116 then some (.byte 9, s)
    else if c = 118 then some (.byte 11, s)
    else if c = 100 then some (.category .digit false, s)
    else if c = 68 then some (.category .digit true, s)
    else if c = 115 then some (.category .space false, s)
    else if c = 83 then some (.category .space true, s)
    else if c = 119 then some (.category .word false, s)
    else if c = 87 then some (.category .word true, s)
    else if c = 99 then
      match s with
      | [] => none
      | d :: rest => some (.byte d, rest)
    else if c = 120 then readHex? 2 s
    else if c = 117 then readHex? 4 s
    else if Bytes.isDigit c then
      some (.reference (Bytes.digitsValue (c :: s.takeWhile Bytes.isDigit)),
        s.dropWhile Bytes.isDigit)
    else some (.byte c, s)

inductive Token where
  | byte (c : UInt8)
  | dash
  | close
  /-- A character given by its name; it cannot end a range. -/
  | symbol (c : UInt8)
  /-- A part that is no single character. -/
  | item (i : Item)
deriving DecidableEq

/-- A name up to `mark` and the closing bracket, where `mark` opened the name. -/
def readName? (mark : UInt8) (s : Bytes) : Option (Bytes × Bytes) :=
  match s.dropWhile (· != mark) with
  | _ :: 93 :: rest => some (s.takeWhile (· != mark), rest)
  | _ => none

def readToken? : Bytes → Option (Token × Bytes)
  | [] => none
  | 45 :: s => some (.dash, s)
  | 93 :: s => some (.close, s)
  | 91 :: 46 :: s => do
    let (name, rest) ← readName? 46 s
    return (.symbol (← characterOfName? name), rest)
  | 91 :: 61 :: s => do
    let (name, rest) ← readName? 61 s
    return (.item (.folded (← characterOfName? name)), rest)
  | 91 :: 58 :: s => do
    let (name, rest) ← readName? 58 s
    return (.item (.category (← Category.ofName? name) false), rest)
  | [91] => none
  | 92 :: s =>
    match readEscape? true s with
    | some (.byte c, rest) => some (.byte c, rest)
    | some (.category k negated, rest) => some (.item (.category k negated), rest)
    | _ => none
  | c :: s => some (.byte c, s)

/-- What stands before the next token of a bracket expression. -/
inductive Pending where
  /-- Nothing that could begin a range. -/
  | none
  /-- A character that is not yet in the set. -/
  | byte (c : UInt8)
  /-- A part that is no single character. -/
  | item
deriving DecidableEq

def Pending.items : Pending → List Item
  | .byte c => [.byte c]
  | _ => []

/-- The range between two characters, unless it runs backwards. -/
def range? (first last : UInt8) : Option Item :=
  if signedLe first last then some (.range first last) else none

/-- The parts of a bracket expression up to its closing bracket, and what follows. A dash is a
character of its own where it cannot stand for a range. -/
def readItems? : (fuel : Nat) → Pending → List Item → Bytes → Option (List Item × Bytes)
  | 0, _, _, _ => none
  | fuel + 1, pending, items, s => do
    let (token, rest) ← readToken? s
    match token with
    | .close => return (items ++ pending.items, rest)
    | .byte c => readItems? fuel (.byte c) (items ++ pending.items) rest
    | .symbol c => readItems? fuel (.byte c) (items ++ pending.items ++ [.byte c]) rest
    | .item i => readItems? fuel .item (items ++ pending.items ++ [i]) rest
    | .dash =>
      let (next, after) ← readToken? rest
      match next, pending with
      | .close, _ => return (items ++ pending.items ++ [.byte 45], after)
      | _, .item => Option.none
      | .byte last, .byte first => readItems? fuel .none (items ++ [← range? first last]) after
      | .dash, .byte first => readItems? fuel .none (items ++ [← range? first 45]) after
      | _, .byte _ => Option.none
      | _, .none => readItems? fuel (.byte 45) items rest

def readBracket? (s : Bytes) : Option (Regex × Bytes) :=
  match s with
  | 94 :: rest =>
    (readItems? (rest.length + 1) .none [] rest).map fun (items, after) =>
      (.byte ⟨items, true⟩, after)
  | _ =>
    (readItems? (s.length + 1) .none [] s).map fun (items, after) =>
      (.byte ⟨items, false⟩, after)

/-- The bounds of a counted repetition behind its opening brace. -/
def readCounts? (s : Bytes) : Option (Repetition × Bytes) :=
  let first := s.takeWhile Bytes.isDigit
  let min := Bytes.digitsValue first
  if first.isEmpty then none
  else
    match s.dropWhile Bytes.isDigit with
    | 125 :: rest => some (.counted min (some min), rest)
    | 44 :: rest =>
      let second := rest.takeWhile Bytes.isDigit
      let max := Bytes.digitsValue second
      match rest.dropWhile Bytes.isDigit with
      | 125 :: after =>
        if second.isEmpty then some (.counted min none, after)
        else if min ≤ max then some (.counted min (some max), after)
        else none
      | _ => none
    | _ => none

/-- The repetition at the start of the text, if there is one. -/
def readRepetition? : Bytes → Option (Option Repetition × Bytes)
  | 42 :: s => some (some .star, s)
  | 43 :: s => some (some .plus, s)
  | 63 :: s => some (some .opt, s)
  | 123 :: s => (readCounts? s).map fun (r, rest) => (some r, rest)
  | s => some (none, s)

/-- The atom under the repetitions at the start of the text. A question mark behind a repetition
makes it lazy. -/
def readRepetitions? : (fuel : Nat) → Regex → Bytes → Option (Regex × Bytes)
  | 0, _, _ => none
  | fuel + 1, atom, s => do
    match ← readRepetition? s with
    | (none, rest) => return (atom, rest)
    | (some r, 63 :: rest) => readRepetitions? fuel (.repeated r true atom) rest
    | (some r, rest) => readRepetitions? fuel (.repeated r false atom) rest

inductive Paren where
  | plain
  | capture (index : Nat)
  | look (negated : Bool)
deriving DecidableEq

/-- An expression being read: the alternatives that are complete, and the items of the next one, the
last first. -/
structure Draft where
  alternatives : Option Regex := none
  items : List Regex := []

namespace Draft

def push (p : Draft) (r : Regex) : Draft :=
  { p with items := r :: p.items }

def body (p : Draft) : Regex :=
  let last := p.items.foldl (fun rest item => .seq item rest) .empty
  match p.alternatives with
  | none => last
  | some earlier => .alt earlier last

def next (p : Draft) : Draft :=
  ⟨some p.body, []⟩

end Draft

/-- The reader's state: the number of groups so far, the parentheses that are open, and the
expression inside the innermost one. -/
structure Reader where
  groups : Nat := 0
  enclosing : List (Paren × Draft) := []
  current : Draft := {}

namespace Reader

def canRefer (r : Reader) (group : Nat) : Bool :=
  1 ≤ group && group ≤ r.groups && r.enclosing.all fun (paren, _) => paren != .capture group

def assert (r : Reader) (e : Regex) : Reader :=
  { r with current := r.current.push e }

def enter (r : Reader) (paren : Paren) : Reader :=
  { r with enclosing := (paren, r.current) :: r.enclosing, current := {} }

def atom (r : Reader) (e : Regex) (s : Bytes) : Option (Reader × Bytes) :=
  (readRepetitions? (s.length + 1) e s).map fun (e, rest) => (r.assert e, rest)

def leave (r : Reader) (s : Bytes) : Option (Reader × Bytes) :=
  match r.enclosing with
  | [] => none
  | (paren, outer) :: enclosing =>
    let body := r.current.body
    let r := { r with enclosing, current := outer }
    match paren with
    | .plain => r.atom (.seq .empty body) s
    | .capture index => r.atom (.group index body) s
    | .look negated => some (r.assert (.look negated body), s)

/-- Reads one item, one mark of an alternative or one parenthesis. -/
def step (r : Reader) : Bytes → Option (Reader × Bytes)
  | [] => none
  | 94 :: s => some (r.assert .start, s)
  | 36 :: s => some (r.assert .stop, s)
  | 46 :: s => r.atom (.byte .inLine) s
  | 124 :: s => some ({ r with current := r.current.next }, s)
  | 40 :: 63 :: 58 :: s => some (r.enter .plain, s)
  | 40 :: 63 :: 61 :: s => some (r.enter (.look false), s)
  | 40 :: 63 :: 33 :: s => some (r.enter (.look true), s)
  | 40 :: 63 :: _ => none
  | 40 :: s => some ({ r with groups := r.groups + 1 }.enter (.capture (r.groups + 1)), s)
  | 41 :: s => r.leave s
  | 42 :: _ => none
  | 43 :: _ => none
  | 63 :: _ => none
  | 123 :: _ => none
  | 91 :: s => do
    let (set, rest) ← readBracket? s
    r.atom set rest
  | 92 :: s => do
    match ← readEscape? false s with
    | (.byte c, rest) => r.atom (.byte (.single c)) rest
    | (.category k negated, rest) => r.atom (.byte ⟨[.category k negated], false⟩) rest
    | (.boundary negated, rest) => return (r.assert (.boundary negated), rest)
    | (.reference group, rest) => if r.canRefer group then r.atom (.reference group) rest else none
  | c :: s => r.atom (.byte (.single c)) s

/-- Reads a text to its end, where all parentheses have to be closed. -/
def run : (fuel : Nat) → Reader → Bytes → Option (Regex × Nat)
  | _, r, [] => if r.enclosing.isEmpty then some (r.current.body, r.groups) else none
  | 0, _, _ => none
  | fuel + 1, r, s => do
    let (r, rest) ← r.step s
    run fuel r rest

end Reader

/-- The expression that a text spells, and the number of its groups. Every step of the reader takes
a byte at least. -/
def Regex.parse? (s : Bytes) : Option (Regex × Nat) :=
  Reader.run s.length {} s

end DocSchema.Pattern
