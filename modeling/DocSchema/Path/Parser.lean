import DocSchema.Path

set_option autoImplicit false

namespace DocSchema

inductive PathSyntaxError where
  | unterminatedIndex (offset : Nat)
  | invalidIndex (digits : Bytes)
  | missingDot (offset : Nat)
  | emptyExtension (offset : Nat)
  | unterminatedKey
  | invalidTupleIndex (digits : Bytes)
  | emptySegment (offset : Nat)
  | invalidIdentifier (name : Bytes)
  | trailingDot
deriving DecidableEq

def PathSyntaxError.message : PathSyntaxError → Bytes
  | .unterminatedIndex offset => "Unterminated array index at offset " ++ Bytes.ofNat offset
  | .invalidIndex digits => "Invalid array index '" ++ digits ++ utf8 "'"
  | .missingDot offset => "Expected '.' at offset " ++ Bytes.ofNat offset
  | .emptyExtension offset => "Empty extension name at offset " ++ Bytes.ofNat offset
  | .unterminatedKey => "Unterminated quoted key"
  | .invalidTupleIndex digits => "Invalid tuple index '" ++ digits ++ utf8 "'"
  | .emptySegment offset => "Empty segment at offset " ++ Bytes.ofNat offset
  | .invalidIdentifier name => "Invalid identifier '" ++ name ++ utf8 "'"
  | .trailingDot => "Path ends with '.'"

namespace Path

/-- Whether `c` may stand in a name: anything but `.`, brackets, `"`, `#`, `$` and space. -/
def isNameByte (c : UInt8) : Bool :=
  !(utf8 ".[]\"#$ ").contains c

/-- The content of a quoted key up to its closing quote, and what follows. A backslash takes the
next byte as it is. -/
def readQuoted? : Bytes → Option (Bytes × Bytes)
  | [] => none
  | 34 :: rest => some ([], rest)
  | 92 :: c :: rest => (readQuoted? rest).map fun (content, after) => (c :: content, after)
  | c :: rest => (readQuoted? rest).map fun (content, after) => (c :: content, after)

/-- The index between brackets, without the opening one, and what follows. -/
def readIndex (offset : Nat) (s : Bytes) : Except PathSyntaxError (Segment × Bytes) :=
  let digits := s.takeWhile (· != 93)
  match s.dropWhile (· != 93) with
  | [] => .error (.unterminatedIndex offset)
  | _ :: rest =>
    if digits.isEmpty then .ok (.array none, rest)
    else
      match Bytes.readNat? UInt64.size digits with
      | some index => .ok (.array (some index), rest)
      | none => .error (.invalidIndex digits)

/-- The item without brackets that begins with `c` at `offset`, and what follows. -/
def readItem (offset : Nat) (c : UInt8) (s : Bytes) : Except PathSyntaxError (Segment × Bytes) :=
  if c = 36 then
    let name := s.takeWhile isNameByte
    if name.isEmpty then .error (.emptyExtension (offset + 1))
    else .ok (.ext name, s.dropWhile isNameByte)
  else if c = 34 then
    match readQuoted? s with
    | some (content, rest) => .ok (.key (.text content), rest)
    | none => .error .unterminatedKey
  else if c = 35 then
    let digits := s.takeWhile isNameByte
    match Bytes.readNat? 256 digits with
    | some index => .ok (.tuple index.toUInt8, s.dropWhile isNameByte)
    | none => .error (.invalidTupleIndex digits)
  else if !isNameByte c then
    .error (.emptySegment offset)
  else
    let name := c :: s.takeWhile isNameByte
    match Bytes.readInt64? name with
    | some i => .ok (.key (.int i), s.dropWhile isNameByte)
    | none =>
      if Bytes.isIdentifier name then .ok (.ident name, s.dropWhile isNameByte)
      else .error (.invalidIdentifier name)

theorem length_dropWhile_le {α : Type} (p : α → Bool) (s : List α) :
    (s.dropWhile p).length ≤ s.length :=
  (List.dropWhile_sublist p).length_le

theorem length_readQuoted? {s content rest : Bytes} (h : readQuoted? s = some (content, rest)) :
    rest.length ≤ s.length := by
  fun_induction readQuoted? s generalizing content rest with
  | case1 => simp at h
  | case2 s => simp_all
  | case3 c s ih =>
    obtain ⟨⟨content', rest'⟩, h', h''⟩ := Option.map_eq_some_iff.1 h
    have := ih h'
    simp_all
    omega
  | case4 c s _ _ ih =>
    obtain ⟨⟨content', rest'⟩, h', h''⟩ := Option.map_eq_some_iff.1 h
    have := ih h'
    simp_all
    omega

theorem length_readIndex {offset : Nat} {s rest : Bytes} {seg : Segment}
    (h : readIndex offset s = .ok (seg, rest)) : rest.length ≤ s.length := by
  have hs := length_dropWhile_le (· != 93) s
  unfold readIndex at h
  dsimp only at h
  split at h
  · simp at h
  · rename_i heq
    rw [heq] at hs
    split at h
    · simp_all
      omega
    · split at h <;> simp_all
      omega

theorem length_readItem {offset : Nat} {c : UInt8} {s rest : Bytes} {seg : Segment}
    (h : readItem offset c s = .ok (seg, rest)) : rest.length ≤ s.length := by
  have hs := length_dropWhile_le isNameByte s
  unfold readItem at h
  dsimp only at h
  split at h
  · split at h <;> simp_all
  · split at h
    · split at h
      · rename_i heq
        have := length_readQuoted? heq
        simp_all
      · simp at h
    · split at h
      · split at h <;> simp_all
      · split at h
        · simp at h
        · split at h
          · simp_all
          · split at h <;> simp_all

/-- The items of `s`, the remainder of a text of `length` bytes. A dot or the start of the text is
behind it if `expecting` an item. -/
def readItems (length : Nat) (expecting : Bool) (s : Bytes) : Except PathSyntaxError Path :=
  match s with
  | [] => if expecting then .error .trailingDot else .ok []
  | c :: rest =>
    let offset := length - s.length
    if c = 91 then
      match _h : readIndex offset rest with
      | .error e => .error e
      | .ok (seg, after) => (readItems length false after).map (seg :: ·)
    else if expecting then
      match _h : readItem offset c rest with
      | .error e => .error e
      | .ok (seg, after) => (readItems length false after).map (seg :: ·)
    else if c = 46 then
      readItems length true rest
    else
      .error (.missingDot offset)
termination_by s.length
decreasing_by
  · have := length_readIndex _h
    simp only [List.length_cons]
    omega
  · have := length_readItem _h
    simp only [List.length_cons]
    omega
  · simp

def parse (s : Bytes) : Except PathSyntaxError Path :=
  if s = [] ∨ s = utf8 "(root)" then .ok [] else readItems s.length true s

end Path

end DocSchema
