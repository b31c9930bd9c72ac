import DocSchema.Path.Parser
import DocSchema.Proofs.Numerals

set_option autoImplicit false

namespace DocSchema

namespace Bytes

theorem readNat?_eq_some_iff {limit n : Nat} {s : Bytes} :
    readNat? limit s = some n ↔
    AllDigits s ∧ s ≠ [] ∧ digitsValue s < limit ∧ digitsValue s = n := by
  unfold readNat?
  constructor
  · intro read
    split at read
    · next accepted =>
      simp only [Bool.and_eq_true, Bool.not_eq_true', List.isEmpty_eq_false_iff, decide_eq_true_eq,
        List.all_eq_true] at accepted
      obtain ⟨⟨some, digits⟩, small⟩ := accepted
      exact ⟨digits, some, small, Option.some.inj read⟩
    · cases read
  · rintro ⟨digits, some, small, rfl⟩
    exact Numeral.readNat?_digits digits some small

/-- The texts that are read as `i`: its absolute value in digits, with a minus sign where it is
due. -/
theorem readInt64?_eq_some_iff {s : Bytes} {i : Int64} :
    readInt64? s = some i ↔
      ∃ digits : Bytes, digits.AllDigits ∧ digits ≠ [] ∧
        (s = digits ∧ i.toInt = digits.digitsValue ∨
          s = 45 :: digits ∧ i.toInt = -(digits.digitsValue : Int)) := by
  have above := Int64.toInt_lt i
  have below := Int64.le_toInt i
  have half : Int64.size / 2 = 2 ^ 63 := rfl
  constructor
  · intro narrowed
    obtain ⟨j, read, rfl⟩ := Option.map_eq_some_iff.1 narrowed
    unfold readInt? at read
    split at read
    · next digits =>
      obtain ⟨n, magnitude, rfl⟩ := Option.map_eq_some_iff.1 read
      obtain ⟨all, some, small, rfl⟩ := readNat?_eq_some_iff.1 magnitude
      rw [Int.ofNat_eq_natCast, Int64.toInt_ofInt_of_le (by omega) (by omega)]
      exact ⟨digits, all, some, .inr ⟨rfl, rfl⟩⟩
    · obtain ⟨n, magnitude, rfl⟩ := Option.map_eq_some_iff.1 read
      obtain ⟨all, some, small, rfl⟩ := readNat?_eq_some_iff.1 magnitude
      rw [Int.ofNat_eq_natCast, Int64.toInt_ofInt_of_le (by omega) (by omega)]
      exact ⟨s, all, some, .inl ⟨rfl, rfl⟩⟩
  · rintro ⟨digits, all, some, ⟨rfl, value⟩ | ⟨rfl, value⟩⟩
    · rw [readInt64?, Numeral.readInt?_digits all some (by omega), Option.map_some, ← value,
        Int64.ofInt_toInt]
    · rw [readInt64?, readInt?, Numeral.readNat?_digits all some (by omega), Option.map_some,
        Option.map_some, Int.ofNat_eq_natCast, ← value, Int64.ofInt_toInt]

/-- A text that begins neither with a digit nor with a minus sign is no integer. -/
theorem readInt64?_eq_none {c : UInt8} {s : Bytes} (plain : isDigit c = false) (unsigned : c ≠ 45) :
    readInt64? (c :: s) = none := by
  rw [readInt64?, readInt?, readNat?, List.all_cons, plain]
  · rfl
  · intro t same
    exact unsigned (List.cons.inj same).1

theorem isIdentifier_cons {c : UInt8} {s : Bytes} (identifier : isIdentifier (c :: s) = true) :
    isDigit c = false ∧ c ≠ 45 ∧ ∀ d ∈ c :: s, isIdentifierByte d = true := by
  simpa [isIdentifier, and_assoc] using identifier

theorem AllDigits.isIdentifierByte {s : Bytes} (digits : s.AllDigits) :
    ∀ c ∈ s, isIdentifierByte c = true := by
  intro c inside
  simp [Bytes.isIdentifierByte, digits c inside]

end Bytes

namespace Path

/-- The bytes that end a name are neither in numerals nor in identifiers. -/
theorem isNameByte_of {c : UInt8} (plain : Bytes.isIdentifierByte c = true) :
    isNameByte c = true := by
  by_contra ends
  have listed : c ∈ utf8 ".[]\"#$ " := by simpa [isNameByte] using ends
  have cases : ∀ d ∈ utf8 ".[]\"#$ ", Bytes.isIdentifierByte d = false := by decide +kernel
  rw [cases c listed] at plain
  cases plain

theorem isNameByte_digits {s : Bytes} (digits : s.AllDigits) : ∀ c ∈ s, isNameByte c = true :=
  fun c inside => isNameByte_of (digits.isIdentifierByte c inside)

theorem forall_isNameByte_iff {name : Bytes} :
    (∀ c ∈ name, isNameByte c = true) ↔ ∀ c ∈ name, c ∉ utf8 ".[]\"#$ " := by
  simp [isNameByte]

/-- A text between quotes and what it stands for: a backslash takes the next byte as it is, other
bytes stand for themselves, and a quote needs a backslash. -/
inductive Quotes : Bytes → Bytes → Prop
  | nil : Quotes [] []
  | escaped (c : UInt8) {body content : Bytes} (more : Quotes body content) :
      Quotes (92 :: c :: body) (c :: content)
  | plain {c : UInt8} {body content : Bytes} (quote : c ≠ 34) (backslash : c ≠ 92)
      (more : Quotes body content) :
      Quotes (c :: body) (c :: content)

/-- The items of a written path and the steps they stand for. -/
inductive Item : Bytes → Segment → Prop
  | append : Item (utf8 "[]") (.array none)
  | position {digits : Bytes} (all : digits.AllDigits) (some : digits ≠ [])
      (small : digits.digitsValue < UInt64.size) :
      Item (utf8 "[" ++ digits ++ utf8 "]") (.array (.some digits.digitsValue))
  | ext {name : Bytes} (some : name ≠ []) (plain : ∀ c ∈ name, c ∉ utf8 ".[]\"#$ ") :
      Item (utf8 "$" ++ name) (.ext name)
  | text {body content : Bytes} (quotes : Quotes body content) :
      Item (utf8 "\"" ++ body ++ utf8 "\"") (.key (.text content))
  | tuple {digits : Bytes} {index : UInt8} (all : digits.AllDigits) (some : digits ≠ [])
      (value : digits.digitsValue = index.toNat) : Item (utf8 "#" ++ digits) (.tuple index)
  | natural {digits : Bytes} {i : Int64} (all : digits.AllDigits) (some : digits ≠ [])
      (value : i.toInt = digits.digitsValue) : Item digits (.key (.int i))
  | negative {digits : Bytes} {i : Int64} (all : digits.AllDigits) (some : digits ≠ [])
      (value : i.toInt = -(digits.digitsValue : Int)) : Item (utf8 "-" ++ digits) (.key (.int i))
  | ident {name : Bytes} (identifier : name.isIdentifier = true) : Item name (.ident name)

/-- The items behind an item: each behind one dot, or without a dot if it is in brackets. -/
inductive Follows : Bytes → Path → Prop
  | nil : Follows [] []
  | dot {written rest : Bytes} {s : Segment} {p : Path} (item : Item written s)
      (more : Follows rest p) :
      Follows (utf8 "." ++ written ++ rest) (s :: p)
  | bracket {written rest : Bytes} {s : Segment} {p : Path} (item : Item written s)
      (bracketed : s.isBracketed = true)
      (more : Follows rest p) : Follows (written ++ rest) (s :: p)

/-- One item or more, with nothing in front of the first. -/
inductive Items : Bytes → Path → Prop
  | intro {written rest : Bytes} {s : Segment} {p : Path} (first : Item written s)
      (more : Follows rest p) :
      Items (written ++ rest) (s :: p)

inductive Spelled : Bytes → Path → Prop
  | empty : Spelled [] []
  | root : Spelled (utf8 "(root)") []
  | items {s : Bytes} {p : Path} (items : Items s p) : Spelled s p

/-- Whether the item of a step is a name or a numeral, and not in brackets or quotes. -/
def IsNamed : Segment → Prop
  | .key (.text _) => False
  | .array _ => False
  | _ => True

def Closes (s : Bytes) : Prop :=
  ∀ c ∈ s.head?, isNameByte c = false

/-- A name ends where the text behind it closes it. -/
theorem Closes.split {tail : Bytes} (closes : Closes tail) {name : Bytes}
    (names : ∀ c ∈ name, isNameByte c = true) :
    (name ++ tail).takeWhile isNameByte = name ∧ (name ++ tail).dropWhile isNameByte = tail := by
  rw [List.takeWhile_append_of_pos names, List.dropWhile_append_of_pos names]
  cases tail with
  | nil => simp
  | cons c tail =>
      have ends : isNameByte c = false := closes c rfl
      simp [ends]

/-- A quoted text ends at the first quote without a backslash. -/
theorem readQuoted?_eq_some_iff {s content rest : Bytes} :
    readQuoted? s = some (content, rest) ↔
    ∃ body, Quotes body content ∧ s = body ++ 34 :: rest := by
  constructor
  · intro read
    fun_induction readQuoted? s generalizing content with
    | case1 => cases read
    | case2 s =>
        cases read
        exact ⟨[], .nil, rfl⟩
    | case3 c s ih =>
        obtain ⟨⟨content, rest⟩, more, ⟨⟩⟩ := Option.map_eq_some_iff.1 read
        obtain ⟨body, quotes, rfl⟩ := ih more
        exact ⟨92 :: c :: body, .escaped c quotes, rfl⟩
    | case4 c s quote escape ih =>
        obtain ⟨⟨content, rest⟩, more, ⟨⟩⟩ := Option.map_eq_some_iff.1 read
        obtain ⟨body, quotes, rfl⟩ := ih more
        -- a backslash here would be the last byte
        have backslash : c ≠ 92 := by
          rintro rfl
          cases body <;> exact escape _ _ rfl rfl
        exact ⟨c :: body, .plain quote backslash quotes, rfl⟩
  · rintro ⟨body, quotes, rfl⟩
    induction quotes with
    | nil => rfl
    | escaped c more ih =>
        rw [List.cons_append, List.cons_append, readQuoted?, ih]
        rfl
    | plain quote backslash more ih =>
        rw [List.cons_append, readQuoted?, ih]
        · rfl
        · exact quote
        · intro d rest same
          exact absurd same backslash

/-- Whether the reader takes a text off as a step without brackets, whatever stands behind it as
long as it closes it. -/
def Takes (written : Bytes) (s : Segment) : Prop :=
  ∃ c body, written = c :: body ∧ c ≠ 91 ∧ c ≠ 40 ∧
    ∀ offset tail, Closes tail → readItem offset c (body ++ tail) = .ok (s, tail)

/-- A text of identifier bytes is taken off as an integer, or else as an identifier. -/
theorem takes_plain {written : Bytes} (some : written ≠ [])
    (plain : ∀ c ∈ written, Bytes.isIdentifierByte c = true) {s : Segment}
    (read : (∃ i, Bytes.readInt64? written = .some i ∧ .key (.int i) = s) ∨
      Bytes.readInt64? written = none ∧ Bytes.isIdentifier written = true ∧ .ident written = s) :
    Takes written s := by
  cases written with
  | nil => exact absurd rfl some
  | cons c body =>
      have names : ∀ d ∈ c :: body, isNameByte d = true :=
        fun d inside => isNameByte_of (plain d inside)
      have other (d : UInt8) (strange : Bytes.isIdentifierByte d = false) : c ≠ d := by
        rintro rfl
        rw [plain c List.mem_cons_self] at strange
        cases strange
      refine ⟨c, body, rfl, other 91 (by decide), other 40 (by decide),
        fun offset tail closes => ?_⟩
      obtain ⟨taken, dropped⟩ :=
        closes.split fun d inside => names d (List.mem_cons_of_mem c inside)
      rw [readItem, if_neg (other 36 (by decide)), if_neg (other 34 (by decide)),
        if_neg (other 35 (by decide)), names c List.mem_cons_self, Bool.not_true,
        if_neg Bool.false_ne_true, taken, dropped]
      rcases read with ⟨i, read, rfl⟩ | ⟨noInteger, identifier, rfl⟩
      · dsimp only
        rw [read]
      · dsimp only
        rw [noInteger]
        exact if_pos identifier

/-- Every item without brackets is taken off. -/
theorem Item.takes {written : Bytes} {s : Segment} (item : Item written s)
    (plain : s.isBracketed = false) :
    Takes written s := by
  cases item with
  | append => cases plain
  | position => cases plain
  | @ext name some names =>
      refine ⟨36, name, rfl, by decide, by decide, fun offset tail closes => ?_⟩
      obtain ⟨taken, dropped⟩ := closes.split (forall_isNameByte_iff.2 names)
      rw [readItem, if_pos rfl, taken, dropped]
      exact if_neg (by simpa using some)
  | @text body content quotes =>
      refine ⟨34, body ++ [34], rfl, by decide, by decide, fun offset tail _ => ?_⟩
      have read : readQuoted? (body ++ [34] ++ tail) = some (content, tail) :=
        readQuoted?_eq_some_iff.2 ⟨body, quotes, List.append_assoc body [34] tail⟩
      rw [readItem, if_neg (by decide), if_pos rfl, read]
  | @tuple digits index all some value =>
      refine ⟨35, digits, rfl, by decide, by decide, fun offset tail closes => ?_⟩
      obtain ⟨taken, dropped⟩ := closes.split (isNameByte_digits all)
      rw [readItem, if_neg (by decide), if_neg (by decide), if_pos rfl, taken, dropped]
      dsimp only
      rw [Numeral.readNat?_digits all some (value ▸ index.toNat_lt), value]
      simp
  | natural all some value =>
      exact takes_plain some all.isIdentifierByte
        (.inl ⟨_, Bytes.readInt64?_eq_some_iff.2 ⟨_, all, some, .inl ⟨rfl, value⟩⟩, rfl⟩)
  | @negative digits i all some value =>
      exact takes_plain (List.cons_ne_nil 45 digits) (List.forall_mem_cons.2 ⟨by decide, all.isIdentifierByte⟩)
        (.inl ⟨_, Bytes.readInt64?_eq_some_iff.2 ⟨_, all, some, .inr ⟨rfl, value⟩⟩, rfl⟩)
  | ident identifier =>
      cases written with
      | nil => cases identifier
      | cons c body =>
          obtain ⟨plain, unsigned, all⟩ := Bytes.isIdentifier_cons identifier
          exact takes_plain (List.cons_ne_nil c body) all
            (.inr ⟨Bytes.readInt64?_eq_none plain unsigned, identifier, rfl⟩)

/-- The position between brackets ends at the closing one. -/
theorem Item.readIndex_eq {written : Bytes} {s : Segment} (item : Item written s)
    (bracketed : s.isBracketed = true) (offset : Nat) (tail : Bytes) :
    ∃ body, written = 91 :: body ∧ readIndex offset (body ++ tail) = .ok (s, tail) := by
  cases item with
  | append => exact ⟨[93], rfl, rfl⟩
  | @position digits all some small =>
      have inside : ∀ c ∈ digits, (c != 93) = true := by
        intro c inside
        rw [bne_iff_ne]
        rintro rfl
        exact absurd (all 93 inside) (by decide)
      have behind : digits ++ [93] ++ tail = digits ++ 93 :: tail := List.append_assoc ..
      have given : digits.isEmpty = false := by simpa using some
      refine ⟨digits ++ [93], rfl, ?_⟩
      rw [behind, readIndex, List.takeWhile_append_of_pos inside,
        List.dropWhile_append_of_pos inside, List.takeWhile_cons_of_neg (by decide),
        List.dropWhile_cons_of_neg (by decide), List.append_nil]
      simp [given, Numeral.readNat?_digits all some small]
  | _ => cases bracketed

theorem Item.names {written : Bytes} {s : Segment} (item : Item written s) (named : IsNamed s) :
    ∃ mark name, written = mark ++ name ∧ mark ∈ [utf8 "$", utf8 "#", []] ∧
      ∀ c ∈ name, isNameByte c = true := by
  cases item with
  | append => cases named
  | position => cases named
  | text => cases named
  | @ext name some names => exact ⟨utf8 "$", name, rfl, by simp, forall_isNameByte_iff.2 names⟩
  | @tuple digits index all some value =>
      exact ⟨utf8 "#", digits, rfl, by simp, isNameByte_digits all⟩
  | natural all some value => exact ⟨[], written, rfl, by simp, isNameByte_digits all⟩
  | @negative digits i all some value =>
      exact ⟨[], 45 :: digits, rfl,
        by simp, List.forall_mem_cons.2 ⟨by decide, isNameByte_digits all⟩⟩
  | ident identifier =>
      cases written with
      | nil => cases identifier
      | cons c body =>
          have plain := (Bytes.isIdentifier_cons identifier).2.2
          exact ⟨[], c :: body, rfl, by simp, fun d inside => isNameByte_of (plain d inside)⟩

/-- A name or a numeral takes all bytes of names up to the text that closes it. -/
theorem Item.run {written tail : Bytes} {s : Segment} (item : Item written s) (named : IsNamed s)
    (closes : Closes tail) :
    ∃ mark name, written = mark ++ name ∧ mark ∈ [utf8 "$", utf8 "#", []] ∧
      (name ++ tail).takeWhile isNameByte = name ∧ (name ++ tail).dropWhile isNameByte = tail := by
  obtain ⟨mark, name, same, marked, names⟩ := item.names named
  exact ⟨mark, name, same, marked, closes.split names⟩

/-- What happens at an opening bracket. -/
theorem readItems_index (length : Nat) (expecting : Bool) (s : Bytes) :
    readItems length expecting (91 :: s) =
      (readIndex (length - (91 :: s).length) s).bind fun (seg, rest) =>
      (readItems length false rest).map (seg :: ·) := by
  rw [readItems, if_pos rfl]
  split
  · next e failed =>
    rw [failed]
    rfl
  · next seg rest taken =>
    rw [taken]
    rfl

/-- What happens at any other byte where an item is expected. -/
theorem readItems_item (length : Nat) {c : UInt8} (plain : c ≠ 91) (s : Bytes) :
    readItems length true (c :: s) =
      (readItem (length - (c :: s).length) c s).bind fun (seg, rest) =>
      (readItems length false rest).map (seg :: ·) := by
  rw [readItems, if_neg plain, if_pos rfl]
  split
  · next e failed =>
    rw [failed]
    rfl
  · next seg rest taken =>
    rw [taken]
    rfl

theorem readItems_dot (length : Nat) (s : Bytes) :
    readItems length false (46 :: s) = readItems length true s := by
  rw [readItems, if_neg (by decide), if_neg Bool.false_ne_true, if_pos rfl]

theorem Item.readItems_eq_of_bracketed {written : Bytes} {s : Segment} (item : Item written s)
    (bracketed : s.isBracketed = true) (length : Nat) (expecting : Bool) (tail : Bytes) :
    readItems length expecting (written ++ tail) = (readItems length false tail).map (s :: ·) := by
  obtain ⟨body, rfl, read⟩ := item.readIndex_eq bracketed (length - (written ++ tail).length) tail
  rw [List.cons_append] at read ⊢
  rw [readItems_index, read]
  rfl

/-- An item is taken off where it is expected. -/
theorem Item.readItems_eq {written tail : Bytes} {s : Segment} (item : Item written s)
    (closes : Closes tail) (length : Nat) :
    readItems length true (written ++ tail) = (readItems length false tail).map (s :: ·) := by
  cases bracketed : s.isBracketed with
  | true => exact item.readItems_eq_of_bracketed bracketed length true tail
  | false =>
      obtain ⟨c, body, rfl, plain, -, reads⟩ := item.takes bracketed
      rw [List.cons_append, readItems_item length plain, reads _ tail closes]
      rfl

/-- Behind an item no name goes on. -/
theorem Follows.closes {s : Bytes} {p : Path} (follows : Follows s p) : Closes s := by
  cases follows with
  | nil => simp [Closes]
  | dot item more =>
      intro c first
      cases first
      decide
  | bracket item bracketed more =>
      obtain ⟨body, rfl, -⟩ := item.readIndex_eq bracketed 0 []
      intro c first
      cases first
      decide

/-- The items behind an item are read one after the other. The induction is on the items. -/
theorem Follows.readItems_eq {s : Bytes} {p : Path} (follows : Follows s p) (length : Nat) :
    readItems length false s = .ok p := by
  induction follows with
  | nil => rw [readItems, if_neg Bool.false_ne_true]
  | @dot written rest s p item more ih =>
      change readItems length false (46 :: (written ++ rest)) = _
      rw [readItems_dot, item.readItems_eq more.closes, ih]
      rfl
  | bracket item bracketed more ih =>
      rw [item.readItems_eq_of_bracketed bracketed, ih]
      rfl

/-- An item is not empty and does not begin with a parenthesis. -/
theorem Item.head {written : Bytes} {s : Segment} (item : Item written s) :
    ∃ c body, written = c :: body ∧ c ≠ 40 := by
  cases bracketed : s.isBracketed with
  | true =>
      obtain ⟨body, rfl, -⟩ := item.readIndex_eq bracketed 0 []
      exact ⟨91, body, rfl, by decide⟩
  | false =>
      obtain ⟨c, body, rfl, -, plain, -⟩ := item.takes bracketed
      exact ⟨c, body, rfl, plain⟩

/-- Every text of the grammar is read as the path that it spells. -/
theorem Spelled.parse_eq {s : Bytes} {p : Path} (spelled : Spelled s p) : parse s = .ok p := by
  cases spelled with
  | empty => rfl
  | root => rfl
  | items items =>
      obtain ⟨first, more⟩ := items
      obtain ⟨c, body, rfl, opened⟩ := first.head
      rw [parse, if_neg, first.readItems_eq more.closes, more.readItems_eq]
      · rfl
      · rintro (empty | root)
        · cases empty
        · exact opened (List.cons.inj root).1

theorem Items.dot {s : Bytes} {p : Path} (items : Items s p) : Follows (46 :: s) p := by
  obtain ⟨first, more⟩ := items
  exact .dot first more

/-- What is taken off between brackets is an item. -/
theorem item_of_readIndex {offset : Nat} {s rest : Bytes} {seg : Segment} :
    readIndex offset s = .ok (seg, rest) →
      ∃ written, Item written seg ∧ seg.isBracketed = true ∧ 91 :: s = written ++ rest := by
  -- the search stops at a closing bracket
  have whole {c : UInt8} {after : Bytes} (found : s.dropWhile (· != 93) = c :: after) :
      s = s.takeWhile (· != 93) ++ 93 :: after := by
    have joined := List.takeWhile_append_dropWhile (p := (· != 93)) (l := s)
    have stops := List.head?_dropWhile_not (· != 93) s
    rw [found] at joined stops
    have bracket : c = 93 := by simpa using stops
    rw [bracket] at joined
    exact joined.symm
  fun_cases readIndex offset s with
  | case2 digits c after found empty =>
      rintro ⟨⟩
      have taken : s.takeWhile (· != 93) = [] := List.isEmpty_iff.1 empty
      refine ⟨utf8 "[]", .append, rfl, ?_⟩
      rw [whole found, taken]
      rfl
  | case3 digits c after found given index numeral =>
      rintro ⟨⟩
      obtain ⟨all, some, small, rfl⟩ := Bytes.readNat?_eq_some_iff.1 numeral
      refine ⟨_, .position all some small, rfl, ?_⟩
      have behind : digits ++ [93] ++ rest = s := (List.append_assoc ..).trans (whole found).symm
      exact congrArg (91 :: ·) behind.symm
  | _ => rintro ⟨⟩

/-- What is taken off without brackets is an item. -/
theorem item_of_readItem {offset : Nat} {c : UInt8} {s rest : Bytes} {seg : Segment} :
    readItem offset c s = .ok (seg, rest) →
    ∃ written, Item written seg ∧ c :: s = written ++ rest := by
  have whole : s = s.takeWhile isNameByte ++ s.dropWhile isNameByte :=
    List.takeWhile_append_dropWhile.symm
  fun_cases readItem offset c s with
  | case2 extension name some =>
      rintro ⟨⟩
      have names : ∀ d ∈ name, isNameByte d = true := List.all_eq_true.1 List.all_takeWhile
      refine ⟨_, .ext (by simpa using some) (forall_isNameByte_iff.1 names), ?_⟩
      rw [extension]
      exact congrArg (36 :: ·) whole
  | case3 _ quote content after closed =>
      rintro ⟨⟩
      obtain ⟨body, quotes, rfl⟩ := readQuoted?_eq_some_iff.1 closed
      refine ⟨_, .text quotes, ?_⟩
      rw [quote]
      exact congrArg (34 :: ·) (List.append_assoc body [34] rest).symm
  | case5 _ _ hash digits index numeral =>
      rintro ⟨⟩
      obtain ⟨all, some, small, rfl⟩ := Bytes.readNat?_eq_some_iff.1 numeral
      have value : Bytes.digitsValue digits = (Bytes.digitsValue digits).toUInt8.toNat := by
        simp [Nat.mod_eq_of_lt small]
      refine ⟨_, .tuple all some value, ?_⟩
      rw [hash]
      exact congrArg (35 :: ·) whole
  | case8 _ _ _ _ name i integer =>
      rintro ⟨⟩
      have written : Item name (.key (.int i)) := by
        obtain ⟨digits, all, some, ⟨same, value⟩ | ⟨same, value⟩⟩ :=
          Bytes.readInt64?_eq_some_iff.1 integer
        · exact same ▸ .natural all some value
        · exact same ▸ .negative all some value
      exact ⟨name, written, congrArg (c :: ·) whole⟩
  | case9 _ _ _ _ name _ identifier =>
      rintro ⟨⟩
      exact ⟨name, .ident identifier, congrArg (c :: ·) whole⟩
  | _ => rintro ⟨⟩

theorem map_cons_eq_ok {items : Except PathSyntaxError Path} {seg : Segment} {p : Path}
    (read : items.map (seg :: ·) = .ok p) : ∃ q, items = .ok q ∧ p = seg :: q := by
  cases items with
  | error e => cases read
  | ok q =>
      cases read
      exact ⟨q, rfl, rfl⟩

/-- What is read are the items of the grammar. The induction is on the calls of the reader. -/
theorem items_of_readItems {length : Nat} {expecting : Bool} {s : Bytes} {p : Path}
    (read : readItems length expecting s = .ok p) :
    if expecting then Items s p else Follows s p := by
  induction expecting, s using readItems.induct length generalizing p
  case case1 => simp [readItems] at read
  case case2 expecting plain =>
    rw [readItems, if_neg plain] at read
    cases read
    rw [if_neg plain]
    exact .nil
  case case3 expecting s e offset failed =>
    rw [readItems_index, failed] at read
    cases read
  case case4 expecting s seg rest offset taken ih =>
    rw [readItems_index, taken] at read
    obtain ⟨q, others, rfl⟩ := map_cons_eq_ok read
    obtain ⟨written, item, bracketed, same⟩ := item_of_readIndex taken
    rw [same]
    split
    · exact .intro item (ih others)
    · exact .bracket item bracketed (ih others)
  case case5 c s plain e offset failed =>
    rw [readItems_item length plain, failed] at read
    cases read
  case case6 c s plain seg rest offset taken ih =>
    rw [readItems_item length plain, taken] at read
    obtain ⟨q, others, rfl⟩ := map_cons_eq_ok read
    obtain ⟨written, item, same⟩ := item_of_readItem taken
    rw [same]
    exact .intro item (ih others)
  case case7 expecting s unexpecting plain ih =>
    rw [Bool.not_eq_true] at unexpecting
    subst unexpecting
    rw [readItems_dot] at read
    exact (ih read).dot
  case case8 expecting c s plain unexpecting dot =>
    rw [readItems, if_neg plain, if_neg unexpecting, if_neg dot] at read
    cases read

/-- Only texts of the grammar are read. -/
theorem spelled_of_parse {s : Bytes} {p : Path} (read : parse s = .ok p) : Spelled s p := by
  unfold parse at read
  split at read
  · next special =>
    cases read
    rcases special with rfl | rfl
    · exact .empty
    · exact .root
  · exact .items (items_of_readItems read)

end Path

end DocSchema
