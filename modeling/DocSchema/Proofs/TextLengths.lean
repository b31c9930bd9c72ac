import DocSchema.Proofs.Origins

set_option autoImplicit false

namespace DocSchema

namespace Bytes

variable {b mask mark : UInt8}

/-- Only the mark of a byte tells whether it continues another, not the bits that it has of the
scalar value. -/
theorem isContinuation_mark (b : UInt8) (low : mask &&& 0xC0 = 0) :
    isContinuation (b &&& mask ||| mark) = isContinuation mark := by
  have distrib : (b &&& mask ||| mark) &&& 0xC0 = b &&& mask &&& 0xC0 ||| mark &&& 0xC0 :=
    UInt8.toBitVec_inj.1 BitVec.and_or_distrib_right
  rw [isContinuation, isContinuation, distrib, UInt8.and_assoc, low, UInt8.and_zero, UInt8.zero_or]

theorem isContinuation_ascii (ascii : b < 0x80) : isContinuation b = false := by
  rw [isContinuation, beq_eq_false_iff_ne]
  intro continues
  -- A mask sets no bits, so a byte that shows the mark of a trail is no smaller than the mark.
  have below : (b &&& 0xC0).toNat ≤ b.toNat := by
    rw [UInt8.toNat_and]
    exact Nat.and_le_left
  rw [continues] at below
  exact absurd (UInt8.lt_iff_toNat_lt.1 ascii) (Nat.not_lt.2 below)

theorem codePoints_cons (b : UInt8) (s : Bytes) :
    codePoints (b :: s) = (if isContinuation b then 0 else 1) + codePoints s := by
  rw [codePoints, codePoints, List.countP_cons, Nat.add_comm]
  cases isContinuation b <;> rfl

theorem codePoints_append (s t : Bytes) : codePoints (s ++ t) = codePoints s + codePoints t :=
  List.countP_append

/-- Of the bytes that encode one scalar value, exactly the first continues no other. -/
theorem codePoints_encodeChar (c : Char) : codePoints (String.utf8EncodeChar c) = 1 := by
  have trail (b : UInt8) : isContinuation (b &&& 0x3F ||| 0x80) = true :=
    isContinuation_mark b (by decide)
  -- An encoding is a lead, by its mark one of its length, and trails of six bits each.
  obtain one | two | three | four := c.utf8Size_eq
  · have ascii : c.val.toUInt8 < 0x80 := by
      have small := UInt32.le_iff_toNat_le.1 (Char.utf8Size_eq_one_iff.1 one)
      rw [UInt8.lt_iff_toNat_lt, UInt32.toNat_toUInt8]
      exact Nat.lt_of_le_of_lt (Nat.mod_le _ _) (Nat.lt_succ_of_le small)
    rw [String.utf8EncodeChar_eq_singleton one, codePoints_cons, isContinuation_ascii ascii]
    rfl
  · have lead (b : UInt8) : isContinuation (b &&& 0x1F ||| 0xC0) = false :=
      isContinuation_mark b (by decide)
    rw [String.utf8EncodeChar_eq_cons_cons two]
    simp only [codePoints_cons, lead, trail]
    rfl
  · have lead (b : UInt8) : isContinuation (b &&& 0x0F ||| 0xE0) = false :=
      isContinuation_mark b (by decide)
    rw [String.utf8EncodeChar_eq_cons_cons_cons three]
    simp only [codePoints_cons, lead, trail]
    rfl
  · have lead (b : UInt8) : isContinuation (b &&& 0x07 ||| 0xF0) = false :=
      isContinuation_mark b (by decide)
    rw [String.utf8EncodeChar_eq_cons_cons_cons_cons four]
    simp only [codePoints_cons, lead, trail]
    rfl

/-- An encoded text has as many code points as it has scalar values. -/
theorem codePoints_encode (cs : List Char) :
    codePoints (cs.flatMap String.utf8EncodeChar) = cs.length := by
  induction cs with
  | nil => rfl
  | cons c cs ih =>
      rw [List.flatMap_cons, codePoints_append, codePoints_encodeChar, ih, List.length_cons,
        Nat.add_comm]

end Bytes

/-- Whether a number lies below the least or above the greatest that is set. -/
def Counts.Excludes (c : Counts) (n : Nat) : Prop :=
  (∃ min ∈ c.min, n < min) ∨ ∃ max ∈ c.max, max < n

instance (c : Counts) (n : Nat) : Decidable (c.Excludes n) :=
  inferInstanceAs (Decidable ((∃ min ∈ c.min, n < min) ∨ ∃ max ∈ c.max, max < n))

theorem Counts.admits_eq (c : Counts) (n : Nat) : c.admits n = !decide (c.Excludes n) := by
  rw [Bool.eq_iff_iff, Bool.not_eq_true', decide_eq_false_iff_not, admits, Excludes, not_or,
    Bool.and_eq_true]
  simp only [Option.all_eq_true, Option.mem_def, decide_eq_true_eq, not_exists, not_and, Nat.not_lt]

/-- Whether an error tells that a text is too short or too long. -/
def Finding.deniesLength (e : Finding) : Bool :=
  e.mismatch.kind == utf8 "LengthOutOfBounds"

/-- Whether a walk comes to `a` and no error on its way tells of the length of a text. -/
def Walker.OmitsLengths {α : Type} (x : Walker α) (a : α) : Prop :=
  ∃ f, x.log = .ok (a, f) ∧ f.errors.filter Finding.deniesLength = []

namespace Walker.OmitsLengths

theorem of_log {α : Type} {x : Walker α} {a : α} {f : Findings} (logged : x.log = .ok (a, f))
    (silent : f.errors = []) :
    x.OmitsLengths a :=
  ⟨f, logged, by rw [silent, List.filter_nil]⟩

theorem expect (holds : Bool) (path : Path) {m : Mismatch}
    (other : m.kind ≠ utf8 "LengthOutOfBounds") :
    (Check.expect holds path m).OmitsLengths () := by
  refine ⟨_, Check.log_expect holds path m, ?_⟩
  cases holds <;> simp [Finding.deniesLength, other]

theorem language (expected : Option Bytes) (t : Text) (path : Path) :
    (Check.language expected t path).OmitsLengths () := by
  unfold Check.language
  split
  · exact expect _ path (by rw [Mismatch.kind]; decide)
  · exact of_log (log_pure ()) rfl

theorem pattern {p : Option Bytes} (t : Text) (path : Path)
    (compiles : ∀ q ∈ p, (Pattern.compile? q).isSome = true) :
    (Check.pattern p t path).OmitsLengths () := by
  cases p with
  | none => exact of_log (log_pure ()) rfl
  | some q =>
      obtain ⟨compiled, found⟩ := Option.isSome_iff_exists.1 (compiles q rfl)
      unfold Check.pattern
      simp only [found]
      exact expect _ path (by rw [Mismatch.kind]; decide)

end Walker.OmitsLengths

namespace Check

/-- Whether a check at `path` takes a text to be of length `n`: it tells so once if the bounds
exclude `n`, and otherwise says nothing of lengths. -/
structure Measures (x : Check) (n : Nat) (bounds : Counts) (pattern : Option Bytes) (path : Path) :
    Prop where
  /-- A pattern that does not compile leaves the check without a result. -/
  aborts : ∀ p ∈ pattern, Pattern.compile? p = none → x.log = .error ⟨path, .invalidPattern p⟩
  /-- With any other pattern, or without one, the check ends. -/
  reports : (∀ p ∈ pattern, (Pattern.compile? p).isSome = true) → ∃ f, x.log = .ok ((), f) ∧
    f.errors.filter Finding.deniesLength = if bounds.Excludes n then [⟨path, .textLength n bounds⟩] else []

namespace Measures

variable {α : Type} {x y : Check} {n : Nat} {bounds : Counts} {p : Option Bytes} {path : Path}

theorem of_log (same : x.log = y.log) (measures : Measures y n bounds p path) :
    Measures x n bounds p path where
  aborts q member broken := same.trans (measures.aborts q member broken)
  reports compiles := by
    rw [same]
    exact measures.reports compiles

theorem after {first : Walker α} {a : α} {next : α → Check} (omits : first.OmitsLengths a)
    (measures : Measures (next a) n bounds p path) : Measures (first >>= next) n bounds p path := by
  obtain ⟨f, logged, silent⟩ := omits
  constructor
  · intro q member broken
    exact Walker.log_bind_ok_error logged (measures.aborts q member broken)
  · intro compiles
    obtain ⟨g, measured, told⟩ := measures.reports compiles
    refine ⟨f ++ g, Walker.log_bind_ok logged measured, ?_⟩
    rw [Findings.errors_append, List.filter_append, silent, List.nil_append, told]

/-- A text is taken to be as long as it has code points. -/
theorem text (bounds : Counts) (p language : Option Bytes) (t : Text) (path : Path) :
    Measures (Check.text bounds p language t path) (Bytes.codePoints t.content) bounds p path := by
  refine after (.language language t path) ?_
  generalize Bytes.codePoints t.content = n
  have measured := log_expect (bounds.admits n) path (.textLength n bounds)
  constructor
  · intro q member broken
    cases Option.mem_def.1 member
    refine Walker.log_bind_ok_error measured ?_
    unfold pattern
    simp only [broken]
    rfl
  · intro compiles
    obtain ⟨g, matched, silent⟩ := Walker.OmitsLengths.pattern t path compiles
    refine ⟨_, Walker.log_bind_ok measured matched, ?_⟩
    rw [Findings.errors_append, List.filter_append, silent, List.append_nil]
    have kind : Finding.deniesLength ⟨path, .textLength n bounds⟩ = true := beq_self_eq_true _
    by_cases excluded : bounds.Excludes n <;> simp [bounds.admits_eq, excluded, kind]

section Schema

variable {schema : Schema} {id target : SchemaId} {language : Option Bytes} {metadata : Metadata}

/-- Before the text itself, references are followed and a deprecated type is warned of, and neither
is an error. -/
theorem check (found : schema.resolve id = .found target ⟨.text bounds p language, metadata⟩)
    (settings : Settings)
    (level : Nat) {s : Site} {t : Text} (text : s.value.content = .primitive (.text t)) :
    Measures (schema.check settings (level + 1) id s)
      (Bytes.codePoints t.content) bounds p s.path := by
  have filled : s.value.content.isHole = false := by
    rw [text]
    rfl
  have held : s.value.text? = some t := by
    rw [Value.text?, text]
    rfl
  refine of_log (Schema.check_log found) ?_
  rw [filled, if_neg Bool.false_ne_true]
  refine after (.of_log (Schema.deprecation_log _ _) rfl) ?_
  unfold Walk.shape
  simp only [held]
  exact .text bounds p language t s.path

theorem key (found : schema.resolve id = .found target ⟨.text bounds p language, metadata⟩)
    {k : Key} {s : Bytes} (text : k.value = .text s) (path : Path) :
    Measures (Check.key schema id k path) (Bytes.codePoints s) bounds p path := by
  refine after (.of_log (Schema.follow_log found) rfl) ?_
  dsimp only
  rw [text]
  exact .text bounds p language ⟨s, .plaintext⟩ path

end Schema

end Measures

end Check

/-- The length of an encoded text is the number of its scalar values. A text that is checked against
a type of texts, be it a value or the key of a map, is told to be out of bounds if and only if that
number is, and then once. -/
theorem Schema.check_counts_scalars {schema : Schema} {id target : SchemaId} {bounds : Counts}
    {pattern language : Option Bytes} {metadata : Metadata}
    (found : schema.resolve id = .found target ⟨.text bounds pattern language, metadata⟩)
    (cs : List Char) :
    Bytes.codePoints (cs.flatMap String.utf8EncodeChar) = cs.length ∧
      (∀ settings level s l,
        s.value.content = .primitive (.text ⟨cs.flatMap String.utf8EncodeChar, l⟩) →
        Check.Measures (schema.check settings (level + 1) id s) cs.length bounds pattern s.path) ∧
      ∀ k path, k.value = .text (cs.flatMap String.utf8EncodeChar) →
        Check.Measures (Check.key schema id k path) cs.length bounds pattern path := by
  have counted := Bytes.codePoints_encode cs
  refine ⟨counted, fun settings level s l text => ?_, fun k path text => ?_⟩
  · exact counted ▸ Check.Measures.check found settings level text
  · exact counted ▸ Check.Measures.key found text path

/-- Texts of five to nine scalar values with a digit or an `h` in them, and a reference to them. -/
private def codes : Schema where
  nodes := #[⟨.text ⟨some 5, some 9⟩ (some (utf8 "[0-9h]")) none, {}⟩, ⟨.reference "Code", {}⟩]
  types := [(utf8 "Code", 0)]
  distinct := List.nodup_singleton _

private def graded : Bytes :=
  [0x68, 0xC3, 0xA9, 0xE2, 0x82, 0xAC, 0xF0, 0x9F, 0x98, 0x80]

/-- Four scalar values are too few, as a value and as a key, although their ten bytes would be too
many. -/
theorem check_counts_scalars_graded :
    codes.resolve 1 = .found 0 ⟨.text ⟨some 5, some 9⟩ (some (utf8 "[0-9h]")) none, {}⟩ ∧
      (∃ f, (codes.check {} 1 1 ⟨.of (.primitive (.text ⟨graded, .plaintext⟩)), [], []⟩).log =
        .ok ((), f) ∧
        f.errors.filter Finding.deniesLength = [⟨[], .textLength 4 ⟨some 5, some 9⟩⟩]) ∧
      ∃ f, (Check.key codes 1 (.ident graded) [.ident graded]).log = .ok ((), f) ∧
        f.errors.filter Finding.deniesLength =
          [⟨[.ident graded], .textLength 4 ⟨some 5, some 9⟩⟩] := by
  have found : codes.resolve 1 = .found 0 ⟨.text ⟨some 5, some 9⟩ (some (utf8 "[0-9h]")) none, {}⟩ := rfl
  have encoded : graded = ([0x68, 0xE9, 0x20AC, 0x1F600].map Char.ofNat).flatMap String.utf8EncodeChar := by
    decide +kernel
  have compiles : ∀ p ∈ some (utf8 "[0-9h]"), (Pattern.compile? p).isSome = true := by
    rintro _ ⟨⟩
    decide +kernel
  obtain ⟨-, value, key⟩ :=
    Schema.check_counts_scalars found ([0x68, 0xE9, 0x20AC, 0x1F600].map Char.ofNat)
  rw [← encoded] at value key
  refine ⟨found, ?_, ?_⟩
  · exact (value {} 0 ⟨.of (.primitive (.text ⟨graded, .plaintext⟩)), [],
      []⟩ .plaintext rfl).reports compiles
  · exact (key (.ident graded) [.ident graded] rfl).reports compiles

end DocSchema
