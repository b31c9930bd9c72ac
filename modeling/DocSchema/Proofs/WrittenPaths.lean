import DocSchema.Proofs.PathGrammar

set_option autoImplicit false

namespace DocSchema

namespace Segment

/-- Whether a step can be read back: an identifier is one, an extension has a name without the bytes
that end names, and a position in an array fits 64 bits. Keys may be any literals. -/
def IsReadable : Segment → Prop
  | .ident name => Bytes.isIdentifier name = true
  | .ext name => name ≠ [] ∧ ∀ c ∈ name, c ∉ utf8 ".[]\"#$ "
  | .array (some index) => index < UInt64.size
  | _ => True

/-- What the written form of a step reads as: truth values are read as names. -/
def reread : Segment → Segment
  | .key (.bool b) => .ident (truthText b)
  | s => s

def isTruthKey : Segment → Bool
  | .key (.bool _) => true
  | _ => false

theorem reread_eq {s : Segment} (plain : s.isTruthKey = false) : s.reread = s := by
  cases s with
  | key l =>
      cases l with
      | bool b => cases plain
      | _ => rfl
  | _ => rfl

@[simp] theorem isBracketed_reread (s : Segment) : s.reread.isBracketed = s.isBracketed := by
  cases s with
  | key l => cases l <;> rfl
  | _ => rfl

end Segment

namespace Path

theorem quotes_escape (s : Bytes) : Quotes (Bytes.escape s) s := by
  induction s with
  | nil => exact .nil
  | cons c s ih =>
      unfold Bytes.escape
      by_cases special : c = 34 ∨ c = 92
      · rw [if_pos special]
        exact .escaped c ih
      · obtain ⟨quote, backslash⟩ := not_or.1 special
        rw [if_neg special]
        exact .plain quote backslash ih

theorem item_ofInt (i : Int64) : Item (Bytes.ofInt i.toInt) (.key (.int i)) := by
  obtain ⟨digits, some, value⟩ := Bytes.ofNat_spec i.toInt.natAbs
  unfold Bytes.ofInt
  split
  · exact .negative digits some (by omega)
  · exact .natural digits some (by omega)

/-- A step that can be read back is written as an item. -/
theorem item_render {s : Segment} (readable : s.IsReadable) : Item s.render s.reread := by
  cases s with
  | ident name => exact .ident readable
  | ext name => exact .ext readable.1 readable.2
  | key l =>
      cases l with
      | text s => exact .text (quotes_escape s)
      | int i => exact item_ofInt i
      | bool b => exact .ident (by cases b <;> decide)
  | tuple index =>
      obtain ⟨digits, some, value⟩ := Bytes.ofNat_spec index.toNat
      exact .tuple digits some value
  | array index =>
      cases index with
      | none => exact .append
      | some i =>
          obtain ⟨digits, some, value⟩ := Bytes.ofNat_spec i
          have item := Item.position digits some (value.symm ▸ readable)
          rw [value] at item
          exact item

/-- The steps behind a step are written as the items behind an item. -/
theorem follows_renderTail {p : Path} (readable : ∀ s ∈ p, s.IsReadable) :
    Follows (renderTail p) (p.map Segment.reread) := by
  induction p with
  | nil => exact .nil
  | cons s rest ih =>
      obtain ⟨first, others⟩ := List.forall_mem_cons.1 readable
      rw [renderTail, List.map_cons]
      split
      · next bracketed =>
        rw [← Segment.isBracketed_reread] at bracketed
        exact .bracket (item_render first) bracketed (ih others)
      · exact .dot (item_render first) (ih others)

theorem spelled_render {p : Path} (readable : ∀ s ∈ p, s.IsReadable) :
    Spelled p.render (p.map Segment.reread) := by
  cases p with
  | nil => exact .root
  | cons s rest =>
      obtain ⟨first, others⟩ := List.forall_mem_cons.1 readable
      exact .items (.intro (item_render first) (follows_renderTail others))

/-- A path without truth values as keys is read from its written form. -/
theorem parse_render_eq {p : Path} (plain : ∀ s ∈ p, s.IsReadable ∧ s.isTruthKey = false) :
    parse p.render = .ok p := by
  rw [(spelled_render fun s inside => (plain s inside).1).parse_eq,
    List.map_congr_left fun s inside => Segment.reread_eq (plain s inside).2, List.map_id']

/-- Reading undoes writing, but for truth values as keys, which are written like names. So paths
without such keys are told apart by what they are written as. -/
theorem parse_render :
    (∀ p : Path, (∀ s ∈ p, s.IsReadable) → parse p.render = .ok (p.map Segment.reread)) ∧
      ∀ p q : Path, (∀ s ∈ p, s.IsReadable ∧ s.isTruthKey = false) →
        (∀ s ∈ q, s.IsReadable ∧ s.isTruthKey = false) → p.render = q.render → p = q := by
  refine ⟨fun p readable => (spelled_render readable).parse_eq, fun p q left right same => ?_⟩
  have same :=
    (parse_render_eq left).symm.trans ((congrArg parse same).trans (parse_render_eq right))
  exact Except.ok.inj same

/-- Text keys may hold quotes, backslashes, brackets and dots; a truth value comes back as a
name. -/
theorem parse_render_quoted :
    let p : Path := [.array none, .key (.text "a\"].\\"), .array (some 7), .key (.int (-5)),
      .ext "0-x", .tuple 255,
      .key (.text []), .key (.bool true)]
    (∀ s ∈ p, s.IsReadable) ∧ parse p.render = .ok (p.map Segment.reread) ∧
      p.render = utf8 "[].\"a\\\"].\\\\\"[7].-5.$0-x.#255.\"\".true" := by
  intro p
  have readable : ∀ s ∈ p, s.IsReadable := by
    simp [p, Segment.IsReadable]
    decide +kernel
  exact ⟨readable, parse_render.1 p readable, by decide +kernel⟩

/-- An item stands for a step that is written as an item again. -/
theorem Item.plain {written : Bytes} {s : Segment} (item : Item written s) :
    s.IsReadable ∧ s.isTruthKey = false := by
  cases item with
  | position all some small => exact ⟨small, rfl⟩
  | ext some plain => exact ⟨⟨some, plain⟩, rfl⟩
  | ident identifier => exact ⟨identifier, rfl⟩
  | _ => exact ⟨trivial, rfl⟩

theorem Follows.plain {s : Bytes} {p : Path} (follows : Follows s p) :
    ∀ s ∈ p, s.IsReadable ∧ s.isTruthKey = false := by
  induction follows with
  | nil => simp
  | dot item more ih => exact List.forall_mem_cons.2 ⟨item.plain, ih⟩
  | bracket item bracketed more ih => exact List.forall_mem_cons.2 ⟨item.plain, ih⟩

theorem Spelled.plain {s : Bytes} {p : Path} (spelled : Spelled s p) :
    ∀ s ∈ p, s.IsReadable ∧ s.isTruthKey = false := by
  cases spelled with
  | empty => simp
  | root => simp
  | items items =>
      obtain ⟨first, more⟩ := items
      exact List.forall_mem_cons.2 ⟨first.plain, more.plain⟩

/-- Exactly the texts of the grammar are read, each as the path that it spells. Its names and
numerals take all bytes of names that there are, and the path is read again from its own written
form. -/
theorem parse_accepts :
    (∀ (s : Bytes) (p : Path), parse s = .ok p ↔ Spelled s p) ∧
      (∀ (written rest : Bytes) (s : Segment) (p : Path), Item written s → IsNamed s →
        Follows rest p →
        ∃ mark name, written = mark ++ name ∧ mark ∈ [utf8 "$", utf8 "#", []] ∧
          (name ++ rest).takeWhile isNameByte = name ∧ (name ++ rest).dropWhile isNameByte = rest) ∧
      ∀ (s : Bytes) (p : Path), parse s = .ok p → parse p.render = .ok p := by
  refine ⟨fun s p => ⟨spelled_of_parse, Spelled.parse_eq⟩, ?_, ?_⟩
  · intro written rest s p item named more
    exact item.run named more.closes
  · intro s p read
    exact parse_render_eq (spelled_of_parse read).plain

/-- A path may be spelled with a dot before a bracket, with leading zeros and with escapes that are
not needed. -/
theorem parse_accepts_mixed :
    let p : Path := [.ident "a", .array (some 7), .key (.text "q\""), .tuple 255, .key (.int (-5)),
      .ext "0-x",
      .array none]
    parse (utf8 "a.[007].\"\\q\\\"\".#255.-05.$0-x[]") = .ok p ∧ parse p.render = .ok p ∧
      p.render = utf8 "a[7].\"q\\\"\".#255.-5.$0-x[]" := by
  intro p
  have digits {s : Bytes} (all : s.all Bytes.isDigit = true) : s.AllDigits := List.all_eq_true.1 all
  have name : Item (utf8 "a") (.ident "a") := .ident (by decide +kernel)
  have position : Item (utf8 "[" ++ utf8 "007" ++ utf8 "]") (.array (some 7)) :=
    .position (digits (by decide +kernel)) (by decide +kernel) (by decide +kernel)
  have text : Item (utf8 "\"" ++ utf8 "\\q\\\"" ++ utf8 "\"") (.key (.text "q\"")) :=
    .text (.escaped 113 (.escaped 34 .nil))
  have tuple : Item (utf8 "#" ++ utf8 "255") (.tuple 255) :=
    .tuple (digits (by decide +kernel)) (by decide +kernel) (by decide +kernel)
  have negative : Item (utf8 "-" ++ utf8 "05") (.key (.int (-5))) :=
    .negative (digits (by decide +kernel)) (by decide +kernel) (by decide +kernel)
  have extension : Item (utf8 "$" ++ utf8 "0-x") (.ext "0-x") :=
    .ext (by decide +kernel) (by decide +kernel)
  have last := Follows.dot extension (.bracket .append rfl .nil)
  have behind := Follows.dot position (.dot text (.dot tuple (.dot negative last)))
  have spelled : Spelled (utf8 "a.[007].\"\\q\\\"\".#255.-05.$0-x[]") p := by
    convert Spelled.items (.intro name behind) using 1
    decide +kernel
  have read := (parse_accepts.1 _ p).2 spelled
  exact ⟨read, parse_accepts.2.2 _ p read, by decide +kernel⟩

end Path

end DocSchema
