import DocSchema.Proofs.Sites

set_option autoImplicit false

namespace DocSchema

/-- Whether a content is of the variant of the given name. -/
def AdmitsNamed (schema : Schema) (parts : SchemaId → Value → Prop) (u : UnionType) (name : Bytes)
    (content : Option Value) (tag : Option Bytes) : Prop :=
  ∃ variant, u.find? name = some variant ∧ AdmitsVariant schema parts variant.schema tag content

/-- Whether a value names a variant in the given way and has a content of this variant. -/
def AdmitsReading (schema : Schema) (parts : SchemaId → Value → Prop) (u : UnionType)
    (representation : Representation) (extension : Option Bytes) (v : Value) : Prop :=
  ∃ name content tag, Reads (fun other => ∃ w ∈ u.variants, w.name = other) v extension
    representation name content tag ∧ AdmitsNamed schema parts u name content tag

namespace AdmitsReading

variable {schema : Schema} {parts : SchemaId → Value → Prop} {u : UnionType} {v field : Value}
  {extension : Option Bytes} {entries : List (Key × Value)} {tag body : Bytes}

theorem tagged_iff : AdmitsReading schema parts u .tagged extension v ↔
    ∃ name, extension = some name ∧ AdmitsNamed schema parts u name (some v) none := by
  constructor
  · rintro ⟨name, content, tag, ⟨named⟩, admitted⟩
    exact ⟨name, named, admitted⟩
  · rintro ⟨name, named, admitted⟩
    exact ⟨name, _, _, .tagged named, admitted⟩

/-- In a map without a key that names a variant only the extension can. -/
theorem external_iff_of_unnamed (unnamed : ∀ e ∈ v.entries, ∀ other, e.1.spelling? = some other →
      ¬ ∃ w ∈ u.variants, w.name = other) :
    AdmitsReading schema parts u .external extension v ↔
      ∃ name, extension = some name ∧ AdmitsNamed schema parts u name (some v) none := by
  constructor
  · rintro ⟨name, content, tag, reads, admitted⟩
    cases reads with
    | @external key name content only spelled variant agrees =>
        have member : (key, content) ∈ v.entries := by
          rw [Value.entries, only]
          exact List.mem_cons_self
        exact absurd variant (unnamed (key, content) member name spelled)
    | externalByExtension present unnamed => exact ⟨name, present, admitted⟩
  · rintro ⟨name, present, admitted⟩
    exact ⟨name, _, _, .externalByExtension present unnamed, admitted⟩

/-- A key that names a variant has to be the only one. -/
theorem external_iff {e : Key × Value} {name : Bytes} (member : e ∈ v.entries)
    (spelled : e.1.spelling? = some name) (declared : ∃ w ∈ u.variants, w.name = name) :
    AdmitsReading schema parts u .external extension v ↔
      (∀ other ∈ extension, other = name) ∧ v.entries = [e] ∧
        AdmitsNamed schema parts u name (some e.2) none := by
  constructor
  · rintro ⟨other, content, tag, reads, admitted⟩
    cases reads with
    | @external key other content only spelled' variant agrees =>
        have single : v.entries = [(key, content)] := by
          rw [Value.entries, only]
          rfl
        rw [single] at member
        have same := List.mem_singleton.1 member
        subst same
        have same := Option.some.inj (spelled.symm.trans spelled')
        subst same
        exact ⟨agrees, single, admitted⟩
    | externalByExtension present unnamed => exact absurd declared (unnamed e member name spelled)
  · rintro ⟨agrees, single, admitted⟩
    have only : v.content = .map [e] := single ▸ Value.content_of_mem_entries member
    exact ⟨name, _, _, .external only spelled declared agrees, admitted⟩

theorem not_internal (other : ∀ entries, v.content ≠ .map entries) :
    ¬ AdmitsReading schema parts u (.internal tag) extension v := by
  rintro ⟨name, content, tag', reads, -⟩
  cases reads with
  | internal map => exact other _ map
  | internalByExtension map => exact other _ map

theorem internal_iff_of_untagged (filled : v.IsFilled) (map : v.content = .map entries)
    (untagged : HoldsField entries tag none) :
    AdmitsReading schema parts u (.internal tag) extension v ↔
      ∃ name, extension = some name ∧ AdmitsNamed schema parts u name (some v) none := by
  constructor
  · rintro ⟨name, content, tag', reads, admitted⟩
    cases reads with
    | internal map' again =>
        have same := Content.map.inj (map'.symm.trans map)
        subst same
        cases untagged.functional filled map again
    | internalByExtension map' absent named => exact ⟨name, named, admitted⟩
  · rintro ⟨name, named, admitted⟩
    exact ⟨name, _, _, .internalByExtension map untagged named, admitted⟩

theorem internal_iff (filled : v.IsFilled) (map : v.content = .map entries)
    (holds : HoldsField entries tag (some field)) :
    AdmitsReading schema parts u (.internal tag) extension v ↔
      ∃ t, field.text? = some t ∧ (∀ other ∈ extension, other = t.content) ∧
        AdmitsNamed schema parts u t.content (some v) (some tag) := by
  constructor
  · rintro ⟨name, content, tag', reads, admitted⟩
    cases reads with
    | internal map' again text agrees =>
        have same := Content.map.inj (map'.symm.trans map)
        subst same
        cases holds.functional filled map again
        exact ⟨_, text, agrees, admitted⟩
    | internalByExtension map' untagged named =>
        have same := Content.map.inj (map'.symm.trans map)
        subst same
        cases holds.functional filled map untagged
  · rintro ⟨t, text, agrees, admitted⟩
    exact ⟨_, _, _, .internal map holds text agrees, admitted⟩

theorem not_adjacent (other : ∀ entries, v.content ≠ .map entries) :
    ¬ AdmitsReading schema parts u (.adjacent tag body) extension v := by
  rintro ⟨name, content, tag', reads, -⟩
  cases reads with
  | adjacent map => exact other _ map
  | adjacentByExtension map => exact other _ map

theorem adjacent_iff_of_untagged (filled : v.IsFilled) (map : v.content = .map entries)
    (untagged : HoldsField entries tag none) :
    AdmitsReading schema parts u (.adjacent tag body) extension v ↔
      (∀ e ∈ entries, e.1.spelling? = some tag ∨ e.1.spelling? = some body) ∧
        ∃ name, extension = some name ∧ ∃ content, HoldsField entries body content ∧
          AdmitsNamed schema parts u name content none := by
  constructor
  · rintro ⟨name, content, tag', reads, admitted⟩
    cases reads with
    | adjacent map' listed again =>
        have same := Content.map.inj (map'.symm.trans map)
        subst same
        cases untagged.functional filled map again
    | adjacentByExtension map' listed absent named body =>
        have same := Content.map.inj (map'.symm.trans map)
        subst same
        exact ⟨listed, name, named, content, body, admitted⟩
  · rintro ⟨known, name, named, content, body, admitted⟩
    exact ⟨name, content, none, .adjacentByExtension map known untagged named body, admitted⟩

theorem adjacent_iff (filled : v.IsFilled) (map : v.content = .map entries)
    (holds : HoldsField entries tag (some field)) :
    AdmitsReading schema parts u (.adjacent tag body) extension v ↔
      (∀ e ∈ entries, e.1.spelling? = some tag ∨ e.1.spelling? = some body) ∧
        ∃ t, field.text? = some t ∧ (∀ other ∈ extension, other = t.content) ∧
          ∃ content, HoldsField entries body content ∧
            AdmitsNamed schema parts u t.content content none := by
  constructor
  · rintro ⟨name, content, tag', reads, admitted⟩
    cases reads with
    | adjacent map' listed again text agrees body =>
        have same := Content.map.inj (map'.symm.trans map)
        subst same
        cases holds.functional filled map again
        exact ⟨listed, _, text, agrees, _, body, admitted⟩
    | adjacentByExtension map' listed untagged named body =>
        have same := Content.map.inj (map'.symm.trans map)
        subst same
        cases holds.functional filled map untagged
  · rintro ⟨known, t, text, agrees, content, body, admitted⟩
    exact ⟨_, content, none, .adjacent map known holds text agrees body, admitted⟩

end AdmitsReading

end DocSchema
