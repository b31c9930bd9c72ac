import DocSchema.Proofs.Failures
import DocSchema.Proofs.Tables

set_option autoImplicit false

namespace DocSchema

namespace Schema

/-- The places of a schema that name a type: the types below each type, the named types, and the
root. -/
def uses (schema : Schema) : List SchemaId :=
  schema.nodes.toList.flatMap (·.shape.children) ++ schema.types.map (·.2) ++ [schema.root]

/-- Whether a schema is a table of trees, each named or the root, of types that make sense. -/
structure IsWellFormed (schema : Schema) : Prop where
  /-- Every place names a type of the table. -/
  inside : ∀ id ∈ schema.uses, schema.contains id = true
  /-- Every type is named from one place. -/
  once : ∀ id, schema.contains id = true → schema.uses.count id = 1
  /-- Every type comes after those below it. -/
  before : ∀ id node, schema.node? id = some node → ∀ child ∈ node.shape.children, child < id
  sound : ∀ id node, schema.node? id = some node → node.shape.IsSound
  /-- Every reference names a registered type. -/
  defined : ∀ id name metadata, schema.node? id = some ⟨.reference name, metadata⟩ →
    (schema.find? name).isSome = true

namespace IsWellFormed

variable {schema : Schema} {start id : SchemaId}

theorem contains_child (wellFormed : schema.IsWellFormed) {node : SchemaNode}
    (found : schema.node? id = some node) {child : SchemaId}
    (member : child ∈ node.shape.children) :
    schema.contains child = true := by
  refine wellFormed.inside child (List.mem_append_left _ (List.mem_append_left _ ?_))
  exact List.mem_flatMap.2 ⟨node, mem_of_node? found, member⟩

theorem contains_named (wellFormed : schema.IsWellFormed) {name : Bytes} {target : SchemaId}
    (registered : schema.find? name = some target) : schema.contains target = true := by
  refine wellFormed.inside target (List.mem_append_left _ (List.mem_append_right _ ?_))
  exact List.mem_map_of_mem (f := (·.2)) (mem_of_lookup? registered)

/-- From a type of the table only types of the table are reached. -/
theorem contains_reached (wellFormed : schema.IsWellFormed) (inside : schema.contains start = true)
    (reached : schema.Reaches start id) : schema.contains id = true := by
  induction reached with
  | start => exact inside
  | child _ found member _ => exact wellFormed.contains_child found member
  | named _ _ registered _ => exact wellFormed.contains_named registered

end IsWellFormed

end Schema

namespace Declarations

/-- The named types have different names, none of them taken before. -/
theorem namedTypes_sound (path : Path) (seen : List Bytes) (es : List (Key × Value)) :
    Gives (fun types => (types.map (·.name)).Nodup ∧ (∀ t ∈ types, t.name ∉ seen) ∧
        ∀ t ∈ types, t.declaration.IsSound)
      (namedTypes path seen es) := by
  induction es generalizing seen with
  | nil => exact .ok (by simp)
  | cons e es ih =>
      obtain ⟨key, v⟩ := e
      rw [namedTypes]
      split
      · exact .error
      · next name spelled =>
        refine (Declaration.ofValue_sound v _ .typeEntry).bind fun d sound => ?_
        refine .ite (fun _ => .error) fun fresh => .bind .any fun naming _ => ?_
        refine (ih (name :: seen)).bind fun types rest => .ok ?_
        obtain ⟨distinct, apart, below⟩ := rest
        obtain ⟨distinct, apart⟩ :=
          Declaration.distinct_cons NamedType.name ⟨name, d, naming⟩ fresh distinct apart
        exact ⟨distinct, apart, List.forall_mem_cons.2 ⟨sound, below⟩⟩

theorem typesOf_sound (v : Value) :
    Gives (fun types => (types.map (·.name)).Nodup ∧
      ∀ t ∈ types, t.declaration.IsSound) (typesOf v) := by
  unfold typesOf
  dsimp only
  split
  · exact .ok (by simp)
  · split
    · exact (namedTypes_sound _ [] _).mono fun types known => ⟨known.1, known.2.2⟩
    · exact .error

theorem ofValue_sound (v : Value) :
    Gives (fun d => (∀ t ∈ d.types, t.declaration.IsSound) ∧ d.root.IsSound ∧
      (d.types.map (·.name)).Nodup)
      (ofValue v) :=
  (typesOf_sound v).bind fun _ types => .bind .any fun _ _ =>
    (Declaration.ofValue_sound v [] .root).bind fun _ root => .ok ⟨types.2, root, types.1⟩

end Declarations

namespace Schema

/-- A schema over a table that grew from nothing is well-formed if no reference in it is
undefined. -/
theorem isWellFormed_of_grows {schema : Schema} {placed : Array PlacedType}
    (grows : Grows #[] (schema.types.map (·.2) ++ [schema.root]) placed)
    (nodes : schema.nodes = placed.map (·.node))
    (defined : Declarations.undefined? placed schema = none) : schema.IsWellFormed := by
  obtain ⟨added, split, once, sound⟩ := grows.added
  have all : placed.toList = added := split
  subst all
  have size : placed.toList.length = schema.size := by
    simp [Schema.size, nodes]
  have uses : schema.uses.Perm (List.range' 0 schema.size) := by
    rw [size] at once
    simpa [Schema.uses, nodes, List.flatMap_map] using once
  have contains (id : SchemaId) : schema.contains id = true ↔ id ∈ List.range' 0 schema.size := by
    simp [Schema.contains]
  have source {id : SchemaId} {node : SchemaNode} (held : schema.node? id = some node) :
      ∃ t, placed[id]? = some t ∧ t ∈ placed.toList ∧ t.node = node := by
    simp only [Schema.node?, nodes, Array.getElem?_map, Option.map_eq_some_iff] at held
    obtain ⟨t, laid, same⟩ := held
    exact ⟨t, laid, Array.mem_toList_iff.2 (Array.mem_of_getElem? laid), same⟩
  refine ⟨fun id member => ?_, fun id inside => ?_, fun id node held => ?_, fun id node held => ?_,
    fun id name metadata held => ?_⟩
  · exact (contains id).2 (uses.subset member)
  · rw [uses.count_eq]
    exact List.count_eq_one_of_mem (List.nodup_range' 1) ((contains id).1 inside)
  · obtain ⟨t, laid, -, rfl⟩ := source held
    exact grows.children_lt (Nat.zero_le _) laid
  · obtain ⟨t, -, member, rfl⟩ := source held
    exact sound t member
  · obtain ⟨t, -, member, same⟩ := source held
    have known := List.findSome?_eq_none_iff.1 defined t member
    rw [same] at known
    cases registered : schema.find? name with
    | some target => rfl
    | none => simp [registered] at known

end Schema

theorem extractValue_wellFormed (v : Value) :
    Gives (fun e => e.schema.IsWellFormed) (extractValue v) := by
  refine (Declarations.ofValue_sound v).bind fun d known => ?_
  obtain ⟨sound, root, distinct⟩ := known
  obtain ⟨grows, nodes⟩ := Declarations.table_grows sound root distinct
  dsimp only
  split
  · exact .error
  · next defined => exact .ok (Schema.isWellFormed_of_grows grows nodes defined)

namespace Mismatch

/-- Only an undefined type is reported as a dangling reference. -/
theorem kind_eq_dangling {m : Mismatch} (kind : m.kind = utf8 "DanglingReference") :
    ∃ name, m = .undefinedType name := by
  cases m
  case undefinedType name => exact ⟨name, rfl⟩
  all_goals
    rw [Mismatch.kind] at kind
    exact absurd kind (by decide)

end Mismatch

/-- The schema that a document declares is a table of trees of types that make sense. So no
validation against a type of it fails for an id outside the table or for a pattern, and none reports
an undefined type. -/
theorem extract_wellFormed (d : Document) (e : Extraction) (extracted : extract d = .ok e) :
    e.schema.IsWellFormed ∧
    ∀ (d' : Document) (node : NodeId) (id : SchemaId) (settings : Settings),
      e.schema.contains id = true →
      (∀ failure, validateNode d' node e.schema id settings = .error failure →
        failure.flaw.kind ≠ utf8 "InvalidSchemaNode" ∧ failure.flaw.kind ≠ utf8 "InvalidPattern") ∧
      ∀ r, validateNode d' node e.schema id settings = .ok r →
        ∀ f ∈ r.errors, f.mismatch.kind ≠ utf8 "DanglingReference" := by
  have wellFormed := extractValue_wellFormed d.value e extracted
  refine ⟨wellFormed, fun d' node id settings inside =>
    ⟨fun failure failed => ?_, fun r validated f reported kind => ?_⟩⟩
  · have shown := Schema.shows_of_failed failed
    constructor
    · intro kind
      obtain ⟨i, reached, outside⟩ := shown.outside kind
      rw [wellFormed.contains_reached inside reached] at outside
      cases outside
    · intro kind
      obtain ⟨i, n, reached, found, invalid⟩ := shown.invalid kind
      refine invalid fun length p language same => Option.isSome_iff_exists.1 ?_
      have sound := wellFormed.sound i n found
      rw [same] at sound
      exact sound.2 p rfl
  · obtain ⟨name, same⟩ := Mismatch.kind_eq_dangling kind
    obtain ⟨found, logged, rfl⟩ := exists_findings validated
    have known := (e.schema.findingsOf_explained id settings _).2 found logged
    obtain ⟨i, metadata, reached, held, unregistered⟩ :=
      known.undefined f (mem_errors_of_reported reported) name same
    have registered := wellFormed.defined i name metadata held
    rw [unregistered] at registered
    cases registered

private def named : Document :=
  ⟨#[⟨.map [(.ident "name", 1)], [("types", 2)]⟩,
    ⟨.primitive (.text ⟨"Name", .implicit⟩), []⟩,
    ⟨.map [(.ident "Name", 3)], []⟩,
    ⟨.primitive (.text ⟨"text", .implicit⟩), [("min-length", 4)]⟩,
    ⟨.primitive (.int 1), []⟩]⟩

/-- The type is found when an empty map is validated against the record. -/
theorem extract_wellFormed_named :
    ∃ e, extract named = .ok e ∧ e.schema.IsWellFormed ∧
      ∀ r, validate ⟨#[⟨.map [], []⟩]⟩ e.schema {} = .ok r →
        ∀ f ∈ r.errors, f.mismatch.kind ≠ utf8 "DanglingReference" := by
  obtain ⟨e, extracted⟩ : ∃ e, extract named = .ok e := ⟨_, rfl⟩
  have ⟨wellFormed, validation⟩ := extract_wellFormed named e extracted
  have inside := wellFormed.inside e.schema.root (List.mem_append_right _ List.mem_cons_self)
  exact ⟨e, extracted, wellFormed, fun r => (validation _ _ _ {} inside).2 r⟩

end DocSchema
