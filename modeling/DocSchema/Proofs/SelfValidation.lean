import DocSchema.Proofs.SelfDescribing
import DocSchema.Proofs.Tables
import DocSchema.Proofs.Truncation

set_option autoImplicit false

namespace DocSchema

/-- Whether a table grows to another one by types that are no references. -/
def GrowsSolid (before after : Array PlacedType) : Prop :=
  ∃ added : List PlacedType, after.toList = before.toList ++ added ∧
    ∀ t ∈ added, ∀ name, t.node.shape ≠ .reference name

namespace GrowsSolid

variable {before between after : Array PlacedType}

theorem refl (table : Array PlacedType) : GrowsSolid table table :=
  ⟨[], by simp⟩

theorem trans (first : GrowsSolid before between) (second : GrowsSolid between after) :
    GrowsSolid before after := by
  obtain ⟨early, split, solid⟩ := first
  obtain ⟨late, split', solid'⟩ := second
  exact ⟨early ++ late, by rw [split', split, List.append_assoc], List.forall_mem_append.2 ⟨solid, solid'⟩⟩

theorem holds (grows : GrowsSolid before after) {schema : Schema} (holds : schema.Holds after) :
    schema.Holds before := by
  obtain ⟨added, split, -⟩ := grows
  exact holds.before split

end GrowsSolid

/-- Whether a step adds types that are no references, and its result is right for every schema with
the types of the table after it. -/
def Realizes {α : Type} (x : Layout α) (post : Schema → α → Prop) : Prop :=
  ∀ before, GrowsSolid before (x.run before).2 ∧
    ∀ schema : Schema, schema.Holds (x.run before).2 → post schema (x.run before).1

namespace Realizes

variable {α β : Type} {post wider : Schema → α → Prop} {next : Schema → β → Prop} {x : Layout α}

theorem pure {a : α} (holds : ∀ schema, post schema a) : Realizes (Pure.pure a : Layout α) post :=
  fun before => ⟨.refl before, fun schema _ => holds schema⟩

theorem bind {f : α → Layout β} (first : Realizes x post)
    (further : ∀ a, (∃ schema, post schema a) → Realizes (f a) fun schema b => post schema a →
      next schema b) :
    Realizes (x >>= f) next := by
  intro before
  obtain ⟨grows, holds⟩ := first before
  set between := (x.run before).2
  -- Some schema has the types so far, so what holds of the result whatever the schema holds.
  have known : ∃ schema, post schema (x.run before).1 := by
    refine ⟨{ nodes := between.map (·.node) }, holds _ fun id t found => ?_⟩
    simp [Schema.node?, found]
  obtain ⟨grows', holds'⟩ := further (x.run before).1 known between
  exact ⟨grows.trans grows',
    fun schema whole => holds' schema whole (holds schema (grows'.holds whole))⟩

theorem mono (realizes : Realizes x post) (more : ∀ schema a, post schema a → wider schema a) :
    Realizes x wider :=
  fun before => ⟨(realizes before).1,
    fun schema whole => more _ _ ((realizes before).2 schema whole)⟩

/-- What a result is right for one by one it is right for as a whole. -/
theorem all {ι : Type} {each : ι → Schema → α → Prop} {p : ι → Prop} (some : Realizes x post)
    (realizes : ∀ i, p i → Realizes x (each i)) :
    Realizes x fun schema a => post schema a ∧ ∀ i, p i → each i schema a :=
  fun before => ⟨(some before).1, fun schema whole =>
    ⟨(some before).2 schema whole, fun i holds => (realizes i holds before).2 schema whole⟩⟩

theorem place {origin : Path} {shape : Shape SchemaId} (metadata : Metadata)
    (solid : ∀ name, shape ≠ .reference name) :
    Realizes (Declaration.place origin shape metadata)
      fun schema id => schema.node? id = some ⟨shape, metadata⟩ := by
  intro before
  refine ⟨⟨[⟨origin, shape, metadata⟩], Array.toList_push, List.forall_mem_singleton.2 solid⟩, ?_⟩
  exact fun schema whole => whole before.size ⟨origin, shape, metadata⟩ Array.getElem?_push_size

end Realizes

namespace Declaration

variable {R : Declaration → Value → Prop}

section Parts

variable (below : ∀ d part, R d part → Realizes d.layOut fun schema id => schema.Describes id part)
include below

theorem layOutList_realizes {ds : List Declaration} {vs : List Value}
    (elements : List.Forall₂ R ds vs) :
    Realizes (layOutList ds) fun schema ids => List.Forall₂ schema.Describes ids vs := by
  induction elements with
  | nil => exact .pure fun _ => .nil
  | @cons d v ds vs first rest ih =>
      rw [layOutList]
      refine (below d v first).bind fun id _ => ?_
      exact ih.bind fun ids _ => .pure fun schema others typed => .cons typed others

theorem layOutFields_realizes {fields : List (Field Declaration)} {es : List (Key × Value)}
    (named : List.Forall₂ (fun f e => e.1.spelling? = some f.name ∧ R f.schema e.2) fields es) :
    Realizes (layOutFields fields) fun schema laid => laid.map (·.name) = fields.map (·.name) ∧
      List.Forall₂ (fun f e => e.1.spelling? = some f.name ∧
        schema.Describes f.schema e.2) laid es := by
  induction named with
  | nil => exact .pure fun _ => ⟨rfl, .nil⟩
  | @cons f e fields es first rest ih =>
      obtain ⟨name, d, isOptional⟩ := f
      rw [layOutFields]
      refine (below d e.2 first.2).bind
        fun id _ => ih.bind fun laid _ => .pure fun schema others typed => ?_
      exact ⟨congrArg (name :: ·) others.1, .cons ⟨first.1, typed⟩ others.2⟩

theorem layOutShape_realizes {shape : Shape Declaration} {v : Value} (fits : shape.Fits R v) :
    Realizes (layOutShape shape) fun schema laid => laid.Fits schema.Describes v := by
  cases fits with
  | any => exact .pure fun _ => .any _
  | null => exact .pure fun _ => .null _
  | boolean => exact .pure fun _ => .boolean _ _
  | integer => exact .pure fun _ => .integer _ _
  | float => exact .pure fun _ => .float _ _
  | text => exact .pure fun _ => .text _ _
  | array demanded items x =>
      refine ((below _ _ demanded).all fun v inside => below _ v (items v inside)).bind
        fun id _ => ?_
      exact .pure fun schema typed => .array typed.1 typed.2 x
  | tuple elements x =>
      exact (layOutList_realizes below elements).bind
        fun ids _ => .pure fun schema typed => .tuple typed x
  | record named distinct x =>
      refine (layOutFields_realizes below named).bind fun laid _ => .pure fun schema typed => ?_
      exact .record typed.2 (typed.1 ▸ distinct) x

end Parts

/-- The table of a declaration that describes a value describes it. -/
theorem Describes.layOut {d : Declaration} {v : Value} (describes : d.Describes v) :
    Realizes d.layOut fun schema id => schema.Describes id v := by
  induction describes with
  | @intro origin shape v R fits below ih =>
      rw [Declaration.layOut]
      refine (layOutShape_realizes ih fits).bind fun laid known => ?_
      obtain ⟨schema, fits'⟩ := known
      refine (Realizes.place {} fits'.solid).mono fun schema id found fits => ?_
      exact .intro found fits fun _ _ described => described

end Declaration

theorem undefined?_eq_none {placed : Array PlacedType} (grows : GrowsSolid #[] placed)
    (schema : Schema) :
    Declarations.undefined? placed schema = none := by
  obtain ⟨added, split, solid⟩ := grows
  rw [Declarations.undefined?, split, List.findSome?_eq_none_iff]
  intro t inside
  split
  · next name same => exact absurd same (solid t inside name)
  · rfl

/-- From a value that describes itself a schema is extracted, and its root describes the value. -/
theorem extractValue_describes {v : Value} (described : v.IsSelfDescribing) :
    ∃ e, extractValue v = .ok e ∧ e.schema.Describes e.schema.root v := by
  have types : Declarations.typesOf v = .ok [] := by
    rw [Declarations.typesOf, described.directive?_eq_none (by decide)]
  have naming : Naming.ofValue v [] = .ok {} := by
    simp only [Naming.ofValue, Value.extension?, Node.extension?, Value.root]
    rcases described.extensions with none | ⟨a, held, rfl | rfl, single⟩
    · rw [none]
      rfl
    · rw [single]
      rfl
    · rw [single]
      rfl
  obtain ⟨d, read, describes⟩ :=
    Declaration.readTo_describes v.size v described (Nat.le_refl _) [] .root
  have root : Declaration.ofValue v [] .root = .ok d := read
  have declarations : Declarations.ofValue v = .ok ⟨[], {}, d⟩ := by
    rw [Declarations.ofValue, types, naming, root]
    rfl
  obtain ⟨grows, typed⟩ := describes.layOut #[]
  let schema : Schema :=
    { nodes := (d.layOut.run #[]).2.map (·.node), root := (d.layOut.run #[]).1 }
  refine ⟨⟨schema, !v.holdsData⟩, ?_, typed schema fun id t found => ?_⟩
  · have table : Declarations.table ⟨[], {}, d⟩ = ((d.layOut.run #[]).2, schema) := rfl
    rw [extractValue, declarations]
    simp only [table, undefined?_eq_none grows, bind, Except.bind, pure, Except.pure]
  · simp [schema, Schema.node?, found]

/-- A document that describes itself validates against its own schema, unless it is nested too
deeply: the schema can be extracted, nothing is reported, and nothing is missing. -/
theorem validate_selfDescribing (d : Document) (settings : Settings)
    (described : d.value.IsSelfDescribing) (shallow : d.value.height ≤ settings.maxDepth) :
    ∃ e, extract d = .ok e ∧ validate d e.schema settings =
      .ok { errors := [], warnings := [], isTruncated := false, isIncomplete := false } := by
  obtain ⟨e, extracted, describes⟩ := extractValue_describes described
  have inside : e.schema.contains e.schema.root = true := by
    obtain ⟨found, -, -⟩ := describes
    exact Schema.contains_iff.2 ⟨_, found⟩
  have found : findingsOf d.value e.schema e.schema.root settings = .ok ({} ++ {}) :=
    findings_of_logs inside (describes.check_silent settings.maxDepth [] [] shallow)
      (describes.complete_silent [] settings.maxDepth [] [] false)
  refine ⟨e, extracted, ?_⟩
  rw [validate, validateNode, validateValue_eq]
  rw [Document.value] at found
  rw [found, Except.map, toReport_add]
  simp

/-- A measurement with its unit, its place and its readings. -/
def measurement : Document :=
  ⟨#[⟨.map [(.ident "unit", 1), (.literal (.text "at"), 3), (.ident "readings", 8)], []⟩,
    ⟨.primitive (.text ⟨"kelvin", .plaintext⟩), [("type", 2)]⟩,
    ⟨.primitive (.text ⟨"text", .implicit⟩), []⟩,
    ⟨.tuple [4, 6], []⟩,
    ⟨.primitive (.int 51), [("type", 5)]⟩, ⟨.primitive (.text ⟨"integer", .implicit⟩), []⟩,
    ⟨.primitive .null, [("type", 7)]⟩, ⟨.primitive (.text ⟨"any", .plaintext⟩), []⟩,
    ⟨.array [9, 10], [("array", 11)]⟩,
    ⟨.primitive (.int 293), []⟩, ⟨.primitive (.int 294), []⟩,
    ⟨.primitive (.text ⟨"integer", .implicit⟩), []⟩]⟩

/-- A measurement has three levels and is of the type that it declares. -/
theorem validate_selfDescribing_measurement :
    measurement.value.IsSelfDescribing ∧ measurement.value.height = 3 ∧
      ∃ e, extract measurement = .ok e ∧ validate measurement e.schema { maxDepth := 3 } =
        .ok { errors := [], warnings := [], isTruncated := false, isIncomplete := false } := by
  have described : measurement.value.IsSelfDescribing := by
    refine .map (List.cons_ne_nil _ _) (by decide +kernel) (by decide +kernel) ?_
    refine List.forall_mem_cons.2 ⟨?_, List.forall_mem_cons.2 ⟨?_, List.forall_mem_singleton.2 ?_⟩⟩
    · exact .leaf (e := .text) rfl (by decide +kernel) (.inl rfl)
    · refine .tuple (List.cons_ne_nil _ _)
        (List.forall_mem_cons.2 ⟨?_, List.forall_mem_singleton.2 ?_⟩)
      · exact .leaf (e := .integer) rfl (by decide +kernel) (.inl rfl)
      · exact .leaf (e := .any) rfl (by decide +kernel) (.inr rfl)
    · refine .array (show TypeExpression.parse? "integer" = some (Primitive.int 0).type by decide +kernel) ?_
      exact List.forall_mem_cons.2 ⟨⟨.int 293, rfl, rfl⟩,
        List.forall_mem_singleton.2 ⟨.int 294, rfl, rfl⟩⟩
  have height : measurement.value.height = 3 := by decide +kernel
  exact ⟨described, height,
    validate_selfDescribing measurement { maxDepth := 3 } described (Nat.le_of_eq height)⟩

end DocSchema
