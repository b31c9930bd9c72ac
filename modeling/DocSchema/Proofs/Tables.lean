import Mathlib.Data.List.Perm.Basic
import DocSchema.Proofs.Declared

set_option autoImplicit false

namespace DocSchema

/-- Whether a schema has the types of a table, under the same ids. -/
def Schema.Holds (schema : Schema) (table : Array PlacedType) : Prop :=
  ∀ id t, table[id]? = some t → schema.node? id = some t.node

/-- A schema that has the types of a table has those of the table before it grew. -/
theorem Schema.Holds.before {schema : Schema} {before after : Array PlacedType}
    (holds : schema.Holds after)
    {added : List PlacedType} (split : after.toList = before.toList ++ added) :
    schema.Holds before := by
  intro id t found
  obtain ⟨inside, -⟩ := Array.getElem?_eq_some_iff.1 found
  apply holds id t
  rw [← Array.getElem?_toList, split, List.getElem?_append_left (by simpa using inside),
    Array.getElem?_toList, found]

/-- Whether a table grows to another one by sound types, where `ids` are those added that no added
type has below it. -/
inductive Grows : Array PlacedType → List SchemaId → Array PlacedType → Prop
  | refl (table : Array PlacedType) : Grows table [] table
  | trans {before between after : Array PlacedType} {ids ids' : List SchemaId}
      (first : Grows before ids between) (second : Grows between ids' after) :
      Grows before (ids ++ ids') after
  | place {before between : Array PlacedType} {shape : Shape SchemaId}
      (below : Grows before shape.children between)
      (sound : shape.IsSound) (origin : Path) (metadata : Metadata) :
      Grows before [between.size] (between.push ⟨origin, shape, metadata⟩)

namespace Grows

variable {before after : Array PlacedType} {ids : List SchemaId}

/-- The ids of the added types are those below an added type and those left over, each once. -/
theorem added (grows : Grows before ids after) :
    ∃ added : List PlacedType, after.toList = before.toList ++ added ∧
      (added.flatMap (·.node.shape.children) ++ ids).Perm (List.range' before.size added.length) ∧
      ∀ t ∈ added, t.node.shape.IsSound := by
  induction grows with
  | refl table => exact ⟨[], by simp⟩
  | @trans before between after ids ids' first second ih ih' =>
      obtain ⟨early, split, once, sound⟩ := ih
      obtain ⟨late, split', once', sound'⟩ := ih'
      have size : between.size = before.size + early.length := by
        simpa using congrArg List.length split
      refine ⟨early ++ late, by rw [split', split, List.append_assoc], ?_, ?_⟩
      · rw [List.flatMap_append, List.length_append, ← List.range'_append_1, ← size]
        refine .trans (List.perm_iff_count.2 fun id => ?_) (once.append once')
        simp only [List.count_append]
        omega
      · simpa [or_imp, forall_and] using And.intro sound sound'
  | @place before between shape below sound origin metadata ih =>
      obtain ⟨early, split, once, known⟩ := ih
      have size : between.size = before.size + early.length := by
        simpa using congrArg List.length split
      refine ⟨early ++ [⟨origin, shape, metadata⟩], by simp [split], ?_, ?_⟩
      · rw [List.flatMap_append, List.length_append, ← List.range'_append_1, List.flatMap_singleton,
          size]
        exact once.append (.refl _)
      · simpa [or_imp, forall_and] using And.intro known sound

theorem lt_size (grows : Grows before ids after) : ∀ id ∈ ids, id < after.size := by
  obtain ⟨added, split, once, -⟩ := grows.added
  have size := congrArg List.length split
  intro id member
  have inside := once.subset (List.mem_append_right _ member)
  simp only [Array.length_toList, List.length_append] at size
  rw [size]
  exact (List.mem_range'_1.1 inside).2

theorem getElem?_eq (grows : Grows before ids after) {i : Nat} (early : i < before.size) :
    after[i]? = before[i]? := by
  obtain ⟨added, split, -⟩ := grows.added
  rw [← Array.getElem?_toList, ← Array.getElem?_toList, split,
    List.getElem?_append_left (by simpa using early)]

/-- A type comes after those below it. -/
theorem children_lt (grows : Grows before ids after) {i : Nat} (late : before.size ≤ i)
    {t : PlacedType}
    (found : after[i]? = some t) : ∀ child ∈ t.node.shape.children, child < i := by
  induction grows with
  | refl table =>
      rw [Array.getElem?_eq_none late] at found
      cases found
  | @trans before between after ids ids' first second ih ih' =>
      by_cases early : i < between.size
      · rw [second.getElem?_eq early] at found
        exact ih late found
      · exact ih' (Nat.le_of_not_lt early) found
  | @place before between shape below sound origin metadata ih =>
      rw [Array.getElem?_push] at found
      split at found
      · next last =>
        cases found
        rw [last]
        exact below.lt_size
      · exact ih late found

end Grows

namespace Declaration

mutual

theorem layOut_grows (d : Declaration) (sound : d.IsSound) (table : Array PlacedType) :
    Grows table [(d.layOut.run table).1] (d.layOut.run table).2 := by
  cases d with
  | node origin shape metadata =>
    cases sound with
    | node sound below =>
      have ⟨grows, kept⟩ := layOutShape_grows shape sound below table
      exact .place grows kept origin metadata

theorem layOutShape_grows (shape : Shape Declaration) (sound : shape.IsSound)
    (below : ∀ d ∈ shape.children, d.IsSound) (table : Array PlacedType) :
    Grows table ((layOutShape shape).run table).1.children ((layOutShape shape).run table).2 ∧
      ((layOutShape shape).run table).1.IsSound := by
  cases shape with
  | record fields allowsUnknown =>
    have ⟨grows, names⟩ := layOutFields_grows fields (by simpa [Shape.children] using below) table
    refine ⟨grows, ?_⟩
    have distinct : (fields.map (·.name)).Nodup := sound
    rw [← names] at distinct
    exact distinct
  | array item length isUnique =>
    exact ⟨layOut_grows item (below item (List.mem_singleton.2 rfl)) table, sound⟩
  | map key value size =>
    refine ⟨(layOut_grows key (below key ?_) table).trans (layOut_grows value (below value ?_) _),
      trivial⟩
    · simp [Shape.children]
    · simp [Shape.children]
  | tuple elements =>
    exact ⟨layOutList_grows elements below table, trivial⟩
  | union variants representation =>
    have ⟨grows, names⟩ :=
      layOutVariants_grows variants (by simpa [Shape.children] using below) table
    obtain ⟨some, distinct, representation⟩ := sound
    refine ⟨grows, ?_, names.symm ▸ distinct, representation⟩
    intro none
    exact some (List.map_eq_nil_iff.1 (names.symm.trans (List.map_eq_nil_iff.2 none)))
  | _ => exact ⟨.refl table, sound⟩

theorem layOutFields_grows (fields : List (Field Declaration))
    (below : ∀ f ∈ fields, f.schema.IsSound) (table : Array PlacedType) :
    Grows table (((layOutFields fields).run table).1.map (·.schema))
      ((layOutFields fields).run table).2 ∧
      ((layOutFields fields).run table).1.map (·.name) = fields.map (·.name) := by
  cases fields with
  | nil => exact ⟨.refl table, rfl⟩
  | cons f fs =>
    obtain ⟨name, d, isOptional⟩ := f
    have ⟨first, rest⟩ := List.forall_mem_cons.1 below
    have ⟨grows, names⟩ := layOutFields_grows fs rest (d.layOut.run table).2
    exact ⟨(layOut_grows d first table).trans grows, congrArg (name :: ·) names⟩

theorem layOutList_grows (ds : List Declaration) (below : ∀ d ∈ ds, d.IsSound)
    (table : Array PlacedType) :
    Grows table ((layOutList ds).run table).1 ((layOutList ds).run table).2 := by
  cases ds with
  | nil => exact .refl table
  | cons d ds =>
    have ⟨first, rest⟩ := List.forall_mem_cons.1 below
    exact (layOut_grows d first table).trans (layOutList_grows ds rest _)

theorem layOutVariants_grows (variants : List (Variant Declaration))
    (below : ∀ v ∈ variants, v.schema.IsSound) (table : Array PlacedType) :
    Grows table (((layOutVariants variants).run table).1.map (·.schema))
        ((layOutVariants variants).run table).2 ∧
      ((layOutVariants variants).run table).1.map (·.name) = variants.map (·.name) := by
  cases variants with
  | nil => exact ⟨.refl table, rfl⟩
  | cons v vs =>
    obtain ⟨name, d⟩ := v
    have ⟨first, rest⟩ := List.forall_mem_cons.1 below
    have ⟨grows, names⟩ := layOutVariants_grows vs rest (d.layOut.run table).2
    exact ⟨(layOut_grows d first table).trans grows, congrArg (name :: ·) names⟩

end

end Declaration

namespace Schema

theorem define?_fresh {s : Schema} {name : Bytes} (fresh : s.find? name = none) (id : SchemaId) :
    ∃ s', s.define? name id = some s' ∧ s'.types = s.types ++ [(name, id)] ∧ s'.nodes = s.nodes ∧
      s'.root = s.root := by
  unfold define?
  split
  · next taken found => cases fresh.symm.trans found
  · exact ⟨_, rfl, rfl, rfl, rfl⟩

/-- Types of different names are all registered, in order. -/
theorem defineAll_eq (s : Schema) (types : List (Bytes × SchemaId))
    (distinct : ((s.types ++ types).map (·.1)).Nodup) :
    (s.defineAll types).types = s.types ++ types ∧ (s.defineAll types).nodes = s.nodes ∧
      (s.defineAll types).root = s.root := by
  induction types generalizing s with
  | nil => exact ⟨(List.append_nil _).symm, rfl, rfl⟩
  | cons entry types ih =>
      obtain ⟨name, id⟩ := entry
      have fresh : s.find? name = none := by
        rw [find?, lookup?, Option.map_eq_none_iff, List.find?_eq_none]
        intro other member same
        rw [List.map_append, List.nodup_append] at distinct
        exact distinct.2.2 other.1 (List.mem_map_of_mem member) name List.mem_cons_self
          (eq_of_beq same)
      obtain ⟨s', defined, first, nodes, root⟩ := define?_fresh fresh id
      have step : s.defineAll ((name, id) :: types) = s'.defineAll types := by
        rw [defineAll, List.foldl_cons, defined]
        rfl
      rw [step, ← nodes, ← root]
      rw [List.append_cons, ← first] at distinct ⊢
      have ⟨all, same, start⟩ := ih s' distinct
      exact ⟨all, same, start⟩

end Schema

namespace Declarations

theorem layOutTypes_grows (types : List NamedType) (sound : ∀ t ∈ types, t.declaration.IsSound)
    (table : Array PlacedType) :
    let laid := (types.mapM fun (t : NamedType) => t.declaration.layOut).run table
    Grows table laid.1 laid.2 ∧ laid.1.length = types.length := by
  induction types generalizing table with
  | nil => exact ⟨.refl table, rfl⟩
  | cons t types ih =>
      have ⟨first, rest⟩ := List.forall_mem_cons.1 sound
      have ⟨grows, length⟩ := ih rest (t.declaration.layOut.run table).2
      rw [List.mapM_cons]
      exact ⟨(t.declaration.layOut_grows first table).trans grows, congrArg (· + 1) length⟩

/-- The table holds the named types and the root, with all below them and nothing else. -/
theorem table_grows {d : Declarations} (sound : ∀ t ∈ d.types, t.declaration.IsSound)
    (root : d.root.IsSound) (distinct : (d.types.map (·.name)).Nodup) :
    Grows #[] (d.table.2.types.map (·.2) ++ [d.table.2.root]) d.table.1 ∧
      d.table.2.nodes = d.table.1.map (·.node) := by
  have ⟨grows, length⟩ := layOutTypes_grows d.types sound #[]
  have last := d.root.layOut_grows root
    ((d.types.mapM fun (t : NamedType) => t.declaration.layOut).run #[]).2
  have whole := grows.trans last
  set laid := (d.types.mapM fun (t : NamedType) => t.declaration.layOut).run #[]
  have names : ((d.types.map (·.name)).zip laid.1).map (·.1) = d.types.map (·.name) :=
    List.map_fst_zip (by simp [length])
  have ⟨types, nodes, start⟩ := Schema.defineAll_eq
    { nodes := (d.root.layOut.run laid.2).2.map (·.node)
      root := (d.root.layOut.run laid.2).1
      naming := d.naming
      typeNaming := Dictionary.ofList (d.types.map fun t => (t.name, t.naming)) }
    ((d.types.map (·.name)).zip laid.1) (by simpa [names] using distinct)
  have ids : d.table.2.types.map (·.2) = laid.1 := by
    refine (congrArg (List.map (·.2)) types).trans ?_
    rw [List.nil_append, List.map_snd_zip (by simp [length])]
  have last : d.table.2.root = (d.root.layOut.run laid.2).1 := start
  rw [ids, last]
  exact ⟨whole, nodes⟩

end Declarations

end DocSchema
