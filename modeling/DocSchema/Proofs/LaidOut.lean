import DocSchema.Proofs.SameType
import DocSchema.Proofs.Tables

set_option autoImplicit false

namespace DocSchema

/-- What a type says by itself, whatever the types below it. -/
def Shape.skeleton {α : Type} : Shape α → Shape Unit
  | .text length pattern language => .text length pattern language
  | .integer range multipleOf => .integer range multipleOf
  | .float range multipleOf => .float range multipleOf
  | .boolean => .boolean
  | .null => .null
  | .any => .any
  | .literal expected => .literal expected
  | .record fields allowsUnknown =>
      .record (fields.map fun f => { f with schema := () }) allowsUnknown
  | .array _ length isUnique => .array () length isUnique
  | .map _ _ size => .map () () size
  | .tuple elements => .tuple (elements.map fun _ => ())
  | .union variants representation =>
      .union (variants.map fun v => { v with schema := () }) representation
  | .reference name => .reference name

namespace Shape

variable {α β : Type}

theorem eq_reference {a : Shape α} {b : Shape β} {name : Bytes} (same : a.skeleton = b.skeleton)
    (reference : a = .reference name) : b = .reference name := by
  subst reference
  cases b <;> cases same
  rfl

/-- Types that say the same by themselves match if the types below them are related. -/
theorem matches_of_skeleton {R : SchemaId → SchemaId → Prop} {a b : Shape SchemaId}
    (same : a.skeleton = b.skeleton) (children : List.Forall₂ R a.children b.children)
    (values : ∀ v, a = .literal v → v.same v = true) (real : ∀ n ∈ a.numbers, n.isNaN = false) :
    a.Matches R b := by
  cases a with
  | integer range multipleOf =>
      cases b <;> cases same
      exact .integer (Range.same_refl real) multipleOf
  | float range multipleOf =>
      cases b <;> cases same
      refine .float (Range.same_refl fun n limit => real n (List.mem_append_left _ limit)) ?_
      exact bothOrNeither_refl fun n divisor =>
        Number.same_refl (real n (List.mem_append_right _ (Option.mem_toList.2 divisor)))
  | literal expected =>
      cases b <;> cases same
      exact .literal (values expected rfl)
  | record fields allowsUnknown =>
      cases b <;> try cases same
      obtain ⟨own, rfl⟩ := Shape.record.inj same
      refine .record allowsUnknown ((forall₂_of_map own children).imp fun {f g} ⟨own, child⟩ => ?_)
      obtain ⟨name, -, isOptional⟩ := Field.mk.inj own
      exact ⟨name, isOptional, child⟩
  | array item length isUnique =>
      cases b <;> cases same
      exact .array length isUnique (List.forall₂_cons.1 children).1
  | map key value size =>
      cases b <;> cases same
      obtain ⟨key, rest⟩ := List.forall₂_cons.1 children
      exact .map size key (List.forall₂_cons.1 rest).1
  | tuple elements =>
      cases b <;> try cases same
      exact .tuple children
  | union variants representation =>
      cases b <;> try cases same
      obtain ⟨own, rfl⟩ := Shape.union.inj same
      refine .union representation ((forall₂_of_map own children).imp fun {v w} ⟨own, child⟩ => ?_)
      exact ⟨(Variant.mk.inj own).1, child⟩
  | _ =>
      cases b <;> cases same
      constructor

end Shape

/-- Whether a table grows to another one by declarations that are laid out in it one after another,
where `ids` are those of their types. -/
inductive LaysOut : Array PlacedType → List Declaration → List SchemaId → Array PlacedType → Prop
  | refl (table : Array PlacedType) : LaysOut table [] [] table
  | trans {before between after : Array PlacedType} {ds ds' : List Declaration}
      {ids ids' : List SchemaId}
      (first : LaysOut before ds ids between) (second : LaysOut between ds' ids' after) :
      LaysOut before (ds ++ ds') (ids ++ ids') after
  | place {before between : Array PlacedType} {shape : Shape Declaration} {laid : Shape SchemaId}
      (below : LaysOut before shape.children laid.children between)
      (own : laid.skeleton = shape.skeleton)
      (origin : Path) (metadata : Metadata) :
      LaysOut before [.node origin shape metadata] [between.size]
        (between.push ⟨origin, laid, metadata⟩)

namespace Declaration

mutual

theorem layOut_laysOut (d : Declaration) (table : Array PlacedType) :
    LaysOut table [d] [(d.layOut.run table).1] (d.layOut.run table).2 := by
  cases d with
  | node origin shape metadata =>
    have ⟨below, own⟩ := layOutShape_laysOut shape table
    exact .place below own origin metadata

theorem layOutShape_laysOut (shape : Shape Declaration) (table : Array PlacedType) :
    LaysOut table shape.children ((layOutShape shape).run table).1.children
      ((layOutShape shape).run table).2 ∧
      ((layOutShape shape).run table).1.skeleton = shape.skeleton := by
  cases shape with
  | record fields allowsUnknown =>
    have ⟨below, own⟩ := layOutFields_laysOut fields table
    exact ⟨below, congrArg (Shape.record · allowsUnknown) own⟩
  | array item length isUnique => exact ⟨layOut_laysOut item table, rfl⟩
  | map key value size => exact ⟨(layOut_laysOut key table).trans (layOut_laysOut value _), rfl⟩
  | tuple elements =>
    have ⟨below, own⟩ := layOutList_laysOut elements table
    exact ⟨below, congrArg Shape.tuple own⟩
  | union variants representation =>
    have ⟨below, own⟩ := layOutVariants_laysOut variants table
    exact ⟨below, congrArg (Shape.union · representation) own⟩
  | _ => exact ⟨.refl table, rfl⟩

theorem layOutFields_laysOut (fields : List (Field Declaration)) (table : Array PlacedType) :
    let laid := (layOutFields fields).run table
    LaysOut table (fields.map (·.schema)) (laid.1.map (·.schema)) laid.2 ∧
      laid.1.map (fun f => ({ f with schema := () } : Field Unit)) =
        fields.map fun f => { f with schema := () } := by
  cases fields with
  | nil => exact ⟨.refl table, rfl⟩
  | cons f fs =>
    obtain ⟨name, d, isOptional⟩ := f
    have ⟨rest, own⟩ := layOutFields_laysOut fs (d.layOut.run table).2
    exact ⟨(layOut_laysOut d table).trans rest,
      congrArg (List.cons (⟨name, (), isOptional⟩ : Field Unit)) own⟩

theorem layOutList_laysOut (ds : List Declaration) (table : Array PlacedType) :
    let laid := (layOutList ds).run table
    LaysOut table ds laid.1 laid.2 ∧ laid.1.map (fun _ => ()) = ds.map fun _ => () := by
  cases ds with
  | nil => exact ⟨.refl table, rfl⟩
  | cons d ds =>
    have ⟨rest, own⟩ := layOutList_laysOut ds (d.layOut.run table).2
    exact ⟨(layOut_laysOut d table).trans rest, congrArg (() :: ·) own⟩

theorem layOutVariants_laysOut (variants : List (Variant Declaration)) (table : Array PlacedType) :
    let laid := (layOutVariants variants).run table
    LaysOut table (variants.map (·.schema)) (laid.1.map (·.schema)) laid.2 ∧
      laid.1.map (fun v => ({ v with schema := () } : Variant Unit)) =
        variants.map fun v => { v with schema := () } := by
  cases variants with
  | nil => exact ⟨.refl table, rfl⟩
  | cons v vs =>
    obtain ⟨name, d⟩ := v
    have ⟨rest, own⟩ := layOutVariants_laysOut vs (d.layOut.run table).2
    exact ⟨(layOut_laysOut d table).trans rest,
      congrArg (List.cons (⟨name, ()⟩ : Variant Unit)) own⟩

end

/-- Whether a declaration is another one or is below it. -/
inductive Within : Declaration → Declaration → Prop
  | refl (d : Declaration) : Within d d
  | step {part child d : Declaration} (inside : child ∈ d.shape.children)
      (within : Within part child) : Within part d

end Declaration

/-- Whether the type of an id is the declared one, with all below it. -/
inductive Schema.Declares (s : Schema) : SchemaId → Declaration → Prop
  | intro {id : SchemaId} {origin : Path} {shape : Shape Declaration} {laid : Shape SchemaId}
      {metadata : Metadata}
      {R : SchemaId → Declaration → Prop} (found : s.node? id = some ⟨laid, metadata⟩)
      (own : laid.skeleton = shape.skeleton)
      (children : List.Forall₂ R laid.children shape.children)
      (below : ∀ x d, R x d → Declares s x d) : Declares s id (.node origin shape metadata)

namespace Schema

variable {s : Schema} {id : SchemaId} {d part : Declaration}

theorem Declares.found (declares : s.Declares id d) :
    ∃ laid, s.node? id = some ⟨laid, d.metadata⟩ ∧ laid.skeleton = d.shape.skeleton ∧
      List.Forall₂ s.Declares laid.children d.shape.children := by
  cases declares with
  | intro found own children below => exact ⟨_, found, own, children.imp fun {x d} => below x d⟩

/-- Whatever is below a declaration that has its type in the table has its type there, too. -/
theorem Declares.within (within : part.Within d) :
    ∀ id, s.Declares id d → ∃ id', s.Declares id' part := by
  induction within with
  | refl => exact fun id declares => ⟨id, declares⟩
  | step inside within ih =>
      intro id declares
      obtain ⟨laid, -, -, children⟩ := declares.found
      obtain ⟨x, -, declared⟩ := exists_of_mem_right children _ inside
      exact ih x declared

end Schema

namespace LaysOut

variable {before after : Array PlacedType} {ds : List Declaration} {ids : List SchemaId}
  {s : Schema}

/-- The table grows by the types of what is laid out, each with the path of its source. -/
theorem added (laysOut : LaysOut before ds ids after) :
    ∃ added : List PlacedType, after.toList = before.toList ++ added ∧
      ∀ t ∈ added, ∃ d ∈ ds, ∃ part : Declaration, part.Within d ∧ t.origin = part.origin ∧
        t.node.shape.skeleton = part.shape.skeleton := by
  induction laysOut with
  | refl table => exact ⟨[], by simp⟩
  | trans first second ih ih' =>
      obtain ⟨early, split, declared⟩ := ih
      obtain ⟨late, split', declared'⟩ := ih'
      refine ⟨early ++ late, by rw [split', split, List.append_assoc], List.forall_mem_append.2 ⟨?_, ?_⟩⟩
      · exact fun t member => (declared t member).imp
          fun d found => ⟨List.mem_append_left _ found.1, found.2⟩
      · exact fun t member => (declared' t member).imp
          fun d found => ⟨List.mem_append_right _ found.1, found.2⟩
  | @place before between shape laid below own origin metadata ih =>
      obtain ⟨early, split, declared⟩ := ih
      refine ⟨early ++ [⟨origin, laid, metadata⟩],
        by simp [split], List.forall_mem_append.2 ⟨?_, ?_⟩⟩
      · intro t member
        obtain ⟨child, inside, part, within, same⟩ := declared t member
        exact ⟨_, List.mem_cons_self, part, .step inside within, same⟩
      · exact List.forall_mem_singleton.2 ⟨_, List.mem_cons_self, _, .refl _, rfl, own⟩

/-- What is laid out has its type in every schema with the table. -/
theorem declares (laysOut : LaysOut before ds ids after) (holds : s.Holds after) :
    List.Forall₂ s.Declares ids ds := by
  induction laysOut with
  | refl table => exact .nil
  | trans first second ih ih' =>
      obtain ⟨_, split, -⟩ := second.added
      exact List.rel_append (ih (holds.before split)) (ih' holds)
  | @place before between shape laid below own origin metadata ih =>
      have children := ih (holds.before Array.toList_push)
      refine .cons (.intro (holds between.size _ Array.getElem?_push_size) own children fun _ _ declared => ?_) .nil
      exact declared

end LaysOut

namespace Schema

theorem defineAll_naming (s : Schema) (types : List (Bytes × SchemaId)) :
    (s.defineAll types).naming = s.naming ∧ (s.defineAll types).typeNaming = s.typeNaming := by
  induction types generalizing s with
  | nil => exact ⟨rfl, rfl⟩
  | cons entry types ih =>
      have step : ((s.define? entry.1 entry.2).getD s).naming = s.naming ∧
          ((s.define? entry.1 entry.2).getD s).typeNaming = s.typeNaming := by
        unfold define?
        split <;> exact ⟨rfl, rfl⟩
      rw [← step.1, ← step.2]
      exact ih _

end Schema

namespace Declarations

def all (d : Declarations) : List Declaration :=
  d.types.map (·.declaration) ++ [d.root]

/-- Whether a table and a schema over it are those of some declarations. -/
structure AreTabled (d : Declarations) (placed : Array PlacedType) (s : Schema) : Prop where
  nodes : s.nodes = placed.map (·.node)
  root : s.Declares s.root d.root
  types : List.Forall₂ (fun entry t => entry.1 = t.name ∧
    s.Declares entry.2 t.declaration) s.types d.types
  naming : s.naming = d.naming
  typeNaming : s.typeNaming = Dictionary.ofList (d.types.map fun t => (t.name, t.naming))
  /-- There are no other types. -/
  placed : ∀ t ∈ placed.toList, ∃ whole ∈ d.all, ∃ part : Declaration,
    part.Within whole ∧ t.node.shape.skeleton = part.shape.skeleton

theorem layOutTypes_laysOut (types : List NamedType) (table : Array PlacedType) :
    let laid := (types.mapM fun (t : NamedType) => t.declaration.layOut).run table
    LaysOut table (types.map (·.declaration)) laid.1 laid.2 ∧ laid.1.length = types.length := by
  induction types generalizing table with
  | nil => exact ⟨.refl table, rfl⟩
  | cons t types ih =>
      have ⟨rest, length⟩ := ih (t.declaration.layOut.run table).2
      rw [List.mapM_cons]
      exact ⟨(t.declaration.layOut_laysOut table).trans rest, congrArg (· + 1) length⟩

private theorem forall₂_registered {s : Schema} {types : List NamedType} {ids : List SchemaId}
    (declared : List.Forall₂ s.Declares ids (types.map (·.declaration))) :
    List.Forall₂ (fun entry t => entry.1 = t.name ∧ s.Declares entry.2 t.declaration)
      ((types.map (·.name)).zip ids) types := by
  induction types generalizing ids with
  | nil => exact .nil
  | cons t types ih =>
      cases declared with
      | cons first rest => exact .cons ⟨rfl, first⟩ (ih rest)

/-- The table of declarations with different names has a type for each of them, and for all
below. -/
theorem areTabled (d : Declarations) (distinct : (d.types.map (·.name)).Nodup) :
    d.AreTabled d.table.1 d.table.2 := by
  have ⟨named, length⟩ := layOutTypes_laysOut d.types #[]
  set laid := (d.types.mapM fun (t : NamedType) => t.declaration.layOut).run #[]
  have rooted := d.root.layOut_laysOut laid.2
  set last := d.root.layOut.run laid.2
  let start : Schema :=
    { nodes := last.2.map (·.node)
      root := last.1
      naming := d.naming
      typeNaming := Dictionary.ofList (d.types.map fun t => (t.name, t.naming)) }
  have names : ((d.types.map (·.name)).zip laid.1).map (·.1) = d.types.map (·.name) :=
    List.map_fst_zip (by simp [length])
  have ⟨types, nodes, root⟩ := start.defineAll_eq ((d.types.map (·.name)).zip laid.1)
    (by simpa [start, names] using distinct)
  have ⟨naming, typeNaming⟩ := start.defineAll_naming ((d.types.map (·.name)).zip laid.1)
  change d.AreTabled last.2 (start.defineAll ((d.types.map (·.name)).zip laid.1))
  set s := start.defineAll ((d.types.map (·.name)).zip laid.1)
  have holds : s.Holds last.2 := fun id t found => by
    rw [Schema.node?, nodes]
    simp [start, found]
  obtain ⟨_, split, -⟩ := rooted.added
  have declared := named.declares (holds.before split)
  have root' : s.Declares s.root d.root :=
    root.symm ▸ (List.forall₂_cons.1 (rooted.declares holds)).1
  have registered := types.trans (List.nil_append _) ▸ forall₂_registered declared
  obtain ⟨added, whole, placed⟩ := (named.trans rooted).added
  refine ⟨nodes, root', registered, naming, typeNaming, fun t member => ?_⟩
  rw [whole, List.nil_append] at member
  obtain ⟨d, listed, part, within, -, same⟩ := placed t member
  exact ⟨d, listed, part, within, same⟩

/-- Every type of a table comes from where one of the declarations does. -/
theorem mem_table (d : Declarations) : ∀ t ∈ d.table.1.toList, ∃ whole ∈ d.all, ∃ part :
    Declaration,
    part.Within whole ∧ t.origin = part.origin := by
  intro t member
  have ⟨named, _⟩ := layOutTypes_laysOut d.types #[]
  have rooted :=
    d.root.layOut_laysOut ((d.types.mapM fun (t : NamedType) => t.declaration.layOut).run #[]).2
  obtain ⟨added, whole, placed⟩ := (named.trans rooted).added
  have inside : t ∈ added := by
    rw [← List.nil_append added]
    exact whole ▸ member
  obtain ⟨d, listed, part, within, origin, -⟩ := placed t inside
  exact ⟨d, listed, part, within, origin⟩

theorem AreTabled.names {d : Declarations} {placed : Array PlacedType} {s : Schema}
    (tabled : d.AreTabled placed s) :
    s.types.map (·.1) = d.types.map (·.name) := by
  rw [← List.forall₂_eq_eq_eq, List.forall₂_map_left_iff, List.forall₂_map_right_iff]
  exact tabled.types.imp fun {entry t} related => related.1

/-- No reference is undefined exactly if all of them are to declared names. -/
theorem AreTabled.undefined?_eq_none {d : Declarations} {placed : Array PlacedType} {s : Schema}
    (tabled : d.AreTabled placed s) : undefined? placed s = none ↔
      ∀ whole ∈ d.all, ∀ part :
      Declaration, part.Within whole → ∀ name, part.shape = .reference name →
        name ∈ d.types.map (·.name) := by
  constructor
  · intro defined whole member part within name reference
    have typed : ∃ id, s.Declares id whole := by
      rcases List.mem_append.1 member with named | root
      · obtain ⟨t, listed, rfl⟩ := List.mem_map.1 named
        obtain ⟨entry, -, related⟩ := exists_of_mem_right tabled.types t listed
        exact ⟨entry.2, related.2⟩
      · exact List.mem_singleton.1 root ▸ ⟨s.root, tabled.root⟩
    obtain ⟨id, declares⟩ := typed
    obtain ⟨id', declares'⟩ := declares.within within
    obtain ⟨laid, found, own, -⟩ := declares'.found
    obtain rfl : laid = .reference name := Shape.eq_reference own.symm reference
    rw [Schema.node?, tabled.nodes, Array.getElem?_map] at found
    obtain ⟨t, listed, same⟩ := Option.map_eq_some_iff.1 found
    have known :=
      List.findSome?_eq_none_iff.1 defined t (Array.mem_toList_iff.2 (Array.mem_of_getElem? listed))
    rw [same] at known
    rw [← tabled.names, ← Schema.find?_isSome]
    cases registered : s.find? name with
    | some target => rfl
    | none => simp [registered] at known
  · intro defined
    refine List.findSome?_eq_none_iff.2 fun t member => ?_
    obtain ⟨whole, declared, part, within, own⟩ := tabled.placed t member
    split
    · next name reference =>
      have registered := defined whole declared part within name (Shape.eq_reference own reference)
      rw [← tabled.names, ← Schema.find?_isSome] at registered
      obtain ⟨target, found⟩ := Option.isSome_iff_exists.1 registered
      rw [found]
      rfl
    · rfl

end Declarations

end DocSchema
