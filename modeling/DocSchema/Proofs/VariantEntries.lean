import DocSchema.Proofs.Annotations

set_option autoImplicit false

namespace DocSchema

namespace Declaration

/-- Whether a value under a name in `$variants` declares the type of the variant. -/
inductive IsVariant (read : Reader) (v : Value) (path : Path) : Declaration → Prop
  /-- Null declares a variant without content, whatever its extensions. -/
  | unit (null : v.content = .primitive .null) : IsVariant read v path (.bare path .null)
  | content {d : Declaration} (notNull : v.content ≠ .primitive .null)
      (filled : v.content.isHole = false)
      (declares : read v path .variant = .ok d) (nonempty : d.isEmptyRecord = false) :
      IsVariant read v path d

/-- Whether an entry under `$variants` declares a variant. -/
structure IsVariantOf (read : Reader) (path : Path) (e : Key × Value) (v : Variant Declaration) :
    Prop where
  spelled : e.1.spelling? = some v.name
  schema : IsVariant read e.2 (path ++ [e.1.segment]) v.schema

def variantOf (read : Reader) (v : Value) (path : Path) (name : Bytes) : Extract Declaration :=
  match v.content with
  | .primitive .null => .ok (bare path .null)
  | _ => do
    let d ← read v path .variant
    if v.content.isHole || d.isEmptyRecord then refuse (.emptyVariant name) path else .ok d

variable {read : Reader} {path : Path} {v : Value} {name : Bytes} {d : Declaration}

theorem variantOf_of_null (null : v.content = .primitive .null) :
    variantOf read v path name = .ok (bare path .null) := by
  rw [variantOf, null]

theorem variantOf_of_notNull (notNull : v.content ≠ .primitive .null) :
    variantOf read v path name = read v path .variant >>= fun d =>
      if v.content.isHole || d.isEmptyRecord then refuse (.emptyVariant name) path else .ok d := by
  unfold variantOf
  split
  · next null => exact absurd null notNull
  · rfl

theorem variantOf_eq_ok : variantOf read v path name = .ok d ↔ IsVariant read v path d := by
  by_cases null : v.content = .primitive .null
  · rw [variantOf_of_null null]
    constructor
    · intro made
      exact Except.ok.inj made ▸ .unit null
    · rintro (⟨-⟩ | ⟨notNull⟩)
      · rfl
      · exact absurd null notNull
  · simp only [variantOf_of_notNull null, bind_eq_ok]
    constructor
    · rintro ⟨declared, declares, made⟩
      split at made
      · cases made
      · next filled =>
        obtain rfl := Except.ok.inj made
        rw [Bool.or_eq_true, not_or, Bool.not_eq_true, Bool.not_eq_true] at filled
        exact .content null filled.1 declares filled.2
    · rintro (⟨same⟩ | ⟨-, filled, declares, nonempty⟩)
      · exact absurd same null
      · refine ⟨d, declares, ?_⟩
        rw [filled, nonempty]
        rfl

theorem unionVariants_cons {seen : List Bytes} {key : Key} {es : List (Key × Value)}
    (fresh : name ∉ seen) (spelled : key.spelling? = some name) :
    unionVariants read path seen ((key, v) :: es) = do
      let schema ← variantOf read v (path ++ [key.segment]) name
      return { name, schema } :: (← unionVariants read path (name :: seen) es) := by
  rw [unionVariants, spelled]
  dsimp only
  rw [if_neg fresh]
  by_cases null : v.content = .primitive .null
  · rw [variantOf_of_null null, null]
    rfl
  · rw [variantOf_of_notNull null]
    split
    · next same => exact absurd same null
    · cases read v (path ++ [key.segment]) .variant with
      | error e => rfl
      | ok d =>
          dsimp only [bind, Except.bind]
          split <;> rfl

/-- Entries declare variants if each of them does by itself and all have different names. -/
theorem unionVariants_iff {seen : List Bytes} {es : List (Key × Value)}
    {vs : List (Variant Declaration)} :
    unionVariants read path seen es = .ok vs ↔
      List.Forall₂ (IsVariantOf read path) es vs ∧ (vs.map (·.name)).Nodup ∧
      ∀ v ∈ vs, v.name ∉ seen := by
  induction es generalizing seen vs with
  | nil =>
      rw [unionVariants, List.forall₂_nil_left_iff]
      constructor
      · rintro ⟨⟩
        simp
      · rintro ⟨rfl, -⟩
        rfl
  | cons e es ih =>
      obtain ⟨key, v⟩ := e
      by_cases known : ∃ name, key.spelling? = some name ∧ name ∉ seen
      case neg =>
        constructor
        · intro made
          rw [unionVariants] at made
          split at made
          · cases made
          · next name spelled =>
            rw [if_pos (not_not.1 fun fresh => known ⟨name, spelled, fresh⟩)] at made
            cases made
        · rintro ⟨each, -, fresh⟩
          cases each with
          | cons first rest => exact absurd ⟨_, first.spelled, fresh _ List.mem_cons_self⟩ known
      obtain ⟨name, spelled, fresh⟩ := known
      rw [unionVariants_cons fresh spelled]
      simp only [bind_eq_ok, variantOf_eq_ok, ih]
      constructor
      · rintro ⟨schema, declares, rest, ⟨each, distinct, apart⟩, same⟩
        obtain rfl := Except.ok.inj same
        obtain ⟨distinct, apart⟩ := distinct_cons Variant.name ⟨name, schema⟩ fresh distinct apart
        exact ⟨.cons ⟨spelled, declares⟩ each, distinct, apart⟩
      · rintro ⟨each, distinct, apart⟩
        cases each with
        | @cons _ variant _ rest first each =>
            obtain ⟨name', schema⟩ := variant
            obtain ⟨spelled', declares⟩ := first
            obtain rfl : name = name' := Option.some.inj (spelled.symm.trans spelled')
            exact ⟨schema, declares, rest, ⟨each, distinct_rest _ distinct apart⟩, rfl⟩

end Declaration

namespace Document

variable (d : Document)

/-- Whether the variants of a node are declared by some entries. -/
def HasVariants (id : NodeId) (entries : List (Key × NodeId)) : Prop :=
  ∃ held, (d.node id).extension? Directive.variants.name = some held ∧
    (d.node held).content = .map entries

def variantsOf (entries : List (Key × NodeId)) (path : Path) :
    Extract (List (Variant Declaration)) :=
  Extractor.fresh d (Extractor.unionVariants d (Extractor.readTo d d.size) path [] entries)

/-- Whether the type of a variant keeps all that an entry under `$variants` says about it. Null says
nothing, whatever its extensions are. -/
structure KeepsVariant (path : Path) (e : Key × NodeId) (node : SchemaNode) : Prop where
  unit : (d.node e.2).content = .primitive .null → node = ⟨.null, {}⟩
  metadata : (d.node e.2).content ≠ .primitive .null → d.Annotates e.2 node.metadata
  constraints : (d.node e.2).content ≠ .primitive .null →
    ∃ typed, d.typeOf e.2 (path ++ [e.1.segment]) .variant = .ok typed ∧
      node.shape.target? = typed.2.target? ∧ d.ConstraintsFit e.2 node.shape.target?

variable {d}

namespace IsOrdered

variable (ordered : d.IsOrdered) {id : NodeId} {path : Path} {placement : Placement}
  {whole : Declaration}
  {entries : List (Key × NodeId)}
include ordered

theorem isNull_valueAt (id : NodeId) :
    (d.valueAt id).content = .primitive .null ↔ (d.node id).content = .primitive .null := by
  rw [ordered.content_valueAt]
  exact ⟨Content.eq_primitive_of_mapParts, fun null => by rw [null]; rfl⟩

theorem variantsOf_eq (entries : List (Key × NodeId)) (path : Path) : d.variantsOf entries path =
    Declaration.unionVariants Declaration.ofValue path [] (entries.map fun e => (e.1,
      d.valueAt e.2)) :=
  (Extractor.unionVariants_computes ordered path [] fun e _ => Extractor.declaration_computes ordered e.2).fresh

/-- Entries under `$variants` are read if each of them is by itself and all have different names. -/
theorem variantsOf_eq_ok {variants : List (Variant Declaration)} :
    d.variantsOf entries path = .ok variants ↔
    List.Forall₂ (fun e v => Declaration.IsVariantOf Declaration.ofValue path
      (e.1, d.valueAt e.2) v) entries variants ∧
      (variants.map (·.name)).Nodup := by
  rw [ordered.variantsOf_eq, Declaration.unionVariants_iff, List.forall₂_map_left_iff]
  simp

/-- A node with `$variants` declares the union of what its entries declare. -/
theorem union_variants (declared : d.declarationOf id path placement = .ok whole)
    (has : d.HasVariants id entries) :
    ∃ variants representation, whole.shape = .union variants representation ∧
      d.variantsOf entries (path ++ [.ext Directive.variants.name]) = .ok variants := by
  obtain ⟨held, found, content⟩ := has
  obtain ⟨typed, narrowed, metadata, based, applied, -, rfl⟩ :=
    ordered.declarationOf_eq_ok.1 declared
  rw [ordered.typeOf_eq] at based
  have annotated := ordered.annotated_typed (a := .variants) (by decide) found based
  obtain ⟨shape, made, same⟩ := bind_eq_ok.1 annotated
  obtain rfl := Except.ok.inj same
  obtain ⟨values, variants, representation, map, members, rfl⟩ := Declaration.union_eq_ok made
  rw [ordered.content_valueAt, content] at map
  obtain rfl := Content.map.inj map
  refine ⟨variants, representation, Constraint.applyAll_fixed (.inr (.inr rfl)) applied, ?_⟩
  rw [ordered.variantsOf_eq]
  exact members

/-- The type of a variant in a schema keeps what its entry says. -/
theorem keepsVariant {s : Schema} {y : SchemaId} {e : Key × NodeId} {v : Variant Declaration}
    (read : Declaration.IsVariantOf Declaration.ofValue path (e.1, d.valueAt e.2) v)
    (declares : s.Declares y v.schema) :
    ∃ node, s.node? y = some node ∧ d.KeepsVariant path e node := by
  obtain ⟨laid, found, own, -⟩ := declares.found
  refine ⟨_, found, ?_⟩
  obtain ⟨name, part⟩ := v
  cases read.schema with
  | unit null =>
      obtain rfl : laid = .null := by
        cases laid <;> first | rfl | cases own
      have null := (ordered.isNull_valueAt e.2).1 null
      exact ⟨fun _ => rfl, absurd null, absurd null⟩
  | content notNull filled declared nonempty =>
      have other := mt (ordered.isNull_valueAt e.2).2 notNull
      rw [← ordered.declarationOf_eq] at declared
      obtain ⟨typed, based, kind, fits⟩ := ordered.fits declared
      have same : laid.target? = typed.2.target? := by
        rw [← laid.target?_skeleton, own, Shape.target?_skeleton, kind]
      exact ⟨fun null => absurd null other, fun _ => ordered.annotates rfl declared,
        fun _ => ⟨typed, based, same, same ▸ fits⟩⟩

end IsOrdered

end Document

/-- The table holds a declared union with its variants, each with the type that it declares. -/
theorem Schema.Declares.union {s : Schema} {y : SchemaId} {whole : Declaration}
    (declares : s.Declares y whole)
    {variants : List (Variant Declaration)} {representation : Representation}
    (shape : whole.shape = .union variants representation) :
    ∃ laid, s.node? y = some ⟨.union laid representation, whole.metadata⟩ ∧
      List.Forall₂ (fun v w => v.name = w.name ∧ s.Declares w.schema v.schema) variants laid := by
  obtain ⟨laid, found, own, children⟩ := declares.found
  rw [shape] at own children
  cases laid with
  | union laid representation' =>
      obtain ⟨memberwise, rfl⟩ := Shape.union.inj own
      refine ⟨laid, found, (forall₂_of_map memberwise children).flip.imp fun v w related => ?_⟩
      exact ⟨(Variant.mk.inj related.1).1.symm, related.2⟩
  | _ => cases own

namespace Extractor

/-- Every entry under `$variants` of a node that is read has its variant in the schema, which keeps
all that the entry says about it: its metadata and the extensions without a meaning, in their order.
Where a constraint among them does not apply to the kind of its type, nothing is extracted. Only
null has no more than a bare type, whatever its extensions. -/
theorem run_variants {d : Document} (built : d.IsBuilt) {owner : NodeId} {path : Path}
    {placement : Placement}
    {entries : List (Key × NodeId)} (read : d.IsRead owner path placement)
    (has : d.HasVariants owner entries) :
    (∀ x, run d = .ok x → ∃ whole, d.declarationOf owner path placement = .ok whole ∧
      (∃ y, x.schema.Declares y whole) ∧ ∀ y, x.schema.Declares y whole →
        ∃ variants representation metadata,
          x.schema.node? y = some ⟨.union variants representation, metadata⟩ ∧
          List.Forall₂ (fun e v => e.1.spelling? = some v.name ∧
            ∃ node, x.schema.node? v.schema = some node ∧
              d.KeepsVariant (path ++ [.ext Directive.variants.name]) e node) entries variants) ∧
      ∀ e ∈ entries, (d.node e.2).content ≠ .primitive .null → ∀ typed,
        d.typeOf e.2 (path ++ [.ext Directive.variants.name] ++ [e.1.segment]) .variant =
          .ok typed →
          ¬ d.ConstraintsFit e.2 typed.2.target? → ∃ error, run d = .error error := by
  have ordered := built.isOrdered
  refine ⟨fun x extracted => ?_, fun e inside notNull typed based unfit => ?_⟩
  · obtain ⟨whole, declared, declares⟩ := read.declared_of_run ordered extracted
    refine ⟨whole, declared, declares, fun y declares => ?_⟩
    obtain ⟨variants, representation, shape, members⟩ := ordered.union_variants declared has
    obtain ⟨laid, found, each⟩ := declares.union shape
    refine ⟨laid, representation, whole.metadata, found, ?_⟩
    refine forall₂_through ?_ (ordered.variantsOf_eq_ok.1 members).1 each
    rintro e v w made ⟨name, declares⟩
    exact ⟨name ▸ made.spelled, ordered.keepsVariant made declares⟩
  · obtain ⟨held, found, content⟩ := has
    refine (Document.IsRead.variant read found content inside notNull).refused ordered
      fun part declared => ?_
    obtain ⟨typed', based', -, fits⟩ := ordered.fits declared
    obtain rfl := Except.ok.inj (based.symm.trans based')
    exact unfit fits

/-- A switch: a position with a note, which is deprecated, or nothing, which is said to be
deprecated, too. -/
private def switch : Document :=
  ⟨#[⟨.hole, [("variants", 1)]⟩, ⟨.map [(.ident "at", 2), (.ident "off", 3)], []⟩,
    ⟨.primitive (.text ⟨"integer", .implicit⟩), [("minimum", 4), ("deprecated", 5), ("note", 6)]⟩,
    ⟨.primitive .null, [("deprecated", 7)]⟩, ⟨.primitive (.int 1), []⟩,
    ⟨.primitive (.bool true), []⟩,
    ⟨.primitive (.text ⟨"old", .plaintext⟩), []⟩, ⟨.primitive (.bool true), []⟩]⟩

/-- The position keeps what is said about it, and nothing is said about the variant without
content. -/
theorem run_variants_switch :
    switch.IsBuilt ∧ ∃ x, run switch = .ok x ∧ ∃ y first second representation metadata node,
    x.schema.node? y = some ⟨.union [⟨utf8 "at", first⟩, ⟨utf8 "off", second⟩] representation,
      metadata⟩ ∧
      x.schema.node? first = some node ∧ node.shape.target? = some .number ∧
      node.metadata.isDeprecated = true ∧
      node.metadata.extensions = [(utf8 "note", .of (.primitive (.text ⟨"old", .plaintext⟩)))] ∧
      x.schema.node? second = some ⟨.null, {}⟩ := by
  have built : switch.IsBuilt :=
    .of_run [.ensure [.ext "variants"] 0, .insert 1 (.ident "at"), .insert 1 (.ident "off"),
      .ensure [.ext "minimum"] 2, .ensure [.ext "deprecated"] 2, .ensure [.ext "note"] 2,
      .ensure [.ext "deprecated"] 3,
      .assign 2 (.text ⟨"integer", .implicit⟩), .assign 3 .null, .assign 4 (.int 1),
      .assign 5 (.bool true),
      .assign 6 (.text ⟨"old", .plaintext⟩), .assign 7 (.bool true)] rfl rfl
  obtain ⟨x, extracted⟩ : ∃ x, run switch = .ok x := ⟨_, rfl⟩
  obtain ⟨whole, -, ⟨y, declares⟩, union⟩ := (run_variants built .root ⟨1, rfl, rfl⟩).1 x extracted
  obtain ⟨variants, representation, metadata, found, each⟩ := union y declares
  obtain ⟨⟨name, first⟩, others, ⟨named, node, held, keeps⟩, rest, rfl⟩ :=
    List.forall₂_cons_left_iff.1 each
  obtain ⟨⟨name', second⟩, last, ⟨named', unit, held', keeps'⟩, ended, rfl⟩ :=
    List.forall₂_cons_left_iff.1 rest
  obtain rfl := List.forall₂_nil_left_iff.1 ended
  obtain rfl : utf8 "at" = name := Option.some.inj named
  obtain rfl : utf8 "off" = name' := Option.some.inj named'
  have annotates := keeps.metadata nofun
  obtain ⟨typed, based, kind, -⟩ := keeps.constraints nofun
  obtain rfl : typed = _ := (Except.ok.inj based).symm
  exact ⟨built, x, extracted, y, first, second, representation, metadata, node, found, held, kind,
    annotates.isDeprecated, annotates.extensions, keeps'.unit rfl ▸ held'⟩

end Extractor

end DocSchema
