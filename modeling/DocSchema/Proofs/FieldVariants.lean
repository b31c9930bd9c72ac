import DocSchema.Proofs.Elsewhere
import DocSchema.Proofs.VariantEntries

set_option autoImplicit false

namespace DocSchema

/-- Naming options are read neither in fields nor in variants. -/
theorem Placement.nested_isNamed : nested.isNamed = variant.isNamed :=
  rfl

namespace Declaration

theorem ofTypeDirective_noRecord (path : Path) (v : Value) :
    Gives (fun d => d.shape.target? ≠ some .record) (ofTypeDirective path v) := by
  unfold ofTypeDirective
  split
  · refine .bind .any fun _ _ => .ok fun record => ?_
    cases record
  · split
    · exact .error
    · split
      · next e parsed =>
        refine .ok fun record => ?_
        cases e <;> cases record
      · exact .error

theorem annotated_noRecord {read : Reader} {v held : Value} {a : Directive} {path : Path}
    {typed : Path × Shape Declaration} (made : annotated read v a held path = .ok typed) :
    typed.2.target? ≠ some .record := by
  unfold annotated at made
  dsimp only at made
  split at made
  · obtain ⟨d, directive, same⟩ := bind_eq_ok.1 made
    obtain rfl := Except.ok.inj same
    exact ofTypeDirective_noRecord _ held d directive
  · obtain ⟨item, -, same⟩ := bind_eq_ok.1 made
    obtain rfl := Except.ok.inj same
    nofun
  · obtain ⟨shape, mapped, same⟩ := bind_eq_ok.1 made
    obtain rfl := Except.ok.inj same
    obtain ⟨first, second, key, value, -, -, -, -, rfl⟩ := map_eq_ok mapped
    nofun
  · obtain rfl := Except.ok.inj made
    nofun
  · obtain ⟨shape, united, same⟩ := bind_eq_ok.1 made
    obtain rfl := Except.ok.inj same
    obtain ⟨entries, variants, representation, -, -, rfl⟩ := union_eq_ok united
    nofun

variable {v : Value} {path path' : Path} {d e : Declaration}

theorem ofValue_noRecord (based : v.IsBased) {placement : Placement}
    (declared : ofValue v path placement = .ok d) :
    d.shape.target? ≠ some .record := by
  obtain ⟨a, among, some⟩ := based
  obtain ⟨held, found⟩ := Option.isSome_iff_exists.1 some
  obtain ⟨k, size⟩ : ∃ k, v.size = k + 1 := Nat.exists_eq_add_one.2 v.size_pos
  rw [ofValue, size, readTo, readWith] at declared
  obtain ⟨typed, based, declared⟩ := bind_eq_ok.1 declared
  obtain ⟨narrowed, applied, declared⟩ := bind_eq_ok.1 declared
  obtain ⟨metadata, -, same⟩ := bind_eq_ok.1 declared
  obtain rfl := Except.ok.inj same
  have sound := base_sound (readTo_sound k) v path placement typed based
  rw [shape, (Constraint.applyAll_fits sound.1 applied).1]
  exact annotated_noRecord (base_of_directive among found based).1

theorem isEmptyRecord_of_noRecord (other : d.shape.target? ≠ some .record) :
    d.isEmptyRecord = false := by
  unfold isEmptyRecord
  split
  · next record => exact absurd (by rw [record]; rfl) other
  · rfl

/-- What declares a field declares a variant of the same type, unless its content is a hole or
null. -/
theorem isVariant_of_field (based : v.IsBased) (filled : v.content.isHole = false)
    (notNull : v.content ≠ .primitive .null) (field : ofValue v path .nested = .ok d)
    (path' : Path) :
    ∃ e, IsVariant ofValue v path' e ∧ d.SameButOrigin e := by
  obtain ⟨e, declared, same⟩ :=
    (ofValue_elsewhere based path path' Placement.nested_isNamed).of_ok field
  exact ⟨e, .content notNull filled declared (isEmptyRecord_of_noRecord (ofValue_noRecord based declared)), same⟩

theorem field_of_isVariant (based : v.IsBased) (notNull : v.content ≠ .primitive .null)
    (field : ofValue v path .nested = .ok d) (variant : IsVariant ofValue v path' e) :
    e.SameButOrigin d := by
  cases variant with
  | unit null => exact absurd null notNull
  | content _ _ declared _ =>
      obtain ⟨d', field', same⟩ :=
        (ofValue_elsewhere based path' path Placement.nested_isNamed.symm).of_ok declared
      exact Except.ok.inj (field'.symm.trans field) ▸ same

end Declaration

/-- Whether a type is a union with a variant of some name and the declared type. -/
def Schema.HasVariant (s : Schema) (y : SchemaId) (name : Bytes) (d : Declaration) : Prop :=
  ∃ variants representation metadata, s.node? y = some ⟨.union variants representation, metadata⟩ ∧
    ∃ v ∈ variants, v.name = name ∧ s.Declares v.schema d

/-- A hole that declares a union of one variant, beside named types. -/
def Value.soleVariant (types : Option Value) (key : Key) (v : Value) : Value :=
  .node .hole ((types.map fun held => (Directive.types.name, held)).toList ++
    [(Directive.variants.name, .of (.map [(key, v)]))])

theorem Value.directive?_soleVariant (types : Option Value) (key : Key) (v : Value)
    (a : Directive) :
    (soleVariant types key v).directive? a =
      if a = .variants then some (.of (.map [(key, v)])) else if a = .types then types else none := by
  cases types <;> cases a <;> rfl

namespace Declaration

/-- A union of one variant is read. -/
theorem readWith_soleVariant {read : Reader} {types : Option Value} {key : Key} {name : Bytes}
    {v : Value} {d : Declaration}
    (spelled : key.spelling? = some name)
    (variant : IsVariant read v [.ext Directive.variants.name, key.segment] d) :
    readWith read (.soleVariant types key v) [] .root =
      .ok (.bare [] (.union [⟨name, d⟩] .tagged)) := by
  have members : unionVariants read [.ext Directive.variants.name] [] [(key, v)] =
      .ok [⟨name, d⟩] :=
    unionVariants_iff.2 ⟨.cons ⟨spelled, variant⟩ .nil, by simp, by simp⟩
  have only : (Directive.base.filterMap fun a =>
      ((Value.soleVariant types key v).directive? a).map fun held => (a, held)) =
      [(.variants, .of (.map [(key, v)]))] := by
    cases types <;> rfl
  have union : union read (.soleVariant types key v) (.of (.map [(key, v)])) [] =
      .ok (.union [⟨name, d⟩] .tagged) := by
    rw [Declaration.union, Value.directive?_soleVariant, if_neg (by decide), if_neg (by decide)]
    dsimp only [Value.of, Value.content, List.nil_append]
    rw [members]
    rfl
  have based : base read (.soleVariant types key v) [] .root =
      .ok ([], .union [⟨name, d⟩] .tagged) := by
    rw [base, only]
    change (do return ([], ← Declaration.union read (.soleVariant types key v) (.of (.map [(key, v)])) [])) = _
    rw [union]
    rfl
  rw [readWith, based]
  cases types <;> rfl

end Declaration

/-- A schema is extracted if all references of the declarations are to declared types. -/
theorem extractValue_eq_ok {v : Value} {x : Extraction} : extractValue v = .ok x ↔
    ∃ d, Declarations.ofValue v = .ok d ∧ Declarations.undefined? d.table.1 d.table.2 = none ∧
      x = ⟨d.table.2, !v.holdsData⟩ := by
  rw [extractValue, bind_eq_ok]
  refine exists_congr fun d => and_congr_right fun _ => ?_
  dsimp only
  split
  · next undefined =>
    rw [undefined]
    constructor
    · intro made
      cases made
    · rintro ⟨defined, -⟩
      cases defined
  · next defined =>
      exact ⟨fun made => ⟨defined, (Except.ok.inj made).symm⟩, fun made => congrArg _ made.2.symm⟩

theorem Schema.Declares.reference {s : Schema} {y : SchemaId} {d : Declaration} {name : Bytes}
    (declares : s.Declares y d) (reference : d.shape = .reference name) :
    s.node? y = some ⟨.reference name, d.metadata⟩ := by
  obtain ⟨laid, found, own, -⟩ := declares.found
  obtain rfl : laid = .reference name := Shape.eq_reference own.symm reference
  exact found

/-- In place of the root, a type of the schema can be the only variant of a union. -/
theorem extractValue_soleVariant {v w : Value} {x : Extraction} {key : Key} {name : Bytes}
    {d : Declaration}
    {y : SchemaId} (extracted : extractValue v = .ok x) (declares : x.schema.Declares y d)
    (rooted : Declaration.ofValue (.soleVariant (v.directive? .types) key w) [] .root =
      .ok (.bare [] (.union [⟨name, d⟩] .tagged))) :
    ∃ x', extractValue (.soleVariant (v.directive? .types) key w) = .ok x' := by
  have wellFormed := extractValue_wellFormed v x extracted
  obtain ⟨all, read, defined, rfl⟩ := extractValue_eq_ok.1 extracted
  obtain ⟨-, -, distinct⟩ := Declarations.ofValue_sound v all read
  have tabled := all.areTabled distinct
  obtain ⟨types, typed, read⟩ := bind_eq_ok.1 read
  obtain ⟨naming, -, read⟩ := bind_eq_ok.1 read
  obtain ⟨root, -, same⟩ := bind_eq_ok.1 read
  obtain rfl := Except.ok.inj same
  have typed' : Declarations.typesOf (.soleVariant (v.directive? .types) key w) = .ok types := by
    rw [Declarations.typesOf, Value.directive?_soleVariant, if_neg (by decide), if_pos rfl]
    exact typed
  have unnamed : Naming.ofValue (.soleVariant (v.directive? .types) key w) [] = .ok {} := by
    cases v.directive? .types <;> rfl
  have read' : Declarations.ofValue (.soleVariant (v.directive? .types) key w) =
      .ok ⟨types, {}, .bare [] (.union [⟨name, d⟩] .tagged)⟩ := by
    rw [Declarations.ofValue, typed', unnamed, rooted]
    rfl
  have tabled' := Declarations.areTabled ⟨types, {}, .bare [] (.union [⟨name, d⟩] .tagged)⟩ distinct
  refine ⟨_, extractValue_eq_ok.2 ⟨_, read', tabled'.undefined?_eq_none.2 ?_, rfl⟩⟩
  intro whole listed part within name' reference
  rcases List.mem_append.1 listed with named | union
  · exact tabled.undefined?_eq_none.1 defined whole
      (List.mem_append_left _ named) part within name' reference
  · obtain rfl := List.mem_singleton.1 union
    cases within with
    | refl => cases reference
    | step inside within =>
        obtain rfl := List.mem_singleton.1 inside
        obtain ⟨z, declared⟩ := Schema.Declares.within within y declares
        have registered := wellFormed.defined z name' _ (declared.reference reference)
        rw [Schema.find?_isSome, tabled.names] at registered
        exact registered

namespace Document

variable {d : Document}

theorem isDeclaring_of_based {id : NodeId} (based : Extractor.baseDirectives d id ≠ []) :
    d.IsDeclaring id := by
  obtain ⟨item, listed⟩ := List.exists_mem_of_ne_nil _ based
  obtain ⟨a, among, named⟩ := List.mem_filterMap.1 listed
  obtain ⟨held, found, -⟩ := Option.map_eq_some_iff.1 named
  exact .directive (.inr among) found

namespace IsOrdered

variable (ordered : d.IsOrdered) {id : NodeId}
include ordered

theorem isBased (based : Extractor.baseDirectives d id ≠ []) : (d.valueAt id).IsBased := by
  obtain ⟨item, listed⟩ := List.exists_mem_of_ne_nil _ based
  obtain ⟨a, among, named⟩ := List.mem_filterMap.1 listed
  obtain ⟨held, found, -⟩ := Option.map_eq_some_iff.1 named
  exact ⟨a, among, by rw [ordered.directive?_valueAt, found]; rfl⟩

theorem isHole_valueAt (id : NodeId) :
    (d.valueAt id).content.isHole = true ↔ (d.node id).content = .hole := by
  rw [ordered.content_valueAt, Content.isHole_mapParts]
  cases (d.node id).content <;> simp [Content.isHole]

/-- An entry that declares a variant can be added to others under a new name. -/
theorem variantsOf_insert {before after : List (Key × NodeId)} {e : Key × NodeId} {name : Bytes}
    {path : Path} {others : List (Variant Declaration)} {part : Declaration}
    (members : d.variantsOf (before ++ after) path = .ok others)
    (spelled : e.1.spelling? = some name)
    (variant : Declaration.IsVariant Declaration.ofValue (d.valueAt e.2) (path ++ [e.1.segment]) part)
    (fresh : name ∉ others.map (·.name)) :
    ∃ variants, d.variantsOf (before ++ e :: after) path = .ok variants := by
  obtain ⟨each, distinct⟩ := ordered.variantsOf_eq_ok.1 members
  have left := List.forall₂_take_append others before after each.flip
  have right := List.forall₂_drop_append others before after each.flip
  refine ⟨others.take before.length ++ ⟨name, part⟩ :: others.drop before.length,
    ordered.variantsOf_eq_ok.2 ⟨?_, ?_⟩⟩
  · exact List.rel_append left.flip (.cons ⟨spelled, variant⟩ right.flip)
  · rw [(List.perm_middle.map _).nodup_iff, List.take_append_drop, List.map_cons, List.nodup_cons]
    exact ⟨fresh, distinct⟩

end IsOrdered

variable (d) in
/-- Whether an entry is one of those under `$variants` of a node that is read. -/
structure ReadsVariant (owner : NodeId) (path : Path) (placement : Placement) (e : Key × NodeId) :
    Prop where
  read : d.IsRead owner path placement
  entries : ∃ entries, d.HasVariants owner entries ∧ e ∈ entries

variable (d) in
/-- Whether the type of a node is in a schema, and there is a union with a variant of some name and
the declared type. -/
def ShowsVariant (s : Schema) (owner : NodeId) (path : Path) (placement : Placement) (name : Bytes)
    (part : Declaration) : Prop :=
  ∃ whole, d.declarationOf owner path placement = .ok whole ∧ (∃ y, s.Declares y whole) ∧
    ∀ y, s.Declares y whole → s.HasVariant y name part

variable {x : Extraction} {owner : NodeId} {path : Path} {placement : Placement} {e : Key × NodeId}
  {name : Bytes}

theorem ShowsVariant.of_same {s : Schema} {part part' : Declaration}
    (shows' : d.ShowsVariant s owner path placement name part) (same : part.SameButOrigin part') :
    d.ShowsVariant s owner path placement name part' := by
  obtain ⟨whole, declared, declares, each⟩ := shows'
  refine ⟨whole, declared, declares, fun y declares => ?_⟩
  obtain ⟨variants, representation, metadata, found, v, listed, named, declared⟩ := each y declares
  exact ⟨variants, representation, metadata, found, v, listed, named, same.declares declared⟩

/-- What an entry under `$variants` declares is a variant of the union in the schema. -/
theorem ReadsVariant.shown (reads : d.ReadsVariant owner path placement e) (ordered : d.IsOrdered)
    (extracted : Extractor.run d = .ok x) (spelled : e.1.spelling? = some name) :
    ∃ part, Declaration.IsVariant Declaration.ofValue (d.valueAt e.2)
        (path ++ [.ext Directive.variants.name] ++ [e.1.segment]) part ∧
      d.ShowsVariant x.schema owner path placement name part := by
  obtain ⟨entries, has, inside⟩ := reads.entries
  obtain ⟨whole, declared, declares⟩ := reads.read.declared_of_run ordered extracted
  obtain ⟨variants, representation, shape, members⟩ := ordered.union_variants declared has
  obtain ⟨variant, listed, made⟩ :=
    exists_of_mem_right (ordered.variantsOf_eq_ok.1 members).1.flip e inside
  refine ⟨variant.schema, made.schema, whole, declared, declares, fun y declares => ?_⟩
  obtain ⟨laid, found, each⟩ := declares.union shape
  obtain ⟨w, listed', named, declares⟩ := exists_of_mem_right each.flip variant listed
  obtain rfl := Option.some.inj (spelled.symm.trans made.spelled)
  exact ⟨laid, representation, whole.metadata, found, w, listed', named.symm, declares⟩

section Shown

variable (reads : d.ReadsVariant owner path placement e) (ordered : d.IsOrdered)
  (spelled : e.1.spelling? = some name)
include reads ordered spelled

/-- The variant is what a field declares in the same way. -/
theorem ReadsVariant.shown_of_field (extracted : Extractor.run d = .ok x)
    (based : (d.valueAt e.2).IsBased)
    (notNull : (d.valueAt e.2).content ≠ .primitive .null) {path' : Path} {field : Declaration}
    (declared : Declaration.ofValue (d.valueAt e.2) path' .nested = .ok field) :
    d.ShowsVariant x.schema owner path placement name field := by
  obtain ⟨part, variant, shown⟩ := reads.shown ordered extracted spelled
  exact shown.of_same (Declaration.field_of_isVariant based notNull declared variant)

theorem ReadsVariant.shown_of_null (extracted : Extractor.run d = .ok x)
    (null : (d.valueAt e.2).content = .primitive .null) :
    d.ShowsVariant x.schema owner path placement name (.bare [] .null) := by
  obtain ⟨part, variant, shown⟩ := reads.shown ordered extracted spelled
  cases variant with
  | unit => exact shown.of_same (.bare _ [] ⟨rfl, .nil⟩)
  | content notNull => exact absurd null notNull

theorem ReadsVariant.refused_of_hole (hole : (d.valueAt e.2).content.isHole = true) :
    ∃ error, Extractor.run d = .error error := by
  cases ran : Extractor.run d with
  | error error => exact ⟨error, rfl⟩
  | ok x =>
      obtain ⟨part, variant, -⟩ := reads.shown ordered ran spelled
      cases variant with
      | unit null =>
          rw [null] at hole
          cases hole
      | content _ filled => cases hole.symm.trans filled

end Shown

/-- A hole that a field could be declared by is refused as a variant, since it seems to have no
fields. -/
theorem IsOrdered.variantsOf_hole (ordered : d.IsOrdered) (spelled : e.1.spelling? = some name)
    (based : (d.valueAt e.2).IsBased) (hole : (d.valueAt e.2).content.isHole = true) {path' : Path}
    {field : Declaration} (declared : Declaration.ofValue (d.valueAt e.2) path' .nested = .ok field)
    (path : Path) :
    d.variantsOf [e] path = refuse (.emptyVariant name) (path ++ [e.1.segment]) := by
  obtain ⟨part, read, -⟩ := (Declaration.ofValue_elsewhere based _ (path ++ [e.1.segment])
    Placement.nested_isNamed).of_ok declared
  have notNull : (d.valueAt e.2).content ≠ .primitive .null := fun null => by
    rw [null] at hole
    cases hole
  rw [ordered.variantsOf_eq, List.map_singleton,
    Declaration.unionVariants_cons List.not_mem_nil spelled,
    Declaration.variantOf_of_notNull notNull, read, hole]
  rfl

/-- What declares a field of an extracted record can be the only variant of an extracted union. -/
theorem IsOrdered.run_soleVariant (ordered : d.IsOrdered) {v w : Value} {key : Key}
    {part : Declaration} {y : SchemaId}
    (value : d.value = .soleVariant (v.directive? .types) key w)
    (spelled : key.spelling? = some name)
    (variant : Declaration.IsVariant Declaration.ofValue w
      [.ext Directive.variants.name, key.segment] part)
    (extracted : extractValue v = .ok x) (declares : x.schema.Declares y part) :
    ∃ x', Extractor.run d = .ok x' := by
  have rooted : Declaration.ofValue d.value [] .root =
      .ok (.bare [] (.union [⟨name, part⟩] .tagged)) := by
    rw [Document.value, ← ordered.declarationOf_eq, ordered.declarationOf_readWith,
      ← Document.value, value]
    exact Declaration.readWith_soleVariant spelled variant
  rw [value] at rooted
  rw [Extractor.run_eq_extract ordered, extract, value]
  exact extractValue_soleVariant extracted declares rooted

end Document

namespace Extractor

/-- A node with a base directive that an extracted record has as a field declares the same under a
name in `$variants`, among whatever other variants and in whatever union; and the union of it alone
is extracted. Yet if its content is a hole, it is refused there as a variant without fields, and if
it is null, it declares a variant without content. -/
theorem run_fieldVariants {d : Document} {x : Extraction} (built : d.IsBuilt)
    (extracted : run d = .ok x) {id : NodeId}
    {path : Path} {placement : Placement} {entries : List (Key × NodeId)}
    (read : d.IsRead id path placement)
    (record : d.IsRecord id placement entries) {f : Key × NodeId} (inside : f ∈ entries)
    (spelled : f.1.spelling?.isSome = true) {a : Directive} {held : NodeId}
    (based : baseDirectives d f.2 = [(a, held)]) :
    ∃ field, d.declarationOf f.2 (path ++ [f.1.segment]) .nested = .ok field ∧
      (∃ y, x.schema.Declares y field) ∧
      ∀ (d' : Document) (e : Key × NodeId) (name : Bytes), d'.IsBuilt →
        d'.valueAt e.2 = d.valueAt f.2 →
        e.1.spelling? = some name →
        ((d.node f.2).content ≠ .hole → (d.node f.2).content ≠ .primitive .null →
          (d'.value = .soleVariant (d.value.directive? .types) e.1 (d.valueAt f.2) →
            ∃ x', run d' = .ok x') ∧
          (∀ before after path' others, d'.variantsOf (before ++ after) path' = .ok others →
            name ∉ others.map (·.name) →
              ∃ variants, d'.variantsOf (before ++ e :: after) path' = .ok variants) ∧
          ∀ owner path' placement' x', d'.ReadsVariant owner path' placement' e → run d' = .ok x' →
            d'.ShowsVariant x'.schema owner path' placement' name field) ∧
        ((d.node f.2).content = .hole →
          (∀ path', d'.variantsOf [e] path' =
            refuse (.emptyVariant name) (path' ++ [e.1.segment])) ∧
          ∀ owner path' placement', d'.ReadsVariant owner path' placement' e →
            ∃ error, run d' = .error error) ∧
        ((d.node f.2).content = .primitive .null →
          ∀ owner path' placement' x', d'.ReadsVariant owner path' placement' e → run d' = .ok x' →
            d'.ShowsVariant x'.schema owner path' placement' name (.bare [] .null)) := by
  have ordered := built.isOrdered
  have some : baseDirectives d f.2 ≠ [] := by simp [based]
  have isBased := ordered.isBased some
  have isField :=
    Document.IsRead.field read record inside spelled (Document.isDeclaring_of_based some)
  rw [run_eq_extract ordered] at extracted
  obtain ⟨field, declared, y, declares⟩ := isField.declared ordered extracted
  have declared' := (ordered.declarationOf_eq _ _ _).symm.trans declared
  refine ⟨field, declared, ⟨y, declares⟩, fun d' e name built' same named => ?_⟩
  have ordered' := built'.isOrdered
  rw [← same] at isBased declared'
  have isHole := ordered.isHole_valueAt f.2
  have isNull := ordered.isNull_valueAt f.2
  rw [← same] at isHole isNull
  refine ⟨fun noHole notNull => ?_,
    fun hole => ?_, fun null owner path' placement' x' reads extracted' => ?_⟩
  · have filled := Bool.eq_false_iff.2 (mt isHole.1 noHole)
    have content := mt isNull.1 notNull
    refine ⟨fun value => ?_, fun before after path' others members fresh => ?_,
      fun owner path' placement' x' reads extracted' => ?_⟩
    · obtain ⟨part, variant, alike⟩ := Declaration.isVariant_of_field isBased filled content declared'
        [.ext Directive.variants.name, e.1.segment]
      exact ordered'.run_soleVariant (same ▸ value) named variant extracted
        (alike.declares declares)
    · obtain ⟨part, variant, -⟩ := Declaration.isVariant_of_field isBased filled content declared'
        (path' ++ [e.1.segment])
      exact ordered'.variantsOf_insert members named variant fresh
    · exact reads.shown_of_field ordered' named extracted' isBased content declared'
  · exact ⟨ordered'.variantsOf_hole named isBased (isHole.2 hole) declared',
      fun owner path' placement' reads => reads.refused_of_hole ordered' named (isHole.2 hole)⟩
  · exact reads.shown_of_null ordered' named extracted' (isNull.2 null)

/-- A record with a field that holds an age and declares that it is a natural number. -/
private def aged (age : Content NodeId) : Document :=
  ⟨#[⟨.map [(.ident "age", 1)], []⟩, ⟨age, [("type", 2), ("minimum", 3)]⟩,
    ⟨.primitive (.text ⟨"integer", .implicit⟩), []⟩, ⟨.primitive (.int 0), []⟩]⟩

/-- A union with a variant that is declared in the same way. -/
private def agedOnly (age : Content NodeId) : Document :=
  ⟨#[⟨.hole, [("variants", 1)]⟩, ⟨.map [(.ident "age", 2)], []⟩,
    ⟨age, [("type", 3), ("minimum", 4)]⟩,
    ⟨.primitive (.text ⟨"integer", .implicit⟩), []⟩, ⟨.primitive (.int 0), []⟩]⟩

private theorem aged_isRecord (age : Content NodeId) :
    (aged age).IsRecord Document.root .root [(.ident "age", 1)] :=
  ⟨rfl, fun _ _ => rfl, .inr (.entry (e := (.ident "age", 1)) rfl List.mem_cons_self
    (.directive (a := .type) (.inr (by decide)) rfl))⟩

private theorem agedOnly_readsVariant (age : Content NodeId) :
    (agedOnly age).ReadsVariant Document.root [] .root (.ident "age", 2) :=
  ⟨.root, [(.ident "age", 2)], ⟨1, rfl, rfl⟩, List.mem_cons_self⟩

/-- With an age of five the field and the variant declare the same; where it is not filled in, the
variant is refused. -/
theorem run_fieldVariants_age :
    (∃ x x' field y z, run (aged (.primitive (.int 5))) = .ok x ∧
      run (agedOnly (.primitive (.int 5))) = .ok x' ∧
      x.schema.Declares y field ∧ x'.schema.HasVariant z (utf8 "age") field) ∧
    (∃ x, run (aged .hole) = .ok x) ∧ ∃ error, run (agedOnly .hole) = .error error := by
  refine ⟨?_, ?_⟩
  · have built : (aged (.primitive (.int 5))).IsBuilt :=
      .of_run [.insert 0 (.ident "age"), .ensure [.ext "type"] 1, .ensure [.ext "minimum"] 1,
        .assign 1 (.int 5), .assign 2 (.text ⟨"integer", .implicit⟩), .assign 3 (.int 0)] rfl rfl
    have built' : (agedOnly (.primitive (.int 5))).IsBuilt :=
      .of_run [.ensure [.ext "variants"] 0, .insert 1 (.ident "age"), .ensure [.ext "type"] 2,
        .ensure [.ext "minimum"] 2, .assign 2 (.int 5), .assign 3 (.text ⟨"integer", .implicit⟩),
        .assign 4 (.int 0)] rfl rfl
    obtain ⟨x, extracted⟩ : ∃ x, run (aged (.primitive (.int 5))) = .ok x := ⟨_, rfl⟩
    obtain ⟨field, -, ⟨y, declares⟩, variants⟩ :=
      run_fieldVariants built extracted .root (aged_isRecord _) List.mem_cons_self rfl rfl
    obtain ⟨alone, -, union⟩ :=
      (variants _ (.ident "age", 2) (utf8 "age") built' rfl rfl).1 nofun nofun
    obtain ⟨x', extracted'⟩ := alone rfl
    obtain ⟨whole, -, ⟨z, declares'⟩, each⟩ := union _ _ _ x' (agedOnly_readsVariant _) extracted'
    exact ⟨x, x', field, y, z, extracted, extracted', declares, each z declares'⟩
  · have built : (aged .hole).IsBuilt :=
      .of_run [.insert 0 (.ident "age"), .ensure [.ext "type"] 1, .ensure [.ext "minimum"] 1,
        .assign 2 (.text ⟨"integer", .implicit⟩), .assign 3 (.int 0)] rfl rfl
    have built' : (agedOnly .hole).IsBuilt :=
      .of_run [.ensure [.ext "variants"] 0, .insert 1 (.ident "age"), .ensure [.ext "type"] 2,
        .ensure [.ext "minimum"] 2, .assign 3 (.text ⟨"integer", .implicit⟩),
        .assign 4 (.int 0)] rfl rfl
    obtain ⟨x, extracted⟩ : ∃ x, run (aged .hole) = .ok x := ⟨_, rfl⟩
    obtain ⟨field, -, -, variants⟩ :=
      run_fieldVariants built extracted .root (aged_isRecord _) List.mem_cons_self rfl rfl
    have refused := (variants _ (.ident "age", 2) (utf8 "age") built' rfl rfl).2.1 rfl
    exact ⟨⟨x, extracted⟩, refused.2 _ _ _ (agedOnly_readsVariant _)⟩

end Extractor

end DocSchema
