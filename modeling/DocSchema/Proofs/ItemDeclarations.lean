import DocSchema.Proofs.Annotations

set_option autoImplicit false

namespace DocSchema

def Content.isMapOrTuple {α : Type} : Content α → Bool
  | .map _ => true
  | .tuple _ => true
  | _ => false

theorem Content.isMapOrTuple_mapParts {α β : Type} (f : α → β) (c : Content α) :
    (c.mapParts f).isMapOrTuple = c.isMapOrTuple := by
  cases c <;> rfl

/-- A constraint applies to no type of a kind without constraints. -/
theorem Constraint.applyAll_unconstrained {α : Type} (path : Path) {s : Shape α}
    (none : s.target? = none) (x : List (Bytes × Value)) : (∃ t, applyAll path s x = .ok t) ↔
      ∀ e ∈ x, ∀ a, Directive.ofName? e.1 = some a → target? a = Option.none := by
  rw [← isSome_toOption, toOption_applyAll]
  induction x with
  | nil => exact ⟨fun _ => nofun, fun _ => rfl⟩
  | cons e x ih =>
      rw [List.foldlM_cons, List.forall_mem_cons]
      cases named : Directive.ofName? e.1 with
      | none =>
          rw [applied?_eq_some s named]
          exact ih.trans ⟨fun rest => ⟨nofun, rest⟩, fun both => both.2⟩
      | some a =>
          rw [applied?_eq s named]
          cases constrains : target? a with
          | none =>
              rw [constrain?_of_idle constrains]
              refine ih.trans ⟨fun rest => ⟨fun b same => ?_, rest⟩, fun both => both.2⟩
              exact Option.some.inj same ▸ constrains
          | some target =>
              rw [constrain?_eq_none constrains (by rw [none]; nofun)]
              refine ⟨nofun, fun both => ?_⟩
              cases constrains.symm.trans (both.1 a rfl)

/-- Constraints make no other type `any`. -/
theorem Constraint.applyAll_eq_any {α : Type} {path : Path} {s t : Shape α}
    {x : List (Bytes × Value)}
    (sound : s.IsSound) (applied : applyAll path s x = .ok t) : t = .any ↔ s = .any := by
  constructor
  · rintro rfl
    have kind := (applyAll_fits sound applied).1
    exact (applyAll_fixed (.inl kind.symm) applied).symm
  · rintro rfl
    exact applyAll_fixed (.inl rfl) applied

namespace Declaration

theorem ofExpression_eq_any {e : TypeExpression} : ofExpression e = .any ↔ e = .any := by
  cases e <;> simp [ofExpression]

theorem ofTypeDirective_eq_any {path : Path} {v : Value} {d : Declaration}
    (read : ofTypeDirective path v = .ok d) :
    d.shape = .any ↔ ∃ s, v.textContent? = some s ∧ TypeExpression.parse? s = some .any := by
  unfold ofTypeDirective at read
  split at read
  · obtain ⟨elements, -, same⟩ := bind_eq_ok.1 read
    obtain rfl := Except.ok.inj same
    constructor
    · intro any
      cases any
    · rintro ⟨s, text, -⟩
      cases text
  · split at read
    · cases read
    · next s text =>
      split at read
      · next e parsed =>
        obtain rfl := Except.ok.inj read
        rw [text]
        refine ofExpression_eq_any.trans ?_
        constructor
        · rintro rfl
          exact ⟨s, rfl, parsed⟩
        · rintro ⟨s', same, any⟩
          obtain rfl := Option.some.inj same
          exact Option.some.inj (parsed.symm.trans any)
      · cases read

variable {read : Reader} {v held : Value} {path : Path} {placement : Placement}

/-- Without a base directive a value may be anything if it says so, or if it is neither a type
expression nor a map or a tuple that declares a type. -/
theorem unannotated_eq_any {s : Shape Declaration} (nested : placement ≠ .variant)
    (made : unannotated read v path placement = .ok s) :
    s = .any ↔ v.content.typeExpression? = some .any ∨
      v.content.typeExpression? = none ∧
      ¬ (v.content.isMapOrTuple = true ∧ v.isDeclared = true) := by
  unfold unannotated at made
  split at made
  · next e expression =>
    obtain rfl := Except.ok.inj made
    rw [expression, ofExpression_eq_any]
    simp
  · next none =>
    rw [none]
    split at made
    · next vs tuple =>
      rw [tuple]
      split at made
      · next declared =>
        obtain ⟨elements, -, same⟩ := bind_eq_ok.1 made
        obtain rfl := Except.ok.inj same
        simp [declared, Content.isMapOrTuple]
      · next undeclared =>
        obtain rfl := Except.ok.inj made
        simp [undeclared]
    · next es map =>
      rw [map]
      split at made
      · next declared =>
        obtain ⟨fields, -, made⟩ := bind_eq_ok.1 made
        obtain ⟨policy, -, same⟩ := bind_eq_ok.1 made
        obtain rfl := Except.ok.inj same
        simp [declared.resolve_left nested, Content.isMapOrTuple]
      · next undeclared =>
        obtain rfl := Except.ok.inj made
        simp [not_or.1 undeclared]
    · next noTuple noMap =>
      obtain rfl := Except.ok.inj made
      have leaf : v.content.isMapOrTuple = false := by
        cases content : v.content with
        | tuple vs => exact absurd content (noTuple vs)
        | map es => exact absurd content (noMap es)
        | _ => rfl
      simp [leaf]

/-- With a base directive it may be anything if `$type` says so. -/
theorem annotated_eq_any {a : Directive} {typed : Path × Shape Declaration}
    (made : annotated read v a held path = .ok typed) :
    typed.2 = .any ↔ a = .type ∧
    ∃ s, held.textContent? = some s ∧ TypeExpression.parse? s = some .any := by
  unfold annotated at made
  dsimp only at made
  split at made
  · obtain ⟨d, directive, same⟩ := bind_eq_ok.1 made
    obtain rfl := Except.ok.inj same
    rw [ofTypeDirective_eq_any directive]
    simp
  · obtain ⟨item, -, same⟩ := bind_eq_ok.1 made
    obtain rfl := Except.ok.inj same
    simp
  · obtain ⟨shape, mapped, same⟩ := bind_eq_ok.1 made
    obtain rfl := Except.ok.inj same
    obtain ⟨first, second, key, value, -, -, -, -, rfl⟩ := map_eq_ok mapped
    simp
  · obtain rfl := Except.ok.inj made
    simp
  · next notType _ _ _ =>
    obtain ⟨shape, united, same⟩ := bind_eq_ok.1 made
    obtain rfl := Except.ok.inj same
    obtain ⟨entries, variants, representation, -, -, rfl⟩ := union_eq_ok united
    exact ⟨nofun, fun only => absurd only.1 notType⟩

/-- Without a base directive a value may be anything if it is neither a type expression nor a map or
a tuple that declares a type. -/
theorem unannotated_of_untyped (nested : placement ≠ .variant)
    (none : v.content.typeExpression? = none)
    (undeclared : ¬ (v.content.isMapOrTuple = true ∧ v.isDeclared = true)) :
    unannotated read v path placement = .ok .any := by
  unfold unannotated
  rw [none]
  dsimp only
  split
  · next tuple => exact if_neg fun declared => undeclared ⟨by rw [tuple]; rfl, declared⟩
  · next map =>
      exact if_neg fun declared => undeclared ⟨by rw [map]; rfl, declared.resolve_left nested⟩
  · rfl

end Declaration

theorem Shape.skeleton_eq_any {α : Type} {s : Shape α} : s.skeleton = .any ↔ s = .any := by
  cases s <;> first | exact ⟨fun _ => rfl, fun _ => rfl⟩ | exact ⟨nofun, nofun⟩

namespace Document

variable (d : Document)

/-- Whether a node is read as the items of an array or as the keys or the values of a map. -/
inductive IsItem : NodeId → Path → Prop
  | item {id held : NodeId} {path : Path} {placement : Placement}
      (read : d.IsRead id path placement)
      (found : (d.node id).extension? Directive.array.name = some held) :
      IsItem held (path ++ [.ext Directive.array.name])
  | mapPart {id held child : NodeId} {path : Path} {placement : Placement} {name : Bytes}
      (read : d.IsRead id path placement)
      (found : (d.node id).extension? Directive.map.name = some held)
      (either : name = utf8 "key" ∨ name = utf8 "value")
      (part : (d.node held).content.field? name = some child) :
      IsItem child (path ++ [.ext Directive.map.name] ++ [.ident name])

/-- Whether a node declares a type by more than a flag. -/
inductive IsTyped (id : NodeId) : Prop
  | expression {e : TypeExpression} (content : (d.node id).content.typeExpression? = some e)
  | directive {a : Directive} {held : NodeId} (among : a ∈ Directive.base)
      (found : (d.node id).extension? a.name = some held)
  | entry {entries : List (Key × NodeId)} (content : (d.node id).content = .map entries)
      {e : Key × NodeId}
      (inside : e ∈ entries) (declaring : d.IsDeclaring e.2)
  | element {elements : List NodeId} {child : NodeId}
      (content : (d.node id).content = .tuple elements)
      (inside : child ∈ elements) (declaring : d.IsDeclaring child)

/-- Whether a node is a map or a tuple with a flag, which is enough to read it as a declaration. -/
structure IsFlagged (id : NodeId) : Prop where
  flag : ((d.node id).extension? Directive.optional.name).isSome = true
  parts : (d.node id).content.isMapOrTuple = true

/-- Whether a node declares that anything may stand there. -/
inductive SaysAny (id : NodeId) : Prop
  | expression (content : (d.node id).content.typeExpression? = some .any)
  | directive {held : NodeId} {s : Bytes}
      (found : (d.node id).extension? Directive.type.name = some held)
      (text : (d.valueAt held).textContent? = some s) (any : TypeExpression.parse? s = some .any)

/-- Whether the extensions of a node can stand beside `any`: none is a constraint, and all metadata
can be read. -/
structure LeavesAny (id : NodeId) : Prop where
  unconstrained : d.ConstraintsFit id none
  readable : ∀ item ∈ (d.node id).extensions, Metadata.isReadable item.1 (d.valueAt item.2) = true

variable {d} {id : NodeId} {path : Path} {placement : Placement}

theorem IsItem.isRead (item : d.IsItem id path) : d.IsRead id path .nested := by
  cases item with
  | item read found => exact .item read found
  | mapPart read found either part => exact .mapPart read found either part

/-- A node without base directive declares a type by its content. -/
theorem isTyped_or_isFlagged_iff
    (plain : ∀ a ∈ Directive.base, (d.node id).extension? a.name = none)
    (none : (d.node id).content.typeExpression? = none) :
    d.IsTyped id ∨ d.IsFlagged id ↔ (d.node id).content.isMapOrTuple = true ∧ d.IsDeclaring id := by
  constructor
  · rintro ((content | ⟨among, found⟩ | ⟨content, inside, declaring⟩ | ⟨content, inside, declaring⟩) | ⟨flag, parts⟩)
    · cases none.symm.trans content
    · cases (plain _ among).symm.trans found
    · exact ⟨by rw [content]; rfl, .entry content inside declaring⟩
    · exact ⟨by rw [content]; rfl, .element content inside declaring⟩
    · obtain ⟨held, found⟩ := Option.isSome_iff_exists.1 flag
      exact ⟨parts, .directive (.inl rfl) found⟩
  · rintro ⟨parts, declaring⟩
    cases declaring with
    | directive among found =>
        rcases among with rfl | among
        · exact .inr ⟨by rw [found]; rfl, parts⟩
        · cases (plain _ among).symm.trans found
    | expression content => exact .inl (.expression content)
    | entry content inside declaring => exact .inl (.entry content inside declaring)
    | element content inside declaring => exact .inl (.element content inside declaring)

namespace IsOrdered

variable (ordered : d.IsOrdered)
include ordered

theorem directive?_eq_none (plain : ∀ a ∈ Directive.base, (d.node id).extension? a.name = none) :
    ∀ a ∈ Directive.base, (d.valueAt id).directive? a = none := by
  intro a among
  rw [ordered.directive?_valueAt, plain a among]
  rfl

theorem isMapOrTuple_and_isDeclared (id : NodeId) :
    (d.valueAt id).content.isMapOrTuple = true ∧ (d.valueAt id).isDeclared = true ↔
      (d.node id).content.isMapOrTuple = true ∧ d.IsDeclaring id := by
  rw [ordered.content_valueAt, Content.isMapOrTuple_mapParts, ordered.isDeclaring_iff]

/-- The type of a node may be anything if the node says so, or if it declares none. -/
theorem typeOf_eq_any (nested : placement ≠ .variant) {typed : Path × Shape Declaration}
    (based : d.typeOf id path placement = .ok typed) :
    typed.2 = .any ↔ d.SaysAny id ∨ ¬ d.IsTyped id ∧ ¬ d.IsFlagged id := by
  rw [ordered.typeOf_eq] at based
  by_cases plain : ∀ a ∈ Directive.base, (d.node id).extension? a.name = none
  · have made := Declaration.base_of_none (ordered.directive?_eq_none plain) based
    rw [Declaration.unannotated_eq_any nested made, ordered.isMapOrTuple_and_isDeclared,
      ordered.content_valueAt, Content.typeExpression?_mapParts]
    constructor
    · rintro (any | ⟨none, undeclared⟩)
      · exact .inl (.expression any)
      · exact .inr (not_or.1 (mt (isTyped_or_isFlagged_iff plain none).1 undeclared))
    · rintro ((any | ⟨found⟩) | untyped)
      · exact .inl any
      · cases (plain _ (by decide)).symm.trans found
      · have none : (d.node id).content.typeExpression? = none :=
          Option.eq_none_iff_forall_ne_some.2 fun e content => untyped.1 (.expression content)
        exact .inr ⟨none, mt (isTyped_or_isFlagged_iff plain none).2 (not_or.2 untyped)⟩
  · push Not at plain
    obtain ⟨a, among, other⟩ := plain
    obtain ⟨held, found⟩ := Option.ne_none_iff_exists'.1 other
    have isTyped : d.IsTyped id := .directive among found
    constructor
    · intro any
      obtain ⟨rfl, s, text, any⟩ :=
        (Declaration.annotated_eq_any (ordered.annotated_typed among found based)).1 any
      exact .inl (.directive found text any)
    · rintro ((content | ⟨found, text, any⟩) | untyped)
      · have held := (ordered.directive?_valueAt a).trans (congrArg (Option.map d.valueAt) found)
        have noExpression := (Declaration.base_of_directive among held based).2
        rw [ordered.content_valueAt, Content.typeExpression?_mapParts, content] at noExpression
        cases noExpression
      · have annotated := ordered.annotated_typed (a := .type) (by decide) found based
        exact (Declaration.annotated_eq_any annotated).2 ⟨rfl, _, text, any⟩
      · exact absurd isTyped untyped.1

/-- The type of a node that declares none may be anything. -/
theorem typeOf_untyped (nested : placement ≠ .variant) (untyped : ¬ d.IsTyped id)
    (unflagged : ¬ d.IsFlagged id)
    (path : Path) : d.typeOf id path placement = .ok (path, .any) := by
  have plain : ∀ a ∈ Directive.base, (d.node id).extension? a.name = none := fun a among =>
    Option.eq_none_iff_forall_ne_some.2 fun held found => untyped (.directive among found)
  have none : (d.node id).content.typeExpression? = none :=
    Option.eq_none_iff_forall_ne_some.2 fun e content => untyped (.expression content)
  have undeclared := mt (isTyped_or_isFlagged_iff plain none).2 (not_or.2 ⟨untyped, unflagged⟩)
  rw [← ordered.isMapOrTuple_and_isDeclared] at undeclared
  rw [← Content.typeExpression?_mapParts, ← ordered.content_valueAt] at none
  have listed : (Directive.base.filterMap fun a => ((d.valueAt id).directive? a).map fun held => (a, held)) = [] :=
    List.filterMap_eq_nil_iff.2 fun a among => by rw [ordered.directive?_eq_none plain a among]; rfl
  rw [ordered.typeOf_eq, Declaration.base, listed]
  dsimp only
  rw [Declaration.unannotated_of_untyped nested none undeclared]
  rfl

theorem applyAll_any (path : Path) :
    (∃ t, Constraint.applyAll path (.any : Shape Declaration) (d.valueAt id).extensions = .ok t) ↔
      d.ConstraintsFit id none := by
  rw [Constraint.applyAll_unconstrained path rfl, ordered.extensions_valueAt, List.forall_mem_map]
  refine forall₂_congr fun item _ => forall₂_congr fun a _ => ?_
  rw [Option.eq_none_iff_forall_ne_some]
  exact forall_congr' fun target =>
    ⟨fun no constrains => absurd constrains no, fun fits constrains => nomatch fits constrains⟩

section Untyped

variable (nested : placement ≠ .variant) (untyped : ¬ d.IsTyped id) (unflagged : ¬ d.IsFlagged id)
include nested untyped unflagged

theorem leavesAny_of_declared {whole : Declaration}
    (declared : d.declarationOf id path placement = .ok whole) :
    d.LeavesAny id := by
  obtain ⟨typed, narrowed, metadata, based, applied, noted, -⟩ :=
    ordered.declarationOf_eq_ok.1 declared
  obtain rfl :=
    Except.ok.inj ((ordered.typeOf_untyped nested untyped unflagged path).symm.trans based)
  exact ⟨(ordered.applyAll_any path).1 ⟨narrowed, applied⟩,
    (ordered.exists_noteAll path placement).1 ⟨metadata, noted⟩⟩

/-- A node that declares no type is read as `any`, unless its extensions cannot be read. -/
theorem declarationOf_untyped (leaves : d.LeavesAny id) (path : Path) :
    ∃ metadata, d.declarationOf id path placement = .ok (.node path .any metadata) := by
  obtain ⟨narrowed, applied⟩ := (ordered.applyAll_any path).2 leaves.unconstrained
  obtain ⟨metadata, noted⟩ := (ordered.exists_noteAll path placement).2 leaves.readable
  obtain rfl := Constraint.applyAll_fixed (.inl rfl) applied
  have any := ordered.typeOf_untyped nested untyped unflagged path
  exact ⟨metadata, ordered.declarationOf_eq_ok.2 ⟨_, _, _, any, applied, noted, rfl⟩⟩

end Untyped

end IsOrdered

end Document

namespace Extractor

/-- What is read as the items of an array or as the keys or the values of a map is `any` in the
schema if it says so, and also if it declares no type at all: then nothing about it is refused but
what its extensions say. -/
theorem run_items {d : Document} (built : d.IsBuilt) {id : NodeId} {path : Path}
    (item : d.IsItem id path) :
    (∀ x, run d = .ok x →
      ∃ whole, d.declarationOf id path .nested = .ok whole ∧ (∃ y, x.schema.Declares y whole) ∧
      ∀ y, x.schema.Declares y whole → ∃ node, x.schema.node? y = some node ∧
        (node.shape = .any ↔ d.SaysAny id ∨ ¬ d.IsTyped id ∧ ¬ d.IsFlagged id)) ∧
      (¬ d.IsTyped id → ¬ d.IsFlagged id →
        (d.LeavesAny id → ∃ metadata,
          d.declarationOf id path .nested = .ok (.node path .any metadata)) ∧
        (¬ d.LeavesAny id → ∃ error, run d = .error error)) := by
  have ordered := built.isOrdered
  have isRead := item.isRead
  have nested : Placement.nested ≠ .variant := nofun
  refine ⟨fun x extracted => ?_, fun untyped unflagged => ⟨fun leaves => ?_, fun unreadable => ?_⟩⟩
  · obtain ⟨whole, declared, declares⟩ := isRead.declared_of_run ordered extracted
    refine ⟨whole, declared, declares, fun y declares => ?_⟩
    obtain ⟨laid, found, own, -⟩ := declares.found
    obtain ⟨typed, narrowed, metadata, based, applied, -, rfl⟩ :=
      ordered.declarationOf_eq_ok.1 declared
    refine ⟨_, found, ?_⟩
    calc laid = .any ↔ laid.skeleton = .any := Shape.skeleton_eq_any.symm
      _ ↔ narrowed = .any := own ▸ Shape.skeleton_eq_any
      _ ↔ typed.2 = .any := Constraint.applyAll_eq_any (ordered.typeOf_sound based).1 applied
      _ ↔ _ := ordered.typeOf_eq_any nested based
  · exact ordered.declarationOf_untyped nested untyped unflagged leaves path
  · exact isRead.refused ordered fun whole declared =>
      unreadable (ordered.leavesAny_of_declared nested untyped unflagged declared)

/-- Lists of scores under the names of players, where the type of the scores is misspelt. -/
private def scores : Document :=
  ⟨#[⟨.hole, [("map", 1)]⟩, ⟨.map [(.ident "key", 2), (.ident "value", 3)], []⟩,
    ⟨.primitive (.text ⟨"text", .implicit⟩), []⟩, ⟨.hole, [("array", 4)]⟩,
    ⟨.primitive (.text ⟨"intger!", .implicit⟩), []⟩]⟩

private theorem scores_isItem :
    scores.IsItem 4 [.ext Directive.map.name, .ident (utf8 "value"), .ext Directive.array.name] :=
  have map : (scores.node Document.root).extension? Directive.map.name = some 1 := rfl
  have value : scores.IsRead 3 [.ext Directive.map.name, .ident (utf8 "value")] .nested :=
    .mapPart .root map (.inr rfl) rfl
  .item value rfl

private theorem scores_untyped : ¬ scores.IsTyped 4 := by
  intro typed
  cases typed with
  | expression content => cases content
  | directive among found => cases found
  | entry content inside declaring => cases content
  | element content inside declaring => cases content

/-- The schema has the lists, and they may hold anything. -/
theorem run_items_scores :
    scores.IsBuilt ∧ ¬ scores.IsTyped 4 ∧ ∃ x, run scores = .ok x ∧ ∃ whole y node,
    scores.declarationOf 4 [.ext Directive.map.name, .ident (utf8 "value"),
      .ext Directive.array.name] .nested =
        .ok whole ∧
      x.schema.Declares y whole ∧ x.schema.node? y = some node ∧ node.shape = .any := by
  have built : scores.IsBuilt :=
    .of_run [.ensure [.ext "map"] 0, .insert 1 (.ident "key"), .insert 1 (.ident "value"),
      .ensure [.ext "array"] 3,
      .assign 2 (.text ⟨"text", .implicit⟩), .assign 4 (.text ⟨"intger!", .implicit⟩)] rfl rfl
  have unflagged : ¬ scores.IsFlagged 4 := fun flagged => nomatch flagged.flag
  obtain ⟨x, extracted⟩ : ∃ x, run scores = .ok x := ⟨_, rfl⟩
  obtain ⟨whole, declared, ⟨y, declares⟩, each⟩ := (run_items built scores_isItem).1 x extracted
  obtain ⟨node, found, any⟩ := each y declares
  exact ⟨built, scores_untyped, x, extracted, whole, y, node, declared, declares, found,
    any.2 (.inr ⟨scores_untyped, unflagged⟩)⟩

end Extractor

end DocSchema
