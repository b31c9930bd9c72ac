import DocSchema.Proofs.Concurring
import DocSchema.Proofs.RecordFields

set_option autoImplicit false

namespace DocSchema

theorem isSome_toOption {ε α : Type} {x : Except ε α} :
    x.toOption.isSome = true ↔ ∃ a, x = .ok a := by
  cases x with
  | error e => exact ⟨nofun, nofun⟩
  | ok a => exact ⟨fun _ => ⟨a, rfl⟩, fun _ => rfl⟩

theorem lookup?_cons {κ α : Type} [DecidableEq κ] (k : κ) (e : κ × α) (items : List (κ × α)) :
    lookup? k (e :: items) = if e.1 = k then some e.2 else lookup? k items := by
  rw [lookup?, List.find?_cons]
  by_cases same : e.1 = k
  · rw [if_pos same, beq_iff_eq.2 same]
    rfl
  · rw [if_neg same, beq_eq_false_iff_ne.2 same]
    rfl

@[simp] theorem Shape.target?_skeleton {α : Type} (s : Shape α) :
    s.skeleton.target? = s.target? := by
  cases s <;> rfl

@[simp] theorem Shape.counts_skeleton {α : Type} (s : Shape α) : s.skeleton.counts = s.counts := by
  cases s <;> rfl

theorem Directive.ofName?_name (a : Directive) : ofName? a.name = some a := by
  cases a <;> decide +kernel

namespace Metadata

variable {placement : Placement} {name : Bytes} {v : Value} {m n : Metadata} {path : Path}
  {x : List (Bytes × Value)}

/-- What an extension adds to what is said about a type. -/
inductive Notes (placement : Placement) (name : Bytes) (v : Value) (m : Metadata) : Metadata → Prop
  | description {s : Bytes} (named : Directive.ofName? name = some .description)
      (text : v.textContent? = some s) :
      Notes placement name v m { m with description := some s }
  | deprecated {b : Bool} (named : Directive.ofName? name = some .deprecated)
      (boolean : v.bool? = some b) :
      Notes placement name v m { m with isDeprecated := b }
  | default (named : Directive.ofName? name = some .default) :
      Notes placement name v m { m with defaultValue := some v }
  | examples {vs : List Value} (named : Directive.ofName? name = some .examples)
      (array : v.content.array? = some vs) :
      Notes placement name v m { m with examples := m.examples ++ vs }
  /-- The other directives say nothing about a type. -/
  | directive {a : Directive} (named : Directive.ofName? name = some a)
      (other : a ∉ [Directive.description, .deprecated, .default, .examples]) :
      Notes placement name v m m
  | naming (unknown : Directive.ofName? name = none)
      (option : (isNamingOption name && placement.isNamed) = true) :
      Notes placement name v m m
  | kept (unknown : Directive.ofName? name = none)
      (plain : (isNamingOption name && placement.isNamed) = false) :
      Notes placement name v m { m with extensions := m.extensions ++ [(name, v)] }

theorem notes_of_note (noted : note placement name v m = .ok n) : Notes placement name v m n := by
  unfold note at noted
  split at noted
  · next named =>
    split at noted
    · next text => exact Except.ok.inj noted ▸ .description named text
    · cases noted
  · next named =>
    split at noted
    · next boolean => exact Except.ok.inj noted ▸ .deprecated named boolean
    · cases noted
  · next named => exact Except.ok.inj noted ▸ .default named
  · next named =>
    split at noted
    · next array => exact Except.ok.inj noted ▸ .examples named array
    · cases noted
  · next a description deprecated default examples named =>
    refine Except.ok.inj noted ▸ .directive named ?_
    simp only [List.mem_cons, List.not_mem_nil, or_false, not_or]
    exact ⟨description, deprecated, default, examples⟩
  · next unknown =>
    split at noted
    · next option => exact Except.ok.inj noted ▸ .naming unknown option
    · next plain => exact Except.ok.inj noted ▸ .kept unknown (Bool.eq_false_iff.2 plain)

namespace Notes

variable (notes : Notes placement name v m n)
include notes

theorem description_eq : n.description =
    if Directive.ofName? name = some .description then v.textContent? else m.description := by
  cases notes <;> simp_all

theorem isDeprecated_eq : n.isDeprecated =
    if Directive.ofName? name = some .deprecated then v.bool?.getD false else m.isDeprecated := by
  cases notes <;> simp_all

theorem defaultValue_eq : n.defaultValue =
    if Directive.ofName? name = some .default then some v else m.defaultValue := by
  cases notes <;> simp_all

theorem examples_eq : n.examples =
    if Directive.ofName? name = some .examples then m.examples ++ v.content.array?.getD [] else m.examples := by
  cases notes <;> simp_all

end Notes

/-- What only the extension of one name says is what it says, if it is there, and what was said
before, if not. -/
theorem noteAll_says {β : Type} {said : Metadata → β} {a : Directive} (set : Value → β → β)
    (step : ∀ name v m n, Notes placement name v m n →
      said n = if Directive.ofName? name = some a then set v (said m) else said m)
    (distinct : (x.map (·.1)).Nodup) (noted : noteAll placement path m x = .ok n) :
    said n = (lookup? a.name x).elim (said m) (set · (said m)) := by
  induction x generalizing m with
  | nil => exact congrArg said (Except.ok.inj noted).symm
  | cons e x ih =>
      obtain ⟨fresh, distinct⟩ := List.nodup_cons.1 distinct
      rw [noteAll] at noted
      cases first : note placement e.1 e.2 m with
      | error requirement =>
          rw [first] at noted
          cases noted
      | ok k =>
          rw [first] at noted
          have later := ih distinct noted
          rw [step _ _ _ _ (notes_of_note first)] at later
          rw [lookup?_cons]
          by_cases named : Directive.ofName? e.1 = some a
          · have same := Directive.name_of_ofName? named
            rw [if_pos named, lookup?_eq_none.2 (same ▸ fresh)] at later
            rw [if_pos same.symm]
            exact later
          · have apart : e.1 ≠ a.name := fun same => named (same ▸ Directive.ofName?_name a)
            rw [if_neg named] at later
            rw [if_neg apart]
            exact later

/-- Extensions without a meaning are kept as they are, in their order; naming options are where they
are not read. -/
theorem noteAll_extensions (noted : noteAll placement path m x = .ok n) :
    n.extensions = m.extensions ++ x.filter fun e =>
      (Directive.ofName? e.1).isNone && !(isNamingOption e.1 && placement.isNamed) := by
  induction x generalizing m with
  | nil =>
      obtain rfl := Except.ok.inj noted
      rw [List.filter_nil, List.append_nil]
  | cons e x ih =>
      rw [noteAll] at noted
      cases first : note placement e.1 e.2 m with
      | error requirement =>
          rw [first] at noted
          cases noted
      | ok k =>
          rw [first] at noted
          rw [ih noted, List.filter_cons]
          cases notes_of_note first with
          | kept unknown plain => simp [unknown, plain]
          | naming unknown option => simp [unknown, option]
          | description named | deprecated named | default named | examples named | directive named => simp [named]

end Metadata

namespace Document

variable (d : Document)

/-- The type of a node before its constraints, and the path of its source. -/
def typeOf (id : NodeId) (path : Path) (placement : Placement) :
    Extract (Path × Shape Declaration) :=
  Extractor.fresh d (Extractor.base d (Extractor.readTo d d.size) id path placement)

/-- Whether all constraints among the extensions of a node apply to types of a kind. -/
def ConstraintsFit (id : NodeId) (kind : Option Constraint.Target) : Prop :=
  ∀ item ∈ (d.node id).extensions, ∀ a, Directive.ofName? item.1 = some a → ∀ target,
    Constraint.target? a = some target → kind = some target

/-- Whether the metadata is what the extensions of a node say, where naming options are not read. -/
structure Annotates (id : NodeId) (m : Metadata) : Prop where
  readable : ∀ item ∈ (d.node id).extensions, Metadata.isReadable item.1 (d.valueAt item.2) = true
  description : m.description = ((d.node id).extension? Directive.description.name).bind fun held =>
    (d.valueAt held).textContent?
  isDeprecated : m.isDeprecated =
    (((d.node id).extension? Directive.deprecated.name).bind fun held =>
    (d.valueAt held).bool?).getD false
  defaultValue : m.defaultValue = ((d.node id).extension? Directive.default.name).map d.valueAt
  examples : m.examples = (((d.node id).extension? Directive.examples.name).bind fun held =>
    (d.valueAt held).content.array?).getD []
  /-- Extensions without a meaning are kept, in their order. -/
  extensions : m.extensions =
    ((d.node id).extensions.filter fun item => (Directive.ofName? item.1).isNone).map
    fun item => (item.1, d.valueAt item.2)

variable {d}

namespace IsOrdered

variable (ordered : d.IsOrdered) {id : NodeId} {path : Path} {placement : Placement}
include ordered

theorem agreeBelow (id : NodeId) :
    Extractor.AgreeBelow d (Extractor.readTo d d.size) Declaration.ofValue id :=
  fun child _ => Extractor.declaration_computes ordered child

theorem typeOf_eq (id : NodeId) (path : Path) (placement : Placement) :
    d.typeOf id path placement =
      Declaration.base Declaration.ofValue (d.valueAt id) path placement :=
  (Extractor.base_computes ordered path (ordered.agreeBelow id) placement).fresh

/-- A node is read as its type with the constraints and the metadata, where the nodes below are read
the same way. -/
theorem declarationOf_readWith (id : NodeId) (path : Path) (placement : Placement) :
    d.declarationOf id path placement =
      Declaration.readWith Declaration.ofValue (d.valueAt id) path placement := by
  obtain ⟨k, size⟩ : ∃ k, (d.valueAt id).size = k + 1 :=
    Nat.exists_eq_add_one.2 (d.valueAt id).size_pos
  have agree : Extractor.AgreeBelow d (Extractor.readTo d d.size) (Declaration.readTo k) id := by
    intro child below
    have smaller := below.smaller
    exact Extractor.readTo_computes ordered (Nat.sub_le _ _) (by omega)
  rw [ordered.declarationOf_eq, Declaration.ofValue, size, Declaration.readTo,
    ← (Extractor.readWith_computes ordered agree path placement).fresh]
  exact (Extractor.readWith_computes ordered (ordered.agreeBelow id) path placement).fresh

/-- What a node declares is made of its type in two steps: by its constraints, then by its
metadata. -/
theorem declarationOf_eq_ok {whole : Declaration} : d.declarationOf id path placement = .ok whole ↔
    ∃ typed narrowed metadata, d.typeOf id path placement = .ok typed ∧
      Constraint.applyAll path typed.2 (d.valueAt id).extensions = .ok narrowed ∧
      Metadata.noteAll placement path {} (d.valueAt id).extensions = .ok metadata ∧
      whole = .node typed.1 narrowed metadata := by
  rw [ordered.declarationOf_readWith, ordered.typeOf_eq, Declaration.readWith]
  simp only [bind_eq_ok]
  constructor
  · rintro ⟨typed, based, narrowed, applied, metadata, noted, same⟩
    exact ⟨typed, narrowed, metadata, based, applied, noted, (Except.ok.inj same).symm⟩
  · rintro ⟨typed, narrowed, metadata, based, applied, noted, rfl⟩
    exact ⟨typed, based, narrowed, applied, metadata, noted, rfl⟩

theorem typeOf_sound {typed : Path × Shape Declaration}
    (based : d.typeOf id path placement = .ok typed) :
    typed.2.IsSoundBelow :=
  Declaration.base_sound Declaration.ofValue_sound _ _ _ typed
    (ordered.typeOf_eq id path placement ▸ based)

/-- All metadata of a node can be read if each piece of it can. -/
theorem exists_noteAll (path : Path) (placement : Placement) :
    (∃ m, Metadata.noteAll placement path {} (d.valueAt id).extensions = .ok m) ↔
      ∀ item ∈ (d.node id).extensions, Metadata.isReadable item.1 (d.valueAt item.2) = true := by
  rw [← isSome_toOption, Metadata.isSome_noteAll, ordered.extensions_valueAt, List.all_map,
    List.all_eq_true]
  rfl

theorem extensionNames_nodup (id : NodeId) : ((d.valueAt id).extensions.map (·.1)).Nodup := by
  rw [ordered.extensions_valueAt, List.map_map]
  exact (ordered.orderly id).names

/-- The constraints of a node apply to its type and leave the kind of it. -/
theorem fits {whole : Declaration} (declared : d.declarationOf id path placement = .ok whole) :
    ∃ typed, d.typeOf id path placement = .ok typed ∧ whole.shape.target? = typed.2.target? ∧
      d.ConstraintsFit id typed.2.target? := by
  obtain ⟨typed, narrowed, metadata, based, applied, -, rfl⟩ :=
    ordered.declarationOf_eq_ok.1 declared
  obtain ⟨kind, each⟩ := Constraint.applyAll_fits (ordered.typeOf_sound based).1 applied
  rw [ordered.extensions_valueAt, List.forall_mem_map] at each
  exact ⟨typed, based, kind, each⟩

/-- What is said about the type of a node is what the extensions of the node say. -/
theorem annotates {whole : Declaration} (unnamed : placement.isNamed = false)
    (declared : d.declarationOf id path placement = .ok whole) : d.Annotates id whole.metadata := by
  obtain ⟨typed, narrowed, metadata, -, -, noted, rfl⟩ := ordered.declarationOf_eq_ok.1 declared
  have distinct := ordered.extensionNames_nodup id
  have found (a : Directive) : lookup? a.name (d.valueAt id).extensions =
      ((d.node id).extension? a.name).map d.valueAt := ordered.extension?_valueAt id a.name
  have readable := (ordered.exists_noteAll path placement).1 ⟨metadata, noted⟩
  have description := Metadata.noteAll_says (fun v _ => v.textContent?)
    (fun _ _ _ _ => Metadata.Notes.description_eq) distinct noted
  have isDeprecated := Metadata.noteAll_says (fun v _ => v.bool?.getD false)
    (fun _ _ _ _ => Metadata.Notes.isDeprecated_eq) distinct noted
  have defaultValue := Metadata.noteAll_says (fun v _ => some v)
    (fun _ _ _ _ => Metadata.Notes.defaultValue_eq) distinct noted
  have examples := Metadata.noteAll_says (fun v old => old ++ v.content.array?.getD [])
    (fun _ _ _ _ => Metadata.Notes.examples_eq) distinct noted
  rw [found] at description isDeprecated defaultValue examples
  have extensions := Metadata.noteAll_extensions noted
  rw [ordered.extensions_valueAt, List.filter_map] at extensions
  refine ⟨readable, description.trans ?_, isDeprecated.trans ?_, defaultValue.trans ?_,
    examples.trans ?_, extensions.trans ?_⟩
  · cases (d.node id).extension? Directive.description.name <;> rfl
  · cases (d.node id).extension? Directive.deprecated.name <;> rfl
  · cases (d.node id).extension? Directive.default.name <;> rfl
  · cases (d.node id).extension? Directive.examples.name <;> rfl
  · rw [unnamed]
    simp [Function.comp_def]

end IsOrdered

end Document

end DocSchema
