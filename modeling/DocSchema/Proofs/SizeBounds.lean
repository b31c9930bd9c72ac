import DocSchema.Proofs.Annotations
import DocSchema.Proofs.Extracted

set_option autoImplicit false

namespace DocSchema

namespace Constraint

def Target.isCounted : Target → Bool
  | .text => true
  | .array => true
  | .map => true
  | _ => false

/-- The bounds that a type of the kind keeps of those that were set: maps keep all, others those
with some count. -/
def Target.keeps? (kind : Target) (c : Counts) : Option Counts :=
  if kind = .map then some c else c.open?

/-- The bounds on the count of a type of the kind after an extension, if that holds the counts that
it should. -/
def boundsAfter? (kind : Target) (c : Counts) (e : Bytes × Value) : Option Counts :=
  (Directive.ofName? e.1).elim (some c) fun a =>
    if target? a = some kind ∧ ends a ≠ [] then bound e.2 c (ends a) else some c

end Constraint

namespace Shape

variable {α : Type}

def withCounts (c : Counts) : Shape α → Shape α
  | .text _ pat language => .text c pat language
  | .array item _ isUnique => .array item c isUnique
  | .map key value _ => .map key value c
  | s => s

theorem counts_withCounts {s : Shape α} {kind : Constraint.Target} (counted : kind.isCounted = true)
    (isKind : s.target? = some kind) (c : Counts) : (s.withCounts c).counts = c := by
  cases s with
  | text | array | map => rfl
  | _ => cases isKind <;> cases counted

/-- Some count lies within the bounds of a sound type unless it is a map. -/
theorem IsSound.counts_isOrdered {s : Shape α} (sound : s.IsSound)
    (notMap : s.target? ≠ some .map) :
    s.counts.IsOrdered := by
  cases s with
  | text length pat language => exact sound.1
  | array item length isUnique => exact sound
  | map key value size => exact absurd rfl notMap
  | _ => exact nofun

end Shape

namespace Constraint

variable {α : Type} {kind : Target} {a : Directive} {s t : Shape α} {v : Value} {c : Counts}
  {e : Bytes × Value}
  {x : List (Bytes × Value)}

theorem isCounted_cases (counted : kind.isCounted = true) :
    kind = .text ∨ kind = .array ∨ kind = .map := by
  cases kind <;> simp [Target.isCounted] at counted ⊢

/-- A constraint with bounds sets them, and what is left is kept or refused as the kind of the type
demands. -/
theorem constrain?_bounds (counted : kind.isCounted = true) (isKind : s.target? = some kind)
    (constrains : target? a = some kind) (bounds : ends a ≠ []) :
    constrain? a v s = ((bound v s.counts (ends a)).bind kind.keeps?).map s.withCounts := by
  rcases isCounted_cases counted with rfl | rfl | rfl
  · cases s with
    | text length pat language => exact text_bounded constrains bounds
    | _ => cases isKind
  · cases s with
    | array item length isUnique => exact array_bounded constrains bounds
    | _ => cases isKind
  · cases s with
    | map key value size =>
        have all : Target.map.keeps? = some := rfl
        rw [all, Option.bind_fun_some]
        exact map_bounded constrains
    | _ => cases isKind

theorem eq_of_keeps? {b : Counts} (kept : kind.keeps? b = some c) : b = c := by
  unfold Target.keeps? at kept
  split at kept
  · exact Option.some.inj kept
  · exact (Counts.open?_eq_some.1 kept).2

theorem counts_ext {b c : Counts} (same : ∀ e, b.at? e = c.at? e) : b = c := by
  have lower := same .lower
  have upper := same .upper
  cases b
  cases c
  simp_all [Counts.at?]

/-- An extension leaves the kind of a type, and the bounds after it are those that it sets. -/
theorem boundsAfter?_of_applied (counted : kind.isCounted = true) (isKind : s.target? = some kind)
    (sound : s.IsSound)
    (applied : applied? s e = some t) :
    t.target? = some kind ∧ boundsAfter? kind s.counts e = some t.counts := by
  unfold boundsAfter?
  cases named : Directive.ofName? e.1 with
  | none =>
      rw [applied?_eq_some s named] at applied
      obtain rfl := Option.some.inj applied
      exact ⟨isKind, rfl⟩
  | some a =>
      rw [applied?_eq s named] at applied
      obtain ⟨same, kept⟩ := constrain?_leaves sound applied
      refine ⟨same.trans isKind, ?_⟩
      dsimp only [Option.elim]
      by_cases bounding : target? a = some kind ∧ ends a ≠ []
      · rw [constrain?_bounds counted isKind bounding.1 bounding.2] at applied
        obtain ⟨c, found, rfl⟩ := Option.map_eq_some_iff.1 applied
        obtain ⟨b, bounded, keeps⟩ := Option.bind_eq_some_iff.1 found
        rw [if_pos bounding, bounded, eq_of_keeps? keeps, Shape.counts_withCounts counted isKind]
      · rw [if_neg bounding]
        refine congrArg some (counts_ext fun e => (kept e fun constrains among => bounding ⟨?_, ?_⟩).symm)
        · exact constrains.trans isKind
        · exact List.ne_nil_of_mem among

/-- The bounds after all extensions are those that they set one after another. -/
theorem boundsAfter?_of_applyAll {path : Path} (counted : kind.isCounted = true)
    (isKind : s.target? = some kind) (sound : s.IsSound) (applied : applyAll path s x = .ok t) :
    t.target? = some kind ∧ x.foldlM (boundsAfter? kind) s.counts = some t.counts := by
  replace applied := foldlM_of_applyAll applied
  induction x generalizing s with
  | nil =>
      obtain rfl := Option.some.inj applied
      exact ⟨isKind, rfl⟩
  | cons e x ih =>
      obtain ⟨u, first, further⟩ := Option.bind_eq_some_iff.1 applied
      obtain ⟨isKind, bounds⟩ := boundsAfter?_of_applied counted isKind sound first
      rw [List.foldlM_cons, bounds]
      exact ih isKind (isSound_of_applied? sound first) further

theorem apply_eq_malformed {name : Bytes} {defect : Defect}
    (named : Directive.ofName? name = some a)
    (other : target? a ≠ some .union) (refused : apply name v s = .error defect) :
    ∃ requirement, defect = .malformed name requirement := by
  have of_malformed {u : Except Requirement (Shape α)}
      (refused : malformed name u = .error defect) :
      ∃ requirement, defect = .malformed name requirement := by
    cases u with
    | ok t => cases refused
    | error requirement => exact ⟨requirement, (Except.error.inj refused).symm⟩
  unfold apply at refused
  rw [named] at refused
  dsimp only at refused
  split at refused
  · cases refused
  · exact of_malformed refused
  · exact of_malformed refused
  · exact of_malformed refused
  · exact of_malformed refused
  · split at refused
    · cases refused
    · exact ⟨_, (Except.error.inj refused).symm⟩
  · next union => exact absurd union other

/-- An extension that holds no counts is refused, and so is one that leaves no length of a text or
an array. -/
theorem apply_of_spoilt (counted : kind.isCounted = true) (isKind : s.target? = some kind)
    (sound : s.IsSound)
    (spoilt : ∀ c, boundsAfter? kind s.counts e = some c → kind ≠ .map ∧ ¬ c.IsOrdered) :
    ∃ requirement, apply e.1 e.2 s = .error (.malformed e.1 requirement) := by
  have changed : boundsAfter? kind s.counts e ≠ some s.counts := by
    intro same
    obtain ⟨notMap, empty⟩ := spoilt _ same
    exact empty (sound.counts_isOrdered fun map => notMap (Option.some.inj (isKind.symm.trans map)))
  unfold boundsAfter? at changed spoilt
  cases named : Directive.ofName? e.1 with
  | none =>
      rw [named] at changed
      exact absurd rfl changed
  | some a =>
      rw [named] at changed spoilt
      dsimp only [Option.elim] at changed spoilt
      split at changed
      case isFalse => exact absurd rfl changed
      case isTrue bounding =>
        rw [if_pos bounding] at spoilt
        have left : (bound e.2 s.counts (ends a)).bind kind.keeps? = none := by
          rw [Option.bind_eq_none_iff]
          intro c bounded
          obtain ⟨notMap, empty⟩ := spoilt c bounded
          rw [Target.keeps?, if_neg notMap]
          exact if_pos (Bool.not_eq_false _ ▸ mt Counts.isOrdered_iff.2 empty)
        have none : applied? s e = none := by
          rw [applied?_eq s named, constrain?_bounds counted isKind bounding.1 bounding.2, left]
          rfl
        cases done : apply e.1 e.2 s with
        | ok t =>
            rw [applied?, done] at none
            cases none
        | error defect =>
            have noUnion : target? a ≠ some .union := by
              rw [bounding.1]
              rintro ⟨⟩
              cases counted
            obtain ⟨requirement, rfl⟩ := apply_eq_malformed named noUnion done
            exact ⟨requirement, rfl⟩

/-- A pair of counts that is reversed holds no bounds on the length of a text. -/
theorem boundsAfter?_reversed {v first last : Value} {m n : Nat}
    (pair : v.pair? = some (first, last))
    (lower : first.count? = some m) (upper : last.count? = some n) (reversed : n < m) (c : Counts) :
    boundsAfter? .text c ("length", v) = none := by
  have refused : counts v = .error .orderedCounts := by
    simp only [counts, pair, lower, upper]
    exact if_neg (Nat.not_le.2 reversed)
  change (counts v).toOption = none
  rw [refused]
  rfl

theorem applyAll_append (path : Path) (s : Shape α) (x y : List (Bytes × Value)) :
    applyAll path s (x ++ y) = applyAll path s x >>= fun t => applyAll path t y := by
  induction x generalizing s with
  | nil => rfl
  | cons e x ih =>
      rw [List.cons_append, applyAll, applyAll]
      cases apply e.1 e.2 s with
      | ok t => exact ih t
      | error defect => rfl

/-- An extension can be applied to a map if it is no constraint on other types and holds a count if
it should. -/
theorem applied?_map (isMap : s.target? = some .map) : (∃ t, applied? s e = some t) ↔
    (∀ a, Directive.ofName? e.1 = some a →
      ∀ target, target? a = some target → some Target.map = some target) ∧
      (boundsAfter? .map s.counts e).isSome = true := by
  unfold boundsAfter?
  cases named : Directive.ofName? e.1 with
  | none =>
      rw [applied?_eq_some s named]
      exact ⟨fun _ => ⟨nofun, rfl⟩, fun _ => ⟨s, rfl⟩⟩
  | some a =>
      rw [applied?_eq s named]
      dsimp only [Option.elim]
      cases constrains : target? a with
      | none =>
          rw [constrain?_of_idle constrains, if_neg nofun]
          refine ⟨fun _ => ⟨fun b same target constrains' => ?_, rfl⟩, fun _ => ⟨s, rfl⟩⟩
          obtain rfl := Option.some.inj same
          cases constrains.symm.trans constrains'
      | some target =>
          by_cases same : target = .map
          · subst same
            rw [constrain?_bounds rfl isMap constrains (map_ends constrains),
              if_pos ⟨rfl, map_ends constrains⟩]
            have all : Target.map.keeps? = some := rfl
            rw [all, Option.bind_fun_some, ← Option.isSome_iff_exists, Option.isSome_map]
            refine ⟨fun held => ⟨fun b same target constrains' => ?_, held⟩, And.right⟩
            obtain rfl := Option.some.inj same
            exact constrains.symm.trans constrains'
          · have none : constrain? a e.2 s = none :=
              constrain?_eq_none constrains
                fun kind => same (Option.some.inj (kind.symm.trans isMap))
            rw [none]
            exact ⟨nofun, fun both => absurd (Option.some.inj (both.1 a rfl target constrains)).symm same⟩

/-- Extensions can be applied to a map if each of them can by itself: whatever bounds they leave,
none is refused. -/
theorem applyAll_map (path : Path) (isMap : s.target? = some .map) :
    (∃ t, applyAll path s x = .ok t) ↔
    (∀ e ∈ x, ∀ a, Directive.ofName? e.1 = some a → ∀ target, target? a = some target →
        some Target.map = some target) ∧ (x.foldlM (boundsAfter? .map) s.counts).isSome = true := by
  rw [← isSome_toOption, toOption_applyAll]
  induction x generalizing s with
  | nil => exact ⟨fun _ => ⟨nofun, rfl⟩, fun _ => rfl⟩
  | cons e x ih =>
      have sound : s.IsSound := by
        cases s with
        | map key value size => trivial
        | _ => cases isMap
      rw [List.foldlM_cons, List.foldlM_cons, List.forall_mem_cons]
      constructor
      · intro applies
        obtain ⟨t, applied⟩ := Option.isSome_iff_exists.1 applies
        obtain ⟨u, first, further⟩ := Option.bind_eq_some_iff.1 applied
        obtain ⟨fits, -⟩ := (applied?_map isMap).1 ⟨u, first⟩
        obtain ⟨isMap, bounds⟩ := boundsAfter?_of_applied rfl isMap sound first
        obtain ⟨rest, held⟩ := (ih isMap).1 (Option.isSome_iff_exists.2 ⟨t, further⟩)
        rw [bounds]
        exact ⟨⟨fits, rest⟩, held⟩
      · rintro ⟨⟨fits, rest⟩, held⟩
        obtain ⟨c, folded⟩ := Option.isSome_iff_exists.1 held
        obtain ⟨b, bounded, further⟩ := Option.bind_eq_some_iff.1 folded
        obtain ⟨u, first⟩ := (applied?_map isMap).2 ⟨fits, Option.isSome_iff_exists.2 ⟨b, bounded⟩⟩
        obtain ⟨isMap, bounds⟩ := boundsAfter?_of_applied rfl isMap sound first
        obtain rfl := Option.some.inj (bounded.symm.trans bounds)
        rw [first]
        exact (ih isMap).2 ⟨rest, Option.isSome_iff_exists.2 ⟨c, further⟩⟩

end Constraint

namespace Document

variable (d : Document)

/-- The bounds on the count of a type of the kind after some extensions of a node, if they hold the
counts that they should. -/
def boundsAfter? (kind : Constraint.Target) (items : List (Bytes × NodeId)) : Option Counts :=
  items.foldlM (fun c item => Constraint.boundsAfter? kind c (item.1, d.valueAt item.2)) {}

/-- The type that some extensions of a node make of another one. -/
def constrained (path : Path) (s : Shape Declaration) (items : List (Bytes × NodeId)) :
    Extract (Shape Declaration) :=
  Constraint.applyAll path s (items.map fun item => (item.1, d.valueAt item.2))

variable {d}

theorem boundsAfter?_eq (kind : Constraint.Target) (items : List (Bytes × NodeId)) :
    d.boundsAfter? kind items =
    (items.map fun item => (item.1, d.valueAt item.2)).foldlM (Constraint.boundsAfter? kind) {} :=
  List.foldlM_map.symm

namespace IsOrdered

variable (ordered : d.IsOrdered) {id : NodeId} {path : Path} {placement : Placement}
  {typed : Path × Shape Declaration}
  {kind : Constraint.Target} (based : d.typeOf id path placement = .ok typed)

include ordered based

/-- A type has no bounds before its constraints. -/
theorem typeOf_counts : typed.2.counts = {} :=
  Declaration.base_counts _ _ _ _ typed (ordered.typeOf_eq id path placement ▸ based)

/-- The bounds of a declared type are those that its extensions set. -/
theorem boundsAfter?_of_declared (counted : kind.isCounted = true)
    (isKind : typed.2.target? = some kind)
    {whole : Declaration} (declared : d.declarationOf id path placement = .ok whole) :
    whole.shape.target? = some kind ∧
    d.boundsAfter? kind (d.node id).extensions = some whole.shape.counts := by
  obtain ⟨typed', narrowed, metadata, based', applied, -, rfl⟩ :=
    ordered.declarationOf_eq_ok.1 declared
  obtain rfl := Except.ok.inj (based.symm.trans based')
  rw [boundsAfter?_eq, ← ordered.extensions_valueAt, ← ordered.typeOf_counts based]
  exact Constraint.boundsAfter?_of_applyAll counted isKind (ordered.typeOf_sound based).1 applied

/-- An extension is refused at its place if it holds no counts or leaves no length of a text or an
array. -/
theorem declarationOf_of_spoilt (counted : kind.isCounted = true)
    (isKind : typed.2.target? = some kind)
    {before after : List (Bytes × NodeId)} {item : Bytes × NodeId}
    (extensions : (d.node id).extensions = before ++ item :: after) {narrowed : Shape Declaration}
    (applied : d.constrained path typed.2 before = .ok narrowed)
    (spoilt : ∀ c, d.boundsAfter? kind (before ++ [item]) = some c → kind ≠ .map ∧ ¬ c.IsOrdered) :
    ∃ requirement,
      d.declarationOf id path placement =
        refuse (.malformed item.1 requirement) (path ++ [.ext item.1]) := by
  have sound := (ordered.typeOf_sound based).1
  obtain ⟨isKind', bounds⟩ := Constraint.boundsAfter?_of_applyAll counted isKind sound applied
  rw [boundsAfter?_eq, List.map_append, List.foldlM_append, ← ordered.typeOf_counts based,
    bounds] at spoilt
  have last (c : Counts) (bounded : Constraint.boundsAfter? kind narrowed.counts (item.1, d.valueAt item.2) = some c) :=
    spoilt c ((bind_pure _).trans bounded)
  have sound' := (Constraint.applyAll_gives path _ sound narrowed applied).1
  obtain ⟨requirement, refused⟩ := Constraint.apply_of_spoilt counted isKind' sound' last
  refine ⟨requirement, ?_⟩
  have stops : Constraint.applyAll path typed.2 (d.valueAt id).extensions =
      refuse (.malformed item.1 requirement) (path ++ [.ext item.1]) := by
    rw [ordered.extensions_valueAt, extensions, List.map_append, Constraint.applyAll_append]
    rw [constrained] at applied
    rw [applied, List.map_cons]
    change Constraint.applyAll path narrowed _ = _
    rw [Constraint.applyAll, refused]
  rw [ordered.declarationOf_readWith, Declaration.readWith, ← ordered.typeOf_eq, based]
  change (Constraint.applyAll path typed.2 _ >>= _) = _
  rw [stops]
  rfl

/-- A map is read whatever bounds its extensions set. -/
theorem declarationOf_map (isMap : typed.2.target? = some .map) :
    (∃ whole, d.declarationOf id path placement = .ok whole) ↔
      d.ConstraintsFit id (some .map) ∧ (d.boundsAfter? .map (d.node id).extensions).isSome = true ∧
        ∀ item ∈ (d.node id).extensions, Metadata.isReadable item.1 (d.valueAt item.2) = true := by
  have applies := Constraint.applyAll_map (x := (d.valueAt id).extensions) path isMap
  rw [ordered.typeOf_counts based, ordered.extensions_valueAt, List.forall_mem_map,
    ← boundsAfter?_eq, ← ordered.extensions_valueAt] at applies
  rw [← ordered.exists_noteAll path placement, ← and_assoc]
  refine Iff.trans ?_ (and_congr_left' applies)
  constructor
  · rintro ⟨whole, declared⟩
    obtain ⟨typed', narrowed, metadata, based', applied, noted, -⟩ :=
      ordered.declarationOf_eq_ok.1 declared
    obtain rfl := Except.ok.inj (based.symm.trans based')
    exact ⟨⟨narrowed, applied⟩, metadata, noted⟩
  · rintro ⟨⟨narrowed, applied⟩, metadata, noted⟩
    exact ⟨_, ordered.declarationOf_eq_ok.2 ⟨typed, narrowed, metadata, based, applied, noted, rfl⟩⟩

end IsOrdered

end Document

namespace Extractor

/-- Some count lies within the bounds of every extracted type but maps. The bounds of texts, arrays
and maps are those that the extensions of their nodes set, one after another. An extension that
holds no counts in their order is refused at its place, as is one that leaves no length of a text or
an array, and then nothing is extracted. Yet a map is read whatever bounds its extensions set. -/
theorem run_sizeBounds {d : Document} (built : d.IsBuilt) :
    (∀ x, run d = .ok x → ∀ y node, x.schema.node? y = some node → node.shape.target? ≠ some .map →
      node.shape.counts.IsOrdered) ∧
    ∀ id path placement typed kind, d.IsRead id path placement →
      d.typeOf id path placement = .ok typed →
      typed.2.target? = some kind → kind.isCounted = true →
        (∀ x, run d = .ok x → ∃ whole, d.declarationOf id path placement = .ok whole ∧
          (∃ y, x.schema.Declares y whole) ∧
            ∀ y, x.schema.Declares y whole → ∃ node, x.schema.node? y = some node ∧
            node.shape.target? = some kind ∧
              d.boundsAfter? kind (d.node id).extensions = some node.shape.counts) ∧
        (∀ before item after narrowed, (d.node id).extensions = before ++ item :: after →
          d.constrained path typed.2 before = .ok narrowed →
            (∀ c, d.boundsAfter? kind (before ++ [item]) = some c → kind ≠ .map ∧ ¬ c.IsOrdered) →
              (∃ requirement, d.declarationOf id path placement =
                refuse (.malformed item.1 requirement) (path ++ [.ext item.1])) ∧
                  ∃ error, run d = .error error) ∧
        (kind = .map → ((∃ whole, d.declarationOf id path placement = .ok whole) ↔
          d.ConstraintsFit id (some .map) ∧
            (d.boundsAfter? .map (d.node id).extensions).isSome = true ∧
            ∀ item ∈ (d.node id).extensions,
              Metadata.isReadable item.1 (d.valueAt item.2) = true)) := by
  have ordered := built.isOrdered
  refine ⟨fun x extracted y node found notMap => ?_,
    fun id path placement typed kind read based isKind counted => ?_⟩
  · rw [run_eq_extract ordered] at extracted
    have sound := (extractValue_wellFormed d.value x extracted).sound y node found
    exact sound.counts_isOrdered notMap
  refine ⟨fun x extracted => ?_, fun before item after narrowed extensions applied spoilt => ?_, ?_⟩
  · obtain ⟨whole, declared, declares⟩ := read.declared_of_run ordered extracted
    refine ⟨whole, declared, declares, fun y declares => ?_⟩
    obtain ⟨laid, found, own, -⟩ := declares.found
    obtain ⟨kept, bounds⟩ := ordered.boundsAfter?_of_declared based counted isKind declared
    refine ⟨_, found, ?_, ?_⟩
    · rw [← laid.target?_skeleton, own, Shape.target?_skeleton, kept]
    · rw [← laid.counts_skeleton, own, Shape.counts_skeleton, bounds]
  · obtain ⟨requirement, refused⟩ :=
      ordered.declarationOf_of_spoilt based counted isKind extensions applied spoilt
    refine ⟨⟨requirement, refused⟩, read.refused ordered fun whole declared => ?_⟩
    cases refused.symm.trans declared
  · rintro rfl
    exact ordered.declarationOf_map based isKind

private def emptyMap : Document :=
  ⟨#[⟨.hole, [("map", 1), ("min-size", 4), ("max-size", 5)]⟩,
    ⟨.map [(.ident "key", 2), (.ident "value", 3)], []⟩,
    ⟨.primitive (.text ⟨"text", .implicit⟩), []⟩, ⟨.primitive (.text ⟨"integer", .implicit⟩), []⟩,
    ⟨.primitive (.int 5), []⟩, ⟨.primitive (.int 3), []⟩]⟩

/-- A text of at least five and at most three characters. -/
private def emptyText : Document :=
  ⟨#[⟨.primitive (.text ⟨"text", .implicit⟩), [("min-length", 1), ("max-length", 2)]⟩,
    ⟨.primitive (.int 5), []⟩,
    ⟨.primitive (.int 3), []⟩]⟩

private def reversedText : Document :=
  ⟨#[⟨.primitive (.text ⟨"text", .implicit⟩), [("length", 1)]⟩, ⟨.tuple [2, 3], []⟩,
    ⟨.primitive (.int 5), []⟩,
    ⟨.primitive (.int 3), []⟩]⟩

/-- The map is extracted with the bounds that leave no size of it, and the texts are refused. -/
theorem run_sizeBounds_five_three : emptyMap.IsBuilt ∧ emptyText.IsBuilt ∧ reversedText.IsBuilt ∧
    (∃ x, run emptyMap = .ok x ∧
      ∃ y node, x.schema.node? y = some node ∧ node.shape.target? = some .map ∧
      node.shape.counts = ⟨some 5, some 3⟩) ∧
    (∃ error, run emptyText = .error error) ∧
    ∃ requirement, reversedText.declarationOf Document.root [] .root =
      refuse (.malformed "length" requirement) [.ext "length"] := by
  have built : emptyMap.IsBuilt :=
    .of_run [.ensure [.ext "map"] 0, .insert 1 (.ident "key"), .insert 1 (.ident "value"),
      .ensure [.ext "min-size"] 0,
      .ensure [.ext "max-size"] 0, .assign 2 (.text ⟨"text", .implicit⟩),
      .assign 3 (.text ⟨"integer", .implicit⟩),
      .assign 4 (.int 5), .assign 5 (.int 3)] rfl rfl
  have built' : emptyText.IsBuilt :=
    .of_run [.ensure [.ext "min-length"] 0, .ensure [.ext "max-length"] 0,
      .assign 0 (.text ⟨"text", .implicit⟩),
      .assign 1 (.int 5), .assign 2 (.int 3)] rfl rfl
  have built'' : reversedText.IsBuilt :=
    .of_run [.ensure [.ext "length"] 0, .make 1 .tuple, .pushTuple 1 0, .pushTuple 1 1,
      .assign 0 (.text ⟨"text", .implicit⟩), .assign 2 (.int 5), .assign 3 (.int 3)] rfl rfl
  refine ⟨built, built', built'', ?_, ?_, ?_⟩
  · obtain ⟨x, extracted⟩ : ∃ x, run emptyMap = .ok x := ⟨_, rfl⟩
    obtain ⟨typed, based⟩ : ∃ typed, emptyMap.typeOf Document.root [] .root = .ok typed := ⟨_, rfl⟩
    have isMap : typed.2.target? = some .map := Except.ok.inj based ▸ rfl
    obtain ⟨whole, -, ⟨y, declares⟩, each⟩ :=
      ((run_sizeBounds built).2 _ _ _ typed .map .root based isMap rfl).1 x extracted
    obtain ⟨node, found, kept, bounds⟩ := each y declares
    exact ⟨x, extracted, y, node, found, kept, (Option.some.inj bounds).symm⟩
  · obtain ⟨typed, based⟩ : ∃ typed, emptyText.typeOf Document.root [] .root = .ok typed := ⟨_, rfl⟩
    have isText : typed.2.target? = some .text := Except.ok.inj based ▸ rfl
    have first : emptyText.constrained [] typed.2 [("min-length", 1)] =
        .ok (.text ⟨some 5, none⟩ none none) := Except.ok.inj based ▸ rfl
    refine (((run_sizeBounds built').2 _ _ _ typed .text .root based isText rfl).2.1 [("min-length", 1)]
      ("max-length", 2) [] _ rfl first fun c bounded => ⟨nofun, fun ordered => ?_⟩).2
    obtain rfl : c = ⟨some 5, some 3⟩ := (Option.some.inj bounded).symm
    exact absurd (ordered 5 rfl 3 rfl) (by decide)
  · obtain ⟨typed, based⟩ : ∃ typed, reversedText.typeOf Document.root [] .root = .ok typed :=
      ⟨_, rfl⟩
    have isText : typed.2.target? = some .text := Except.ok.inj based ▸ rfl
    refine (((run_sizeBounds built'').2 _ _ _ typed .text .root based isText rfl).2.1 [] ("length", 1) [] _ rfl rfl
      fun c bounded => ?_).1
    have none : reversedText.boundsAfter? .text [("length", 1)] = none :=
      (bind_pure _).trans (Constraint.boundsAfter?_reversed (m := 5) (n := 3) rfl rfl rfl (by decide) {})
    cases none.symm.trans bounded

end Extractor

end DocSchema
