import DocSchema.Proofs.Runs

set_option autoImplicit false

namespace DocSchema

def Build.error? {α : Type} (x : Build α) (b : Builder) : Option PathError :=
  match (x.outcome b).1 with
  | .ok _ => none
  | .error e => some e

namespace Edit

def error? : Edit → Builder → Option PathError
  | .insert parent key => (Builder.insert parent key).error?
  | .pushArray parent index => (Builder.pushArray parent index).error?
  | .pushTuple parent index => (Builder.pushTuple parent index).error?
  | .assign id p => (Builder.assign id p).error?
  | .make id kind => (Builder.make id kind).error?
  | .ensure path start => (Builder.ensure path start).error?

/-- Whether the call is about one node only. The others go along a path and keep what they add on
the way. -/
def isSingle : Edit → Bool
  | .ensure _ _ => false
  | _ => true

/-- How a call that fails may change a document: a hole that is asked for an element other than its
first takes on the kind. -/
inductive Marks : Edit → Builder → Builder → Prop
  | array {slots : Slots} {id : NodeId} {s : Slot} {index : Nat} (found : slots[id]? = some s)
      (hole : s.node.content = .hole) (beyond : index ≠ 0) :
      Marks (.pushArray id (some index)) (.building slots)
        (.building (slots.setNode id { s.node with content := .array [] }))
  | tuple {slots : Slots} {id : NodeId} {s : Slot} {index : UInt8} (found : slots[id]? = some s)
      (hole : s.node.content = .hole) (beyond : index ≠ 0) :
      Marks (.pushTuple id index) (.building slots)
        (.building (slots.setNode id { s.node with content := .tuple [] }))

end Edit

namespace Build

variable {α : Type} {x : Build α} {b after : Builder} {e : PathError}

theorem error?_of_ok {a : α} (outcome : x.outcome b = (.ok a, after)) : x.error? b = none := by
  rw [error?, outcome]

theorem error?_of_error (outcome : x.outcome b = (.error e, after)) : x.error? b = some e := by
  rw [error?, outcome]

theorem after_of_error (outcome : x.outcome b = (.error e, after)) : x.after b = after := by
  rw [Build.after, outcome]

end Build

namespace Node

variable {n : Node NodeId}

/-- A node that takes on a content is a hole. -/
theorem settled_filled (filled : n.content ≠ .hole) (kind : Compound) : n.settled kind = n := by
  cases n.settled_cases kind with
  | inl same => exact same
  | inr settles => exact absurd settles.hole filled

theorem settledFor_filled (filled : n.content ≠ .hole) (step : Segment) :
    n.settledFor step = n := by
  cases step with
  | ext name => rfl
  | _ => exact settled_filled filled _

theorem settled_hole (hole : n.content = .hole) (kind : Compound) :
    n.settled kind = { n with content := kind.empty } := by
  rw [settled, hole]
  rfl

end Node

namespace Builder

variable {slots : Slots} {id : NodeId} {s : Slot} {step : Segment} {kind : Compound} {e : PathError}

/-- Every part but an element other than the first can be added to a hole. -/
theorem attaches_hole (hole : s.node.content = .hole) (inside : ∀ name, step ≠ .ext name) :
    (∃ n, (s.node.settledFor step).Attaches slots.size step n) ∨
      (∃ index ≠ 0, step = .array (some index)) ∨ ∃ index ≠ 0, step = .tuple index := by
  have content (kind : Compound) : (s.node.settled kind).content = kind.empty := by
    rw [Node.settled_hole hole]
  have entry (key : Key) (plain : key.ext? = none)
      (settles : s.node.settledFor key.segment = s.node.settled .map) :
      ∃ n, (s.node.settledFor key.segment).Attaches slots.size key.segment n :=
    ⟨_, .entry (settles ▸ content .map) plain rfl⟩
  cases step with
  | ident name => exact .inl (entry (.ident name) rfl rfl)
  | ext name => exact absurd rfl (inside name)
  | key l => exact .inl (entry (.literal l) rfl rfl)
  | array index =>
      cases index with
      | none => exact .inl ⟨_, .element (content .array) nofun⟩
      | some index =>
          by_cases first : index = 0
          · exact .inl ⟨_, .element (content .array) fun i same => by simpa [first] using same.symm⟩
          · exact .inr (.inl ⟨index, first, rfl⟩)
  | tuple index =>
      by_cases first : index = 0
      · exact .inl ⟨_, .position (content .tuple) (by rw [first]; rfl)⟩
      · exact .inr (.inr ⟨index, first, rfl⟩)

/-- A part that is refused leaves no trace, unless it is an element other than the first of a
hole. -/
theorem insertSegment_failed (failed : (insertSegment id step).error? (.building slots) = some e) :
    (insertSegment id step).after (.building slots) = .building slots ∨
      ∃ s, slots[id]? = some s ∧ s.node.content = .hole ∧
        ((∃ index ≠ 0, step = .array (some index)) ∨ ∃ index ≠ 0, step = .tuple index) ∧
        (insertSegment id step).after (.building slots) =
          .building (slots.setNode id (s.node.settledFor step)) := by
  cases found : slots[id]? with
  | none =>
      obtain ⟨_, outcome⟩ :
          ∃ e, (insertSegment id step).outcome (.building slots) = (.error e, .building slots) :=
        insertSegment_missing found
      exact .inl (Build.after_of_error outcome)
  | some s =>
      by_cases stuck : ∀ n, ¬ (s.node.settledFor step).Attaches slots.size step n
      · obtain ⟨_, outcome⟩ := insertSegment_error found stuck
        have after := Build.after_of_error outcome
        have unchanged (same : s.node.settledFor step = s.node) :
            (insertSegment id step).after (.building slots) = .building slots := by
          rw [after, same, Slots.setNode_self found]
        by_cases hole : s.node.content = .hole
        · by_cases extension : ∃ name, step = .ext name
          · obtain ⟨name, rfl⟩ := extension
            exact .inl (unchanged rfl)
          · obtain ⟨n, attaches⟩ | beyond :
                (∃ n, (s.node.settledFor step).Attaches slots.size step n) ∨ _ :=
              attaches_hole hole fun name same => extension ⟨name, same⟩
            · exact absurd attaches (stuck n)
            · exact .inr ⟨s, rfl, hole, beyond, after⟩
        · exact .inl (unchanged (Node.settledFor_filled hole step))
      · obtain ⟨n, attaches⟩ := not_forall_not.1 stuck
        rw [Build.error?_of_ok (insertSegment_ok found attaches)] at failed
        cases failed

theorem insert_failed {key : Key} (failed : (insert id key).error? (.building slots) = some e) :
    (insert id key).after (.building slots) = .building slots := by
  rw [insert_eq] at failed ⊢
  obtain same | ⟨s, -, -, beyond, -⟩ := insertSegment_failed failed
  · exact same
  · cases key <;> simp [Key.segment] at beyond

theorem pushArray_failed {index : Option Nat}
    (failed : (pushArray id index).error? (.building slots) = some e) :
    (pushArray id index).after (.building slots) = .building slots ∨
      Edit.Marks (.pushArray id index) (.building slots)
        ((pushArray id index).after (.building slots)) := by
  obtain same | ⟨s, found, hole, ⟨i, beyond, asked⟩ | ⟨i, -, other⟩, after⟩ :
      (insertSegment id (.array index)).after (.building slots) = _ ∨ _ :=
        insertSegment_failed failed
  · exact .inl same
  · cases asked
    have marked : (pushArray id (some i)).after (.building slots) =
        .building (slots.setNode id (s.node.settled .array)) := after
    rw [marked, Node.settled_hole hole]
    exact .inr (.array found hole beyond)
  · cases other

theorem pushTuple_failed {index : UInt8}
    (failed : (pushTuple id index).error? (.building slots) = some e) :
    (pushTuple id index).after (.building slots) = .building slots ∨
      Edit.Marks (.pushTuple id index) (.building slots)
        ((pushTuple id index).after (.building slots)) := by
  obtain same | ⟨s, found, hole, ⟨i, -, other⟩ | ⟨i, beyond, asked⟩, after⟩ :
      (insertSegment id (.tuple index)).after (.building slots) = _ ∨ _ :=
        insertSegment_failed failed
  · exact .inl same
  · cases other
  · cases asked
    have marked : (pushTuple id index).after (.building slots) =
        .building (slots.setNode id (s.node.settled .tuple)) := after
    rw [marked, Node.settled_hole hole]
    exact .inr (.tuple found hole beyond)

theorem assign_failed {p : Primitive} (failed : (assign id p).error? (.building slots) = some e) :
    (assign id p).after (.building slots) = .building slots := by
  cases found : slots[id]? with
  | none =>
      apply Build.after_of_error
      rw [assign]
      exact Build.outcome_bind_error (slot_missing found)
  | some s =>
      cases content : s.node.content with
      | hole =>
          rw [Build.error?_of_ok (assign_ok p found content)] at failed
          cases failed
      | _ =>
          apply Build.after_of_error (e := ⟨.alreadyAssigned, s.path⟩)
          rw [assign, Build.outcome_bind_ok (slot_found found), content]
          rfl

/-- A node that is asked to be of a kind has taken it on if it was a hole, and is as it was if
not. -/
theorem make_after (found : slots[id]? = some s) :
    (make id kind).after (.building slots) =
      .building (slots.setNode id (s.node.settled kind)) := by
  change ((fun _ => ()) <$> require id kind .alreadyAssigned : Build Unit).after _ = _
  rw [map_eq_pure_bind, Build.after]
  cases admits : kind.admits (s.node.settled kind).content with
  | false => rw [Build.outcome_bind_error (require_error found admits)]
  | true =>
      rw [Build.outcome_bind_ok (require_ok found admits)]
      rfl

theorem make_failed (failed : (make id kind).error? (.building slots) = some e) :
    (make id kind).after (.building slots) = .building slots := by
  cases found : slots[id]? with
  | none =>
      apply Build.after_of_error (e := ⟨.pathNotFound, []⟩)
      change ((fun _ => ()) <$> require id kind .alreadyAssigned : Build Unit).outcome _ = _
      rw [map_eq_pure_bind, require]
      exact Build.outcome_bind_error (Build.outcome_bind_error (slot_missing found))
  | some s =>
      by_cases hole : s.node.content = .hole
      · rw [Build.error?_of_ok (make_ok found hole)] at failed
        cases failed
      · rw [make_after found, Node.settled_filled hole, Slots.setNode_self found]

/-- A finished document refuses all calls, and stays finished. -/
theorem after_finished (edit : Edit) : edit.apply .finished = .finished := by
  cases edit with
  | insert parent key => cases key <;> rfl
  | ensure path start => rfl
  | _ => rfl

end Builder

/-- A call that marks a hole fails, and leaves another builder. -/
theorem Edit.Marks.failed {edit : Edit} {b after : Builder} (marks : edit.Marks b after) :
    edit.apply b = after ∧ after ≠ b ∧ ∃ e, edit.error? b = some e ∧ e.kind = .indexOutOfRange := by
  have other {slots : Slots} {id : NodeId} {s : Slot} {n : Node NodeId}
      (found : slots[id]? = some s)
      (differs : n.content ≠ s.node.content) :
      Builder.building (slots.setNode id n) ≠ .building slots := by
    intro same
    have here := Slots.setNode_here (n := n) found
    rw [Builder.building.inj same, found] at here
    exact differs (congrArg (·.node.content) (Option.some.inj here)).symm
  cases marks with
  | @array slots id s index found hole beyond =>
      have content : (s.node.settled .array).content = .array [] := by
        rw [Node.settled_hole hole]
        rfl
      have outcome : (Builder.pushArray id (some index)).outcome (.building slots) = _ :=
        Builder.pushArray_outcome found content
      rw [Node.settled_hole hole, if_pos (by simpa using beyond)] at outcome
      refine ⟨Build.after_of_error outcome, other found ?_, _, Build.error?_of_error outcome, rfl⟩
      rw [hole]
      nofun
  | @tuple slots id s index found hole beyond =>
      have content : (s.node.settled .tuple).content = .tuple [] := by
        rw [Node.settled_hole hole]
        rfl
      have outcome : (Builder.pushTuple id index).outcome (.building slots) = _ :=
        Builder.pushTuple_outcome found content
      have refused : index.toNat ≠ ([] : List NodeId).length :=
        fun none => beyond (UInt8.toNat_inj.1 none)
      rw [Node.settled_hole hole, if_pos refused] at outcome
      refine ⟨Build.after_of_error outcome, other found ?_, _, Build.error?_of_error outcome, rfl⟩
      rw [hole]
      nofun

/-- A call that fails leaves the builder as it was, so that nothing that is done with it later
differs. The only calls that leave a trace ask a hole for an element other than its first: it is an
array or a tuple then. -/
theorem Builder.apply_failed {edit : Edit} {b : Builder} {e : PathError}
    (single : edit.isSingle = true)
    (failed : edit.error? b = some e) : edit.apply b = b ∨ edit.Marks b (edit.apply b) := by
  cases b with
  | finished => exact .inl (after_finished edit)
  | building slots =>
      cases edit with
      | insert parent key => exact .inl (insert_failed failed)
      | pushArray parent index => exact pushArray_failed failed
      | pushTuple parent index => exact pushTuple_failed failed
      | assign id p => exact .inl (assign_failed failed)
      | make id kind => exact .inl (make_failed failed)
      | ensure path start => cases single

/-- An array that is asked for an element beyond its end stays as it is; a hole becomes an array,
which no later call makes a map. -/
theorem Builder.apply_failed_element :
    (Edit.pushArray 0 (some 5)).apply (.building #[⟨⟨.array [], []⟩, []⟩]) =
      .building #[⟨⟨.array [], []⟩, []⟩] ∧
      Edit.Marks (.pushArray 0 (some 5)) .new ((Edit.pushArray 0 (some 5)).apply .new) ∧
      (Edit.make 0 .map).error? .new = none ∧
      (Edit.make 0 .map).error? ((Edit.pushArray 0 (some 5)).apply .new) =
        some ⟨.alreadyAssigned, []⟩ := by
  have failed : (Edit.pushArray 0 (some 5)).error? .new =
      some ⟨.indexOutOfRange, [.array (some 5)]⟩ := rfl
  refine ⟨rfl, ?_, rfl, rfl⟩
  cases apply_failed rfl failed with
  | inl same => cases same
  | inr marks => exact marks

end DocSchema
