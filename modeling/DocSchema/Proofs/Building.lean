import Mathlib.Logic.Relation
import DocSchema.Proofs.Attaching

set_option autoImplicit false

namespace DocSchema

open Relation (ReflTransGen)

abbrev Slots := Array Slot

namespace Slots

variable {slots : Slots} {id i : NodeId} {n : Node NodeId} {s : Slot} {path : Path}

def setNode (slots : Slots) (id : NodeId) (n : Node NodeId) : Slots :=
  slots.modify id fun s => { s with node := n }

/-- Adds a hole, and replaces the node that it is a part of. -/
def grow (slots : Slots) (id : NodeId) (n : Node NodeId) (path : Path) : Slots :=
  setNode (slots.push { path }) id n

inductive Change (slots : Slots) : Slots → Prop
  | settle {id : NodeId} {s : Slot} {n : Node NodeId} (found : slots[id]? = some s)
      (settles : s.node.Settles n) : Change slots (slots.setNode id n)
  | attach {id : NodeId} {s : Slot} {step : Segment} {n : Node NodeId} (found : slots[id]? = some s)
      (attaches : s.node.Attaches slots.size step n) :
      Change slots (slots.grow id n (s.path ++ [step.placed s.node]))

def Changes : Slots → Slots → Prop :=
  ReflTransGen Change

@[simp] theorem size_setNode : (slots.setNode id n).size = slots.size :=
  Array.size_modify

@[simp] theorem size_grow : (slots.grow id n path).size = slots.size + 1 := by
  simp [grow]

theorem lt_size (found : slots[id]? = some s) : id < slots.size :=
  (Array.getElem?_eq_some_iff.1 found).1

theorem setNode_here (found : slots[id]? = some s) :
    (slots.setNode id n)[id]? = some { s with node := n } := by
  rw [setNode, Array.getElem?_modify, if_pos rfl, found, Option.map_some]

theorem setNode_other (other : i ≠ id) : (slots.setNode id n)[i]? = slots[i]? := by
  rw [setNode, Array.getElem?_modify, if_neg (Ne.symm other)]

/-- A node that is replaced by itself is not changed. -/
theorem setNode_self (found : slots[id]? = some s) : slots.setNode id s.node = slots := by
  apply Array.ext_getElem?
  intro i
  by_cases here : i = id
  · rw [here, setNode_here found, found]
  · exact setNode_other here

theorem push_old (old : i < slots.size) : (slots.push s)[i]? = slots[i]? := by
  rw [Array.getElem?_push_lt old, Array.getElem?_eq_getElem old]

theorem grow_here (found : slots[id]? = some s) :
    (slots.grow id n path)[id]? = some { s with node := n } :=
  setNode_here ((push_old (lt_size found)).trans found)

theorem grow_last (inside : id < slots.size) :
    (slots.grow id n path)[slots.size]? = some { path } := by
  rw [grow, setNode_other (Nat.ne_of_gt inside), Array.getElem?_push_size]

theorem grow_other (other : i ≠ id) (old : i < slots.size) :
    (slots.grow id n path)[i]? = slots[i]? := by
  rw [grow, setNode_other other, push_old old]

end Slots

def Build.outcome {α : Type} (x : Build α) (b : Builder) : Except PathError α × Builder :=
  x.run.run b

namespace Build

variable {α β : Type} {slots : Slots} {b : Builder}

@[simp] theorem outcome_pure (a : α) : (pure a : Build α).outcome b = (.ok a, b) := rfl

@[simp] theorem outcome_throw (e : PathError) : (throw e : Build α).outcome b = (.error e, b) := rfl

/-- A call that goes on does so from the table that the first part leaves, unless that part
fails. -/
theorem outcome_bind (x : Build α) (f : α → Build β) :
    (x >>= f).outcome b =
      match x.outcome b with
      | (.ok a, b) => (f a).outcome b
      | (.error e, b) => (.error e, b) := by
  change (match x.outcome b with | (r, b) => ((ExceptT.bindCont f r).run b : Id _)) = _
  obtain ⟨result, after⟩ := x.outcome b
  cases result <;> rfl

theorem outcome_get (b : Builder) : (get : Build Builder).outcome b = (.ok b, b) := rfl

theorem outcome_bind_ok {x : Build α} {f : α → Build β} {a : α} {after : Builder}
    (first : x.outcome b = (.ok a, after)) : (x >>= f).outcome b = (f a).outcome after := by
  rw [outcome_bind, first]

theorem outcome_bind_error {x : Build α} {f : α → Build β} {e : PathError} {after : Builder}
    (first : x.outcome b = (.error e, after)) : (x >>= f).outcome b = (.error e, after) := by
  rw [outcome_bind, first]

end Build

def Node.settled (n : Node NodeId) (kind : Compound) : Node NodeId :=
  if n.content.isHole then { n with content := kind.empty } else n

/-- The node, once a hole has taken on the kind that has such steps. -/
def Node.settledFor (n : Node NodeId) : Segment → Node NodeId
  | .ident _ => n.settled .map
  | .ext _ => n
  | .key _ => n.settled .map
  | .tuple _ => n.settled .tuple
  | .array _ => n.settled .array

theorem Node.settled_cases (n : Node NodeId) (kind : Compound) :
    n.settled kind = n ∨ n.Settles (n.settled kind) := by
  unfold settled
  cases hole : n.content with
  | hole =>
      refine .inr ⟨hole, ?_, rfl⟩
      cases kind <;> rfl
  | _ => exact .inl rfl

theorem Node.settledFor_cases (n : Node NodeId) (step : Segment) :
    n.settledFor step = n ∨ n.Settles (n.settledFor step) := by
  cases step with
  | ext name => exact .inl rfl
  | _ => exact n.settled_cases _

theorem Node.settledFor_segment (n : Node NodeId) {key : Key} (plain : key.ext? = none) :
    n.settledFor key.segment = n.settled .map := by
  cases key with
  | ext name => cases plain
  | _ => rfl

theorem Segment.placed_segment {α : Type} (n : Node α) (key : Key) :
    key.segment.placed n = key.segment := by
  cases key <;> rfl

theorem Compound.admits_map {c : Content NodeId} (admits : Compound.map.admits c = true) :
    ∃ entries, c = .map entries := by
  cases c <;> first | exact ⟨_, rfl⟩ | cases admits

theorem Compound.admits_array {c : Content NodeId} (admits : Compound.array.admits c = true) :
    ∃ elements, c = .array elements := by
  cases c <;> first | exact ⟨_, rfl⟩ | cases admits

theorem Compound.admits_tuple {c : Content NodeId} (admits : Compound.tuple.admits c = true) :
    ∃ elements, c = .tuple elements := by
  cases c <;> first | exact ⟨_, rfl⟩ | cases admits

namespace Builder

variable {slots : Slots} {id : NodeId} {s : Slot} {n : Node NodeId} {step : Segment}

theorem slot_found (found : slots[id]? = some s) :
    (slot id).outcome (.building slots) = (.ok s, .building slots) := by
  rw [slot, Build.outcome_bind_ok (Build.outcome_get _)]
  simp only [found]
  rfl

theorem slot_missing (missing : slots[id]? = none) :
    (slot id).outcome (.building slots) = (.error ⟨.pathNotFound, []⟩, .building slots) := by
  rw [slot, Build.outcome_bind_ok (Build.outcome_get _)]
  simp only [missing]
  rfl

theorem update_found {f : Node NodeId → Node NodeId} (found : slots[id]? = some s)
    (changed : f s.node = n) :
    (update id f).outcome (.building slots) = (.ok (), .building (slots.setNode id n)) := by
  have same : (slots.modify id fun s => { s with node := f s.node }) = slots.setNode id n := by
    apply Array.ext_getElem?
    intro i
    rw [Slots.setNode, Array.getElem?_modify, Array.getElem?_modify]
    split
    · next here => rw [← here, found, Option.map_some, Option.map_some, changed]
    · rfl
  change ((.ok (), .building _) : Except PathError Unit × Builder) = _
  rw [same]

theorem allocate_outcome (path : Path) :
    (allocate path).outcome (.building slots) =
      (.ok slots.size, .building (slots.push { path })) := rfl

theorem require_ok {kind : Compound} {mismatch : PathErrorKind} (found : slots[id]? = some s)
    (admits : kind.admits (s.node.settled kind).content = true) :
    (require id kind mismatch).outcome (.building slots) =
      (.ok { s with node := s.node.settled kind },
        .building (slots.setNode id (s.node.settled kind))) := by
  rw [require, Build.outcome_bind_ok (slot_found found)]
  unfold Node.settled at admits ⊢
  cases hole : s.node.content.isHole with
  | true =>
      simp only [↓reduceIte]
      rw [Build.outcome_bind_ok (update_found found rfl)]
      rfl
  | false =>
      simp only [hole, Bool.false_eq_true, ↓reduceIte] at admits ⊢
      rw [if_pos admits, Slots.setNode_self found]
      rfl

theorem require_error {kind : Compound} {mismatch : PathErrorKind} (found : slots[id]? = some s)
    (refused : kind.admits (s.node.settled kind).content = false) :
    (require id kind mismatch).outcome (.building slots) =
      (.error ⟨mismatch, s.path⟩, .building (slots.setNode id (s.node.settled kind))) := by
  rw [require, Build.outcome_bind_ok (slot_found found)]
  unfold Node.settled at refused ⊢
  cases hole : s.node.content.isHole with
  | true =>
      simp only [hole, ↓reduceIte] at refused
      cases kind <;> cases refused
  | false =>
      simp only [hole, Bool.false_eq_true, ↓reduceIte] at refused ⊢
      simp only [refused, Bool.false_eq_true, ↓reduceIte]
      rw [Slots.setNode_self found]
      rfl

theorem assign_ok (p : Primitive) (found : slots[id]? = some s) (hole : s.node.content = .hole) :
    (assign id p).outcome (.building slots) =
      (.ok (), .building (slots.setNode id { s.node with content := .primitive p })) := by
  rw [assign, Build.outcome_bind_ok (slot_found found), hole]
  exact update_found (f := fun n => { n with content := .primitive p }) found rfl

theorem make_ok {kind : Compound} (found : slots[id]? = some s) (hole : s.node.content = .hole) :
    (make id kind).outcome (.building slots) =
      (.ok (), .building (slots.setNode id { s.node with content := kind.empty })) := by
  have settled : s.node.settled kind = { s.node with content := kind.empty } := by
    rw [Node.settled, hole]
    rfl
  have admits : kind.admits (s.node.settled kind).content = true := by
    rw [settled]
    cases kind <;> rfl
  change ((fun _ => ()) <$> require id kind .alreadyAssigned : Build Unit).outcome _ = _
  rw [map_eq_pure_bind, Build.outcome_bind_ok (require_ok found admits), settled]
  rfl

/-- The ways to add a part differ in the step alone. -/
theorem insert_eq (id : NodeId) (key : Key) : insert id key = insertSegment id key.segment := by
  cases key <;> rfl

/-- A new hole becomes a part of a node, unless the part is refused. -/
theorem add_outcome (isRefused : Prop) [Decidable isRefused] (e : PathError)
    (f : NodeId → Node NodeId → Node NodeId) (path : Path) (found : slots[id]? = some s)
    (changed : f slots.size s.node = n) :
    (do
        if isRefused then throw e
        let child ← allocate path
        update id (f child)
        pure child : Build NodeId).outcome (.building slots) =
      if isRefused then (.error e, .building slots)
      else (.ok slots.size, .building (slots.grow id n path)) := by
  split
  · rfl
  · rw [Build.outcome_bind_ok (allocate_outcome path),
      Build.outcome_bind_ok (update_found ((Slots.push_old (Slots.lt_size found)).trans found) changed)]
    rfl

section Kinds

variable {entries : List (Key × NodeId)} {elements : List NodeId}

/-- So it does once the node is of the kind that holds such parts. -/
theorem addTo_outcome {kind : Compound} {mismatch : PathErrorKind} {isRefused : Slot → Prop}
    [DecidablePred isRefused] {e : Slot → PathError} {path : Slot → Path}
    {f : NodeId → Node NodeId → Node NodeId} (found : slots[id]? = some s)
    (admits : kind.admits (s.node.settled kind).content = true)
    (changed : f slots.size (s.node.settled kind) = n) :
    (do
        let s ← require id kind mismatch
        if isRefused s then throw (e s)
        let child ← allocate (path s)
        update id (f child)
        pure child : Build NodeId).outcome (.building slots) =
      let held : Slot := { s with node := s.node.settled kind }
      if isRefused held then (.error (e held), .building (slots.setNode id held.node))
      else (.ok slots.size, .building ((slots.setNode id held.node).grow id n (path held))) := by
  have size : (slots.setNode id (s.node.settled kind)).size = slots.size := Slots.size_setNode
  rw [Build.outcome_bind_ok (require_ok found admits), ← size]
  exact add_outcome _ _ f _ (Slots.setNode_here found) (by rw [size, changed])

theorem insert_outcome {key : Key} (found : slots[id]? = some s) (plain : key.ext? = none)
    (content : (s.node.settled .map).content = .map entries) :
    (insert id key).outcome (.building slots) =
      if (lookup? key entries).isSome then
        (.error ⟨.alreadyAssigned, s.path ++ [key.segment]⟩,
          .building (slots.setNode id (s.node.settled .map)))
      else
        (.ok slots.size, .building ((slots.setNode id (s.node.settled .map)).grow id
          { s.node.settled .map with content := .map (entries ++ [(key, slots.size)]) }
          (s.path ++ [key.segment]))) := by
  have admits : Compound.map.admits (s.node.settled .map).content = true := by rw [content]; rfl
  have look : lookup? key entries = (s.node.settled .map).content.find? key := by rw [content]; rfl
  rw [look]
  cases key with
  | ext name => cases plain
  | _ =>
      unfold insert
      exact addTo_outcome found admits (by rw [content])

theorem pushArray_outcome {index : Option Nat} (found : slots[id]? = some s)
    (content : (s.node.settled .array).content = .array elements) :
    (pushArray id index).outcome (.building slots) =
      if index.any (· != elements.length) then
        (.error ⟨.indexOutOfRange, s.path ++ [.array index]⟩,
          .building (slots.setNode id (s.node.settled .array)))
      else
        (.ok slots.size, .building ((slots.setNode id (s.node.settled .array)).grow id
          { s.node.settled .array with content := .array (elements ++ [slots.size]) }
          (s.path ++ [.array (some elements.length)]))) := by
  have admits : Compound.array.admits (s.node.settled .array).content = true := by rw [content]; rfl
  have count : elements.length = (s.node.settled .array).content.parts.length := by
    rw [content]
    rfl
  rw [count]
  unfold pushArray
  exact addTo_outcome found admits (by rw [content])

theorem pushTuple_outcome {index : UInt8} (found : slots[id]? = some s)
    (content : (s.node.settled .tuple).content = .tuple elements) :
    (pushTuple id index).outcome (.building slots) =
      if index.toNat ≠ elements.length then
        (.error ⟨.indexOutOfRange, s.path ++ [.tuple index]⟩,
          .building (slots.setNode id (s.node.settled .tuple)))
      else
        (.ok slots.size, .building ((slots.setNode id (s.node.settled .tuple)).grow id
          { s.node.settled .tuple with content := .tuple (elements ++ [slots.size]) }
          (s.path ++ [.tuple index]))) := by
  have admits : Compound.tuple.admits (s.node.settled .tuple).content = true := by rw [content]; rfl
  have count : elements.length = (s.node.settled .tuple).content.parts.length := by
    rw [content]
    rfl
  rw [count]
  unfold pushTuple
  exact addTo_outcome found admits (by rw [content])

theorem insertExtension_outcome {name : Bytes} (found : slots[id]? = some s) :
    (insertExtension id name).outcome (.building slots) =
      if (s.node.extension? name).isSome then
        (.error ⟨.alreadyAssigned, s.path ++ [.ext name]⟩, .building slots)
      else
        (.ok slots.size, .building (slots.grow id
          { s.node with extensions := s.node.extensions ++ [(name, slots.size)] }
          (s.path ++ [.ext name]))) := by
  unfold insertExtension
  rw [Build.outcome_bind_ok (slot_found found)]
  exact add_outcome _ _ (fun child n => { n with extensions := n.extensions ++ [(name, child)] }) _ found rfl

end Kinds

/-- A part is added where a node can gain it. -/
theorem insertSegment_ok (found : slots[id]? = some s)
    (attaches : (s.node.settledFor step).Attaches slots.size step n) :
    (insertSegment id step).outcome (.building slots) =
      (.ok slots.size, .building ((slots.setNode id (s.node.settledFor step)).grow id n
        (s.path ++ [step.placed (s.node.settledFor step)]))) := by
  cases attaches with
  | @entry key entries content plain fresh =>
      rw [Node.settledFor_segment _ plain] at content ⊢
      rw [← insert_eq, insert_outcome found plain content, fresh, Segment.placed_segment]
      rfl
  | @element index elements content last =>
      have ends : index.any (· != elements.length) = false := by
        cases index with
        | none => rfl
        | some i => simp [last i rfl]
      change (pushArray id index).outcome _ = _
      rw [pushArray_outcome found content, ends, Segment.placed, content]
      rfl
  | @position index elements content last =>
      change (pushTuple id index).outcome _ = _
      rw [pushTuple_outcome found content, if_neg (not_not_intro last)]
      rfl
  | @extension name fresh =>
      change (insertExtension id name).outcome _ = _
      have fresh : s.node.extension? name = none := fresh
      rw [insertExtension_outcome found, fresh, Node.settledFor, Slots.setNode_self found]
      rfl

/-- Where it cannot, the call fails, but a hole has taken on the kind. -/
theorem insertSegment_error (found : slots[id]? = some s)
    (stuck : ∀ n, ¬ (s.node.settledFor step).Attaches slots.size step n) :
    ∃ e, (insertSegment id step).outcome (.building slots) =
      (.error e, .building (slots.setNode id (s.node.settledFor step))) := by
  have entry (key : Key) (plain : key.ext? = none)
      (stuck : ∀ n, ¬ (s.node.settled .map).Attaches slots.size key.segment n) :
      ∃ e, (insert id key).outcome (.building slots) =
        (.error e, .building (slots.setNode id (s.node.settled .map))) := by
    cases admits : Compound.map.admits (s.node.settled .map).content with
    | false =>
        cases key with
        | ext name => cases plain
        | _ =>
            unfold insert
            rw [Build.outcome_bind_error (require_error found admits)]
            exact ⟨_, rfl⟩
    | true =>
        obtain ⟨entries, content⟩ := Compound.admits_map admits
        cases look : lookup? key entries with
        | none => exact absurd (.entry content plain look) (stuck _)
        | some taken =>
            rw [insert_outcome found plain content, look]
            exact ⟨_, rfl⟩
  cases step with
  | ident name => exact entry (.ident name) rfl stuck
  | key l => exact entry (.literal l) rfl stuck
  | ext name =>
      cases look : s.node.extension? name with
      | none => exact absurd (.extension look) (stuck _)
      | some taken =>
          change ∃ e, (insertExtension id name).outcome _ = _
          rw [insertExtension_outcome found, look, Node.settledFor, Slots.setNode_self found]
          exact ⟨_, rfl⟩
  | array index =>
      change ∃ e, (pushArray id index).outcome _ = _
      cases admits : Compound.array.admits (s.node.settled .array).content with
      | false =>
          rw [pushArray, Build.outcome_bind_error (require_error found admits)]
          exact ⟨_, rfl⟩
      | true =>
          obtain ⟨elements, content⟩ := Compound.admits_array admits
          rw [pushArray_outcome found content]
          split
          · exact ⟨_, rfl⟩
          · next ends =>
            refine absurd (.element content fun i same => ?_) (stuck _)
            have same := Option.mem_def.1 same
            subst same
            simpa using ends
  | tuple index =>
      change ∃ e, (pushTuple id index).outcome _ = _
      cases admits : Compound.tuple.admits (s.node.settled .tuple).content with
      | false =>
          rw [pushTuple, Build.outcome_bind_error (require_error found admits)]
          exact ⟨_, rfl⟩
      | true =>
          obtain ⟨elements, content⟩ := Compound.admits_tuple admits
          rw [pushTuple_outcome found content]
          split
          · exact ⟨_, rfl⟩
          · next ends => exact absurd (.position content (not_not.1 ends)) (stuck _)

theorem insertSegment_missing (missing : slots[id]? = none) :
    ∃ e, (insertSegment id step).outcome (.building slots) = (.error e, .building slots) := by
  have required (kind : Compound) (mismatch : PathErrorKind) :
      (require id kind mismatch).outcome (.building slots) =
        (.error ⟨.pathNotFound, []⟩, .building slots) := by
    rw [require, Build.outcome_bind_error (slot_missing missing)]
  refine ⟨⟨.pathNotFound, []⟩, ?_⟩
  cases step with
  | ident name =>
      unfold insertSegment insert
      exact Build.outcome_bind_error (required .map .expectedMap)
  | ext name =>
      unfold insertSegment insertExtension
      exact Build.outcome_bind_error (slot_missing missing)
  | key l =>
      unfold insertSegment insert
      exact Build.outcome_bind_error (required .map .expectedMap)
  | tuple index =>
      unfold insertSegment pushTuple
      exact Build.outcome_bind_error (required .tuple .expectedTuple)
  | array index =>
      unfold insertSegment pushArray
      exact Build.outcome_bind_error (required .array .expectedArray)

/-- A part that was added was added where the node could gain it. -/
theorem insertSegment_attaches {child : NodeId} {after : Builder}
    (outcome : (insertSegment id step).outcome (.building slots) = (.ok child, after)) :
    ∃ s n, slots[id]? = some s ∧ (s.node.settledFor step).Attaches slots.size step n ∧
      child = slots.size ∧
      after = .building ((slots.setNode id (s.node.settledFor step)).grow id n
        (s.path ++ [step.placed (s.node.settledFor step)])) := by
  cases found : slots[id]? with
  | none =>
      obtain ⟨e, failed⟩ :
          ∃ e, (insertSegment id step).outcome (.building slots) = (.error e, .building slots) :=
        insertSegment_missing found
      cases outcome.symm.trans failed
  | some s =>
      by_cases stuck : ∀ n, ¬ (s.node.settledFor step).Attaches slots.size step n
      · obtain ⟨e, failed⟩ := insertSegment_error found stuck
        cases outcome.symm.trans failed
      · obtain ⟨n, attaches⟩ := not_forall_not.1 stuck
        obtain ⟨same, rfl⟩ := Prod.mk.inj (outcome.symm.trans (insertSegment_ok found attaches))
        exact ⟨s, n, rfl, attaches, Except.ok.inj same, rfl⟩

end Builder

end DocSchema
