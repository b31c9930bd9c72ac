import DocSchema.Proofs.Building

set_option autoImplicit false

namespace DocSchema

open Relation (ReflTransGen)

/-- The builder that a call leaves, whether or not it fails. -/
def Build.after {α : Type} (x : Build α) (b : Builder) : Builder :=
  (x.outcome b).2

inductive Edit where
  | insert (parent : NodeId) (key : Key)
  | pushArray (parent : NodeId) (index : Option Nat)
  | pushTuple (parent : NodeId) (index : UInt8)
  | assign (id : NodeId) (p : Primitive)
  | make (id : NodeId) (kind : Compound)
  | ensure (path : Path) (start : NodeId)

def Edit.apply : Edit → Builder → Builder
  | .insert parent key => (Builder.insert parent key).after
  | .pushArray parent index => (Builder.pushArray parent index).after
  | .pushTuple parent index => (Builder.pushTuple parent index).after
  | .assign id p => (Builder.assign id p).after
  | .make id kind => (Builder.make id kind).after
  | .ensure path start => (Builder.ensure path start).after

def Builder.run (b : Builder) (edits : List Edit) : Builder :=
  edits.foldl (fun b edit => edit.apply b) b

/-- Whether some calls produce the document. -/
def Document.IsBuilt (d : Document) : Prop :=
  ∃ edits, (Builder.new.run edits).finish.1 = some d

theorem Document.IsBuilt.of_run {d : Document} {slots : Array Slot} (edits : List Edit)
    (ran : Builder.new.run edits = .building slots)
    (nodes : slots.toList.map (·.node) = d.nodes.toList) :
    d.IsBuilt := by
  have same : slots.map (·.node) = d.nodes := Array.toList_inj.1 (Array.toList_map.trans nodes)
  refine ⟨edits, ?_⟩
  rw [ran, Builder.finish, same]

/-- Whether the call only changes the table, whatever that is. -/
def Build.Advances {α : Type} (x : Build α) : Prop :=
  ∀ slots : Slots, ∃ r slots',
    x.outcome (.building slots) = (r, .building slots') ∧ slots.Changes slots'

namespace Build.Advances

variable {α β : Type}

theorem pure (a : α) : (Pure.pure a : Build α).Advances :=
  fun slots => ⟨_, slots, rfl, .refl⟩

theorem bind {x : Build α} {f : α → Build β} (first : x.Advances) (rest : ∀ a, (f a).Advances) :
    (x >>= f).Advances := by
  intro slots
  obtain ⟨r, between, outcome, changes⟩ := first slots
  cases r with
  | error e => exact ⟨.error e, between, outcome_bind_error outcome, changes⟩
  | ok a =>
      obtain ⟨r, after, outcome', changes'⟩ := rest a between
      exact ⟨r, after, (outcome_bind_ok outcome).trans outcome', changes.trans changes'⟩

theorem discard {x : Build α} (advances : x.Advances) : (discard x : Build PUnit).Advances := by
  change ((fun _ => PUnit.unit) <$> x : Build PUnit).Advances
  rw [map_eq_pure_bind]
  exact advances.bind fun _ => .pure _

/-- The steps along a path. -/
theorem foldlM {f : β → α → Build β} (step : ∀ b a, (f b a).Advances) (items : List α) (b : β) :
    (items.foldlM f b).Advances := by
  induction items generalizing b with
  | nil => exact .pure b
  | cons a rest ih =>
      rw [List.foldlM_cons]
      exact (step b a).bind ih

end Build.Advances

namespace Builder

variable {slots : Slots} {id : NodeId} {s : Slot}

/-- A hole that takes on a content is a change, a node that stays is none. -/
theorem changes_settled {n : Node NodeId} (found : slots[id]? = some s)
    (settled : n = s.node ∨ s.node.Settles n) : slots.Changes (slots.setNode id n) := by
  cases settled with
  | inl same => rw [same, Slots.setNode_self found]; exact .refl
  | inr settles => exact .single (.settle found settles)

theorem slot_advances (id : NodeId) : (slot id).Advances := by
  intro slots
  cases found : slots[id]? with
  | none => exact ⟨_, slots, slot_missing found, .refl⟩
  | some s => exact ⟨_, slots, slot_found found, .refl⟩

theorem require_advances (id : NodeId) (kind : Compound) (mismatch : PathErrorKind) :
    (require id kind mismatch).Advances := by
  intro slots
  cases found : slots[id]? with
  | none =>
      rw [require]
      exact ⟨_, slots, Build.outcome_bind_error (slot_missing found), .refl⟩
  | some s =>
      have changes := changes_settled found (s.node.settled_cases kind)
      cases admits : kind.admits (s.node.settled kind).content with
      | false => exact ⟨_, _, require_error found admits, changes⟩
      | true => exact ⟨_, _, require_ok found admits, changes⟩

theorem insertSegment_advances (id : NodeId) (step : Segment) :
    (insertSegment id step).Advances := by
  intro slots
  cases found : slots[id]? with
  | none =>
      have missing : ∃ e, (insertSegment id step).outcome (.building slots) =
          (.error e, .building slots) :=
        insertSegment_missing found
      obtain ⟨e, outcome⟩ := missing
      exact ⟨_, slots, outcome, .refl⟩
  | some s =>
      have changes := changes_settled found (s.node.settledFor_cases step)
      by_cases stuck : ∀ n, ¬ (s.node.settledFor step).Attaches slots.size step n
      · obtain ⟨e, outcome⟩ := insertSegment_error found stuck
        exact ⟨_, _, outcome, changes⟩
      · obtain ⟨n, attaches⟩ := not_forall_not.1 stuck
        refine ⟨_, _, insertSegment_ok found attaches, changes.tail ?_⟩
        exact .attach (Slots.setNode_here found) (by rwa [Slots.size_setNode])

theorem assign_advances (id : NodeId) (p : Primitive) : (assign id p).Advances := by
  intro slots
  cases found : slots[id]? with
  | none =>
      rw [assign]
      exact ⟨_, slots, Build.outcome_bind_error (slot_missing found), .refl⟩
  | some s =>
      by_cases hole : s.node.content = .hole
      · exact ⟨_, _, assign_ok p found hole, .single (.settle found ⟨hole, rfl, rfl⟩)⟩
      · rw [assign, Build.outcome_bind_ok (slot_found found)]
        cases content : s.node.content with
        | hole => exact absurd content hole
        | _ => exact ⟨_, slots, rfl, .refl⟩

theorem ensureStep_advances (current : NodeId) (step : Segment) :
    (ensureStep current step).Advances := by
  refine ((slot_advances current).bind fun s => .pure s.node).bind fun n => ?_
  cases n.step? step with
  | none => exact insertSegment_advances current step
  | some next => exact .pure next

theorem ensure_advances (path : Path) (start : NodeId) : (ensure path start).Advances :=
  (slot_advances start).bind fun _ => .foldlM ensureStep_advances path start

theorem edit_advances (edit : Edit) (slots : Slots) :
    ∃ slots', edit.apply (.building slots) = .building slots' ∧ slots.Changes slots' := by
  have after {α : Type} {x : Build α} (advances : x.Advances) :
      ∃ slots', x.after (.building slots) = .building slots' ∧ slots.Changes slots' := by
    obtain ⟨r, slots', outcome, changes⟩ := advances slots
    exact ⟨slots', congrArg Prod.snd outcome, changes⟩
  cases edit with
  | insert parent key =>
      apply after
      rw [insert_eq]
      exact insertSegment_advances parent key.segment
  | pushArray parent index => exact after (insertSegment_advances parent (.array index))
  | pushTuple parent index => exact after (insertSegment_advances parent (.tuple index))
  | assign id p => exact after (assign_advances id p)
  | make id kind => exact after (require_advances id kind .alreadyAssigned).discard
  | ensure path start => exact after (ensure_advances path start)

theorem run_changes (edits : List Edit) (slots : Slots) :
    ∃ slots', run (.building slots) edits = .building slots' ∧ slots.Changes slots' := by
  induction edits generalizing slots with
  | nil => exact ⟨slots, rfl, .refl⟩
  | cons edit rest ih =>
      obtain ⟨between, applied, changes⟩ := edit_advances edit slots
      obtain ⟨after, ran, changes'⟩ := ih between
      refine ⟨after, ?_, changes.trans changes'⟩
      rw [run, List.foldl_cons, applied]
      exact ran

end Builder

end DocSchema
