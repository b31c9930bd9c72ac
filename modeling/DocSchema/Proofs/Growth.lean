import DocSchema.Proofs.FailedCalls

set_option autoImplicit false

namespace DocSchema

section Nodes

variable {α : Type}

/-- Whether a content is kept, but for new parts behind those that it has. A hole may become
anything. -/
inductive Content.GrowsTo : Content α → Content α → Prop
  | hole {c : Content α} : GrowsTo .hole c
  | primitive {p : Primitive} : GrowsTo (.primitive p) (.primitive p)
  | map {entries grown : List (Key × α)} (kept : entries <+: grown) :
      GrowsTo (.map entries) (.map grown)
  | array {elements grown : List α} (kept : elements <+: grown) :
      GrowsTo (.array elements) (.array grown)
  | tuple {elements grown : List α} (kept : elements <+: grown) :
      GrowsTo (.tuple elements) (.tuple grown)

structure Node.GrowsTo (n n' : Node α) : Prop where
  content : n.content.GrowsTo n'.content
  extensions : n.extensions <+: n'.extensions

theorem Content.GrowsTo.refl (c : Content α) : c.GrowsTo c := by
  cases c with
  | hole => exact .hole
  | primitive p => exact .primitive
  | map entries => exact .map List.prefix_rfl
  | array elements => exact .array List.prefix_rfl
  | tuple elements => exact .tuple List.prefix_rfl

theorem Content.GrowsTo.trans {c c' c'' : Content α} (first : c.GrowsTo c')
    (rest : c'.GrowsTo c'') :
    c.GrowsTo c'' := by
  cases first with
  | hole => exact .hole
  | primitive => exact rest
  | map kept =>
      cases rest with
      | map kept' => exact .map (kept.trans kept')
  | array kept =>
      cases rest with
      | array kept' => exact .array (kept.trans kept')
  | tuple kept =>
      cases rest with
      | tuple kept' => exact .tuple (kept.trans kept')

theorem lookup?_of_prefix {κ : Type} [DecidableEq κ] {k : κ} {items grown : List (κ × α)} {a : α}
    (kept : items <+: grown) (found : lookup? k items = some a) : lookup? k grown = some a := by
  rw [lookup?, Option.map_eq_some_iff] at found ⊢
  obtain ⟨item, first, same⟩ := found
  exact ⟨item, kept.find?_eq_some first, same⟩

theorem Content.GrowsTo.find? {c c' : Content α} {k : Key} {a : α} (grows : c.GrowsTo c')
    (found : c.find? k = some a) : c'.find? k = some a := by
  cases grows with
  | map kept => exact lookup?_of_prefix kept found
  | _ => cases found

namespace Node

variable {n n' n'' : Node α} {part a : α} {step : Segment}

theorem GrowsTo.refl (n : Node α) : n.GrowsTo n :=
  ⟨.refl n.content, List.prefix_rfl⟩

theorem GrowsTo.trans (first : n.GrowsTo n') (rest : n'.GrowsTo n'') : n.GrowsTo n'' :=
  ⟨first.content.trans rest.content, first.extensions.trans rest.extensions⟩

theorem Settles.grows (settles : n.Settles n') : n.GrowsTo n' := by
  constructor
  · rw [settles.hole]
    exact .hole
  · simp [settles.extensions]

theorem Attaches.grows (attaches : n.Attaches part step n') : n.GrowsTo n' := by
  cases attaches with
  | entry content plain fresh => exact ⟨content ▸ .map (List.prefix_append _ _), List.prefix_rfl⟩
  | element content last => exact ⟨content ▸ .array (List.prefix_append _ _), List.prefix_rfl⟩
  | position content last => exact ⟨content ▸ .tuple (List.prefix_append _ _), List.prefix_rfl⟩
  | extension fresh => exact ⟨.refl n.content, List.prefix_append _ _⟩

/-- Steps that lead somewhere lead there still. -/
theorem GrowsTo.step? (grows : n.GrowsTo n') (found : n.step? step = some a) :
    n'.step? step = some a := by
  have item {elements grown : List α} {i : Nat} (kept : elements <+: grown)
      (inside : elements[i]? = some a) :
      grown[i]? = some a := by
    obtain ⟨within, rfl⟩ := List.getElem?_eq_some_iff.1 inside
    exact List.prefix_iff_getElem?.1 kept i within
  obtain ⟨c, x⟩ := n
  obtain ⟨c', x'⟩ := n'
  obtain ⟨content, extensions⟩ : c.GrowsTo c' ∧ x <+: x' := ⟨grows.content, grows.extensions⟩
  cases step with
  | ext name => exact lookup?_of_prefix extensions found
  | ident name => exact content.find? found
  | key l => exact content.find? found
  | tuple index =>
      cases content with
      | tuple kept => exact item kept found
      | _ => cases found
  | array index =>
      cases content with
      | array kept =>
          obtain ⟨i, given, inside⟩ := Option.bind_eq_some_iff.1 found
          exact Option.bind_eq_some_iff.2 ⟨i, given, item kept inside⟩
      | _ => cases found

end Node

end Nodes

namespace Slots

variable {slots slots' slots'' : Slots} {id i : NodeId} {s : Slot} {n : Node NodeId} {path : Path}

def GrowsTo (slots slots' : Slots) : Prop :=
  ∀ (id : NodeId) (s : Slot), slots[id]? = some s →
    ∃ s' : Slot, slots'[id]? = some s' ∧ s'.path = s.path ∧ s.node.GrowsTo s'.node

theorem GrowsTo.refl (slots : Slots) : slots.GrowsTo slots :=
  fun _ s found => ⟨s, found, rfl, .refl s.node⟩

theorem GrowsTo.trans (first : slots.GrowsTo slots') (rest : slots'.GrowsTo slots'') :
    slots.GrowsTo slots'' := by
  intro id s found
  obtain ⟨s', found', path, grows⟩ := first id s found
  obtain ⟨s'', found'', path', grows'⟩ := rest id s' found'
  exact ⟨s'', found'', path'.trans path, grows.trans grows'⟩

theorem setNode_grows (found : slots[id]? = some s) (grows : s.node.GrowsTo n) :
    slots.GrowsTo (slots.setNode id n) := by
  intro i t here
  by_cases same : i = id
  · subst same
    obtain rfl : s = t := Option.some.inj (found.symm.trans here)
    exact ⟨_, setNode_here found, rfl, grows⟩
  · exact ⟨t, (setNode_other same).trans here, rfl, .refl t.node⟩

theorem push_grows : slots.GrowsTo (slots.push s) :=
  fun _ t here => ⟨t, (push_old (lt_size here)).trans here, rfl, .refl t.node⟩

/-- What a call does at once, a table grows by. -/
theorem Change.grows (change : slots.Change slots') : slots.GrowsTo slots' := by
  cases change with
  | settle found settles => exact setNode_grows found settles.grows
  | attach found attaches =>
      exact push_grows.trans (setNode_grows ((push_old (lt_size found)).trans found) attaches.grows)

/-- A run of changes grows the table, by induction on their number. -/
theorem Changes.grows (changes : slots.Changes slots') : slots.GrowsTo slots' := by
  induction changes with
  | refl => exact .refl slots
  | tail _ change ih => exact ih.trans change.grows

end Slots

namespace Builder

/-- Whether a builder has the nodes of an earlier one still, or both are finished. -/
inductive GrowsTo : Builder → Builder → Prop
  | building {slots slots' : Slots} (nodes : slots.GrowsTo slots') :
      GrowsTo (.building slots) (.building slots')
  | finished : GrowsTo .finished .finished

theorem edit_grows (b : Builder) (edit : Edit) : b.GrowsTo (edit.apply b) := by
  cases b with
  | finished =>
      rw [after_finished]
      exact .finished
  | building slots =>
      obtain ⟨slots', applied, changes⟩ := edit_advances edit slots
      rw [applied]
      exact .building changes.grows

theorem finish_finished (b : Builder) : b.finish.2 = .finished := by
  cases b <;> rfl

theorem run_finished (edits : List Edit) : Builder.finished.run edits = .finished := by
  induction edits with
  | nil => rfl
  | cons edit rest ih =>
      rw [run, List.foldl_cons, after_finished]
      exact ih

theorem error?_finished (edit : Edit) : edit.error? .finished = some ⟨.documentFinalized, []⟩ := by
  cases edit with
  | insert parent key => cases key <;> rfl
  | _ => rfl

/-- A call removes and moves no node, whether or not it fails: values stay, entries, elements and
extensions get new ones behind them at most, and only a hole takes on another kind. A finished
document refuses all calls. -/
theorem apply_grows (b : Builder) (edit : Edit) :
    b.GrowsTo (edit.apply b) ∧
      ∀ later : List Edit, edit.error? (b.finish.2.run later) = some ⟨.documentFinalized, []⟩ := by
  refine ⟨edit_grows b edit, fun later => ?_⟩
  rw [finish_finished, run_finished]
  exact error?_finished edit

end Builder

end DocSchema
