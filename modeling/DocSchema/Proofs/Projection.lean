import DocSchema.Proofs.Trees

set_option autoImplicit false

namespace DocSchema

variable {α β γ : Type}

namespace Node

variable {n : Node α}

theorem mapParts_congr {f g : α → β} (same : ∀ a ∈ n.parts, f a = g a) :
    n.mapParts f = n.mapParts g := by
  have extensions :
      n.extensions.map (fun e => (e.1, f e.2)) = n.extensions.map fun e => (e.1, g e.2) :=
    List.map_congr_left fun item inside =>
      congrArg (item.1, ·) (same _ (List.mem_append_right _ (List.mem_map_of_mem inside)))
  have content : n.content.mapParts f = n.content.mapParts g := by
    have same : ∀ a ∈ n.content.parts, f a = g a :=
      fun a inside => same a (List.mem_append_left _ inside)
    cases content : n.content with
    | hole => rfl
    | primitive p => rfl
    | map entries =>
        rw [content] at same
        exact congrArg Content.map (List.map_congr_left fun e inside =>
          congrArg (e.1, ·) (same _ (List.mem_map_of_mem inside)))
    | array elements =>
        rw [content] at same
        exact congrArg Content.array (List.map_congr_left same)
    | tuple elements =>
        rw [content] at same
        exact congrArg Content.tuple (List.map_congr_left same)
  change Node.mk _ (n.extensions.map fun e => (e.1, f e.2)) =
    Node.mk _ (n.extensions.map fun e => (e.1, g e.2))
  rw [content, extensions]

theorem parts_mapParts (f : α → β) : (n.mapParts f).parts = n.parts.map f := by
  have content : (n.content.mapParts f).parts = n.content.parts.map f := by
    cases n.content <;> simp [Content.mapParts, Content.parts]
  simp [parts, mapParts, content]

theorem IsOrderly.mapParts (orderly : n.IsOrderly) (f : α → β) : (n.mapParts f).IsOrderly := by
  constructor
  · intro entries map
    cases content : n.content with
    | map items =>
        have same : items.map (fun e => (e.1, f e.2)) = entries := by
          simpa [Node.mapParts, content, Content.mapParts] using map
        have keys := orderly.keys items content
        rw [← same, List.map_map]
        exact keys
    | _ => simp [Node.mapParts, content, Content.mapParts] at map
  · intro entries map
    cases content : n.content with
    | map items =>
        have same : items.map (fun e => (e.1, f e.2)) = entries := by
          simpa [Node.mapParts, content, Content.mapParts] using map
        rw [← same, List.forall_mem_map]
        exact orderly.plain items content
    | _ => simp [Node.mapParts, content, Content.mapParts] at map
  · intro elements tuple
    cases content : n.content with
    | tuple items =>
        have same : items.map f = elements := by
          simpa [Node.mapParts, content, Content.mapParts] using tuple
        rw [← same, List.length_map]
        exact orderly.elements items content
    | _ => simp [Node.mapParts, content, Content.mapParts] at tuple
  · have names := orderly.names
    rw [Node.mapParts, List.map_map]
    exact names

end Node

/-- Whether a node comes before its parts, and its steps tell these apart. -/
structure Document.IsOrdered (d : Document) : Prop where
  later : ∀ id child : Nat, child ∈ (d.node id).parts → id < child ∧ child < d.size
  orderly : ∀ id, (d.node id).IsOrderly

/-- Whether the steps from every node of the value tell its parts apart. -/
inductive Value.IsOrderly : Value → Prop
  | intro {v : Value} (root : v.root.IsOrderly) (parts : ∀ part ∈ v.root.parts, IsOrderly part) :
      IsOrderly v

theorem Slots.IsTree.isOrdered {slots : Slots} (tree : slots.IsTree) :
    slots.document.IsOrdered := by
  have node (id : NodeId) :
      (∃ s : Slot, slots[id]? = some s ∧ slots.document.node id = s.node) ∨
        slots.document.node id = {} := by
    rw [Document.node, document, Array.getElem?_map]
    cases found : slots[id]? with
    | none => exact .inr rfl
    | some s => exact .inl ⟨s, rfl, rfl⟩
  have size : slots.document.size = slots.size := Array.size_map
  constructor
  · intro id child part
    rw [size]
    obtain ⟨s, found, same⟩ | same := node id
    · exact tree.ordered id s found child (same ▸ part)
    · rw [same] at part
      cases part
  · intro id
    obtain ⟨s, found, same⟩ | same := node id
    · exact same ▸ tree.orderly id s found
    · rw [same]
      exact .hole

theorem Document.IsBuilt.isOrdered {d : Document} (built : d.IsBuilt) : d.IsOrdered := by
  obtain ⟨edits, finished⟩ := built
  obtain ⟨slots, ran, changes⟩ := Builder.run_changes edits #[{}]
  have same : Slots.document slots = d := by
    rw [Builder.new, ran] at finished
    exact Option.some.inj finished
  exact same ▸ (changes.isTree Slots.isTree_new).isOrdered

namespace Document.IsOrdered

variable {d : Document} (ordered : d.IsOrdered)

include ordered

/-- As many levels as there are nodes from here on are enough, and more change nothing. -/
theorem valueTo_enough {j k : Nat} {id : NodeId} (first : d.size - id ≤ j)
    (second : d.size - id ≤ k) :
    d.valueTo j id = d.valueTo k id := by
  have outside {id : NodeId} (out : d.size ≤ id) (k : Nat) : d.valueTo k id = .of .hole := by
    have hole : d.node id = {} := by
      rw [Document.node, Array.getElem?_eq_none out]
      rfl
    cases k with
    | zero => rfl
    | succ k => simp [valueTo, hole, Node.mapParts, Content.mapParts, Value.of]
  induction j generalizing k id with
  | zero => rw [outside (by omega) k]; rfl
  | succ j ih =>
      cases k with
      | zero => rw [outside (by omega) (j + 1)]; rfl
      | succ k =>
          have parts : (d.node id).mapParts (d.valueTo j) = (d.node id).mapParts (d.valueTo k) := by
            apply Node.mapParts_congr
            intro child part
            obtain ⟨after, inside⟩ := ordered.later id child part
            exact ih (by omega) (by omega)
          rw [valueTo, valueTo, parts]

/-- The value of a node is its content and its extensions, with the values of the parts. -/
theorem root_valueAt (id : NodeId) : (d.valueAt id).root = (d.node id).mapParts d.valueAt := by
  have more : d.valueAt id = d.valueTo (d.size + 1) id :=
    ordered.valueTo_enough (by omega) (by omega)
  rw [more]
  rfl

theorem valueAt_isOrderly (id : NodeId) : (d.valueAt id).IsOrderly := by
  induction left : d.size - id using Nat.strongRecOn generalizing id with
  | ind left ih =>
      constructor
      · rw [ordered.root_valueAt]
        exact (ordered.orderly id).mapParts _
      · rw [ordered.root_valueAt, Node.parts_mapParts, List.forall_mem_map]
        intro child part
        obtain ⟨after, inside⟩ := ordered.later id child part
        exact ih (d.size - child) (by omega) child rfl

end Document.IsOrdered

end DocSchema
