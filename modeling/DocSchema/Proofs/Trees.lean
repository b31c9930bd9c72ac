import DocSchema.Proofs.Growth
import DocSchema.Proofs.Navigation

set_option autoImplicit false

namespace DocSchema

namespace Slots

variable {slots slots' : Slots} {id i : NodeId} {n : Node NodeId} {s t : Slot} {path : Path}

def document (slots : Slots) : Document :=
  ⟨slots.map (·.node)⟩

/-- The parts of all nodes, one node after the other. -/
def parts (slots : Slots) : List NodeId :=
  slots.toList.flatMap (·.node.parts)

/-- Whether the nodes are those of a tree, each of them at its path. -/
structure IsTree (slots : Slots) : Prop where
  inhabited : 0 < slots.size
  /-- A node comes before its parts. -/
  ordered : ∀ (id : NodeId) (s : Slot), slots[id]? = some s →
    ∀ child ∈ s.node.parts, id < child ∧ child < slots.size
  /-- Every node but the root is a part once, the root never. -/
  once : slots.parts.Perm (List.range' 1 (slots.size - 1))
  orderly : ∀ (id : NodeId) (s : Slot), slots[id]? = some s → s.node.IsOrderly
  reached : ∀ (id : NodeId) (s : Slot), slots[id]? = some s →
    slots.document.resolve s.path Document.root = .ok id

theorem step?_document {step : Segment} {next : NodeId} :
    (slots.document.node i).step? step = some next ↔
      ∃ s : Slot, slots[i]? = some s ∧ s.node.step? step = some next := by
  have node : slots.document.node i = (slots[i]?.map (·.node)).getD {} := by
    rw [Document.node, document, Array.getElem?_map]
  rw [node]
  cases found : slots[i]? with
  | none => cases step <;> simp [Node.step?, Node.extension?, Content.find?, Content.entries?,
      Content.tuple?, Content.array?, lookup?]
  | some s => simp

theorem setNode_cases (found : slots[id]? = some s) (here : (slots.setNode id n)[i]? = some t) :
    (i = id ∧ t = { s with node := n }) ∨ slots[i]? = some t := by
  by_cases same : i = id
  · rw [same, setNode_here found] at here
    exact .inl ⟨same, (Option.some.inj here).symm⟩
  · rw [setNode_other same] at here
    exact .inr here

theorem grow_cases (found : slots[id]? = some s) (here : (slots.grow id n path)[i]? = some t) :
    (i = id ∧ t = { s with node := n }) ∨ (i = slots.size ∧ t = { path }) ∨ slots[i]? = some t := by
  obtain here | here := setNode_cases ((push_old (lt_size found)).trans found) here
  · exact .inl here
  · by_cases last : i = slots.size
    · rw [last, Array.getElem?_push_size] at here
      exact .inr (.inl ⟨last, (Option.some.inj here).symm⟩)
    · have inside := lt_size here
      rw [Array.size_push] at inside
      rw [push_old (Nat.lt_of_le_of_ne (Nat.le_of_lt_succ inside) last)] at here
      exact .inr (.inr here)

/-- What a node gains, the table gains. -/
theorem parts_setNode {more : List NodeId} (found : slots[id]? = some s)
    (gained : n.parts.Perm (more ++ s.node.parts)) :
    (slots.setNode id n).parts.Perm (more ++ slots.parts) := by
  have inside : slots.toList[id]? = some s := by rw [Array.getElem?_toList, found]
  rw [parts, parts, setNode, Array.toList_modify]
  clear found
  generalize slots.toList = items at inside
  induction items generalizing id with
  | nil => cases inside
  | cons item rest ih =>
      cases id with
      | zero =>
          obtain rfl := Option.some.inj inside
          rw [List.modify_zero_cons, List.flatMap_cons, List.flatMap_cons, ← List.append_assoc]
          exact gained.append_right _
      | succ id =>
          rw [List.modify_succ_cons, List.flatMap_cons, List.flatMap_cons]
          exact ((ih inside).append_left _).trans (List.perm_append_comm_assoc _ _ _)

theorem parts_grow (found : slots[id]? = some s)
    (gained : n.parts.Perm (slots.size :: s.node.parts)) :
    (slots.grow id n path).parts.Perm (slots.size :: slots.parts) := by
  have pushed : parts (slots.push { path }) = slots.parts := by
    simp [parts, Node.parts, Content.parts]
  have grown : (slots.grow id n path).parts.Perm ([slots.size] ++ parts (slots.push { path })) :=
    parts_setNode ((push_old (lt_size found)).trans found) gained
  rwa [pushed] at grown

/-- Paths lead where they did once the table has grown. -/
theorem GrowsTo.resolves {j : NodeId} (grows : slots.GrowsTo slots')
    (leads : slots.document.resolve path i = .ok j) : slots'.document.resolve path i = .ok j := by
  refine Document.resolve_mono (fun k step next leads => ?_) leads
  obtain ⟨s, here, step⟩ := step?_document.1 leads
  obtain ⟨s', here', -, kept⟩ := grows k s here
  exact step?_document.2 ⟨s', here', kept.step? step⟩

theorem Change.reached (change : slots.Change slots') (tree : slots.IsTree)
    (found : slots[i]? = some t) :
    slots'.document.resolve t.path Document.root = .ok i :=
  change.grows.resolves (tree.reached i t found)

/-- A change of a tree leaves a tree. -/
theorem Change.isTree (change : slots.Change slots') (tree : slots.IsTree) : slots'.IsTree := by
  have reached {i : NodeId} {t : Slot} (found : slots[i]? = some t) := change.reached tree found
  cases change with
  | @settle id s n found settles =>
      refine ⟨by simpa using tree.inhabited, ?_, ?_, ?_, ?_⟩
      · intro i t here child part
        rw [size_setNode]
        obtain ⟨rfl, rfl⟩ | here := setNode_cases found here
        · rw [settles.parts_eq] at part
          exact tree.ordered i s found child part
        · exact tree.ordered i t here child part
      · rw [size_setNode]
        have gained : n.parts.Perm ([] ++ s.node.parts) := by rw [settles.parts_eq]; rfl
        exact (parts_setNode found gained).trans tree.once
      · intro i t here
        obtain ⟨rfl, rfl⟩ | here := setNode_cases found here
        · exact settles.isOrderly (tree.orderly i s found)
        · exact tree.orderly i t here
      · intro i t here
        obtain ⟨rfl, rfl⟩ | here := setNode_cases found here
        · exact reached (t := s) found
        · exact reached here
  | @attach id s step n found attaches =>
      have here := lt_size found
      refine ⟨by simp, ?_, ?_, ?_, ?_⟩
      · intro i t at_ child part
        rw [size_grow]
        obtain ⟨rfl, rfl⟩ | ⟨rfl, rfl⟩ | old := grow_cases found at_
        · obtain rfl | part := List.mem_cons.1 (attaches.parts_perm.mem_iff.1 part)
          · exact ⟨here, Nat.lt_succ_self _⟩
          · exact (tree.ordered i s found child part).imp_right Nat.lt_succ_of_lt
        · cases part
        · exact (tree.ordered i t old child part).imp_right Nat.lt_succ_of_lt
      · rw [size_grow]
        have size : slots.size + 1 - 1 = slots.size - 1 + 1 :=
          (Nat.sub_add_cancel tree.inhabited).symm
        rw [size, List.range'_1_concat, Nat.add_comm 1, Nat.sub_add_cancel tree.inhabited]
        exact (parts_grow found attaches.parts_perm).trans ((tree.once.cons _).trans
          (List.perm_append_singleton _ _).symm)
      · intro i t at_
        obtain ⟨rfl, rfl⟩ | ⟨rfl, rfl⟩ | old := grow_cases found at_
        · exact attaches.isOrderly (tree.orderly i s found)
        · exact .hole
        · exact tree.orderly i t old
      · intro i t at_
        obtain ⟨rfl, rfl⟩ | ⟨rfl, rfl⟩ | old := grow_cases found at_
        · exact reached (t := s) found
        · exact Document.resolve_concat.2 ⟨id, reached found,
            step?_document.2 ⟨_, grow_here found, attaches.step?_placed⟩⟩
        · exact reached old

theorem Changes.isTree (changes : slots.Changes slots') (tree : slots.IsTree) : slots'.IsTree := by
  induction changes with
  | refl => exact tree
  | tail _ change ih => exact change.isTree ih

/-- No two nodes of a tree have one path, as a path leads to one node. -/
theorem IsTree.paths_nodup (tree : slots.IsTree) : (slots.toList.map (·.path)).Nodup := by
  rw [List.nodup_iff_getElem?_ne_getElem?]
  intro i j before inside same
  rw [List.length_map, Array.length_toList] at inside
  have path {k : Nat} (inside : k < slots.size) :
      (slots.toList.map (·.path))[k]? = some slots[k].path := by
    rw [List.getElem?_map, Array.getElem?_toList, Array.getElem?_eq_getElem inside, Option.map_some]
  have inside' := Nat.lt_trans before inside
  rw [path inside', path inside, Option.some.injEq] at same
  have first := tree.reached i _ (Array.getElem?_eq_getElem inside')
  rw [same, tree.reached j _ (Array.getElem?_eq_getElem inside)] at first
  exact Nat.ne_of_gt before (Except.ok.inj first)

theorem isTree_new : IsTree #[{}] := by
  have only {i : NodeId} {t : Slot} (here : (#[{}] : Slots)[i]? = some t) : i = 0 ∧ t = {} := by
    cases i with
    | zero => exact ⟨rfl, (Option.some.inj here).symm⟩
    | succ i => cases here
  refine ⟨Nat.one_pos, ?_, .refl _, ?_, ?_⟩
  · intro i t here child part
    rw [(only here).2] at part
    cases part
  · intro i t here
    rw [(only here).2]
    exact .hole
  · intro i t here
    obtain ⟨rfl, rfl⟩ := only here
    rfl

end Slots

/-- Calls with any arguments, whether or not they fail, leave a table of nodes that form a tree:
parts come after the node that holds them, every node but the root is held once, keys and names are
taken once, tuples have at most 256 elements, and the path of a node leads to it and to no other. -/
theorem Builder.run_isTree (edits : List Edit) :
    ∃ slots : Slots, Builder.new.run edits = .building slots ∧ slots.IsTree ∧
      (slots.toList.map (·.path)).Nodup := by
  obtain ⟨slots, ran, changes⟩ := run_changes edits #[{}]
  have tree := changes.isTree Slots.isTree_new
  exact ⟨slots, ran, tree, tree.paths_nodup⟩

end DocSchema
