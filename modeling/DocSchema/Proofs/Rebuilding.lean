import DocSchema.Document.Rebuild
import DocSchema.Proofs.Regrouping

set_option autoImplicit false

namespace DocSchema

variable {α β : Type}

def Node.value (n : Node Value) : Value :=
  .node n.content n.extensions

theorem Value.value_root (v : Value) : v.root.value = v := by
  cases v
  rfl

namespace Slots

variable {slots slots' slots'' : Slots} {id i : NodeId} {v w : Value}

/-- Whether a node has the value. -/
inductive Holds (slots : Slots) : NodeId → Value → Prop
  | intro {id : NodeId} {v : Value} {s : Slot} {f : NodeId → Value} (found : slots[id]? = some s)
      (root : s.node.mapParts f = v.root)
      (parts : ∀ child ∈ s.node.parts, Holds slots child (f child)) :
      Holds slots id v

/-- A node keeps its value when no node behind `id` changes, if it is one of these. -/
theorem Holds.frame (tree : slots.IsTree)
    (same : ∀ i, id < i → i < slots.size → slots'[i]? = slots[i]?)
    (holds : slots.Holds i v) (behind : id < i) : slots'.Holds i v := by
  induction holds with
  | @intro i v s f found root parts ih =>
      refine .intro ((same i behind (lt_size found)).trans found) root fun child part => ?_
      exact ih child part (Nat.lt_trans behind (tree.ordered i s found child part).1)

/-- What filling the node `id` leaves: the node has the value, and no other one that was there is
changed. -/
structure Fills (slots : Slots) (id : NodeId) (v : Value) (slots' : Slots) : Prop where
  changes : slots.Changes slots'
  others : ∀ i, i < slots.size → i ≠ id → slots'[i]? = slots[i]?
  holds : slots'.Holds id v

theorem Fills.trans (first : slots.Fills id v slots') (rest : slots'.Fills id w slots'') :
    slots.Fills id w slots'' := by
  refine ⟨first.changes.trans rest.changes, fun i inside other => ?_, rest.holds⟩
  have kept := first.others i inside other
  have inside' : i < slots'.size := lt_size (kept.trans (Array.getElem?_eq_getElem inside))
  rw [rest.others i inside' other, kept]

end Slots

namespace Builder

variable {slots : Slots} {id : NodeId}

/-- Adds parts, each filled with a value before the next one is added. -/
def fillItems (id : NodeId) : List (Segment × Value) → Build Unit
  | [] => pure ()
  | (step, v) :: items => do
    let child ← insertSegment id step
    fill child v
    fillItems id items

def prepare (id : NodeId) : Content Value → Build Unit
  | .hole => pure ()
  | .primitive p => assign id p
  | .map _ => make id .map
  | .array _ => make id .array
  | .tuple vs => do
    make id .tuple
    if 256 < vs.length then throw ⟨.indexOutOfRange, []⟩

theorem fillItems_append (items more : List (Segment × Value)) :
    fillItems id (items ++ more) = (do
      fillItems id items
      fillItems id more) := by
  induction items with
  | nil => rfl
  | cons item items ih =>
      simp only [List.cons_append, fillItems, ih, bind_assoc]

theorem fillEntries_eq (es : List (Key × Value)) :
    fillEntries id es = fillItems id (es.map fun e => (e.1.segment, e.2)) := by
  induction es with
  | nil => rfl
  | cons e es ih => rw [fillEntries, ih, insert_eq]; rfl

theorem fillArray_eq (vs : List Value) :
    fillArray id vs = fillItems id (vs.map fun v => (.array none, v)) := by
  induction vs with
  | nil => rfl
  | cons v vs ih => rw [fillArray, ih]; rfl

theorem fillTuple_eq (index : Nat) (vs : List Value) :
    fillTuple id (.ofNat index) vs =
      fillItems id ((vs.zipIdx index).map fun (v, i) => (.tuple (.ofNat i), v)) := by
  induction vs generalizing index with
  | nil => rfl
  | cons v vs ih =>
      have next : UInt8.ofNat index + 1 = .ofNat (index + 1) := (UInt8.ofNat_add index 1).symm
      rw [fillTuple, next, ih]
      rfl

theorem fillExtensions_eq (x : List (Bytes × Value)) :
    fillExtensions id x = fillItems id (x.map fun e => (.ext e.1, e.2)) := by
  induction x with
  | nil => rfl
  | cons e x ih => rw [fillExtensions, ih]; rfl

/-- Filling is adding the parts once the content is there. -/
theorem fill_eq (v : Value) : fill id v = (do
    prepare id v.content
    fillItems id v.root.items) := by
  cases v with
  | node c x =>
      rw [fill, fillExtensions_eq, Node.items, fillItems_append, ← bind_assoc]
      congr 1
      cases c with
      | hole => rfl
      | primitive p => exact (bind_pure_unit (x := assign id p)).symm
      | map es => rw [fillContent, fillEntries_eq]; rfl
      | array vs => rw [fillContent, fillArray_eq]; rfl
      | tuple vs =>
          have items : fillTuple id 0 vs = fillItems id (Content.items (.tuple vs)) :=
            fillTuple_eq 0 vs
          rw [fillContent, items]
          change _ = (prepare id (.tuple vs) >>= fun _ => fillItems id (Content.items (.tuple vs)))
          rw [prepare, bind_assoc]
          congr 1
          funext _
          split <;> rfl

end Builder

/-- A node whose parts stand for values gains a part as these do. -/
theorem Node.Attaches.of_mapParts {n : Node α} {g : α → β} {child : α} {step : Segment} {m : Node β}
    (attaches : (n.mapParts g).Attaches (g child) step m) :
    ∃ n', n.Attaches child step n' ∧ n'.mapParts g = m := by
  cases attaches with
  | @entry key entries content plain fresh =>
      cases actual : n.content with
      | map es =>
          have same : es.map (fun e => (e.1, g e.2)) = entries := by
            simpa [Node.mapParts, actual, Content.mapParts] using content
          have unused : lookup? key es = none := by
            rw [← same, lookup?_eq_none, List.map_map] at fresh
            exact lookup?_eq_none.2 fresh
          refine ⟨_, .entry actual plain unused, ?_⟩
          simp [Node.mapParts, Content.mapParts, ← same]
      | _ => simp [Node.mapParts, actual, Content.mapParts] at content
  | @element index elements content last =>
      cases actual : n.content with
      | array as =>
          have same : as.map g = elements := by
            simpa [Node.mapParts, actual, Content.mapParts] using content
          refine ⟨_, .element actual fun i given => ?_, ?_⟩
          · rw [last i given, ← same, List.length_map]
          · simp [Node.mapParts, Content.mapParts, ← same]
      | _ => simp [Node.mapParts, actual, Content.mapParts] at content
  | @position index elements content last =>
      cases actual : n.content with
      | tuple as =>
          have same : as.map g = elements := by
            simpa [Node.mapParts, actual, Content.mapParts] using content
          refine ⟨_, .position actual ?_, ?_⟩
          · rw [last, ← same, List.length_map]
          · simp [Node.mapParts, Content.mapParts, ← same]
      | _ => simp [Node.mapParts, actual, Content.mapParts] at content
  | @extension name fresh =>
      have unused : n.extension? name = none := by
        rw [Node.extension?, Node.mapParts, lookup?_eq_none, List.map_map] at fresh
        exact lookup?_eq_none.2 fresh
      refine ⟨_, .extension unused, ?_⟩
      simp [Node.mapParts]

/-- A node that can gain a part is of the kind that has such steps. -/
theorem Node.Attaches.settledFor {n n' : Node NodeId} {child : NodeId} {step : Segment}
    (attaches : n.Attaches child step n') : n.settledFor step = n := by
  cases attaches with
  | @entry key entries content plain fresh =>
      rw [Node.settledFor_segment n plain, Node.settled, content]
      rfl
  | element content last =>
      rw [Node.settledFor, Node.settled, content]
      rfl
  | position content last =>
      rw [Node.settledFor, Node.settled, content]
      rfl
  | extension fresh => rfl

/-- Whether a hole can be filled with a value, and has the value `w` then. -/
def Value.FillsAs (v w : Value) : Prop :=
  ∀ (slots : Slots) (id : NodeId) (path : Path), slots.IsTree → slots[id]? = some { path } →
    ∃ slots', (Builder.fill id v).outcome (.building slots) = (.ok (), .building slots') ∧
      slots.Fills id w slots'

/-- The values of the parts of a node, and one for the next part that is added. -/
theorem Slots.Holds.next {slots : Slots} {id : NodeId} {n : Node Value} (tree : slots.IsTree)
    (holds : slots.Holds id n.value) (w : Value) :
    ∃ (s : Slot) (g : NodeId → Value), slots[id]? = some s ∧ s.node.mapParts g = n ∧
      g slots.size = w ∧
      ∀ child ∈ s.node.parts, slots.Holds child (g child) := by
  cases holds with
  | @intro _ _ s f found root parts =>
  have old {child : NodeId} (part : child ∈ s.node.parts) :
      Function.update f slots.size w child = f child :=
    Function.update_of_ne (Nat.ne_of_lt (tree.ordered id s found child part).2) w f
  refine ⟨s, Function.update f slots.size w, found, (Node.mapParts_congr fun _ => old).trans root,
    Function.update_self slots.size w f, fun child part => ?_⟩
  rw [old part]
  exact parts child part

namespace Builder

variable {slots : Slots} {id : NodeId} {n n' : Node Value} {v w : Value} {step : Segment}

/-- Adding a part and filling it turns the value of the node into the one that has gained the
part. -/
theorem fillItem_ok (attaches : n.Attaches w step n') (fills : v.FillsAs w) (tree : slots.IsTree)
    (holds : slots.Holds id n.value) :
    ∃ between slots', (insertSegment id step).outcome (.building slots) =
      (.ok slots.size, .building between) ∧
      (fill slots.size v).outcome (.building between) = (.ok (), .building slots') ∧
      slots.Fills id n'.value slots' := by
  obtain ⟨s, g, found, root, last, parts⟩ := holds.next tree w
  rw [← root, ← last] at attaches
  obtain ⟨m, attaches, gained⟩ := attaches.of_mapParts
  have inserted := insertSegment_ok found (attaches.settledFor.symm ▸ attaches)
  rw [attaches.settledFor, Slots.setNode_self found] at inserted
  have change := Slots.Change.attach found attaches
  obtain ⟨slots', filled, fills⟩ :=
    fills _ slots.size _ (change.isTree tree) (Slots.grow_last (Slots.lt_size found))
  have others (i : NodeId) (inside : i < slots.size) (other : i ≠ id) : slots'[i]? = slots[i]? := by
    rw [fills.others i (by rw [Slots.size_grow]; exact Nat.lt_succ_of_lt inside) (Nat.ne_of_lt inside),
      Slots.grow_other other inside]
  refine ⟨_, slots', inserted, filled, .head change fills.changes, others, ?_⟩
  have here := fills.others id
      (by rw [Slots.size_grow]; exact Nat.lt_succ_of_lt (Slots.lt_size found))
    (Nat.ne_of_lt (Slots.lt_size found))
  refine .intro (here.trans (Slots.grow_here found)) gained fun child part => ?_
  obtain rfl | part := List.mem_cons.1 (attaches.parts_perm.mem_iff.1 part)
  · rw [last]
    exact fills.holds
  · exact (parts child part).frame tree (fun i behind inside => others i inside (Nat.ne_of_gt behind))
      (tree.ordered id s found child part).1

theorem fillItems_ok {items : List (Segment × Value)} {f : Value → Value}
    (gains : n.Gains (items.map fun item => (item.1, f item.2)) n')
    (fills : ∀ item ∈ items, item.2.FillsAs (f item.2)) (tree : slots.IsTree)
    (holds : slots.Holds id n.value) :
    ∃ slots', (fillItems id items).outcome (.building slots) = (.ok (), .building slots') ∧
      slots.Fills id n'.value slots' := by
  induction items generalizing slots n with
  | nil =>
      obtain rfl := Node.gains_nil.1 gains
      exact ⟨slots, rfl, .refl, fun _ _ _ => rfl, holds⟩
  | cons item items ih =>
      obtain ⟨m, attaches, rest⟩ := Node.gains_cons.1 gains
      obtain ⟨first, others⟩ := List.forall_mem_cons.1 fills
      obtain ⟨between, next, inserted, filled, fills⟩ := fillItem_ok attaches first tree holds
      obtain ⟨slots', outcome, fills'⟩ := ih rest others (fills.changes.isTree tree) fills.holds
      refine ⟨slots', ?_, fills.trans fills'⟩
      rw [fillItems, Build.outcome_bind_ok inserted, Build.outcome_bind_ok filled, outcome]

theorem prepare_ok {path : Path} {c : Content Value}
    (few : ∀ elements, c = .tuple elements → elements.length ≤ 256)
    (hole : slots[id]? = some { path }) :
    (prepare id c).outcome (.building slots) =
      (.ok (), .building (slots.setNode id ⟨c.emptied, []⟩)) := by
  cases c with
  | hole =>
      rw [Content.emptied, Slots.setNode_self (s := { path }) hole]
      rfl
  | primitive p => exact assign_ok p hole rfl
  | map entries => exact make_ok hole rfl
  | array elements => exact make_ok hole rfl
  | tuple elements =>
      rw [prepare, Build.outcome_bind_ok (make_ok hole rfl), if_neg]
      · rfl
      · exact Nat.not_lt.2 (few elements rfl)

end Builder

theorem Node.map_snd_items (n : Node α) : n.items.map (·.2) = n.parts := by
  have content : n.content.items.map (·.2) = n.content.parts := by
    cases n.content with
    | tuple elements =>
        rw [Content.items, List.map_map]
        exact List.zipIdx_map_fst 0 elements
    | _ => simp [Content.items, Content.parts, Function.comp_def]
  rw [Node.items, List.map_append, content, List.map_map]
  rfl

theorem Node.part_of_items {n : Node α} {item : Segment × α} (inside : item ∈ n.items) :
    item.2 ∈ n.parts := by
  rw [← n.map_snd_items]
  exact List.mem_map_of_mem inside

/-- The preparation of a hole for a value. -/
theorem Slots.fills_emptied {slots : Slots} {id : NodeId} {path : Path}
    (hole : slots[id]? = some { path })
    (c : Content Value) :
    slots.Fills id (.node c.emptied []) (slots.setNode id ⟨c.emptied, []⟩) := by
  have parts {β : Type} : (c.emptied : Content β).parts = [] := by cases c <;> rfl
  refine ⟨.single (.settle hole ⟨rfl, parts, rfl⟩), fun i _ other => setNode_other other, ?_⟩
  refine .intro (f := fun _ => .of .hole) (setNode_here hole) ?_ ?_
  · cases c <;> rfl
  · intro child part
    rw [Node.parts, parts] at part
    cases part

/-- A hole can be filled with a value whose parts it can gain once it is prepared. -/
theorem Value.fillsAs_of_gains {v w : Value} {f : Value → Value}
    (few : ∀ elements, v.content = .tuple elements → elements.length ≤ 256)
    (gains : Node.Gains ⟨v.content.emptied,
      []⟩ (v.root.items.map fun item => (item.1, f item.2)) w.root)
    (parts : ∀ part ∈ v.root.parts, part.FillsAs (f part)) : v.FillsAs w := by
  intro slots id path tree hole
  have emptied := Slots.fills_emptied hole v.content
  obtain ⟨slots', filled, fills⟩ := Builder.fillItems_ok gains
    (fun item inside => parts item.2 (Node.part_of_items inside))
      (emptied.changes.isTree tree) emptied.holds
  rw [w.value_root] at fills
  refine ⟨slots', ?_, emptied.trans fills⟩
  rw [Builder.fill_eq, Build.outcome_bind_ok (Builder.prepare_ok few hole)]
  exact filled

/-- A value whose steps tell its parts apart can be filled in: no call fails. The induction is on
the value. -/
theorem Value.IsOrderly.fillsAs {v : Value} (orderly : v.IsOrderly) : v.FillsAs v := by
  induction orderly with
  | @intro v root parts ih =>
      have items : v.root.items.map (fun item => (item.1, id item.2)) = v.root.items :=
        List.map_id' _
      exact v.fillsAs_of_gains root.elements (items.symm ▸ root.gains) ih

/-- The value that a node holds is that of the document. -/
theorem Slots.Holds.valueAt {slots : Slots} {id : NodeId} {v : Value} (holds : slots.Holds id v)
    (tree : slots.IsTree) : slots.document.valueAt id = v := by
  induction holds with
  | @intro id v s f found root parts ih =>
      have node : slots.document.node id = s.node := by
        rw [Document.node, document, Array.getElem?_map, found]
        rfl
      have same : (slots.document.valueAt id).root = v.root := by
        rw [tree.isOrdered.root_valueAt, node, ← root]
        exact Node.mapParts_congr ih
      rw [← Value.value_root (slots.document.valueAt id), same, v.value_root]

/-- The document built from a value has the value that a hole has once it is filled so. -/
theorem Value.FillsAs.rebuilds {v w : Value} (fills : v.FillsAs w) :
    ∃ slots : Slots, slots.IsTree ∧ Document.ofValue v = .ok slots.document ∧
      slots.document.value = w := by
  obtain ⟨slots, filled, fills⟩ := fills #[{}] Document.root [] Slots.isTree_new rfl
  have tree := fills.changes.isTree Slots.isTree_new
  refine ⟨slots, tree, ?_, fills.holds.valueAt tree⟩
  have filled : (Builder.fill Document.root v).run.run Builder.new = (.ok (), .building slots) :=
    filled
  rw [Document.ofValue, filled]
  rfl

/-- A value whose steps tell its parts apart is the value of the document built from it, a tree of
nodes. -/
theorem Value.IsOrderly.rebuilds {v : Value} (orderly : v.IsOrderly) :
    ∃ slots : Slots, slots.IsTree ∧ Document.ofValue v = .ok slots.document ∧
      slots.document.value = v :=
  orderly.fillsAs.rebuilds

theorem Value.IsOrderly.ofValue {v : Value} (orderly : v.IsOrderly) :
    ∃ d, Document.ofValue v = .ok d ∧ d.value = v := by
  obtain ⟨slots, -, rebuilt, value⟩ := orderly.rebuilds
  exact ⟨_, rebuilt, value⟩

/-- The value of a built document gives each node with its content and its extensions in order, and
no part is cut off. A document can be built from the value, and has it. -/
theorem Document.value_rebuilt {d : Document} (built : d.IsBuilt) :
    (∀ id, (d.valueAt id).root = (d.node id).mapParts d.valueAt) ∧
      ∃ rebuilt, Document.ofValue d.value = .ok rebuilt ∧ rebuilt.value = d.value :=
  ⟨built.isOrdered.root_valueAt, (built.isOrdered.valueAt_isOrderly root).ofValue⟩

/-- Two keys of one spelling; a hole with an extension; an element that was refused. -/
private def noted : Document :=
  ⟨#[⟨.map [(.ident "x", 1), (.literal (.text "x"), 2)], []⟩, ⟨.hole, [("note", 3)]⟩,
    ⟨.tuple [4], []⟩, {}, {}]⟩

private theorem noted_isBuilt : noted.IsBuilt :=
  .of_run [.insert 0 (.ident "x"), .insert 0 (.literal (.text "x")), .ensure [.ext "note"] 1,
    .pushTuple 2 0, .pushTuple 2 0] rfl rfl

theorem Document.value_rebuilt_noted :
    noted.IsBuilt ∧ ∃ d, ofValue noted.value = .ok d ∧ d.value = noted.value :=
  ⟨noted_isBuilt, (value_rebuilt noted_isBuilt).2⟩

end DocSchema
