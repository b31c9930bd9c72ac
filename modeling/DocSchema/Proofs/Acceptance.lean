import DocSchema.Proofs.Rebuilding

set_option autoImplicit false

namespace DocSchema

namespace Value

mutual

/-- The value with the entries under keys of extensions moved, at every node, to the front of the
extensions. -/
def regrouped : Value → Value
  | .node c x => (Node.regrouped ⟨regroupedContent c, regroupedItems x⟩).value

def regroupedContent : Content Value → Content Value
  | .hole => .hole
  | .primitive p => .primitive p
  | .map es => .map (regroupedEntries es)
  | .array vs => .array (regroupedList vs)
  | .tuple vs => .tuple (regroupedList vs)

def regroupedEntries : List (Key × Value) → List (Key × Value)
  | [] => []
  | (k, v) :: es => (k, v.regrouped) :: regroupedEntries es

def regroupedList : List Value → List Value
  | [] => []
  | v :: vs => v.regrouped :: regroupedList vs

def regroupedItems : List (Bytes × Value) → List (Bytes × Value)
  | [] => []
  | (name, v) :: x => (name, v.regrouped) :: regroupedItems x

end

/-- Whether every node of the value is acceptable, those inside extensions included. -/
inductive IsAcceptable : Value → Prop
  | intro {v : Value} (root : v.root.IsAcceptable)
      (parts : ∀ part ∈ v.root.parts, IsAcceptable part) :
      IsAcceptable v

theorem root_regrouped (v : Value) : v.regrouped.root = (v.root.mapParts regrouped).regrouped := by
  have entries (es : List (Key × Value)) :
      regroupedEntries es = es.map fun e => (e.1, e.2.regrouped) := by
    induction es with
    | nil => rfl
    | cons e es ih => rw [regroupedEntries, ih, List.map_cons]
  have elements (vs : List Value) : regroupedList vs = vs.map regrouped := by
    induction vs with
    | nil => rfl
    | cons v vs ih => rw [regroupedList, ih, List.map_cons]
  have items (x : List (Bytes × Value)) :
      regroupedItems x = x.map fun e => (e.1, e.2.regrouped) := by
    induction x with
    | nil => rfl
    | cons e x ih => rw [regroupedItems, ih, List.map_cons]
  obtain ⟨c, x⟩ := v
  have content : regroupedContent c = c.mapParts regrouped := by
    cases c <;> simp [regroupedContent, Content.mapParts, entries, elements]
  rw [regrouped, content, items]
  rfl

theorem gains_regrouped {v : Value} {n : Node Value} :
    Node.Gains ⟨v.content.emptied, []⟩ (v.root.items.map fun item => (item.1, item.2.regrouped)) n ↔
      v.root.IsAcceptable ∧ n = v.regrouped.root := by
  have gains := @Node.gains_items Value (v.root.mapParts regrouped) n
  rw [Node.items_mapParts, Node.isAcceptable_mapParts, ← root_regrouped] at gains
  rw [← gains, Node.mapParts, Content.emptied_mapParts]
  rfl

theorem IsAcceptable.fillsAs {v : Value} (acceptable : v.IsAcceptable) : v.FillsAs v.regrouped := by
  induction acceptable with
  | intro root parts ih => exact fillsAs_of_gains root.elements (gains_regrouped.2 ⟨root, rfl⟩) ih

end Value

theorem Node.Attaches.hole {α : Type} {n n' : Node α} {part : α} {step : Segment}
    (attaches : n.Attaches part step n') (hole : n'.content = .hole) : n.content = .hole := by
  cases attaches with
  | extension fresh => exact hole
  | _ => cases hole

theorem Node.Attaches.mapParts {α β : Type} {n n' : Node α} {part : α} {step : Segment}
    (attaches : n.Attaches part step n') (g : α → β) :
    (n.mapParts g).Attaches (g part) step (n'.mapParts g) := by
  have unused {κ : Type} [DecidableEq κ] {k : κ} {items : List (κ × α)}
      (fresh : lookup? k items = none) :
      lookup? k (items.map fun item => (item.1, g item.2)) = none := by
    rw [lookup?_eq_none, List.map_map]
    exact lookup?_eq_none.1 fresh
  cases attaches with
  | @entry key entries content plain fresh =>
      have map : (n.mapParts g).content = .map (entries.map fun e => (e.1, g e.2)) := by
        rw [Node.mapParts, content, Content.mapParts]
      have attaches : Attaches _ (g part) _ _ := .entry map plain (unused fresh)
      simpa [Node.mapParts, Content.mapParts] using attaches
  | @element index elements content last =>
      have array : (n.mapParts g).content = .array (elements.map g) := by
        rw [Node.mapParts, content, Content.mapParts]
      have ends : ∀ i ∈ index, i = (elements.map g).length := by simpa using last
      have attaches : Attaches _ (g part) _ _ := .element array ends
      simpa [Node.mapParts, Content.mapParts] using attaches
  | @position index elements content last =>
      have tuple : (n.mapParts g).content = .tuple (elements.map g) := by
        rw [Node.mapParts, content, Content.mapParts]
      have ends : index.toNat = (elements.map g).length := by rw [last, List.length_map]
      have attaches : Attaches _ (g part) _ _ := .position tuple ends
      simpa [Node.mapParts, Content.mapParts] using attaches
  | @extension name fresh =>
      have unused : (n.mapParts g).extension? name = none := unused fresh
      have attaches : Attaches _ (g part) _ _ := .extension unused
      simpa [Node.mapParts] using attaches

/-- A node that only gains extensions while it is a hole is of the kind that the steps to its parts
ask for. -/
theorem Node.settledFor_of_mapParts {β : Type} {n : Node NodeId} {m : Node β} {g : NodeId → β}
    {step : Segment}
    (root : n.mapParts g = m) (kept : m.content = .hole → ∃ name, step = .ext name) :
    n.settledFor step = n := by
  by_cases hole : n.content = .hole
  · have same : m.content = .hole := by rw [← root, mapParts, hole, Content.mapParts]
    obtain ⟨name, rfl⟩ := kept same
    rfl
  · exact settledFor_filled hole step

/-- A call that succeeds is a first one that does, and one that does after it. -/
theorem Build.outcome_bind_eq_ok {α β : Type} {x : Build α} {f : α → Build β} {b after : Builder}
    {r : β} (outcome : (x >>= f).outcome b = (.ok r, after)) :
    ∃ a between, x.outcome b = (.ok a, between) ∧ (f a).outcome between = (.ok r, after) := by
  rw [outcome_bind] at outcome
  split at outcome
  · exact ⟨_, _, ‹_›, outcome⟩
  · cases outcome

def Value.CanFill (v : Value) : Prop :=
  ∃ (slots : Slots) (id : NodeId) (path : Path) (after : Builder),
    slots.IsTree ∧ slots[id]? = some { path } ∧
    (Builder.fill id v).outcome (.building slots) = (.ok (), after)

namespace Builder

variable {slots : Slots} {id : NodeId} {n : Node Value} {after : Builder}

theorem length_of_prepare {c : Content Value} {b : Builder}
    (outcome : (prepare id c).outcome b = (.ok (), after)) :
    ∀ elements, c = .tuple elements → elements.length ≤ 256 := by
  rintro elements rfl
  rw [prepare] at outcome
  obtain ⟨-, between, -, checked⟩ := Build.outcome_bind_eq_ok outcome
  split at checked
  · cases checked
  · next few => exact Nat.not_lt.1 few

/-- Items that were filled in are acceptable, and were gained one after the other. The induction is
on the items; a table is known again after each of them, as its item is acceptable and so fills its
hole. -/
theorem gains_of_fillItems {items : List (Segment × Value)} (tree : slots.IsTree)
    (holds : slots.Holds id n.value)
    (kept : n.content = .hole → ∀ item ∈ items, ∃ name, item.1 = .ext name)
    (accepts : ∀ item ∈ items, item.2.CanFill → item.2.IsAcceptable)
    (outcome : (fillItems id items).outcome (.building slots) = (.ok (), after)) :
    (∀ item ∈ items, item.2.IsAcceptable) ∧
      ∃ n', n.Gains (items.map fun item => (item.1, item.2.regrouped)) n' := by
  induction items generalizing slots n with
  | nil => exact ⟨nofun, n, .nil⟩
  | cons item items ih =>
      obtain ⟨step, v⟩ := item
      obtain ⟨first, others⟩ := List.forall_mem_cons.1 accepts
      obtain ⟨child, between, inserted, outcome⟩ := Build.outcome_bind_eq_ok outcome
      obtain ⟨⟨⟩, next, filled, outcome⟩ := Build.outcome_bind_eq_ok outcome
      obtain ⟨s, g, found, root, last, -⟩ := holds.next tree v.regrouped
      obtain ⟨s', m, here, attaches, rfl, added⟩ := insertSegment_attaches inserted
      obtain rfl : s = s' := Option.some.inj (found.symm.trans here)
      have settled : s.node.settledFor step = s.node :=
        Node.settledFor_of_mapParts root fun hole => kept hole _ List.mem_cons_self
      rw [settled] at attaches
      rw [settled, Slots.setNode_self found] at added
      have gained : n.Attaches v.regrouped step (m.mapParts g) := by
        rw [← root, ← last]
        exact attaches.mapParts g
      have acceptable : v.IsAcceptable :=
        first ⟨_, _, _, _, (Slots.Change.attach found attaches).isTree tree, Slots.grow_last (Slots.lt_size found),
          added ▸ filled⟩
      obtain ⟨_, slots', inserted', filled', fills⟩ :=
        fillItem_ok gained acceptable.fillsAs tree holds
      cases inserted.symm.trans inserted'
      cases filled.symm.trans filled'
      obtain ⟨rest, n', gains⟩ := ih (fills.changes.isTree tree) fills.holds
        (fun hole item inside => kept (gained.hole hole) item (List.mem_cons_of_mem _ inside)) others outcome
      exact ⟨List.forall_mem_cons.2 ⟨acceptable, rest⟩, n', .cons gained gains⟩

end Builder

namespace Value

/-- A value that was filled in is acceptable. The induction is on its size. -/
theorem CanFill.isAcceptable {v : Value} (filled : v.CanFill) : v.IsAcceptable := by
  induction size : v.size using Nat.strongRecOn generalizing v with
  | ind size ih =>
      obtain ⟨slots, id, path, after, tree, hole, outcome⟩ := filled
      rw [Builder.fill_eq] at outcome
      obtain ⟨⟨⟩, between, prepared, outcome⟩ := Build.outcome_bind_eq_ok outcome
      cases prepared.symm.trans (Builder.prepare_ok (Builder.length_of_prepare prepared) hole)
      have emptied := Slots.fills_emptied hole v.content
      have kept (empty : (v.content.emptied : Content Value) = .hole) :
          ∀ item ∈ v.root.items, ∃ name, item.1 = .ext name := by
        intro item inside
        cases content : v.content with
        | hole =>
            rw [Node.items, root, content] at inside
            obtain ⟨e, -, rfl⟩ := List.mem_map.1 inside
            exact ⟨e.1, rfl⟩
        | _ =>
            rw [content] at empty
            cases empty
      have smaller (item : Segment × Value) (inside : item ∈ v.root.items) : item.2.size < v.size :=
        size_lt_of_mem_parts (Node.part_of_items inside)
      obtain ⟨each, n, gains⟩ := Builder.gains_of_fillItems (n := ⟨v.content.emptied, []⟩)
        (emptied.changes.isTree tree) emptied.holds kept
        (fun item inside filled => ih item.2.size (size ▸ smaller item inside) filled rfl) outcome
      refine .intro (gains_regrouped.1 gains).1 fun part inside => ?_
      rw [← v.root.map_snd_items] at inside
      obtain ⟨item, listed, rfl⟩ := List.mem_map.1 inside
      exact each item listed

end Value

/-- A document can be built from exactly those values in which, at every node, no plain key is taken
twice, no name of an extension is, in the map and behind it together, and no tuple has more than 256
elements. The document has the value with the entries under keys of extensions moved to the front of
the extensions of their nodes. -/
theorem Document.ofValue_accepts (v : Value) :
    ((∃ d, ofValue v = .ok d) ↔ v.IsAcceptable) ∧
    ∀ d, ofValue v = .ok d → d.value = v.regrouped := by
  have accepted {d : Document} (built : ofValue v = .ok d) : v.IsAcceptable := by
    rw [ofValue] at built
    split at built
    · cases built
    · next after filled =>
      exact Value.CanFill.isAcceptable ⟨#[{}], root, [], after, Slots.isTree_new, rfl, filled⟩
  have rebuilds (acceptable : v.IsAcceptable) : ∃ d, ofValue v = .ok d ∧ d.value = v.regrouped := by
    obtain ⟨slots, -, built, value⟩ := acceptable.fillsAs.rebuilds
    exact ⟨_, built, value⟩
  constructor
  · constructor
    · rintro ⟨d, built⟩
      exact accepted built
    · intro acceptable
      obtain ⟨d, built, -⟩ := rebuilds acceptable
      exact ⟨d, built⟩
  · intro d built
    obtain ⟨d', built', value⟩ := rebuilds (accepted built)
    cases built.symm.trans built'
    exact value

/-- Extensions among the entries of two maps, one of which is itself an extension, and behind the
first map. -/
private def scattered : Value :=
  .node (.map [(.ext "x", .of (.primitive .null)), (.ident "a", .of .hole),
    (.ext "y", .of (.map [(.ext "x", .of .hole)])),
    (.literal (.text "a"), .of (.tuple [.of .hole]))])
    [("z", .of .hole)]

theorem Document.ofValue_accepts_scattered :
    ∃ d, ofValue scattered = .ok d ∧
      d.value = .node (.map [(.ident "a", .of .hole),
        (.literal (.text "a"), .of (.tuple [.of .hole]))])
        [("x", .of (.primitive .null)), ("y", .node (.map []) [("x", .of .hole)]),
          ("z", .of .hole)] := by
  have hole : (Value.of .hole).IsAcceptable := .intro ⟨by decide, by decide, nofun⟩ nofun
  have null : (Value.of (.primitive .null)).IsAcceptable :=
    .intro ⟨by decide, by decide, nofun⟩ nofun
  have tuple : (Value.of (.tuple [.of .hole])).IsAcceptable := by
    refine .intro ⟨by decide, by decide, ?_⟩ (List.forall_mem_singleton.2 hole)
    rintro _ ⟨⟩
    decide
  have map : (Value.of (.map [(.ext "x", .of .hole)])).IsAcceptable :=
    .intro ⟨by decide, by decide, nofun⟩ (List.forall_mem_singleton.2 hole)
  have acceptable : scattered.IsAcceptable := by
    refine .intro ⟨by decide +kernel, by decide +kernel, nofun⟩ ?_
    simp [scattered, Value.root, Value.content, Value.extensions, Node.parts, Content.parts, hole,
      null, tuple, map]
  obtain ⟨d, built⟩ := (ofValue_accepts scattered).1.2 acceptable
  exact ⟨d, built, (ofValue_accepts scattered).2 d built⟩

end DocSchema
