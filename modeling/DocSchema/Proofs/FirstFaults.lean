import DocSchema.Proofs.Acceptance
import DocSchema.Proofs.Glances
import DocSchema.Proofs.Prefixes

set_option autoImplicit false

namespace DocSchema

/-- What a node of a value shows that no document can hold. -/
inductive Fault where
  /-- The step to a part comes again. -/
  | repeats (step : Segment)
  /-- A tuple has more elements than there are indices. -/
  | overlong

def Fault.IsOf (v : Value) : Fault → Prop
  | .repeats step => 1 < (v.root.places.map (·.1)).count step
  | .overlong => ∃ elements, v.content = .tuple elements ∧ 256 < elements.length

/-- The error for a fault of the node at a path. That of a tuple that is too long leaves the path
out. -/
def Fault.error (path : Path) : Fault → PathError
  | .repeats step => ⟨.alreadyAssigned, path ++ [step]⟩
  | .overlong => ⟨.indexOutOfRange, []⟩

namespace Value

/-- The value to which a path leads, by way of the first part at each step. -/
def follow? : Path → Value → Option Value
  | [], v => some v
  | step :: path, v => (lookup? step v.root.places).bind (follow? path)

def IsShort (v : Value) : Prop :=
  ∀ elements, v.content = .tuple elements → elements.length ≤ 256

/-- Whether building comes to a part of the root: the parts before it can all be added and
filled. -/
structure ComesTo (v : Value) (before : List (Segment × Value)) (step : Segment) (part : Value) :
    Prop where
  short : v.IsShort
  split : ∃ after, v.root.places = before ++ (step, part) :: after
  distinct : (before.map (·.1)).Nodup
  sound : ∀ place ∈ before, place.2.IsAcceptable

/-- The fault at which building stops, and the path of its node: the length of a tuple is looked at
before its elements are, and each part is filled before the next one is added. -/
inductive FirstFault : Value → Path → Fault → Prop
  | overlong {v : Value} {elements : List Value} (tuple : v.content = .tuple elements)
      (long : 256 < elements.length) :
      FirstFault v [] .overlong
  | repeats {v part : Value} {before : List (Segment × Value)} {step : Segment}
      (comes : v.ComesTo before step part)
      (again : step ∈ before.map (·.1)) : FirstFault v [] (.repeats step)
  | inside {v part : Value} {before : List (Segment × Value)} {step : Segment} {path : Path}
      {fault : Fault}
      (comes : v.ComesTo before step part) (fresh : step ∉ before.map (·.1))
      (first : FirstFault part path fault) :
      FirstFault v (step :: path) fault

end Value

section Placed

variable {α β : Type} {n : Node α} {g : α → β} {step : Segment}

theorem Segment.placed_mapParts : step.placed (n.mapParts g) = step.placed n := by
  have length : (n.content.mapParts g).parts.length = n.content.parts.length := by
    cases n.content <;> simp [Content.mapParts, Content.parts]
  cases step with
  | array i => rw [placed, placed, Node.mapParts, length]
  | _ => rfl

theorem Content.find?_mapParts (key : Key) (c : Content α) :
    (c.mapParts g).find? key = (c.find? key).map g := by
  cases c with
  | map entries =>
      simp only [Content.mapParts, Content.find?, Content.entries?, Option.bind_some, lookup?,
        List.find?_map, Option.map_map]
      rfl
  | _ => rfl

end Placed

namespace Builder

variable {slots : Slots} {id : NodeId} {n n' m : Node Value} {v w : Value} {step : Segment}
  {s : Slot}
  {items more : List (Segment × Value)} {base : Path}

/-- Filling a hole adds and fills the first parts, if they can be added and are acceptable, and goes
on from there. -/
theorem fill_front (short : v.IsShort) (split : v.root.items = items ++ more)
    (gains : Node.Gains ⟨v.content.emptied,
      []⟩ (items.map fun item => (item.1, item.2.regrouped)) m)
    (sound : ∀ item ∈ items, item.2.IsAcceptable) (tree : slots.IsTree)
    (hole : slots[id]? = some { path := base }) :
    ∃ (slots' : Slots) (s : Slot), slots'.IsTree ∧ slots'.Holds id m.value ∧ slots'[id]? = some s ∧
      s.path = base ∧
      (fill id v).outcome (.building slots) = (fillItems id more).outcome (.building slots') := by
  have emptied := Slots.fills_emptied hole v.content
  obtain ⟨slots', filled, fills⟩ := fillItems_ok gains (fun item inside => (sound item inside).fillsAs)
    (emptied.changes.isTree tree) emptied.holds
  have changes := emptied.changes.trans fills.changes
  obtain ⟨s, found, path, -⟩ := Slots.Changes.grows changes id _ hole
  refine ⟨slots', s, Slots.Changes.isTree changes tree, fills.holds, found, path, ?_⟩
  rw [fill_eq, Build.outcome_bind_ok (prepare_ok short hole), split, fillItems_append,
    Build.outcome_bind_ok filled]

/-- A part that can be added is a hole behind all other nodes, at its place. -/
theorem insertItem_ok (attaches : n.Attaches w step n') (tree : slots.IsTree)
    (holds : slots.Holds id n.value) (here : slots[id]? = some s) :
    ∃ between : Slots, (insertSegment id step).outcome (.building slots) =
      (.ok slots.size, .building between) ∧
      between.IsTree ∧ between[slots.size]? = some { path := s.path ++ [step.placed n] } := by
  obtain ⟨s', g, found, root, last, -⟩ := holds.next tree w
  obtain rfl : s' = s := Option.some.inj (found.symm.trans here)
  rw [← root, ← last] at attaches
  obtain ⟨m, attaches, -⟩ := attaches.of_mapParts
  have inserted := insertSegment_ok found (attaches.settledFor.symm ▸ attaches)
  rw [attaches.settledFor, Slots.setNode_self found] at inserted
  refine ⟨_, inserted, (Slots.Change.attach found attaches).isTree tree, ?_⟩
  rw [Slots.grow_last (Slots.lt_size found), ← root, Segment.placed_mapParts]

/-- A part is refused at the step of one that is there. -/
theorem insertItem_taken (taken : (n.step? step).isSome)
    (apart : (∀ i, step ≠ .array i) ∧ ∀ i, step ≠ .tuple i)
    (tree : slots.IsTree) (holds : slots.Holds id n.value) (here : slots[id]? = some s) :
    ∃ after, (insertSegment id step).outcome (.building slots) =
      (.error ⟨.alreadyAssigned, s.path ++ [step]⟩, after) := by
  obtain ⟨s', g, found, root, -⟩ := holds.next tree (.of .hole)
  obtain rfl : s' = s := Option.some.inj (found.symm.trans here)
  have entry (key : Key) (plain : key.ext? = none) (taken : (n.content.find? key).isSome) :
      ∃ after, (insert id key).outcome (.building slots) =
        (.error ⟨.alreadyAssigned, s'.path ++ [key.segment]⟩, after) := by
    rw [← root, Node.mapParts, Content.find?_mapParts, Option.isSome_map] at taken
    cases content : s'.node.content with
    | map entries =>
        rw [content] at taken
        have settled : (s'.node.settled .map).content = .map entries := by
          rw [Node.settled, content]
          exact content
        have found? : (lookup? key entries).isSome := taken
        rw [insert_outcome found plain settled, if_pos found?]
        exact ⟨_, rfl⟩
    | _ =>
        rw [content] at taken
        cases taken
  cases step with
  | ident name => exact entry (.ident name) rfl taken
  | key l => exact entry (.literal l) rfl taken
  | ext name =>
      have taken : (s'.node.extension? name).isSome := by
        have taken : (n.extension? name).isSome := taken
        rwa [← root, Node.extension?_mapParts, Option.isSome_map] at taken
      change ∃ after, (insertExtension id name).outcome _ = _
      rw [insertExtension_outcome found, if_pos taken]
      exact ⟨_, rfl⟩
  | tuple index => exact absurd rfl (apart.2 index)
  | array index => exact absurd rfl (apart.1 index)

end Builder

namespace Value.FirstFault

variable {v : Value} {path : Path} {fault : Fault}

theorem sound_items {before items : List (Segment × Value)}
    (parts : before.map (·.2) = items.map (·.2))
    (sound : ∀ place ∈ before, place.2.IsAcceptable) : ∀ item ∈ items, item.2.IsAcceptable := by
  intro item inside
  have listed : item.2 ∈ before.map (·.2) := parts ▸ List.mem_map_of_mem inside
  obtain ⟨place, member, same⟩ := List.mem_map.1 listed
  exact same ▸ sound place member

/-- Filling a hole with a value stops at the first fault. The induction is on the way to it: the
parts before it on each level can be added and are acceptable, so they are filled. -/
theorem outcome (first : v.FirstFault path fault) {slots : Slots} {id : NodeId} {base : Path}
    (tree : slots.IsTree)
    (hole : slots[id]? = some { path := base }) :
    ∃ after, (Builder.fill id v).outcome (.building slots) =
      (.error (fault.error (base ++ path)), after) := by
  induction first generalizing slots id base with
  | @overlong v elements tuple long =>
      rw [Builder.fill_eq, tuple, Builder.prepare, bind_assoc,
        Build.outcome_bind_ok (Builder.make_ok hole rfl), if_pos long]
      exact ⟨_, rfl⟩
  | @repeats v part before step comes again =>
      obtain ⟨rest, split⟩ := comes.split
      have distinct := comes.distinct
      obtain ⟨items, s, more, whole, steps, parts, rfl⟩ := Node.places_split split
      rw [steps] at distinct again
      obtain ⟨m, gains⟩ := Node.gains_prefix whole distinct comes.short Value.regrouped
      obtain ⟨slots', s', tree', holds, here, rfl, outcome⟩ :=
        Builder.fill_front comes.short whole gains (sound_items parts comes.sound) tree hole
      obtain ⟨noArray, noTuple, inside⟩ := Node.named_of_repeated whole comes.short again
      have taken : (m.step? s).isSome := gains.step?_isSome noArray (by rwa [List.map_map])
      obtain ⟨after, refused⟩ := Builder.insertItem_taken taken ⟨noArray, noTuple⟩ tree' holds here
      rw [outcome, Builder.fillItems, Build.outcome_bind_error refused, Segment.numbered_eq noArray,
        List.append_nil]
      exact ⟨_, rfl⟩
  | @inside v part before step path fault comes fresh first ih =>
      obtain ⟨rest, split⟩ := comes.split
      have distinct := comes.distinct
      obtain ⟨items, s, more, whole, steps, parts, rfl⟩ := Node.places_split split
      rw [steps] at distinct fresh
      have next : ((items ++ [(s, part)]).mapIdx fun i item => item.1.numbered i).Nodup := by
        rw [List.mapIdx_append, List.mapIdx_cons, List.mapIdx_nil, Nat.zero_add]
        refine List.nodup_append.2 ⟨distinct, List.nodup_singleton _, ?_⟩
        rintro t earlier u last rfl
        exact fresh (List.mem_singleton.1 last ▸ earlier)
      rw [List.append_cons] at whole
      obtain ⟨m', gains⟩ := Node.gains_prefix whole next comes.short Value.regrouped
      rw [← List.append_cons] at whole
      rw [List.map_append] at gains
      obtain ⟨m, gains, last⟩ := Node.gains_append.1 gains
      obtain ⟨m'', attaches, -⟩ := Node.gains_cons.1 last
      obtain ⟨slots', s', tree', holds, here, rfl, outcome⟩ :=
        Builder.fill_front comes.short whole gains (sound_items parts comes.sound) tree hole
      obtain ⟨between, inserted, tree'', child⟩ := Builder.insertItem_ok attaches tree' holds here
      obtain ⟨after, failed⟩ := ih tree'' child
      rw [outcome, Builder.fillItems, Build.outcome_bind_ok inserted,
        Build.outcome_bind_error failed, Node.placed_eq whole gains, List.append_assoc]
      exact ⟨_, rfl⟩

/-- The path leads to a node that shows the fault. Each step leads to the part at which building
stops, since it is the first one with that step. -/
theorem leads (first : v.FirstFault path fault) : ∃ w, v.follow? path = some w ∧ fault.IsOf w := by
  induction first with
  | @overlong v elements tuple long => exact ⟨v, rfl, elements, tuple, long⟩
  | @repeats v part before step comes again =>
      obtain ⟨after, split⟩ := comes.split
      have earlier : 0 < (before.map (·.1)).count step := List.count_pos_iff.2 again
      refine ⟨v, rfl, ?_⟩
      rw [Fault.IsOf, split, List.map_append, List.count_append, List.map_cons,
        List.count_cons_self]
      omega
  | @inside v part before step path fault comes fresh first ih =>
      obtain ⟨after, split⟩ := comes.split
      have absent : lookup? step before = none := lookup?_eq_none.2 fresh
      have here : lookup? step v.root.places = some part :=
        lookup?_of_prefix ⟨after, by rw [split, ← List.append_cons]⟩
          (lookup?_append_of_none absent part)
      obtain ⟨w, found, shown⟩ := ih
      refine ⟨w, ?_, shown⟩
      rw [follow?, here]
      exact found

/-- A value with a fault is not acceptable: a hole cannot be filled with it. -/
theorem not_isAcceptable (first : v.FirstFault path fault) : ¬ v.IsAcceptable := by
  intro acceptable
  have hole : (#[{}] : Slots)[Document.root]? = some { path := [] } := rfl
  obtain ⟨slots, filled, -⟩ := acceptable.fillsAs #[{}] Document.root [] Slots.isTree_new hole
  obtain ⟨after, failed⟩ := first.outcome Slots.isTree_new hole
  cases filled.symm.trans failed

/-- No part before the one at which building stops is a part at which building stops. -/
theorem length_le_of_stops {before before' : List (Segment × Value)} {step step' : Segment}
    {part part' : Value}
    (comes : v.ComesTo before step part) (stops : step ∈ before.map (·.1) ∨ ¬ part.IsAcceptable)
    (comes' : v.ComesTo before' step' part') : before'.length ≤ before.length := by
  obtain ⟨after, split⟩ := comes.split
  obtain ⟨after', split'⟩ := comes'.split
  by_contra longer
  have front : before ++ [(step, part)] <+: before' ++ (step', part') :: after' :=
    ⟨after, by rw [← List.append_cons, ← split, split']⟩
  obtain ⟨tail, rfl⟩ := List.prefix_of_prefix_length_le front (List.prefix_append _ _) (by
    rw [List.length_append, List.length_singleton]
    omega)
  have again := stops.resolve_right (not_not.2 (comes'.sound (step, part) (by simp)))
  exact lookup?_eq_none.1 (lookup?_none_of_nodup comes'.distinct) again

theorem place_unique {before before' : List (Segment × Value)} {step step' : Segment}
    {part part' : Value}
    (comes : v.ComesTo before step part) (comes' : v.ComesTo before' step' part')
    (stops : step ∈ before.map (·.1) ∨ ¬ part.IsAcceptable)
    (stops' : step' ∈ before'.map (·.1) ∨ ¬ part'.IsAcceptable) :
    before = before' ∧ step = step' ∧ part = part' := by
  obtain ⟨after, split⟩ := comes.split
  obtain ⟨after', split'⟩ := comes'.split
  have equal :=
    Nat.le_antisymm (length_le_of_stops comes' stops' comes) (length_le_of_stops comes stops comes')
  obtain ⟨front, rest⟩ := List.append_inj (split.symm.trans split') equal
  exact ⟨front, Prod.mk.inj (List.cons.inj rest).1⟩

/-- A value has one first fault. -/
theorem unique {path' : Path} {fault' : Fault} (first : v.FirstFault path fault)
    (other : v.FirstFault path' fault') :
    path' = path ∧ fault' = fault := by
  induction first generalizing path' fault' with
  | overlong tuple long =>
      cases other with
      | overlong => exact ⟨rfl, rfl⟩
      | repeats comes | inside comes => exact absurd long (Nat.not_lt.2 (comes.short _ tuple))
  | repeats comes again =>
      cases other with
      | overlong tuple long => exact absurd long (Nat.not_lt.2 (comes.short _ tuple))
      | repeats comes' again' =>
          obtain ⟨rfl, rfl, rfl⟩ := place_unique comes comes' (.inl again) (.inl again')
          exact ⟨rfl, rfl⟩
      | inside comes' fresh deeper =>
          obtain ⟨rfl, rfl, rfl⟩ :=
            place_unique comes comes' (.inl again) (.inr deeper.not_isAcceptable)
          exact absurd again fresh
  | inside comes fresh first ih =>
      cases other with
      | overlong tuple long => exact absurd long (Nat.not_lt.2 (comes.short _ tuple))
      | repeats comes' again =>
          obtain ⟨rfl, rfl, rfl⟩ :=
            place_unique comes comes' (.inr first.not_isAcceptable) (.inl again)
          exact absurd again fresh
      | inside comes' _ deeper =>
          obtain ⟨rfl, rfl, rfl⟩ := place_unique comes comes' (.inr first.not_isAcceptable)
            (.inr deeper.not_isAcceptable)
          obtain ⟨rfl, rfl⟩ := ih deeper
          exact ⟨rfl, rfl⟩

end Value.FirstFault

namespace Value

theorem parts_places (n : Node Value) : n.places.map (·.2) = n.parts := by
  rw [← n.map_snd_items, Node.places]
  exact List.ext_getElem (by simp) fun i left right => by simp

/-- The parts are all acceptable and at different steps, or there is a first one that is not. -/
theorem scan_places (places : List (Segment × Value)) :
    ((∀ place ∈ places, place.2.IsAcceptable) ∧ (places.map (·.1)).Nodup) ∨
      ∃ before step part after, places = before ++ (step, part) :: after ∧
        (before.map (·.1)).Nodup ∧
        (∀ place ∈ before, place.2.IsAcceptable) ∧
        (step ∈ before.map (·.1) ∨ ¬ part.IsAcceptable) := by
  induction places using List.reverseRecOn with
  | nil => exact .inl ⟨nofun, List.nodup_nil⟩
  | append_singleton places place ih =>
      obtain ⟨step, part⟩ := place
      rcases ih with ⟨sound, distinct⟩ | ⟨before, step', part', after, split, rest⟩
      · by_cases stops : step ∈ places.map (·.1) ∨ ¬ part.IsAcceptable
        · exact .inr ⟨places, step, part, [], rfl, distinct, sound, stops⟩
        · obtain ⟨fresh, acceptable⟩ := not_or.1 stops
          left
          constructor
          · exact List.forall_mem_append.2
              ⟨sound, List.forall_mem_singleton.2 (not_not.1 acceptable)⟩
          · exact nodup_keys_append distinct (lookup?_eq_none.2 fresh) part
      · exact .inr ⟨before, step', part', after ++ [(step, part)],
          by rw [split, List.append_assoc, List.cons_append], rest⟩

/-- A value is acceptable or has a first fault. The induction is on its size. -/
theorem isAcceptable_or_firstFault (v : Value) :
    v.IsAcceptable ∨ ∃ path fault, v.FirstFault path fault := by
  induction size : v.size using Nat.strongRecOn generalizing v with
  | ind size ih =>
      by_cases short : v.IsShort
      · rcases scan_places v.root.places with ⟨sound, distinct⟩ |
          ⟨before, step, part, after, split, distinct, sound, stops⟩
        · left
          refine .intro (Node.isAcceptable_of_steps distinct short) fun part inside => ?_
          rw [← parts_places] at inside
          obtain ⟨place, listed, rfl⟩ := List.mem_map.1 inside
          exact sound place listed
        · right
          have comes : v.ComesTo before step part := ⟨short, ⟨after, split⟩, distinct, sound⟩
          by_cases again : step ∈ before.map (·.1)
          · exact ⟨[], _, .repeats comes again⟩
          · have inside : part ∈ v.root.parts := by
              rw [← parts_places, split, List.map_append, List.map_cons]
              exact List.mem_append_right _ List.mem_cons_self
            have less : part.size < v.size := size_lt_of_mem_parts inside
            rcases ih part.size (size ▸ less) part rfl with acceptable | ⟨path, fault, first⟩
            · exact absurd acceptable (stops.resolve_left again)
            · exact ⟨step :: path, fault, .inside comes again first⟩
      · right
        simp only [IsShort, not_forall, Nat.not_le] at short
        obtain ⟨elements, tuple, long⟩ := short
        exact ⟨[], .overlong, .overlong tuple long⟩

end Value

/-- Building a document from a value fails if and only if the value has a fault. The error is that
of the first fault: for a step that comes again, it holds the way to the node and that step. The
path of the fault leads to the node that shows it, and no other fault is the first one. -/
theorem Document.ofValue_reports_first_fault (v : Value) :
    (∀ e, ofValue v = .error e ↔ ∃ path fault, v.FirstFault path fault ∧ e = fault.error path) ∧
      ∀ path fault, v.FirstFault path fault → (∃ w, v.follow? path = some w ∧ fault.IsOf w) ∧
        ∀ path' fault', v.FirstFault path' fault' → path' = path ∧ fault' = fault := by
  have reports {path : Path} {fault : Fault} (first : v.FirstFault path fault) :
      ofValue v = .error (fault.error path) := by
    have hole : (#[{}] : Slots)[root]? = some { path := [] } := rfl
    obtain ⟨after, failed⟩ := first.outcome Slots.isTree_new hole
    have failed : (Builder.fill root v).run.run Builder.new = (.error (fault.error path), after) :=
      failed
    rw [ofValue, failed]
  refine ⟨fun e => ⟨fun failed => ?_, ?_⟩,
    fun path fault first => ⟨first.leads, fun _ _ => first.unique⟩⟩
  · rcases v.isAcceptable_or_firstFault with acceptable | ⟨path, fault, first⟩
    · obtain ⟨slots, -, built, -⟩ := acceptable.fillsAs.rebuilds
      cases built.symm.trans failed
    · cases (reports first).symm.trans failed
      exact ⟨path, fault, first, rfl⟩
  · rintro ⟨path, fault, first, rfl⟩
    exact reports first

private def repetitive : Value :=
  .of (.map [(.ident "k", .of .hole), (.ident "k", .of .hole)])

private def overfull : Value :=
  .of (.tuple (List.replicate 257 (.of .hole)))

/-- A value below a key. -/
private def underKey (v : Value) : Value :=
  .of (.map [(.ident "a", v)])

private theorem underKey_firstFault {v : Value} {path : Path} {fault : Fault}
    (first : v.FirstFault path fault) :
    (underKey v).FirstFault (.ident "a" :: path) fault := by
  have comes : (underKey v).ComesTo [] (.ident "a") v :=
    ⟨by rintro _ ⟨⟩, ⟨[], rfl⟩, List.nodup_nil, nofun⟩
  exact .inside comes List.not_mem_nil first

/-- The path for the key that comes again leads there. For the tuple, the root is reported, which is
none. -/
theorem Document.ofValue_reports_first_fault_nested :
    ofValue (underKey repetitive) = .error ⟨.alreadyAssigned, [.ident "a", .ident "k"]⟩ ∧
      (underKey overfull).FirstFault [.ident "a"] .overlong ∧
      ofValue (underKey overfull) = .error ⟨.indexOutOfRange, []⟩ ∧
      ¬ Fault.overlong.IsOf (underKey overfull) := by
  have again : repetitive.FirstFault [] (.repeats (.ident "k")) := by
    have hole : (Value.of .hole).IsAcceptable :=
      .intro ⟨List.nodup_nil, List.nodup_nil, by rintro _ ⟨⟩⟩ nofun
    have comes : repetitive.ComesTo [(.ident "k", .of .hole)] (.ident "k") (.of .hole) :=
      ⟨by rintro _ ⟨⟩, ⟨[], rfl⟩, List.nodup_singleton _, List.forall_mem_singleton.2 hole⟩
    exact .repeats comes (List.mem_singleton_self _)
  have long : overfull.FirstFault [] .overlong := by
    refine .overlong rfl ?_
    rw [List.length_replicate]
    decide
  refine ⟨?_, underKey_firstFault long, ?_, by rintro ⟨_, ⟨⟩, _⟩⟩
  · exact ((ofValue_reports_first_fault _).1 _).2 ⟨_, _, underKey_firstFault again, rfl⟩
  · exact ((ofValue_reports_first_fault _).1 _).2 ⟨_, _, underKey_firstFault long, rfl⟩

end DocSchema
