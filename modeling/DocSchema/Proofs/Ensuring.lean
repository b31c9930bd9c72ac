import DocSchema.Proofs.Trees

set_option autoImplicit false

namespace DocSchema

section Nodes

variable {α : Type} {n n' : Node α} {part a : α} {step t : Segment}

theorem lookup?_append_cases {κ : Type} [DecidableEq κ] {k key : κ} {items : List (κ × α)}
    (found : lookup? k (items ++ [(key, part)]) = some a) :
    lookup? k items = some a ∨ k = key ∧ a = part := by
  rw [lookup?, List.find?_append, Option.map_eq_some_iff] at found
  obtain ⟨item, first, rfl⟩ := found
  obtain old | ⟨-, last⟩ := Option.or_eq_some_iff.1 first
  · exact .inl (Option.map_eq_some_iff.2 ⟨item, old, rfl⟩)
  · obtain rfl := List.mem_singleton.1 (List.mem_of_find?_eq_some last)
    have same : (key == k) = true := List.find?_some (p := fun item : κ × α => item.1 == k) last
    exact .inr ⟨(eq_of_beq same).symm, rfl⟩

theorem getElem?_append_cases {items : List α} {i : Nat} (found : (items ++ [part])[i]? = some a) :
    items[i]? = some a ∨ i = items.length ∧ a = part := by
  by_cases inside : i < items.length
  · rw [List.getElem?_append_left inside] at found
    exact .inl found
  · rw [List.getElem?_append_right (Nat.le_of_not_lt inside), List.getElem?_singleton] at found
    split at found
    · exact .inr ⟨by omega, (Option.some.inj found).symm⟩
    · cases found

namespace Content

variable {c : Content α}

theorem eq_map {entries : List (Key × α)} (given : c.entries? = some entries) :
    c = .map entries := by
  cases c <;> simp_all [entries?]

theorem eq_array {elements : List α} (given : c.array? = some elements) : c = .array elements := by
  cases c <;> simp_all [array?]

theorem eq_tuple {elements : List α} (given : c.tuple? = some elements) : c = .tuple elements := by
  cases c <;> simp_all [tuple?]

theorem mem_of_find? {k : Key} (found : c.find? k = some a) : a ∈ c.parts := by
  obtain ⟨entries, map, inside⟩ := Option.bind_eq_some_iff.1 found
  rw [eq_map map]
  exact List.mem_map_of_mem (f := (·.2)) (mem_of_lookup? inside)

end Content

namespace Node

/-- A node that takes on a content has no new steps. -/
theorem Settles.step?_old (settles : n.Settles n') (found : n'.step? t = some a) :
    n.step? t = some a := by
  have empty (inside : a ∈ n'.content.parts) : n.step? t = some a := by
    rw [settles.parts] at inside
    cases inside
  cases t with
  | ext name =>
      rw [step?, extension?] at found ⊢
      rwa [settles.extensions] at found
  | ident name => exact empty (Content.mem_of_find? found)
  | key l => exact empty (Content.mem_of_find? found)
  | tuple i =>
      obtain ⟨elements, tuple, inside⟩ := Option.bind_eq_some_iff.1 found
      apply empty
      rw [Content.eq_tuple tuple]
      exact List.mem_of_getElem? inside
  | array i =>
      obtain ⟨elements, array, inside⟩ := Option.bind_eq_some_iff.1 found
      obtain ⟨i, -, inside⟩ := Option.bind_eq_some_iff.1 inside
      apply empty
      rw [Content.eq_array array]
      exact List.mem_of_getElem? inside

/-- A node that gains a part has one new step. -/
theorem Attaches.step?_cases (attaches : n.Attaches part step n') (found : n'.step? t = some a) :
    n.step? t = some a ∨ t = step.placed n ∧ a = part := by
  cases attaches with
  | @entry key entries content plain fresh =>
      have entry {k : Key} (plain : k.ext? = none)
          (found : Node.step? { n with content := .map (entries ++ [(key, part)]) } k.segment =
            some a) :
          n.step? k.segment = some a ∨ k.segment = key.segment.placed n ∧ a = part := by
        rw [step?_segment _ plain] at found ⊢
        rw [Segment.placed_segment, content]
        exact (lookup?_append_cases found).imp_right (And.imp_left (congrArg _))
      cases t with
      | ident name => exact entry (k := .ident name) rfl found
      | key l => exact entry (k := .literal l) rfl found
      | ext name => exact .inl found
      | _ => cases found
  | @element index elements content last =>
      cases t with
      | array i =>
          obtain ⟨i, rfl, inside⟩ := Option.bind_eq_some_iff.1 found
          rw [step?, Segment.placed, content]
          obtain old | ⟨rfl, rfl⟩ := getElem?_append_cases inside
          · exact .inl old
          · exact .inr ⟨rfl, rfl⟩
      | ext name => exact .inl found
      | _ => cases found
  | @position index elements content last =>
      cases t with
      | tuple i =>
          rw [step?, content]
          obtain old | ⟨behind, rfl⟩ := getElem?_append_cases found
          · exact .inl old
          · have same : i = index := UInt8.toNat_inj.1 (behind.trans last.symm)
            exact .inr ⟨congrArg _ same, rfl⟩
      | ext name => exact .inl found
      | _ => cases found
  | @extension name fresh =>
      cases t with
      | ext other => exact (lookup?_append_cases found).imp_right (And.imp_left (congrArg _))
      | _ => exact .inl found

/-- A part is reached by the step under which it was added, unless that only asked for the end of an
array. -/
theorem Attaches.placed_eq (attaches : n.Attaches part step n') (definite : step ≠ .array none) :
    step.placed n = step := by
  cases attaches with
  | entry content plain fresh => exact Segment.placed_segment n _
  | @element index elements content last =>
      cases index with
      | none => exact absurd rfl definite
      | some i => rw [Segment.placed, content, last i rfl]; rfl
  | position content last => rfl
  | extension fresh => rfl

end Node

end Nodes

namespace Slots

variable {slots slots' : Slots} {id : NodeId} {s : Slot} {path : Path}

/-- Whether every part was given the path of the node that holds it and the step to it. -/
def IsTraced (slots : Slots) : Prop :=
  ∀ (id : NodeId) (s : Slot) (step : Segment) (child : NodeId), slots[id]? = some s →
    s.node.step? step = some child → ∃ t : Slot, slots[child]? = some t ∧ t.path = s.path ++ [step]

theorem Change.isTraced (change : slots.Change slots') (traced : slots.IsTraced) :
    slots'.IsTraced := by
  have old {i child : NodeId} {t : Slot} {step : Segment} (here : slots[i]? = some t)
      (leads : t.node.step? step = some child) :
      ∃ u : Slot, slots'[child]? = some u ∧ u.path = t.path ++ [step] := by
    obtain ⟨u, found, path⟩ := traced i t step child here leads
    obtain ⟨u', found', path', -⟩ := change.grows child u found
    exact ⟨u', found', path'.trans path⟩
  intro i t step child here leads
  cases change with
  | @settle id s n found settles =>
      obtain ⟨rfl, rfl⟩ | here := setNode_cases found here
      · exact old (t := s) found (settles.step?_old leads)
      · exact old here leads
  | @attach id s added n found attaches =>
      obtain ⟨rfl, rfl⟩ | ⟨rfl, rfl⟩ | here := grow_cases found here
      · obtain leads | ⟨rfl, rfl⟩ := attaches.step?_cases leads
        · exact old (t := s) found leads
        · exact ⟨_, grow_last (lt_size found), rfl⟩
      · cases step <;> cases leads
      · exact old here leads

theorem Changes.isTraced (changes : slots.Changes slots') (traced : slots.IsTraced) :
    slots'.IsTraced := by
  induction changes with
  | refl => exact traced
  | tail _ change ih => exact change.isTraced ih

theorem isTraced_new : IsTraced #[{}] := by
  intro id s step child here leads
  cases id with
  | zero =>
      obtain rfl : {} = s := Option.some.inj here
      cases step <;> cases leads
  | succ id => cases here

/-- The path of a node that is reached goes on where the path of the start ends, by induction on the
steps. -/
theorem IsTraced.path_eq (traced : slots.IsTraced) {n : NodeId} (found : slots[id]? = some s)
    (reaches : slots.document.resolve path id = .ok n) :
    ∃ t : Slot, slots[n]? = some t ∧ t.path = s.path ++ path := by
  induction path using List.reverseRecOn generalizing n with
  | nil =>
      obtain rfl : id = n := Except.ok.inj reaches
      exact ⟨s, found, (List.append_nil s.path).symm⟩
  | append_singleton path step ih =>
      obtain ⟨k, before, leads⟩ := Document.resolve_concat.1 reaches
      obtain ⟨u, here, path'⟩ := ih before
      obtain ⟨u', here', leads⟩ := step?_document.1 leads
      obtain rfl : u = u' := Option.some.inj (here.symm.trans here')
      obtain ⟨t, found, path''⟩ := traced k u step n here leads
      exact ⟨t, found, by rw [path'', path', List.append_assoc]⟩

end Slots

namespace Builder

variable {slots slots' : Slots} {start k n : NodeId} {path : Path} {step : Segment} {b : Builder}

theorem ensureStep_outcome {s : Slot} (found : slots[k]? = some s) :
    (ensureStep k step).outcome (.building slots) =
      match s.node.step? step with
      | some next => (.ok next, .building slots)
      | none => (insertSegment k step).outcome (.building slots) := by
  have here : (node k).outcome (.building slots) = (.ok s.node, .building slots) := by
    rw [node, Build.outcome_bind_ok (slot_found found)]
    rfl
  rw [ensureStep, Build.outcome_bind_ok here]
  cases s.node.step? step <;> rfl

/-- A step to a part that is there changes nothing. -/
theorem ensureStep_found (leads : (slots.document.node k).step? step = some n) :
    (ensureStep k step).outcome (.building slots) = (.ok n, .building slots) := by
  obtain ⟨s, found, leads⟩ := Slots.step?_document.1 leads
  rw [ensureStep_outcome found, leads]

/-- A step that succeeds leads to the part, in the table that it leaves. -/
theorem ensureStep_leads (definite : step ≠ .array none)
    (outcome : (ensureStep k step).outcome (.building slots) = (.ok n, .building slots')) :
    (slots'.document.node k).step? step = some n := by
  cases found : slots[k]? with
  | none =>
      have missing : (node k).outcome (.building slots) =
          (.error ⟨.pathNotFound, []⟩, .building slots) := by
        rw [node, Build.outcome_bind_error (slot_missing found)]
      rw [ensureStep, Build.outcome_bind_error missing] at outcome
      cases outcome
  | some s =>
      rw [ensureStep_outcome found] at outcome
      cases leads : s.node.step? step with
      | some next =>
          rw [leads] at outcome
          cases outcome
          exact Slots.step?_document.2 ⟨s, found, leads⟩
      | none =>
          rw [leads] at outcome
          obtain ⟨t, m, here, attaches, rfl, after⟩ := insertSegment_attaches outcome
          cases after
          have last := attaches.step?_placed
          rw [attaches.placed_eq definite] at last
          exact Slots.step?_document.2 ⟨_, Slots.grow_here (Slots.setNode_here here), last⟩

theorem ensureSteps_concat :
    (path ++ [step]).foldlM ensureStep start = path.foldlM ensureStep start >>= fun k =>
      ensureStep k step := by
  simp only [List.foldlM_append, List.foldlM_cons, List.foldlM_nil, bind_pure]

/-- A path whose parts are all there is followed without a change, by induction on its steps. -/
theorem ensureSteps_found (reaches : slots.document.resolve path start = .ok n) :
    (path.foldlM ensureStep start).outcome (.building slots) = (.ok n, .building slots) := by
  induction path using List.reverseRecOn generalizing n with
  | nil =>
      obtain rfl : start = n := Except.ok.inj reaches
      rfl
  | append_singleton path step ih =>
      obtain ⟨k, before, leads⟩ := Document.resolve_concat.1 reaches
      rw [ensureSteps_concat, Build.outcome_bind_ok (ih before)]
      exact ensureStep_found leads

/-- A path that is made leads to its end, in the table that it leaves: what a step has made, later
steps keep. -/
theorem ensureSteps_leads (definite : .array none ∉ path)
    (outcome : (path.foldlM ensureStep start).outcome (.building slots) =
      (.ok n, .building slots')) :
    slots'.document.resolve path start = .ok n := by
  induction path using List.reverseRecOn generalizing n slots' with
  | nil =>
      cases outcome
      rfl
  | append_singleton path step ih =>
      obtain ⟨earlier, last⟩ : .array none ∉ path ∧ step ≠ .array none := by
        simpa [eq_comm] using definite
      obtain ⟨r, between, before, -⟩ := Build.Advances.foldlM ensureStep_advances path start slots
      rw [ensureSteps_concat] at outcome
      cases r with
      | error e =>
          rw [Build.outcome_bind_error before] at outcome
          cases outcome
      | ok k =>
          rw [Build.outcome_bind_ok before] at outcome
          obtain ⟨_, _, again, changes⟩ := ensureStep_advances k step between
          cases again.symm.trans outcome
          exact Document.resolve_concat.2
            ⟨k, changes.grows.resolves (ih earlier before), ensureStep_leads last outcome⟩

theorem ensure_outcome {s : Slot} (found : slots[start]? = some s) :
    (ensure path start).outcome (.building slots) =
      (path.foldlM ensureStep start).outcome (.building slots) := by
  rw [ensure, Build.outcome_bind_ok (slot_found found)]

/-- Making a path and following it agree, for paths that do not ask for the end of an array. Where a
path is made, it leads to the same node when it is followed in the table that is left, making it
again changes nothing, and the node has the path of the start with the steps behind it. A path that
can be followed is made without a change. -/
theorem ensure_agrees {edits : List Edit} {s : Slot} (ran : new.run edits = .building slots)
    (found : slots[start]? = some s) (definite : .array none ∉ path) :
    (∀ n after, (ensure path start).outcome (.building slots) = (.ok n, after) →
      ∃ slots' : Slots, after = .building slots' ∧ slots'.document.resolve path start = .ok n ∧
        (ensure path start).outcome after = (.ok n, after) ∧
        slots'[n]?.map (·.path) = some (s.path ++ path)) ∧
      ∀ n, slots.document.resolve path start = .ok n →
        (ensure path start).outcome (.building slots) = (.ok n, .building slots) := by
  have again {slots : Slots} {s : Slot} {n : NodeId} (found : slots[start]? = some s)
      (reaches : slots.document.resolve path start = .ok n) :
      (ensure path start).outcome (.building slots) = (.ok n, .building slots) := by
    rw [ensure_outcome found, ensureSteps_found reaches]
  refine ⟨fun n after outcome => ?_, fun n => again found⟩
  obtain ⟨slots₀, ran₀, built⟩ := run_changes edits #[{}]
  cases ran₀.symm.trans ran
  obtain ⟨r, slots', made, changes⟩ := ensure_advances path start slots
  cases made.symm.trans outcome
  rw [ensure_outcome found] at outcome
  have reaches := ensureSteps_leads definite outcome
  obtain ⟨s', found', path', -⟩ := changes.grows start s found
  have traced := Slots.Changes.isTraced (built.trans changes) Slots.isTraced_new
  obtain ⟨t, here, traced⟩ := traced.path_eq found' reaches
  refine ⟨slots', rfl, reaches, again found' reaches, ?_⟩
  rw [here, Option.map_some, traced, path']

/-- An entry that is there, then an element, an extension and an item that are not. -/
private def longPath : Path :=
  [.key (.int 5), .tuple 0, .ext "x", .array (some 0)]

private def begun : Slots :=
  #[⟨⟨.map [(.ident "a", 1)], []⟩, []⟩, ⟨⟨.map [(.literal (.int 5), 2)], []⟩, [.ident "a"]⟩,
    ⟨{}, [.ident "a", .key (.int 5)]⟩]

private def continued : Slots :=
  #[⟨⟨.map [(.ident "a", 1)], []⟩, []⟩, ⟨⟨.map [(.literal (.int 5), 2)], []⟩, [.ident "a"]⟩,
    ⟨⟨.tuple [3], []⟩, [.ident "a", .key (.int 5)]⟩,
    ⟨⟨.hole, [("x", 4)]⟩, [.ident "a", .key (.int 5), .tuple 0]⟩,
    ⟨⟨.array [5], []⟩, [.ident "a", .key (.int 5), .tuple 0, .ext "x"]⟩,
    ⟨{}, [.ident "a", .key (.int 5), .tuple 0, .ext "x", .array (some 0)]⟩]

/-- A path from a node below the root, of which the first step alone leads somewhere. -/
theorem ensure_agrees_below :
    new.run [.insert 0 (.ident "a"), .insert 1 (.literal (.int 5))] = .building begun ∧
    .array none ∉ longPath ∧
      (ensure longPath 1).outcome (.building begun) = (.ok 5, .building continued) ∧
      continued.document.resolve longPath 1 = .ok 5 ∧
      (ensure longPath 1).outcome (.building continued) = (.ok 5, .building continued) ∧
      continued[5]?.map (·.path) = some (.ident "a" :: longPath) ∧
      (ensure [.key (.int 5)] 1).outcome (.building begun) = (.ok 2, .building begun) := by
  have ran : new.run [.insert 0 (.ident "a"), .insert 1 (.literal (.int 5))] = .building begun :=
    rfl
  have found : begun[1]? = some ⟨⟨.map [(.literal (.int 5), 2)], []⟩, [.ident "a"]⟩ := rfl
  have known : begun.document.resolve ([] ++ [.key (.int 5)]) 1 = .ok 2 :=
    Document.resolve_concat.2 ⟨1, rfl, Slots.step?_document.2 ⟨_, found, rfl⟩⟩
  have definite : .array none ∉ longPath := by decide
  have outcome : (ensure longPath 1).outcome (.building begun) = (.ok 5, .building continued) := rfl
  obtain ⟨_, same, reaches, again, path⟩ := (ensure_agrees ran found definite).1 5 _ outcome
  cases same
  exact ⟨ran, definite, outcome, reaches, again, path,
    (ensure_agrees ran found (by decide)).2 2 known⟩

end Builder

end DocSchema
