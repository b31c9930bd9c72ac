import Mathlib.Data.List.Nodup
import Mathlib.Data.List.Perm.Subperm
import DocSchema.Validation

set_option autoImplicit false

namespace DocSchema

/-- Whether the pattern of a type, if it has one, is a regular expression. -/
def Shape.Compiles (shape : Shape SchemaId) : Prop :=
  ∀ length p language, shape = .text length (some p) language →
    ∃ compiled, Pattern.compile? p = some compiled

namespace Schema

variable {schema : Schema} {id : SchemaId} {ids : List SchemaId} {o : Resolution}
  {node : SchemaNode}

/-- Where a type leads: to the target of a reference, or to an end of the chain. -/
def hop (schema : Schema) (id : SchemaId) : Resolution ⊕ SchemaId :=
  match schema.node? id with
  | none => .inl .missing
  | some ⟨.reference name, _⟩ =>
    match schema.find? name with
    | none => .inl (.dangling name)
    | some target => if schema.contains target then .inr target else .inl (.missingTarget name)
  | some node => .inl (.found id node)

/-- A chain of references that ends, with the ids on the way. -/
inductive Chain (schema : Schema) : SchemaId → List SchemaId → Resolution → Prop
  | last {id : SchemaId} {o : Resolution} (ends : schema.hop id = .inl o) : Chain schema id [id] o
  | step {id target : SchemaId} {ids : List SchemaId} {o : Resolution}
      (leads : schema.hop id = .inr target) (rest : Chain schema target ids o) :
      Chain schema id (id :: ids) o

/-- Whether a chain of references from `id` ends at the type `node`. -/
def Resolves (schema : Schema) (id : SchemaId) (node : SchemaNode) : Prop :=
  ∃ ids target, schema.Chain id ids (.found target node)

theorem mem_of_node? (found : schema.node? id = some node) : node ∈ schema.nodes.toList := by
  rw [Array.mem_toList_iff]
  exact Array.mem_of_getElem? found

theorem contains_iff : schema.contains id = true ↔ ∃ node, schema.node? id = some node := by
  rw [contains, decide_eq_true_iff]
  simp [size, node?, Array.getElem?_eq_some_iff]

theorem hop_eq_inr {target : SchemaId} : schema.hop id = .inr target ↔
    ∃ name metadata, schema.node? id = some ⟨.reference name, metadata⟩ ∧
      schema.find? name = some target ∧ schema.contains target = true := by
  constructor
  · intro leads
    unfold hop at leads
    split at leads
    case h_1 => cases leads
    case h_2 name metadata found =>
      split at leads
      case h_1 => cases leads
      case h_2 registered =>
        split at leads
        case isTrue inside =>
          have same := Sum.inr.inj leads
          subst same
          exact ⟨name, metadata, found, registered, inside⟩
        case isFalse => cases leads
    case h_3 => cases leads
  · rintro ⟨name, metadata, found, registered, inside⟩
    simp only [hop, found, registered, inside, ↓reduceIte]

theorem contains_of_hop {target : SchemaId} (leads : schema.hop id = .inr target) :
    schema.contains id = true ∧ schema.contains target = true := by
  obtain ⟨name, metadata, found, registered, inside⟩ := hop_eq_inr.1 leads
  exact ⟨contains_iff.2 ⟨_, found⟩, inside⟩

theorem hop_eq_found {target : SchemaId} (ends : schema.hop id = .inl (.found target node)) :
    schema.node? id = some node ∧ target = id ∧ ∀ name, node.shape ≠ .reference name := by
  unfold hop at ends
  split at ends
  case h_1 => cases ends
  case h_2 name metadata found =>
    split at ends
    case h_1 => cases ends
    case h_2 => split at ends <;> cases ends
  case h_3 solid other found =>
    cases ends
    refine ⟨found, rfl, fun name same => ?_⟩
    obtain ⟨shape, metadata⟩ := node
    exact other name metadata (by rw [← same])

theorem not_cyclic_of_hop (ends : schema.hop id = .inl o) (name : Bytes) : o ≠ .cyclic name := by
  unfold hop at ends
  repeat' split at ends
  all_goals
    cases ends
    try exact Resolution.noConfusion

/-- The search takes the same steps, but looks whether it has met a reference before. -/
theorem follow_succ (fuel : Nat) (visited : List SchemaId) (fresh : id ∉ visited) :
    schema.follow (fuel + 1) visited id =
      match schema.hop id with
      | .inl o => o
      | .inr target => schema.follow fuel (id :: visited) target := by
  rw [follow, hop]
  cases schema.node? id with
  | none => rfl
  | some node =>
      obtain ⟨shape, metadata⟩ := node
      cases shape
      case reference name =>
        simp only [fresh, ↓reduceIte]
        cases schema.find? name with
        | none => rfl
        | some target =>
            dsimp only
            split <;> rfl
      all_goals rfl

namespace Chain

theorem functional {ids' : List SchemaId} {o' : Resolution} (chain : schema.Chain id ids o)
    (other : schema.Chain id ids' o') : ids' = ids ∧ o' = o := by
  induction chain generalizing ids' with
  | last ends =>
      cases other with
      | last ends' => exact ⟨rfl, Sum.inl.inj (ends'.symm.trans ends)⟩
      | step leads' rest' => cases ends.symm.trans leads'
  | step leads rest ih =>
      cases other with
      | last ends' => cases leads.symm.trans ends'
      | step leads' rest' =>
          have same := Sum.inr.inj (leads'.symm.trans leads)
          subst same
          obtain ⟨same, last⟩ := ih rest'
          exact ⟨by rw [same], last⟩

/-- From each id of a chain a part of the chain leads to the same end. -/
theorem of_mem (chain : schema.Chain id ids o) {x : SchemaId} (member : x ∈ ids) :
    ∃ rest, schema.Chain x rest o ∧ rest.length ≤ ids.length := by
  induction chain with
  | last ends =>
      have same := List.mem_singleton.1 member
      subst same
      exact ⟨_, .last ends, Nat.le_refl _⟩
  | step leads rest ih =>
      rcases List.mem_cons.1 member with rfl | later
      · exact ⟨_, .step leads rest, Nat.le_refl _⟩
      · obtain ⟨part, reaches, shorter⟩ := ih later
        exact ⟨part, reaches, Nat.le_succ_of_le shorter⟩

theorem nodup (chain : schema.Chain id ids o) : ids.Nodup := by
  induction chain with
  | last ends => exact List.nodup_singleton _
  | step leads rest ih =>
      refine List.nodup_cons.2 ⟨?_, ih⟩
      intro again
      obtain ⟨part, reaches, shorter⟩ := rest.of_mem again
      have same := (reaches.functional (.step leads rest)).1
      rw [← same, List.length_cons] at shorter
      omega

theorem contains_of_mem (chain : schema.Chain id ids o) (inside : schema.contains id = true) :
    ∀ x ∈ ids, schema.contains x = true := by
  induction chain with
  | last ends => simpa using inside
  | step leads rest ih =>
      obtain ⟨first, next⟩ := contains_of_hop leads
      exact List.forall_mem_cons.2 ⟨first, ih next⟩

theorem length_le (chain : schema.Chain id ids o) : ids.length ≤ schema.size + 1 := by
  by_cases inside : schema.contains id = true
  · have subset : ids ⊆ List.range schema.size := by
      intro x member
      have contained := chain.contains_of_mem inside x member
      exact List.mem_range.2 (by simpa [Schema.contains] using contained)
    have shorter := (List.subperm_of_subset chain.nodup subset).length_le
    rw [List.length_range] at shorter
    omega
  · cases chain with
    | last ends => simp
    | step leads rest => exact absurd (contains_of_hop leads).1 inside

theorem follow (chain : schema.Chain id ids o) (fuel : Nat) (visited : List SchemaId)
    (fresh : ∀ x ∈ ids, x ∉ visited) (enough : ids.length ≤ fuel) :
    schema.follow fuel visited id = o := by
  induction chain generalizing fuel visited with
  | last ends =>
      obtain ⟨fuel, rfl⟩ := Nat.exists_eq_add_one_of_ne_zero (Nat.ne_of_gt enough)
      rw [follow_succ fuel visited (fresh _ List.mem_cons_self), ends]
  | @step id target ids o leads rest ih =>
      obtain ⟨fuel, rfl⟩ := Nat.exists_eq_add_one_of_ne_zero
        (Nat.ne_of_gt (Nat.lt_of_lt_of_le (Nat.succ_pos _) enough))
      rw [follow_succ fuel visited (fresh id List.mem_cons_self), leads]
      refine ih fuel (id :: visited) ?_ (Nat.le_of_succ_le_succ enough)
      intro x member
      have once := (List.nodup_cons.1 (Chain.step leads rest).nodup).1
      rw [List.mem_cons, not_or]
      refine ⟨?_, fresh x (List.mem_cons_of_mem id member)⟩
      intro same
      subst same
      exact once member

/-- The search for the end of a chain of references is complete. -/
theorem resolve (chain : schema.Chain id ids o) : schema.resolve id = o :=
  chain.follow (schema.size + 1) [] (by simp) chain.length_le

theorem not_cyclic (chain : schema.Chain id ids o) (name : Bytes) : o ≠ .cyclic name := by
  induction chain with
  | last ends => exact not_cyclic_of_hop ends name
  | step leads rest ih => exact ih

end Chain

theorem resolve_outside (outside : schema.contains id = false) : schema.resolve id = .missing := by
  have absent : schema.node? id = none := by
    refine Option.eq_none_iff_forall_ne_some.2 fun node found => ?_
    rw [contains_iff.2 ⟨node, found⟩] at outside
    cases outside
  refine (Chain.last ?_ : schema.Chain id [id] .missing).resolve
  rw [hop, absent]

/-- The search never runs out of fuel: the references that it has met are different and in the
table. -/
theorem follow_sound (fuel : Nat) (visited : List SchemaId) (distinct : visited.Nodup)
    (references : ∀ x ∈ visited, ∃ target, schema.hop x = .inr target)
    (enough : schema.size < fuel + visited.length) :
    (∃ name, schema.follow fuel visited id = .cyclic name) ∨
      ∃ ids, schema.Chain id ids (schema.follow fuel visited id) := by
  induction fuel generalizing visited id with
  | zero =>
      have inside : visited ⊆ List.range schema.size := by
        intro x member
        obtain ⟨target, leads⟩ := references x member
        exact List.mem_range.2 (by simpa [contains] using (contains_of_hop leads).1)
      have shorter := (List.subperm_of_subset distinct inside).length_le
      rw [List.length_range] at shorter
      omega
  | succ fuel ih =>
      by_cases fresh : id ∈ visited
      · obtain ⟨target, leads⟩ := references id fresh
        obtain ⟨name, metadata, found, -⟩ := hop_eq_inr.1 leads
        refine .inl ⟨name, ?_⟩
        simp only [follow, found, fresh, ↓reduceIte]
      · rw [follow_succ fuel visited fresh]
        cases leads : schema.hop id with
        | inl o => exact .inr ⟨[id], .last leads⟩
        | inr target =>
            have further : ∀ x ∈ id :: visited, ∃ target, schema.hop x = .inr target :=
              List.forall_mem_cons.2 ⟨⟨target, leads⟩, references⟩
            have longer : schema.size < fuel + (id :: visited).length := by
              rw [List.length_cons]
              omega
            rcases @ih target (id :: visited) (List.nodup_cons.2 ⟨fresh, distinct⟩) further longer with
              cyclic | ⟨ids, chain⟩
            · exact .inl cyclic
            · exact .inr ⟨id :: ids, .step leads chain⟩

/-- A search ends where the chain of references ends, or meets a reference again and the chain does
not end. -/
theorem resolve_cases (schema : Schema) (id : SchemaId) :
    (∃ ids, schema.Chain id ids (schema.resolve id)) ∨
      (∃ name, schema.resolve id = .cyclic name) ∧ ∀ ids o, ¬ schema.Chain id ids o := by
  have enough : schema.size < schema.size + 1 + ([] : List SchemaId).length := by simp
  rcases follow_sound (schema.size + 1) [] List.nodup_nil (by simp) enough with
    ⟨name, cyclic⟩ | chain
  · refine .inr ⟨⟨name, cyclic⟩, fun ids o chain => ?_⟩
    exact chain.not_cyclic name (chain.resolve.symm.trans cyclic)
  · exact .inl chain

/-- The search for the end of a chain of references is complete. -/
theorem Resolves.target (resolved : schema.Resolves id node) (path : Path) :
    ∃ target, schema.target id path = .ok (.node target node) := by
  obtain ⟨ids, target, chain⟩ := resolved
  exact ⟨target, by rw [Schema.target, chain.resolve]⟩

theorem Resolves.functional {other : SchemaNode} (resolved : schema.Resolves id node)
    (again : schema.Resolves id other) : other = node := by
  obtain ⟨ids, target, chain⟩ := resolved
  obtain ⟨ids', target', chain'⟩ := again
  exact (Resolution.found.inj (chain.functional chain').2).2

theorem Resolves.exists_iff {p : SchemaNode → Prop} (resolved : schema.Resolves id node) :
    (∃ other, schema.Resolves id other ∧ p other) ↔ p node := by
  constructor
  · rintro ⟨other, again, holds⟩
    exact resolved.functional again ▸ holds
  · intro holds
    exact ⟨node, resolved, holds⟩

/-- A chain ends at a type of the table that is no reference. -/
theorem Chain.found {target : SchemaId} (chain : schema.Chain id ids (.found target node)) :
    schema.node? target = some node ∧ ∀ name, node.shape ≠ .reference name := by
  generalize same : Resolution.found target node = o at chain
  induction chain with
  | last ends =>
      subst same
      obtain ⟨found, rfl, solid⟩ := hop_eq_found ends
      exact ⟨found, solid⟩
  | step leads rest ih => exact ih same

theorem Resolves.exists_node (resolved : schema.Resolves id node) :
    ∃ target, schema.node? target = some node := by
  obtain ⟨ids, target, chain⟩ := resolved
  exact ⟨target, chain.found.1⟩

theorem Resolves.solid (resolved : schema.Resolves id node) (name : Bytes) :
    node.shape ≠ .reference name := by
  obtain ⟨ids, target, chain⟩ := resolved
  exact chain.found.2 name

/-- Whether a schema is usable as a whole: all ids are in range, all chains of references end, and
all patterns are regular expressions. -/
structure IsSound (schema : Schema) : Prop where
  rooted : schema.contains schema.root = true
  closed : ∀ id node, schema.node? id = some node → ∀ child ∈ node.shape.children,
    schema.contains child = true
  resolves : ∀ id, schema.contains id = true → ∃ node, schema.Resolves id node
  compiles : ∀ id node, schema.node? id = some node → node.shape.Compiles

theorem IsSound.children (sound : schema.IsSound) (resolved : schema.Resolves id node) :
    ∀ child ∈ node.shape.children, schema.contains child = true := by
  obtain ⟨target, found⟩ := resolved.exists_node
  exact sound.closed target node found

theorem IsSound.pattern (sound : schema.IsSound) (resolved : schema.Resolves id node) :
    node.shape.Compiles := by
  obtain ⟨target, found⟩ := resolved.exists_node
  exact sound.compiles target node found

end Schema

end DocSchema
