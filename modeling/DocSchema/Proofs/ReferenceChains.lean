import DocSchema.Proofs.Failures

set_option autoImplicit false

namespace DocSchema

open Relation (ReflTransGen TransGen)

/-- Where the chain of references from a type leads. -/
inductive Fate where
  /-- To an id outside the table. -/
  | outside
  /-- From reference to reference without end. -/
  | endless
  /-- To a reference by a name that is not registered. -/
  | undefined (name : Bytes)
  /-- To a type that is no reference. -/
  | type (target : SchemaId) (node : SchemaNode)

/-- How the target of a type, for a value at `path`, tells where its chain of references leads. -/
def Fate.Told (schema : Schema) (id : SchemaId) (path : Path) : Fate → Prop
  | .outside =>
      ∃ e, schema.target id path = .error e ∧ e.path = path ∧ e.flaw.kind = utf8 "InvalidSchemaNode"
  | .endless =>
      ∃ e, schema.target id path = .error e ∧ e.path = path ∧ e.flaw.kind = utf8 "ReferenceCycle"
  | .undefined name => schema.target id path = .ok (.undefined name)
  | .type target node => schema.target id path = .ok (.node target node)

/-- Whether a chain of references that has come to `last` ends there, in this way. -/
def Fate.EndsAt (schema : Schema) (last : SchemaId) : Fate → Prop
  | .outside => schema.contains last = false
  | .endless => False
  | .undefined name =>
      ∃ metadata, schema.node? last = some ⟨.reference name, metadata⟩ ∧ schema.find? name = none
  | .type target node =>
      target = last ∧ schema.node? last = some node ∧ ∀ name, node.shape ≠ .reference name

namespace Schema

def Resolution.fate : Resolution → Fate
  | .found target node => .type target node
  | .dangling name => .undefined name
  | .cyclic _ => .endless
  | .missing => .outside
  | .missingTarget _ => .outside

/-- Whether a type is a reference whose name is registered for `target`, which may lie outside the
table. -/
def Names (schema : Schema) (id target : SchemaId) : Prop :=
  ∃ name metadata, schema.node? id = some ⟨.reference name, metadata⟩ ∧
    schema.find? name = some target

/-- Whether the chain of references from a type leads there. -/
def HasFate (schema : Schema) (id : SchemaId) : Fate → Prop
  | .endless => ∀ x, ReflTransGen schema.Names id x → ∃ next, schema.Names x next
  | fate => ∃ last, ReflTransGen schema.Names id last ∧ fate.EndsAt schema last

/-- The search for the end of a chain, for as long as it takes: at `id`, having met the references
in `chain`, it follows `steps` references before it comes to its result. -/
inductive Search (schema : Schema) :
    (chain : List SchemaId) → SchemaId → (steps : Nat) → Resolution → Prop
  | missing {chain : List SchemaId} {id : SchemaId} (absent : schema.node? id = none) :
      Search schema chain id 0 .missing
  | found {chain : List SchemaId} {id : SchemaId} {node : SchemaNode}
      (found : schema.node? id = some node)
      (solid : ∀ name, node.shape ≠ .reference name) : Search schema chain id 0 (.found id node)
  | cyclic {chain : List SchemaId} {id : SchemaId} {name : Bytes} {metadata : Metadata}
      (found : schema.node? id = some ⟨.reference name, metadata⟩) (met : id ∈ chain) :
      Search schema chain id 0 (.cyclic name)
  | dangling {chain : List SchemaId} {id : SchemaId} {name : Bytes} {metadata : Metadata}
      (found : schema.node? id = some ⟨.reference name, metadata⟩) (fresh : id ∉ chain)
      (unregistered : schema.find? name = none) : Search schema chain id 0 (.dangling name)
  | missingTarget {chain : List SchemaId} {id target : SchemaId} {name : Bytes}
      {metadata : Metadata}
      (found : schema.node? id = some ⟨.reference name, metadata⟩) (fresh : id ∉ chain)
      (registered : schema.find? name = some target) (outside : schema.contains target = false) :
      Search schema chain id 0 (.missingTarget name)
  | step {chain : List SchemaId} {id target : SchemaId} {name : Bytes} {metadata : Metadata}
      {steps : Nat}
      {o : Resolution} (found : schema.node? id = some ⟨.reference name, metadata⟩)
      (fresh : id ∉ chain)
      (registered : schema.find? name = some target) (inside : schema.contains target = true)
      (rest : Search schema (id :: chain) target steps o) : Search schema chain id (steps + 1) o

end Schema

section Fates

variable {schema : Schema} {id x y : SchemaId} {fate other : Fate}

namespace Schema

theorem Names.functional (first : schema.Names id x) (second : schema.Names id y) : x = y := by
  obtain ⟨name, metadata, found, registered⟩ := first
  obtain ⟨name', metadata', found', registered'⟩ := second
  cases found.symm.trans found'
  exact Option.some.inj (registered.symm.trans registered')

theorem node?_of_outside (outside : schema.contains id = false) (node : SchemaNode) :
    schema.node? id ≠ some node := by
  intro found
  rw [contains_iff.2 ⟨node, found⟩] at outside
  cases outside

theorem names_of_refers (refers : schema.Refers id x) : schema.Names id x := by
  obtain ⟨name, metadata, found, registered, -⟩ := hop_eq_inr.1 refers
  exact ⟨name, metadata, found, registered⟩

end Schema

theorem Fate.EndsAt.not_names (ends : fate.EndsAt schema x) (next : SchemaId) :
    ¬ schema.Names x next := by
  rintro ⟨name, metadata, found, registered⟩
  cases fate with
  | outside => exact Schema.node?_of_outside ends _ found
  | endless => exact ends
  | undefined name' =>
      obtain ⟨metadata', found', unregistered⟩ := ends
      cases found.symm.trans found'
      cases unregistered.symm.trans registered
  | type target node =>
      obtain ⟨-, found', solid⟩ := ends
      cases found.symm.trans found'
      exact solid name rfl

/-- What stands at the end of a chain tells its fate. -/
theorem Fate.EndsAt.functional (first : fate.EndsAt schema x) (second : other.EndsAt schema x) :
    fate = other := by
  cases fate with
  | endless => exact first.elim
  | outside =>
      cases other with
      | outside => rfl
      | endless => exact second.elim
      | undefined name => exact absurd second.choose_spec.1 (Schema.node?_of_outside first _)
      | type target node => exact absurd second.2.1 (Schema.node?_of_outside first node)
  | undefined name =>
      obtain ⟨metadata, found, -⟩ := first
      cases other with
      | outside => exact absurd found (Schema.node?_of_outside second _)
      | endless => exact second.elim
      | undefined name' =>
          obtain ⟨metadata', found', -⟩ := second
          cases found.symm.trans found'
          rfl
      | type target node =>
          obtain ⟨-, found', solid⟩ := second
          cases found.symm.trans found'
          exact absurd rfl (solid name)
  | type target node =>
      obtain ⟨rfl, found, solid⟩ := first
      cases other with
      | outside => exact absurd found (Schema.node?_of_outside second node)
      | endless => exact second.elim
      | undefined name =>
          obtain ⟨metadata, found', -⟩ := second
          cases found.symm.trans found'
          exact absurd rfl (solid name)
      | type target' node' =>
          obtain ⟨rfl, found', -⟩ := second
          cases found.symm.trans found'
          rfl

namespace Schema

/-- A chain has one end at most. -/
theorem Names.end_unique (first : ReflTransGen schema.Names id x)
    (second : ReflTransGen schema.Names id y)
    (last : ∀ next, ¬ schema.Names x next) (last' : ∀ next, ¬ schema.Names y next) : x = y := by
  have unique : Relator.RightUnique schema.Names := fun _ _ _ => Names.functional
  rcases ReflTransGen.total_of_right_unique unique first second with further | further
  · rcases further.cases_head with same | ⟨next, names, -⟩
    · exact same
    · exact absurd names (last next)
  · rcases further.cases_head with same | ⟨next, names, -⟩
    · exact same.symm
    · exact absurd names (last' next)

theorem hasFate_iff (ends : fate ≠ .endless) :
    schema.HasFate id fate ↔
    ∃ last, ReflTransGen schema.Names id last ∧ fate.EndsAt schema last := by
  cases fate with
  | endless => exact absurd rfl ends
  | _ => rfl

theorem HasFate.not_endless (ends : fate ≠ .endless) (hasFate : schema.HasFate id fate) :
    ¬ schema.HasFate id .endless := by
  intro endless
  obtain ⟨last, reached, here⟩ := (hasFate_iff ends).1 hasFate
  obtain ⟨next, names⟩ := endless last reached
  exact here.not_names next names

/-- A chain leads to one place only. -/
theorem HasFate.functional (first : schema.HasFate id fate) (second : schema.HasFate id other) :
    fate = other := by
  by_cases ends : fate = .endless
  · subst ends
    by_contra apart
    exact second.not_endless (Ne.symm apart) first
  · by_cases ends' : other = .endless
    · subst ends'
      exact absurd second (first.not_endless ends)
    · obtain ⟨last, reached, here⟩ := (hasFate_iff ends).1 first
      obtain ⟨last', reached', there⟩ := (hasFate_iff ends').1 second
      obtain rfl := Names.end_unique reached reached' here.not_names there.not_names
      exact here.functional there

/-- From a type that a chain comes back to it goes on for ever: all that it comes to lies on the way
back. -/
theorem hasFate_endless (refers : ReflTransGen schema.Refers id x)
    (again : TransGen schema.Refers x x) :
    schema.HasFate id .endless := by
  have onward {y : SchemaId} (back : ReflTransGen schema.Refers y x) :
      ∃ next, schema.Names y next ∧ ReflTransGen schema.Refers next x := by
    obtain ⟨next, hop, further⟩ := TransGen.head'_iff.1 (TransGen.trans_right back again)
    exact ⟨next, names_of_refers hop, further⟩
  intro y reached
  have back : ReflTransGen schema.Refers y x := by
    induction reached with
    | refl => exact refers
    | tail _ names ih =>
        obtain ⟨next, names', further⟩ := onward ih
        exact names.functional names' ▸ further
  obtain ⟨next, names, -⟩ := onward back
  exact ⟨next, names⟩

theorem hasFate_resolve (schema : Schema) (id : SchemaId) :
    schema.HasFate id (schema.resolve id).fate := by
  have ends := schema.resolve_ends id
  have names {x : SchemaId} (refers : ReflTransGen schema.Refers id x) :
      ReflTransGen schema.Names id x :=
    refers.lift (fun x => x) fun _ _ => names_of_refers
  generalize schema.resolve id = o at ends
  cases ends with
  | found refers found solid => exact ⟨_, names refers, rfl, found, solid⟩
  | dangling refers found unregistered => exact ⟨_, names refers, _, found, unregistered⟩
  | cyclic refers found again => exact hasFate_endless refers again
  | missing outside => exact ⟨id, .refl, outside⟩
  | missingTarget refers found registered outside =>
      exact ⟨_, (names refers).tail ⟨_, _, found, registered⟩, outside⟩

theorem hasFate_iff_resolve : schema.HasFate id fate ↔ (schema.resolve id).fate = fate :=
  ⟨(schema.hasFate_resolve id).functional, fun same => same ▸ schema.hasFate_resolve id⟩

end Schema

end Fates

namespace Schema

section Steps

variable {schema : Schema} {id : SchemaId} {chain : List SchemaId} {steps : Nat} {o : Resolution}

/-- References that are different and in the table are no more than there are types. -/
theorem length_chain_le (distinct : chain.Nodup) (inside : ∀ x ∈ chain, schema.contains x = true) :
    chain.length ≤ schema.size := by
  have subset : chain ⊆ List.range schema.size := by
    intro x member
    exact List.mem_range.2 (by simpa [contains] using inside x member)
  have shorter := (List.subperm_of_subset distinct subset).length_le
  rwa [List.length_range] at shorter

/-- The references that a search follows are different from those that it has met. -/
theorem Search.bounded (search : schema.Search chain id steps o) (distinct : chain.Nodup)
    (inside : ∀ x ∈ chain, schema.contains x = true) : steps + chain.length ≤ schema.size := by
  induction search with
  | step found fresh _ _ _ ih =>
      have longer := ih (List.nodup_cons.2 ⟨fresh, distinct⟩)
        (List.forall_mem_cons.2 ⟨contains_iff.2 ⟨_, found⟩, inside⟩)
      rw [List.length_cons] at longer
      omega
  | _ =>
      have met := length_chain_le distinct inside
      omega

/-- A search that is given more steps than it takes comes to its result. -/
theorem Search.follow (search : schema.Search chain id steps o) {fuel : Nat}
    (enough : steps < fuel) :
    schema.follow fuel chain id = o := by
  induction search generalizing fuel with
  | missing absent =>
      obtain ⟨fuel, rfl⟩ := Nat.exists_eq_add_one_of_ne_zero (Nat.ne_of_gt enough)
      simp only [Schema.follow, absent]
  | @found chain id node found solid =>
      obtain ⟨fuel, rfl⟩ := Nat.exists_eq_add_one_of_ne_zero (Nat.ne_of_gt enough)
      obtain ⟨shape, metadata⟩ := node
      cases shape
      case reference name => exact absurd rfl (solid name)
      all_goals simp only [Schema.follow, found]
  | cyclic found met =>
      obtain ⟨fuel, rfl⟩ := Nat.exists_eq_add_one_of_ne_zero (Nat.ne_of_gt enough)
      simp only [Schema.follow, found, met, ↓reduceIte]
  | dangling found fresh unregistered =>
      obtain ⟨fuel, rfl⟩ := Nat.exists_eq_add_one_of_ne_zero (Nat.ne_of_gt enough)
      simp only [Schema.follow, found, fresh, unregistered, ↓reduceIte]
  | missingTarget found fresh registered outside =>
      obtain ⟨fuel, rfl⟩ := Nat.exists_eq_add_one_of_ne_zero (Nat.ne_of_gt enough)
      simp only [Schema.follow, found, fresh, registered, outside, ↓reduceIte, Bool.false_eq_true]
  | step found fresh registered inside rest ih =>
      obtain ⟨fuel, rfl⟩ :=
        Nat.exists_eq_add_one_of_ne_zero (Nat.ne_of_gt (Nat.zero_lt_of_lt enough))
      simp only [Schema.follow, found, fresh, registered, inside, ↓reduceIte]
      exact ih (Nat.lt_of_succ_lt_succ enough)

/-- A search that has met some references has room for the other types only, so it comes to a
result. -/
theorem exists_search (schema : Schema) (room : Nat) (chain : List SchemaId) (id : SchemaId)
    (distinct : chain.Nodup) (inside : ∀ x ∈ chain, schema.contains x = true)
    (enough : schema.size < chain.length + room) : ∃ steps o, schema.Search chain id steps o := by
  induction room generalizing chain id with
  | zero =>
      -- Without room there would be more references on the chain than types.
      have met := length_chain_le distinct inside
      omega
  | succ room ih =>
      cases found : schema.node? id with
      | none => exact ⟨0, _, .missing found⟩
      | some node =>
          by_cases solid : ∀ name, node.shape ≠ .reference name
          · exact ⟨0, _, .found found solid⟩
          obtain ⟨shape, metadata⟩ := node
          obtain ⟨name, rfl⟩ : ∃ name, shape = .reference name := by simpa using solid
          by_cases fresh : id ∈ chain
          · exact ⟨0, _, .cyclic found fresh⟩
          cases registered : schema.find? name with
          | none => exact ⟨0, _, .dangling found fresh registered⟩
          | some target =>
              cases contained : schema.contains target with
              | false => exact ⟨0, _, .missingTarget found fresh registered contained⟩
              | true =>
                  obtain ⟨steps, o, rest⟩ := ih (id :: chain) target (List.nodup_cons.2 ⟨fresh, distinct⟩)
                    (List.forall_mem_cons.2 ⟨contains_iff.2 ⟨_, found⟩, inside⟩)
                    (by rw [List.length_cons]; omega)
                  exact ⟨steps + 1, o, .step found fresh registered contained rest⟩

/-- A search from a type follows no more references than there are types, so the steps that it is
given suffice. -/
theorem Search.resolve (search : schema.Search [] id steps o) :
    steps ≤ schema.size ∧ schema.resolve id = o := by
  have bounded : steps ≤ schema.size := search.bounded List.nodup_nil (by simp)
  exact ⟨bounded, search.follow (Nat.lt_succ_of_le bounded)⟩

theorem search_resolve (schema : Schema) (id : SchemaId) :
    ∃ steps, schema.Search [] id steps (schema.resolve id) := by
  obtain ⟨steps, o, search⟩ :=
    exists_search schema (schema.size + 1) [] id List.nodup_nil (by simp) (by simp)
  exact ⟨steps, search.resolve.2 ▸ search⟩

end Steps

variable {schema : Schema} {id : SchemaId} {fate : Fate}

theorem told_iff {path : Path} : fate.Told schema id path ↔ (schema.resolve id).fate = fate := by
  have apart := Flaw.kinds_apart.1
  -- each end of a chain against each fate: one of them agrees, the others differ in kind
  cases fate <;> unfold Fate.Told target <;> cases schema.resolve id <;>
    simp [Resolution.fate, Flaw.kind, apart, apart.symm]

/-- The target of a type tells which of the four fates its chain of references has, and each chain
has one. Where the target is asked for by a walk, a name that is not registered is reported once.
The search follows no more references than there are types; the last look, which may find a
reference that was met before, follows none. -/
theorem target_tells_fate (schema : Schema) (id : SchemaId) (path : Path) :
    (∀ fate, schema.HasFate id fate ↔ fate.Told schema id path) ∧
      (∃! fate, schema.HasFate id fate) ∧
      ((Walker.follow schema id path).log = (schema.target id path).map fun
        | .undefined name => (none, { errors := [⟨path, .undefinedType name⟩] })
        | .node target node => (some (target, node), {})) ∧
      (∃ steps, schema.Search [] id steps (schema.resolve id)) ∧
      ∀ steps o, schema.Search [] id steps o → steps ≤ schema.size ∧ schema.resolve id = o := by
  refine ⟨fun fate => hasFate_iff_resolve.trans told_iff.symm, ?_, ?_, schema.search_resolve id,
    fun _ _ search => search.resolve⟩
  · exact ⟨_, schema.hasFate_resolve id,
      fun fate hasFate => hasFate.functional (schema.hasFate_resolve id)⟩
  · unfold Walker.follow
    cases schema.target id path with
    | error e => rfl
    | ok target => cases target <;> rfl

end Schema

end DocSchema
