import DocSchema.Proofs.Alike
import DocSchema.Proofs.Bisimulation
import DocSchema.Proofs.References

set_option autoImplicit false

namespace DocSchema

/-- Whether two types demand the same, where `R` relates the types below them. -/
structure SchemaNode.Related (R : SchemaId → SchemaId → Prop) (m n : SchemaNode) : Prop where
  isDeprecated : m.metadata.isDeprecated = n.metadata.isDeprecated
  shape : m.shape.Related R n.shape

/-- Whether two chains of references end alike. Where they do not end, they may meet references of
different names again. -/
inductive Schema.Resolution.Related (R : SchemaId → SchemaId → Prop) :
    Schema.Resolution → Schema.Resolution → Prop
  | found {x y : SchemaId} {m n : SchemaNode} (types : R x y) (nodes : m.Related R n) :
      Related R (.found x m) (.found y n)
  | dangling (name : Bytes) : Related R (.dangling name) (.dangling name)
  | cyclic (name name' : Bytes) : Related R (.cyclic name) (.cyclic name')
  | missing : Related R .missing .missing
  | missingTarget (name : Bytes) : Related R (.missingTarget name) (.missingTarget name)

/-- Whether two targets are related types or the same name that is not registered. -/
inductive Target.Related (R : SchemaId → SchemaId → Prop) : Target → Target → Prop
  | node {x y : SchemaId} {m n : SchemaNode} (types : R x y) (nodes : m.Related R n) :
      Related R (.node x m) (.node y n)
  | undefined (name : Bytes) : Related R (.undefined name) (.undefined name)

namespace Schema.Bisimulation

variable {s t : Schema} {R : SchemaId → SchemaId → Prop} {x y : SchemaId} {ids : List SchemaId}
  {o : Resolution}

theorem contains (bisimilar : s.Bisimulation t R) (types : R x y) :
    s.contains x = t.contains y := by
  rw [Bool.eq_iff_iff, contains_iff, contains_iff]
  rcases bisimilar.nodes x y types with ⟨left, right⟩ | ⟨m, n, left, right, -⟩ <;>
    simp [left, right]

theorem isDeprecated (bisimilar : s.Bisimulation t R) (types : R x y) :
    s.isDeprecated x = t.isDeprecated y := by
  unfold Schema.isDeprecated
  rcases bisimilar.nodes x y types with ⟨left, right⟩ | ⟨m, n, left, right, same, -⟩
  · rw [left, right]
  · rw [left, right]
    exact same

/-- One step: related types are both references to related types, or both end a chain. -/
theorem hop (bisimilar : s.Bisimulation t R) (types : R x y) :
    Sum.LiftRel (Resolution.Related R) R (s.hop x) (t.hop y) := by
  rcases bisimilar.nodes x y types with ⟨left, right⟩ | ⟨m, n, left, right, deprecated, shapes⟩
  · simp only [Schema.hop, left, right]
    exact .inl .missing
  · obtain ⟨shape, metadata⟩ := m
    obtain ⟨shape', metadata'⟩ := n
    by_cases reference : ∃ name, shape = .reference name
    · obtain ⟨name, rfl⟩ := reference
      cases shapes with
      | reference =>
          rcases bisimilar.names name with ⟨absent, absent'⟩ | ⟨x', y', named, named', targets⟩
          · simp only [Schema.hop, left, right, absent, absent']
            exact .inl (.dangling name)
          · simp only [Schema.hop, left, right, named, named', bisimilar.contains targets]
            split
            · exact .inr targets
            · exact .inl (.missingTarget name)
    · have found : Resolution.Related R (.found x ⟨shape, metadata⟩)
          (.found y ⟨shape', metadata'⟩) :=
        .found types ⟨deprecated, shapes⟩
      simp only [Schema.hop, left, right]
      cases shapes
      case reference name => exact absurd ⟨name, rfl⟩ reference
      all_goals exact .inl found

theorem chain (bisimilar : s.Bisimulation t R) (left : s.Chain x ids o) (types : R x y) :
    ∃ ids' o', t.Chain y ids' o' ∧ o.Related R o' := by
  induction left generalizing y with
  | @last x o ends =>
      have step := bisimilar.hop types
      rw [ends] at step
      generalize leads : t.hop y = h at step
      cases step with
      | inl related => exact ⟨[y], _, .last leads, related⟩
  | @step x target ids o next rest ih =>
      have step := bisimilar.hop types
      rw [next] at step
      generalize leads : t.hop y = h at step
      cases step with
      | inr related =>
          obtain ⟨ids', o', further, ends⟩ := ih related
          exact ⟨y :: ids', o', .step leads further, ends⟩

theorem chain_back (bisimilar : s.Bisimulation t R) (right : t.Chain y ids o) (types : R x y) :
    ∃ ids' o', s.Chain x ids' o' := by
  induction right generalizing x with
  | @last y o ends =>
      have step := bisimilar.hop types
      rw [ends] at step
      generalize leads : s.hop x = h at step
      cases step with
      | inl related => exact ⟨[x], _, .last leads⟩
  | @step y target ids o next rest ih =>
      have step := bisimilar.hop types
      rw [next] at step
      generalize leads : s.hop x = h at step
      cases step with
      | inr related =>
          obtain ⟨ids', o', further⟩ := ih related
          exact ⟨x :: ids', o', .step leads further⟩

/-- The chains of references from related types end alike. -/
theorem resolve (bisimilar : s.Bisimulation t R) (types : R x y) :
    (s.resolve x).Related R (t.resolve y) := by
  rcases s.resolve_cases x with ⟨ids, left⟩ | ⟨⟨name, cyclic⟩, endless⟩
  · obtain ⟨ids', o', right, related⟩ := bisimilar.chain left types
    rw [right.resolve]
    exact related
  · rcases t.resolve_cases y with ⟨ids', right⟩ | ⟨⟨name', cyclic'⟩, -⟩
    · obtain ⟨ids, o, left⟩ := bisimilar.chain_back right types
      exact absurd left (endless ids o)
    · rw [cyclic, cyclic']
      exact .cyclic name name'

/-- The ends of the chains from related types are related, or there are none for the same reason. -/
theorem target (bisimilar : s.Bisimulation t R) (types : R x y) (path : Path) :
    Walker.Alike (Target.Related R) (Walker.lift (s.target x path))
      (Walker.lift (t.target y path)) := by
  have ends := bisimilar.resolve types
  unfold Schema.target
  generalize s.resolve x = o at ends
  generalize t.resolve y = o' at ends
  cases ends with
  | found types nodes => exact .pure (.node types nodes)
  | dangling name => exact .pure (.undefined name)
  | cyclic name name' => exact .abort rfl
  | missing => exact .abort rfl
  | missingTarget name => exact .abort rfl

/-- Chains that end at unregistered names end there with the same report. -/
theorem follow (bisimilar : s.Bisimulation t R) (types : R x y) (path : Path) :
    Walker.Alike (Option.Rel fun a b => R a.1 b.1 ∧ a.2.Related R b.2) (Walker.follow s x path)
      (Walker.follow t y path) := by
  apply (bisimilar.target types path).bind
  intro a b ends
  cases ends with
  | node types nodes => exact .pure (.some ⟨types, nodes⟩)
  | undefined name => exact (Walker.Alike.report path rfl).bind fun _ _ _ => .pure .none

end Schema.Bisimulation

end DocSchema
