import Mathlib.Logic.Relation
import DocSchema.Proofs.Choices
import DocSchema.Proofs.References

set_option autoImplicit false

namespace DocSchema

open Relation (ReflTransGen TransGen)

/-- Whether a variant of this shape is checked together with a tag that shares its map. -/
def Shape.holdsTag {α : Type} : Shape α → Bool
  | .record .. => true
  | .null => true
  | _ => false

theorem Shape.isUnion_of_holdsTag {α : Type} {shape : Shape α} (holds : shape.holdsTag = true) :
    shape.isUnion = false := by
  cases shape with
  | union variants representation => cases holds
  | _ => rfl

namespace Schema

variable {schema : Schema} {settings : Settings} {id target : SchemaId} {node : SchemaNode}
  {s : Site} {cs : List Selection} {level : Nat}

/-- Whether a type leads to another one for the same value: a reference to its target, a union to
its variants. -/
inductive Leads (schema : Schema) : SchemaId → SchemaId → Prop
  | reference {id target : SchemaId} (hop : schema.hop id = .inr target) : Leads schema id target
  | variant {id : SchemaId} {variants : List (Variant SchemaId)} {representation : Representation}
      {metadata : Metadata} {v : Variant SchemaId}
      (found : schema.node? id = some ⟨.union variants representation, metadata⟩)
      (member : v ∈ variants) : Leads schema id v.schema

/-- Whether no union reaches itself through variants and references alone. -/
def IsGuarded (schema : Schema) : Prop :=
  ∀ id variants representation metadata,
    schema.node? id = some ⟨.union variants representation, metadata⟩ →
      ¬ TransGen schema.Leads id id

/-- Whether no record declares a field twice. -/
def HasDistinctFields (schema : Schema) : Prop :=
  ∀ id node, schema.node? id = some node → node.shape.HasDistinctFields

theorem hasDistinctFields_of_nodes
    (distinct : ∀ node ∈ schema.nodes.toList, node.shape.HasDistinctFields) :
    schema.HasDistinctFields :=
  fun _ node found => distinct node (mem_of_node? found)

theorem Chain.leads {ids : List SchemaId} (chain : schema.Chain id ids (.found target node)) :
    ReflTransGen schema.Leads id target := by
  generalize same : Resolution.found target node = o at chain
  induction chain with
  | last ends =>
      subst same
      obtain ⟨-, rfl, -⟩ := hop_eq_found ends
      exact .refl
  | step leads rest ih => exact .head (.reference leads) (ih same)

/-- The end of a search is in the table, and the type leads there. -/
theorem resolve_found (found : schema.resolve id = .found target node) :
    schema.node? target = some node ∧ ReflTransGen schema.Leads id target := by
  rcases schema.resolve_cases id with ⟨ids, chain⟩ | ⟨⟨name, cyclic⟩, -⟩
  · rw [found] at chain
    exact ⟨chain.found.1, chain.leads⟩
  · cases found.symm.trans cyclic

theorem target_ok {path : Path} (reached : schema.target id path = .ok (.node target node)) :
    schema.resolve id = .found target node := by
  unfold Schema.target at reached
  split at reached <;> cases reached
  assumption

/-- The walk that a check of a level makes. -/
def walk (schema : Schema) (settings : Settings) (level : Nat) : Walk :=
  ⟨schema, settings.isLenient, schema.check settings level⟩

theorem follow_log {path : Path} (found : schema.resolve id = .found target node) :
    (Walker.follow schema id path).log = .ok (some (target, node), {}) := by
  unfold Walker.follow Schema.target
  rw [found]
  rfl

theorem follow_some {path : Path} {f : Findings}
    (logged : (Walker.follow schema id path).log = .ok (some (target, node), f)) :
    schema.resolve id = .found target node := by
  unfold Walker.follow Schema.target at logged
  split at logged <;> cases logged
  assumption

theorem deprecation_log (isDeprecated : Bool) (path : Path) :
    (Check.deprecation isDeprecated path).log =
      .ok ((), { warnings := if isDeprecated then [(path, .deprecated)] else [] }) := by
  cases isDeprecated <;> rfl

theorem deprecation_selects (isDeprecated : Bool) (path : Path) :
    (Check.deprecation isDeprecated path).Selects [] :=
  ⟨_, deprecation_log isDeprecated path, rfl⟩

/-- The check of a value against a type that is found. -/
theorem check_log (found : schema.resolve id = .found target node) :
    (schema.check settings (level + 1) id s).log =
      (if s.value.content.isHole then pure ()
        else do
          Check.deprecation (schema.isDeprecated id || node.metadata.isDeprecated) s.path
          (schema.walk settings level).shape target s node.shape : Check).log :=
  Walker.log_bind_of_log (follow_log found) _

/-- A check selects what the check of the shape does, if there is a shape and a value. -/
theorem check_selects (selects : (schema.check settings (level + 1) id s).Selects cs) :
    cs = [] ∨ ∃ target node, schema.resolve id = .found target node ∧
      s.value.content.isHole = false ∧
      ((schema.walk settings level).shape target s node.shape).Selects cs := by
  rw [check] at selects
  obtain ⟨found, f, ds, logged, rest, rfl⟩ := selects.bind_result
  obtain ⟨-, silent⟩ := Walker.follow_ensures schema id s.path found f logged
  rw [silent.selections, List.nil_append]
  cases found with
  | none => exact .inl (Walker.Selects.pure.functional rest)
  | some found =>
      obtain ⟨target, node⟩ := found
      cases hole : s.value.content.isHole with
      | true =>
          simp only [hole, ↓reduceIte] at rest
          exact .inl (Walker.Selects.pure.functional rest)
      | false =>
          simp only [hole, Bool.false_eq_true, ↓reduceIte] at rest
          exact .inr ⟨target, node, follow_some logged, rfl,
            Walker.Selects.of_silent_bind (deprecation_selects _ _) rest⟩

theorem check_selects_shape (found : schema.resolve id = .found target node)
    (filled : s.value.content.isHole = false)
    (selects : (schema.check settings (level + 1) id s).Selects cs) :
    ((schema.walk settings level).shape target s node.shape).Selects cs := by
  have selected := Walker.Selects.of_log (check_log found).symm selects
  rw [filled] at selected
  exact Walker.Selects.of_silent_bind (deprecation_selects _ _) selected

theorem selects_check (found : schema.resolve id = .found target node)
    (selects : ((schema.walk settings level).shape target s node.shape).Selects cs)
    (hole : s.value.content.isHole = true → cs = []) :
    (schema.check settings (level + 1) id s).Selects cs := by
  apply Walker.Selects.of_log (check_log found)
  cases empty : s.value.content.isHole with
  | true =>
      have same := hole empty
      subst same
      exact .pure
  | false => exact (deprecation_selects _ _).bind selects

theorem follow_none {path : Path} {f : Findings}
    (logged : (Walker.follow schema id path).log = .ok (none, f)) :
    ∃ name, schema.resolve id = .dangling name := by
  unfold Walker.follow Schema.target at logged
  split at logged <;> cases logged
  exact ⟨_, by assumption⟩

/-- At a name that is not registered nothing is selected. -/
theorem check_dangling {name : Bytes} (dangling : schema.resolve id = .dangling name) :
    (schema.check settings level id s).Selects [] := by
  cases level with
  | zero => exact .report _ _
  | succ level =>
      have followed : (Walker.follow schema id s.path).log =
          .ok (none, { errors := [⟨s.path, .undefinedType name⟩] }) := by
        unfold Walker.follow Schema.target
        rw [dangling]
        rfl
      refine ⟨{ errors := [⟨s.path, .undefinedType name⟩] }, ?_, rfl⟩
      rw [check, Walker.log_bind, followed]
      rfl

/-- The number of levels left for a variant. One that is checked together with its tag is checked at
once. -/
def variantLevel (schema : Schema) (tag : Option Bytes) (id : SchemaId) (level : Nat) : Nat :=
  match tag, schema.resolve id with
  | some _, .found _ node => if node.shape.holdsTag then level + 1 else level
  | _, _ => level

theorem le_variantLevel (tag : Option Bytes) : level ≤ schema.variantLevel tag id level := by
  unfold variantLevel
  split
  · split
    · exact Nat.le_succ level
    · exact Nat.le_refl level
  · exact Nat.le_refl level

/-- A variant selects what its check does. One that is checked together with its tag has no
variants. -/
theorem variant_selects {tag : Option Bytes}
    (selects : ((schema.walk settings level).variant id tag s).Selects cs) :
    (schema.variantLevel tag id level = level ∧ (schema.check settings level id s).Selects cs) ∨
      (schema.variantLevel tag id level = level + 1 ∧ ∃ target node,
        schema.resolve id = .found target node ∧ node.shape.isUnion = false ∧
        ((schema.walk settings level).shape target s node.shape).Selects cs ∧
        (s.value.content.isHole = true → cs = [])) := by
  cases tag with
  | none => exact .inl ⟨rfl, selects⟩
  | some name =>
      obtain ⟨found, f, ds, logged, rest, rfl⟩ := Walker.Selects.bind_result selects
      obtain ⟨-, silent⟩ := Walker.follow_ensures schema id s.path found f logged
      rw [silent.selections, List.nil_append]
      cases found with
      | none =>
          obtain ⟨name, dangling⟩ := follow_none logged
          have dangling : schema.resolve id = .dangling name := dangling
          have same := Walker.Selects.pure.functional rest
          subst same
          refine .inl ⟨?_, check_dangling dangling⟩
          unfold variantLevel
          rw [dangling]
      | some found =>
          obtain ⟨target, node⟩ := found
          have resolved : schema.resolve id = .found target node := follow_some logged
          obtain ⟨shape, metadata⟩ := node
          unfold variantLevel
          rw [resolved]
          dsimp only at rest ⊢
          cases shape
          case record fields allowsUnknown =>
            refine .inr ⟨rfl, _, _, rfl, rfl, ?_, fun hole => Walk.record_hole hole rest⟩
            exact Walk.record_untagged rest
          case null =>
            have same := (Walk.unknownFields_selects _ _).functional rest
            subst same
            refine .inr ⟨rfl, _, _, rfl, rfl, ?_, fun _ => rfl⟩
            unfold Walk.shape
            dsimp only
            split
            · exact .pure
            · exact .report _ _
          all_goals exact .inl ⟨rfl, rest⟩

theorem variant_check {tag : Option Bytes}
    (selects : ((schema.walk settings level).variant id tag s).Selects cs) :
    (schema.check settings (schema.variantLevel tag id level) id s).Selects cs := by
  rcases variant_selects selects with ⟨same, checked⟩ | ⟨next, target, node, found, -, shaped, hole⟩
  · rw [same]
    exact checked
  · rw [next]
    exact selects_check found shaped hole

/-- What a union selects: the variant that it chooses, and what that one does. -/
theorem union_selects {u : UnionType} {w : Walk} (selects : (w.union u s).Selects cs) :
    (∃ f, (w.dispatch u s).log = .ok (none, f) ∧ cs = []) ∨
      ∃ c f ds, (w.dispatch u s).log = .ok (some c, f) ∧
        (w.variant c.variant.schema c.tag c.target).Selects ds ∧
        cs = ⟨s.position, u.id, c.variant.schema, c.target⟩ :: ds := by
  obtain ⟨choice, f, ds, logged, rest, rfl⟩ := Walker.Selects.bind_result selects
  obtain ⟨-, silent⟩ := Walk.picks_dispatch w u s choice f logged
  rw [silent.selections, List.nil_append]
  cases choice with
  | none =>
      have same := Walker.Selects.pure.functional rest
      subst same
      exact .inl ⟨f, logged, rfl⟩
  | some c =>
      obtain ⟨ds, es, first, second, rfl⟩ := Walker.Selects.of_bind rest
      have same := (Walker.Selects.select _).functional first
      subst same
      exact .inr ⟨c, f, es, logged, second, rfl⟩

/-- Whether a union chooses, where variants have to be named, the variant of a selection. -/
def Chooses (schema : Schema) (s : Site) (c : Selection) : Prop :=
  ∃ variants representation metadata choice f,
    schema.node? c.union = some ⟨.union variants representation, metadata⟩ ∧
      ((Walk.mk schema false fun _ _ => pure ()).dispatch ⟨c.union, variants, representation⟩ s).log =
        .ok (some choice, f) ∧ choice.variant.schema = c.variant ∧ choice.target = c.target

/-- Where a selection of the walk from a type comes from: if it is for the same value, from a union
to which the type leads. -/
structure Yields (schema : Schema) (settings : Settings) (id : SchemaId) (s : Site)
    (c : Selection) :
    Prop where
  below : s.position <+: c.position
  reached : c.position = s.position → ReflTransGen schema.Leads id c.union
  chosen : c.position = s.position → settings.isLenient = false → schema.Chooses s c

/-- Selections of parts lie strictly below. -/
theorem below_of_parts {parts : List (SchemaId × Site × Bool)}
    (yields : ∀ id s cs, (schema.check settings level id s).Selects cs →
      ∀ c ∈ cs, schema.Yields settings id s c)
    (near : ∀ p ∈ parts, ∃ i, p.2.1.position = s.position ++ [i])
    (selects : (schema.walk settings level).SelectsParts parts cs) :
    ∀ c ∈ cs, ∃ i, s.position ++ [i] <+: c.position := by
  obtain ⟨gs, each, rfl⟩ := selects
  intro c member
  obtain ⟨p, listed, g, selected, inside⟩ := exists_of_mem_flatten each c member
  obtain ⟨i, position⟩ := near p listed
  exact ⟨i, position ▸ (yields _ _ _ selected c inside).below⟩

theorem ne_of_below {p q : List Nat} {i : Nat} (strict : p ++ [i] <+: q) : q ≠ p := by
  intro same
  subst same
  have shorter := strict.length_le
  rw [List.length_append, List.length_singleton] at shorter
  omega

theorem Yields.of_below {i : Nat} {c : Selection} (strict : s.position ++ [i] <+: c.position) :
    schema.Yields settings id s c :=
  ⟨(List.prefix_append _ _).trans strict, fun same => absurd same (ne_of_below strict),
    fun same => absurd same (ne_of_below strict)⟩

/-- A type without variants selects only strictly below a value. -/
theorem shape_below
    (yields : ∀ id s cs, (schema.check settings level id s).Selects cs →
      ∀ c ∈ cs, schema.Yields settings id s c)
    (plain : node.shape.isUnion = false)
    (selects : ((schema.walk settings level).shape target s node.shape).Selects cs) :
    ∀ c ∈ cs, ∃ i, s.position ++ [i] <+: c.position :=
  below_of_parts yields (s.near_required target plain) (Walk.selects_shape target plain selects)

theorem variant_yields {tag : Option Bytes}
    (yields : ∀ id s cs, (schema.check settings level id s).Selects cs →
      ∀ c ∈ cs, schema.Yields settings id s c)
    (selects : ((schema.walk settings level).variant id tag s).Selects cs) :
    ∀ c ∈ cs, schema.Yields settings id s c := by
  rcases variant_selects selects with ⟨-, checked⟩ | ⟨-, target, node, resolved, plain, shaped, -⟩
  · exact yields id s cs checked
  · intro c member
    obtain ⟨i, strict⟩ := shape_below yields plain shaped c member
    exact .of_below strict

/-- What the content of a variant yields, the union yields. -/
theorem Yields.of_variant {u : UnionType} {metadata : Metadata} {choice : Choice} {c : Selection}
    (leads : ReflTransGen schema.Leads id u.id)
    (found : schema.node? u.id = some ⟨.union u.variants u.representation, metadata⟩)
    (fits : choice.Fits u s)
    (yields : schema.Yields settings choice.variant.schema choice.target c) :
    schema.Yields settings id s c := by
  rcases fits.target with same | ⟨i, position⟩
  · have further := leads.tail (.variant found fits.variant)
    exact ⟨same ▸ yields.below, fun here => further.trans (yields.reached (same ▸ here)),
      fun here explicit => same ▸ yields.chosen (same ▸ here) explicit⟩
  · exact .of_below (position ▸ yields.below)

/-- What a walk selects, its type yields. -/
theorem check_yields (level : Nat) :
    ∀ id s cs, (schema.check settings level id s).Selects cs →
      ∀ c ∈ cs, schema.Yields settings id s c := by
  induction level with
  | zero =>
      intro id s cs selects
      have same := (Walker.Selects.report _ _).functional selects
      subst same
      simp
  | succ level ih =>
      intro id s cs selects c member
      rcases check_selects selects with rfl | ⟨target, node, resolved, filled, selected⟩
      · cases member
      obtain ⟨found, leads⟩ := resolve_found resolved
      cases plain : node.shape.isUnion with
      | false =>
          obtain ⟨i, strict⟩ := shape_below ih plain selected c member
          exact .of_below strict
      | true =>
          obtain ⟨shape, metadata⟩ := node
          cases shape with
          | union variants representation =>
              rcases union_selects selected with ⟨f, logged, rfl⟩ | ⟨choice, f, ds, logged, rest, rfl⟩
              · cases member
              have fits := (Walk.picks_dispatch _ _ s _ f logged).1 choice rfl
              rcases List.mem_cons.1 member with rfl | later
              · refine ⟨List.prefix_rfl, fun _ => leads, fun _ explicit => ?_⟩
                refine ⟨variants, representation, metadata, choice, f, found, ?_, rfl, rfl⟩
                rw [← logged, walk, explicit]
                rfl
              · exact .of_variant leads found fits (variant_yields ih rest c later)
          | _ => cases plain

end Schema

end DocSchema
