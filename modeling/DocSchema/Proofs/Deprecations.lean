import DocSchema.Proofs.Deeper

set_option autoImplicit false

namespace DocSchema

/-- A value that is checked against a type. -/
structure Use where
  type : SchemaId
  site : Site
  /-- Whether the value is checked together with a tag that shares its map. -/
  isShared : Bool

def Use.warning (u : Use) : Path × Warning :=
  (u.site.path, .deprecated)

namespace Schema

variable {schema : Schema} {settings : Settings} {level : Nat} {id target : SchemaId}
  {node : SchemaNode}
  {s : Site} {u : Use}

/-- The variant that the check of a value checks together with a tag, if there is one. -/
def shared (schema : Schema) (settings : Settings) (level : Nat) (id : SchemaId) (s : Site) :
    List (SchemaId × Site) :=
  match schema.resolve id with
  | .found target ⟨.union variants representation, _⟩ =>
    match (schema.walk settings level).chosen? ⟨target, variants, representation⟩ s with
    | some ⟨v, content, some _⟩ =>
      match schema.resolve v.schema with
      | .found _ node => if node.shape.holdsTag then [(v.schema, content)] else []
      | _ => []
    | _ => []
  | _ => []

/-- The values that the structural pass checks, each with the type that it is checked against. -/
def usages (schema : Schema) (settings : Settings) : (level : Nat) → SchemaId → Site → List Use
  | 0, _, _ => []
  | level + 1, id, s =>
    ⟨id, s, false⟩ :: ((schema.shared settings level id s).map fun (id, s) => ⟨id, s, true⟩) ++
      (schema.calls settings level id s).flatMap fun c => schema.usages settings level c.1 c.2.1

def warnsOf (schema : Schema) (u : Use) : Bool :=
  !u.isShared && schema.warns u.type u.site

/-- The structural pass warns of some of the values that it checks, in order. -/
theorem check_warnings {f : Findings}
    (logged : (schema.check settings level id s).log = .ok ((), f)) :
    f.warnings = ((schema.usages settings level id s).filter schema.warnsOf).map Use.warning := by
  induction level generalizing id s f with
  | zero =>
      cases logged
      rfl
  | succ level ih =>
      obtain ⟨gs, each, gathers⟩ := check_gathers logged
      have below : gs.map (·.warnings) = (schema.calls settings level id s).map fun c =>
          ((schema.usages settings level c.1 c.2.1).filter schema.warnsOf).map Use.warning := by
        rw [← List.forall₂_eq_eq_eq, List.forall₂_map_left_iff, List.forall₂_map_right_iff]
        exact each.flip.imp fun {g c} checked => ih checked
      have silent : ((schema.shared settings level id s).map fun (id, s) => (⟨id, s, true⟩ : Use)).filter
          schema.warnsOf = [] := by
        rw [List.filter_eq_nil_iff, List.forall_mem_map]
        exact fun _ _ => Bool.false_ne_true
      have own : (schema.notes settings level id s).warnings =
          (if schema.warnsOf ⟨id, s, false⟩ then [⟨id, s, false⟩] else []).map Use.warning := by
        rw [notes, warnsOf]
        cases schema.warns id s <;> rfl
      have split : (schema.usages settings (level + 1) id s).filter schema.warnsOf =
          (if schema.warnsOf ⟨id, s, false⟩ then [⟨id, s, false⟩] else []) ++
            (schema.calls settings level id s).flatMap fun c =>
              (schema.usages settings level c.1 c.2.1).filter schema.warnsOf := by
        rw [usages, List.filter_append, List.filter_cons, silent, List.filter_flatMap]
      rw [gathers.warnings, own, below, split, List.map_append, List.map_flatMap, List.flatMap_def]

/-- The search for holes warns of nothing. -/
theorem complete_warnings {table : List Selection} {depth : Nat} {isOptional : Bool} {f : Findings}
    (logged : (schema.complete table depth id s isOptional).log = .ok ((), f)) :
    f.warnings = [] := by
  obtain ⟨holes, -, rfl, -⟩ := complete_shrinks (Nat.le_refl depth) (id, s, isOptional) f logged
  rfl

/-- A value that is checked alone is warned of if one of the two ends of the references is
deprecated. -/
theorem warns_of_ends {ids : List SchemaId} (chain : schema.Chain id ids (.found target node))
    (filled : s.value.content.isHole = false)
    (ends : schema.isDeprecated id = true ∨ schema.isDeprecated target = true) :
    schema.warns id s = true := by
  have last : schema.isDeprecated target = node.metadata.isDeprecated := by
    rw [isDeprecated, chain.found.1]
    rfl
  rwa [warns_found chain.resolve filled, Bool.or_eq_true, ← last]

end Schema

/-- A validation warns of exactly those values that are checked alone against a type that is
deprecated itself or refers to a deprecated one in the end. So a value is warned of if the
references from its type come by a deprecated one, unless the value shares its map with a tag, or
that type is neither end of the references. -/
theorem validateNode_warnings {d : Document} {n : NodeId} {schema : Schema} {id : SchemaId}
    {settings : Settings} {r : Report} (validated : validateNode d n schema id settings = .ok r) :
    let usages := schema.usages settings settings.maxDepth id ⟨d.valueAt n, [], []⟩
    r.warnings = (usages.filter schema.warnsOf).map Use.warning ∧
      ∀ u ∈ usages, u.site.value.content.isHole = false →
        ∀ ids target node, schema.Chain u.type ids (.found target node) →
          ∀ x ∈ ids, schema.isDeprecated x = true →
            u.warning ∈ r.warnings ∨ u.isShared = true ∨ x ≠ u.type ∧ x ≠ target := by
  obtain ⟨f, found, rfl⟩ := exists_findings validated
  obtain ⟨-, structural, holes, checked, searched, rfl⟩ := findings_of_passes found
  have warnings : ((({} : Ledger).add settings.maxErrors (structural ++ holes)).toReport).warnings =
      ((schema.usages settings settings.maxDepth id ⟨d.valueAt n, [], []⟩).filter schema.warnsOf).map
        Use.warning := by
    rw [toReport_add, ← Schema.check_warnings checked]
    change structural.warnings ++ holes.warnings = structural.warnings
    rw [Schema.complete_warnings searched, List.append_nil]
  refine ⟨warnings, fun u member filled ids target node chain x _ deprecated => ?_⟩
  rw [warnings]
  cases shared : u.isShared with
  | true => exact .inr (.inl rfl)
  | false =>
      by_cases ends : x = u.type ∨ x = target
      · have warned : schema.warns u.type u.site = true := by
          refine Schema.warns_of_ends chain filled (ends.imp ?_ ?_)
          · rintro rfl
            exact deprecated
          · rintro rfl
            exact deprecated
        refine .inl (List.mem_map_of_mem (List.mem_filter.2 ⟨member, ?_⟩))
        rw [Schema.warnsOf, shared, warned]
        rfl
      · exact .inr (.inr (not_or.1 ends))

/-- Two integers of a pair: one against a deprecated type, one against an alias of a deprecated
alias. -/
private def aged : Schema where
  nodes := #[⟨.tuple [1, 2], {}⟩, ⟨.integer {} none, { isDeprecated := true }⟩, ⟨.reference "A", {}⟩,
    ⟨.reference "B", { isDeprecated := true }⟩, ⟨.integer {} none, {}⟩]
  types := [("A", 3), ("B", 4)]
  distinct := by decide

/-- Only the first one is warned of. -/
theorem validateNode_warnings_pair :
    ∃ r, validateNode ⟨#[⟨.tuple [1, 2], []⟩, ⟨.primitive (.int 5), []⟩,
      ⟨.primitive (.int 6), []⟩]⟩ 0 aged 0 {} =
        .ok r ∧ r.warnings = [([.tuple 0], .deprecated)] := by
  obtain ⟨r, validated⟩ : ∃ r, validateNode
      ⟨#[⟨.tuple [1, 2], []⟩, ⟨.primitive (.int 5), []⟩, ⟨.primitive (.int 6), []⟩]⟩ 0 aged 0 {} =
        .ok r := ⟨_, rfl⟩
  exact ⟨r, validated, (validateNode_warnings validated).1.trans rfl⟩

end DocSchema
