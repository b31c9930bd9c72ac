import DocSchema.Proofs.Origins

set_option autoImplicit false

namespace DocSchema

namespace Walk

variable {w w' : Walk} {id : SchemaId} {s : Site}

/-- The variant that a union chooses for a value, if it chooses one. -/
def chosen? (w : Walk) (u : UnionType) (s : Site) : Option Choice :=
  match (w.dispatch u s).log with
  | .ok (choice, _) => choice
  | .error _ => none

/-- The calls of the check of a variant. A record that is checked together with its tag calls for
its fields at once. -/
def variantCalls (w : Walk) (id : SchemaId) (tag : Option Bytes) (s : Site) : List Call :=
  match tag, w.schema.resolve id with
  | none, _ => [(id, s, false)]
  | some _, .found target node =>
    match node.shape with
    | .record fields allowsUnknown => s.required [] target (.record fields allowsUnknown)
    | .null => []
    | _ => [(id, s, false)]
  | some _, _ => []

/-- The calls of the check against a type that is no reference, but for trials. -/
def calls (w : Walk) (id : SchemaId) (s : Site) : Shape SchemaId → List Call
  | .union variants representation =>
    (w.chosen? ⟨id, variants, representation⟩ s).elim [] fun c =>
      w.variantCalls c.variant.schema c.tag c.target
  | shape => s.required [] id shape

/-- The variant that the check itself selects, if it does. -/
def choices (w : Walk) (id : SchemaId) (s : Site) : Shape SchemaId → List Selection
  | .union variants representation =>
    (w.chosen? ⟨id, variants, representation⟩ s).toList.map fun c =>
      ⟨s.position, id, c.variant.schema, c.target⟩
  | _ => []

theorem chosen?_eq {u : UnionType} {choice : Option Choice} {f : Findings}
    (logged : (w.dispatch u s).log = .ok (choice, f)) : w.chosen? u s = choice := by
  unfold chosen?
  rw [logged]

theorem dispatch_of_chosen {u : UnionType} {c : Choice} (chosen : w.chosen? u s = some c) :
    ∃ f, (w.dispatch u s).log = .ok (some c, f) := by
  unfold chosen? at chosen
  split at chosen
  · next choice f logged => exact ⟨f, chosen ▸ logged⟩
  · cases chosen

theorem calls_union {variants : List (Variant SchemaId)} {representation : Representation}
    {choice : Option Choice} {f : Findings}
    (logged : (w.dispatch ⟨id, variants, representation⟩ s).log = .ok (choice, f)) :
    w.calls id s (.union variants representation) =
      choice.elim [] fun c => w.variantCalls c.variant.schema c.tag c.target := by
  dsimp only [calls]
  rw [chosen?_eq logged]

theorem choices_union {variants : List (Variant SchemaId)} {representation : Representation}
    {choice : Option Choice} {f : Findings}
    (logged : (w.dispatch ⟨id, variants, representation⟩ s).log = .ok (choice, f)) :
    w.choices id s (.union variants representation) =
      choice.toList.map fun c => ⟨s.position, id, c.variant.schema, c.target⟩ := by
  dsimp only [choices]
  rw [chosen?_eq logged]

theorem calls_plain {shape : Shape SchemaId} (plain : shape.isUnion = false) :
    w.calls id s shape = s.required [] id shape := by
  cases shape with
  | union variants representation => cases plain
  | _ => rfl

theorem choices_plain {shape : Shape SchemaId} (plain : shape.isUnion = false) :
    w.choices id s shape = [] := by
  cases shape with
  | union variants representation => cases plain
  | _ => rfl

/-- The end of the references from a type is what the search for it finds. -/
theorem follow_resolves (schema : Schema) (id : SchemaId) (path : Path) :
    Walker.Ensures
      (fun
        | none => ∃ name, schema.resolve id = .dangling name
        | some found => schema.resolve id = .found found.1 found.2)
      (Walker.follow schema id path) := by
  intro found f logged
  refine ⟨?_, (Walker.follow_ensures schema id path found f logged).2⟩
  cases found with
  | none => exact Schema.follow_none logged
  | some found => exact Schema.follow_some logged

theorem variant_makes (tag : Option Bytes) :
    w.Makes (w.variantCalls id tag s) (w.variant id tag s) := by
  cases tag with
  | none => exact .call id s false
  | some name =>
      refine .before (follow_resolves w.schema id s.path) fun found resolved => ?_
      unfold variantCalls
      cases found with
      | none =>
          obtain ⟨name, dangling⟩ := resolved
          rw [dangling]
          exact .none (.pure trivial)
      | some found =>
          obtain ⟨target, shape, metadata⟩ := found
          rw [resolved]
          cases shape with
          | record fields allowsUnknown =>
              exact record_makes fields allowsUnknown (some name) target
          | null => exact .none (unknownFields_ensures _ _)
          | _ => exact .call id s false

/-- The check makes its calls, and finds what they find, besides reports and the variant that it
selects. -/
theorem shape_gathers {shape : Shape SchemaId} {f : Findings}
    (logged : (w.shape id s shape).log = .ok ((), f)) :
    ∃ gs, List.Forall₂ (fun c g => (w.check c.1 c.2.1).log = .ok ((), g)) (w.calls id s shape) gs ∧
      f.Gathers { selections := w.choices id s shape } gs := by
  cases plain : shape.isUnion with
  | false =>
      rw [calls_plain plain, choices_plain plain]
      exact shape_makes id plain f logged
  | true =>
      cases shape with
      | union variants representation =>
          obtain ⟨choice, before, after, dispatched, rest, rfl⟩ := Walker.bind_log logged
          obtain ⟨-, silent⟩ :=
            picks_dispatch w ⟨id, variants, representation⟩ s choice before dispatched
          rw [calls_union dispatched, choices_union dispatched]
          cases choice with
          | none =>
              cases rest
              exact ⟨[], .nil, silent.gathers.append Findings.AreReports.empty.gathers⟩
          | some c =>
              obtain ⟨⟨⟩, selected, after, kept, checked, rfl⟩ := Walker.bind_log rest
              obtain ⟨gs, each, gathers⟩ := variant_makes c.tag after checked
              cases kept
              refine ⟨gs, each, .after silent
                ⟨gathers.warnings, ?_, ?_, fun g member e inside => ?_⟩⟩
              · exact congrArg _ gathers.selections
              · rw [Findings.isIncomplete_append, gathers.isIncomplete, Bool.false_or]
              · exact List.mem_append_right _ (gathers.errors g member e inside)
      | _ => cases plain

theorem record_congr {fields : List (Field SchemaId)} {allowsUnknown : Bool} {tag : Option Bytes}
    (id : SchemaId) (same : ∀ c ∈ s.required [] id (.record fields allowsUnknown),
      (w.check c.1 c.2.1).log = (w'.check c.1 c.2.1).log) :
    (w.record fields allowsUnknown tag s).log = (w'.record fields allowsUnknown tag s).log := by
  unfold Walk.record
  cases s.entries? with
  | none => rfl
  | some entries =>
      refine Walker.log_bind_congr (Walker.log_forM_congr fun f member => ?_) fun _ _ _ => rfl
      unfold Walk.field
      cases found : s.field? f.name with
      | none => rfl
      | some part =>
          exact same (f.schema, part, f.isOptional)
            (List.mem_filterMap.2 ⟨f, member, by rw [found]; rfl⟩)

/-- The check of a variant calls for the variant, or, if a tag shares its map, for its parts. -/
theorem variantCalls_cases {tag : Option Bytes} {f : Findings}
    (logged : (w.variant id tag s).log = .ok ((), f)) :
    w.variantCalls id tag s = [(id, s, false)] ∨
      tag ≠ none ∧ ((∃ name, w.schema.resolve id = .dangling name) ∧ w.variantCalls id tag s = [] ∨
        ∃ target node, w.schema.resolve id = .found target node ∧ node.shape.holdsTag = true ∧
          w.variantCalls id tag s = s.required [] target node.shape) := by
  cases tag with
  | none => exact .inl rfl
  | some name =>
      obtain ⟨found, before, after, followed, -, -⟩ := Walker.bind_log logged
      have resolved := (follow_resolves w.schema id s.path found before followed).1
      unfold variantCalls
      cases found with
      | none =>
          obtain ⟨other, dangling⟩ := resolved
          rw [dangling]
          exact .inr ⟨nofun, .inl ⟨⟨other, rfl⟩, rfl⟩⟩
      | some found =>
          obtain ⟨target, shape, metadata⟩ := found
          rw [resolved]
          cases shape with
          | record fields allowsUnknown => exact .inr ⟨nofun, .inr ⟨target, _, rfl, rfl, rfl⟩⟩
          | null => exact .inr ⟨nofun, .inr ⟨target, _, rfl, rfl, rfl⟩⟩
          | _ => exact .inl rfl

section Congruence

variable (schemas : w.schema = w'.schema)
include schemas

theorem variantCalls_congr (id : SchemaId) (tag : Option Bytes) (s : Site) :
    w.variantCalls id tag s = w'.variantCalls id tag s := by
  unfold variantCalls
  rw [schemas]

/-- If trials come out alike then the calls are the same. -/
theorem calls_congr (trials : ∀ u, (w.dispatch u s).log = (w'.dispatch u s).log) (id : SchemaId)
    (shape : Shape SchemaId) : w.calls id s shape = w'.calls id s shape := by
  cases shape with
  | union variants representation =>
      have chosen : w.chosen? ⟨id, variants, representation⟩ s =
          w'.chosen? ⟨id, variants, representation⟩ s := by
        rw [chosen?, chosen?, trials]
      simp only [calls, chosen, variantCalls_congr schemas]
  | _ => rfl

omit schemas in
theorem choices_congr (trials : ∀ u, (w.dispatch u s).log = (w'.dispatch u s).log) (id : SchemaId)
    (shape : Shape SchemaId) : w.choices id s shape = w'.choices id s shape := by
  cases shape with
  | union variants representation => simp only [choices, chosen?, trials]
  | _ => rfl

theorem variant_congr {tag : Option Bytes}
    (same : ∀ c ∈ w.variantCalls id tag s, (w.check c.1 c.2.1).log = (w'.check c.1 c.2.1).log) :
    (w.variant id tag s).log = (w'.variant id tag s).log := by
  unfold variantCalls at same
  cases tag with
  | none => exact same (id, s, false) List.mem_cons_self
  | some name =>
      unfold Walk.variant
      dsimp only
      rw [← schemas]
      refine Walker.log_bind_congr rfl fun found f followed => ?_
      cases found with
      | none => rfl
      | some found =>
          obtain ⟨target, shape, metadata⟩ := found
          rw [Schema.follow_some followed] at same
          cases shape with
          | record fields allowsUnknown => exact record_congr _ same
          | null => rfl
          | _ => exact same (id, s, false) List.mem_cons_self

/-- The check of one level below matters only for the calls, and for the trials of unions. -/
theorem shape_congr {shape : Shape SchemaId}
    (trials : ∀ u, (w.dispatch u s).log = (w'.dispatch u s).log)
    (same : ∀ c ∈ w.calls id s shape, (w.check c.1 c.2.1).log = (w'.check c.1 c.2.1).log) :
    (w.shape id s shape).log = (w'.shape id s shape).log := by
  cases shape with
  | record fields allowsUnknown => exact record_congr id same
  | array item length isUnique =>
      unfold Walk.shape Walk.array
      dsimp only
      cases found : s.array? with
      | none => rfl
      | some items =>
          refine Walker.log_bind_congr rfl fun _ _ _ => Walker.log_bind_congr ?_ fun _ _ _ => rfl
          refine Walker.log_forM_congr fun part member => same (item, part, false) ?_
          exact List.mem_map.2 ⟨part, by rwa [found], rfl⟩
  | map key value size =>
      unfold Walk.shape Walk.map
      dsimp only
      cases found : s.entries? with
      | none => rfl
      | some entries =>
          refine Walker.log_bind_congr rfl fun _ _ _ => Walker.log_forM_congr fun e member => ?_
          rw [← schemas]
          refine Walker.log_bind_congr rfl fun _ _ _ => same (value, e.2, false) ?_
          exact List.mem_map.2 ⟨e, by rwa [found], rfl⟩
  | tuple elements =>
      unfold Walk.shape Walk.tuple
      dsimp only
      cases found : s.tuple? with
      | none => rfl
      | some sites =>
          refine Walker.log_bind_congr rfl fun _ _ _ => Walker.log_forM_congr fun e member => ?_
          refine same (e.1, e.2, false) (List.mem_map.2 ⟨e, ?_, rfl⟩)
          rwa [found]
  | union variants representation =>
      refine Walker.log_bind_congr (trials _) fun choice f dispatched => ?_
      cases choice with
      | none => rfl
      | some c =>
          refine Walker.log_bind_congr rfl
            fun _ _ _ => variant_congr schemas fun call member => same call ?_
          rwa [calls_union dispatched]
  | _ => rfl

end Congruence

/-- The check of a level, given that of the level below. -/
def level (w : Walk) (id : SchemaId) (s : Site) : Check := do
  match ← Walker.follow w.schema id s.path with
  | none => pure ()
  | some (target, node) =>
    if s.value.content.isHole then pure ()
    else do
      Check.deprecation (w.schema.isDeprecated id || node.metadata.isDeprecated) s.path
      w.shape target s node.shape

end Walk

namespace Schema

variable {schema : Schema} {settings : Settings} {level : Nat} {id target : SchemaId}
  {node : SchemaNode} {s : Site} {w : Walk}

theorem check_succ (schema : Schema) (settings : Settings) (level : Nat) (id : SchemaId)
    (s : Site) :
    schema.check settings (level + 1) id s = (schema.walk settings level).level id s := rfl

/-- The calls that the check of a value makes to the level below, but for trials. -/
def calls (schema : Schema) (settings : Settings) (level : Nat) (id : SchemaId) (s : Site) :
    List Call :=
  match schema.resolve id with
  | .found target node =>
    if s.value.content.isHole then [] else (schema.walk settings level).calls target s node.shape
  | _ => []

/-- The variant that the check of a value itself selects, if it does. -/
def choices (schema : Schema) (settings : Settings) (level : Nat) (id : SchemaId) (s : Site) :
    List Selection :=
  match schema.resolve id with
  | .found target node =>
    if s.value.content.isHole then [] else (schema.walk settings level).choices target s node.shape
  | _ => []

/-- Whether the check of a value warns of its type: if the type itself or the end of its references
is deprecated. The references between are not asked. -/
def warns (schema : Schema) (id : SchemaId) (s : Site) : Bool :=
  !s.value.content.isHole &&
    match schema.resolve id with
    | .found _ node => schema.isDeprecated id || node.metadata.isDeprecated
    | _ => false

/-- What the check of a value finds by itself, but for errors. -/
def notes (schema : Schema) (settings : Settings) (level : Nat) (id : SchemaId) (s : Site) :
    Findings where
  warnings := if schema.warns id s then [(s.path, .deprecated)] else []
  selections := schema.choices settings level id s

/-- The calls of the structural pass, each before those that it makes. -/
def visits (schema : Schema) (settings : Settings) : (level : Nat) → Call → List Call
  | 0, c => [c]
  | level + 1, c =>
    c :: (schema.calls settings level c.1 c.2.1).flatMap (schema.visits settings level)

theorem calls_found (resolved : schema.resolve id = .found target node)
    (filled : s.value.content.isHole = false) :
    schema.calls settings level id s = (schema.walk settings level).calls target s node.shape := by
  unfold calls
  rw [resolved]
  simp only [filled, Bool.false_eq_true, ↓reduceIte]

theorem choices_found (resolved : schema.resolve id = .found target node)
    (filled : s.value.content.isHole = false) :
    schema.choices settings level id s =
      (schema.walk settings level).choices target s node.shape := by
  unfold choices
  rw [resolved]
  simp only [filled, Bool.false_eq_true, ↓reduceIte]

theorem calls_hole (hole : s.value.content.isHole = true) :
    schema.calls settings level id s = [] := by
  unfold calls
  split
  · simp only [hole, ↓reduceIte]
  · rfl

theorem warns_found (resolved : schema.resolve id = .found target node)
    (filled : s.value.content.isHole = false) :
    schema.warns id s = (schema.isDeprecated id || node.metadata.isDeprecated) := by
  unfold warns
  rw [resolved, filled]
  rfl

theorem warns_hole (hole : s.value.content.isHole = true) : schema.warns id s = false := by
  unfold warns
  rw [hole]
  rfl

theorem choices_hole (hole : s.value.content.isHole = true) :
    schema.choices settings level id s = [] := by
  unfold choices
  split
  · simp only [hole, ↓reduceIte]
  · rfl

/-- A check that ends has come to the end of the references from its type. -/
theorem check_resolves {f : Findings}
    (logged : (schema.check settings (level + 1) id s).log = .ok ((), f)) :
    (∃ name, schema.resolve id = .dangling name) ∨
      ∃ target node, schema.resolve id = .found target node := by
  obtain ⟨found, before, after, followed, -, -⟩ := Walker.bind_log logged
  have resolved := (Walk.follow_resolves schema id s.path found before followed).1
  cases found with
  | none => exact .inl resolved
  | some found => exact .inr ⟨found.1, found.2, resolved⟩

section Substitution

variable (schemas : schema = w.schema)
  (trials : ∀ u, ((schema.walk settings level).dispatch u s).log = (w.dispatch u s).log)
include schemas trials

/-- Whatever the level below does, its trials apart, the check of a value makes its calls, and finds
what they find, besides reports, its own warning and the variant that it selects. -/
theorem level_gathers {f : Findings} (logged : (w.level id s).log = .ok ((), f)) :
    ∃ gs, List.Forall₂ (fun c g => (w.check c.1 c.2.1).log =
      .ok ((), g)) (schema.calls settings level id s) gs ∧
      f.Gathers (schema.notes settings level id s) gs := by
  obtain ⟨found, before, after, followed, rest, rfl⟩ := Walker.bind_log logged
  have walks : (schema.walk settings level).schema = w.schema := schemas
  rw [← schemas] at followed rest
  obtain ⟨resolved, silent⟩ := Walk.follow_resolves schema id s.path found before followed
  cases found with
  | none =>
      obtain ⟨name, dangling⟩ := resolved
      cases rest
      unfold calls notes warns choices
      rw [dangling, Bool.and_false]
      exact ⟨[], .nil, silent.gathers.append Findings.AreReports.empty.gathers⟩
  | some found =>
      obtain ⟨target, node⟩ := found
      cases hole : s.value.content.isHole with
      | true =>
          rw [calls_hole hole, notes, choices_hole hole, warns_hole hole]
          simp only [hole, ↓reduceIte] at rest
          cases rest
          exact ⟨[], .nil, silent.gathers.append Findings.AreReports.empty.gathers⟩
      | false =>
          rw [calls_found resolved hole, notes, choices_found resolved hole,
            warns_found resolved hole, Walk.calls_congr walks trials, Walk.choices_congr trials]
          simp only [hole, Bool.false_eq_true, ↓reduceIte] at rest
          obtain ⟨⟨⟩, warned, found, deprecated, checked, rfl⟩ := Walker.bind_log rest
          rw [deprecation_log] at deprecated
          cases deprecated
          obtain ⟨gs, each, gathers⟩ := Walk.shape_gathers checked
          refine ⟨gs, each, .after silent
            ⟨?_, gathers.selections, gathers.isIncomplete, gathers.errors⟩⟩
          rw [Findings.warnings_append, gathers.warnings]
          rfl

/-- And it depends on nothing else that the level below does. -/
theorem level_congr (same : ∀ c ∈ schema.calls settings level id s,
      (schema.check settings level c.1 c.2.1).log = (w.check c.1 c.2.1).log) :
    (schema.check settings (level + 1) id s).log = (w.level id s).log := by
  have walks : (schema.walk settings level).schema = w.schema := schemas
  rw [check_succ, Walk.level, Walk.level, ← schemas]
  refine Walker.log_bind_congr rfl fun found f followed => ?_
  cases found with
  | none => rfl
  | some found =>
      obtain ⟨target, node⟩ := found
      cases filled : s.value.content.isHole with
      | true => simp only [↓reduceIte]
      | false =>
          have resolved : schema.resolve id = .found target node := follow_some followed
          rw [calls_found resolved filled] at same
          exact Walker.log_bind_congr rfl fun _ _ _ => Walk.shape_congr walks trials same

end Substitution

theorem check_gathers {f : Findings}
    (logged : (schema.check settings (level + 1) id s).log = .ok ((), f)) :
    ∃ gs, List.Forall₂ (fun c g => (schema.check settings level c.1 c.2.1).log = .ok ((), g))
        (schema.calls settings level id s) gs ∧
      f.Gathers (schema.notes settings level id s) gs :=
  level_gathers rfl (fun _ => rfl) (check_succ schema settings level id s ▸ logged)

/-- The structural pass reports no required value as missing. -/
theorem check_complete {f : Findings}
    (logged : (schema.check settings level id s).log = .ok ((), f)) :
    f.isIncomplete = false := by
  induction level generalizing id s f with
  | zero =>
      cases logged
      rfl
  | succ level ih =>
      obtain ⟨gs, each, gathers⟩ := check_gathers logged
      rw [gathers.isIncomplete, List.any_eq_false]
      intro g member
      obtain ⟨c, -, ends⟩ := exists_of_mem_right each g member
      simp [ih ends]

end Schema

end DocSchema
