import DocSchema.Proofs.Deprecations
import DocSchema.Proofs.Located
import DocSchema.Proofs.Relocation

set_option autoImplicit false

namespace DocSchema

/-- Whether nothing is wrong but that required values are missing. -/
def OnlyHoles (errors : List Finding) : Prop :=
  ∀ e ∈ errors, e.mismatch = .missingValue

namespace OnlyHoles

variable {errors others : List Finding}

theorem append_iff : OnlyHoles (errors ++ others) ↔ OnlyHoles errors ∧ OnlyHoles others :=
  List.forall_mem_append

theorem missing (holes : List Call) : OnlyHoles (Findings.missing holes).errors := by
  intro e member
  obtain ⟨c, -, rfl⟩ := List.mem_map.1 member
  rfl

/-- Parts of what was found have no errors of other kinds. -/
theorem gathered {f own g : Findings} {gs : List Findings} (clean : OnlyHoles f.errors)
    (gathers : f.Gathers own gs) (part : g ∈ gs) : OnlyHoles g.errors :=
  fun e member => clean e (gathers.errors g part e member)

/-- The limit on nesting was not met. -/
theorem uncut {f : Findings} (clean : OnlyHoles f.errors) : ¬ f.IsCut := by
  rintro ⟨e, member, kind⟩
  rw [clean e member] at kind
  exact absurd kind (by decide)

/-- The same errors at other paths are of the same kinds. -/
theorem of_translated {τ : Translation} {f g : Findings} (finds : τ.Finds f g)
    (clean : OnlyHoles g.errors) :
    OnlyHoles f.errors := by
  intro e member
  rw [finds.errors] at clean
  exact clean (τ.error e) (List.mem_map_of_mem member)

end OnlyHoles

section Record

variable {w : Walk} {s : Site} {f : Findings}

/-- Where no key is reported, every key is spelled like a known name. -/
theorem unknownFields_known {isKnown : Bytes → Bool} {entries : List (Key × Site)}
    (logged : (unknownFields isKnown entries).log = .ok ((), f)) (clean : OnlyHoles f.errors) :
    ∀ e ∈ entries, ∃ name, e.1.spelling? = some name ∧ isKnown name = true := by
  induction entries generalizing f with
  | nil => simp
  | cons e entries ih =>
      obtain ⟨⟨⟩, before, after, first, rest, rfl⟩ := Walker.bind_log logged
      obtain ⟨known, others⟩ := OnlyHoles.append_iff.1 clean
      rw [Check.log_expect] at first
      cases first
      refine List.forall_mem_cons.2 ⟨?_, ih rest others⟩
      cases holds : e.1.spelling?.any isKnown with
      | true => exact (Option.any_eq_true _ _).1 holds
      | false =>
          rw [holds] at known
          exact nomatch known _ List.mem_cons_self

/-- A closed record of which only missing values are reported is a map whose keys are all spelled
like fields, or like the tag, and whose fields have only such errors. -/
theorem Walk.record_closed {fields : List (Field SchemaId)} {tag : Option Bytes}
    (logged : (w.record fields false tag s).log = .ok ((), f)) (clean : OnlyHoles f.errors) :
    (∃ entries, s.entries? = some entries ∧ ∀ e ∈ entries, ∃ name, e.1.spelling? = some name ∧
      (tag = some name ∨ ∃ x ∈ fields, x.name = name)) ∧
      ∀ x ∈ fields, ∀ part, s.field? x.name = some part →
        ∃ g, (w.check x.schema part).log = .ok ((), g) ∧ OnlyHoles g.errors := by
  constructor
  · unfold Walk.record at logged
    cases found : s.entries? with
    | none =>
        rw [found] at logged
        cases logged
        exact nomatch clean _ List.mem_cons_self
    | some entries =>
        rw [found] at logged
        obtain ⟨⟨⟩, before, after, -, rest, rfl⟩ := Walker.bind_log logged
        refine ⟨entries, rfl, fun e member => ?_⟩
        obtain ⟨name, spelled, known⟩ :=
          unknownFields_known rest (OnlyHoles.append_iff.1 clean).2 e member
        exact ⟨name, spelled, by simpa using known⟩
  · intro x member part found
    obtain ⟨gs, each, gathers⟩ := Walk.record_makes fields false tag 0 f logged
    have called : (x.schema, part, x.isOptional) ∈ s.required [] 0 (.record fields false) :=
      List.mem_filterMap.2 ⟨x, member, by rw [found]; rfl⟩
    obtain ⟨g, listed, checked⟩ := exists_of_mem_right each.flip _ called
    exact ⟨g, checked, clean.gathered gathers listed⟩

end Record

namespace Schema

variable {schema : Schema} {settings : Settings} {level : Nat} {id target : SchemaId}
  {node : SchemaNode}
  {s : Site} {f : Findings} {u : Use}

/-- A check that ends without meeting the limit is against a type of the schema. -/
theorem contains_of_check (logged : (schema.check settings level id s).log = .ok ((), f))
    (uncut : ¬ f.IsCut) :
    schema.contains id = true := by
  cases level with
  | zero => exact absurd (isCut_of_check_zero logged) uncut
  | succ level =>
      by_contra outside
      have missing := resolve_outside (Bool.eq_false_iff.2 outside)
      rcases check_resolves logged with ⟨name, dangling⟩ | ⟨target, node, found⟩
      · cases missing.symm.trans dangling
      · cases missing.symm.trans found

/-- The check of a filled value finds all that the check of its shape does. -/
theorem check_shape (resolved : schema.resolve id = .found target node)
    (filled : s.value.content.isHole = false)
    (logged : (schema.check settings (level + 1) id s).log = .ok ((), f)) :
    ∃ g, ((schema.walk settings level).shape target s node.shape).log = .ok ((), g) ∧
      f.errors = g.errors := by
  rw [check_log resolved, filled] at logged
  obtain ⟨⟨⟩, before, after, warned, rest, rfl⟩ := Walker.bind_log logged
  rw [deprecation_log] at warned
  cases warned
  exact ⟨after, rest, rfl⟩

/-- Whether a type is a variant of a union that has the tag of this name inside. -/
def HasTag (schema : Schema) (id : SchemaId) (name : Bytes) : Prop :=
  ∃ union variants metadata,
    schema.node? union = some ⟨.union variants (.internal name), metadata⟩ ∧
    ∃ v ∈ variants, v.schema = id

/-- A variant that a tag shares the map with is chosen for the value of the union, and the tag is
inside. -/
theorem mem_shared (member : u ∈
    (schema.shared settings level id s).map fun (id, s) => (⟨id, s, true⟩ : Use)) :
    ∃ target variants representation metadata c name f, schema.resolve id =
        .found target ⟨.union variants representation, metadata⟩ ∧
      ((schema.walk settings level).dispatch ⟨target, variants, representation⟩ s).log =
        .ok (some c, f) ∧
      c.tag = some name ∧ schema.HasTag c.variant.schema name ∧ c.target = s ∧
      u = ⟨c.variant.schema, s, true⟩ := by
  obtain ⟨⟨variant, content⟩, listed, rfl⟩ := List.mem_map.1 member
  unfold shared at listed
  split at listed
  case h_1 target variants representation metadata resolved =>
    split at listed
    case h_1 v site name chosen =>
      split at listed
      case h_1 node found =>
        split at listed
        case isTrue =>
          cases List.mem_singleton.1 listed
          obtain ⟨f, dispatched⟩ := Walk.dispatch_of_chosen chosen
          have fits := (Walk.picks_dispatch _ _ s _ f dispatched).1 _ rfl
          obtain ⟨same, inside⟩ := fits.tagged name rfl
          have same : content = s := same
          have inside : representation = .internal name := inside
          subst same inside
          exact ⟨target, variants, _, metadata, _, name, f, resolved, dispatched, rfl,
            ⟨target, variants, metadata, (resolve_found resolved).1, v, fits.variant, rfl⟩, rfl,
            rfl⟩
        case isFalse => cases listed
      case h_2 => cases listed
    case h_2 => cases listed
  case h_2 => cases listed

/-- A variant that a tag shares the map with is walked over as a record together with the tag. -/
theorem shared_record {fields : List (Field SchemaId)} {allowsUnknown : Bool} {metadata : Metadata}
    (logged : (schema.check settings (level + 1) id s).log = .ok ((), f))
    (clean : OnlyHoles f.errors)
    (member : u ∈ (schema.shared settings level id s).map fun (id, s) => (⟨id, s, true⟩ : Use))
    (resolved : schema.resolve u.type = .found target ⟨.record fields allowsUnknown, metadata⟩)
    (filled : u.site.value.content.isHole = false) :
    ∃ name g, ((schema.walk settings level).record fields allowsUnknown (some name) u.site).log =
      .ok ((), g) ∧
      OnlyHoles g.errors ∧ u.isShared = true ∧ schema.HasTag u.type name := by
  obtain ⟨union, variants, representation, data, c, name, quiet, found, dispatched, tagged, hasTag,
    content, rfl⟩ :=
    mem_shared member
  obtain ⟨g, shaped, same⟩ := check_shape found filled logged
  obtain ⟨choice, before, after, again, rest, rfl⟩ := Walker.bind_log shaped
  cases dispatched.symm.trans again
  obtain ⟨⟨⟩, selected, walked, -, variant, rfl⟩ := Walker.bind_log rest
  rw [tagged, content] at variant
  obtain ⟨type, followed, recorded, follows, record, rfl⟩ := Walker.bind_log variant
  cases (follow_log resolved).symm.trans follows
  rw [same] at clean
  obtain ⟨-, clean⟩ := OnlyHoles.append_iff.1 clean
  obtain ⟨-, clean⟩ := OnlyHoles.append_iff.1 clean
  exact ⟨name, recorded, record, (OnlyHoles.append_iff.1 clean).2, rfl, hasTag⟩

/-- A filled value that the structural pass checks against a record is walked over as a record,
maybe together with a tag; what the walk finds, the pass finds. -/
theorem usage_record {fields : List (Field SchemaId)} {allowsUnknown : Bool} {metadata : Metadata}
    (logged : (schema.check settings level id s).log = .ok ((), f)) (clean : OnlyHoles f.errors)
    (used : u ∈ schema.usages settings level id s)
    (resolved : schema.resolve u.type = .found target ⟨.record fields allowsUnknown, metadata⟩)
    (filled : u.site.value.content.isHole = false) :
    ∃ below < level, ∃ tag g,
      ((schema.walk settings below).record fields allowsUnknown tag u.site).log = .ok ((), g) ∧
      OnlyHoles g.errors ∧ (u.isShared = false → tag = none) ∧
      ∀ name ∈ tag, schema.HasTag u.type name := by
  induction level generalizing id s f with
  | zero => cases used
  | succ level ih =>
      rw [usages] at used
      rcases List.mem_append.1 used with here | below
      · rcases List.mem_cons.1 here with rfl | shared
        · obtain ⟨g, shaped, same⟩ := check_shape resolved filled logged
          exact ⟨level, Nat.lt_succ_self level, none, g, shaped, same ▸ clean,
            fun _ => rfl, by simp⟩
        · obtain ⟨name, g, record, clean, isShared, hasTag⟩ :=
            shared_record logged clean shared resolved filled
          exact ⟨level, Nat.lt_succ_self level, some name, g, record, clean,
            by simp [isShared], by simpa using hasTag⟩
      · obtain ⟨c, called, inside⟩ := List.mem_flatMap.1 below
        obtain ⟨gs, each, gathers⟩ := check_gathers logged
        obtain ⟨g, listed, checked⟩ := exists_of_mem_right each.flip c called
        obtain ⟨below, less, rest⟩ := ih checked (clean.gathered gathers listed) inside
        exact ⟨below, Nat.lt_succ_of_lt less, rest⟩

section Places

variable {d : Document} {n : NodeId} (ordered : d.IsOrdered)
include ordered

/-- What a variant calls for are nodes of the document. -/
theorem variantCalls_isAt {tag : Option Bytes} (placed : s.IsAt d n) :
    ∀ c ∈ (schema.walk settings level).variantCalls id tag s, c.2.1.IsAt d n := by
  unfold Walk.variantCalls
  split
  · simpa using placed
  · split
    · exact required_isAt ordered _ (List.forall_mem_nil _) placed _
    · simp
    · simpa using placed
  · simp

/-- The structural pass only goes on to nodes of the document. -/
theorem calls_isAt (placed : s.IsAt d n) :
    ∀ c ∈ schema.calls settings level id s, c.2.1.IsAt d n := by
  unfold calls
  split
  · next target node resolved =>
    split
    · simp
    · cases plain : node.shape.isUnion with
      | false =>
          rw [Walk.calls_plain plain]
          exact required_isAt ordered target (List.forall_mem_nil _) placed node.shape
      | true =>
          obtain ⟨shape, metadata⟩ := node
          cases shape with
          | union variants representation =>
              dsimp only [Walk.calls]
              cases chosen : (schema.walk settings level).chosen? ⟨target, variants, representation⟩ s with
              | none => simp
              | some c =>
                  obtain ⟨f, logged⟩ := Walk.dispatch_of_chosen chosen
                  have content := (Walk.dispatch_locates ordered placed _ f logged).1 c rfl
                  exact variantCalls_isAt ordered content
          | _ => cases plain
  · simp

/-- All values that the structural pass checks are those of nodes. -/
theorem usages_isAt (placed : s.IsAt d n) :
    ∀ u ∈ schema.usages settings level id s, u.site.IsAt d n := by
  induction level generalizing id s with
  | zero => simp [usages]
  | succ level ih =>
      intro u used
      rw [usages] at used
      rcases List.mem_append.1 used with here | below
      · rcases List.mem_cons.1 here with rfl | shared
        · exact placed
        · obtain ⟨_, _, _, _, _, _, _, -, -, -, -, -, rfl⟩ := mem_shared shared
          exact placed
      · obtain ⟨c, called, inside⟩ := List.mem_flatMap.1 below
        exact ih (calls_isAt ordered placed c called) u inside

end Places

end Schema

/-- A value that was checked in the course of a validation, with missing values as its only errors,
has no others if it is validated on its own. -/
theorem validateNode_alone {d : Document} {m : NodeId} {schema : Schema} {id : SchemaId}
    {settings : Settings}
    {level : Nat} {s : Site} {f : Findings} (explicit : settings.isLenient = false)
    (unlimited : settings.maxErrors = 0) (value : s.value = d.valueAt m)
    (logged : (schema.check settings level id s).log = .ok ((), f)) (clean : OnlyHoles f.errors)
    (within : level ≤ settings.maxDepth) :
    ∃ r, validateNode d m schema id settings = .ok r ∧ OnlyHoles r.errors := by
  have inside := Schema.contains_of_check logged clean.uncut
  have moved :=
    (schema.translated_below s.path s.position).check settings level id ⟨d.valueAt m, [], []⟩
  have same : (Translation.below s.path s.position).site ⟨d.valueAt m, [], []⟩ = s := by
    rw [← value]
    simp [Translation.site, Translation.below]
  rw [same] at moved
  cases moved with
  | failed left right => cases logged.symm.trans right
  | @found a g g' left right finds =>
      cases logged.symm.trans right
      have clean := clean.of_translated finds
      have checked := Schema.check_deeper settings explicit explicit left clean.uncut within
      obtain ⟨holes, -, -, searched, -⟩ :=
        Schema.complete_deeper explicit (.root_self (d.valueAt m) []) checked clean.uncut
          (Nat.le_refl _)
      exact ⟨_, validateNode_of_logs unlimited inside checked searched,
        OnlyHoles.append_iff.2 ⟨clean, .missing holes⟩⟩

/-- What is known of the entries of a map that a closed record admits: each is spelled like a field,
or like the tag, and the first one that is spelled like a field has, on its own, no errors but
missing values. -/
structure Document.IsClosed (d : Document) (schema : Schema) (settings : Settings)
    (fields : List (Field SchemaId))
    (tag : Option Bytes) (entries : List (Key × NodeId)) : Prop where
  declared : ∀ e ∈ entries,
    ∃ name, e.1.spelling? = some name ∧ (tag = some name ∨ ∃ f ∈ fields, f.name = name)
  valid : ∀ before key child after, entries = before ++ (key, child) :: after →
    (∀ e ∈ before, e.1.spelling? ≠ key.spelling?) → ∀ f ∈ fields, key.spelling? = some f.name →
      ∃ r, validateNode d child schema f.schema settings = .ok r ∧ OnlyHoles r.errors

/-- The first entry of a spelling is the one that is looked up. -/
theorem Content.field?_first {α : Type} {before after : List (Key × α)} {key : Key} {child : α}
    {name : Bytes}
    (first : ∀ e ∈ before, e.1.spelling? ≠ key.spelling?) (spelled : key.spelling? = some name) :
    (Content.map (before ++ (key, child) :: after)).field? name = some child := by
  have others : before.find? (fun e => e.1.spelling? == some name) = none := by
    rw [List.find?_eq_none]
    intro e member same
    exact first e member (spelled ▸ eq_of_beq same)
  rw [Content.field?, Content.entries?, Option.bind_some, List.find?_append, others, Option.none_or,
    List.find?_cons_of_pos (by simp [spelled])]
  rfl

/-- If a validation reports nothing but missing values, every map that is checked against a closed
record is made up of its fields: no entry is spelled otherwise, but for a tag that shares the map,
and the first entry of each spelling has no other errors when it is validated on its own. -/
theorem validateNode_closed {d : Document} (built : d.IsBuilt) {n : NodeId} {schema : Schema}
    {id : SchemaId}
    {settings : Settings} (explicit : settings.isLenient = false)
    (unlimited : settings.maxErrors = 0) {r : Report}
    (validated : validateNode d n schema id settings = .ok r) (clean : OnlyHoles r.errors) {u : Use}
    (used : u ∈ schema.usages settings settings.maxDepth id ⟨d.valueAt n, [], []⟩)
    {target : SchemaId} {fields : List (Field SchemaId)} {metadata : Metadata}
    (closed : schema.resolve u.type = .found target ⟨.record fields false, metadata⟩)
    (filled : u.site.value.content.isHole = false) :
    ∃ m entries tag, d.Leads n u.site.path m ∧ (d.node m).content = .map entries ∧
      (u.isShared = false → tag = none) ∧ (∀ name ∈ tag, schema.HasTag u.type name) ∧
      d.IsClosed schema settings fields tag entries := by
  have ordered := built.isOrdered
  obtain ⟨f, found, -⟩ := exists_findings validated
  obtain ⟨inside, structural, holes, checked, searched, -⟩ := findings_of_passes found
  cases (validateNode_of_logs unlimited inside checked searched).symm.trans validated
  obtain ⟨level, less, tag, g, recorded, quiet, alone, tagged⟩ :=
    Schema.usage_record checked (OnlyHoles.append_iff.1 clean).1 used closed filled
  obtain ⟨⟨sites, entries?, declared⟩, checks⟩ := Walk.record_closed recorded quiet
  obtain ⟨m, leads, content, -⟩ := (Schema.usages_isAt ordered (.root d n) u used).node ordered
  cases map : (d.node m).content with
  | map entries =>
      rw [map] at content
      obtain ⟨sites', same, parts⟩ := Site.entries?_map content
      cases entries?.symm.trans same
      refine ⟨m, entries, tag, leads, map, alone, tagged, fun e member => ?_, ?_⟩
      · have listed : (e.1, d.valueAt e.2) ∈ sites.map fun e => (e.1, e.2.value) :=
          parts ▸ List.mem_map_of_mem member
        obtain ⟨site, member, equal⟩ := List.mem_map.1 listed
        rw [← congrArg Prod.fst equal]
        exact declared site member
      · rintro before key child after rfl first f member spelled
        have value := u.site.field?_value f.name
        rw [content, Content.field?_mapParts, Content.field?_first first spelled] at value
        obtain ⟨part, looked, value⟩ := Option.map_eq_some_iff.1 value
        obtain ⟨h, logged, clean⟩ := checks f member part looked
        exact validateNode_alone explicit unlimited value logged clean (Nat.le_of_lt less)
  | _ =>
      rw [Site.entries?, content, map] at entries?
      cases entries?

/-- A map with two entries that are spelled alike, the second one with a text. -/
private def doubled : Document :=
  ⟨#[⟨.map [(.ident "x", 1), (.literal (.text "x"), 2)], []⟩, ⟨.primitive (.int 5), []⟩,
    ⟨.primitive (.text ⟨"a", .plaintext⟩), []⟩]⟩

private theorem doubled_isBuilt : doubled.IsBuilt :=
  .of_run [.insert 0 (.ident "x"), .assign 1 (.int 5), .insert 0 (.literal (.text "x")),
    .assign 2 (.text ⟨"a", .plaintext⟩)] rfl rfl

private def counting : Schema where
  nodes := #[⟨.integer {} none, {}⟩, ⟨.record [⟨"x", 0, false⟩] false, {}⟩]

/-- No error is reported, though the second entry is of the wrong type on its own. -/
theorem validateNode_closed_doubled :
    doubled.IsBuilt ∧ validateNode doubled 0 counting 1 {} = .ok ⟨[], [], false, false⟩ ∧
      (∃ m entries, doubled.Leads 0 [] m ∧ (doubled.node m).content = .map entries ∧
        doubled.IsClosed counting {} [⟨"x", 0, false⟩] none entries) ∧
      validateNode doubled 2 counting 0 {} =
        .ok ⟨[⟨[], .wrongKind "integer" "text"⟩], [], false, false⟩ := by
  have validated : validateNode doubled 0 counting 1 {} = .ok ⟨[], [], false, false⟩ := rfl
  have used : (⟨1, ⟨doubled.valueAt 0, [], []⟩, false⟩ : Use) ∈
      counting.usages {} 256 1 ⟨doubled.valueAt 0, [], []⟩ :=
        List.mem_append_left _ List.mem_cons_self
  obtain ⟨m, entries, tag, leads, map, alone, -, closed⟩ :=
    validateNode_closed doubled_isBuilt rfl rfl validated (List.forall_mem_nil _) used rfl rfl
  cases alone rfl
  exact ⟨doubled_isBuilt, validated, ⟨m, entries, leads, map, closed⟩, rfl⟩

end DocSchema
