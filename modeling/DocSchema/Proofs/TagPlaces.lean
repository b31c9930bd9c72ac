import DocSchema.Proofs.Attaching
import DocSchema.Proofs.Dispatch
import DocSchema.Proofs.Shifting

set_option autoImplicit false

namespace DocSchema

/-- A map without a tag, with a place for a tag field among its entries and one for an extension
that names a variant. -/
structure TagPlaces (tag name : Bytes) where
  before : List (Key × Value)
  after : List (Key × Value)
  above : List (Bytes × Value)
  below : List (Bytes × Value)
  key : Key
  field : Value
  extension : Value
  /-- The map holds no tag field. -/
  untagged : ∀ e ∈ before ++ after, e.1.spelling? ≠ some tag
  /-- The map has no extension that names a variant. -/
  unextended : ∀ e ∈ above ++ below, e.1 ≠ utf8 "variant"
  spelled : key.spelling? = some tag
  field_names : ∃ t, field.text? = some t ∧ t.content = name
  extension_names : ∃ t, extension.text? = some t ∧ t.content = name

namespace TagPlaces

variable {tag name : Bytes} (m : TagPlaces tag name)

def extended : Value :=
  .node (.map (m.before ++ m.after)) (m.above ++ (utf8 "variant", m.extension) :: m.below)

def tagged : Value :=
  .node (.map (m.before ++ (m.key, m.field) :: m.after)) (m.above ++ m.below)

variable (path : Path) (position : List Nat)

/-- Whether an entry of the map is one of the map that has made room for the tag field. -/
structure EntryShifts (tag : Bytes) (base : List Nat) (n : Nat) (e f : Key × Site) : Prop where
  key : f.1 = e.1
  site : e.2.Shifts base n f.2
  untagged : e.1.spelling? ≠ some tag

/-- The tag field is put in between the entries, which stay the same. -/
theorem entries? : ∃ (first rest : List (Key × Site)) (field : Key × Site) (es : List (Key × Site)),
    (Site.mk m.extended path position).entries? = some es ∧
    (Site.mk m.tagged path position).entries? = some (first ++ field :: rest) ∧
    field.1 = m.key ∧ field.2.value = m.field ∧
    List.Forall₂ (EntryShifts tag position m.before.length) es (first ++ rest) := by
  let site (i : Nat) (e : Key × Value) : Key × Site :=
    (e.1, (Site.mk m.tagged path position).part i e.1.segment e.2)
  refine ⟨m.before.mapIdx site, m.after.mapIdx fun i => site (i + 1 + m.before.length),
    site m.before.length (m.key, m.field), (m.before ++ m.after).mapIdx site, rfl, ?_, rfl, rfl, ?_⟩
  · show some ((m.before ++ (m.key, m.field) :: m.after).mapIdx site) = _
    rw [List.mapIdx_append, List.mapIdx_cons, Nat.zero_add]
  · rw [List.mapIdx_append]
    have moves (i j : Nat) (e : Key × Value) (member : e ∈ m.before ++ m.after)
        (made : j = if i < m.before.length then i else i + 1) :
        EntryShifts tag position m.before.length (site i e) (site j e) :=
      ⟨rfl, ⟨rfl, rfl, i, [], rfl, by rw [made]; rfl⟩, m.untagged e member⟩
    apply List.rel_append
    · refine forall₂_mapIdx rfl fun i inside _ => moves i i _ ?_ (if_pos inside).symm
      exact List.mem_append_left _ (List.getElem_mem inside)
    · refine forall₂_mapIdx rfl fun i inside _ => moves _ _ _ ?_ ?_
      · exact List.mem_append_right _ (List.getElem_mem inside)
      · rw [if_neg (by omega)]
        omega

/-- Apart from the tag field, both maps have the same fields. -/
theorem field?_shifts {other : Bytes} (apart : other ≠ tag) :
    Option.Rel (Site.Shifts position m.before.length)
      ((Site.mk m.extended path position).field? other)
      ((Site.mk m.tagged path position).field? other) := by
  obtain ⟨first, rest, field, es, left, right, key, -, each⟩ := m.entries? path position
  have skipped : (first ++ field :: rest).find? (fun e => e.1.spelling? == some other) =
      (first ++ rest).find? fun e => e.1.spelling? == some other := by
    have unlike : (field.1.spelling? == some other) = false := by
      rw [key, m.spelled]
      simpa using apart.symm
    rw [List.find?_append, List.find?_append, List.find?_cons, unlike]
  unfold Site.field?
  rw [left, right, Option.bind_some, Option.bind_some, skipped]
  refine rel_map? (rel_find? each fun e f same => by rw [same.key]) fun e f same => ?_
  exact ⟨same.site.value, rfl, same.site.position⟩

/-- The map without the tag field has none. -/
theorem field?_extended : (Site.mk m.extended path position).field? tag = none := by
  obtain ⟨_, _, _, es, left, -, -, -, each⟩ := m.entries? path position
  unfold Site.field?
  rw [left, Option.bind_some, Option.map_eq_none_iff, List.find?_eq_none]
  intro e member
  obtain ⟨f, -, same⟩ := exists_of_mem_right each.flip e member
  simpa using same.untagged

/-- The map with the tag field has that one. -/
theorem field?_tagged : ∃ part, (Site.mk m.tagged path position).field? tag = some part ∧
    part.value = m.field := by
  obtain ⟨first, rest, field, es, -, right, key, value, each⟩ := m.entries? path position
  have found : (first ++ field :: rest).find? (fun e => e.1.spelling? == some tag) =
      some field := by
    have none : first.find? (fun e => e.1.spelling? == some tag) = none := by
      rw [List.find?_eq_none]
      intro f member
      obtain ⟨e, -, same⟩ := exists_of_mem_right each f (List.mem_append_left rest member)
      rw [same.key]
      simpa using same.untagged
    rw [List.find?_append, none, Option.none_or, List.find?_cons, key, m.spelled, beq_self_eq_true]
  unfold Site.field?
  rw [right, Option.bind_some, found]
  exact ⟨_, rfl, value⟩

theorem extension?_extended : m.extended.extension? "variant" = some m.extension := by
  have absent : lookup? (utf8 "variant") m.above = none := by
    rw [lookup?_eq_none, List.mem_map]
    rintro ⟨e, member, same⟩
    exact m.unextended e (List.mem_append_left _ member) same
  have none := Option.map_eq_none_iff.1 absent
  show lookup? (utf8 "variant") (m.above ++ (utf8 "variant", m.extension) :: m.below) = _
  rw [lookup?, List.find?_append, none, Option.none_or]
  simp

theorem extension?_tagged : m.tagged.extension? "variant" = none := by
  refine lookup?_eq_none.2 fun taken => ?_
  obtain ⟨e, member, same⟩ := List.mem_map.1 taken
  exact m.unextended e member same

/-- The unknown fields of a record are the same in both maps: the tag field is none. -/
theorem unknownFields_shifts (isKnown : Bytes → Bool) :
    ∃ es fs, (Site.mk m.extended path position).entries? = some es ∧
      (Site.mk m.tagged path position).entries? = some fs ∧
      (unknownFields (fun name => some tag == some name || isKnown name) fs).log =
        (unknownFields (fun name => none == some name || isKnown name) es).log := by
  obtain ⟨first, rest, field, es, left, right, key, -, each⟩ := m.entries? path position
  refine ⟨es, first ++ field :: rest, left, right, ?_⟩
  have known : field.1.spelling?.any (fun name => some tag == some name || isKnown name) =
      true := by
    simp [key, m.spelled]
  have skipped : (unknownFields (fun name => some tag == some name || isKnown name) (first ++ field :: rest)).log =
      (unknownFields (fun name => some tag == some name || isKnown name) (first ++ rest)).log := by
    rw [unknownFields_log, unknownFields_log, List.filter_append, List.filter_append,
      List.filter_cons, known]
    rfl
  rw [skipped]
  refine (Walker.log_forM_of_forall₂ (each.imp fun {e f} same => ?_)).symm
  have alike : f.1.spelling?.any (fun name => some tag == some name || isKnown name) =
      e.1.spelling?.any fun name => none == some name || isKnown name := by
    have apart := same.untagged
    rw [same.key]
    cases spelled : e.1.spelling? with
    | none => rfl
    | some other =>
        have apart : (some tag == some other) = false := by
          rw [spelled] at apart
          exact beq_eq_false_iff_ne.2 apart.symm
        rw [Option.any_some, Option.any_some, apart]
        rfl
  rw [alike, same.key, same.site.path]

variable (schema : Schema) (settings : Settings) (level : Nat)

/-- A record finds the same in both maps. -/
theorem record_shifts {fields : List (Field SchemaId)} (allowsUnknown : Bool)
    (undeclared : ∀ f ∈ fields, f.name ≠ tag) :
    ((schema.walk settings level).record fields allowsUnknown none
      ⟨m.extended, path, position⟩).Shifts position
      m.before.length
      ((schema.walk settings level).record fields allowsUnknown (some tag)
        ⟨m.tagged, path, position⟩) := by
  obtain ⟨es, fs, left, right, unknown⟩ :=
    m.unknownFields_shifts path position fun name => fields.any (·.name == name)
  unfold Walk.record
  rw [left, right]
  apply Walker.Shifts.bind
  · refine .forM fun f member => ?_
    unfold Walk.field
    rcases eq_of_rel (m.field?_shifts path position (undeclared f member)) with
      ⟨left, right⟩ | ⟨part, part', left, right, shifts⟩
    · rw [left, right]
      exact .of_ensures (Check.expect_ensures _ _ _) rfl
    · rw [left, right]
      exact shifts.check schema settings level f.schema
  · cases allowsUnknown with
    | true => exact .pure
    | false => exact .of_ensures (Walk.unknownFields_ensures _ es) unknown

/-- Both maps call for the same fields. -/
theorem required_shifts {fields : List (Field SchemaId)} (allowsUnknown : Bool)
    (undeclared : ∀ f ∈ fields, f.name ≠ tag) (table table' : List Selection) (id : SchemaId) :
    List.Forall₂ (Call.Shifts position m.before.length)
      ((Site.mk m.extended path position).required table id (.record fields allowsUnknown))
      ((Site.mk m.tagged path position).required table' id (.record fields allowsUnknown)) := by
  have same : List.Forall₂ (fun f g => g = f ∧ f.name ≠ tag) fields fields :=
    List.forall₂_same.2 fun f member => ⟨rfl, undeclared f member⟩
  refine List.rel_filterMap ?_ same
  intro f g same
  obtain ⟨rfl, apart⟩ := same
  exact rel_map? (m.field?_shifts path position apart) fun _ _ shifts => ⟨rfl, shifts, rfl⟩

variable {schema settings level path position} {u : UnionType} {v : Variant SchemaId}

/-- The extension chooses the variant for the whole map. -/
theorem dispatch_extended (w : Walk) (internal : u.representation = .internal tag)
    (declared : u.find? name = some v) :
    w.dispatch u ⟨m.extended, path, position⟩ =
      pure (some ⟨v, ⟨m.extended, path, position⟩, none⟩) := by
  obtain ⟨t, text, rfl⟩ := m.extension_names
  obtain ⟨_, _, _, es, entries, -⟩ := m.entries? path position
  unfold Walk.dispatch
  simp only [m.extension?_extended, text, internal, Walk.internal, entries, Option.isNone_some,
    Bool.false_eq_true, ↓reduceIte, m.field?_extended, Walk.byExtension, Walk.choose, declared]

/-- The tag field chooses the variant for the other fields of the map. -/
theorem dispatch_tagged (w : Walk) (internal : u.representation = .internal tag)
    (declared : u.find? name = some v) :
    w.dispatch u ⟨m.tagged, path, position⟩ =
      pure (some ⟨v, ⟨m.tagged, path, position⟩, some tag⟩) := by
  obtain ⟨t, text, rfl⟩ := m.field_names
  obtain ⟨_, _, _, es, -, entries, -⟩ := m.entries? path position
  obtain ⟨part, found, value⟩ := m.field?_tagged path position
  unfold Walk.dispatch
  simp only [m.extension?_tagged, internal, Walk.internal, entries, Option.isNone_some,
    Bool.false_eq_true, ↓reduceIte, found, Walk.withTag, value, text, Walk.agreed, Walk.conflicts,
    Option.any_none, Walk.choose,
    declared]

end TagPlaces

/-- The union finds what the check of the chosen variant does, after its selection. -/
theorem Walk.union_chosen {w : Walk} {u : UnionType} {s : Site} {c : Choice}
    (chosen : w.dispatch u s = pure (some c)) : (w.union u s).log =
      (w.variant c.variant.schema c.tag c.target).log.map
        (Prod.map id ({ selections := [⟨s.position, u.id, c.variant.schema, c.target⟩] } ++ ·)) := by
  rw [Walk.union_eq, chosen, Walker.log_pure_bind, Walk.content, Walker.log_bind, Walker.log_select]
  rfl

namespace Schema

variable {schema : Schema} {start target : SchemaId} {node : SchemaNode} {s : Site} {u : UnionType}
  {metadata : Metadata}

theorem contains_of_found (found : schema.resolve start = .found target node) :
    schema.contains start = true := by
  by_contra outside
  cases (resolve_outside (Bool.eq_false_iff.2 outside)).symm.trans found

/-- The check of a filled value finds what the check of its shape does, apart from a warning. -/
theorem check_filled (settings : Settings) (level : Nat)
    (found : schema.resolve start = .found target node)
    (filled : s.value.content.isHole = false) : ∃ own :
    Findings, own.errors = [] ∧ own.selections = [] ∧
      (schema.check settings (level + 1) start s).log =
        ((schema.walk settings level).shape target s node.shape).log.map
          (Prod.map id (own ++ ·)) := by
  refine ⟨{ warnings := if schema.isDeprecated start || node.metadata.isDeprecated then [(s.path, .deprecated)]
    else [] }, rfl, rfl, ?_⟩
  rw [check_log found, filled]
  show (Check.deprecation _ s.path >>= fun _ => _).log = _
  rw [Walker.log_bind, deprecation_log]
  rfl

/-- The check of a value against a union finds what the check of the variant does, apart from a
warning and the selection. -/
theorem check_chosen (settings : Settings) (level : Nat) {c : Choice}
    (found : schema.resolve start = .found u.id ⟨.union u.variants u.representation, metadata⟩)
    (filled : s.value.content.isHole = false)
    (chosen : (schema.walk settings level).dispatch u s = pure (some c)) : ∃ own :
    Findings, own.errors = [] ∧
      own.selections = [⟨s.position, u.id, c.variant.schema, c.target⟩] ∧
      (schema.check settings (level + 1) start s).log =
        ((schema.walk settings level).variant c.variant.schema c.tag c.target).log.map
          (Prod.map id (own ++ ·)) := by
  obtain ⟨own, errors, selections, logged⟩ := check_filled settings level found filled
  refine ⟨own ++ { selections := [⟨s.position, u.id, c.variant.schema, c.target⟩] }, ?_, ?_, ?_⟩
  · rw [Findings.errors_append, errors]
    rfl
  · rw [Findings.selections_append, selections]
    rfl
  · rw [logged]
    show Except.map _ ((schema.walk settings level).union u s).log = _
    rw [Walk.union_chosen chosen]
    cases ((schema.walk settings level).variant c.variant.schema c.tag c.target).log with
    | error e => rfl
    | ok found => simp [Except.map, Prod.map, Findings.append_assoc]

/-- The search for holes in a value of a union goes on with the content of the last selection. -/
theorem complete_chosen {table : List Selection} {depth : Nat} {c : Selection}
    (found : schema.resolve start = .found u.id ⟨.union u.variants u.representation, metadata⟩)
    (filled : s.value.content.isHole = false)
    (last : Selection.last? table u.id s = some c) (isOptional : Bool) :
    (schema.complete table (depth + 1) start s isOptional).log =
      (schema.complete table depth c.variant c.target false).log := by
  have called : s.required table u.id (.union u.variants u.representation) =
      [(c.variant, c.target, false)] := by
    rw [Site.required, last]
  rw [complete_found found filled, called]
  show (schema.complete table depth c.variant c.target false >>= fun _ => pure ()).log = _
  rw [Walker.log_bind]
  cases (schema.complete table depth c.variant c.target false).log with
  | error e => rfl
  | ok found => simp [Except.map, Except.bind, Prod.map]

end Schema

section Passes

variable {value : Value} {schema : Schema} {start : SchemaId} {settings : Settings}

/-- Without a limit on errors, a validation reports what both passes find. -/
theorem exists_passes (unlimited : settings.maxErrors = 0) {r : Report}
    (validated : validateValue value schema start settings = .ok r) :
    schema.contains start = true ∧ ∃ structural holes,
      (schema.check settings settings.maxDepth start ⟨value, [], []⟩).log = .ok ((), structural) ∧
      (schema.complete structural.selections settings.maxDepth start ⟨value, [], []⟩ false).log =
        .ok ((), holes) ∧ r.errors = structural.errors ++ holes.errors := by
  rw [validateValue_eq] at validated
  cases findings : findingsOf value schema start settings with
  | error e =>
      rw [findings] at validated
      cases validated
  | ok f =>
      rw [findings, Except.map, toReport_add, unlimited] at validated
      cases validated
      obtain ⟨inside, structural, holes, checked, searched, rfl⟩ := findings_of_passes findings
      exact ⟨inside, structural, holes, checked, searched, rfl⟩

theorem validateValue_of_passes (unlimited : settings.maxErrors = 0) {structural holes : Findings}
    (inside : schema.contains start = true)
    (checked : (schema.check settings settings.maxDepth start ⟨value, [], []⟩).log =
      .ok ((), structural))
    (searched : (schema.complete structural.selections settings.maxDepth start
      ⟨value, [], []⟩ false).log =
      .ok ((), holes)) :
    ∃ r, validateValue value schema start settings = .ok r ∧
      r.errors = structural.errors ++ holes.errors := by
  refine ⟨(structural ++ holes).toReport, ?_, rfl⟩
  rw [validateValue_eq, findings_of_logs inside checked searched, Except.map, toReport_add,
    unlimited]
  rfl

end Passes

/-- A record finds the same with one level more, unless it has met the limit. -/
theorem Schema.record_deeper {schema : Schema} {settings : Settings} {level : Nat} {s : Site}
    {fields : List (Field SchemaId)} {allowsUnknown : Bool} {tag : Option Bytes} {f : Findings}
    (explicit : settings.isLenient = false)
    (logged : ((schema.walk settings level).record fields allowsUnknown tag s).log = .ok ((), f))
    (uncut : ¬ f.IsCut) :
    ((schema.walk settings (level + 1)).record fields allowsUnknown tag s).log = .ok ((), f) := by
  obtain ⟨gs, each, gathers⟩ := Walk.record_makes fields allowsUnknown tag 0 f logged
  have each := gathers.uncut uncut each
  rw [← logged]
  refine (Walk.record_congr 0 fun c member => ?_).symm
  obtain ⟨g, -, checked, uncut⟩ := exists_of_mem_right each.flip c member
  exact checked.trans (check_deeper settings explicit explicit checked uncut (Nat.le_succ level)).symm

/-- The last selection for a value is the first one if all others are for other positions. -/
theorem Selection.last?_cons {c : Selection} {rest : List Selection} {s : Site}
    (here : c.position = s.position)
    (others : ∀ d ∈ rest, d.position ≠ s.position) : last? (c :: rest) c.union s = some c := by
  have none : rest.reverse.find? (fun d => d.union == c.union && d.position == s.position) =
      none := by
    rw [List.find?_eq_none]
    intro d member
    simp [others d (List.mem_reverse.1 member)]
  unfold last?
  rw [List.reverse_cons, List.find?_append, none, Option.none_or, List.find?_singleton, here]
  simp

namespace TagPlaces

variable {tag name : Bytes} (m : TagPlaces tag name) {schema : Schema} (settings : Settings)
  {start target : SchemaId} {u : UnionType} {v : Variant SchemaId} {metadata : Metadata}
    {node : SchemaNode}

section Named

variable (found : schema.resolve start = .found u.id ⟨.union u.variants u.representation, metadata⟩)
  (internal : u.representation = .internal tag) (declared : u.find? name = some v)
include found internal declared

/-- Where the extension names the variant, the whole map is checked against it, one level below. -/
theorem check_extended (level : Nat) (path : Path) (position : List Nat)
    (resolved : schema.resolve v.schema = .found target node) :
    ∃ own : Findings, own.errors = [] ∧
      own.selections = [⟨position, u.id, v.schema, ⟨m.extended, path, position⟩⟩] ∧
      (schema.check settings (level + 2) start ⟨m.extended, path, position⟩).log =
        ((schema.walk settings level).shape target ⟨m.extended, path, position⟩ node.shape).log.map
          (Prod.map id (own ++ ·)) := by
  obtain ⟨own, errors, selections, logged⟩ := Schema.check_chosen settings (level + 1)
    (s := ⟨m.extended, path, position⟩) found rfl (m.dispatch_extended _ internal declared)
  obtain ⟨inner, silent, unselected, content⟩ := Schema.check_filled settings level
    (s := ⟨m.extended, path, position⟩) resolved rfl
  refine ⟨own ++ inner, ?_, ?_, ?_⟩
  · rw [Findings.errors_append, errors, silent]
    rfl
  · rw [Findings.selections_append, selections, unselected]
    rfl
  · rw [logged]
    show Except.map _ (schema.check settings (level + 1) v.schema ⟨m.extended, path, position⟩).log = _
    rw [content]
    cases ((schema.walk settings level).shape target ⟨m.extended, path, position⟩ node.shape).log with
    | error e => rfl
    | ok found => simp [Except.map, Prod.map, Findings.append_assoc]

/-- Where the tag field names the variant, the other fields are checked against it, on the same
level. -/
theorem check_tagged (level : Nat) (path : Path) (position : List Nat) : ∃ own :
    Findings, own.errors = [] ∧
      own.selections = [⟨position, u.id, v.schema, ⟨m.tagged, path, position⟩⟩] ∧
      (schema.check settings (level + 1) start ⟨m.tagged, path, position⟩).log =
        ((schema.walk settings level).variant v.schema (some tag)
          ⟨m.tagged, path, position⟩).log.map
          (Prod.map id (own ++ ·)) :=
  Schema.check_chosen settings level found rfl (m.dispatch_tagged _ internal declared)

section Record

variable {fields : List (Field SchemaId)} {allowsUnknown : Bool} {inner : Metadata}
  (resolved : schema.resolve v.schema = .found target ⟨.record fields allowsUnknown, inner⟩)
  (undeclared : ∀ f ∈ fields, f.name ≠ tag)
include resolved undeclared

omit undeclared in
theorem check_extended_record (level : Nat) (path : Path) (position : List Nat) :
    ∃ own : Findings, own.errors = [] ∧
      own.selections = [⟨position, u.id, v.schema, ⟨m.extended, path, position⟩⟩] ∧
      (schema.check settings (level + 2) start ⟨m.extended, path, position⟩).log =
        ((schema.walk settings level).record fields allowsUnknown none
          ⟨m.extended, path, position⟩).log.map
          (Prod.map id (own ++ ·)) :=
  m.check_extended settings found internal declared level path position resolved

omit undeclared in
theorem check_tagged_record (level : Nat) (path : Path) (position : List Nat) :
    ∃ own : Findings, own.errors = [] ∧
      own.selections = [⟨position, u.id, v.schema, ⟨m.tagged, path, position⟩⟩] ∧
      (schema.check settings (level + 1) start ⟨m.tagged, path, position⟩).log =
        ((schema.walk settings level).record fields allowsUnknown (some tag)
          ⟨m.tagged, path, position⟩).log.map
          (Prod.map id (own ++ ·)) := by
  obtain ⟨own, errors, selections, logged⟩ :=
    m.check_tagged settings found internal declared level path position
  refine ⟨own, errors, selections, logged.trans (congrArg _ ?_)⟩
  exact Walker.log_bind_of_log (Schema.follow_log resolved) _

/-- A record finds the same errors, where the extension takes one level more. -/
theorem check_errors (level : Nat) (path : Path) (position : List Nat) :
    (schema.check settings (level + 2) start ⟨m.extended, path, position⟩).log.map (·.2.errors) =
      (schema.check settings (level + 1) start
        ⟨m.tagged, path, position⟩).log.map (·.2.errors) := by
  obtain ⟨own, errors, -, left⟩ :=
    m.check_extended_record settings found internal declared resolved level path position
  obtain ⟨own', errors', -, right⟩ :=
    m.check_tagged_record settings found internal declared resolved level path position
  rw [left, right]
  cases m.record_shifts path position schema settings level allowsUnknown undeclared with
  | failed left right =>
      rw [left, right]
      rfl
  | found left right findings =>
      rw [left, right]
      simp [Except.map, Prod.map, errors, errors', findings.errors]

omit internal declared in
/-- A record is searched for holes alike. -/
theorem complete_errors {table table' rest rest' : List Selection} (depth : Nat) (path : Path)
    (position : List Nat)
    (left : table = ⟨position, u.id, v.schema, ⟨m.extended, path, position⟩⟩ :: rest)
    (right : table' = ⟨position, u.id, v.schema, ⟨m.tagged, path, position⟩⟩ :: rest')
    (others : List.Forall₂ (Selection.Shifts position m.before.length) rest rest') :
    (schema.complete table (depth + 2) start ⟨m.extended, path, position⟩ false).log =
      (schema.complete table' (depth + 2) start ⟨m.tagged, path, position⟩ false).log := by
  have last : Selection.last? table u.id ⟨m.extended, path, position⟩ =
      some ⟨position, u.id, v.schema, ⟨m.extended, path, position⟩⟩ := by
    rw [left]
    refine Selection.last?_cons rfl fun d member => ?_
    obtain ⟨d', -, same⟩ := exists_of_mem_right others.flip d member
    exact same.position.left_ne
  have last' : Selection.last? table' u.id ⟨m.tagged, path, position⟩ =
      some ⟨position, u.id, v.schema, ⟨m.tagged, path, position⟩⟩ := by
    rw [right]
    refine Selection.last?_cons rfl fun d member => ?_
    obtain ⟨d', -, same⟩ := exists_of_mem_right others d member
    exact same.position.right_ne
  rw [Schema.complete_chosen found rfl last, Schema.complete_chosen found rfl last',
    Schema.complete_found resolved rfl, Schema.complete_found resolved rfl]
  refine schema.complete_calls_shift ?_ depth
    (m.required_shifts path position allowsUnknown undeclared table table' target)
  rw [left, right]
  exact Selection.tablesShift_cons rfl rfl others

omit resolved undeclared in
/-- Where the extension names the variant, a check that does not meet the limit has two levels. -/
theorem exists_levels {depth : Nat} {path : Path} {position : List Nat} {f : Findings}
    (checked : (schema.check settings depth start ⟨m.extended, path, position⟩).log = .ok ((), f))
    (uncut : ¬ f.IsCut) : ∃ level, depth = level + 2 := by
  match depth with
  | 0 => exact absurd (Schema.isCut_of_check_zero checked) uncut
  | 1 =>
      obtain ⟨own, -, -, logged⟩ := Schema.check_chosen settings 0 (s := ⟨m.extended, path, position⟩) found rfl
        (m.dispatch_extended _ internal declared)
      cases checked.symm.trans logged
      exact absurd ⟨_, List.mem_append_right _ List.mem_cons_self, rfl⟩ uncut
  | level + 2 => exact ⟨level, rfl⟩

/-- A validation that does not meet the limit on nesting reports the same errors for both maps. -/
theorem validateValue_errors (explicit : settings.isLenient = false)
    (unlimited : settings.maxErrors = 0)
    {r : Report} (validated : validateValue m.extended schema start settings = .ok r)
    (uncut : ∀ e ∈ r.errors, e.mismatch.kind ≠ utf8 "RecursionLimit") :
    ∃ r', validateValue m.tagged schema start settings = .ok r' ∧ r'.errors = r.errors := by
  obtain ⟨inside, structural, holes, checked, searched, errors⟩ := exists_passes unlimited validated
  rw [errors] at uncut ⊢
  have uncut : ¬ structural.IsCut := by
    rintro ⟨e, member, kind⟩
    exact uncut e (List.mem_append_left _ member) kind
  obtain ⟨level, depth⟩ := m.exists_levels settings found internal declared checked uncut
  rw [depth] at checked searched
  obtain ⟨own, silent, selections, logged⟩ :=
    m.check_extended_record settings found internal declared resolved level [] []
  obtain ⟨own', silent', selections', logged'⟩ :=
    m.check_tagged_record settings found internal declared resolved (level + 1) [] []
  rw [logged] at checked
  cases m.record_shifts [] [] schema settings level allowsUnknown undeclared with
  | failed left right =>
      rw [left] at checked
      cases checked
  | @found f g left right shifts =>
      rw [left] at checked
      cases checked
      have same : (own' ++ g).errors = (own ++ f).errors := by
        rw [Findings.errors_append, Findings.errors_append, silent, silent', shifts.errors]
      have uncut : ¬ g.IsCut := by
        rintro ⟨e, member, kind⟩
        exact uncut ⟨e, List.mem_append_right _ (shifts.errors ▸ member), kind⟩
      rw [Schema.record_deeper explicit right uncut] at logged'
      have searched' := (m.complete_errors found resolved undeclared level [] []
        (show (own ++ f).selections = _ by rw [Findings.selections_append, selections]; rfl)
        (show (own' ++ g).selections = _ by rw [Findings.selections_append, selections']; rfl)
        shifts.selections).symm.trans searched
      rw [← same]
      exact validateValue_of_passes unlimited inside (depth ▸ logged') (depth ▸ searched')

end Record

section Null

variable {inner : Metadata} (resolved : schema.resolve v.schema = .found target ⟨.null, inner⟩)
include resolved

omit found internal declared in
/-- Where the tag field names a variant without content, all other fields are unknown. -/
theorem variant_null (level : Nat) (path : Path) (position : List Nat) :
    ((schema.walk settings level).variant v.schema (some tag) ⟨m.tagged, path, position⟩).log =
      .ok ((), { errors :=
        (m.before ++ m.after).map fun e => ⟨path ++ [e.1.segment], .unknownField e.1.label⟩ }) := by
  obtain ⟨es, fs, left, right, unknown⟩ := m.unknownFields_shifts path position fun _ => false
  refine (Walker.log_bind_of_log (Schema.follow_log resolved) _).trans ?_
  have known : (fun x => x == tag) = fun x => some tag == some x || false := by
    funext x
    rw [Bool.or_false, Bool.eq_iff_iff, beq_iff_eq, beq_iff_eq, Option.some_inj, eq_comm]
  show (unknownFields (fun x => x == tag) ((Site.mk m.tagged path position).entries?.getD [])).log =
      _
  rw [right, Option.getD_some, known, unknown, unknownFields_log]
  cases left
  refine congrArg (fun errors => Except.ok ((), ({ errors := errors } : Findings))) ?_
  have none (e : Key × Site) :
      (!e.1.spelling?.any fun name => none == some name || false) = true := by
    cases e.1.spelling? <;> rfl
  rw [List.filter_eq_self.2 fun e _ => none e]
  apply List.ext_getElem
  · simp
  · intro i _ _
    rw [List.getElem_map, List.getElem_map, List.getElem_mapIdx]
    rfl

/-- For a variant without content, the map is of a wrong kind where the extension names the variant,
and all other fields are unknown where the tag field does. -/
theorem validateValue_null (unlimited : settings.maxErrors = 0) (deep : 2 ≤ settings.maxDepth) :
    ∃ r r', validateValue m.extended schema start settings = .ok r ∧
      validateValue m.tagged schema start settings = .ok r' ∧
      r.errors = [⟨[], .wrongKind "null" "map"⟩] ∧
      r'.errors = (m.before ++ m.after).map fun e => ⟨[e.1.segment], .unknownField e.1.label⟩ := by
  have inside := Schema.contains_of_found found
  obtain ⟨level, depth⟩ := Nat.exists_eq_add_of_le' deep
  obtain ⟨own, silent, selections, logged⟩ :=
    m.check_extended settings found internal declared level [] [] resolved
  obtain ⟨own', silent', selections', logged'⟩ :=
    m.check_tagged settings found internal declared (level + 1) [] []
  rw [m.variant_null settings resolved] at logged'
  have searched (content : Value) (filled : content.content.isHole = false) (table : List Selection)
      (single : table = [⟨[], u.id, v.schema, ⟨content, [], []⟩⟩]) :
      (schema.complete table settings.maxDepth start ⟨content, [], []⟩ false).log =
        .ok ((), {}) := by
    have last := Selection.last?_cons (c := ⟨[], u.id, v.schema, ⟨content, [], []⟩⟩)
      (s := ⟨content, [], []⟩) rfl (List.forall_mem_nil _)
    rw [depth, single, Schema.complete_chosen found filled last,
      Schema.complete_found resolved filled]
    rfl
  obtain ⟨r, validated, errors⟩ := validateValue_of_passes unlimited inside (depth ▸ logged)
    (searched m.extended rfl _ (by rw [Findings.selections_append, selections]; rfl))
  obtain ⟨r', validated', errors'⟩ := validateValue_of_passes unlimited inside (depth ▸ logged')
    (searched m.tagged rfl _ (by rw [Findings.selections_append, selections']; rfl))
  refine ⟨r, r', validated, validated', ?_, ?_⟩
  · rw [errors, Findings.errors_append, silent]
    rfl
  · rw [errors', Findings.errors_append, silent']
    simp

end Null

variable {settings}

/-- A record that an internal tag names has the same errors whether the extension names it or the
tag field, except that the extension takes a level more; so they report the same where the limit on
nesting is not met. A variant without content is checked differently: the tag field makes all other
fields unknown, and where the extension names the variant, the map is of a wrong kind. -/
theorem interchanges {shape : Shape SchemaId} {inner : Metadata}
    (explicit : settings.isLenient = false) (unlimited : settings.maxErrors = 0)
    (resolved : schema.resolve v.schema = .found target ⟨shape, inner⟩) :
    (∀ fields allowsUnknown, shape = .record fields allowsUnknown → (∀ f ∈ fields, f.name ≠ tag) →
      (∀ level path position,
        (schema.check settings (level + 2) start
          ⟨m.extended, path, position⟩).log.map (·.2.errors) =
          (schema.check settings (level + 1) start
            ⟨m.tagged, path, position⟩).log.map (·.2.errors)) ∧
      ∀ r, validateValue m.extended schema start settings = .ok r →
        (∀ e ∈ r.errors, e.mismatch.kind ≠ utf8 "RecursionLimit") →
        ∃ r', validateValue m.tagged schema start settings = .ok r' ∧ r'.errors = r.errors) ∧
    (shape = .null → 2 ≤ settings.maxDepth →
      ∃ r r', validateValue m.extended schema start settings = .ok r ∧
        validateValue m.tagged schema start settings = .ok r' ∧
        r.errors = [⟨[], .wrongKind "null" "map"⟩] ∧
        r'.errors = (m.before ++ m.after).map fun e => ⟨[e.1.segment],
          .unknownField e.1.label⟩) := by
  constructor
  · rintro fields allowsUnknown rfl undeclared
    constructor
    · exact m.check_errors settings found internal declared resolved undeclared
    · intro r validated uncut
      exact m.validateValue_errors settings found internal declared resolved undeclared explicit unlimited
        validated uncut
  · rintro rfl deep
    exact m.validateValue_null settings found internal declared resolved unlimited deep

end Named

end TagPlaces

private def lamp : Schema where
  nodes := #[⟨.union [⟨"on", 1⟩, ⟨"off", 2⟩] (.internal "state"), {}⟩,
    ⟨.record [⟨"brightness", 3, false⟩] false, {}⟩, ⟨.null, {}⟩, ⟨.integer {} none, {}⟩]

/-- A lamp that is on, with a wrong brightness and a stray field. -/
private def lit : TagPlaces (utf8 "state") (utf8 "on") where
  before := [(.ident "brightness", .of (.primitive (.bool true)))]
  after := [(.ident "color", .of (.primitive (.int 3)))]
  above := []
  below := []
  key := .ident "state"
  field := .of (.primitive (.text ⟨"on", .plaintext⟩))
  extension := .of (.primitive (.text ⟨"on", .plaintext⟩))
  untagged := by decide
  unextended := by decide
  spelled := rfl
  field_names := ⟨_, rfl, rfl⟩
  extension_names := ⟨_, rfl, rfl⟩

private def unlit : TagPlaces (utf8 "state") (utf8 "off") where
  before := []
  after := []
  above := []
  below := []
  key := .ident "state"
  field := .of (.primitive (.text ⟨"off", .plaintext⟩))
  extension := .of (.primitive (.text ⟨"off", .plaintext⟩))
  untagged := by decide
  unextended := by decide
  spelled := rfl
  field_names := ⟨_, rfl, rfl⟩
  extension_names := ⟨_, rfl, rfl⟩

/-- Either way the lamp that is on has the same errors. The one that is off is right only with a tag
field. -/
theorem TagPlaces.interchanges_lamp :
    (∃ r', validateValue lit.tagged lamp 0 {} = .ok r' ∧
      r'.errors = [⟨[.ident "brightness"], .wrongKind "integer" "boolean"⟩,
        ⟨[.ident "color"], .unknownField "color"⟩]) ∧
    ∃ r r', validateValue unlit.extended lamp 0 {} = .ok r ∧
      validateValue unlit.tagged lamp 0 {} = .ok r' ∧
      r.errors = [⟨[], .wrongKind "null" "map"⟩] ∧ r'.errors = [] := by
  constructor
  · have named := lit.interchanges (u := ⟨0, [⟨"on", 1⟩, ⟨"off", 2⟩], .internal "state"⟩)
      (show lamp.resolve 0 = .found 0 ⟨.union _ _, {}⟩ from rfl) rfl rfl
      (show ({} : Settings).isLenient = false from rfl) rfl
      (show lamp.resolve 1 = .found 1 ⟨.record [⟨"brightness", 3, false⟩] false, {}⟩ from rfl)
    obtain ⟨-, alike⟩ := named.1 _ _ rfl (by decide)
    exact alike ⟨[⟨[.ident "brightness"], .wrongKind "integer" "boolean"⟩,
      ⟨[.ident "color"], .unknownField "color"⟩], [], false, false⟩ rfl (by decide)
  · have named := unlit.interchanges (u := ⟨0, [⟨"on", 1⟩, ⟨"off", 2⟩], .internal "state"⟩)
      (show lamp.resolve 0 = .found 0 ⟨.union _ _, {}⟩ from rfl) rfl rfl
      (show ({} : Settings).isLenient = false from rfl) rfl
      (show lamp.resolve 2 = .found 2 ⟨.null, {}⟩ from rfl)
    exact named.2 rfl (by decide)

end DocSchema
