import DocSchema.Proofs.Positions
import DocSchema.Proofs.RequiredHoles

set_option autoImplicit false

namespace DocSchema

namespace Schema

variable {schema : Schema} {settings settings' : Settings} {root : Value} {table : List Selection}
  {level level' bound depth : Nat} {id target : SchemaId} {node : SchemaNode} {s t : Site}
    {isOptional : Bool}

/-- Whether no variant that is a record shares its map with the tag of the union. -/
def SharesNoTags (schema : Schema) : Prop :=
  ∀ id variants tag metadata, schema.node? id = some ⟨.union variants (.internal tag), metadata⟩ →
    ∀ v ∈ variants, ∀ target fields allowsUnknown metadata,
      schema.resolve v.schema ≠ .found target ⟨.record fields allowsUnknown, metadata⟩

/-- Whether a selection is the choice of its union for the value at its position. -/
def ChosenUnder (schema : Schema) (root : Value) (d : Selection) : Prop :=
  ∃ s, s.Coincide root s ∧ d.position = s.position ∧ schema.Chooses s d

/-- A check that does not meet the limit finds the same with any larger one. -/
theorem check_deeper (settings' : Settings) (explicit : settings.isLenient = false)
    (explicit' : settings'.isLenient = false) {f : Findings}
    (logged : (schema.check settings level id s).log = .ok ((), f)) (uncut : ¬ f.IsCut)
    (deeper : level ≤ level') : (schema.check settings' level' id s).log = .ok ((), f) := by
  induction level generalizing id s f level' with
  | zero =>
      exact absurd (isCut_of_check_zero logged) uncut
  | succ level ih =>
      cases level' with
      | zero => omega
      | succ level' =>
          obtain ⟨gs, each, gathers⟩ := check_gathers logged
          have each := gathers.uncut uncut each
          rw [← logged]
          refine (level_congr (w := schema.walk settings' level') rfl (fun u => ?_) fun c member => ?_).symm
          · rw [walk, walk, explicit, explicit']
            exact congrArg Walker.log (Walk.dispatch_explicit schema _ _ u s)
          · obtain ⟨g, -, checked, uncut⟩ := exists_of_mem_right each.flip c member
            exact checked.trans (ih checked uncut (Nat.le_of_succ_le_succ deeper)).symm

theorem required_placed (placed : s.Coincide root s) (id : SchemaId) (shape : Shape SchemaId) :
    ∀ c ∈ s.required [] id shape, c.2.1.Coincide root c.2.1 := by
  intro c member
  obtain ⟨c', -, same⟩ := exists_of_mem_right (placed.required id) c member
  exact same.site.right

theorem variantCalls_placed {tag : Option Bytes} (placed : s.Coincide root s) :
    ∀ c ∈ (schema.walk settings level).variantCalls id tag s, c.2.1.Coincide root c.2.1 := by
  unfold Walk.variantCalls
  split
  · simpa using placed
  · split
    · exact required_placed placed _ _
    · simp
    · simpa using placed
  · simp

/-- The structural pass only visits values under the root. -/
theorem calls_placed (explicit : settings.isLenient = false) (placed : s.Coincide root s) :
    ∀ c ∈ schema.calls settings level id s, c.2.1.Coincide root c.2.1 := by
  unfold calls
  split
  · next target node resolved =>
    split
    · simp
    · cases plain : node.shape.isUnion with
      | false =>
          rw [Walk.calls_plain plain]
          exact required_placed placed target node.shape
      | true =>
          obtain ⟨shape, metadata⟩ := node
          cases shape with
          | union variants representation =>
              dsimp only [Walk.calls]
              cases chosen : (schema.walk settings level).chosen? ⟨target, variants, representation⟩ s with
              | none => simp
              | some c =>
                  obtain ⟨f, logged⟩ := Walk.dispatch_of_chosen chosen
                  cases Walk.dispatch_alike explicit explicit placed _ _ f f logged logged with
                  | some same => exact variantCalls_placed same.target
          | _ => cases plain
  · simp

theorem choices_chosen (explicit : settings.isLenient = false) (placed : s.Coincide root s) :
    ∀ d ∈ schema.choices settings level id s, schema.ChosenUnder root d := by
  intro d member
  unfold choices at member
  split at member
  · next target node resolved =>
    split at member
    · cases member
    · obtain ⟨shape, metadata⟩ := node
      cases shape with
      | union variants representation =>
          obtain ⟨c, chosen, rfl⟩ := List.mem_map.1 member
          obtain ⟨f, logged⟩ := Walk.dispatch_of_chosen (Option.mem_toList.1 chosen)
          refine ⟨s, placed, rfl, variants, representation, metadata, c, f, ?_, ?_, rfl, rfl⟩
          · exact (resolve_found resolved).1
          · rw [← logged, walk, explicit]
            rfl
      | _ => cases member
  · cases member

/-- What the structural pass selects, the unions choose. -/
theorem check_chooses (explicit : settings.isLenient = false) (placed : s.Coincide root s)
    {f : Findings} (logged : (schema.check settings level id s).log = .ok ((), f)) :
    ∀ d ∈ f.selections, schema.ChosenUnder root d := by
  induction level generalizing id s f with
  | zero =>
      cases logged
      exact List.forall_mem_nil _
  | succ level ih =>
      obtain ⟨gs, each, gathers⟩ := check_gathers logged
      intro d member
      rw [gathers.selections] at member
      rcases List.mem_append.1 member with own | below
      · exact choices_chosen explicit placed d own
      · obtain ⟨ds, listed, inside⟩ := List.mem_flatten.1 below
        obtain ⟨g, found, rfl⟩ := List.mem_map.1 listed
        obtain ⟨c, called, checked⟩ := exists_of_mem_right each g found
        exact ih (calls_placed explicit placed c called) checked d inside

/-- What a union has chosen for a value, it chooses on every visit. -/
theorem Chooses.again {d : Selection} {variants : List (Variant SchemaId)}
    {representation : Representation}
    {metadata : Metadata} {choice : Option Choice} {f : Findings} (chooses : schema.Chooses t d)
    (coincide : s.Coincide root t) (explicit : settings.isLenient = false)
    (found : schema.node? d.union = some ⟨.union variants representation, metadata⟩)
    (logged : ((schema.walk settings level).dispatch ⟨d.union, variants, representation⟩ s).log =
      .ok (choice, f)) :
    ∃ c, choice = some c ∧ d.variant = c.variant.schema ∧ c.target.Coincide root d.target := by
  obtain ⟨variants', representation', metadata', c', f', found', logged', variant, target⟩ :=
    chooses
  cases found.symm.trans found'
  cases Walk.dispatch_alike explicit rfl coincide _ _ f f' logged logged' with
  | some same => exact ⟨_, rfl, by rw [← variant, same.variant], target ▸ same.target⟩

/-- Whether the search for holes in a value reports the same in any number of levels from a bound
on. -/
def Settles (schema : Schema) (table : List Selection) (bound : Nat) (c : Call) : Prop :=
  ∃ f, ∀ depth, bound ≤ depth → (schema.complete table depth c.1 c.2.1 c.2.2).log = .ok ((), f)

theorem Settles.mono {c : Call} {more : Nat} (settles : schema.Settles table bound c)
    (above : bound ≤ more) :
    schema.Settles table more c := by
  obtain ⟨f, same⟩ := settles
  exact ⟨f, fun depth enough => same depth (Nat.le_trans above enough)⟩

theorem settles_of_succ {c : Call} {f : Findings}
    (same : ∀ depth, bound ≤ depth →
      (schema.complete table (depth + 1) c.1 c.2.1 c.2.2).log = .ok ((), f)) :
    schema.Settles table (bound + 1) c := by
  refine ⟨f, fun depth enough => ?_⟩
  cases depth with
  | zero => omega
  | succ depth => exact same depth (Nat.le_of_succ_le_succ enough)

theorem settles_hole (resolved : schema.resolve id = .found target node)
    (hole : s.value.content.isHole = true) : schema.Settles table 1 (id, s, isOptional) :=
  settles_of_succ fun _ (_ : 0 ≤ _) => complete_hole resolved hole

theorem settles_dangling {name : Bytes} (dangling : schema.resolve id = .dangling name) :
    schema.Settles table 0 (id, s, isOptional) := by
  refine ⟨{}, fun depth _ => ?_⟩
  cases depth with
  | zero => rfl
  | succ depth => exact complete_dangling dangling

/-- A value that has no parts is searched in no level. -/
theorem settles_null {metadata : Metadata}
    (resolved : schema.resolve id = .found target ⟨.null, metadata⟩)
    (filled : s.value.content.isHole = false) : schema.Settles table 0 (id, s, isOptional) := by
  refine ⟨{}, fun depth _ => ?_⟩
  cases depth with
  | zero => rfl
  | succ depth => exact complete_found resolved filled

/-- A value is searched in one level more than its parts. -/
theorem settles_of_parts (resolved : schema.resolve id = .found target node)
    (filled : s.value.content.isHole = false)
    (parts : ∀ c ∈ s.required table target node.shape, schema.Settles table bound c) :
    schema.Settles table (bound + 1) (id, s, isOptional) := by
  have all (calls : List Call) (each : ∀ c ∈ calls, schema.Settles table bound c) :
      ∃ f, ∀ depth, bound ≤ depth →
        (calls.forM fun c => schema.complete table depth c.1 c.2.1 c.2.2).log = .ok ((), f) := by
    induction calls with
    | nil => exact ⟨{}, fun _ _ => rfl⟩
    | cons c calls ih =>
        obtain ⟨f, first⟩ := each c List.mem_cons_self
        obtain ⟨g, rest⟩ := ih fun d member => each d (List.mem_cons_of_mem c member)
        exact ⟨f ++ g, fun depth enough => Walker.log_bind_ok (first depth enough) (rest depth enough)⟩
  obtain ⟨f, same⟩ := all _ parts
  exact settles_of_succ fun depth enough => (complete_found resolved filled).trans
    (same depth enough)

/-- Whether the search for holes settles for the values that the structural pass of a level has
checked without meeting the limit, along whatever path. -/
def SettlesBelow (schema : Schema) (settings : Settings) (root : Value) (table : List Selection)
    (level bound : Nat) : Prop :=
  ∀ id s t isOptional f, s.Coincide root t → (schema.check settings level id s).log = .ok ((), f) →
    ¬ f.IsCut → schema.Settles table bound (id, t, isOptional)

section Search

variable (settles : schema.SettlesBelow settings root table level bound)
    (coincide : s.Coincide root t)
  {gs : List Findings}
include settles coincide

theorem parts_settle {shape : Shape SchemaId}
    (each : List.Forall₂ (fun c g => (schema.check settings level c.1 c.2.1).log = .ok ((), g) ∧
      ¬ g.IsCut)
      (s.required [] target shape) gs) :
    ∀ c ∈ t.required [] target shape, schema.Settles table bound c := by
  rintro ⟨id, part, isOptional⟩ member
  obtain ⟨c, called, same⟩ := exists_of_mem_right (coincide.required target) _ member
  obtain ⟨g, -, checked, uncut⟩ := exists_of_mem_right each.flip c called
  have type : id = c.1 := same.type
  exact settles id c.2.1 part isOptional g same.site (type ▸ checked) uncut

/-- The content of a variant may take a level more, but only a record that shares its map with a tag
does. -/
theorem variant_settles {shared : Option Bytes} {extra : Nat} {f : Findings}
    (room : 0 < extra ∨ ∀ tag ∈ shared, ∀ target fields allowsUnknown metadata,
      schema.resolve id ≠ .found target ⟨.record fields allowsUnknown, metadata⟩)
    (filled : shared ≠ none → s.value.content.isHole = false)
    (logged : ((schema.walk settings level).variant id shared s).log = .ok ((), f))
    (each : List.Forall₂ (fun c g => (schema.check settings level c.1 c.2.1).log = .ok ((), g) ∧
      ¬ g.IsCut)
      ((schema.walk settings level).variantCalls id shared s) gs) :
    schema.Settles table (bound + extra) (id, t, isOptional) := by
  rcases Walk.variantCalls_cases logged with
    one | ⟨present, ⟨⟨name, dangling⟩, -⟩ | ⟨target, ⟨shape, metadata⟩, resolved, holds, parts⟩⟩
  · rw [one] at each
    obtain ⟨g, -, checked, uncut⟩ := exists_of_mem_right each.flip _ List.mem_cons_self
    exact (settles id s t isOptional g coincide checked uncut).mono (Nat.le_add_right bound extra)
  · exact (settles_dangling dangling).mono (Nat.zero_le _)
  · have filled : t.value.content.isHole = false := by rw [coincide.value, filled present]
    cases shape with
    | record fields allowsUnknown =>
        rcases room with room | apart
        · rw [parts] at each
          exact (settles_of_parts resolved filled (parts_settle settles coincide each)).mono
            (by omega)
        · obtain ⟨tag, present⟩ := Option.ne_none_iff_exists'.1 present
          exact absurd resolved (apart tag present target fields allowsUnknown metadata)
    | null => exact (settles_null resolved filled).mono (Nat.zero_le _)
    | _ => cases holds

end Search

/-- A selection leads to the content that its union has chosen for the value on another visit. -/
theorem selection_settles (settles : schema.SettlesBelow settings root table level bound)
    (coincide : s.Coincide root t) (explicit : settings.isLenient = false) {extra : Nat}
    (room : 0 < extra ∨ schema.SharesNoTags) {d : Selection} (chosen : schema.ChosenUnder root d)
    (here : d.position = t.position) {variants : List (Variant SchemaId)}
    {representation : Representation}
    {metadata : Metadata}
    (found : schema.node? d.union = some ⟨.union variants representation, metadata⟩)
    (filled : s.value.content.isHole = false) {f : Findings} {gs : List Findings}
    (logged : ((schema.walk settings level).union ⟨d.union, variants, representation⟩ s).log =
      .ok ((), f))
    (each : List.Forall₂ (fun c g => (schema.check settings level c.1 c.2.1).log = .ok ((), g) ∧
      ¬ g.IsCut)
      ((schema.walk settings level).calls d.union s (.union variants representation)) gs) :
    schema.Settles table (bound + extra) (d.variant, d.target, false) := by
  obtain ⟨visit, placed, position, chooses⟩ := chosen
  obtain ⟨choice, quiet, after, dispatched, rest, -⟩ := Walker.bind_log logged
  have visited : s.Coincide root visit :=
    .of_position coincide.left placed (by rw [← position, here, coincide.position])
  obtain ⟨c, rfl, variant, target⟩ := chooses.again visited explicit found dispatched
  have fits := (Walk.picks_dispatch _ _ s _ quiet dispatched).1 c rfl
  obtain ⟨⟨⟩, selected, checked, -, content, -⟩ := Walker.bind_log rest
  rw [Walk.calls_union dispatched] at each
  rw [variant]
  refine variant_settles settles target (room.imp_right fun apart tag shared => ?_) (fun present => ?_)
    content each
  · have inside : representation = .internal tag := (fits.tagged tag shared).2
    rw [inside] at found
    exact apart d.union variants tag metadata found c.variant fits.variant
  · obtain ⟨tag, present⟩ := Option.ne_none_iff_exists'.1 present
    rw [(fits.tagged tag present).1, filled]

/-- The search for holes settles, in as many levels as the structural pass took if no record shares
its map with a tag, and in twice as many anyway. -/
theorem check_settles (explicit : settings.isLenient = false)
    (chosen : ∀ d ∈ table, schema.ChosenUnder root d) {extra : Nat}
    (room : 0 < extra ∨ schema.SharesNoTags)
    (level : Nat) : schema.SettlesBelow settings root table level ((extra + 1) * level) := by
  induction level with
  | zero =>
      intro id s t isOptional f coincide logged uncut
      exact absurd (isCut_of_check_zero logged) uncut
  | succ level ih =>
      intro id s t isOptional f coincide logged uncut
      have steps : (extra + 1) * (level + 1) = (extra + 1) * level + extra + 1 := by
        rw [Nat.mul_succ]
        omega
      rw [steps]
      rcases check_resolves logged with ⟨name, dangling⟩ | ⟨target, node, resolved⟩
      · exact (settles_dangling dangling).mono (Nat.zero_le _)
      cases filled : s.value.content.isHole with
      | true => exact (settles_hole resolved (by rw [coincide.value, filled])).mono (by omega)
      | false =>
          have filled' : t.value.content.isHole = false := by rw [coincide.value, filled]
          obtain ⟨gs, each, gathers⟩ := check_gathers logged
          have each := gathers.uncut uncut each
          rw [calls_found resolved filled] at each
          apply settles_of_parts resolved filled'
          cases plain : node.shape.isUnion with
          | false =>
              rw [Walk.calls_plain plain] at each
              rw [Site.required_eq plain]
              intro c member
              exact (parts_settle ih coincide each c member).mono (Nat.le_add_right _ extra)
          | true =>
              obtain ⟨shape, metadata⟩ := node
              cases shape with
              | union variants representation =>
                  intro c member
                  unfold Site.required at member
                  cases last : Selection.last? table target t with
                  | none =>
                      rw [last] at member
                      cases member
                  | some d =>
                      rw [last] at member
                      cases List.mem_singleton.1 member
                      obtain ⟨listed, rfl, here⟩ := Selection.last?_mem last
                      have known := chosen d (Selection.mem_below.1 listed).1
                      obtain ⟨g, shaped, -⟩ := check_selects_shape resolved filled ⟨f, logged, rfl⟩
                      exact selection_settles ih coincide explicit room known here (resolve_found resolved).1
                        filled shaped each
              | _ => cases plain

theorem complete_resolves {f : Findings}
    (logged : (schema.complete table (depth + 1) id s isOptional).log = .ok ((), f)) :
    (∃ name, schema.resolve id = .dangling name) ∨
      ∃ target node, schema.resolve id = .found target node := by
  cases resolved : schema.resolve id with
  | found target node => exact .inr ⟨target, node, rfl⟩
  | dangling name => exact .inl ⟨name, rfl⟩
  | _ =>
      rw [complete, Schema.target, resolved] at logged
      cases logged

/-- Whether the search for holes reports, in fewer levels, no others and in the same order. -/
def Shrinks (schema : Schema) (table : List Selection) (depth less : Nat) (c : Call) : Prop :=
  ∀ f, (schema.complete table depth c.1 c.2.1 c.2.2).log = .ok ((), f) →
    ∃ holes fewer, f = .missing holes ∧ fewer.Sublist holes ∧
      (schema.complete table less c.1 c.2.1 c.2.2).log = .ok ((), .missing fewer)

theorem forM_shrinks {less : Nat} {calls : List Call}
    (each : ∀ c ∈ calls, schema.Shrinks table depth less c)
    {f : Findings} (logged : (calls.forM fun c => schema.complete table depth c.1 c.2.1 c.2.2).log =
      .ok ((), f)) :
    ∃ holes fewer, f = .missing holes ∧ fewer.Sublist holes ∧
      (calls.forM fun c => schema.complete table less c.1 c.2.1 c.2.2).log =
        .ok ((), .missing fewer) := by
  induction calls generalizing f with
  | nil =>
      cases logged
      exact ⟨[], [], rfl, .slnil, rfl⟩
  | cons c calls ih =>
      obtain ⟨⟨⟩, before, after, first, rest, rfl⟩ := Walker.bind_log logged
      obtain ⟨holes, fewer, rfl, sublist, short⟩ := each c List.mem_cons_self before first
      obtain ⟨holes', fewer', rfl, sublist', short'⟩ :=
        ih (fun d member => each d (List.mem_cons_of_mem c member)) rest
      refine ⟨holes ++ holes', fewer ++ fewer', ?_, sublist.append sublist', ?_⟩
      · rw [Findings.missing_append]
      · rw [Findings.missing_append]
        exact Walker.log_bind_ok short short'

/-- Holes that the search reports in fewer levels it reports in more. -/
theorem complete_shrinks {less : Nat} (shallower : less ≤ depth) (c : Call) :
    schema.Shrinks table depth less c := by
  induction depth generalizing less c with
  | zero =>
      intro f logged
      cases logged
      cases Nat.le_zero.1 shallower
      exact ⟨[], [], rfl, .slnil, rfl⟩
  | succ depth ih =>
      intro f logged
      obtain ⟨id, s, isOptional⟩ := c
      have shrinks : ∀ less ≤ depth, ∃ holes fewer, f = .missing holes ∧ fewer.Sublist holes ∧
          (schema.complete table (less + 1) id s isOptional).log = .ok ((), .missing fewer) := by
        intro less shallower
        rcases complete_resolves logged with ⟨name, dangling⟩ | ⟨target, node, resolved⟩
        · cases (complete_dangling dangling).symm.trans logged
          exact ⟨[], [], rfl, .slnil, complete_dangling dangling⟩
        cases filled : s.value.content.isHole with
        | true =>
            cases (complete_hole resolved filled).symm.trans logged
            exact ⟨_, _, rfl, .refl _, complete_hole resolved filled⟩
        | false =>
            rw [complete_found resolved filled]
            rw [complete_found resolved filled] at logged
            exact forM_shrinks (fun c _ => ih shallower c) logged
      cases less with
      | zero =>
          obtain ⟨holes, fewer, same, -, -⟩ := shrinks 0 (Nat.zero_le depth)
          exact ⟨holes, [], same, List.nil_sublist holes, rfl⟩
      | succ less => exact shrinks less (Nat.le_of_succ_le_succ shallower)

/-- From the selections of a structural pass that did not meet the limit, the search for holes in
more levels reports what it does in as many, and maybe more. -/
theorem complete_deeper (explicit : settings.isLenient = false) (placed : s.Coincide root s)
    {f : Findings}
    (logged : (schema.check settings level id s).log = .ok ((), f)) (uncut : ¬ f.IsCut)
    (deeper : level ≤ depth) :
    ∃ less more, less.Sublist more ∧
      (schema.complete f.selections level id s false).log = .ok ((), .missing less) ∧
      (schema.complete f.selections depth id s false).log = .ok ((), .missing more) ∧
      (schema.SharesNoTags → Findings.missing more = .missing less) ∧
      (2 * level ≤ depth → ∀ deepest, depth ≤ deepest →
        (schema.complete f.selections deepest id s false).log = .ok ((), .missing more)) := by
  have chosen := check_chooses explicit placed logged
  have settled {extra : Nat} (room : 0 < extra ∨ schema.SharesNoTags) :
      schema.Settles f.selections ((extra + 1) * level) (id, s, false) :=
    check_settles explicit chosen room level id s s false f placed logged uncut
  -- Twice the limit is enough, and on the way down from there the search only loses holes.
  obtain ⟨final, same⟩ := settled (.inl Nat.one_pos)
  have last := same (max depth ((1 + 1) * level)) (Nat.le_max_right _ _)
  obtain ⟨-, more, -, -, reached⟩ := complete_shrinks (Nat.le_max_left _ _) _ final last
  obtain ⟨all, less, equal, sublist, short⟩ := complete_shrinks deeper _ _ reached
  rw [equal] at reached
  refine ⟨less, all, sublist, short, reached, fun apart => ?_, fun twice deepest below => ?_⟩
  · have settles : schema.Settles f.selections ((0 + 1) * level) (id, s, false) :=
      settled (.inr apart)
    obtain ⟨g, same⟩ := settles
    have first := short.symm.trans (same level (by omega))
    have second := reached.symm.trans (same depth (by omega))
    rw [(Prod.mk.inj (Except.ok.inj first)).2, (Prod.mk.inj (Except.ok.inj second)).2]
  · have first := (reached.symm.trans (same depth twice))
    have second := same deepest (Nat.le_trans twice below)
    rwa [← (Prod.mk.inj (Except.ok.inj first)).2] at second

end Schema

/-- A validation that does not meet the limit on nesting succeeds with any larger one, with the same
warnings and errors, but for more holes where a value is required. There are no more if no record
shares its map with a tag, and none are missed with twice the limit. -/
theorem validateNode_deeper (d : Document) (node : NodeId) (schema : Schema) (id : SchemaId)
    (settings : Settings) (depth : Nat) (explicit : settings.isLenient = false)
    (unlimited : settings.maxErrors = 0) (deeper : settings.maxDepth ≤ depth) (r : Report)
    (validated : validateNode d node schema id settings = .ok r)
    (uncut : ∀ e ∈ r.errors, e.mismatch.kind ≠ utf8 "RecursionLimit") :
    ∃ r', validateNode d node schema id { settings with maxDepth := depth } = .ok r' ∧
      r'.warnings = r.warnings ∧ r.errors.Sublist r'.errors ∧
      (∀ e ∈ r'.errors, e ∈ r.errors ∨ e.mismatch = .missingValue) ∧
      (schema.SharesNoTags ∨ r'.errors = r.errors → r' = r) ∧
      (2 * settings.maxDepth ≤ depth → ∀ deepest, depth ≤ deepest →
        validateNode d node schema id { settings with maxDepth := deepest } = .ok r') := by
  obtain ⟨f, found, -⟩ := exists_findings validated
  obtain ⟨inside, structural, holes, checked, searched, -⟩ := findings_of_passes found
  cases (validateNode_of_logs unlimited inside checked searched).symm.trans validated
  have whole : ¬ structural.IsCut :=
    fun ⟨e, member, cut⟩ => uncut e (List.mem_append_left _ member) cut
  obtain ⟨less, more, sublist, short, reached, alike, settled⟩ :=
    Schema.complete_deeper explicit (.root_self (d.valueAt node) []) checked whole deeper
  cases searched.symm.trans short
  have reports {limit : Nat} (above : settings.maxDepth ≤ limit)
      (same : (schema.complete structural.selections limit id ⟨d.valueAt node, [], []⟩ false).log =
        .ok ((), .missing more)) :
      validateNode d node schema id { settings with maxDepth := limit } =
        .ok (structural ++ Findings.missing more).toReport := by
    have again :=
      Schema.check_deeper { settings with maxDepth := limit } explicit explicit checked whole above
    exact validateNode_of_logs unlimited inside again same
  refine ⟨_, reports deeper reached, rfl, ?_, ?_, ?_, fun twice deepest below => ?_⟩
  · exact (sublist.map _).append_left _
  · intro e member
    rcases List.mem_append.1 member with before | after
    · exact .inl (List.mem_append_left _ before)
    · obtain ⟨c, -, rfl⟩ := List.mem_map.1 after
      exact .inr rfl
  · rintro (apart | equal)
    · rw [alike apart]
    · have mapped : more.map _ = less.map _ := List.append_cancel_left equal
      have lengths := congrArg List.length mapped
      rw [List.length_map, List.length_map] at lengths
      rw [sublist.eq_of_length lengths.symm]
  · exact reports (Nat.le_trans deeper below) (settled twice deepest below)

/-- A union whose only variant is a record, with the tag among the fields. -/
private def labels : Schema where
  nodes := #[⟨.integer {} none, {}⟩, ⟨.record [⟨"h", 0, false⟩] false, {}⟩,
    ⟨.union [⟨"A", 1⟩] (.internal "t"), {}⟩]

private def labelled : Document :=
  ⟨#[⟨.map [(.ident "t", 1), (.ident "h", 2)], []⟩, ⟨.primitive (.text ⟨"A", .plaintext⟩), []⟩, {}]⟩

/-- The structural pass meets the hole at its second level, but the search for holes only at its
third. -/
theorem validateNode_deeper_tag :
    ∃ r r', validateNode labelled 0 labels 2 { maxDepth := 2 } = .ok r ∧
      validateNode labelled 0 labels 2 { maxDepth := 3 } = .ok r' ∧
      r.errors = [] ∧ r'.errors = [⟨[.field "h"], .missingValue⟩] ∧ r.errors.Sublist r'.errors := by
  obtain ⟨r', deeper, -, sublist, -⟩ :=
    validateNode_deeper labelled 0 labels 2 { maxDepth := 2 } 3 rfl rfl (by decide)
      ⟨[], [], false, false⟩ rfl
      (by simp)
  cases deeper
  exact ⟨_, _, rfl, rfl, rfl, rfl, sublist⟩

end DocSchema
