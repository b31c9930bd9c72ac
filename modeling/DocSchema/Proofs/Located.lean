import DocSchema.Proofs.Places
import DocSchema.Proofs.Truncation
import DocSchema.Proofs.UnionChecks

set_option autoImplicit false

namespace DocSchema

variable {d : Document} {n : NodeId} {schema : Schema} {path : Path} {α β : Type}

/-- Whether a finding is that a map lacks a field or a content, one step below the path of the
map. -/
def Document.Lacks (d : Document) (n : NodeId) (e : Finding) : Prop :=
  ∃ parent name m, (e.mismatch = .missingField name ∨ e.mismatch = .missingContent name) ∧
    e.path = parent ++ [.field name] ∧ d.Leads n parent m ∧ (d.node m).content.field? name = none

/-- Whether all that was found is about nodes of the document. -/
structure Findings.AreLocated (d : Document) (n : NodeId) (f : Findings) : Prop where
  errors : ∀ e ∈ f.errors, d.IsPath n e.path ∨ d.Lacks n e
  warnings : ∀ w ∈ f.warnings, d.IsPath n w.1
  targets : ∀ c ∈ f.selections, c.target.IsAt d n

namespace Findings.AreLocated

variable {f g : Findings}

theorem empty : ({} : Findings).AreLocated d n :=
  ⟨by simp, by simp, by simp⟩

theorem append (first : f.AreLocated d n) (second : g.AreLocated d n) :
    (f ++ g).AreLocated d n where
  errors := List.forall_mem_append.2 ⟨first.errors, second.errors⟩
  warnings := List.forall_mem_append.2 ⟨first.warnings, second.warnings⟩
  targets := List.forall_mem_append.2 ⟨first.targets, second.targets⟩

theorem error {e : Finding} (isIncomplete : Bool) (located : d.IsPath n e.path ∨ d.Lacks n e) :
    Findings.AreLocated d n { errors := [e], isIncomplete } :=
  ⟨by simpa using located, by simp, by simp⟩

end Findings.AreLocated

namespace Walker

/-- Whether a walker that ends finds what is located, and gives a result of a kind. -/
def Locates (d : Document) (n : NodeId) (post : α → Prop) (x : Walker α) : Prop :=
  ∀ a f, x.log = .ok (a, f) → post a ∧ f.AreLocated d n

namespace Locates

variable {post : α → Prop} {next : β → Prop} {x : Walker α}

theorem of_log {a : α} {f : Findings} (logged : x.log = .ok (a, f)) (holds : post a)
    (located : f.AreLocated d n) : Locates d n post x := by
  intro b g other
  cases logged.symm.trans other
  exact ⟨holds, located⟩

theorem pure {a : α} (holds : post a) : Locates d n post (Pure.pure a) :=
  .of_log rfl holds .empty

theorem abort {e : Failure} : Locates d n post (Walker.abort e) := by
  intro a f logged
  cases logged

theorem report {m : Mismatch} (located : d.IsPath n path) :
    Locates d n (fun _ => True) (Walker.report path m) :=
  .of_log rfl trivial (.error false (.inl located))

theorem expect {holds : Bool} {m : Mismatch} (located : d.IsPath n path) :
    Locates d n (fun _ => True) (Check.expect holds path m) := by
  cases holds
  · exact .report located
  · exact .pure trivial

/-- A map that lacks a field may be reported to. -/
theorem expectPart {holds : Bool} {m : Mismatch} (lacking : d.Lacks n ⟨path, m⟩) :
    Locates d n (fun _ => True) (Check.expect holds path m) := by
  cases holds
  · exact .of_log rfl trivial (.error false (.inr lacking))
  · exact .pure trivial

theorem bind {h : α → Walker β} (first : Locates d n post x)
    (further : ∀ a, post a → Locates d n next (h a)) : Locates d n next (x >>= h) := by
  intro b f logged
  obtain ⟨a, before, after, found, rest, rfl⟩ := bind_log logged
  obtain ⟨holds, located⟩ := first a before found
  obtain ⟨holds', located'⟩ := further a holds b after rest
  exact ⟨holds', located.append located'⟩

theorem forM {items : List β} {h : β → Walker Unit}
    (each : ∀ b ∈ items, Locates d n (fun _ => True) (h b)) :
    Locates d n (fun _ => True) (items.forM h) := by
  induction items with
  | nil => exact .pure trivial
  | cons b items ih =>
      exact (each b List.mem_cons_self).bind fun _ _ =>
        ih fun c member => each c (List.mem_cons_of_mem b member)

/-- What a trial finds is dropped. -/
theorem accepts {x : Walker Unit} : Locates d n (fun _ => True) x.accepts := by
  intro a f logged
  rw [log_accepts] at logged
  cases found : x.log with
  | error e =>
      rw [found] at logged
      cases logged
  | ok r =>
      rw [found] at logged
      cases logged
      exact ⟨trivial, .empty⟩

theorem lift (y : Except Failure α) : Locates d n (fun _ => True) (Walker.lift y) := by
  cases y with
  | error e => exact .abort
  | ok a => exact .pure trivial

theorem follow (schema : Schema) (id : SchemaId) (located : d.IsPath n path) :
    Locates d n (fun _ => True) (Walker.follow schema id path) := by
  apply (Locates.lift (schema.target id path)).bind
  intro target _
  cases target with
  | node target node => exact .pure trivial
  | undefined name => exact (Locates.report located).bind fun _ _ => .pure trivial

end Locates

end Walker

open Walker (Locates)

namespace Check

theorem text_locates (length : Counts) (p lang : Option Bytes) (t : Text)
    (located : d.IsPath n path) :
    Locates d n (fun _ => True) (text length p lang t path) := by
  have spoken : Locates d n (fun _ => True) (language lang t path) := by
    unfold language
    split
    · exact .expect located
    · exact .pure trivial
  have matched : Locates d n (fun _ => True) (pattern p t path) := by
    unfold pattern
    split
    · exact .pure trivial
    · split
      · exact .abort
      · exact .expect located
  exact spoken.bind fun _ _ => (Locates.expect located).bind fun _ _ => matched

theorem integer_locates (range : Range) (multipleOf : Option Int64) (i : Int64)
    (located : d.IsPath n path) :
    Locates d n (fun _ => True) (integer range multipleOf i path) := by
  apply (Locates.expect located).bind
  intro _ _
  split
  · exact .pure trivial
  · exact .expect located

theorem float_locates (range : Range) (multipleOf : Option Number) (x : Binary64)
    (located : d.IsPath n path) : Locates d n (fun _ => True) (float range multipleOf x path) := by
  apply (Locates.expect located).bind
  intro _ _
  split
  · exact .pure trivial
  · exact .expect located

theorem key_locates (schema : Schema) (id : SchemaId) (k : Key) (located : d.IsPath n path) :
    Locates d n (fun _ => True) (key schema id k path) := by
  apply (Locates.follow schema id located).bind
  intro found _
  cases found with
  | none => exact .pure trivial
  | some e =>
      dsimp only
      unfold keyShape
      split
      · exact .pure trivial
      · exact text_locates _ _ _ _ located
      · exact integer_locates _ _ _ located
      · exact .pure trivial
      · exact .expect located
      · exact .report located

end Check

/-- Whether the check of the level below locates what it finds. -/
def Walk.LocatesParts (w : Walk) (d : Document) (n : NodeId) : Prop :=
  ∀ id (s : Site), s.IsAt d n → Locates d n (fun _ => True) (w.check id s)

namespace Walk

variable {w : Walk} {u : UnionType} {s : Site} {id : SchemaId}

theorem unknownFields_locates (isKnown : Bytes → Bool) {entries : List (Key × Site)}
    (placed : ∀ e ∈ entries, e.2.IsAt d n) :
    Locates d n (fun _ => True) (unknownFields isKnown entries) :=
  .forM fun e member => .expect (placed e member).leads

section Structure

variable (ordered : d.IsOrdered) (below : w.LocatesParts d n) (placed : s.IsAt d n)
include ordered below placed

theorem record_locates (fields : List (Field SchemaId)) (allowsUnknown : Bool)
    (tag : Option Bytes) :
    Locates d n (fun _ => True) (w.record fields allowsUnknown tag s) := by
  have each (f : Field SchemaId) : Locates d n (fun _ => True) (w.field s f) := by
    unfold Walk.field
    split
    · next part found => exact below _ part (placed.field ordered found)
    · next absent =>
      obtain ⟨m, leads, none⟩ := placed.noField ordered absent
      exact .expectPart ⟨s.path, f.name, m, .inl rfl, rfl, leads, none⟩
  unfold Walk.record
  split
  · exact .report placed.leads
  · next entries found =>
    apply (Locates.forM fun f _ => each f).bind
    intro _ _
    split
    · exact .pure trivial
    · exact unknownFields_locates _ (placed.entry ordered found)

theorem array_locates (item : SchemaId) (length : Counts) (isUnique : Bool) :
    Locates d n (fun _ => True) (w.array item length isUnique s) := by
  unfold Walk.array
  split
  · exact .report placed.leads
  · next items found =>
    have inside := placed.item ordered found
    apply (Locates.expect placed.leads).bind
    intro _ _
    apply (Locates.forM fun part member => below item part (inside part member)).bind
    intro _ _
    split
    · refine .forM fun e member => ?_
      obtain ⟨i, inBounds, rfl⟩ := List.mem_mapIdx.1 member
      dsimp only
      split
      · exact .report (inside _ (List.getElem_mem inBounds)).leads
      · exact .pure trivial
    · exact .pure trivial

theorem map_locates (key value : SchemaId) (size : Counts) :
    Locates d n (fun _ => True) (w.map key value size s) := by
  unfold Walk.map
  split
  · exact .report placed.leads
  · next entries found =>
    have inside := placed.entry ordered found
    apply (Locates.expect placed.leads).bind
    intro _ _
    exact .forM fun e member => (Check.key_locates _ _ _ (inside e member).leads).bind fun _ _ =>
      below value e.2 (inside e member)

theorem tuple_locates (types : List SchemaId) :
    Locates d n (fun _ => True) (w.tuple types s) := by
  unfold Walk.tuple
  split
  · exact .report placed.leads
  · next elements found =>
    apply (Locates.expect placed.leads).bind
    intro _ _
    exact .forM fun e member => below e.1 e.2
      (placed.element ordered found e.2 (List.of_mem_zip member).2)

end Structure

/-- Whether a choice, if there is one, has its content in the document. -/
def ChoosesAt (d : Document) (n : NodeId) (choice : Option Choice) : Prop :=
  ∀ c ∈ choice, c.target.IsAt d n

theorem refuse_locates {m : Mismatch} (located : d.IsPath n path) :
    Locates d n (ChoosesAt d n) (refuse path m) :=
  (Locates.report located).bind fun _ _ => .pure (by simp [ChoosesAt])

theorem choose_locates (name : Bytes) {target : Site} (placed : target.IsAt d n)
    (tag : Option Bytes)
    (located : d.IsPath n path) : Locates d n (ChoosesAt d n) (choose u name target path tag) := by
  unfold choose
  split
  · exact refuse_locates located
  · refine .pure fun c same => ?_
    obtain rfl := Option.mem_some_iff.1 same
    exact placed

theorem candidates_locates (vs : List (Variant SchemaId)) :
    Locates d n (fun _ => True) (w.candidates s vs) := by
  have candidate (v : Variant SchemaId) : Locates d n (fun _ => True) (w.candidate? s v) := by
    have tried : Locates d n (fun _ => True)
        (do return if ← Walker.accepts (w.check v.schema s) then some false else none) :=
      Locates.accepts.bind fun _ _ => .pure trivial
    apply (Locates.lift (w.schema.target v.schema s.path)).bind
    intro target _
    cases target with
    | undefined name => exact .pure trivial
    | node target node =>
        dsimp only
        split
        · exact .pure trivial
        · exact tried
  induction vs with
  | nil => exact .pure trivial
  | cons v vs ih => exact (candidate v).bind fun _ _ => ih.bind fun _ _ => .pure trivial

theorem untagged_locates {target : Site} (placed : target.IsAt d n) :
    Locates d n (ChoosesAt d n) (w.untagged u target) := by
  unfold untagged
  split
  · apply (candidates_locates u.variants).bind
    intro found _
    split
    · exact choose_locates _ placed none placed.leads
    · split <;> exact refuse_locates placed.leads
  · split <;> exact refuse_locates placed.leads

/-- Whether the extension that names a variant, if one does, is there. -/
def NamesAt (d : Document) (n : NodeId) (s : Site) (extension : Option Bytes) : Prop :=
  ∀ name ∈ extension, d.IsPath n (extensionPath s)

theorem byExtension_locates {extension : Option Bytes} (placed : s.IsAt d n)
    (named : NamesAt d n s extension) :
    Locates d n (ChoosesAt d n) (w.byExtension u s extension) := by
  cases extension with
  | none => exact untagged_locates placed
  | some name => exact choose_locates name placed none (named name rfl)

theorem agreed_locates {extension : Option Bytes} {name : Bytes} {chosen : Walker (Option Choice)}
    (placed : s.IsAt d n) (locates : Locates d n (ChoosesAt d n) chosen) :
    Locates d n (ChoosesAt d n) (agreed s extension name chosen) := by
  unfold agreed
  split
  · exact refuse_locates placed.leads
  · exact locates

theorem withTag_locates {field : Site} {next : Bytes → Walker (Option Choice)}
    (placed : field.IsAt d n) (locates : ∀ name, Locates d n (ChoosesAt d n) (next name)) :
    Locates d n (ChoosesAt d n) (withTag field next) := by
  unfold withTag
  split
  · exact locates _
  · exact refuse_locates placed.leads

section Union

variable (ordered : d.IsOrdered) (placed : s.IsAt d n)
include ordered placed

theorem external_locates {extension : Option Bytes} (named : NamesAt d n s extension) :
    Locates d n (ChoosesAt d n) (w.external u s extension) := by
  have entries : ∀ e ∈ s.entries?.getD [], e.2.IsAt d n := by
    cases found : s.entries? with
    | none => simp
    | some entries => exact placed.entry ordered found
  unfold external
  dsimp only
  split
  · split
    · exact byExtension_locates placed named
    · exact refuse_locates placed.leads
  · next i name content only =>
    have member : (i, name, content) ∈ namedEntries u (s.entries?.getD []) := by
      rw [only]
      exact List.mem_singleton_self _
    have inside : content.IsAt d n := by
      obtain ⟨inBounds, -, -, rfl⟩ := mem_namedEntries.1 member
      exact entries _ (List.getElem_mem inBounds)
    refine agreed_locates placed ((unknownFields_locates _ ?_).bind fun _ _ =>
      choose_locates name inside none inside.leads)
    exact fun e member => entries e (List.mem_of_mem_eraseIdx member)
  · exact refuse_locates placed.leads

theorem internal_locates (tag : Bytes) {extension : Option Bytes}
    (named : NamesAt d n s extension) :
    Locates d n (ChoosesAt d n) (w.internal u tag s extension) := by
  unfold internal
  split
  · exact refuse_locates placed.leads
  · split
    · exact byExtension_locates placed named
    · next field found =>
      have inside := placed.field ordered found
      exact withTag_locates inside fun name =>
        agreed_locates placed (choose_locates name placed (some tag) inside.leads)

theorem adjacentNamed_locates (content name : Bytes) (located : d.IsPath n path) :
    Locates d n (ChoosesAt d n) (w.adjacentNamed u content name s path) := by
  unfold adjacentNamed
  split
  · next part found => exact choose_locates name (placed.field ordered found) none located
  · next absent =>
    obtain ⟨m, leads, none⟩ := placed.noField ordered absent
    have contentless : Locates d n (fun _ => True) (w.contentless u content name s path) := by
      unfold contentless
      split
      · exact .report located
      · apply (Locates.follow w.schema _ placed.leads).bind
        intro found _
        cases found with
        | none => exact .pure trivial
        | some e => exact .expectPart ⟨s.path, content, m, .inr rfl, rfl, leads, none⟩
    exact contentless.bind fun _ _ => .pure (by simp [ChoosesAt])

theorem adjacent_locates (tag content : Bytes) {extension : Option Bytes}
    (named : NamesAt d n s extension) :
    Locates d n (ChoosesAt d n) (w.adjacent u tag content s extension) := by
  unfold adjacent
  split
  · exact refuse_locates placed.leads
  · next entries found =>
    apply (unknownFields_locates _ (placed.entry ordered found)).bind
    intro _ _
    split
    · next field found =>
      have inside := placed.field ordered found
      exact withTag_locates inside fun name =>
        agreed_locates placed (adjacentNamed_locates ordered placed content name inside.leads)
    · next name _ => exact adjacentNamed_locates ordered placed content name (named name rfl)
    · split
      · next part found => exact untagged_locates (placed.field ordered found)
      · exact refuse_locates placed.leads

theorem dispatch_locates : Locates d n (ChoosesAt d n) (w.dispatch u s) := by
  unfold dispatch
  extract_lets named
  have locates {extension : Option Bytes} (names : NamesAt d n s extension) :
      Locates d n (ChoosesAt d n) (named extension) := by
    unfold named
    split
    · exact byExtension_locates placed names
    · exact external_locates ordered placed names
    · exact internal_locates ordered placed _ names
    · exact adjacent_locates ordered placed _ _ names
  split
  · exact locates (by simp [NamesAt])
  · next extension found =>
    have there := placed.extension ordered found
    split
    · exact locates fun _ _ => there
    · exact refuse_locates there

end Union

variable (ordered : d.IsOrdered) (below : w.LocatesParts d n)
include ordered below

theorem variant_locates (id : SchemaId) (tag : Option Bytes) (placed : s.IsAt d n) :
    Locates d n (fun _ => True) (w.variant id tag s) := by
  cases tag with
  | none => exact below id s placed
  | some name =>
      apply (Locates.follow w.schema id placed.leads).bind
      intro found _
      cases found with
      | none => exact .pure trivial
      | some e =>
          obtain ⟨target, shape, metadata⟩ := e
          cases shape
          case record fields allowsUnknown =>
            exact record_locates ordered below placed fields allowsUnknown _
          case null =>
            cases found : s.entries? with
            | none => exact unknownFields_locates _ (by simp)
            | some entries => exact unknownFields_locates _ (placed.entry ordered found)
          all_goals exact below id s placed

theorem union_locates (placed : s.IsAt d n) : Locates d n (fun _ => True) (w.union u s) := by
  apply (dispatch_locates ordered placed).bind
  intro choice chosen
  cases choice with
  | none => exact .pure trivial
  | some c =>
      have target := chosen c rfl
      have selected : Locates d n (fun _ => True)
          (Walker.select ⟨s.position, u.id, c.variant.schema, c.target⟩) :=
        .of_log rfl trivial ⟨by simp, by simp, by simpa using target⟩
      exact selected.bind fun _ _ => variant_locates ordered below _ _ target

theorem shape_locates (placed : s.IsAt d n) (shape : Shape SchemaId) :
    Locates d n (fun _ => True) (w.shape id s shape) := by
  have located := placed.leads
  unfold Walk.shape
  cases shape with
  | text length p lang =>
      dsimp only
      split
      · exact Check.text_locates _ _ _ _ located
      · exact .report located
  | integer range multipleOf =>
      dsimp only
      split
      · exact Check.integer_locates _ _ _ located
      · exact .report located
  | float range multipleOf =>
      dsimp only
      split
      · exact Check.float_locates _ _ _ located
      · exact .report located
  | boolean =>
      dsimp only
      split
      · exact .pure trivial
      · exact .report located
  | null =>
      dsimp only
      split
      · exact .pure trivial
      · exact .report located
  | any => exact .pure trivial
  | literal expected => exact .expect located
  | record fields allowsUnknown =>
      exact record_locates ordered below placed fields allowsUnknown none
  | array item length isUnique => exact array_locates ordered below placed item length isUnique
  | map key value size => exact map_locates ordered below placed key value size
  | tuple elements => exact tuple_locates ordered below placed elements
  | union variants representation => exact union_locates ordered below placed
  | reference name => exact .abort

end Walk

namespace Schema

/-- What the structural pass finds lies at nodes of the document. -/
theorem check_locates (ordered : d.IsOrdered) (settings : Settings) (depth : Nat) (id : SchemaId)
    {s : Site}
    (placed : s.IsAt d n) : Locates d n (fun _ => True) (schema.check settings depth id s) := by
  induction depth generalizing id s with
  | zero => exact .report placed.leads
  | succ depth ih =>
      apply (Locates.follow schema id placed.leads).bind
      intro found _
      cases found with
      | none => exact .pure trivial
      | some e =>
          have deprecation (isDeprecated : Bool) : Locates d n (fun _ => True)
              (Check.deprecation isDeprecated s.path) := by
            cases isDeprecated
            · exact .pure trivial
            · exact .of_log rfl trivial ⟨by simp, by simpa using placed.leads, by simp⟩
          have below : Walk.LocatesParts
              ⟨schema, settings.isLenient, schema.check settings depth⟩ d n :=
            fun id _ part => ih id part
          dsimp only
          split
          · exact .pure trivial
          · exact (deprecation _).bind fun _ _ => Walk.shape_locates ordered below placed _

theorem required_isAt (ordered : d.IsOrdered) {selections : List Selection} {s : Site}
    (id : SchemaId)
    (selected : ∀ c ∈ selections, c.target.IsAt d n) (placed : s.IsAt d n)
    (shape : Shape SchemaId) :
    ∀ part ∈ s.required selections id shape, part.2.1.IsAt d n := by
  intro part member
  cases shape with
  | record fields allowsUnknown =>
      obtain ⟨f, -, found⟩ := List.mem_filterMap.1 member
      obtain ⟨site, field, rfl⟩ := Option.map_eq_some_iff.1 found
      exact placed.field ordered field
  | array item length isUnique =>
      obtain ⟨site, listed, rfl⟩ := List.mem_map.1 member
      cases found : s.array? with
      | none => simp [found] at listed
      | some items => exact placed.item ordered found site (by simpa [found] using listed)
  | map key value size =>
      obtain ⟨e, listed, rfl⟩ := List.mem_map.1 member
      cases found : s.entries? with
      | none => simp [found] at listed
      | some entries => exact placed.entry ordered found e (by simpa [found] using listed)
  | tuple elements =>
      obtain ⟨e, listed, rfl⟩ := List.mem_map.1 member
      have listed := (List.of_mem_zip listed).2
      cases found : s.tuple? with
      | none => simp [found] at listed
      | some sites => exact placed.element ordered found e.2 (by simpa [found] using listed)
  | union variants representation =>
      unfold Site.required at member
      cases last : Selection.last? selections id s with
      | none => simp [last] at member
      | some c =>
          rw [last] at member
          rw [List.mem_singleton.1 member]
          exact selected c (List.mem_reverse.1 (List.mem_of_find?_eq_some last))
  | _ => cases member

/-- So do the holes that are missing values. -/
theorem complete_locates (ordered : d.IsOrdered) {selections : List Selection}
    (selected : ∀ c ∈ selections, c.target.IsAt d n) (depth : Nat) (id : SchemaId) {s : Site}
    (placed : s.IsAt d n) (isOptional : Bool) :
    Locates d n (fun _ => True) (schema.complete selections depth id s isOptional) := by
  induction depth generalizing id s isOptional with
  | zero => exact .pure trivial
  | succ depth ih =>
      apply (Locates.lift (schema.target id s.path)).bind
      intro target _
      cases target with
      | undefined name => exact .pure trivial
      | node target node =>
          dsimp only
          split
          · unfold Check.hole
            split
            · exact .pure trivial
            · exact .of_log rfl trivial (.error true (.inl placed.leads))
          · exact .forM fun part member =>
              ih part.1 (required_isAt ordered target selected placed node.shape part member) part.2.2

end Schema

theorem findingsOf_located (ordered : d.IsOrdered) {id : SchemaId} {settings : Settings}
    {f : Findings}
    (found : findingsOf (d.valueAt n) schema id settings = .ok f) : f.AreLocated d n := by
  obtain ⟨-, structural, holes, checked, searched, rfl⟩ := findings_of_passes found
  have placed := Site.IsAt.root d n
  have first := (Schema.check_locates ordered settings settings.maxDepth id placed _ _ checked).2
  exact first.append
    (Schema.complete_locates ordered first.targets settings.maxDepth id placed false _ _ searched).2

/-- Whether a path leads to a node, to which it resolves unless it strays. -/
def Document.Finds (d : Document) (n : NodeId) (path : Path) : Prop :=
  ∃ m, d.Leads n path m ∧ (d.resolve path n = .ok m ∨ d.Strays n path)

/-- Whether a finding is that a map lacks a field or a content. The path of the map resolves, and
that of the finding does not, unless the former strays. -/
def Document.Misses (d : Document) (n : NodeId) (e : Finding) : Prop :=
  ∃ parent name m, (e.mismatch = .missingField name ∨ e.mismatch = .missingContent name) ∧
    e.path = parent ++ [.field name] ∧ d.Leads n parent m ∧
    (d.resolve parent n = .ok m ∧ d.resolve e.path n = .error ⟨.pathNotFound, e.path⟩ ∨
      d.Strays n parent)

/-- Whether a report says of all that it reports where it is. -/
structure Report.IsLocated (d : Document) (n : NodeId) (r : Report) : Prop where
  errors : ∀ e ∈ r.errors, d.Finds n e.path ∨ d.Misses n e
  warnings : ∀ w ∈ r.warnings, d.Finds n w.1

theorem Document.IsPath.finds (located : d.IsPath n path) (ordered : d.IsOrdered) :
    d.Finds n path :=
  located.imp fun _ leads => ⟨leads, leads.resolves ordered⟩

theorem Document.Lacks.misses {e : Finding} (lacks : d.Lacks n e) (ordered : d.IsOrdered) :
    d.Misses n e := by
  obtain ⟨parent, name, m, kind, path, leads, none⟩ := lacks
  refine ⟨parent, name, m, kind, path, leads,
    (leads.resolves ordered).imp_left fun resolved => ⟨resolved, ?_⟩⟩
  rw [path]
  exact resolve_field_error none resolved

/-- All that is reported for a built document is located in it: every path leads to a node, or is
that of a field or a content that a map lacks. The path resolves as it is written, unless on its way
a name stands for a key that is not written as the name is. -/
theorem validateNode_located (built : d.IsBuilt) {id : SchemaId} {settings : Settings} {r : Report}
    (validated : validateNode d n schema id settings = .ok r) : r.IsLocated d n := by
  have ordered := built.isOrdered
  obtain ⟨f, found, rfl⟩ := exists_findings validated
  have located := findingsOf_located ordered found
  constructor
  · intro e reported
    exact (located.errors e (mem_errors_of_reported reported)).imp (·.finds ordered)
      (·.misses ordered)
  · intro w reported
    rw [toReport_add] at reported
    exact (located.warnings w reported).finds ordered

/-- A text under a text key, and a record that asks for an integer under the name. -/
private def quoted : Document :=
  ⟨#[⟨.map [(.literal (.text "x"), 1)], []⟩, ⟨.primitive (.text ⟨"a", .plaintext⟩), []⟩]⟩

private theorem quoted_isBuilt : quoted.IsBuilt :=
  .of_run [.insert 0 (.literal (.text "x")), .assign 1 (.text ⟨"a", .plaintext⟩)] rfl rfl

private def asking : Schema where
  nodes := #[⟨.integer {} none, {}⟩, ⟨.record [⟨"x", 0, false⟩] false, {}⟩]

/-- The finding is reported at the name, which leads to the text only by its spelling. -/
theorem validateNode_located_quoted :
    quoted.IsBuilt ∧
      Report.IsLocated quoted 0 ⟨[⟨[.ident "x"], .wrongKind "integer" "text"⟩], [], false, false⟩ ∧
      quoted.resolve [.ident "x"] 0 = .error ⟨.pathNotFound, [.ident "x"]⟩ := by
  have validated : validateNode quoted 0 asking 1 {} =
      .ok ⟨[⟨[.ident "x"], .wrongKind "integer" "text"⟩], [], false, false⟩ := rfl
  exact ⟨quoted_isBuilt, validateNode_located quoted_isBuilt validated, rfl⟩

end DocSchema
