import DocSchema.Proofs.Explained
import DocSchema.Proofs.Truncation
import DocSchema.Proofs.Writing

set_option autoImplicit false

namespace DocSchema

open Relation (TransGen)
open Walker (Explained)

variable {schema : Schema} {start id : SchemaId}

namespace Schema

/-- The type that a walk goes on with is reached, it is in the table, and it is no reference. -/
theorem target_explained (reached : schema.Reaches start id) (path : Path) :
    Explained schema start
      (fun
        | .node target node => schema.Reaches start target ∧ schema.node? target = some node ∧
            ∀ name, node.shape ≠ .reference name
        | .undefined name => schema.Lacks start name)
      (Walker.lift (schema.target id path)) := by
  have ends := schema.resolve_ends id
  unfold Schema.target
  generalize schema.resolve id = o at ends
  cases ends with
  | found refers found solid => exact .pure ⟨reached.refersAll refers, found, solid⟩
  | @dangling last name metadata refers found unregistered =>
      exact .pure ⟨last, metadata, reached.refersAll refers, found, unregistered⟩
  | @cyclic last name metadata refers found again =>
      exact .abort ⟨last, metadata, reached.refersAll refers, found, again⟩
  | missing outside => exact .abort ⟨id, reached, outside⟩
  | @missingTarget last target name metadata refers found registered outside =>
      exact .abort ⟨target, (reached.refersAll refers).named found registered, registered, outside⟩

theorem follow_explained (reached : schema.Reaches start id) (path : Path) :
    Explained schema start
      (fun found => ∀ e ∈ found, schema.Reaches start e.1 ∧ schema.node? e.1 = some e.2 ∧
        ∀ name, e.2.shape ≠ .reference name)
      (Walker.follow schema id path) := by
  apply (target_explained reached path).bind
  intro target known
  cases target with
  | node target node =>
      refine .pure ?_
      intro e same
      have same := Option.mem_some_iff.1 same
      subst same
      exact known
  | undefined name =>
      exact (Explained.report (m := .undefinedType name) known).bind fun _ _ => .pure (by simp)

end Schema

namespace Check

variable {path : Path}

theorem wrongKind_explained (expected : Bytes) (s : Site) :
    Explained schema start (fun _ => True) (wrongKind expected s) :=
  .report trivial

theorem language_explained (expected : Option Bytes) (t : Text) :
    Explained schema start (fun _ => True) (language expected t path) := by
  unfold language
  split
  · exact .expect trivial
  · exact .pure trivial

theorem pattern_explained {p : Option Bytes} {t : Text}
    (shown : ∀ q ∈ p, Pattern.compile? q = none → schema.Shows start (.invalidPattern q)) :
    Explained schema start (fun _ => True) (pattern p t path) := by
  unfold pattern
  split
  · exact .pure trivial
  · next q =>
    split
    · next invalid => exact .abort (shown q rfl invalid)
    · exact .expect trivial

theorem text_explained {length : Counts} {p lang : Option Bytes} {t : Text}
    (shown : ∀ q ∈ p, Pattern.compile? q = none → schema.Shows start (.invalidPattern q)) :
    Explained schema start (fun _ => True) (text length p lang t path) :=
  (language_explained lang t).bind fun _ _ =>
    (Explained.expect (by trivial)).bind fun _ _ => pattern_explained shown

theorem integer_explained (range : Range) (multipleOf : Option Int64) (i : Int64) :
    Explained schema start (fun _ => True) (integer range multipleOf i path) := by
  apply (Explained.expect (by trivial)).bind
  intro _ _
  split
  · exact .pure trivial
  · exact .expect trivial

theorem float_explained (range : Range) (multipleOf : Option Number) (x : Binary64) :
    Explained schema start (fun _ => True) (float range multipleOf x path) := by
  apply (Explained.expect (by trivial)).bind
  intro _ _
  split
  · exact .pure trivial
  · exact .expect trivial

/-- Whether the pattern of a shape, if it has one, is a flaw of the schema unless it compiles. -/
theorem shows_pattern {length : Counts} {p lang : Option Bytes} {metadata : Metadata}
    (reached : schema.Reaches start id)
    (found : schema.node? id = some ⟨.text length p lang, metadata⟩) :
    ∀ q ∈ p, Pattern.compile? q = none → schema.Shows start (.invalidPattern q) := by
  intro q same invalid
  have same := Option.mem_def.1 same
  subst same
  exact ⟨id, metadata, length, lang, reached, found, invalid⟩

theorem key_explained (reached : schema.Reaches start id) (k : Key) :
    Explained schema start (fun _ => True) (key schema id k path) := by
  apply (Schema.follow_explained reached path).bind
  intro found known
  cases found with
  | none => exact .pure trivial
  | some e =>
      obtain ⟨target, shape, metadata⟩ := e
      obtain ⟨further, inside, -⟩ := known _ rfl
      dsimp only at further inside ⊢
      unfold keyShape
      split
      · exact .pure trivial
      · exact text_explained (shows_pattern further inside)
      · exact integer_explained _ _ _
      · exact .pure trivial
      · exact .expect trivial
      · exact .report trivial

end Check

/-- Whether the check of the level below is explained, for the types that are reached. -/
def Walk.ExplainsParts (w : Walk) (start : SchemaId) : Prop :=
  ∀ id s, w.schema.Reaches start id → Explained w.schema start (fun _ => True) (w.check id s)

namespace Walk

variable {w : Walk} {u : UnionType} {s : Site}

theorem unknownFields_explained (isKnown : Bytes → Bool) (entries : List (Key × Site)) :
    Explained schema start (fun _ => True) (unknownFields isKnown entries) :=
  .forM fun _ _ => .expect trivial

theorem duplicates_explained (items : List Site) :
    Explained schema start (fun _ => True) (duplicates items) := by
  refine .forM fun e _ => ?_
  dsimp only
  split
  · exact .report trivial
  · exact .pure trivial

section Structure

variable (below : w.ExplainsParts start)
include below

theorem record_explained {fields : List (Field SchemaId)} {allowsUnknown : Bool}
    {tag : Option Bytes} (reached : ∀ f ∈ fields, w.schema.Reaches start f.schema) :
    Explained w.schema start (fun _ => True) (w.record fields allowsUnknown tag s) := by
  have each (f : Field SchemaId) (member : f ∈ fields) :
      Explained w.schema start (fun _ => True) (w.field s f) := by
    unfold Walk.field
    split
    · exact below _ _ (reached f member)
    · exact .expect trivial
  unfold Walk.record
  split
  · exact Check.wrongKind_explained _ _
  · apply (Explained.forM each).bind
    intro _ _
    split
    · exact .pure trivial
    · exact unknownFields_explained _ _

theorem array_explained {item : SchemaId} {length : Counts} {isUnique : Bool}
    (reached : w.schema.Reaches start item) :
    Explained w.schema start (fun _ => True) (w.array item length isUnique s) := by
  unfold Walk.array
  split
  · exact Check.wrongKind_explained _ _
  · apply (Explained.expect (by trivial)).bind
    intro _ _
    apply (Explained.forM fun part _ => below item part reached).bind
    intro _ _
    split
    · exact duplicates_explained _
    · exact .pure trivial

theorem map_explained {key value : SchemaId} {size : Counts}
    (keys : w.schema.Reaches start key) (values : w.schema.Reaches start value) :
    Explained w.schema start (fun _ => True) (w.map key value size s) := by
  unfold Walk.map
  split
  · exact Check.wrongKind_explained _ _
  · apply (Explained.expect (by trivial)).bind
    intro _ _
    exact .forM fun e _ => (Check.key_explained keys e.1).bind fun _ _ => below value e.2 values

theorem tuple_explained {types : List SchemaId}
    (reached : ∀ id ∈ types, w.schema.Reaches start id) :
    Explained w.schema start (fun _ => True) (w.tuple types s) := by
  unfold Walk.tuple
  split
  · exact Check.wrongKind_explained _ _
  · apply (Explained.expect (by trivial)).bind
    intro _ _
    exact .forM fun e member => below e.1 e.2 (reached e.1 (List.of_mem_zip member).1)

end Structure

/-- What a choice has to be: a variant of the union. -/
def ChoosesOf (u : UnionType) (choice : Option Choice) : Prop :=
  ∀ c ∈ choice, c.variant ∈ u.variants

theorem refuse_explained {path : Path} {m : Mismatch} (answered : schema.Answers start m) :
    Explained schema start (ChoosesOf u) (refuse path m) :=
  (Explained.report answered).bind fun _ _ => .pure (by simp [ChoosesOf])

theorem choose_explained (name : Bytes) (target : Site) (tagPath : Path) (tag : Option Bytes) :
    Explained schema start (ChoosesOf u) (choose u name target tagPath tag) := by
  unfold choose
  split
  · exact refuse_explained trivial
  · next v found =>
    refine .pure ?_
    intro c same
    have same := Option.mem_some_iff.1 same
    subst same
    exact List.mem_of_find?_eq_some found

section Union

variable (below : w.ExplainsParts start)
  (reached : ∀ v ∈ u.variants, w.schema.Reaches start v.schema)
include below reached

omit reached in
theorem candidate?_explained {v : Variant SchemaId} (inside : w.schema.Reaches start v.schema) :
    Explained w.schema start (fun _ => True) (w.candidate? s v) := by
  have tried : Explained w.schema start (fun _ => True)
      (do return if ← Walker.accepts (w.check v.schema s) then some false else none) :=
    (below v.schema s inside).accepts.bind fun _ _ => .pure trivial
  apply (Schema.target_explained inside s.path).bind
  intro target _
  cases target with
  | undefined name => exact .pure trivial
  | node target node =>
      dsimp only
      split
      · exact .pure trivial
      · exact tried

omit reached in
theorem candidates_explained {vs : List (Variant SchemaId)}
    (inside : ∀ v ∈ vs, w.schema.Reaches start v.schema) :
    Explained w.schema start (fun _ => True) (w.candidates s vs) := by
  induction vs with
  | nil => exact .pure trivial
  | cons v vs ih =>
      apply (candidate?_explained below (inside v List.mem_cons_self)).bind
      intro _ _
      exact (ih fun v' member => inside v' (List.mem_cons_of_mem v member)).bind fun _ _ =>
        .pure trivial

theorem untagged_explained (target : Site) :
    Explained w.schema start (ChoosesOf u) (w.untagged u target) := by
  unfold Walk.untagged
  split
  · apply (candidates_explained below reached).bind
    intro found _
    split
    · exact choose_explained _ _ _ _
    · split <;> exact refuse_explained trivial
  · split <;> exact refuse_explained trivial

theorem byExtension_explained (extension : Option Bytes) :
    Explained w.schema start (ChoosesOf u) (w.byExtension u s extension) := by
  cases extension with
  | none => exact untagged_explained below reached s
  | some name => exact choose_explained _ _ _ _

omit below reached in
theorem agreed_explained {extension : Option Bytes} {name : Bytes}
    {chosen : Walker (Option Choice)} (explained : Explained schema start (ChoosesOf u) chosen) :
    Explained schema start (ChoosesOf u) (agreed s extension name chosen) := by
  unfold agreed
  split
  · exact refuse_explained trivial
  · exact explained

omit below reached in
theorem withTag_explained {field : Site} {next : Bytes → Walker (Option Choice)}
    (explained : ∀ name, Explained schema start (ChoosesOf u) (next name)) :
    Explained schema start (ChoosesOf u) (withTag field next) := by
  unfold withTag
  split
  · exact explained _
  · exact refuse_explained trivial

theorem external_explained (extension : Option Bytes) :
    Explained w.schema start (ChoosesOf u) (w.external u s extension) := by
  unfold Walk.external
  dsimp only
  split
  · split
    · exact byExtension_explained below reached extension
    · exact refuse_explained trivial
  · exact agreed_explained ((unknownFields_explained _ _).bind fun _ _ => choose_explained _ _ _ _)
  · exact refuse_explained trivial

theorem internal_explained (tag : Bytes) (extension : Option Bytes) :
    Explained w.schema start (ChoosesOf u) (w.internal u tag s extension) := by
  unfold Walk.internal
  split
  · exact refuse_explained trivial
  · split
    · exact byExtension_explained below reached extension
    · exact withTag_explained fun name => agreed_explained (choose_explained _ _ _ _)

omit below in
theorem adjacentNamed_explained (content name : Bytes) (tagPath : Path) :
    Explained w.schema start (ChoosesOf u) (w.adjacentNamed u content name s tagPath) := by
  have contentless : Explained w.schema start (fun _ => True)
      (w.contentless u content name s tagPath) := by
    unfold Walk.contentless
    split
    · exact .report trivial
    · next v found =>
      have inside := reached v (List.mem_of_find?_eq_some found)
      apply (Schema.follow_explained inside s.path).bind
      intro found _
      cases found with
      | none => exact .pure trivial
      | some e => exact .expect trivial
  unfold Walk.adjacentNamed
  split
  · exact choose_explained _ _ _ _
  · exact contentless.bind fun _ _ => .pure (by simp [ChoosesOf])

theorem adjacent_explained (tag content : Bytes) (extension : Option Bytes) :
    Explained w.schema start (ChoosesOf u) (w.adjacent u tag content s extension) := by
  unfold Walk.adjacent
  split
  · exact refuse_explained trivial
  · apply (unknownFields_explained _ _).bind
    intro _ _
    split
    · exact withTag_explained fun name =>
        agreed_explained (adjacentNamed_explained reached content name _)
    · exact adjacentNamed_explained reached content _ _
    · split
      · exact untagged_explained below reached _
      · exact refuse_explained trivial

theorem dispatch_explained : Explained w.schema start (ChoosesOf u) (w.dispatch u s) := by
  unfold Walk.dispatch
  extract_lets named
  have explained (extension : Option Bytes) :
      Explained w.schema start (ChoosesOf u) (named extension) := by
    unfold named
    split
    · exact byExtension_explained below reached extension
    · exact external_explained below reached extension
    · exact internal_explained below reached _ extension
    · exact adjacent_explained below reached _ _ extension
  split
  · exact explained none
  · split
    · exact explained _
    · exact refuse_explained trivial

omit reached in
theorem variant_explained (inside : w.schema.Reaches start id) (tag : Option Bytes) :
    Explained w.schema start (fun _ => True) (w.variant id tag s) := by
  cases tag with
  | none => exact below id s inside
  | some name =>
      apply (Schema.follow_explained inside s.path).bind
      intro found known
      cases found with
      | none => exact .pure trivial
      | some e =>
          obtain ⟨target, shape, metadata⟩ := e
          obtain ⟨further, found, -⟩ := known _ rfl
          dsimp only at further found ⊢
          cases shape
          case record fields allowsUnknown =>
            exact record_explained below fun f member =>
              further.child found (List.mem_map_of_mem member)
          case null => exact unknownFields_explained _ _
          all_goals exact below id s inside

theorem union_explained : Explained w.schema start (fun _ => True) (w.union u s) := by
  apply (dispatch_explained below reached).bind
  intro choice chosen
  cases choice with
  | none => exact .pure trivial
  | some c =>
      have inside := reached c.variant (chosen c rfl)
      exact (Explained.select inside).bind fun _ _ => variant_explained below inside c.tag

end Union

/-- A walk keeps to the types that are reached, if it begins with one of them. -/
theorem shape_explained {node : SchemaNode} (below : w.ExplainsParts start)
    (reached : w.schema.Reaches start id) (found : w.schema.node? id = some node)
    (solid : ∀ name, node.shape ≠ .reference name) :
    Explained w.schema start (fun _ => True) (w.shape id s node.shape) := by
  have child {i : SchemaId} (member : i ∈ node.shape.children) : w.schema.Reaches start i :=
    reached.child found member
  obtain ⟨shape, metadata⟩ := node
  dsimp only at child solid ⊢
  unfold Walk.shape
  cases shape with
  | text length p lang =>
      dsimp only
      split
      · exact Check.text_explained (Check.shows_pattern reached found)
      · exact Check.wrongKind_explained _ _
  | integer range multipleOf =>
      dsimp only
      split
      · exact Check.integer_explained _ _ _
      · exact Check.wrongKind_explained _ _
  | float range multipleOf =>
      dsimp only
      split
      · exact Check.float_explained _ _ _
      · exact Check.wrongKind_explained _ _
  | boolean =>
      dsimp only
      split
      · exact .pure trivial
      · exact Check.wrongKind_explained _ _
  | null =>
      dsimp only
      split
      · exact .pure trivial
      · exact Check.wrongKind_explained _ _
  | any => exact .pure trivial
  | literal expected => exact .expect ⟨id, metadata, reached, found⟩
  | record fields allowsUnknown =>
      exact record_explained below fun f member => child (List.mem_map_of_mem member)
  | array item length isUnique => exact array_explained below (child (List.mem_singleton_self _))
  | map key value size =>
      exact map_explained below (child List.mem_cons_self)
        (child (List.mem_cons_of_mem _ (List.mem_singleton_self _)))
  | tuple elements => exact tuple_explained below fun i member => child member
  | union variants representation =>
      exact union_explained below fun v member => child (List.mem_map_of_mem member)
  | reference name => exact absurd rfl (solid name)

end Walk

namespace Schema

/-- The structural pass keeps to the types that are reached. -/
theorem check_explained (settings : Settings) (depth : Nat) (s : Site)
    (reached : schema.Reaches start id) :
    Explained schema start (fun _ => True) (schema.check settings depth id s) := by
  induction depth generalizing id s with
  | zero => exact .report trivial
  | succ depth ih =>
      apply (follow_explained reached s.path).bind
      intro found known
      cases found with
      | none => exact .pure trivial
      | some e =>
          obtain ⟨further, found, solid⟩ := known e rfl
          have deprecation (isDeprecated : Bool) : Explained schema start (fun _ => True)
              (Check.deprecation isDeprecated s.path) := by
            cases isDeprecated
            · exact .pure trivial
            · exact .warn
          have below : Walk.ExplainsParts
              ⟨schema, settings.isLenient, schema.check settings depth⟩ start :=
            fun _ part inside => ih part inside
          dsimp only
          split
          · exact .pure trivial
          · exact (deprecation _).bind fun _ _ => Walk.shape_explained below further found solid

/-- The search for holes goes on with parts of the types below, or with the content of a
selection. -/
theorem required_type {selections : List Selection} {shape : Shape SchemaId} {s : Site}
    {part : SchemaId × Site × Bool} (member : part ∈ s.required selections id shape) :
    part.1 ∈ shape.children ∨ ∃ c ∈ selections, part = (c.variant, c.target, false) := by
  cases shape with
  | record fields allowsUnknown =>
      obtain ⟨f, declared, found⟩ := List.mem_filterMap.1 member
      obtain ⟨site, field, rfl⟩ := Option.map_eq_some_iff.1 found
      exact .inl (List.mem_map_of_mem declared)
  | array item length isUnique =>
      obtain ⟨site, listed, rfl⟩ := List.mem_map.1 member
      exact .inl (List.mem_singleton_self _)
  | map key value size =>
      obtain ⟨e, listed, rfl⟩ := List.mem_map.1 member
      exact .inl (List.mem_cons_of_mem _ (List.mem_singleton_self _))
  | tuple elements =>
      obtain ⟨e, listed, rfl⟩ := List.mem_map.1 member
      exact .inl (List.of_mem_zip listed).1
  | union variants representation =>
      simp only [Site.required] at member
      cases last : Selection.last? selections id s with
      | none => simp [last] at member
      | some c =>
          rw [last] at member
          have selected := List.mem_reverse.1 (List.mem_of_find?_eq_some last)
          exact .inr ⟨c, selected, List.mem_singleton.1 member⟩
  | _ => cases member

/-- So does the search for holes. -/
theorem complete_explained {selections : List Selection}
    (selected : ∀ c ∈ selections, schema.Reaches start c.variant) (depth : Nat) (s : Site)
    (isOptional : Bool) (reached : schema.Reaches start id) :
    Explained schema start (fun _ => True) (schema.complete selections depth id s isOptional) := by
  induction depth generalizing id s isOptional with
  | zero => exact .pure trivial
  | succ depth ih =>
      apply (target_explained reached s.path).bind
      intro target known
      cases target with
      | undefined name => exact .pure trivial
      | node target node =>
          obtain ⟨further, found, -⟩ := known
          dsimp only
          split
          · unfold Check.hole
            split
            · exact .pure trivial
            · exact .reportMissing
          · refine .forM fun part member => ih part.2.1 part.2.2 ?_
            rcases required_type member with child | ⟨c, listed, rfl⟩
            · exact further.child found child
            · exact selected c listed

/-- Both passes together are explained by the types reached from the one that they start with. -/
theorem findingsOf_explained (schema : Schema) (id : SchemaId) (settings : Settings) (v : Value) :
    (∀ e, findingsOf v schema id settings = .error e → schema.Shows id e.flaw) ∧
      ∀ f, findingsOf v schema id settings = .ok f → f.Explained schema id := by
  cases inside : schema.contains id with
  | false =>
      simp only [findingsOf, inside, Bool.not_false, ↓reduceIte]
      refine ⟨fun e failed => ?_, fun f found => ?_⟩
      · cases failed
        exact ⟨id, .start, inside⟩
      · cases found
  | true =>
      have first : Explained schema id (fun _ => True)
          (schema.check settings settings.maxDepth id ⟨v, [], []⟩) :=
        check_explained settings settings.maxDepth _ .start
      rw [findingsOf_eq settings inside]
      cases logged : (schema.check settings settings.maxDepth id ⟨v, [], []⟩).log with
      | error e =>
          refine ⟨fun e' failed => ?_, fun f found => ?_⟩
          · cases failed
            exact first.failed e logged
          · cases found
      | ok found =>
          obtain ⟨⟨⟩, structural⟩ := found
          have explained := (first.found () structural logged).2
          have second : Explained schema id (fun _ => True)
              (schema.complete structural.selections settings.maxDepth id ⟨v, [], []⟩ false) :=
            complete_explained explained.selected settings.maxDepth _ false .start
          rw [Except.bind]
          cases logged' : (schema.complete structural.selections settings.maxDepth id ⟨v, [], []⟩
              false).log with
          | error e =>
              refine ⟨fun e' failed => ?_, fun f found => ?_⟩
              · cases failed
                exact second.failed e logged'
              · cases found
          | ok found =>
              obtain ⟨⟨⟩, holes⟩ := found
              refine ⟨fun e' failed => ?_, fun f found => ?_⟩
              · cases failed
              · cases found
                exact explained.append (second.found () holes logged').2

/-- The types that are reached answer for all that both passes put into words. -/
theorem wordsOf_answered (schema : Schema) (id : SchemaId) (settings : Settings) (v : Value) :
    ∀ m ∈ wordsOf v schema id settings, schema.Answers id m := by
  intro m member
  unfold wordsOf at member
  split at member
  · have first : Explained schema id (fun _ => True)
        (schema.check settings settings.maxDepth id ⟨v, [], []⟩) :=
      check_explained settings settings.maxDepth _ .start
    rcases List.mem_append.1 member with structural | holes
    · exact first.answered m structural
    · rw [Walker.run_eq] at holes
      cases logged : (schema.check settings settings.maxDepth id ⟨v, [], []⟩).log with
      | error e =>
          rw [logged] at holes
          cases holes
      | ok found =>
          obtain ⟨⟨⟩, structural⟩ := found
          rw [logged] at holes
          have explained := (first.found () structural logged).2
          exact (complete_explained explained.selected settings.maxDepth _ false .start).answered m holes
  · cases member

end Schema

/-- Only a literal may be without words. -/
theorem Mismatch.title?_eq_none {dump? : Json.Writer} {m : Mismatch}
    (wordless : m.title? dump? = none) :
    ∃ expected, m = .wrongLiteral expected ∧ dump? expected.toJson = none := by
  cases m with
  | wrongLiteral expected => exact ⟨expected, rfl, Option.map_eq_none_iff.1 wordless⟩
  | _ => cases wordless

/-- The kinds of flaws are different. -/
theorem Flaw.kinds_apart :
    utf8 "InvalidSchemaNode" ≠ utf8 "ReferenceCycle" ∧
      utf8 "InvalidSchemaNode" ≠ utf8 "InvalidPattern" ∧
      utf8 "ReferenceCycle" ≠ utf8 "InvalidPattern" := by
  decide

namespace Schema

variable {schema : Schema} {start : SchemaId} {flaw : Flaw}

theorem Shows.outside (shown : schema.Shows start flaw)
    (kind : flaw.kind = utf8 "InvalidSchemaNode") :
    ∃ i, schema.Reaches start i ∧ schema.contains i = false := by
  obtain ⟨notCycle, notPattern, -⟩ := Flaw.kinds_apart
  cases flaw with
  | missingNode => exact shown
  | missingTarget name =>
      obtain ⟨i, reached, -, outside⟩ := shown
      exact ⟨i, reached, outside⟩
  | unresolved name => exact shown.elim
  | cycle name => exact absurd kind.symm notCycle
  | invalidPattern p => exact absurd kind.symm notPattern

theorem Shows.cyclic (shown : schema.Shows start flaw) (kind : flaw.kind = utf8 "ReferenceCycle") :
    ∃ i, schema.Reaches start i ∧ TransGen schema.Refers i i := by
  obtain ⟨notNode, -, notPattern⟩ := Flaw.kinds_apart
  cases flaw with
  | cycle name =>
      obtain ⟨i, metadata, reached, -, again⟩ := shown
      exact ⟨i, reached, again⟩
  | missingNode => exact absurd kind notNode
  | missingTarget name => exact absurd kind notNode
  | unresolved name => exact shown.elim
  | invalidPattern p => exact absurd kind.symm notPattern

theorem Shows.invalid (shown : schema.Shows start flaw) (kind : flaw.kind = utf8 "InvalidPattern") :
    ∃ i n, schema.Reaches start i ∧ schema.node? i = some n ∧ ¬ n.shape.Compiles := by
  obtain ⟨-, notNode, notCycle⟩ := Flaw.kinds_apart
  cases flaw with
  | invalidPattern p =>
      obtain ⟨i, metadata, length, language, reached, found, invalid⟩ := shown
      refine ⟨i, _, reached, found, fun compiles => ?_⟩
      obtain ⟨compiled, valid⟩ := compiles length p language rfl
      cases invalid.symm.trans valid
  | missingNode => exact absurd kind notNode
  | missingTarget name => exact absurd kind notNode
  | unresolved name => exact shown.elim
  | cycle name => exact absurd kind notCycle

/-- A flaw that the schema shows is of one of three kinds. -/
theorem Shows.kind (shown : schema.Shows start flaw) :
    flaw.kind = utf8 "InvalidSchemaNode" ∨ flaw.kind = utf8 "ReferenceCycle" ∨
      flaw.kind = utf8 "InvalidPattern" := by
  cases flaw with
  | missingNode => exact .inl rfl
  | missingTarget name => exact .inl rfl
  | unresolved name => exact shown.elim
  | cycle name => exact .inr (.inl rfl)
  | invalidPattern p => exact .inr (.inr rfl)

theorem shows_of_failed {d : Document} {node : NodeId} {settings : Settings} {e : Failure}
    (failed : validateNode d node schema start settings = .error e) :
    schema.Shows start e.flaw := by
  rw [validateNode, validateValue_eq] at failed
  cases found : findingsOf (d.valueAt node) schema start settings with
  | ok f =>
      rw [found] at failed
      cases failed
  | error e' =>
      rw [found] at failed
      cases failed
      exact (schema.findingsOf_explained start settings _).1 e found

/-- If a validation comes to no outcome, then a literal that is reached cannot be written. -/
theorem wordless_of_none {dump? : Json.Writer} {d : Document} {node : NodeId} {settings : Settings}
    (lost : validateNodeWith dump? d node schema start settings = none) :
    ∃ i expected metadata, schema.Reaches start i ∧
      schema.node? i = some ⟨.literal expected, metadata⟩ ∧
      dump? expected.toJson = none := by
  unfold validateNodeWith at lost
  split at lost
  · cases lost
  · next some =>
    rw [List.all_eq_true] at some
    push Not at some
    obtain ⟨m, member, wordless⟩ := some
    obtain ⟨expected, rfl, unwritten⟩ :=
      Mismatch.title?_eq_none (Option.not_isSome_iff_eq_none.1 wordless)
    obtain ⟨i, metadata, reached, found⟩ := schema.wordsOf_answered start settings _ _ member
    exact ⟨i, expected, metadata, reached, found, unwritten⟩

/-- If it comes to one, then to the one that does not depend on the words. -/
theorem validateNode_of_some {dump? : Json.Writer} {d : Document} {node : NodeId}
    {settings : Settings}
    {outcome : Except Failure Report}
    (ended : validateNodeWith dump? d node schema start settings = some outcome) :
    validateNode d node schema start settings = outcome := by
  unfold validateNodeWith at ended
  split at ended <;> cases ended
  rfl

end Schema

private def lists : Schema where
  nodes := #[⟨.reference "list", {}⟩, ⟨.array 0 {} false, {}⟩]
  types := [("list", 1)]
  distinct := List.nodup_singleton _

private theorem lists_reaches {i : SchemaId} (reached : lists.Reaches 0 i) : i = 0 ∨ i = 1 := by
  induction reached with
  | start => exact .inl rfl
  | child _ found member ih =>
      rcases ih with rfl | rfl
      · cases found
        exact absurd member List.not_mem_nil
      · cases found
        exact .inl (List.mem_singleton.1 member)
  | named _ _ registered _ =>
      rw [Schema.find?, lookup?, Option.map_eq_some_iff] at registered
      obtain ⟨entry, found, rfl⟩ := registered
      have member : entry ∈ lists.types := List.mem_of_find?_eq_some found
      exact .inr (by rw [List.mem_singleton.1 member])

/-- The name leads to the list, and from there no further. -/
private theorem lists_acyclic {i : SchemaId} (reached : lists.Reaches 0 i) :
    ¬ TransGen lists.Refers i i := by
  have last (j : SchemaId) (refers : lists.Refers 1 j) : False := by cases refers
  intro again
  obtain ⟨j, refers, rest⟩ := TransGen.head'_iff.1 again
  rcases lists_reaches reached with rfl | rfl
  · have target : j = 1 := (Sum.inr.inj refers).symm
    subst target
    rcases rest.cases_head with same | ⟨j, refers, -⟩
    · cases same
    · exact last j refers
  · exact last j refers

private def only (text : Bytes) : Schema where
  nodes := #[⟨.literal (.of (.primitive (.text ⟨text, .plaintext⟩))), {}⟩]

private theorem only_reaches {text : Bytes} {i : SchemaId} (reached : (only text).Reaches 0 i) :
    i = 0 := by
  induction reached with
  | start => rfl
  | child _ found member ih =>
      subst ih
      cases found
      exact absurd member List.not_mem_nil
  | named _ found _ ih =>
      subst ih
      cases found

private theorem only_acyclic {text : Bytes} {i : SchemaId} (reached : (only text).Reaches 0 i) :
    ¬ TransGen (only text).Refers i i := by
  intro again
  obtain ⟨j, refers, -⟩ := TransGen.head'_iff.1 again
  cases only_reaches reached
  cases refers

private def lone (p : Primitive) : Document :=
  ⟨#[⟨.primitive p, []⟩]⟩

/-- A text that encodes no characters cannot be told, but it need not be told to itself. -/
example : (validateNodeWith Json.compact (lone (.int 1)) 0 (only [0xff]) 0 {}).isNone ∧
    (validateNodeWith Json.compact (lone (.text ⟨[0xff], .plaintext⟩)) 0 (only [0xff]) 0
      {}).isSome := by
  decide

end DocSchema
