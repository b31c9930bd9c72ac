import DocSchema.Proofs.UnionChecks

set_option autoImplicit false

namespace DocSchema

variable {α β : Type} {depth : Nat}

/-- Whether an error is not about a duplicate, or lies more than `depth` steps from the root. -/
def Finding.IsBelow (depth : Nat) (e : Finding) : Prop :=
  ∀ first, e.mismatch = .duplicateItem first → depth < e.path.length

namespace Site

variable {s part : Site}

theorem length_path_entry {entries : List (Key × Site)} (found : s.entries? = some entries) :
    ∀ e ∈ entries, e.2.path.length = s.path.length + 1 := by
  obtain ⟨es, -, rfl⟩ := Option.map_eq_some_iff.1 found
  intro e member
  obtain ⟨i, inside, rfl⟩ := List.mem_mapIdx.1 member
  exact List.length_append

theorem length_path_item {items : List Site} (found : s.array? = some items) :
    ∀ x ∈ items, x.path.length = s.path.length + 1 := by
  obtain ⟨vs, -, rfl⟩ := Option.map_eq_some_iff.1 found
  intro x member
  obtain ⟨i, inside, rfl⟩ := List.mem_mapIdx.1 member
  exact List.length_append

theorem length_path_element {elements : List Site} (found : s.tuple? = some elements) :
    ∀ x ∈ elements, x.path.length = s.path.length + 1 := by
  obtain ⟨vs, -, rfl⟩ := Option.map_eq_some_iff.1 found
  intro x member
  obtain ⟨i, inside, rfl⟩ := List.mem_mapIdx.1 member
  exact List.length_append

theorem length_path_field {name : Bytes} (found : s.field? name = some part) :
    part.path.length = s.path.length + 1 := by
  obtain ⟨e, -, rfl⟩ := Option.map_eq_some_iff.1 found
  exact List.length_append

end Site

namespace Walker

/-- Whether a walker that ends reports duplicates only below `depth`, and gives a result of a
kind. -/
def Nests (depth : Nat) (post : α → Prop) (x : Walker α) : Prop :=
  ∀ a f, x.log = .ok (a, f) → post a ∧ ∀ e ∈ f.errors, e.IsBelow depth

namespace Nests

variable {post : α → Prop} {next : β → Prop} {x : Walker α} {path : Path} {m : Mismatch}

theorem of_log {a : α} {f : Findings} (logged : x.log = .ok (a, f)) (holds : post a)
    (below : ∀ e ∈ f.errors, e.IsBelow depth) : Nests depth post x := by
  intro b g other
  cases logged.symm.trans other
  exact ⟨holds, below⟩

theorem pure {a : α} (holds : post a) : Nests depth post (Pure.pure a) :=
  .of_log rfl holds (List.forall_mem_nil _)

theorem abort {e : Failure} : Nests depth post (Walker.abort e) := by
  intro a f logged
  cases logged

theorem report (plain : ∀ first, m ≠ .duplicateItem first) :
    Nests depth (fun _ => True) (Walker.report path m) :=
  .of_log rfl trivial (List.forall_mem_singleton.2 fun first same => absurd same (plain first))

theorem reportBelow (below : depth < path.length) :
    Nests depth (fun _ => True) (Walker.report path m) :=
  .of_log rfl trivial (List.forall_mem_singleton.2 fun _ _ => below)

theorem expect {holds : Bool} (plain : ∀ first, m ≠ .duplicateItem first) :
    Nests depth (fun _ => True) (Check.expect holds path m) := by
  cases holds
  · exact .report plain
  · exact .pure trivial

theorem bind {h : α → Walker β} (first : Nests depth post x)
    (further : ∀ a, post a → Nests depth next (h a)) : Nests depth next (x >>= h) := by
  intro b f logged
  obtain ⟨a, before, after, found, rest, rfl⟩ := bind_log logged
  obtain ⟨holds, below⟩ := first a before found
  obtain ⟨holds', below'⟩ := further a holds b after rest
  exact ⟨holds', List.forall_mem_append.2 ⟨below, below'⟩⟩

theorem forM {items : List β} {h : β → Walker Unit}
    (each : ∀ b ∈ items, Nests depth (fun _ => True) (h b)) :
    Nests depth (fun _ => True) (items.forM h) := by
  induction items with
  | nil => exact .pure trivial
  | cons b items ih =>
      exact (each b List.mem_cons_self).bind fun _ _ =>
        ih fun c member => each c (List.mem_cons_of_mem b member)

/-- What a trial finds is dropped. -/
theorem accepts {x : Walker Unit} : Nests depth (fun _ => True) x.accepts := by
  intro a f logged
  rw [log_accepts] at logged
  cases found : x.log with
  | error e =>
      rw [found] at logged
      cases logged
  | ok r =>
      rw [found] at logged
      cases logged
      exact ⟨trivial, List.forall_mem_nil _⟩

theorem lift (y : Except Failure α) : Nests depth (fun _ => True) (Walker.lift y) := by
  cases y with
  | error e => exact .abort
  | ok a => exact .pure trivial

theorem follow (schema : Schema) (id : SchemaId) :
    Nests depth (fun _ => True) (Walker.follow schema id path) := by
  apply (Nests.lift (schema.target id path)).bind
  intro target _
  cases target with
  | node target node => exact .pure trivial
  | undefined name => exact (Nests.report (by simp)).bind fun _ _ => .pure trivial

end Nests

end Walker

open Walker (Nests)

namespace Check

variable {path : Path}

theorem wrongKind_nests (expected : Bytes) (s : Site) :
    Nests depth (fun _ => True) (wrongKind expected s) :=
  .report (by simp)

theorem text_nests (length : Counts) (p lang : Option Bytes) (t : Text) :
    Nests depth (fun _ => True) (text length p lang t path) := by
  have spoken : Nests depth (fun _ => True) (language lang t path) := by
    unfold language
    split
    · exact .expect (by simp)
    · exact .pure trivial
  have matched : Nests depth (fun _ => True) (pattern p t path) := by
    unfold pattern
    split
    · exact .pure trivial
    · split
      · exact .abort
      · exact .expect (by simp)
  exact spoken.bind fun _ _ => (Nests.expect (by simp)).bind fun _ _ => matched

theorem integer_nests (range : Range) (multipleOf : Option Int64) (i : Int64) :
    Nests depth (fun _ => True) (integer range multipleOf i path) := by
  apply (Nests.expect (by simp)).bind
  intro _ _
  split
  · exact .pure trivial
  · exact .expect (by simp)

theorem float_nests (range : Range) (multipleOf : Option Number) (x : Binary64) :
    Nests depth (fun _ => True) (float range multipleOf x path) := by
  apply (Nests.expect (by simp)).bind
  intro _ _
  split
  · exact .pure trivial
  · exact .expect (by simp)

theorem key_nests (schema : Schema) (id : SchemaId) (k : Key) :
    Nests depth (fun _ => True) (key schema id k path) := by
  apply (Nests.follow schema id).bind
  intro found _
  cases found with
  | none => exact .pure trivial
  | some e =>
      dsimp only
      unfold keyShape
      split
      · exact .pure trivial
      · exact text_nests _ _ _ _
      · exact integer_nests _ _ _
      · exact .pure trivial
      · exact .expect (by simp)
      · exact .report (by simp)

end Check

/-- Whether the check of the level below reports duplicates only below `depth`, for values as far
down. -/
def Walk.NestsParts (w : Walk) (depth : Nat) : Prop :=
  ∀ id (s : Site), depth ≤ s.path.length → Nests depth (fun _ => True) (w.check id s)

namespace Walk

variable {w : Walk} {u : UnionType} {s : Site}

theorem unknownFields_nests (isKnown : Bytes → Bool) (entries : List (Key × Site)) :
    Nests depth (fun _ => True) (unknownFields isKnown entries) :=
  .forM fun _ _ => .expect (by simp)

section Structure

variable (below : w.NestsParts depth) (deep : depth ≤ s.path.length)
include below deep

theorem record_nests (fields : List (Field SchemaId)) (allowsUnknown : Bool) (tag : Option Bytes) :
    Nests depth (fun _ => True) (w.record fields allowsUnknown tag s) := by
  have each (f : Field SchemaId) : Nests depth (fun _ => True) (w.field s f) := by
    unfold Walk.field
    split
    · next part found => exact below _ part (by rw [Site.length_path_field found]; omega)
    · exact .expect (by simp)
  unfold Walk.record
  split
  · exact Check.wrongKind_nests _ _
  · apply (Nests.forM fun f _ => each f).bind
    intro _ _
    split
    · exact .pure trivial
    · exact unknownFields_nests _ _

/-- The items that an array reports lie one step below it. -/
theorem array_nests (item : SchemaId) (length : Counts) (isUnique : Bool) :
    Nests depth (fun _ => True) (w.array item length isUnique s) := by
  unfold Walk.array
  split
  · exact Check.wrongKind_nests _ _
  · next items found =>
    have inside (x : Site) (member : x ∈ items) : depth < x.path.length := by
      rw [Site.length_path_item found x member]
      omega
    apply (Nests.expect (by simp)).bind
    intro _ _
    apply (Nests.forM fun part member => below item part (Nat.le_of_lt (inside part member))).bind
    intro _ _
    split
    · refine .forM fun e member => ?_
      obtain ⟨i, inBounds, rfl⟩ := List.mem_mapIdx.1 member
      dsimp only
      split
      · exact .reportBelow (inside _ (List.getElem_mem inBounds))
      · exact .pure trivial
    · exact .pure trivial

theorem map_nests (key value : SchemaId) (size : Counts) :
    Nests depth (fun _ => True) (w.map key value size s) := by
  unfold Walk.map
  split
  · exact Check.wrongKind_nests _ _
  · next entries found =>
    apply (Nests.expect (by simp)).bind
    intro _ _
    exact .forM fun e member => (Check.key_nests _ _ _).bind fun _ _ =>
      below value e.2 (by rw [Site.length_path_entry found e member]; omega)

theorem tuple_nests (types : List SchemaId) : Nests depth (fun _ => True) (w.tuple types s) := by
  unfold Walk.tuple
  split
  · exact Check.wrongKind_nests _ _
  · next elements found =>
    apply (Nests.expect (by simp)).bind
    intro _ _
    refine .forM fun e member => below e.1 e.2 ?_
    rw [Site.length_path_element found e.2 (List.of_mem_zip member).2]
    omega

end Structure

def ChoosesBelow (depth : Nat) (choice : Option Choice) : Prop :=
  ∀ c ∈ choice, depth ≤ c.target.path.length

theorem refuse_nests {path : Path} {m : Mismatch} (plain : ∀ first, m ≠ .duplicateItem first) :
    Nests depth (ChoosesBelow depth) (refuse path m) :=
  (Nests.report plain).bind fun _ _ => .pure (by simp [ChoosesBelow])

theorem choose_nests (name : Bytes) {target : Site} (deep : depth ≤ target.path.length)
    (path : Path)
    (tag : Option Bytes) : Nests depth (ChoosesBelow depth) (choose u name target path tag) := by
  unfold choose
  split
  · exact refuse_nests (by simp)
  · refine .pure fun c same => ?_
    obtain rfl := Option.mem_some_iff.1 same
    exact deep

theorem candidates_nests (vs : List (Variant SchemaId)) :
    Nests depth (fun _ => True) (w.candidates s vs) := by
  have candidate (v : Variant SchemaId) : Nests depth (fun _ => True) (w.candidate? s v) := by
    have tried : Nests depth (fun _ => True)
        (do return if ← Walker.accepts (w.check v.schema s) then some false else none) :=
      Nests.accepts.bind fun _ _ => .pure trivial
    apply (Nests.lift (w.schema.target v.schema s.path)).bind
    intro target _
    cases target with
    | undefined name => exact .pure trivial
    | node target node =>
        dsimp only
        split
        · exact .pure trivial
        · exact tried
  induction vs with
  | nil => exact .pure trivial
  | cons v vs ih => exact (candidate v).bind fun _ _ => ih.bind fun _ _ => .pure trivial

theorem agreed_nests {extension : Option Bytes} {name : Bytes} {chosen : Walker (Option Choice)}
    (nests : Nests depth (ChoosesBelow depth) chosen) :
    Nests depth (ChoosesBelow depth) (agreed s extension name chosen) := by
  unfold agreed
  split
  · exact refuse_nests (by simp)
  · exact nests

theorem withTag_nests {field : Site} {next : Bytes → Walker (Option Choice)}
    (nests : ∀ name, Nests depth (ChoosesBelow depth) (next name)) :
    Nests depth (ChoosesBelow depth) (withTag field next) := by
  unfold withTag
  split
  · exact nests _
  · exact refuse_nests (by simp)

theorem untagged_nests {target : Site} (deep : depth ≤ target.path.length) :
    Nests depth (ChoosesBelow depth) (w.untagged u target) := by
  unfold untagged
  split
  · apply (candidates_nests u.variants).bind
    intro found _
    split
    · exact choose_nests _ deep _ none
    · split <;> exact refuse_nests (by simp)
  · split <;> exact refuse_nests (by simp)

section Union

variable (deep : depth ≤ s.path.length)
include deep

theorem byExtension_nests (extension : Option Bytes) :
    Nests depth (ChoosesBelow depth) (w.byExtension u s extension) := by
  cases extension with
  | none => exact untagged_nests deep
  | some name => exact choose_nests name deep _ none

theorem external_nests (extension : Option Bytes) :
    Nests depth (ChoosesBelow depth) (w.external u s extension) := by
  have entries : ∀ e ∈ s.entries?.getD [], depth ≤ e.2.path.length := by
    cases found : s.entries? with
    | none => simp
    | some entries =>
        intro e member
        rw [Site.length_path_entry found e member]
        omega
  unfold external
  dsimp only
  split
  · split
    · exact byExtension_nests deep _
    · exact refuse_nests (by simp)
  · next i name content only =>
    have member : (i, name, content) ∈ namedEntries u (s.entries?.getD []) := by
      rw [only]
      exact List.mem_singleton_self _
    have inside : depth ≤ content.path.length := by
      obtain ⟨inBounds, -, -, rfl⟩ := mem_namedEntries.1 member
      exact entries _ (List.getElem_mem inBounds)
    exact agreed_nests ((unknownFields_nests _ _).bind fun _ _ => choose_nests name inside _ none)
  · exact refuse_nests (by simp)

theorem internal_nests (tag : Bytes) (extension : Option Bytes) :
    Nests depth (ChoosesBelow depth) (w.internal u tag s extension) := by
  unfold internal
  split
  · exact refuse_nests (by simp)
  · split
    · exact byExtension_nests deep _
    · exact withTag_nests fun name => agreed_nests (choose_nests name deep _ (some tag))

theorem adjacentNamed_nests (content name : Bytes) (path : Path) :
    Nests depth (ChoosesBelow depth) (w.adjacentNamed u content name s path) := by
  unfold adjacentNamed
  split
  · next part found => exact choose_nests name (by rw [Site.length_path_field found]; omega) _ none
  · have contentless : Nests depth (fun _ => True) (w.contentless u content name s path) := by
      unfold contentless
      split
      · exact .report (by simp)
      · apply (Nests.follow w.schema _).bind
        intro found _
        cases found with
        | none => exact .pure trivial
        | some e => exact .expect (by simp)
    exact contentless.bind fun _ _ => .pure (by simp [ChoosesBelow])

theorem adjacent_nests (tag content : Bytes) (extension : Option Bytes) :
    Nests depth (ChoosesBelow depth) (w.adjacent u tag content s extension) := by
  unfold adjacent
  split
  · exact refuse_nests (by simp)
  · apply (unknownFields_nests _ _).bind
    intro _ _
    split
    · exact withTag_nests fun name => agreed_nests (adjacentNamed_nests deep content name _)
    · exact adjacentNamed_nests deep content _ _
    · split
      · next part found => exact untagged_nests (by rw [Site.length_path_field found]; omega)
      · exact refuse_nests (by simp)

theorem dispatch_nests : Nests depth (ChoosesBelow depth) (w.dispatch u s) := by
  unfold dispatch
  extract_lets named
  have nests (extension : Option Bytes) : Nests depth (ChoosesBelow depth) (named extension) := by
    unfold named
    split
    · exact byExtension_nests deep _
    · exact external_nests deep _
    · exact internal_nests deep _ _
    · exact adjacent_nests deep _ _ _
  split
  · exact nests none
  · split
    · exact nests _
    · exact refuse_nests (by simp)

end Union

variable (below : w.NestsParts depth)
include below

theorem variant_nests (id : SchemaId) (tag : Option Bytes) (deep : depth ≤ s.path.length) :
    Nests depth (fun _ => True) (w.variant id tag s) := by
  cases tag with
  | none => exact below id s deep
  | some name =>
      apply (Nests.follow w.schema id).bind
      intro found _
      cases found with
      | none => exact .pure trivial
      | some e =>
          obtain ⟨target, shape, metadata⟩ := e
          cases shape
          case record fields allowsUnknown => exact record_nests below deep fields allowsUnknown _
          case null => exact unknownFields_nests _ _
          all_goals exact below id s deep

theorem union_nests (deep : depth ≤ s.path.length) : Nests depth (fun _ => True) (w.union u s) := by
  apply (dispatch_nests deep).bind
  intro choice chosen
  cases choice with
  | none => exact .pure trivial
  | some c =>
      have selected : Nests depth (fun _ => True)
          (Walker.select ⟨s.position, u.id, c.variant.schema, c.target⟩) :=
        .of_log rfl trivial (List.forall_mem_nil _)
      exact selected.bind fun _ _ => variant_nests below _ _ (chosen c rfl)

theorem shape_nests (id : SchemaId) (deep : depth ≤ s.path.length) (shape : Shape SchemaId) :
    Nests depth (fun _ => True) (w.shape id s shape) := by
  unfold Walk.shape
  cases shape with
  | text length p lang =>
      dsimp only
      split
      · exact Check.text_nests _ _ _ _
      · exact Check.wrongKind_nests _ _
  | integer range multipleOf =>
      dsimp only
      split
      · exact Check.integer_nests _ _ _
      · exact Check.wrongKind_nests _ _
  | float range multipleOf =>
      dsimp only
      split
      · exact Check.float_nests _ _ _
      · exact Check.wrongKind_nests _ _
  | boolean =>
      dsimp only
      split
      · exact .pure trivial
      · exact Check.wrongKind_nests _ _
  | null =>
      dsimp only
      split
      · exact .pure trivial
      · exact Check.wrongKind_nests _ _
  | any => exact .pure trivial
  | literal expected => exact .expect (by simp)
  | record fields allowsUnknown => exact record_nests below deep fields allowsUnknown none
  | array item length isUnique => exact array_nests below deep item length isUnique
  | map key value size => exact map_nests below deep key value size
  | tuple elements => exact tuple_nests below deep elements
  | union variants representation => exact union_nests below deep
  | reference name => exact .abort

end Walk

/-- The check of a value reports duplicates only below the value. -/
theorem Schema.check_nests (schema : Schema) (settings : Settings) (level : Nat) (id : SchemaId)
    {s : Site}
    (deep : depth ≤ s.path.length) :
    Nests depth (fun _ => True) (schema.check settings level id s) := by
  induction level generalizing id s with
  | zero => exact .report (by simp)
  | succ level ih =>
      apply (Nests.follow schema id).bind
      intro found _
      cases found with
      | none => exact .pure trivial
      | some e =>
          have deprecation (isDeprecated : Bool) : Nests depth (fun _ => True)
              (Check.deprecation isDeprecated s.path) := by
            cases isDeprecated <;> exact .of_log rfl trivial (List.forall_mem_nil _)
          have below : Walk.NestsParts
              ⟨schema, settings.isLenient, schema.check settings level⟩ depth :=
            fun id _ part => ih id part
          dsimp only
          split
          · exact .pure trivial
          · exact (deprecation _).bind fun _ _ => Walk.shape_nests below _ deep _

end DocSchema
