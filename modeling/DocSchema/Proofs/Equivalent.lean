import DocSchema.Proofs.Records
import DocSchema.Proofs.RelatedUnions
import DocSchema.Proofs.Truncation

set_option autoImplicit false

namespace DocSchema

open Walker (Alike)

variable {R : SchemaId → SchemaId → Prop}

theorem Shape.Related.isAny {shape shape' : Shape SchemaId} (shapes : shape.Related R shape') :
    shape.isAny = shape'.isAny := by
  cases shapes <;> rfl

theorem Shape.Related.isUnion {shape shape' : Shape SchemaId} (shapes : shape.Related R shape') :
    shape.isUnion = shape'.isUnion := by
  cases shapes <;> rfl

theorem Shape.Related.holdsTag {shape shape' : Shape SchemaId} (shapes : shape.Related R shape') :
    shape.holdsTag = shape'.holdsTag := by
  cases shapes <;> rfl

/-- Related types without variants demand related types of the same parts. -/
theorem Shape.Related.required {shape shape' : Shape SchemaId} (shapes : shape.Related R shape')
    (plain : shape.isUnion = false) (table table' : List Selection) (x y : SchemaId) (s : Site) :
    List.Forall₂ (fun p q => R p.1 q.1 ∧ p.2 = q.2) (s.required table x shape)
      (s.required table' y shape') := by
  cases shapes
  case record allowsUnknown fields =>
    unfold Site.required
    dsimp only
    induction fields with
    | nil => exact .nil
    | cons first rest ih =>
        rw [List.filterMap_cons, List.filterMap_cons, first.name, first.isOptional]
        cases s.field? _ with
        | none => exact ih plain
        | some part => exact .cons ⟨first.schema, rfl⟩ (ih plain)
  case array length isUnique item =>
    exact List.forall₂_map_left_iff.2 (List.forall₂_map_right_iff.2
      (List.forall₂_same.2 fun part _ => ⟨item, rfl⟩))
  case map size key value =>
    exact List.forall₂_map_left_iff.2 (List.forall₂_map_right_iff.2
      (List.forall₂_same.2 fun e _ => ⟨value, rfl⟩))
  case tuple elements =>
    have parts : List.Forall₂ Eq (s.tuple?.getD []) (s.tuple?.getD []) := List.forall₂_refl _
    refine List.rel_map (fun e e' related => ⟨related.1, ?_⟩) (forall₂_zip elements parts)
    exact congrArg (·, false) related.2
  case union => cases plain
  all_goals exact .nil

namespace Schema.Bisimulation

variable {s t : Schema} {settings : Settings} {x y : SchemaId}

theorem variantLevel (bisimilar : s.Bisimulation t R) (types : R x y) (tag : Option Bytes)
    (level : Nat) : s.variantLevel tag x level = t.variantLevel tag y level := by
  have ends := bisimilar.resolve types
  unfold Schema.variantLevel
  generalize s.resolve x = o at ends
  generalize t.resolve y = o' at ends
  cases tag with
  | none => rfl
  | some name =>
      cases ends with
      | found types nodes =>
          dsimp only
          rw [nodes.shape.holdsTag]
      | _ => rfl

/-- Whether two parts that have to be complete are one value with related types, and two tables
record the walks over it. -/
structure Paired (R : SchemaId → SchemaId → Prop) (s t : Schema) (settings : Settings)
    (table table' : List Selection) (level : Nat) (p q : SchemaId × Site × Bool) : Prop where
  types : R p.1 q.1
  part : p.2 = q.2
  recorded : ∃ above, level ≤ above ∧ s.Records settings table above p.1 p.2.1 ∧
    t.Records settings table' above q.1 q.2.1

variable {table table' : List Selection} {level : Nat} {site : Site} {x' y' : SchemaId}

theorem required_plain {m n : SchemaNode} (left : s.HasDistinctFields) (right : t.HasDistinctFields)
    (records : s.Records settings table (level + 1) x site)
    (records' : t.Records settings table' (level + 1) y site)
    (resolved : s.resolve x = .found x' m) (resolved' : t.resolve y = .found y' n)
    (filled : site.value.content.isHole = false) (shapes : m.shape.Related R n.shape)
    (plain : m.shape.isUnion = false) :
    List.Forall₂ (Paired R s t settings table table' level) (site.required table x' m.shape)
      (site.required table' y' n.shape) := by
  have parts := records.parts left resolved filled plain
  have parts' := records'.parts right resolved' filled (shapes.isUnion ▸ plain)
  obtain ⟨length, pairs⟩ :=
    List.forall₂_iff_zip.1 (shapes.required plain table table' x' y' site)
  refine List.forall₂_iff_zip.2 ⟨length, fun {p q} member => ?_⟩
  obtain ⟨inside, inside'⟩ := List.of_mem_zip member
  obtain ⟨types, part⟩ := pairs member
  exact ⟨types, part, level, Nat.le_refl level, parts p inside, parts' q inside'⟩

theorem required_union {vs vs' : List (Variant SchemaId)} {representation : Representation}
    {metadata metadata' : Metadata} (bisimilar : s.Bisimulation t R)
    (guarded : settings.isLenient = true → s.IsGuarded ∧ t.IsGuarded)
    (records : s.Records settings table (level + 1) x site)
    (records' : t.Records settings table' (level + 1) y site)
    (resolved : s.resolve x = .found x' ⟨.union vs representation, metadata⟩)
    (resolved' : t.resolve y = .found y' ⟨.union vs' representation, metadata'⟩)
    (filled : site.value.content.isHole = false)
    (variants : List.Forall₂ (Variant.Related R) vs vs') :
    List.Forall₂ (Paired R s t settings table table' level)
      (site.required table x' (.union vs representation))
      (site.required table' y' (.union vs' representation)) := by
  have walks : Walk.Related R (s.walk settings level) (t.walk settings level) :=
    ⟨bisimilar, rfl, bisimilar.check settings level⟩
  have unions : UnionType.Related R ⟨x', vs, representation⟩ ⟨y', vs', representation⟩ :=
    ⟨variants, rfl⟩
  have found := records.union (fun lenient => (guarded lenient).1) resolved filled
  have found' := records'.union (fun lenient => (guarded lenient).2) resolved' filled
  cases walks.dispatch unions site with
  | failed log log' =>
      rcases found with ⟨f, logged, -⟩ | ⟨c, f, logged, -⟩ <;> cases log.symm.trans logged
  | found log log' choices =>
      cases choices with
      | none =>
          rcases found with ⟨f, -, none⟩ | ⟨c, f, logged, -⟩
          · rcases found' with ⟨f', -, none'⟩ | ⟨c', f', logged', -⟩
            · rw [none, none']
              exact .nil
            · cases log'.symm.trans logged'
          · cases log.symm.trans logged
      | @some c c' related =>
          rcases found with ⟨f, logged, -⟩ | ⟨d, f, logged, some, recorded⟩
          · cases log.symm.trans logged
          · rcases found' with ⟨f', logged', -⟩ | ⟨d', f', logged', some', recorded'⟩
            · cases log'.symm.trans logged'
            · cases log.symm.trans logged
              cases log'.symm.trans logged'
              rw [some, some']
              refine .cons ⟨related.variant.schema, ?_, _, le_variantLevel c.tag, recorded, ?_⟩ .nil
              · rw [related.target]
              · rw [bisimilar.variantLevel related.variant.schema, related.tag]
                exact recorded'

/-- The searches for holes are alike, each with a table that records its own structural pass. -/
theorem complete (bisimilar : s.Bisimulation t R) (left : s.HasDistinctFields)
    (right : t.HasDistinctFields) (guarded : settings.isLenient = true → s.IsGuarded ∧ t.IsGuarded)
    (depth : Nat) : ∀ level x y site isOptional, depth ≤ level → R x y →
      s.Records settings table level x site → t.Records settings table' level y site →
      Alike Eq (s.complete table depth x site isOptional)
        (t.complete table' depth y site isOptional) := by
  induction depth with
  | zero => exact fun _ _ _ _ _ _ _ _ _ => .pure rfl
  | succ depth ih =>
      intro level x y site isOptional enough types records records'
      obtain ⟨level, rfl⟩ := Nat.exists_eq_add_one_of_ne_zero (show level ≠ 0 by omega)
      apply (bisimilar.target types site.path).lift.bind
      intro a b ends
      obtain ⟨related, reached, reached'⟩ := ends
      cases related with
      | undefined name => exact .pure rfl
      | @node x' y' m n types' nodes =>
          have resolved := target_ok reached
          have resolved' := target_ok reached'
          dsimp only
          cases hole : site.value.content.isHole with
          | true =>
              simp only [↓reduceIte, Check.hole, nodes.shape.isAny]
              exact .refl _
          | false =>
              simp only [Bool.false_eq_true, ↓reduceIte]
              have paired : List.Forall₂ (Paired R s t settings table table' level)
                  (site.required table x' m.shape) (site.required table' y' n.shape) := by
                cases plain : m.shape.isUnion with
                | false =>
                    exact required_plain left right records records' resolved resolved' hole nodes.shape
                      plain
                | true =>
                    obtain ⟨shape, metadata⟩ := m
                    obtain ⟨shape', metadata'⟩ := n
                    obtain ⟨-, shapes⟩ := nodes
                    cases shapes
                    case union representation variants =>
                      exact required_union bisimilar guarded records records' resolved
                        resolved' hole variants
                    all_goals cases plain
              refine .forM (paired.imp fun {p q} both => ?_)
              obtain ⟨types, part, above, deep, recorded, recorded'⟩ := both
              obtain ⟨z, q⟩ := q
              have same : p.2 = q := part
              subst same
              exact ih above _ _ _ _ (by omega) types recorded recorded'

end Schema.Bisimulation

/-- What a report says, apart from the texts of its messages. -/
def Report.summary (r : Report) : List (Bytes × Path) × List (Bytes × Path) × Bool × Bool :=
  (r.errors.map Finding.summary, r.warnings.map fun w => (w.2.kind, w.1), r.isTruncated,
    r.isIncomplete)

/-- What a validation says, apart from the texts of messages. -/
def summaryOf (outcome : Except Failure Report) :
    Except (Bytes × Path) (List (Bytes × Path) × List (Bytes × Path) × Bool × Bool) :=
  (outcome.map Report.summary).mapError Failure.summary

theorem summaryOf_error (e : Failure) : summaryOf (.error e) = .error e.summary := rfl

theorem summaryOf_ok (r : Report) : summaryOf (.ok r) = .ok r.summary := rfl

theorem Findings.Alike.summary {f g : Findings} (alike : f.Alike g) (limit : Nat) :
    (({} : Ledger).add limit f).toReport.summary =
      (({} : Ledger).add limit g).toReport.summary := by
  have count : f.errors.length = g.errors.length := by
    simpa using congrArg List.length alike.errors
  rw [toReport_add, toReport_add]
  simp only [Report.summary, alike.warnings, alike.isIncomplete, count]
  split
  · rw [alike.errors]
  · rw [List.map_take, List.map_take, alike.errors]

/-- A whole structural pass is recorded by what it selects. -/
theorem Schema.records_check {s : Schema} {settings : Settings} {level : Nat} {x : SchemaId}
    {v : Value} {f : Findings} (logged : (s.check settings level x ⟨v, [], []⟩).log = .ok ((), f)) :
    s.Records settings f.selections level x ⟨v, [], []⟩ :=
  ⟨[], f.selections, ⟨f, logged, rfl⟩, Selection.below_eq_self fun _ _ => List.nil_prefix, by simp⟩

/-- Validations with related types say the same. -/
theorem Schema.Bisimulation.validateValue {s t : Schema} {settings : Settings} {x y : SchemaId}
    (bisimilar : s.Bisimulation t R) (left : s.HasDistinctFields) (right : t.HasDistinctFields)
    (guarded : settings.isLenient = true → s.IsGuarded ∧ t.IsGuarded) (types : R x y) (v : Value) :
    summaryOf (validateValue v s x settings) = summaryOf (validateValue v t y settings) := by
  rw [validateValue_eq, validateValue_eq]
  have inside := bisimilar.contains types
  cases contained : t.contains y with
  | false =>
      rw [contained] at inside
      simp only [findingsOf, inside, contained, Bool.not_false, ↓reduceIte, bind, Except.bind,
        throw, throwThe, MonadExceptOf.throw]
  | true =>
      rw [contained] at inside
      simp only [findingsOf, inside, contained, Bool.not_true, Bool.false_eq_true, ↓reduceIte]
      cases bisimilar.check settings settings.maxDepth x y ⟨v, [], []⟩ types with
      | failed log log' failures =>
          simp only [log, log', bind, Except.bind, Except.map, summaryOf_error, failures]
      | @found a b f g log log' results findings =>
          have holes := bisimilar.complete left right guarded settings.maxDepth settings.maxDepth x y
            ⟨v, [], []⟩ false (Nat.le_refl _) types (records_check log) (records_check log')
          simp only [log, log', bind, Except.bind]
          cases holes with
          | failed log log' failures =>
              simp only [log, log', Except.map, summaryOf_error, failures]
          | found log log' results findings' =>
              simp only [log, log', Except.map, pure, Except.pure, summaryOf_ok]
              rw [(findings.append findings').summary settings.maxErrors]

namespace Schema

variable {s : Schema}

theorem hasUniqueKeys_of_plain (plain : ∀ node ∈ s.nodes.toList, node.values = []) :
    s.HasUniqueKeys := by
  intro id node found v member
  rw [plain node (mem_of_node? found)] at member
  cases member

theorem Leads.contains {x y : SchemaId} (step : s.Leads x y) : s.contains x = true := by
  cases step with
  | reference hop => exact (contains_of_hop hop).1
  | variant found member => exact contains_iff.2 ⟨_, found⟩

/-- Unions that lead to types of lower rank only do not reach themselves. -/
theorem isGuarded_of_rank (rank : SchemaId → Nat) (lower : ∀ x y, s.Leads x y → rank y < rank x) :
    s.IsGuarded := by
  have lowers {x y : SchemaId} (reaches : Relation.TransGen s.Leads x y) : rank y < rank x := by
    induction reaches with
    | single step => exact lower _ _ step
    | tail _ step ih => exact (lower _ _ step).trans ih
  intro id variants representation metadata _ again
  exact Nat.lt_irrefl _ (lowers again)

end Schema

namespace Numbering

/-- A union with one variant, a record that may hold another value of the union. -/
def before : Schema where
  nodes := #[⟨.union [⟨"A", 1⟩] .tagged, {}⟩, ⟨.record [⟨"next", 0, false⟩] false, {}⟩]
  root := 0

def after : Schema where
  nodes := #[⟨.record [⟨"next", 1, false⟩] false, {}⟩, ⟨.union [⟨"A", 0⟩] .tagged, {}⟩]
  root := 1

end Numbering

namespace Twins

/-- Two records of one field name, one of a union and one of a map to an equal union. -/
def apart : Schema where
  nodes := #[⟨.integer {} none, {}⟩, ⟨.array 0 {} false, {}⟩, ⟨.union [⟨"A", 1⟩] .tagged, {}⟩,
    ⟨.union [⟨"A", 1⟩] .tagged, {}⟩, ⟨.any, {}⟩, ⟨.record [⟨"x", 2, false⟩] false, {}⟩,
    ⟨.map 4 3 {}, {}⟩, ⟨.record [⟨"m", 5, false⟩, ⟨"m", 6, false⟩] false, {}⟩]
  root := 7

def shared : Schema where
  nodes := #[⟨.integer {} none, {}⟩, ⟨.array 0 {} false, {}⟩, ⟨.union [⟨"A", 1⟩] .tagged, {}⟩,
    ⟨.any, {}⟩, ⟨.record [⟨"x", 2, false⟩] false, {}⟩, ⟨.map 3 2 {}, {}⟩,
    ⟨.record [⟨"m", 4, false⟩, ⟨"m", 5, false⟩] false, {}⟩]
  root := 6

/-- A value of both types of the field, with a missing item. -/
def document : Document where
  nodes := #[⟨.map [(.ident "m", 1)], []⟩, ⟨.map [(.literal (.text "x"), 2)], []⟩,
    ⟨.array [3], [("variant", 4)]⟩, {}, ⟨.primitive (.text ⟨"A", .plaintext⟩), []⟩]

end Twins

namespace Loops

def apart : Schema where
  nodes := #[⟨.integer {} none, {}⟩, ⟨.record [⟨"h", 0, false⟩] false, {}⟩,
    ⟨.union [⟨"A", 1⟩] (.internal "t"), {}⟩, ⟨.union [⟨"X", 3⟩, ⟨"Y", 2⟩] .tagged, {}⟩,
    ⟨.union [⟨"X", 5⟩, ⟨"Y", 3⟩] .tagged, {}⟩, ⟨.union [⟨"X", 4⟩, ⟨"Y", 3⟩] .tagged, {}⟩]
  root := 4

def shared : Schema where
  nodes := #[⟨.integer {} none, {}⟩, ⟨.record [⟨"h", 0, false⟩] false, {}⟩,
    ⟨.union [⟨"A", 1⟩] (.internal "t"), {}⟩, ⟨.union [⟨"X", 3⟩, ⟨"Y", 2⟩] .tagged, {}⟩,
    ⟨.union [⟨"X", 4⟩, ⟨"Y", 3⟩] .tagged, {}⟩]
  root := 4

def document : Document where
  nodes := #[⟨.map [(.ident "t", 1), (.ident "h", 2)], []⟩,
    ⟨.primitive (.text ⟨"A", .plaintext⟩), []⟩, {}]

end Loops

end DocSchema
