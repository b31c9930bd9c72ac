import Mathlib.Data.List.FinRange
import Mathlib.Data.List.Indexes
import Mathlib.SetTheory.Cardinal.Finite
import DocSchema.Proofs.ClosedRecords
import DocSchema.Proofs.NestedDuplicates
import DocSchema.Proofs.PunchedHoles
import DocSchema.Proofs.ReorderedDocuments
import DocSchema.Proofs.TypeOrder

set_option autoImplicit false

namespace DocSchema

/-- Whether the values at two indices are there and are equal. -/
def AreEqualAt (values : List Value) (j i : Nat) : Prop :=
  ∃ v w, values[j]? = some v ∧ values[i]? = some w ∧ v.same w = true

/-- Whether an error is of the kind that tells of duplicates, and lies one step below `path`. -/
def Finding.isRepeated (path : Path) (e : Finding) : Bool :=
  e.mismatch.kind == utf8 "NotUnique" && e.path.length == path.length + 1

/-- The indices of the values that equal an earlier one, each with the index of the first such
one. -/
def repetitions (values : List Value) : List (Nat × Nat) :=
  (List.finRange values.length).filterMap fun i : Fin values.length =>
    ((values.take i).findIdx? fun v => v.same values[i]).map fun j => (i.val, j)

/-- The classes of an equivalence of indices have as many members as are not first of their class,
and one more each. -/
theorem length_add_card_quotient {n : Nat} (equal : Setoid (Fin n)) (indices : List (Fin n))
    (distinct : indices.Nodup)
    (repeats : ∀ i, i ∈ indices ↔ ∃ j < i, equal j i) :
    indices.length + Nat.card (Quotient equal) = n := by
  classical
  have firsts : Function.Bijective fun i :
      { i : Fin n // i ∉ indices } => (Quotient.mk equal i : Quotient equal) := by
    constructor
    · rintro ⟨i, first⟩ ⟨j, first'⟩ same
      have related : equal i j := Quotient.exact same
      rcases lt_trichotomy i j with earlier | rfl | earlier
      · exact absurd ((repeats j).2 ⟨i, earlier, related⟩) first'
      · rfl
      · exact absurd ((repeats i).2 ⟨j, earlier, equal.symm related⟩) first
    · intro q
      induction q using Quotient.ind with
      | _ i =>
          induction i using WellFoundedLT.induction with
          | _ i ih =>
              by_cases repeated : i ∈ indices
              · obtain ⟨j, earlier, related⟩ := (repeats i).1 repeated
                obtain ⟨first, same⟩ := ih j earlier
                exact ⟨first, same.trans (Quotient.sound related)⟩
              · exact ⟨⟨i, repeated⟩, rfl⟩
  have repeated : indices.length = (Finset.univ.filter (· ∈ indices)).card := by
    rw [← List.toFinset_card_of_nodup distinct]
    congr 1
    ext i
    simp
  have both :=
    Finset.card_filter_add_card_filter_not (s := Finset.univ) (fun i : Fin n => i ∈ indices)
  rw [Finset.card_univ, Fintype.card_fin] at both
  rw [← Nat.card_eq_of_bijective _ firsts, Nat.card_eq_fintype_card, Fintype.card_subtype, repeated,
    both]

section Repetitions

variable {values : List Value} {i j : Nat}

theorem AreEqualAt.iff_same (left : j < values.length) (right : i < values.length) :
    AreEqualAt values j i ↔ values[j].same values[i] = true := by
  simp [AreEqualAt, List.getElem?_eq_getElem left, List.getElem?_eq_getElem right]

theorem AreEqualAt.length_lt (equal : AreEqualAt values j i) : i < values.length := by
  obtain ⟨v, w, -, found, -⟩ := equal
  exact (List.getElem?_eq_some_iff.1 found).1

/-- The search among the earlier values comes to the first that is equal. -/
theorem findIdx?_same (inside : i < values.length) :
    ((values.take i).findIdx? fun v => v.same values[i]) = some j ↔
      j < i ∧ AreEqualAt values j i ∧ ∀ k < j, ¬ AreEqualAt values k i := by
  rw [List.findIdx?_eq_some_iff_getElem]
  constructor
  · rintro ⟨less, same, others⟩
    rw [List.length_take] at less
    refine ⟨by omega, ?_, fun k earlier => ?_⟩
    · rw [AreEqualAt.iff_same (by omega) inside]
      simpa using same
    · rw [AreEqualAt.iff_same (by omega) inside]
      simpa using others k earlier
  · rintro ⟨earlier, same, others⟩
    refine ⟨by rw [List.length_take]; omega, ?_, fun k less => ?_⟩
    · rw [AreEqualAt.iff_same (by omega) inside] at same
      simpa using same
    · have other := others k less
      rw [AreEqualAt.iff_same (by omega) inside] at other
      simpa using other

theorem mem_repetitions :
    (i, j) ∈ repetitions values ↔
    j < i ∧ AreEqualAt values j i ∧ ∀ k < j, ¬ AreEqualAt values k i := by
  rw [repetitions, List.mem_filterMap]
  constructor
  · rintro ⟨i', -, found⟩
    obtain ⟨j', first, same⟩ := Option.map_eq_some_iff.1 found
    obtain ⟨rfl, rfl⟩ := Prod.mk.inj same
    exact (findIdx?_same i'.isLt).1 first
  · intro first
    have inside := first.2.1.length_lt
    exact ⟨⟨i, inside⟩, List.mem_finRange _,
      Option.map_eq_some_iff.2 ⟨j, (findIdx?_same inside).2 first, rfl⟩⟩

/-- An index is listed if and only if an earlier value is equal, the first of which stands beside
it. -/
theorem exists_mem_repetitions :
    (∃ j, (i, j) ∈ repetitions values) ↔ ∃ j < i, AreEqualAt values j i := by
  classical
  constructor
  · rintro ⟨j, member⟩
    obtain ⟨earlier, equal, -⟩ := mem_repetitions.1 member
    exact ⟨j, earlier, equal⟩
  · rintro ⟨j, earlier, equal⟩
    have some : ∃ j, AreEqualAt values j i := ⟨j, equal⟩
    refine ⟨Nat.find some, mem_repetitions.2
      ⟨?_, Nat.find_spec some, fun k less => Nat.find_min some less⟩⟩
    exact Nat.lt_of_le_of_lt (Nat.find_min' some equal) earlier

theorem repetitions_pairwise : (repetitions values).Pairwise fun p q => p.1 < q.1 := by
  rw [repetitions, List.pairwise_filterMap]
  refine (List.pairwise_lt_finRange values.length).imp fun {i i'} less p found q found' => ?_
  obtain ⟨j, -, rfl⟩ := Option.map_eq_some_iff.1 found
  obtain ⟨j', -, rfl⟩ := Option.map_eq_some_iff.1 found'
  exact less

theorem repetitions_eq_nil :
    repetitions values = [] ↔ values.Pairwise fun v w => v.same w = false := by
  rw [List.eq_nil_iff_forall_not_mem, List.pairwise_iff_getElem]
  constructor
  · intro none j i left right earlier
    rw [Bool.eq_false_iff]
    intro same
    obtain ⟨first, member⟩ :=
      exists_mem_repetitions.2 ⟨j, earlier, (AreEqualAt.iff_same left right).2 same⟩
    exact none _ member
  · rintro different ⟨i, j⟩ member
    obtain ⟨earlier, equal, -⟩ := mem_repetitions.1 member
    have inside := equal.length_lt
    have same := (AreEqualAt.iff_same (Nat.lt_trans earlier inside) inside).1 equal
    rw [different j i (Nat.lt_trans earlier inside) inside earlier] at same
    cases same

variable (unique : ∀ v ∈ values, v.HasUniqueKeys) (real : ∀ v ∈ values, v.IsReal)
include unique real

/-- Where no value holds a NaN, equality is an equivalence of indices. -/
theorem areEqualAt_equivalence : Equivalence fun i j :
    Fin values.length => AreEqualAt values i j where
  refl i := by
    have member := List.getElem_mem i.isLt
    exact (AreEqualAt.iff_same i.isLt i.isLt).2 (Value.same_refl (unique _ member) (real _ member))
  symm := by
    rintro i j ⟨v, w, left, right, same⟩
    have symm := Value.same_symm (unique v (List.mem_of_getElem? left))
        (unique w (List.mem_of_getElem? right)) same
    exact ⟨w, v, right, left, symm⟩
  trans := by
    rintro i j k ⟨u, v, first, middle, same⟩ ⟨v', w, middle', last, same'⟩
    obtain rfl := Option.some.inj (middle.symm.trans middle')
    exact ⟨u, w, first, last, Value.same_trans same same'⟩

/-- There is one repetition less in each class of equal values than it has members. -/
theorem length_repetitions_add : ∃ equal : Setoid (Fin values.length),
    (∀ i j, equal i j ↔ AreEqualAt values i j) ∧
      (repetitions values).length + Nat.card (Quotient equal) = values.length := by
  let equal : Setoid (Fin values.length) := ⟨_, areEqualAt_equivalence unique real⟩
  refine ⟨equal, fun i j => Iff.rfl, ?_⟩
  let first? (i : Fin values.length) : Option Nat :=
    (values.take i).findIdx? fun v => v.same values[i]
  have length : (repetitions values).length =
      ((List.finRange values.length).filter fun i => (first? i).isSome).length := by
    rw [repetitions, List.length_filterMap_eq_countP, List.countP_eq_length_filter]
    simp only [Option.isSome_map, first?]
  rw [length]
  refine length_add_card_quotient equal _ ((List.nodup_finRange _).filter _) fun i => ?_
  rw [List.mem_filter, Option.isSome_iff_exists]
  constructor
  · rintro ⟨-, j, found⟩
    obtain ⟨earlier, same, -⟩ := (findIdx?_same i.isLt).1 found
    exact ⟨⟨j, Nat.lt_trans earlier i.isLt⟩, earlier, same⟩
  · rintro ⟨j, earlier, same⟩
    obtain ⟨first, member⟩ := exists_mem_repetitions.2 ⟨j, earlier, same⟩
    exact ⟨List.mem_finRange i, first, (findIdx?_same i.isLt).2 (mem_repetitions.1 member)⟩

end Repetitions

theorem Mismatch.kind_eq_notUnique {m : Mismatch} (kind : m.kind = utf8 "NotUnique") :
    ∃ first, m = .duplicateItem first := by
  cases m
  case duplicateItem first => exact ⟨first, rfl⟩
  all_goals
    rw [Mismatch.kind] at kind
    exact absurd kind (by decide)

/-- The error that the item at an index equals an earlier one. -/
def repetition (path : Path) (e : Nat × Nat) : Finding :=
  ⟨path ++ [.array (some e.1)], .duplicateItem e.2⟩

namespace Finding

variable {path : Path}

theorem isRepeated_of_isBelow {e : Finding} (below : e.IsBelow (path.length + 1)) :
    e.isRepeated path = false := by
  rw [isRepeated, Bool.and_eq_false_iff]
  by_cases kind : e.mismatch.kind = utf8 "NotUnique"
  · obtain ⟨first, same⟩ := Mismatch.kind_eq_notUnique kind
    have deeper := below first same
    exact .inr (beq_eq_false_iff_ne.2 (by omega))
  · exact .inl (beq_eq_false_iff_ne.2 kind)

theorem isRepeated_repetition (e : Nat × Nat) : (repetition path e).isRepeated path = true := by
  simp [isRepeated, repetition, Mismatch.kind]

end Finding

namespace Walk

variable {w : Walk} {s : Site} {items : List Site} {values : List Value}

theorem log_forM_reports {α : Type} {as : List α} {h : α → Check} {report? : α → Option Finding}
    (each : ∀ a, (h a).log = .ok ((), { errors := (report? a).toList })) :
    (as.forM h).log = .ok ((), { errors := as.filterMap report? }) := by
  induction as with
  | nil => rfl
  | cons a as ih =>
      refine (Walker.log_bind_ok (each a) ih).trans ?_
      cases found : report? a <;> simp [Findings.append_def, found]

/-- Exactly the repetitions are reported, in order. -/
theorem duplicates_log (found : s.array? = some items) (same : items.map (·.value) = values) :
    (duplicates items).log =
      .ok ((), { errors := (repetitions values).map (repetition s.path) }) := by
  have search (i : Nat) (x : Site) :
      duplicate? items i x = (values.take i).findIdx? fun v => v.same x.value := by
    rw [duplicate?, ← same, ← List.map_take, List.findIdx?_map]
    rfl
  let report? (e : Nat × Site) : Option Finding :=
    ((values.take e.1).findIdx? fun v => v.same e.2.value).map
      fun first => ⟨e.2.path, .duplicateItem first⟩
  have reported : (duplicates items).log =
      .ok ((), { errors := (items.mapIdx fun i x => (i, x)).filterMap report? }) := by
    refine log_forM_reports fun e => ?_
    obtain ⟨i, x⟩ := e
    dsimp only [report?]
    rw [search]
    cases (values.take i).findIdx? fun v => v.same x.value <;> rfl
  obtain ⟨vs, -, rfl⟩ := Option.map_eq_some_iff.1 found
  obtain rfl : values = vs := by
    rw [← same]
    exact List.ext_getElem (by simp) fun i left right => by simp [Site.part]
  rw [reported, List.mapIdx_mapIdx, List.mapIdx_eq_ofFn, List.ofFn_eq_map, List.filterMap_map,
    repetitions, List.map_filterMap]
  simp only [Option.map_map]
  rfl

/-- The repetitions are all that is reported of duplicates among the items themselves. -/
theorem array_repeats {item : SchemaId} {length : Counts} {f : Findings}
    (found : s.array? = some items)
    (same : items.map (·.value) = values) (below : w.NestsParts (s.path.length + 1))
    (logged : (w.array item length true s).log = .ok ((), f)) :
    f.errors.filter (Finding.isRepeated s.path) = (repetitions values).map (repetition s.path) := by
  rw [array, found] at logged
  obtain ⟨⟨⟩, own, rest, expected, further, rfl⟩ := Walker.bind_log logged
  obtain ⟨⟨⟩, parts, last, checked, reported, rfl⟩ := Walker.bind_log further
  cases (duplicates_log found same).symm.trans reported
  have expects : Walker.Nests (s.path.length + 1) (fun _ => True)
      (Check.expect (length.admits items.length) s.path (.arrayLength items.length length)) :=
        .expect (by simp)
  have checks : Walker.Nests (s.path.length + 1) (fun _ => True) (items.forM (w.check item)) :=
    .forM fun x member => below item x (Nat.le_of_eq (Site.length_path_item found x member).symm)
  have drop {es : List Finding} (deep : ∀ e ∈ es, e.IsBelow (s.path.length + 1)) :
      es.filter (Finding.isRepeated s.path) = [] :=
    List.filter_eq_nil_iff.2 fun e member => by simp [Finding.isRepeated_of_isBelow (deep e member)]
  have keep : ((repetitions values).map (repetition s.path)).filter (Finding.isRepeated s.path) =
      (repetitions values).map (repetition s.path) :=
    List.filter_eq_self.2 fun e member => by
      obtain ⟨r, -, rfl⟩ := List.mem_map.1 member
      exact Finding.isRepeated_repetition r
  rw [Findings.errors_append, Findings.errors_append, List.filter_append, List.filter_append,
    drop (expects () own expected).2, drop (checks () parts checked).2, keep, List.nil_append,
    List.nil_append]

end Walk

namespace Schema

variable {schema : Schema} {settings : Settings} {level : Nat} {id target item : SchemaId}
  {length : Counts}
  {metadata : Metadata} {s : Site} {values : List Value}

/-- An array the items of which have to be different, none with a NaN in it, is checked without a
limit on errors. Each item that equals an earlier one is reported once, in order and with the first
such one. So there are as many such errors as items beyond one of each class of equal ones, and none
if and only if the items are different. -/
theorem check_reports_repetitions {d : Document} (built : d.IsBuilt) {n : NodeId}
    (placed : s.IsAt d n)
    (found : schema.resolve id = .found target ⟨.array item length true, metadata⟩)
    (array : s.value.content = .array values) (real : ∀ v ∈ values, v.IsReal)
    (unlimited : settings.maxErrors = 0) {before after : Ledger}
    (checked : (schema.check settings (level + 1) id s).run settings.maxErrors before =
      .ok ((), after)) :
    ∃ (errors : List Finding) (repeats : List (Nat × Nat)), after.errors = before.errors ++ errors ∧
      errors.filter (Finding.isRepeated s.path) = repeats.map (repetition s.path) ∧
      (repeats.Pairwise fun p q => p.1 < q.1) ∧
      (∀ i j, (i, j) ∈ repeats ↔ j < i ∧ AreEqualAt values j i ∧ ∀ k < j, ¬ AreEqualAt values k i) ∧
      (∀ i, (∃ j, (i, j) ∈ repeats) ↔ ∃ j < i, AreEqualAt values j i) ∧
      (∃ equal : Setoid (Fin values.length), (∀ i j, equal i j ↔ AreEqualAt values i j) ∧
        repeats.length + Nat.card (Quotient equal) = values.length) ∧
      (repeats = [] ↔ values.Pairwise fun v w => v.same w = false) := by
  have unique (v : Value) (member : v ∈ values) : v.HasUniqueKeys := by
    obtain ⟨m, -, value⟩ := placed
    have whole := built.isOrdered.hasUniqueKeys m
    rw [← value] at whole
    exact whole.part (Value.mem_parts_content (by rw [array]; exact member))
  rw [Walker.run_eq, unlimited] at checked
  cases logged : (schema.check settings (level + 1) id s).log with
  | error e =>
      rw [logged] at checked
      cases checked
  | ok found' =>
      obtain ⟨⟨⟩, f⟩ := found'
      rw [logged] at checked
      cases checked
      obtain ⟨g, shaped, same⟩ := check_shape found (by rw [array]; rfl) logged
      obtain ⟨items, inside, equal⟩ := Site.array?_array array
      have below : (schema.walk settings level).NestsParts (s.path.length + 1) :=
        fun id _ deep => check_nests schema settings level id deep
      refine ⟨f.errors, repetitions values, rfl, ?_, repetitions_pairwise, fun _ _ => mem_repetitions,
        fun _ => exists_mem_repetitions, length_repetitions_add unique real, repetitions_eq_nil⟩
      rw [same]
      exact Walk.array_repeats inside equal below shaped

end Schema

/-- An array of two maps with the same entries in another order, around an integer. -/
private def paired : Document :=
  ⟨#[⟨.array [1, 2, 3], []⟩, ⟨.map [(.ident "x", 4), (.ident "y", 5)], []⟩,
    ⟨.primitive (.int 0), []⟩,
    ⟨.map [(.ident "y", 6), (.ident "x", 7)], []⟩, ⟨.primitive (.int 1), []⟩, ⟨.hole, []⟩,
    ⟨.hole, []⟩,
    ⟨.primitive (.int 1), []⟩]⟩

private theorem paired_isBuilt : paired.IsBuilt :=
  .of_run [.pushArray 0 none, .pushArray 0 none, .pushArray 0 none, .insert 1 (.ident "x"),
    .insert 1 (.ident "y"),
    .insert 3 (.ident "y"), .insert 3 (.ident "x"), .assign 2 (.int 0), .assign 4 (.int 1),
    .assign 7 (.int 1)] rfl rfl

private def different : Schema where
  nodes := #[⟨.array 1 {} true, {}⟩, ⟨.any, {}⟩]

/-- The second map is reported together with the first one. -/
theorem check_reports_repetitions_paired :
    ∃ (after : Ledger) (values : List Value) (repeats : List (Nat × Nat)),
    paired.IsBuilt ∧ (different.check {} 2 0 ⟨paired.valueAt 0, [], []⟩).run 0 {} =
      .ok ((), after) ∧
      (paired.valueAt 0).content = .array values ∧ (∀ v ∈ values, v.IsReal) ∧
      after.errors.filter (Finding.isRepeated []) = repeats.map (repetition []) ∧ (2, 0) ∈ repeats ∧
      ∃ equal : Setoid (Fin values.length),
        repeats.length + Nat.card (Quotient equal) = values.length := by
  have array : (paired.valueAt 0).content =
      .array [paired.valueAt 1, paired.valueAt 2, paired.valueAt 3] :=
    congrArg Node.content (paired_isBuilt.isOrdered.root_valueAt 0)
  have real (v : Value) (member : v ∈ [paired.valueAt 1, paired.valueAt 2, paired.valueAt 3]) :
      v.IsReal := by
    have each (id : NodeId) : (paired.valueAt id).IsReal :=
      Document.valueTo_real (by simp [paired]) _ id
    obtain rfl | rfl | rfl :
        v = paired.valueAt 1 ∨ v = paired.valueAt 2 ∨ v = paired.valueAt 3 := by
      simpa using member
    all_goals exact each _
  have same : (paired.valueAt 1).same (paired.valueAt 3) = true := by decide +kernel
  have ends : ((different.check {} 2 0 ⟨paired.valueAt 0, [], []⟩).run 0 {}).isOk = true := by
    decide +kernel
  cases checked : (different.check {} 2 0 ⟨paired.valueAt 0, [], []⟩).run 0 {} with
  | error e =>
      rw [checked] at ends
      cases ends
  | ok found =>
      obtain ⟨⟨⟩, after⟩ := found
      obtain ⟨errors, repeats, added, repeated, -, listed, -, ⟨equal, -, classes⟩, -⟩ :=
        Schema.check_reports_repetitions paired_isBuilt (.root paired 0) rfl array real rfl checked
      refine ⟨after, _, repeats, paired_isBuilt, rfl, array, real, ?_, ?_, equal, classes⟩
      · rw [added]
        exact repeated
      · exact (listed 2 0).2 ⟨by decide, ⟨_, _, rfl, rfl, same⟩, fun k less => absurd less (Nat.not_lt_zero k)⟩

end DocSchema
