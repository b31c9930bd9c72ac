import DocSchema.Proofs.Origins
import DocSchema.Proofs.UnionChecks

set_option autoImplicit false

namespace DocSchema

namespace Walk

variable (w : Walk) (s : Site) (v : Variant SchemaId)

/-- Whether a variant is tried by the names of its fields: a record on a map. -/
def CompetesByFields (fields : List (Field SchemaId)) (entries : List (Key × Site)) : Prop :=
  s.entries? = some entries ∧ ∃ target allowsUnknown metadata,
    w.schema.resolve v.schema = .found target ⟨.record fields allowsUnknown, metadata⟩

/-- Whether the references from a variant end at a type and the variant is tried by a check. -/
def CompetesByCheck : Prop :=
  (∃ target node, w.schema.resolve v.schema = .found target node) ∧
    ∀ fields entries, ¬ w.CompetesByFields s v fields entries

/-- Whether a value could be of a variant: a map has all fields that the record needs, and any other
pairing passes the check. -/
def CouldBe : Prop :=
  (∃ fields entries, w.CompetesByFields s v fields entries ∧
    ∀ f ∈ fields, f.isOptional = true ∨ ∃ e ∈ entries, e.1.spelling? = some f.name) ∨
  w.CompetesByCheck s v ∧ ∃ f, (w.check v.schema s).log = .ok ((), f) ∧ f.errors = []

/-- Whether a variant is a record on a map that declares every field of the map. -/
def CoversAll : Prop :=
  ∃ fields entries, w.CompetesByFields s v fields entries ∧
    ∀ e ∈ entries, ∀ name ∈ e.1.spelling?, ∃ f ∈ fields, f.name = name

/-- Whether the schema is found to be unusable when a variant is tried. -/
def FailsTrial (e : Failure) : Prop :=
  w.schema.target v.schema s.path = .error e ∨
    w.CompetesByCheck s v ∧ (w.check v.schema s).log = .error e

end Walk

/-- Whether an item is the only one of a list with a property. -/
def IsSole {α : Type} (p : α → Prop) (items : List α) (a : α) : Prop :=
  a ∈ items ∧ p a ∧ ∀ b ∈ items, p b → b = a

/-- Whether a variant is the one to infer: the only one that the value could be of, or else the only
one of them that covers all fields of a map. -/
def Walk.Infers (w : Walk) (u : UnionType) (s : Site) (v : Variant SchemaId) : Prop :=
  IsSole (w.CouldBe s) u.variants v ∨
    (∀ other, ¬ IsSole (w.CouldBe s) u.variants other) ∧
      IsSole (fun v => w.CouldBe s v ∧ w.CoversAll s v) u.variants v

namespace IsSole

variable {α : Type} {p q : α → Prop} {items others : List α} {a b : α}

theorem unique (sole : IsSole p items a) (sole' : IsSole p items b) : b = a :=
  sole.2.2 b sole'.1 sole'.2.1

/-- The order of the items makes no difference. -/
theorem congr (same : ∀ b, b ∈ items ↔ b ∈ others) (alike : ∀ b ∈ items, p b ↔ q b) :
    IsSole p items a ↔ IsSole q others a := by
  constructor
  · rintro ⟨inside, holds, only⟩
    refine ⟨(same a).1 inside, (alike a inside).1 holds, fun b listed satisfied => ?_⟩
    have listed := (same b).2 listed
    exact only b listed ((alike b listed).2 satisfied)
  · rintro ⟨inside, holds, only⟩
    have inside := (same a).2 inside
    refine ⟨inside, (alike a inside).2 holds, fun b listed satisfied => ?_⟩
    exact only b ((same b).1 listed) ((alike b listed).1 satisfied)

/-- A list of different items with the property has one item if one is the only. -/
theorem eq_singleton {found : List α} (distinct : found.Nodup)
    (members : ∀ b, b ∈ found ↔ b ∈ items ∧ p b) (sole : IsSole p items a) : found = [a] := by
  apply List.perm_singleton.1
  apply (List.perm_ext_iff_of_nodup distinct (List.nodup_singleton a)).2
  intro b
  rw [members, List.mem_singleton]
  constructor
  · rintro ⟨listed, holds⟩
    exact sole.2.2 b listed holds
  · rintro rfl
    exact ⟨sole.1, sole.2.1⟩

theorem of_singleton (members : ∀ b, b ∈ [a] ↔ b ∈ items ∧ p b) : IsSole p items a := by
  have first := (members a).1 List.mem_cons_self
  refine ⟨first.1, first.2, fun b listed holds => ?_⟩
  exact List.mem_singleton.1 ((members b).2 ⟨listed, holds⟩)

end IsSole

theorem Walk.Infers.couldBe {w : Walk} {u : UnionType} {s : Site} {v : Variant SchemaId}
    (infers : w.Infers u s v) :
    v ∈ u.variants ∧ w.CouldBe s v := by
  rcases infers with ⟨member, could, -⟩ | ⟨-, member, ⟨could, -⟩, -⟩
  · exact ⟨member, could⟩
  · exact ⟨member, could⟩

/-- Among variants of different names each is found by its own. -/
theorem UnionType.find?_of_mem {u : UnionType} (distinct : (u.variants.map (·.name)).Nodup)
    {v : Variant SchemaId} (member : v ∈ u.variants) : u.find? v.name = some v := by
  unfold UnionType.find?
  generalize u.variants = variants at distinct member
  induction variants with
  | nil => cases member
  | cons first rest ih =>
      rw [List.map_cons, List.nodup_cons] at distinct
      rcases List.mem_cons.1 member with rfl | later
      · simp
      · have different : first.name ≠ v.name := by
          intro same
          exact distinct.1 (same ▸ List.mem_map_of_mem later)
        rw [List.find?_cons_of_neg (by simpa using different)]
        exact ih distinct.2 later

namespace Walk

variable {w : Walk} {s : Site} {v : Variant SchemaId}

theorem hasRequired_iff {fields : List (Field SchemaId)} {entries : List (Key × Site)} :
    hasRequired fields (entries.filterMap (·.1.spelling?)) = true ↔
      ∀ f ∈ fields, f.isOptional = true ∨ ∃ e ∈ entries, e.1.spelling? = some f.name := by
  simp [hasRequired]

theorem covers_iff {fields : List (Field SchemaId)} {entries : List (Key × Site)} :
    covers fields (entries.filterMap (·.1.spelling?)) = true ↔
      ∀ e ∈ entries, ∀ name ∈ e.1.spelling?, ∃ f ∈ fields, f.name = name := by
  unfold covers
  rw [List.all_eq_true]
  constructor
  · intro all e inside name spelled
    simpa using all name (List.mem_filterMap.2 ⟨e, inside, spelled⟩)
  · intro all name present
    obtain ⟨e, inside, spelled⟩ := List.mem_filterMap.1 present
    simpa using all e inside name spelled

theorem CompetesByFields.functional {fields fields' : List (Field SchemaId)}
    {entries entries' : List (Key × Site)} (first : w.CompetesByFields s v fields entries)
    (second : w.CompetesByFields s v fields' entries') : fields' = fields ∧ entries' = entries := by
  obtain ⟨map, target, allowsUnknown, metadata, resolved⟩ := first
  obtain ⟨map', target', allowsUnknown', metadata', resolved'⟩ := second
  cases map.symm.trans map'
  cases resolved.symm.trans resolved'
  exact ⟨rfl, rfl⟩

theorem target_of_found {target : SchemaId} {node : SchemaNode} (path : Path)
    (resolved : w.schema.resolve v.schema = .found target node) :
    w.schema.target v.schema path = .ok (.node target node) := by
  unfold Schema.target
  rw [resolved]

theorem not_failsTrial_of_fields {fields : List (Field SchemaId)} {entries : List (Key × Site)}
    (competes : w.CompetesByFields s v fields entries) (e : Failure) : ¬ w.FailsTrial s v e := by
  rintro (failed | ⟨⟨-, other⟩, -⟩)
  · obtain ⟨-, target, allowsUnknown, metadata, resolved⟩ := competes
    rw [target_of_found s.path resolved] at failed
    cases failed
  · exact other fields entries competes

/-- A record on a map is tried by the names of its fields. -/
theorem candidate?_fields {fields : List (Field SchemaId)} {entries : List (Key × Site)}
    (competes : w.CompetesByFields s v fields entries) :
    (w.candidate? s v).log = .ok (if hasRequired fields (entries.filterMap (·.1.spelling?)) then
      some (covers fields (entries.filterMap (·.1.spelling?))) else none, {}) := by
  obtain ⟨map, target, allowsUnknown, metadata, resolved⟩ := competes
  unfold candidate?
  rw [target_of_found s.path resolved, map]
  rfl

/-- Any other pairing is tried by a check. -/
theorem candidate?_check (competes : w.CompetesByCheck s v) :
    (w.candidate? s v).log =
      (w.check v.schema s).log.map fun found =>
        (if found.2.errors.isEmpty then some false else none, {}) := by
  obtain ⟨⟨target, node, resolved⟩, other⟩ := competes
  have tried : (do return if ← Walker.accepts (w.check v.schema s) then some false else none :
      Walker (Option Bool)).log =
      (w.check v.schema s).log.map
        fun found => (if found.2.errors.isEmpty then some false else none, {}) := by
    rw [Walker.log_bind, Walker.log_accepts]
    cases (w.check v.schema s).log <;> rfl
  unfold candidate?
  rw [target_of_found s.path resolved]
  obtain ⟨shape, metadata⟩ := node
  cases shape
  case record fields allowsUnknown =>
    cases map : s.entries? with
    | none => exact tried
    | some entries =>
        exact absurd ⟨map, target, allowsUnknown, metadata, resolved⟩ (other fields entries)
  all_goals exact tried

/-- A variant whose references end nowhere is passed over. -/
theorem candidate?_undefined {name : Bytes}
    (dangling : w.schema.resolve v.schema = .dangling name) :
    (w.candidate? s v).log = .ok (none, {}) := by
  unfold candidate? Schema.target
  rw [dangling]
  rfl

theorem candidate?_unusable {e : Failure} (failed : w.schema.target v.schema s.path = .error e) :
    (w.candidate? s v).log = .error e := by
  unfold candidate?
  rw [failed]
  rfl

/-- A trial fails, or it tells whether the value could be of the variant and whether the variant
then covers all fields. Either way it finds nothing. -/
theorem candidate?_cases (w : Walk) (s : Site) (v : Variant SchemaId) :
    (∃ e, w.FailsTrial s v e ∧ (w.candidate? s v).log = .error e) ∨
      (∀ e, ¬ w.FailsTrial s v e) ∧ ∃ found, (w.candidate? s v).log = .ok (found, {}) ∧
        (found.isSome = true ↔ w.CouldBe s v) ∧
        (found = some true ↔ w.CouldBe s v ∧ w.CoversAll s v) := by
  by_cases byFields : ∃ fields entries, w.CompetesByFields s v fields entries
  · obtain ⟨fields, entries, competes⟩ := byFields
    refine .inr ⟨not_failsTrial_of_fields competes, _, candidate?_fields competes, ?_⟩
    have couldBe : w.CouldBe s v ↔
        hasRequired fields (entries.filterMap (·.1.spelling?)) = true := by
      rw [hasRequired_iff]
      constructor
      · rintro (⟨fields', entries', competes', required⟩ | ⟨⟨-, other⟩, -⟩)
        · obtain ⟨rfl, rfl⟩ := competes.functional competes'
          exact required
        · exact absurd competes (other fields entries)
      · exact fun required => .inl ⟨fields, entries, competes, required⟩
    have coversAll : w.CoversAll s v ↔
        covers fields (entries.filterMap (·.1.spelling?)) = true := by
      rw [covers_iff]
      constructor
      · rintro ⟨fields', entries', competes', all⟩
        obtain ⟨rfl, rfl⟩ := competes.functional competes'
        exact all
      · exact fun all => ⟨fields, entries, competes, all⟩
    rw [couldBe, coversAll]
    cases hasRequired fields (entries.filterMap (·.1.spelling?)) <;> simp
  have other : ∀ fields entries, ¬ w.CompetesByFields s v fields entries :=
    fun fields entries competes => byFields ⟨fields, entries, competes⟩
  have uncovered : ¬ w.CoversAll s v :=
    fun ⟨fields, entries, competes, _⟩ => other fields entries competes
  cases ends : w.schema.resolve v.schema with
  | found target node =>
      have competes : w.CompetesByCheck s v := ⟨⟨target, node, ends⟩, other⟩
      have tried := candidate?_check competes
      cases checked : (w.check v.schema s).log with
      | error e =>
          rw [checked] at tried
          exact .inl ⟨e, .inr ⟨competes, checked⟩, tried⟩
      | ok found =>
          obtain ⟨⟨⟩, f⟩ := found
          rw [checked] at tried
          have couldBe : w.CouldBe s v ↔ f.errors = [] := by
            constructor
            · rintro (⟨fields, entries, competes', -⟩ | ⟨-, g, checked', empty⟩)
              · exact absurd competes' (other fields entries)
              · cases checked.symm.trans checked'
                exact empty
            · exact fun empty => .inr ⟨competes, f, checked, empty⟩
          refine .inr ⟨?_, _, tried, ?_, ?_⟩
          · rintro e (failed | ⟨-, failed⟩)
            · rw [target_of_found s.path ends] at failed
              cases failed
            · cases checked.symm.trans failed
          · rw [couldBe]
            cases f.errors <;> simp
          · simp only [uncovered, and_false, iff_false]
            cases f.errors <;> simp
  | dangling name =>
      refine .inr ⟨?_, none, candidate?_undefined ends, ?_, ?_⟩
      · rintro e (failed | ⟨⟨⟨target, node, found⟩, -⟩, -⟩)
        · unfold Schema.target at failed
          rw [ends] at failed
          cases failed
        · cases ends.symm.trans found
      · simp only [Option.isSome_none, Bool.false_eq_true, false_iff]
        rintro (⟨fields, entries, competes, -⟩ | ⟨⟨⟨target, node, found⟩, -⟩, -⟩)
        · exact other fields entries competes
        · cases ends.symm.trans found
      · simp [uncovered]
  | _ =>
      have failed : ∃ e, w.schema.target v.schema s.path = .error e := by
        unfold Schema.target
        rw [ends]
        exact ⟨_, rfl⟩
      obtain ⟨e, failed⟩ := failed
      exact .inl ⟨e, .inl failed, candidate?_unusable failed⟩

/-- Whether the trials of variants in order fail, first of all with this failure. -/
def FailsFirst (w : Walk) (s : Site) (vs : List (Variant SchemaId)) (e : Failure) : Prop :=
  ∃ before v after, vs = before ++ v :: after ∧ (∀ b ∈ before, ∀ e, ¬ w.FailsTrial s b e) ∧
    w.FailsTrial s v e

/-- The candidates are the variants that the value could be of, in order, each with whether it
covers all fields. -/
structure AreCandidates (w : Walk) (s : Site) (vs : List (Variant SchemaId))
    (found : List (Variant SchemaId × Bool)) : Prop where
  sublist : (found.map (·.1)).Sublist vs
  couldBe : ∀ v ∈ vs, v ∈ found.map (·.1) ↔ w.CouldBe s v
  coversAll : ∀ c ∈ found, c.2 = true ↔ w.CoversAll s c.1

/-- The first trial that fails ends the search for candidates. -/
theorem candidates_cases (w : Walk) (s : Site) {vs : List (Variant SchemaId)}
    (distinct : vs.Nodup) :
    (∃ e, w.FailsFirst s vs e ∧ (w.candidates s vs).log = .error e) ∨
      (∀ v ∈ vs, ∀ e, ¬ w.FailsTrial s v e) ∧
        ∃ found, (w.candidates s vs).log = .ok (found, {}) ∧ w.AreCandidates s vs found := by
  induction vs with
  | nil => exact .inr ⟨by simp, [], rfl, .slnil, by simp, by simp⟩
  | cons v vs ih =>
      obtain ⟨new, distinct⟩ := List.nodup_cons.1 distinct
      rcases w.candidate?_cases s v with ⟨e, fails, failed⟩ | ⟨ends, found, logged, isSome, covers⟩
      · exact .inl ⟨e, ⟨[], v, vs, rfl, by simp, fails⟩, Walker.log_bind_error failed⟩
      rcases ih distinct with ⟨e, ⟨before, b, after, rfl, first, fails⟩,
        failed⟩ | ⟨rest, others, logged', all⟩
      · refine .inl ⟨e, ⟨v :: before, b, after, rfl, ?_, fails⟩,
          Walker.log_bind_ok_error logged (Walker.log_bind_error failed)⟩
        intro c member
        rcases List.mem_cons.1 member with rfl | later
        · exact ends
        · exact first c later
      · refine .inr ⟨?_, (found.map fun covers => (v, covers)).toList ++ others, ?_, ?_⟩
        · intro c member
          rcases List.mem_cons.1 member with rfl | later
          · exact ends
          · exact rest c later
        · exact (Walker.log_bind_of_log logged _).trans (Walker.log_bind_of_log logged' _)
        · have outside : v ∉ others.map (·.1) := fun inside => new (all.sublist.subset inside)
          cases found with
          | none =>
              have notBe : ¬ w.CouldBe s v := by simpa using isSome
              refine ⟨.cons v all.sublist, fun c member => ?_, all.coversAll⟩
              rcases List.mem_cons.1 member with rfl | later
              · exact ⟨fun inside => absurd inside outside, fun couldBe => absurd couldBe notBe⟩
              · exact all.couldBe c later
          | some b =>
              have couldBe : w.CouldBe s v := by simpa using isSome
              refine ⟨.cons_cons v all.sublist, fun c member => ?_, fun c member => ?_⟩
              · rcases List.mem_cons.1 member with rfl | later
                · exact ⟨fun _ => couldBe, fun _ => List.mem_cons_self⟩
                · have apart : c ≠ v := fun same => new (same ▸ later)
                  rw [← all.couldBe c later]
                  simp [apart]
              · rcases List.mem_cons.1 member with rfl | later
                · simpa [couldBe] using covers
                · exact all.coversAll c later

section Candidates

variable {u : UnionType} {found : List (Variant SchemaId × Bool)}

theorem AreCandidates.nodup {vs : List (Variant SchemaId)} (all : w.AreCandidates s vs found)
    (distinct : vs.Nodup) : (found.map (·.1)).Nodup :=
  all.sublist.nodup distinct

theorem AreCandidates.mem {vs : List (Variant SchemaId)} (all : w.AreCandidates s vs found)
    (v : Variant SchemaId) : v ∈ found.map (·.1) ↔ v ∈ vs ∧ w.CouldBe s v := by
  constructor
  · intro inside
    have member := all.sublist.subset inside
    exact ⟨member, (all.couldBe v member).1 inside⟩
  · rintro ⟨member, couldBe⟩
    exact (all.couldBe v member).2 couldBe

theorem AreCandidates.mem_covering {vs : List (Variant SchemaId)} (all : w.AreCandidates s vs found)
    (v : Variant SchemaId) :
    v ∈ (found.filter (·.2)).map (·.1) ↔ v ∈ vs ∧ w.CouldBe s v ∧ w.CoversAll s v := by
  rw [← and_assoc, ← all.mem]
  constructor
  · intro inside
    obtain ⟨c, kept, rfl⟩ := List.mem_map.1 inside
    obtain ⟨listed, covers⟩ := List.mem_filter.1 kept
    exact ⟨List.mem_map_of_mem listed, (all.coversAll c listed).1 covers⟩
  · rintro ⟨inside, covers⟩
    obtain ⟨c, listed, rfl⟩ := List.mem_map.1 inside
    exact List.mem_map_of_mem (List.mem_filter.2 ⟨listed, (all.coversAll c listed).2 covers⟩)

/-- What is chosen among several candidates, or among none. -/
theorem choice?_of_ne_singleton (several : ∀ c, found ≠ [c]) (v : Variant SchemaId) :
    choice? found = some v ↔ (found.filter (·.2)).map (·.1) = [v] := by
  unfold choice?
  split
  · next c => exact absurd rfl (several c)
  · generalize found.filter (·.2) = covering
    cases covering with
    | nil => simp
    | cons c rest => cases rest <;> simp

/-- Of the candidates the one is chosen that is to be inferred. -/
theorem choice?_eq_some_iff (all : w.AreCandidates s u.variants found) (distinct : u.variants.Nodup)
    (v : Variant SchemaId) : choice? found = some v ↔ w.Infers u s v := by
  by_cases single : ∃ c, found = [c]
  · obtain ⟨c, rfl⟩ := single
    have sole : IsSole (w.CouldBe s) u.variants c.1 := .of_singleton all.mem
    constructor
    · rintro ⟨⟩
      exact .inl sole
    · rintro (sole' | ⟨none, -⟩)
      · exact congrArg some (sole'.unique sole)
      · exact absurd sole (none c.1)
  · have several : ∀ c, found ≠ [c] := fun c same => single ⟨c, same⟩
    have none : ∀ other, ¬ IsSole (w.CouldBe s) u.variants other := by
      intro other sole
      have same := IsSole.eq_singleton (all.nodup distinct) all.mem sole
      obtain ⟨c, rfl, -⟩ := List.map_eq_singleton_iff.1 same
      exact several c rfl
    rw [choice?_of_ne_singleton several]
    constructor
    · intro same
      exact .inr ⟨none, .of_singleton (same ▸ all.mem_covering)⟩
    · rintro (sole | ⟨-, sole⟩)
      · exact absurd sole (none v)
      · have kept : ((found.filter (·.2)).map (·.1)).Nodup :=
          List.Nodup.sublist (List.filter_sublist.map _) (all.nodup distinct)
        exact IsSole.eq_singleton kept all.mem_covering sole

end Candidates

/-- How the inference of a variant ends, if no trial fails: the one to infer is chosen and nothing
is reported, or one error is reported. -/
inductive InferenceEnds (w : Walk) (u : UnionType) (s : Site) : Option Choice → List Finding → Prop
  | chosen {v : Variant SchemaId} (infers : w.Infers u s v) :
      InferenceEnds w u s (some ⟨v, s, none⟩) []
  | noneMatched (absent : ∀ v ∈ u.variants, ¬ w.CouldBe s v) :
      InferenceEnds w u s none [⟨s.path, .noneMatched⟩]
  | severalMatched {names : List Bytes} (undecided : ∀ v, ¬ w.Infers u s v)
      (present : ∃ v ∈ u.variants, w.CouldBe s v)
      (listed : names.Sublist (u.variants.map (·.name)))
      (matched : ∀ v ∈ u.variants, v.name ∈ names ↔ w.CouldBe s v) :
      InferenceEnds w u s none [⟨s.path, .severalMatched names⟩]

theorem nodup_variants {u : UnionType} (distinct : (u.variants.map (·.name)).Nodup) :
    u.variants.Nodup :=
  .of_map _ distinct

/-- The inference of a variant fails with the first trial that fails, or ends with what the trials
tell. -/
theorem infer_cases (w : Walk) (u : UnionType) (s : Site)
    (distinct : (u.variants.map (·.name)).Nodup) :
    (∃ e, w.FailsFirst s u.variants e ∧ (w.infer u s).log = .error e) ∨
      (∀ v ∈ u.variants, ∀ e, ¬ w.FailsTrial s v e) ∧
        ∃ choice errors, w.InferenceEnds u s choice errors ∧
          (w.infer u s).log = .ok (choice, { errors }) := by
  rcases w.candidates_cases s (nodup_variants distinct) with ⟨e, fails, failed⟩ | ⟨ends, found, logged, all⟩
  · exact .inl ⟨e, fails, Walker.log_bind_error failed⟩
  refine .inr ⟨ends, ?_⟩
  have chosen := choice?_eq_some_iff all (nodup_variants distinct)
  unfold infer
  rw [Walker.log_bind_of_log logged]
  cases choice : choice? found with
  | some v =>
      have infers := (chosen v).1 choice
      have member := infers.couldBe.1
      refine ⟨_, _, .chosen infers, ?_⟩
      show (choose u v.name s s.path none).log = _
      unfold choose
      rw [UnionType.find?_of_mem distinct member]
      rfl
  | none =>
      have none : ∀ v, ¬ w.Infers u s v := by
        intro v infers
        rw [(chosen v).2 infers] at choice
        cases choice
      cases found with
      | nil =>
          refine ⟨_, _, .noneMatched fun v member couldBe => ?_, rfl⟩
          have listed := (all.couldBe v member).2 couldBe
          cases listed
      | cons first rest =>
          have sublist := all.sublist.map (·.name)
          rw [List.map_map] at sublist
          refine ⟨_, _, .severalMatched none
            ⟨first.1, (all.mem first.1).1 List.mem_cons_self⟩ sublist ?_, rfl⟩
          intro v member
          rw [← all.couldBe v member, ← List.map_map]
          constructor
          · intro named
            obtain ⟨v', inside, same⟩ := List.mem_map.1 named
            have member' := all.sublist.subset inside
            exact List.inj_on_of_nodup_map distinct member' member same ▸ inside
          · exact List.mem_map_of_mem

/-- Whether two walks try a variant with the same result, if the trial of the first one ends. -/
def TriesAlike (w w' : Walk) (s t : Site) (v : Variant SchemaId) : Prop :=
  ∀ found f, (w.candidate? s v).log = .ok (found, f) → ∃ g, (w'.candidate? t v).log = .ok (found, g)

/-- Trials with the same result tell the same. -/
theorem TriesAlike.tells {w' : Walk} {t : Site} (alike : TriesAlike w w' s t v)
    (ends : ∀ e, ¬ w.FailsTrial s v e) : (∀ e, ¬ w'.FailsTrial t v e) ∧
      (w.CouldBe s v ↔ w'.CouldBe t v) ∧
      (w.CouldBe s v ∧ w.CoversAll s v ↔ w'.CouldBe t v ∧ w'.CoversAll t v) := by
  rcases w.candidate?_cases s v with ⟨e, fails, -⟩ | ⟨-, found, logged, isSome, covers⟩
  · exact absurd fails (ends e)
  obtain ⟨g, logged'⟩ := alike found {} logged
  rcases w'.candidate?_cases t v with ⟨e, -, failed⟩ | ⟨ends', found', again, isSome', covers'⟩
  · cases logged'.symm.trans failed
  cases logged'.symm.trans again
  exact ⟨ends', isSome.symm.trans isSome', covers.symm.trans covers'⟩

/-- What is to be inferred depends on the results of the trials, not on the order of the
variants. -/
theorem infers_congr {w' : Walk} {t : Site} {u u' : UnionType} (perm : u.variants.Perm u'.variants)
    (ends : ∀ v ∈ u.variants, ∀ e, ¬ w.FailsTrial s v e)
    (alike : ∀ v ∈ u.variants, TriesAlike w w' s t v) (v : Variant SchemaId) :
    w.Infers u s v ↔ w'.Infers u' t v := by
  have members (b : Variant SchemaId) : b ∈ u.variants ↔ b ∈ u'.variants := perm.mem_iff
  have sole (b : Variant SchemaId) :
      IsSole (w.CouldBe s) u.variants b ↔ IsSole (w'.CouldBe t) u'.variants b :=
    IsSole.congr members fun c member => ((alike c member).tells (ends c member)).2.1
  have covering : IsSole (fun v => w.CouldBe s v ∧ w.CoversAll s v) u.variants v ↔
      IsSole (fun v => w'.CouldBe t v ∧ w'.CoversAll t v) u'.variants v :=
    IsSole.congr members fun c member => ((alike c member).tells (ends c member)).2.2
  unfold Infers
  rw [sole v, covering]
  simp only [sole]

end Walk

end DocSchema
