import DocSchema.Proofs.Log

set_option autoImplicit false

namespace DocSchema

namespace Schema

/-- The walk does not know how many errors are kept. -/
theorem check_maxErrors (schema : Schema) (settings : Settings) (limit depth : Nat) :
    schema.check { settings with maxErrors := limit } depth = schema.check settings depth := by
  induction depth with
  | zero => rfl
  | succ depth ih =>
    funext id s
    simp only [check, ih]

end Schema

/-- All that both passes over a value find, the structure first. -/
def findingsOf (v : Value) (schema : Schema) (id : SchemaId) (settings : Settings) :
    Except Failure Findings := do
  if !schema.contains id then throw ⟨[], .missingNode⟩
  let s : Site := ⟨v, [], []⟩
  let ((), structural) ← (schema.check settings settings.maxDepth id s).log
  let ((), holes) ← (schema.complete structural.selections settings.maxDepth id s false).log
  return structural ++ holes

theorem findingsOf_maxErrors (v : Value) (schema : Schema) (id : SchemaId) (settings : Settings)
    (limit : Nat) :
    findingsOf v schema id { settings with maxErrors := limit } =
      findingsOf v schema id settings := by
  simp only [findingsOf, Schema.check_maxErrors]

/-- What the passes find is what the structural pass does, and then the search for holes. -/
theorem findingsOf_eq {v : Value} {schema : Schema} {id : SchemaId} (settings : Settings)
    (inside : schema.contains id = true) :
    findingsOf v schema id settings =
      (schema.check settings settings.maxDepth id ⟨v, [], []⟩).log.bind fun found =>
        (schema.complete found.2.selections settings.maxDepth id ⟨v, [], []⟩ false).log.map
          fun holes => found.2 ++ holes.2 := by
  unfold findingsOf
  rw [inside]
  rfl

theorem findings_of_passes {v : Value} {schema : Schema} {id : SchemaId} {settings : Settings}
    {f : Findings} (found : findingsOf v schema id settings = .ok f) :
    schema.contains id = true ∧ ∃ structural holes,
      (schema.check settings settings.maxDepth id ⟨v, [], []⟩).log = .ok ((), structural) ∧
      (schema.complete structural.selections settings.maxDepth id ⟨v, [], []⟩ false).log =
        .ok ((), holes) ∧ f = structural ++ holes := by
  cases inside : schema.contains id with
  | false =>
      unfold findingsOf at found
      rw [inside] at found
      cases found
  | true =>
      rw [findingsOf_eq settings inside] at found
      cases logged : (schema.check settings settings.maxDepth id ⟨v, [], []⟩).log with
      | error e =>
          rw [logged] at found
          cases found
      | ok first =>
          obtain ⟨⟨⟩, structural⟩ := first
          rw [logged, Except.bind] at found
          cases logged' : (schema.complete structural.selections settings.maxDepth id ⟨v, [], []⟩
              false).log with
          | error e =>
              rw [logged'] at found
              cases found
          | ok second =>
              obtain ⟨⟨⟩, holes⟩ := second
              rw [logged'] at found
              cases found
              exact ⟨rfl, structural, holes, rfl, logged', rfl⟩

theorem findings_of_logs {v : Value} {schema : Schema} {id : SchemaId} {settings : Settings}
    {structural holes : Findings} (inside : schema.contains id = true)
    (checked : (schema.check settings settings.maxDepth id ⟨v, [], []⟩).log = .ok ((), structural))
    (searched : (schema.complete structural.selections settings.maxDepth id ⟨v, [], []⟩ false).log =
      .ok ((), holes)) :
    findingsOf v schema id settings = .ok (structural ++ holes) := by
  rw [findingsOf_eq settings inside, checked, Except.bind, searched]
  rfl

/-- There are no findings about an id outside the table. -/
theorem findings_of_outside {v : Value} {schema : Schema} {id : SchemaId} {settings : Settings}
    (outside : schema.contains id = false) :
    findingsOf v schema id settings = .error ⟨[], .missingNode⟩ := by
  rw [findingsOf, outside]
  rfl

/-- There are no findings if one of the passes fails. -/
theorem findings_of_failed_check {v : Value} {schema : Schema} {id : SchemaId} {settings : Settings}
    {e : Failure} (inside : schema.contains id = true)
    (failed : (schema.check settings settings.maxDepth id ⟨v, [], []⟩).log = .error e) :
    findingsOf v schema id settings = .error e := by
  rw [findingsOf_eq settings inside, failed]
  rfl

theorem findings_of_failed_search {v : Value} {schema : Schema} {id : SchemaId}
    {settings : Settings} {structural : Findings} {e : Failure} (inside : schema.contains id = true)
    (checked : (schema.check settings settings.maxDepth id ⟨v, [], []⟩).log = .ok ((), structural))
    (failed : (schema.complete structural.selections settings.maxDepth id ⟨v, [], []⟩ false).log =
      .error e) : findingsOf v schema id settings = .error e := by
  rw [findingsOf_eq settings inside, checked, Except.bind, failed]
  rfl

/-- A validation reports the findings as far as there is room for them. -/
theorem validateValue_eq (v : Value) (schema : Schema) (id : SchemaId) (settings : Settings) :
    validateValue v schema id settings =
      (findingsOf v schema id settings).map fun f =>
        (({} : Ledger).add settings.maxErrors f).toReport := by
  unfold validateValue findingsOf
  by_cases inside : schema.contains id = true
  · simp only [inside, Bool.not_true, Bool.false_eq_true, ↓reduceIte, Walker.run_eq]
    cases (schema.check settings settings.maxDepth id ⟨v, [], []⟩).log with
    | error e => rfl
    | ok found =>
      obtain ⟨⟨⟩, structural⟩ := found
      simp only [Except.map, Prod.map, id_eq, bind, Except.bind, pure, Except.pure]
      have kept : (({} : Ledger).add settings.maxErrors structural).selections =
          structural.selections := by
        simp [Ledger.add]
      rw [kept]
      cases (schema.complete structural.selections settings.maxDepth id ⟨v, [], []⟩ false).log with
      | error e => rfl
      | ok found =>
        simp only [Ledger.add_append]
  · simp [inside, Except.map, bind, Except.bind, throw, throwThe, MonadExceptOf.throw]

theorem toReport_add (limit : Nat) (f : Findings) :
    (({} : Ledger).add limit f).toReport =
      { errors := if limit = 0 then f.errors else f.errors.take limit
        warnings := f.warnings
        isTruncated := limit != 0 && limit < f.errors.length
        isIncomplete := f.isIncomplete } := by
  simp [Ledger.add, Ledger.toReport]

theorem mem_errors_of_reported {limit : Nat} {f : Findings} {e : Finding}
    (reported : e ∈ (({} : Ledger).add limit f).toReport.errors) : e ∈ f.errors := by
  rw [toReport_add] at reported
  split at reported
  · exact reported
  · exact List.mem_of_mem_take reported

def Findings.toReport (f : Findings) : Report :=
  ⟨f.errors, f.warnings, false, f.isIncomplete⟩

/-- Without a limit on errors, a validation reports all that its passes find. -/
theorem validateNode_of_logs {d : Document} {node : NodeId} {schema : Schema} {id : SchemaId}
    {settings : Settings} {structural holes : Findings} (unlimited : settings.maxErrors = 0)
    (inside : schema.contains id = true)
    (checked : (schema.check settings settings.maxDepth id ⟨d.valueAt node, [], []⟩).log =
      .ok ((), structural))
    (searched : (schema.complete structural.selections settings.maxDepth id ⟨d.valueAt node, [], []⟩
      false).log = .ok ((), holes)) :
    validateNode d node schema id settings = .ok (structural ++ holes).toReport := by
  rw [validateNode, validateValue_eq, findings_of_logs inside checked searched, Except.map,
    toReport_add, unlimited]
  rfl

/-- What a validation reports is what its passes find, as far as there is room. -/
theorem exists_findings {d : Document} {node : NodeId} {schema : Schema} {id : SchemaId}
    {settings : Settings} {r : Report}
    (validated : validateNode d node schema id settings = .ok r) :
    ∃ f, findingsOf (d.valueAt node) schema id settings = .ok f ∧
      (({} : Ledger).add settings.maxErrors f).toReport = r := by
  rw [validateNode, validateValue_eq] at validated
  cases found : findingsOf (d.valueAt node) schema id settings with
  | error e =>
      rw [found] at validated
      cases validated
  | ok f =>
      rw [found] at validated
      exact ⟨f, rfl, Except.ok.inj validated⟩

/-- A limit on errors decides neither whether a validation fails nor what it reports up to the
limit. -/
theorem validateNode_limited (d : Document) (node : NodeId) (schema : Schema) (id : SchemaId)
    (settings : Settings) (limit : Nat) (positive : 0 < limit) :
    validateNode d node schema id { settings with maxErrors := limit } =
      (validateNode d node schema id { settings with maxErrors := 0 }).map fun r =>
        { r with
          errors := r.errors.take limit
          isTruncated := limit < r.errors.length } := by
  have limited : limit ≠ 0 := by omega
  simp only [validateNode, validateValue_eq, findingsOf_maxErrors, toReport_add]
  cases findingsOf (d.valueAt node) schema id settings with
  | error e => rfl
  | ok f => simp [Except.map, limited]

/-- Of two missing items the first is reported, and the report says that there is more. -/
theorem validateNode_limited_one :
    0 < 1 ∧
      validateNode ⟨#[⟨.array [1, 2], []⟩, {}, {}]⟩ 0
        { nodes := #[⟨.array 1 {} false, {}⟩, ⟨.integer {} none, {}⟩] } 0
        { maxDepth := 2, maxErrors := 1 } =
      .ok ⟨[⟨[.array (some 0)], .missingValue⟩], [], true, true⟩ :=
  ⟨by decide, (validateNode_limited _ _ _ _ { maxDepth := 2 } 1 (by decide)).trans rfl⟩

end DocSchema
