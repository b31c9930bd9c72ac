import DocSchema.Proofs.TranslatedUnions

set_option autoImplicit false

namespace DocSchema

/-- What both passes over a value keep on a fresh ledger, where `start` levels lie above the value
already. -/
def Schema.passes (schema : Schema) (settings : Settings) (start : Nat) (s : Site) (id : SchemaId)
    (isOptional : Bool) : Except Failure Ledger := do
  let depth := settings.maxDepth - start
  let ((), l) ← (schema.check settings depth id s).run settings.maxErrors {}
  let ((), l) ← (schema.complete l.selections depth id s isOptional).run settings.maxErrors l
  return l

/-- A validation reports what the passes from the root keep. -/
theorem validateValue_eq_passes {v : Value} {schema : Schema} {id : SchemaId} (settings : Settings)
    (inside : schema.contains id = true) :
    validateValue v schema id settings =
      (schema.passes settings 0 ⟨v, [], []⟩ id false).map Ledger.toReport := by
  unfold validateValue Schema.passes
  simp only [inside, Bool.not_true, Bool.false_eq_true, ↓reduceIte, Nat.sub_zero, bind, Except.bind,
    pure, Except.pure]
  cases (schema.check settings settings.maxDepth id ⟨v, [], []⟩).run settings.maxErrors {} with
  | error e => rfl
  | ok first =>
      dsimp only
      cases (schema.complete first.2.selections settings.maxDepth id ⟨v, [], []⟩ false).run settings.maxErrors
          first.2 with
      | error e => rfl
      | ok second => rfl

def Failure.under (above : Path) (e : Failure) : Failure :=
  ⟨above ++ e.path, e.flaw⟩

def Finding.under (above : Path) (e : Finding) : Finding :=
  ⟨above ++ e.path, e.mismatch⟩

def Selection.under (above : Path) (c : Selection) : Selection :=
  { c with target := { c.target with path := above ++ c.target.path } }

def Findings.under (above : Path) (f : Findings) : Findings :=
  ⟨f.errors.map (Finding.under above), f.warnings.map fun w => (above ++ w.1, w.2),
    f.selections.map (Selection.under above), f.isIncomplete⟩

def Ledger.under (above : Path) (l : Ledger) : Ledger :=
  { l.toFindings.under above with isTruncated := l.isTruncated }

theorem Ledger.add_under (above : Path) (limit : Nat) (l : Ledger) (f : Findings) :
    (l.under above).add limit (f.under above) = (l.add limit f).under above := by
  simp only [add, under, Findings.under, List.map_append, List.length_map]
  split <;> simp [List.map_take]

/-- Paths and positions below others, and all else as it is. -/
def Translation.below (above : Path) (base : List Nat) : Translation :=
  ⟨id, above, base, True⟩

section Below

variable {above : Path}

theorem Translation.Finds.eq_under {f g : Findings} (finds : (below above []).Finds f g) :
    g = f.under above := by
  obtain ⟨errors, warnings, selections, isIncomplete⟩ := finds
  obtain ⟨_, _, _, _⟩ := g
  obtain rfl : _ = _ := errors
  obtain rfl : _ = _ := warnings trivial
  obtain rfl : _ = _ := selections
  obtain rfl : _ = _ := isIncomplete
  rfl

theorem Translation.Fails.eq_under {e e' : Failure} (fails : (below above []).Fails e e') :
    e' = e.under above := by
  obtain ⟨path, flaw⟩ := e'
  obtain rfl : path = _ := fails.path
  obtain rfl : flaw = _ := fails.flaw trivial
  rfl

/-- A walk below another path keeps the same, below it. -/
theorem Walker.Translated.run_under {x y : Walker Unit}
    (walks : Walker.Translated (.below above []) id x y) (limit : Nat) (l : Ledger) :
    y.run limit (l.under above) =
      ((x.run limit l).map (Prod.map id (Ledger.under above))).mapError (Failure.under above) := by
  rw [Walker.run_eq x, Walker.run_eq y]
  cases walks with
  | failed left right failures =>
      rw [left, right, failures.eq_under]
      rfl
  | found left right findings =>
      rw [left, right, findings.eq_under]
      simp only [Except.map, Prod.map, id, Except.mapError, Ledger.add_under]

theorem Schema.translated_below (schema : Schema) (above : Path) (base : List Nat) :
    schema.Translated (.below above base) schema := by
  refine ⟨fun start path => ?_, fun _ _ => rfl⟩
  change Walker.Translated _ _ (.lift (schema.target start path))
      (.lift (schema.target start (above ++ path)))
  unfold Schema.target
  cases schema.resolve start with
  | found target n =>
      refine .pure (congrArg (Target.node target) ?_)
      rw [SchemaNode.mapTypes, Translation.below, Shape.mapTypes_id]
  | dangling name => exact .pure rfl
  | cyclic name => exact .abort (.of_flaw path _)
  | missing => exact .abort (.of_flaw path _)
  | missingTarget name => exact .abort (.of_flaw path _)

end Below

/-- Both passes over a node at a path keep what they keep at the root, with the path in front of
every path: the same errors and warnings in the same order, the same selections, and the same
failure otherwise. -/
theorem passes_relocated (d : Document) (node : NodeId) (schema : Schema) (id : SchemaId)
    (settings : Settings) (start : Nat) (isOptional : Bool) (above : Path) :
    schema.passes settings start ⟨d.valueAt node, above, []⟩ id isOptional =
      ((schema.passes settings start ⟨d.valueAt node, [], []⟩ id isOptional).map
        (Ledger.under above)).mapError (Failure.under above) := by
  have site : (Translation.below above []).site ⟨d.valueAt node, [], []⟩ =
      ⟨d.valueAt node, above, []⟩ :=
    congrArg (Site.mk _ · []) (List.append_nil above)
  have schemas := schema.translated_below above []
  generalize depth : settings.maxDepth - start = levels
  have checked :=
    (schemas.check settings levels id ⟨d.valueAt node, [], []⟩).run_under settings.maxErrors {}
  rw [site] at checked
  unfold Schema.passes
  dsimp only
  rw [depth]
  change (schema.check settings levels id ⟨d.valueAt node, above, []⟩).run settings.maxErrors {} =
      _ at checked
  rw [checked]
  cases (schema.check settings levels id ⟨d.valueAt node, [], []⟩).run settings.maxErrors {} with
  | error e => rfl
  | ok first =>
      obtain ⟨⟨⟩, l⟩ := first
      have searched := (schemas.complete l.selections levels id ⟨d.valueAt node, [], []⟩ isOptional).run_under
        settings.maxErrors l
      rw [site] at searched
      change (schema.complete (l.under above).selections levels id ⟨d.valueAt node, above, []⟩ isOptional).run
        settings.maxErrors (l.under above) = _ at searched
      simp only [bind, Except.bind, pure, Except.pure, Except.map, Except.mapError, Prod.map, id_eq,
        searched]
      cases (schema.complete l.selections levels id ⟨d.valueAt node, [], []⟩ isOptional).run settings.maxErrors l with
      | error e => rfl
      | ok second => rfl

end DocSchema
