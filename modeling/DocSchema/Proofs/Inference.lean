import DocSchema.Proofs.Congruences
import DocSchema.Proofs.Truncation

set_option autoImplicit false

namespace DocSchema

def Findings.AreTagged (f : Findings) : Prop :=
  ∀ e ∈ f.errors, e.mismatch.kind ≠ utf8 "MissingVariantTag"

/-- Whether all that a walker finds is found by another one too, unless a tag is missing. -/
def Walker.Conserves {α : Type} (x y : Walker α) : Prop :=
  ∀ a f, x.log = .ok (a, f) → f.AreTagged → y.log = .ok (a, f)

/-- Sequencing conserves: a tag that is missing in one of the parts is missing in the whole. -/
def Walker.conserving : Walker.Congruence where
  Rel := Walker.Conserves
  refl _ _ _ logged _ := logged
  bind first further := by
    intro b f logged tagged
    obtain ⟨a, before, after, found, rest, rfl⟩ := Walker.bind_log logged
    obtain ⟨tagged, tagged'⟩ := List.forall_mem_append.1 tagged
    exact Walker.log_bind_ok (first a before found tagged) (further a b after rest tagged')

/-- Where a missing tag is reported, nothing has to be conserved. -/
theorem Walk.refuse_conserves {path : Path} {m : Mismatch}
    (missing : m.kind = utf8 "MissingVariantTag")
    (y : Walker (Option Choice)) : (Walk.refuse path m).Conserves y := by
  intro choice f logged tagged
  cases logged
  exact absurd missing (tagged ⟨path, m⟩ List.mem_cons_self)

/-- A walk that does not infer variants is conserved by one that may, if the checks of the level
below are. -/
theorem Walk.congruent_of_explicit {w w' : Walk} (schemas : w.schema = w'.schema)
    (isExplicit : w.isLenient = false)
    (check : ∀ id s, (w.check id s).Conserves (w'.check id s)) :
    w.Congruent Walker.conserving w' where
  check := check
  follow id path h k none some := by
    rw [schemas]
    refine Walker.conserving.bind (Walker.conserving.refl _) fun found => ?_
    match found with
    | .none => exact none
    | .some (target, node) => exact some target node node (.refl _)
  untagged u target := by
    unfold Walk.untagged
    rw [isExplicit, if_neg Bool.false_ne_true]
    split <;> exact refuse_conserves rfl _

/-- The structural pass that does not infer variants is conserved by the one that may. -/
theorem Schema.check_conserves (schema : Schema) {settings settings' : Settings}
    (isExplicit : settings.isLenient = false) (depths : settings.maxDepth = settings'.maxDepth)
    (depth : Nat) :
    ∀ id s, (schema.check settings depth id s).Conserves (schema.check settings' depth id s) := by
  have refl {α : Type} (x : Walker α) : x.Conserves x := Walker.conserving.refl x
  induction depth with
  | zero =>
      intro id s
      rw [check, check, depths]
      exact refl _
  | succ depth ih =>
      intro id s
      apply Walker.conserving.bind (refl _)
      intro found
      cases found with
      | none => exact refl _
      | some found =>
          dsimp only
          split
          · exact refl _
          · have walks : Walk.Congruent Walker.conserving
                ⟨schema, settings.isLenient, schema.check settings depth⟩
                ⟨schema, settings'.isLenient, schema.check settings' depth⟩ :=
              Walk.congruent_of_explicit rfl isExplicit ih
            exact Walker.conserving.bind (refl _) fun _ => walks.shape found.1 s found.2.shape

/-- Both passes together. The search for holes follows the variants that were selected, in either
mode. -/
theorem findingsOf_conserves {v : Value} {schema : Schema} {id : SchemaId}
    {settings settings' : Settings}
    {f : Findings} (isExplicit : settings.isLenient = false)
    (depths : settings.maxDepth = settings'.maxDepth)
    (found : findingsOf v schema id settings = .ok f) (tagged : f.AreTagged) :
    findingsOf v schema id settings' = .ok f := by
  obtain ⟨inside, structural, holes, checked, searched, rfl⟩ := findings_of_passes found
  have conserved := schema.check_conserves isExplicit depths settings.maxDepth id ⟨v, [], []⟩
      () structural checked
    (List.forall_mem_append.1 tagged).1
  rw [depths] at conserved searched
  exact findings_of_logs inside conserved searched

/-- A validation that has to find every variant named, and finds no tag missing, reports what one
that may infer variants reports: inference changes nothing where it is not needed. -/
theorem validateNode_lenient (d : Document) (node : NodeId) (schema : Schema) (id : SchemaId)
    (depth : Nat) (r : Report)
    (validated : validateNode d node schema id { isLenient := false, maxDepth := depth, maxErrors := 0 } = .ok r)
    (tagged : ∀ e ∈ r.errors, e.mismatch.kind ≠ utf8 "MissingVariantTag") :
    validateNode d node schema id { isLenient := true, maxDepth := depth, maxErrors := 0 } =
      .ok r := by
  obtain ⟨f, found, rfl⟩ := exists_findings validated
  rw [toReport_add, if_pos rfl] at tagged
  have conserved : findingsOf (d.valueAt node) schema id { isLenient := true, maxDepth := depth } =
      .ok f := by
    refine findingsOf_conserves ?_ ?_ found tagged <;> rfl
  rw [validateNode, validateValue_eq, conserved]
  rfl

/-- Readings of two kinds, told apart by a field, of which only the first kind has to have a
number. -/
private def readings : Schema where
  nodes := #[⟨.integer {} none, {}⟩, ⟨.record [⟨"of", 0, false⟩] false, {}⟩,
    ⟨.record [] true, { isDeprecated := true }⟩,
    ⟨.union [⟨"count", 1⟩, ⟨"other", 2⟩] (.internal "kind"), {}⟩, ⟨.array 3 {} false, {}⟩]
  root := 4

/-- A count of text is an error and a count of nothing is missing, although both could be of the
other kind. -/
theorem validateNode_lenient_readings :
    ∃ r, validateNode ⟨#[⟨.array [1, 4, 7], []⟩,
          ⟨.map [(.ident "kind", 2), (.ident "of", 3)], []⟩,
            ⟨.primitive (.text ⟨"count", .plaintext⟩), []⟩,
          ⟨.primitive (.text ⟨"many", .plaintext⟩), []⟩,
          ⟨.map [(.ident "kind", 5), (.ident "of", 6)], []⟩,
            ⟨.primitive (.text ⟨"count", .plaintext⟩), []⟩, {},
          ⟨.map [], [("variant", 8)]⟩, ⟨.primitive (.text ⟨"other", .plaintext⟩), []⟩]⟩
        0 readings 4 { isLenient := true, maxDepth := 8, maxErrors := 0 } = .ok r ∧
      r.errors.map (fun e => (e.path, e.mismatch.kind)) =
        [([.array (some 0), .ident "of"], utf8 "TypeMismatch"),
          ([.array (some 1), .ident "of"], utf8 "MissingField")] ∧
      r.warnings = [([.array (some 2)], .deprecated)] :=
  ⟨_, validateNode_lenient _ _ _ _ _ _ rfl (by decide +kernel),
    by decide +kernel, by decide +kernel⟩

end DocSchema
