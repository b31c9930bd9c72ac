import DocSchema.Proofs.Equivalent
import DocSchema.Proofs.Metadata
import DocSchema.Proofs.References
import DocSchema.Proofs.TranslatedUnions

set_option autoImplicit false

namespace DocSchema

namespace Schema

def redirected (link target : SchemaId) (x : SchemaId) : SchemaId :=
  if x = link then target else x

/-- The schema with `target` in place of `link`, as the root, below every type and in the
registry. -/
def redirect (s : Schema) (link target : SchemaId) : Schema where
  nodes := s.nodes.map (SchemaNode.mapTypes (redirected link target))
  root := redirected link target s.root
  types := s.types.map fun entry => (entry.1, redirected link target entry.2)
  distinct := by
    rw [List.map_map]
    exact s.distinct
  naming := s.naming
  typeNaming := s.typeNaming

/-- The end of a chain of references, with other types below. -/
def Resolution.mapTypes (f : SchemaId → SchemaId) : Resolution → Resolution
  | .found x n => .found x (n.mapTypes f)
  | .dangling name => .dangling name
  | .cyclic name => .cyclic name
  | .missing => .missing
  | .missingTarget name => .missingTarget name

/-- Whether a type is a reference without metadata to another type of the table. -/
structure IsAlias (s : Schema) (link target : SchemaId) (name : Bytes) : Prop where
  reference : s.node? link = some ⟨.reference name, {}⟩
  registered : s.find? name = some target
  inside : s.contains target = true
  apart : target ≠ link

variable {s : Schema} {link target x : SchemaId} {name : Bytes}

theorem redirected_self : redirected link target link = target :=
  if_pos rfl

theorem redirected_other (other : x ≠ link) : redirected link target x = x :=
  if_neg other

theorem node?_redirect (x : SchemaId) :
    (s.redirect link target).node? x =
      (s.node? x).map (SchemaNode.mapTypes (redirected link target)) :=
  Array.getElem?_map

theorem find?_redirect (name : Bytes) :
    (s.redirect link target).find? name = (s.find? name).map (redirected link target) := by
  unfold find? lookup?
  change ((s.types.map fun entry => (entry.1, redirected link target entry.2)).find? _).map _ = _
  rw [List.find?_map, Option.map_map, Option.map_map]
  rfl

namespace IsAlias

variable (is : s.IsAlias link target name)

include is

theorem contains (x : SchemaId) :
    (s.redirect link target).contains (redirected link target x) = s.contains x := by
  have sizes : (s.redirect link target).size = s.size := Array.size_map
  have same (y : SchemaId) : (s.redirect link target).contains y = s.contains y := by
    rw [Schema.contains, Schema.contains, sizes]
  rw [same]
  by_cases hop : x = link
  · rw [hop, redirected_self, is.inside, contains_iff.2 ⟨_, is.reference⟩]
  · rw [redirected_other hop]

theorem hop_link : s.hop link = .inr target :=
  hop_eq_inr.2 ⟨name, {}, is.reference, is.registered, is.inside⟩

/-- Every type leads to what it led to, redirected. -/
theorem hop_redirect (x : SchemaId) : (s.redirect link target).hop x =
    (s.hop x).map (Resolution.mapTypes (redirected link target)) (redirected link target) := by
  unfold hop
  rw [node?_redirect]
  cases s.node? x with
  | none => rfl
  | some n =>
      obtain ⟨shape, metadata⟩ := n
      cases shape with
      | reference name =>
          dsimp only [Option.map_some, SchemaNode.mapTypes, Shape.mapTypes]
          rw [find?_redirect]
          cases s.find? name with
          | none => rfl
          | some y =>
              dsimp only [Option.map_some]
              rw [is.contains]
              split <;> rfl
      | _ => rfl

/-- A chain that ends does so after the redirection as well. The hop from the alias to its target is
left out. -/
theorem chain_redirect {ids : List SchemaId} {o : Resolution} (chain : s.Chain x ids o) :
    ∃ ids', (s.redirect link target).Chain (redirected link target x) ids'
      (o.mapTypes (redirected link target)) := by
  induction chain with
  | @last x o ends =>
      have other : x ≠ link := by
        intro same
        rw [same, is.hop_link] at ends
        cases ends
      refine ⟨_, .last ?_⟩
      rw [redirected_other other, is.hop_redirect, ends]
      rfl
  | @step x y ids o leads rest ih =>
      obtain ⟨ids', chain⟩ := ih
      by_cases hop : x = link
      · rw [hop, is.hop_link] at leads
        rw [hop, redirected_self]
        rw [← Sum.inr.inj leads, redirected_other is.apart] at chain
        exact ⟨ids', chain⟩
      · refine ⟨_, .step ?_ chain⟩
        rw [redirected_other hop, is.hop_redirect, leads]
        rfl

/-- From the alias a chain takes one hop more. -/
theorem chain_of_redirected {ids : List SchemaId} {o : Resolution}
    (chain : s.Chain (redirected link target x) ids o) : ∃ ids', s.Chain x ids' o := by
  by_cases hop : x = link
  · subst hop
    rw [redirected_self] at chain
    exact ⟨_, .step is.hop_link chain⟩
  · rw [redirected_other hop] at chain
    exact ⟨ids, chain⟩

/-- A chain that ends after the redirection ended before. -/
theorem chain_of_redirect {ids : List SchemaId} {o : Resolution}
    (chain : (s.redirect link target).Chain x ids o) : ∃ ids' o', s.Chain x ids' o' := by
  induction chain with
  | @last x o ends =>
      rw [is.hop_redirect] at ends
      cases leads : s.hop x with
      | inl o' => exact ⟨_, o', .last leads⟩
      | inr y =>
          rw [leads] at ends
          cases ends
  | @step x y ids o leads rest ih =>
      rw [is.hop_redirect] at leads
      cases first : s.hop x with
      | inl o' =>
          rw [first] at leads
          cases leads
      | inr z =>
          rw [first] at leads
          have next : redirected link target z = y := Sum.inr.inj leads
          obtain ⟨ids', o', chain⟩ := ih
          obtain ⟨ids'', longer⟩ := is.chain_of_redirected (next ▸ chain)
          exact ⟨_, o', .step first longer⟩

/-- References end where they did, or still run in a circle. -/
theorem resolve_redirect (x : SchemaId) :
    (s.redirect link target).resolve (redirected link target x) =
        (s.resolve x).mapTypes (redirected link target) ∨
      ∃ name name', s.resolve x = .cyclic name ∧
        (s.redirect link target).resolve (redirected link target x) = .cyclic name' := by
  obtain ⟨ids, chain⟩ | ⟨⟨name, cyclic⟩, endless⟩ := s.resolve_cases x
  · obtain ⟨ids', chain'⟩ := is.chain_redirect chain
    exact .inl chain'.resolve
  · obtain ⟨ids, chain⟩ | ⟨⟨name', cyclic'⟩, -⟩ :=
      (s.redirect link target).resolve_cases (redirected link target x)
    · obtain ⟨ids', o, chain'⟩ := is.chain_of_redirect chain
      obtain ⟨ids'', longer⟩ := is.chain_of_redirected chain'
      exact absurd longer (endless ids'' o)
    · exact .inr ⟨name, name', cyclic, cyclic'⟩

end IsAlias

end Schema

/-- The translation of a redirection. The warnings may differ, as a reference may be deprecated that
is met only on the way. -/
def Translation.redirection (link target : SchemaId) : Translation :=
  ⟨Schema.redirected link target, [], [], False⟩

namespace Schema.IsAlias

variable {s : Schema} {link target : SchemaId} {name : Bytes}

theorem translated (is : s.IsAlias link target name) :
    s.Translated (.redirection link target) (s.redirect link target) := by
  refine ⟨fun x path => ?_, fun faithful => faithful.elim⟩
  change Walker.Translated _ (Target.mapTypes (redirected link target)) (.lift (s.target x path))
    (.lift ((s.redirect link target).target (redirected link target x) path))
  unfold Schema.target
  obtain same | ⟨name, name', cyclic, cyclic'⟩ := is.resolve_redirect x
  · rw [same]
    cases s.resolve x with
    | found y n => exact .pure rfl
    | dangling name => exact .pure rfl
    | cyclic name => exact .abort (.of_flaw path _)
    | missing => exact .abort (.of_flaw path _)
    | missingTarget name => exact .abort (.of_flaw path _)
  · rw [cyclic, cyclic']
    exact .abort ⟨rfl, rfl, fun faithful => faithful.elim⟩

end Schema.IsAlias

/-- Findings that are the same but for warnings are reported alike, up to warnings. -/
theorem Translation.Finds.summary {link target : SchemaId} {f g : Findings}
    (finds : (redirection link target).Finds f g) (limit : Nat) :
    (({} : Ledger).add limit g).toReport.withoutWarnings.summary =
      (({} : Ledger).add limit f).toReport.withoutWarnings.summary := by
  have errors : g.errors = f.errors := finds.errors.trans (List.map_id f.errors)
  rw [toReport_add, toReport_add]
  simp only [Report.withoutWarnings, Report.summary, errors, finds.isIncomplete]

/-- With the target of a reference in its place everywhere, a validation fails for the same kind of
reason at the same path, or reports errors of the same kinds at the same paths, and is cut off and
incomplete as before. -/
theorem validateNode_redirect {s : Schema} {link target : SchemaId} {name : Bytes}
    (is : s.IsAlias link target name) (d : Document) (node : NodeId) (id : SchemaId)
    (settings : Settings) :
    summaryOf ((validateNode d node (s.redirect link target) (Schema.redirected link target id) settings).map
        Report.withoutWarnings) =
      summaryOf ((validateNode d node s id settings).map Report.withoutWarnings) := by
  rw [validateNode, validateNode, validateValue_eq, validateValue_eq]
  cases inside : s.contains id with
  | false =>
      have inside' := (is.contains id).trans inside
      simp only [findingsOf, inside, inside', Bool.not_false, ↓reduceIte, bind, Except.bind, throw,
        throwThe, MonadExceptOf.throw]
  | true =>
      have inside' := (is.contains id).trans inside
      rw [findingsOf_eq settings inside, findingsOf_eq settings inside']
      cases is.translated.check settings settings.maxDepth id ⟨d.valueAt node, [], []⟩ with
      | @failed e e' left right failures =>
          change (Schema.check _ settings settings.maxDepth (Schema.redirected link target id)
            ⟨d.valueAt node, [], []⟩).log = _ at right
          rw [left, right]
          exact congrArg Except.error (Prod.ext failures.kind failures.path)
      | @found a f g left right findings =>
          have holes :=
            is.translated.complete f.selections settings.maxDepth id ⟨d.valueAt node, [], []⟩ false
          rw [← findings.selections] at holes
          change (Schema.check _ settings settings.maxDepth (Schema.redirected link target id)
            ⟨d.valueAt node, [], []⟩).log = _ at right
          rw [left, right]
          dsimp only [Except.bind]
          cases holes with
          | @failed e e' left' right' failures =>
              change (Schema.complete _ g.selections settings.maxDepth (Schema.redirected link target id)
                ⟨d.valueAt node, [], []⟩ false).log = _ at right'
              rw [left', right']
              exact congrArg Except.error (Prod.ext failures.kind failures.path)
          | found left' right' findings' =>
              change (Schema.complete _ g.selections settings.maxDepth (Schema.redirected link target id)
                ⟨d.valueAt node, [], []⟩ false).log = _ at right'
              rw [left', right']
              exact congrArg Except.ok ((findings.append findings').summary settings.maxErrors)

/-- A variant without content behind two references, of which the first may be left out. -/
private def aliased : Schema where
  nodes := #[⟨.union [⟨"unit", 1⟩, ⟨"number", 3⟩] (.adjacent "t" "c"), {}⟩, ⟨.reference "alias", {}⟩,
    ⟨.reference "nothing", {}⟩, ⟨.integer {} none, {}⟩, ⟨.null, {}⟩]
  root := 0
  types := [("alias", 2), ("nothing", 4)]
  distinct := by decide

private theorem aliased_isAlias : aliased.IsAlias 1 2 "alias" :=
  ⟨rfl, by decide, by decide, by decide⟩

/-- The value names the variant and has no content, in both schemas without an error. -/
theorem validateNode_redirect_unit :
    let d : Document :=
      ⟨#[⟨.map [(.ident "t", 1)], []⟩, ⟨.primitive (.text ⟨"unit", .plaintext⟩), []⟩]⟩
    aliased.IsAlias 1 2 "alias" ∧
      summaryOf ((validateNode d 0 aliased 0 { maxDepth := 2 }).map Report.withoutWarnings) =
        .ok ([], [], false, false) ∧
      summaryOf ((validateNode d 0 (aliased.redirect 1 2) (Schema.redirected 1 2 0) { maxDepth := 2 }).map
          Report.withoutWarnings) =
        summaryOf ((validateNode d 0 aliased 0 { maxDepth := 2 }).map Report.withoutWarnings) :=
  ⟨aliased_isAlias, by decide +kernel, validateNode_redirect aliased_isAlias _ _ _ _⟩

end DocSchema
