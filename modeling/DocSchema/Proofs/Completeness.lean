import Mathlib.Data.List.Nodup
import DocSchema.Proofs.RequiredHoles

set_option autoImplicit false

namespace DocSchema

namespace Site

variable {s t : Site} {calls : List Call}

/-- Whether calls are for a value or what is below, no two of them for values of which one holds the
other. -/
structure Separates (s : Site) (calls : List Call) : Prop where
  below : ∀ c ∈ calls, s.position <+: c.2.1.position
  apart : calls.Pairwise fun c d => ∀ q, c.2.1.position <+: q → ¬ d.2.1.position <+: q

namespace Separates

theorem nil : s.Separates [] :=
  ⟨by simp, .nil⟩

theorem single (id : SchemaId) (isOptional : Bool) : s.Separates [(id, s, isOptional)] :=
  ⟨by simp, by simp⟩

theorem of_apart (apart : s.Apart (calls.map (·.2.1))) : s.Separates calls := by
  refine ⟨fun c member => ?_, Selection.separate_of_apart apart⟩
  obtain ⟨i, position⟩ := apart.1 c.2.1 (List.mem_map_of_mem member)
  exact position ▸ List.prefix_append _ _

theorem of_holds (holds : s.Holds t) (separates : t.Separates calls) : s.Separates calls := by
  have inside : s.position <+: t.position := by
    rcases holds with rfl | ⟨i, position⟩
    · exact List.prefix_rfl
    · exact position ▸ List.prefix_append _ _
  exact ⟨fun c member => inside.trans (separates.below c member), separates.apart⟩

end Separates

end Site

namespace Schema

variable {schema : Schema} {settings : Settings} {level : Nat} {id target : SchemaId}
  {node : SchemaNode}
  {s : Site}

theorem variantCalls_separates (distinct : schema.HasDistinctFields) (tag : Option Bytes) :
    s.Separates ((schema.walk settings level).variantCalls id tag s) := by
  unfold Walk.variantCalls
  split
  · exact .single id false
  · next target node resolved =>
    have found := (resolve_found resolved).1
    obtain ⟨shape, metadata⟩ := node
    split
    · next fields allowsUnknown same =>
      exact .of_apart (s.apart_required target rfl (same ▸ distinct target _ found))
    · exact .nil
    · exact .single id false
  · exact .nil

theorem calls_separates (distinct : schema.HasDistinctFields) :
    s.Separates (schema.calls settings level id s) := by
  unfold calls
  split
  · next target node resolved =>
    have found := (resolve_found resolved).1
    split
    · exact .nil
    · cases plain : node.shape.isUnion with
      | false =>
          rw [Walk.calls_plain plain]
          exact .of_apart (s.apart_required target plain (distinct target node found))
      | true =>
          obtain ⟨shape, metadata⟩ := node
          cases shape with
          | union variants representation =>
              dsimp only [Walk.calls]
              cases chosen : (schema.walk settings level).chosen? ⟨target, variants, representation⟩ s with
              | none => exact .nil
              | some c =>
                  obtain ⟨f, dispatched⟩ := Walk.dispatch_of_chosen chosen
                  have fits := (Walk.picks_dispatch _ _ s _ f dispatched).1 c rfl
                  exact .of_holds fits.target (variantCalls_separates distinct c.tag)
          | _ => cases plain
  · exact .nil

/-- The structural pass comes to each hole in a value once. -/
theorem holes_nodup (distinct : schema.HasDistinctFields) (settings : Settings) (level : Nat)
    (c : Call) :
    (∀ h ∈ schema.holes settings level c, c.2.1.position <+: h.2.1.position) ∧
      ((schema.holes settings level c).map (·.2.1.position)).Nodup := by
  have one (c : Call) : (∀ h ∈ [c].filter schema.demands, c.2.1.position <+: h.2.1.position) ∧
      (([c].filter schema.demands).map (·.2.1.position)).Nodup := by
    cases demanded : schema.demands c <;> simp [demanded]
  induction level generalizing c with
  | zero => exact one c
  | succ level ih =>
      obtain ⟨id, s, isOptional⟩ := c
      cases filled : s.value.content.isHole with
      | true =>
          rw [holes_hole filled]
          exact one _
      | false =>
          rw [holes_filled filled]
          have separates : s.Separates (schema.calls settings level id s) :=
            calls_separates distinct
          constructor
          · intro h member
            obtain ⟨c, listed, inside⟩ := List.mem_flatMap.1 member
            exact (separates.below c listed).trans ((ih c).1 h inside)
          · rw [List.map_flatMap, List.nodup_flatMap]
            -- No position is below two of the calls, so what they come to is apart.
            refine ⟨fun c _ => (ih c).2, separates.apart.imp fun {c d} apart q first second => ?_⟩
            obtain ⟨h, inside, rfl⟩ := List.mem_map.1 first
            obtain ⟨h', inside', same⟩ := List.mem_map.1 second
            exact apart h.2.1.position ((ih c).1 h inside) (same ▸ (ih d).1 h' inside')

/-- The calls of a value are those that its check makes of the level below. Whatever that level
does, its trials apart, a check that ends has had each of them end, in this order, and found what
they found; and it depends on nothing else there. -/
theorem calls_exactly (schema : Schema) (settings : Settings) (level : Nat) (id : SchemaId)
    (s : Site) (w : Walk) (schemas : schema = w.schema)
    (trials : ∀ u, ((schema.walk settings level).dispatch u s).log = (w.dispatch u s).log) :
    (∀ f, (w.level id s).log = .ok ((), f) →
      ∃ gs, List.Forall₂ (fun c g => (w.check c.1 c.2.1).log =
        .ok ((), g)) (schema.calls settings level id s) gs ∧
        f.Gathers (schema.notes settings level id s) gs) ∧
    ((∀ c ∈ schema.calls settings level id s,
        (schema.check settings level c.1 c.2.1).log = (w.check c.1 c.2.1).log) →
      (schema.check settings (level + 1) id s).log = (w.level id s).log) :=
  ⟨fun _ => level_gathers schemas trials, level_congr schemas trials⟩

/-- So each visit of a pass that ends is a call that it made, some levels down. -/
theorem visits_end {settings : Settings} {level : Nat} {c : Call} {f : Findings}
    (ended : (schema.check settings level c.1 c.2.1).log = .ok ((), f)) :
    ∀ d ∈ schema.visits settings level c,
      ∃ below ≤ level, ∃ g, (schema.check settings below d.1 d.2.1).log = .ok ((), g) := by
  induction level generalizing c f with
  | zero =>
      intro d member
      rw [List.mem_singleton.1 member]
      exact ⟨0, Nat.le_refl 0, f, ended⟩
  | succ level ih =>
      intro d member
      rcases List.mem_cons.1 member with rfl | inside
      · exact ⟨level + 1, Nat.le_refl _, f, ended⟩
      · obtain ⟨call, listed, within⟩ := List.mem_flatMap.1 inside
        obtain ⟨gs, each, -⟩ := check_gathers ended
        obtain ⟨g, -, checked⟩ := exists_of_mem_right each.flip call listed
        obtain ⟨below, le, found⟩ := ih checked d within
        exact ⟨below, Nat.le_succ_of_le le, found⟩

end Schema

/-- Without a limit on errors, a validation that meets the limit on nesting in neither pass reports
what the structural pass does, and then the holes where a value is required to which this pass came,
each once. -/
theorem validateNode_holes (d : Document) (node : NodeId) (schema : Schema) (id : SchemaId)
    (settings : Settings) (distinct : schema.HasDistinctFields) (unlimited : settings.maxErrors = 0)
    (r : Report) (validated : validateNode d node schema id settings = .ok r) :
    ∃ structural, (schema.check settings settings.maxDepth id ⟨d.valueAt node, [], []⟩).log =
        .ok ((), structural) ∧
      (¬ structural.IsCut →
        schema.isWithin structural.selections settings.maxDepth id ⟨d.valueAt node, [], []⟩ = true →
        let holes := (schema.visits settings settings.maxDepth (id, ⟨d.valueAt node, [], []⟩, false)).filter
          schema.demands
        r.errors = structural.errors ++ holes.map (fun c => ⟨c.2.1.path, .missingValue⟩) ∧
        (r.isIncomplete = true ↔ holes ≠ []) ∧
        (holes.map fun c => (c.2.1.position, c.1, c.2.1.path)).Nodup) := by
  obtain ⟨f, found, rfl⟩ := exists_findings validated
  obtain ⟨-, structural, missing, checked, searched, rfl⟩ := findings_of_passes found
  refine ⟨structural, checked, fun uncut within => ?_⟩
  have held : Selection.below [] structural.selections = [] ++ structural.selections :=
    Selection.below_eq_self fun c _ => List.nil_prefix
  have informed := schema.check_informs distinct settings structural.selections settings.maxDepth id _ false
    [] structural (settings.maxDepth) checked uncut held (by simp)
  have told := informed.2 settings.maxDepth (Nat.lt_succ_self _) within
  cases searched.symm.trans told
  have nodup :=
    (schema.holes_nodup distinct settings settings.maxDepth (id, ⟨d.valueAt node, [], []⟩, false)).2
  rw [toReport_add, if_pos unlimited]
  refine ⟨rfl, ?_, ?_⟩
  · change (structural.isIncomplete || !List.isEmpty _) = true ↔ _
    rw [Schema.check_complete checked, Bool.false_or, Bool.not_eq_true', List.isEmpty_eq_false_iff]
    rfl
  · exact List.Nodup.of_map (·.1) (by rwa [List.map_map])

/-- A union with one variant, a record that holds another value of the union. -/
private def links : Schema where
  nodes := #[⟨.union [⟨"A", 1⟩] .tagged, {}⟩, ⟨.record [⟨"next", 0, false⟩] false, {}⟩]

/-- A record whose next one is missing: the hole is met below the variant, and reported once. -/
theorem validateNode_holes_next :
    links.HasDistinctFields ∧
    ∃ r, validateNode ⟨#[⟨.map [(.ident "next", 1)], [("variant", 2)]⟩, {},
        ⟨.primitive (.text ⟨"A", .implicit⟩), []⟩]⟩ 0 links 0 { maxDepth := 8 } = .ok r ∧
      r.errors = [⟨[.field "next"], .missingValue⟩] ∧ r.isIncomplete = true := by
  have distinct : links.HasDistinctFields :=
    Schema.hasDistinctFields_of_nodes (by simp [links, Shape.HasDistinctFields])
  obtain ⟨r, validated⟩ : ∃ r, validateNode ⟨#[⟨.map [(.ident "next", 1)], [("variant", 2)]⟩, {},
      ⟨.primitive (.text ⟨"A", .implicit⟩), []⟩]⟩ 0 links 0 { maxDepth := 8 } = .ok r := ⟨_, rfl⟩
  obtain ⟨structural, checked, told⟩ :=
    validateNode_holes _ 0 links 0 { maxDepth := 8 } distinct rfl r validated
  cases checked
  obtain ⟨errors, incomplete, -⟩ := told (by simp [Findings.IsCut]) rfl
  exact ⟨distinct, r, validated, errors, incomplete.2 (List.cons_ne_nil _ _)⟩

end DocSchema
