import DocSchema.Proofs.Deeper
import DocSchema.Proofs.MirroredUnions
import DocSchema.Proofs.Projection
import DocSchema.Proofs.Truncation

set_option autoImplicit false

namespace DocSchema

open Walker (Mirrors)

variable {root root' : Value} {s t : Site}

namespace Selection

variable {cs ds : List Selection} {union : SchemaId}

theorem last?_eq (cs : List Selection) (union : SchemaId) (s : Site) :
    last? cs union s = (cs.filter (·.position == s.position)).reverse.find? (·.union == union) := by
  rw [last?, ← List.filter_reverse, List.find?_filter]
  congr 1
  funext c
  rw [Bool.and_comm, Bool.decide_and, Bool.decide_eq_true, Bool.decide_eq_true]

/-- Tables that mirror each other hold the same last choice for mirrored sites. -/
theorem last?_mirrors (mirrors : s.Mirrors root root' t) {f g : Findings}
    (tables : f.Mirrors root root' g) (union : SchemaId) :
    Option.Rel (Selection.Mirrors root root') (last? f.selections union s)
      (last? g.selections union t) := by
  have here := tables.selections _ _ _ _ mirrors.meets
  rw [last?_eq, last?_eq]
  exact rel_find? (List.rel_reverse here) fun c d same => by rw [same.union]

end Selection

structure Call.Mirrors (root root' : Value) (c d : Call) : Prop where
  type : d.1 = c.1
  site : c.2.1.Mirrors root root' d.2.1
  isOptional : d.2.2 = c.2.2

/-- The search for holes visits the same parts, maybe in another order. -/
theorem Site.Mirrors.required (mirrors : s.Mirrors root root' t) {f g : Findings}
    (tables : f.Mirrors root root' g) (id : SchemaId) (shape : Shape SchemaId) :
    Reordered (Call.Mirrors root root') (s.required f.selections id shape)
      (t.required g.selections id shape) := by
  cases shape with
  | record fields allowsUnknown =>
      refine .of_forall₂ (List.rel_filterMap ?_ (List.forall₂_same.2 fun f _ => rfl))
      rintro f - rfl
      exact rel_map? (mirrors.field? f.name) fun _ _ same => ⟨rfl, same, rfl⟩
  | array item length isUnique =>
      exact .of_forall₂ (List.rel_map (fun _ _ same => ⟨rfl, same, rfl⟩) (forall₂_getD mirrors.array?))
  | map key value size =>
      exact (Reordered.getD mirrors.entries?).map fun _ _ same => ⟨rfl, same.site, rfl⟩
  | tuple elements =>
      have types : List.Forall₂ Eq elements elements := List.forall₂_refl elements
      exact .of_forall₂ (List.rel_map (fun _ _ same => ⟨same.1.symm, same.2, rfl⟩)
        (forall₂_zip types (forall₂_getD mirrors.tuple?)))
  | union variants representation =>
      have last := Selection.last?_mirrors mirrors tables id
      unfold Site.required
      dsimp only
      rcases eq_of_rel last with ⟨left, right⟩ | ⟨c, d, left, right, same⟩
      · rw [left, right]
        exact .of_forall₂ .nil
      · rw [left, right]
        exact .of_forall₂ (.cons ⟨same.variant, same.target, rfl⟩ .nil)
  | _ => exact .of_forall₂ .nil

namespace Schema

variable (schema : Schema)

theorem walk_isMirrored {settings : Settings} {level : Nat}
    (check : ∀ id s t, s.Mirrors root root' t →
      Mirrors root root' Eq (schema.check settings level id s) (schema.check settings level id t)) :
    (schema.walk settings level).IsMirrored root root' :=
  ⟨check, fun id s cs selects c member => (check_yields level id s cs selects c member).below⟩

/-- The structural passes over equal values mirror each other. -/
theorem check_mirrors (settings : Settings) (level : Nat) : ∀ id s t, s.Mirrors root root' t →
    Mirrors root root' Eq (schema.check settings level id s)
      (schema.check settings level id t) := by
  induction level with
  | zero =>
      intro id s t mirrors
      unfold check
      rw [mirrors.path]
      exact .report s.path rfl
  | succ level ih =>
      intro id s t mirrors
      unfold check
      rw [mirrors.path]
      refine .bind (.of_ensures (Walker.follow_ensures schema id s.path))
        fun found found' same => ?_
      subst same
      cases found with
      | none => exact .pure rfl
      | some found =>
          dsimp only
          rw [mirrors.isHole]
          split
          · exact .pure rfl
          · refine .bind (.of_silent fun a f logged => ?_) fun _ _ _ =>
              (schema.walk_isMirrored ih).shape mirrors found.1 found.2.shape
            rw [deprecation_log] at logged
            cases logged
            rfl

theorem complete_selections {table : List Selection} {depth : Nat} {id : SchemaId}
    {isOptional : Bool}
    {f : Findings} (logged : (schema.complete table depth id s isOptional).log = .ok ((), f)) :
    f.selections = [] := by
  obtain ⟨holes, -, rfl, -⟩ := complete_shrinks (Nat.le_refl depth) (id, s, isOptional) f logged
  rfl

/-- So do the searches for holes. -/
theorem complete_mirrors {f g : Findings} (tables : f.Mirrors root root' g) (depth : Nat) :
    ∀ id s t isOptional, s.Mirrors root root' t →
      Mirrors root root' Eq (schema.complete f.selections depth id s isOptional)
        (schema.complete g.selections depth id t isOptional) := by
  induction depth with
  | zero => exact fun _ _ _ _ _ => .pure rfl
  | succ depth ih =>
      intro id s t isOptional mirrors
      unfold complete
      rw [mirrors.path]
      refine .bind (.of_ensures (Walker.target_ensures schema id s.path))
        fun target target' same => ?_
      subst same
      cases target with
      | undefined name => exact .pure rfl
      | node target node =>
          dsimp only
          rw [mirrors.isHole]
          split
          · refine .of_silent fun a h logged => ?_
            unfold Check.hole at logged
            split at logged <;> cases logged <;> rfl
          · refine .forM_reordered (mirrors.required tables target node.shape) (fun c d same => ?_)
              (List.pairwise_of_forall fun c d h h' left _ position => ?_)
            · rw [same.type, same.isOptional]
              exact ih c.1 c.2.1 d.2.1 c.2.2 same.site
            · exact .inl (Findings.selectionsAt_nil (schema.complete_selections left) position)

end Schema

/-- Validations of equal values both fail, or find the same but for the order. -/
theorem findingsOf_reordered {v w : Value} (equal : v.Reorders w) (schema : Schema) (id : SchemaId)
    (settings : Settings) :
    (∃ e e', findingsOf v schema id settings = .error e ∧
      findingsOf w schema id settings = .error e') ∨
      ∃ f g, findingsOf v schema id settings = .ok f ∧ findingsOf w schema id settings = .ok g ∧
        f.Mirrors v w g := by
  have roots : Site.Mirrors v w ⟨v, [], []⟩ ⟨w, [], []⟩ := ⟨rfl, .roots, equal⟩
  cases inside : schema.contains id with
  | false =>
      exact .inl ⟨⟨[], .missingNode⟩, ⟨[], .missingNode⟩, findings_of_outside inside,
        findings_of_outside inside⟩
  | true =>
      cases schema.check_mirrors settings settings.maxDepth id _ _ roots with
      | failed left right =>
          exact .inl ⟨_, _, findings_of_failed_check inside left,
            findings_of_failed_check inside right⟩
      | found left right _ structural =>
          cases schema.complete_mirrors structural settings.maxDepth id _ _ false roots with
          | failed left' right' =>
              exact .inl ⟨_, _, findings_of_failed_search inside left left',
                findings_of_failed_search inside right right'⟩
          | found left' right' _ holes =>
              exact .inr ⟨_, _, findings_of_logs inside left left', findings_of_logs inside right right',
                structural.append holes⟩

/-- Whether two validations both fail, or find errors of the same kinds at the same paths, warn of
the same values and agree whether a required value is missing, all but for the order. -/
inductive SameOutcome : Except Failure Report → Except Failure Report → Prop
  | failed (e e' : Failure) : SameOutcome (.error e) (.error e')
  | reported {r r' : Report}
      (errors : (r.errors.map Finding.summary).Perm (r'.errors.map Finding.summary))
      (warnings : r.warnings.Perm r'.warnings) (isIncomplete : r.isIncomplete = r'.isIncomplete) :
      SameOutcome (.ok r) (.ok r')

theorem Document.IsOrdered.hasUniqueKeys {d : Document} (ordered : d.IsOrdered) (id : NodeId) :
    (d.valueAt id).HasUniqueKeys := by
  have unique {v : Value} (orderly : v.IsOrderly) : v.HasUniqueKeys := by
    induction orderly with
    | intro root parts ih => exact .intro root.keys root.names ih
  exact unique (ordered.valueAt_isOrderly id)

private def forwards : Document :=
  ⟨#[⟨.map [(.ident "a", 1), (.ident "b", 2), (.ident "c", 3)], []⟩, ⟨.primitive (.float ⟨0⟩), []⟩, {},
    ⟨.primitive (.text ⟨"t", .plaintext⟩), []⟩]⟩

private def backwards : Document :=
  ⟨#[⟨.map [(.ident "c", 1), (.ident "b", 2), (.ident "a", 3)], []⟩,
    ⟨.primitive (.text ⟨"t", .plaintext⟩), []⟩, {}, ⟨.primitive (.float ⟨0x8000000000000000⟩), []⟩]⟩

private def tallies : Schema where
  nodes := #[⟨.map 1 2 {}, {}⟩, ⟨.any, {}⟩, ⟨.integer {} none, {}⟩]
  root := 0

end DocSchema
