import DocSchema.Proofs.Conformance
import DocSchema.Proofs.Log

set_option autoImplicit false

namespace DocSchema

/-- Whether the limit on nesting was met. -/
def Findings.IsCut (f : Findings) : Prop :=
  ∃ e ∈ f.errors, e.mismatch.kind = utf8 "RecursionLimit"

/-- Whether the content of a selection can be searched for holes. -/
def Schema.CanFollow (schema : Schema) (c : Selection) : Prop :=
  schema.contains c.variant = true ∧ c.target.value.IsFilled

/-- Whether a check decides a proposition. -/
def Decides (schema : Schema) (x : Check) (p : Prop) : Prop :=
  ∃ found, x.log = .ok ((), found) ∧ (∀ c ∈ found.selections, schema.CanFollow c) ∧
    (¬ found.IsCut → (found.errors = [] ↔ p))

namespace Decides

variable {schema : Schema} {α : Type} {x y : Check} {p q : Prop}

theorem congr (decides : Decides schema x p) (same : p ↔ q) : Decides schema x q := by
  obtain ⟨found, logged, kept, verdict⟩ := decides
  exact ⟨found, logged, kept, fun complete => (verdict complete).trans same⟩

theorem of_log (same : x.log = y.log) (decides : Decides schema y p) : Decides schema x p := by
  obtain ⟨found, logged, rest⟩ := decides
  exact ⟨found, same.trans logged, rest⟩

theorem pure : Decides schema (Pure.pure ()) True :=
  ⟨{}, rfl, by simp, by simp⟩

theorem report {path : Path} {m : Mismatch} : Decides schema (Walker.report path m) False :=
  ⟨_, Walker.log_report path m, by simp, by simp⟩

theorem expect {holds : Bool} {path : Path} {m : Mismatch} :
    Decides schema (Check.expect holds path m) (holds = true) := by
  cases holds
  · exact report.congr (by simp)
  · exact pure.congr (by simp)

/-- One check after another decides both. -/
theorem both (first : Decides schema x p) (second : Decides schema y q) :
    Decides schema (x >>= fun _ => y) (p ∧ q) := by
  obtain ⟨left, leftLog, leftKept, leftVerdict⟩ := first
  obtain ⟨right, rightLog, rightKept, rightVerdict⟩ := second
  refine ⟨left ++ right, ?_, ?_, ?_⟩
  · rw [Walker.log_bind, leftLog]
    simp only [Except.bind, rightLog, Except.map, Prod.map, id]
  · intro c selected
    rcases List.mem_append.1 selected with before | after
    · exact leftKept c before
    · exact rightKept c after
  · intro complete
    have leftComplete : ¬ left.IsCut := fun ⟨e, inside, limit⟩ =>
      complete ⟨e, List.mem_append_left _ inside, limit⟩
    have rightComplete : ¬ right.IsCut := fun ⟨e, inside, limit⟩ =>
      complete ⟨e, List.mem_append_right _ inside, limit⟩
    rw [Findings.errors_append, List.append_eq_nil_iff, leftVerdict leftComplete,
      rightVerdict rightComplete]

theorem forM {items : List α} {f : α → Check} {r : α → Prop}
    (each : ∀ a ∈ items, Decides schema (f a) (r a)) :
    Decides schema (items.forM f) (∀ a ∈ items, r a) := by
  induction items with
  | nil => exact pure.congr (by simp)
  | cons a items ih =>
      have rest := ih fun b inside => each b (List.mem_cons_of_mem a inside)
      exact ((each a List.mem_cons_self).both rest).congr (by simp)

/-- Following references that end changes nothing about what comes after. -/
theorem follow {id : SchemaId} {node : SchemaNode} {path : Path}
    {next : Option (SchemaId × SchemaNode) → Check} (resolved : schema.Resolves id node)
    (decides : ∀ target, Decides schema (next (some (target, node))) p) :
    Decides schema (Walker.follow schema id path >>= next) p := by
  obtain ⟨target, found⟩ := resolved.target path
  have followed : (Walker.follow schema id path).log = .ok (some (target, node), {}) := by
    simp [Walker.follow, found, Walker.lift]
  exact (decides target).of_log (Walker.log_bind_of_log followed next)

end Decides

end DocSchema
