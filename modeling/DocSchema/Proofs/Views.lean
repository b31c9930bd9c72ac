import DocSchema.Proofs.Corresponding
import DocSchema.Proofs.Truncation

set_option autoImplicit false

namespace DocSchema

/-- What is looked at in findings. It is joined from what is looked at in their parts, and tells at
least whether there are errors and which variants were selected. -/
structure Findings.View (γ : Type) where
  look : Findings → γ
  join : γ → γ → γ
  look_append : ∀ f g, look (f ++ g) = join (look f) (look g)
  isEmpty_errors : ∀ f g, look f = look g → f.errors.isEmpty = g.errors.isEmpty
  selections : ∀ f g, look f = look g → f.selections = g.selections

namespace Findings.View

variable {α β γ : Type} (view : View γ)

/-- Whether two walkers fail alike, or give one result and show the same. -/
def Coincide (x y : Walker α) : Prop :=
  x.log.map (Prod.map id view.look) = y.log.map (Prod.map id view.look)

/-- What two walkers in a row show is joined from what each of them shows. -/
theorem log_bind (x : Walker α) (h : α → Walker β) :
    (x >>= h).log.map (Prod.map id view.look) =
      (x.log.map (Prod.map id view.look)).bind fun found =>
        ((h found.1).log.map (Prod.map id view.look)).map (Prod.map id (view.join found.2)) := by
  rw [Walker.log_bind]
  cases x.log with
  | error e => rfl
  | ok found =>
      simp only [Except.map, Except.bind, Prod.map, id]
      cases (h found.1).log with
      | error e => rfl
      | ok found' =>
          exact congrArg (fun shown => Except.ok (found'.1, shown))
            (view.look_append found.2 found'.2)

def congruence : Walker.Congruence where
  Rel := view.Coincide
  refl _ := rfl
  bind first further := by
    unfold Coincide at *
    rw [view.log_bind, view.log_bind, first]
    simp only [further]

variable {view} {x y : Walker α}

/-- Walkers that coincide fail alike or give one result. -/
theorem Coincide.cases (same : view.Coincide x y) :
    (∃ e, x.log = .error e ∧ y.log = .error e) ∨
      ∃ a f g, x.log = .ok (a, f) ∧ y.log = .ok (a, g) ∧ view.look f = view.look g := by
  unfold Coincide at same
  cases left : x.log <;> cases right : y.log <;> rw [left, right] at same
  case error.error e e' =>
    cases same
    exact .inl ⟨e, rfl, rfl⟩
  case ok.ok found found' =>
    obtain ⟨a, f⟩ := found
    obtain ⟨b, g⟩ := found'
    obtain ⟨results, shown⟩ := Prod.mk.inj (Except.ok.inj same)
    obtain rfl : a = b := results
    exact .inr ⟨a, f, g, rfl, rfl, shown⟩
  all_goals cases same

/-- Trials show no more than whether there are errors. -/
theorem Coincide.accepts {x y : Walker Unit} (same : view.Coincide x y) :
    view.Coincide x.accepts y.accepts := by
  rw [Coincide, Walker.log_accepts, Walker.log_accepts]
  obtain ⟨e, left, right⟩ | ⟨⟨⟩, f, g, left, right, shown⟩ := same.cases
  · rw [left, right]
  · rw [left, right, Except.map, Except.map, view.isEmpty_errors f g shown]
    rfl

/-- Both passes show the same. The second one follows the variants that the first one selected,
which are the same. -/
theorem findingsOf {related : SchemaNode → SchemaNode → Prop} {s t : Schema}
    (overlooks : view.congruence.Overlooks related) (same : s.Corresponds related t) (v : Value)
    (id : SchemaId) (settings : Settings) :
    (findingsOf v s id settings).map view.look = (findingsOf v t id settings).map view.look := by
  cases inside : t.contains id with
  | false =>
      rw [findings_of_outside ((same.contains_eq id).trans inside), findings_of_outside inside]
  | true =>
      have inside' : s.contains id = true := (same.contains_eq id).trans inside
      have passes : view.Coincide (s.check settings settings.maxDepth id ⟨v, [], []⟩)
          (t.check settings settings.maxDepth id ⟨v, [], []⟩) :=
        same.check overlooks settings settings.maxDepth id ⟨v, [], []⟩
      obtain ⟨e, failed, failed'⟩ | ⟨⟨⟩, f, g, checked, checked', structural⟩ := passes.cases
      · rw [findings_of_failed_check inside' failed, findings_of_failed_check inside failed']
      · have searches : view.Coincide
            (s.complete f.selections settings.maxDepth id ⟨v, [], []⟩ false)
            (t.complete f.selections settings.maxDepth id ⟨v, [], []⟩ false) :=
          same.complete overlooks f.selections settings.maxDepth id ⟨v, [], []⟩ false
        obtain ⟨e, failed, failed'⟩ | ⟨⟨⟩, f', g', searched, searched', holes⟩ := searches.cases
        · rw [view.selections f g structural] at failed'
          rw [findings_of_failed_search inside' checked failed,
            findings_of_failed_search inside checked' failed']
        · rw [view.selections f g structural] at searched'
          rw [findings_of_logs inside' checked searched, findings_of_logs inside checked' searched',
            Except.map, Except.map, view.look_append, view.look_append, structural, holes]

end Findings.View

end DocSchema
