import Mathlib.Data.List.Forall2
import DocSchema.Proofs.Log

set_option autoImplicit false

namespace DocSchema

def Finding.summary (e : Finding) : Bytes × Path :=
  (e.mismatch.kind, e.path)

def Failure.summary (e : Failure) : Bytes × Path :=
  (e.flaw.kind, e.path)

/-- Whether two walks found the same, up to what messages say and to the selections. -/
structure Findings.Alike (f g : Findings) : Prop where
  errors : f.errors.map Finding.summary = g.errors.map Finding.summary
  warnings : f.warnings = g.warnings
  isIncomplete : f.isIncomplete = g.isIncomplete

namespace Findings.Alike

variable {f f' g g' : Findings}

theorem refl (f : Findings) : f.Alike f :=
  ⟨rfl, rfl, rfl⟩

theorem append (first : f.Alike f') (second : g.Alike g') : (f ++ g).Alike (f' ++ g') where
  errors := by simp [first.errors, second.errors]
  warnings := by simp [first.warnings, second.warnings]
  isIncomplete := by simp [first.isIncomplete, second.isIncomplete]

/-- An error of the same kind at the same path. -/
theorem error {path : Path} {m m' : Mismatch} (kinds : m.kind = m'.kind) (isIncomplete : Bool) :
    Findings.Alike { errors := [⟨path, m⟩], isIncomplete } { errors := [⟨path, m'⟩], isIncomplete } :=
  ⟨by simp [Finding.summary, kinds], rfl, rfl⟩

theorem isEmpty_errors (alike : f.Alike g) : f.errors.isEmpty = g.errors.isEmpty := by
  rw [← List.isEmpty_map, alike.errors, List.isEmpty_map]

end Findings.Alike

namespace Walker

variable {α β γ δ : Type}

/-- Whether two walkers find the same or both fail, where `same` compares their results. -/
inductive Alike (same : α → β → Prop) (x : Walker α) (y : Walker β) : Prop
  | failed {e e' : Failure} (left : x.log = .error e) (right : y.log = .error e')
      (failures : e.summary = e'.summary)
  | found {a : α} {b : β} {f g : Findings} (left : x.log = .ok (a, f)) (right : y.log = .ok (b, g))
      (results : same a b) (findings : f.Alike g)

namespace Alike

variable {same : α → β → Prop} {next : γ → δ → Prop} {x : Walker α} {y : Walker β}

theorem pure {a : α} {b : β} (results : same a b) :
    Alike same (Pure.pure a) (Pure.pure b) :=
  .found rfl rfl results (.refl _)

theorem report (path : Path) {m m' : Mismatch} (kinds : m.kind = m'.kind) :
    Alike Eq (Walker.report path m) (Walker.report path m') :=
  .found rfl rfl rfl (.error kinds false)

theorem abort {e e' : Failure} (failures : e.summary = e'.summary) :
    Alike same (Walker.abort e) (Walker.abort e') :=
  .failed rfl rfl failures

theorem refl (x : Walker α) : Alike Eq x x := by
  cases logged : x.log with
  | error e => exact .failed logged logged rfl
  | ok found => exact .found logged logged rfl (.refl _)

theorem bind {h : α → Walker γ} {k : β → Walker δ} (alike : Alike same x y)
    (further : ∀ a b, same a b → Alike next (h a) (k b)) : Alike next (x >>= h) (y >>= k) := by
  cases alike with
  | failed left right failures =>
      exact .failed (log_bind_error left) (log_bind_error right) failures
  | @found a b f g left right results findings =>
      cases further a b results with
      | failed left' right' failures =>
          exact .failed (log_bind_ok_error left left') (log_bind_ok_error right right') failures
      | found left' right' results' findings' =>
          exact .found (log_bind_ok left left') (log_bind_ok right right') results'
            (findings.append findings')

/-- The same steps for related items are alike. -/
theorem forM {as : List α} {bs : List β} {h : α → Walker Unit} {k : β → Walker Unit}
    (each : List.Forall₂ (fun a b => Alike Eq (h a) (k b)) as bs) :
    Alike Eq (as.forM h) (bs.forM k) := by
  induction each with
  | nil => exact pure rfl
  | cons first rest ih => exact first.bind fun _ _ _ => ih

/-- Steps that cannot report are alike if they fail alike; what they give is known. -/
theorem lift {e : Except Failure α} {e' : Except Failure β}
    (alike : Alike same (Walker.lift e) (Walker.lift e')) :
    Alike (fun a b => same a b ∧ e = .ok a ∧ e' = .ok b) (Walker.lift e) (Walker.lift e') := by
  cases alike with
  | failed left right failures => exact .failed left right failures
  | found left right results findings =>
      cases e with
      | error e => cases left
      | ok a =>
          cases e' with
          | error e' => cases right
          | ok b =>
              cases left
              cases right
              exact .pure ⟨results, rfl, rfl⟩

/-- Trials of walks that are alike come out the same. -/
theorem accepts {x y : Walker Unit} (alike : Alike Eq x y) : Alike Eq x.accepts y.accepts := by
  cases alike with
  | failed left right failures =>
      exact .failed (accepts_error left) (accepts_error right) failures
  | found left right results findings =>
      exact .found (accepts_ok left) (accepts_ok right) findings.isEmpty_errors (.refl {})

end Alike

end Walker

theorem Check.alike_expect {holds holds' : Bool} (path : Path) {m m' : Mismatch}
    (decisions : holds = holds') (kinds : m.kind = m'.kind) :
    Walker.Alike Eq (Check.expect holds path m) (Check.expect holds' path m') := by
  subst decisions
  cases holds
  · exact .report path kinds
  · exact .pure rfl

end DocSchema
