import DocSchema.Proofs.Lists
import DocSchema.Proofs.Log

set_option autoImplicit false

namespace DocSchema

/-- Whether findings are reports alone: nothing is warned of, no variant is selected, and no
required value is missing. -/
structure Findings.AreReports (f : Findings) : Prop where
  warnings : f.warnings = []
  selections : f.selections = []
  isIncomplete : f.isIncomplete = false

namespace Findings.AreReports

variable {f g : Findings}

theorem empty : ({} : Findings).AreReports :=
  ⟨rfl, rfl, rfl⟩

theorem append (first : f.AreReports) (second : g.AreReports) : (f ++ g).AreReports := by
  refine ⟨?_, ?_, ?_⟩
  · rw [warnings_append, first.warnings, second.warnings, List.append_nil]
  · rw [selections_append, first.selections, second.selections, List.append_nil]
  · rw [isIncomplete_append, first.isIncomplete, second.isIncomplete, Bool.or_false]

end Findings.AreReports

namespace Walker

variable {α β : Type}

/-- What a walker ensures of its result, if there is one. By itself it only reports. -/
def Ensures (post : α → Prop) (x : Walker α) : Prop :=
  ∀ a f, x.log = .ok (a, f) → post a ∧ f.AreReports

namespace Ensures

variable {post : α → Prop} {next : β → Prop} {x : Walker α}

theorem pure {a : α} (holds : post a) : Ensures post (Pure.pure a) := by
  intro b f logged
  cases logged
  exact ⟨holds, .empty⟩

theorem report {path : Path} {m : Mismatch} : Ensures (fun _ => True) (Walker.report path m) := by
  intro a f logged
  cases logged
  exact ⟨trivial, rfl, rfl, rfl⟩

theorem abort {e : Failure} : Ensures post (Walker.abort e) := by
  intro a f logged
  cases logged

theorem lift {y : Except Failure α} (each : ∀ a, y = .ok a → post a) :
    Ensures post (Walker.lift y) := by
  cases y with
  | error e => exact abort
  | ok a => exact pure (each a rfl)

theorem bind {h : α → Walker β} (first : Ensures post x)
    (further : ∀ a, post a → Ensures next (h a)) :
    Ensures next (x >>= h) := by
  intro b f logged
  obtain ⟨a, before, after, found, rest, rfl⟩ := bind_log logged
  obtain ⟨holds, silent⟩ := first a before found
  obtain ⟨holds', silent'⟩ := further a holds b after rest
  exact ⟨holds', silent.append silent'⟩

theorem forM {items : List β} {h : β → Walker Unit}
    (each : ∀ b ∈ items, Ensures (fun _ => True) (h b)) :
    Ensures (fun _ => True) (items.forM h) := by
  induction items with
  | nil => exact pure trivial
  | cons b items ih =>
      exact (each b List.mem_cons_self).bind fun _ _ =>
        ih fun c member => each c (List.mem_cons_of_mem b member)

/-- What a trial selects is dropped. -/
theorem accepts {x : Walker Unit} : Ensures (fun _ => True) x.accepts := by
  intro a f logged
  rw [log_accepts] at logged
  cases found : x.log with
  | error e =>
      rw [found] at logged
      cases logged
  | ok r =>
      rw [found] at logged
      cases logged
      exact ⟨trivial, .empty⟩

end Ensures

/-- Whether a walk ends, having selected these variants. -/
def Selects (x : Walker Unit) (selections : List Selection) : Prop :=
  ∃ f, x.log = .ok ((), f) ∧ f.selections = selections

namespace Selects

variable {x y : Walker Unit} {cs ds : List Selection}

theorem functional (first : x.Selects cs) (second : x.Selects ds) : ds = cs := by
  obtain ⟨f, logged, rfl⟩ := first
  obtain ⟨g, logged', rfl⟩ := second
  cases logged.symm.trans logged'
  rfl

theorem of_log (same : x.log = y.log) (selects : y.Selects cs) : x.Selects cs := by
  obtain ⟨f, logged, selected⟩ := selects
  exact ⟨f, same.trans logged, selected⟩

theorem pure : (Pure.pure () : Walker Unit).Selects [] :=
  ⟨{}, rfl, rfl⟩

theorem report (path : Path) (m : Mismatch) : (Walker.report path m).Selects [] :=
  ⟨_, rfl, rfl⟩

theorem expect (holds : Bool) (path : Path) (m : Mismatch) :
    (Check.expect holds path m).Selects [] :=
  ⟨_, Check.log_expect holds path m, rfl⟩

theorem select (c : Selection) : (Walker.select c).Selects [c] :=
  ⟨_, rfl, rfl⟩

/-- A walk that goes on selects at first what its first part does. -/
theorem bind_result {x : Walker α} {h : α → Walker Unit} (selects : (x >>= h).Selects cs) :
    ∃ a f ds, x.log = .ok (a, f) ∧ (h a).Selects ds ∧ cs = f.selections ++ ds := by
  obtain ⟨g, logged, rfl⟩ := selects
  obtain ⟨a, before, after, found, rest, rfl⟩ := bind_log logged
  exact ⟨a, before, after.selections, found, ⟨after, rest, rfl⟩, rfl⟩

theorem bind (first : x.Selects cs) (second : y.Selects ds) :
    (x >>= fun _ => y).Selects (cs ++ ds) := by
  obtain ⟨f, logged, rfl⟩ := first
  obtain ⟨g, logged', rfl⟩ := second
  exact ⟨f ++ g, log_bind_ok logged logged', rfl⟩

theorem of_bind (selects : (x >>= fun _ => y).Selects cs) :
    ∃ ds es, x.Selects ds ∧ y.Selects es ∧ cs = ds ++ es := by
  obtain ⟨⟨⟩, f, es, logged, rest, rfl⟩ := selects.bind_result
  exact ⟨f.selections, es, ⟨f, logged, rfl⟩, rest, rfl⟩

/-- A walk goes on after a part that selects nothing. -/
theorem of_silent_bind (silent : x.Selects []) (selects : (x >>= fun _ => y).Selects cs) :
    y.Selects cs := by
  obtain ⟨ds, es, first, second, rfl⟩ := selects.of_bind
  rw [silent.functional first, List.nil_append]
  exact second

/-- A last part that selects nothing may be left out. -/
theorem of_bind_silent (silent : y.Selects []) (selects : (x >>= fun _ => y).Selects cs) :
    x.Selects cs := by
  obtain ⟨ds, es, first, second, rfl⟩ := selects.of_bind
  rw [silent.functional second, List.append_nil]
  exact first

theorem forM_nil {items : List α} {h : α → Walker Unit} (silent : ∀ a ∈ items, (h a).Selects []) :
    (items.forM h).Selects [] := by
  induction items with
  | nil => exact .pure
  | cons a items ih =>
      have others := ih fun b inside => silent b (List.mem_cons_of_mem a inside)
      exact (silent a List.mem_cons_self).bind others

end Selects

end Walker

end DocSchema
