import DocSchema.Validation

/-!
Logs of walkers. What a walker does is told by its log: a run takes the log over into its ledger as far
as there is room. So walkers are compared by their logs, in which no limit occurs.
-/

set_option autoImplicit false

namespace DocSchema

namespace Findings

@[simp] theorem empty_append (f : Findings) : ({} : Findings) ++ f = f := by
  simp [append_def]

@[simp] theorem append_empty (f : Findings) : f ++ ({} : Findings) = f := by
  simp [append_def]

theorem append_assoc (f g h : Findings) : f ++ g ++ h = f ++ (g ++ h) := by
  simp [append_def, Bool.or_assoc]

@[simp] theorem errors_append (f g : Findings) : (f ++ g).errors = f.errors ++ g.errors := rfl

@[simp] theorem warnings_append (f g : Findings) :
    (f ++ g).warnings = f.warnings ++ g.warnings := rfl

@[simp] theorem selections_append (f g : Findings) :
    (f ++ g).selections = f.selections ++ g.selections := rfl

@[simp] theorem isIncomplete_append (f g : Findings) :
    (f ++ g).isIncomplete = (f.isIncomplete || g.isIncomplete) := rfl

end Findings

namespace Walker

variable {α β : Type}

@[simp] theorem log_pure (a : α) : (pure a : Walker α).log = .ok (a, {}) := rfl

@[simp] theorem log_abort (e : Failure) : (abort e : Walker α).log = .error e := rfl

@[simp] theorem log_report (path : Path) (m : Mismatch) :
    (report path m).log = .ok ((), { errors := [⟨path, m⟩] }) := rfl

@[simp] theorem log_reportMissing (path : Path) :
    (reportMissing path).log =
      .ok ((), { errors := [⟨path, .missingValue⟩], isIncomplete := true }) := rfl

@[simp] theorem log_warn (path : Path) (w : Warning) :
    (warn path w).log = .ok ((), { warnings := [(path, w)] }) := rfl

@[simp] theorem log_select (c : Selection) :
    (select c).log = .ok ((), { selections := [c] }) := rfl

/-- The findings of a walker come before those of the one that goes on with its result. -/
theorem log_bind (x : Walker α) (f : α → Walker β) :
    (x >>= f).log =
      x.log.bind fun found => (f found.1).log.map (Prod.map id (found.2 ++ ·)) := by
  change ((x.run 0 {}).bind fun found => (f found.1).run 0 found.2).map _ = _
  rw [run_eq x]
  cases x.log with
  | error e => rfl
  | ok found =>
    obtain ⟨a, l⟩ := found
    change ((f a).run 0 (({} : Ledger).add 0 l)).map _ = _
    rw [run_eq (f a)]
    cases logged : (f a).log with
    | error e => simp [Except.map, Except.bind, logged]
    | ok found =>
      simp only [Except.map, Except.bind, logged, Prod.map, id, ← Ledger.add_append,
        Ledger.toFindings_add_empty]

/-- A walker that goes on ends if both parts do, with the findings of both. -/
theorem bind_log {x : Walker α} {h : α → Walker β} {b : β} {f : Findings}
    (logged : (x >>= h).log = .ok (b, f)) :
    ∃ a before after, x.log = .ok (a, before) ∧ (h a).log = .ok (b, after) ∧
      f = before ++ after := by
  rw [log_bind] at logged
  cases found : x.log with
  | error e =>
      rw [found] at logged
      cases logged
  | ok r =>
      obtain ⟨a, before⟩ := r
      rw [found, Except.bind] at logged
      cases rest : (h a).log with
      | error e =>
          rw [rest] at logged
          cases logged
      | ok r' =>
          obtain ⟨b', after⟩ := r'
          rw [rest] at logged
          cases logged
          exact ⟨a, before, after, rfl, rest, rfl⟩

/-- It fails if one of the parts does. -/
theorem bind_error {x : Walker α} {h : α → Walker β} {e : Failure}
    (failed : (x >>= h).log = .error e) :
    x.log = .error e ∨ ∃ a f, x.log = .ok (a, f) ∧ (h a).log = .error e := by
  rw [log_bind] at failed
  cases found : x.log with
  | error e' =>
      rw [found] at failed
      cases failed
      exact .inl rfl
  | ok r =>
      obtain ⟨a, f⟩ := r
      rw [found, Except.bind] at failed
      cases rest : (h a).log with
      | error e' =>
          rw [rest] at failed
          cases failed
          exact .inr ⟨a, f, rfl, rest⟩
      | ok r' =>
          rw [rest] at failed
          cases failed

theorem log_bind_ok {x : Walker α} {h : α → Walker β} {a : α} {b : β} {f g : Findings}
    (first : x.log = .ok (a, f)) (second : (h a).log = .ok (b, g)) :
    (x >>= h).log = .ok (b, f ++ g) := by
  rw [log_bind, first, Except.bind, second]
  rfl

theorem log_bind_error {x : Walker α} {h : α → Walker β} {e : Failure} (first : x.log = .error e) :
    (x >>= h).log = .error e := by
  rw [log_bind, first]
  rfl

theorem log_bind_ok_error {x : Walker α} {h : α → Walker β} {a : α} {f : Findings} {e : Failure}
    (first : x.log = .ok (a, f)) (second : (h a).log = .error e) : (x >>= h).log = .error e := by
  rw [log_bind, first, Except.bind, second]
  rfl

/-- Only the logs of the parts matter, and of the second one only for what the first gives. -/
theorem log_bind_congr {x y : Walker α} {h k : α → Walker β} (first : x.log = y.log)
    (rest : ∀ a f, x.log = .ok (a, f) → (h a).log = (k a).log) : (x >>= h).log = (y >>= k).log := by
  rw [log_bind, log_bind, ← first]
  cases found : x.log with
  | error e => rfl
  | ok r => simp only [Except.bind, rest r.1 r.2 found]

theorem log_forM_congr {items : List α} {h k : α → Walker Unit}
    (each : ∀ a ∈ items, (h a).log = (k a).log) : (items.forM h).log = (items.forM k).log := by
  induction items with
  | nil => rfl
  | cons a items ih =>
      exact log_bind_congr (each a List.mem_cons_self) fun _ _ _ =>
        ih fun b member => each b (List.mem_cons_of_mem a member)

@[simp] theorem worded_pure (a : α) : (pure a : Walker α).worded () = [] := rfl

@[simp] theorem worded_abort (e : Failure) : (abort e : Walker α).worded () = [] := rfl

@[simp] theorem worded_report (path : Path) (m : Mismatch) : (report path m).worded () = [m] := rfl

@[simp] theorem worded_reportMissing (path : Path) :
    (reportMissing path).worded () = [.missingValue] := rfl

@[simp] theorem worded_warn (path : Path) (w : Warning) : (warn path w).worded () = [] := rfl

@[simp] theorem worded_select (c : Selection) : (select c).worded () = [] := rfl

@[simp] theorem worded_accepts (x : Walker Unit) : x.accepts.worded () = x.worded () := rfl

theorem worded_bind_ok {x : Walker α} {h : α → Walker β} {a : α} {f : Findings}
    (first : x.log = .ok (a, f)) :
    (x >>= h).worded () = x.worded () ++ (h a).worded () := by
  change x.worded () ++ _ = _
  rw [first]

/-- Behind a failure nothing is put into words. -/
theorem worded_bind_error {x : Walker α} {h : α → Walker β} {e : Failure}
    (first : x.log = .error e) :
    (x >>= h).worded () = x.worded () := by
  change x.worded () ++ _ = _
  rw [first, List.append_nil]

/-- A walker that finds nothing only hands over its result. -/
theorem log_bind_of_log {x : Walker α} {a : α} (silent : x.log = .ok (a, {})) (f : α → Walker β) :
    (x >>= f).log = (f a).log := by
  rw [log_bind, silent]
  cases logged : (f a).log with
  | error e => simp [Except.bind, Except.map, logged]
  | ok found => simp [Except.bind, Except.map, logged, Prod.map]

@[simp] theorem log_pure_bind (a : α) (f : α → Walker β) : (pure a >>= f).log = (f a).log :=
  log_bind_of_log (log_pure a) f

theorem log_forM_of_log {items : List α} {f : α → Walker Unit}
    (silent : ∀ a ∈ items, (f a).log = .ok ((), {})) : (items.forM f).log = .ok ((), {}) := by
  induction items with
  | nil => rfl
  | cons a items ih =>
    exact (log_bind_of_log (silent a List.mem_cons_self) _).trans
      (ih fun b inside => silent b (List.mem_cons_of_mem a inside))

/-- How walkers in a row are grouped makes no difference. -/
theorem log_bind_assoc {γ : Type} (x : Walker α) (f : α → Walker β) (g : β → Walker γ) :
    (x >>= f >>= g).log = (x >>= fun a => f a >>= g).log := by
  rw [log_bind, log_bind, log_bind]
  cases x.log with
  | error e => rfl
  | ok found =>
    obtain ⟨a, before⟩ := found
    simp only [Except.bind, log_bind]
    cases (f a).log with
    | error e => rfl
    | ok found =>
      obtain ⟨b, between⟩ := found
      simp only [Except.map, Prod.map, id]
      cases (g b).log with
      | error e => rfl
      | ok found => simp only [Findings.append_assoc]

/-- A trial has found an error if the walk that it tries finds any. -/
theorem log_accepts (x : Walker Unit) :
    x.accepts.log = x.log.map fun found => (found.2.errors.isEmpty, {}) := by
  change ((x.run 1 {}).bind fun found => .ok (found.2.errors.isEmpty, ({} : Ledger))).map _ = _
  rw [run_eq x]
  cases x.log with
  | error e => rfl
  | ok found =>
    have kept : (({} : Ledger).add 1 found.2).errors.isEmpty = found.2.errors.isEmpty := by
      cases errors : found.2.errors <;> simp [Ledger.add, errors]
    simp [Except.map, Except.bind, kept]

theorem accepts_ok {x : Walker Unit} {f : Findings} (logged : x.log = .ok ((), f)) :
    x.accepts.log = .ok (f.errors.isEmpty, {}) := by
  rw [log_accepts, logged]
  rfl

theorem accepts_error {x : Walker Unit} {e : Failure} (failed : x.log = .error e) :
    x.accepts.log = .error e := by
  rw [log_accepts, failed]
  rfl

end Walker

@[simp] theorem Check.log_expect (holds : Bool) (path : Path) (m : Mismatch) :
    (Check.expect holds path m).log =
      .ok ((), { errors := if holds then [] else [⟨path, m⟩] }) := by
  cases holds <;> rfl

end DocSchema
