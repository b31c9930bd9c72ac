import DocSchema.Validation.Site

set_option autoImplicit false

namespace DocSchema

/-- All that a walk finds, in order. -/
structure Findings where
  errors : List Finding := []
  warnings : List (Path × Warning) := []
  selections : List Selection := []
  /-- Whether a required value is missing. -/
  isIncomplete : Bool := false

instance : Append Findings :=
  ⟨fun a b => ⟨a.errors ++ b.errors, a.warnings ++ b.warnings, a.selections ++ b.selections,
    a.isIncomplete || b.isIncomplete⟩⟩

theorem Findings.append_def (a b : Findings) :
    a ++ b = ⟨a.errors ++ b.errors, a.warnings ++ b.warnings, a.selections ++ b.selections,
      a.isIncomplete || b.isIncomplete⟩ := rfl

/-- What a walker has kept of its findings. -/
structure Ledger extends Findings where
  /-- Whether errors were left out. -/
  isTruncated : Bool := false

namespace Ledger

/-- Keeps an error unless the limit is reached; zero is no limit. -/
def report (limit : Nat) (l : Ledger) (e : Finding) : Ledger :=
  if limit ≠ 0 ∧ limit ≤ l.errors.length then { l with isTruncated := true }
  else { l with errors := l.errors ++ [e] }

/-- Keeps what there is room for of the errors found, and all else. -/
def add (limit : Nat) (l : Ledger) (f : Findings) : Ledger where
  errors := l.errors ++ if limit = 0 then f.errors else f.errors.take (limit - l.errors.length)
  warnings := l.warnings ++ f.warnings
  selections := l.selections ++ f.selections
  isIncomplete := l.isIncomplete || f.isIncomplete
  isTruncated := l.isTruncated || (limit != 0 && limit - l.errors.length < f.errors.length)

theorem report_eq_add (limit : Nat) (l : Ledger) (e : Finding) :
    l.report limit e = l.add limit { errors := [e] } := by
  unfold report add
  by_cases unlimited : limit = 0
  · simp [unlimited]
  · by_cases full : limit ≤ l.errors.length
    · have room : limit - l.errors.length = 0 := by omega
      simp [unlimited, full, room]
    · have room : 1 ≤ limit - l.errors.length := by omega
      simp [unlimited, full, List.take_of_length_le (show [e].length ≤ _ from room)]
      omega

@[simp] theorem add_empty (limit : Nat) (l : Ledger) : l.add limit {} = l := by
  simp [add]

theorem add_append (limit : Nat) (l : Ledger) (f g : Findings) :
    l.add limit (f ++ g) = (l.add limit f).add limit g := by
  by_cases unlimited : limit = 0
  · simp [add, Findings.append_def, unlimited, Bool.or_assoc]
  · have room : limit - (l.errors.length + min (limit - l.errors.length) f.errors.length) =
        limit - l.errors.length - f.errors.length := by
      omega
    have full : (limit - l.errors.length < f.errors.length + g.errors.length) ↔
        (limit - l.errors.length < f.errors.length ∨
          limit - l.errors.length - f.errors.length < g.errors.length) := by
      omega
    simp [add, Findings.append_def, unlimited, room, full, List.take_append, Bool.or_assoc,
      Bool.and_or_distrib_left]

/-- Without a limit an empty ledger takes findings as they are. -/
@[simp] theorem toFindings_add_empty (f : Findings) : (({} : Ledger).add 0 f).toFindings = f := by
  simp [add]

end Ledger

/-- A computation that reports findings. -/
@[ext]
structure Walker (α : Type) where
  /-- The result and the ledger at the end, given the limit and the ledger at the start. -/
  run : (limit : Nat) → Ledger → Except Failure (α × Ledger)
  /-- The mismatches that are put into words, in order, until the end or a failure. Those that a
  trial finds and those that there is no room for are among them. -/
  worded : Unit → List Mismatch
  /-- All that a run adds to its ledger is what a run without limit adds to an empty one. -/
  uniform : ∀ limit l, run limit l =
    ((run 0 {}).map (Prod.map id Ledger.toFindings)).map (Prod.map id (l.add limit))

namespace Walker

variable {α β : Type}

/-- The result and the findings of a walker, of which no limit leaves out any. -/
def log (x : Walker α) : Except Failure (α × Findings) :=
  (x.run 0 {}).map (Prod.map id Ledger.toFindings)

theorem run_eq (x : Walker α) (limit : Nat) (l : Ledger) :
    x.run limit l = x.log.map (Prod.map id (l.add limit)) :=
  x.uniform limit l

protected def pure (a : α) : Walker α where
  run _ l := .ok (a, l)
  worded _ := []
  uniform limit l := by simp [Except.map]

protected def bind (x : Walker α) (f : α → Walker β) : Walker β where
  run limit l := do
    let (a, l) ← x.run limit l
    (f a).run limit l
  worded _ := x.worded () ++
    match x.log with
    | .ok (a, _) => (f a).worded ()
    | .error _ => []
  uniform limit l := by
    rw [run_eq x limit, run_eq x 0]
    cases x.log with
    | error e => rfl
    | ok found =>
      obtain ⟨a, f'⟩ := found
      change (f a).run limit (l.add limit f') =
        (((f a).run 0 (({} : Ledger).add 0 f')).map _).map _
      rw [run_eq (f a) limit, run_eq (f a) 0]
      cases (f a).log with
      | error e => rfl
      | ok found =>
        simp only [Except.map, Prod.map, id, ← Ledger.add_append, Ledger.toFindings_add_empty]

instance : Monad Walker where
  pure := Walker.pure
  bind := Walker.bind

def abort (e : Failure) : Walker α where
  run _ _ := .error e
  worded _ := []
  uniform _ _ := rfl

/-- A walker that goes on unless the schema is unusable. -/
def lift (x : Except Failure α) : Walker α :=
  match x with
  | .ok a => pure a
  | .error e => abort e

def report (path : Path) (m : Mismatch) : Walker Unit where
  run limit l := .ok ((), l.report limit ⟨path, m⟩)
  worded _ := [m]
  uniform limit l := by
    rw [Ledger.report_eq_add, Ledger.report_eq_add]
    simp [Except.map]

def reportMissing (path : Path) : Walker Unit where
  run limit l := .ok ((), { l.report limit ⟨path, .missingValue⟩ with isIncomplete := true })
  worded _ := [.missingValue]
  uniform limit l := by
    rw [Ledger.report_eq_add, Ledger.report_eq_add]
    simp [Except.map, Ledger.add]

def warn (path : Path) (w : Warning) : Walker Unit where
  run _ l := .ok ((), { l with warnings := l.warnings ++ [(path, w)] })
  worded _ := []
  uniform limit l := by simp [Except.map, Ledger.add]

def select (c : Selection) : Walker Unit where
  run _ l := .ok ((), { l with selections := l.selections ++ [c] })
  worded _ := []
  uniform limit l := by simp [Except.map, Ledger.add]

/-- Whether a walk finds no error. It is tried with a ledger of its own, which is dropped; one error
is as telling as several. -/
def accepts (x : Walker Unit) : Walker Bool where
  run _ l := do
    let ((), trial) ← x.run 1 {}
    return (trial.errors.isEmpty, l)
  worded := x.worded
  uniform limit l := by
    cases x.run 1 {} with
    | error e => rfl
    | ok found => simp [Except.map, bind, Except.bind, pure, Except.pure]

/-- The type at the end of the references from `id`, for a value at `path`. A name that is not
registered is reported. -/
def follow (schema : Schema) (id : SchemaId) (path : Path) :
    Walker (Option (SchemaId × SchemaNode)) := do
  match ← lift (schema.target id path) with
  | .node id node => return some (id, node)
  | .undefined name => do
    report path (.undefinedType name)
    return none

end Walker

/-- A walker that checks a value. -/
abbrev Check := Walker Unit

end DocSchema
