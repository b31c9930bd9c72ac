import DocSchema.Proofs.Alike
import DocSchema.Proofs.Lists

set_option autoImplicit false

namespace DocSchema

theorem map_mapIdx {α β γ : Type} {f : Nat → α → β} (g : β → γ) {h : Nat → α → γ} (items : List α)
    (each : ∀ i a, g (f i a) = h i a) : (items.mapIdx f).map g = items.mapIdx h := by
  apply List.ext_getElem <;> simp [each]

section Types

variable {α β : Type}

def Field.mapType (f : α → β) (x : Field α) : Field β :=
  ⟨x.name, f x.schema, x.isOptional⟩

def Variant.mapType (f : α → β) (v : Variant α) : Variant β :=
  ⟨v.name, f v.schema⟩

def Shape.mapTypes (f : α → β) : Shape α → Shape β
  | .text length pattern language => .text length pattern language
  | .integer range multipleOf => .integer range multipleOf
  | .float range multipleOf => .float range multipleOf
  | .boolean => .boolean
  | .null => .null
  | .any => .any
  | .literal expected => .literal expected
  | .record fields allowsUnknown => .record (fields.map (Field.mapType f)) allowsUnknown
  | .array item length isUnique => .array (f item) length isUnique
  | .map key value size => .map (f key) (f value) size
  | .tuple elements => .tuple (elements.map f)
  | .union variants representation => .union (variants.map (Variant.mapType f)) representation
  | .reference name => .reference name

theorem Shape.mapTypes_id (s : Shape α) : s.mapTypes id = s := by
  cases s with
  | record fields allowsUnknown => exact congrArg (Shape.record · _) (List.map_id fields)
  | tuple elements => exact congrArg Shape.tuple (List.map_id elements)
  | union variants representation => exact congrArg (Shape.union · _) (List.map_id variants)
  | _ => rfl

@[simp] theorem Shape.isAny_mapTypes (f : α → β) (s : Shape α) :
    (s.mapTypes f).isAny = s.isAny := by
  cases s <;> rfl

@[simp] theorem Shape.isNull_mapTypes (f : α → β) (s : Shape α) :
    (s.mapTypes f).isNull = s.isNull := by
  cases s <;> rfl

end Types

def SchemaNode.mapTypes (f : SchemaId → SchemaId) (n : SchemaNode) : SchemaNode :=
  ⟨n.shape.mapTypes f, n.metadata⟩

def Target.mapTypes (f : SchemaId → SchemaId) : Target → Target
  | .node id n => .node id (n.mapTypes f)
  | .undefined name => .undefined name

/-- How walks are carried over: each type to another one, each path to the path below `above`, and
each position to the one below `base`. A faithful translation keeps all warnings, and what the
messages of failures say. -/
structure Translation where
  type : SchemaId → SchemaId
  above : Path
  base : List Nat
  isFaithful : Prop

namespace Translation

variable (τ : Translation)

def site (s : Site) : Site :=
  ⟨s.value, τ.above ++ s.path, τ.base ++ s.position⟩

def error (e : Finding) : Finding :=
  ⟨τ.above ++ e.path, e.mismatch⟩

def warning (w : Path × Warning) : Path × Warning :=
  (τ.above ++ w.1, w.2)

def selection (c : Selection) : Selection :=
  ⟨τ.base ++ c.position, c.union, τ.type c.variant, τ.site c.target⟩

/-- Whether two failures are of one kind at translated paths. -/
structure Fails (e e' : Failure) : Prop where
  path : e'.path = τ.above ++ e.path
  kind : e'.flaw.kind = e.flaw.kind
  flaw : τ.isFaithful → e'.flaw = e.flaw

/-- Whether one walk found what another one did, translated. -/
structure Finds (f g : Findings) : Prop where
  errors : g.errors = f.errors.map τ.error
  warnings : τ.isFaithful → g.warnings = f.warnings.map τ.warning
  selections : g.selections = f.selections.map τ.selection
  isIncomplete : g.isIncomplete = f.isIncomplete

variable {τ}

theorem Fails.of_flaw (path : Path) (flaw : Flaw) : τ.Fails ⟨path, flaw⟩ ⟨τ.above ++ path, flaw⟩ :=
  ⟨rfl, rfl, fun _ => rfl⟩

namespace Finds

variable {f f' g g' : Findings}

theorem empty : τ.Finds {} {} :=
  ⟨rfl, fun _ => rfl, rfl, rfl⟩

theorem append (first : τ.Finds f f') (second : τ.Finds g g') : τ.Finds (f ++ g) (f' ++ g') where
  errors := by simp [first.errors, second.errors]
  warnings faithful := by simp [first.warnings faithful, second.warnings faithful]
  selections := by simp [first.selections, second.selections]
  isIncomplete := by simp [first.isIncomplete, second.isIncomplete]

theorem isEmpty_errors (finds : τ.Finds f g) : g.errors.isEmpty = f.errors.isEmpty := by
  rw [finds.errors, List.isEmpty_map]

end Finds

variable (τ) (s : Site)

@[simp] theorem site_value : (τ.site s).value = s.value := rfl

@[simp] theorem site_path : (τ.site s).path = τ.above ++ s.path := rfl

@[simp] theorem site_position : (τ.site s).position = τ.base ++ s.position := rfl

@[simp] theorem site_kindName : (τ.site s).kindName = s.kindName := rfl

theorem site_part (index : Nat) (step : Segment) (v : Value) :
    (τ.site s).part index step v = τ.site (s.part index step v) := by
  simp [Site.part, site]

def entry (e : Key × Site) : Key × Site :=
  (e.1, τ.site e.2)

theorem site_entries? : (τ.site s).entries? = s.entries?.map (List.map τ.entry) := by
  unfold Site.entries?
  rw [site_value]
  cases s.value.content.entries? with
  | none => rfl
  | some es =>
      refine congrArg some ((map_mapIdx _ es fun i e => ?_).symm)
      exact congrArg (e.1, ·) (site_part ..).symm

theorem site_array? : (τ.site s).array? = s.array?.map (List.map τ.site) := by
  unfold Site.array?
  rw [site_value]
  cases s.value.content.array? with
  | none => rfl
  | some vs =>
      exact congrArg some ((map_mapIdx _ vs fun i v => (site_part ..).symm).symm)

theorem site_tuple? : (τ.site s).tuple? = s.tuple?.map (List.map τ.site) := by
  unfold Site.tuple?
  rw [site_value]
  cases s.value.content.tuple? with
  | none => rfl
  | some vs =>
      exact congrArg some ((map_mapIdx _ vs fun i v => (site_part ..).symm).symm)

theorem site_field? (name : Bytes) : (τ.site s).field? name = (s.field? name).map τ.site := by
  unfold Site.field?
  rw [site_entries?]
  cases s.entries? with
  | none => rfl
  | some es =>
      have found : (es.map τ.entry).find? (fun e => e.1.spelling? == some name) =
          (es.find? fun e => e.1.spelling? == some name).map τ.entry := List.find?_map ..
      simp only [Option.map_some, Option.bind_some, found, Option.map_map]
      cases es.find? fun e => e.1.spelling? == some name with
      | none => rfl
      | some e => simp [entry, site]

end Translation

namespace Walker

variable {α β γ δ : Type} {τ : Translation}

/-- Whether two walkers find the same, translated, or both fail. Their results are related by
`f`. -/
inductive Translated (τ : Translation) (f : α → β) (x : Walker α) (y : Walker β) : Prop
  | failed {e e' : Failure} (left : x.log = .error e) (right : y.log = .error e')
      (failures : τ.Fails e e')
  | found {a : α} {g g' : Findings} (left : x.log = .ok (a, g)) (right : y.log = .ok (f a, g'))
      (findings : τ.Finds g g')

namespace Translated

variable {f : α → β} {x : Walker α} {y : Walker β}

theorem pure {a : α} {b : β} (result : b = f a) : Translated τ f (Pure.pure a) (Pure.pure b) :=
  .found rfl (by rw [result]; rfl) .empty

theorem abort {e e' : Failure} (failures : τ.Fails e e') :
    Translated τ f (Walker.abort e) (Walker.abort e') :=
  .failed rfl rfl failures

theorem report (path : Path) (m : Mismatch) :
    Translated τ id (Walker.report path m) (Walker.report (τ.above ++ path) m) :=
  .found rfl rfl ⟨rfl, fun _ => rfl, rfl, rfl⟩

theorem reportMissing (path : Path) :
    Translated τ id (Walker.reportMissing path) (Walker.reportMissing (τ.above ++ path)) :=
  .found rfl rfl ⟨rfl, fun _ => rfl, rfl, rfl⟩

theorem select (c : Selection) :
    Translated τ id (Walker.select c) (Walker.select (τ.selection c)) :=
  .found rfl rfl ⟨rfl, fun _ => rfl, rfl, rfl⟩

theorem bind {g : γ → δ} {h : α → Walker γ} {k : β → Walker δ} (first : Translated τ f x y)
    (further : ∀ a, Translated τ g (h a) (k (f a))) : Translated τ g (x >>= h) (y >>= k) := by
  cases first with
  | failed left right failures =>
      exact .failed (log_bind_error left) (log_bind_error right) failures
  | @found a before before' left right findings =>
      cases further a with
      | failed left' right' failures =>
          exact .failed (log_bind_ok_error left left') (log_bind_ok_error right right') failures
      | found left' right' findings' =>
          exact .found (log_bind_ok left left') (log_bind_ok right right')
            (findings.append findings')

/-- The same steps for translated items. -/
theorem forM {g : γ → δ} {h : γ → Walker Unit} {k : δ → Walker Unit} (items : List γ)
    (each : ∀ a, Translated τ id (h a) (k (g a))) :
    Translated τ id (items.forM h) ((items.map g).forM k) := by
  induction items with
  | nil => exact pure rfl
  | cons a items ih => exact (each a).bind fun _ => ih

/-- Trials of a walk and of its translation come out the same. -/
theorem accepts {x y : Walker Unit} (walks : Translated τ id x y) :
    Translated τ id x.accepts y.accepts := by
  cases walks with
  | failed left right failures => exact .failed (accepts_error left) (accepts_error right) failures
  | @found a g g' left right findings =>
      refine .found (accepts_ok left) ?_ .empty
      rw [accepts_ok right, findings.isEmpty_errors]
      rfl

end Translated

end Walker

/-- Whether one schema is another one with translated types: each chain of references ends alike. -/
structure Schema.Translated (s : Schema) (τ : Translation) (s' : Schema) : Prop where
  target : ∀ id path, Walker.Translated τ (Target.mapTypes τ.type) (.lift (s.target id path))
    (.lift (s'.target (τ.type id) (τ.above ++ path)))
  isDeprecated : τ.isFaithful → ∀ id, s'.isDeprecated (τ.type id) = s.isDeprecated id

/-- References are followed alike. -/
theorem Schema.Translated.follow {τ : Translation} {s s' : Schema} (schemas : s.Translated τ s')
    (start : SchemaId)
    (path : Path) : Walker.Translated τ (Option.map (Prod.map id (SchemaNode.mapTypes τ.type)))
      (Walker.follow s start path) (Walker.follow s' (τ.type start) (τ.above ++ path)) := by
  refine (schemas.target start path).bind fun a => ?_
  cases a with
  | node target n => exact .pure rfl
  | undefined name => exact (Walker.Translated.report path _).bind fun _ => .pure rfl

end DocSchema
