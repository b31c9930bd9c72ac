import DocSchema.Proofs.Lists
import DocSchema.Proofs.RelatedTypes

set_option autoImplicit false

namespace DocSchema

open Walker (Alike)

variable {R : SchemaId → SchemaId → Prop}

namespace Check

theorem alike_integer {r r' : Range} (ranges : ∀ v, r.admits v = r'.admits v)
    (multipleOf : Option Int64) (i : Int64) (path : Path) :
    Alike Eq (integer r multipleOf i path) (integer r' multipleOf i path) := by
  unfold integer
  refine Alike.bind (alike_expect path (ranges (.int i)) ?_) fun _ _ _ => .refl _
  rfl

theorem alike_float {r r' : Range} {m m' : Option Number} (ranges : ∀ v, r.admits v = r'.admits v)
    (divisors : ∀ v : Number, m.all v.isMultipleOf = m'.all v.isMultipleOf) (x : Binary64)
    (path : Path) : Alike Eq (float r m x path) (float r' m' x path) := by
  unfold float
  refine Alike.bind (alike_expect path (ranges (.float x)) ?_) fun _ _ _ => ?_
  · rfl
  have decisions := divisors (.float x)
  cases m <;> cases m'
  case none.none => exact .pure rfl
  case none.some m' =>
    have holds : Number.isMultipleOf (.float x) m' = true := decisions.symm
    simp only [holds]
    exact .pure rfl
  case some.none m =>
    have holds : Number.isMultipleOf (.float x) m = true := decisions
    simp only [holds]
    exact .pure rfl
  case some.some m m' => exact alike_expect path decisions rfl

/-- Related types of keys demand the same of a key. -/
theorem alike_keyShape {shape shape' : Shape SchemaId} (shapes : shape.Related R shape')
    (l : Literal)
    (path : Path) : Alike Eq (keyShape l path shape) (keyShape l path shape') := by
  cases shapes
  case integer ranges multipleOf =>
    cases l
    case int i => exact alike_integer ranges multipleOf i path
    all_goals exact .report path rfl
  case literal values keys => exact alike_expect path (keys l) rfl
  case text | boolean | null | any => exact .refl _
  all_goals exact .report path rfl

theorem alike_key {s t : Schema} {x y : SchemaId} (bisimilar : s.Bisimulation t R) (types : R x y)
    (k : Key) (path : Path) : Alike Eq (key s x k path) (key t y k path) := by
  apply (bisimilar.follow types path).bind
  intro a b ends
  cases ends with
  | none => exact .pure rfl
  | some related => exact alike_keyShape related.2.shape k.value path

end Check

structure Walk.Related (R : SchemaId → SchemaId → Prop) (w w' : Walk) : Prop where
  bisimilar : w.schema.Bisimulation w'.schema R
  isLenient : w.isLenient = w'.isLenient
  check : ∀ x y (s : Site), R x y → Alike Eq (w.check x s) (w'.check y s)

/-- Related records declare fields of the same names. -/
theorem Field.any_name {fs fs' : List (Field SchemaId)}
    (fields : List.Forall₂ (Field.Related R) fs fs')
    (name : Bytes) : fs.any (·.name == name) = fs'.any (·.name == name) := by
  induction fields with
  | nil => rfl
  | cons first rest ih => rw [List.any_cons, List.any_cons, first.name, ih]

namespace Walk.Related

variable {w w' : Walk} {s : Site}

theorem field {f f' : Field SchemaId} (walks : w.Related R w') (fields : f.Related R f')
    (s : Site) :
    Alike Eq (w.field s f) (w'.field s f') := by
  unfold Walk.field
  rw [fields.name]
  cases s.field? f'.name with
  | none => exact Check.alike_expect _ fields.isOptional rfl
  | some part => exact walks.check f.schema f'.schema part fields.schema

theorem record {fs fs' : List (Field SchemaId)} (walks : w.Related R w')
    (fields : List.Forall₂ (Field.Related R) fs fs') (allowsUnknown : Bool) (tag : Option Bytes)
    (s : Site) :
    Alike Eq (w.record fs allowsUnknown tag s) (w'.record fs' allowsUnknown tag s) := by
  unfold Walk.record
  cases s.entries? with
  | none => exact .refl _
  | some entries =>
      have declared : Alike Eq (fs.forM (w.field s)) (fs'.forM (w'.field s)) :=
        .forM (fields.imp fun {f f'} related => walks.field related s)
      apply declared.bind
      intro _ _ _
      simp only [Field.any_name fields]
      exact .refl _

theorem array {i i' : SchemaId} (walks : w.Related R w') (items : R i i') (length : Counts)
    (isUnique : Bool) (s : Site) :
    Alike Eq (w.array i length isUnique s) (w'.array i' length isUnique s) := by
  unfold Walk.array
  cases s.array? with
  | none => exact .refl _
  | some sites =>
      have each : Alike Eq (sites.forM (w.check i)) (sites.forM (w'.check i')) :=
        .forM (List.forall₂_same.2 fun site _ => walks.check i i' site items)
      apply Alike.bind (.refl _)
      intro _ _ _
      apply each.bind
      intro _ _ _
      exact .refl _

theorem map {k k' v v' : SchemaId} (walks : w.Related R w') (keys : R k k') (values : R v v')
    (size : Counts) (s : Site) : Alike Eq (w.map k v size s) (w'.map k' v' size s) := by
  unfold Walk.map
  cases s.entries? with
  | none => exact .refl _
  | some entries =>
      apply Alike.bind (.refl _)
      intro _ _ _
      refine .forM (List.forall₂_same.2 fun e _ => ?_)
      apply (Check.alike_key walks.bisimilar keys e.1 e.2.path).bind
      intro _ _ _
      exact walks.check v v' e.2 values

theorem tuple {es es' : List SchemaId} (walks : w.Related R w') (elements : List.Forall₂ R es es')
    (s : Site) : Alike Eq (w.tuple es s) (w'.tuple es' s) := by
  unfold Walk.tuple
  cases s.tuple? with
  | none => exact .refl _
  | some sites =>
      dsimp only
      rw [elements.length_eq]
      have same : List.Forall₂ Eq sites sites := List.forall₂_refl sites
      have each := forall₂_zip elements same
      refine Alike.bind (.refl _) fun _ _ _ => .forM (each.imp fun {e e'} related => ?_)
      rw [related.2]
      exact walks.check e.1 e'.1 e'.2 related.1

end Walk.Related

end DocSchema
