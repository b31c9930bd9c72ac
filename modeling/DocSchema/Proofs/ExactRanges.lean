import Mathlib.Data.EReal.Basic
import DocSchema.Proofs.Log

set_option autoImplicit false

namespace DocSchema

-- A power of naturals or integers is the core library's, whatever else is imported.
attribute [local instance (high)] instPowNat

namespace Extended

theorem unitsPerOne_pos : 0 < unitsPerOne :=
  Int.pow_pos (by decide)

/-- Rounding towards zero leaves less than one. -/
theorem tdiv_cases (n : Int) {unit : Int} (positive : 0 < unit) :
    ∃ rest, n = n.tdiv unit * unit + rest ∧ -unit < rest ∧ rest < unit ∧ (0 ≤ n → 0 ≤ rest) := by
  refine ⟨n.tmod unit, ?_, Int.lt_tmod_of_pos n positive, Int.tmod_lt_of_pos n positive,
    Int.tmod_nonneg unit⟩
  rw [Int.mul_comm]
  exact (Int.mul_tdiv_add_tmod n unit).symm

/-- The whole part of a point between the integers of 64 bits is one of them. -/
theorem tdiv_fits {n unit bound : Int} (positive : 0 < unit) (bounded : 0 < bound)
    (least : -(bound * unit) ≤ n)
    (less : n < bound * unit) : -bound ≤ n.tdiv unit ∧ n.tdiv unit < bound := by
  obtain ⟨rest, split, above, below, sign⟩ := tdiv_cases n positive
  constructor
  · by_contra short
    have far : (n.tdiv unit + 1) * unit ≤ -bound * unit :=
      Int.mul_le_mul_of_nonneg_right (by omega) positive.le
    rw [Int.add_mul, Int.neg_mul] at far
    omega
  · by_contra long
    have far : bound * unit ≤ n.tdiv unit * unit :=
      Int.mul_le_mul_of_nonneg_right (by omega) positive.le
    by_cases nonneg : 0 ≤ n
    · have := sign nonneg
      omega
    · have past : 1 * unit ≤ n.tdiv unit * unit :=
        Int.mul_le_mul_of_nonneg_right (by omega) positive.le
      omega

/-- Points with different whole parts lie as these do. -/
theorem lt_of_tdiv {n unit i : Int} (positive : 0 < unit) :
    (n.tdiv unit < i → n < i * unit) ∧ (i < n.tdiv unit → i * unit < n) := by
  obtain ⟨rest, split, above, below, -⟩ := tdiv_cases n positive
  constructor
  · intro before
    have next : (n.tdiv unit + 1) * unit ≤ i * unit :=
      Int.mul_le_mul_of_nonneg_right (by omega) positive.le
    rw [Int.add_mul] at next
    omega
  · intro after
    have next : (i + 1) * unit ≤ n.tdiv unit * unit :=
      Int.mul_le_mul_of_nonneg_right (by omega) positive.le
    rw [Int.add_mul] at next
    omega

/-- Two pairs of integers that lie alike compare alike. -/
theorem compare_alike {m n i j : Int} (less : m < n → i < j) (same : m = n → i = j)
    (more : n < m → j < i) :
    Ord.compare m n = Ord.compare i j := by
  rcases Int.lt_trichotomy m n with before | equal | after
  · rw [Int.compare_eq_lt.2 before, Int.compare_eq_lt.2 (less before)]
  · rw [Int.compare_eq_eq.2 equal, Int.compare_eq_eq.2 (same equal)]
  · rw [Int.compare_eq_gt.2 after, Int.compare_eq_gt.2 (more after)]

/-- The whole part decides where a point lies from an integer, and the rest does if the whole part
is the integer. -/
theorem compare_tdiv (n i : Int) {unit : Int} (positive : 0 < unit) :
    (if n.tdiv unit = i then Ord.compare (n - n.tdiv unit * unit) 0 else Ord.compare (n.tdiv unit) i) =
      Ord.compare n (i * unit) := by
  split
  · next same =>
    rw [same]
    exact compare_alike (by omega) (by omega) (by omega)
  · next apart =>
    obtain ⟨before, after⟩ := lt_of_tdiv (n := n) (i := i) positive
    exact compare_alike before (fun equal => absurd equal apart) after

/-- A point is compared with an integer as with the point of the integer. -/
theorem compareInt_eq (p : Extended) (i : Int64) : p.compareInt i = p.compare (.ofInt i.toInt) := by
  have positive := unitsPerOne_pos
  have least := Int64.le_toInt i
  have less := Int64.toInt_lt i
  cases p with
  | negInf => rfl
  | posInf => rfl
  | units n =>
      change _ = Ord.compare n (i.toInt * unitsPerOne)
      unfold compareInt
      generalize unitsPerOne = unit at positive ⊢
      dsimp only
      split
      · next far =>
        have beyond : i.toInt * unit < 2 ^ 63 * unit := Int.mul_lt_mul_of_pos_right less positive
        exact (Int.compare_eq_gt.2 (by omega)).symm
      · next near =>
        split
        · next far =>
          have beyond : -2 ^ 63 * unit ≤ i.toInt * unit :=
            Int.mul_le_mul_of_nonneg_right least positive.le
          rw [Int.neg_mul] at beyond
          exact (Int.compare_eq_lt.2 (by omega)).symm
        · next near' =>
          obtain ⟨fits, fits'⟩ :=
            tdiv_fits positive (by decide) (Int.not_lt.1 near') (Int.not_le.1 near)
          have whole : (Int64.ofInt (n.tdiv unit)).toInt = n.tdiv unit :=
            Int64.toInt_ofInt_of_le fits fits'
          have same : Int64.ofInt (n.tdiv unit) = i ↔ n.tdiv unit = i.toInt := by
            rw [← Int64.toInt_inj, whole]
          rw [if_congr same rfl rfl, whole]
          exact compare_tdiv n i.toInt positive

noncomputable def toEReal : Extended → EReal
  | .negInf => ⊥
  | .units n => ((n * 2 ^ (-1074 : ℤ) : ℝ) : EReal)
  | .posInf => ⊤

private theorem scale_pos : (0 : ℝ) < 2 ^ (-1074 : ℤ) :=
  zpow_pos (by norm_num) _

theorem toEReal_lt_units (m n : Int) : (units m).toEReal < (units n).toEReal ↔ m < n := by
  rw [toEReal, toEReal, EReal.coe_lt_coe_iff, mul_lt_mul_iff_left₀ scale_pos, Int.cast_lt]

theorem toEReal_eq_units (m n : Int) : (units m).toEReal = (units n).toEReal ↔ m = n := by
  rw [toEReal, toEReal, EReal.coe_eq_coe_iff, mul_left_inj' scale_pos.ne', Int.cast_inj]

theorem bot_lt_units (n : Int) : ⊥ < (units n).toEReal :=
  EReal.bot_lt_coe _

theorem units_lt_top (n : Int) : (units n).toEReal < ⊤ :=
  EReal.coe_lt_top _

/-- The order of the line is that of the extended reals. -/
theorem compare_spec (p q : Extended) :
    (p.compare q = .lt ↔ p.toEReal < q.toEReal) ∧ (p.compare q = .eq ↔ p.toEReal = q.toEReal) ∧
      (p.compare q = .gt ↔ q.toEReal < p.toEReal) := by
  cases p with
  | negInf =>
      cases q with
      | negInf => simp [compare]
      | units n => simp [compare, toEReal.eq_1, bot_lt_units, (bot_lt_units n).ne]
      | posInf => simp [compare, toEReal.eq_1, toEReal.eq_3]
  | units m =>
      cases q with
      | negInf => simp [compare, toEReal.eq_1, bot_lt_units, (bot_lt_units m).ne']
      | units n =>
          rw [toEReal_lt_units, toEReal_eq_units, toEReal_lt_units]
          exact ⟨Int.compare_eq_lt, Int.compare_eq_eq, Int.compare_eq_gt⟩
      | posInf => simp [compare, toEReal.eq_3, units_lt_top, (units_lt_top m).ne]
  | posInf =>
      cases q with
      | negInf => simp [compare, toEReal.eq_1, toEReal.eq_3]
      | units n => simp [compare, toEReal.eq_3, units_lt_top, (units_lt_top n).ne']
      | posInf => simp [compare]

/-- The order the other way round. -/
theorem swap_compare (p q : Extended) : (p.compare q).swap = q.compare p := by
  cases p <;> cases q <;> try rfl
  exact Int.compare_swap _ _

/-- The point of an integer is the integer. -/
theorem toEReal_ofInt (i : Int) : (ofInt i).toEReal = ((i : ℝ) : EReal) := by
  have whole : ((2 ^ (1074 : ℕ) : Int) : ℝ) = 2 ^ (1074 : ℤ) :=
    (Int.cast_pow 2 1074).trans (zpow_natCast (2 : ℝ) 1074).symm
  have unit : ((2 ^ (1074 : ℕ) : Int) : ℝ) * 2 ^ (-1074 : ℤ) = 1 := by
    rw [whole, ← zpow_add₀ two_ne_zero, Int.add_right_neg, zpow_zero]
  rw [ofInt, toEReal, Int.cast_mul, mul_assoc, unit, mul_one]

end Extended

namespace Binary64

/-- The extended real that the bits of a number denote; a NaN denotes none. -/
noncomputable def toEReal? (x : Binary64) : Option EReal :=
  let sign : ℝ := if x.isNegative then -1 else 1
  if x.exponent = 2047 then
    if x.fraction = 0 then some (if x.isNegative then ⊥ else ⊤) else none
  else if x.exponent = 0 then some ((sign * (x.fraction * 2 ^ (-1074 : ℤ)) : ℝ) : EReal)
  else some ((sign * ((2 ^ 52 + x.fraction) * 2 ^ ((x.exponent : ℤ) - 1075)) : ℝ) : EReal)

/-- The absolute value in units is what the exponent and fraction bits say. -/
theorem magnitude_mul_unit (x : Binary64) : (x.magnitude : ℝ) * 2 ^ (-1074 : ℤ) =
    if x.exponent = 0 then (x.fraction * 2 ^ (-1074 : ℤ) : ℝ)
    else ((2 ^ 52 + x.fraction) * 2 ^ ((x.exponent : ℤ) - 1075) : ℝ) := by
  have cast (n : ℕ) : (((2 : ℕ) ^ n : ℕ) : ℝ) = (2 : ℝ) ^ (n : ℤ) :=
    (Nat.cast_pow 2 n).trans (zpow_natCast (2 : ℝ) n).symm
  rw [magnitude, significand, scale]
  split
  · next subnormal =>
      rw [subnormal, Nat.cast_mul, cast, Nat.zero_sub, Nat.cast_zero, zpow_zero, mul_one]
  · next normal =>
    have power : ((x.exponent - 1 : ℕ) : ℤ) + -1074 = x.exponent - 1075 := by omega
    rw [Nat.cast_mul, Nat.cast_add, cast, cast, mul_assoc, ← zpow_add₀ two_ne_zero, power,
      ← zpow_natCast]

/-- A number stands for the point that its bits denote. -/
theorem map_toEReal (x : Binary64) : x.extended?.map Extended.toEReal = x.toEReal? := by
  have units := x.magnitude_mul_unit
  rw [toEReal?, extended?, isFinite]
  by_cases special : x.exponent = 2047
  · rw [if_pos special, if_neg (by simp only [special]; decide)]
    split
    · split <;> rfl
    · rfl
  · rw [if_neg special, if_pos (by simpa using special), Option.map_some, Extended.toEReal]
    have signed : ((if x.isNegative then -(x.magnitude : Int) else x.magnitude : Int) : ℝ) =
        (if x.isNegative then -1 else 1) * (x.magnitude : ℝ) := by
      cases x.isNegative <;> simp
    rw [signed, mul_assoc, units]
    by_cases subnormal : x.exponent = 0
    · rw [if_pos subnormal, if_pos subnormal]
    · rw [if_neg subnormal, if_neg subnormal]

end Binary64

namespace Number

noncomputable def toEReal? : Number → Option EReal
  | .int i => some ((i.toInt : ℝ) : EReal)
  | .float x => x.toEReal?

theorem map_toEReal (m : Number) : m.extended?.map Extended.toEReal = m.toEReal? := by
  cases m with
  | int i => exact congrArg some (Extended.toEReal_ofInt i.toInt)
  | float x => exact x.map_toEReal

/-- Two integers are in the order of their points. -/
theorem compare_ofInt (i j : Int) : (Extended.ofInt i).compare (.ofInt j) = Ord.compare i j := by
  have positive := Extended.unitsPerOne_pos
  change Ord.compare (i * Extended.unitsPerOne) (j * Extended.unitsPerOne) = _
  generalize Extended.unitsPerOne = unit at positive ⊢
  exact (Extended.compare_alike (fun less => Int.mul_lt_mul_of_pos_right less positive) (congrArg (· * unit))
    fun more => Int.mul_lt_mul_of_pos_right more positive).symm

/-- Numbers of any kinds are in the order of their points. -/
theorem compare?_eq (m n : Number) :
    m.compare? n = m.extended?.bind fun p => n.extended?.map fun q => p.compare q := by
  cases m with
  | int i =>
      cases n with
      | int j => exact congrArg some (compare_ofInt i.toInt j.toInt).symm
      | float y =>
          change y.extended?.map _ = y.extended?.map _
          refine congrArg (Option.map · y.extended?) (funext fun q => ?_)
          rw [Extended.compareInt_eq, Extended.swap_compare]
  | float x =>
      cases n with
      | int j =>
          change x.extended?.map _ = x.extended?.bind _
          cases x.extended? with
          | none => rfl
          | some p => exact congrArg some (p.compareInt_eq j)
      | float y =>
          change Number.compare? (.float x) (.float y) =
            x.extended?.bind fun p => y.extended?.map fun q => p.compare q
          rw [Number.compare?]
          cases x.extended? <;> cases y.extended? <;> rfl

end Number

/-- Whether a value fails an end of a range: it lies beyond the limit or, if the end is exclusive,
on it. A value or limit that is no number fails. -/
def Bound.Fails (beyond : EReal → EReal → Prop) (b : Bound) (value : Number) : Prop :=
  match value.toEReal?, b.limit.toEReal? with
  | some p, some l => beyond p l ∨ b.exclusive = true ∧ p = l
  | _, _ => True

/-- Whether a value fails one of the ends that a range has. -/
def Range.Fails (r : Range) (value : Number) : Prop :=
  (∃ b ∈ r.min, b.Fails (· < ·) value) ∨ ∃ b ∈ r.max, b.Fails (· > ·) value

theorem Bound.admits_iff {beyond : Ordering} {lies : EReal → EReal → Prop}
    (same : ∀ p q : Extended, p.compare q = beyond ↔ lies p.toEReal q.toEReal) (b : Bound)
    (value : Number) :
    b.admits beyond value = true ↔ ¬ b.Fails lies value := by
  rw [admits, Fails, Number.compare?_eq, ← Number.map_toEReal, ← Number.map_toEReal]
  cases value.extended? with
  | none => simp
  | some p =>
      cases b.limit.extended? with
      | none => simp
      | some q =>
          have equal := (p.compare_spec q).2.1
          simp [← same, ← equal, imp_iff_not_or]

theorem Range.admits_iff (r : Range) (value : Number) :
    r.admits value = true ↔ ¬ r.Fails value := by
  have least (b : Bound) : b.admits .lt value = true ↔ ¬ b.Fails (· < ·) value :=
    b.admits_iff (fun p q => (p.compare_spec q).1) value
  have most (b : Bound) : b.admits .gt value = true ↔ ¬ b.Fails (· > ·) value :=
    b.admits_iff (fun p q => (p.compare_spec q).2.2) value
  rw [admits, Fails, not_or, Bool.and_eq_true]
  simp only [Option.all_eq_true, Option.mem_def, least, most, not_exists, not_and]

/-- Whether a finding says that a value is outside its range. -/
def Findings.deniesRange (f : Findings) : Prop :=
  ∃ e ∈ f.errors, e.mismatch.kind = utf8 "OutOfRange"

/-- The check of a range tells whether a value fails it, if what is checked after it tells only of
the divisor. -/
theorem Check.range_deniesRange (r : Range) (value : Number) (path : Path) {divisor : Check}
    {rest : Findings}
    (logged : divisor.log = .ok ((), rest))
    (other : ∀ e ∈ rest.errors, e.mismatch.kind = utf8 "NotMultipleOf") :
    ∃ f, (do Check.expect (r.admits value) path (.outOfRange value r); divisor : Check).log =
      .ok ((), f) ∧
      (f.deniesRange ↔ r.Fails value) := by
  refine ⟨_, Walker.log_bind_ok (Check.log_expect _ _ _) logged, ?_⟩
  have different : utf8 "NotMultipleOf" ≠ utf8 "OutOfRange" := by decide
  have silent : ¬ ∃ e ∈ rest.errors, e.mismatch.kind = utf8 "OutOfRange" :=
    fun ⟨e, member, kind⟩ => different ((other e member).symm.trans kind)
  have kind : Mismatch.kind (.outOfRange value r) = utf8 "OutOfRange" := rfl
  have verdict := r.admits_iff value
  cases inside : r.admits value with
  | true => simpa [Findings.deniesRange, silent, inside] using verdict
  | false => simpa [Findings.deniesRange, kind, inside] using verdict

/-- A check that fails tells only of the divisor. -/
theorem Check.exists_log_divisor (path : Path) {m : Mismatch} (kind : m.kind = utf8 "NotMultipleOf")
    (holds : Bool) : ∃ f : Findings, (Check.expect holds path m).log = .ok ((), f) ∧
      ∀ e ∈ f.errors, e.mismatch.kind = utf8 "NotMultipleOf" := by
  refine ⟨_, Check.log_expect holds path m, ?_⟩
  cases holds <;> simp [kind]

/-- An integer is denied its range exactly if it fails one of the ends. -/
theorem Check.integer_deniesRange (r : Range) (m : Option Int64) (i : Int64) (path : Path) :
    ∃ f, (Check.integer r m i path).log = .ok ((), f) ∧ (f.deniesRange ↔ r.Fails (.int i)) := by
  cases m with
  | none => exact Check.range_deniesRange r (.int i) path rfl (List.forall_mem_nil _)
  | some m =>
      obtain ⟨rest, logged, other⟩ := Check.exists_log_divisor path (m := .notMultiple (.int i) (.int m)) rfl
        (Check.divides m i)
      exact Check.range_deniesRange r (.int i) path logged other

/-- A floating-point number is denied its range exactly if it fails one of the ends. -/
theorem Check.float_deniesRange (r : Range) (m : Option Number) (x : Binary64) (path : Path) :
    ∃ f, (Check.float r m x path).log = .ok ((), f) ∧ (f.deniesRange ↔ r.Fails (.float x)) := by
  cases m with
  | none => exact Check.range_deniesRange r (.float x) path rfl (List.forall_mem_nil _)
  | some m =>
      obtain ⟨rest, logged, other⟩ := Check.exists_log_divisor path (m := .notMultiple (.float x) m) rfl
        (Number.isMultipleOf (.float x) m)
      exact Check.range_deniesRange r (.float x) path logged other

/-- Every number, as a value or as the key of a map, is denied its range exactly if it fails one of
the ends, with numbers and limits taken as points of the extended reals. -/
theorem Walk.numbers_deniesRange (w : Walk) (id : SchemaId) (r : Range)
    (extensions : List (Bytes × Value)) (path : Path) (position : List Nat) :
    (∀ i m, ∃ f, (w.shape id ⟨.node (.primitive (.int i)) extensions, path,
      position⟩ (.integer r m)).log =
        .ok ((), f) ∧ (f.deniesRange ↔ r.Fails (.int i))) ∧
      (∀ x m, ∃ f, (w.shape id
        ⟨.node (.primitive (.float x)) extensions, path, position⟩ (.float r m)).log =
        .ok ((), f) ∧ (f.deniesRange ↔ r.Fails (.float x))) ∧
      ∀ i m, ∃ f, (Check.keyShape (.int i) path (.integer r m)).log =
        .ok ((), f) ∧ (f.deniesRange ↔ r.Fails (.int i)) :=
  ⟨fun i m => Check.integer_deniesRange r m i path, fun x m => Check.float_deniesRange r m x path,
    fun i m => Check.integer_deniesRange r m i path⟩

end DocSchema
