import DocSchema.Proofs.Rendering
import DocSchema.Proofs.SameValue

set_option autoImplicit false

namespace DocSchema

namespace Binary64

variable {x y : Binary64}

theorem significand_lt (x : Binary64) : x.significand < 2 ^ 53 := by
  unfold significand fraction
  split <;> omega

private theorem exponent_le_of_magnitude (equal : x.magnitude = y.magnitude) :
    x.exponent ≤ y.exponent := by
  by_contra less
  have large : 2 ^ 52 ≤ x.significand := by
    unfold significand
    rw [if_neg (by omega)]
    omega
  have scaled : y.scale + 1 ≤ x.scale ∨ (y.scale = 0 ∧ y.significand < 2 ^ 52) := by
    unfold scale significand fraction
    by_cases subnormal : y.exponent = 0
    · rw [if_pos subnormal]
      omega
    · omega
  have bound : y.magnitude < 2 ^ 52 * 2 ^ x.scale := by
    unfold magnitude
    rcases scaled with wider | ⟨unit, small⟩
    · calc
        y.significand * 2 ^ y.scale < 2 ^ 53 * 2 ^ y.scale :=
          Nat.mul_lt_mul_of_pos_right y.significand_lt (Nat.two_pow_pos _)
        _ = 2 ^ 52 * 2 ^ (y.scale + 1) := by ring
        _ ≤ 2 ^ 52 * 2 ^ x.scale :=
          Nat.mul_le_mul_left _ (Nat.pow_le_pow_right (by decide) wider)
    · rw [unit, Nat.pow_zero, Nat.mul_one]
      exact Nat.lt_of_lt_of_le small (Nat.le_mul_of_pos_right _ (Nat.two_pow_pos _))
  rw [← equal] at bound
  unfold magnitude at bound
  have small := Nat.lt_of_mul_lt_mul_right bound
  omega

/-- The absolute value determines all bits but the sign. -/
theorem bits_of_magnitude (equal : x.magnitude = y.magnitude) :
    x.exponent = y.exponent ∧ x.fraction = y.fraction := by
  have exponents := Nat.le_antisymm (exponent_le_of_magnitude equal)
    (exponent_le_of_magnitude equal.symm)
  refine ⟨exponents, ?_⟩
  unfold magnitude at equal
  have scales : x.scale = y.scale := by rw [scale, scale, exponents]
  rw [scales] at equal
  have significands := Nat.eq_of_mul_eq_mul_right (Nat.two_pow_pos _) equal
  unfold significand at significands
  rw [exponents] at significands
  split at significands <;> omega

theorem extended?_finite (finite : x.isFinite = true) :
    x.extended? = some (.units (if x.isNegative then -x.magnitude else x.magnitude)) := by
  rw [extended?, if_pos finite]

theorem extended?_infinite (infinite : ¬ x.isFinite = true) (n : Int) :
    x.extended? ≠ some (.units n) := by
  rw [extended?, if_neg infinite]
  split
  · split <;> simp
  · simp

/-- Equal numbers are both finite, with the same absolute value, or both are not. -/
theorem same_cases (same : x.same y = true) :
    (x.isFinite = true ∧ y.isFinite = true ∧ x.magnitude = y.magnitude) ∨
      (¬ x.isFinite = true ∧ ¬ y.isFinite = true) := by
  obtain ⟨p, left, right⟩ := same_iff.1 same
  by_cases finite : x.isFinite = true
  · rw [extended?_finite finite] at left
    by_cases finite' : y.isFinite = true
    · rw [extended?_finite finite', ← left, Option.some.injEq, Extended.units.injEq] at right
      refine .inl ⟨finite, finite', ?_⟩
      split at right <;> split at right <;> omega
    · exact absurd (right.trans left.symm) (extended?_infinite finite' _)
  · by_cases finite' : y.isFinite = true
    · rw [extended?_finite finite'] at right
      exact absurd (left.trans right.symm) (extended?_infinite finite _)
    · exact .inr ⟨finite, finite'⟩

theorem read?_sign (x : Binary64) (s : Bytes) : Numeral.read? (x.sign ++ s) = Numeral.read? s := by
  unfold sign
  split
  · exact Numeral.read?_minus s
  · rfl

/-- Numbers of one absolute value are written with the same numeral. -/
theorem read?_text_congr (finite : x.isFinite = true) (finite' : y.isFinite = true)
    (equal : x.magnitude = y.magnitude) : Numeral.read? x.text = Numeral.read? y.text := by
  obtain ⟨exponents, fractions⟩ := bits_of_magnitude equal
  have scales : x.scale = y.scale := by rw [scale, scale, exponents]
  have significands : x.significand = y.significand := by
    rw [significand, significand, exponents, fractions]
  have shortest : x.shortest = y.shortest := by
    simp only [Binary64.shortest, Neighbourhood.of, scales, significands, exponents, fractions]
  have spelled : x.spelled = y.spelled := by
    simp only [Binary64.spelled, whole, shortest, equal]
  have plain (z : Binary64) (finite : z.isFinite = true) : Numeral.read? z.text =
      Numeral.read? (if z.shortest.isPlain then z.spelled.positional else z.shortest.scientific) := by
    have number : z.isNaN = false := by
      simp_all [isFinite, isNaN]
    unfold text
    rw [number, finite]
    simp only [Bool.false_eq_true, ↓reduceIte, Bool.not_true]
    split <;> exact read?_sign z _
  rw [plain x finite, plain y finite', shortest, spelled]

theorem ofBinary64?_congr (same : x.same y = true) :
    Decimal64.ofBinary64? x = Decimal64.ofBinary64? y := by
  unfold Decimal64.ofBinary64?
  rcases same_cases same with ⟨finite, finite', equal⟩ | ⟨infinite, infinite'⟩
  · rw [if_pos finite, if_pos finite', read?_text_congr finite finite' equal]
  · rw [if_neg infinite, if_neg infinite']

end Binary64

namespace Number

variable {m n : Number}

theorem extended?_congr (same : m.same n = true) : m.extended? = n.extended? := by
  cases m <;> cases n <;> try cases same
  case int i j =>
    rw [eq_of_beq (show (i == j) = true from same)]
  case float x y =>
    obtain ⟨p, left, right⟩ := Binary64.same_iff.1 same
    exact left.trans right.symm

/-- Equal numbers stand in the same order to all others. -/
theorem compare?_congr (same : m.same n = true) (k : Number) :
    m.compare? k = n.compare? k ∧ k.compare? m = k.compare? n := by
  cases m <;> cases n <;> try cases same
  case int i j =>
    rw [eq_of_beq (show (i == j) = true from same)]
    exact ⟨rfl, rfl⟩
  case float x y =>
    have points : x.extended? = y.extended? := extended?_congr same
    cases k <;> simp only [compare?, points, and_self]

theorem decimal?_congr (same : m.same n = true) : m.decimal? = n.decimal? := by
  cases m <;> cases n <;> try cases same
  case int i j =>
    rw [eq_of_beq (show (i == j) = true from same)]
  case float x y => exact Binary64.ofBinary64?_congr same

/-- Equal divisors have the same multiples. -/
theorem isMultipleOf_congr (same : m.same n = true) (value : Number) :
    value.isMultipleOf m = value.isMultipleOf n := by
  rw [isMultipleOf, isMultipleOf, decimal?_congr same]

/-- Equal numbers are multiples of the same divisors. -/
theorem isMultipleOf_congr_left (same : m.same n = true) (divisor : Number) :
    m.isMultipleOf divisor = n.isMultipleOf divisor := by
  rw [isMultipleOf, isMultipleOf, decimal?_congr same]

end Number

/-- Equal bounds admit the same numbers. -/
theorem Bound.admits_congr {a b : Bound} (same : a.same b = true) (beyond : Ordering)
    (value : Number) : a.admits beyond value = b.admits beyond value := by
  rw [Bound.same, Bool.and_eq_true, beq_iff_eq] at same
  rw [admits, admits, (Number.compare?_congr same.1 value).2, same.2]

/-- Equal numbers lie in the same ranges. -/
theorem Range.admits_congr_left {m n : Number} (same : m.same n = true) (r : Range) :
    r.admits m = r.admits n := by
  have bounds (beyond : Ordering) (b : Bound) : b.admits beyond m = b.admits beyond n := by
    rw [Bound.admits, Bound.admits, (Number.compare?_congr same b.limit).1]
  simp only [Range.admits, bounds]

theorem bothOrNeither_all {α : Type} {same : α → α → Bool} {p : α → Bool} {a b : Option α}
    (related : bothOrNeither same a b = true) (each : ∀ a b, same a b = true → p a = p b) :
    a.all p = b.all p := by
  cases a <;> cases b <;> try cases related
  case none => rfl
  case some a b => exact each a b related

/-- Equal ranges admit the same numbers. -/
theorem Range.admits_congr {r s : Range} (same : r.same s = true) (value : Number) :
    r.admits value = s.admits value := by
  rw [Range.same, Bool.and_eq_true] at same
  rw [admits, admits, bothOrNeither_all same.1 fun _ _ same => Bound.admits_congr same .lt value,
    bothOrNeither_all same.2 fun _ _ same => Bound.admits_congr same .gt value]

end DocSchema
