import DocSchema.Proofs.Log
import DocSchema.Proofs.LowestTerms

set_option autoImplicit false

namespace DocSchema

open Bytes

namespace Number

def written : Number → ℚ
  | .int i => i.toInt
  | .float x => decimalValue x.text

/-- The decimal that a number is written as in lowest terms, without its sign. -/
def lowest : Number → Decimal
  | .int i => Decimal.lowest ⟨i.toInt.natAbs, 0⟩
  | .float x => x.spelled.lowest

def isFinite : Number → Bool
  | .int _ => true
  | .float x => x.isFinite

theorem lowest_value {m : Number} (finite : m.isFinite = true) : m.lowest.value = |m.written| := by
  cases m with
  | int i =>
      apply (Decimal.lowest_spec _).2.trans
      rw [Decimal.value, zpow_zero, mul_one, written, Nat.cast_natAbs, Int.cast_abs]
  | float x =>
      have positive : 0 ≤ x.spelled.value :=
        mul_nonneg (Nat.cast_nonneg _) (zpow_nonneg (by norm_num) _)
      apply (Decimal.lowest_spec _).2.trans
      change _ = |decimalValue x.text|
      rw [Binary64.decimalValue_text finite]
      split
      · rw [abs_neg, abs_of_nonneg positive]
      · rw [abs_of_nonneg positive]

/-- Every finite number is compared as its decimal in lowest terms, up to a wrapped coefficient. -/
theorem decimal?_spec {m : Number} (finite : m.isFinite = true) :
    ∃ d : Decimal64, m.decimal? = some d ∧ d.value = m.lowest.wrapped.value := by
  cases m with
  | int i =>
      have less := Int64.toInt_lt i
      have least := Int64.le_toInt i
      have small : (UInt64.ofNat i.toInt.natAbs).toNat = i.toInt.natAbs := by
        rw [UInt64.toNat_ofNat']
        exact Nat.mod_eq_of_lt (by omega)
      obtain ⟨same, last⟩ := Decimal64.normalise_spec ⟨UInt64.ofNat i.toInt.natAbs, 0⟩
      obtain ⟨lowest, value⟩ := Decimal.lowest_spec ⟨i.toInt.natAbs, 0⟩
      refine ⟨_, rfl, ?_⟩
      have stripped : (Decimal64.ofInt64 i).decimal.IsLowest := Decimal64.decimal_isLowest last
      have equal : (Decimal64.ofInt64 i).decimal.value =
          (Decimal.lowest ⟨i.toInt.natAbs, 0⟩).value := by
        rw [value, Decimal.value, ← small]
        exact same
      rw [← Decimal64.decimal_wrapped]
      exact (Decimal.wrapped_value_eq stripped lowest equal).2
  | float x =>
      obtain ⟨n, read, digits, value⟩ := Binary64.read?_text finite
      obtain ⟨same, stripped⟩ := Numeral.stripZeros_spec digits
      obtain ⟨lowest, spelled⟩ := x.spelled.lowest_spec
      have plain : x.isFinite = true := finite
      have equal : n.stripZeros.decimal.value = x.spelled.lowest.value := by
        rw [same, spelled, value]
        rfl
      refine ⟨Decimal64.ofNumeral n, ?_, ?_⟩
      · rw [decimal?, Decimal64.ofBinary64?, if_pos plain, read, Option.map_some]
      · rw [Decimal64.ofNumeral_value]
        exact (Decimal.wrapped_value_eq stripped lowest equal).2

theorem written_ne_zero {m : Number} (finite : m.isFinite = true) (positive : m.isPositive = true) :
    m.written ≠ 0 := by
  have nonzero : m.extended? ≠ some (.units 0) := by
    intro zero
    rw [isPositive, zero] at positive
    exact absurd positive (by decide)
  cases m with
  | int i =>
      intro zero
      apply nonzero
      have none : i.toInt = 0 := Int.cast_eq_zero.1 zero
      rw [extended?, none, Extended.ofInt, Int.zero_mul]
  | float x =>
      have some : x.significand ≠ 0 := by
        intro zero
        apply nonzero
        change x.isFinite = true at finite
        simp [extended?, Binary64.extended?, finite, Binary64.magnitude, zero]
      have spelled : x.spelled.value ≠ 0 := fun zero =>
        Binary64.coefficient_spelled_ne_zero some (Decimal.value_eq_zero.1 zero)
      change decimalValue x.text ≠ 0
      rw [Binary64.decimalValue_text finite]
      split
      · exact neg_ne_zero.2 spelled
      · exact spelled

end Number

private theorem exists_abs_eq (p q : ℚ) : (∃ k : Int, |p| = k * |q|) ↔ ∃ k : Int, p = k * q := by
  rcases abs_choice p with left | left <;> rcases abs_choice q with right | right <;>
    rw [left, right]
  · constructor <;> rintro ⟨k, equal⟩ <;> exact ⟨-k, by push_cast; linear_combination equal⟩
  · constructor <;> rintro ⟨k, equal⟩ <;> exact ⟨-k, by push_cast; linear_combination -equal⟩
  · constructor <;> rintro ⟨k, equal⟩ <;> exact ⟨k, by linear_combination -equal⟩

/-- Whether a finding says that a value is not a multiple of its divisor. -/
def Findings.deniesMultiple (f : Findings) : Prop :=
  ∃ e ∈ f.errors, e.mismatch.kind = utf8 "NotMultipleOf"

theorem Findings.deniesMultiple_iff (x : Binary64) (m : Number) (range : Range) (path : Path)
    (inside isMultiple : Bool) :
    Findings.deniesMultiple ({ errors := if inside then [] else
        [⟨path, .outOfRange (.float x) range⟩] } ++
      { errors := if isMultiple then [] else [⟨path, .notMultiple (.float x) m⟩] }) ↔
      ¬ isMultiple = true := by
  have other : utf8 "OutOfRange" ≠ utf8 "NotMultipleOf" := by decide
  cases inside <;> cases isMultiple <;> simp [deniesMultiple, Mismatch.kind, other]

/-- A float is checked against its divisor by their decimals in lowest terms, with coefficients cut
down to 64 bits. The check is exact if both coefficients fit. -/
theorem shape_float_multiple (w : Walk) (id : SchemaId) {s : Site} {x : Binary64} {m : Number}
    (range : Range) (content : s.value.content = .primitive (.float x)) (value : x.isFinite = true)
    (divisor : m.isFinite = true) (positive : m.isPositive = true) :
    ∃ found : Findings, (w.shape id s (.float range (some m))).log = .ok ((), found) ∧
      (found.deniesMultiple ↔ ¬ (m.lowest.wrapped.coefficient ≠ 0 ∧
        ∃ k : Int, (Number.float x).lowest.wrapped.value = k * m.lowest.wrapped.value)) ∧
      ((Number.float x).lowest.coefficient < 2 ^ 64 → m.lowest.coefficient < 2 ^ 64 →
        (found.deniesMultiple ↔ ¬ ∃ k : Int, decimalValue x.text = k * m.written)) := by
  obtain ⟨v, leftDecimal, left⟩ := Number.decimal?_spec (m := .float x) value
  obtain ⟨d, rightDecimal, right⟩ := Number.decimal?_spec divisor
  have verdict : Number.isMultipleOf (.float x) m = v.isMultiple d := by
    rw [Number.isMultipleOf, leftDecimal, rightDecimal]
  have exact := Decimal64.isMultiple_wrapped left right
  have logged : (w.shape id s (.float range (some m))).log =
      .ok ((), { errors := if range.admits (.float x) then [] else
          [⟨s.path, .outOfRange (.float x) range⟩] } ++
        { errors := if v.isMultiple d then [] else [⟨s.path, .notMultiple (.float x) m⟩] }) := by
    simp only [Walk.shape, content, Content.primitive?, Check.float, Walker.log_bind,
      Check.log_expect, verdict]
    rfl
  refine ⟨_, logged, ?_, ?_⟩
  · rw [Findings.deniesMultiple_iff, exact]
  · intro leftFits rightFits
    have nonzero : m.lowest.coefficient ≠ 0 := by
      intro zero
      have none := (Number.lowest_value divisor).symm.trans (Decimal.value_eq_zero.2 zero)
      exact Number.written_ne_zero divisor positive (abs_eq_zero.1 none)
    rw [Findings.deniesMultiple_iff, exact, Decimal.wrapped_eq leftFits,
      Decimal.wrapped_eq rightFits, Number.lowest_value (m := .float x) value,
      Number.lowest_value divisor, exists_abs_eq]
    simp only [ne_eq, nonzero, not_false_eq_true, true_and]
    rfl

/-- The number `2 ^ 64` counts as a multiple of three: its coefficient wraps to zero. -/
theorem shape_float_multiple_wraps :
    let x : Binary64 := ⟨0x43f0000000000000⟩
    let three : Number := .float ⟨0x4008000000000000⟩
    ∃ found : Findings,
      (Walk.shape ⟨{}, false, fun _ _ => pure ()⟩ 0 ⟨.of (.primitive (.float x)), [], []⟩
        (.float {} (some three))).log = .ok ((), found) ∧
      ¬ found.deniesMultiple ∧ ¬ ∃ k : Int, decimalValue x.text = k * three.written := by
  intro x three
  have xSpelled : x.spelled = ⟨18446744073709551616, 0⟩ := by decide +kernel
  have threeSpelled : Binary64.spelled ⟨0x4008000000000000⟩ = ⟨3, 0⟩ := by decide +kernel
  have xLowest : (Number.float x).lowest = ⟨18446744073709551616, 0⟩ := by
    rw [Number.lowest, xSpelled, Decimal.lowest, if_neg (by decide)]
  have threeLowest : three.lowest = ⟨3, 0⟩ := by
    rw [Number.lowest, threeSpelled, Decimal.lowest, if_neg (by decide)]
  obtain ⟨found, logged, denied, -⟩ := shape_float_multiple
    ⟨{}, false, fun _ _ => pure ()⟩ 0 (s := ⟨.of (.primitive (.float x)), [], []⟩) (m := three) {}
    rfl (by decide) (by decide) (by decide +kernel)
  refine ⟨found, logged, ?_, ?_⟩
  · rw [denied, not_not, xLowest, threeLowest]
    exact ⟨by decide, 0, by simp [Decimal.wrapped, Decimal.value]⟩
  · rintro ⟨k, equal⟩
    change decimalValue x.text = k * decimalValue (Binary64.text ⟨0x4008000000000000⟩) at equal
    rw [Binary64.decimalValue_text (by decide), Binary64.decimalValue_text (by decide), xSpelled,
      threeSpelled, if_neg (by decide), if_neg (by decide)] at equal
    simp only [Decimal.value, zpow_zero, mul_one] at equal
    have whole : (18446744073709551616 : Int) = k * 3 := by exact_mod_cast equal
    omega

end DocSchema
