import Mathlib.Tactic.LinearCombination
import DocSchema.Proofs.Divisibility
import DocSchema.Proofs.Rendering

set_option autoImplicit false

namespace DocSchema

open Bytes

namespace Decimal

/-- Whether no zero can move from the coefficient into the exponent. -/
def IsLowest (d : Decimal) : Prop :=
  d.coefficient = 0 ∨ ¬ 10 ∣ d.coefficient

/-- The decimal with its coefficient cut down to 64 bits. -/
def wrapped (d : Decimal) : Decimal :=
  ⟨d.coefficient % 2 ^ 64, d.exponent⟩

/-- Moves zeros at the end of the coefficient into the exponent. -/
def lowest (d : Decimal) : Decimal :=
  if d.coefficient ≠ 0 ∧ d.coefficient % 10 = 0 then lowest ⟨d.coefficient / 10, d.exponent + 1⟩
  else d
termination_by d.coefficient

theorem lowest_spec (d : Decimal) : d.lowest.IsLowest ∧ d.lowest.value = d.value := by
  fun_induction lowest d with
  | case1 d trailing ih =>
      refine ⟨ih.1, ih.2.trans ?_⟩
      have split : d.coefficient = d.coefficient / 10 * 10 := by omega
      simp only [value]
      rw [split, Nat.mul_div_cancel _ (by decide), zpow_add₀ (by norm_num)]
      push_cast
      ring
  | case2 d last =>
      refine ⟨?_, rfl⟩
      unfold IsLowest
      omega

theorem wrapped_eq {d : Decimal} (fits : d.coefficient < 2 ^ 64) : d.wrapped = d := by
  rw [wrapped, Nat.mod_eq_of_lt fits]

theorem value_eq_zero {d : Decimal} : d.value = 0 ↔ d.coefficient = 0 := by
  have power : (10 : ℚ) ^ d.exponent ≠ 0 := zpow_ne_zero _ (by norm_num)
  simp [value, power]

private theorem exponent_le_of_isLowest {a b : Decimal} (lowest : a.IsLowest)
    (some : a.coefficient ≠ 0)
    (same : a.value = b.value) : b.exponent ≤ a.exponent := by
  by_contra less
  obtain ⟨k, step⟩ := Int.eq_ofNat_of_zero_le (show 0 ≤ b.exponent - a.exponent - 1 by omega)
  have exponent : b.exponent = a.exponent + ((k + 1 : Nat) : Int) := by omega
  have power : (10 : ℚ) ^ a.exponent ≠ 0 := zpow_ne_zero _ (by norm_num)
  have scaled : (a.coefficient : ℚ) = ((b.coefficient * 10 ^ (k + 1) : Nat) : ℚ) := by
    apply mul_right_cancel₀ power
    rw [value, value, exponent, zpow_add₀ (by norm_num), zpow_natCast] at same
    push_cast
    linear_combination same
  have divides : 10 ∣ a.coefficient := by
    rw [Nat.cast_inj.1 scaled, Nat.pow_succ]
    exact Dvd.intro_left (b.coefficient * 10 ^ k) (by ring)
  exact lowest.elim some fun not => not divides

/-- There is only one decimal in lowest terms for each number, up to the exponent of zero. -/
theorem wrapped_value_eq {a b : Decimal} (left : a.IsLowest) (right : b.IsLowest)
    (same : a.value = b.value) :
    a.coefficient = b.coefficient ∧ a.wrapped.value = b.wrapped.value := by
  by_cases zero : a.coefficient = 0
  · have other : b.coefficient = 0 := value_eq_zero.1 (same.symm.trans (value_eq_zero.2 zero))
    simp [zero, other, wrapped, value]
  · have nonzero : b.coefficient ≠ 0 := fun none =>
      zero (value_eq_zero.1 (same.trans (value_eq_zero.2 none)))
    have exponent : a.exponent = b.exponent :=
      Int.le_antisymm (exponent_le_of_isLowest right nonzero same.symm)
        (exponent_le_of_isLowest left zero same)
    have power : (10 : ℚ) ^ b.exponent ≠ 0 := zpow_ne_zero _ (by norm_num)
    have coefficient : a.coefficient = b.coefficient := by
      rw [value, value, exponent] at same
      exact Nat.cast_inj.1 (mul_right_cancel₀ power same)
    exact ⟨coefficient, by rw [wrapped, wrapped, coefficient, exponent]⟩

end Decimal

theorem Bytes.digit_bounds {c : UInt8} (digit : isDigit c = true) (nonzero : c ≠ 48) :
    1 ≤ (c - 48).toNat ∧ (c - 48).toNat ≤ 9 := by
  simp only [isDigit, Bool.and_eq_true, decide_eq_true_eq] at digit
  have lower := UInt8.le_iff_toNat_le.1 digit.1
  have upper := UInt8.le_iff_toNat_le.1 digit.2
  have other : c.toNat ≠ (48 : UInt8).toNat := fun same => nonzero (UInt8.toNat_inj.1 same)
  rw [UInt8.toNat_sub_of_le c 48 digit.1]
  simp only [UInt8.reduceToNat] at lower upper other ⊢
  omega

namespace Numeral

def decimal (n : Numeral) : Decimal :=
  ⟨digitsValue n.digits, n.scale⟩

/-- Moving zeros behind the digits into the scale changes no value. -/
theorem popZeros_spec (scale : Int) (s : Bytes) (digits : AllDigits s) :
    (popZeros scale s).decimal.value = (⟨s.reverse, scale⟩ : Numeral).decimal.value ∧
      (popZeros scale s).decimal.IsLowest := by
  fun_induction popZeros scale s with
  | case1 scale c s ih =>
      obtain ⟨value, lowest⟩ := ih fun d inside => digits d (List.mem_cons_of_mem 48 inside)
      refine ⟨value.trans ?_, lowest⟩
      have zero : digitsValue [48] = 0 := rfl
      simp only [decimal, Decimal.value]
      rw [List.reverse_cons (a := 48), digitsValue_append, zero, zpow_add₀ (by norm_num)]
      push_cast
      simp only [List.length_singleton]
      ring
  | case2 scale s other =>
      refine ⟨rfl, ?_⟩
      simp only [decimal, Decimal.IsLowest]
      cases s with
      | nil => exact .inl rfl
      | cons c s =>
          have last : digitsValue (c :: s).reverse =
              digitsValue s.reverse * 10 + (c - 48).toNat := by
            rw [List.reverse_cons, digitsValue_append]
            simp [digitsValue]
          by_cases zero : c = 48
          · cases s with
            | nil =>
                refine .inl ?_
                rw [zero]
                rfl
            | cons d s => exact absurd (other d s (by rw [zero])) id
          · have digit := digit_bounds (digits c List.mem_cons_self) zero
            refine .inr ?_
            rw [last]
            omega

theorem stripZeros_spec {n : Numeral} (digits : AllDigits n.digits) :
    n.stripZeros.decimal.value = n.decimal.value ∧ n.stripZeros.decimal.IsLowest := by
  have reversed : AllDigits n.digits.reverse := fun c inside =>
    digits c (List.mem_reverse.1 inside)
  have spec := popZeros_spec n.scale n.digits.reverse reversed
  rw [List.reverse_reverse] at spec
  exact spec

end Numeral

namespace Decimal64

theorem mantissaOf_toNat (s : Bytes) : (mantissaOf s).toNat = digitsValue s % 2 ^ 64 := by
  have step (m : UInt64) (n : Nat) (wraps : m.toNat = n % 2 ^ 64) :
      (s.foldl (fun m c => m * 10 + (c - 48).toUInt64) m).toNat =
        s.foldl (fun n c => 10 * n + (c - 48).toNat) n % 2 ^ 64 := by
    induction s generalizing m n with
    | nil => exact wraps
    | cons c s ih =>
        rw [List.foldl_cons, List.foldl_cons]
        apply ih _ _
        rw [UInt64.toNat_add, UInt64.toNat_mul, wraps, UInt8.toNat_toUInt64]
        change ((n % 2 ^ 64 * 10) % 2 ^ 64 + _) % 2 ^ 64 = _
        omega
  exact step 0 0 rfl

/-- Moving zeros into the exponent changes no value. -/
theorem normalise_spec (d : Decimal64) :
    d.normalise.value = d.value ∧ (d.normalise.mantissa = 0 ∨ d.normalise.mantissa % 10 ≠ 0) := by
  fun_induction normalise d with
  | case1 d trailing ih =>
      refine ⟨ih.1.trans ?_, ih.2⟩
      have rest : d.mantissa.toNat % 10 = 0 := by
        have := congrArg UInt64.toNat trailing.2
        rwa [UInt64.toNat_mod] at this
      have split : d.mantissa.toNat = d.mantissa.toNat / 10 * 10 := by omega
      have divided : (d.mantissa / 10).toNat = d.mantissa.toNat / 10 := UInt64.toNat_div _ _
      simp only [value]
      rw [divided, zpow_add₀ (by norm_num), split, Nat.mul_div_cancel _ (by decide)]
      push_cast
      ring
  | case2 d last =>
      exact ⟨rfl, by tauto⟩

def decimal (d : Decimal64) : Decimal :=
  ⟨d.mantissa.toNat, d.exponent⟩

theorem decimal_wrapped (d : Decimal64) : d.decimal.wrapped.value = d.value := by
  rw [Decimal.wrapped_eq d.mantissa.toNat_lt]
  rfl

theorem decimal_isLowest {d : Decimal64} (last : d.mantissa = 0 ∨ d.mantissa % 10 ≠ 0) :
    d.decimal.IsLowest := by
  rcases last with zero | last
  · exact .inl (congrArg UInt64.toNat zero)
  · refine .inr fun divides => last (UInt64.toNat_inj.1 ?_)
    rw [UInt64.toNat_mod]
    exact Nat.mod_eq_zero_of_dvd divides

theorem value_eq_zero {d : Decimal64} : d.value = 0 ↔ d.mantissa = 0 := by
  have power : (10 : ℚ) ^ d.exponent ≠ 0 := zpow_ne_zero _ (by norm_num)
  simp [value, power, ← UInt64.toNat_inj]

/-- The decimal read off a numeral, its coefficient cut down to 64 bits. -/
theorem ofNumeral_value {n : Numeral} :
    (ofNumeral n).value = n.stripZeros.decimal.wrapped.value := by
  unfold ofNumeral
  rw [(normalise_spec _).1, value, mantissaOf_toNat]
  rfl

/-- Of two decimals taken from binary numbers or integers divisibility is decided as if both were
cut down to 64 bits. -/
theorem isMultiple_wrapped {v d : Decimal64} {a b : Decimal} (left : v.value = a.wrapped.value)
    (right : d.value = b.wrapped.value) :
    v.isMultiple d = true ↔
      b.wrapped.coefficient ≠ 0 ∧ ∃ k : Int, a.wrapped.value = k * b.wrapped.value := by
  rw [isMultiple_iff, left, right, ne_eq, ← value_eq_zero, right, Decimal.value_eq_zero]

end Decimal64

end DocSchema
