import Mathlib.Algebra.Order.Field.Rat
import Mathlib.Tactic.LinearCombination
import Mathlib.Tactic.Ring
import DocSchema.Number.Divisibility

set_option autoImplicit false

namespace DocSchema.Decimal64

theorem addMod_toNat (a b m : UInt64) (left : a.toNat < m.toNat) (right : b.toNat < m.toNat) :
    (addMod a b m).toNat = (a.toNat + b.toNat) % m.toNat := by
  have bound := m.toNat_lt
  have difference : (m - b).toNat = m.toNat - b.toNat :=
    UInt64.toNat_sub_of_le m b (UInt64.le_iff_toNat_le.2 (by omega))
  unfold addMod
  by_cases carries : m - b ≤ a
  · have above := UInt64.le_iff_toNat_le.1 carries
    rw [if_pos carries, UInt64.toNat_sub_of_le a (m - b) carries, difference,
      Nat.mod_eq_sub_mod (by omega), Nat.mod_eq_of_lt (by omega)]
    omega
  · have below : ¬ m.toNat - b.toNat ≤ a.toNat := fun above =>
      carries (UInt64.le_iff_toNat_le.2 (by omega))
    rw [if_neg carries, UInt64.toNat_add, Nat.mod_eq_of_lt (by omega),
      Nat.mod_eq_of_lt (by omega)]

private theorem residue_add_mul (s a t m : Nat) :
    (s % m + a % m * t) % m = (s + a * t) % m := by
  rw [Nat.add_mod, Nat.mod_mod, Nat.mod_mul_mod, ← Nat.add_mod]

/-- Doubling adds the product bit by bit. The residues `sum` and `a` stay below the modulus. -/
theorem mulAddMod_toNat (m : UInt64) (bits : Nat) (sum a b : UInt64) (sumLess : sum.toNat < m.toNat)
    (factorLess : a.toNat < m.toNat) (short : b.toNat < 2 ^ bits) :
    (mulAddMod m bits sum a b).toNat = (sum.toNat + a.toNat * b.toNat) % m.toNat := by
  induction bits generalizing sum a b with
  | zero =>
      have none : b.toNat = 0 := by omega
      simp only [mulAddMod, none, Nat.mul_zero, Nat.add_zero, Nat.mod_eq_of_lt sumLess]
  | succ bits ih =>
      have positive : 0 < m.toNat := by omega
      have half : (b / 2).toNat = b.toNat / 2 := UInt64.toNat_div b 2
      have low : (b % 2).toNat = b.toNat % 2 := UInt64.toNat_mod b 2
      have doubled : (addMod a a m).toNat = (a.toNat + a.toNat) % m.toNat :=
        addMod_toNat a a m factorLess factorLess
      have doubledLess : (addMod a a m).toNat < m.toNat := by
        rw [doubled]
        exact Nat.mod_lt _ positive
      have halfShort : (b / 2).toNat < 2 ^ bits := by
        rw [half]
        omega
      have split := Nat.div_add_mod b.toNat 2
      unfold mulAddMod
      by_cases done : b = 0
      · simp only [done, ↓reduceIte, UInt64.toNat_zero, Nat.mul_zero, Nat.add_zero,
          Nat.mod_eq_of_lt sumLess]
      rw [if_neg done]
      by_cases odd : b % 2 = 1
      · have added := addMod_toNat sum a m sumLess factorLess
        have addedLess : (addMod sum a m).toNat < m.toNat := by
          rw [added]
          exact Nat.mod_lt _ positive
        have bit : b.toNat % 2 = 1 := by rw [← low, odd]; rfl
        rw [bit] at split
        rw [if_pos odd, ih _ _ _ addedLess doubledLess halfShort, added, doubled, half,
          residue_add_mul]
        congr 1
        calc
          _ = sum.toNat + a.toNat * (2 * (b.toNat / 2) + 1) := by ring
          _ = _ := by rw [split]
      · have bit : b.toNat % 2 = 0 := by
          have not : b.toNat % 2 ≠ 1 := fun one => odd (UInt64.toNat_inj.1 (low.trans one))
          omega
        rw [bit] at split
        rw [if_neg odd, ih _ _ _ sumLess doubledLess halfShort, doubled, half,
          ← Nat.mod_eq_of_lt sumLess, residue_add_mul, Nat.mod_eq_of_lt sumLess]
        congr 1
        calc
          _ = sum.toNat + a.toNat * (2 * (b.toNat / 2) + 0) := by ring
          _ = _ := by rw [split]

theorem mulMod_toNat (a b m : UInt64) (positive : 0 < m.toNat) :
    (mulMod a b m).toNat = a.toNat * b.toNat % m.toNat := by
  have residue : (a % m).toNat = a.toNat % m.toNat := UInt64.toNat_mod a m
  have less : (a % m).toNat < m.toNat := by
    rw [residue]
    exact Nat.mod_lt _ positive
  unfold mulMod
  rw [mulAddMod_toNat m 64 0 (a % m) b positive less b.toNat_lt, residue, UInt64.toNat_zero,
    Nat.zero_add, Nat.mod_mul_mod]

theorem scaleMod_toNat (m : UInt64) (positive : 0 < m.toNat) (k : Nat) (r : UInt64)
    (less : r.toNat < m.toNat) : (scaleMod m k r).toNat = r.toNat * 10 ^ k % m.toNat := by
  induction k generalizing r with
  | zero => simp only [scaleMod, Nat.pow_zero, Nat.mul_one, Nat.mod_eq_of_lt less]
  | succ k ih =>
      have scaled : (mulMod r 10 m).toNat = r.toNat * 10 % m.toNat := mulMod_toNat r 10 m positive
      unfold scaleMod
      by_cases stops : r = 0
      · simp [stops]
      · rw [if_neg stops, ih _ (by rw [scaled]; exact Nat.mod_lt _ positive), scaled,
          Nat.mod_mul_mod, Nat.pow_succ]
        congr 1
        ring

/-- Scaling up gives the exact product, or the product does not fit. -/
theorem scale?_spec (k : Nat) (m : UInt64) (positive : 0 < m.toNat) :
    match scale? k m with
    | some scaled => scaled.toNat = m.toNat * 10 ^ k
    | none => 2 ^ 64 ≤ m.toNat * 10 ^ k := by
  induction k generalizing m with
  | zero => simp only [scale?, Nat.pow_zero, Nat.mul_one]
  | succ k ih =>
      have one : 1 ≤ 10 ^ k := Nat.one_le_pow _ _ (by decide)
      have power : m.toNat * 10 ^ (k + 1) = m.toNat * 10 * 10 ^ k := by ring
      have size : UInt64.size = 2 ^ 64 := rfl
      unfold scale?
      by_cases large : (UInt64.size - 1) / 10 < m.toNat
      · rw [if_pos large, power]
        calc
          2 ^ 64 ≤ m.toNat * 10 * 1 := by omega
          _ ≤ m.toNat * 10 * 10 ^ k := Nat.mul_le_mul_left _ one
      · have fits : (m * 10).toNat = m.toNat * 10 := by
          rw [UInt64.toNat_mul]
          exact Nat.mod_eq_of_lt (show m.toNat * 10 < 2 ^ 64 by omega)
        rw [if_neg large, power, ← fits]
        exact ih (m * 10) (by omega)

/-- Both mantissas are compared on the scale of the smaller exponent. -/
theorem isMultiple_iff_dvd (v d : Decimal64) :
    v.isMultiple d = true ↔ d.mantissa ≠ 0 ∧
      d.mantissa.toNat * 10 ^ (d.exponent - v.exponent).toNat ∣
        v.mantissa.toNat * 10 ^ (v.exponent - d.exponent).toNat := by
  unfold isMultiple
  by_cases zero : d.mantissa = 0
  · simp [zero]
  have positive : 0 < d.mantissa.toNat :=
    Nat.pos_of_ne_zero fun none => zero (UInt64.toNat_inj.1 none)
  by_cases nothing : v.mantissa = 0
  · simp [zero, nothing]
  have something : 0 < v.mantissa.toNat :=
    Nat.pos_of_ne_zero fun none => nothing (UInt64.toNat_inj.1 none)
  rw [if_neg zero, if_neg nothing]
  by_cases coarser : d.exponent ≤ v.exponent
  · have residue : (v.mantissa % d.mantissa).toNat = v.mantissa.toNat % d.mantissa.toNat :=
      UInt64.toNat_mod _ _
    have remainder := scaleMod_toNat d.mantissa positive (v.exponent - d.exponent).toNat
      (v.mantissa % d.mantissa) (by rw [residue]; exact Nat.mod_lt _ positive)
    rw [residue, Nat.mod_mul_mod] at remainder
    have level : (d.exponent - v.exponent).toNat = 0 := by omega
    rw [if_pos coarser, level, Nat.pow_zero, Nat.mul_one, Nat.dvd_iff_mod_eq_zero, ← remainder,
      beq_iff_eq, ← UInt64.toNat_inj]
    simp [zero]
  · have level : (v.exponent - d.exponent).toNat = 0 := by omega
    have scaled := scale?_spec (d.exponent - v.exponent).toNat d.mantissa positive
    rw [if_neg coarser, level, Nat.pow_zero, Nat.mul_one]
    cases fits : scale? (d.exponent - v.exponent).toNat d.mantissa with
    | some product =>
        rw [fits] at scaled
        rw [beq_iff_eq, ← UInt64.toNat_inj, UInt64.toNat_mod, scaled, Nat.dvd_iff_mod_eq_zero]
        simp [zero]
    | none =>
        rw [fits] at scaled
        have small := v.mantissa.toNat_lt
        simp only [Bool.false_eq_true, ne_eq, zero, not_false_eq_true, true_and, false_iff]
        intro divides
        have bound := Nat.le_of_dvd something divides
        omega

def value (d : Decimal64) : ℚ :=
  d.mantissa.toNat * 10 ^ d.exponent

private theorem ten_zpow (a b : Int) :
    (10 : ℚ) ^ a = 10 ^ min a b * ((10 ^ (a - b).toNat : Nat) : ℚ) := by
  have split : a = min a b + ((a - b).toNat : Int) := by omega
  rw [Nat.cast_pow, Nat.cast_ofNat, ← zpow_natCast, ← zpow_add₀ (by norm_num), ← split]

/-- Divisibility in 64-bit arithmetic is divisibility of the numbers, except by zero. -/
theorem isMultiple_iff (v d : Decimal64) :
    v.isMultiple d = true ↔ d.mantissa ≠ 0 ∧ ∃ k : Int, v.value = k * d.value := by
  rw [isMultiple_iff_dvd]
  apply and_congr_right
  intro _
  have unit : (10 : ℚ) ^ min v.exponent d.exponent ≠ 0 := zpow_ne_zero _ (by norm_num)
  rw [← Int.natCast_dvd_natCast]
  apply exists_congr
  intro k
  rw [value, value, ten_zpow v.exponent d.exponent, ten_zpow d.exponent v.exponent,
    min_comm d.exponent v.exponent]
  constructor
  · intro equal
    have cleared : ((v.mantissa.toNat * 10 ^ (v.exponent - d.exponent).toNat : Nat) : ℚ) =
        (d.mantissa.toNat * 10 ^ (d.exponent - v.exponent).toNat : Nat) * k := by
      exact_mod_cast equal
    rw [Nat.cast_mul, Nat.cast_mul] at cleared
    linear_combination (10 : ℚ) ^ min v.exponent d.exponent * cleared
  · intro equal
    have cleared : ((v.mantissa.toNat * 10 ^ (v.exponent - d.exponent).toNat : Nat) : ℚ) =
        (d.mantissa.toNat * 10 ^ (d.exponent - v.exponent).toNat : Nat) * k := by
      rw [Nat.cast_mul, Nat.cast_mul]
      apply mul_left_cancel₀ unit
      linear_combination equal
    exact_mod_cast cleared

end DocSchema.Decimal64
