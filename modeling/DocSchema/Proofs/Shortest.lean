import Mathlib.Order.Lattice
import Mathlib.Tactic.Positivity
import Mathlib.Tactic.Ring
import DocSchema.Number.Layout

set_option autoImplicit false

namespace DocSchema

namespace Neighbourhood

theorem holds_iff {n : Neighbourhood} {point : Nat} (inside : n.holds point = true) :
    n.low ≤ point ∧ point ≤ n.high := by
  unfold holds at inside
  split at inside <;> simp only [Bool.and_eq_true, decide_eq_true_eq] at inside <;> omega

/-- A nearest multiple lies in the interval. -/
theorem holds_nearest? {n : Neighbourhood} {p : Int} {c : Nat} (found : n.nearest? p = some c) :
    (n.scaled p).1.holds (c * (n.scaled p).2) = true := by
  unfold nearest? at found
  generalize n.scaled p = pair at found
  obtain ⟨scaled, unit⟩ := pair
  dsimp only at found ⊢
  split at found
  case h_1 => cases found
  case h_2 below above =>
    cases found
    exact below
  case h_3 below above =>
    cases found
    exact above
  case h_4 below above =>
    rw [Option.some.injEq] at found
    rw [← found]
    split
    · exact below
    · exact above

/-- A nearest multiple is one of the two neighbours of the value. -/
theorem nearest?_le {n : Neighbourhood} {p : Int} {c : Nat} (found : n.nearest? p = some c) :
    c ≤ n.value * 10 ^ (-p).toNat + 1 := by
  unfold nearest? at found
  have value : (n.scaled p).1.value = n.value * 10 ^ (-p).toNat := rfl
  generalize n.scaled p = pair at found value
  obtain ⟨scaled, unit⟩ := pair
  dsimp only at found value
  have below : scaled.value / unit ≤ n.value * 10 ^ (-p).toNat := by
    rw [value]
    exact Nat.div_le_self _ _
  split at found
  case h_1 => cases found
  case h_2 =>
    cases found
    omega
  case h_3 =>
    cases found
    omega
  case h_4 =>
    rw [Option.some.injEq] at found
    rw [← found]
    exact (ite_le_sup ..).trans (sup_le (below.trans (Nat.le_succ _)) (Nat.succ_le_succ below))

/-- An interval that reaches further above the value than the grid is wide meets the grid. -/
theorem isSome_nearest? {n : Neighbourhood} {p : Int} (sorted : n.low ≤ n.value)
    (wide : n.value * 10 ^ (-p).toNat + (n.scaled p).2 < n.high * 10 ^ (-p).toNat) :
    n.nearest? p ≠ none := by
  have positive : 0 < (n.scaled p).2 := by
    unfold scaled
    positivity
  have low : (n.scaled p).1.low ≤ (n.scaled p).1.value := Nat.mul_le_mul_right _ sorted
  have high : (n.scaled p).1.value + (n.scaled p).2 < (n.scaled p).1.high := wide
  unfold nearest?
  generalize n.scaled p = pair at low high positive
  obtain ⟨scaled, unit⟩ := pair
  dsimp only at low high positive ⊢
  have split := Nat.div_add_mod scaled.value unit
  have rest := Nat.mod_lt scaled.value positive
  have next : (scaled.value / unit + 1) * unit = unit * (scaled.value / unit) + unit := by ring
  have above : scaled.holds ((scaled.value / unit + 1) * unit) = true := by
    unfold holds
    split <;> simp only [Bool.and_eq_true, decide_eq_true_eq] <;> omega
  rw [above]
  split <;> simp_all

end Neighbourhood

namespace Binary64

theorem neighbourhood_spec (x : Binary64) (some : x.significand ≠ 0) :
    0 < (Neighbourhood.of x).low ∧ (Neighbourhood.of x).low ≤ (Neighbourhood.of x).value ∧
      (Neighbourhood.of x).value + 2 ≤ (Neighbourhood.of x).high ∧
      (Neighbourhood.of x).high ≤ 6 * x.magnitude := by
  have unit : 1 ≤ 2 ^ x.scale := Nat.one_le_two_pow
  have least : 2 ^ x.scale ≤ x.significand * 2 ^ x.scale :=
    Nat.le_mul_of_pos_left _ (Nat.pos_of_ne_zero some)
  have value : 4 * x.significand * 2 ^ x.scale = 4 * (x.significand * 2 ^ x.scale) :=
    Nat.mul_assoc ..
  unfold Neighbourhood.of magnitude
  dsimp only
  rw [value]
  generalize x.significand * 2 ^ x.scale = product at least ⊢
  generalize 2 ^ x.scale = unit at unit least ⊢
  split <;> omega

theorem value_le (x : Binary64) : (Neighbourhood.of x).value ≤ 10 ^ (17 + x.scale) := by
  have significand : 4 * x.significand ≤ 10 ^ 17 := by
    unfold significand fraction
    split <;> omega
  calc
    (Neighbourhood.of x).value = 4 * x.significand * 2 ^ x.scale := rfl
    _ ≤ 10 ^ 17 * 10 ^ x.scale :=
      Nat.mul_le_mul significand (Nat.pow_le_pow_left (by decide) _)
    _ = 10 ^ (17 + x.scale) := (Nat.pow_add ..).symm

/-- The finest grid meets every interval, so the search ends with a decimal. -/
theorem shortest_spec {x : Binary64} (some : x.significand ≠ 0) :
    x.shortest.exponent ∈ Decimal.exponents ∧
      (Neighbourhood.of x).nearest? x.shortest.exponent = .some x.shortest.coefficient := by
  obtain ⟨-, sorted, wide, -⟩ := x.neighbourhood_spec some
  unfold shortest
  rw [if_neg some]
  dsimp only
  cases found : Decimal.exponents.findSome? fun p =>
      ((Neighbourhood.of x).nearest? p).map fun c => (⟨c, p⟩ : Decimal) with
  | none =>
      have listed : (-324 : Int) ∈ Decimal.exponents :=
        List.mem_map.2 ⟨633, List.mem_range.2 (by decide), rfl⟩
      have missed := List.findSome?_eq_none_iff.1 found _ listed
      refine absurd (Option.map_eq_none_iff.1 missed) (Neighbourhood.isSome_nearest? sorted ?_)
      have grid : 2 ^ 1076 < 2 * 10 ^ 324 := by decide +kernel
      have unit : ((Neighbourhood.of x).scaled (-324)).2 = 2 ^ 1076 := by
        simp [Neighbourhood.scaled]
      have factor : (-(-324 : Int)).toNat = 324 := rfl
      rw [unit, factor]
      calc
        _ < (Neighbourhood.of x).value * 10 ^ 324 + 2 * 10 ^ 324 := Nat.add_lt_add_left grid _
        _ = ((Neighbourhood.of x).value + 2) * 10 ^ 324 := (Nat.add_mul ..).symm
        _ ≤ (Neighbourhood.of x).high * 10 ^ 324 := Nat.mul_le_mul_right _ wide
  | some d =>
      obtain ⟨p, listed, hit⟩ := List.exists_of_findSome?_eq_some found
      obtain ⟨c, nearest, rfl⟩ := Option.map_eq_some_iff.1 hit
      exact ⟨listed, nearest⟩

/-- A shortest decimal has no more digits than a number can need. -/
theorem shortest_bounds (x : Binary64) :
    x.shortest.exponent.natAbs ≤ 324 ∧ ∃ k ≤ 3000, x.shortest.coefficient < 10 ^ (k + 1) := by
  by_cases zero : x.significand = 0
  · unfold shortest
    rw [if_pos zero]
    exact ⟨by decide, 0, by decide, by decide⟩
  · obtain ⟨listed, nearest⟩ := shortest_spec zero
    have digits := Neighbourhood.nearest?_le nearest
    obtain ⟨k, less, grid⟩ := List.mem_map.1 listed
    have few := List.mem_range.1 less
    have near : x.shortest.exponent.natAbs ≤ 324 := by omega
    have scale : x.scale ≤ 2046 := by
      unfold scale exponent
      omega
    refine ⟨near, 17 + x.scale + (-x.shortest.exponent).toNat, by omega, ?_⟩
    have product : (Neighbourhood.of x).value * 10 ^ (-x.shortest.exponent).toNat ≤
        10 ^ (17 + x.scale + (-x.shortest.exponent).toNat) := by
      rw [Nat.pow_add _ (17 + x.scale)]
      exact Nat.mul_le_mul_right _ x.value_le
    have one : 1 ≤ 10 ^ (17 + x.scale + (-x.shortest.exponent).toNat) :=
      Nat.one_le_pow _ _ (by decide)
    rw [Nat.pow_succ]
    omega

/-- The shortest decimal of a number other than zero is not zero. -/
theorem coefficient_shortest_ne_zero {x : Binary64} (some : x.significand ≠ 0) :
    x.shortest.coefficient ≠ 0 := by
  obtain ⟨low, -, -, -⟩ := x.neighbourhood_spec some
  have inside := (Neighbourhood.holds_iff (Neighbourhood.holds_nearest? (shortest_spec some).2)).1
  intro zero
  rw [zero, Nat.zero_mul] at inside
  have positive : 0 < (Neighbourhood.of x).low * 10 ^ (-x.shortest.exponent).toNat :=
    Nat.mul_pos low (Nat.pow_pos (by decide))
  exact absurd positive (Nat.not_lt.2 inside)

/-- A number whose shortest decimal is a multiple of ten has a whole part. -/
theorem whole_ne_zero {x : Binary64} (some : x.significand ≠ 0) (tens : 0 < x.shortest.exponent) :
    x.whole ≠ 0 := by
  obtain ⟨-, -, -, high⟩ := x.neighbourhood_spec some
  have inside := (Neighbourhood.holds_iff (Neighbourhood.holds_nearest? (shortest_spec some).2)).2
  have factor : (-x.shortest.exponent).toNat = 0 := by omega
  simp only [Neighbourhood.scaled] at inside
  have least : 2 ^ 1076 * 10 ≤ (Neighbourhood.of x).high := by
    calc
      2 ^ 1076 * 10 ≤ 2 ^ 1076 * 10 ^ x.shortest.exponent.toNat :=
        Nat.mul_le_mul_left _ (Nat.le_self_pow (by omega) 10)
      _ ≤ x.shortest.coefficient * (2 ^ 1076 * 10 ^ x.shortest.exponent.toNat) :=
        Nat.le_mul_of_pos_left _ (Nat.pos_of_ne_zero (coefficient_shortest_ne_zero some))
      _ ≤ (Neighbourhood.of x).high * 10 ^ (-x.shortest.exponent).toNat := inside
      _ = (Neighbourhood.of x).high := by rw [factor, Nat.pow_zero, Nat.mul_one]
  have units : 6 * 2 ^ 1074 ≤ 2 ^ 1076 * 10 := by decide +kernel
  have enough : 2 ^ 1074 ≤ x.magnitude :=
    Nat.le_of_mul_le_mul_left (units.trans (least.trans high)) (by decide)
  unfold whole
  exact (Nat.div_pos enough (by positivity)).ne'

theorem coefficient_spelled_ne_zero {x : Binary64} (some : x.significand ≠ 0) :
    x.spelled.coefficient ≠ 0 := by
  unfold spelled
  dsimp only
  by_cases whole : (x.shortest.isPlain && decide (0 < x.shortest.exponent)) = true
  · rw [if_pos whole]
    simp only [Bool.and_eq_true, decide_eq_true_eq] at whole
    exact whole_ne_zero some whole.2
  · rw [if_neg whole]
    exact coefficient_shortest_ne_zero some

end Binary64

end DocSchema
