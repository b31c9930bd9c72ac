import Mathlib.Tactic.Ring
import DocSchema.Proofs.SameNumber

set_option autoImplicit false

namespace DocSchema

namespace Binary64

section Quotients

variable {n k : Nat}

private theorem roundShift_cases (n k : Nat) : ∃ quotient rest :
    Nat, n = quotient * 2 ^ k + rest ∧ rest < 2 ^ k ∧
    ((roundShift n k = quotient ∧ 2 * rest ≤ 2 ^ k ∧ (2 * rest = 2 ^ k → quotient % 2 = 0)) ∨
      (roundShift n k = quotient + 1 ∧ 2 ^ k ≤ 2 * rest ∧
        (2 * rest = 2 ^ k → quotient % 2 = 1))) := by
  refine ⟨n / 2 ^ k, n % 2 ^ k, (Nat.div_add_mod' n _).symm, Nat.mod_lt _ (Nat.two_pow_pos k), ?_⟩
  unfold roundShift
  dsimp only
  split <;> omega

/-- The distance to the rounded quotient is at most half a step, and half a step from an even one
only. -/
theorem roundShift_error : 2 * ((roundShift n k : Int) * 2 ^ k - n).natAbs ≤ 2 ^ k ∧
    (2 * ((roundShift n k : Int) * 2 ^ k - n).natAbs = 2 ^ k → roundShift n k % 2 = 0) := by
  obtain ⟨quotient, rest, split, small, ⟨rounded, half, even⟩ | ⟨rounded, half, odd⟩⟩ :=
    roundShift_cases n k
  · have error : ((quotient : Int) * 2 ^ k - n).natAbs = rest := by
      rw [split]
      push_cast
      omega
    rw [rounded, error]
    exact ⟨half, even⟩
  · have error : (((quotient + 1 : Nat) : Int) * 2 ^ k - n).natAbs = 2 ^ k - rest := by
      have next : ((quotient + 1 : Nat) : Int) * 2 ^ k = quotient * 2 ^ k + 2 ^ k := by
        push_cast
        ring
      have power : ((2 ^ k : Nat) : Int) = 2 ^ k := by push_cast; rfl
      rw [split, next]
      push_cast
      omega
    rw [rounded, error]
    omega

/-- No multiple of the step lies nearer, and another one lies as near only to an even quotient. -/
theorem roundShift_least (m : Int) :
    ((roundShift n k : Int) * 2 ^ k - n).natAbs ≤ (m * 2 ^ k - n).natAbs ∧
      (m ≠ roundShift n k → (m * 2 ^ k - n).natAbs = ((roundShift n k : Int) * 2 ^ k - n).natAbs →
        roundShift n k % 2 = 0) := by
  obtain ⟨error, tie⟩ := roundShift_error (n := n) (k := k)
  by_cases same : m = roundShift n k
  · rw [same]
    exact ⟨le_rfl, fun other => absurd rfl other⟩
  · have apart : 1 ≤ (m - roundShift n k).natAbs := by omega
    have step : 2 ^ k ≤ (m * 2 ^ k - roundShift n k * 2 ^ k).natAbs := by
      rw [← sub_mul, Int.natAbs_mul, Int.natAbs_pow]
      exact Nat.le_mul_of_pos_left _ apart
    refine ⟨by omega, fun _ equal => tie (by omega)⟩

theorem roundShift_bounds {top : Nat} (least : 2 ^ top ≤ n) (greatest : n < 2 ^ (top + 1))
    (inside : k ≤ top) :
    2 ^ (top - k) ≤ roundShift n k ∧ roundShift n k ≤ 2 ^ (top - k + 1) := by
  obtain ⟨quotient, rest, split, small, rounded⟩ := roundShift_cases n k
  have low : 2 ^ (top - k) * 2 ^ k = 2 ^ top := by
    rw [← Nat.pow_add, Nat.sub_add_cancel inside]
  have high : 2 ^ (top - k + 1) * 2 ^ k = 2 ^ (top + 1) := by
    rw [Nat.pow_succ, Nat.mul_right_comm, low, Nat.pow_succ]
  have positive := Nat.two_pow_pos k
  have below : 2 ^ (top - k) < quotient + 1 := by
    refine Nat.lt_of_mul_lt_mul_right (a := 2 ^ k) ?_
    rw [low, Nat.add_mul]
    omega
  have above : quotient < 2 ^ (top - k + 1) := by
    refine Nat.lt_of_mul_lt_mul_right (a := 2 ^ k) ?_
    rw [high]
    omega
  omega

end Quotients

@[irreducible]
def one : Nat :=
  2 ^ 1074

theorem two_pow_units (k : Nat) : (2 : Int) ^ (k + 1074) = 2 ^ k * one := by
  unfold one
  rw [Int.natCast_pow]
  exact pow_add 2 k 1074

theorem one_pos : 0 < one := by
  unfold one
  exact pow_pos two_pos _

/-- The value of a finite number, in units of 2^-1074: its point on the extended line. -/
def units (x : Binary64) : Int :=
  if x.isNegative then -x.magnitude else x.magnitude

/-- How far a finite number is from `n`, in units of 2^-1074. -/
def distance (x : Binary64) (n : Nat) : Nat :=
  (x.units - n * one).natAbs

/-- Whether `x` is the number nearest to `n`: no finite number lies nearer, and where another one
lies as near, the significand of `x` is even. -/
structure IsNearest (x : Binary64) (n : Nat) : Prop where
  finite : x.isFinite = true
  least : ∀ y : Binary64, y.isFinite = true → x.distance n ≤ y.distance n
  even : ∀ y : Binary64, y.isFinite = true → y.units ≠ x.units → y.distance n = x.distance n →
    x.significand % 2 = 0

theorem distance_of_units {x : Binary64} {a : Int} (value : x.units = a * one) (n : Nat) :
    x.distance n = (a - n).natAbs * one := by
  rw [distance, value, ← sub_mul, Int.natAbs_mul, Int.natAbs_natCast]

/-- What lies below a whole number that is at most `n` is farther from `n`. -/
theorem distance_lt {x : Binary64} {a : Int} {n : Nat} (inside : a ≤ n) (less : x.units < a * one) :
    (a - n).natAbs * one < x.distance n := by
  rw [distance]
  generalize one = u at less ⊢
  have step : a * u ≤ n * u := Int.mul_le_mul_of_nonneg_right inside (Int.natCast_nonneg u)
  have scaled : (a - n).natAbs * u = (a * u - n * u).natAbs := by
    rw [← sub_mul, Int.natAbs_mul, Int.natAbs_natCast]
  omega

/-- A number that is not below `2 ^ (52 + e)` units is a multiple of `2 ^ e` units. -/
theorem units_cases (x : Binary64) (e : Nat) : x.units < 2 ^ (52 + e) ∨ ∃ m :
    Int, x.units = m * 2 ^ e := by
  by_cases less : x.units < 2 ^ (52 + e)
  · exact .inl less
  · have large : 2 ^ (52 + e) ≤ x.magnitude := by
      have value : x.units ≤ x.magnitude := by
        unfold units
        split <;> omega
      have cast : ((2 ^ (52 + e) : Nat) : Int) = 2 ^ (52 + e) := by push_cast; rfl
      omega
    have power : 2 ^ (52 + e) < 2 ^ (53 + x.scale) := by
      refine Nat.lt_of_le_of_lt large ?_
      rw [Nat.pow_add, magnitude]
      exact Nat.mul_lt_mul_of_pos_right x.significand_lt (Nat.two_pow_pos _)
    have scaled : e ≤ x.scale := by
      have exponents := (Nat.pow_lt_pow_iff_right (by decide : 1 < 2)).1 power
      omega
    have multiple : (x.magnitude : Int) = (x.significand * 2 ^ (x.scale - e) : Nat) * 2 ^ e := by
      rw [magnitude, ← Nat.sub_add_cancel scaled, Nat.pow_add, Nat.add_sub_cancel]
      push_cast
      ring
    refine .inr ?_
    unfold units
    split
    · exact ⟨-(x.significand * 2 ^ (x.scale - e) : Nat), by rw [multiple, neg_mul]⟩
    · exact ⟨_, multiple⟩

/-- A significand placed behind its exponent, also one that carries into the exponent. -/
theorem placed {e significand : Nat} (least : 2 ^ 52 ≤ significand)
    (greatest : significand ≤ 2 ^ 53)
    (fits : e < 2045) {x : Binary64} (bits : x.bits.toNat = e * 2 ^ 52 + significand) :
    x.isFinite = true ∧ x.units = (significand : Int) * 2 ^ e ∧
    x.significand % 2 = significand % 2 := by
  have positive : x.isNegative = false := by
    unfold isNegative
    rw [decide_eq_false_iff_not]
    omega
  unfold units isFinite magnitude scale
  rw [if_neg (by rw [positive]; decide)]
  obtain carried | inside := Nat.eq_or_lt_of_le greatest
  · have exponent : x.exponent = e + 2 := by unfold exponent; omega
    have fraction : x.significand = 2 ^ 52 := by
      unfold Binary64.significand fraction
      rw [if_neg (by omega)]
      omega
    rw [exponent, fraction, carried]
    refine ⟨by simp; omega, ?_, by decide⟩
    rw [show e + 2 - 1 = e + 1 from rfl]
    push_cast
    ring
  · have exponent : x.exponent = e + 1 := by unfold exponent; omega
    have fraction : x.significand = significand := by
      unfold Binary64.significand fraction
      rw [if_neg (by omega)]
      omega
    rw [exponent, fraction]
    refine ⟨by simp; omega, ?_, rfl⟩
    push_cast
    rfl

/-- A whole number is the value of its float, or its bits beyond the significand are rounded. -/
theorem ofUInt64_cases (n : UInt64) :
    ((ofUInt64 n).isFinite = true ∧ (ofUInt64 n).units = (n.toNat : Int) * one) ∨
      ∃ k : Nat, 2 ^ (52 + k) ≤ n.toNat ∧ (ofUInt64 n).isFinite = true ∧
        (ofUInt64 n).units = (roundShift n.toNat k : Int) * 2 ^ k * one ∧
        (ofUInt64 n).significand % 2 = roundShift n.toNat k % 2 := by
  by_cases zero : n = 0
  · subst zero
    exact .inl (by decide +kernel)
  · have nonzero : n.toNat ≠ 0 := fun none => zero (UInt64.toNat_inj.1 none)
    have below := Nat.log2_self_le nonzero
    have above : n.toNat < 2 ^ (n.toNat.log2 + 1) := Nat.lt_log2_self
    have bound : n.toNat.log2 < 64 := (Nat.log2_lt nonzero).2 n.toNat_lt
    generalize top : n.toNat.log2 = t at below above bound
    have bits (s : Nat) (greatest : s ≤ 2 ^ 53) :
        (UInt64.ofNat ((t + 1022) * 2 ^ 52 + s)).toNat = (t + 1022) * 2 ^ 52 + s := by
      rw [UInt64.toNat_ofNat', Nat.mod_eq_of_lt]
      omega
    by_cases small : t ≤ 52
    · have value : (ofUInt64 n).bits =
          UInt64.ofNat ((t + 1022) * 2 ^ 52 + n.toNat * 2 ^ (52 - t)) := by
        rw [ofUInt64, if_neg zero]
        simp only [top, if_pos small]
      have join (a b c : Nat) (sum : a + b = c) : 2 ^ a * 2 ^ b = 2 ^ c := by
        rw [← Nat.pow_add, sum]
      have least : 2 ^ 52 ≤ n.toNat * 2 ^ (52 - t) := by
        rw [← join t (52 - t) 52 (by omega)]
        exact Nat.mul_le_mul_right _ below
      have greatest : n.toNat * 2 ^ (52 - t) ≤ 2 ^ 53 := by
        rw [← join (t + 1) (52 - t) 53 (by omega)]
        exact Nat.mul_le_mul_right _ (Nat.le_of_lt above)
      obtain ⟨finite, units, -⟩ := placed least greatest (by omega) (value ▸ bits _ greatest)
      refine .inl ⟨finite, units.trans ?_⟩
      have scaled : 2 ^ (52 - t) * 2 ^ (t + 1022) = one := by
        unfold one
        exact join _ _ 1074 (by omega)
      exact_mod_cast (Nat.mul_assoc _ _ _).trans (congrArg (n.toNat * ·) scaled)
    · obtain ⟨k, shifted⟩ : ∃ k, t = 52 + k := ⟨t - 52, by omega⟩
      subst shifted
      have value : (ofUInt64 n).bits =
          UInt64.ofNat ((52 + k + 1022) * 2 ^ 52 + roundShift n.toNat k) := by
        rw [ofUInt64, if_neg zero]
        simp only [top, if_neg small, Nat.add_sub_cancel_left]
      obtain ⟨least, greatest⟩ := roundShift_bounds (k := k) below above (by omega)
      rw [Nat.add_sub_cancel] at least greatest
      obtain ⟨finite, units, parity⟩ := placed least greatest (by omega) (value ▸ bits _ greatest)
      refine .inr ⟨k, below, finite, units.trans ?_, parity⟩
      rw [show 52 + k + 1022 = k + 1074 by omega, two_pow_units, mul_assoc]

/-- The conversion of a whole number is to the nearest number, a tie to the even significand. -/
theorem ofUInt64_isNearest (n : UInt64) : (ofUInt64 n).IsNearest n.toNat := by
  obtain ⟨finite, exact⟩ | ⟨k, large, finite, value, parity⟩ := ofUInt64_cases n
  · have none : (ofUInt64 n).distance n.toNat = 0 := by
      rw [distance, exact, sub_self]
      rfl
    refine ⟨finite, fun y _ => none ▸ Nat.zero_le _, fun y _ other equal => absurd ?_ other⟩
    rw [none, distance, Int.natAbs_eq_zero, sub_eq_zero] at equal
    rw [equal, exact]
  · have here := distance_of_units value n.toNat
    -- A number below the leading power of two is farther away than that power.
    have cases (y : Binary64) : (ofUInt64 n).distance n.toNat < y.distance n.toNat ∨
        ∃ m : Int, y.units = m * 2 ^ k * one := by
      obtain less | ⟨m, multiple⟩ := y.units_cases (k + 1074)
      · have nearer := (roundShift_least (n := n.toNat) (k := k) (2 ^ 52)).1
        have inside : (2 : Int) ^ 52 * 2 ^ k ≤ n.toNat := by
          rw [← pow_add]
          exact_mod_cast large
        rw [← add_assoc, two_pow_units, pow_add] at less
        rw [here]
        exact .inl (Nat.lt_of_le_of_lt (Nat.mul_le_mul_right _ nearer) (distance_lt inside less))
      · exact .inr ⟨m, by rw [multiple, two_pow_units, mul_assoc]⟩
    refine ⟨finite, fun y _ => ?_, fun y _ other equal => ?_⟩
    · obtain farther | ⟨m, multiple⟩ := cases y
      · exact Nat.le_of_lt farther
      · rw [here, distance_of_units multiple]
        exact Nat.mul_le_mul_right _ (roundShift_least m).1
    · obtain farther | ⟨m, multiple⟩ := cases y
      · exact absurd equal (Nat.ne_of_gt farther)
      · rw [here, distance_of_units multiple] at equal
        rw [parity]
        refine (roundShift_least m).2 (fun same => other ?_)
          (Nat.eq_of_mul_eq_mul_right one_pos equal)
        rw [multiple, value, same]

end Binary64

end DocSchema
