import DocSchema.Proofs.Divisibility

set_option autoImplicit false

namespace DocSchema.Decimal64

def sum? (a b : UInt64) : Option UInt64 :=
  if a.toNat + b.toNat < 2 ^ 64 then some (a + b) else none

def difference? (a b : UInt64) : Option UInt64 :=
  if b.toNat ≤ a.toNat then some (a - b) else none

def product? (a b : UInt64) : Option UInt64 :=
  if a.toNat * b.toNat < 2 ^ 64 then some (a * b) else none

def remainder? (a m : UInt64) : Option UInt64 :=
  if m = 0 then none else some (a % m)

/-- How far the exponent `b` is below `a`, if that is at most `limit`. -/
def distance? (limit : Nat) (a b : Int) : Option Nat :=
  if b ≤ a ∧ a - b ≤ limit then some (a - b).toNat else none

def addMod? (a b m : UInt64) : Option UInt64 := do
  let room ← difference? m b
  if room ≤ a then difference? a room else sum? a b

/-- Doubling, checked. It also fails if bits of `b` are left over. -/
def mulAddMod? (m : UInt64) : (bits : Nat) → (sum a b : UInt64) → Option UInt64
  | 0, sum, _, b => if b = 0 then some sum else none
  | bits + 1, sum, a, b =>
    if b = 0 then some sum
    else do
      let sum ← if b % 2 = 1 then addMod? sum a m else some sum
      let a ← addMod? a a m
      mulAddMod? m bits sum a (b / 2)

def mulMod? (a b m : UInt64) : Option UInt64 := do
  let a ← remainder? a m
  mulAddMod? m 64 0 a b

def scaleMod? (m : UInt64) : (k : Nat) → (r : UInt64) → Option UInt64
  | 0, r => some r
  | k + 1, r => if r = 0 then some 0 else do scaleMod? m k (← mulMod? r 10 m)

/-- The product `m * 10 ^ k` or that it does not fit in 64 bits, checked. -/
def scaleChecked? : (k : Nat) → (m : UInt64) → Option (Option UInt64)
  | 0, m => some (some m)
  | k + 1, m =>
      if (UInt64.size - 1) / 10 < m.toNat then some none else do scaleChecked? k (← product? m 10)

/-- Whether `value` is an integer multiple of `divisor`, checked, with exponents that are at most
`limit` apart. -/
def isMultiple? (limit : Nat) (value divisor : Decimal64) : Option Bool :=
  if divisor.mantissa = 0 then some false
  else if value.mantissa = 0 then some true
  else if divisor.exponent ≤ value.exponent then do
    let remainder ← remainder? value.mantissa divisor.mantissa
    let scale ← distance? limit value.exponent divisor.exponent
    let remainder ← scaleMod? divisor.mantissa scale remainder
    return remainder == 0
  else do
    let scale ← distance? limit divisor.exponent value.exponent
    match ← scaleChecked? scale divisor.mantissa with
    | some scaled => return (← remainder? value.mantissa scaled) == 0
    | none => return false

theorem remainder?_eq (a m : UInt64) (positive : 0 < m.toNat) : remainder? a m = some (a % m) := by
  have nonzero : m ≠ 0 := fun zero => by simp [zero] at positive
  exact if_neg nonzero

theorem addMod?_eq (a b m : UInt64) (left : a.toNat < m.toNat) (right : b.toNat < m.toNat) :
    addMod? a b m = some (addMod a b m) := by
  have bound := m.toNat_lt
  have room : difference? m b = some (m - b) := if_pos (Nat.le_of_lt right)
  have difference : (m - b).toNat = m.toNat - b.toNat :=
    UInt64.toNat_sub_of_le m b (UInt64.le_iff_toNat_le.2 (Nat.le_of_lt right))
  rw [addMod?, room, Option.bind_eq_bind, Option.bind_some, addMod]
  by_cases carries : m - b ≤ a
  · rw [if_pos carries, if_pos carries, difference?, if_pos (UInt64.le_iff_toNat_le.1 carries)]
  · have below : ¬ (m - b).toNat ≤ a.toNat := fun above => carries (UInt64.le_iff_toNat_le.2 above)
    rw [if_neg carries, if_neg carries, sum?, if_pos (by omega)]

theorem addMod_toNat_lt (a b m : UInt64) (left : a.toNat < m.toNat) (right : b.toNat < m.toNat) :
    (addMod a b m).toNat < m.toNat := by
  rw [addMod_toNat a b m left right]
  exact Nat.mod_lt _ (by omega)

/-- Doubling keeps the residues `sum` and `a` below the modulus, so no step of it leaves 64 bits. -/
theorem mulAddMod?_eq (m : UInt64) (bits : Nat) (sum a b : UInt64) (sumLess : sum.toNat < m.toNat)
    (factorLess : a.toNat < m.toNat) (short : b.toNat < 2 ^ bits) :
    mulAddMod? m bits sum a b = some (mulAddMod m bits sum a b) := by
  induction bits generalizing sum a b with
  | zero =>
      have none : b = 0 := UInt64.toNat_inj.1 (by simpa using short)
      exact if_pos none
  | succ bits ih =>
      have half : (b / 2).toNat < 2 ^ bits := by
        rw [UInt64.toNat_div, show (2 : UInt64).toNat = 2 from rfl]
        omega
      have doubled := addMod?_eq a a m factorLess factorLess
      have doubledLess := addMod_toNat_lt a a m factorLess factorLess
      unfold mulAddMod? mulAddMod
      by_cases done : b = 0
      · rw [if_pos done, if_pos done]
      rw [if_neg done, if_neg done]
      by_cases odd : b % 2 = 1
      · rw [if_pos odd, if_pos odd, addMod?_eq sum a m sumLess factorLess, doubled]
        exact ih _ _ _ (addMod_toNat_lt sum a m sumLess factorLess) doubledLess half
      · rw [if_neg odd, if_neg odd, doubled]
        exact ih _ _ _ sumLess doubledLess half

theorem mulMod?_eq (a b m : UInt64) (positive : 0 < m.toNat) :
    mulMod? a b m = some (mulMod a b m) := by
  have less : (a % m).toNat < m.toNat := by
    rw [UInt64.toNat_mod]
    exact Nat.mod_lt _ positive
  rw [mulMod?, remainder?_eq a m positive]
  exact mulAddMod?_eq m 64 0 (a % m) b positive less b.toNat_lt

theorem scaleMod?_eq (m : UInt64) (positive : 0 < m.toNat) (k : Nat) (r : UInt64) :
    scaleMod? m k r = some (scaleMod m k r) := by
  induction k generalizing r with
  | zero => rfl
  | succ k ih =>
      unfold scaleMod? scaleMod
      by_cases stops : r = 0
      · rw [if_pos stops, if_pos stops]
      · rw [if_neg stops, if_neg stops, mulMod?_eq r 10 m positive]
        exact ih _

/-- Scaling up multiplies only what is small enough. -/
theorem scaleChecked?_eq (k : Nat) (m : UInt64) : scaleChecked? k m = some (scale? k m) := by
  induction k generalizing m with
  | zero => rfl
  | succ k ih =>
      have size : UInt64.size = 2 ^ 64 := rfl
      unfold scaleChecked? scale?
      by_cases large : (UInt64.size - 1) / 10 < m.toNat
      · rw [if_pos large, if_pos large]
      · have fits : product? m 10 = some (m * 10) := if_pos (show m.toNat * 10 < 2 ^ 64 by omega)
        rw [if_neg large, if_neg large, fits]
        exact ih _

/-- The numbers that are scaled or divided by are no zeros, and the exponents are close enough. -/
theorem isMultiple?_eq (v d : Decimal64) (limit : Nat)
    (near : (v.exponent - d.exponent).natAbs ≤ limit) :
    isMultiple? limit v d = some (v.isMultiple d) := by
  unfold isMultiple? isMultiple
  by_cases zero : d.mantissa = 0
  · rw [if_pos zero, if_pos zero]
  have positive : 0 < d.mantissa.toNat :=
    Nat.pos_of_ne_zero fun none => zero (UInt64.toNat_inj.1 none)
  rw [if_neg zero, if_neg zero]
  by_cases nothing : v.mantissa = 0
  · rw [if_pos nothing, if_pos nothing]
  rw [if_neg nothing, if_neg nothing]
  by_cases coarser : d.exponent ≤ v.exponent
  · have distance : distance? limit v.exponent d.exponent = some (v.exponent - d.exponent).toNat :=
      if_pos ⟨coarser, by omega⟩
    rw [if_pos coarser, if_pos coarser, remainder?_eq _ _ positive, distance]
    simp only [Option.bind_eq_bind, Option.bind_some, scaleMod?_eq _ positive]
    rfl
  · have distance : distance? limit d.exponent v.exponent = some (d.exponent - v.exponent).toNat :=
      if_pos ⟨by omega, by omega⟩
    have exact := scale?_spec (d.exponent - v.exponent).toNat d.mantissa positive
    rw [if_neg coarser, if_neg coarser, distance, Option.bind_eq_bind, Option.bind_some,
      scaleChecked?_eq, Option.bind_eq_bind, Option.bind_some]
    cases fits : scale? (d.exponent - v.exponent).toNat d.mantissa with
    | none => rfl
    | some scaled =>
        rw [fits] at exact
        have nonzero : 0 < scaled.toNat := by
          rw [exact]
          exact Nat.mul_pos positive (Nat.pow_pos (by decide))
        dsimp only
        rw [remainder?_eq _ _ nonzero]
        rfl

/-- Divisibility is exact, and neither it nor the product of residues leaves 64 bits. The difference
that is taken from the larger exponent fits wherever the distance of the exponents does, whatever
the largest number there. The product of residues is the residue of the product. -/
theorem isMultiple_exact (v d : Decimal64) :
    (v.isMultiple d = true ↔ d.mantissa ≠ 0 ∧ ∃ k : Int, v.value = k * d.value) ∧
      (∀ limit, (v.exponent - d.exponent).natAbs ≤ limit →
        isMultiple? limit v d = some (v.isMultiple d)) ∧
      ∀ x y m : UInt64, 1 ≤ m →
        mulMod? x y m = some (mulMod x y m) ∧
        (mulMod x y m).toNat = x.toNat * y.toNat % m.toNat := by
  refine ⟨isMultiple_iff v d, isMultiple?_eq v d, fun x y m positive => ?_⟩
  have above : 0 < m.toNat := UInt64.le_iff_toNat_le.1 positive
  exact ⟨mulMod?_eq x y m above, mulMod_toNat x y m above⟩

/-- Ten times a fifth of the largest mantissa is twice that mantissa. Each doubling carries. -/
theorem isMultiple_exact_largest :
    isMultiple? 2147483647 ⟨3689348814741910323, 5⟩ ⟨18446744073709551615, 4⟩ = some true ∧
      mulMod? 18446744073709551613 18446744073709551612 18446744073709551615 = some 6 := by
  obtain ⟨-, fits, products⟩ := isMultiple_exact ⟨3689348814741910323, 5⟩ ⟨18446744073709551615, 4⟩
  obtain ⟨checked, -⟩ :=
    products 18446744073709551613 18446744073709551612 18446744073709551615 (by decide)
  exact ⟨(fits _ (by decide)).trans (by decide +kernel), checked.trans (by decide +kernel)⟩

end DocSchema.Decimal64
