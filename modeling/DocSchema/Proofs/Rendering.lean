import DocSchema.Proofs.Numerals
import DocSchema.Proofs.Shortest

set_option autoImplicit false

namespace DocSchema

open Bytes

inductive IsNumeral : Bytes → ℚ → Prop
  | layout {whole fraction mark : Bytes} {e : Int} (left : AllDigits whole) (some : whole ≠ [])
      (right : AllDigits fraction) (marked : IsMark mark e) :
      IsNumeral (layout whole fraction mark)
        (digitsValue (whole ++ fraction) * 10 ^ (e - fraction.length))

namespace IsNumeral

theorem digits {s : Bytes} (all : AllDigits s) (some : s ≠ []) : IsNumeral s (digitsValue s) := by
  have shape : IsNumeral (Bytes.layout s [] []) _ := .layout all some (by simp [AllDigits]) .none
  simpa [Bytes.layout] using shape

theorem point {whole fraction : Bytes} (left : AllDigits whole) (some : whole ≠ [])
    (right : AllDigits fraction) (behind : fraction ≠ []) :
    IsNumeral (whole ++ 46 :: fraction)
      (digitsValue (whole ++ fraction) * 10 ^ (-(fraction.length : Int))) := by
  have shape := IsNumeral.layout left some right .none
  simpa [Bytes.layout, behind] using shape

/-- A reader finds digits and a scale, by which they spell the number. -/
theorem read? {s : Bytes} {q : ℚ} (numeral : IsNumeral s q) :
    ∃ n : Numeral, Numeral.read? s = .some n ∧ AllDigits n.digits ∧
      q = digitsValue n.digits * 10 ^ n.scale := by
  cases numeral with
  | layout left some right marked =>
      exact ⟨_, Numeral.read?_layout left right marked, left.append right, rfl⟩

theorem unsignedValue {s : Bytes} {q : ℚ} (numeral : IsNumeral s q) :
    Bytes.unsignedValue s = q := by
  cases numeral with
  | layout left some right marked => exact unsignedValue_layout left right marked

theorem head_ne_minus {s t : Bytes} {q : ℚ} (numeral : IsNumeral s q) : s ≠ 45 :: t := by
  cases numeral with
  | @layout whole fraction mark e left some right marked =>
      cases whole with
      | nil => exact absurd rfl some
      | cons c whole =>
          intro same
          exact (isDigit_ne (left c List.mem_cons_self)).2.1 (List.cons.inj same).1

end IsNumeral

namespace Decimal

def value (d : Decimal) : ℚ :=
  d.coefficient * 10 ^ d.exponent

theorem digits_spec (d : Decimal) :
    AllDigits d.digits ∧ d.digits ≠ [] ∧ digitsValue d.digits = d.coefficient :=
  ofNat_spec d.coefficient

theorem isNumeral_positional (d : Decimal) : IsNumeral d.positional d.value := by
  obtain ⟨all, some, value⟩ := d.digits_spec
  have places : d.point = d.digits.length + d.exponent := rfl
  have mark : utf8 "." = [46] := rfl
  have zeroMark : utf8 "0." = [48, 46] := rfl
  unfold positional Decimal.value
  by_cases whole : 0 ≤ d.exponent
  · obtain ⟨k, scale⟩ := Int.eq_ofNat_of_zero_le whole
    have shape := IsNumeral.digits (all.append (.replicate_zero k)) (by simp [some])
    rw [digitsValue_append, digitsValue_zeros, value, List.length_replicate] at shape
    rw [if_pos whole, scale, Int.toNat_natCast, zpow_natCast]
    simpa using shape
  rw [if_neg whole]
  by_cases inside : 0 < d.point
  · have short : d.point.toNat < d.digits.length := by omega
    have long : d.point.toNat ≠ 0 := by omega
    have before : d.digits.take d.point.toNat ≠ [] := by
      rw [ne_eq, List.take_eq_nil_iff, not_or]
      exact ⟨long, some⟩
    have behind : d.digits.drop d.point.toNat ≠ [] := by
      rw [ne_eq, List.drop_eq_nil_iff]
      omega
    have shape : IsNumeral (d.digits.take d.point.toNat ++ 46 :: d.digits.drop d.point.toNat) _ :=
      IsNumeral.point (fun c before => all c (List.mem_of_mem_take before)) before
        (fun c behind => all c (List.mem_of_mem_drop behind)) behind
    have scale : -((d.digits.drop d.point.toNat).length : Int) = d.exponent := by
      rw [List.length_drop]
      omega
    rw [List.take_append_drop, value, scale] at shape
    rw [if_pos inside, mark, List.append_assoc, List.singleton_append]
    exact shape
  · have shape : IsNumeral
        ([48] ++ 46 :: (List.replicate (-d.point).toNat (digit 0) ++ d.digits)) _ :=
      IsNumeral.point (.replicate_zero 1) (List.cons_ne_nil _ _)
        ((AllDigits.replicate_zero _).append all) (by simp [some])
    have scale : -((List.replicate (-d.point).toNat (digit 0) ++ d.digits).length : Int) =
        d.exponent := by
      rw [List.length_append, List.length_replicate]
      omega
    have spelled : digitsValue ([48] ++ (List.replicate (-d.point).toNat (digit 0) ++ d.digits)) =
        d.coefficient := by
      rw [digitsValue_append, digitsValue_append, digitsValue_zeros, value]
      simp [digitsValue]
    rw [spelled, scale] at shape
    rw [if_neg inside, zeroMark, List.append_assoc]
    exact shape

theorem isMark_exponentMark {e : Int} (small : e.natAbs < 2 ^ 31) : IsMark (exponentMark e) e := by
  obtain ⟨all, some, value⟩ := ofNat_spec e.natAbs
  have shape : exponentMark e =
      101 :: (if e < 0 then 45 else 43) ::
        (List.replicate (if (ofNat e.natAbs).length < 2 then 1 else 0) (digit 0) ++
          ofNat e.natAbs) := by
    change [101] ++ (if e < 0 then [45] else [43]) ++
      (if (ofNat e.natAbs).length < 2 then [48] else []) ++ ofNat e.natAbs = _
    split <;> split <;> rfl
  generalize (if (ofNat e.natAbs).length < 2 then 1 else 0) = zeros at shape
  have digits : AllDigits (List.replicate zeros (digit 0) ++ ofNat e.natAbs) :=
    (AllDigits.replicate_zero _).append all
  have behind : List.replicate zeros (digit 0) ++ ofNat e.natAbs ≠ [] := by simp [some]
  have spelled : digitsValue (List.replicate zeros (digit 0) ++ ofNat e.natAbs) = e.natAbs := by
    rw [digitsValue_append, digitsValue_zeros, value, Nat.zero_mul, Nat.zero_add]
  have less : digitsValue (List.replicate zeros (digit 0) ++ ofNat e.natAbs) < 2 ^ 31 := by
    rw [spelled]
    exact small
  rw [shape]
  by_cases negative : e < 0
  · have marked := IsMark.down digits behind less
    rw [spelled, show -(e.natAbs : Int) = e by omega] at marked
    rw [if_pos negative]
    exact marked
  · have marked := IsMark.up digits behind less
    rw [spelled, show (e.natAbs : Int) = e by omega] at marked
    rw [if_neg negative]
    exact marked

theorem isNumeral_scientific (d : Decimal) (small : (d.point - 1).natAbs < 2 ^ 31) :
    IsNumeral d.scientific d.value := by
  obtain ⟨all, some, value⟩ := d.digits_spec
  have places : d.point = d.digits.length + d.exponent := rfl
  have marked := isMark_exponentMark small
  unfold scientific Decimal.value
  split
  case h_1 none => exact absurd none some
  case h_2 c single =>
    rw [single, List.length_singleton] at places
    rw [single] at all value
    have shape : IsNumeral (Bytes.layout [c] [] (exponentMark (d.point - 1))) _ :=
      .layout all (List.cons_ne_nil _ _) (by simp [AllDigits]) marked
    rw [List.append_nil, value, places] at shape
    simpa [Bytes.layout, places] using shape
  case h_3 c rest several split =>
    have behind : rest ≠ [] := several
    rw [split, List.length_cons] at places
    rw [split] at all value
    have first : AllDigits [c] := fun b single => all b (by simp_all)
    have shape : IsNumeral (Bytes.layout [c] rest (exponentMark (d.point - 1))) _ :=
      .layout first (List.cons_ne_nil _ _)
        (fun b inside => all b (List.mem_cons_of_mem c inside)) marked
    rw [List.singleton_append, value, show d.point - 1 - (rest.length : Int) = d.exponent by omega]
      at shape
    simpa [Bytes.layout, behind, show utf8 "." = [46] from rfl] using shape

end Decimal

namespace Binary64

/-- The exponent of ten that a shortest decimal is written with is far from overflowing. -/
theorem natAbs_point_shortest (x : Binary64) : (x.shortest.point - 1).natAbs < 2 ^ 31 := by
  obtain ⟨near, k, few, bound⟩ := x.shortest_bounds
  have length := length_ofNat_le bound
  have some := List.length_pos_iff.2 x.shortest.digits_spec.2.1
  have places : x.shortest.point = x.shortest.digits.length + x.shortest.exponent := rfl
  have digits : x.shortest.digits = ofNat x.shortest.coefficient := rfl
  rw [← digits] at length
  omega

theorem spelled_eq_shortest {x : Binary64} (long : ¬ x.shortest.isPlain = true) :
    x.spelled = x.shortest := by
  simp [spelled, long]

/-- The plain form of a finite number is its sign in front of a numeral. -/
theorem isNumeral_text {x : Binary64} (finite : x.isFinite = true) :
    ∃ s, IsNumeral s x.spelled.value ∧ x.text = x.sign ++ s := by
  have number : x.isNaN = false := by
    simp_all [isFinite, isNaN]
  unfold text
  rw [number, finite]
  simp only [Bool.false_eq_true, ↓reduceIte, Bool.not_true]
  by_cases plain : x.shortest.isPlain = true
  · rw [if_pos plain]
    exact ⟨_, x.spelled.isNumeral_positional, rfl⟩
  · rw [if_neg plain, spelled_eq_shortest plain]
    exact ⟨_, x.shortest.isNumeral_scientific x.natAbs_point_shortest, rfl⟩

/-- A reader passes over the sign in the plain form. -/
theorem read?_text {x : Binary64} (finite : x.isFinite = true) :
    ∃ n : Numeral, Numeral.read? x.text = some n ∧ AllDigits n.digits ∧
      x.spelled.value = digitsValue n.digits * 10 ^ n.scale := by
  obtain ⟨s, numeral, shape⟩ := isNumeral_text finite
  obtain ⟨n, read, digits, value⟩ := numeral.read?
  refine ⟨n, ?_, digits, value⟩
  rw [shape, sign]
  split
  · exact (Numeral.read?_minus s).trans read
  · exact read

/-- The plain form spells the decimal that it is made of, behind the sign. -/
theorem decimalValue_text {x : Binary64} (finite : x.isFinite = true) :
    decimalValue x.text = if x.isNegative then -x.spelled.value else x.spelled.value := by
  obtain ⟨s, numeral, shape⟩ := isNumeral_text finite
  rw [shape, sign]
  split
  · change -unsignedValue s = _
    rw [numeral.unsignedValue]
  · rw [List.nil_append, decimalValue_of_head fun t => numeral.head_ne_minus, numeral.unsignedValue]

end Binary64

end DocSchema
