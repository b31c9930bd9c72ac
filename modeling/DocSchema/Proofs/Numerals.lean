import Mathlib.Algebra.Order.Field.Rat
import Mathlib.Tactic.FieldSimp
import Mathlib.Tactic.Ring
import DocSchema.Number.Divisibility

set_option autoImplicit false

namespace DocSchema

namespace Bytes

/-- The number that digits with an optional point among them spell by place value. -/
def positionalValue (s : Bytes) : ℚ :=
  let whole := s.takeWhile (· != 46)
  let fraction := (s.dropWhile (· != 46)).tail
  digitsValue whole + digitsValue fraction / 10 ^ fraction.length

/-- The integer that digits behind an optional sign spell. -/
def signedValue : Bytes → Int
  | 43 :: s => digitsValue s
  | 45 :: s => -(digitsValue s : Int)
  | s => digitsValue s

/-- The number that a text without sign spells, in positional or in scientific notation. -/
def unsignedValue (s : Bytes) : ℚ :=
  positionalValue (s.takeWhile (· != 101)) * 10 ^ signedValue (s.dropWhile (· != 101)).tail

def decimalValue : Bytes → ℚ
  | 45 :: s => -unsignedValue s
  | s => unsignedValue s

theorem decimalValue_of_head {s : Bytes} (unsigned : ∀ t, s ≠ 45 :: t) :
    decimalValue s = unsignedValue s := by
  unfold decimalValue
  split
  case h_1 t => exact absurd rfl (unsigned t)
  case h_2 => rfl

def AllDigits (s : Bytes) : Prop :=
  ∀ c ∈ s, isDigit c = true

theorem AllDigits.append {s t : Bytes} (first : AllDigits s) (second : AllDigits t) :
    AllDigits (s ++ t) := by
  intro c inside
  rcases List.mem_append.1 inside with left | right
  · exact first c left
  · exact second c right

theorem AllDigits.replicate_zero (k : Nat) : AllDigits (List.replicate k (digit 0)) := by
  intro c inside
  rw [List.eq_of_mem_replicate inside]
  decide

/-- A digit is neither a sign nor a point nor the mark of an exponent. -/
theorem isDigit_ne {c : UInt8} (digit : isDigit c = true) :
    c ≠ 43 ∧ c ≠ 45 ∧ c ≠ 46 ∧ c ≠ 69 ∧ c ≠ 101 := by
  refine ⟨?_, ?_, ?_, ?_, ?_⟩ <;> rintro rfl <;> exact absurd digit (by decide)

private theorem foldl_digits (s : Bytes) (n : Nat) :
    s.foldl (fun n c => 10 * n + (c - 48).toNat) n = n * 10 ^ s.length + digitsValue s := by
  induction s generalizing n with
  | nil => simp [digitsValue]
  | cons c s ih =>
      rw [digitsValue, List.foldl_cons, List.foldl_cons, ih, ih, List.length_cons]
      ring

theorem digitsValue_append (s t : Bytes) :
    digitsValue (s ++ t) = digitsValue s * 10 ^ t.length + digitsValue t := by
  rw [digitsValue, List.foldl_append, foldl_digits]
  rfl

theorem digitsValue_zeros (k : Nat) : digitsValue (List.replicate k (digit 0)) = 0 := by
  induction k with
  | zero => rfl
  | succ k ih => exact ih

theorem digit_toNat {d : Nat} (less : d < 10) :
    (digit d - 48).toNat = d ∧ isDigit (digit d) = true := by
  have cases := (by decide : ∀ e : Fin 10, (digit e - 48).toNat = e ∧ isDigit (digit e) = true)
  exact cases ⟨d, less⟩

theorem ofNat_spec (n : Nat) :
    AllDigits (ofNat n) ∧ ofNat n ≠ [] ∧ digitsValue (ofNat n) = n := by
  induction n using Nat.strongRecOn with
  | ind n ih =>
    have last (d : Nat) (less : d < 10) : AllDigits [digit d] ∧ digitsValue [digit d] = d := by
      refine ⟨?_, by simp [digitsValue, (digit_toNat less).1]⟩
      intro c inside
      rw [List.mem_singleton.1 inside]
      exact (digit_toNat less).2
    unfold ofNat
    by_cases small : n < 10
    · rw [if_pos small]
      exact ⟨(last n small).1, List.cons_ne_nil _ _, (last n small).2⟩
    · have front := ih (n / 10) (by omega)
      have back := last (n % 10) (by omega)
      rw [if_neg small]
      refine ⟨front.1.append back.1, by simp, ?_⟩
      rw [digitsValue_append, front.2.2, back.2, List.length_singleton, Nat.pow_one]
      omega

theorem length_ofNat_le {n k : Nat} (less : n < 10 ^ (k + 1)) : (ofNat n).length ≤ k + 1 := by
  induction k generalizing n with
  | zero =>
      unfold ofNat
      rw [if_pos (by simpa using less), List.length_singleton]
  | succ k ih =>
      unfold ofNat
      by_cases small : n < 10
      · rw [if_pos small, List.length_singleton]
        omega
      · have shorter := ih (n := n / 10) (by rw [Nat.pow_succ] at less; omega)
        rw [if_neg small, List.length_append, List.length_singleton]
        omega

inductive IsMark : Bytes → Int → Prop
  | none : IsMark [] 0
  | up {s : Bytes} (digits : AllDigits s) (some : s ≠ []) (small : digitsValue s < 2 ^ 31) :
      IsMark (101 :: 43 :: s) (digitsValue s)
  | down {s : Bytes} (digits : AllDigits s) (some : s ≠ []) (small : digitsValue s < 2 ^ 31) :
      IsMark (101 :: 45 :: s) (-(digitsValue s : Int))

/-- Digits before and behind a point, which stands only before digits, and the mark of an
exponent. -/
def layout (whole fraction mark : Bytes) : Bytes :=
  whole ++ (if fraction = [] then [] else 46 :: fraction) ++ mark

theorem takeWhile_digits {p : UInt8 → Bool} {s : Bytes} (digits : AllDigits s)
    (passes : ∀ c, isDigit c = true → p c = true) (t : Bytes) :
    (s ++ t).takeWhile p = s ++ t.takeWhile p ∧ (s ++ t).dropWhile p = t.dropWhile p := by
  have all : ∀ c ∈ s, p c = true := fun c inside => passes c (digits c inside)
  exact ⟨List.takeWhile_append_of_pos all, List.dropWhile_append_of_pos all⟩

theorem positionalValue_layout {whole : Bytes} (left : AllDigits whole) (fraction : Bytes) :
    positionalValue (layout whole fraction []) =
      digitsValue (whole ++ fraction) * 10 ^ (-(fraction.length : Int)) := by
  have passes : ∀ c, isDigit c = true → (c != 46) = true := fun c digit =>
    bne_iff_ne.2 (isDigit_ne digit).2.2.1
  have split := takeWhile_digits left passes
  unfold positionalValue layout
  rw [List.append_nil, (split _).1, (split _).2, digitsValue_append, zpow_neg, zpow_natCast]
  by_cases absent : fraction = []
  · simp [absent, digitsValue]
  · have power : (10 : ℚ) ^ fraction.length ≠ 0 := pow_ne_zero _ (by norm_num)
    rw [if_neg absent]
    simp only [List.takeWhile_cons, List.dropWhile_cons, bne_self_eq_false, Bool.false_eq_true,
      ↓reduceIte, List.append_nil, List.tail_cons]
    push_cast
    field_simp

theorem signedValue_mark {mark : Bytes} {e : Int} (marked : IsMark mark e) :
    signedValue mark.tail = e := by
  cases marked <;> rfl

theorem unsignedValue_layout {whole fraction mark : Bytes} {e : Int} (left : AllDigits whole)
    (right : AllDigits fraction) (marked : IsMark mark e) :
    unsignedValue (layout whole fraction mark) =
      digitsValue (whole ++ fraction) * 10 ^ (e - fraction.length) := by
  have passes : ∀ c, isDigit c = true → (c != 101) = true := fun c digit =>
    bne_iff_ne.2 (isDigit_ne digit).2.2.2.2
  have stops : mark.takeWhile (· != 101) = [] ∧ mark.dropWhile (· != 101) = mark := by
    cases marked <;> simp
  have before : (layout whole fraction mark).takeWhile (· != 101) = layout whole fraction [] ∧
      (layout whole fraction mark).dropWhile (· != 101) = mark := by
    unfold layout
    by_cases absent : fraction = []
    · rw [if_pos absent, List.append_nil, (takeWhile_digits left passes _).1,
        (takeWhile_digits left passes _).2, stops.1, stops.2]
      exact ⟨rfl, rfl⟩
    · rw [if_neg absent, List.append_assoc, (takeWhile_digits left passes _).1,
        (takeWhile_digits left passes _).2]
      simp [(takeWhile_digits right passes mark).1, (takeWhile_digits right passes mark).2, stops.1,
        stops.2]
  unfold unsignedValue
  rw [before.1, before.2, positionalValue_layout left, signedValue_mark marked, mul_assoc,
    ← zpow_add₀ (by norm_num)]
  congr 2
  ring

end Bytes

namespace Numeral

open Bytes

theorem readFrom?_digits {s : Bytes} (digits : AllDigits s) (n : Numeral) (isFraction : Bool)
    (t : Bytes) :
    n.readFrom? isFraction (s ++ t) =
      readFrom? ⟨n.digits ++ s, if isFraction then n.scale - s.length else n.scale⟩ isFraction t := by
  induction s generalizing n with
  | nil => simp
  | cons c s ih =>
      obtain ⟨-, minus, point, upper, lower⟩ := isDigit_ne (digits c List.mem_cons_self)
      rw [List.cons_append, readFrom?, if_neg minus, if_neg point, if_neg (by tauto),
        ih fun d inside => digits d (List.mem_cons_of_mem c inside)]
      cases isFraction
      · simp
      · simp only [↓reduceIte, List.append_assoc, List.singleton_append, List.length_cons,
          Nat.cast_add, Nat.cast_one]
        congr 2
        ring

theorem readNat?_digits {s : Bytes} {limit : Nat} (digits : AllDigits s) (some : s ≠ [])
    (small : digitsValue s < limit) : readNat? limit s = .some (digitsValue s) := by
  unfold readNat?
  rw [if_pos]
  simp only [Bool.and_eq_true, Bool.not_eq_true', List.isEmpty_eq_false_iff, decide_eq_true_eq,
    List.all_eq_true]
  exact ⟨⟨some, digits⟩, small⟩

theorem readInt?_digits {s : Bytes} {limit : Nat} (digits : AllDigits s) (some : s ≠ [])
    (small : digitsValue s < limit) : readInt? limit s = .some (digitsValue s : Int) := by
  have read := readNat?_digits digits some small
  cases s with
  | nil => exact absurd rfl some
  | cons c s =>
      have minus := (isDigit_ne (digits c List.mem_cons_self)).2.1
      unfold readInt?
      split
      case h_1 t same => exact absurd (List.cons.inj same).1 minus
      case h_2 =>
        rw [read]
        rfl

theorem readFrom?_mark {mark : Bytes} {e : Int} (marked : IsMark mark e) (n : Numeral)
    (isFraction : Bool) :
    n.readFrom? isFraction mark = some { n with scale := n.scale + e } := by
  cases marked with
  | none => simp [readFrom?]
  | @up s digits some small =>
      have read : readExponent? (43 :: s) = .some (digitsValue s : Int) :=
        readInt?_digits digits some small
      rw [readFrom?, if_neg (by decide), if_neg (by decide), if_pos (by decide), read,
        Option.map_some]
  | @down s digits some small =>
      have read : readExponent? (45 :: s) = .some (-(digitsValue s : Int)) := by
        change (readNat? (2 ^ 31 + 1) s).map _ = _
        rw [readNat?_digits digits some (by omega), Option.map_some, Int.ofNat_eq_natCast]
      rw [readFrom?, if_neg (by decide), if_neg (by decide), if_pos (by decide), read,
        Option.map_some]

/-- Reading finds the digits on both sides of the point, and passes over a sign in front. -/
theorem read?_layout {whole fraction mark : Bytes} {e : Int} (left : AllDigits whole)
    (right : AllDigits fraction) (marked : IsMark mark e) :
    read? (layout whole fraction mark) = some ⟨whole ++ fraction, e - fraction.length⟩ := by
  unfold read? layout
  rw [List.append_assoc, readFrom?_digits left]
  by_cases absent : fraction = []
  · simp [absent, readFrom?_mark marked]
  · rw [if_neg absent, List.cons_append, readFrom?, if_neg (by decide), if_pos rfl,
      readFrom?_digits right, readFrom?_mark marked]
    simp only [List.nil_append, Bool.false_eq_true, ↓reduceIte]
    congr 2
    ring

theorem read?_minus (s : Bytes) : read? (45 :: s) = read? s := by
  rw [read?, readFrom?, if_pos rfl, read?]

end Numeral

end DocSchema
