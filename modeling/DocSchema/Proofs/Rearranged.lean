import DocSchema.Proofs.Altered
import DocSchema.Proofs.SameNumber
import DocSchema.Proofs.SameType

set_option autoImplicit false

namespace DocSchema

namespace Binary64

variable {x y : Binary64}

def zero : Binary64 := ⟨0⟩

def negativeZero : Binary64 := ⟨0x8000000000000000⟩

def AreZeros (x y : Binary64) : Prop :=
  x = zero ∧ y = negativeZero ∨ x = negativeZero ∧ y = zero

theorem eq_of_bits (sign : x.isNegative = y.isNegative) (exponent : x.exponent = y.exponent)
    (fraction : x.fraction = y.fraction) : x = y := by
  obtain ⟨bits⟩ := x
  obtain ⟨bits'⟩ := y
  simp only [isNegative, Binary64.exponent, Binary64.fraction,
    decide_eq_decide] at sign exponent fraction
  have small := bits.toNat_lt
  have small' := bits'.toNat_lt
  exact congrArg mk (UInt64.toNat_inj.1 (by omega))

theorem eq_zero_of_magnitude (none : x.magnitude = 0) :
    x = if x.isNegative then negativeZero else zero := by
  have zero_magnitude : zero.magnitude = 0 := by decide
  have ⟨exponent, fraction⟩ := bits_of_magnitude (none.trans zero_magnitude.symm)
  split
  · next negative => exact eq_of_bits (negative.trans (by decide)) exponent fraction
  · next positive =>
      exact eq_of_bits ((Bool.eq_false_iff.2 positive).trans (by decide)) exponent fraction

/-- Equal numbers have the same bits, but for the sign of zero. -/
theorem eq_or_zeros (same : x.same y = true) : x = y ∨ x.AreZeros y := by
  obtain ⟨p, left, right⟩ := same_iff.1 same
  rcases same_cases same with ⟨finite, finite', equal⟩ | ⟨infinite, infinite'⟩
  · have ⟨exponent, fraction⟩ := bits_of_magnitude equal
    by_cases sign : x.isNegative = y.isNegative
    · exact .inl (eq_of_bits sign exponent fraction)
    · rw [extended?_finite finite] at left
      rw [extended?_finite finite', ← left, Option.some.injEq, Extended.units.injEq] at right
      have none : x.magnitude = 0 := by
        cases negative : x.isNegative <;> cases negative' : y.isNegative <;>
          rw [negative, negative'] at right sign
        · exact absurd rfl sign
        · simp at right
          omega
        · simp at right
          omega
        · exact absurd rfl sign
      have first := eq_zero_of_magnitude none
      have second := eq_zero_of_magnitude (equal.symm.trans none)
      cases negative : x.isNegative <;> cases negative' : y.isNegative <;>
        rw [negative] at first sign <;> rw [negative'] at second sign
      · exact absurd rfl sign
      · exact .inr (.inl ⟨first, second⟩)
      · exact .inr (.inr ⟨first, second⟩)
      · exact absurd rfl sign
  · have exponent {z : Binary64} (infinite : ¬ z.isFinite = true) : z.exponent = 2047 := by
      simpa [isFinite] using infinite
    have whole {z : Binary64} (infinite : ¬ z.isFinite = true) (point : z.extended? = some p) :
        z.fraction = 0 ∧ p = if z.isNegative then .negInf else .posInf := by
      rw [extended?, if_neg infinite] at point
      split at point
      · next whole => exact ⟨whole, (Option.some.inj point).symm⟩
      · cases point
    obtain ⟨fraction, first⟩ := whole infinite left
    obtain ⟨fraction', second⟩ := whole infinite' right
    refine .inl (eq_of_bits ?_ ((exponent infinite).trans (exponent infinite').symm) (fraction.trans fraction'.symm))
    have signs := first.symm.trans second
    cases negative : x.isNegative <;> cases negative' : y.isNegative <;>
      simp [negative, negative'] at signs ⊢

theorem AreZeros.same (zeros : x.AreZeros y) : x.same y = true := by
  obtain ⟨rfl, rfl⟩ | ⟨rfl, rfl⟩ := zeros <;> decide

/-- A number that equals itself is a number. -/
theorem real_of_same (same : x.same x = true) : x.isNaN = false := by
  obtain ⟨p, point, -⟩ := same_iff.1 same
  unfold extended? at point
  split at point
  · next finite => simp_all [isFinite, isNaN]
  · split at point
    · next whole => simp [isNaN, whole]
    · cases point

end Binary64

namespace Value

inductive Rearranges : Value → Value → Prop
  | entries {es fs : List (Key × Value)} (x : List (Bytes × Value)) (perm : es.Perm fs) :
      Rearranges (.node (.map es) x) (.node (.map fs) x)
  | extensions (c : Content Value) {x y : List (Bytes × Value)} (perm : x.Perm y) :
      Rearranges (.node c x) (.node c y)
  | zero {p q : Binary64} (x : List (Bytes × Value)) (zeros : p.AreZeros q) :
      Rearranges (.node (.primitive (.float p)) x) (.node (.primitive (.float q)) x)

variable {u v w : Value}

/-- The parts of a value that equals itself equal themselves. -/
theorem same_part {part : Value} (unique : v.HasUniqueKeys) (same : v.same v = true)
    (inside : part ∈ v.root.parts) : part.same part = true := by
  obtain ⟨c, x⟩ := v
  obtain ⟨contents, extensions⟩ := same_iff.1 same
  rcases List.mem_append.1 inside with inside | inside
  · cases c with
    | hole | primitive p => cases inside
    | map entries =>
        obtain ⟨e, member, rfl⟩ := List.mem_map.1 inside
        exact sameItems_of_mem (unique.entries entries rfl) contents member member
    | array items | tuple items => exact List.forall₂_same.1 (sameList_iff.1 contents) part inside
  · obtain ⟨e, member, rfl⟩ := List.mem_map.1 inside
    exact sameItems_of_mem unique.extensions extensions member member

/-- A value equals itself if it holds no NaN. -/
theorem same_self_iff (unique : v.HasUniqueKeys) : v.same v = true ↔ v.IsReal := by
  refine ⟨fun same => ?_, same_refl unique⟩
  induction unique with
  | @intro v keys names parts ih =>
      have unique : v.HasUniqueKeys := .intro keys names parts
      refine .intro (fun x content => ?_)
        fun part inside => ih part inside (same_part unique same inside)
      have contents := (same_iff.1 same).1
      rw [content] at contents
      exact Binary64.real_of_same contents

/-- Items are matched by their keys, in whatever order. -/
theorem sameItems_of_reordered {κ : Type} [DecidableEq κ] {items others : List (κ × Value)}
    (unique : (others.map (·.1)).Nodup)
    (each : Reordered (fun e f => e.1 = f.1 ∧ f.2.same e.2 = true) items others) :
    sameItems same items others = true := by
  refine sameItems_iff.2 ⟨each.length_eq, fun e member => ?_⟩
  obtain ⟨changed, pairs, perm⟩ := each
  obtain ⟨f, listed, key, equal⟩ := exists_of_mem_right pairs.flip e member
  exact ⟨f.2, key ▸ lookup?_of_mem unique (perm.mem_iff.1 listed), equal⟩

theorem reordered_of_sameItems {κ : Type} [DecidableEq κ] {items others : List (κ × Value)}
    (left : (items.map (·.1)).Nodup) (right : (others.map (·.1)).Nodup)
    (same : sameItems same items others = true) :
    Reordered (fun e f => e.1 = f.1 ∧ f.2.same e.2 = true) items others :=
  (Reordered.of_perm (sameItems_keys left same)).imp_of_mem fun _ inside _ inside' key =>
    ⟨key, sameItems_of_mem right same inside (key ▸ inside')⟩

private theorem forall₂_exchange {α : Type} {related : α → α → Prop} {before after : List α}
    {a b : α} (refl : ∀ x ∈ before ++ a :: after, related x x) (first : related a b) :
    List.Forall₂ related (before ++ a :: after) (before ++ b :: after) := by
  have tail : List.Forall₂ related after after :=
    List.forall₂_same.2 fun x inside => refl x
      (List.mem_append_right _ (List.mem_cons_of_mem _ inside))
  refine List.rel_append (List.forall₂_same.2 fun x inside => ?_) (.cons first tail)
  exact refl x (List.mem_append_left _ inside)

/-- Whether a value holds each key once and equals another one. -/
structure KeepsEqual (v w : Value) : Prop where
  unique : w.HasUniqueKeys
  same : v.same w = true

theorem HasUniqueKeys.permuted {c d : Content Value} {x y : List (Bytes × Value)}
    (unique : (node c x).HasUniqueKeys)
    (keys : ∀ entries, d = .map entries → (entries.map (·.1)).Nodup)
    (parts : d.parts.Perm c.parts) (perm : y.Perm x) : (node d y).HasUniqueKeys := by
  refine .intro keys ((perm.map (·.1)).nodup_iff.2 unique.extensions)
    fun part inside => unique.part ?_
  exact (parts.append (perm.map (·.2))).mem_iff.1 inside

/-- A permutation, or a zero, makes no difference. -/
theorem Rearranges.keepsEqual (changed : v.Rearranges w) (unique : v.HasUniqueKeys)
    (real : v.IsReal) :
    v.KeepsEqual w := by
  have itself := same_iff.1 (same_refl unique real)
  have part {a : Value} (inside : a ∈ v.root.parts) : a.same a = true :=
    same_part unique (same_refl unique real) inside
  cases changed with
  | @entries es fs x perm =>
      have distinct : (fs.map (·.1)).Nodup := (perm.map (·.1)).nodup_iff.1 (unique.entries es rfl)
      refine ⟨unique.permuted ?_ (perm.symm.map Prod.snd) (.refl x), same_iff.2 ⟨?_, itself.2⟩⟩
      · rintro entries map
        cases map
        exact distinct
      · refine sameItems_of_reordered distinct
          ⟨es, List.forall₂_same.2 fun e inside => ⟨rfl, part ?_⟩, perm⟩
        exact mem_parts_content (v := node (.map es) x) (List.mem_map_of_mem inside)
  | @extensions c x y perm =>
      have distinct : (y.map (·.1)).Nodup := (perm.map (·.1)).nodup_iff.1 unique.extensions
      refine ⟨unique.permuted unique.entries (.refl c.parts) perm.symm, same_iff.2 ⟨itself.1, ?_⟩⟩
      refine sameItems_of_reordered distinct
        ⟨x, List.forall₂_same.2 fun e inside => ⟨rfl, part ?_⟩, perm⟩
      exact mem_parts_extensions (v := node c x) inside
  | @zero p q x zeros =>
      exact ⟨unique.permuted nofun (.refl []) (.refl x), same_iff.2 ⟨zeros.same, itself.2⟩⟩

/-- A value with an equal part in place of another one equals it. -/
theorem KeepsEqual.exchange {c d : Content Value} {x y : List (Bytes × Value)} {a b : Value}
    (kept : a.KeepsEqual b)
    (exchanged : Node.Exchanges a b ⟨c, x⟩ ⟨d, y⟩) (unique : (node c x).HasUniqueKeys)
    (real : (node c x).IsReal) : (node c x).KeepsEqual (node d y) := by
  have whole := same_refl unique real
  have part {p : Value} (inside : p ∈ (node c x).root.parts) : p.same p = true :=
    same_part unique whole inside
  have back : b.same a = true := same_symm (unique.part exchanged.mem_left) kept.unique kept.same
  have distinct := exchanged.keys unique.entries
  have names : (y.map (·.1)).Nodup := exchanged.names.symm ▸ unique.extensions
  have inherited : (node d y).HasUniqueKeys := by
    refine .intro distinct names fun p inside => ?_
    rcases exchanged.mem_cases inside with rfl | old
    · exact kept.unique
    · exact unique.part old
  refine ⟨inherited, same_iff.2 ?_⟩
  have itself := same_iff.1 whole
  cases exchanged with
  | entry before after key extensions =>
      refine ⟨sameItems_of_reordered (distinct _ rfl) (.of_forall₂ (forall₂_exchange ?_
        ⟨rfl, back⟩)), itself.2⟩
      intro e inside
      exact ⟨rfl, part (mem_parts_content (v := node (.map _) _) (List.mem_map_of_mem inside))⟩
  | item before after extensions =>
      refine ⟨sameList_iff.2 (forall₂_exchange (fun p inside => ?_) kept.same), itself.2⟩
      exact part (mem_parts_content (v := node (.array _) _) inside)
  | element before after extensions =>
      refine ⟨sameList_iff.2 (forall₂_exchange (fun p inside => ?_) kept.same), itself.2⟩
      exact part (mem_parts_content (v := node (.tuple _) _) inside)
  | extension content before after name =>
      refine ⟨itself.1, sameItems_of_reordered names (.of_forall₂ (forall₂_exchange ?_
        ⟨rfl, back⟩))⟩
      intro e inside
      exact ⟨rfl, part (mem_parts_extensions (v := node c _) inside)⟩

/-- A value that equals another one holds no NaN. -/
theorem KeepsEqual.real (kept : v.KeepsEqual w) (unique : v.HasUniqueKeys) : w.IsReal :=
  (same_self_iff kept.unique).1 (same_trans (same_symm unique kept.unique kept.same) kept.same)

theorem Alters.keepsEqual (altered : Alters Rearranges v w) (unique : v.HasUniqueKeys)
    (real : v.IsReal) :
    v.KeepsEqual w := by
  induction altered with
  | here changed => exact changed.keepsEqual unique real
  | within altered exchanged ih =>
      have inside := exchanged.mem_left
      exact (ih (unique.part inside) ((same_self_iff (unique.part inside)).1
        (same_part unique (same_refl unique real) inside))).exchange exchanged unique real

theorem Altered.keepsEqual (altered : Altered Rearranges v w) (unique : v.HasUniqueKeys)
    (real : v.IsReal) :
    v.KeepsEqual w := by
  induction altered with
  | refl => exact ⟨unique, same_refl unique real⟩
  | tail chain step ih =>
      have next := step.keepsEqual ih.unique (ih.real unique)
      exact ⟨next.unique, same_trans ih.same next.same⟩

/-- Contents that are equal are those of one map, array or tuple with other parts. -/
theorem altered_content {c d : Content Value} (x : List (Bytes × Value))
    (left : ∀ entries, c = .map entries → (entries.map (·.1)).Nodup)
    (right : ∀ entries, d = .map entries → (entries.map (·.1)).Nodup)
    (parts : ∀ a ∈ c.parts, ∀ b ∈ d.parts, (a.same b = true → Altered Rearranges a b) ∧
      (b.same a = true → Altered Rearranges a b))
    (contents : c.sameBy Value.same d = true) : Altered Rearranges (node c x) (node d x) := by
  have listed {as bs : List Value}
      (each : ∀ a ∈ as, ∀ b ∈ bs, a.same b = true → Altered Rearranges a b)
      (items : sameList Value.same as bs = true) : List.Forall₂ (Altered Rearranges) as bs := by
    have pairs := sameList_iff.1 items
    refine List.forall₂_iff_zip.2 ⟨pairs.length_eq, fun {a b} member => ?_⟩
    obtain ⟨inside, inside'⟩ := List.of_mem_zip member
    exact each a inside b inside' ((List.forall₂_iff_zip.1 pairs).2 member)
  cases c <;> cases d <;> try cases contents
  case refl => exact .refl
  case primitive p q =>
    rcases Primitive.same_cases contents with rfl | ⟨f, g, rfl, rfl, floats⟩
    · exact .refl
    · rcases Binary64.eq_or_zeros floats with rfl | zeros
      · exact .refl
      · exact .here (.zero x zeros)
  case map es fs =>
    refine .entries x (fun _ _ => .entries x) ?_
    refine (reordered_of_sameItems (left es rfl) (right fs rfl) contents).imp_of_mem ?_
    rintro e inside f inside' ⟨key, equal⟩
    exact ⟨key, (parts e.2 (List.mem_map_of_mem inside) f.2 (List.mem_map_of_mem inside')).2 equal⟩
  case array as bs =>
    exact .items x (listed (fun a inside b inside' => (parts a inside b inside').1) contents)
  case tuple as bs =>
    exact .elements x (listed (fun a inside b inside' => (parts a inside b inside').1) contents)

/-- Equal values lead to each other by permutations and zeros: part by part, and then as a whole. -/
theorem altered_of_same (left : v.HasUniqueKeys) (right : w.HasUniqueKeys)
    (same : v.same w = true) :
    Altered Rearranges v w := by
  induction left generalizing w with
  | @intro v keys names parts ih =>
      have part {a b : Value} (inside : a ∈ v.root.parts) (inside' : b ∈ w.root.parts) :
          (a.same b = true → Altered Rearranges a b) ∧
            (b.same a = true → Altered Rearranges a b) := by
        have unique := right.part inside'
        exact ⟨ih a inside unique,
          fun back => ih a inside unique (same_symm unique (parts a inside) back)⟩
      obtain ⟨contents, extensions⟩ := same_iff.1 same
      obtain ⟨c, x⟩ := v
      obtain ⟨d, y⟩ := w
      have inner : Altered Rearranges (node c x) (node d x) := by
        refine altered_content x keys right.entries (fun a inside b inside' => ?_) contents
        exact part (mem_parts_content (v := node c x) inside)
          (mem_parts_content (v := node d y) inside')
      have outer : Altered Rearranges (node d x) (node d y) := by
        refine .extensions d (fun _ _ => .extensions d) ?_
        refine (reordered_of_sameItems names right.extensions extensions).imp_of_mem ?_
        rintro e inside f inside' ⟨key, equal⟩
        exact ⟨key, (part (mem_parts_extensions (v := node c x) inside)
          (mem_parts_extensions (v := node d y) inside')).2 equal⟩
      exact inner.trans outer

/-- On values that hold each key once, equality is equality up to the order of entries and the sign
of zero, as far as there is no NaN; it is symmetric and transitive; and a value equals itself if and
only if it holds no NaN. -/
theorem same_up_to_order (left : u.HasUniqueKeys) (right : v.HasUniqueKeys) :
    (u.IsReal → (u.same v = true ↔ Altered Rearranges u v)) ∧
      (u.same v = true → v.same u = true) ∧
      (u.same v = true → v.same w = true → u.same w = true) ∧
      (u.same u = true ↔ u.IsReal) :=
  ⟨fun real => ⟨altered_of_same left right, fun altered => (altered.keepsEqual left real).same⟩,
    same_symm left right, same_trans, same_self_iff left⟩

namespace Swapped

private def number (x : Binary64) : Value :=
  .of (.primitive (.float x))

private def before : Value :=
  .of (.map [(.ident "a", number .zero), (.ident "b", number ⟨1⟩)])

private def after : Value :=
  .of (.map [(.ident "b", number ⟨1⟩), (.ident "a", number .negativeZero)])

private theorem number_unique (x : Binary64) : (number x).HasUniqueKeys :=
  .intro nofun List.nodup_nil nofun

private theorem pair_unique (k l : Key) (apart : k ≠ l) (x y : Binary64) :
    (Value.of (.map [(k, number x), (l, number y)])).HasUniqueKeys := by
  refine .intro ?_ List.nodup_nil ?_
  · rintro entries map
    cases map
    simpa using apart
  · intro part inside
    rcases List.mem_cons.1 inside with rfl | inside
    · exact number_unique x
    · exact (List.mem_singleton.1 inside) ▸ number_unique y

/-- Equal maps with their entries in another order, and a zero of another sign. -/
theorem same_up_to_order_swapped :
    before.HasUniqueKeys ∧ after.HasUniqueKeys ∧ before.IsReal ∧
    Altered Rearranges before after := by
  have left : before.HasUniqueKeys := pair_unique _ _ (by decide) _ _
  have right : after.HasUniqueKeys := pair_unique _ _ (by decide) _ _
  obtain ⟨order, -, -, itself⟩ := same_up_to_order (w := before) left right
  have real : before.IsReal := itself.1 (by decide)
  exact ⟨left, right, real, (order real).1 (by decide)⟩

end Swapped

end Value

end DocSchema
