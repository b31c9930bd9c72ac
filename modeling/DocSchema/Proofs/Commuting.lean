import DocSchema.Proofs.Declared

set_option autoImplicit false

namespace DocSchema

theorem toOption_bind {ε α β : Type} (x : Except ε α) (f : α → Except ε β) :
    (x >>= f).toOption = x.toOption.bind fun a => (f a).toOption := by
  cases x <;> rfl

inductive End where
  | lower
  | upper
deriving DecidableEq

namespace Counts

def at? (c : Counts) : End → Option Nat
  | .lower => c.min
  | .upper => c.max

def open? (c : Counts) : Option Counts :=
  if c.isEmpty then none else some c

variable {c d : Counts}

theorem open?_eq_some : c.open? = some d ↔ c.isEmpty = false ∧ c = d := by
  unfold open?
  split
  · next empty => simp [empty]
  · next nonempty => simp [nonempty]

end Counts

namespace Constraint

/-- The ends of an interval that a constraint bounds. -/
def ends : Directive → List End
  | .length => [.lower, .upper]
  | .minLength => [.lower]
  | .maxLength => [.upper]
  | .range => [.lower, .upper]
  | .minimum => [.lower]
  | .exclusiveMin => [.lower]
  | .maximum => [.upper]
  | .exclusiveMax => [.upper]
  | .minItems => [.lower]
  | .maxItems => [.upper]
  | .minSize => [.lower]
  | .maxSize => [.upper]
  | _ => []

/-- Whether two constraints on one kind of types bound an interval at one end. -/
def competes (a b : Directive) : Bool :=
  a != b && target? a == target? b && (ends a).any (ends b).contains

end Constraint

def Shape.target? {α : Type} : Shape α → Option Constraint.Target
  | .text .. => some .text
  | .integer .. => some .number
  | .float .. => some .number
  | .array .. => some .array
  | .map .. => some .map
  | .record .. => some .record
  | .union .. => some .union
  | _ => none

/-- The bounds on the length or the size of a value of the type. -/
def Shape.counts {α : Type} : Shape α → Counts
  | .text length _ _ => length
  | .array _ length _ => length
  | .map _ _ size => size
  | _ => {}

namespace Constraint

variable {α : Type} {a b : Directive} {v w : Value} {s t : Shape α}

/-- The type that a constraint makes of another one, if the constraint can be applied. -/
def constrain? (a : Directive) (v : Value) (s : Shape α) : Option (Shape α) :=
  match target? a with
  | none => some s
  | some .text => (constrainText a v s).toOption
  | some .number => (constrainNumber a v s).toOption
  | some .array => (constrainArray a v s).toOption
  | some .map => (constrainMap a v s).toOption
  | some .record => if s.target? = some .record then some s else none
  | some .union => if s.target? = some .union then some s else none

theorem toOption_malformed (name : Bytes) (x : Except Requirement (Shape α)) :
    (malformed name x).toOption = x.toOption := by
  cases x <;> rfl

theorem toOption_apply (name : Bytes) (v : Value) (s : Shape α) :
    (apply name v s).toOption = (Directive.ofName? name).elim (some s) (constrain? · v s) := by
  unfold apply
  cases Directive.ofName? name with
  | none => rfl
  | some a =>
      dsimp only [Option.elim]
      unfold constrain?
      cases target? a with
      | none => rfl
      | some target =>
          cases target with
          | record | union => cases s <;> rfl
          | _ => exact toOption_malformed name _

/-- A constraint cannot be applied to a type of another kind. -/
theorem constrain?_eq_none {target : Target} (constrains : target? a = some target)
    (other : s.target? ≠ some target) :
    constrain? a v s = none := by
  unfold constrain?
  rw [constrains]
  cases target <;> cases s <;> first | rfl | exact absurd rfl other

/-- The bounds on a count after one or both of them were set. -/
def bound (v : Value) (c : Counts) : List End → Option Counts
  | [.lower] => (count v).toOption.map fun n => { c with min := some n }
  | [.upper] => (count v).toOption.map fun n => { c with max := some n }
  | [.lower, .upper] => (counts v).toOption
  | _ => none

theorem ends_cases (a : Directive) :
    ends a = [] ∨ ends a = [.lower] ∨ ends a = [.upper] ∨ ends a = [.lower, .upper] := by
  cases a <;> simp [ends]

/-- Of two constraints that do not compete, one bounds an interval below and the other one above. -/
theorem apart_ends (same : target? a = target? b) (different : a ≠ b) (free : competes a b = false)
    (bounds : ends a ≠ []) (bounds' : ends b ≠ []) :
    ends a = [.lower] ∧ ends b = [.upper] ∨ ends a = [.upper] ∧ ends b = [.lower] := by
  have apart : (ends a).any (ends b).contains = false := by
    simpa [competes, different, same] using free
  rcases ends_cases a with none | one | one | both
  · exact absurd none bounds
  all_goals
    rcases ends_cases b with none' | one' | one' | both'
    · exact absurd none' bounds'
    all_goals simp_all

/-- What two constraints set can be set in any order if each of them reads the same value from
either type. -/
theorem commute_of_facets {β γ : Type} {x : Option β} {y : Option γ} {f : β → Shape α}
    {g : γ → Shape α}
    {h : β → γ → Option (Shape α)} (first : constrain? a v s = x.map f)
    (second : constrain? b w s = y.map g) (further : ∀ i ∈ x, constrain? b w (f i) = y.bind (h i))
    (further' : ∀ j ∈ y, constrain? a v (g j) = x.bind (h · j)) :
    (constrain? a v s).bind (constrain? b w) = (constrain? b w s).bind (constrain? a v) := by
  rw [first, second]
  cases x with
  | none =>
      cases y with
      | none => rfl
      | some j => exact (further' j rfl).symm
  | some i =>
      cases y with
      | none => exact further i rfl
      | some j => exact (further i rfl).trans (further' j rfl).symm

/-- Bounds on both ends of an interval, where there are none yet, leave the same in either order. -/
theorem lower_upper_commute (within : Counts → Shape α)
    (lower : ∀ d, constrain? a v (within d) = ((bound v d [.lower]).bind Counts.open?).map within)
    (upper : ∀ d, constrain? b w (within d) = ((bound w d [.upper]).bind Counts.open?).map within) :
    (constrain? a v (within {})).bind (constrain? b w) =
      (constrain? b w (within {})).bind (constrain? a v) := by
  -- A single bound always leaves some count, so only the second one can fail to.
  refine commute_of_facets (x := (count v).toOption) (y := (count w).toOption) (f := fun n => within ⟨some n, none⟩)
    (g := fun m => within ⟨none, some m⟩)
      (h := fun n m => (Counts.open? ⟨some n, some m⟩).map within) ?_ ?_
    (fun n _ => ?_) fun m _ => ?_
  · rw [lower, bound]
    cases (count v).toOption <;> rfl
  · rw [upper, bound]
    cases (count w).toOption <;> rfl
  · rw [upper, bound]
    cases (count w).toOption <;> rfl
  · rw [lower, bound]
    cases (count v).toOption <;> rfl

theorem open?_of_bound {ends : List End} {c d : Counts}
    (bounded : d ∈ (bound v c ends).bind Counts.open?) : d.open? = some d := by
  obtain ⟨_, -, held⟩ := Option.bind_eq_some_iff.1 bounded
  obtain ⟨nonempty, rfl⟩ := Counts.open?_eq_some.1 held
  exact Counts.open?_eq_some.2 ⟨nonempty, rfl⟩

section Text

variable {length : Counts} {pat language : Option Bytes}

theorem toOption_lengthOf (c : Counts) : (lengthOf c).toOption = c.open? := by
  unfold lengthOf Counts.open?
  split <;> rfl

theorem text_bounded (constrains : target? a = some .text) (bounds : ends a ≠ []) :
    constrain? a v (.text length pat language : Shape α) =
      ((bound v length (ends a)).bind Counts.open?).map (.text · pat language) := by
  unfold constrain?
  rw [constrains, Option.map_eq_bind]
  cases a
  case length | minLength | maxLength =>
    simp only [constrainText, toOption_bind, toOption_lengthOf, ends, bound, Option.bind_assoc,
      Option.bind_map]
    rfl
  all_goals first | exact absurd rfl bounds | cases constrains

theorem text_pattern (nonempty : length.open? = some length) :
    constrain? .pattern v (.text length pat language : Shape α) =
      (pattern v).toOption.map fun p => .text length (some p) language := by
  change (constrainText .pattern v _).toOption = _
  simp only [constrainText, toOption_bind, toOption_lengthOf, nonempty, Option.bind_some,
    Option.map_eq_bind]
  rfl

theorem text_language (nonempty : length.open? = some length) :
    constrain? .language v (.text length pat language : Shape α) =
      (text v).toOption.map fun l => .text length pat (some l) := by
  change (constrainText .language v _).toOption = _
  simp only [constrainText, toOption_bind, toOption_lengthOf, nonempty, Option.bind_some,
    Option.map_eq_bind]
  rfl

theorem text_cases (constrains : target? a = some .text) :
    ends a ≠ [] ∨ a = .pattern ∨ a = .language := by
  cases a <;> first | (left; exact List.cons_ne_nil _ _) | (right; left; rfl) | (right; right; rfl) | cases constrains

theorem text_bounded_pattern (constrains : target? a = some .text) (bounds : ends a ≠ [])
    (nonempty : length.open? = some length) :
    (constrain? a v (.text length pat language : Shape α)).bind (constrain? .pattern w) =
      (constrain? .pattern w (.text length pat language)).bind (constrain? a v) := by
  refine commute_of_facets (h := fun d p => some (.text d (some p) language)) (text_bounded constrains bounds)
    (text_pattern nonempty) (fun d bounded => ?_) fun p _ => ?_
  · rw [text_pattern (open?_of_bound bounded), Option.map_eq_bind]
    rfl
  · rw [text_bounded constrains bounds, Option.map_eq_bind]
    rfl

theorem text_bounded_language (constrains : target? a = some .text) (bounds : ends a ≠ [])
    (nonempty : length.open? = some length) :
    (constrain? a v (.text length pat language : Shape α)).bind (constrain? .language w) =
      (constrain? .language w (.text length pat language)).bind (constrain? a v) := by
  refine commute_of_facets (h := fun d l => some (.text d pat (some l))) (text_bounded constrains bounds)
    (text_language nonempty) (fun d bounded => ?_) fun p _ => ?_
  · rw [text_language (open?_of_bound bounded), Option.map_eq_bind]
    rfl
  · rw [text_bounded constrains bounds, Option.map_eq_bind]
    rfl

theorem text_pattern_language (nonempty : length.open? = some length) :
    (constrain? .pattern v (.text length pat language : Shape α)).bind (constrain? .language w) =
      (constrain? .language w (.text length pat language)).bind (constrain? .pattern v) := by
  refine commute_of_facets (h := fun p l => some (.text length (some p) (some l))) (text_pattern nonempty)
    (text_language nonempty) (fun p _ => ?_) fun l _ => ?_
  · rw [text_language nonempty, Option.map_eq_bind]
    rfl
  · rw [text_pattern nonempty, Option.map_eq_bind]
    rfl

/-- Constraints on texts commute if they do not compete. Bounds on both ends are set where there are
none yet. -/
theorem text_commute (constrains : target? a = some .text) (constrains' : target? b = some .text)
    (different : a ≠ b) (free : competes a b = false) (nonempty : length.open? = some length)
    (vacant : ends a ≠ [] → ends b ≠ [] → length = {}) :
    (constrain? a v (.text length pat language : Shape α)).bind (constrain? b w) =
      (constrain? b w (.text length pat language)).bind (constrain? a v) := by
  rcases text_cases constrains with bounds | rfl | rfl <;>
    rcases text_cases constrains' with bounds' | rfl | rfl
  · obtain rfl := vacant bounds bounds'
    rcases apart_ends (constrains.trans constrains'.symm) different free bounds bounds' with
      ⟨lower, upper⟩ | ⟨upper, lower⟩
    · exact lower_upper_commute (.text · pat language) (fun d => lower ▸ text_bounded constrains bounds)
        fun d => upper ▸ text_bounded constrains' bounds'
    · exact (lower_upper_commute (.text · pat language) (fun d => lower ▸ text_bounded constrains' bounds')
        fun d => upper ▸ text_bounded constrains bounds).symm
  · exact text_bounded_pattern constrains bounds nonempty
  · exact text_bounded_language constrains bounds nonempty
  · exact (text_bounded_pattern constrains' bounds' nonempty).symm
  · exact absurd rfl different
  · exact text_pattern_language nonempty
  · exact (text_bounded_language constrains' bounds' nonempty).symm
  · exact (text_pattern_language nonempty).symm
  · exact absurd rfl different

end Text

section Number

theorem integer_bounded {range : Range} {multipleOf : Option Int64}
    (constrains : target? a = some .number)
    (bounds : ends a ≠ []) : constrain? a v (.integer range multipleOf : Shape α) =
      (narrow true a v range).toOption.map (.integer · multipleOf) := by
  unfold constrain?
  rw [constrains, Option.map_eq_bind]
  cases a
  case range | minimum | maximum | exclusiveMin | exclusiveMax => exact toOption_bind _ _
  all_goals first | exact absurd rfl bounds | cases constrains

theorem float_bounded {range : Range} {multipleOf : Option Number}
    (constrains : target? a = some .number)
    (bounds : ends a ≠ []) : constrain? a v (.float range multipleOf : Shape α) =
      (narrow false a v range).toOption.map (.float · multipleOf) := by
  unfold constrain?
  rw [constrains, Option.map_eq_bind]
  cases a
  case range | minimum | maximum | exclusiveMin | exclusiveMax => exact toOption_bind _ _
  all_goals first | exact absurd rfl bounds | cases constrains

/-- A divisor of integers is an integer. -/
theorem integer_divisor {range : Range} {multipleOf : Option Int64} :
    constrain? .multipleOf v (.integer range multipleOf : Shape α) =
      (divisor true v).toOption.map fun n =>
      .integer range (match n with | .int i => some i | .float _ => multipleOf) := by
  change (constrainNumber .multipleOf v _).toOption = _
  rw [constrainNumber, toOption_bind, Option.map_eq_bind]
  congr 1
  funext n
  cases n <;> rfl

theorem float_divisor {range : Range} {multipleOf : Option Number} :
    constrain? .multipleOf v (.float range multipleOf : Shape α) =
      (divisor false v).toOption.map fun n => .float range (some n) := by
  change (constrainNumber .multipleOf v _).toOption = _
  rw [constrainNumber, toOption_bind, Option.map_eq_bind]
  rfl

theorem number_cases (constrains : target? a = some .number) : ends a ≠ [] ∨ a = .multipleOf := by
  cases a <;> first | (left; exact List.cons_ne_nil _ _) | (right; rfl) | cases constrains

theorem narrow_lower_upper (isInteger : Bool) (constrains : target? a = some .number)
    (constrains' : target? b = some .number) (lower : ends a = [.lower]) (upper : ends b = [.upper])
    (r : Range) :
    (narrow isInteger a v r).toOption.bind (fun r => (narrow isInteger b w r).toOption) =
      (narrow isInteger b w r).toOption.bind fun r => (narrow isInteger a v r).toOption := by
  have reads : a = .minimum ∨ a = .exclusiveMin := by
    cases a <;>
      first
      | exact .inl rfl
      | exact .inr rfl
      | exact absurd lower (by decide)
      | exact absurd constrains (by decide)
  have reads' : b = .maximum ∨ b = .exclusiveMax := by
    cases b <;>
      first
      | exact .inl rfl
      | exact .inr rfl
      | exact absurd upper (by decide)
      | exact absurd constrains' (by decide)
  rcases reads with rfl | rfl <;> rcases reads' with rfl | rfl <;>
    simp only [narrow, toOption_bind, Option.bind_assoc] <;> exact Option.bind_comm _ _

/-- Constraints on numbers commute if they do not compete, whatever the range is a part of. -/
theorem number_commute {isInteger : Bool} (within : Range → Shape α)
    (divided : Number → Range → Shape α)
    (bounded : ∀ c u r, target? c = some .number → ends c ≠ [] →
      constrain? c u (within r) = (narrow isInteger c u r).toOption.map within)
    (bounded' : ∀ n c u r, target? c = some .number → ends c ≠ [] →
      constrain? c u (divided n r) = (narrow isInteger c u r).toOption.map (divided n))
    (divides : ∀ u r, constrain? .multipleOf u (within r) =
      (divisor isInteger u).toOption.map (divided · r))
    (constrains : target? a = some .number) (constrains' : target? b = some .number)
    (different : a ≠ b) (free : competes a b = false) (r : Range) :
    (constrain? a v (within r)).bind (constrain? b w) =
      (constrain? b w (within r)).bind (constrain? a v) := by
  have apart {c : Directive} (u u' : Value) (constrains : target? c = some .number)
      (bounds : ends c ≠ []) :
      (constrain? c u (within r)).bind (constrain? .multipleOf u') =
        (constrain? .multipleOf u' (within r)).bind (constrain? c u) := by
    refine commute_of_facets (h := fun r n => some (divided n r)) (bounded c u r constrains bounds) (divides u' r)
      (fun r _ => ?_) fun n _ => ?_
    · rw [divides, Option.map_eq_bind]
      rfl
    · rw [bounded' n c u r constrains bounds, Option.map_eq_bind]
      rfl
  have ordered {c c' : Directive} (u u' : Value) (constrains : target? c = some .number)
      (constrains' : target? c' = some .number) (lower : ends c = [.lower])
      (upper : ends c' = [.upper]) :
      (constrain? c u (within r)).bind (constrain? c' u') =
        (constrain? c' u' (within r)).bind (constrain? c u) := by
    have bounds : ends c ≠ [] := by simp [lower]
    have bounds' : ends c' ≠ [] := by simp [upper]
    simp only [bounded _ _ _ constrains bounds, bounded _ _ _ constrains' bounds', Option.bind_map,
      Function.comp_def]
    have narrows := congrArg (Option.map within) (narrow_lower_upper isInteger (v := u) (w := u')
      constrains constrains' lower upper r)
    rw [Option.map_bind, Option.map_bind] at narrows
    exact narrows
  rcases number_cases constrains with bounds | rfl <;>
    rcases number_cases constrains' with bounds' | rfl
  · rcases apart_ends (constrains.trans constrains'.symm) different free bounds bounds' with
      ⟨lower, upper⟩ | ⟨upper, lower⟩
    · exact ordered v w constrains constrains' lower upper
    · exact (ordered w v constrains' constrains lower upper).symm
  · exact apart v w constrains bounds
  · exact (apart w v constrains' bounds').symm
  · exact absurd rfl different

end Number

section Array

variable {item : α} {length : Counts} {isUnique : Bool}

theorem array_bounded (constrains : target? a = some .array) (bounds : ends a ≠ []) :
    constrain? a v (.array item length isUnique) =
      ((bound v length (ends a)).bind Counts.open?).map (.array item · isUnique) := by
  have opened (c : Counts) : (itemsOf c).toOption = c.open? := by
    unfold itemsOf Counts.open?
    split <;> rfl
  unfold constrain?
  rw [constrains, Option.map_eq_bind]
  cases a
  case minItems | maxItems =>
    simp only [constrainArray, toOption_bind, opened, ends, bound, Option.bind_assoc,
      Option.bind_map]
    rfl
  all_goals first | exact absurd rfl bounds | cases constrains

theorem array_unique : constrain? .unique v (.array item length isUnique) =
    (truth v).toOption.map (.array item length ·) := by
  change (constrainArray .unique v _).toOption = _
  rw [constrainArray, toOption_bind, Option.map_eq_bind]
  rfl

theorem array_cases (constrains : target? a = some .array) : ends a ≠ [] ∨ a = .unique := by
  cases a <;> first | (left; exact List.cons_ne_nil _ _) | (right; rfl) | cases constrains

theorem array_bounded_unique (constrains : target? a = some .array) (bounds : ends a ≠ []) :
    (constrain? a v (.array item length isUnique)).bind (constrain? .unique w) =
      (constrain? .unique w (.array item length isUnique)).bind (constrain? a v) := by
  refine commute_of_facets (h := fun d isUnique => some (.array item d isUnique)) (array_bounded constrains bounds)
    array_unique (fun d _ => ?_) fun isUnique _ => ?_
  · rw [array_unique, Option.map_eq_bind]
    rfl
  · rw [array_bounded constrains bounds, Option.map_eq_bind]
    rfl

/-- Constraints on arrays commute. -/
theorem array_commute (constrains : target? a = some .array) (constrains' : target? b = some .array)
    (different : a ≠ b)
    (free : competes a b = false) (vacant : ends a ≠ [] → ends b ≠ [] → length = {}) :
    (constrain? a v (.array item length isUnique)).bind (constrain? b w) =
      (constrain? b w (.array item length isUnique)).bind (constrain? a v) := by
  rcases array_cases constrains with bounds | rfl <;>
    rcases array_cases constrains' with bounds' | rfl
  · obtain rfl := vacant bounds bounds'
    rcases apart_ends (constrains.trans constrains'.symm) different free bounds bounds' with
      ⟨lower, upper⟩ | ⟨upper, lower⟩
    · exact lower_upper_commute (.array item · isUnique)
        (fun d => lower ▸ array_bounded constrains bounds)
          fun d => upper ▸ array_bounded constrains' bounds'
    · exact (lower_upper_commute (.array item · isUnique)
        (fun d => lower ▸ array_bounded constrains' bounds')
          fun d => upper ▸ array_bounded constrains bounds).symm
  · exact array_bounded_unique constrains bounds
  · exact (array_bounded_unique constrains' bounds').symm
  · exact absurd rfl different

end Array

section Map

variable {key value : α} {size : Counts}

theorem map_bounded (constrains : target? a = some .map) :
    constrain? a v (.map key value size) = (bound v size (ends a)).map (.map key value) := by
  unfold constrain?
  rw [constrains, Option.map_eq_bind]
  cases a
  case minSize | maxSize =>
    simp only [constrainMap, toOption_bind, ends, bound, Option.bind_map]
    rfl
  all_goals cases constrains

theorem map_ends (constrains : target? a = some .map) : ends a ≠ [] := by
  cases a <;> first | exact List.cons_ne_nil _ _ | cases constrains

/-- Constraints on maps commute, even where nothing is left. -/
theorem map_commute (constrains : target? a = some .map) (constrains' : target? b = some .map)
    (different : a ≠ b) (free : competes a b = false) :
    (constrain? a v (.map key value size)).bind (constrain? b w) =
      (constrain? b w (.map key value size)).bind (constrain? a v) := by
  have ordered {c c' : Directive} (u u' : Value) (constrains : target? c = some .map)
      (constrains' : target? c' = some .map) (lower : ends c = [.lower])
      (upper : ends c' = [.upper]) :
      (constrain? c u (.map key value size)).bind (constrain? c' u') =
        (constrain? c' u' (.map key value size)).bind (constrain? c u) := by
    simp only [map_bounded constrains, map_bounded constrains', lower, upper, bound,
      Option.bind_map, Function.comp_def]
    cases (count u).toOption <;> cases (count u').toOption <;> rfl
  rcases apart_ends (constrains.trans constrains'.symm) different free (map_ends constrains)
      (map_ends constrains') with
    ⟨lower, upper⟩ | ⟨upper, lower⟩
  · exact ordered v w constrains constrains' lower upper
  · exact (ordered w v constrains' constrains lower upper).symm

end Map

theorem record_kept {fields : List (Field α)} {allowsUnknown : Bool}
    (constrains : target? a = some .record) :
    constrain? a v (.record fields allowsUnknown) = (some ()).map fun _ =>
      .record fields allowsUnknown := by
  rw [constrain?, constrains]
  rfl

theorem union_kept {variants : List (Variant α)} {representation : Representation}
    (constrains : target? a = some .union) :
    constrain? a v (.union variants representation) = (some ()).map fun _ =>
      .union variants representation := by
  rw [constrain?, constrains]
  rfl

theorem constrain?_of_idle (idle : target? a = none) : constrain? a v s = some s := by
  rw [constrain?, idle]

theorem at?_of_bound {c d : Counts} {ends : List End} {e : End} (bounded : bound v c ends = some d)
    (other : e ∉ ends) :
    d.at? e = c.at? e := by
  unfold bound at bounded
  split at bounded
  case h_4 => cases bounded
  case h_3 => cases e <;> simp at other
  all_goals
    obtain ⟨n, -, rfl⟩ := Option.map_eq_some_iff.1 bounded
    cases e <;> first | rfl | simp at other

theorem open?_of_isSound (text : s.target? = some .text ∨ s.target? = some .array)
    (sound : s.IsSound) :
    s.counts.open? = some s.counts := by
  refine Counts.open?_eq_some.2 ⟨?_, rfl⟩
  cases s with
  | text length pat language => exact Counts.isOrdered_iff.1 sound.1
  | array item length isUnique => exact Counts.isOrdered_iff.1 sound
  | _ => rcases text with other | other <;> cases other

/-- A constraint leaves the kind of a type, and the bounds that it does not set. -/
theorem constrain?_leaves (sound : s.IsSound) (applied : constrain? a v s = some t) :
    t.target? = s.target? ∧
    ∀ e, (target? a = s.target? → e ∉ ends a) → t.counts.at? e = s.counts.at? e := by
  have opened {c d : Counts} {ends : List End} {e : End}
      (bounded : d ∈ (bound v c ends).bind Counts.open?)
      (other : e ∉ ends) : d.at? e = c.at? e := by
    obtain ⟨_, bounded', held⟩ := Option.bind_eq_some_iff.1 bounded
    obtain ⟨-, rfl⟩ := Counts.open?_eq_some.1 held
    exact at?_of_bound bounded' other
  have kept {β : Type} {x : Option β} {f : β → Shape α} (facet : constrain? a v s = x.map f)
      (same : ∀ i, (f i).target? = s.target? ∧ (f i).counts = s.counts) :
      t.target? = s.target? ∧ ∀ e, (target? a = s.target? → e ∉ ends a) →
        t.counts.at? e = s.counts.at? e := by
    obtain ⟨i, -, rfl⟩ := Option.map_eq_some_iff.1 (facet.symm.trans applied)
    exact ⟨(same i).1, fun e _ => by rw [(same i).2]⟩
  cases constrains : target? a with
  | none =>
      rw [constrain?_of_idle constrains] at applied
      cases applied
      exact ⟨rfl, fun _ _ => rfl⟩
  | some target =>
      by_cases same : s.target? = some target
      case neg =>
        rw [constrain?_eq_none constrains same] at applied
        cases applied
      rw [constrains] at kept
      rw [same]
      cases s with
      | text length pat language =>
          cases same
          have nonempty : length.open? = some length := open?_of_isSound (.inl rfl) sound
          rcases text_cases constrains with bounds | rfl | rfl
          · obtain ⟨d, bounded, rfl⟩ :=
              Option.map_eq_some_iff.1 ((text_bounded constrains bounds).symm.trans applied)
            exact ⟨rfl, fun e other => opened bounded (other rfl)⟩
          · exact kept (text_pattern nonempty) fun _ => ⟨rfl, rfl⟩
          · exact kept (text_language nonempty) fun _ => ⟨rfl, rfl⟩
      | integer range multipleOf =>
          cases same
          rcases number_cases constrains with bounds | rfl
          · exact kept (integer_bounded constrains bounds) fun _ => ⟨rfl, rfl⟩
          · exact kept integer_divisor fun _ => ⟨rfl, rfl⟩
      | float range multipleOf =>
          cases same
          rcases number_cases constrains with bounds | rfl
          · exact kept (float_bounded constrains bounds) fun _ => ⟨rfl, rfl⟩
          · exact kept float_divisor fun _ => ⟨rfl, rfl⟩
      | array item length isUnique =>
          cases same
          rcases array_cases constrains with bounds | rfl
          · obtain ⟨d, bounded, rfl⟩ :=
              Option.map_eq_some_iff.1 ((array_bounded constrains bounds).symm.trans applied)
            exact ⟨rfl, fun e other => opened bounded (other rfl)⟩
          · exact kept array_unique fun _ => ⟨rfl, rfl⟩
      | map key value size =>
          cases same
          obtain ⟨d, bounded, rfl⟩ :=
            Option.map_eq_some_iff.1 ((map_bounded constrains).symm.trans applied)
          exact ⟨rfl, fun e other => at?_of_bound bounded (other rfl)⟩
      | record fields allowsUnknown =>
          cases same
          exact kept (record_kept constrains) fun _ => ⟨rfl, rfl⟩
      | union variants representation =>
          cases same
          exact kept (union_kept constrains) fun _ => ⟨rfl, rfl⟩
      | _ => cases same

/-- Constraints commute if they do not compete. -/
theorem commute (different : a ≠ b) (free : competes a b = false) (sound : s.IsSound)
    (vacant : target? a = s.target? → target? b = s.target? → ends a ≠ [] → ends b ≠ [] →
      s.counts = {}) :
    (constrain? a v s).bind (constrain? b w) = (constrain? b w s).bind (constrain? a v) := by
  cases constrains : target? a with
  | none =>
      have idle : constrain? a v = some (α := Shape α) :=
        funext fun _ => constrain?_of_idle constrains
      rw [idle, Option.bind_some, Option.bind_fun_some]
  | some target =>
      cases constrains' : target? b with
      | none =>
          have idle : constrain? b w = some (α := Shape α) :=
            funext fun _ => constrain?_of_idle constrains'
          rw [idle, Option.bind_some, Option.bind_fun_some]
      | some target' =>
          have unkind {c : Directive} {other : Target} (u : Value)
              (constrains : target? c = some other)
              (unlike : s.target? ≠ some other) {d : Directive} (u' : Value) :
              (constrain? d u' s).bind (constrain? c u) = none :=
            Option.bind_eq_none_iff.2 fun t applied =>
              constrain?_eq_none constrains ((constrain?_leaves sound applied).1 ▸ unlike)
          by_cases like : s.target? = some target
          case neg =>
            rw [constrain?_eq_none constrains like, unkind v constrains like w, Option.bind_none]
          by_cases like' : s.target? = some target'
          case neg =>
            rw [constrain?_eq_none constrains' like', unkind w constrains' like' v,
              Option.bind_none]
          rw [constrains, constrains', like] at vacant
          cases s with
          | text length pat language =>
              cases like
              cases like'
              have nonempty : length.open? = some length := open?_of_isSound (.inl rfl) sound
              exact text_commute constrains constrains' different free nonempty (vacant rfl rfl)
          | integer range multipleOf =>
              cases like
              cases like'
              exact number_commute (.integer · multipleOf)
                (fun n r => .integer r (match n with | .int i => some i | .float _ => multipleOf))
                (fun _ _ _ => integer_bounded) (fun _ _ _ _ => integer_bounded)
                  (fun _ _ => integer_divisor)
                constrains constrains' different free range
          | float range multipleOf =>
              cases like
              cases like'
              exact number_commute (.float · multipleOf) (fun n r => .float r (some n)) (fun _ _ _ => float_bounded)
                (fun _ _ _ _ => float_bounded)
                  (fun _ _ => float_divisor) constrains constrains' different free range
          | array item length isUnique =>
              cases like
              cases like'
              exact array_commute constrains constrains' different free (vacant rfl rfl)
          | map key value size =>
              cases like
              cases like'
              exact map_commute constrains constrains' different free
          | record fields allowsUnknown =>
              cases like
              cases like'
              rw [record_kept constrains, record_kept constrains']
              exact (record_kept constrains').trans (record_kept constrains).symm
          | union variants representation =>
              cases like
              cases like'
              rw [union_kept constrains, union_kept constrains']
              exact (union_kept constrains').trans (union_kept constrains).symm
          | _ => cases like

end Constraint

end DocSchema
