import DocSchema.Extraction

set_option autoImplicit false

namespace DocSchema

/-- Whether a result, if there is one, is of a kind. -/
def Gives {ε α : Type} (post : α → Prop) (x : Except ε α) : Prop :=
  ∀ a, x = .ok a → post a

namespace Gives

variable {ε α β : Type} {post wider : α → Prop} {next : β → Prop} {x : Except ε α}

theorem ok {a : α} (holds : post a) : Gives post (.ok a : Except ε α) := by
  intro b same
  cases same
  exact holds

theorem error {e : ε} : Gives post (.error e : Except ε α) := by
  intro b same
  cases same

theorem any : Gives (fun _ => True) x :=
  fun _ _ => trivial

theorem bind {f : α → Except ε β} (first : Gives post x)
    (further : ∀ a, post a → Gives next (f a)) :
    Gives next (x >>= f) := by
  intro b same
  cases x with
  | error e => cases same
  | ok a => exact further a (first a rfl) b same

theorem ite {p : Prop} [Decidable p] {y : Except ε α} (yes : p → Gives post x)
    (no : ¬ p → Gives post y) :
    Gives post (if p then x else y) := by
  by_cases h : p
  · rw [if_pos h]
    exact yes h
  · rw [if_neg h]
    exact no h

theorem mono (gives : Gives post x) (more : ∀ a, post a → wider a) : Gives wider x :=
  fun a same => more a (gives a same)

end Gives

/-- Whether the lower bound is not above the upper one, as far as both are given. -/
def Counts.IsOrdered (c : Counts) : Prop :=
  ∀ min ∈ c.min, ∀ max ∈ c.max, min ≤ max

theorem Counts.isOrdered_iff {c : Counts} : c.IsOrdered ↔ c.isEmpty = false := by
  obtain ⟨min, max⟩ := c
  cases min <;> cases max <;> simp [IsOrdered, isEmpty]

/-- Whether a tag and a content have different names. -/
def Representation.IsSound (r : Representation) : Prop :=
  ∀ tag content, r = .adjacent tag content → tag ≠ content

namespace Shape

variable {α : Type}

/-- Whether a type makes sense by itself, whatever the types below it. -/
def IsSound : Shape α → Prop
  | .text length pattern _ => length.IsOrdered ∧ ∀ p ∈ pattern, (Pattern.compile? p).isSome = true
  | .integer _ divisor => ∀ i ∈ divisor, 0 < i.toInt
  | .float _ divisor => ∀ n ∈ divisor, n.isPositive = true
  | .record fields _ => (fields.map (·.name)).Nodup
  | .array _ length _ => length.IsOrdered
  | .union variants representation =>
    variants ≠ [] ∧ (variants.map (·.name)).Nodup ∧ representation.IsSound
  | _ => True

end Shape

/-- Whether each type of a declaration makes sense by itself. -/
inductive Declaration.IsSound : Declaration → Prop
  | node {origin : Path} {shape : Shape Declaration} {metadata : Metadata} (sound : shape.IsSound)
      (below : ∀ d ∈ shape.children, d.IsSound) : (Declaration.node origin shape metadata).IsSound

def Shape.IsSoundBelow (shape : Shape Declaration) : Prop :=
  shape.IsSound ∧ ∀ d ∈ shape.children, d.IsSound

namespace Constraint

theorem lengthOf_gives (c : Counts) : Gives Counts.IsOrdered (lengthOf c) :=
  .ite (fun _ => .error) fun nonempty => .ok (Counts.isOrdered_iff.2 (Bool.eq_false_iff.2 nonempty))

theorem itemsOf_gives (c : Counts) : Gives Counts.IsOrdered (itemsOf c) :=
  .ite (fun _ => .error) fun nonempty => .ok (Counts.isOrdered_iff.2 (Bool.eq_false_iff.2 nonempty))

theorem pattern_gives (v : Value) :
    Gives (fun p => (Pattern.compile? p).isSome = true) (pattern v) :=
  .bind .any fun _ _ => .ite (fun compiles => .ok compiles) fun _ => .error

theorem divisor_gives (isInteger : Bool) (v : Value) :
    Gives (fun n => n.isPositive = true) (divisor isInteger v) :=
  .bind .any fun _ _ => .ite (fun positive => .ok positive) fun _ => .error

theorem toInt_pos {i : Int64} (positive : (Number.int i).isPositive = true) : 0 < i.toInt := by
  have above : Ord.compare (i.toInt * 2 ^ 1074) 0 = .gt := eq_of_beq positive
  have scaled : 0 < i.toInt * 2 ^ 1074 := Int.compare_eq_gt.1 above
  omega

variable {α : Type} {s : Shape α}

/-- What a constraint does to a sound type: it stays sound, and the types below it stay. -/
def Keeps (s narrowed : Shape α) : Prop :=
  narrowed.IsSound ∧ narrowed.children = s.children

theorem constrainText_gives (a : Directive) (v : Value) (sound : s.IsSound) :
    Gives (Keeps s) (constrainText a v s) := by
  cases s
  case text length pat language =>
    obtain ⟨ordered, compiles⟩ := sound
    cases a
    case length =>
      exact .bind .any fun c _ => (lengthOf_gives c).bind
        fun _ ordered => .ok ⟨⟨ordered, compiles⟩, rfl⟩
    case minLength | maxLength =>
      exact .bind .any fun _ _ => (lengthOf_gives _).bind
        fun _ ordered => .ok ⟨⟨ordered, compiles⟩, rfl⟩
    case pattern =>
      refine (lengthOf_gives _).bind fun _ ordered => (pattern_gives v).bind fun p compiles => ?_
      refine .ok ⟨⟨ordered, ?_⟩, rfl⟩
      simpa using compiles
    case language =>
      exact (lengthOf_gives _).bind
        fun _ ordered => .bind .any fun _ _ => .ok ⟨⟨ordered, compiles⟩, rfl⟩
    all_goals exact .ok ⟨⟨ordered, compiles⟩, rfl⟩
  all_goals exact .error

theorem constrainNumber_gives (a : Directive) (v : Value) (sound : s.IsSound) :
    Gives (Keeps s) (constrainNumber a v s) := by
  cases s
  case integer r m =>
    cases a
    case multipleOf =>
      refine (divisor_gives true v).bind fun n positive => ?_
      cases n with
      | int i =>
          refine .ok ⟨?_, rfl⟩
          intro j same
          cases same
          exact toInt_pos positive
      | float x => exact .ok ⟨sound, rfl⟩
    all_goals exact .bind .any fun _ _ => .ok ⟨sound, rfl⟩
  case float r m =>
    cases a
    case multipleOf =>
      refine (divisor_gives false v).bind fun n positive => .ok ⟨?_, rfl⟩
      intro n' same
      cases same
      exact positive
    all_goals exact .bind .any fun _ _ => .ok ⟨sound, rfl⟩
  all_goals exact .error

theorem constrainArray_gives (a : Directive) (v : Value) (sound : s.IsSound) :
    Gives (Keeps s) (constrainArray a v s) := by
  cases s
  case array item length isUnique =>
    cases a
    case minItems | maxItems =>
      exact .bind .any fun _ _ => (itemsOf_gives _).bind fun _ ordered => .ok ⟨ordered, rfl⟩
    case unique => exact .bind .any fun _ _ => .ok ⟨sound, rfl⟩
    all_goals exact .ok ⟨sound, rfl⟩
  all_goals exact .error

theorem constrainMap_gives (a : Directive) (v : Value) : Gives (Keeps s) (constrainMap a v s) := by
  cases s
  case map key value size =>
    cases a
    case minSize | maxSize => exact .bind .any fun _ _ => .ok ⟨trivial, rfl⟩
    all_goals exact .ok ⟨trivial, rfl⟩
  all_goals exact .error

theorem malformed_gives {post : Shape α → Prop} {name : Bytes} {x : Except Requirement (Shape α)}
    (gives : Gives post x) : Gives post (malformed name x) := by
  cases x with
  | ok s => exact .ok (gives s rfl)
  | error requirement => exact .error

theorem apply_gives (name : Bytes) (v : Value) (sound : s.IsSound) :
    Gives (Keeps s) (apply name v s) := by
  unfold apply
  split
  · exact .ok ⟨sound, rfl⟩
  · next a named =>
    split
    · exact .ok ⟨sound, rfl⟩
    · exact malformed_gives (constrainText_gives a v sound)
    · exact malformed_gives (constrainNumber_gives a v sound)
    · exact malformed_gives (constrainArray_gives a v sound)
    · exact malformed_gives (constrainMap_gives a v)
    · split
      · exact .ok ⟨sound, rfl⟩
      · exact .error
    · split
      · exact .ok ⟨sound, rfl⟩
      · exact .error

/-- However many constraints are applied, in whatever order, a sound type stays sound. -/
theorem applyAll_gives (path : Path) (extensions : List (Bytes × Value)) (sound : s.IsSound) :
    Gives (Keeps s) (applyAll path s extensions) := by
  induction extensions generalizing s with
  | nil => exact .ok ⟨sound, rfl⟩
  | cons item rest ih =>
      have step := apply_gives item.1 item.2 sound
      rw [applyAll]
      cases applied : apply item.1 item.2 s with
      | error defect => exact .error
      | ok narrowed =>
          obtain ⟨sound', same⟩ := step narrowed applied
          exact (ih sound').mono fun last keeps => ⟨keeps.1, keeps.2.trans same⟩

end Constraint

namespace Declaration

/-- A type without a type below it. -/
theorem isSoundBelow_of_leaf {shape : Shape Declaration} (sound : shape.IsSound)
    (leaf : shape.children = []) : shape.IsSoundBelow :=
  ⟨sound, by simp [leaf]⟩

theorem ofExpression_sound (e : TypeExpression) : (ofExpression e).IsSoundBelow := by
  cases e
  case text => exact isSoundBelow_of_leaf ⟨Counts.isOrdered_iff.2 rfl, by simp⟩ rfl
  case integer | float => exact isSoundBelow_of_leaf (fun _ none => by cases none) rfl
  all_goals exact isSoundBelow_of_leaf trivial rfl

theorem bare_sound {path : Path} {shape : Shape Declaration} (sound : shape.IsSoundBelow) :
    (bare path shape).IsSound :=
  .node sound.1 sound.2

mutual

theorem ofTypeDirective_sound (path : Path) (v : Value) :
    Gives IsSound (ofTypeDirective path v) := by
  unfold ofTypeDirective
  split
  · next vs extensions =>
    exact (ofTypeDirectives_sound path 0 vs).bind fun ds below => .ok (bare_sound ⟨trivial, below⟩)
  · split
    · exact .error
    · split
      · next e read => exact .ok (bare_sound (ofExpression_sound e))
      · exact .error

theorem ofTypeDirectives_sound (path : Path) (index : UInt8) (vs : List Value) :
    Gives (fun ds => ∀ d ∈ ds, d.IsSound) (ofTypeDirectives path index vs) := by
  cases vs with
  | nil => exact .ok (by simp)
  | cons v vs =>
      exact (ofTypeDirective_sound _ v).bind fun d sound =>
        (ofTypeDirectives_sound path (index + 1) vs).bind fun ds rest =>
          .ok (List.forall_mem_cons.2 ⟨sound, rest⟩)

end

/-- Names stay different and apart from those taken if one that is not taken comes first. -/
theorem distinct_cons {α : Type} (name : α → Bytes) (a : α) {rest : List α} {seen : List Bytes}
    (fresh : name a ∉ seen) (distinct : (rest.map name).Nodup)
    (apart : ∀ b ∈ rest, name b ∉ name a :: seen) :
    ((a :: rest).map name).Nodup ∧ ∀ b ∈ a :: rest, name b ∉ seen := by
  refine ⟨List.nodup_cons.2 ⟨fun taken => ?_, distinct⟩,
    List.forall_mem_cons.2 ⟨fresh, fun b member taken => ?_⟩⟩
  · obtain ⟨b, member, same⟩ := List.mem_map.1 taken
    exact apart b member (same ▸ List.mem_cons_self)
  · exact apart b member (List.mem_cons_of_mem (name a) taken)

/-- Names that are different and apart from those taken are apart from the first one, too. -/
theorem distinct_rest {α : Type} (name : α → Bytes) {a : α} {rest : List α} {seen : List Bytes}
    (distinct : ((a :: rest).map name).Nodup) (apart : ∀ b ∈ a :: rest, name b ∉ seen) :
    (rest.map name).Nodup ∧ ∀ b ∈ rest, name b ∉ name a :: seen := by
  obtain ⟨fresh, distinct⟩ := List.nodup_cons.1 distinct
  refine ⟨distinct, fun b member taken => ?_⟩
  rcases List.mem_cons.1 taken with same | before
  · exact fresh (List.mem_map.2 ⟨b, member, same⟩)
  · exact apart b (List.mem_cons_of_mem a member) before

theorem representation_gives (v : Value) (path : Path) :
    Gives Representation.IsSound (representation v path) := by
  unfold representation
  split
  · refine .ite (fun _ => .ok ?_) fun _ => .ite (fun _ => .ok ?_) fun _ => .error
    · exact fun _ _ same => by cases same
    · exact fun _ _ same => by cases same
  · refine .bind .any fun parts _ => ?_
    split
    · exact .error
    · exact .ok fun _ _ same => by cases same
    · next tag content =>
      refine .ite (fun _ => .error) fun apart => .ok fun _ _ same => ?_
      cases same
      exact Ne.symm apart
  · exact .error

section Parts

variable {read : Reader} (sound : ∀ v path placement, Gives IsSound (read v path placement))
include sound

theorem tupleElements_sound (path : Path) (index : UInt8) (vs : List Value) :
    Gives (fun ds => ∀ d ∈ ds, d.IsSound) (tupleElements read path index vs) := by
  induction vs generalizing index with
  | nil => exact .ok (by simp)
  | cons v vs ih =>
      have whole (d : Declaration) (sound : d.IsSound) :
          Gives (fun ds => ∀ d ∈ ds, d.IsSound)
            (do return d :: (← tupleElements read path (index + 1) vs)) :=
        (ih (index + 1)).bind fun ds rest => .ok (List.forall_mem_cons.2 ⟨sound, rest⟩)
      unfold tupleElements
      dsimp only
      split
      · exact (sound _ _ _).bind whole
      · exact whole _ (bare_sound (isSoundBelow_of_leaf trivial rfl))

/-- The fields have different names, none of them taken before. -/
theorem recordFields_sound (path : Path) (seen : List Bytes) (es : List (Key × Value)) :
    Gives (fun fields => (fields.map (·.name)).Nodup ∧ (∀ f ∈ fields, f.name ∉ seen) ∧
        ∀ f ∈ fields, f.schema.IsSound)
      (recordFields read path seen es) := by
  induction es generalizing seen with
  | nil => exact .ok (by simp)
  | cons e es ih =>
      obtain ⟨key, v⟩ := e
      rw [recordFields]
      split
      · exact ih seen
      · next name spelled =>
        refine .ite (fun _ => .error) fun fresh => .ite (fun _ => ?_) fun _ => ?_
        · refine (sound _ _ _).bind fun d sound => .bind .any fun isOptional _ =>
            (ih (name :: seen)).bind fun fields rest => .ok ?_
          obtain ⟨distinct, apart, below⟩ := rest
          obtain ⟨distinct, apart⟩ :=
            distinct_cons Field.name ⟨name, d, isOptional⟩ fresh distinct apart
          exact ⟨distinct, apart, List.forall_mem_cons.2 ⟨sound, below⟩⟩
        · refine (ih (name :: seen)).mono fun fields rest => ⟨rest.1, ?_, rest.2.2⟩
          exact fun f member taken => rest.2.1 f member (List.mem_cons_of_mem name taken)

/-- The variants have different names, none of them taken before. -/
theorem unionVariants_sound (path : Path) (seen : List Bytes) (es : List (Key × Value)) :
    Gives (fun variants => (variants.map (·.name)).Nodup ∧ (∀ v ∈ variants, v.name ∉ seen) ∧
        ∀ v ∈ variants, v.schema.IsSound)
      (unionVariants read path seen es) := by
  induction es generalizing seen with
  | nil => exact .ok (by simp)
  | cons e es ih =>
      obtain ⟨key, v⟩ := e
      rw [unionVariants]
      split
      · exact .error
      · next name spelled =>
        refine .ite (fun _ => .error) fun fresh => ?_
        have whole (d : Declaration) (sound : d.IsSound) :
            Gives (fun variants => (variants.map (·.name)).Nodup ∧ (∀ v ∈ variants, v.name ∉ seen) ∧
                ∀ v ∈ variants, v.schema.IsSound)
              (do return { name, schema := d } :: (← unionVariants read path (name :: seen) es)) := by
          refine (ih (name :: seen)).bind fun variants rest => .ok ?_
          obtain ⟨distinct, apart, below⟩ := rest
          obtain ⟨distinct, apart⟩ := distinct_cons Variant.name ⟨name, d⟩ fresh distinct apart
          exact ⟨distinct, apart, List.forall_mem_cons.2 ⟨sound, below⟩⟩
        dsimp only
        split
        · exact whole _ (bare_sound (isSoundBelow_of_leaf trivial rfl))
        · exact (sound _ _ _).bind fun d sound => .ite (fun _ => .error) fun _ => whole d sound

theorem union_sound (v variants : Value) (path : Path) :
    Gives Shape.IsSoundBelow (union read v variants path) := by
  unfold union
  dsimp only
  split
  · next es mapped =>
    refine (unionVariants_sound sound _ [] es).bind fun members known => ?_
    refine .ite (fun _ => .error) fun nonempty => ?_
    obtain ⟨distinct, -, below⟩ := known
    have some : members ≠ [] := fun none => nonempty (by simp [none])
    have below : ∀ d ∈ members.map (·.schema), d.IsSound := by
      simpa using below
    split
    · exact .ok ⟨⟨some, distinct, fun _ _ same => by cases same⟩, below⟩
    · exact (representation_gives _ _).bind fun r apart => .ok ⟨⟨some, distinct, apart⟩, below⟩
  · exact .error

theorem map_sound (declaration : Value) (path : Path) :
    Gives Shape.IsSoundBelow (map read declaration path) := by
  unfold map
  split
  · refine (sound _ _ _).bind
      fun key first => (sound _ _ _).bind fun value second => .ok ⟨trivial, ?_⟩
    simp [Shape.children, first, second]
  · exact .error

theorem unannotated_sound (v : Value) (path : Path) (placement : Placement) :
    Gives Shape.IsSoundBelow (unannotated read v path placement) := by
  have unknown : Gives Shape.IsSoundBelow (.ok .any : Extract (Shape Declaration)) :=
    .ok (isSoundBelow_of_leaf trivial rfl)
  unfold unannotated
  split
  · next e read => exact .ok (ofExpression_sound e)
  · split
    · next vs held =>
      refine .ite (fun _ => ?_) fun _ => unknown
      exact (tupleElements_sound sound path 0 vs).bind fun ds below => .ok ⟨trivial, below⟩
    · next es held =>
      refine .ite (fun _ => ?_) fun _ => unknown
      refine (recordFields_sound sound path [] es).bind
        fun fields known => .bind .any fun _ _ => .ok ?_
      exact ⟨known.1, by simpa [Shape.children] using known.2.2⟩
    · exact unknown

theorem annotated_sound (v : Value) (a : Directive) (held : Value) (path : Path) :
    Gives (fun found => found.2.IsSoundBelow) (annotated read v a held path) := by
  unfold annotated
  dsimp only
  split
  · refine (ofTypeDirective_sound _ held).bind fun d sound => .ok ?_
    cases sound with
    | node sound below => exact ⟨sound, below⟩
  · refine (sound _ _ _).bind fun d sound => .ok ⟨Counts.isOrdered_iff.2 rfl, ?_⟩
    simpa [Shape.children] using sound
  · exact (map_sound sound held _).bind fun shape sound => .ok sound
  · exact .ok (isSoundBelow_of_leaf trivial rfl)
  · exact (union_sound sound v held path).bind fun shape sound => .ok sound

theorem base_sound (v : Value) (path : Path) (placement : Placement) :
    Gives (fun found => found.2.IsSoundBelow) (base read v path placement) := by
  unfold base
  split
  · exact (unannotated_sound sound v path placement).bind fun shape sound => .ok sound
  · next a held only =>
    split
    · exact annotated_sound sound v a held path
    · exact .error
  · exact .error

theorem readWith_sound (v : Value) (path : Path) (placement : Placement) :
    Gives IsSound (readWith read v path placement) := by
  refine (base_sound sound v path placement).bind fun found whole => ?_
  obtain ⟨origin, shape⟩ := found
  refine (Constraint.applyAll_gives path v.extensions whole.1).bind fun narrowed keeps =>
    .bind .any fun _ _ => .ok (.node keeps.1 ?_)
  rw [keeps.2]
  exact whole.2

end Parts

theorem readTo_sound (depth : Nat) (v : Value) (path : Path) (placement : Placement) :
    Gives IsSound (readTo depth v path placement) := by
  induction depth generalizing v path placement with
  | zero => exact .ok (bare_sound (isSoundBelow_of_leaf trivial rfl))
  | succ depth ih => exact readWith_sound ih v path placement

/-- Whatever a value declares, each type of it makes sense by itself. -/
theorem ofValue_sound (v : Value) (path : Path) (placement : Placement) :
    Gives IsSound (ofValue v path placement) :=
  readTo_sound v.size v path placement

end Declaration

end DocSchema
