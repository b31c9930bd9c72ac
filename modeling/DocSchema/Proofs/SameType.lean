import DocSchema.Proofs.Bisimulation
import DocSchema.Proofs.Lists

set_option autoImplicit false

namespace DocSchema

section Options

variable {α : Type} {same : α → α → Bool} {a b c : Option α}

theorem bothOrNeither_refl (refl : ∀ x ∈ a, same x x = true) : bothOrNeither same a a = true := by
  cases a with
  | none => rfl
  | some x => exact refl x rfl

theorem bothOrNeither_symm (symm : ∀ x ∈ a, ∀ y ∈ b, same x y = true → same y x = true)
    (related : bothOrNeither same a b = true) : bothOrNeither same b a = true := by
  cases a <;> cases b <;> try cases related
  case none => rfl
  case some x y => exact symm x rfl y rfl related

theorem bothOrNeither_trans (trans : ∀ x y z, same x y = true → same y z = true → same x z = true)
    (first : bothOrNeither same a b = true) (second : bothOrNeither same b c = true) :
    bothOrNeither same a c = true := by
  cases a <;> cases b <;> try cases first
  all_goals cases c <;> try cases second
  case none => rfl
  case some x y z => exact trans x y z first second

end Options

theorem sameList_refl {α : Type} {same : α → α → Bool} {as : List α}
    (refl : ∀ a ∈ as, same a a = true) : sameList same as as = true :=
  sameList_iff.2 (List.forall₂_same.2 refl)

theorem Binary64.same_refl {x : Binary64} (real : x.isNaN = false) : x.same x = true := by
  refine same_iff.2 ?_
  unfold extended?
  by_cases finite : x.isFinite = true
  · exact ⟨_, by rw [if_pos finite], by rw [if_pos finite]⟩
  · have whole : x.fraction = 0 := by
      simp_all [isFinite, isNaN]
    simp [finite, whole]

namespace Number

variable {m n k : Number}

/-- Whether the number stands for no number at all. -/
def isNaN : Number → Bool
  | .int _ => false
  | .float x => x.isNaN

theorem same_refl (real : n.isNaN = false) : n.same n = true := by
  cases n with
  | int i => exact beq_self_eq_true i
  | float x => exact Binary64.same_refl real

theorem same_symm (same : m.same n = true) : n.same m = true := by
  cases m <;> cases n <;> try cases same
  case int i j => exact beq_iff_eq.2 (beq_iff_eq.1 (show (i == j) = true from same)).symm
  case float x y => exact Binary64.same_symm same

theorem same_trans (first : m.same n = true) (second : n.same k = true) : m.same k = true := by
  cases m <;> cases n <;> try cases first
  all_goals cases k <;> try cases second
  case int i j l =>
    have left : i = j := beq_iff_eq.1 first
    exact left ▸ second
  case float x y z => exact Binary64.same_trans first second

end Number

namespace Bound

variable {a b c : Bound}

theorem same_iff : a.same b = true ↔ a.limit.same b.limit = true ∧ a.exclusive = b.exclusive := by
  rw [same, Bool.and_eq_true, beq_iff_eq]

theorem same_symm (same : a.same b = true) : b.same a = true := by
  rw [same_iff] at same ⊢
  exact ⟨Number.same_symm same.1, same.2.symm⟩

theorem same_trans (first : a.same b = true) (second : b.same c = true) : a.same c = true := by
  rw [same_iff] at first second ⊢
  exact ⟨Number.same_trans first.1 second.1, first.2.trans second.2⟩

end Bound

namespace Range

variable {r s t : Range}

def limits (r : Range) : List Number :=
  (r.min.toList ++ r.max.toList).map (·.limit)

theorem same_refl (real : ∀ n ∈ r.limits, n.isNaN = false) : r.same r = true := by
  have bound {b : Bound} (inside : b ∈ r.min.toList ++ r.max.toList) : b.same b = true :=
    Bound.same_iff.2 ⟨Number.same_refl (real _ (List.mem_map_of_mem (f := Bound.limit) inside)),
      rfl⟩
  rw [same, Bool.and_eq_true]
  exact ⟨bothOrNeither_refl fun b low => bound (List.mem_append_left _ (Option.mem_toList.2 low)),
    bothOrNeither_refl fun b high => bound (List.mem_append_right _ (Option.mem_toList.2 high))⟩

theorem same_symm (same : r.same s = true) : s.same r = true := by
  rw [Range.same, Bool.and_eq_true] at same ⊢
  exact ⟨bothOrNeither_symm (fun _ _ _ _ => Bound.same_symm) same.1,
    bothOrNeither_symm (fun _ _ _ _ => Bound.same_symm) same.2⟩

theorem same_trans (first : r.same s = true) (second : s.same t = true) : r.same t = true := by
  rw [Range.same, Bool.and_eq_true] at first second ⊢
  exact ⟨bothOrNeither_trans (fun _ _ _ => Bound.same_trans) first.1 second.1,
    bothOrNeither_trans (fun _ _ _ => Bound.same_trans) first.2 second.2⟩

end Range

namespace Value

inductive IsReal : Value → Prop
  | intro {v : Value} (float : ∀ x, v.content = .primitive (.float x) → x.isNaN = false)
      (parts : ∀ part ∈ v.root.parts, IsReal part) : IsReal v

variable {v : Value}

theorem sameItems_refl {κ : Type} [DecidableEq κ] {items : List (κ × Value)}
    (unique : (items.map (·.1)).Nodup) (refl : ∀ e ∈ items, e.2.same e.2 = true) :
    sameItems same items items = true :=
  sameItems_iff.2 ⟨rfl, fun e member => ⟨e.2, lookup?_of_mem unique member, refl e member⟩⟩

theorem same_refl (unique : v.HasUniqueKeys) (real : v.IsReal) : v.same v = true := by
  induction real with
  | @intro v float parts ih =>
      have part {w : Value} (inside : w ∈ v.root.parts) : w.same w = true :=
        ih w inside (unique.part inside)
      refine same_iff.2 ⟨?_, sameItems_refl unique.extensions fun e member => part (mem_parts_extensions member)⟩
      have inside {w : Value} (member : w ∈ v.content.parts) : w.same w = true :=
        part (mem_parts_content member)
      cases content : v.content with
      | hole => rfl
      | primitive p =>
          cases p with
          | float x => exact Binary64.same_refl (float x content)
          | _ => exact beq_self_eq_true _
      | map entries =>
          rw [content] at inside
          exact sameItems_refl (unique.entries entries content) fun e member =>
            inside (List.mem_map_of_mem member)
      | array items =>
          rw [content] at inside
          exact sameList_refl fun w => inside
      | tuple elements =>
          rw [content] at inside
          exact sameList_refl fun w => inside

end Value

namespace Metadata

variable {m n k : Metadata}

def values (m : Metadata) : List Value :=
  m.defaultValue.toList ++ m.examples ++ m.extensions.map (·.2)

theorem same_iff : m.same n = true ↔
    m.description = n.description ∧ m.isDeprecated = n.isDeprecated ∧
      bothOrNeither Value.same m.defaultValue n.defaultValue = true ∧
      sameList Value.same m.examples n.examples = true ∧
      sameList (fun a b => a.1 == b.1 && a.2.same b.2) m.extensions n.extensions = true := by
  simp only [same, Bool.and_eq_true, beq_iff_eq, and_assoc]

theorem mem_values {v : Value} :
    v ∈ m.values ↔ v ∈ m.defaultValue ∨ v ∈ m.examples ∨ ∃ e ∈ m.extensions, e.2 = v := by
  simp [values]

theorem same_refl (refl : ∀ v ∈ m.values, v.same v = true) : m.same m = true := by
  refine same_iff.2 ⟨rfl, rfl, bothOrNeither_refl fun v member => ?_, sameList_refl fun v member => ?_,
    sameList_refl fun e member => ?_⟩
  · exact refl v (mem_values.2 (.inl member))
  · exact refl v (mem_values.2 (.inr (.inl member)))
  · rw [beq_self_eq_true, Bool.true_and]
    exact refl e.2 (mem_values.2 (.inr (.inr ⟨e, member, rfl⟩)))

theorem same_symm (symm : ∀ v ∈ m.values, ∀ w ∈ n.values, v.same w = true → w.same v = true)
    (same : m.same n = true) : n.same m = true := by
  obtain ⟨description, deprecated, default, examples, extensions⟩ := same_iff.1 same
  refine same_iff.2 ⟨description.symm, deprecated.symm, bothOrNeither_symm ?_ default, sameList_symm ?_ examples,
    sameList_symm ?_ extensions⟩
  · intro v left w right
    exact symm v (mem_values.2 (.inl left)) w (mem_values.2 (.inl right))
  · intro v left w right
    exact symm v (mem_values.2 (.inr (.inl left))) w (mem_values.2 (.inr (.inl right)))
  · intro e left f right
    simp only [Bool.and_eq_true, beq_iff_eq]
    rintro ⟨names, values⟩
    exact ⟨names.symm, symm e.2 (mem_values.2 (.inr (.inr ⟨e, left, rfl⟩))) f.2
      (mem_values.2 (.inr (.inr ⟨f, right, rfl⟩))) values⟩

theorem same_trans (first : m.same n = true) (second : n.same k = true) : m.same k = true := by
  obtain ⟨description, deprecated, default, examples, extensions⟩ := same_iff.1 first
  obtain ⟨description', deprecated', default', examples', extensions'⟩ := same_iff.1 second
  refine same_iff.2 ⟨description.trans description', deprecated.trans deprecated',
    bothOrNeither_trans (fun _ _ _ => Value.same_trans) default default',
    sameList_trans (fun _ _ _ _ _ _ => Value.same_trans) examples examples',
    sameList_trans ?_ extensions extensions'⟩
  intro e _ f _ g _
  simp only [Bool.and_eq_true, beq_iff_eq]
  rintro ⟨names, values⟩ ⟨names', values'⟩
  exact ⟨names.trans names', Value.same_trans values values'⟩

end Metadata

namespace Shape

def numbers {α : Type} : Shape α → List Number
  | .integer range _ => range.limits
  | .float range multipleOf => range.limits ++ multipleOf.toList
  | _ => []

variable {R S : SchemaId → SchemaId → Prop} {a b c : Shape SchemaId}

theorem Matches.refl (values : ∀ v, a = .literal v → v.same v = true)
    (real : ∀ n ∈ a.numbers, n.isNaN = false) : a.Matches Eq a := by
  cases a with
  | text length pattern language => exact .text length pattern language
  | integer range multipleOf => exact .integer (Range.same_refl real) multipleOf
  | float range multipleOf =>
      refine .float (Range.same_refl fun n limit => real n (List.mem_append_left _ limit)) ?_
      exact bothOrNeither_refl fun n divisor =>
        Number.same_refl (real n (List.mem_append_right _ (Option.mem_toList.2 divisor)))
  | boolean => exact .boolean
  | null => exact .null
  | any => exact .any
  | literal expected => exact .literal (values expected rfl)
  | record fields allowsUnknown =>
      exact .record allowsUnknown (List.forall₂_same.2 fun f _ => ⟨rfl, rfl, rfl⟩)
  | array item length isUnique => exact .array length isUnique rfl
  | map key value size => exact .map size rfl rfl
  | tuple elements => exact .tuple (List.forall₂_same.2 fun _ _ => rfl)
  | union variants representation =>
      exact .union representation (List.forall₂_same.2 fun v _ => ⟨rfl, rfl⟩)
  | reference name => exact .reference name

theorem Matches.symm (values : ∀ v w, a = .literal v → b = .literal w → v.same w = true →
    w.same v = true)
    (matched : a.Matches R b) : b.Matches (fun y x => R x y) a := by
  cases matched with
  | text length pattern language => exact .text length pattern language
  | integer ranges multipleOf => exact .integer (Range.same_symm ranges) multipleOf
  | float ranges divisors =>
      exact .float (Range.same_symm ranges)
        (bothOrNeither_symm (fun _ _ _ _ => Number.same_symm) divisors)
  | boolean => exact .boolean
  | null => exact .null
  | any => exact .any
  | literal same => exact .literal (values _ _ rfl rfl same)
  | record allowsUnknown fields =>
      exact .record allowsUnknown
        (fields.flip.imp fun {_ _} f => ⟨f.name.symm, f.isOptional.symm, f.schema⟩)
  | array length isUnique item => exact .array length isUnique item
  | map size key value => exact .map size key value
  | tuple elements => exact .tuple elements.flip
  | union representation variants =>
      exact .union representation (variants.flip.imp fun {_ _} v => ⟨v.name.symm, v.schema⟩)
  | reference name => exact .reference name

theorem Matches.trans (first : a.Matches R b) (second : b.Matches S c) :
    a.Matches (fun x z => ∃ y, R x y ∧ S y z) c := by
  cases first with
  | text length pattern language =>
      cases second
      exact .text length pattern language
  | integer ranges multipleOf =>
      cases second with
      | integer ranges' _ => exact .integer (Range.same_trans ranges ranges') multipleOf
  | float ranges divisors =>
      cases second with
      | float ranges' divisors' =>
          exact .float (Range.same_trans ranges ranges')
            (bothOrNeither_trans (fun _ _ _ => Number.same_trans) divisors divisors')
  | boolean =>
      cases second
      exact .boolean
  | null =>
      cases second
      exact .null
  | any =>
      cases second
      exact .any
  | literal values =>
      cases second with
      | literal values' => exact .literal (Value.same_trans values values')
  | record allowsUnknown fields =>
      cases second with
      | record _ fields' =>
          exact .record allowsUnknown (forall₂_through (fun _ _ _ f g =>
            ⟨f.name.trans g.name, f.isOptional.trans g.isOptional, _, f.schema,
              g.schema⟩) fields fields')
  | array length isUnique item =>
      cases second with
      | array _ _ item' => exact .array length isUnique ⟨_, item, item'⟩
  | map size key value =>
      cases second with
      | map _ key' value' => exact .map size ⟨_, key, key'⟩ ⟨_, value, value'⟩
  | tuple elements =>
      cases second with
      | tuple elements' =>
          exact .tuple (forall₂_through (fun _ _ _ x y => ⟨_, x, y⟩) elements elements')
  | union representation variants =>
      cases second with
      | union _ variants' =>
          exact .union representation (forall₂_through (fun _ _ _ v w =>
            ⟨v.name.trans w.name, _, v.schema, w.schema⟩) variants variants')
  | reference name =>
      cases second
      exact .reference name

end Shape

/-- Whether two types are equal, where `R` relates the types below them in order. -/
structure SchemaNode.Matches (R : SchemaId → SchemaId → Prop) (m n : SchemaNode) : Prop where
  metadata : m.metadata.same n.metadata = true
  shape : m.shape.Matches R n.shape

namespace SchemaNode

variable {R S : SchemaId → SchemaId → Prop} {m n k : SchemaNode}

theorem mem_values_literal {v : Value} (literal : m.shape = .literal v) : v ∈ m.values := by
  simp [values, literal]

theorem mem_values_metadata {v : Value} (kept : v ∈ m.metadata.values) : v ∈ m.values := by
  unfold values
  rw [List.append_assoc, List.append_assoc, ← List.append_assoc m.metadata.defaultValue.toList]
  exact List.mem_append_right _ kept

theorem Matches.refl (refl : ∀ v ∈ m.values, v.same v = true)
    (real : ∀ n ∈ m.shape.numbers, n.isNaN = false) :
    m.Matches Eq m :=
  ⟨Metadata.same_refl fun v kept => refl v (mem_values_metadata kept),
    .refl (fun v literal => refl v (mem_values_literal literal)) real⟩

theorem Matches.symm (left : ∀ v ∈ m.values, v.HasUniqueKeys)
    (right : ∀ v ∈ n.values, v.HasUniqueKeys)
    (matched : m.Matches R n) : n.Matches (fun y x => R x y) m where
  metadata := Metadata.same_symm (fun v kept w kept' =>
    Value.same_symm (left v (mem_values_metadata kept))
      (right w (mem_values_metadata kept'))) matched.metadata
  shape := matched.shape.symm fun v w literal literal' =>
    Value.same_symm (left v (mem_values_literal literal)) (right w (mem_values_literal literal'))

theorem Matches.trans (first : m.Matches R n) (second : n.Matches S k) :
    m.Matches (fun x z => ∃ y, R x y ∧ S y z) k :=
  ⟨Metadata.same_trans first.metadata second.metadata, first.shape.trans second.shape⟩

end SchemaNode

end DocSchema
