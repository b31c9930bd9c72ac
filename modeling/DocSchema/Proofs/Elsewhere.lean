import DocSchema.Proofs.Concurring
import DocSchema.Proofs.LaidOut

set_option autoImplicit false

namespace DocSchema

/-- What is made of the result of two steps is made of that of the second one. -/
theorem Except.map_bind {ε α β γ : Type} (x : Except ε α) (f : α → Except ε β) (g : β → γ) :
    (x >>= f).map g = x >>= fun a => (f a).map g := by
  cases x <;> rfl

namespace Shape

variable {α β : Type} {R : α → β → Prop} {s : Shape α} {t : Shape β}

/-- Whether two types say the same by themselves, over types that are related. -/
structure Agrees (R : α → β → Prop) (s : Shape α) (t : Shape β) : Prop where
  own : s.skeleton = t.skeleton
  children : List.Forall₂ R s.children t.children

namespace Agrees

theorem record {fs : List (Field α)} {gs : List (Field β)} (allowsUnknown : Bool)
    (fields : List.Forall₂ (Field.Resembles R) fs gs) :
    (Shape.record fs allowsUnknown).Agrees R (.record gs allowsUnknown) where
  own := by
    refine congrArg (Shape.record · allowsUnknown) ?_
    rw [← List.forall₂_eq_eq_eq, List.forall₂_map_left_iff, List.forall₂_map_right_iff]
    exact fields.imp fun {f g} same => congrArg₂ (Field.mk · ()) same.name same.isOptional
  children := by
    rw [Shape.children, Shape.children, List.forall₂_map_left_iff, List.forall₂_map_right_iff]
    exact fields.imp fun {f g} => Field.Resembles.schema

theorem union {vs : List (Variant α)} {ws : List (Variant β)} (representation : Representation)
    (variants : List.Forall₂ (Variant.Resembles R) vs ws) :
    (Shape.union vs representation).Agrees R (.union ws representation) where
  own := by
    refine congrArg (Shape.union · representation) ?_
    rw [← List.forall₂_eq_eq_eq, List.forall₂_map_left_iff, List.forall₂_map_right_iff]
    exact variants.imp fun {v w} same => congrArg (Variant.mk · ()) same.name
  children := by
    rw [Shape.children, Shape.children, List.forall₂_map_left_iff, List.forall₂_map_right_iff]
    exact variants.imp fun {v w} => Variant.Resembles.schema

theorem tuple {as : List α} {bs : List β} (elements : List.Forall₂ R as bs) :
    (Shape.tuple as).Agrees R (.tuple bs) where
  own := by
    refine congrArg Shape.tuple ?_
    rw [← List.forall₂_eq_eq_eq, List.forall₂_map_left_iff, List.forall₂_map_right_iff]
    exact elements.imp fun {_ _} _ => rfl
  children := elements

theorem array {a : α} {b : β} (length : Counts) (isUnique : Bool) (item : R a b) :
    (Shape.array a length isUnique).Agrees R (.array b length isUnique) :=
  ⟨rfl, .cons item .nil⟩

theorem map {a a' : α} {b b' : β} (size : Counts) (key : R a b) (value : R a' b') :
    (Shape.map a a' size).Agrees R (.map b b' size) :=
  ⟨rfl, .cons key (.cons value .nil)⟩

end Agrees

end Shape

namespace Constraint

variable {α β : Type} {R : α → β → Prop} {s : Shape α} {t : Shape β}

theorem constrainText_skeleton (a : Directive) (v : Value) (s : Shape α) :
    (constrainText a v s).map Shape.skeleton = constrainText a v s.skeleton := by
  cases s with
  | text length pat language =>
      cases a <;> simp only [constrainText, Shape.skeleton, Except.map_bind] <;> rfl
  | _ => rfl

theorem constrainNumber_skeleton (a : Directive) (v : Value) (s : Shape α) :
    (constrainNumber a v s).map Shape.skeleton = constrainNumber a v s.skeleton := by
  cases s with
  | integer range multipleOf =>
      cases a with
      | multipleOf =>
          simp only [constrainNumber, Shape.skeleton, Except.map_bind]
          refine congrArg _ (funext fun n => ?_)
          cases n <;> rfl
      | _ =>
          simp only [constrainNumber, Shape.skeleton, Except.map_bind]
          rfl
  | float range multipleOf =>
      cases a <;> simp only [constrainNumber, Shape.skeleton, Except.map_bind] <;> rfl
  | _ => rfl

theorem constrainArray_skeleton (a : Directive) (v : Value) (s : Shape α) :
    (constrainArray a v s).map Shape.skeleton = constrainArray a v s.skeleton := by
  cases s with
  | array item length isUnique =>
      cases a <;> simp only [constrainArray, Shape.skeleton, Except.map_bind] <;> rfl
  | _ => rfl

theorem constrainMap_skeleton (a : Directive) (v : Value) (s : Shape α) :
    (constrainMap a v s).map Shape.skeleton = constrainMap a v s.skeleton := by
  cases s with
  | map key value size =>
      cases a <;> simp only [constrainMap, Shape.skeleton, Except.map_bind] <;> rfl
  | _ => rfl

theorem malformed_skeleton (name : Bytes) {x : Except Requirement (Shape α)}
    {y : Except Requirement (Shape Unit)}
    (same : x.map Shape.skeleton = y) :
    (malformed name x).map Shape.skeleton = malformed name y := by
  subst same
  cases x <;> rfl

theorem apply_skeleton (name : Bytes) (v : Value) (s : Shape α) :
    (apply name v s).map Shape.skeleton = apply name v s.skeleton := by
  unfold apply
  cases Directive.ofName? name with
  | none => rfl
  | some a =>
      dsimp only
      cases target? a with
      | none => rfl
      | some target =>
          cases target with
          | text => exact malformed_skeleton name (constrainText_skeleton a v s)
          | number => exact malformed_skeleton name (constrainNumber_skeleton a v s)
          | array => exact malformed_skeleton name (constrainArray_skeleton a v s)
          | map => exact malformed_skeleton name (constrainMap_skeleton a v s)
          | record => cases s <;> rfl
          | union => cases s <;> rfl

theorem applyAll_skeleton (path : Path) (s : Shape α) (x : List (Bytes × Value)) :
    (applyAll path s x).map Shape.skeleton = applyAll path s.skeleton x := by
  induction x generalizing s with
  | nil => rfl
  | cons e x ih =>
      rw [applyAll, applyAll, ← apply_skeleton]
      cases apply e.1 e.2 s with
      | error defect => rfl
      | ok narrowed => exact ih narrowed

/-- Whether constraints can be applied does not depend on the path. -/
theorem toOption_applyAll_path (path path' : Path) (s : Shape α) (x : List (Bytes × Value)) :
    (applyAll path s x).toOption = (applyAll path' s x).toOption :=
  (toOption_applyAll path s x).trans (toOption_applyAll path' s x).symm

/-- The same constraints make of types that agree types that agree. -/
theorem applyAll_agrees (path path' : Path) (x : List (Bytes × Value)) (same : s.Agrees R t)
    (sound : s.IsSound)
    (sound' : t.IsSound) : Concur (Shape.Agrees R) (applyAll path s x) (applyAll path' t x) := by
  have skeletons : Concur (fun u w => u.skeleton = w.skeleton) (applyAll path s x)
      (applyAll path' t x) := by
    refine .of_map ?_
    rw [applyAll_skeleton, applyAll_skeleton, same.own, toOption_applyAll_path]
  have kept :=
    (skeletons.and_gives (applyAll_gives path x sound)).and_gives' (applyAll_gives path' x sound')
  refine kept.imp fun u w ⟨⟨own, left⟩, right⟩ => ⟨own, ?_⟩
  rw [left.2, right.2]
  exact same.children

end Constraint

namespace Metadata

variable {placement placement' : Placement}

theorem note_elsewhere (named : placement.isNamed = placement'.isNamed) (name : Bytes) (v : Value)
    (m : Metadata) :
    note placement name v m = note placement' name v m := by
  rw [note, note, named]

theorem noteAll_elsewhere (named : placement.isNamed = placement'.isNamed) (path path' : Path)
    (m : Metadata)
    (x : List (Bytes × Value)) :
    Concur Eq (noteAll placement path m x) (noteAll placement' path' m x) := by
  induction x generalizing m with
  | nil => exact .ok rfl
  | cons e x ih =>
      rw [noteAll, noteAll, note_elsewhere named]
      cases note placement' e.1 e.2 m with
      | error requirement => exact .error _ _
      | ok n => exact ih n

end Metadata

def Value.IsBased (v : Value) : Prop :=
  ∃ a ∈ Directive.base, (v.directive? a).isSome = true

namespace Declaration

/-- Whether two declarations are the same but for the paths of their sources. -/
inductive SameButOrigin : Declaration → Declaration → Prop
  | node (origin origin' : Path) {s t : Shape Declaration} {R : Declaration → Declaration → Prop}
      (shapes : s.Agrees R t) (below : ∀ d e, R d e → SameButOrigin d e) (m : Metadata) :
      SameButOrigin (.node origin s m) (.node origin' t m)

namespace SameButOrigin

variable {d e : Declaration}

theorem shapes (same : d.SameButOrigin e) : d.shape.Agrees SameButOrigin e.shape := by
  cases same with
  | node origin origin' shapes below m =>
      exact ⟨shapes.own, shapes.children.imp fun {d e} => below d e⟩

theorem metadata (same : d.SameButOrigin e) : d.metadata = e.metadata := by
  cases same
  rfl

theorem bare (path path' : Path) {s t : Shape Declaration} (shapes : s.Agrees SameButOrigin t) :
    (bare path s).SameButOrigin (.bare path' t) :=
  .node path path' shapes (fun _ _ => id) {}

theorem isEmptyRecord_eq (same : d.SameButOrigin e) : d.isEmptyRecord = e.isEmptyRecord := by
  have own := same.shapes.own
  unfold isEmptyRecord
  generalize d.shape = s, e.shape = t at own
  cases s with
  | record fields allowsUnknown =>
      cases t with
      | record fields' allowsUnknown' => cases fields <;> cases fields' <;> first | rfl | cases own
      | _ => cases own
  | _ => cases t <;> first | rfl | cases own

/-- What has the type of one of them has that of the other one. -/
theorem declares (same : d.SameButOrigin e) {schema : Schema} {id : SchemaId}
    (declares : schema.Declares id d) :
    schema.Declares id e := by
  induction same generalizing id with
  | @node origin origin' s t R shapes below m ih =>
      obtain ⟨laid, found, own, children⟩ := declares.found
      have further : List.Forall₂
          (fun x e => ∃ d, schema.Declares x d ∧ R d e) laid.children t.children :=
        forall₂_through (fun _ _ _ first second => ⟨_, first, second⟩) children shapes.children
      refine .intro found (own.trans shapes.own) further ?_
      rintro x e ⟨d, declares, related⟩
      exact ih d e related declares

end SameButOrigin

theorem ofExpression_agrees (e : TypeExpression) :
    (ofExpression e).Agrees SameButOrigin (ofExpression e) := by
  cases e <;> exact ⟨rfl, .nil⟩

mutual

theorem ofTypeDirective_elsewhere (path path' : Path) (v : Value) :
    Concur SameButOrigin (ofTypeDirective path v) (ofTypeDirective path' v) := by
  unfold ofTypeDirective
  split
  · next vs extensions =>
    exact (ofTypeDirectives_elsewhere path path' 0 vs).bind
      fun _ _ elements => .ok (.bare path path' (.tuple elements))
  · split
    · exact .error _ _
    · split
      · exact .ok (.bare path path' (ofExpression_agrees _))
      · exact .error _ _

theorem ofTypeDirectives_elsewhere (path path' : Path) (index : UInt8) (vs : List Value) :
    Concur (List.Forall₂ SameButOrigin) (ofTypeDirectives path index vs)
      (ofTypeDirectives path' index vs) := by
  cases vs with
  | nil => exact .ok .nil
  | cons v vs =>
      exact (ofTypeDirective_elsewhere _ _ v).bind fun _ _ head =>
        (ofTypeDirectives_elsewhere path path' (index + 1) vs).bind
          fun _ _ tail => .ok (.cons head tail)

end

theorem optionalFlag_elsewhere (path path' : Path) (v : Value) :
    Concur Eq (optionalFlag v path) (optionalFlag v path') := by
  unfold optionalFlag
  split
  · exact .ok rfl
  · split
    · exact .ok rfl
    · exact .error _ _

theorem unknownFieldsPolicy_elsewhere (path path' : Path) (v : Value) :
    Concur Eq (unknownFieldsPolicy v path) (unknownFieldsPolicy v path') := by
  unfold unknownFieldsPolicy
  split
  · exact .ok rfl
  · split
    · exact .ok rfl
    · split
      · exact .ok rfl
      · exact .error _ _

theorem representationParts_elsewhere (path path' : Path) (tag content : Option Bytes)
    (es : List (Key × Value)) :
    Concur Eq (representationParts path tag content es)
      (representationParts path' tag content es) := by
  induction es generalizing tag content with
  | nil => exact .ok rfl
  | cons e es ih =>
      rw [representationParts, representationParts]
      split
      · exact ih _ content
      · split
        · split
          · exact ih tag _
          · exact .error _ _
        · exact .error _ _

theorem representation_elsewhere (path path' : Path) (v : Value) :
    Concur Eq (representation v path) (representation v path') := by
  unfold representation
  split
  · split
    · exact .ok rfl
    · split
      · exact .ok rfl
      · exact .error _ _
  · refine (representationParts_elsewhere path path' none none _).bind fun parts parts' same => ?_
    obtain rfl : parts = parts' := same
    split
    · exact .error _ _
    · exact .ok rfl
    · split
      · exact .error _ _
      · exact .ok rfl
  · exact .error _ _

def Reader.IsPlaceless (read : Reader) : Prop :=
  ∀ v path path' placement, Concur SameButOrigin (read v path placement) (read v path' placement)

section Parts

variable {read : Reader} (placeless : read.IsPlaceless) (path path' : Path)
include placeless

theorem tupleElements_elsewhere (index : UInt8) (vs : List Value) :
    Concur (List.Forall₂ SameButOrigin) (tupleElements read path index vs)
      (tupleElements read path' index vs) := by
  induction vs generalizing index with
  | nil => exact .ok .nil
  | cons v vs ih =>
      have whole {d e : Declaration} (head : d.SameButOrigin e) :
          Concur (List.Forall₂ SameButOrigin)
          (do return d :: (← tupleElements read path (index + 1) vs))
          (do return e :: (← tupleElements read path' (index + 1) vs)) :=
        (ih (index + 1)).bind fun _ _ tail => .ok (.cons head tail)
      unfold tupleElements
      dsimp only
      split
      · exact (placeless v _ _ .nested).bind fun _ _ head => whole head
      · exact whole (.bare _ _ ⟨rfl, .nil⟩)

theorem recordFields_elsewhere (seen : List Bytes) (es : List (Key × Value)) :
    Concur (List.Forall₂ (Field.Resembles SameButOrigin)) (recordFields read path seen es)
      (recordFields read path' seen es) := by
  induction es generalizing seen with
  | nil => exact .ok .nil
  | cons e es ih =>
      obtain ⟨key, v⟩ := e
      rw [recordFields, recordFields]
      split
      · exact ih seen
      · next name spelled =>
        dsimp only
        split
        · exact .error _ _
        · split
          · exact (placeless v _ _ .nested).bind fun _ _ head =>
              (optionalFlag_elsewhere _ _ v).bind fun isOptional isOptional' flag =>
                (ih (name :: seen)).bind fun _ _ tail => .ok (.cons ⟨rfl, flag, head⟩ tail)
          · exact ih (name :: seen)

theorem unionVariants_elsewhere (seen : List Bytes) (es : List (Key × Value)) :
    Concur (List.Forall₂ (Variant.Resembles SameButOrigin)) (unionVariants read path seen es)
      (unionVariants read path' seen es) := by
  induction es generalizing seen with
  | nil => exact .ok .nil
  | cons e es ih =>
      obtain ⟨key, v⟩ := e
      rw [unionVariants, unionVariants]
      split
      · exact .error _ _
      · next name spelled =>
        split
        · exact .error _ _
        · have whole {d e : Declaration} (head : d.SameButOrigin e) :
              Concur (List.Forall₂ (Variant.Resembles SameButOrigin))
                (do return { name, schema := d } :: (← unionVariants read path (name :: seen) es))
                (do return { name, schema := e } :: (← unionVariants read path' (name :: seen) es)) :=
            (ih (name :: seen)).bind fun _ _ tail => .ok (.cons ⟨rfl, head⟩ tail)
          dsimp only
          split
          · exact whole (.bare _ _ ⟨rfl, .nil⟩)
          · refine (placeless v _ _ .variant).bind fun d e head => ?_
            rw [head.isEmptyRecord_eq]
            split
            · exact .error _ _
            · exact whole head

theorem union_elsewhere (v variants : Value) :
    Concur (Shape.Agrees SameButOrigin) (union read v variants path)
      (union read v variants path') := by
  unfold union
  dsimp only
  split
  · refine (unionVariants_elsewhere placeless _ _ [] _).bind fun members members' same => ?_
    have none : members.isEmpty = members'.isEmpty := by
      cases same <;> rfl
    rw [none]
    split
    · exact .error _ _
    · split
      · exact .ok (.union _ same)
      · refine (representation_elsewhere _ _ _).bind fun r r' given => ?_
        obtain rfl : r = r' := given
        exact .ok (.union r same)
  · exact .error _ _

theorem map_elsewhere (declaration : Value) :
    Concur (Shape.Agrees SameButOrigin) (map read declaration path)
      (map read declaration path') := by
  unfold map
  split
  · exact (placeless _ _ _ .nested).bind fun _ _ key => (placeless _ _ _ .nested).bind fun _ _ value =>
      .ok (.map {} key value)
  · exact .error _ _

theorem unannotated_elsewhere (v : Value) (placement : Placement) :
    Concur (Shape.Agrees SameButOrigin) (unannotated read v path placement)
      (unannotated read v path' placement) := by
  have unknown : Concur (Shape.Agrees SameButOrigin) (.ok .any : Extract (Shape Declaration))
      (.ok .any : Extract (Shape Declaration)) := .ok ⟨rfl, .nil⟩
  unfold unannotated
  split
  · exact .ok (ofExpression_agrees _)
  · split
    · split
      · exact (tupleElements_elsewhere placeless path path' 0 _).bind
          fun _ _ elements => .ok (.tuple elements)
      · exact unknown
    · split
      · refine (recordFields_elsewhere placeless path path' [] _).bind fun _ _ fields => ?_
        refine (unknownFieldsPolicy_elsewhere path path' v).bind fun policy policy' same => ?_
        obtain rfl : policy = policy' := same
        exact .ok (.record policy fields)
      · exact unknown
    · exact unknown

theorem annotated_elsewhere (v : Value) (a : Directive) (held : Value) :
    Concur (fun p q => p.2.Agrees SameButOrigin q.2) (annotated read v a held path)
      (annotated read v a held path') := by
  unfold annotated
  dsimp only
  split
  · exact (ofTypeDirective_elsewhere _ _ held).bind fun _ _ same => .ok same.shapes
  · exact (placeless held _ _ .nested).bind fun _ _ item => .ok (.array {} false item)
  · exact (map_elsewhere placeless _ _ held).bind fun _ _ same => .ok same
  · exact .ok ⟨rfl, .nil⟩
  · exact (union_elsewhere placeless path path' v held).bind fun _ _ same => .ok same

/-- The place does not matter to a value with a base directive. -/
theorem base_elsewhere {v : Value} {placement placement' : Placement}
    (alike : placement = placement' ∨ v.IsBased) :
    Concur (fun p q => p.2.Agrees SameButOrigin q.2) (base read v path placement)
      (base read v path' placement') := by
  have listed (none : (Directive.base.filterMap fun a => (v.directive? a).map fun held => (a, held)) = []) :
      ¬ v.IsBased := by
    rintro ⟨a, among, some⟩
    have absent := List.filterMap_eq_nil_iff.1 none a among
    rw [Option.map_eq_none_iff.1 absent] at some
    cases some
  unfold base
  split
  · next none =>
    obtain rfl := alike.resolve_right (listed none)
    exact (unannotated_elsewhere placeless path path' v placement).bind fun _ _ same => .ok same
  · split
    · exact annotated_elsewhere placeless path path' v _ _
    · exact .error _ _
  · exact .error _ _

theorem readWith_elsewhere (sound : ∀ v path placement, Gives IsSound (read v path placement))
    {v : Value} {placement placement' : Placement} (alike : placement = placement' ∨ v.IsBased)
    (named : placement.isNamed = placement'.isNamed) :
    Concur SameButOrigin (readWith read v path placement) (readWith read v path' placement') := by
  refine (((base_elsewhere placeless path path' alike).and_gives (base_sound sound v path placement)).and_gives'
    (base_sound sound v path' placement')).bind fun found found' same => ?_
  obtain ⟨⟨shapes, sound⟩, sound'⟩ := same
  refine (Constraint.applyAll_agrees path path' v.extensions shapes sound.1 sound'.1).bind
    fun s t shapes => ?_
  refine (Metadata.noteAll_elsewhere named path path' {} v.extensions).bind fun m n said => ?_
  obtain rfl : m = n := said
  exact .ok (.node _ _ shapes (fun _ _ => id) m)

end Parts

theorem readTo_placeless (depth : Nat) : (readTo depth).IsPlaceless := by
  induction depth with
  | zero => exact fun _ path path' _ => .ok (.bare path path' ⟨rfl, .nil⟩)
  | succ depth ih =>
      exact fun _ path path' _ => readWith_elsewhere ih path path' (readTo_sound depth)
        (.inl rfl) rfl

/-- A value with a base directive declares the same wherever it stands, but for the paths of the
sources. -/
theorem ofValue_elsewhere {v : Value} (based : v.IsBased) (path path' : Path)
    {placement placement' : Placement} (named : placement.isNamed = placement'.isNamed) :
    Concur SameButOrigin (ofValue v path placement) (ofValue v path' placement') := by
  rw [ofValue, ofValue]
  cases v.size with
  | zero => exact .ok (.bare path path' ⟨rfl, .nil⟩)
  | succ depth =>
      exact readWith_elsewhere (readTo_placeless depth) path path' (readTo_sound depth)
        (.inr based) named

end Declaration

end DocSchema
