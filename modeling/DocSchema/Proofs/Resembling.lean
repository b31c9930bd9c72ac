import DocSchema.Proofs.Lists
import DocSchema.Validation.Levels

set_option autoImplicit false

namespace DocSchema

/-- Whether the same values and the same keys equal two literals, and messages print them alike. -/
structure Value.Indiscernible (v w : Value) : Prop where
  values : ∀ u : Value, u.same v = u.same w
  keys : ∀ k, Check.isKey v k = Check.isKey w k
  text : v.toJson = w.toJson

variable {α β : Type}

/-- Whether two fields differ in nothing but their types, which are related. -/
structure Field.Resembles (related : α → β → Prop) (f : Field α) (g : Field β) : Prop where
  name : f.name = g.name
  isOptional : f.isOptional = g.isOptional
  schema : related f.schema g.schema

theorem Field.Resembles.eq {f g : Field α} (same : f.Resembles Eq g) : f = g := by
  obtain ⟨name, schema, isOptional⟩ := f
  obtain ⟨rfl, rfl, rfl⟩ := same
  rfl

structure Variant.Resembles (related : α → β → Prop) (v : Variant α) (w : Variant β) : Prop where
  name : v.name = w.name
  schema : related v.schema w.schema

theorem Variant.Resembles.eq {v w : Variant α} (same : v.Resembles Eq w) : v = w := by
  obtain ⟨name, schema⟩ := v
  obtain ⟨rfl, rfl⟩ := same
  rfl

namespace Shape

/-- Whether two types are the same but for literals that are not told apart, where the types below
them are related. -/
inductive Resembles (related : α → β → Prop) : Shape α → Shape β → Prop
  | text (length : Counts) (pattern language : Option Bytes) :
      Resembles related (.text length pattern language) (.text length pattern language)
  | integer (range : Range) (multipleOf : Option Int64) :
      Resembles related (.integer range multipleOf) (.integer range multipleOf)
  | float (range : Range) (multipleOf : Option Number) :
      Resembles related (.float range multipleOf) (.float range multipleOf)
  | boolean : Resembles related .boolean .boolean
  | null : Resembles related .null .null
  | any : Resembles related .any .any
  | literal {v w : Value} (indiscernible : v.Indiscernible w) :
      Resembles related (.literal v) (.literal w)
  | record {fs : List (Field α)} {gs : List (Field β)} (allowsUnknown : Bool)
      (fields : List.Forall₂ (Field.Resembles related) fs gs) :
      Resembles related (.record fs allowsUnknown) (.record gs allowsUnknown)
  | array {item : α} {item' : β} (length : Counts) (isUnique : Bool) (items : related item item') :
      Resembles related (.array item length isUnique) (.array item' length isUnique)
  | map {key value : α} {key' value' : β} (size : Counts) (keys : related key key')
      (values : related value value') :
      Resembles related (.map key value size) (.map key' value' size)
  | tuple {es : List α} {fs : List β} (elements : List.Forall₂ related es fs) :
      Resembles related (.tuple es) (.tuple fs)
  | union {vs : List (Variant α)} {ws : List (Variant β)} (representation : Representation)
      (variants : List.Forall₂ (Variant.Resembles related) vs ws) :
      Resembles related (.union vs representation) (.union ws representation)
  | reference (name : Bytes) : Resembles related (.reference name) (.reference name)

namespace Resembles

theorem refl (s : Shape α) : s.Resembles Eq s := by
  cases s with
  | literal v => exact .literal ⟨fun _ => rfl, fun _ => rfl, rfl⟩
  | record fields allowsUnknown =>
      exact .record allowsUnknown (List.forall₂_same.2 fun _ _ => ⟨rfl, rfl, rfl⟩)
  | array item length isUnique => exact .array length isUnique rfl
  | map key value size => exact .map size rfl rfl
  | tuple elements => exact .tuple (List.forall₂_refl elements)
  | union variants representation =>
      exact .union representation (List.forall₂_same.2 fun _ _ => ⟨rfl, rfl⟩)
  | _ => constructor

/-- Types over the same types are the same, unless they are literals. -/
theorem eq_or_literal {s t : Shape α} (same : s.Resembles Eq t) :
    s = t ∨ ∃ v w, s = .literal v ∧ t = .literal w ∧ v.Indiscernible w := by
  cases same with
  | literal indiscernible => exact .inr ⟨_, _, rfl, rfl, indiscernible⟩
  | record allowsUnknown fields =>
      have fields := fields.imp fun {f g} => Field.Resembles.eq
      rw [List.forall₂_eq_eq_eq] at fields
      exact .inl (fields ▸ rfl)
  | array length isUnique items => exact .inl (items ▸ rfl)
  | map size keys values => exact .inl (keys ▸ values ▸ rfl)
  | tuple elements =>
      rw [List.forall₂_eq_eq_eq] at elements
      exact .inl (elements ▸ rfl)
  | union representation variants =>
      have variants := variants.imp fun {v w} => Variant.Resembles.eq
      rw [List.forall₂_eq_eq_eq] at variants
      exact .inl (variants ▸ rfl)
  | _ => exact .inl rfl

end Resembles

end Shape

end DocSchema
