import Mathlib.Logic.Relation
import DocSchema.Proofs.Reordered

set_option autoImplicit false

namespace DocSchema

open Relation (ReflTransGen)

variable {α β : Type}

/-- Whether a node holds one part in place of another, and is the same otherwise. -/
inductive Node.Exchanges (a b : α) : Node α → Node α → Prop
  | entry (before after : List (Key × α)) (key : Key) (extensions : List (Bytes × α)) :
      Exchanges a b ⟨.map (before ++ (key, a) :: after), extensions⟩
        ⟨.map (before ++ (key, b) :: after), extensions⟩
  | item (before after : List α) (extensions : List (Bytes × α)) :
      Exchanges a b ⟨.array (before ++ a :: after), extensions⟩
        ⟨.array (before ++ b :: after), extensions⟩
  | element (before after : List α) (extensions : List (Bytes × α)) :
      Exchanges a b ⟨.tuple (before ++ a :: after), extensions⟩
        ⟨.tuple (before ++ b :: after), extensions⟩
  | extension (content : Content α) (before after : List (Bytes × α)) (name : Bytes) :
      Exchanges a b ⟨content, before ++ (name, a) :: after⟩ ⟨content, before ++ (name, b) :: after⟩

namespace Node.Exchanges

variable {a b : α} {n n' : Node α}

theorem symm (exchanged : n.Exchanges a b n') : n'.Exchanges b a n := by
  cases exchanged with
  | entry before after key extensions => exact .entry before after key extensions
  | item before after extensions => exact .item before after extensions
  | element before after extensions => exact .element before after extensions
  | extension content before after name => exact .extension content before after name

/-- The parts are the same but for one. -/
theorem parts (exchanged : n.Exchanges a b n') :
    ∃ before after, n.parts = before ++ a :: after ∧ n'.parts = before ++ b :: after := by
  cases exchanged with
  | entry before after key extensions =>
      exact ⟨before.map (·.2), after.map (·.2) ++ extensions.map (·.2),
        by simp [Node.parts, Content.parts], by simp [Node.parts, Content.parts]⟩
  | item before after extensions =>
      exact ⟨before, after ++ extensions.map (·.2), by simp [Node.parts, Content.parts],
        by simp [Node.parts, Content.parts]⟩
  | element before after extensions =>
      exact ⟨before, after ++ extensions.map (·.2), by simp [Node.parts, Content.parts],
        by simp [Node.parts, Content.parts]⟩
  | extension content before after name =>
      exact ⟨content.parts ++ before.map (·.2), after.map (·.2),
        by simp [Node.parts], by simp [Node.parts]⟩

theorem mem_left (exchanged : n.Exchanges a b n') : a ∈ n.parts := by
  obtain ⟨before, after, parts, -⟩ := exchanged.parts
  simp [parts]

theorem mem_cases (exchanged : n.Exchanges a b n') {part : α} (inside : part ∈ n'.parts) :
    part = b ∨ part ∈ n.parts := by
  obtain ⟨before, after, parts, parts'⟩ := exchanged.parts
  rw [parts'] at inside
  rcases List.mem_append.1 inside with earlier | later
  · exact .inr (parts ▸ List.mem_append_left _ earlier)
  · rcases List.mem_cons.1 later with rfl | later
    · exact .inl rfl
    · exact .inr (parts ▸ List.mem_append_right _ (List.mem_cons_of_mem _ later))

/-- The keys are the same. -/
theorem keys (exchanged : n.Exchanges a b n')
    (distinct : ∀ entries, n.content = .map entries → (entries.map (·.1)).Nodup)
    (entries : List (Key × α)) (map : n'.content = .map entries) : (entries.map (·.1)).Nodup := by
  cases exchanged with
  | entry before after key extensions =>
      cases map
      have old := distinct _ rfl
      rw [List.map_append, List.map_cons] at old ⊢
      exact old
  | item before after extensions => cases map
  | element before after extensions => cases map
  | extension content before after name => exact distinct entries map

/-- The names of the extensions are the same. -/
theorem names (exchanged : n.Exchanges a b n') :
    n'.extensions.map (·.1) = n.extensions.map (·.1) := by
  cases exchanged <;> simp

end Node.Exchanges

/-- Chains of changes of one item after the other change a whole that holds the items. -/
theorem reflTransGen_of_forall₂ {change : α → α → Prop} {alter : β → β → Prop} (hold : List α → β)
    (inside : ∀ before after a b, change a b →
      alter (hold (before ++ a :: after)) (hold (before ++ b :: after)))
    {as bs : List α} (each : List.Forall₂ (ReflTransGen change) as bs) :
    ReflTransGen alter (hold as) (hold bs) := by
  induction each generalizing hold with
  | nil => exact .refl
  | @cons a b as bs first rest ih =>
      have head : ReflTransGen alter (hold (a :: as)) (hold (b :: as)) :=
        first.lift (fun a => hold (a :: as)) fun a b changed => inside [] as a b changed
      exact head.trans (ih (fun items => hold (b :: items)) fun before => inside (b :: before))

namespace Value

/-- Whether a value is another one with a change at one place. -/
inductive Alters (change : Value → Value → Prop) : Value → Value → Prop
  | here {v w : Value} (changed : change v w) : Alters change v w
  | within {c d : Content Value} {x y : List (Bytes × Value)} {a b : Value}
      (part : Alters change a b)
      (exchanged : Node.Exchanges a b ⟨c, x⟩ ⟨d, y⟩) : Alters change (.node c x) (.node d y)

def Altered (change : Value → Value → Prop) : Value → Value → Prop :=
  ReflTransGen (Alters change)

namespace Altered

variable {change : Value → Value → Prop}

theorem here {v w : Value} (changed : change v w) : Altered change v w :=
  .single (.here changed)

/-- Items of a keyed list are changed one by one, and then put in another order. -/
private theorem keyed {κ : Type} (hold : List (κ × Value) → Value)
    (inside : ∀ before after key a b, Alters change a b →
      Alters change (hold (before ++ (key, a) :: after)) (hold (before ++ (key, b) :: after)))
    (permute : ∀ items others, items.Perm others → Altered change (hold items) (hold others))
    {items others : List (κ × Value)}
    (each : Reordered (fun e f => e.1 = f.1 ∧ Altered change e.2 f.2) items others) :
    Altered change (hold items) (hold others) := by
  obtain ⟨changed, pairs, perm⟩ := each
  refine ReflTransGen.trans ?_ (permute changed others perm)
  let alter (e f : κ × Value) : Prop := e.1 = f.1 ∧ Alters change e.2 f.2
  have steps : List.Forall₂ (ReflTransGen alter) items changed := pairs.imp fun e f related => by
    obtain ⟨key, a⟩ := e
    obtain ⟨key', b⟩ := f
    obtain ⟨same, altered⟩ := related
    obtain rfl : key = key' := same
    exact altered.lift (Prod.mk key) fun a b altered => ⟨rfl, altered⟩
  refine reflTransGen_of_forall₂ hold ?_ steps
  rintro before after ⟨key, a⟩ ⟨key', b⟩ ⟨same, altered⟩
  obtain rfl : key = key' := same
  exact inside before after key a b altered

theorem entries {es fs : List (Key × Value)} (x : List (Bytes × Value))
    (permute : ∀ es fs, es.Perm fs → change (.node (.map es) x) (.node (.map fs) x))
    (each : Reordered (fun e f => e.1 = f.1 ∧ Altered change e.2 f.2) es fs) :
    Altered change (.node (.map es) x) (.node (.map fs) x) :=
  keyed (fun es => .node (.map es) x)
    (fun before after key _ _ altered => .within altered (.entry before after key x))
    (fun es fs perm => .here (permute es fs perm)) each

theorem extensions (c : Content Value) {x y : List (Bytes × Value)}
    (permute : ∀ x y, x.Perm y → change (.node c x) (.node c y))
    (each : Reordered (fun e f => e.1 = f.1 ∧ Altered change e.2 f.2) x y) :
    Altered change (.node c x) (.node c y) :=
  keyed (.node c) (fun before after key _ _ altered => .within altered (.extension c before after key))
    (fun x y perm => .here (permute x y perm)) each

theorem items {as bs : List Value} (x : List (Bytes × Value))
    (each : List.Forall₂ (Altered change) as bs) :
    Altered change (.node (.array as) x) (.node (.array bs) x) :=
  reflTransGen_of_forall₂ (fun as => Value.node (.array as) x)
    (fun before after _ _ altered => .within altered (.item before after x)) each

theorem elements {as bs : List Value} (x : List (Bytes × Value))
    (each : List.Forall₂ (Altered change) as bs) :
    Altered change (.node (.tuple as) x) (.node (.tuple bs) x) :=
  reflTransGen_of_forall₂ (fun as => Value.node (.tuple as) x)
    (fun before after _ _ altered => .within altered (.element before after x)) each

end Altered

end Value

end DocSchema
