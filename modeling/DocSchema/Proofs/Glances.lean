import DocSchema.Extraction.Nodes
import DocSchema.Proofs.Places
import DocSchema.Proofs.Rebuilding

set_option autoImplicit false

namespace DocSchema

variable {α β γ : Type}

namespace Content

variable (f : α → β) (c : Content α)

@[simp] theorem primitive?_mapParts : (c.mapParts f).primitive? = c.primitive? := by
  cases c <;> rfl

@[simp] theorem isHole_mapParts : (c.mapParts f).isHole = c.isHole := by
  cases c <;> rfl

/-- Whether a content is a type expression is a matter of the primitive that it holds. -/
theorem typeExpression?_eq : c.typeExpression? = c.primitive?.bind fun p =>
    (Content.primitive p : Content Value).typeExpression? := by
  cases c with
  | primitive p =>
      simp only [primitive?, Option.bind_some]
      unfold typeExpression?
      split <;> simp_all
  | _ => rfl

@[simp] theorem typeExpression?_mapParts : (c.mapParts f).typeExpression? = c.typeExpression? := by
  rw [typeExpression?_eq, typeExpression?_eq c, primitive?_mapParts]

variable {f c} in
theorem eq_primitive_of_mapParts {p : Primitive} (same : c.mapParts f = .primitive p) :
    c = .primitive p := by
  cases c <;> cases same
  rfl

end Content

namespace Node

variable (f : α → β) (n : Node α)

theorem mapParts_mapParts (g : β → γ) :
    (n.mapParts f).mapParts g = n.mapParts fun a => g (f a) := by
  obtain ⟨content, extensions⟩ := n
  cases content <;> simp [mapParts, Content.mapParts]

theorem extension?_mapParts (name : Bytes) :
    (n.mapParts f).extension? name = (n.extension? name).map f := by
  simp only [extension?, lookup?, mapParts, List.find?_map, Option.map_map]
  rfl

end Node

namespace Value

def cut : (depth : Nat) → Value → Value
  | 0, _ => .of .hole
  | depth + 1, v => (v.root.mapParts (cut depth)).value

variable (depth : Nat) (v : Value)

theorem content_cut : (v.cut (depth + 1)).content = v.content.mapParts (cut depth) := rfl

@[simp] theorem extension?_cut (name : Bytes) :
    (v.cut (depth + 1)).extension? name = (v.extension? name).map (cut depth) :=
  Node.extension?_mapParts (cut depth) v.root name

@[simp] theorem directive?_cut (a : Directive) :
    (v.cut (depth + 1)).directive? a = (v.directive? a).map (cut depth) :=
  extension?_cut depth v a.name

@[simp] theorem primitive?_cut : (v.cut (depth + 1)).content.primitive? = v.content.primitive? :=
  Content.primitive?_mapParts (cut depth) v.content

@[simp] theorem bool?_cut : (v.cut (depth + 1)).bool? = v.bool? := by
  rw [bool?, bool?, primitive?_cut]

@[simp] theorem int?_cut : (v.cut (depth + 1)).int? = v.int? := by
  rw [int?, int?, primitive?_cut]

@[simp] theorem textContent?_cut : (v.cut (depth + 1)).textContent? = v.textContent? := by
  rw [textContent?, textContent?, text?, text?, primitive?_cut]

@[simp] theorem count?_cut : (v.cut (depth + 1)).count? = v.count? := by
  rw [count?, count?, int?_cut]

@[simp] theorem numberOf?_cut (isInteger : Bool) :
    (v.cut (depth + 1)).numberOf? isInteger = v.numberOf? isInteger := by
  rw [numberOf?, numberOf?, int?_cut, number?, number?, primitive?_cut]

theorem pair?_cut : (v.cut (depth + 1)).pair? = v.pair?.map fun p =>
    (p.1.cut depth, p.2.cut depth) := by
  rw [pair?, pair?, content_cut]
  cases v.content with
  | tuple vs =>
      match vs with
      | [] | [_] | [_, _] | _ :: _ :: _ :: _ => rfl
  | _ => rfl

end Value

namespace Constraint

variable (v : Value)

theorem counts_cut : counts (v.cut 2) = counts v := by
  simp only [counts, Value.pair?_cut]
  cases v.pair? with
  | none => rfl
  | some p => simp

theorem range_cut (isInteger : Bool) : range isInteger (v.cut 2) = range isInteger v := by
  simp only [range, Value.pair?_cut]
  cases v.pair? with
  | none => rfl
  | some p => simp [number]

theorem narrow_cut (isInteger : Bool) (a : Directive) (r : Range) :
    narrow isInteger a (v.cut 2) r = narrow isInteger a v r := by
  simp only [narrow, range_cut, number, Value.numberOf?_cut]

variable (s : Shape α) (a : Directive)

theorem constrainText_cut : constrainText a (v.cut 2) s = constrainText a v s := by
  cases s <;> simp only [constrainText, counts_cut, count, pattern, text, Value.count?_cut, Value.textContent?_cut]

theorem constrainNumber_cut : constrainNumber a (v.cut 2) s = constrainNumber a v s := by
  cases s <;> simp only [constrainNumber, divisor, number, narrow_cut, Value.numberOf?_cut]

theorem constrainArray_cut : constrainArray a (v.cut 2) s = constrainArray a v s := by
  cases s <;> simp only [constrainArray, count, truth, Value.count?_cut, Value.bool?_cut]

theorem constrainMap_cut : constrainMap a (v.cut 2) s = constrainMap a v s := by
  cases s <;> simp only [constrainMap, count, Value.count?_cut]

theorem apply_cut (name : Bytes) : apply name (v.cut 2) s = apply name v s := by
  simp only [apply, constrainText_cut, constrainNumber_cut, constrainArray_cut, constrainMap_cut]

/-- A constraint looks at the value of its directive and at the elements of this value. -/
theorem applyAll_cut (path : Path) (x : List (Bytes × Value)) :
    applyAll path s (x.map fun item => (item.1, item.2.cut 2)) = applyAll path s x := by
  induction x generalizing s with
  | nil => rfl
  | cons item x ih => simp only [List.map_cons, applyAll, apply_cut, ih]

end Constraint

namespace Declaration

variable (v : Value) (path : Path)

theorem optionalFlag_cut : optionalFlag (v.cut 2) path = optionalFlag v path := by
  rw [optionalFlag, optionalFlag, Value.directive?_cut]
  cases v.directive? .optional with
  | none => rfl
  | some flag => simp

theorem unknownFieldsPolicy_cut :
    unknownFieldsPolicy (v.cut 2) path = unknownFieldsPolicy v path := by
  rw [unknownFieldsPolicy, unknownFieldsPolicy, Value.directive?_cut]
  cases v.directive? .unknownFields with
  | none => rfl
  | some policy => simp

theorem representationParts_cut (tag content : Option Bytes) (es : List (Key × Value)) :
    representationParts path tag content (es.map fun e => (e.1, e.2.cut 1)) =
      representationParts path tag content es := by
  induction es generalizing tag content with
  | nil => rfl
  | cons e es ih => simp only [List.map_cons, representationParts, Value.textContent?_cut, ih]

theorem representation_cut : representation (v.cut 2) path = representation v path := by
  rw [representation, representation, Value.textContent?_cut, Value.content_cut]
  cases v.textContent? with
  | some s => rfl
  | none =>
      cases v.content with
      | map es => simp only [Content.mapParts, representationParts_cut]
      | _ => rfl

end Declaration

theorem Naming.ofValue_cut (v : Value) (path : Path) :
    Naming.ofValue (v.cut 2) path = Naming.ofValue v path := by
  rw [Naming.ofValue, Naming.ofValue, Value.extension?_cut, Value.extension?_cut]
  cases v.extension? "rename" <;> cases v.extension? "rename-all" <;> simp

namespace Document.IsOrdered

variable {d : Document} (ordered : d.IsOrdered) (id : NodeId)

include ordered

theorem content_valueAt : (d.valueAt id).content = (d.node id).content.mapParts d.valueAt :=
  congrArg Node.content (ordered.root_valueAt id)

theorem extensions_valueAt :
    (d.valueAt id).extensions = (d.node id).extensions.map fun x => (x.1, d.valueAt x.2) :=
  congrArg Node.extensions (ordered.root_valueAt id)

theorem extension?_valueAt (name : Bytes) :
    (d.valueAt id).extension? name = ((d.node id).extension? name).map d.valueAt := by
  rw [Value.extension?, ordered.root_valueAt, Node.extension?_mapParts]

/-- Some levels of a node are as many levels of its value. -/
theorem valueTo_eq_cut (depth : Nat) : d.valueTo depth id = (d.valueAt id).cut depth := by
  induction depth generalizing id with
  | zero => rfl
  | succ depth ih =>
      have parts : (d.node id).mapParts (d.valueTo depth) =
          ((d.node id).mapParts d.valueAt).mapParts (Value.cut depth) := by
        rw [Node.mapParts_mapParts]
        exact Node.mapParts_congr fun child _ => ih child
      rw [Value.cut, ordered.root_valueAt, ← parts]
      rfl

theorem glance_eq : d.glance id = (d.valueAt id).cut 2 :=
  ordered.valueTo_eq_cut id 2

end Document.IsOrdered

end DocSchema
