import DocSchema.Proofs.Contested
import DocSchema.Proofs.Glances
import DocSchema.Proofs.Independence
import DocSchema.Proofs.Reordered
import DocSchema.Proofs.Resembling

set_option autoImplicit false

namespace DocSchema

namespace Content

variable {α β : Type} {R : α → β → Prop} {c : Content α} {d : Content β} (related : c.Related R d)
include related

theorem Related.primitive?_eq : c.primitive? = d.primitive? := by
  cases related <;> rfl

theorem Related.kindName_eq : c.kindName = d.kindName := by
  cases related <;> rfl

theorem Related.field? (name : Bytes) : Option.Rel R (c.field? name) (d.field? name) := by
  cases related with
  | map entries =>
      refine rel_map? (rel_find? entries fun e f same => ?_) fun e f same => same.2
      rw [same.1]
  | _ => exact .none

end Content

namespace Value

/-- Whether two values differ in nothing but the order of the extensions of their nodes, where those
that compete are in the same order. A node holds each extension once. -/
inductive Shuffles : Value → Value → Prop
  | node {c d : Content Value} {x y : List (Bytes × Value)} {R : Value → Value → Prop}
      (contents : c.Related R d)
      (extensions : Reordered (fun e f => e.1 = f.1 ∧ R e.2 f.2) x y)
      (distinct : (y.map (·.1)).Nodup)
      (order : Constraint.contested (x.map (·.1)) = Constraint.contested (y.map (·.1)))
      (below : ∀ v w, R v w → Shuffles v w) : Shuffles (.node c x) (.node d y)

/-- Items with the same names whose values are shuffled. -/
abbrev Shuffles.Items (x y : List (Bytes × Value)) : Prop :=
  Reordered (fun e f => e.1 = f.1 ∧ e.2.Shuffles f.2) x y

theorem names_perm_of_items {R : Value → Value → Prop} {x y : List (Bytes × Value)}
    (items : Reordered (fun e f => e.1 = f.1 ∧ R e.2 f.2) x y) :
    (x.map (·.1)).Perm (y.map (·.1)) := by
  have names : Reordered Eq (x.map (·.1)) (y.map (·.1)) := items.map fun _ _ same => same.1
  exact names.perm

theorem sizeItems_perm {x y : List (Bytes × Value)} (perm : x.Perm y) :
    sizeItems x = sizeItems y := by
  induction perm with
  | nil => rfl
  | cons e _ ih => simp only [sizeItems, ih]
  | swap e f x =>
      simp only [sizeItems]
      omega
  | trans _ _ first second => exact first.trans second

namespace Shuffles

variable {u v w : Value} (shuffled : v.Shuffles w)
include shuffled

theorem contents : v.content.Related Shuffles w.content := by
  cases shuffled with
  | node contents extensions distinct order below => exact contents.imp below

theorem extensions : Items v.extensions w.extensions := by
  cases shuffled with
  | node contents extensions distinct order below =>
      exact extensions.imp_of_mem fun e _ f _ same => ⟨same.1, below _ _ same.2⟩

theorem distinct : (w.extensions.map (·.1)).Nodup := by
  cases shuffled with
  | node contents extensions distinct order below => exact distinct

theorem names_perm : (v.extensions.map (·.1)).Perm (w.extensions.map (·.1)) :=
  names_perm_of_items shuffled.extensions

theorem distinct' : (v.extensions.map (·.1)).Nodup :=
  shuffled.names_perm.nodup_iff.2 shuffled.distinct

theorem order : Constraint.contested (v.extensions.map (·.1)) =
    Constraint.contested (w.extensions.map (·.1)) := by
  cases shuffled with
  | node contents extensions distinct order below => exact order

theorem extension? (name : Bytes) : Option.Rel Shuffles (v.extension? name) (w.extension? name) :=
  shuffled.extensions.lookup? shuffled.distinct name

theorem directive? (a : Directive) : Option.Rel Shuffles (v.directive? a) (w.directive? a) :=
  shuffled.extension? a.name

theorem primitive?_eq : v.content.primitive? = w.content.primitive? :=
  shuffled.contents.primitive?_eq

theorem typeExpression?_eq : v.content.typeExpression? = w.content.typeExpression? := by
  rw [v.content.typeExpression?_eq, w.content.typeExpression?_eq, shuffled.primitive?_eq]

theorem textContent?_eq : v.textContent? = w.textContent? := by
  rw [textContent?, textContent?, text?, text?, shuffled.primitive?_eq]

theorem bool?_eq : v.bool? = w.bool? := by
  rw [bool?, bool?, shuffled.primitive?_eq]

theorem count?_eq : v.count? = w.count? := by
  rw [count?, count?, int?, int?, shuffled.primitive?_eq]

theorem numberOf?_eq (isInteger : Bool) : v.numberOf? isInteger = w.numberOf? isInteger := by
  rw [numberOf?, numberOf?, int?, int?, number?, number?, shuffled.primitive?_eq]

theorem pair? : Option.Rel (fun p q => p.1.Shuffles q.1 ∧ p.2.Shuffles q.2) v.pair? w.pair? := by
  have contents := shuffled.contents
  unfold Value.pair?
  generalize v.content = c, w.content = d at contents
  cases contents with
  | tuple elements =>
      match elements with
      | .nil | .cons _ .nil | .cons _ (.cons _ (.cons _ _)) => exact .none
      | .cons first (.cons second .nil) => exact .some ⟨first, second⟩
  | _ => exact .none

theorem size_eq : v.size = w.size := by
  induction shuffled with
  | @node c d x y R contents extensions distinct order below ih =>
      obtain ⟨z, each, perm⟩ := extensions
      have items : sizeItems x = sizeItems z := by
        clear perm distinct order
        induction each with
        | nil => rfl
        | cons first rest further => simp only [sizeItems, ih _ _ first.2, further]
      simp only [size, sizeContent_congr (contents.imp ih), items, sizeItems_perm perm]

theorem isDeclared_eq : v.isDeclared = w.isDeclared := by
  induction shuffled with
  | @node c d x y R contents extensions distinct order below ih =>
      have declares := List.Perm.any_eq (f := Directive.declares) (names_perm_of_items extensions)
      rw [List.any_map, List.any_map] at declares
      have expression : c.typeExpression? = d.typeExpression? := by
        rw [c.typeExpression?_eq, d.typeExpression?_eq, contents.primitive?_eq]
      simp only [isDeclared, isDeclaredContent_congr (contents.imp ih), expression]
      exact congrArg (fun found => found || _ || _) declares

theorem toJson_eq : v.toJson = w.toJson := by
  induction shuffled with
  | node contents extensions distinct order below ih =>
      have listed {vs ws : List Value}
          (items : List.Forall₂ (fun v w => v.toJson = w.toJson) vs ws) :
          listToJson vs = listToJson ws := by
        induction items with
        | nil => rfl
        | cons first rest further => rw [listToJson, listToJson, first, further]
      simp only [toJson]
      replace contents := contents.imp ih
      cases contents with
      | hole | primitive => rfl
      | map entries =>
          refine congrArg Json.object ?_
          induction entries with
          | nil => rfl
          | cons first rest further => rw [entriesToJson, entriesToJson, first.1, first.2, further]
      | array items | tuple items => exact congrArg Json.array (listed items)

end Shuffles

/-- Whether two values equal the same values, on either side. -/
def SameSame (v w : Value) : Prop :=
  ∀ u : Value, u.same v = u.same w ∧ v.same u = w.same u

section Items

variable {κ : Type} [DecidableEq κ] {x y : List (κ × Value)}

theorem sameItems_right (lengths : x.length = y.length)
    (found : ∀ k, Option.Rel SameSame (lookup? k x) (lookup? k y)) (z : List (κ × Value)) :
    sameItems same z x = sameItems same z y := by
  rw [sameItems, sameItems, lengths]
  congr 1
  refine all_congr_of_mem fun item _ => ?_
  rcases eq_of_rel (found item.1) with ⟨none, none'⟩ | ⟨v, w, some, some', alike⟩
  · simp only [none, none']
  · simp only [some, some', Option.any_some, (alike item.2).2]

theorem sameItems_left (items : Reordered (fun e f => e.1 = f.1 ∧ SameSame e.2 f.2) x y)
    (z : List (κ × Value)) :
    sameItems same x z = sameItems same y z := by
  obtain ⟨y', pairs, perm⟩ := items
  rw [sameItems, sameItems, pairs.length_eq, perm.length_eq, ← perm.all_eq]
  congr 1
  clear perm
  induction pairs with
  | nil => rfl
  | @cons e f es fs first rest further =>
      obtain ⟨k, v⟩ := e
      obtain ⟨k', w⟩ := f
      obtain ⟨rfl, alike⟩ : k = k' ∧ SameSame v w := first
      simp only [List.all_cons, further, (alike _).1]

end Items

theorem sameBy_congr_of_related {c d : Content Value} (related : c.Related SameSame d)
    (b : Content Value) :
    b.sameBy same c = b.sameBy same d ∧ c.sameBy same b = d.sameBy same b := by
  have right {vs ws : List Value} (items : List.Forall₂ SameSame vs ws) (us : List Value) :
      sameList same us vs = sameList same us ws := by
    rw [sameList, sameList, items.length_eq]
    congr 1
    induction items generalizing us with
    | nil => rfl
    | cons first rest further =>
        cases us with
        | nil => rfl
        | cons u us => simp only [List.zip_cons_cons, List.all_cons, (first u).1, further us]
  have left {vs ws : List Value} (items : List.Forall₂ SameSame vs ws) (us : List Value) :
      sameList same vs us = sameList same ws us := by
    rw [sameList, sameList, items.length_eq]
    congr 1
    induction items generalizing us with
    | nil => rfl
    | cons first rest further =>
        cases us with
        | nil => rfl
        | cons u us => simp only [List.zip_cons_cons, List.all_cons, (first u).2, further us]
  cases related with
  | hole | primitive => exact ⟨rfl, rfl⟩
  | map entries =>
      have found (k : Key) := rel_map?
          (rel_find? (p := fun e => e.1 == k) (q := fun e => e.1 == k) entries
        fun e f same => by rw [same.1]) fun e f same => same.2
      cases b with
      | map es =>
          exact ⟨sameItems_right entries.length_eq found es,
            sameItems_left (.of_forall₂ entries) es⟩
      | _ => exact ⟨rfl, rfl⟩
  | array items =>
      cases b with
      | array us => exact ⟨right items us, left items us⟩
      | _ => exact ⟨rfl, rfl⟩
  | tuple items =>
      cases b with
      | tuple us => exact ⟨right items us, left items us⟩
      | _ => exact ⟨rfl, rfl⟩

namespace Shuffles

variable {u v w : Value} (shuffled : v.Shuffles w)
include shuffled

theorem sameSame : v.SameSame w := by
  induction shuffled with
  | @node c d x y R contents extensions distinct order below ih =>
      intro u
      obtain ⟨right, left⟩ := sameBy_congr_of_related (contents.imp ih) u.content
      have items : Reordered (fun e f => e.1 = f.1 ∧ SameSame e.2 f.2) x y :=
        extensions.imp_of_mem fun e _ f _ same => ⟨same.1, ih _ _ same.2⟩
      rw [same_eq, same_eq, same_eq, same_eq]
      exact ⟨congrArg₂ _ right (sameItems_right items.length_eq (items.lookup? distinct) _),
        congrArg₂ _ left (sameItems_left items _)⟩

/-- The extensions of the roots can be left out. -/
theorem bare : v.bare.Shuffles w.bare :=
  .node shuffled.contents (.of_forall₂ .nil) List.nodup_nil rfl fun _ _ => id

theorem indiscernible : v.Indiscernible w where
  values u := (shuffled.sameSame u).1
  keys k := by
    unfold Check.isKey
    rw [shuffled.primitive?_eq]
  text := shuffled.toJson_eq

end Shuffles

end Value

section Readers

variable {v w : Value} (shuffled : v.Shuffles w)
include shuffled

namespace Constraint

theorem counts_shuffled : counts v = counts w := by
  unfold counts
  rcases eq_of_rel shuffled.pair? with ⟨none, none'⟩ | ⟨p, q, some, some', first, second⟩
  · rw [none, none']
  · rw [some, some']
    dsimp only
    rw [first.count?_eq, second.count?_eq]

theorem range_shuffled (isInteger : Bool) : range isInteger v = range isInteger w := by
  unfold range
  rcases eq_of_rel shuffled.pair? with ⟨none, none'⟩ | ⟨p, q, some, some', first, second⟩
  · rw [none, none']
  · rw [some, some']
    simp only [number, first.numberOf?_eq, second.numberOf?_eq]

theorem narrow_shuffled (isInteger : Bool) (a : Directive) (r : Range) :
    narrow isInteger a v r = narrow isInteger a w r := by
  simp only [narrow, range_shuffled shuffled, number, shuffled.numberOf?_eq]

variable {α : Type} (s : Shape α) (a : Directive)

theorem constrainText_shuffled : constrainText a v s = constrainText a w s := by
  cases s <;>
    simp only [constrainText, counts_shuffled shuffled, count, pattern, text, shuffled.count?_eq,
      shuffled.textContent?_eq]

theorem constrainNumber_shuffled : constrainNumber a v s = constrainNumber a w s := by
  cases s <;>
    simp only [constrainNumber, divisor, number, narrow_shuffled shuffled, shuffled.numberOf?_eq]

theorem constrainArray_shuffled : constrainArray a v s = constrainArray a w s := by
  cases s <;> simp only [constrainArray, count, truth, shuffled.count?_eq, shuffled.bool?_eq]

theorem constrainMap_shuffled : constrainMap a v s = constrainMap a w s := by
  cases s <;> simp only [constrainMap, count, shuffled.count?_eq]

/-- A constraint is the same whatever the order of the extensions in its value. -/
theorem apply_shuffled (name : Bytes) : apply name v s = apply name w s := by
  simp only [apply, constrainText_shuffled shuffled, constrainNumber_shuffled shuffled,
    constrainArray_shuffled shuffled, constrainMap_shuffled shuffled]

end Constraint

namespace Declaration

variable (path : Path)

theorem optionalFlag_shuffled : optionalFlag v path = optionalFlag w path := by
  unfold optionalFlag
  rcases eq_of_rel (shuffled.directive? .optional) with ⟨none, none'⟩ | ⟨p, q, some, some', flag⟩
  · rw [none, none']
  · rw [some, some']
    dsimp only
    rw [flag.bool?_eq]

theorem unknownFieldsPolicy_shuffled : unknownFieldsPolicy v path = unknownFieldsPolicy w path := by
  unfold unknownFieldsPolicy
  rcases eq_of_rel (shuffled.directive? .unknownFields) with ⟨none, none'⟩ | ⟨p, q, some, some', policy⟩
  · rw [none, none']
  · rw [some, some']
    dsimp only
    rw [policy.textContent?_eq]

theorem representation_shuffled : representation v path = representation w path := by
  have parts {es fs : List (Key × Value)}
      (entries : List.Forall₂ (fun e f => e.1 = f.1 ∧ e.2.Shuffles f.2) es fs)
      (tag content : Option Bytes) :
      representationParts path tag content es = representationParts path tag content fs := by
    induction entries generalizing tag content with
    | nil => rfl
    | @cons e f es fs first rest ih =>
        obtain ⟨key, v⟩ := e
        obtain ⟨key', w⟩ := f
        obtain ⟨rfl, same⟩ : key = key' ∧ v.Shuffles w := first
        simp only [representationParts, same.textContent?_eq, ih]
  have contents := shuffled.contents
  rw [representation, representation, shuffled.textContent?_eq]
  generalize v.content = c, w.content = d at contents
  cases w.textContent? with
  | some s => rfl
  | none =>
      cases contents with
      | map entries =>
          dsimp only
          rw [parts entries]
      | _ => rfl

end Declaration

theorem Naming.ofValue_shuffled (path : Path) : Naming.ofValue v path = Naming.ofValue w path := by
  unfold Naming.ofValue
  rcases eq_of_rel (shuffled.extension? "rename") with ⟨none, none'⟩ | ⟨p, q, some, some', name⟩ <;>
    rcases eq_of_rel (shuffled.extension? "rename-all") with ⟨other, other'⟩ | ⟨p', q', other, other', rule⟩
  · rw [none, none', other, other']
  · simp only [none, none', other, other', rule.textContent?_eq]
  · simp only [some, some', other, other', name.textContent?_eq]
  · simp only [some, some', other, other', name.textContent?_eq, rule.textContent?_eq]

end Readers

end DocSchema
