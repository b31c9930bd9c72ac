import DocSchema.Proofs.NodeExtraction

set_option autoImplicit false

namespace DocSchema

/-- Whether a node declares a type, itself or in a part of it; elements of arrays and extensions do
not count. -/
inductive Document.IsDeclaring (d : Document) : NodeId → Prop
  | directive {id held : NodeId} {a : Directive} (among : a = .optional ∨ a ∈ Directive.base)
      (found : (d.node id).extension? a.name = some held) : IsDeclaring d id
  | expression {id : NodeId} {e : TypeExpression}
      (content : (d.node id).content.typeExpression? = some e) :
      IsDeclaring d id
  | entry {id : NodeId} {entries : List (Key × NodeId)}
      (content : (d.node id).content = .map entries)
      {e : Key × NodeId} (inside : e ∈ entries) (below : IsDeclaring d e.2) : IsDeclaring d id
  | element {id child : NodeId} {elements : List NodeId}
      (content : (d.node id).content = .tuple elements)
      (inside : child ∈ elements) (below : IsDeclaring d child) : IsDeclaring d id

/-- A name declares a type if it is that of one of the directives that do. -/
theorem Directive.declares_iff (s : Bytes) :
    declares s = true ↔ ∃ a : Directive, (a = .optional ∨ a ∈ base) ∧ a.name = s := by
  have named : ∀ entry ∈ names,
      entry.1.name = utf8 entry.2 ∧ ofName? (utf8 entry.2) = some entry.1 := by
    decide +kernel
  have listed : ∀ a : Directive, a = .optional ∨ a ∈ base → ∃ entry ∈ names, entry.1 = a := by
    rintro a (rfl | member)
    · exact ⟨(.optional, "optional"), by decide, rfl⟩
    · revert a
      decide
  have declares_of {entry : Directive × String} (member : entry ∈ names) :
      declares (utf8 entry.2) = true ↔ entry.1 = .optional ∨ entry.1 ∈ base := by
    rw [declares, (named entry member).2, Option.any_some, Bool.or_eq_true, beq_iff_eq,
      List.contains_iff_mem]
  constructor
  · intro declared
    have found : (ofName? s).isSome = true := by
      rw [declares] at declared
      cases known : ofName? s with
      | none =>
          rw [known] at declared
          cases declared
      | some a => rfl
    obtain ⟨entry, first, -⟩ := Option.map_eq_some_iff.1 (Option.some_get found).symm
    have member := List.mem_of_find?_eq_some first
    have same : utf8 entry.2 = s := by simpa using List.find?_some first
    exact ⟨entry.1, (declares_of member).1 (same ▸ declared), (named entry member).1.trans same⟩
  · rintro ⟨a, among, rfl⟩
    obtain ⟨entry, member, rfl⟩ := listed a among
    rw [(named entry member).1]
    exact (declares_of member).2 among

namespace Document.IsOrdered

variable {d : Document} (ordered : d.IsOrdered)

include ordered

theorem isDeclared_of_isDeclaring {id : NodeId} (declaring : d.IsDeclaring id) :
    (d.valueAt id).isDeclared = true := by
  induction declaring with
  | directive among found =>
      rw [ordered.isDeclared_valueAt, Bool.or_eq_true, Bool.or_eq_true]
      refine .inl (.inl (List.any_eq_true.2 ⟨_, mem_of_lookup? found, ?_⟩))
      exact (Directive.declares_iff _).2 ⟨_, among, rfl⟩
  | expression content =>
      rw [ordered.isDeclared_valueAt, Bool.or_eq_true, Bool.or_eq_true, content]
      exact .inl (.inr rfl)
  | entry content inside below ih =>
      rw [ordered.isDeclared_valueAt, Bool.or_eq_true, content, Content.mapParts,
        Value.isDeclaredContent, Value.isDeclaredEntries_eq, List.any_map]
      exact .inr (List.any_eq_true.2 ⟨_, inside, ih⟩)
  | element content inside below ih =>
      rw [ordered.isDeclared_valueAt, Bool.or_eq_true, content, Content.mapParts,
        Value.isDeclaredContent, Value.isDeclaredList_eq, List.any_map]
      exact .inr (List.any_eq_true.2 ⟨_, inside, ih⟩)

theorem isDeclaring_of_isDeclared (id : NodeId) (declared : (d.valueAt id).isDeclared = true) :
    d.IsDeclaring id := by
  -- What is below a node has the smaller value.
  induction size : (d.valueAt id).size using Nat.strongRecOn generalizing id with
  | ind n ih =>
      have below {child : NodeId} (below : d.IsBelow id child)
          (declared : (d.valueAt child).isDeclared = true) :
          d.IsDeclaring child :=
        ih _ (size ▸ below.smaller) child declared rfl
      rw [ordered.isDeclared_valueAt, Bool.or_eq_true, Bool.or_eq_true] at declared
      rcases declared with (named | expression) | parts
      · obtain ⟨e, inside, declares⟩ := List.any_eq_true.1 named
        obtain ⟨a, among, same⟩ := (Directive.declares_iff _).1 declares
        have known : a.name ∈ (d.node id).extensions.map (·.1) :=
          List.mem_map.2 ⟨e, inside, same.symm⟩
        obtain ⟨held, found⟩ :=
          Option.ne_none_iff_exists'.1 fun absent => lookup?_eq_none.1 absent known
        exact .directive among found
      · obtain ⟨e, content⟩ := Option.isSome_iff_exists.1 expression
        exact .expression content
      · cases content : (d.node id).content with
        | map entries =>
            rw [content, Content.mapParts, Value.isDeclaredContent, Value.isDeclaredEntries_eq,
              List.any_map] at parts
            obtain ⟨e, inside, declared⟩ := List.any_eq_true.1 parts
            exact .entry content inside (below (ordered.isBelow_entry content inside) declared)
        | tuple elements =>
            rw [content, Content.mapParts, Value.isDeclaredContent, Value.isDeclaredList_eq,
              List.any_map] at parts
            obtain ⟨child, inside, declared⟩ := List.any_eq_true.1 parts
            exact .element content inside
              (below (ordered.isBelow_element (.inl content) inside) declared)
        | _ =>
            rw [content] at parts
            cases parts

theorem isDeclaring_iff (id : NodeId) : d.IsDeclaring id ↔ (d.valueAt id).isDeclared = true :=
  ⟨ordered.isDeclared_of_isDeclaring, ordered.isDeclaring_of_isDeclared id⟩

end Document.IsOrdered

namespace Extractor

variable {d : Document} {α β : Type}

/-- Runs a part of an extraction when nothing is known yet. -/
def fresh (d : Document) (x : Extractor α) : Extract α :=
  x.run' (Array.replicate d.size none)

theorem Computes.fresh {x : Extractor α} {r : Extract α} (computes : Computes d x r) :
    fresh d x = r := by
  obtain ⟨later, -, ran⟩ := computes _ (.replicate d.size)
  change Prod.fst <$> StateT.run x _ = r
  rw [ran]
  cases r <;> rfl

theorem Computes.mapM {items : List α} {f : α → Extractor β} {g : α → β}
    (each : ∀ a ∈ items, Computes d (f a) (.ok (g a))) :
    Computes d (items.mapM f) (.ok (items.map g)) := by
  induction items with
  | nil => exact .pure []
  | cons a items ih =>
      rw [List.mapM_cons]
      refine (each a List.mem_cons_self).bind_ok ?_
      exact (ih fun b inside => each b (List.mem_cons_of_mem a inside)).bind_ok (.pure _)

open scoped Classical in
/-- Whichever nodes are asked for, and in whatever order, each answer is whether the node declares a
type. -/
theorem isDeclared_answers (ordered : d.IsOrdered) (ids : List NodeId) :
    fresh d (ids.mapM (isDeclared d)) = .ok (ids.map fun id => decide (d.IsDeclaring id)) := by
  have each : ∀ id ∈ ids, Computes d (isDeclared d id) (.ok (decide (d.IsDeclaring id))) := by
    intro id _
    have answer : decide (d.IsDeclaring id) = (d.valueAt id).isDeclared := by
      rw [Bool.eq_iff_iff, decide_eq_true_iff]
      exact ordered.isDeclaring_iff id
    rw [answer]
    exact isDeclared_computes ordered id
  exact (Computes.mapM each).fresh

end Extractor

end DocSchema
