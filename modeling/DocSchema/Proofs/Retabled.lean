import DocSchema.Proofs.Bisimilarity
import DocSchema.Proofs.LaidOut
import DocSchema.Proofs.Reflexive

set_option autoImplicit false

namespace DocSchema

namespace Dictionary

variable {α : Type} {key key' : Bytes}

/-- Items of different keys are put in their places in any order. -/
theorem insert_insert (apart : key ≠ key') (a b : α) (d : Dictionary α) :
    insert key a (insert key' b d) = insert key' b (insert key a d) := by
  have trans {x y z : Bytes} (first : x < y) (second : y < z) : x < z := List.lt_trans first second
  have asymm {x y : Bytes} (less : x < y) : ¬ y < x := List.lt_asymm less
  have total (x y : Bytes) (left : ¬ x < y) (right : ¬ y < x) : x = y :=
    Std.Trichotomous.trichotomous x y left right
  induction d with
  | nil => grind [insert]
  | cons first rest ih =>
      obtain ⟨k, c⟩ := first
      grind [insert]

theorem ofList_perm {items others : List (Bytes × α)} (same : items.Perm others)
    (distinct : (items.map (·.1)).Nodup) : ofList items = ofList others := by
  refine same.foldl_eq' (fun x left y right d => ?_) []
  by_cases equal : x.1 = y.1
  · rw [List.inj_on_of_nodup_map distinct left right equal]
  · exact insert_insert (Ne.symm equal) y.2 x.2 d

end Dictionary

/-- What a type says by itself decides whether its data equal themselves. -/
theorem Shape.IsReflexive.of_skeleton {α β : Type} {a : Shape α} {b : Shape β}
    (reflexive : b.IsReflexive)
    (same : a.skeleton = b.skeleton) : a.IsReflexive := by
  cases a with
  | integer | float =>
      cases b <;> cases same
      exact ⟨nofun, reflexive.numbers⟩
  | literal expected =>
      cases b <;> cases same
      exact ⟨fun v same => reflexive.literal v (by cases same; rfl), nofun⟩
  | _ => exact IsPlain.isReflexive ⟨nofun, rfl⟩

namespace Schema

variable {s t : Schema} {x y : SchemaId} {d : Declaration}

/-- Types of one declaration match, as far as it equals itself. -/
theorem Declares.matches (left : s.Declares x d) (right : t.Declares y d)
    (reflexive : d.IsReflexive) :
    ∃ m n, s.node? x = some m ∧ t.node? y = some n ∧
      m.Matches (fun x y => ∃ d : Declaration, d.IsReflexive ∧ s.Declares x d ∧
        t.Declares y d) n := by
  obtain ⟨laid, found, own, children⟩ := left.found
  obtain ⟨laid', found', own', children'⟩ := right.found
  cases reflexive with
  | node reflexive said below =>
      have parts := (List.forall₂_and_left _ _).2 ⟨below, children'.flip⟩
      refine ⟨_, _, found, found', Metadata.same_refl said, ?_⟩
      have data := reflexive.of_skeleton own
      refine Shape.matches_of_skeleton (own.trans own'.symm) ?_ data.literal data.numbers
      exact forall₂_through (fun _ _ _ first second => ⟨_, second.1, first, second.2⟩) children parts

end Schema

namespace Declarations

variable {d e : Declarations} {placed placed' : Array PlacedType} {s t : Schema}

/-- Whether declarations are the same but for the order of the named types. -/
structure Reorders (d e : Declarations) : Prop where
  types : d.types.Perm e.types
  naming : d.naming = e.naming
  root : d.root = e.root

theorem Reorders.all (same : d.Reorders e) : d.all.Perm e.all := by
  rw [Declarations.all, Declarations.all, same.root]
  exact (same.types.map _).append_right _

/-- The type registered under a name is that of the declaration of this name. -/
theorem AreTabled.registered (tabled : d.AreTabled placed s) {name : Bytes} {x : SchemaId}
    (found : s.find? name = some x) :
    ∃ n ∈ d.types, n.name = name ∧ s.Declares x n.declaration := by
  obtain ⟨n, listed, same, declares⟩ :=
    exists_of_mem_right tabled.types.flip _ (mem_of_lookup? found)
  exact ⟨n, listed, same.symm, declares⟩

/-- The order of the named types makes no difference to a schema but for the ids. -/
theorem Reorders.bisimilar (same : d.Reorders e) (distinct : (d.types.map (·.name)).Nodup)
    (reflexive : ∀ whole ∈ d.all, whole.IsReflexive) (left : d.AreTabled placed s)
    (right : e.AreTabled placed' t) :
    s.Bisimilar t where
  names name := by
    have listed : name ∈ s.types.map (·.1) ↔ name ∈ t.types.map (·.1) := by
      rw [left.names, right.names]
      exact (same.types.map _).mem_iff
    rw [Bool.eq_iff_iff, Schema.find?_isSome, Schema.find?_isSome]
    exact listed
  naming := by rw [left.naming, right.naming, same.naming]
  typeNaming := by
    rw [Schema.setNamings, Schema.setNamings, left.typeNaming, right.typeNaming,
      Dictionary.ofList_perm (same.types.map _) (by rwa [List.map_map])]
  matching := by
    refine ⟨fun x y => ∃ d : Declaration, d.IsReflexive ∧ s.Declares x d ∧ t.Declares y d, ?_, ?_,
      ?_⟩
    · refine ⟨d.root, reflexive _ ?_, left.root, same.root ▸ right.root⟩
      exact List.mem_append_right _ List.mem_cons_self
    · intro name x y found found'
      obtain ⟨n, listed, rfl, declares⟩ := left.registered found
      obtain ⟨n', listed', names, declares'⟩ := right.registered found'
      obtain rfl := List.inj_on_of_nodup_map distinct (same.types.mem_iff.2 listed') listed names
      refine ⟨_, reflexive _ ?_, declares, declares'⟩
      exact List.mem_append_left _ (List.mem_map_of_mem listed)
    · rintro x y ⟨d, reflexive, declares, declares'⟩
      exact .inr (declares.matches declares' reflexive)

/-- If no reference is undefined in one order, then none is in another. -/
theorem Reorders.defined (same : d.Reorders e) (left : d.AreTabled placed s)
    (right : e.AreTabled placed' t)
    (defined : undefined? placed s = none) : undefined? placed' t = none := by
  rw [left.undefined?_eq_none] at defined
  refine right.undefined?_eq_none.2 fun whole member part within name reference => ?_
  exact (same.types.map _).mem_iff.1
    (defined whole (same.all.mem_iff.2 member) part within name reference)

end Declarations

end DocSchema
