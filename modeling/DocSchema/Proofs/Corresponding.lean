import DocSchema.Proofs.Congruences
import DocSchema.Proofs.Log

set_option autoImplicit false

namespace DocSchema

theorem Walker.bind_assoc {α β γ : Type} (x : Walker α) (f : α → Walker β) (g : β → Walker γ) :
    x >>= f >>= g = x >>= fun a => f a >>= g := by
  have runs : (x >>= f >>= g).run = (x >>= fun a => f a >>= g).run := by
    funext limit l
    change ((x.run limit l).bind fun found => (f found.1).run limit found.2).bind _ =
      (x.run limit l).bind fun found => ((f found.1).run limit found.2).bind _
    cases x.run limit l <;> rfl
  have words : (x >>= f >>= g).worded () = (x >>= fun a => f a >>= g).worded () := by
    cases first : x.log with
    | error e =>
        rw [worded_bind_error (log_bind_error first), worded_bind_error first,
          worded_bind_error first]
    | ok found =>
        obtain ⟨a, before⟩ := found
        rw [worded_bind_ok first]
        cases second : (f a).log with
        | error e =>
            rw [worded_bind_error (log_bind_ok_error first second), worded_bind_ok first,
              worded_bind_error second]
        | ok found =>
            obtain ⟨b, between⟩ := found
            rw [worded_bind_ok (log_bind_ok first second), worded_bind_ok first,
              worded_bind_ok second, List.append_assoc]
  exact Walker.ext runs (funext fun _ => words)

namespace Schema

variable {related : SchemaNode → SchemaNode → Prop} {s t : Schema}

/-- Whether two schemas have related types under each id and the same names, where references are
related to references of the same name only. -/
structure Corresponds (related : SchemaNode → SchemaNode → Prop) (s t : Schema) : Prop where
  size : s.size = t.size
  nodes : ∀ id, Option.Rel related (s.node? id) (t.node? id)
  types : s.types = t.types
  references : ∀ m n, related m n → ∀ name, m.shape = .reference name ↔ n.shape = .reference name

/-- Whether two chains of references end at related types, or end alike without a type. -/
inductive Resolution.Corresponds (related : SchemaNode → SchemaNode → Prop) :
    Resolution → Resolution → Prop
  | found (id : SchemaId) {m n : SchemaNode} (nodes : related m n) :
      Corresponds related (.found id m) (.found id n)
  | dangling (name : Bytes) : Corresponds related (.dangling name) (.dangling name)
  | cyclic (name : Bytes) : Corresponds related (.cyclic name) (.cyclic name)
  | missing : Corresponds related .missing .missing
  | missingTarget (name : Bytes) : Corresponds related (.missingTarget name) (.missingTarget name)

/-- A type that is no reference ends a chain. -/
theorem follow_of_ends {fuel : Nat} {chain : List SchemaId} {id : SchemaId} {node : SchemaNode}
    (found : s.node? id = some node) (ends : ¬ ∃ name, node.shape = .reference name) :
    s.follow (fuel + 1) chain id = .found id node := by
  obtain ⟨shape, metadata⟩ := node
  rw [Schema.follow, found]
  cases shape with
  | reference name => exact absurd ⟨name, rfl⟩ ends
  | _ => rfl

namespace Corresponds

variable (same : s.Corresponds related t)
include same

theorem contains_eq (id : SchemaId) : s.contains id = t.contains id := by
  rw [contains, contains, same.size]

theorem find?_eq (name : Bytes) : s.find? name = t.find? name := by
  rw [find?, find?, same.types]

/-- References lead through both schemas alike. -/
theorem follow (fuel : Nat) (chain : List SchemaId) (id : SchemaId) :
    (s.follow fuel chain id).Corresponds related (t.follow fuel chain id) := by
  induction fuel generalizing chain id with
  | zero => exact .missing
  | succ fuel ih =>
      rcases eq_of_rel (same.nodes id) with ⟨left, right⟩ | ⟨m, n, left, right, nodes⟩
      · rw [Schema.follow, Schema.follow, left, right]
        exact .missing
      have names := same.references m n nodes
      by_cases reference : ∃ name, m.shape = .reference name
      · obtain ⟨shape, metadata⟩ := m
        obtain ⟨shape', metadata'⟩ := n
        obtain ⟨name, rfl⟩ := reference
        obtain rfl : shape' = .reference name := (names name).1 rfl
        rw [Schema.follow, Schema.follow, left, right]
        dsimp only
        split
        · exact .cyclic name
        · rw [same.find?_eq name]
          cases t.find? name with
          | none => exact .dangling name
          | some target =>
              dsimp only
              rw [same.contains_eq target]
              split
              · exact ih _ target
              · exact .missingTarget name
      · have other : ¬ ∃ name, n.shape = .reference name :=
          fun ⟨name, there⟩ => reference ⟨name, (names name).2 there⟩
        rw [follow_of_ends left reference, follow_of_ends right other]
        exact .found id nodes

theorem resolve (id : SchemaId) : (s.resolve id).Corresponds related (t.resolve id) := by
  rw [Schema.resolve, Schema.resolve, same.size]
  exact same.follow _ [] id

variable {α : Type} {r : Walker.Congruence}

/-- What is done with the type that a value is checked against is related if it is for related
types. -/
theorem target {h k : Target → Walker α} (id : SchemaId) (path : Path)
    (undefined : ∀ name, r.Rel (h (.undefined name)) (k (.undefined name)))
    (node : ∀ target m n, related m n → r.Rel (h (.node target m)) (k (.node target n))) :
    r.Rel (Walker.lift (s.target id path) >>= h) (Walker.lift (t.target id path) >>= k) := by
  have ends := same.resolve id
  rw [Schema.target, Schema.target]
  generalize s.resolve id = r, t.resolve id = r' at ends
  cases ends with
  | found target nodes => exact node target _ _ nodes
  | dangling name => exact undefined name
  | cyclic name => exact r.refl _
  | missing => exact r.refl _
  | missingTarget name => exact r.refl _

theorem followed {h k : Option (SchemaId × SchemaNode) → Walker α} (id : SchemaId) (path : Path)
    (none : r.Rel (h none) (k none))
    (node : ∀ target m n, related m n → r.Rel (h (some (target, m))) (k (some (target, n)))) :
    r.Rel (Walker.follow s id path >>= h) (Walker.follow t id path >>= k) := by
  rw [Walker.follow, Walker.follow, Walker.bind_assoc, Walker.bind_assoc]
  refine same.target id path (fun name => ?_) node
  have reported : r.Rel (Walker.report path (.undefinedType name) >>= fun _ => h Option.none)
      (Walker.report path (.undefinedType name) >>= fun _ => k Option.none) :=
        r.bind (r.refl _) fun _ => none
  exact reported

end Corresponds

end Schema

/-- Whether a relation that sequencing keeps overlooks how related types differ: they resemble each
other, and it regards neither warnings nor, of two literals that differ, which one was not met.
Trials keep it. -/
structure Walker.Congruence.Overlooks (r : Walker.Congruence)
    (related : SchemaNode → SchemaNode → Prop) : Prop where
  shape : ∀ m n, related m n → m.shape.Resembles Eq n.shape
  literal : ∀ m n, related m n → ∀ v w, m.shape = .literal v → n.shape = .literal w → ∀ path,
    r.Rel (Walker.report path (.wrongLiteral v)) (Walker.report path (.wrongLiteral w))
  deprecation : ∀ isDeprecated isDeprecated' path,
    r.Rel (Check.deprecation isDeprecated path) (Check.deprecation isDeprecated' path)
  accepts : ∀ x y : Walker Unit, r.Rel x y → r.Rel x.accepts y.accepts

variable {r : Walker.Congruence} {related : SchemaNode → SchemaNode → Prop}
    (overlooks : r.Overlooks related)
include overlooks

namespace Walk

variable {w w' : Walk} (same : w.schema.Corresponds related w'.schema)
  (check : ∀ id s, r.Rel (w.check id s) (w'.check id s))
include same check

/-- The trials of a variant are related. -/
theorem candidate?_corresponds (s : Site) (v : Variant SchemaId) :
    r.Rel (w.candidate? s v) (w'.candidate? s v) := by
  refine same.target v.schema s.path (fun _ => r.refl _) fun target m n nodes => ?_
  have tried : r.Rel (do return if ← Walker.accepts (w.check v.schema s) then some false else none)
      (do return if ← Walker.accepts (w'.check v.schema s) then some false else none) :=
    r.bind (overlooks.accepts _ _ (check v.schema s)) fun _ => r.refl _
  dsimp only
  obtain equal | ⟨u, u', left, right, -⟩ := (overlooks.shape m n nodes).eq_or_literal
  · rw [equal]
    split
    · exact r.refl _
    · exact tried
  · rw [left, right]
    exact tried

theorem candidates_correspond (s : Site) (vs : List (Variant SchemaId)) :
    r.Rel (w.candidates s vs) (w'.candidates s vs) := by
  induction vs with
  | nil => exact r.refl _
  | cons v vs ih =>
      exact r.bind (candidate?_corresponds overlooks same check s v)
        fun _ => r.bind ih fun _ => r.refl _

/-- Walks with schemas that correspond are related if they are on the level below. -/
theorem congruent_of_corresponds (modes : w.isLenient = w'.isLenient) : w.Congruent r w' where
  check := check
  follow id path h k none node := same.followed id path none fun target m n nodes =>
    node target m n (overlooks.shape m n nodes)
  untagged u target := by
    unfold Walk.untagged
    rw [modes]
    split
    · exact r.bind (candidates_correspond overlooks same check target u.variants) fun _ => r.refl _
    · exact r.refl _

end Walk

namespace Schema

variable {s t : Schema} (same : s.Corresponds related t)
include same

/-- The structural passes are related. -/
theorem Corresponds.check (settings : Settings) (depth : Nat) :
    ∀ id site, r.Rel (s.check settings depth id site) (t.check settings depth id site) := by
  induction depth with
  | zero => exact fun _ _ => r.refl _
  | succ depth ih =>
      intro id site
      have walks : Walk.Congruent r ⟨s, settings.isLenient, s.check settings depth⟩
          ⟨t, settings.isLenient, t.check settings depth⟩ :=
            Walk.congruent_of_corresponds overlooks same ih rfl
      refine same.followed id site.path (r.refl _) fun target m n nodes => ?_
      dsimp only
      split
      · exact r.refl _
      refine r.bind (overlooks.deprecation _ _ site.path) fun _ => ?_
      obtain equal | ⟨u, u', left, right, indiscernible⟩ :=
        (overlooks.shape m n nodes).eq_or_literal
      · rw [equal]
        exact walks.shape target site n.shape
      · rw [left, right, Walk.shape, Walk.shape, Check.expect, Check.expect, indiscernible.values]
        split
        · exact r.refl _
        · exact overlooks.literal m n nodes u u' left right site.path

/-- So are the searches for holes. -/
theorem Corresponds.complete (selections : List Selection) (depth : Nat) :
    ∀ id site isOptional, r.Rel (s.complete selections depth id site isOptional)
      (t.complete selections depth id site isOptional) := by
  induction depth with
  | zero => exact fun _ _ _ => r.refl _
  | succ depth ih =>
      intro id site isOptional
      refine same.target id site.path (fun _ => r.refl _) fun target m n nodes => ?_
      dsimp only
      obtain equal | ⟨u, u', left, right, -⟩ := (overlooks.shape m n nodes).eq_or_literal
      · rw [equal]
        split
        · exact r.refl _
        · exact r.forM fun part => ih part.1 part.2.1 part.2.2
      · rw [left, right]
        exact r.refl _

end Schema

end DocSchema
