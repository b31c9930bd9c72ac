import DocSchema.Proofs.SameNumber
import DocSchema.Schema.Equivalence
import DocSchema.Validation

set_option autoImplicit false

namespace DocSchema

def SchemaNode.values (n : SchemaNode) : List Value :=
  (match n.shape with
    | .literal v => [v]
    | _ => []) ++ n.metadata.defaultValue.toList ++ n.metadata.examples ++
    n.metadata.extensions.map (·.2)

/-- Whether no value embedded in a schema holds two entries under one key. -/
def Schema.HasUniqueKeys (schema : Schema) : Prop :=
  ∀ id node, schema.node? id = some node → ∀ v ∈ node.values, v.HasUniqueKeys

structure Field.Related (R : SchemaId → SchemaId → Prop) (f f' : Field SchemaId) : Prop where
  name : f.name = f'.name
  isOptional : f.isOptional = f'.isOptional
  schema : R f.schema f'.schema

structure Variant.Related (R : SchemaId → SchemaId → Prop) (v v' : Variant SchemaId) : Prop where
  name : v.name = v'.name
  schema : R v.schema v'.schema

/-- Whether two shapes demand the same, given which types below them do. -/
inductive Shape.Related (R : SchemaId → SchemaId → Prop) : Shape SchemaId → Shape SchemaId → Prop
  | text (length : Counts) (pattern language : Option Bytes) :
      Related R (.text length pattern language) (.text length pattern language)
  | integer {r r' : Range} (ranges : ∀ v, r.admits v = r'.admits v) (multipleOf : Option Int64) :
      Related R (.integer r multipleOf) (.integer r' multipleOf)
  | float {r r' : Range} {m m' : Option Number} (ranges : ∀ v, r.admits v = r'.admits v)
      (divisors : ∀ v : Number, m.all v.isMultipleOf = m'.all v.isMultipleOf) :
      Related R (.float r m) (.float r' m')
  | boolean : Related R .boolean .boolean
  | null : Related R .null .null
  | any : Related R .any .any
  | literal {v v' : Value} (values : ∀ u : Value, u.same v = u.same v')
      (keys : ∀ k, Check.isKey v k = Check.isKey v' k) : Related R (.literal v) (.literal v')
  | record {fs fs' : List (Field SchemaId)} (allowsUnknown : Bool)
      (fields : List.Forall₂ (Field.Related R) fs fs') :
      Related R (.record fs allowsUnknown) (.record fs' allowsUnknown)
  | array {i i' : SchemaId} (length : Counts) (isUnique : Bool) (item : R i i') :
      Related R (.array i length isUnique) (.array i' length isUnique)
  | map {k k' v v' : SchemaId} (size : Counts) (key : R k k') (value : R v v') :
      Related R (.map k v size) (.map k' v' size)
  | tuple {es es' : List SchemaId} (elements : List.Forall₂ R es es') :
      Related R (.tuple es) (.tuple es')
  | union {vs vs' : List (Variant SchemaId)} (representation : Representation)
      (variants : List.Forall₂ (Variant.Related R) vs vs') :
      Related R (.union vs representation) (.union vs' representation)
  | reference (name : Bytes) : Related R (.reference name) (.reference name)

/-- Whether two shapes are of one kind and hold equal data, where `R` relates the types below them
in order. -/
inductive Shape.Matches (R : SchemaId → SchemaId → Prop) : Shape SchemaId → Shape SchemaId → Prop
  | text (length : Counts) (pattern language : Option Bytes) :
      Matches R (.text length pattern language) (.text length pattern language)
  | integer {r r' : Range} (ranges : r.same r' = true) (multipleOf : Option Int64) :
      Matches R (.integer r multipleOf) (.integer r' multipleOf)
  | float {r r' : Range} {m m' : Option Number} (ranges : r.same r' = true)
      (divisors : bothOrNeither Number.same m m' = true) : Matches R (.float r m) (.float r' m')
  | boolean : Matches R .boolean .boolean
  | null : Matches R .null .null
  | any : Matches R .any .any
  | literal {v v' : Value} (values : v.same v' = true) : Matches R (.literal v) (.literal v')
  | record {fs fs' : List (Field SchemaId)} (allowsUnknown : Bool)
      (fields : List.Forall₂ (Field.Related R) fs fs') :
      Matches R (.record fs allowsUnknown) (.record fs' allowsUnknown)
  | array {i i' : SchemaId} (length : Counts) (isUnique : Bool) (item : R i i') :
      Matches R (.array i length isUnique) (.array i' length isUnique)
  | map {k k' v v' : SchemaId} (size : Counts) (key : R k k') (value : R v v') :
      Matches R (.map k v size) (.map k' v' size)
  | tuple {es es' : List SchemaId} (elements : List.Forall₂ R es es') :
      Matches R (.tuple es) (.tuple es')
  | union {vs vs' : List (Variant SchemaId)} (representation : Representation)
      (variants : List.Forall₂ (Variant.Related R) vs vs') :
      Matches R (.union vs representation) (.union vs' representation)
  | reference (name : Bytes) : Matches R (.reference name) (.reference name)

/-- A relation between the types of two schemas under which related types demand the same. Ids
outside their tables are related to each other. -/
structure Schema.Bisimulation (s t : Schema) (R : SchemaId → SchemaId → Prop) : Prop where
  nodes : ∀ x y, R x y → (s.node? x = none ∧ t.node? y = none) ∨
    ∃ m n, s.node? x = some m ∧ t.node? y = some n ∧
      m.metadata.isDeprecated = n.metadata.isDeprecated ∧ m.shape.Related R n.shape
  names : ∀ name, (s.find? name = none ∧ t.find? name = none) ∨
    ∃ x y, s.find? name = some x ∧ t.find? name = some y ∧ R x y
  roots : R s.root t.root

section Match

variable {R : SchemaId → SchemaId → Prop} {α : Type}

private theorem forall₂_of_sameList {same : α → α → Bool} {schema : α → SchemaId} {as bs : List α}
    (related : sameList same as bs = true)
    (covered : ∀ p ∈ (as.map schema).zip (bs.map schema), R p.1 p.2) :
    List.Forall₂ (fun a b => same a b = true ∧ R (schema a) (schema b)) as bs := by
  obtain ⟨length, each⟩ := List.forall₂_iff_zip.1 (sameList_iff.1 related)
  refine List.forall₂_iff_zip.2 ⟨length, fun {a b} member => ⟨each member, ?_⟩⟩
  rw [List.zip_map] at covered
  exact covered (schema a, schema b) (List.mem_map_of_mem (f := Prod.map schema schema) member)

private theorem isKey_congr {v w : Value} (same : v.same w = true) (k : Literal) :
    Check.isKey v k = Check.isKey w k := by
  have contents := (Value.same_iff.1 same).1
  unfold Check.isKey
  cases left : v.content <;> cases right : w.content <;> rw [left, right] at contents <;>
    try cases contents
  all_goals try rfl
  case primitive p q =>
    rcases Primitive.same_cases contents with rfl | ⟨x, y, rfl, rfl, -⟩ <;> rfl

/-- The comparison of two shapes gives the pairs of types that have to be related for the shapes to
match. -/
theorem Shape.matches_of_match {a b : Shape SchemaId} {pairs : List (SchemaId × SchemaId)}
    (matched : a.match? b = some pairs) (covered : ∀ p ∈ pairs, R p.1 p.2) : a.Matches R b := by
  unfold match? at matched
  split at matched
  case h_1 l p g l' p' g' =>
    split at matched
    case isTrue equal =>
      obtain ⟨rfl, rfl, rfl⟩ := equal
      exact .text l p g
    case isFalse => cases matched
  case h_2 r m r' m' =>
    split at matched
    case isTrue equal =>
      obtain ⟨ranges, rfl⟩ := equal
      exact .integer ranges m
    case isFalse => cases matched
  case h_3 r m r' m' =>
    split at matched
    case isTrue equal => exact .float equal.1 equal.2
    case isFalse => cases matched
  case h_4 => exact .boolean
  case h_5 => exact .null
  case h_6 => exact .any
  case h_7 v w =>
    split at matched
    case isTrue same => exact .literal same
    case isFalse => cases matched
  case h_8 fs allows gs allows' =>
    split at matched
    case isTrue equal =>
      obtain ⟨rfl, related⟩ := equal
      have same := Option.some.inj matched
      subst same
      refine .record allows ((forall₂_of_sameList related covered).imp fun {f g} both => ?_)
      obtain ⟨name, isOptional⟩ : f.name = g.name ∧ f.isOptional = g.isOptional := by
        simpa using both.1
      exact ⟨name, isOptional, both.2⟩
    case isFalse => cases matched
  case h_9 i l u i' l' u' =>
    split at matched
    case isTrue equal =>
      obtain ⟨rfl, rfl⟩ := equal
      have same := Option.some.inj matched
      subst same
      exact .array l u (covered (i, i') (List.mem_singleton_self _))
    case isFalse => cases matched
  case h_10 k v n k' v' n' =>
    split at matched
    case isTrue equal =>
      have same := equal
      subst same
      have same := Option.some.inj matched
      subst same
      exact .map n (covered (k, k') List.mem_cons_self)
        (covered (v, v') (List.mem_cons_of_mem _ (List.mem_singleton_self _)))
    case isFalse => cases matched
  case h_11 es es' =>
    split at matched
    case isTrue length =>
      have same := Option.some.inj matched
      subst same
      exact .tuple (List.forall₂_iff_zip.2 ⟨length, fun {x y} member => covered (x, y) member⟩)
    case isFalse => cases matched
  case h_12 vs r ws r' =>
    split at matched
    case isTrue equal =>
      obtain ⟨rfl, related⟩ := equal
      have same := Option.some.inj matched
      subst same
      refine .union r ((forall₂_of_sameList related covered).imp fun {v w} both => ?_)
      exact ⟨by simpa using both.1, both.2⟩
    case isFalse => cases matched
  case h_13 name name' =>
    split at matched
    case isTrue equal =>
      have same := equal
      subst same
      exact .reference name
    case isFalse => cases matched
  case h_14 => cases matched

/-- Shapes that match demand the same if the values that they hold have each key once. -/
theorem Shape.Matches.related {a b : Shape SchemaId} (matched : a.Matches R b)
    (left : ∀ v, a = .literal v → v.HasUniqueKeys) (right : ∀ v, b = .literal v → v.HasUniqueKeys) :
    a.Related R b := by
  cases matched with
  | text length pattern language => exact .text length pattern language
  | integer ranges multipleOf => exact .integer (Range.admits_congr ranges) multipleOf
  | float ranges divisors =>
      refine .float (Range.admits_congr ranges) fun v => ?_
      exact bothOrNeither_all divisors fun _ _ same => Number.isMultipleOf_congr same v
  | boolean => exact .boolean
  | null => exact .null
  | any => exact .any
  | literal values =>
      exact .literal (fun u => Value.same_congr (left _ rfl) (right _ rfl) values)
        (isKey_congr values)
  | record allowsUnknown fields => exact .record allowsUnknown fields
  | array length isUnique item => exact .array length isUnique item
  | map size key value => exact .map size key value
  | tuple elements => exact .tuple elements
  | union representation variants => exact .union representation variants
  | reference name => exact .reference name

end Match

namespace Schema

variable {s t : Schema} {met later latest : List (SchemaId × SchemaId)} {p : SchemaId × SchemaId}

def Covers (s t : Schema) (met : List (SchemaId × SchemaId)) (p : SchemaId × SchemaId) : Prop :=
  (s.node? p.1 = none ∧ t.node? p.2 = none) ∨ p ∈ met

/-- Whether a pair of types shows no difference and all pairs below have been met. -/
def Agrees (s t : Schema) (met : List (SchemaId × SchemaId)) (p : SchemaId × SchemaId) : Prop :=
  ∃ m n pairs, s.node? p.1 = some m ∧ t.node? p.2 = some n ∧ m.metadata.same n.metadata = true ∧
    m.shape.match? n.shape = some pairs ∧ ∀ c ∈ pairs, Covers s t met c

/-- What a step of a comparison ensures: no pair is lost, and each new one agrees. -/
structure Extends (s t : Schema) (met later : List (SchemaId × SchemaId)) : Prop where
  kept : met ⊆ later
  agrees : ∀ q ∈ later, q ∈ met ∨ Agrees s t later q

theorem Covers.mono (kept : met ⊆ later) (covers : Covers s t met p) : Covers s t later p :=
  covers.imp_right fun member => kept member

theorem Agrees.mono (kept : met ⊆ later) (agrees : Agrees s t met p) : Agrees s t later p := by
  obtain ⟨m, n, pairs, left, right, metadata, matched, covered⟩ := agrees
  exact ⟨m, n, pairs, left, right, metadata, matched, fun c member => (covered c member).mono kept⟩

theorem Extends.trans (first : Extends s t met later) (second : Extends s t later latest) :
    Extends s t met latest where
  kept := fun _ member => second.kept (first.kept member)
  agrees := by
    intro q member
    rcases second.agrees q member with before | agrees
    · exact (first.agrees q before).imp_right (Agrees.mono second.kept)
    · exact .inr agrees

private theorem foldlM_agree {fuel : Nat} {pairs : List (SchemaId × SchemaId)}
    (step : ∀ met later p, s.agree t fuel met p = some later →
      Extends s t met later ∧ Covers s t later p)
    (folded : pairs.foldlM (s.agree t fuel) met = some later) :
    Extends s t met later ∧ ∀ p ∈ pairs, Covers s t later p := by
  induction pairs generalizing met with
  | nil =>
      have same := Option.some.inj folded
      subst same
      exact ⟨⟨fun _ member => member, fun _ member => .inl member⟩, by simp⟩
  | cons p pairs ih =>
      rw [List.foldlM_cons] at folded
      obtain ⟨between, first, rest⟩ := Option.bind_eq_some_iff.1 folded
      obtain ⟨extends_first, covers⟩ := step met between p first
      obtain ⟨extends_rest, all⟩ := ih rest
      refine ⟨extends_first.trans extends_rest, ?_⟩
      intro q member
      rcases List.mem_cons.1 member with rfl | inside
      · exact covers.mono extends_rest.kept
      · exact all q inside

/-- All that one step of a comparison can do without finding a difference: the pair is covered, or
the pairs below are compared. -/
theorem agree_cases {fuel : Nat} (agreed : s.agree t (fuel + 1) met p = some later) :
    (Covers s t met p ∧ later = met) ∨
      ∃ m n pairs, s.node? p.1 = some m ∧ t.node? p.2 = some n ∧ m.metadata.same n.metadata = true ∧
        m.shape.match? n.shape = some pairs ∧
        pairs.foldlM (s.agree t fuel) (p :: met) = some later := by
  obtain ⟨x, y⟩ := p
  rw [agree] at agreed
  cases left : s.node? x <;> cases right : t.node? y <;> simp only [left, right] at agreed
  case none.none => exact .inl ⟨.inl ⟨left, right⟩, (Option.some.inj agreed).symm⟩
  case none.some n => cases agreed
  case some.none m => cases agreed
  case some.some m n =>
    by_cases known : (x, y) ∈ met
    · rw [if_pos known] at agreed
      exact .inl ⟨.inr known, (Option.some.inj agreed).symm⟩
    · rw [if_neg known] at agreed
      by_cases metadata : m.metadata.same n.metadata = true
      · rw [if_pos metadata] at agreed
        cases matched : m.shape.match? n.shape with
        | none =>
            rw [matched] at agreed
            cases agreed
        | some pairs =>
            rw [matched] at agreed
            exact .inr ⟨m, n, pairs, rfl, rfl, metadata, matched, agreed⟩
      · rw [if_neg metadata] at agreed
        cases agreed

/-- A comparison that finds no difference has met all pairs below the given one. -/
theorem agree_spec (fuel : Nat) (met later : List (SchemaId × SchemaId)) (p : SchemaId × SchemaId)
    (agreed : s.agree t fuel met p = some later) :
    Extends s t met later ∧ Covers s t later p := by
  induction fuel generalizing met later p with
  | zero => cases agreed
  | succ fuel ih =>
      rcases agree_cases agreed with ⟨covers, rfl⟩ |
        ⟨m, n, pairs, left, right, metadata, matched, folded⟩
      · exact ⟨⟨fun _ member => member, fun _ member => .inl member⟩, covers⟩
      · obtain ⟨further, covered⟩ := foldlM_agree ih folded
        refine ⟨⟨fun q member => further.kept (List.mem_cons_of_mem _ member), ?_⟩,
          .inr (further.kept List.mem_cons_self)⟩
        intro q member
        rcases further.agrees q member with before | agrees
        · rcases List.mem_cons.1 before with rfl | inside
          · exact .inr ⟨m, n, pairs, left, right, metadata, matched, covered⟩
          · exact .inl inside
        · exact .inr agrees

private theorem mem_of_mapM {α β : Type} {f : α → Option β} {as : List α} {bs : List β}
    (mapped : as.mapM f = some bs) : ∀ a ∈ as, ∃ b ∈ bs, f a = some b := by
  induction as generalizing bs with
  | nil => simp
  | cons a as ih =>
      rw [List.mapM_cons] at mapped
      obtain ⟨b, first, rest⟩ := Option.bind_eq_some_iff.1 mapped
      obtain ⟨bs', others, same⟩ := Option.bind_eq_some_iff.1 rest
      have same := Option.some.inj same
      subst same
      intro a' member
      rcases List.mem_cons.1 member with rfl | inside
      · exact ⟨b, List.mem_cons_self, first⟩
      · obtain ⟨b', listed, found⟩ := ih others a' inside
        exact ⟨b', List.mem_cons_of_mem b listed, found⟩

/-- Registered names are compared with what the other schema registers under them. -/
theorem namedPairs?_spec {pairs : List (SchemaId × SchemaId)}
    (named : s.namedPairs? t = some pairs) :
    (s.root, t.root) ∈ pairs ∧
      ∀ entry ∈ s.types, ∃ id, t.find? entry.1 = some id ∧ (entry.2, id) ∈ pairs := by
  obtain ⟨listed, mapped, rfl⟩ := Option.map_eq_some_iff.1 named
  refine ⟨List.mem_cons_self, fun entry member => ?_⟩
  obtain ⟨pair, inside, found⟩ := mem_of_mapM mapped entry member
  obtain ⟨id, registered, rfl⟩ := Option.map_eq_some_iff.1 found
  exact ⟨id, registered, List.mem_cons_of_mem _ inside⟩

theorem find?_isSome {name : Bytes} : (s.find? name).isSome = true ↔ name ∈ s.types.map (·.1) := by
  simp [find?, lookup?, List.find?_isSome]

/-- Registries of one size have the same names if one has all names of the other. -/
theorem find?_eq_none {name : Bytes} (length : s.types.length = t.types.length)
    (all : ∀ entry ∈ s.types, (t.find? entry.1).isSome = true) (absent : s.find? name = none) :
    t.find? name = none := by
  have inside : s.types.map (·.1) ⊆ t.types.map (·.1) := by
    intro taken member
    obtain ⟨entry, listed, rfl⟩ := List.mem_map.1 member
    exact find?_isSome.1 (all entry listed)
  have same_names := (List.subperm_of_subset s.distinct inside).perm_of_length_le (by simp [length])
  by_contra present
  have member := find?_isSome.1 (Option.isSome_iff_ne_none.2 present)
  have found := find?_isSome.2 (same_names.mem_iff.2 member)
  rw [absent] at found
  cases found

/-- A comparison of two schemas that finds no difference has met only pairs that agree, among them
that of the roots and those of the types of one name. -/
theorem equivalent_met (equivalent : s.equivalent t = true) :
    ∃ met, (∀ q ∈ met, Agrees s t met q) ∧ Covers s t met (s.root, t.root) ∧
      ∀ entry ∈ s.types, ∃ id, t.find? entry.1 = some id ∧ Covers s t met (entry.2, id) := by
  unfold Schema.equivalent at equivalent
  rw [Bool.and_eq_true] at equivalent
  obtain ⟨-, compared⟩ := equivalent
  cases named : s.namedPairs? t with
  | none =>
      rw [named] at compared
      cases compared
  | some pairs =>
      rw [named] at compared
      obtain ⟨met, folded⟩ := Option.isSome_iff_exists.1 compared
      obtain ⟨further, covered⟩ := foldlM_agree (agree_spec _) folded
      obtain ⟨root, entries⟩ := namedPairs?_spec named
      refine ⟨met, fun q member => ?_, covered _ root, fun entry member => ?_⟩
      · exact (further.agrees q member).resolve_left List.not_mem_nil
      · obtain ⟨id, registered, listed⟩ := entries entry member
        exact ⟨id, registered, covered _ listed⟩

theorem length_types (equivalent : s.equivalent t = true) : s.types.length = t.types.length := by
  simp only [Schema.equivalent, Bool.and_eq_true, beq_iff_eq] at equivalent
  exact equivalent.1.1.1

/-- Equivalent schemas are bisimilar. -/
theorem equivalent_bisimulation (left : s.HasUniqueKeys) (right : t.HasUniqueKeys)
    (equivalent : s.equivalent t = true) : ∃ R, s.Bisimulation t R := by
  obtain ⟨met, agrees, root, entries⟩ := equivalent_met equivalent
  refine ⟨fun x y => Covers s t met (x, y), ?_, ?_, root⟩
  · intro x y covers
    rcases covers with outside | member
    · exact .inl outside
    · obtain ⟨m, n, below, found, found', metadata, matched, settled⟩ := agrees _ member
      refine .inr ⟨m, n, found, found', ?_, ?_⟩
      · simp only [Metadata.same, Bool.and_eq_true, beq_iff_eq] at metadata
        exact metadata.1.1.1.2
      · refine (Shape.matches_of_match matched settled).related ?_ ?_
        · intro v shaped
          exact left x m found v (by simp [SchemaNode.values, shaped])
        · intro v shaped
          exact right y n found' v (by simp [SchemaNode.values, shaped])
  · intro name
    cases found : s.find? name with
    | none =>
        refine .inl ⟨rfl, find?_eq_none (length_types equivalent) ?_ found⟩
        intro entry member
        obtain ⟨id, registered, -⟩ := entries entry member
        exact Option.isSome_iff_exists.2 ⟨id, registered⟩
    | some x =>
        obtain ⟨id, registered, covers⟩ := entries _ (mem_of_lookup? found)
        exact .inr ⟨x, id, rfl, registered, covers⟩

end Schema

end DocSchema
