import DocSchema.Proofs.References
import DocSchema.Proofs.SameType

set_option autoImplicit false

namespace DocSchema

namespace Shape

variable {R : SchemaId → SchemaId → Prop} {a b : Shape SchemaId}

private theorem sameList_of_forall₂ {α : Type} {same : α → α → Bool} {related : α → α → Prop}
    (equal : ∀ x y, related x y → same x y = true) {as bs : List α}
    (each : List.Forall₂ related as bs) :
    sameList same as bs = true :=
  sameList_iff.2 (each.imp fun {x y} => equal x y)

private theorem covered_of_forall₂ {α : Type} {schema : α → SchemaId} {related : α → α → Prop}
    (below : ∀ x y, related x y → R (schema x) (schema y)) {as bs : List α}
    (each : List.Forall₂ related as bs) : ∀ p ∈ (as.map schema).zip (bs.map schema), R p.1 p.2 := by
  rw [List.zip_map, List.forall_mem_map]
  exact fun p member => below p.1 p.2 ((List.forall₂_iff_zip.1 each).2 member)

/-- Shapes that match are found to agree, and what they leave to compare is related. -/
theorem Matches.match? (matched : a.Matches R b) :
    ∃ pairs, a.match? b = some pairs ∧ ∀ p ∈ pairs, R p.1 p.2 := by
  cases matched with
  | text length pattern language => exact ⟨[], by simp [Shape.match?], by simp⟩
  | integer ranges multipleOf => exact ⟨[], by simp [Shape.match?, ranges], by simp⟩
  | float ranges divisors => exact ⟨[], by simp [Shape.match?, ranges, divisors], by simp⟩
  | boolean => exact ⟨[], rfl, by simp⟩
  | null => exact ⟨[], rfl, by simp⟩
  | any => exact ⟨[], rfl, by simp⟩
  | literal values => exact ⟨[], by simp [Shape.match?, values], by simp⟩
  | record allowsUnknown fields =>
      refine ⟨_, if_pos ⟨rfl, sameList_of_forall₂ ?_ fields⟩,
        covered_of_forall₂ (fun _ _ f => f.schema) fields⟩
      intro f g related
      simp [related.name, related.isOptional]
  | array length isUnique item =>
      exact ⟨_, if_pos ⟨rfl, rfl⟩, by simpa using item⟩
  | map size key value =>
      exact ⟨_, if_pos rfl, by simpa using And.intro key value⟩
  | tuple elements =>
      exact ⟨_, if_pos elements.length_eq,
        fun p member => (List.forall₂_iff_zip.1 elements).2 member⟩
  | union representation variants =>
      refine ⟨_, if_pos ⟨rfl, sameList_of_forall₂ ?_ variants⟩,
        covered_of_forall₂ (fun _ _ v => v.schema) variants⟩
      intro v w related
      simp [related.name]
  | reference name => exact ⟨[], by simp [Shape.match?], by simp⟩

end Shape

namespace Schema

/-- A relation between the types of two schemas that relates the roots and the types of one name,
and with each pair the types below it. Ids outside their tables are related to each other only. -/
structure Matching (s t : Schema) (R : SchemaId → SchemaId → Prop) : Prop where
  roots : R s.root t.root
  types : ∀ name x y, s.find? name = some x → t.find? name = some y → R x y
  nodes : ∀ x y, R x y → (s.node? x = none ∧ t.node? y = none) ∨
    ∃ m n, s.node? x = some m ∧ t.node? y = some n ∧ m.Matches R n

/-- Whether two schemas are the same up to the ids of their types and the order of their names. -/
structure Bisimilar (s t : Schema) : Prop where
  names : ∀ name, (s.find? name).isSome = (t.find? name).isSome
  naming : s.naming = t.naming
  typeNaming : s.setNamings = t.setNamings
  matching : ∃ R, s.Matching t R

variable {s t u : Schema} {R : SchemaId → SchemaId → Prop} {met later : List (SchemaId × SchemaId)}
  {p : SchemaId × SchemaId}

/-- What a comparison keeps of the pairs that it has met: they are of types of the two tables, each
once. -/
structure IsMet (s t : Schema) (met : List (SchemaId × SchemaId)) : Prop where
  once : met.Nodup
  inside : ∀ q ∈ met, s.contains q.1 = true ∧ t.contains q.2 = true

/-- There are no more pairs than types in both tables. -/
theorem IsMet.length_le (isMet : IsMet s t met) : met.length ≤ s.size * t.size := by
  have listed : met ⊆ List.range s.size ×ˢ List.range t.size := by
    intro q member
    obtain ⟨left, right⟩ := isMet.inside q member
    exact List.mem_product.2 ⟨List.mem_range.2 (of_decide_eq_true left),
      List.mem_range.2 (of_decide_eq_true right)⟩
  have few := (List.subperm_of_subset isMet.once listed).length_le
  rwa [List.length_product, List.length_range, List.length_range] at few

/-- What a comparison ensures where there is a matching: it finds no difference, and forgets no
pair. -/
def Succeeds (s t : Schema) (met : List (SchemaId × SchemaId))
    (found : Option (List (SchemaId × SchemaId))) :
    Prop :=
  ∃ later, found = some later ∧ IsMet s t later ∧ met.length ≤ later.length

private theorem foldlM_succeeds {fuel : Nat} {pairs : List (SchemaId × SchemaId)}
    (step : ∀ met p, IsMet s t met → R p.1 p.2 → s.size * t.size < fuel + met.length →
      Succeeds s t met (s.agree t fuel met p))
    (isMet : IsMet s t met) (covered : ∀ p ∈ pairs, R p.1 p.2)
    (enough : s.size * t.size < fuel + met.length) :
    Succeeds s t met (pairs.foldlM (s.agree t fuel) met) := by
  induction pairs generalizing met with
  | nil => exact ⟨met, rfl, isMet, Nat.le_refl _⟩
  | cons p pairs ih =>
      obtain ⟨first, rest⟩ := List.forall_mem_cons.1 covered
      obtain ⟨between, agreed, isMet', longer⟩ := step met p isMet first enough
      obtain ⟨later, folded, isMet'', longer'⟩ := ih isMet' rest (by omega)
      rw [List.foldlM_cons, agreed]
      exact ⟨later, folded, isMet'', longer.trans longer'⟩

/-- A comparison of related types finds no difference. It does not end early: each level below meets
a pair that was not met before, and there are no more pairs than levels. -/
theorem Matching.agree (matching : s.Matching t R) (fuel : Nat) (met : List (SchemaId × SchemaId))
    (p : SchemaId × SchemaId) (isMet : IsMet s t met) (related : R p.1 p.2)
    (enough : s.size * t.size < fuel + met.length) : Succeeds s t met (s.agree t fuel met p) := by
  induction fuel generalizing met p with
  | zero =>
      have few := isMet.length_le
      omega
  | succ fuel ih =>
      obtain ⟨x, y⟩ := p
      have unchanged : Succeeds s t met (some met) := ⟨met, rfl, isMet, Nat.le_refl _⟩
      rw [Schema.agree]
      rcases matching.nodes x y related with ⟨left, right⟩ | ⟨m, n, left, right, matched⟩
      · rw [left, right]
        exact unchanged
      · obtain ⟨pairs, found, covered⟩ := matched.shape.match?
        rw [left, right]
        dsimp only
        by_cases known : (x, y) ∈ met
        -- The parts of a pair that was met before are compared where it was met.
        · rw [if_pos known]
          exact unchanged
        · rw [if_neg known, if_pos matched.metadata, found]
          have grown : IsMet s t ((x, y) :: met) :=
            ⟨List.nodup_cons.2 ⟨known, isMet.once⟩, List.forall_mem_cons.2
              ⟨⟨contains_iff.2 ⟨m, left⟩, contains_iff.2 ⟨n, right⟩⟩, isMet.inside⟩⟩
          obtain ⟨later, folded, isMet', longer⟩ := foldlM_succeeds ih grown covered (by
            rw [List.length_cons]
            omega)
          exact ⟨later, folded, isMet', (Nat.le_succ _).trans longer⟩

/-- A comparison that found no difference has met a matching. -/
theorem matching_of_equivalent (equivalent : s.equivalent t = true) : ∃ R, s.Matching t R := by
  obtain ⟨met, agrees, root, entries⟩ := equivalent_met equivalent
  refine ⟨fun x y => Covers s t met (x, y), root, ?_, ?_⟩
  · intro name x y found found'
    obtain ⟨id, registered, covers⟩ := entries _ (mem_of_lookup? found)
    exact Option.some.inj (registered.symm.trans found') ▸ covers
  · intro x y covers
    refine covers.imp_right fun member => ?_
    obtain ⟨m, n, pairs, left, right, metadata, matched, covered⟩ := agrees _ member
    exact ⟨m, n, left, right, metadata, Shape.matches_of_match matched covered⟩

theorem names_of_equivalent (equivalent : s.equivalent t = true) (name : Bytes) :
    (s.find? name).isSome = (t.find? name).isSome := by
  obtain ⟨met, -, -, entries⟩ := equivalent_met equivalent
  have known : ∀ entry ∈ s.types, (t.find? entry.1).isSome = true := fun entry member =>
    Option.isSome_iff_exists.2 ((entries entry member).imp fun _ found => found.1)
  cases found : s.find? name with
  | none => rw [find?_eq_none (length_types equivalent) known found]
  | some x => exact (known _ (mem_of_lookup? found)).symm

/-- Schemas that register the same names register as many. -/
theorem Bisimilar.length_types (bisimilar : s.Bisimilar t) : s.types.length = t.types.length := by
  have names : (s.types.map (·.1)).Perm (t.types.map (·.1)) := by
    refine (List.perm_ext_iff_of_nodup s.distinct t.distinct).2 fun name => ?_
    rw [← find?_isSome, ← find?_isSome, bisimilar.names name]
  simpa using names.length_eq

/-- The pairs that a comparison starts from are those of the roots and of the types of one name. -/
theorem Matching.namedPairs? (matching : s.Matching t R)
    (names : ∀ name, (s.find? name).isSome = (t.find? name).isSome) :
    ∃ pairs, s.namedPairs? t = some pairs ∧ ∀ p ∈ pairs, R p.1 p.2 := by
  have listed (types : List (Bytes × SchemaId)) (inside : types ⊆ s.types) :
      ∃ pairs, types.mapM (fun entry => (t.find? entry.1).map fun id => (entry.2, id)) =
        some pairs ∧
        ∀ p ∈ pairs, R p.1 p.2 := by
    induction types with
    | nil => exact ⟨[], rfl, by simp⟩
    | cons entry types ih =>
        obtain ⟨member, rest⟩ := List.cons_subset.1 inside
        obtain ⟨pairs, mapped, covered⟩ := ih rest
        have found : s.find? entry.1 = some entry.2 := lookup?_of_mem s.distinct member
        obtain ⟨id, found'⟩ := Option.isSome_iff_exists.1 ((names entry.1).symm.trans (found ▸ rfl))
        refine ⟨(entry.2, id) :: pairs, ?_, List.forall_mem_cons.2 ⟨?_, covered⟩⟩
        · rw [List.mapM_cons, found', mapped]
          rfl
        · exact matching.types entry.1 entry.2 id found found'
  obtain ⟨pairs, mapped, covered⟩ := listed s.types fun _ member => member
  exact ⟨(s.root, t.root) :: pairs, by rw [Schema.namedPairs?, mapped]; rfl,
    List.forall_mem_cons.2 ⟨matching.roots, covered⟩⟩

/-- Schemas are found equivalent exactly if they are bisimilar. -/
theorem equivalent_iff : s.equivalent t = true ↔ s.Bisimilar t := by
  constructor
  · intro equivalent
    have settled := equivalent
    simp only [Schema.equivalent, Bool.and_eq_true, beq_iff_eq] at settled
    exact ⟨names_of_equivalent equivalent, settled.1.1.2, settled.1.2,
      matching_of_equivalent equivalent⟩
  · intro bisimilar
    obtain ⟨R, matching⟩ := bisimilar.matching
    obtain ⟨pairs, named, covered⟩ := matching.namedPairs? bisimilar.names
    have start : IsMet s t [] := ⟨List.nodup_nil, by simp⟩
    obtain ⟨later, folded, -⟩ :=
      foldlM_succeeds (matching.agree _) start covered (Nat.lt_succ_self (s.size * t.size))
    simp [Schema.equivalent, bisimilar.length_types, bisimilar.naming, bisimilar.typeNaming, named,
      folded]

def IsReal (s : Schema) : Prop :=
  ∀ id node, s.node? id = some node →
    (∀ v ∈ node.values, v.IsReal) ∧ ∀ n ∈ node.shape.numbers, n.isNaN = false

theorem isReal_of_nodes
    (real : ∀ node ∈ s.nodes.toList, (∀ v ∈ node.values, v.IsReal) ∧
      ∀ n ∈ node.shape.numbers, n.isNaN = false) :
    s.IsReal :=
  fun _ node found => real node (mem_of_node? found)

theorem hasUniqueKeys_of_nodes
    (unique : ∀ node ∈ s.nodes.toList, ∀ v ∈ node.values, v.HasUniqueKeys) :
    s.HasUniqueKeys :=
  fun _ node found => unique node (mem_of_node? found)

namespace Bisimilar

theorem refl (unique : s.HasUniqueKeys) (real : s.IsReal) : s.Bisimilar s := by
  refine ⟨fun _ => rfl, rfl, rfl, Eq, rfl, ?_, ?_⟩
  · exact fun name x y found found' => Option.some.inj (found.symm.trans found')
  · rintro x - rfl
    cases found : s.node? x with
    | none => exact .inl ⟨rfl, rfl⟩
    | some m =>
        refine .inr ⟨m, m, rfl, rfl, .refl (fun v member => ?_) (real x m found).2⟩
        exact Value.same_refl (unique x m found v member) ((real x m found).1 v member)

theorem symm (left : s.HasUniqueKeys) (right : t.HasUniqueKeys) (bisimilar : s.Bisimilar t) :
    t.Bisimilar s := by
  obtain ⟨R, matching⟩ := bisimilar.matching
  refine ⟨fun name => (bisimilar.names name).symm, bisimilar.naming.symm, bisimilar.typeNaming.symm,
    fun y x => R x y, matching.roots, ?_, ?_⟩
  · exact fun name y x found found' => matching.types name x y found' found
  · intro y x related
    rcases matching.nodes x y related with ⟨outside, outside'⟩ | ⟨m, n, found, found', matched⟩
    · exact .inl ⟨outside', outside⟩
    · exact .inr ⟨n, m, found', found, matched.symm (left x m found) (right y n found')⟩

theorem trans (first : s.Bisimilar t) (second : t.Bisimilar u) : s.Bisimilar u := by
  obtain ⟨R, matching⟩ := first.matching
  obtain ⟨R', matching'⟩ := second.matching
  refine ⟨fun name => (first.names name).trans (second.names name), first.naming.trans second.naming,
    first.typeNaming.trans second.typeNaming, fun x z => ∃ y, R x y ∧ R' y z,
    ⟨t.root, matching.roots, matching'.roots⟩, ?_, ?_⟩
  · intro name x z found found'
    obtain ⟨y, between⟩ := Option.isSome_iff_exists.1 ((first.names name).symm.trans (found ▸ rfl))
    exact ⟨y, matching.types name x y found between, matching'.types name y z between found'⟩
  · rintro x z ⟨y, related, related'⟩
    rcases matching.nodes x y related with ⟨outside, outside'⟩ | ⟨m, n, found, found', matched⟩
    · rcases matching'.nodes y z related' with ⟨-, outside''⟩ | ⟨n', k, between, -, -⟩
      · exact .inl ⟨outside, outside''⟩
      · cases outside'.symm.trans between
    · rcases matching'.nodes y z related' with ⟨outside', -⟩ | ⟨n', k, between, found'', matched'⟩
      · cases outside'.symm.trans found'
      · obtain rfl := Option.some.inj (between.symm.trans found')
        exact .inr ⟨m, k, found, found'', matched.trans matched'⟩

end Bisimilar

/-- The comparison of schemas decides whether they are bisimilar. So it is transitive, between
schemas that hold each key once it is symmetric, and it finds such a schema without a NaN equivalent
to itself. -/
theorem equivalent_decides (s t u : Schema) :
    (s.equivalent t = true ↔ s.Bisimilar t) ∧
      (s.HasUniqueKeys → t.HasUniqueKeys → s.equivalent t = true → t.equivalent s = true) ∧
      (s.equivalent t = true → t.equivalent u = true → s.equivalent u = true) ∧
      (s.HasUniqueKeys → s.IsReal → s.equivalent s = true) := by
  refine ⟨equivalent_iff, ?_, ?_, ?_⟩
  · intro left right equivalent
    exact equivalent_iff.2 ((equivalent_iff.1 equivalent).symm left right)
  · intro first second
    exact equivalent_iff.2 ((equivalent_iff.1 first).trans (equivalent_iff.1 second))
  · intro unique real
    exact equivalent_iff.2 (.refl unique real)

end Schema

namespace Chains

def folded : Schema where
  nodes := #[⟨.literal (.of (.primitive (.float ⟨0⟩))), {}⟩,
    ⟨.union [⟨"end", 0⟩, ⟨"more", 2⟩] .external, {}⟩, ⟨.record [⟨"next", 1, false⟩] false, {}⟩]
  root := 1
  types := [("chain", 1)]
  distinct := List.nodup_singleton _

/-- The same with the types in another order, and with the other zero. -/
def renumbered : Schema where
  nodes := #[⟨.record [⟨"next", 2, false⟩] false, {}⟩, ⟨.literal (.of (.primitive (.float ⟨0x8000000000000000⟩))), {}⟩,
    ⟨.union [⟨"end", 1⟩, ⟨"more", 0⟩] .external, {}⟩]
  root := 2
  types := [("chain", 2)]
  distinct := List.nodup_singleton _

/-- The same where the types of a list are those of its rest only after two steps. -/
def unrolled : Schema where
  nodes := #[⟨.literal (.of (.primitive (.float ⟨0⟩))), {}⟩,
    ⟨.union [⟨"end", 0⟩, ⟨"more", 2⟩] .external, {}⟩, ⟨.record [⟨"next", 3, false⟩] false, {}⟩,
    ⟨.union [⟨"end", 0⟩, ⟨"more", 4⟩] .external, {}⟩, ⟨.record [⟨"next", 1, false⟩] false, {}⟩]
  root := 3
  types := [("chain", 1)]
  distinct := List.nodup_singleton _

end Chains

/-- Lists are the same type in each of three tables. -/
theorem Schema.equivalent_decides_lists :
    Chains.folded.Bisimilar Chains.renumbered ∧ Chains.renumbered.equivalent Chains.folded = true ∧
      Chains.folded.equivalent Chains.unrolled = true ∧
      Chains.folded.equivalent Chains.folded = true := by
  have first : Chains.folded.equivalent Chains.renumbered = true := by decide +kernel
  have second : Chains.renumbered.equivalent Chains.unrolled = true := by decide +kernel
  have unique (x : Binary64) : (Value.of (.primitive (.float x))).HasUniqueKeys :=
    .intro (fun _ content => by cases content) List.nodup_nil (fun _ inside => by cases inside)
  have folded : Chains.folded.HasUniqueKeys :=
    Schema.hasUniqueKeys_of_nodes (by simp [Chains.folded, SchemaNode.values, unique])
  have renumbered : Chains.renumbered.HasUniqueKeys :=
    Schema.hasUniqueKeys_of_nodes (by simp [Chains.renumbered, SchemaNode.values, unique])
  have zero : (Value.of (.primitive (.float ⟨0⟩))).IsReal :=
    .intro (fun x content => by cases content; decide) (fun _ inside => by cases inside)
  have real : Chains.folded.IsReal :=
    Schema.isReal_of_nodes (by simp [Chains.folded, SchemaNode.values, Shape.numbers, zero])
  obtain ⟨decides, symm, trans, refl⟩ :=
    Schema.equivalent_decides Chains.folded Chains.renumbered Chains.unrolled
  exact ⟨decides.1 first, symm folded renumbered first, trans first second, refl folded real⟩

end DocSchema
