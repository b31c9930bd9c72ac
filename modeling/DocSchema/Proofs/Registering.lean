import Mathlib.Data.List.Induction
import DocSchema.Proofs.Attaching
import DocSchema.Proofs.Lists
import DocSchema.Proofs.SameValue
import DocSchema.Proofs.Tables
import DocSchema.Schema.Indexed

set_option autoImplicit false

namespace DocSchema

variable {types : List (Bytes × SchemaId)} {index : Std.HashMap Bytes Nat} {name : Bytes}

def IsIndex (types : List (Bytes × SchemaId)) (index : Std.HashMap Bytes Nat) : Prop :=
  ∀ (name : Bytes) (position : Nat), index[name]? = some position ↔
    types[position]?.map (·.1) = some name

namespace IsIndex

theorem empty : IsIndex [] ∅ := by
  intro name position
  simp

/-- A name that the index does not know is not registered. -/
theorem unknown (isIndex : IsIndex types index) : index[name]? = none ↔ name ∉ types.map (·.1) := by
  rw [Option.eq_none_iff_forall_ne_some, List.mem_iff_getElem?, not_exists]
  refine forall_congr' fun position => not_congr ?_
  rw [isIndex name position, List.getElem?_map]

theorem contains (isIndex : IsIndex types index) :
    index.contains name = true ↔ name ∈ types.map (·.1) := by
  rw [Std.HashMap.contains_eq_isSome_getElem?, ← not_iff_not, ← isIndex.unknown, Bool.not_eq_true,
    Option.isSome_eq_false_iff, Option.isNone_iff_eq_none]

/-- Since a name has one position in the index, it stands in the list once. -/
theorem distinct (isIndex : IsIndex types index) : (types.map (·.1)).Nodup := by
  rw [List.nodup_iff_getElem?_ne_getElem?]
  intro i j before inside same
  rw [List.getElem?_map, List.getElem?_map] at same
  obtain ⟨entry, found⟩ : ∃ entry, types[j]? = some entry :=
    ⟨_, List.getElem?_eq_getElem (by rwa [List.length_map] at inside)⟩
  have last := (isIndex entry.1 j).2 (congrArg (Option.map (·.1)) found)
  have first := (isIndex entry.1 i).2 (same.trans (congrArg (Option.map (·.1)) found))
  have equal := Option.some.inj (first.symm.trans last)
  omega

/-- A new name takes the position at the end. -/
theorem push (isIndex : IsIndex types index) (fresh : name ∉ types.map (·.1)) (id : SchemaId) :
    IsIndex (types ++ [(name, id)]) (index.insertIfNew name types.length) := by
  intro other position
  rw [Std.HashMap.getElem?_insertIfNew]
  by_cases same : name = other
  · subst same
    have absent : name ∉ index := by
      rwa [← Std.HashMap.contains_iff_mem, isIndex.contains]
    rw [if_pos ⟨beq_self_eq_true _, absent⟩, Option.some_inj]
    constructor
    · rintro rfl
      simp
    · intro found
      rcases Nat.lt_trichotomy position types.length with before | here | after
      · rw [List.getElem?_append_left before] at found
        obtain ⟨entry, at_position, same⟩ := Option.map_eq_some_iff.1 found
        exact absurd (same ▸ List.mem_map_of_mem (List.mem_of_getElem? at_position)) fresh
      · exact here.symm
      · rw [List.getElem?_eq_none (by rw [List.length_append]; exact after)] at found
        cases found
  · rw [if_neg fun both => same (eq_of_beq both.1), isIndex other position]
    rcases Nat.lt_trichotomy position types.length with before | rfl | after
    · rw [List.getElem?_append_left before]
    · simp [same]
    · rw [List.getElem?_eq_none (Nat.le_of_lt after),
        List.getElem?_eq_none (by rw [List.length_append]; exact after)]

/-- The list is indexed from its beginning, one name after the other. -/
theorem reindex (distinct : (types.map (·.1)).Nodup) : IsIndex types (DocSchema.reindex types) := by
  induction types using List.reverseRecOn with
  | nil => exact empty
  | append_singleton before entry ih =>
      rw [List.map_append, List.nodup_append] at distinct
      have fresh : entry.1 ∉ before.map (·.1) := by
        intro taken
        exact distinct.2.2 entry.1 taken entry.1 List.mem_cons_self rfl
      have last : DocSchema.reindex (before ++ [entry]) =
          (DocSchema.reindex before).insertIfNew entry.1 before.length := by
        simp [DocSchema.reindex, List.zipIdx_append]
      rw [last]
      exact (ih distinct.1).push fresh entry.2

/-- What stands at the position of a name is what the list holds under it. -/
theorem lookup? (isIndex : IsIndex types index) (name : Bytes) :
    (index[name]?).bind (fun position => types[position]?.map (·.2)) =
      DocSchema.lookup? name types := by
  cases known : index[name]? with
  | none => exact (lookup?_eq_none.2 (isIndex.unknown.1 known)).symm
  | some position =>
      obtain ⟨entry, found, rfl⟩ := Option.map_eq_some_iff.1 ((isIndex name position).1 known)
      rw [Option.bind_some, found, lookup?_of_mem isIndex.distinct (List.mem_of_getElem? found)]
      rfl

/-- A name stands at one position only, so the removal of the position is that of the name. -/
theorem eraseIdx (isIndex : IsIndex types index) {position : Nat}
    (known : index[name]? = some position) :
    types.eraseIdx position = types.filter fun entry => entry.1 != name := by
  obtain ⟨entry, found, rfl⟩ := Option.map_eq_some_iff.1 ((isIndex name position).1 known)
  obtain ⟨inside, rfl⟩ := List.getElem?_eq_some_iff.1 found
  refine eraseIdx_eq_filter inside (by simp) fun j below apart => ?_
  rw [bne_iff_ne]
  intro same
  have other : index[types[j].1]? = some j :=
    (isIndex _ j).2 (congrArg (Option.map (·.1)) (List.getElem?_eq_getElem below))
  rw [same] at other
  exact apart (Option.some.inj (other.symm.trans known))

end IsIndex

theorem Dictionary.lookup?_erase {α : Type} (name other : Bytes) (d : Dictionary α) :
    lookup? other (d.erase name) = if other = name then none else lookup? other d := by
  rw [lookup?, erase, List.find?_filter]
  split
  · next same =>
      refine Option.map_eq_none_iff.2 (List.find?_eq_none.2 fun item _ => ?_)
      simp [same]
  · next apart =>
      refine congrArg (Option.map (·.2)) (congrArg (List.find? · d) (funext fun item => ?_))
      by_cases here : item.1 = other
      · simp [here, apart]
      · simp [here]

/-- Whether a schema with an index is the given schema without one. -/
structure IndexedSchema.Mirrors (s : IndexedSchema) (t : Schema) : Prop where
  nodes : s.nodes = t.nodes
  root : s.root = t.root
  types : s.types = t.types
  index : IsIndex s.types s.index
  naming : s.naming = t.naming
  typeNaming : s.typeNaming = t.typeNaming

namespace IndexedSchema.Mirrors

variable {s : IndexedSchema} {t : Schema}

theorem empty : Mirrors {} {} :=
  ⟨rfl, rfl, rfl, .empty, rfl, rfl⟩

theorem find? (same : s.Mirrors t) (name : Bytes) : s.find? name = t.find? name := by
  rw [Schema.find?, ← same.types, ← same.index.lookup? name, IndexedSchema.find?]
  cases s.index[name]? with
  | none => rfl
  | some position =>
      rw [Option.bind_eq_bind, Option.bind_some, Option.bind_some]
      cases s.types[position]? <;> rfl

/-- A definition is refused in both, or both append it. -/
theorem define (same : s.Mirrors t) (name : Bytes) (id : SchemaId) :
    (t.define? name id = none ∧ s.define name id = (false, s) ∧ name ∈ s.types.map (·.1)) ∨
      ∃ s' t', t.define? name id = some t' ∧ s.define name id = (true, s') ∧ s'.Mirrors t' ∧
        name ∉ s.types.map (·.1) ∧ s'.types = s.types ++ [(name, id)] := by
  by_cases taken : name ∈ s.types.map (·.1)
  · refine .inl ⟨?_, ?_, taken⟩
    · unfold Schema.define?
      split
      · rfl
      · next absent =>
          rw [Schema.find?, ← same.types, lookup?_eq_none] at absent
          exact absurd taken absent
    · rw [IndexedSchema.define, if_pos (same.index.contains.2 taken)]
  · have fresh : t.find? name = none := by
      rwa [Schema.find?, ← same.types, lookup?_eq_none]
    have free : ¬ s.index.contains name = true := fun known => taken (same.index.contains.1 known)
    refine .inr ⟨_, { t with types := _, distinct := Schema.nodup_define t.distinct fresh id }, ?_,
      if_neg free, ⟨same.nodes, same.root, ?_, same.index.push taken id, same.naming,
        same.typeNaming⟩, taken, rfl⟩
    · unfold Schema.define?
      split
      · next found => cases fresh.symm.trans found
      · rfl
    · exact congrArg (· ++ [(name, id)]) same.types

/-- A removal is refused in both, or both drop the name with its options. -/
theorem remove (same : s.Mirrors t) (name : Bytes) :
    (t.remove? name = none ∧ s.remove name = (false, s) ∧ name ∉ s.types.map (·.1)) ∨
      ∃ s' t', t.remove? name = some t' ∧ s.remove name = (true, s') ∧ s'.Mirrors t' ∧
        name ∈ s.types.map (·.1) ∧ s'.types = (s.types.filter fun entry => entry.1 != name) ∧
        s'.typeNaming = s.typeNaming.erase name := by
  have found : (t.find? name).isSome = true ↔ name ∈ s.types.map (·.1) := by
    rw [Schema.find?, ← same.types, ← not_iff_not, ← lookup?_eq_none, Bool.not_eq_true,
      Option.isSome_eq_false_iff, Option.isNone_iff_eq_none]
  cases known : s.index[name]? with
  | none =>
      have absent := same.index.unknown.1 known
      refine .inl ⟨if_neg fun there => absent (found.1 there), ?_, absent⟩
      rw [IndexedSchema.remove, known]
  | some position =>
      have present : name ∈ s.types.map (·.1) := by
        rw [← same.index.contains, Std.HashMap.contains_eq_isSome_getElem?, known]
        rfl
      have erased := same.index.eraseIdx known
      have removed : s.remove name = (true, { s with
          types := s.types.eraseIdx position
          index := reindex (s.types.eraseIdx position)
          typeNaming := s.typeNaming.erase name }) := by
        rw [IndexedSchema.remove, known]
      refine .inr ⟨_, _, if_pos (found.2 present), removed,
        ⟨same.nodes, same.root, ?_, .reindex ?_, same.naming, ?_⟩, present, erased, rfl⟩
      · exact erased.trans (congrArg (List.filter _) same.types)
      · exact same.index.distinct.sublist ((List.eraseIdx_sublist _ _).map _)
      · exact congrArg (Dictionary.erase name) same.typeNaming

end IndexedSchema.Mirrors

namespace Registration

variable {s : IndexedSchema} {t : Schema}

/-- A call is answered alike with and without an index, and leaves the same schema. -/
theorem apply_mirrors (same : s.Mirrors t) (call : Registration) :
    (apply s call).1 = (applyPlain t call).1 ∧ (apply s call).2.Mirrors (applyPlain t call).2 := by
  cases call with
  | add n =>
      refine ⟨congrArg Answer.added (congrArg Array.size same.nodes), ?_⟩
      exact { same with nodes := congrArg (·.push n) same.nodes }
  | define name type =>
      dsimp only [apply, applyPlain]
      obtain ⟨refused, refused', -⟩ | ⟨s', t', defined, defined', after, -⟩ := same.define name type
      · rw [refused, refused']
        exact ⟨rfl, same⟩
      · rw [defined, defined']
        exact ⟨rfl, after⟩
  | remove name =>
      dsimp only [apply, applyPlain]
      obtain ⟨refused, refused', -⟩ | ⟨s', t', removed, removed', after, -⟩ := same.remove name
      · rw [refused, refused']
        exact ⟨rfl, same⟩
      · rw [removed, removed']
        exact ⟨rfl, after⟩
  | setRoot type => exact ⟨rfl, { same with root := rfl }⟩
  | alterNaming name change =>
      refine ⟨rfl, { same with typeNaming := ?_ }⟩
      dsimp only [apply, applyPlain, IndexedSchema.alterNaming, Schema.setTypeNaming]
      rw [same.typeNaming]

/-- One call takes out the name that it removes, and puts the type that it defines at the end. -/
theorem apply_types (same : s.Mirrors t) (call : Registration) :
    (apply s call).2.types =
      (s.types.filter fun type => !removes type.1 (call, (apply s call).1)) ++
        (defined? (call, (apply s call).1)).toList := by
  have kept : s.types = (s.types.filter fun _ => !false) ++ [] := by simp
  cases call with
  | define name type =>
      dsimp only [apply]
      obtain ⟨-, refused, -⟩ | ⟨s', t', -, defined, -, -, types⟩ := same.define name type
      · rw [refused]
        exact kept
      · rw [defined]
        refine types.trans ?_
        simp [removes, defined?]
  | remove name =>
      dsimp only [apply]
      obtain ⟨-, refused, -⟩ | ⟨s', t', -, removed, -, -, types, -⟩ := same.remove name
      · rw [refused]
        exact kept
      · rw [removed]
        refine (types.trans ?_).trans (List.append_nil _).symm
        refine List.filter_congr fun type _ => ?_
        rw [Prod.map_fst, removes, bne, Bool.beq_comm]
  | add n => exact kept
  | setRoot type => exact kept
  | alterNaming name change => exact kept

/-- A run is answered alike with and without an index. Of the types registered before it stay those
that no call removed; then come the definitions that stand. -/
theorem run_mirrors (same : s.Mirrors t) (calls : List Registration) :
    (run apply s calls).1 = (run applyPlain t calls).1 ∧
      (run apply s calls).2.Mirrors (run applyPlain t calls).2 ∧
      (run apply s calls).2.types =
        (s.types.filter fun type => !(run apply s calls).1.any (removes type.1)) ++
          standing (run apply s calls).1 := by
  induction calls generalizing s t with
  | nil => exact ⟨rfl, same, by simp [run, standing]⟩
  | cons call calls ih =>
      have ⟨answer, after⟩ := apply_mirrors same call
      have ⟨log, final, types⟩ := ih after
      refine ⟨?_, final, types.trans ?_⟩
      · simp only [run, Prod.map_fst, answer, log]
      · rw [apply_types same call]
        simp only [run, Prod.map_fst, standing]
        generalize (run apply (apply s call).2 calls).1 = later
        generalize (apply s call).1 = answered
        rw [List.filter_append, List.filter_filter, List.append_assoc]
        congr 1
        · refine List.filter_congr fun type _ => ?_
          rw [List.any_cons, Bool.not_or, Bool.and_comm]
        · cases defined? (call, answered) with
          | none => rfl
          | some type => by_cases undone : later.any (removes type.1) <;> simp [undone]

end Registration

/-- Whether a schema answers as a list of definitions in order does. -/
structure IndexedSchema.Registers (s : IndexedSchema) (standing : List (Bytes × SchemaId)) :
    Prop where
  types : s.types = standing
  distinct : (standing.map (·.1)).Nodup
  found : ∀ name id, s.find? name = some id ↔ (name, id) ∈ standing
  absent : ∀ name, s.find? name = none ↔ name ∉ standing.map (·.1)
  /-- A definition is accepted if the name is new. -/
  defines : ∀ name id, (s.define name id).1 = true ↔ name ∉ standing.map (·.1)
  /-- A removal is accepted if the name is there. -/
  removes : ∀ name, (s.remove name).1 = true ↔ name ∈ standing.map (·.1)
  /-- With the name go its naming options, and no others. -/
  drops : ∀ name ∈ standing.map (·.1), ∀ other, lookup? other (s.remove name).2.typeNaming =
    if other = name then none else lookup? other s.typeNaming
  /-- A call that is refused changes nothing. -/
  refuses : ∀ name, (∀ id, name ∈ standing.map (·.1) → (s.define name id).2 = s) ∧
    (name ∉ standing.map (·.1) → (s.remove name).2 = s)

theorem IndexedSchema.Mirrors.registers {s : IndexedSchema} {t : Schema} (same : s.Mirrors t) :
    s.Registers s.types where
  types := rfl
  distinct := same.index.distinct
  found name id := by
    rw [same.find?, Schema.find?, ← same.types]
    exact ⟨mem_of_lookup?, lookup?_of_mem same.index.distinct⟩
  absent name := by
    rw [same.find?, Schema.find?, ← same.types]
    exact lookup?_eq_none
  defines name id := by
    obtain ⟨-, refused, taken⟩ | ⟨s', t', -, defined, -, fresh, -⟩ := same.define name id
    · rw [refused]
      refine ⟨fun defined => ?_, fun fresh => absurd taken fresh⟩
      cases defined
    · rw [defined]
      exact ⟨fun _ => fresh, fun _ => rfl⟩
  removes name := by
    obtain ⟨-, refused, absent⟩ | ⟨s', t', -, removed, -, present, -⟩ := same.remove name
    · rw [refused]
      refine ⟨fun removed => ?_, fun present => absurd present absent⟩
      cases removed
    · rw [removed]
      exact ⟨fun _ => present, fun _ => rfl⟩
  drops name present other := by
    obtain ⟨-, -, absent⟩ | ⟨s', t', -, removed, -, -, -, options⟩ := same.remove name
    · exact absurd present absent
    · rw [removed]
      exact options ▸ Dictionary.lookup?_erase name other s.typeNaming
  refuses name := by
    constructor
    · intro id taken
      obtain ⟨-, refused, -⟩ | ⟨s', t', -, -, -, fresh, -⟩ := same.define name id
      · rw [refused]
      · exact absurd taken fresh
    · intro absent
      obtain ⟨-, refused, -⟩ | ⟨s', t', -, -, -, present, -⟩ := same.remove name
      · rw [refused]
      · exact absurd present absent

/-- After any calls, the registry is the list of the definitions that stand, and answers as such;
and the schema without an index has given the same answers and holds the same types. -/
theorem Registration.run_registers (calls : List Registration) :
    let (log, s) := run apply {} calls
    let (log', t) := run applyPlain {} calls
    s.Registers (standing log) ∧ log' = log ∧ t.types = standing log ∧
      ∀ name, t.find? name = s.find? name := by
  have ⟨log, same, types⟩ := run_mirrors .empty calls
  have stand : (run apply {} calls).2.types = standing (run apply {} calls).1 := types
  exact ⟨stand ▸ same.registers, log.symm, same.types.symm.trans stand,
    fun name => (same.find? name).symm⟩

end DocSchema
