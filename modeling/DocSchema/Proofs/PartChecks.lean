import DocSchema.Proofs.LeafChecks
import DocSchema.Proofs.Sites

set_option autoImplicit false

namespace DocSchema

/-- Whether the check of the level below decides a relation between types and filled values. -/
def Walk.DecidesParts (w : Walk) (parts : SchemaId → Value → Prop) : Prop :=
  ∀ id (s : Site), w.schema.contains id = true → s.value.IsFilled →
    Decides w.schema (w.check id s) (parts id s.value)

namespace Decides

variable {w : Walk} {parts : SchemaId → Value → Prop} {s : Site}

theorem unknownFields {schema : Schema} {isKnown : Bytes → Bool} {entries : List (Key × Site)} :
    Decides schema (DocSchema.unknownFields isKnown entries)
      (∀ e ∈ entries, ∃ name, e.1.spelling? = some name ∧ isKnown name = true) :=
  (forM fun _ _ => expect).congr (forall₂_congr fun _ _ => Option.any_eq_true _ _)

theorem field {entries : List (Key × Value)} {f : Field SchemaId} (below : w.DecidesParts parts)
    (filled : s.value.IsFilled) (map : s.value.content = .map entries)
    (inside : w.schema.contains f.schema = true) :
    Decides w.schema (w.field s f)
      ((f.isOptional = true ∨ ∃ e ∈ entries, e.1.spelling? = some f.name) ∧
        ∀ e ∈ entries, e.1.spelling? = some f.name → parts f.schema e.2) := by
  have holds := Site.field?_holds map f.name
  have unique := holds.unique filled map
  unfold Walk.field
  cases found : s.field? f.name with
  | none =>
      rw [found] at holds
      cases holds with
      | absent unspelled =>
          apply expect.congr
          constructor
          · intro optional
            exact ⟨.inl optional, fun e inside spelled => absurd spelled (unspelled e inside)⟩
          · rintro ⟨optional | ⟨e, inside, spelled⟩, -⟩
            · exact optional
            · exact absurd spelled (unspelled e inside)
  | some part =>
      rw [found] at holds unique
      cases holds with
      | present member spelled =>
          apply (below f.schema part inside (filled.fieldSite found)).congr
          constructor
          · intro typed
            refine ⟨.inr ⟨_, member, spelled⟩, fun e inside again => ?_⟩
            have same : part.value = e.2 := Option.some.inj (unique e inside again)
            exact same ▸ typed
          · rintro ⟨-, typed⟩
            exact typed _ member spelled

theorem record {fields : List (Field SchemaId)} {allowsUnknown : Bool} {tag : Option Bytes}
    (below : w.DecidesParts parts) (filled : s.value.IsFilled)
    (inside : ∀ f ∈ fields, w.schema.contains f.schema = true) :
    Decides w.schema (w.record fields allowsUnknown tag s)
      (AdmitsRecord parts fields allowsUnknown tag s.value) := by
  unfold Walk.record
  by_cases isMap : ∃ entries, s.value.content = .map entries
  · obtain ⟨entries, map⟩ := isMap
    obtain ⟨sites, found, same⟩ := Site.entries?_map map
    have declared : Decides w.schema (fields.forM (w.field s)) _ :=
      forM fun f member => field below filled map (inside f member)
    have others : Decides w.schema
        (if allowsUnknown = true then Pure.pure () else
          DocSchema.unknownFields (fun name => tag == some name || fields.any (·.name == name)) sites)
        (allowsUnknown = true ∨ ∀ e ∈ entries, ∃ name, e.1.spelling? = some name ∧
          (tag = some name ∨ ∃ f ∈ fields, f.name = name)) := by
      cases allowsUnknown
      · apply unknownFields.congr
        rw [← same, List.forall_mem_map]
        simp
      · exact pure.congr (by simp)
    rw [found]
    apply (declared.both others).congr
    constructor
    · rintro ⟨each, known⟩
      exact ⟨entries, map, fun f member => (each f member).1, fun f member => (each f member).2,
        known⟩
    · rintro ⟨entries', map', required, typed, known⟩
      have same : entries' = entries := Content.map.inj (map'.symm.trans map)
      subst same
      exact ⟨fun f member => ⟨required f member, typed f member⟩, known⟩
  · rw [Site.entries?_none fun entries map => isMap ⟨entries, map⟩]
    apply report.congr
    rw [false_iff]
    rintro ⟨entries, map, -⟩
    exact isMap ⟨entries, map⟩

theorem duplicates {schema : Schema} {items : List Site} :
    Decides schema (Walk.duplicates items)
      ((items.map (·.value)).Pairwise fun x y => ¬ x.same y = true) := by
  have earlier (i : Nat) (item : Site) : Walk.duplicate? items i item = none ↔
      ∀ x ∈ items.take i, ¬ x.value.same item.value = true := by
    rw [Walk.duplicate?, List.findIdx?_eq_none_iff]
    simp only [Bool.not_eq_true]
  suffices different :
      (∀ e ∈ items.mapIdx fun i item => (i, item), Walk.duplicate? items e.1 e.2 = none) ↔
      (items.map (·.value)).Pairwise fun x y => ¬ x.same y = true by
    refine congr (forM fun e inside => ?_) different
    dsimp only
    cases Walk.duplicate? items e.1 e.2 with
    | none => exact pure.congr (by simp)
    | some first => exact report.congr (by simp)
  rw [List.pairwise_map, List.pairwise_iff_getElem]
  constructor
  · intro none i j first second less
    have member : (j, items[j]) ∈ items.mapIdx fun i item => (i, item) :=
      List.mem_mapIdx.2 ⟨j, second, rfl⟩
    apply (earlier j items[j]).1 (none _ member) items[i]
    rw [← List.getElem_take (j := j) (h := by rw [List.length_take]; omega)]
    exact List.getElem_mem _
  · intro apart e member
    obtain ⟨j, second, rfl⟩ := List.mem_mapIdx.1 member
    apply (earlier j items[j]).2
    intro x before
    obtain ⟨i, inside, rfl⟩ := List.getElem_of_mem before
    rw [List.length_take] at inside
    rw [List.getElem_take]
    exact apart i j (by omega) second (by omega)

theorem array {item : SchemaId} {length : Counts} {isUnique : Bool} (below : w.DecidesParts parts)
    (filled : s.value.IsFilled) (inside : w.schema.contains item = true) :
    Decides w.schema (w.array item length isUnique s)
      (AdmitsArray parts item length isUnique s.value) := by
  unfold Walk.array
  by_cases isArray : ∃ items, s.value.content = .array items
  · obtain ⟨items, array⟩ := isArray
    obtain ⟨sites, found, same⟩ := Site.array?_array array
    have typed : Decides w.schema (sites.forM (w.check item)) (∀ x ∈ sites, parts item x.value) :=
      forM fun x member => below item x inside (filled.arraySite found x member)
    have unique : Decides w.schema (if isUnique = true then Walk.duplicates sites else Pure.pure ())
        (isUnique = true → items.Pairwise fun x y => ¬ x.same y = true) := by
      cases isUnique
      · exact pure.congr (by simp)
      · apply duplicates.congr
        rw [same]
        simp
    rw [found]
    apply (expect.both (typed.both unique)).congr
    have all : (∀ x ∈ sites, parts item x.value) ↔ ∀ x ∈ items, parts item x := by
      rw [← same, List.forall_mem_map]
    have count : sites.length = items.length := by rw [← same, List.length_map]
    rw [all, count]
    constructor
    · intro admitted
      exact ⟨items, array, admitted⟩
    · rintro ⟨items', array', admitted⟩
      have same : items' = items := Content.array.inj (array'.symm.trans array)
      subst same
      exact admitted
  · rw [Site.array?_none fun items array => isArray ⟨items, array⟩]
    apply report.congr
    rw [false_iff]
    rintro ⟨items, array, -⟩
    exact isArray ⟨items, array⟩

theorem map {key value : SchemaId} {size : Counts} (sound : w.schema.IsSound)
    (below : w.DecidesParts parts) (filled : s.value.IsFilled)
    (keyInside : w.schema.contains key = true) (valueInside : w.schema.contains value = true) :
    Decides w.schema (w.map key value size s)
      (AdmitsMap w.schema parts key value size s.value) := by
  unfold Walk.map
  by_cases isMap : ∃ entries, s.value.content = .map entries
  · obtain ⟨entries, map⟩ := isMap
    obtain ⟨sites, found, same⟩ := Site.entries?_map map
    have typed : Decides w.schema
        (sites.forM fun e => do
          Check.key w.schema key e.1 e.2.path
          w.check value e.2) _ :=
      forM fun e member =>
        (Decides.key sound keyInside).both
          (below value e.2 valueInside (filled.entrySite found e member))
    rw [found]
    apply (expect.both typed).congr
    have count : sites.length = entries.length := by rw [← same, List.length_map]
    rw [count]
    constructor
    · rintro ⟨counted, each⟩
      refine ⟨entries, map, counted, ?_⟩
      rw [← same, List.forall_mem_map]
      exact each
    · rintro ⟨entries', map', counted, each⟩
      have same : entries' = entries := Content.map.inj (map'.symm.trans map)
      subst same
      rw [← same, List.forall_mem_map] at each
      exact ⟨counted, each⟩
  · rw [Site.entries?_none fun entries map => isMap ⟨entries, map⟩]
    apply report.congr
    rw [false_iff]
    rintro ⟨entries, map, -⟩
    exact isMap ⟨entries, map⟩

theorem tuple {types : List SchemaId} (below : w.DecidesParts parts) (filled : s.value.IsFilled)
    (inside : ∀ id ∈ types, w.schema.contains id = true) :
    Decides w.schema (w.tuple types s) (AdmitsTuple parts types s.value) := by
  unfold Walk.tuple
  by_cases isTuple : ∃ elements, s.value.content = .tuple elements
  · obtain ⟨elements, tuple⟩ := isTuple
    obtain ⟨sites, found, same⟩ := Site.tuple?_tuple tuple
    have typed : Decides w.schema ((types.zip sites).forM fun e => w.check e.1 e.2)
        (∀ e ∈ types.zip sites, parts e.1 e.2.value) :=
      forM fun e member =>
        have sides := List.of_mem_zip member
        below e.1 e.2 (inside e.1 sides.1) (filled.tupleSite found e.2 sides.2)
    rw [found]
    apply (expect.both typed).congr
    have pairs : (types.length = sites.length ∧ ∀ e ∈ types.zip sites, parts e.1 e.2.value) ↔
        List.Forall₂ parts types elements := by
      rw [← same, List.forall₂_map_right_iff, List.forall₂_iff_zip]
      exact and_congr_right fun _ => ⟨fun all {i x} => all (i, x), fun all e => all⟩
    rw [beq_iff_eq, pairs]
    constructor
    · intro typed
      exact ⟨elements, tuple, typed⟩
    · rintro ⟨elements', tuple', typed⟩
      have same : elements' = elements := Content.tuple.inj (tuple'.symm.trans tuple)
      subst same
      exact typed
  · rw [Site.tuple?_none fun elements tuple => isTuple ⟨elements, tuple⟩]
    apply report.congr
    rw [false_iff]
    rintro ⟨elements, tuple, -⟩
    exact isTuple ⟨elements, tuple⟩

end Decides

end DocSchema
