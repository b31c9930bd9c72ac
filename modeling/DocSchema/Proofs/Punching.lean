import DocSchema.Proofs.Places
import DocSchema.Proofs.Rebuilding
import DocSchema.Proofs.ReorderedDocuments

set_option autoImplicit false

namespace DocSchema

inductive Value.HasHole : Value → Prop
  | root {v : Value} (hole : v.content = .hole) : HasHole v
  | part {v part : Value} (inside : part ∈ v.root.parts) (hole : HasHole part) : HasHole v

namespace Value

variable {u w : Value}

/-- Each part of a value is equal to a part of an equal value. -/
theorem exists_same_part (same : u.same w = true) {part : Value} (inside : part ∈ u.root.parts) :
    ∃ other ∈ w.root.parts, part.same other = true ∨ other.same part = true := by
  obtain ⟨contents, extensions⟩ := same_iff.1 same
  rcases List.mem_append.1 inside with content | extension
  · suffices found : ∃ other ∈ w.content.parts, part.same other = true ∨ other.same part = true by
      obtain ⟨other, listed, equal⟩ := found
      exact ⟨other, mem_parts_content listed, equal⟩
    change part ∈ u.content.parts at content
    generalize u.content = c at contents content
    generalize w.content = c' at contents
    cases c with
    | hole => cases content
    | primitive p => cases content
    | map es =>
        cases c' with
        | map fs =>
            obtain ⟨e, member, rfl⟩ := List.mem_map.1 content
            obtain ⟨other, found, equal⟩ := (sameItems_iff.1 contents).2 e member
            exact ⟨other, List.mem_map_of_mem (f := (·.2)) (mem_of_lookup? found), .inr equal⟩
        | _ => cases contents
    | array items =>
        cases c' with
        | array others =>
            obtain ⟨other, member, equal⟩ :=
              exists_of_mem_right (sameList_iff.1 contents).flip part content
            exact ⟨other, member, .inl equal⟩
        | _ => cases contents
    | tuple items =>
        cases c' with
        | tuple others =>
            obtain ⟨other, member, equal⟩ :=
              exists_of_mem_right (sameList_iff.1 contents).flip part content
            exact ⟨other, member, .inl equal⟩
        | _ => cases contents
  · obtain ⟨e, member, rfl⟩ := List.mem_map.1 extension
    obtain ⟨other, found, equal⟩ := (sameItems_iff.1 extensions).2 e member
    exact ⟨other, mem_parts_extensions (mem_of_lookup? found), .inr equal⟩

/-- Equal values have holes alike. -/
theorem HasHole.of_same (hole : u.HasHole) (left : u.HasUniqueKeys) (right : w.HasUniqueKeys)
    (same : u.same w = true) : w.HasHole := by
  induction hole generalizing w with
  | @root u hole =>
      have contents := (same_iff.1 same).1
      rw [hole] at contents
      refine .root ?_
      cases content : w.content with
      | hole => rfl
      | _ =>
          rw [content] at contents
          cases contents
  | @part u part inside hole ih =>
      obtain ⟨other, listed, equal⟩ := exists_same_part same inside
      refine .part listed (ih (left.part inside) (right.part listed) ?_)
      rcases equal with equal | equal
      · exact equal
      · exact same_symm (right.part listed) (left.part inside) equal

end Value

/-- Whether some nodes of a document are holes in another one, with none but extensions that they
had. -/
structure Document.Punches (d e : Document) : Prop where
  size : e.size = d.size
  node : ∀ id, e.node id = d.node id ∨
    (e.node id).content = .hole ∧ (e.node id).extensions.Sublist (d.node id).extensions

namespace Document.Punches

variable {d e : Document} (punches : d.Punches e)
include punches

theorem isOrdered (ordered : d.IsOrdered) : e.IsOrdered := by
  constructor
  · intro id child inside
    have part : child ∈ (d.node id).parts := by
      rcases punches.node id with same | ⟨hole, fewer⟩
      · exact same ▸ inside
      · unfold Node.parts at inside
        rw [hole] at inside
        exact List.mem_append_right _ ((fewer.map _).subset inside)
    rw [punches.size]
    exact ordered.later id child part
  · intro id
    rcases punches.node id with same | ⟨hole, fewer⟩
    · rw [same]
      exact ordered.orderly id
    · refine ⟨?_, ?_, ?_, (ordered.orderly id).names.sublist (fewer.map _)⟩
      · intro entries map
        rw [hole] at map
        cases map
      · intro entries map
        rw [hole] at map
        cases map
      · intro elements tuple
        rw [hole] at tuple
        cases tuple

/-- A node without holes has the value that it had. -/
theorem valueAt_eq (ordered : d.IsOrdered) {id : NodeId} (filled : ¬ (e.valueAt id).HasHole) :
    e.valueAt id = d.valueAt id := by
  induction left : d.size - id using Nat.strongRecOn generalizing id with
  | ind left ih =>
      have after := (punches.isOrdered ordered).root_valueAt id
      have before := ordered.root_valueAt id
      rcases punches.node id with same | ⟨hole, -⟩
      · have parts : (d.node id).mapParts e.valueAt = (d.node id).mapParts d.valueAt := by
          refine Node.mapParts_congr fun child part => ?_
          obtain ⟨later, inside⟩ := ordered.later id child part
          refine ih (d.size - child) (by omega) (fun below => filled (.part ?_ below)) rfl
          rw [after, same, Node.parts_mapParts]
          exact List.mem_map_of_mem part
        rw [same, parts, ← before] at after
        rw [← Value.value_root (e.valueAt id), after, Value.value_root]
      · refine absurd (.root ?_) filled
        have content := congrArg Node.content after
        rw [Node.mapParts, hole] at content
        exact content

end Document.Punches

/-- Whether two sites are of one node at one path, before and after nodes were replaced. -/
def Site.Punches (d e : Document) (n : NodeId) (s t : Site) : Prop :=
  ∃ m, e.Leads n t.path m ∧ t.path = s.path ∧ s.value = d.valueAt m ∧ t.value = e.valueAt m

structure EntryPunches (d e : Document) (n : NodeId) (x y : Key × Site) : Prop where
  key : y.1 = x.1
  site : x.2.Punches d e n y.2

namespace Site.Punches

variable {d e : Document} {n : NodeId} {s t : Site}

theorem root (d e : Document) (n : NodeId) :
    Site.Punches d e n ⟨d.valueAt n, [], []⟩ ⟨e.valueAt n, [], []⟩ :=
  ⟨n, .start, rfl, rfl, rfl⟩

theorem path (same : s.Punches d e n t) : t.path = s.path := by
  obtain ⟨m, -, path, -, -⟩ := same
  exact path

variable (punches : d.Punches e) (ordered : d.IsOrdered) (same : s.Punches d e n t)
include punches ordered same

/-- A site without holes has the value that it had. -/
theorem value_eq (filled : ¬ t.value.HasHole) : t.value = s.value := by
  obtain ⟨m, -, -, before, after⟩ := same
  rw [after] at filled ⊢
  rw [before]
  exact punches.valueAt_eq ordered filled

/-- A site that is no hole holds the same nodes as before. -/
theorem content (filled : t.value.content.isHole = false) : ∃ m, e.Leads n t.path m ∧
    (e.node m).IsOrderly ∧ s.value.content = (e.node m).content.mapParts d.valueAt ∧
    t.value.content = (e.node m).content.mapParts e.valueAt := by
  obtain ⟨m, leads, -, before, after⟩ := same
  have ordered' := punches.isOrdered ordered
  have left : s.value.content = (d.node m).content.mapParts d.valueAt := by
    rw [before]
    exact congrArg Node.content (ordered.root_valueAt m)
  have right : t.value.content = (e.node m).content.mapParts e.valueAt := by
    rw [after]
    exact congrArg Node.content (ordered'.root_valueAt m)
  refine ⟨m, leads, ordered'.orderly m, ?_, right⟩
  rcases punches.node m with kept | ⟨hole, -⟩
  · rw [left, kept]
  · rw [right, hole] at filled
    cases filled

variable (filled : t.value.content.isHole = false)
include filled

theorem isHole : s.value.content.isHole = false := by
  obtain ⟨m, -, -, before, after⟩ := same.content punches ordered filled
  rw [after] at filled
  rw [before]
  cases content : (e.node m).content with
  | hole =>
      rw [content] at filled
      cases filled
  | _ => rfl

theorem primitive? : t.value.content.primitive? = s.value.content.primitive? := by
  obtain ⟨m, -, -, before, after⟩ := same.content punches ordered filled
  rw [before, after]
  cases (e.node m).content <;> rfl

theorem text? : t.value.text? = s.value.text? :=
  congrArg (·.bind Primitive.text?) (same.primitive? punches ordered filled)

theorem kindName : t.kindName = s.kindName := by
  obtain ⟨m, -, -, before, after⟩ := same.content punches ordered filled
  unfold Site.kindName
  rw [before, after]
  cases (e.node m).content <;> rfl

theorem entries? : Option.Rel (List.Forall₂ (EntryPunches d e n)) s.entries? t.entries? := by
  obtain ⟨m, leads, orderly, before, after⟩ := same.content punches ordered filled
  unfold Site.entries?
  rw [before, after]
  cases content : (e.node m).content with
  | map entries =>
      refine .some (forall₂_mapIdx (by simp) fun i left right => ?_)
      rw [List.length_map] at left
      rw [List.getElem_map, List.getElem_map]
      refine ⟨rfl, entries[i].2, ?_, ?_, rfl, rfl⟩
      · have member : entries[i] ∈ entries := List.getElem_mem left
        refine .step leads ?_
        show (e.node m).step? entries[i].1.segment = some entries[i].2
        rw [Node.step?_segment _ (orderly.plain entries content _ member), content]
        exact lookup?_of_mem (orderly.keys entries content) member
      · exact congrArg (· ++ _) same.path
  | _ => exact .none

theorem array? : Option.Rel (List.Forall₂ (Site.Punches d e n)) s.array? t.array? := by
  obtain ⟨m, leads, orderly, before, after⟩ := same.content punches ordered filled
  unfold Site.array?
  rw [before, after]
  cases content : (e.node m).content with
  | array items =>
      refine .some (forall₂_mapIdx (by simp) fun i left right => ?_)
      rw [List.length_map] at left
      rw [List.getElem_map, List.getElem_map]
      refine ⟨items[i], .step leads ?_, congrArg (· ++ _) same.path, rfl, rfl⟩
      simp [Node.step?, content, Content.array?, left]
  | _ => exact .none

theorem tuple? : Option.Rel (List.Forall₂ (Site.Punches d e n)) s.tuple? t.tuple? := by
  obtain ⟨m, leads, orderly, before, after⟩ := same.content punches ordered filled
  unfold Site.tuple?
  rw [before, after]
  cases content : (e.node m).content with
  | tuple elements =>
      refine .some (forall₂_mapIdx (by simp) fun i left right => ?_)
      rw [List.length_map] at left
      rw [List.getElem_map, List.getElem_map]
      refine ⟨elements[i], .step leads ?_, congrArg (· ++ _) same.path, rfl, rfl⟩
      have few := orderly.elements elements content
      have index : i.toUInt8.toNat = i := UInt8.toNat_ofNat_of_lt (show i < 256 by omega)
      simp [Node.step?, content, Content.tuple?, index, left]
  | _ => exact .none

theorem field? (name : Bytes) :
    Option.Rel (Site.Punches d e n) (s.field? name) (t.field? name) := by
  obtain ⟨m, leads, -, before, after⟩ := same.content punches ordered filled
  have left := s.field?_value name
  have right := t.field?_value name
  rw [before, Content.field?_mapParts] at left
  rw [after, Content.field?_mapParts] at right
  cases found : (e.node m).content.field? name with
  | none =>
      rw [found, Option.map_none, Option.map_eq_none_iff] at left right
      rw [left, right]
      exact .none
  | some child =>
      rw [found, Option.map_some] at left right
      obtain ⟨part, look, value⟩ := Option.map_eq_some_iff.1 left
      obtain ⟨part', look', value'⟩ := Option.map_eq_some_iff.1 right
      rw [look, look']
      obtain ⟨x, -, rfl⟩ := Option.map_eq_some_iff.1 look
      obtain ⟨x', -, rfl⟩ := Option.map_eq_some_iff.1 look'
      exact .some ⟨child, .field leads found, congrArg (· ++ _) same.path, value, value'⟩

end Site.Punches

end DocSchema
