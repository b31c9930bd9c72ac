import DocSchema.Proofs.Growth
import DocSchema.Proofs.Regrouping

set_option autoImplicit false

namespace DocSchema

variable {α β : Type}

/-- The step to the part at a position: elements of arrays are told apart by their positions
alone. -/
def Segment.numbered (i : Nat) : Segment → Segment
  | .array _ => .array (some i)
  | s => s

theorem Segment.numbered_eq {s : Segment} (named : ∀ i, s ≠ .array i) (i : Nat) :
    s.numbered i = s := by
  cases s with
  | array index => exact absurd rfl (named index)
  | _ => rfl

/-- The parts in order, each with the step that leads there. -/
def Node.places (n : Node α) : List (Segment × α) :=
  n.items.mapIdx fun i item => (item.1.numbered i, item.2)

def Content.take (k : Nat) : Content α → Content α
  | .map entries => .map (entries.take k)
  | .array elements => .array (elements.take k)
  | .tuple elements => .tuple (elements.take k)
  | c => c

def Node.take (k : Nat) (n : Node α) : Node α :=
  ⟨n.content.take k, n.extensions.take (k - n.content.items.length)⟩

theorem zipIdx_take (as : List α) (k i : Nat) : (as.take k).zipIdx i = (as.zipIdx i).take k := by
  induction as generalizing k i with
  | nil => simp
  | cons a as ih => cases k <;> simp [ih]

theorem Content.items_take (k : Nat) (c : Content α) : (c.take k).items = c.items.take k := by
  cases c <;> simp [take, items, List.map_take, zipIdx_take]

theorem Content.emptied_take (k : Nat) (c : Content α) :
    ((c.take k).emptied : Content β) = c.emptied := by
  cases c <;> rfl

namespace Node

variable {n m n' : Node α} {items more : List (Segment × α)} {s : Segment} {a : α}

theorem items_take (k : Nat) (n : Node α) : (n.take k).items = n.items.take k := by
  rw [items, items, List.take_append, ← Content.items_take, take, List.map_take]

/-- The places before one are those of the items before it. -/
theorem places_split {before after : List (Segment × α)} {step : Segment}
    (split : n.places = before ++ (step, a) :: after) :
    ∃ items s more, n.items = items ++ (s, a) :: more ∧
      (before.map (·.1) = items.mapIdx fun i item => item.1.numbered i) ∧
      before.map (·.2) = items.map (·.2) ∧
      step = s.numbered items.length := by
  obtain ⟨items, rest, whole, rfl, last⟩ := List.mapIdx_eq_append_iff.1 split
  obtain ⟨⟨s, b⟩, more, rfl, here, -⟩ := List.mapIdx_eq_cons_iff.1 last
  rw [Nat.zero_add] at here
  obtain ⟨rfl, rfl⟩ := Prod.mk.inj here
  refine ⟨items, s, more, whole, ?_, ?_, rfl⟩
  · exact List.ext_getElem (by simp) fun i left right => by simp
  · exact List.ext_getElem (by simp) fun i left right => by simp

/-- The steps to the parts are those to the parts of the content, and the names of the
extensions. -/
theorem steps_eq (n : Node α) : n.places.map (·.1) =
    n.content.items.mapIdx (fun i item => item.1.numbered i) ++ n.extensions.map fun e =>
      .ext e.1 := by
  rw [places, items, List.mapIdx_append, List.map_append]
  congr 1
  · exact List.ext_getElem (by simp) fun i left right => by simp
  · exact List.ext_getElem (by simp) fun i left right => by simp [Segment.numbered]

theorem steps_map {entries : List (Key × α)} (map : n.content = .map entries) :
    n.places.map (·.1) = (entries.map fun e => e.1.segment) ++ n.extensions.map fun e =>
      .ext e.1 := by
  rw [steps_eq, map]
  congr 1
  refine List.ext_getElem (by simp [Content.items]) fun i left right => ?_
  have inside : i < entries.length := by simpa using right
  simp only [Content.items, List.getElem_mapIdx, List.getElem_map]
  cases entries[i].1 <;> rfl

/-- A node with different steps to its parts is acceptable, as long as it is no tuple that is too
long. -/
theorem isAcceptable_of_steps (distinct : (n.places.map (·.1)).Nodup)
    (few : ∀ elements, n.content = .tuple elements → elements.length ≤ 256) : n.IsAcceptable := by
  have names : (n.extensions.map (·.1)).Nodup := by
    rw [steps_eq, List.nodup_append] at distinct
    exact .of_map Segment.ext (by rw [List.map_map]; exact distinct.2.1)
  cases content : n.content with
  | map entries =>
      rw [steps_map content, List.nodup_append] at distinct
      obtain ⟨entriesDistinct, -, apart⟩ := distinct
      have keys : (entries.map (·.1)).Nodup :=
        .of_map Key.segment (by rw [List.map_map]; exact entriesDistinct)
      have same : n.content.keys = entries.map (·.1) := by rw [content, Content.keys]
      refine ⟨?_, ?_, few⟩
      · rw [same]
        exact keys.filter _
      · rw [same, List.nodup_append]
        refine ⟨keys.filterMap fun k k' name left right => ?_, names, ?_⟩
        · cases k <;> cases k' <;> simp_all [Key.ext?]
        · intro name inside other outside equal
          subst equal
          obtain ⟨key, member, extension⟩ := List.mem_filterMap.1 inside
          obtain ⟨e, listed, rfl⟩ := List.mem_map.1 member
          obtain ⟨x, behind, rfl⟩ := List.mem_map.1 outside
          have segment : e.1.segment = .ext x.1 := by
            generalize e.1 = key at extension
            cases key <;> cases extension
            rfl
          exact apart _ (List.mem_map_of_mem listed) _ (List.mem_map_of_mem behind) segment
  | _ =>
      have none : n.content.keys = [] := by rw [content]; rfl
      refine ⟨?_, ?_, few⟩
      · rw [none]
        exact List.nodup_nil
      · rw [none]
        exact names

/-- The first parts can be added if their steps are different. -/
theorem gains_prefix (split : n.items = items ++ more)
    (distinct : (items.mapIdx fun i item => item.1.numbered i).Nodup)
    (few : ∀ elements, n.content = .tuple elements → elements.length ≤ 256) (f : α → β) :
    ∃ m, Gains ⟨n.content.emptied, []⟩ (items.map fun item => (item.1, f item.2)) m := by
  have front : (n.take items.length).items = items := by rw [items_take, split, List.take_left]
  have steps : (n.take items.length).places.map (·.1) =
      items.mapIdx fun i item => item.1.numbered i := by
    rw [places, front]
    exact List.ext_getElem (by simp) fun i left right => by simp
  have acceptable : (n.take items.length).IsAcceptable := by
    refine isAcceptable_of_steps (steps ▸ distinct) fun elements tuple => ?_
    cases content : n.content with
    | tuple all =>
        rw [take, content] at tuple
        cases tuple
        exact Nat.le_trans (List.length_take_le' _ _) (few all content)
    | _ =>
        rw [take, content] at tuple
        cases tuple
  have gains := gains_items.2 ⟨(isAcceptable_mapParts f).2 acceptable, rfl⟩
  rw [items_mapParts, front, mapParts, Content.emptied_mapParts, take,
    Content.emptied_take] at gains
  exact ⟨_, gains⟩

theorem getElem?_of_split (split : n.items = items ++ (s, a) :: more) :
    n.items[items.length]? = some (s, a) := by
  rw [split, List.getElem?_append_right (Nat.le_refl _), Nat.sub_self]
  rfl

/-- The step of an item that is no extension is one of the content. -/
theorem item_of_content {i : Nat} (found : n.items[i]? = some (s, a))
    (inner : ∀ name, s ≠ .ext name) :
    n.content.items[i]? = some (s, a) := by
  rw [items, List.getElem?_append] at found
  split at found
  · exact found
  · rw [List.getElem?_map, Option.map_eq_some_iff] at found
    obtain ⟨e, -, same⟩ := found
    exact absurd (Prod.mk.inj same).1.symm (inner e.1)

theorem array_of_item {i : Nat} {index : Option Nat}
    (found : n.items[i]? = some (.array index, a)) :
    ∃ elements : List α, n.content = .array elements ∧ i < elements.length := by
  have inside := item_of_content found nofun
  cases content : n.content with
  | array elements =>
      rw [content] at inside
      exact ⟨elements, rfl, by simpa [Content.items] using (List.getElem?_eq_some_iff.1 inside).1⟩
  | map entries =>
      rw [content, Content.items, List.getElem?_map, Option.map_eq_some_iff] at inside
      obtain ⟨⟨key, b⟩, -, same⟩ := inside
      cases key <;> cases same
  | _ => simp [content, Content.items] at inside

theorem tuple_of_item {i : Nat} {index : UInt8} (found : n.items[i]? = some (.tuple index, a)) :
    index = .ofNat i ∧ ∃ elements : List α, n.content = .tuple elements ∧ i < elements.length := by
  have inside := item_of_content found nofun
  cases content : n.content with
  | tuple elements =>
      rw [content, Content.items, List.getElem?_map, Option.map_eq_some_iff] at inside
      obtain ⟨⟨b, j⟩, listed, same⟩ := inside
      obtain ⟨number, rfl⟩ := Prod.mk.inj same
      rw [List.getElem?_zipIdx, Option.map_eq_some_iff] at listed
      obtain ⟨b', here, same⟩ := listed
      obtain ⟨rfl, rfl⟩ := Prod.mk.inj same
      refine ⟨?_, elements, rfl, (List.getElem?_eq_some_iff.1 here).1⟩
      rw [← Segment.tuple.inj number, Nat.zero_add]
  | map entries =>
      rw [content, Content.items, List.getElem?_map, Option.map_eq_some_iff] at inside
      obtain ⟨⟨key, b⟩, -, same⟩ := inside
      cases key <;> cases same
  | _ => simp [content, Content.items] at inside

/-- The next part is placed at the step that leads there: an element of an array behind those before
it. -/
theorem placed_eq {f : α → β} {m : Node β} (split : n.items = items ++ (s, a) :: more)
    (gains : Gains ⟨n.content.emptied, []⟩ (items.map fun item => (item.1, f item.2)) m) :
    s.placed m = s.numbered items.length := by
  cases s with
  | array index =>
      obtain ⟨elements, content, inside⟩ := array_of_item (getElem?_of_split split)
      have first : items = (elements.take items.length).map fun b => (.array none, b) := by
        have front := congrArg (List.take items.length) split
        rw [List.take_left, Node.items, content, Content.items, List.take_append_of_le_length (by
          rw [List.length_map]
          exact Nat.le_of_lt inside), ← List.map_take] at front
        exact front.symm
      have added : items.map (fun item => (item.1, f item.2)) =
          ((elements.take items.length).map f).map fun b => (.array none, b) := by
        nth_rewrite 1 [first]
        rw [List.map_map, List.map_map]
        rfl
      rw [added, content] at gains
      have made := gains_array.1 gains
      rw [made, Segment.placed, Segment.numbered]
      simp [Content.parts, Nat.le_of_lt inside]
  | _ => rfl

/-- A step that comes again is that of a key or of an extension, and has come as such. -/
theorem named_of_repeated (split : n.items = items ++ (s, a) :: more)
    (few : ∀ elements, n.content = .tuple elements → elements.length ≤ 256)
    (again : s.numbered items.length ∈ items.mapIdx fun i item => item.1.numbered i) :
    (∀ i, s ≠ .array i) ∧ (∀ i, s ≠ .tuple i) ∧ s ∈ items.map (·.1) := by
  obtain ⟨i, inside, same⟩ := List.mem_mapIdx.1 again
  have here := getElem?_of_split split
  have earlier : n.items[i]? = some items[i] := by
    rw [split, List.getElem?_append_left inside, List.getElem?_eq_getElem inside]
  generalize found : items[i] = item at same earlier
  obtain ⟨t, b⟩ := item
  cases s with
  | array index =>
      cases t <;> cases same
      omega
  | tuple index =>
      obtain ⟨number, elements, content, less⟩ := tuple_of_item here
      cases t <;> cases same
      obtain ⟨number', -⟩ := tuple_of_item earlier
      have short := few elements content
      have equal := congrArg UInt8.toNat (number'.symm.trans number)
      rw [UInt8.toNat_ofNat', UInt8.toNat_ofNat'] at equal
      omega
  | _ =>
      refine ⟨nofun, nofun, ?_⟩
      cases t <;> cases same
      exact List.mem_map.2 ⟨_, found ▸ List.getElem_mem inside, rfl⟩

theorem Gains.grows (gains : n.Gains items n') : n.GrowsTo n' := by
  induction gains with
  | nil => exact .refl _
  | cons first rest ih => exact first.grows.trans ih

/-- The step of a part that was added leads somewhere, if it is no step of an array. -/
theorem Gains.step?_isSome (gains : n.Gains items n') (named : ∀ i, s ≠ .array i)
    (inside : s ∈ items.map (·.1)) :
    (n'.step? s).isSome := by
  induction gains with
  | nil => cases inside
  | @cons n m n' t part items first rest ih =>
      rcases List.mem_cons.1 inside with rfl | later
      · have placed : s.placed n = s := by
          cases s with
          | array i => exact absurd rfl (named i)
          | _ => rfl
        have found := first.step?_placed
        rw [placed] at found
        rw [rest.grows.step? found]
        rfl
      · exact ih later

end Node

end DocSchema
