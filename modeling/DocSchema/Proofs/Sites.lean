import DocSchema.Proofs.Conformance

set_option autoImplicit false

namespace DocSchema

namespace Site

variable {s : Site}

theorem entries?_map {entries : List (Key × Value)} (map : s.value.content = .map entries) :
    ∃ sites, s.entries? = some sites ∧ sites.map (fun e => (e.1, e.2.value)) = entries := by
  refine ⟨_, by rw [Site.entries?, map]; rfl, ?_⟩
  apply List.ext_getElem (by simp)
  intro i below inside
  simp [part]

theorem entries?_none (other : ∀ entries, s.value.content ≠ .map entries) : s.entries? = none := by
  unfold Site.entries?
  cases content : s.value.content with
  | map entries => exact absurd content (other entries)
  | _ => rfl

theorem entries_map (s : Site) :
    (s.entries?.getD []).map (fun e => (e.1, e.2.value)) = s.value.entries := by
  by_cases isMap : ∃ entries, s.value.content = .map entries
  · obtain ⟨entries, map⟩ := isMap
    obtain ⟨sites, found, same⟩ := entries?_map map
    rw [found, Option.getD_some, same, Value.entries, map]
    rfl
  · have other : ∀ entries, s.value.content ≠ .map entries := fun entries map =>
      isMap ⟨entries, map⟩
    rw [entries?_none other, Value.entries]
    cases content : s.value.content with
    | map entries => exact absurd content (other entries)
    | _ => rfl

theorem array?_array {items : List Value} (array : s.value.content = .array items) :
    ∃ sites, s.array? = some sites ∧ sites.map (·.value) = items := by
  refine ⟨_, by rw [Site.array?, array]; rfl, ?_⟩
  apply List.ext_getElem (by simp)
  intro i below inside
  simp [part]

theorem array?_none (other : ∀ items, s.value.content ≠ .array items) : s.array? = none := by
  unfold Site.array?
  cases content : s.value.content with
  | array items => exact absurd content (other items)
  | _ => rfl

theorem tuple?_tuple {elements : List Value} (tuple : s.value.content = .tuple elements) :
    ∃ sites, s.tuple? = some sites ∧ sites.map (·.value) = elements := by
  refine ⟨_, by rw [Site.tuple?, tuple]; rfl, ?_⟩
  apply List.ext_getElem (by simp)
  intro i below inside
  simp [part]

theorem tuple?_none (other : ∀ elements, s.value.content ≠ .tuple elements) : s.tuple? = none := by
  unfold Site.tuple?
  cases content : s.value.content with
  | tuple elements => exact absurd content (other elements)
  | _ => rfl

/-- The search for a field finds an entry of its name if there is one. -/
theorem field?_holds {entries : List (Key × Value)} (map : s.value.content = .map entries)
    (name : Bytes) : HoldsField entries name ((s.field? name).map (·.value)) := by
  obtain ⟨sites, found, rfl⟩ := entries?_map map
  unfold field?
  rw [found, Option.bind_some]
  cases search : sites.find? fun e => e.1.spelling? == some name with
  | none =>
      refine .absent ?_
      rw [List.forall_mem_map]
      intro e inside
      simpa using List.find?_eq_none.1 search e inside
  | some e =>
      have member := List.mem_of_find?_eq_some search
      have spelled : e.1.spelling? = some name := by simpa using List.find?_some search
      exact .present (List.mem_map_of_mem (f := fun e : Key × Site => (e.1, e.2.value)) member) spelled

end Site

theorem Value.content_of_mem_entries {v : Value} {e : Key × Value} (member : e ∈ v.entries) :
    v.content = .map v.entries := by
  unfold Value.entries at member ⊢
  cases content : v.content with
  | map entries => rfl
  | _ =>
      rw [content] at member
      cases member

namespace Value.IsFilled

variable {v : Value}

theorem isHole (filled : v.IsFilled) : v.content.isHole = false := by
  cases filled with
  | intro filled distinct parts =>
      cases content : v.content with
      | hole => exact absurd content filled
      | _ => rfl

theorem part {part : Value} (filled : v.IsFilled) (inside : part ∈ v.content.parts) :
    part.IsFilled := by
  cases filled with
  | intro filled distinct parts => exact parts part inside

theorem entry {entries : List (Key × Value)} {e : Key × Value} (filled : v.IsFilled)
    (map : v.content = .map entries) (inside : e ∈ entries) : e.2.IsFilled := by
  apply filled.part
  rw [map]
  exact List.mem_map_of_mem inside

end Value.IsFilled

/-- There is only one entry of each spelling in a filled value. -/
theorem HoldsField.unique {v : Value} {entries : List (Key × Value)} {name : Bytes}
    {content : Option Value} (filled : v.IsFilled) (map : v.content = .map entries)
    (holds : HoldsField entries name content) :
    ∀ e ∈ entries, e.1.spelling? = some name → content = some e.2 := by
  have distinct : (entries.filterMap (·.1.spelling?)).Nodup := by
    cases filled with
    | intro filled distinct parts => simpa [Value.entries, map, Content.entries?] using distinct
  have apart := List.pairwise_iff_getElem.1 (List.pairwise_filterMap.1 distinct)
  intro e inside spelled
  cases holds with
  | absent unspelled => exact absurd spelled (unspelled e inside)
  | @present key v member spelled' =>
      obtain ⟨i, first, rfl⟩ := List.getElem_of_mem inside
      obtain ⟨j, second, found⟩ := List.getElem_of_mem member
      have spelledThere : entries[j].1.spelling? = some name := by rw [found, spelled']
      rcases Nat.lt_trichotomy i j with less | rfl | less
      · exact absurd rfl (apart i j first second less name spelled name spelledThere)
      · rw [found]
      · exact absurd rfl (apart j i second first less name spelledThere name spelled)

theorem HoldsField.functional {v : Value} {entries : List (Key × Value)} {name : Bytes}
    {content other : Option Value} (filled : v.IsFilled) (map : v.content = .map entries)
    (holds : HoldsField entries name content) (again : HoldsField entries name other) :
    other = content := by
  cases again with
  | present member spelled => exact (holds.unique filled map _ member spelled).symm
  | absent unspelled =>
      cases holds with
      | present member spelled => exact absurd spelled (unspelled _ member)
      | absent unspelled => rfl

namespace Value.IsFilled

variable {s : Site}

theorem entrySite {sites : List (Key × Site)} (filled : s.value.IsFilled)
    (found : s.entries? = some sites) : ∀ e ∈ sites, e.2.value.IsFilled := by
  intro e member
  have entries := s.entries_map
  rw [found, Option.getD_some] at entries
  have inside : (e.1, e.2.value) ∈ s.value.entries := by
    rw [← entries]
    exact List.mem_map_of_mem (f := fun e : Key × Site => (e.1, e.2.value)) member
  exact filled.entry (Value.content_of_mem_entries inside) inside

theorem arraySite {sites : List Site} (filled : s.value.IsFilled) (found : s.array? = some sites) :
    ∀ x ∈ sites, x.value.IsFilled := by
  intro x member
  cases content : s.value.content with
  | array items =>
      obtain ⟨sites', found', same⟩ := Site.array?_array content
      have same := Option.some.inj (found.symm.trans found')
      subst same
      apply filled.part
      rw [content, Content.parts, ← same]
      exact List.mem_map_of_mem member
  | _ => simp [Site.array?, content, Content.array?] at found

theorem tupleSite {sites : List Site} (filled : s.value.IsFilled) (found : s.tuple? = some sites) :
    ∀ x ∈ sites, x.value.IsFilled := by
  intro x member
  cases content : s.value.content with
  | tuple elements =>
      obtain ⟨sites', found', same⟩ := Site.tuple?_tuple content
      have same := Option.some.inj (found.symm.trans found')
      subst same
      apply filled.part
      rw [content, Content.parts, ← same]
      exact List.mem_map_of_mem member
  | _ => simp [Site.tuple?, content, Content.tuple?] at found

theorem fieldSite {name : Bytes} {part : Site} (filled : s.value.IsFilled)
    (found : s.field? name = some part) : part.value.IsFilled := by
  unfold Site.field? at found
  obtain ⟨e, searched, rfl⟩ := Option.map_eq_some_iff.1 found
  obtain ⟨sites, mapped, hit⟩ := Option.bind_eq_some_iff.1 searched
  exact filled.entrySite mapped e (List.mem_of_find?_eq_some hit)

end Value.IsFilled

end DocSchema
