import Mathlib.Tactic.MkIffOfInductiveProp
import DocSchema.Proofs.Projection

set_option autoImplicit false

namespace DocSchema

variable {α β : Type}

namespace Content

def emptied : Content α → Content β
  | .hole => .hole
  | .primitive p => .primitive p
  | .map _ => .map []
  | .array _ => .array []
  | .tuple _ => .tuple []

def keys : Content α → List Key
  | .map entries => entries.map (·.1)
  | _ => []

/-- The content without the entries under keys of extensions. -/
def plain : Content α → Content α
  | .map entries => .map (entries.filter fun e => e.1.ext?.isNone)
  | c => c

def extensions : Content α → List (Bytes × α)
  | .map entries => entries.filterMap fun e => e.1.ext?.map (·, e.2)
  | _ => []

theorem names_extensions (c : Content α) : c.extensions.map (·.1) = c.keys.filterMap Key.ext? := by
  cases c with
  | map entries =>
      rw [extensions, keys, List.map_filterMap, List.filterMap_map]
      congr 1
      funext e
      simp [Function.comp_def]
  | _ => rfl

theorem keys_mapParts (f : α → β) (c : Content α) : (c.mapParts f).keys = c.keys := by
  cases c <;> simp [mapParts, keys]

theorem items_mapParts (f : α → β) (c : Content α) :
    (c.mapParts f).items = c.items.map fun item => (item.1, f item.2) := by
  cases c <;> simp [mapParts, items, List.zipIdx_map]

theorem emptied_mapParts {γ : Type} (f : α → β) (c : Content α) :
    ((c.mapParts f).emptied : Content γ) = c.emptied := by
  cases c <;> rfl

end Content

namespace Node

/-- The node with the entries under keys of extensions moved to the front of its extensions, in
order. -/
def regrouped (n : Node α) : Node α :=
  ⟨n.content.plain, n.content.extensions ++ n.extensions⟩

/-- Whether a document can hold the node once it is regrouped: no other key is taken twice, no name
of an extension is, in the map and behind it together, and a tuple has no more elements than there
are indices. -/
@[mk_iff]
structure IsAcceptable (n : Node α) : Prop where
  keys : (n.content.keys.filter fun key => key.ext?.isNone).Nodup
  names : (n.content.keys.filterMap Key.ext? ++ n.extensions.map (·.1)).Nodup
  elements : ∀ elements, n.content = .tuple elements → elements.length ≤ 256

variable {n n' : Node α} {part : α} {x : List (Bytes × α)}

theorem attaches_entry {entries : List (Key × α)} {key : Key} (plain : key.ext? = none) :
    Attaches ⟨.map entries, x⟩ part key.segment n' ↔
      lookup? key entries = none ∧ n' = ⟨.map (entries ++ [(key, part)]), x⟩ := by
  constructor
  · intro attaches
    generalize step : key.segment = s at attaches
    cases attaches with
    | @entry other _ content plain' fresh =>
        obtain rfl : key = other := by
          cases key <;> cases other <;> simp_all [Key.segment, Key.ext?]
        cases content
        exact ⟨fresh, rfl⟩
    | element content => cases content
    | position content => cases content
    | extension fresh => cases key <;> simp_all [Key.segment, Key.ext?]
  · rintro ⟨fresh, rfl⟩
    exact .entry rfl plain fresh

theorem attaches_extension {name : Bytes} :
    n.Attaches part (.ext name) n' ↔
      lookup? name n.extensions = none ∧
      n' = { n with extensions := n.extensions ++ [(name, part)] } := by
  constructor
  · intro attaches
    generalize step : Segment.ext name = s at attaches
    cases attaches with
    | @entry key _ content plain fresh => cases key <;> simp_all [Key.segment, Key.ext?]
    | extension fresh =>
        cases step
        exact ⟨fresh, rfl⟩
    | _ => cases step
  · rintro ⟨fresh, rfl⟩
    exact .extension fresh

theorem attaches_element {elements : List α} {index : Option Nat} :
    Attaches ⟨.array elements, x⟩ part (.array index) n' ↔
      (∀ i ∈ index, i = elements.length) ∧ n' = ⟨.array (elements ++ [part]), x⟩ := by
  constructor
  · intro attaches
    generalize step : Segment.array index = s at attaches
    cases attaches with
    | entry content => cases content
    | element content last =>
        cases step
        cases content
        exact ⟨last, rfl⟩
    | position content => cases content
    | extension => cases step
  · rintro ⟨last, rfl⟩
    exact .element rfl last

theorem attaches_position {elements : List α} {index : UInt8} :
    Attaches ⟨.tuple elements, x⟩ part (.tuple index) n' ↔
      index.toNat = elements.length ∧ n' = ⟨.tuple (elements ++ [part]), x⟩ := by
  constructor
  · intro attaches
    generalize step : Segment.tuple index = s at attaches
    cases attaches with
    | entry content => cases content
    | element content => cases content
    | position content last =>
        cases step
        cases content
        exact ⟨last, rfl⟩
    | extension => cases step
  · rintro ⟨last, rfl⟩
    exact .position rfl last

theorem gains_nil : n.Gains [] n' ↔ n' = n := by
  constructor
  · rintro ⟨⟩
    rfl
  · rintro rfl
    exact .nil

theorem gains_cons {step : Segment} {items : List (Segment × α)} :
    n.Gains ((step, part) :: items) n' ↔ ∃ m, n.Attaches part step m ∧ m.Gains items n' := by
  constructor
  · rintro ⟨⟩
    exact ⟨_, ‹_›, ‹_›⟩
  · rintro ⟨m, first, rest⟩
    exact .cons first rest

theorem gains_append {items more : List (Segment × α)} :
    n.Gains (items ++ more) n' ↔ ∃ m, n.Gains items m ∧ m.Gains more n' := by
  induction items generalizing n with
  | nil => simp [gains_nil]
  | cons item items ih =>
      obtain ⟨step, part⟩ := item
      simp only [List.cons_append, gains_cons, ih]
      exact ⟨fun ⟨m, first, k, rest, more⟩ => ⟨k, ⟨m, first, rest⟩, more⟩,
        fun ⟨k, ⟨m, first, rest⟩, more⟩ => ⟨m, first, k, rest, more⟩⟩

/-- Entries go behind those of the map, or behind the extensions. -/
theorem gains_entries {before after : List (Key × α)} (keys : (before.map (·.1)).Nodup)
    (names : (x.map (·.1)).Nodup) :
    Gains ⟨.map before, x⟩ (after.map fun e => (e.1.segment, e.2)) n' ↔
      ((before ++ after.filter fun e => e.1.ext?.isNone).map (·.1)).Nodup ∧
      ((x ++ after.filterMap fun e => e.1.ext?.map (·, e.2)).map (·.1)).Nodup ∧
      n' = ⟨.map (before ++ after.filter fun e => e.1.ext?.isNone),
        x ++ after.filterMap fun e => e.1.ext?.map (·, e.2)⟩ := by
  induction after generalizing before x with
  | nil => simp [gains_nil, keys, names]
  | cons e after ih =>
      obtain ⟨key, a⟩ := e
      rw [List.map_cons, gains_cons]
      cases extension : key.ext? with
      | none =>
          rw [List.filter_cons_of_pos (by rw [extension]; rfl),
            List.filterMap_cons_none (by rw [extension]; rfl), List.append_cons]
          constructor
          · rintro ⟨m, attaches, rest⟩
            obtain ⟨fresh, rfl⟩ := (attaches_entry extension).1 attaches
            exact (ih (nodup_keys_append keys fresh a) names).1 rest
          · intro all
            have fresh := lookup?_none_of_nodup all.1
            have later := (ih (nodup_keys_append keys fresh a) names).2 all
            exact ⟨_, (attaches_entry extension).2 ⟨fresh, rfl⟩, later⟩
      | some name =>
          rw [List.filter_cons_of_neg (by rw [extension]; simp),
            List.filterMap_cons_some (by rw [extension]; rfl), List.append_cons x]
          have step : key.segment = .ext name := by cases key <;> simp_all [Key.segment, Key.ext?]
          rw [step]
          constructor
          · rintro ⟨m, attaches, rest⟩
            obtain ⟨fresh, rfl⟩ := attaches_extension.1 attaches
            exact (ih keys (nodup_keys_append names fresh a)).1 rest
          · intro all
            have fresh := lookup?_none_of_nodup all.2.1
            exact ⟨_, attaches_extension.2 ⟨fresh, rfl⟩,
              (ih keys (nodup_keys_append names fresh a)).2 all⟩

theorem gains_array {before after : List α} :
    Gains ⟨.array before, x⟩ (after.map fun a => (.array none, a)) n' ↔
      n' = ⟨.array (before ++ after), x⟩ := by
  induction after generalizing before with
  | nil => simp [gains_nil]
  | cons a after ih =>
      rw [List.map_cons, gains_cons, List.append_cons, ← ih]
      constructor
      · rintro ⟨m, attaches, rest⟩
        obtain ⟨-, rfl⟩ := attaches_element.1 attaches
        exact rest
      · exact fun rest => ⟨_, attaches_element.2 ⟨nofun, rfl⟩, rest⟩

/-- An index of eight bits tells the end of a tuple as long as that has fewer than 256 elements. -/
theorem gains_tuple {before after : List α} (few : before.length ≤ 256) :
    Gains ⟨.tuple before,
      x⟩ ((after.zipIdx before.length).map fun (a, i) => (.tuple (.ofNat i), a)) n' ↔
      (before ++ after).length ≤ 256 ∧ n' = ⟨.tuple (before ++ after), x⟩ := by
  induction after generalizing before with
  | nil => simp [gains_nil, few]
  | cons a after ih =>
      have index : (UInt8.ofNat before.length).toNat = before.length ↔ before.length < 256 := by
        rw [UInt8.toNat_ofNat']
        exact Nat.mod_eq_iff_lt (by decide)
      have length : (before ++ [a]).length = before.length + 1 := List.length_append
      rw [List.zipIdx_cons, List.map_cons, gains_cons, List.append_cons]
      constructor
      · rintro ⟨m, attaches, rest⟩
        obtain ⟨last, rfl⟩ := attaches_position.1 attaches
        have last := index.1 last
        rw [← length] at rest
        exact (ih (by omega)).1 rest
      · rintro ⟨few, rfl⟩
        have short : before.length < 256 := by
          rw [List.length_append] at few
          omega
        refine ⟨_, attaches_position.2 ⟨index.2 short, rfl⟩, ?_⟩
        rw [← length]
        exact (ih (by omega)).2 ⟨few, rfl⟩

theorem gains_extensions {c : Content α} {before after : List (Bytes × α)}
    (names : (before.map (·.1)).Nodup) :
    Gains ⟨c, before⟩ (after.map fun e => (.ext e.1, e.2)) n' ↔
      ((before ++ after).map (·.1)).Nodup ∧ n' = ⟨c, before ++ after⟩ := by
  induction after generalizing before with
  | nil => simp [gains_nil, names]
  | cons e after ih =>
      rw [List.map_cons, gains_cons, List.append_cons]
      constructor
      · rintro ⟨m, attaches, rest⟩
        obtain ⟨fresh, rfl⟩ := attaches_extension.1 attaches
        exact (ih (nodup_keys_append names fresh e.2)).1 rest
      · intro all
        have fresh := lookup?_none_of_nodup all.1
        exact ⟨_, attaches_extension.2 ⟨fresh, rfl⟩, (ih (nodup_keys_append names fresh e.2)).2 all⟩

theorem gains_content {c : Content α} :
    Gains ⟨c.emptied, []⟩ c.items n' ↔ (c.keys.filter fun key => key.ext?.isNone).Nodup ∧
      (c.extensions.map (·.1)).Nodup ∧ (∀ elements, c = .tuple elements → elements.length ≤ 256) ∧
      n' = ⟨c.plain, c.extensions⟩ := by
  cases c with
  | map entries =>
      have content := @gains_entries α n' [] [] entries List.nodup_nil List.nodup_nil
      rw [List.nil_append, List.nil_append] at content
      have keys : (Content.keys (.map entries)).filter (fun key => key.ext?.isNone) =
          (entries.filter fun e => e.1.ext?.isNone).map (·.1) := List.filter_map
      rw [keys]
      simpa [Content.items, Content.emptied, Content.plain, Content.extensions] using content
  | tuple elements =>
      have content := @gains_tuple α n' [] [] elements (Nat.zero_le 256)
      simpa [Content.items, Content.emptied, Content.keys, Content.plain,
        Content.extensions] using content
  | array elements =>
      simp [Content.items, Content.emptied, Content.keys, Content.plain, Content.extensions,
        gains_array]
  | _ =>
      simp [Content.items, Content.emptied, Content.keys, Content.plain, Content.extensions,
        gains_nil]

/-- A node can be rebuilt from its parts exactly if it is acceptable, and comes out regrouped. -/
theorem gains_items :
    Gains ⟨n.content.emptied, []⟩ n.items n' ↔ n.IsAcceptable ∧ n' = n.regrouped := by
  rw [items, gains_append, isAcceptable_iff, ← Content.names_extensions, ← List.map_append]
  constructor
  · rintro ⟨m, content, rest⟩
    obtain ⟨keys, names, elements, rfl⟩ := gains_content.1 content
    obtain ⟨names, rfl⟩ := (gains_extensions names).1 rest
    exact ⟨⟨keys, names, elements⟩, rfl⟩
  · rintro ⟨⟨keys, names, elements⟩, rfl⟩
    have inside : (n.content.extensions.map (·.1)).Nodup := by
      rw [List.map_append] at names
      exact (List.nodup_append.1 names).1
    exact ⟨_, gains_content.2 ⟨keys, inside, elements, rfl⟩,
      (gains_extensions inside).2 ⟨names, rfl⟩⟩

theorem items_mapParts (f : α → β) :
    (n.mapParts f).items = n.items.map fun item => (item.1, f item.2) := by
  simp [items, mapParts, Content.items_mapParts]

/-- What the parts are does not matter. -/
theorem isAcceptable_mapParts (f : α → β) : (n.mapParts f).IsAcceptable ↔ n.IsAcceptable := by
  have elements : (∀ elements, (n.mapParts f).content = .tuple elements → elements.length ≤ 256) ↔
      ∀ elements, n.content = .tuple elements → elements.length ≤ 256 := by
    cases content : n.content <;> simp [mapParts, content, Content.mapParts]
  rw [isAcceptable_iff, isAcceptable_iff, elements, mapParts, Content.keys_mapParts, List.map_map]
  rfl

namespace IsOrderly

variable (orderly : n.IsOrderly)

include orderly

theorem extensions_eq_nil : n.content.extensions = [] := by
  cases content : n.content with
  | map entries =>
      exact List.filterMap_eq_nil_iff.2
        fun e inside => by rw [orderly.plain entries content e inside]; rfl
  | _ => rfl

theorem plain_eq : n.content.plain = n.content := by
  cases content : n.content with
  | map entries =>
      have kept : (entries.filter fun e => e.1.ext?.isNone) = entries :=
        List.filter_eq_self.2 fun e inside => by rw [orderly.plain entries content e inside]; rfl
      rw [Content.plain, kept]
  | _ => rfl

/-- A node whose steps tell its parts apart is left as it is. -/
theorem regrouped_eq : n.regrouped = n := by
  rw [regrouped, orderly.plain_eq, orderly.extensions_eq_nil, List.nil_append]

theorem isAcceptable : n.IsAcceptable := by
  constructor
  · cases content : n.content with
    | map entries => exact (orderly.keys entries content).filter _
    | _ => exact List.nodup_nil
  · rw [← Content.names_extensions, orderly.extensions_eq_nil]
    exact orderly.names
  · exact orderly.elements

theorem gains : Gains ⟨n.content.emptied, []⟩ n.items n :=
  gains_items.2 ⟨orderly.isAcceptable, orderly.regrouped_eq.symm⟩

end IsOrderly

end Node

end DocSchema
