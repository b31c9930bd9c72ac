import Mathlib.Data.List.Nodup
import DocSchema.Document.Builder

set_option autoImplicit false

namespace DocSchema

variable {α β : Type}

/-- Whether the steps from a node tell its parts apart: no key and no name is taken twice, no key is
the name of an extension, and a tuple has no more elements than there are indices. -/
structure Node.IsOrderly (n : Node α) : Prop where
  keys : ∀ entries, n.content = .map entries → (entries.map (·.1)).Nodup
  plain : ∀ entries, n.content = .map entries → ∀ e ∈ entries, e.1.ext? = none
  elements : ∀ elements, n.content = .tuple elements → elements.length ≤ 256
  names : (n.extensions.map (·.1)).Nodup

theorem Node.IsOrderly.hole : ({} : Node α).IsOrderly :=
  ⟨nofun, nofun, nofun, List.nodup_nil⟩

/-- The step by which a new part can be reached: elements of arrays are added at the end. -/
def Segment.placed (n : Node α) : Segment → Segment
  | .array _ => .array (some n.content.parts.length)
  | s => s

inductive Node.Attaches (n : Node α) (part : α) : Segment → Node α → Prop
  | entry {key : Key} {entries : List (Key × α)} (content : n.content = .map entries)
      (plain : key.ext? = none) (fresh : lookup? key entries = none) :
      Attaches n part key.segment { n with content := .map (entries ++ [(key, part)]) }
  | element {index : Option Nat} {elements : List α} (content : n.content = .array elements)
      (last : ∀ i ∈ index, i = elements.length) :
      Attaches n part (.array index) { n with content := .array (elements ++ [part]) }
  | position {index : UInt8} {elements : List α} (content : n.content = .tuple elements)
      (last : index.toNat = elements.length) :
      Attaches n part (.tuple index) { n with content := .tuple (elements ++ [part]) }
  | extension {name : Bytes} (fresh : n.extension? name = none) :
      Attaches n part (.ext name) { n with extensions := n.extensions ++ [(name, part)] }

structure Node.Settles (n n' : Node α) : Prop where
  hole : n.content = .hole
  parts : n'.content.parts = []
  extensions : n'.extensions = n.extensions

theorem lookup?_append_of_none {κ : Type} [DecidableEq κ] {k : κ} {items : List (κ × α)}
    (absent : lookup? k items = none) (a : α) : lookup? k (items ++ [(k, a)]) = some a := by
  have none := Option.map_eq_none_iff.1 absent
  rw [lookup?, List.find?_append, none, Option.none_or, List.find?_singleton]
  simp

theorem lookup?_eq_none {κ : Type} [DecidableEq κ] {k : κ} {items : List (κ × α)} :
    lookup? k items = none ↔ k ∉ items.map (·.1) := by
  rw [lookup?, Option.map_eq_none_iff, List.find?_eq_none, List.mem_map]
  constructor
  · rintro absent ⟨item, inside, same⟩
    exact absent item inside (by simpa using same)
  · intro absent item inside same
    exact absent ⟨item, inside, by simpa using same⟩

/-- A key that is not found does not repeat another one. -/
theorem nodup_keys_append {κ : Type} [DecidableEq κ] {k : κ} {items : List (κ × α)}
    (distinct : (items.map (·.1)).Nodup) (absent : lookup? k items = none) (a : α) :
    ((items ++ [(k, a)]).map (·.1)).Nodup := by
  rw [List.map_append, List.nodup_append]
  refine ⟨distinct, List.nodup_singleton _, ?_⟩
  intro taken member other single same
  rw [same, List.mem_singleton.1 single] at member
  exact lookup?_eq_none.1 absent member

theorem lookup?_none_of_nodup {κ : Type} [DecidableEq κ] {item : κ × α}
    {before after : List (κ × α)}
    (distinct : ((before ++ [item] ++ after).map (·.1)).Nodup) : lookup? item.1 before = none := by
  rw [← List.append_cons, List.map_append, List.nodup_append] at distinct
  exact lookup?_eq_none.2 fun taken => distinct.2.2 _ taken _ List.mem_cons_self rfl

/-- A key without the name of an extension is looked up by its step. -/
theorem Node.step?_segment (n : Node α) {key : Key} (plain : key.ext? = none) :
    n.step? key.segment = n.content.find? key := by
  cases key with
  | ext name => cases plain
  | _ => rfl

namespace Node.Settles

variable {n n' : Node α}

theorem parts_eq (settles : n.Settles n') : n'.parts = n.parts := by
  rw [Node.parts, Node.parts, settles.parts, settles.extensions, settles.hole]
  rfl

theorem isOrderly (settles : n.Settles n') (orderly : n.IsOrderly) : n'.IsOrderly := by
  have parts := settles.parts
  constructor
  · intro entries map
    rw [map] at parts
    rw [List.map_eq_nil_iff.1 parts]
    exact List.nodup_nil
  · intro entries map
    rw [map] at parts
    simp [List.map_eq_nil_iff.1 parts]
  · intro elements tuple
    rw [tuple] at parts
    simp [show elements = [] from parts]
  · rw [settles.extensions]
    exact orderly.names

end Node.Settles

namespace Node.Attaches

variable {n n' : Node α} {part : α} {s : Segment}

/-- The step to the new part leads there. -/
theorem step?_placed (attaches : n.Attaches part s n') : n'.step? (s.placed n) = some part := by
  cases attaches with
  | @entry key entries content plain fresh =>
      have same : key.segment.placed n = key.segment := by cases key <;> rfl
      rw [same, Node.step?_segment _ plain]
      exact lookup?_append_of_none fresh part
  | element content last =>
      simp [Segment.placed, Node.step?, Content.array?, content, Content.parts]
  | position content last => simp [Segment.placed, Node.step?, Content.tuple?, last]
  | extension fresh => exact lookup?_append_of_none fresh part

theorem parts_perm (attaches : n.Attaches part s n') : n'.parts.Perm (part :: n.parts) := by
  cases attaches with
  | extension fresh =>
      simp only [Node.parts, List.map_append, List.map_cons, List.map_nil]
      rw [← List.append_assoc]
      exact List.perm_append_singleton _ _
  | _ =>
      simp only [Node.parts, *, Content.parts, List.map_append, List.map_cons, List.map_nil,
        List.append_assoc, List.singleton_append]
      exact List.perm_middle

theorem isOrderly (attaches : n.Attaches part s n') (orderly : n.IsOrderly) : n'.IsOrderly := by
  cases attaches with
  | @entry key entries content plain fresh =>
      refine ⟨?_, ?_, nofun, orderly.names⟩
      · rintro - ⟨⟩
        exact nodup_keys_append (orderly.keys entries content) fresh part
      · rintro - ⟨⟩
        exact List.forall_mem_append.2 ⟨orderly.plain entries content, by simpa using plain⟩
  | element content last => exact ⟨nofun, nofun, nofun, orderly.names⟩
  | @position index elements content last =>
      refine ⟨nofun, nofun, ?_, orderly.names⟩
      rintro - ⟨⟩
      have below := index.toNat_lt
      rw [List.length_append, List.length_singleton]
      omega
  | extension fresh =>
      exact ⟨orderly.keys, orderly.plain, orderly.elements,
        nodup_keys_append orderly.names fresh part⟩

end Node.Attaches

/-- The parts of the content in order, each with the step under which it can be added. -/
def Content.items : Content α → List (Segment × α)
  | .map entries => entries.map fun e => (e.1.segment, e.2)
  | .array elements => elements.map fun a => (.array none, a)
  | .tuple elements => elements.zipIdx.map fun (a, i) => (.tuple (.ofNat i), a)
  | _ => []

namespace Node

variable {n n' n'' : Node α}

/-- How a node gains parts, one after the other. -/
inductive Gains : Node α → List (Segment × α) → Node α → Prop
  | nil {n : Node α} : Gains n [] n
  | cons {n n' n'' : Node α} {s : Segment} {part : α} {items : List (Segment × α)}
      (first : n.Attaches part s n') (rest : Gains n' items n'') : Gains n ((s, part) :: items) n''

/-- The parts in order, each with the step under which it can be added. -/
def items (n : Node α) : List (Segment × α) :=
  n.content.items ++ n.extensions.map fun e => (.ext e.1, e.2)

end Node

end DocSchema
