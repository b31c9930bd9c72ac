import DocSchema.Proofs.Navigation
import DocSchema.Proofs.Projection
import DocSchema.Proofs.SameValue
import DocSchema.Proofs.Sites

set_option autoImplicit false

namespace DocSchema

variable {d : Document} {n m : NodeId} {path : Path} {name : Bytes}

namespace Document

/-- Where a path leads if a step to a record field finds the first key of that spelling. -/
inductive Leads (d : Document) (n : NodeId) : Path → NodeId → Prop
  | start : Leads d n [] n
  | step {path : Path} {k m : NodeId} {s : Segment} (leads : Leads d n path k)
      (found : (d.node k).step? s = some m) : Leads d n (path ++ [s]) m
  | field {path : Path} {k m : NodeId} {name : Bytes} (leads : Leads d n path k)
      (found : (d.node k).content.field? name = some m) : Leads d n (path ++ [.field name]) m

/-- Whether a path leads to a node. -/
def IsPath (d : Document) (n : NodeId) (path : Path) : Prop :=
  ∃ m, d.Leads n path m

/-- Whether a path comes by a node where the first key that is spelled as a step to a field is not
the key of that step. -/
def Strays (d : Document) (n : NodeId) (path : Path) : Prop :=
  ∃ before name rest k entries entry, path = before ++ .field name :: rest ∧
    d.resolve before n = .ok k ∧ (d.node k).content = .map entries ∧
    entries.find? (fun e => e.1.spelling? == some name) = some entry ∧ entry.1.segment ≠ .field name

theorem Strays.append (strays : d.Strays n path) (more : Path) : d.Strays n (path ++ more) := by
  obtain ⟨before, name, rest, k, entries, entry, rfl, other⟩ := strays
  exact ⟨before, name, rest ++ more, k, entries, entry, by simp, other⟩

/-- A path that leads somewhere resolves to the same node, unless it strays. -/
theorem Leads.resolves (ordered : d.IsOrdered) (leads : d.Leads n path m) :
    d.resolve path n = .ok m ∨ d.Strays n path := by
  induction leads with
  | start => exact .inl rfl
  | step leads found ih =>
      obtain resolved | strays := ih
      · exact .inl (resolve_concat.2 ⟨_, resolved, found⟩)
      · exact .inr (strays.append _)
  | @field path k m name leads found ih =>
      obtain resolved | strays := ih
      · obtain ⟨entries, map, look⟩ := Option.bind_eq_some_iff.1 found
        obtain ⟨entry, first, rfl⟩ := Option.map_eq_some_iff.1 look
        have content : (d.node k).content = .map entries := by
          cases content : (d.node k).content with
          | map es =>
              rw [content] at map
              cases map
              rfl
          | _ =>
              rw [content] at map
              cases map
        have member := List.mem_of_find?_eq_some first
        by_cases same : entry.1.segment = .field name
        · refine .inl (resolve_concat.2 ⟨k, resolved, ?_⟩)
          rw [← same, Node.step?_segment _ ((ordered.orderly k).plain entries content _ member),
            content]
          exact lookup?_of_mem ((ordered.orderly k).keys entries content) member
        · exact .inr ⟨path, name, [], k, entries, entry, rfl, resolved, content, first, same⟩
      · exact .inr (strays.append _)

/-- Where no key has the spelling, the step to the field leads nowhere. -/
theorem resolve_field_error (absent : (d.node m).content.field? name = none)
    (resolved : d.resolve path n = .ok m) :
    d.resolve (path ++ [.field name]) n = .error ⟨.pathNotFound, path ++ [.field name]⟩ := by
  have unspelled (key : Key) (spelled : key.spelling? = some name) :
      (d.node m).content.find? key = none := by
    cases content : (d.node m).content with
    | map entries =>
        rw [content] at absent
        have none := List.find?_eq_none.1 (Option.map_eq_none_iff.1 absent)
        rw [Content.find?, Content.entries?, Option.bind_some, lookup?_eq_none]
        rintro taken
        obtain ⟨e, member, rfl⟩ := List.mem_map.1 taken
        exact none e member (by simpa using spelled)
    | _ => rfl
  refine resolve_concat_error resolved ?_
  unfold Segment.field
  split
  · exact unspelled (.ident name) rfl
  · exact unspelled (.literal (.text name)) rfl

end Document

namespace Content

variable {α β : Type} (f : α → β) (c : Content α)

theorem entries?_mapParts :
    (c.mapParts f).entries? = c.entries?.map (List.map fun (k, a) => (k, f a)) := by
  cases c <;> rfl

theorem array?_mapParts : (c.mapParts f).array? = c.array?.map (List.map f) := by
  cases c <;> rfl

theorem tuple?_mapParts : (c.mapParts f).tuple? = c.tuple?.map (List.map f) := by
  cases c <;> rfl

theorem field?_mapParts (name : Bytes) : (c.mapParts f).field? name = (c.field? name).map f := by
  rw [field?, field?, entries?_mapParts]
  cases c.entries? with
  | none => rfl
  | some entries =>
      simp only [Option.map_some, Option.bind_some, List.find?_map, Option.map_map]
      rfl

end Content

theorem Site.field?_value (s : Site) (name : Bytes) :
    (s.field? name).map (·.value) = s.value.content.field? name := by
  cases content : s.value.content with
  | map entries =>
      obtain ⟨sites, found, rfl⟩ := Site.entries?_map content
      rw [Site.field?, found, Content.field?, Content.entries?, Option.bind_some, Option.bind_some,
        List.find?_map, Option.map_map, Option.map_map]
      rfl
  | _ =>
      rw [Site.field?, Site.entries?, content]
      rfl

/-- Whether a site is of a node of the document, at its path from `n`. -/
def Site.IsAt (d : Document) (n : NodeId) (s : Site) : Prop :=
  ∃ m, d.Leads n s.path m ∧ s.value = d.valueAt m

namespace Site.IsAt

variable {s : Site}

theorem root (d : Document) (n : NodeId) : Site.IsAt d n ⟨d.valueAt n, [], []⟩ :=
  ⟨n, .start, rfl⟩

theorem leads (placed : s.IsAt d n) : d.IsPath n s.path :=
  placed.imp fun _ at_ => at_.1

theorem part {i child : Nat} {step : Segment} (leads : d.Leads n s.path m)
    (found : (d.node m).step? step = some child) : (s.part i step (d.valueAt child)).IsAt d n :=
  ⟨child, .step leads found, rfl⟩

variable (ordered : d.IsOrdered) (placed : s.IsAt d n)

include ordered placed

/-- The node of a site has the content and the extensions of its value. -/
theorem node : ∃ m, d.Leads n s.path m ∧ s.value.content = (d.node m).content.mapParts d.valueAt ∧
    s.value.extensions = (d.node m).extensions.map fun (name, a) => (name, d.valueAt a) := by
  obtain ⟨m, leads, value⟩ := placed
  have same := ordered.root_valueAt m
  rw [← value] at same
  exact ⟨m, leads, congrArg Node.content same, congrArg Node.extensions same⟩

theorem entry {entries : List (Key × Site)} (found : s.entries? = some entries) :
    ∀ e ∈ entries, e.2.IsAt d n := by
  obtain ⟨m, leads, content, -⟩ := placed.node ordered
  rw [Site.entries?, content, Content.entries?_mapParts] at found
  cases node : (d.node m).content with
  | map items =>
      rw [node] at found
      obtain rfl := Option.some.inj found
      intro e member
      obtain ⟨i, inside, rfl⟩ := List.mem_mapIdx.1 member
      rw [List.length_map] at inside
      rw [List.getElem_map]
      have member : items[i] ∈ items := List.getElem_mem inside
      refine part leads ?_
      change (d.node m).step? items[i].1.segment = some items[i].2
      rw [Node.step?_segment _ ((ordered.orderly m).plain items node _ member), node]
      exact lookup?_of_mem ((ordered.orderly m).keys items node) member
  | _ =>
      rw [node] at found
      cases found

theorem item {items : List Site} (found : s.array? = some items) : ∀ x ∈ items, x.IsAt d n := by
  obtain ⟨m, leads, content, -⟩ := placed.node ordered
  rw [Site.array?, content, Content.array?_mapParts] at found
  cases node : (d.node m).content with
  | array elements =>
      rw [node] at found
      obtain rfl := Option.some.inj found
      intro x member
      obtain ⟨i, inside, rfl⟩ := List.mem_mapIdx.1 member
      rw [List.length_map] at inside
      rw [List.getElem_map]
      refine part leads ?_
      simp [Node.step?, node, Content.array?, inside]
  | _ =>
      rw [node] at found
      cases found

theorem element {elements : List Site} (found : s.tuple? = some elements) :
    ∀ x ∈ elements, x.IsAt d n := by
  obtain ⟨m, leads, content, -⟩ := placed.node ordered
  rw [Site.tuple?, content, Content.tuple?_mapParts] at found
  cases node : (d.node m).content with
  | tuple items =>
      rw [node] at found
      obtain rfl := Option.some.inj found
      intro x member
      obtain ⟨i, inside, rfl⟩ := List.mem_mapIdx.1 member
      rw [List.length_map] at inside
      rw [List.getElem_map]
      refine part leads ?_
      have few := (ordered.orderly m).elements items node
      have index : i.toUInt8.toNat = i := UInt8.toNat_ofNat_of_lt (show i < 256 by omega)
      simp [Node.step?, node, Content.tuple?, index, inside]
  | _ =>
      rw [node] at found
      cases found

theorem field {name : Bytes} {part : Site} (found : s.field? name = some part) : part.IsAt d n := by
  obtain ⟨m, leads, content, -⟩ := placed.node ordered
  have value := s.field?_value name
  rw [found, content, Content.field?_mapParts] at value
  obtain ⟨child, look, same⟩ := Option.map_eq_some_iff.1 value.symm
  obtain ⟨e, -, rfl⟩ := Option.map_eq_some_iff.1 found
  exact ⟨child, .field leads look, same.symm⟩

/-- A field that a site lacks is none of its node. -/
theorem noField {name : Bytes} (absent : s.field? name = none) :
    ∃ m, d.Leads n s.path m ∧ (d.node m).content.field? name = none := by
  obtain ⟨m, leads, content, -⟩ := placed.node ordered
  have value := s.field?_value name
  rw [absent, content, Content.field?_mapParts] at value
  exact ⟨m, leads, Option.map_eq_none_iff.1 value.symm⟩

theorem extension {name : Bytes} {v : Value} (found : s.value.extension? name = some v) :
    d.IsPath n (s.path ++ [.ext name]) := by
  obtain ⟨m, leads, -, extensions⟩ := placed.node ordered
  rw [Value.extension?, Node.extension?, Value.root, extensions, lookup?, List.find?_map,
    Option.map_map] at found
  obtain ⟨e, first, -⟩ := Option.map_eq_some_iff.1 found
  refine ⟨e.2, .step leads ?_⟩
  rw [Node.step?, Node.extension?, lookup?]
  exact congrArg (Option.map (·.2)) first

end Site.IsAt

end DocSchema
