import Mathlib.Data.List.Nodup
import DocSchema.Document.Json
import DocSchema.Proofs.NearestFloat
import DocSchema.Proofs.Rebuilding
import DocSchema.Proofs.Writing

set_option autoImplicit false

namespace DocSchema

namespace Json

variable {f g : UInt64 → Json}

mutual

/-- The tree with another one in place of every unsigned number. -/
def mapUnsigned (f : UInt64 → Json) : Json → Json
  | .null => .null
  | .bool b => .bool b
  | .int i => .int i
  | .uint n => f n
  | .float x => .float x
  | .string s => .string s
  | .array items => .array (mapItems f items)
  | .object members => .object (mapMembers f members)

def mapItems (f : UInt64 → Json) : List Json → List Json
  | [] => []
  | j :: rest => j.mapUnsigned f :: mapItems f rest

def mapMembers (f : UInt64 → Json) : List (Bytes × Json) → List (Bytes × Json)
  | [] => []
  | (key, j) :: rest => (key, j.mapUnsigned f) :: mapMembers f rest

end

theorem mapItems_eq (items : List Json) : mapItems f items = items.map (mapUnsigned f) := by
  induction items with
  | nil => rfl
  | cons j rest ih => rw [mapItems, ih, List.map_cons]

theorem mapMembers_eq (members : List (Bytes × Json)) :
    mapMembers f members = members.map fun m => (m.1, m.2.mapUnsigned f) := by
  induction members with
  | nil => rfl
  | cons m rest ih => rw [mapMembers, ih, List.map_cons]

/-- An unsigned number in the signed range as it is, and a greater one as the nearest float. -/
def nearest (n : UInt64) : Json :=
  if n.toNat < Int64.size / 2 then .uint n else .float (.ofUInt64 n)

/-- An unsigned number as a value holds it: signed, or as the nearest float. -/
def held (n : UInt64) : Json :=
  if n.toNat < Int64.size / 2 then .int (Int64.ofNat n.toNat) else .float (.ofUInt64 n)

theorem isSorted_held (n : UInt64) : (held n).IsSorted := by
  unfold held
  split <;> constructor

theorem isUtf8_held (n : UInt64) : (held n).IsUtf8 := by
  unfold held
  split <;> constructor

theorem isUtf8_array {items : List Json} : (array items).IsUtf8 ↔ ∀ j ∈ items, j.IsUtf8 :=
  ⟨fun | .array each => each, .array⟩

theorem isUtf8_object {members : List (Bytes × Json)} :
    (object members).IsUtf8 ↔ (∀ m ∈ members, m.1.IsUtf8) ∧ ∀ m ∈ members, m.2.IsUtf8 :=
  ⟨fun | .object keys each => ⟨keys, each⟩, fun ⟨keys, each⟩ => .object keys each⟩

/-- Other trees in place of the numbers leave members in their order. -/
theorem IsSorted.mapUnsigned {j : Json} (sorted : j.IsSorted) (numbers : ∀ n, (f n).IsSorted) :
    (j.mapUnsigned f).IsSorted := by
  induction sorted with
  | uint n => exact numbers n
  | array each ih =>
      rw [Json.mapUnsigned, mapItems_eq]
      exact .array (List.forall_mem_map.2 ih)
  | object order each ih =>
      rw [Json.mapUnsigned, mapMembers_eq]
      exact .object (List.pairwise_map.2 order) (List.forall_mem_map.2 ih)
  | _ => constructor

/-- Neither do they change which trees have a text. -/
theorem IsSorted.isUtf8_mapUnsigned {j : Json} (sorted : j.IsSorted) (numbers : ∀ n, (f n).IsUtf8) :
    (j.mapUnsigned f).IsUtf8 ↔ j.IsUtf8 := by
  induction sorted with
  | uint n => exact iff_of_true (numbers n) (.uint n)
  | array each ih =>
      rw [Json.mapUnsigned, mapItems_eq, isUtf8_array, isUtf8_array, List.forall_mem_map]
      exact forall₂_congr ih
  | object order each ih =>
      rw [Json.mapUnsigned, mapMembers_eq, isUtf8_object, isUtf8_object, List.forall_mem_map,
        List.forall_mem_map]
      exact and_congr_right fun _ => forall₂_congr ih
  | _ => rw [Json.mapUnsigned]

variable {dump? : Writer} (lawful : dump?.IsLawful)
include lawful

/-- Trees that are written alike may take the place of the numbers. -/
theorem Writer.IsLawful.mapUnsigned {j : Json} (sorted : j.IsSorted)
    (same : ∀ n, dump? (f n) = dump? (g n)) :
    dump? (j.mapUnsigned f) = dump? (j.mapUnsigned g) := by
  induction sorted with
  | uint n => exact same n
  | array each ih =>
      rw [Json.mapUnsigned, Json.mapUnsigned, mapItems_eq, mapItems_eq]
      refine lawful.array ?_
      rw [List.map_map, List.map_map]
      exact List.map_congr_left ih
  | object order each ih =>
      rw [Json.mapUnsigned, Json.mapUnsigned, mapMembers_eq, mapMembers_eq]
      refine lawful.object ?_
      rw [List.map_map, List.map_map]
      exact List.map_congr_left fun m member => Prod.ext rfl (ih m member)
  | _ => rw [Json.mapUnsigned, Json.mapUnsigned]

theorem Writer.IsLawful.held (n : UInt64) : dump? (held n) = dump? (nearest n) := by
  unfold Json.held nearest
  split
  · next small => exact lawful.number n small
  · rfl

end Json

namespace Value

open Json

def memberKey (name : Bytes) : Key :=
  if Bytes.isIdentifier name then .ident name else .literal (.text name)

theorem memberKey_bare (name : Bytes) : (memberKey name).value.bare = name := by
  unfold memberKey
  split <;> rfl

theorem memberKey_ext? (name : Bytes) : (memberKey name).ext? = none := by
  unfold memberKey
  split <;> rfl

theorem ofItems_eq (items : List Json) : ofItems items = items.map ofJson := by
  induction items with
  | nil => rfl
  | cons j rest ih => rw [ofItems, ih, List.map_cons]

theorem ofMembers_eq (members : List (Bytes × Json)) :
    Value.ofMembers members = members.map fun m => (memberKey m.1, ofJson m.2) := by
  induction members with
  | nil => rfl
  | cons m rest ih =>
      rw [Value.ofMembers, ih, List.map_cons]
      rfl

theorem listToJson_eq (elements : List Value) : listToJson elements = elements.map toJson := by
  induction elements with
  | nil => rfl
  | cons v rest ih => rw [listToJson, ih, List.map_cons]

theorem entriesToJson_eq (entries : List (Key × Value)) :
    entriesToJson entries = entries.map fun e => (e.1.value.bare, e.2.toJson) := by
  induction entries with
  | nil => rfl
  | cons e rest ih => rw [entriesToJson, ih, List.map_cons]

/-- The value of a tree gives the tree back, with its unsigned numbers as values hold them. -/
theorem toJson_ofJson {j : Json} (sorted : j.IsSorted) :
    (ofJson j).toJson = j.mapUnsigned held := by
  induction sorted with
  | null | bool | int | float | string => rfl
  | uint n =>
      rw [ofJson, mapUnsigned, held]
      split <;> rfl
  | @array items each ih =>
      have parts : (items.map ofJson).map toJson = items.map (mapUnsigned held) := by
        rw [List.map_map]
        exact List.map_congr_left ih
      rw [ofJson, mapUnsigned, Value.of, toJson, contentToJson, ofItems_eq, listToJson_eq,
        mapItems_eq, parts]
  | @object members order each ih =>
      have parts : (members.map fun m => (memberKey m.1, ofJson m.2)).map
          (fun e => (e.1.value.bare, e.2.toJson)) =
          members.map fun m => (m.1, m.2.mapUnsigned held) := by
        rw [List.map_map]
        refine List.map_congr_left fun m inside => ?_
        rw [Function.comp_apply, memberKey_bare, ih m inside]
      rw [ofJson, mapUnsigned, Value.of, toJson, contentToJson, ofMembers_eq, entriesToJson_eq,
        mapMembers_eq, parts]

/-- Without extensions, only the keys of maps and the number of tuple elements matter. -/
theorem isOrderly_of {c : Content Value} (entries : ∀ es, c ≠ .map es)
    (elements : ∀ vs, c ≠ .tuple vs)
    (parts : ∀ part ∈ c.parts, part.IsOrderly) : (Value.of c).IsOrderly := by
  refine .intro ⟨?_, ?_, ?_, List.nodup_nil⟩ ?_
  · exact fun es content => absurd content (entries es)
  · exact fun es content => absurd content (entries es)
  · exact fun vs content => absurd content (elements vs)
  · intro part inside
    exact parts part ((List.mem_append.1 inside).resolve_right List.not_mem_nil)

theorem isOrderly_of_primitive (p : Primitive) : (Value.of (.primitive p)).IsOrderly := by
  refine isOrderly_of ?_ ?_ ?_
  · simp
  · simp
  · simp [Content.parts]

/-- The steps from the nodes of the value tell their parts apart: keys that differ are never
merged. -/
theorem ofJson_isOrderly {j : Json} (sorted : j.IsSorted) : (ofJson j).IsOrderly := by
  induction sorted with
  | null | bool | int | float | string => exact isOrderly_of_primitive _
  | uint n =>
      rw [ofJson]
      split <;> exact isOrderly_of_primitive _
  | @array items each ih =>
      rw [ofJson, ofItems_eq]
      exact isOrderly_of (by simp) (by simp) (List.forall_mem_map.2 ih)
  | @object members order each ih =>
      rw [ofJson, ofMembers_eq]
      have names : (members.map (·.1)).Nodup := by
        refine (List.pairwise_map.2 order).imp ?_
        intro a b less equal
        exact List.lt_irrefl b (equal ▸ less)
      have bare : (members.map fun m => memberKey m.1).map (fun k => k.value.bare) =
          members.map (·.1) := by
        rw [List.map_map]
        exact List.map_congr_left fun m _ => memberKey_bare m.1
      refine .intro ⟨?_, ?_, ?_, List.nodup_nil⟩ ?_
      · rintro entries ⟨⟩
        rw [List.map_map]
        exact List.Nodup.of_map _ (bare ▸ names)
      · rintro entries ⟨⟩
        exact List.forall_mem_map.2 fun m _ => memberKey_ext? m.1
      · intro elements content
        cases content
      · intro part inside
        have held := (List.mem_append.1 inside).resolve_right List.not_mem_nil
        obtain ⟨e, listed, rfl⟩ := List.mem_map.1 held
        obtain ⟨m, member, rfl⟩ := List.mem_map.1 listed
        exact ih m member

end Value

/-- Every tree makes a document, and the document gives the tree back: all its members and items in
their places, and a text that differs only where a number beyond the signed range became the nearest
float. There is a text unless a string of the tree encodes no characters. -/
theorem Document.json_roundTrip (dump? : Json.Writer) (lawful : dump?.IsLawful) {j : Json}
    (sorted : j.IsSorted) :
    (∃ d, Document.ofJson j = .ok d ∧ d.toJson = j.mapUnsigned .held ∧
      dump? d.toJson = dump? (j.mapUnsigned .nearest) ∧ ((dump? d.toJson).isSome ↔ j.IsUtf8)) ∧
      ∀ n : UInt64, (Binary64.ofUInt64 n).IsNearest n.toNat := by
  obtain ⟨d, built, value⟩ := (Value.ofJson_isOrderly sorted).ofValue
  have tree : d.toJson = j.mapUnsigned .held := by
    rw [Document.toJson, value, Value.toJson_ofJson sorted]
  have encoded := sorted.isUtf8_mapUnsigned Json.isUtf8_held
  rw [← tree] at encoded
  have order : d.toJson.IsSorted := tree ▸ sorted.mapUnsigned Json.isSorted_held
  refine ⟨⟨d, built, tree, ?_, ?_⟩, Binary64.ofUInt64_isNearest⟩
  · rw [tree, lawful.mapUnsigned sorted lawful.held]
  · exact ⟨fun written => encoded.1 (lawful.encoded order written),
      fun valid => lawful.written (encoded.2 valid)⟩

/-- Keys of every spelling, empty containers, and a number of each range. -/
private def mixed (small great : Json) : Json :=
  .object [("", .object []), ("$a", small), ("5", .array [.array [], great]), ("a", .null),
    ("a b", .string "a")]

private theorem mixed_isSorted (m n : UInt64) : (mixed (.uint m) (.uint n)).IsSorted := by
  have order : ([utf8 "", utf8 "$a", utf8 "5", utf8 "a", utf8 "a b"] : List Bytes).Pairwise
      (· < ·) := by decide
  refine .object ((List.pairwise_map (f := Prod.fst)).1 order) ?_
  simp only [List.forall_mem_cons, List.not_mem_nil, false_implies, implies_true, and_true]
  refine ⟨.object .nil (by simp), .uint m, .array ?_, .null, .string "a"⟩
  simp only [List.forall_mem_cons, List.not_mem_nil, false_implies, implies_true, and_true]
  exact ⟨.array (by simp), .uint n⟩

private theorem mixed_isUtf8 (m n : UInt64) : (mixed (.uint m) (.uint n)).IsUtf8 := by
  have keys : ∀ key ∈ ([utf8 "", utf8 "$a", utf8 "5", utf8 "a", utf8 "a b"] : List Bytes),
    key.IsUtf8 := by decide
  refine .object ((List.forall_mem_map (f := Prod.fst)).1 keys) ?_
  simp only [List.forall_mem_cons, List.not_mem_nil, false_implies, implies_true, and_true]
  refine ⟨.object (by simp) (by simp), .uint m, .array ?_, .null, .string (by decide)⟩
  simp only [List.forall_mem_cons, List.not_mem_nil, false_implies, implies_true, and_true]
  exact ⟨.array (by simp), .uint n⟩

/-- The tree is held with a signed number and the nearest float, and written with them as
without. -/
theorem Document.json_roundTrip_mixed :
    Json.Writer.IsLawful Json.compact ∧ (mixed (.uint 7) (.uint 9223372036854775808)).IsSorted ∧
      ∃ d, Document.ofJson (mixed (.uint 7) (.uint 9223372036854775808)) = .ok d ∧
        d.toJson = mixed (.int 7) (.float ⟨0x43e0000000000000⟩) ∧
        Json.compact d.toJson = Json.compact (mixed (.uint 7) (.float ⟨0x43e0000000000000⟩)) ∧
        (Json.compact d.toJson).isSome := by
  have sorted := mixed_isSorted 7 9223372036854775808
  obtain ⟨⟨d, built, tree, text, written⟩, -⟩ :=
    Document.json_roundTrip Json.compact Json.compact_isLawful sorted
  exact ⟨Json.compact_isLawful, sorted, d, built, tree.trans rfl, text.trans rfl,
    written.2 (mixed_isUtf8 7 9223372036854775808)⟩

end DocSchema
