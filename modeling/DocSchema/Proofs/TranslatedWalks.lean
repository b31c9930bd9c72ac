import DocSchema.Proofs.Translation

set_option autoImplicit false

namespace DocSchema

open Walker (Translated)

variable {τ : Translation}

namespace Check

theorem expect_translated (holds : Bool) (path : Path) (m : Mismatch) :
    Translated τ id (expect holds path m) (expect holds (τ.above ++ path) m) := by
  cases holds with
  | true => exact .pure rfl
  | false => exact .report path m

theorem wrongKind_translated (expected : Bytes) (s : Site) :
    Translated τ id (wrongKind expected s) (wrongKind expected (τ.site s)) :=
  .report s.path (.wrongKind expected s.kindName)

theorem language_translated (lang : Option Bytes) (t : Text) (path : Path) :
    Translated τ id (language lang t path) (language lang t (τ.above ++ path)) := by
  unfold language
  split
  · exact expect_translated _ path _
  · exact .pure rfl

theorem pattern_translated (p : Option Bytes) (t : Text) (path : Path) :
    Translated τ id (pattern p t path) (pattern p t (τ.above ++ path)) := by
  unfold pattern
  split
  · exact .pure rfl
  · split
    · exact .abort (.of_flaw path _)
    · exact expect_translated _ path _

theorem text_translated (length : Counts) (p lang : Option Bytes) (t : Text) (path : Path) :
    Translated τ id (text length p lang t path) (text length p lang t (τ.above ++ path)) :=
  (language_translated lang t path).bind fun _ =>
    (expect_translated _ path _).bind fun _ => pattern_translated p t path

theorem integer_translated (range : Range) (multipleOf : Option Int64) (i : Int64) (path : Path) :
    Translated τ id (integer range multipleOf i path)
      (integer range multipleOf i (τ.above ++ path)) := by
  refine (expect_translated _ path _).bind fun _ => ?_
  cases multipleOf with
  | none => exact .pure rfl
  | some m => exact expect_translated _ path _

theorem float_translated (range : Range) (multipleOf : Option Number) (x : Binary64) (path : Path) :
    Translated τ id (float range multipleOf x path)
      (float range multipleOf x (τ.above ++ path)) := by
  refine (expect_translated _ path _).bind fun _ => ?_
  cases multipleOf with
  | none => exact .pure rfl
  | some m => exact expect_translated _ path _

theorem keyShape_translated (l : Literal) (path : Path) (shape : Shape SchemaId) :
    Translated τ id (keyShape l path shape)
      (keyShape l (τ.above ++ path) (shape.mapTypes τ.type)) := by
  cases shape with
  | any => exact .pure rfl
  | literal expected => exact expect_translated _ path _
  | text length p lang =>
      cases l with
      | text t => exact text_translated length p lang _ path
      | _ => exact .report path _
  | integer range multipleOf =>
      cases l with
      | int i => exact integer_translated range multipleOf i path
      | _ => exact .report path _
  | boolean =>
      cases l with
      | bool b => exact .pure rfl
      | _ => exact .report path _
  | _ => exact .report path _

theorem key_translated {s s' : Schema} (schemas : s.Translated τ s') (x : SchemaId) (k : Key)
    (path : Path) :
    Translated τ id (key s x k path) (key s' (τ.type x) k (τ.above ++ path)) := by
  refine (schemas.follow x path).bind fun a => ?_
  cases a with
  | none => exact .pure rfl
  | some found => exact keyShape_translated k.value path found.2.shape

end Check

theorem unknownFields_translated (isKnown : Bytes → Bool) (entries : List (Key × Site)) :
    Translated τ id (unknownFields isKnown entries) (unknownFields isKnown (entries.map τ.entry)) :=
  .forM entries fun e => Check.expect_translated _ e.2.path _

/-- Whether one walk is another one with translated types. -/
structure Walk.Translated (w : Walk) (τ : Translation) (w' : Walk) : Prop where
  schema : w.schema.Translated τ w'.schema
  isLenient : w'.isLenient = w.isLenient
  check : ∀ x s, Walker.Translated τ id (w.check x s) (w'.check (τ.type x) (τ.site s))

namespace Walk

theorem duplicate?_translated (items : List Site) (index : Nat) (item : Site) :
    duplicate? (items.map τ.site) index (τ.site item) = duplicate? items index item := by
  unfold duplicate?
  rw [← List.map_take, List.findIdx?_map]
  rfl

theorem duplicates_translated (items : List Site) :
    Walker.Translated τ id (duplicates items) (duplicates (items.map τ.site)) := by
  have numbered : (items.map τ.site).mapIdx (fun i item => (i, item)) =
      (items.mapIdx fun i item => (i, item)).map fun e => (e.1, τ.site e.2) := by
    apply List.ext_getElem <;> simp
  unfold duplicates
  rw [numbered]
  refine .forM _ fun e => ?_
  obtain ⟨i, item⟩ := e
  dsimp only
  rw [duplicate?_translated]
  split
  · exact .report item.path _
  · exact .pure rfl

namespace Translated

variable {w w' : Walk} (walks : w.Translated τ w')

include walks

theorem field (s : Site) (f : Field SchemaId) :
    Walker.Translated τ id (w.field s f) (w'.field (τ.site s) (f.mapType τ.type)) := by
  unfold Walk.field
  rw [Field.mapType, τ.site_field?]
  cases s.field? f.name with
  | some part => exact walks.check f.schema part
  | none =>
      rw [τ.site_path, List.append_assoc]
      exact Check.expect_translated _ _ _

theorem record (fields : List (Field SchemaId)) (allowsUnknown : Bool) (tag : Option Bytes)
    (s : Site) :
    Walker.Translated τ id (w.record fields allowsUnknown tag s)
      (w'.record (fields.map (Field.mapType τ.type)) allowsUnknown tag (τ.site s)) := by
  unfold Walk.record
  rw [τ.site_entries?]
  cases s.entries? with
  | none => exact Check.wrongKind_translated "record" s
  | some entries =>
      refine (Walker.Translated.forM fields (walks.field s)).bind fun _ => ?_
      cases allowsUnknown with
      | true => exact .pure rfl
      | false =>
          simp only [List.any_map]
          exact unknownFields_translated _ entries

theorem array (item : SchemaId) (length : Counts) (isUnique : Bool) (s : Site) :
    Walker.Translated τ id (w.array item length isUnique s)
      (w'.array (τ.type item) length isUnique (τ.site s)) := by
  unfold Walk.array
  rw [τ.site_array?]
  cases s.array? with
  | none => exact Check.wrongKind_translated "array" s
  | some items =>
      dsimp only [Option.map_some]
      rw [List.length_map]
      refine (Check.expect_translated _ s.path _).bind fun _ => ?_
      refine (Walker.Translated.forM items (walks.check item)).bind fun _ => ?_
      cases isUnique with
      | true => exact duplicates_translated items
      | false => exact .pure rfl

theorem map (key value : SchemaId) (size : Counts) (s : Site) :
    Walker.Translated τ id (w.map key value size s)
      (w'.map (τ.type key) (τ.type value) size (τ.site s)) := by
  unfold Walk.map
  rw [τ.site_entries?]
  cases s.entries? with
  | none => exact Check.wrongKind_translated "map" s
  | some entries =>
      dsimp only [Option.map_some]
      rw [List.length_map]
      refine (Check.expect_translated _ s.path _).bind fun _ => ?_
      refine .forM entries fun e => ?_
      exact (Check.key_translated walks.schema key e.1 e.2.path).bind fun _ => walks.check value e.2

theorem tuple (elements : List SchemaId) (s : Site) :
    Walker.Translated τ id (w.tuple elements s) (w'.tuple (elements.map τ.type) (τ.site s)) := by
  unfold Walk.tuple
  rw [τ.site_tuple?]
  cases s.tuple? with
  | none => exact Check.wrongKind_translated "tuple" s
  | some sites =>
      dsimp only [Option.map_some]
      rw [List.length_map, List.length_map, List.zip_map]
      refine (Check.expect_translated _ s.path _).bind fun _ => ?_
      exact .forM _ fun e => walks.check e.1 e.2

end Translated

end Walk

end DocSchema
