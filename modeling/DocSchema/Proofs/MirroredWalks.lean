import DocSchema.Proofs.MirroredWalkers
import DocSchema.Proofs.Records
import DocSchema.Proofs.SameNumber

set_option autoImplicit false

namespace DocSchema

open Walker (Mirrors)

variable {root root' : Value} {s t : Site}

theorem Site.Mirrors.wrongKind (mirrors : s.Mirrors root root' t) (expected : Bytes) :
    Walker.Mirrors root root' Eq (Check.wrongKind expected s) (Check.wrongKind expected t) := by
  unfold Check.wrongKind
  rw [mirrors.path]
  exact .report s.path rfl

theorem Check.float_mirrors {x y : Binary64} (floats : x.same y = true) (range : Range)
    (multipleOf : Option Number) (path : Path) :
    Mirrors root root' Eq (float range multipleOf x path) (float range multipleOf y path) := by
  have same : (Number.float x).same (.float y) = true := floats
  unfold float
  refine .bind (.expect path (Range.admits_congr_left same range) rfl) fun _ _ _ => ?_
  cases multipleOf with
  | none => exact .pure rfl
  | some m => exact .expect path (Number.isMultipleOf_congr_left same m) rfl

/-- The unknown fields do not depend on the order of the entries. -/
theorem unknownFields_mirrors {es fs : List (Key × Site)}
    (entries : Reordered (EntryMirrors root root') es fs) (isKnown : Bytes → Bool) :
    Mirrors root root' Eq (unknownFields isKnown es) (unknownFields isKnown fs) := by
  refine .forM_reordered entries (fun e f same => ?_) (List.pairwise_of_forall fun e f => ?_)
  · rw [same.key, same.site.path]
    exact .expect e.2.path rfl rfl
  · exact (Check.expect_ensures _ _ _).apart _

/-- Whether the check of the level below treats mirrored sites alike, and selects only for the value
that it checks and for its parts. -/
structure Walk.IsMirrored (root root' : Value) (w : Walk) : Prop where
  check : ∀ id s t, s.Mirrors root root' t → Mirrors root root' Eq (w.check id s) (w.check id t)
  below : ∀ id s, (w.check id s).SelectsBelow s.position

namespace Walk

variable {w : Walk}

section Leaves

variable (mirrors : s.Mirrors root root' t) (id : SchemaId)
include mirrors

theorem shape_text (length : Counts) (pattern language : Option Bytes) :
    Mirrors root root' Eq (w.shape id s (.text length pattern language))
      (w.shape id t (.text length pattern language)) := by
  unfold Walk.shape
  dsimp only
  rw [mirrors.text?, mirrors.path]
  split
  · exact .of_ensures (Check.text_ensures length pattern language _ s.path)
  · exact mirrors.wrongKind "text"

theorem shape_integer (range : Range) (multipleOf : Option Int64) :
    Mirrors root root' Eq (w.shape id s (.integer range multipleOf))
      (w.shape id t (.integer range multipleOf)) := by
  unfold Walk.shape
  dsimp only
  rcases mirrors.primitive? with same | ⟨x, y, left, right, floats⟩
  · rw [same]
    split
    · rw [mirrors.path]
      exact .of_ensures (Check.integer_ensures range multipleOf _ s.path)
    · exact mirrors.wrongKind "integer"
  · rw [left, right]
    exact mirrors.wrongKind "integer"

theorem shape_float (range : Range) (multipleOf : Option Number) :
    Mirrors root root' Eq (w.shape id s (.float range multipleOf))
      (w.shape id t (.float range multipleOf)) := by
  unfold Walk.shape
  dsimp only
  rcases mirrors.primitive? with same | ⟨x, y, left, right, floats⟩
  · rw [same]
    split
    · rw [mirrors.path]
      exact .of_ensures (Check.float_ensures range multipleOf _ s.path)
    · exact mirrors.wrongKind "float"
  · rw [left, right]
    dsimp only
    rw [mirrors.path]
    exact Check.float_mirrors floats range multipleOf s.path

theorem shape_literal (expected : Value) :
    Mirrors root root' Eq (w.shape id s (.literal expected))
      (w.shape id t (.literal expected)) := by
  unfold Walk.shape
  dsimp only
  rw [mirrors.path, mirrors.equal.bare_left]
  exact .expect s.path rfl rfl

end Leaves

theorem duplicate?_mirrors {as bs : List Site}
    (items : List.Forall₂ (Site.Mirrors root root') as bs)
    {a b : Site} (item : a.Mirrors root root' b) (i : Nat) :
    duplicate? as i a = duplicate? bs i b := by
  unfold duplicate?
  refine findIdx?_congr (List.forall₂_take i items) fun c d earlier => ?_
  rw [earlier.equal.same_left, item.equal.same_right]

/-- What is a duplicate does not depend on the order of the entries inside. -/
theorem duplicates_mirrors {as bs : List Site}
    (items : List.Forall₂ (Site.Mirrors root root') as bs) :
    Mirrors root root' Eq (duplicates as) (duplicates bs) := by
  refine .forM (forall₂_mapIdx items.length_eq fun i left right => ?_)
  have item : as[i].Mirrors root root' bs[i] := items.get left right
  dsimp only
  rw [duplicate?_mirrors items item, item.path]
  split
  · exact .report _ rfl
  · exact .pure rfl

namespace IsMirrored

variable (walk : w.IsMirrored root root') (mirrors : s.Mirrors root root' t)
include walk mirrors

theorem field (f : Field SchemaId) : Mirrors root root' Eq (w.field s f) (w.field t f) := by
  unfold Walk.field
  rcases eq_of_rel (mirrors.field? f.name) with ⟨left, right⟩ | ⟨part, part', left, right, same⟩
  · rw [left, right, mirrors.path]
    exact .expect _ rfl rfl
  · rw [left, right]
    exact walk.check f.schema part part' same

theorem record (fields : List (Field SchemaId)) (allowsUnknown : Bool) (tag : Option Bytes) :
    Mirrors root root' Eq (w.record fields allowsUnknown tag s)
      (w.record fields allowsUnknown tag t) := by
  unfold Walk.record
  rcases eq_of_rel mirrors.entries? with ⟨left, right⟩ | ⟨es, fs, left, right, entries⟩
  · rw [left, right]
    exact mirrors.wrongKind "record"
  · rw [left, right]
    have declared : Mirrors root root' Eq (fields.forM (w.field s)) (fields.forM (w.field t)) :=
      .forM (List.forall₂_same.2 fun f _ => walk.field mirrors f)
    refine declared.bind fun _ _ _ => ?_
    split
    · exact .pure rfl
    · exact unknownFields_mirrors entries _

theorem array (item : SchemaId) (length : Counts) (isUnique : Bool) :
    Mirrors root root' Eq (w.array item length isUnique s) (w.array item length isUnique t) := by
  unfold Walk.array
  rcases eq_of_rel mirrors.array? with ⟨left, right⟩ | ⟨as, bs, left, right, items⟩
  · rw [left, right]
    exact mirrors.wrongKind "array"
  · rw [left, right]
    dsimp only
    rw [items.length_eq, mirrors.path]
    refine .bind (.expect s.path rfl rfl) fun _ _ _ => ?_
    refine .bind (.forM (items.imp fun {a b} => walk.check item a b)) fun _ _ _ => ?_
    split
    · exact duplicates_mirrors items
    · exact .pure rfl

/-- No two entries of a map lie at one position, so the order in which they are checked makes no
difference. -/
theorem map (key value : SchemaId) (size : Counts) :
    Mirrors root root' Eq (w.map key value size s) (w.map key value size t) := by
  unfold Walk.map
  rcases eq_of_rel mirrors.entries? with ⟨left, right⟩ | ⟨es, fs, left, right, entries⟩
  · rw [left, right]
    exact mirrors.wrongKind "map"
  · rw [left, right]
    dsimp only
    rw [entries.length_eq, mirrors.path]
    refine .bind (.expect s.path rfl rfl) fun _ _ _ => ?_
    have below (e : Key × Site) : Walker.SelectsBelow e.2.position
        (do Check.key w.schema key e.1 e.2.path; w.check value e.2) :=
      .after Check.key_ensures (walk.below value e.2)
    refine .forM_reordered entries (fun e f same => ?_) ?_
    · rw [same.key, same.site.path]
      exact .bind (.of_ensures Check.key_ensures) fun _ _ _ => walk.check value e.2 f.2 same.site
    · exact (Selection.separate_of_apart (Site.apart_entries right)).imp fun {e f} separate =>
        (below e).apart (below f) separate

theorem tuple (types : List SchemaId) :
    Mirrors root root' Eq (w.tuple types s) (w.tuple types t) := by
  unfold Walk.tuple
  rcases eq_of_rel mirrors.tuple? with ⟨left, right⟩ | ⟨as, bs, left, right, elements⟩
  · rw [left, right]
    exact mirrors.wrongKind "tuple"
  · rw [left, right]
    dsimp only
    rw [elements.length_eq, mirrors.path]
    refine .bind (.expect s.path rfl rfl) fun _ _ _ => ?_
    have pairs := forall₂_zip (List.forall₂_same.2 fun x (_ : x ∈ types) => Eq.refl x) elements
    refine .forM (pairs.imp fun {p q} same => ?_)
    rw [same.1]
    exact walk.check q.1 p.2 q.2 same.2

end IsMirrored

end Walk

end DocSchema
