import DocSchema.Proofs.Origins
import DocSchema.Proofs.Sites

set_option autoImplicit false

namespace DocSchema

namespace Value

mutual

/-- The number of nodes on the longest path from the root to a leaf, extensions not counted. -/
def height : Value → Nat
  | .node c _ => 1 + heightContent c

def heightContent : Content Value → Nat
  | .hole => 0
  | .primitive _ => 0
  | .map es => heightEntries es
  | .array vs => heightList vs
  | .tuple vs => heightList vs

def heightEntries : List (Key × Value) → Nat
  | [] => 0
  | (_, v) :: es => max v.height (heightEntries es)

def heightList : List Value → Nat
  | [] => 0
  | v :: vs => max v.height (heightList vs)

end

theorem height_pos (v : Value) : 0 < v.height := by
  cases v
  rw [height]
  omega

theorem height_le_heightEntries {e : Key × Value} {es : List (Key × Value)} (inside : e ∈ es) :
    e.2.height ≤ heightEntries es := by
  induction es with
  | nil => cases inside
  | cons first es ih =>
      obtain ⟨key, v⟩ := first
      rw [heightEntries]
      rcases List.mem_cons.1 inside with rfl | later
      · exact Nat.le_max_left _ _
      · exact Nat.le_trans (ih later) (Nat.le_max_right _ _)

theorem height_le_heightList {v : Value} {vs : List Value} (inside : v ∈ vs) :
    v.height ≤ heightList vs := by
  induction vs with
  | nil => cases inside
  | cons first vs ih =>
      rw [heightList]
      rcases List.mem_cons.1 inside with rfl | later
      · exact Nat.le_max_left _ _
      · exact Nat.le_trans (ih later) (Nat.le_max_right _ _)

/-- A part has less height than the whole. -/
theorem height_lt {v part : Value} (inside : part ∈ v.content.parts) : part.height < v.height := by
  obtain ⟨c, x⟩ := v
  have below : part.height ≤ heightContent c := by
    cases c with
    | hole | primitive => cases inside
    | map es =>
        obtain ⟨e, member, rfl⟩ := List.mem_map.1 inside
        exact height_le_heightEntries member
    | array vs | tuple vs => exact height_le_heightList inside
  rw [height]
  omega

end Value

namespace Shape

/-- Whether a type demands of a value what it is, where `R` says what is demanded of the parts. Of
the items of an array something is demanded even if there are none. -/
inductive Fits {α : Type} (R : α → Value → Prop) : Shape α → Value → Prop
  | any (v : Value) : Fits R .any v
  | null (x : List (Bytes × Value)) : Fits R .null (.node (.primitive .null) x)
  | boolean (b : Bool) (x : List (Bytes × Value)) : Fits R .boolean (.node (.primitive (.bool b)) x)
  | integer (i : Int64) (x : List (Bytes × Value)) :
      Fits R (.integer {} none) (.node (.primitive (.int i)) x)
  | float (f : Binary64) (x : List (Bytes × Value)) :
      Fits R (.float {} none) (.node (.primitive (.float f)) x)
  | text (t : Text) (x : List (Bytes × Value)) :
      Fits R (.text {} none none) (.node (.primitive (.text t)) x)
  | array {item : α} {sample : Value} {vs : List Value} (demanded : R item sample)
      (items : ∀ v ∈ vs, R item v)
      (x : List (Bytes × Value)) :
      Fits R (.array item {} false) (.node (.array vs) x)
  | tuple {types : List α} {vs : List Value} (elements : List.Forall₂ R types vs)
      (x : List (Bytes × Value)) :
      Fits R (.tuple types) (.node (.tuple vs) x)
  | record {fields : List (Field α)} {es : List (Key × Value)}
      (named : List.Forall₂ (fun f e => e.1.spelling? = some f.name ∧ R f.schema e.2) fields es)
      (distinct : (fields.map (·.name)).Nodup) (x : List (Bytes × Value)) :
      Fits R (.record fields false) (.node (.map es) x)

variable {α : Type} {R : α → Value → Prop}

theorem Fits.solid {shape : Shape α} {v : Value} (fits : shape.Fits R v) (name : Bytes) :
    shape ≠ .reference name := by
  rintro rfl
  cases fits

/-- The entry that is found for a field is the one that the field is for. -/
theorem exists_part {fields : List (Field α)} {es : List (Key × Value)}
    (named : List.Forall₂ (fun f e => e.1.spelling? = some f.name ∧ R f.schema e.2) fields es)
    (distinct : (fields.map (·.name)).Nodup) {s : Site} (map : s.value.content = .map es)
    {f : Field α} (declared : f ∈ fields) :
    ∃ part, s.field? f.name = some part ∧ part.value ∈ es.map (·.2) ∧ R f.schema part.value := by
  have holds := Site.field?_holds map f.name
  cases found : s.field? f.name with
  | none =>
      rw [found] at holds
      cases holds with
      | absent unspelled =>
          obtain ⟨e, inside, spelled, -⟩ := exists_of_mem_right named.flip f declared
          exact absurd spelled (unspelled e inside)
  | some part =>
      rw [found] at holds
      cases holds with
      | present member spelled =>
          obtain ⟨f', declared', spelled', fits⟩ := exists_of_mem_right named _ member
          have name : f'.name = f.name := Option.some.inj (spelled'.symm.trans spelled)
          have same : f' = f := List.inj_on_of_nodup_map distinct declared' declared name
          exact ⟨part, rfl, List.mem_map_of_mem (f := (·.2)) member, same ▸ fits⟩

end Shape

namespace Schema

/-- Whether the type of the given id demands of a value what it is, and the types below it of the
parts what they are. -/
inductive Describes (schema : Schema) : SchemaId → Value → Prop
  | intro {id : SchemaId} {shape : Shape SchemaId} {v : Value} {R : SchemaId → Value → Prop}
      (found : schema.node? id = some ⟨shape, {}⟩) (fits : shape.Fits R v)
      (below : ∀ i part, R i part → Describes schema i part) : Describes schema id v

variable {schema : Schema} {settings : Settings} {id : SchemaId} {node : SchemaNode} {s : Site}

theorem resolve_solid (found : schema.node? id = some node)
    (solid : ∀ name, node.shape ≠ .reference name) :
    schema.resolve id = .found id node := by
  obtain ⟨shape, metadata⟩ := node
  rw [resolve, follow, found]
  cases shape with
  | reference name => exact absurd rfl (solid name)
  | _ => rfl

/-- The check of a value that fits is silent if the checks of its parts are. -/
theorem shape_silent {w : Walk} {R : SchemaId → Value → Prop} {shape : Shape SchemaId}
    (fits : shape.Fits R s.value)
    (below : ∀ i (part : Site), part.value ∈ s.value.content.parts → R i part.value →
      (w.check i part).log = .ok ((), {})) :
    (w.shape id s shape).log = .ok ((), {}) := by
  obtain ⟨v, path, position⟩ := s
  cases fits with
  | any | null | boolean | integer | float | text => rfl
  | @array item sample vs demanded items x =>
      obtain ⟨sites, found, same⟩ :=
        Site.array?_array (s := ⟨.node (.array vs) x, path, position⟩) rfl
      simp only [Walk.shape, Walk.array, found]
      refine (Walker.log_bind_of_log rfl _).trans ?_
      refine (Walker.log_bind_of_log (Walker.log_forM_of_log fun part member => ?_) _).trans rfl
      have inside : part.value ∈ vs := same ▸ List.mem_map_of_mem member
      exact below item part inside (items part.value inside)
  | @tuple types vs elements x =>
      obtain ⟨sites, found, same⟩ :=
        Site.tuple?_tuple (s := ⟨.node (.tuple vs) x, path, position⟩) rfl
      rw [← same, List.forall₂_map_right_iff] at elements
      have arity : (Check.expect (types.length == sites.length) path
          (.wrongArity types.length sites.length)).log = .ok ((), {}) := by
        rw [elements.length_eq, beq_self_eq_true]
        rfl
      simp only [Walk.shape, Walk.tuple, found]
      refine (Walker.log_bind_of_log arity _).trans (Walker.log_forM_of_log fun e member => ?_)
      have inside : e.2.value ∈ vs := same ▸ List.mem_map_of_mem (List.of_mem_zip member).2
      exact below e.1 e.2 inside ((List.forall₂_iff_zip.1 elements).2 member)
  | @record fields es named distinct x =>
      obtain ⟨sites, found, same⟩ :=
        Site.entries?_map (s := ⟨.node (.map es) x, path, position⟩) rfl
      simp only [Walk.shape, Walk.record, found]
      refine (Walker.log_bind_of_log (Walker.log_forM_of_log fun f declared => ?_) _).trans ?_
      · obtain ⟨part, present, inside, fits⟩ :=
          Shape.exists_part (s := ⟨.node (.map es) x, path, position⟩) named distinct rfl declared
        rw [Walk.field, present]
        exact below f.schema part inside fits
      · refine Walker.log_forM_of_log fun e member => ?_
        have inside : (e.1, e.2.value) ∈ es :=
          same ▸ List.mem_map_of_mem (f := fun e : Key × Site => (e.1, e.2.value)) member
        obtain ⟨f, declared, spelled, -⟩ := exists_of_mem_right named _ inside
        have known : (e.1.spelling?.any fun name => none == some name || fields.any (·.name == name)) = true := by
          rw [spelled, Option.any_some, Bool.or_eq_true, List.any_eq_true]
          exact .inr ⟨f, declared, beq_self_eq_true _⟩
        rw [known]
        rfl

/-- Where a type describes a value, the check of the value is silent if there are levels enough. -/
theorem Describes.check_silent {v : Value} (described : schema.Describes id v) (depth : Nat)
    (path : Path) (position : List Nat) (enough : v.height ≤ depth) :
    (schema.check settings depth id ⟨v, path, position⟩).log = .ok ((), {}) := by
  induction described generalizing depth path position with
  | @intro id shape v R found fits below ih =>
      cases depth with
      | zero => exact absurd enough (Nat.not_le.2 v.height_pos)
      | succ depth =>
          rw [check_log (resolve_solid found fits.solid)]
          split
          · rfl
          · have plain : schema.isDeprecated id = false := by rw [isDeprecated, found]; rfl
            rw [plain]
            refine (Walker.log_bind_of_log rfl _).trans
              (shape_silent fits fun i part inside demanded => ?_)
            have lower := Value.height_lt inside
            exact ih i part.value demanded depth part.path part.position
              (by dsimp only at lower; omega)

/-- What has to be complete in a value that fits are parts that fit. -/
theorem required_fits {R : SchemaId → Value → Prop} {shape : Shape SchemaId}
    (table : List Selection)
    (fits : shape.Fits R s.value) : ∀ c ∈ s.required table id shape, R c.1 c.2.1.value := by
  obtain ⟨v, path, position⟩ := s
  cases fits with
  | any | null | boolean | integer | float | text => simp [Site.required]
  | @array item sample vs demanded items x =>
      obtain ⟨sites, found, same⟩ :=
        Site.array?_array (s := ⟨.node (.array vs) x, path, position⟩) rfl
      rw [Site.required, found, Option.getD_some, List.forall_mem_map]
      exact fun part member => items part.value (same ▸ List.mem_map_of_mem member)
  | @tuple types vs elements x =>
      obtain ⟨sites, found, same⟩ :=
        Site.tuple?_tuple (s := ⟨.node (.tuple vs) x, path, position⟩) rfl
      rw [← same, List.forall₂_map_right_iff] at elements
      rw [Site.required, found, Option.getD_some, List.forall_mem_map]
      exact fun e member => (List.forall₂_iff_zip.1 elements).2 member
  | @record fields es named distinct x =>
      intro c member
      obtain ⟨f, declared, mapped⟩ := List.mem_filterMap.1 member
      obtain ⟨part, present, -, fits⟩ :=
        Shape.exists_part (s := ⟨.node (.map es) x, path, position⟩) named distinct rfl declared
      rw [present] at mapped
      cases mapped
      exact fits

/-- So is the search for holes. -/
theorem Describes.complete_silent {v : Value} (described : schema.Describes id v)
    (table : List Selection) (depth : Nat) (path : Path) (position : List Nat) (isOptional : Bool) :
    (schema.complete table depth id ⟨v, path, position⟩ isOptional).log = .ok ((), {}) := by
  induction described generalizing depth path position isOptional with
  | @intro id shape v R found fits below ih =>
      cases depth with
      | zero => rfl
      | succ depth =>
          have target : schema.target id path = .ok (.node id ⟨shape, {}⟩) := by
            rw [Schema.target, resolve_solid found fits.solid]
          rw [complete, target]
          refine (Walker.log_bind_of_log (Walker.log_pure (Target.node id ⟨shape, {}⟩)) _).trans ?_
          dsimp only
          split
          · next hole =>
            -- Only a type that demands nothing fits a hole.
            have anything : Check.hole path isOptional shape = pure () := by
              cases fits with
              | any => simp [Check.hole, Shape.isAny]
              | _ => cases hole
            rw [anything]
            rfl
          · refine Walker.log_forM_of_log fun c member => ?_
            have demanded := required_fits (s := ⟨v, path, position⟩) table fits c member
            exact ih c.1 c.2.1.value demanded depth c.2.1.path c.2.1.position c.2.2

end Schema

end DocSchema
