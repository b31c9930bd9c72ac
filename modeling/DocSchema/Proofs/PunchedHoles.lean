import DocSchema.Proofs.Alike
import DocSchema.Proofs.Failures
import DocSchema.Proofs.Origins
import DocSchema.Proofs.Punching

set_option autoImplicit false

namespace DocSchema

/-- Whether a shape makes its demands part by part, so that a hole only takes some of them away. A
literal is compared as a whole, and a union may look for its tag anywhere below. -/
def Shape.passesHoles {α : Type} : Shape α → Bool
  | .literal _ => false
  | .union .. => false
  | _ => true

/-- Whether all types that are reached make their demands part by part. -/
def Schema.PassesHoles (schema : Schema) (start : SchemaId) : Prop :=
  ∀ id node, schema.Reaches start id → schema.node? id = some node → node.shape.passesHoles = true

/-- Whether the errors of the second list are errors of the first one, in order, or else are allowed
as new. -/
inductive Thins (allowed : Finding → Prop) : List Finding → List Finding → Prop
  | nil : Thins allowed [] []
  | lost {e : Finding} {es fs : List Finding} (rest : Thins allowed es fs) :
      Thins allowed (e :: es) fs
  | kept {e f : Finding} {es fs : List Finding} (same : f.summary = e.summary)
      (rest : Thins allowed es fs) :
      Thins allowed (e :: es) (f :: fs)
  | new {f : Finding} {es fs : List Finding} (holds : allowed f) (rest : Thins allowed es fs) :
      Thins allowed es (f :: fs)

namespace Thins

variable {allowed : Finding → Prop} {es es' fs fs' : List Finding}

theorem none (es : List Finding) : Thins allowed es [] := by
  induction es with
  | nil => exact .nil
  | cons e es ih => exact .lost ih

theorem all (new : ∀ f ∈ fs, allowed f) (es : List Finding) : Thins allowed es fs := by
  induction fs with
  | nil => exact .none es
  | cons f fs ih =>
      exact .new (new f List.mem_cons_self)
        (ih fun g member => new g (List.mem_cons_of_mem f member))

theorem of_summaries (same : fs.map Finding.summary = es.map Finding.summary) :
    Thins allowed es fs := by
  induction es generalizing fs with
  | nil =>
      cases List.map_eq_nil_iff.1 same
      exact .nil
  | cons e es ih =>
      obtain ⟨f, fs, rfl, first, rest⟩ := List.map_eq_cons_iff.1 same
      exact .kept first (ih rest)

theorem append (first : Thins allowed es fs) (second : Thins allowed es' fs') :
    Thins allowed (es ++ es') (fs ++ fs') := by
  induction first with
  | nil => exact second
  | lost rest ih => exact .lost ih
  | kept same rest ih => exact .kept same ih
  | new holds rest ih => exact .new holds ih

/-- The kept errors and the new ones. -/
theorem split (thins : Thins allowed es fs) : ∃ kept new, fs.Perm (kept ++ new) ∧
    (kept.map Finding.summary).Sublist (es.map Finding.summary) ∧ ∀ e ∈ new, allowed e := by
  induction thins with
  | nil => exact ⟨[], [], .refl _, .refl _, List.forall_mem_nil _⟩
  | lost rest ih =>
      obtain ⟨kept, new, perm, sublist, holds⟩ := ih
      exact ⟨kept, new, perm, sublist.cons _, holds⟩
  | @kept e f es fs same rest ih =>
      obtain ⟨kept, new, perm, sublist, holds⟩ := ih
      refine ⟨f :: kept, new, perm.cons f, ?_, holds⟩
      rw [List.map_cons, List.map_cons, same]
      exact sublist.cons_cons _
  | @new f es fs hold rest ih =>
      obtain ⟨kept, new, perm, sublist, holds⟩ := ih
      exact ⟨kept, f :: new, (perm.cons f).trans List.perm_middle.symm, sublist,
        List.forall_mem_cons.2 ⟨hold, holds⟩⟩

end Thins

/-- Whether the second check ends where the first one does, with no errors but those of the first
one and such as are allowed as new. -/
def Walker.Thins (allowed : Finding → Prop) (x y : Check) : Prop :=
  ∀ f, x.log = .ok ((), f) → ∃ g, y.log = .ok ((), g) ∧ DocSchema.Thins allowed f.errors g.errors

namespace Walker.Thins

variable {allowed : Finding → Prop} {x x' y y' : Check}

theorem of_alike (alike : Alike Eq x y) : x.Thins allowed y := by
  intro f logged
  cases alike with
  | failed left right failures => cases left.symm.trans logged
  | found left right results findings =>
      cases left.symm.trans logged
      exact ⟨_, right, .of_summaries findings.errors.symm⟩

theorem of_eq (same : y = x) : x.Thins allowed y :=
  fun f logged => ⟨f, same ▸ logged, .of_summaries rfl⟩

/-- A check with no errors but new ones. -/
theorem of_log {g : Findings} (logged : y.log = .ok ((), g)) (new : ∀ e ∈ g.errors, allowed e) :
    x.Thins allowed y :=
  fun f _ => ⟨g, logged, .all new f.errors⟩

theorem pure : x.Thins allowed (Pure.pure ()) :=
  .of_log rfl (List.forall_mem_nil _)

theorem bind (first : x.Thins allowed y) (second : x'.Thins allowed y') :
    (x >>= fun _ => x').Thins allowed (y >>= fun _ => y') := by
  intro f logged
  obtain ⟨⟨⟩, before, after, found, rest, rfl⟩ := bind_log logged
  obtain ⟨g, found', thins⟩ := first before found
  obtain ⟨g', rest', thins'⟩ := second after rest
  exact ⟨g ++ g', log_bind_ok found' rest', thins.append thins'⟩

/-- Checks that go on with what one walker gives. -/
theorem after {α : Type} {x : Walker α} {h k : α → Check}
    (further : ∀ a f, x.log = .ok (a, f) → (h a).Thins allowed (k a)) :
    (x >>= h).Thins allowed (x >>= k) := by
  intro f logged
  obtain ⟨a, before, after, found, rest, rfl⟩ := bind_log logged
  obtain ⟨g, rest', thins⟩ := further a before found after rest
  exact ⟨before ++ g, log_bind_ok found rest', DocSchema.Thins.append (.of_summaries rfl) thins⟩

theorem forM {α β : Type} {as : List α} {bs : List β} {h : α → Check} {k : β → Check}
    (each : List.Forall₂ (fun a b => (h a).Thins allowed (k b)) as bs) :
    (as.forM h).Thins allowed (bs.forM k) := by
  induction each with
  | nil => exact .pure
  | cons first rest ih => exact first.bind ih

end Walker.Thins

/-- Whether an error is that an item of an array with a hole in it equals an earlier one, where a
type that is reached asks for different items. -/
inductive RepeatsHole (schema : Schema) (start : SchemaId) (e : Document) (n : NodeId) :
    Finding → Prop
  | intro {id item : SchemaId} {length : Counts} {metadata : Metadata} {path : Path} {i first : Nat}
      {a b : NodeId}
      (reached : schema.Reaches start id)
      (found : schema.node? id = some ⟨.array item length true, metadata⟩)
      (earlier : first < i) (left : e.Leads n (path ++ [.array (some first)]) a)
      (right : e.Leads n (path ++ [.array (some i)]) b)
      (same : (e.valueAt a).same (e.valueAt b) = true)
      (hole : (e.valueAt b).HasHole) :
      RepeatsHole schema start e n ⟨path ++ [.array (some i)], .duplicateItem first⟩

theorem Site.array?_path {s : Site} {items : List Site} (found : s.array? = some items) {i : Nat}
    (inside : i < items.length) : items[i].path = s.path ++ [.array (some i)] := by
  obtain ⟨vs, -, rfl⟩ := Option.map_eq_some_iff.1 found
  simp [Site.part]

/-- An item that is reported as a duplicate equals an earlier one. -/
theorem Walk.duplicate?_some {items : List Site} {item : Site} {i first : Nat}
    (inside : i < items.length) (found : duplicate? items i item = some first) :
    ∃ earlier : first < i, items[first].value.same item.value = true := by
  obtain ⟨less, same, -⟩ := List.findIdx?_eq_some_iff_getElem.1 found
  rw [List.length_take] at less
  rw [List.getElem_take] at same
  exact ⟨by omega, same⟩

section Walks

variable {d e : Document} {n : NodeId} {s t : Site} {w : Walk} {allowed : Finding → Prop}
  (punches : d.Punches e) (ordered : d.IsOrdered)
include punches ordered

/-- An item that has no hole and equals an earlier one did so before. -/
theorem Walk.duplicate?_punches {xs ys : List Site}
    (items : List.Forall₂ (Site.Punches d e n) xs ys) {i first : Nat}
    (left : i < xs.length) (right : i < ys.length) (filled : ¬ ys[i].value.HasHole)
    (found : duplicate? ys i ys[i] = some first) :
    ∃ first', duplicate? xs i xs[i] = some first' := by
  have ordered' := punches.isOrdered ordered
  obtain ⟨earlier, same⟩ := duplicate?_some right found
  have punched := items.get left right
  have punched' := items.get (Nat.lt_trans earlier left) (Nat.lt_trans earlier right)
  rw [List.get_eq_getElem, List.get_eq_getElem] at punched punched'
  have unique {x y : Site} (related : x.Punches d e n y) : y.value.HasUniqueKeys := by
    obtain ⟨m, -, -, -, after⟩ := related
    rw [after]
    exact ordered'.hasUniqueKeys m
  have filled' : ¬ ys[first].value.HasHole := fun hole =>
    filled (hole.of_same (unique punched') (unique punched) same)
  rw [punched.value_eq punches ordered filled, punched'.value_eq punches ordered filled'] at same
  refine Option.isSome_iff_exists.1
    (List.findIdx?_isSome.trans (List.any_eq_true.2 ⟨xs[first], ?_, same⟩))
  exact List.mem_take_iff_getElem.2 ⟨first, by omega, rfl⟩

/-- The items of an array that are reported as duplicates were reported before, unless they have
holes. -/
theorem Walk.duplicates_thins {schema : Schema} {start id item : SchemaId} {length : Counts}
    {metadata : Metadata}
    (reached : schema.Reaches start id)
    (found : schema.node? id = some ⟨.array item length true, metadata⟩)
    {xs ys : List Site} (items : List.Forall₂ (Site.Punches d e n) xs ys)
    (paths : ∀ i (inside : i < ys.length), ys[i].path = t.path ++ [.array (some i)]) :
    (duplicates xs).Thins (RepeatsHole schema start e n) (duplicates ys) := by
  refine .forM (forall₂_mapIdx items.length_eq fun i left right => ?_)
  dsimp only
  have punched := items.get left right
  rw [List.get_eq_getElem, List.get_eq_getElem] at punched
  cases again : duplicate? ys i ys[i] with
  | none => exact .pure
  | some first =>
      dsimp only
      by_cases hole : ys[i].value.HasHole
      · -- only here is something new: the item equals an earlier one that has a hole as well
        obtain ⟨earlier, same⟩ := duplicate?_some right again
        obtain ⟨b, leads, -, -, after⟩ := punched
        have punched' := items.get (Nat.lt_trans earlier left) (Nat.lt_trans earlier right)
        rw [List.get_eq_getElem, List.get_eq_getElem] at punched'
        obtain ⟨a, leads', -, -, after'⟩ := punched'
        rw [paths] at leads leads'
        rw [after] at same hole
        rw [after'] at same
        refine .of_log rfl (List.forall_mem_singleton.2 ?_)
        rw [paths]
        exact .intro reached found earlier leads' leads same hole
      · obtain ⟨first', before⟩ := duplicate?_punches punches ordered items left right hole again
        rw [before, punched.path]
        exact .of_alike (.report _ rfl)

variable (same : s.Punches d e n t) (filled : t.value.content.isHole = false)
include same filled

theorem Check.wrongKind_punches (expected : Bytes) :
    Check.wrongKind expected t = Check.wrongKind expected s := by
  unfold Check.wrongKind
  rw [same.path, same.kindName punches ordered filled]

namespace Walk

theorem field_thins {f : Field SchemaId}
    (part : ∀ s t, s.Punches d e n t → (w.check f.schema s).Thins allowed (w.check f.schema t)) :
    (w.field s f).Thins allowed (w.field t f) := by
  unfold field
  rcases eq_of_rel (same.field? punches ordered filled f.name) with ⟨left, right⟩ | ⟨x, y, left, right, below⟩
  · rw [left, right, same.path]
    exact .of_eq rfl
  · rw [left, right]
    exact part x y below

theorem record_thins {fields : List (Field SchemaId)} {allowsUnknown : Bool}
    (parts : ∀ f ∈ fields,
      ∀ s t, s.Punches d e n t → (w.check f.schema s).Thins allowed (w.check f.schema t)) :
    (w.record fields allowsUnknown none s).Thins allowed
      (w.record fields allowsUnknown none t) := by
  unfold record
  rcases eq_of_rel (same.entries? punches ordered filled) with ⟨left, right⟩ | ⟨xs, ys, left, right, entries⟩
  · rw [left, right]
    exact .of_eq (Check.wrongKind_punches punches ordered same filled _)
  · rw [left, right]
    refine .bind (.forM (List.forall₂_same.2 fun f member => ?_)) ?_
    · exact field_thins punches ordered same filled (parts f member)
    · split
      · exact .pure
      · refine .forM (entries.imp fun x y entry => ?_)
        rw [entry.key, entry.site.path]
        exact .of_eq rfl

theorem array_thins {schema : Schema} {start id item : SchemaId} {length : Counts} {isUnique : Bool}
    {metadata : Metadata} (reached : schema.Reaches start id)
    (found : schema.node? id = some ⟨.array item length isUnique, metadata⟩)
    (parts : ∀ s t, s.Punches d e n t →
      (w.check item s).Thins (RepeatsHole schema start e n) (w.check item t)) :
    (w.array item length isUnique s).Thins (RepeatsHole schema start e n)
      (w.array item length isUnique t) := by
  unfold array
  rcases eq_of_rel (same.array? punches ordered filled) with ⟨left, right⟩ | ⟨xs, ys, left, right, items⟩
  · rw [left, right]
    exact .of_eq (Check.wrongKind_punches punches ordered same filled _)
  · rw [left, right]
    dsimp only
    rw [items.length_eq, same.path]
    refine .bind (.of_eq rfl) (.bind (.forM (items.imp fun x y => parts x y)) ?_)
    cases isUnique with
    | false => exact .pure
    | true =>
        exact duplicates_thins punches ordered reached found items
          fun i inside => Site.array?_path right inside

theorem map_thins {key value : SchemaId} {size : Counts}
    (parts : ∀ s t, s.Punches d e n t → (w.check value s).Thins allowed (w.check value t)) :
    (w.map key value size s).Thins allowed (w.map key value size t) := by
  unfold map
  rcases eq_of_rel (same.entries? punches ordered filled) with ⟨left, right⟩ | ⟨xs, ys, left, right, entries⟩
  · rw [left, right]
    exact .of_eq (Check.wrongKind_punches punches ordered same filled _)
  · rw [left, right]
    dsimp only
    rw [entries.length_eq, same.path]
    refine .bind (.of_eq rfl) (.forM (entries.imp fun x y entry => ?_))
    rw [entry.key, entry.site.path]
    exact .bind (.of_eq rfl) (parts x.2 y.2 entry.site)

theorem tuple_thins {types : List SchemaId}
    (parts : ∀ type ∈ types,
      ∀ s t, s.Punches d e n t → (w.check type s).Thins allowed (w.check type t)) :
    (w.tuple types s).Thins allowed (w.tuple types t) := by
  unfold tuple
  rcases eq_of_rel (same.tuple? punches ordered filled) with ⟨left, right⟩ | ⟨xs, ys, left, right, elements⟩
  · rw [left, right]
    exact .of_eq (Check.wrongKind_punches punches ordered same filled _)
  · rw [left, right]
    dsimp only
    rw [elements.length_eq, same.path]
    refine .bind (.of_eq rfl) (.forM ?_)
    have known : List.Forall₂ (fun x y => x = y ∧ x ∈ types) types types :=
      List.forall₂_same.2 fun type member => ⟨rfl, member⟩
    refine (forall₂_zip known elements).imp fun x y related => ?_
    obtain ⟨⟨type, member⟩, element⟩ := related
    rw [← type]
    exact parts x.1 member x.2 y.2 element

/-- A check against a shape that holes pass reports no more, provided that those of the parts do
not. -/
theorem shape_thins {schema : Schema} {start id : SchemaId} {node : SchemaNode}
    (reached : schema.Reaches start id)
    (found : schema.node? id = some node) (passes : node.shape.passesHoles = true)
    (parts : ∀ child ∈ node.shape.children, ∀ s t, s.Punches d e n t →
      (w.check child s).Thins (RepeatsHole schema start e n) (w.check child t)) :
    (w.shape id s node.shape).Thins (RepeatsHole schema start e n) (w.shape id t node.shape) := by
  obtain ⟨shape, metadata⟩ := node
  have kind := Check.wrongKind_punches punches ordered same filled
  cases shape with
  | text | integer | float | boolean | null | any =>
      refine .of_eq ?_
      unfold Walk.shape
      simp only [same.text? punches ordered filled, same.primitive? punches ordered filled, kind,
        same.path]
  | literal | union => cases passes
  | reference name =>
      intro f logged
      cases logged
  | record fields allowsUnknown =>
      exact record_thins punches ordered same filled
        fun f member => parts f.schema (List.mem_map_of_mem member)
  | array item length isUnique =>
      exact array_thins punches ordered same filled reached found (parts item List.mem_cons_self)
  | map key value size =>
      exact map_thins punches ordered same filled
        (parts value (List.mem_cons_of_mem key List.mem_cons_self))
  | tuple types => exact tuple_thins punches ordered same filled parts

end Walk

end Walks

/-- A structural pass reports no more where nodes were replaced by holes, `level` levels down, but
for repeated holes. -/
theorem Schema.check_thins {schema : Schema} {start : SchemaId} {d e : Document} {n : NodeId}
    (punches : d.Punches e)
    (ordered : d.IsOrdered) (passes : schema.PassesHoles start) (settings : Settings) (level : Nat)
    {id : SchemaId} (reached : schema.Reaches start id) {s t : Site} (same : s.Punches d e n t) :
    (schema.check settings level id s).Thins (RepeatsHole schema start e n)
      (schema.check settings level id t) := by
  induction level generalizing id s t with
  | zero =>
      unfold check
      rw [same.path]
      exact .of_eq rfl
  | succ level ih =>
      unfold check
      rw [same.path]
      refine .after fun followed f logged => ?_
      cases followed with
      | none => exact .pure
      | some target =>
          obtain ⟨⟨reached', found, -⟩, -⟩ := (follow_explained reached s.path).found _ _ logged |>.imp_left
            fun known => known target rfl
          dsimp only
          cases filled : t.value.content.isHole with
          | true => exact .pure
          | false =>
              rw [same.isHole punches ordered filled]
              refine .bind (.of_eq rfl) ?_
              exact Walk.shape_thins punches ordered same filled reached' found (passes _ _ reached' found)
                fun child member s t below => ih (reached'.child found member) below

/-- Holes in the place of nodes only take errors away from the structural pass, whatever the level:
what it then reports are errors of before, by their kinds and paths and in their order, and repeated
holes in arrays the items of which have to be different. -/
theorem structuralPass_punched {d e : Document} (built : d.IsBuilt) (punches : d.Punches e)
    {schema : Schema}
    {id : SchemaId} (passes : schema.PassesHoles id) {settings : Settings} {level : Nat}
    {n : NodeId} {f : Findings}
    (checked : (schema.check settings level id ⟨d.valueAt n, [], []⟩).log = .ok ((), f)) :
    ∃ g kept new, (schema.check settings level id ⟨e.valueAt n, [], []⟩).log = .ok ((), g) ∧
      g.errors.Perm (kept ++ new) ∧
      (kept.map Finding.summary).Sublist (f.errors.map Finding.summary) ∧
      ∀ x ∈ new, RepeatsHole schema id e n x := by
  obtain ⟨g, checked', thins⟩ :=
    Schema.check_thins punches built.isOrdered passes settings level .start (.root d e n) f checked
  obtain ⟨kept, new, errors, before, repeats⟩ := thins.split
  exact ⟨g, kept, new, checked', errors, before, repeats⟩

private def pair : Document :=
  ⟨#[⟨.array [1, 2], []⟩, ⟨.primitive (.int 1), []⟩, ⟨.primitive (.int 2), []⟩]⟩

private theorem pair_isBuilt : pair.IsBuilt :=
  .of_run [.pushArray 0 none, .assign 1 (.int 1), .pushArray 0 none, .assign 2 (.int 2)] rfl rfl

private def emptied : Document :=
  ⟨#[⟨.array [1, 2], []⟩, ⟨.hole, []⟩, ⟨.hole, []⟩]⟩

private theorem pair_punches : pair.Punches emptied where
  size := rfl
  node
    | 0 => .inl rfl
    | 1 => .inr ⟨rfl, .slnil⟩
    | 2 => .inr ⟨rfl, .slnil⟩
    | _ + 3 => .inl rfl

private def distinct : Schema where
  nodes := #[⟨.integer {} none, {}⟩, ⟨.array 0 {} true, {}⟩]

private theorem distinct_passesHoles : distinct.PassesHoles 1 := by
  intro id node _ found
  have passes : ∀ node ∈ distinct.nodes.toList, node.shape.passesHoles = true := by
    simp [distinct, Shape.passesHoles]
  exact passes node (Schema.mem_of_node? found)

/-- Two holes are equal, where the integers in their places are not. -/
theorem structuralPass_punched_pair :
    pair.IsBuilt ∧ pair.Punches emptied ∧ distinct.PassesHoles 1 ∧
      (distinct.check {} 256 1 ⟨pair.valueAt 0, [], []⟩).log = .ok ((), {}) ∧
      (distinct.check {} 256 1 ⟨emptied.valueAt 0, [], []⟩).log =
        .ok ((), { errors := [⟨[.array (some 1)], .duplicateItem 0⟩] }) ∧
      ∃ g kept new, (distinct.check {} 256 1 ⟨emptied.valueAt 0, [], []⟩).log = .ok ((), g) ∧
        g.errors.Perm (kept ++ new) ∧ (kept.map Finding.summary).Sublist [] ∧
        ∀ x ∈ new, RepeatsHole distinct 1 emptied 0 x := by
  have checked : (distinct.check {} 256 1 ⟨pair.valueAt 0, [], []⟩).log = .ok ((), {}) := rfl
  exact ⟨pair_isBuilt, pair_punches, distinct_passesHoles, checked, rfl,
    structuralPass_punched pair_isBuilt pair_punches distinct_passesHoles checked⟩

end DocSchema
