import DocSchema.Proofs.Selections

set_option autoImplicit false

namespace DocSchema

def Shape.isUnion {α : Type} : Shape α → Bool
  | .union .. => true
  | _ => false

def Shape.HasDistinctFields (shape : Shape SchemaId) : Prop :=
  ∀ fields allowsUnknown, shape = .record fields allowsUnknown → (fields.map (·.name)).Nodup

namespace Check

open Walker (Ensures)

theorem expect_ensures (holds : Bool) (path : Path) (m : Mismatch) :
    Ensures (fun _ => True) (expect holds path m) := by
  unfold expect
  split
  · exact .pure trivial
  · exact .report

theorem text_ensures (length : Counts) (p lang : Option Bytes) (t : Text) (path : Path) :
    Ensures (fun _ => True) (text length p lang t path) := by
  have spoken : Ensures (fun _ => True) (language lang t path) := by
    unfold language
    split
    · exact expect_ensures _ _ _
    · exact .pure trivial
  have matched : Ensures (fun _ => True) (pattern p t path) := by
    unfold pattern
    split
    · exact .pure trivial
    · split
      · exact .abort
      · exact expect_ensures _ _ _
  exact spoken.bind fun _ _ => (expect_ensures _ _ _).bind fun _ _ => matched

theorem integer_ensures (range : Range) (multipleOf : Option Int64) (i : Int64) (path : Path) :
    Ensures (fun _ => True) (integer range multipleOf i path) := by
  apply (expect_ensures _ _ _).bind
  intro _ _
  split
  · exact .pure trivial
  · exact expect_ensures _ _ _

theorem float_ensures (range : Range) (multipleOf : Option Number) (x : Binary64) (path : Path) :
    Ensures (fun _ => True) (float range multipleOf x path) := by
  apply (expect_ensures _ _ _).bind
  intro _ _
  split
  · exact .pure trivial
  · exact expect_ensures _ _ _

end Check

namespace Walker

theorem target_ensures (schema : Schema) (id : SchemaId) (path : Path) :
    Ensures (fun target => schema.target id path = .ok target) (lift (schema.target id path)) :=
  .lift fun _ same => same

theorem follow_ensures (schema : Schema) (id : SchemaId) (path : Path) :
    Ensures (fun _ => True) (follow schema id path) := by
  apply (target_ensures schema id path).bind
  intro target _
  cases target with
  | node id node => exact .pure trivial
  | undefined name => exact Ensures.report.bind fun _ _ => .pure trivial

end Walker

theorem Check.key_ensures {schema : Schema} {id : SchemaId} {k : Key} {path : Path} :
    Walker.Ensures (fun _ => True) (Check.key schema id k path) := by
  apply (Walker.follow_ensures schema id path).bind
  intro target _
  cases target with
  | none => exact .pure trivial
  | some found =>
      dsimp only
      unfold Check.keyShape
      split
      · exact .pure trivial
      · exact text_ensures _ _ _ _ _
      · exact integer_ensures _ _ _ _
      · exact .pure trivial
      · exact expect_ensures _ _ _
      · exact .report

/-- A call of the check of the level below: a type, a value, and whether the value may be
missing. -/
abbrev Call := SchemaId × Site × Bool

/-- Whether findings hold all that several parts found, and nothing but warnings and selections of
their own and reports besides. -/
structure Findings.Gathers (f own : Findings) (gs : List Findings) : Prop where
  warnings : f.warnings = own.warnings ++ (gs.map (·.warnings)).flatten
  selections : f.selections = own.selections ++ (gs.map (·.selections)).flatten
  isIncomplete : f.isIncomplete = gs.any (·.isIncomplete)
  errors : ∀ g ∈ gs, ∀ e ∈ g.errors, e ∈ f.errors

namespace Findings

variable {own f g : Findings} {gs hs : List Findings}

theorem AreReports.gathers (reports : f.AreReports) : f.Gathers {} [] :=
  ⟨reports.warnings, reports.selections, reports.isIncomplete, by simp⟩

namespace Gathers

theorem single (f : Findings) : f.Gathers {} [f] :=
  ⟨by simp, by simp, by simp, by simp⟩

theorem append (first : f.Gathers own gs) (second : g.Gathers {} hs) :
    (f ++ g).Gathers own (gs ++ hs) where
  warnings := by simp [first.warnings, second.warnings]
  selections := by simp [first.selections, second.selections]
  isIncomplete := by simp [first.isIncomplete, second.isIncomplete]
  errors part member e inside := by
    rcases List.mem_append.1 member with before | after
    · exact List.mem_append_left _ (first.errors part before e inside)
    · exact List.mem_append_right _ (second.errors part after e inside)

/-- Reports that come before make no difference. -/
theorem after (reports : f.AreReports) (gathers : g.Gathers own gs) : (f ++ g).Gathers own gs where
  warnings := by rw [warnings_append, reports.warnings, List.nil_append, gathers.warnings]
  selections := by rw [selections_append, reports.selections, List.nil_append, gathers.selections]
  isIncomplete := by
    rw [isIncomplete_append, reports.isIncomplete, Bool.false_or, gathers.isIncomplete]
  errors part member e inside := List.mem_append_right _ (gathers.errors part member e inside)

end Gathers

end Findings

namespace Walk

open Walker (Ensures)

variable {w : Walk} {s : Site} {calls calls' : List Call} {x y : Check}

/-- Whether a walk ends only if these calls do, and finds what they find and reports besides. -/
def Makes (w : Walk) (calls : List Call) (x : Check) : Prop :=
  ∀ f, x.log = .ok ((), f) → ∃ gs,
    List.Forall₂ (fun c g => (w.check c.1 c.2.1).log = .ok ((), g)) calls gs ∧ f.Gathers {} gs

namespace Makes

theorem none (ensures : Ensures (fun _ => True) x) : w.Makes [] x := by
  intro f logged
  exact ⟨[], .nil, (ensures () f logged).2.gathers⟩

theorem call (id : SchemaId) (part : Site) (isOptional : Bool) :
    w.Makes [(id, part, isOptional)] (w.check id part) := by
  intro f logged
  exact ⟨[f], .cons logged .nil, .single f⟩

theorem bind (first : w.Makes calls x) (second : w.Makes calls' y) :
    w.Makes (calls ++ calls') (x >>= fun _ => y) := by
  intro f logged
  obtain ⟨⟨⟩, g, h, left, right, rfl⟩ := Walker.bind_log logged
  obtain ⟨gs, each, gathers⟩ := first g left
  obtain ⟨hs, each', gathers'⟩ := second h right
  exact ⟨gs ++ hs, List.rel_append each each', gathers.append gathers'⟩

/-- A part that only reports makes no calls, whatever its result. -/
theorem before {α : Type} {x : Walker α} {h : α → Check} {post : α → Prop}
    (ensures : Ensures post x)
    (makes : ∀ a, post a → w.Makes calls (h a)) : w.Makes calls (x >>= h) := by
  intro f logged
  obtain ⟨a, g, g', left, right, rfl⟩ := Walker.bind_log logged
  obtain ⟨holds, reports⟩ := ensures a g left
  obtain ⟨gs, each, gathers⟩ := makes a holds g' right
  exact ⟨gs, each, .after reports gathers⟩

theorem after (makes : w.Makes calls x) (ensures : Ensures (fun _ => True) y) :
    w.Makes calls (x >>= fun _ => y) :=
  List.append_nil calls ▸ makes.bind (Makes.none ensures)

/-- The same steps for all items make the calls of the steps, in order. -/
theorem forM {α : Type} {items : List α} {part : α → Call} {h : α → Check}
    (each : ∀ a ∈ items, w.Makes [part a] (h a)) : w.Makes (items.map part) (items.forM h) := by
  induction items with
  | nil => exact none (.pure trivial)
  | cons a items ih =>
      exact (each a List.mem_cons_self).bind
        (ih fun b member => each b (List.mem_cons_of_mem a member))

end Makes

theorem unknownFields_ensures (isKnown : Bytes → Bool) (entries : List (Key × Site)) :
    Ensures (fun _ => True) (unknownFields isKnown entries) :=
  .forM fun _ _ => Check.expect_ensures _ _ _

theorem duplicates_ensures (items : List Site) : Ensures (fun _ => True) (duplicates items) := by
  refine .forM fun e _ => ?_
  dsimp only
  split
  · exact .report
  · exact .pure trivial

theorem fields_makes (fields : List (Field SchemaId)) :
    w.Makes (fields.filterMap fun f =>
      (s.field? f.name).map fun part => (f.schema, part,
        f.isOptional)) (fields.forM (w.field s)) := by
  induction fields with
  | nil => exact .none (.pure trivial)
  | cons f fields ih =>
      have first : w.Makes ((s.field? f.name).map fun part => (f.schema, part, f.isOptional)).toList
          (w.field s f) := by
        unfold Walk.field
        cases s.field? f.name with
        | none => exact .none (Check.expect_ensures _ _ _)
        | some part => exact .call f.schema part f.isOptional
      have whole := first.bind ih
      rw [List.filterMap_cons]
      cases found : s.field? f.name with
      | none =>
          rw [found] at whole
          exact whole
      | some part =>
          rw [found] at whole
          exact whole

/-- A record calls for its fields, whether or not a tag shares its map. -/
theorem record_makes (fields : List (Field SchemaId)) (allowsUnknown : Bool) (tag : Option Bytes)
    (id : SchemaId) :
    w.Makes (s.required [] id (.record fields allowsUnknown))
      (w.record fields allowsUnknown tag s) := by
  unfold Walk.record
  cases found : s.entries? with
  | none =>
      simp only [Site.required, Site.field?, found, Option.bind_none, Option.map_none,
        List.filterMap_none]
      exact .none .report
  | some entries =>
      refine (fields_makes fields).after ?_
      split
      · exact .pure trivial
      · exact unknownFields_ensures _ _

theorem array_makes (item : SchemaId) (length : Counts) (isUnique : Bool) (id : SchemaId) :
    w.Makes (s.required [] id (.array item length isUnique)) (w.array item length isUnique s) := by
  unfold Walk.array Site.required
  cases s.array? with
  | none => exact .none .report
  | some items =>
      have each : w.Makes (items.map fun part => (item, part, false)) (items.forM (w.check item)) :=
        .forM fun part _ => .call item part false
      refine .before (Check.expect_ensures _ _ _) fun _ _ => each.after ?_
      split
      · exact duplicates_ensures items
      · exact .pure trivial

theorem map_makes (key value : SchemaId) (size : Counts) (id : SchemaId) :
    w.Makes (s.required [] id (.map key value size)) (w.map key value size s) := by
  unfold Walk.map Site.required
  cases s.entries? with
  | none => exact .none .report
  | some entries =>
      exact .before (Check.expect_ensures _ _ _) fun _ _ =>
        .forM fun e _ => .before Check.key_ensures fun _ _ => .call value e.2 false

theorem tuple_makes (types : List SchemaId) (id : SchemaId) :
    w.Makes (s.required [] id (.tuple types)) (w.tuple types s) := by
  unfold Walk.tuple Site.required
  cases s.tuple? with
  | none =>
      simp only [Option.getD_none, List.zip_nil_right, List.map_nil]
      exact .none .report
  | some elements =>
      exact .before (Check.expect_ensures _ _ _) fun _ _ => .forM fun e _ => .call e.1 e.2 false

/-- A value of a type without variants calls for the parts that the search for holes visits. -/
theorem shape_makes {shape : Shape SchemaId} (id : SchemaId) (plain : shape.isUnion = false) :
    w.Makes (s.required [] id shape) (w.shape id s shape) := by
  cases shape with
  | record fields allowsUnknown => exact record_makes fields allowsUnknown none id
  | array item length isUnique => exact array_makes item length isUnique id
  | map key value size => exact map_makes key value size id
  | tuple elements => exact tuple_makes elements id
  | union variants representation => cases plain
  | text length pattern language =>
      refine .none ?_
      unfold Walk.shape
      dsimp only
      split
      · exact Check.text_ensures _ _ _ _ _
      · exact .report
  | integer range multipleOf =>
      refine .none ?_
      unfold Walk.shape
      dsimp only
      split
      · exact Check.integer_ensures _ _ _ _
      · exact .report
  | float range multipleOf =>
      refine .none ?_
      unfold Walk.shape
      dsimp only
      split
      · exact Check.float_ensures _ _ _ _
      · exact .report
  | boolean =>
      refine .none ?_
      unfold Walk.shape
      dsimp only
      split
      · exact .pure trivial
      · exact .report
  | null =>
      refine .none ?_
      unfold Walk.shape
      dsimp only
      split
      · exact .pure trivial
      · exact .report
  | any => exact .none (.pure trivial)
  | literal expected => exact .none (Check.expect_ensures _ _ _)
  | reference name => exact .none .abort

/-- Whether the walks over parts select these variants, part by part. -/
def SelectsParts (w : Walk) (parts : List Call) (cs : List Selection) : Prop :=
  ∃ gs, List.Forall₂ (fun p g => (w.check p.1 p.2.1).Selects g) parts gs ∧ cs = gs.flatten

variable {cs : List Selection}

theorem Makes.selects (makes : w.Makes calls x) (selects : x.Selects cs) :
    w.SelectsParts calls cs := by
  obtain ⟨f, logged, rfl⟩ := selects
  obtain ⟨gs, each, gathers⟩ := makes f logged
  refine ⟨gs.map (·.selections), List.forall₂_map_right_iff.2 ?_, by simpa using gathers.selections⟩
  exact each.imp fun {c g} logged => ⟨g, logged, rfl⟩

/-- A value of a type without variants selects what its parts do. -/
theorem selects_shape {shape : Shape SchemaId} (id : SchemaId) (plain : shape.isUnion = false)
    (selects : (w.shape id s shape).Selects cs) : w.SelectsParts (s.required [] id shape) cs :=
  (shape_makes id plain).selects selects

theorem unknownFields_selects (isKnown : Bytes → Bool) (entries : List (Key × Site)) :
    (unknownFields isKnown entries).Selects [] :=
  .forM_nil fun _ _ => .expect _ _ _

/-- A tag beside the fields of a record makes no difference to what is selected. -/
theorem record_untagged {fields : List (Field SchemaId)} {allowsUnknown : Bool} {tag : Option Bytes}
    (selects : (w.record fields allowsUnknown tag s).Selects cs) :
    (w.record fields allowsUnknown none s).Selects cs := by
  have others (tag : Option Bytes) (entries : List (Key × Site)) :
      (if allowsUnknown then pure ()
        else unknownFields (fun name => tag == some name || fields.any (·.name == name)) entries :
        Check).Selects [] := by
    split
    · exact .pure
    · exact unknownFields_selects _ _
  unfold Walk.record at selects ⊢
  cases found : s.entries? with
  | none =>
      rw [found] at selects
      exact selects
  | some entries =>
      rw [found] at selects
      have declared := Walker.Selects.of_bind_silent (others tag entries) selects
      have again := declared.bind (others none entries)
      rwa [List.append_nil] at again

theorem record_hole {fields : List (Field SchemaId)} {allowsUnknown : Bool} {tag : Option Bytes}
    (hole : s.value.content.isHole = true)
    (selects : (w.record fields allowsUnknown tag s).Selects cs) : cs = [] := by
  have none : s.entries? = none := by
    unfold Site.entries?
    cases content : s.value.content with
    | map entries =>
        rw [content] at hole
        cases hole
    | _ => rfl
  unfold Walk.record at selects
  rw [none] at selects
  exact (Walker.Selects.report _ _).functional selects

end Walk

namespace Site

variable {s : Site} {id : SchemaId} {shape : Shape SchemaId}

/-- The parts of a value of a type without variants do not depend on the selections. -/
theorem required_eq (plain : shape.isUnion = false) (selections : List Selection) :
    s.required selections id shape = s.required [] id shape := by
  cases shape with
  | union variants representation => cases plain
  | _ => rfl

/-- Whether sites are parts of a site, no two of them at one place. -/
def Apart (s : Site) (sites : List Site) : Prop :=
  (∀ part ∈ sites, ∃ i, part.position = s.position ++ [i]) ∧ (sites.map (·.position)).Nodup

theorem apart_nil : s.Apart [] :=
  ⟨by simp, List.nodup_nil⟩

/-- Sites that are numbered in order are apart. -/
theorem apart_of_getElem {sites : List Site}
    (numbered : ∀ i (inside : i < sites.length), sites[i].position = s.position ++ [i]) :
    s.Apart sites := by
  constructor
  · intro part member
    obtain ⟨i, inside, rfl⟩ := List.getElem_of_mem member
    exact ⟨i, numbered i inside⟩
  · rw [List.Nodup, List.pairwise_map, List.pairwise_iff_getElem]
    intro i j first second less
    rw [numbered i first, numbered j second]
    intro same
    have equal := List.singleton_inj.1 (List.append_cancel_left same)
    omega

theorem entry_position {entries : List (Key × Site)} (found : s.entries? = some entries) (i : Nat)
    (inside : i < entries.length) : entries[i].2.position = s.position ++ [i] := by
  obtain ⟨es, -, rfl⟩ := Option.map_eq_some_iff.1 found
  rw [List.getElem_mapIdx]
  rfl

theorem item_position {items : List Site} (found : s.array? = some items) (i : Nat)
    (inside : i < items.length) : items[i].position = s.position ++ [i] := by
  obtain ⟨values, -, rfl⟩ := Option.map_eq_some_iff.1 found
  rw [List.getElem_mapIdx]
  rfl

theorem element_position {elements : List Site} (found : s.tuple? = some elements) (i : Nat)
    (inside : i < elements.length) : elements[i].position = s.position ++ [i] := by
  obtain ⟨values, -, rfl⟩ := Option.map_eq_some_iff.1 found
  rw [List.getElem_mapIdx]
  rfl

/-- A field lies at an entry that is spelled like it. -/
theorem field?_position {name : Bytes} {part : Site} (found : s.field? name = some part) :
    ∃ entries i, ∃ inside : i < entries.length, s.entries? = some entries ∧
      entries[i].1.spelling? = some name ∧ part.position = s.position ++ [i] := by
  obtain ⟨e, searched, rfl⟩ := Option.map_eq_some_iff.1 found
  obtain ⟨entries, mapped, hit⟩ := Option.bind_eq_some_iff.1 searched
  obtain ⟨i, inside, rfl⟩ := List.getElem_of_mem (List.mem_of_find?_eq_some hit)
  have spelled := List.find?_some hit
  exact ⟨entries, i, inside, mapped, by simpa using spelled, entry_position mapped i inside⟩

theorem apart_fields {fields : List (Field SchemaId)} (distinct : (fields.map (·.name)).Nodup) :
    s.Apart (fields.filterMap fun f => s.field? f.name) := by
  constructor
  · intro part member
    obtain ⟨f, -, found⟩ := List.mem_filterMap.1 member
    obtain ⟨entries, i, inside, mapped, spelled, position⟩ := field?_position found
    exact ⟨i, position⟩
  · rw [List.Nodup, List.pairwise_map, List.pairwise_filterMap]
    rw [List.Nodup, List.pairwise_map] at distinct
    apply distinct.imp
    intro f g names part found other found' same
    obtain ⟨entries, i, inside, mapped, spelled, position⟩ := field?_position found
    obtain ⟨entries', j, inside', mapped', spelled', position'⟩ := field?_position found'
    have same := Option.some.inj (mapped.symm.trans mapped')
    subst same
    rw [position, position'] at same
    have same := List.singleton_inj.1 (List.append_cancel_left same)
    subst same
    exact names (Option.some.inj (spelled.symm.trans spelled'))

theorem apart_entries {entries : List (Key × Site)} (found : s.entries? = some entries) :
    s.Apart (entries.map (·.2)) := by
  apply apart_of_getElem
  intro i inside
  rw [List.getElem_map]
  exact entry_position found i _

/-- The parts of a value lie apart. -/
theorem apart_required (s : Site) (id : SchemaId) (plain : shape.isUnion = false)
    (distinct : shape.HasDistinctFields) :
    s.Apart ((s.required [] id shape).map (·.2.1)) := by
  cases shape with
  | record fields allowsUnknown =>
      have sites : (s.required [] id (.record fields allowsUnknown)).map (·.2.1) =
          fields.filterMap fun f => s.field? f.name := by
        rw [required, List.map_filterMap]
        simp [Function.comp_def]
      rw [sites]
      exact apart_fields (distinct fields allowsUnknown rfl)
  | array item length isUnique =>
      have sites : (s.required [] id (.array item length isUnique)).map (·.2.1) =
          s.array?.getD [] := by
        simp [required, Function.comp_def]
      rw [sites]
      cases found : s.array? with
      | none => exact apart_nil
      | some items => exact apart_of_getElem fun i inside => item_position found i inside
  | map key value size =>
      have sites : (s.required [] id (.map key value size)).map (·.2.1) =
          (s.entries?.getD []).map (·.2) := by
        simp [required, Function.comp_def]
      rw [sites]
      cases found : s.entries? with
      | none => exact apart_nil
      | some entries => exact apart_entries found
  | tuple elements =>
      have sites : (s.required [] id (.tuple elements)).map (·.2.1) =
          (elements.zip (s.tuple?.getD [])).map (·.2) := by
        simp [required, Function.comp_def]
      rw [sites]
      cases found : s.tuple? with
      | none => simpa using apart_nil
      | some values =>
          apply apart_of_getElem
          intro i inside
          rw [List.getElem_map]
          simp only [Option.getD_some, List.getElem_zip]
          exact element_position found i _
  | union variants representation => cases plain
  | _ => exact apart_nil

/-- They lie directly below it, also where a record declares a field twice. -/
theorem near_required (s : Site) (id : SchemaId) (plain : shape.isUnion = false) :
    ∀ p ∈ s.required [] id shape, ∃ i, p.2.1.position = s.position ++ [i] := by
  intro p member
  cases shape with
  | record fields allowsUnknown =>
      obtain ⟨f, -, found⟩ := List.mem_filterMap.1 member
      obtain ⟨part, here, rfl⟩ := Option.map_eq_some_iff.1 found
      obtain ⟨entries, i, inside, mapped, spelled, position⟩ := field?_position here
      exact ⟨i, position⟩
  | _ =>
      refine (s.apart_required id plain ?_).1 p.2.1 (List.mem_map_of_mem member)
      intro fields allowsUnknown same
      cases same

end Site

end DocSchema
