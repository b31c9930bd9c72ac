import DocSchema.Proofs.Deeper
import DocSchema.Proofs.Relocation

set_option autoImplicit false

namespace DocSchema

/-- Whether a position below `base` becomes another one when a part is put in before the `n`-th part
there. -/
def MakesRoom (base : List Nat) (n : Nat) (p q : List Nat) : Prop :=
  ∃ i rest, p = base ++ i :: rest ∧ q = base ++ (if i < n then i else i + 1) :: rest

namespace MakesRoom

variable {base p q p' q' : List Nat} {n : Nat}

theorem append (moves : MakesRoom base n p q) (more : List Nat) :
    MakesRoom base n (p ++ more) (q ++ more) := by
  obtain ⟨i, rest, rfl, rfl⟩ := moves
  exact ⟨i, rest ++ more, by simp, by simp⟩

theorem left_ne (moves : MakesRoom base n p q) : p ≠ base := by
  obtain ⟨i, rest, rfl, -⟩ := moves
  simp

theorem right_ne (moves : MakesRoom base n p q) : q ≠ base := by
  obtain ⟨i, rest, -, rfl⟩ := moves
  simp

/-- Different positions stay different. -/
theorem eq_iff (moves : MakesRoom base n p q) (again : MakesRoom base n p' q') :
    p = p' ↔ q = q' := by
  obtain ⟨i, rest, rfl, rfl⟩ := moves
  obtain ⟨j, rest', rfl, rfl⟩ := again
  have apart : i = j ↔ (if i < n then i else i + 1) = if j < n then j else j + 1 := by
    split <;> split <;> omega
  rw [List.append_cancel_left_eq, List.append_cancel_left_eq, List.cons_eq_cons, List.cons_eq_cons,
    apart]

end MakesRoom

/-- Whether two sites are of one value at one path, where the second has made room. -/
structure Site.Shifts (base : List Nat) (n : Nat) (s t : Site) : Prop where
  value : t.value = s.value
  path : t.path = s.path
  position : MakesRoom base n s.position t.position

/-- Whether two calls are of one type for one value, where the second has made room. -/
structure Call.Shifts (base : List Nat) (n : Nat) (c d : Call) : Prop where
  type : d.1 = c.1
  site : c.2.1.Shifts base n d.2.1
  isOptional : d.2.2 = c.2.2

/-- Whether two selections choose one variant of one union, where the second has made room. -/
structure Selection.Shifts (base : List Nat) (n : Nat) (c d : Selection) : Prop where
  position : MakesRoom base n c.position d.position
  union : d.union = c.union
  variant : d.variant = c.variant
  target : c.target.Shifts base n d.target

/-- Whether two walks found the same, where the selections of the second have made room. -/
structure Findings.Shifts (base : List Nat) (n : Nat) (f g : Findings) : Prop where
  errors : g.errors = f.errors
  warnings : g.warnings = f.warnings
  selections : List.Forall₂ (Selection.Shifts base n) f.selections g.selections
  isIncomplete : g.isIncomplete = f.isIncomplete

theorem Findings.Shifts.append {base : List Nat} {n : Nat} {f f' g g' : Findings}
    (first : f.Shifts base n g)
    (second : f'.Shifts base n g') : (f ++ f').Shifts base n (g ++ g') where
  errors := by simp [first.errors, second.errors]
  warnings := by simp [first.warnings, second.warnings]
  selections := List.rel_append first.selections second.selections
  isIncomplete := by simp [first.isIncomplete, second.isIncomplete]

theorem Walker.log_forM_of_forall₂ {α β : Type} {as : List α} {bs : List β} {h : α → Walker Unit}
    {k : β → Walker Unit} (each : List.Forall₂ (fun a b => (h a).log = (k b).log) as bs) :
    (as.forM h).log = (bs.forM k).log := by
  induction each with
  | nil => rfl
  | cons first rest ih => exact log_bind_congr first fun _ _ _ => ih

/-- Whether two walkers fail alike or find the same, where the selections of the second have made
room. -/
inductive Walker.Shifts (base : List Nat) (n : Nat) (x y : Walker Unit) : Prop
  | failed {e : Failure} (left : x.log = .error e) (right : y.log = .error e)
  | found {f g : Findings} (left : x.log = .ok ((), f)) (right : y.log = .ok ((), g))
      (findings : f.Shifts base n g)

namespace Walker.Shifts

variable {base : List Nat} {n : Nat} {x x' y y' : Walker Unit}

/-- Walkers that find the same and select nothing. -/
theorem of_ensures {post : Unit → Prop} (ensures : Ensures post x) (same : y.log = x.log) :
    x.Shifts base n y := by
  cases logged : x.log with
  | error e => exact .failed logged (same.trans logged)
  | ok found =>
      have silent := (ensures _ _ logged).2.selections
      refine .found logged (same.trans logged) ⟨rfl, rfl, ?_, rfl⟩
      rw [silent]
      exact .nil

theorem pure : Shifts base n (Pure.pure ()) (Pure.pure ()) :=
  .found rfl rfl ⟨rfl, rfl, .nil, rfl⟩

theorem bind (first : x.Shifts base n y) (second : x'.Shifts base n y') :
    (x >>= fun _ => x').Shifts base n (y >>= fun _ => y') := by
  cases first with
  | failed left right => exact .failed (log_bind_error left) (log_bind_error right)
  | found left right findings =>
      cases second with
      | failed left' right' =>
          exact .failed (log_bind_ok_error left left') (log_bind_ok_error right right')
      | found left' right' findings' =>
          exact .found (log_bind_ok left left') (log_bind_ok right right')
            (findings.append findings')

theorem forM {α : Type} {items : List α} {h k : α → Walker Unit}
    (each : ∀ a ∈ items, (h a).Shifts base n (k a)) :
    (items.forM h).Shifts base n (items.forM k) := by
  induction items with
  | nil => exact .pure
  | cons a items ih =>
      exact (each a List.mem_cons_self).bind
        (ih fun b member => each b (List.mem_cons_of_mem a member))

/-- What is found does not depend on the room. -/
theorem errors (shifts : x.Shifts base n y) : y.log.map (·.2.errors) = x.log.map (·.2.errors) := by
  cases shifts with
  | failed left right => rw [left, right]
  | found left right findings =>
      rw [left, right]
      exact congrArg Except.ok findings.errors

end Walker.Shifts

/-- A failure below another path, wherever the position. -/
theorem Translation.Fails.eq_below {above : Path} {base : List Nat} {e f : Failure}
    (fails : (below above base).Fails e f) : f = e.under above := by
  obtain ⟨path, flaw⟩ := f
  obtain rfl : path = _ := fails.path
  obtain rfl : flaw = _ := fails.flaw trivial
  rfl

namespace Site.Shifts

variable {base : List Nat} {n : Nat} {s t : Site} (shifts : s.Shifts base n t)
include shifts

/-- Both sites are one value, below one path and below two positions. -/
theorem eq_below : s = (Translation.below s.path s.position).site ⟨s.value, [], []⟩ ∧
    t = (Translation.below s.path t.position).site ⟨s.value, [], []⟩ := by
  obtain ⟨value, path, -⟩ := shifts
  constructor
  · simp [Translation.site, Translation.below]
  · rw [← value, ← path]
    simp [Translation.site, Translation.below]

/-- Whatever lies below has made room as well. -/
theorem below (part : Site) : ((Translation.below s.path s.position).site part).Shifts base n
    ((Translation.below s.path t.position).site part) :=
  ⟨rfl, rfl, shifts.position.append part.position⟩

/-- Both call for the same parts. -/
theorem required {shape : Shape SchemaId} (plain : shape.isUnion = false)
    (table table' : List Selection) (id : SchemaId) :
    List.Forall₂ (Call.Shifts base n) (s.required table id shape) (t.required table' id shape) := by
  have parts (path : Path) (position : List Nat) (table : List Selection) :
      ((Translation.below path position).site ⟨s.value, [], []⟩).required table id shape =
        ((Site.mk s.value [] []).required [] id shape).map
          (Translation.below path position).part := by
    rw [← Translation.site_required, Translation.below, Shape.mapTypes_id]
    exact Site.required_eq plain table
  obtain ⟨left, right⟩ := shifts.eq_below
  have first := parts s.path s.position table
  have second := parts s.path t.position table'
  rw [← left] at first
  rw [← right] at second
  rw [first, second, List.forall₂_map_left_iff, List.forall₂_map_right_iff]
  exact List.forall₂_same.2 fun c _ => ⟨rfl, shifts.below c.2.1, rfl⟩

/-- The check of the structure finds the same. -/
theorem check (schema : Schema) (settings : Settings) (level : Nat) (id : SchemaId) :
    (schema.check settings level id s).Shifts base n (schema.check settings level id t) := by
  obtain ⟨left, right⟩ := shifts.eq_below
  have walk := (schema.translated_below s.path s.position).check settings level id ⟨s.value, [], []⟩
  have walk' :=
    (schema.translated_below s.path t.position).check settings level id ⟨s.value, [], []⟩
  rw [← left] at walk
  rw [← right] at walk'
  cases walk with
  | @failed e f log failed fails =>
      cases walk' with
      | @failed e' g log' failed' fails' =>
          cases log.symm.trans log'
          exact .failed (fails.eq_below ▸ failed) (fails'.eq_below ▸ failed')
      | found log' => cases log.symm.trans log'
  | @found _ f g log found finds =>
      cases walk' with
      | failed log' => cases log.symm.trans log'
      | @found _ f' g' log' found' finds' =>
          cases log.symm.trans log'
          refine .found found found' ⟨?_, ?_, ?_, ?_⟩
          · rw [finds.errors, finds'.errors]
            rfl
          · rw [finds.warnings trivial, finds'.warnings trivial]
            rfl
          · rw [finds.selections, finds'.selections, List.forall₂_map_left_iff,
              List.forall₂_map_right_iff]
            refine List.forall₂_same.2 fun c _ => ?_
            exact ⟨shifts.position.append c.position, rfl, rfl, shifts.below c.target⟩
          · rw [finds.isIncomplete, finds'.isIncomplete]

end Site.Shifts

/-- Whether two tables hold the same selections for all sites that have made room. -/
def Selection.TablesShift (base : List Nat) (n : Nat) (table table' : List Selection) : Prop :=
  ∀ union s t, Site.Shifts base n s t →
    Option.Rel (Selection.Shifts base n) (last? table union s) (last? table' union t)

/-- Selections for the base itself make no difference below. -/
theorem Selection.tablesShift_cons {base : List Nat} {n : Nat} {c d : Selection}
    {table table' : List Selection} (left : c.position = base) (right : d.position = base)
    (rest : List.Forall₂ (Selection.Shifts base n) table table') :
    TablesShift base n (c :: table) (d :: table') := by
  intro union s t shifts
  have above (c : Selection) (site : Site) (here : c.position = base)
      (other : site.position ≠ base) :
      [c].find? (fun c => c.union == union && c.position == site.position) = none := by
    simp [here, other.symm]
  unfold last?
  rw [List.reverse_cons, List.reverse_cons, List.find?_append, List.find?_append,
    above c s left shifts.position.left_ne, above d t right shifts.position.right_ne,
    Option.or_none,
    Option.or_none]
  refine rel_find? (List.forall₂_reverse_iff.2 rest) fun c d same => ?_
  rw [same.union, Bool.eq_iff_iff, Bool.and_eq_true, Bool.and_eq_true, beq_iff_eq (a := c.position),
    beq_iff_eq (a := d.position), same.position.eq_iff shifts.position]

/-- The search for holes reports the same. -/
theorem Schema.complete_shifts (schema : Schema) {base : List Nat} {n : Nat}
    {table table' : List Selection}
    (tables : Selection.TablesShift base n table table') (depth : Nat) (id : SchemaId) {s t : Site}
    (isOptional : Bool) (shifts : s.Shifts base n t) :
    (schema.complete table depth id s isOptional).log =
      (schema.complete table' depth id t isOptional).log := by
  induction depth generalizing id s t isOptional with
  | zero => rfl
  | succ depth ih =>
      unfold complete
      rw [shifts.path, shifts.value]
      refine Walker.log_bind_congr rfl fun found _ _ => ?_
      cases found with
      | undefined name => rfl
      | node target node =>
          dsimp only
          split
          · rfl
          cases plain : node.shape.isUnion with
          | false =>
              refine Walker.log_forM_of_forall₂ ((shifts.required plain table table' target).imp ?_)
              intro c d same
              rw [same.type, same.isOptional]
              exact ih c.1 c.2.2 same.site
          | true =>
              obtain ⟨shape, metadata⟩ := node
              cases shape with
              | union variants representation =>
                  dsimp only [Site.required]
                  rcases eq_of_rel (tables target s t shifts) with ⟨left, right⟩ | ⟨c, d, left, right, same⟩
                  · rw [left, right]
                    rfl
                  · rw [left, right]
                    dsimp only
                    rw [same.variant]
                    exact Walker.log_bind_congr (ih c.variant false same.target) fun _ _ _ => rfl
              | _ => cases plain

/-- The search for holes reports the same for the same parts. -/
theorem Schema.complete_calls_shift (schema : Schema) {base : List Nat} {n : Nat}
    {table table' : List Selection} (tables : Selection.TablesShift base n table table')
    (depth : Nat) {cs ds : List Call} (each : List.Forall₂ (Call.Shifts base n) cs ds) :
    (cs.forM fun c => schema.complete table depth c.1 c.2.1 c.2.2).log =
      (ds.forM fun d => schema.complete table' depth d.1 d.2.1 d.2.2).log := by
  refine Walker.log_forM_of_forall₂ (each.imp fun {c d} same => ?_)
  rw [same.type, same.isOptional]
  exact schema.complete_shifts tables depth c.1 c.2.2 same.site

end DocSchema
