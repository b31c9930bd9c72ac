import DocSchema.Proofs.Calls
import DocSchema.Proofs.Decides
import DocSchema.Proofs.Records
import DocSchema.Proofs.Truncation

set_option autoImplicit false

namespace DocSchema

def Findings.missing (holes : List Call) : Findings :=
  { errors := holes.map fun c => ⟨c.2.1.path, .missingValue⟩, isIncomplete := !holes.isEmpty }

theorem Findings.missing_append (cs ds : List Call) :
    Findings.missing (cs ++ ds) = Findings.missing cs ++ Findings.missing ds := by
  simp [missing, append_def]
  cases cs <;> simp

/-- If nothing is cut off, nothing is in the parts. -/
theorem Findings.Gathers.uncut {own f : Findings} {calls : List Call}
    {gs : List Findings} {ends : Call → Findings → Prop} (gathers : f.Gathers own gs)
    (uncut : ¬ f.IsCut) (each : List.Forall₂ ends calls gs) :
    List.Forall₂ (fun c g => ends c g ∧ ¬ g.IsCut) calls gs := by
  obtain ⟨length, pairs⟩ := List.forall₂_iff_zip.1 each
  refine List.forall₂_iff_zip.2 ⟨length, fun {c g} member => ⟨pairs member, fun cut => uncut ?_⟩⟩
  obtain ⟨e, inside, kind⟩ := cut
  exact ⟨e, gathers.errors g (List.of_mem_zip member).2 e inside, kind⟩

namespace Schema

variable {schema : Schema} {settings : Settings} {table : List Selection} {level bound : Nat}
  {id target : SchemaId} {node : SchemaNode} {s : Site} {isOptional : Bool}

/-- Where no level is left, a check meets the limit. -/
theorem isCut_of_check_zero {f : Findings}
    (logged : (schema.check settings 0 id s).log = .ok ((), f)) :
    f.IsCut := by
  cases logged
  exact ⟨_, List.mem_cons_self, rfl⟩

/-- Whether a call is for a hole where a value is required. -/
def demands (schema : Schema) (c : Call) : Bool :=
  match schema.resolve c.1 with
  | .found _ node => c.2.1.value.content.isHole && !(c.2.2 || node.shape.isAny)
  | _ => false

/-- The holes that the structural pass meets where a value is required. -/
def holes (schema : Schema) (settings : Settings) (level : Nat) (c : Call) : List Call :=
  (schema.visits settings level c).filter schema.demands

/-- Whether the search for holes in a value ends before the last level. -/
def isWithin (schema : Schema) (table : List Selection) : (depth : Nat) → SchemaId → Site → Bool
  | 0, _, _ => false
  | depth + 1, id, s =>
    match schema.resolve id with
    | .found target node =>
      s.value.content.isHole ||
        (s.required table target node.shape).all fun c => schema.isWithin table depth c.1 c.2.1
    | _ => true

theorem demands_filled (filled : s.value.content.isHole = false) :
    schema.demands (id, s, isOptional) = false := by
  unfold demands
  split
  · simp [filled]
  · rfl

theorem holes_hole (hole : s.value.content.isHole = true) :
    schema.holes settings (level + 1) (id, s, isOptional) =
      [(id, s, isOptional)].filter schema.demands := by
  rw [holes, visits, calls_hole hole]
  rfl

theorem holes_filled (filled : s.value.content.isHole = false) :
    schema.holes settings (level + 1) (id, s, isOptional) =
      (schema.calls settings level id s).flatMap (schema.holes settings level) := by
  rw [holes, visits, List.filter_cons, demands_filled filled]
  simp only [Bool.false_eq_true, ↓reduceIte, List.filter_flatMap]
  rfl

theorem holes_dangling {name : Bytes} (dangling : schema.resolve id = .dangling name) :
    schema.holes settings (level + 1) (id, s, isOptional) = [] := by
  have none : schema.calls settings level id s = [] := by
    unfold calls
    rw [dangling]
  have free : schema.demands (id, s, isOptional) = false := by
    unfold demands
    rw [dangling]
  rw [holes, visits, none, List.flatMap_nil, List.filter_cons, free]
  rfl

section Steps

theorem target_found (resolved : schema.resolve id = .found target node) (path : Path) :
    schema.target id path = .ok (.node target node) := by
  unfold Schema.target
  rw [resolved]

theorem complete_found (resolved : schema.resolve id = .found target node)
    (filled : s.value.content.isHole = false) :
    (schema.complete table (bound + 1) id s isOptional).log =
      ((s.required table target node.shape).forM fun c =>
        schema.complete table bound c.1 c.2.1 c.2.2).log := by
  rw [complete, target_found resolved]
  refine (Walker.log_pure_bind _ _).trans ?_
  simp only [filled, Bool.false_eq_true, ↓reduceIte]

theorem complete_hole (resolved : schema.resolve id = .found target node)
    (hole : s.value.content.isHole = true) :
    (schema.complete table (bound + 1) id s isOptional).log =
      .ok ((), .missing ([(id, s, isOptional)].filter schema.demands)) := by
  rw [complete, target_found resolved]
  refine (Walker.log_pure_bind _ _).trans ?_
  simp only [hole, ↓reduceIte]
  have demanded : schema.demands (id, s, isOptional) = !(isOptional || node.shape.isAny) := by
    unfold demands
    rw [resolved]
    simp only [hole, Bool.true_and]
  rw [List.filter_cons, demanded]
  unfold Check.hole
  cases isOptional || node.shape.isAny <;> rfl

theorem complete_dangling {name : Bytes} (dangling : schema.resolve id = .dangling name) :
    (schema.complete table (bound + 1) id s isOptional).log = .ok ((), {}) := by
  rw [complete, Schema.target, dangling]
  rfl

theorem isWithin_found (resolved : schema.resolve id = .found target node)
    (filled : s.value.content.isHole = false)
    (within : schema.isWithin table (bound + 1) id s = true) :
    ∀ c ∈ s.required table target node.shape, schema.isWithin table bound c.1 c.2.1 = true := by
  rw [isWithin, resolved] at within
  simpa only [filled, Bool.false_or, List.all_eq_true] using within

end Steps

/-- Whether the search for holes in a value reports these holes, however many levels below a bound
it has, if they are enough. -/
def Tells (schema : Schema) (table : List Selection) (bound : Nat) (c : Call) (holes : List Call) :
    Prop :=
  ∀ depth < bound, schema.isWithin table depth c.1 c.2.1 = true →
    (schema.complete table depth c.1 c.2.1 c.2.2).log = .ok ((), .missing holes)

theorem Tells.mono {c : Call} {holes : List Call} {less : Nat}
    (tells : schema.Tells table bound c holes)
    (below : less ≤ bound) : schema.Tells table less c holes :=
  fun depth inside => tells depth (Nat.lt_of_lt_of_le inside below)

/-- What the search for holes reports of several parts. -/
theorem forM_tells {parts : List Call} {holes : Call → List Call} {depth : Nat}
    (tells : ∀ c ∈ parts,
      (schema.complete table depth c.1 c.2.1 c.2.2).log = .ok ((), .missing (holes c))) :
    (parts.forM fun c => schema.complete table depth c.1 c.2.1 c.2.2).log =
      .ok ((), .missing (parts.flatMap holes)) := by
  induction parts with
  | nil => rfl
  | cons c parts ih =>
      rw [List.flatMap_cons, Findings.missing_append]
      exact Walker.log_bind_ok (tells c List.mem_cons_self)
        (ih fun d member => tells d (List.mem_cons_of_mem c member))

/-- What it reports of a value whose parts are told. -/
theorem tells_of_parts {holes : Call → List Call}
    (resolved : schema.resolve id = .found target node) (filled : s.value.content.isHole = false)
    (tells : ∀ c ∈ s.required table target node.shape, schema.Tells table bound c (holes c)) :
    schema.Tells table (bound + 1) (id, s, isOptional)
      ((s.required table target node.shape).flatMap holes) := by
  intro depth inside within
  cases depth with
  | zero => cases within
  | succ depth =>
      refine (complete_found resolved filled).trans (forM_tells fun c member => ?_)
      have part := isWithin_found resolved filled within c member
      exact tells c member depth (Nat.lt_of_succ_lt_succ inside) part

/-- What it reports of a union: what it does of the content of any selection for the value. -/
theorem tells_of_selections {variants : List (Variant SchemaId)} {representation : Representation}
    {metadata : Metadata} {holes : List Call}
    (resolved : schema.resolve id = .found target ⟨.union variants representation, metadata⟩)
    (filled : s.value.content.isHole = false)
    (tells : ∀ d ∈ Selection.below s.position table, d.position = s.position →
      schema.Tells table bound (d.variant, d.target, false) holes)
    (unchosen : Selection.last? table target s = none → holes = []) :
    schema.Tells table (bound + 1) (id, s, isOptional) holes := by
  have parts (parts : ∀ c ∈ s.required table target (.union variants representation),
        schema.Tells table bound c holes) :
      schema.Tells table (bound + 1) (id, s, isOptional)
        ((s.required table target (.union variants representation)).flatMap fun _ => holes) :=
    tells_of_parts resolved filled parts
  unfold Site.required at parts
  cases last : Selection.last? table target s with
  | none =>
      rw [last] at parts
      rw [unchosen last] at parts ⊢
      exact parts (by simp)
  | some d =>
      rw [last] at parts
      obtain ⟨listed, -, here⟩ := Selection.last?_mem last
      have one := parts (List.forall_mem_singleton.2 (tells d listed here))
      rwa [List.flatMap_singleton] at one

/-- Whether the structural pass of a level has told, with its selections, the holes that it met: the
search for holes reports them, also if it starts from an earlier selection that led to the value. -/
def Informs (schema : Schema) (settings : Settings) (table : List Selection) (level : Nat) : Prop :=
  ∀ id s isOptional before f bound, (schema.check settings level id s).log = .ok ((), f) →
    ¬ f.IsCut →
    Selection.below s.position table = before ++ f.selections →
    (∀ d ∈ before, d.position = s.position ∧ schema.Tells table bound (d.variant, d.target, false)
      (schema.holes settings level (id, s, isOptional))) →
    (∀ d ∈ f.selections, d.position = s.position →
      schema.Tells table bound (d.variant, d.target, false)
      (schema.holes settings level (id, s, isOptional))) ∧
    schema.Tells table (bound + 1) (id, s, isOptional)
      (schema.holes settings level (id, s, isOptional))

section Parts

variable {gs : List Findings} (plain : node.shape.isUnion = false)
  (each : List.Forall₂ (fun c g => (schema.check settings level c.1 c.2.1).log = .ok ((), g) ∧
      ¬ g.IsCut)
    (s.required [] target node.shape) gs)
include plain each

theorem parts_below :
    ∀ d ∈ (gs.map (·.selections)).flatten, ∃ i, s.position ++ [i] <+: d.position := by
  have selects : (schema.walk settings level).SelectsParts (s.required [] target node.shape)
      (gs.map (·.selections)).flatten :=
    ⟨_, List.forall₂_map_right_iff.2 (each.imp fun {c g} ends => ⟨g, ends.1, rfl⟩), rfl⟩
  exact below_of_parts (check_yields level) (s.near_required target plain) selects

variable (distinct : schema.HasDistinctFields) (found : schema.node? target = some node)
include distinct found

/-- The selections of the structural pass tell the holes in the parts of a value. -/
theorem parts_tell (informs : schema.Informs settings table level) {before : List Selection}
    (held : Selection.below s.position table = before ++ (gs.map (·.selections)).flatten)
    (near : ∀ d ∈ before, d.position = s.position) (bound : Nat) :
    ∀ c ∈ s.required [] target node.shape,
      schema.Tells table bound c (schema.holes settings level c) := by
  have apart := s.apart_required target plain (distinct target node found)
  have inside : List.Forall₂ (fun (c : Call) g =>
      (∃ f, (schema.check settings level c.1 c.2.1).log = .ok ((), f) ∧ ¬ f.IsCut ∧
        f.selections = g) ∧
        ∀ d ∈ g, c.2.1.position <+: d.position)
      (s.required [] target node.shape) (gs.map (·.selections)) :=
    List.forall₂_map_right_iff.2
      (each.imp fun {c g} ends => ⟨⟨g, ends.1, ends.2, rfl⟩, fun d member =>
      (check_yields level _ _ _ ⟨g, ends.1, rfl⟩ d member).below⟩)
  intro c member
  obtain ⟨i, position⟩ := apart.1 c.2.1 (List.mem_map_of_mem member)
  obtain ⟨f, logged, uncut, selected⟩ := Selection.below_flatten apart inside c member
  have none : Selection.below c.2.1.position before = [] :=
    Selection.below_eq_nil fun d listed strict => ne_of_below (position ▸ strict) (near d listed)
  have here : Selection.below c.2.1.position table = f.selections := by
    rw [selected, ← Selection.below_below (position ▸ List.prefix_append _ _), held,
      Selection.below_append, none, List.nil_append]
  have informed := informs c.1 c.2.1 c.2.2 [] f bound logged uncut here (by simp)
  exact informed.2.mono (Nat.le_succ bound)

end Parts

theorem tells_hole (resolved : schema.resolve id = .found target node)
    (hole : s.value.content.isHole = true) :
    schema.Tells table bound (id, s, isOptional) ([(id, s, isOptional)].filter schema.demands) := by
  intro depth _ within
  cases depth with
  | zero => cases within
  | succ depth => exact complete_hole resolved hole

theorem tells_dangling {name : Bytes} (dangling : schema.resolve id = .dangling name) :
    schema.Tells table bound (id, s, isOptional) [] := by
  intro depth _ within
  cases depth with
  | zero => cases within
  | succ depth => exact complete_dangling dangling

section Unions

variable {u v : SchemaId} {t : Site} {before : List Selection}
  (informs : schema.Informs settings table level) (near : ∀ d ∈ before, d.position = s.position)
include informs near

/-- The content of a union is searched with one result from all selections that lead to it. Those
for the same value are followed in fewer and fewer levels. -/
theorem content_tells {g : Findings} (logged : (schema.check settings level v t).log = .ok ((), g))
    (uncut : ¬ g.IsCut) (target : s.Holds t)
    (held : Selection.below s.position table = before ++ ⟨s.position, u, v, t⟩ :: g.selections)
    (tells : ∀ d ∈ before, schema.Tells table bound (d.variant, d.target, false)
      (schema.holes settings level (v, t, false))) :
    schema.Tells table bound (v, t, false) (schema.holes settings level (v, t, false)) ∧
      ∀ d ∈ g.selections, d.position = s.position →
        schema.Tells table bound
          (d.variant, d.target, false) (schema.holes settings level (v, t, false)) := by
  rcases target with rfl | ⟨i, position⟩
  · have held : Selection.below t.position table =
        (before ++ [⟨t.position, u, v, t⟩]) ++ g.selections := by
      rw [held, List.append_assoc, List.singleton_append]
    have informed (less : Nat) (below : less ≤ bound)
        (own : schema.Tells table less (v, t, false) (schema.holes settings level (v, t, false))) :=
      informs v t false _ g less logged uncut held fun d member => by
        rcases List.mem_append.1 member with earlier | last
        · exact ⟨near d earlier, (tells d earlier).mono below⟩
        · rw [List.mem_singleton.1 last]
          exact ⟨rfl, own⟩
    have own (less : Nat) (below : less ≤ bound) :
        schema.Tells table less (v, t, false) (schema.holes settings level (v, t, false)) := by
      induction less with
      | zero => exact fun depth inside => absurd inside (Nat.not_lt_zero depth)
      | succ less ih =>
          exact (informed less (Nat.le_of_succ_le below) (ih (Nat.le_of_succ_le below))).2
    have all := own bound (Nat.le_refl bound)
    exact ⟨all, (informed bound (Nat.le_refl bound) all).1⟩
  · have strict : ∀ d ∈ before ++ [⟨s.position, u, v, t⟩], ¬ t.position <+: d.position := by
      intro d member inside
      apply ne_of_below (position ▸ inside)
      rcases List.mem_append.1 member with earlier | own
      · exact near d earlier
      · rw [List.mem_singleton.1 own]
    have yields := check_yields level v t g.selections ⟨g, logged, rfl⟩
    have here : Selection.below t.position table = [] ++ g.selections := by
      rw [← Selection.below_below (position ▸ List.prefix_append _ _), held,
        ← List.singleton_append, ← List.append_assoc, Selection.below_append,
        Selection.below_eq_nil strict,
        Selection.below_eq_self fun d member => (yields d member).below]
    have informed := informs v t false [] g bound logged uncut here (by simp)
    exact ⟨informed.2.mono (Nat.le_succ bound), fun d member same =>
      absurd same (ne_of_below (position ▸ (yields d member).below))⟩

variable {gs : List Findings} (filled : s.value.content.isHole = false)
    (distinct : schema.HasDistinctFields)
include filled distinct

/-- So is the content of a variant, whether or not a tag shares its map. -/
theorem variant_tells {shared : Option Bytes} {f : Findings} (target : s.Holds t)
    (tagged : ∀ tag ∈ shared, t = s)
    (logged : ((schema.walk settings level).variant v shared t).log = .ok ((), f))
    (each : List.Forall₂ (fun c g => (schema.check settings level c.1 c.2.1).log = .ok ((), g) ∧
      ¬ g.IsCut)
      ((schema.walk settings level).variantCalls v shared t) gs)
    (held : Selection.below s.position table =
      before ++ ⟨s.position, u, v, t⟩ :: (gs.map (·.selections)).flatten)
    {holes : List Call} (all : ((schema.walk settings level).variantCalls v shared t).flatMap
      (schema.holes settings level) = holes)
    (tells : ∀ d ∈ before, schema.Tells table bound (d.variant, d.target, false) holes) :
    schema.Tells table bound (v, t, false) holes ∧
      ∀ d ∈ (gs.map (·.selections)).flatten, d.position = s.position →
        schema.Tells table bound (d.variant, d.target, false) holes := by
  rcases Walk.variantCalls_cases logged with
    one | ⟨present, ⟨⟨name, dangling⟩, none⟩ | ⟨target, node, resolved, holds, parts⟩⟩
  · rw [one] at each all
    obtain ⟨g, gs, ⟨checked, uncut⟩, rest, rfl⟩ := List.forall₂_cons_left_iff.1 each
    have last := List.forall₂_nil_left_iff.1 rest
    subst last
    rw [List.flatMap_singleton] at all
    subst all
    simp only [List.map_cons, List.map_nil, List.flatten_cons, List.flatten_nil,
      List.append_nil] at held ⊢
    exact content_tells informs near checked uncut target held tells
  · rw [none] at each all
    have last := List.forall₂_nil_left_iff.1 each
    subst last all
    exact ⟨tells_dangling dangling, by simp⟩
  · obtain ⟨tag, present⟩ := Option.ne_none_iff_exists'.1 present
    have same := tagged tag present
    have plain := Shape.isUnion_of_holdsTag holds
    subst same
    rw [parts] at each all
    have found := (resolve_found resolved).1
    have held : Selection.below t.position table =
        (before ++ [⟨t.position, u, v, t⟩]) ++ (gs.map (·.selections)).flatten := by
      rw [held, List.append_assoc, List.singleton_append]
    have near : ∀ d ∈ before ++ [⟨t.position, u, v, t⟩], d.position = t.position :=
      List.forall_mem_append.2 ⟨near, by simp⟩
    have told := parts_tell plain each distinct found informs held near bound
    rw [← Site.required_eq plain table] at told all
    subst all
    refine ⟨(tells_of_parts resolved filled told).mono (Nat.le_succ bound), fun d member here => ?_⟩
    obtain ⟨i, strict⟩ := parts_below plain each d member
    exact absurd here (ne_of_below strict)

/-- A union tells what the variant does that it has chosen. -/
theorem chosen_tells {variants : List (Variant SchemaId)} {representation : Representation}
    {metadata : Metadata} {c : Choice} {quiet f : Findings}
    (resolved : schema.resolve id = .found u ⟨.union variants representation, metadata⟩)
    (dispatched : ((schema.walk settings level).dispatch ⟨u, variants, representation⟩ s).log =
      .ok (some c, quiet))
    (logged : ((schema.walk settings level).variant c.variant.schema c.tag c.target).log =
      .ok ((), f))
    (each : List.Forall₂ (fun c g => (schema.check settings level c.1 c.2.1).log = .ok ((), g) ∧
      ¬ g.IsCut)
      ((schema.walk settings level).variantCalls c.variant.schema c.tag c.target) gs)
    {selected : List Selection}
    (selects : selected =
      ⟨s.position, u, c.variant.schema, c.target⟩ :: (gs.map (·.selections)).flatten)
    (held : Selection.below s.position table = before ++ selected) {holes : List Call}
    (all : ((schema.walk settings level).variantCalls c.variant.schema c.tag c.target).flatMap
      (schema.holes settings level) = holes)
    (tells : ∀ d ∈ before, schema.Tells table bound (d.variant, d.target, false) holes) :
    (∀ d ∈ selected, d.position = s.position →
      schema.Tells table bound (d.variant, d.target, false) holes) ∧
      schema.Tells table (bound + 1) (id, s, isOptional) holes := by
  subst selects
  have fits := (Walk.picks_dispatch _ _ s _ quiet dispatched).1 c rfl
  obtain ⟨own, later⟩ := variant_tells informs near filled distinct fits.target
    (fun tag shared => (fits.tagged tag shared).1) logged each held all tells
  have within : ∀ d ∈ (⟨s.position, u, c.variant.schema, c.target⟩ : Selection) ::
      (gs.map (·.selections)).flatten, d.position = s.position →
      schema.Tells table bound (d.variant, d.target, false) holes :=
    List.forall_mem_cons.2 ⟨fun _ => own, later⟩
  refine ⟨within, tells_of_selections resolved filled (fun d member here => ?_) fun absent => ?_⟩
  · rw [held] at member
    rcases List.mem_append.1 member with earlier | after
    · exact tells d earlier
    · exact within d after here
  · have present :=
      Selection.isSome_last? (held ▸ List.mem_append_right before List.mem_cons_self) rfl rfl
    rw [absent] at present
    cases present

end Unions

/-- The selections of the structural pass tell the holes that it met, unless it was cut off. -/
theorem check_informs (distinct : schema.HasDistinctFields) (settings : Settings)
    (table : List Selection)
    (level : Nat) : schema.Informs settings table level := by
  induction level with
  | zero =>
      intro id s isOptional before f bound logged uncut
      exact absurd (isCut_of_check_zero logged) uncut
  | succ level ih =>
      intro id s isOptional before f bound logged uncut held tells
      rcases check_resolves logged with ⟨name, dangling⟩ | ⟨target, node, resolved⟩
      · have none := (check_dangling dangling).functional ⟨f, logged, rfl⟩
        rw [holes_dangling dangling, none]
        exact ⟨by simp, tells_dangling dangling⟩
      obtain ⟨gs, each, gathers⟩ := check_gathers logged
      have selected : f.selections = schema.choices settings level id s ++ _ := gathers.selections
      have each := gathers.uncut uncut each
      cases filled : s.value.content.isHole with
      | true =>
          rw [calls_hole filled] at each
          rw [choices_hole filled, List.forall₂_nil_left_iff.1 each] at selected
          rw [holes_hole filled, selected]
          exact ⟨by simp, tells_hole resolved filled⟩
      | false =>
          have found := (resolve_found resolved).1
          rw [holes_filled filled] at tells ⊢
          rw [calls_found resolved filled] at each tells ⊢
          rw [choices_found resolved filled] at selected
          cases plain : node.shape.isUnion with
          | false =>
              rw [Walk.calls_plain plain] at each tells ⊢
              rw [Walk.choices_plain plain, List.nil_append] at selected
              rw [selected] at held ⊢
              have near := fun d member => (tells d member).1
              have told := parts_tell plain each distinct found ih held near bound
              rw [← Site.required_eq plain table] at told ⊢
              refine ⟨fun d member here => ?_, tells_of_parts resolved filled told⟩
              obtain ⟨i, strict⟩ := parts_below plain each d member
              exact absurd here (ne_of_below strict)
          | true =>
              obtain ⟨shape, metadata⟩ := node
              cases shape with
              | union variants representation =>
                  have shaped := check_selects_shape resolved filled ⟨f, logged, rfl⟩
                  rcases union_selects shaped with
                    ⟨quiet, dispatched, none⟩ | ⟨c, quiet, ds, dispatched, ⟨g, checked, -⟩, -⟩
                  · rw [Walk.calls_union dispatched] at tells ⊢
                    rw [none] at held ⊢
                    rw [List.append_nil] at held
                    have earlier :=
                      fun d member (_ : d.position = s.position) => (tells d (held ▸ member)).2
                    exact ⟨by simp, tells_of_selections resolved filled earlier fun _ => rfl⟩
                  · rw [Walk.calls_union dispatched] at each tells ⊢
                    rw [Walk.choices_union dispatched] at selected
                    have near := fun d member => (tells d member).1
                    have earlier := fun d member => (tells d member).2
                    exact chosen_tells ih near filled distinct resolved dispatched checked each selected held rfl
                      earlier
              | _ => cases plain

end Schema

end DocSchema
