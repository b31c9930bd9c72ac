import DocSchema.Proofs.Origins

set_option autoImplicit false

namespace DocSchema

open Relation (ReflTransGen TransGen)

def Selection.below (p : List Nat) (table : List Selection) : List Selection :=
  table.filter fun c => p.isPrefixOf c.position

namespace Selection

variable {p q : List Nat} {table cs : List Selection}

theorem mem_below {c : Selection} : c ∈ below p table ↔ c ∈ table ∧ p <+: c.position := by
  simp [below]

theorem below_append (cs ds : List Selection) : below p (cs ++ ds) = below p cs ++ below p ds := by
  simp [below]

theorem below_below (deeper : p <+: q) : below q (below p table) = below q table := by
  unfold below
  rw [List.filter_filter]
  apply List.filter_congr
  intro c _
  cases inside : q.isPrefixOf c.position with
  | false => rfl
  | true =>
      have further := deeper.trans (List.isPrefixOf_iff_prefix.1 inside)
      rw [List.isPrefixOf_iff_prefix.2 further]
      rfl

theorem below_eq_self (all : ∀ c ∈ cs, p <+: c.position) : below p cs = cs := by
  apply List.filter_eq_self.2
  intro c member
  exact List.isPrefixOf_iff_prefix.2 (all c member)

theorem below_eq_nil (none : ∀ c ∈ cs, ¬ p <+: c.position) : below p cs = [] := by
  apply List.filter_eq_nil_iff.2
  intro c member inside
  exact none c member (List.isPrefixOf_iff_prefix.1 inside)

/-- Different parts of one value have nothing below in common. -/
theorem apart_of_below {i j : Nat} (first : p ++ [i] <+: q) (second : p ++ [j] <+: q) : i = j := by
  have same : p ++ [i] = p ++ [j] :=
    (List.prefix_of_prefix_length_le first second (by simp)).eq_of_length (by simp)
  exact List.singleton_inj.1 (List.append_cancel_left same)

/-- Nothing lies below two of several parts that are apart. -/
theorem separate_of_apart {α : Type} {site : α → Site} {s : Site} {items : List α}
    (apart : s.Apart (items.map site)) :
    items.Pairwise fun a b => ∀ q, (site a).position <+: q → ¬ (site b).position <+: q := by
  obtain ⟨near, distinct⟩ := apart
  rw [List.map_map, List.Nodup, List.pairwise_map] at distinct
  refine distinct.imp_of_mem fun {a b} left right different q inside other => different ?_
  obtain ⟨i, first⟩ := near (site a) (List.mem_map_of_mem left)
  obtain ⟨j, second⟩ := near (site b) (List.mem_map_of_mem right)
  rw [first] at inside
  rw [second] at other
  rw [Function.comp_apply, Function.comp_apply, first, second, apart_of_below inside other]

/-- What lies below one of several parts is what was selected for it. -/
theorem below_flatten {α : Type} {site : α → Site} {selects : α → List Selection → Prop} {s : Site}
    {items : List α} {gs : List (List Selection)} (apart : s.Apart (items.map site))
    (each : List.Forall₂ (fun a g => selects a g ∧
      ∀ c ∈ g, (site a).position <+: c.position) items gs) :
    ∀ a ∈ items, selects a (below (site a).position gs.flatten) := by
  have separate := separate_of_apart apart
  clear apart
  induction each with
  | nil => simp
  | @cons a g items gs first rest ih =>
      obtain ⟨apart, others⟩ := List.pairwise_cons.1 separate
      obtain ⟨selected, inside⟩ := first
      have elsewhere : ∀ c ∈ gs.flatten, ∃ b ∈ items, (site b).position <+: c.position := by
        intro c member
        obtain ⟨b, listed, h, related, within⟩ := exists_of_mem_flatten rest c member
        exact ⟨b, listed, related.2 c within⟩
      intro x member
      rw [List.flatten_cons, below_append]
      rcases List.mem_cons.1 member with rfl | later
      · rw [below_eq_self inside, below_eq_nil, List.append_nil]
        · exact selected
        · intro c listed here
          obtain ⟨b, other, there⟩ := elsewhere c listed
          exact apart b other c.position here there
      · rw [below_eq_nil fun c listed => apart x later c.position (inside c listed),
          List.nil_append]
        exact ih others x later

variable {union : SchemaId} {s : Site}

theorem last?_eq_none (absent : ∀ c ∈ below s.position table,
    c.union = union → c.position ≠ s.position) :
    last? table union s = none := by
  unfold last?
  rw [List.find?_eq_none]
  intro c member found
  rw [List.mem_reverse] at member
  simp only [Bool.and_eq_true, beq_iff_eq] at found
  exact absent c (mem_below.2 ⟨member, found.2 ▸ List.prefix_rfl⟩) found.1 found.2

/-- The last selection is one for the union and the value. -/
theorem last?_mem {d : Selection} (last : last? table union s = some d) :
    d ∈ below s.position table ∧ d.union = union ∧ d.position = s.position := by
  have listed := List.mem_reverse.1 (List.mem_of_find?_eq_some last)
  have hit := List.find?_some last
  simp only [Bool.and_eq_true, beq_iff_eq] at hit
  exact ⟨mem_below.2 ⟨listed, hit.2 ▸ List.prefix_rfl⟩, hit.1, hit.2⟩

theorem isSome_last? {c : Selection} (member : c ∈ below s.position table) (found : c.union = union)
    (here : c.position = s.position) : (last? table union s).isSome = true := by
  unfold last?
  rw [List.find?_isSome]
  exact ⟨c, List.mem_reverse.2 (mem_below.1 member).1, by simp [found, here]⟩

/-- The last selection says what all of them say. -/
theorem last?_eq_some {c : Selection} (member : c ∈ below s.position table)
    (found : c.union = union) (here : c.position = s.position)
    (same : ∀ d ∈ below s.position table, d.union = union → d.position = s.position →
      d.variant = c.variant ∧ d.target = c.target) :
    ∃ d, last? table union s = some d ∧ d.variant = c.variant ∧ d.target = c.target := by
  have present := isSome_last? member found here
  obtain ⟨d, last⟩ := Option.isSome_iff_exists.1 present
  obtain ⟨listed, named, placed⟩ := last?_mem last
  exact ⟨d, last, same d listed named placed⟩

end Selection

namespace Schema

variable {schema : Schema} {settings : Settings} {id target : SchemaId} {node : SchemaNode}
  {s : Site} {table : List Selection} {level : Nat}

/-- Whether a selection comes from a union at the same value, from which the type is reached. -/
structure Precedes (schema : Schema) (settings : Settings) (id : SchemaId) (s : Site)
    (c : Selection) :
    Prop where
  position : c.position = s.position
  reached : TransGen schema.Leads c.union id
  chosen : settings.isLenient = false → schema.Chooses s c

/-- Whether a table holds what a walk over a value selects, and nothing else for the value, except
for the unions from which the type is reached. -/
def Records (schema : Schema) (settings : Settings) (table : List Selection) (level : Nat)
    (id : SchemaId) (s : Site) : Prop :=
  ∃ before cs, (schema.check settings level id s).Selects cs ∧
    Selection.below s.position table = before ++ cs ∧ ∀ c ∈ before, schema.Precedes settings id s c

/-- Where variants have to be named, a union chooses for a value but one variant. -/
theorem Chooses.unique {c : Selection} {variants : List (Variant SchemaId)}
    {representation : Representation} {metadata : Metadata} {choice : Option Choice} {f : Findings}
    (chooses : schema.Chooses s c) (explicit : settings.isLenient = false)
    (found : schema.node? c.union = some ⟨.union variants representation, metadata⟩)
    (logged : ((schema.walk settings level).dispatch ⟨c.union, variants, representation⟩ s).log =
      .ok (choice, f)) :
    ∃ chosen, choice = some chosen ∧ chosen.variant.schema = c.variant ∧
      chosen.target = c.target := by
  obtain ⟨variants', representation', metadata', chosen, f', found', logged', same⟩ := chooses
  cases found.symm.trans found'
  rw [walk, explicit, Walk.dispatch_explicit schema _ fun _ _ => pure (), logged'] at logged
  cases logged
  exact ⟨chosen, rfl, same⟩

/-- A table that records a walk over a value records the walks over its parts. -/
theorem Records.parts (distinct : schema.HasDistinctFields)
    (records : schema.Records settings table (level + 1) id s)
    (resolved : schema.resolve id = .found target node) (filled : s.value.content.isHole = false)
    (plain : node.shape.isUnion = false) :
    ∀ p ∈ s.required table target node.shape, schema.Records settings table level p.1 p.2.1 := by
  obtain ⟨before, cs, checked, held, precedes⟩ := records
  obtain ⟨gs, each, rfl⟩ :=
    Walk.selects_shape target plain (check_selects_shape resolved filled checked)
  have apart := s.apart_required target plain
    (distinct target node (resolve_found resolved).1)
  have inside : List.Forall₂ (fun p g => (schema.check settings level p.1 p.2.1).Selects g ∧
      ∀ c ∈ g, p.2.1.position <+: c.position) (s.required [] target node.shape) gs :=
    each.imp fun {p g} selects =>
      ⟨selects, fun c member => (check_yields level _ _ _ selects c member).below⟩
  intro p member
  rw [Site.required_eq plain] at member
  obtain ⟨i, position⟩ := apart.1 p.2.1 (List.mem_map_of_mem member)
  have none : Selection.below p.2.1.position before = [] := by
    apply Selection.below_eq_nil
    intro c listed strict
    exact ne_of_below (position ▸ strict) (precedes c listed).position
  refine ⟨[], _, Selection.below_flatten apart inside p member, ?_, by simp⟩
  rw [← Selection.below_below (position ▸ List.prefix_append _ _), held, Selection.below_append,
    none]

/-- What comes before a union at a value is no other choice of the union: either the union would
reach itself, or it chooses the same again. -/
theorem Precedes.same {c : Selection} {variants : List (Variant SchemaId)}
    {representation : Representation} {metadata : Metadata} {choice : Option Choice} {f : Findings}
    (guarded : settings.isLenient = true → schema.IsGuarded)
    (precedes : schema.Precedes settings id s c) (leads : ReflTransGen schema.Leads id c.union)
    (found : schema.node? c.union = some ⟨.union variants representation, metadata⟩)
    (logged : ((schema.walk settings level).dispatch ⟨c.union, variants, representation⟩ s).log =
      .ok (choice, f)) :
    ∃ chosen, choice = some chosen ∧ chosen.variant.schema = c.variant ∧
      chosen.target = c.target := by
  cases lenient : settings.isLenient with
  | true =>
      have again := precedes.reached.trans_left leads
      exact absurd again (guarded lenient c.union variants representation metadata found)
  | false => exact (precedes.chosen lenient).unique lenient found logged

/-- Nor does what follows a union at a value. -/
theorem Yields.same {c : Choice} {d : Selection} {variants : List (Variant SchemaId)}
    {representation : Representation} {metadata : Metadata} {f : Findings}
    (guarded : settings.isLenient = true → schema.IsGuarded)
    (yields : schema.Yields settings c.variant.schema c.target d)
    (fits : c.Fits ⟨d.union, variants, representation⟩ s)
    (found : schema.node? d.union = some ⟨.union variants representation, metadata⟩)
    (logged : ((schema.walk settings level).dispatch ⟨d.union, variants, representation⟩ s).log =
      .ok (some c, f)) (here : d.position = s.position) :
    d.variant = c.variant.schema ∧ d.target = c.target := by
  rcases fits.target with same | ⟨i, position⟩
  · rw [same] at yields
    cases lenient : settings.isLenient with
    | true =>
        have again := TransGen.head' (.variant found fits.variant) (yields.reached here)
        exact absurd again (guarded lenient d.union variants representation metadata found)
    | false =>
        obtain ⟨chosen, some, variant, target⟩ :=
          (yields.chosen here lenient).unique lenient found logged
        have same := Option.some.inj some
        subst same
        exact ⟨variant.symm, target.symm⟩
  · exact absurd here (ne_of_below (position ▸ yields.below))

/-- A table that records a walk over a value of a union records the walk over the content. -/
theorem Records.content {before ds : List Selection} {c : Choice} {f : Findings}
    {variants : List (Variant SchemaId)} {representation : Representation} {metadata : Metadata}
    (held : Selection.below s.position table =
      before ++ ⟨s.position, target, c.variant.schema, c.target⟩ :: ds)
    (precedes : ∀ d ∈ before, schema.Precedes settings id s d)
    (leads : ReflTransGen schema.Leads id target)
    (found : schema.node? target = some ⟨.union variants representation, metadata⟩)
    (logged : ((schema.walk settings level).dispatch ⟨target, variants, representation⟩ s).log =
      .ok (some c, f)) (fits : c.Fits ⟨target, variants, representation⟩ s)
    (yields : ∀ d ∈ ds, schema.Yields settings c.variant.schema c.target d)
    (rest : ((schema.walk settings level).variant c.variant.schema c.tag c.target).Selects ds) :
    schema.Records settings table (schema.variantLevel c.tag c.variant.schema level)
      c.variant.schema c.target := by
  have step : schema.Leads target c.variant.schema := .variant found fits.variant
  have checked := variant_check rest
  rcases fits.target with same | ⟨i, position⟩
  · refine ⟨before ++ [⟨s.position, target, c.variant.schema, c.target⟩], ds, checked, ?_, ?_⟩
    · rw [List.append_assoc, List.singleton_append, ← held, same]
    · rw [same]
      intro d member
      rcases List.mem_append.1 member with earlier | own
      · have precedes := precedes d earlier
        exact ⟨precedes.position, (precedes.reached.trans_left leads).tail step, precedes.chosen⟩
      · have same := List.mem_singleton.1 own
        subst same
        refine ⟨rfl, .single step, fun explicit => ?_⟩
        refine ⟨variants, representation, metadata, c, f, found, ?_, rfl, same⟩
        rw [← logged, walk, explicit]
        rfl
  · have strict : ∀ d ∈ before ++ [⟨s.position, target, c.variant.schema, c.target⟩],
        ¬ c.target.position <+: d.position := by
      intro d member inside
      apply ne_of_below (position ▸ inside)
      rcases List.mem_append.1 member with earlier | own
      · exact (precedes d earlier).position
      · have same := List.mem_singleton.1 own
        subst same
        rfl
    refine ⟨[], ds, checked, ?_, by simp⟩
    rw [← Selection.below_below (position ▸ List.prefix_append _ _), held, ← List.singleton_append,
      ← List.append_assoc, Selection.below_append, Selection.below_eq_nil strict,
      Selection.below_eq_self fun d member => (yields d member).below]

/-- A table that records a walk over a value of a union holds the choice of the union, if there is
one, and records the walk over the content. -/
theorem Records.union {variants : List (Variant SchemaId)} {representation : Representation}
    {metadata : Metadata} (guarded : settings.isLenient = true → schema.IsGuarded)
    (records : schema.Records settings table (level + 1) id s)
    (resolved : schema.resolve id = .found target ⟨.union variants representation, metadata⟩)
    (filled : s.value.content.isHole = false) :
    (∃ f, ((schema.walk settings level).dispatch ⟨target, variants, representation⟩ s).log =
        .ok (none, f) ∧ s.required table target (.union variants representation) = []) ∨
      ∃ c f, ((schema.walk settings level).dispatch ⟨target, variants, representation⟩ s).log =
          .ok (some c, f) ∧
        s.required table target (.union variants representation) =
          [(c.variant.schema, c.target, false)] ∧
        schema.Records settings table (schema.variantLevel c.tag c.variant.schema level)
          c.variant.schema c.target := by
  obtain ⟨before, cs, checked, held, precedes⟩ := records
  obtain ⟨found, leads⟩ := resolve_found resolved
  unfold Site.required
  rcases union_selects (check_selects_shape resolved filled checked) with
    ⟨f, logged, rfl⟩ | ⟨c, f, ds, logged, rest, rfl⟩
  · refine .inl ⟨f, logged, ?_⟩
    -- An earlier selection of this union for this value would be its choice, and it has none.
    have none : Selection.last? table target s = none := by
      refine Selection.last?_eq_none fun d member union position => ?_
      rw [held, List.append_nil] at member
      subst union
      obtain ⟨chosen, some, -⟩ := (precedes d member).same guarded leads found logged
      cases some
    rw [none]
  · have fits := (Walk.picks_dispatch _ _ s _ f logged).1 c rfl
    have yields := variant_yields (check_yields level) rest
    have same : ∀ d ∈ Selection.below s.position table, d.union = target → d.position = s.position →
        d.variant = c.variant.schema ∧ d.target = c.target := by
      intro d member union here
      subst union
      rw [held] at member
      rcases List.mem_append.1 member with earlier | later
      · obtain ⟨chosen, some, variant, target⟩ :=
          (precedes d earlier).same guarded leads found logged
        have same := Option.some.inj some
        subst same
        exact ⟨variant.symm, target.symm⟩
      · rcases List.mem_cons.1 later with own | inside
        · rw [own]
          exact ⟨rfl, rfl⟩
        · exact (yields d inside).same guarded fits found logged here
    have member := held ▸ List.mem_append_right before List.mem_cons_self
    obtain ⟨d, last, variant, content⟩ := Selection.last?_eq_some member rfl rfl same
    refine .inr ⟨c, f, logged, ?_, .content held precedes leads found logged fits yields rest⟩
    rw [last]
    simp only [variant, content]

end Schema

end DocSchema
