import DocSchema.Proofs.PartChecks
import DocSchema.Proofs.Readings

set_option autoImplicit false

namespace DocSchema

namespace Decides

variable {schema : Schema} {p : Prop} {next : Option Choice → Check} {u : UnionType} {s : Site}

/-- Refusing a value leaves nothing to go on with. -/
theorem refuse {path : Path} {m : Mismatch} (skips : next none = Pure.pure ()) :
    Decides schema (Walk.refuse path m >>= next) False := by
  apply of_log (Walker.log_bind_assoc _ _ _)
  have rest : Decides schema (Pure.pure none >>= next) True :=
    of_log (Walker.log_pure_bind _ _) (skips ▸ pure)
  exact (report.both rest).congr (by simp)

theorem choose {name : Bytes} {target : Site} {tagPath : Path} {tag : Option Bytes}
    {admits : Variant SchemaId → Prop} (skips : next none = Pure.pure ())
    (each : ∀ v, u.find? name = some v → Decides schema (next (some ⟨v, target, tag⟩)) (admits v)) :
    Decides schema (Walk.choose u name target tagPath tag >>= next)
      (∃ v, u.find? name = some v ∧ admits v) := by
  unfold Walk.choose
  cases found : u.find? name with
  | none => exact (refuse skips).congr (by simp)
  | some v => exact (of_log (Walker.log_pure_bind _ _) (each v found)).congr (by simp)

theorem agreed {extension : Option Bytes} {name : Bytes} {chosen : Walker (Option Choice)}
    (skips : next none = Pure.pure ()) (decides : Decides schema (chosen >>= next) p) :
    Decides schema (Walk.agreed s extension name chosen >>= next)
      ((∀ other ∈ extension, other = name) ∧ p) := by
  unfold Walk.agreed
  by_cases conflict : Walk.conflicts extension name = true
  · rw [if_pos conflict]
    apply (refuse skips).congr
    rw [false_iff]
    rintro ⟨agrees, -⟩
    simp only [Walk.conflicts, Option.any_eq_true, bne_iff_ne] at conflict
    obtain ⟨other, named, different⟩ := conflict
    exact different (agrees other named)
  · rw [if_neg conflict]
    apply decides.congr
    have agrees : ∀ other ∈ extension, other = name := by
      intro other named
      by_contra different
      exact conflict ((Option.any_eq_true _ _).2 ⟨other, named, bne_iff_ne.2 different⟩)
    exact ⟨fun holds => ⟨agrees, holds⟩, And.right⟩

theorem withTag {field : Site} {tagged : Bytes → Walker (Option Choice)} {admits : Bytes → Prop}
    (skips : next none = Pure.pure ())
    (each : ∀ name, Decides schema (tagged name >>= next) (admits name)) :
    Decides schema (Walk.withTag field tagged >>= next)
      (∃ t, field.value.text? = some t ∧ admits t.content) := by
  unfold Walk.withTag
  cases field.value.text? with
  | none => exact (refuse skips).congr (by simp)
  | some t => exact (each t.content).congr (by simp)

theorem select {c : Selection} (canFollow : schema.CanFollow c) :
    Decides schema (Walker.select c) True :=
  ⟨_, Walker.log_select c, by simpa using canFollow, by simp⟩

end Decides

namespace Walk

/-- What a walk has to be for its checks of unions to decide conformance: it infers no variants, and
it decides which parts are of which types. -/
structure DecidesUnions (w : Walk) (parts : SchemaId → Value → Prop) (u : UnionType) : Prop where
  sound : w.schema.IsSound
  explicit : w.isLenient = false
  below : w.DecidesParts parts
  inside : ∀ v ∈ u.variants, w.schema.contains v.schema = true

end Walk

namespace Decides

variable {w : Walk} {parts : SchemaId → Value → Prop} {u : UnionType} {s : Site}

theorem variant {id : SchemaId} {tag : Option Bytes} (decides : w.DecidesUnions parts u)
    (inside : w.schema.contains id = true) (filled : s.value.IsFilled) :
    Decides w.schema (w.variant id tag s)
      (AdmitsVariant w.schema parts id tag (some s.value)) := by
  unfold Walk.variant
  cases tag with
  | none => exact decides.below id s inside filled
  | some name =>
      obtain ⟨node, resolved⟩ := decides.sound.resolves id inside
      have children := decides.sound.children resolved
      refine congr (follow resolved fun target => ?_) resolved.exists_iff.symm
      obtain ⟨shape, metadata⟩ := node
      cases shape
      case record fields allowsUnknown =>
        exact record decides.below filled fun f member =>
          children f.schema (List.mem_map_of_mem member)
      case null =>
        apply unknownFields.congr
        rw [← s.entries_map, List.forall_mem_map]
        simp
      all_goals exact decides.below id s inside filled

end Decides

namespace Walk

/-- What comes after the search for the variant: the check of its content. -/
def content (w : Walk) (u : UnionType) (s : Site) : Option Choice → Check
  | none => pure ()
  | some c => do
    Walker.select ⟨s.position, u.id, c.variant.schema, c.target⟩
    w.variant c.variant.schema c.tag c.target

theorem union_eq (w : Walk) (u : UnionType) (s : Site) :
    w.union u s = w.dispatch u s >>= w.content u s := rfl

end Walk

namespace Decides

variable {w : Walk} {parts : SchemaId → Value → Prop} {u : UnionType} {s target : Site}
  {extension : Option Bytes}

theorem chooseNamed {name : Bytes} {tagPath : Path} {tag : Option Bytes}
    (decides : w.DecidesUnions parts u) (filled : target.value.IsFilled) :
    Decides w.schema (Walk.choose u name target tagPath tag >>= w.content u s)
      (AdmitsNamed w.schema parts u name (some target.value) tag) := by
  apply choose rfl
  intro v found
  have inside := decides.inside v (List.mem_of_find?_eq_some found)
  exact ((select ⟨inside, filled⟩).both (variant decides inside filled)).congr (by simp)

theorem byExtension (decides : w.DecidesUnions parts u) (filled : target.value.IsFilled) :
    Decides w.schema (w.byExtension u target extension >>= w.content u s)
      (∃ name, extension = some name ∧
        AdmitsNamed w.schema parts u name (some target.value) none) := by
  unfold Walk.byExtension
  cases extension with
  | some name => exact (chooseNamed decides filled).congr (by simp)
  | none =>
      refine congr (p := False) ?_ (by simp)
      simp only [Walk.untagged, decides.explicit, Bool.false_eq_true, ↓reduceIte]
      cases u.representation <;> exact refuse rfl

theorem contentless {content name : Bytes} {tagPath : Path} (decides : w.DecidesUnions parts u) :
    Decides w.schema (w.contentless u content name s tagPath)
      (∃ v, u.find? name = some v ∧
        ∃ node, w.schema.Resolves v.schema node ∧ node.shape = .null) := by
  unfold Walk.contentless
  cases found : u.find? name with
  | none => exact report.congr (by simp)
  | some v =>
      have inside := decides.inside v (List.mem_of_find?_eq_some found)
      obtain ⟨node, resolved⟩ := decides.sound.resolves v.schema inside
      refine (follow resolved fun target => expect).congr ?_
      have null : node.shape.isNull = true ↔ node.shape = .null := by
        cases node.shape <;> simp [Shape.isNull]
      rw [null]
      constructor
      · intro shaped
        exact ⟨v, rfl, node, resolved, shaped⟩
      · rintro ⟨v', same, other, again, shaped⟩
        have same := Option.some.inj same
        subst same
        exact resolved.functional again ▸ shaped

theorem adjacentNamed {entries : List (Key × Value)} {content name : Bytes} {tagPath : Path}
    (decides : w.DecidesUnions parts u) (filled : s.value.IsFilled)
    (map : s.value.content = .map entries) :
    Decides w.schema (w.adjacentNamed u content name s tagPath >>= w.content u s)
      (∃ part, HoldsField entries content part ∧ AdmitsNamed w.schema parts u name part none) := by
  have holds := Site.field?_holds map content
  unfold Walk.adjacentNamed
  cases found : s.field? content with
  | some part =>
      rw [found] at holds
      apply (chooseNamed decides (filled.fieldSite found)).congr
      constructor
      · intro admitted
        exact ⟨some part.value, holds, admitted⟩
      · rintro ⟨other, again, admitted⟩
        have same := holds.functional filled map again
        subst same
        exact admitted
  | none =>
      rw [found] at holds
      have rest : Decides w.schema (Pure.pure none >>= w.content u s) True :=
        of_log (Walker.log_pure_bind _ _) pure
      apply (of_log (Walker.log_bind_assoc _ _ _) ((contentless decides).both rest)).congr
      constructor
      · rintro ⟨admitted, -⟩
        exact ⟨none, holds, admitted⟩
      · rintro ⟨other, again, admitted⟩
        have same := holds.functional filled map again
        subst same
        exact ⟨admitted, trivial⟩

end Decides

section External

variable {u : UnionType}

theorem find?_isSome {name : Bytes} :
    (u.find? name).isSome = true ↔ ∃ v ∈ u.variants, v.name = name := by
  simp [UnionType.find?, List.find?_isSome]

theorem Walk.length_namedEntries (u : UnionType) (entries : List (Key × Site)) :
    (Walk.namedEntries u entries).length ≤ entries.length := by
  refine Nat.le_trans (List.length_filterMap_le _ _) (Nat.le_of_eq ?_)
  exact List.length_mapIdx

theorem mem_namedEntries {entries : List (Key × Site)} {i : Nat} {name : Bytes} {content : Site} :
    (i, name, content) ∈ Walk.namedEntries u entries ↔
      ∃ inside : i < entries.length, entries[i].1.spelling? = some name ∧
        (∃ v ∈ u.variants, v.name = name) ∧ entries[i].2 = content := by
  rw [← find?_isSome, Walk.namedEntries, List.mem_filterMap]
  constructor
  · rintro ⟨⟨j, key, part⟩, member, named⟩
    obtain ⟨k, inside, same⟩ := List.mem_mapIdx.1 member
    obtain ⟨rfl, entry⟩ := Prod.mk.inj same
    obtain ⟨other, spelled, chosen⟩ := Option.bind_eq_some_iff.1 named
    split at chosen
    case isTrue declared =>
      cases chosen
      refine ⟨inside, ?_, declared, ?_⟩ <;> rw [entry]
      exact spelled
    case isFalse => cases chosen
  · rintro ⟨inside, spelled, declared, rfl⟩
    refine ⟨(i, entries[i]), List.mem_mapIdx.2 ⟨i, inside, rfl⟩, ?_⟩
    simp [spelled, declared]

/-- Without the entry at an index a list is empty if it holds nothing else. -/
theorem eraseIdx_eq_nil_iff {sites : List (Key × Site)} {i : Nat} (inside : i < sites.length) :
    sites.eraseIdx i = [] ↔
      sites.map (fun e => (e.1, e.2.value)) = [(sites[i].1, sites[i].2.value)] := by
  have shorter := List.length_eraseIdx_of_lt inside
  constructor
  · intro alone
    rw [alone, List.length_nil] at shorter
    obtain ⟨e, rfl⟩ := List.length_eq_one_iff.1 (show sites.length = 1 by omega)
    have same : i = 0 := by simpa using inside
    subst same
    rfl
  · intro single
    have length := congrArg List.length single
    rw [List.length_map, List.length_singleton] at length
    exact List.length_eq_zero_iff.1 (by omega)

end External

namespace Decides

variable {w : Walk} {parts : SchemaId → Value → Prop} {u : UnionType} {s : Site}
  {extension : Option Bytes}

theorem external (decides : w.DecidesUnions parts u) (filled : s.value.IsFilled) :
    Decides w.schema (w.external u s extension >>= w.content u s)
      (AdmitsReading w.schema parts u .external extension s.value) := by
  have entries := s.entries_map
  unfold Walk.external
  dsimp only
  generalize s.entries?.getD [] = sites at entries
  cases named : Walk.namedEntries u sites with
  | nil =>
      have unnamed : ∀ e ∈ s.value.entries, ∀ other, e.1.spelling? = some other →
          ¬ ∃ v ∈ u.variants, v.name = other := by
        rw [← entries, List.forall_mem_map]
        intro e member other spelled declared
        obtain ⟨i, inside, rfl⟩ := List.getElem_of_mem member
        have listed := mem_namedEntries.2 ⟨inside, spelled, declared, rfl⟩
        rw [named] at listed
        cases listed
      rw [AdmitsReading.external_iff_of_unnamed unnamed]
      cases extension with
      | none => exact (refuse rfl).congr (by simp)
      | some name =>
          simp only [Option.isSome_some, ↓reduceIte]
          exact byExtension decides filled
  | cons first rest =>
      obtain ⟨i, name, content⟩ := first
      obtain ⟨inside, spelled, declared, rfl⟩ := mem_namedEntries.1
        (named ▸ List.mem_cons_self : (i, name, content) ∈ Walk.namedEntries u sites)
      have member : (sites[i].1, sites[i].2.value) ∈ s.value.entries := by
        rw [← entries]
        exact List.mem_map_of_mem (f := fun e : Key × Site => (e.1, e.2.value))
          (List.getElem_mem inside)
      rw [AdmitsReading.external_iff member spelled declared]
      cases rest with
      | nil =>
          have filledContent : sites[i].2.value.IsFilled :=
            filled.entry (Value.content_of_mem_entries member) member
          have others : Decides w.schema
              (DocSchema.unknownFields (fun _ => false) (sites.eraseIdx i))
                (sites.eraseIdx i = []) :=
            unknownFields.congr (by simp [List.eq_nil_iff_forall_not_mem])
          have alone : sites.eraseIdx i = [] ↔
              s.value.entries = [(sites[i].1, sites[i].2.value)] := by
            rw [← entries]
            exact eraseIdx_eq_nil_iff inside
          rw [← alone]
          exact agreed rfl (of_log (Walker.log_bind_assoc _ _ _)
            (others.both (chooseNamed decides filledContent)))
      | cons second rest =>
          apply (refuse rfl).congr
          rw [false_iff]
          rintro ⟨-, single, -⟩
          have count := Walk.length_namedEntries u sites
          rw [← List.length_map (f := fun e : Key × Site => (e.1, e.2.value)), entries, single,
            named] at count
          simp at count

theorem internal {tag : Bytes} (decides : w.DecidesUnions parts u) (filled : s.value.IsFilled) :
    Decides w.schema (w.internal u tag s extension >>= w.content u s)
      (AdmitsReading w.schema parts u (.internal tag) extension s.value) := by
  unfold Walk.internal
  by_cases isMap : ∃ entries, s.value.content = .map entries
  · obtain ⟨entries, map⟩ := isMap
    obtain ⟨sites, some, same⟩ := Site.entries?_map map
    have holds := Site.field?_holds map tag
    rw [some, if_neg (by simp)]
    cases found : s.field? tag with
    | none =>
        rw [found] at holds
        rw [AdmitsReading.internal_iff_of_untagged filled map holds]
        exact byExtension decides filled
    | some field =>
        rw [found] at holds
        rw [AdmitsReading.internal_iff filled map holds]
        exact withTag rfl fun name => agreed rfl (chooseNamed decides filled)
  · have other : ∀ entries, s.value.content ≠ .map entries := fun entries map =>
      isMap ⟨entries, map⟩
    rw [Site.entries?_none other, if_pos Option.isNone_none]
    apply (refuse rfl).congr
    rw [false_iff]
    exact AdmitsReading.not_internal other

theorem adjacent {tag body : Bytes} (decides : w.DecidesUnions parts u)
    (filled : s.value.IsFilled) :
    Decides w.schema (w.adjacent u tag body s extension >>= w.content u s)
      (AdmitsReading w.schema parts u (.adjacent tag body) extension s.value) := by
  unfold Walk.adjacent
  by_cases isMap : ∃ entries, s.value.content = .map entries
  · obtain ⟨entries, map⟩ := isMap
    obtain ⟨sites, some, same⟩ := Site.entries?_map map
    have holds := Site.field?_holds map tag
    have known : Decides w.schema
        (DocSchema.unknownFields (fun name => name == tag || name == body) sites)
        (∀ e ∈ entries, e.1.spelling? = .some tag ∨ e.1.spelling? = .some body) := by
      apply unknownFields.congr
      rw [← same, List.forall_mem_map]
      apply forall₂_congr
      intro e _
      cases e.1.spelling? <;> simp
    rw [some]
    apply of_log (Walker.log_bind_assoc _ _ _)
    cases found : s.field? tag with
    | some field =>
        rw [found] at holds
        rw [AdmitsReading.adjacent_iff filled map holds]
        apply known.both
        exact withTag rfl fun name => agreed rfl (adjacentNamed decides filled map)
    | none =>
        rw [found] at holds
        rw [AdmitsReading.adjacent_iff_of_untagged filled map holds]
        apply known.both
        cases extension with
        | some name => exact (adjacentNamed decides filled map).congr (by simp)
        | none =>
            refine congr (p := False) ?_ (by simp)
            cases s.field? body with
            | none => exact refuse rfl
            | some part =>
                simp only [Walk.untagged, decides.explicit, Bool.false_eq_true, ↓reduceIte]
                cases u.representation <;> exact refuse rfl
  · have other : ∀ entries, s.value.content ≠ .map entries := fun entries map =>
      isMap ⟨entries, map⟩
    rw [Site.entries?_none other]
    apply (refuse rfl).congr
    rw [false_iff]
    exact AdmitsReading.not_adjacent other

/-- Given what the extension names, each representation decides what names a variant. -/
theorem represented (extension : Option Bytes) (decides : w.DecidesUnions parts u)
    (filled : s.value.IsFilled) :
    Decides w.schema
      ((match u.representation with
        | .tagged => w.byExtension u s extension
        | .external => w.external u s extension
        | .internal tag => w.internal u tag s extension
        | .adjacent tag content => w.adjacent u tag content s extension) >>= w.content u s)
      (AdmitsReading w.schema parts u u.representation extension s.value) := by
  cases u.representation with
  | tagged =>
      rw [AdmitsReading.tagged_iff]
      exact byExtension decides filled
  | external => exact external decides filled
  | internal tag => exact internal decides filled
  | adjacent tag body => exact adjacent decides filled

theorem union (decides : w.DecidesUnions parts u) (filled : s.value.IsFilled) :
    Decides w.schema (w.union u s)
      (AdmitsUnion w.schema parts u.variants u.representation s.value) := by
  rw [Walk.union_eq, Walk.dispatch]
  unfold AdmitsUnion Value.NamesVariant
  cases named : s.value.extension? "variant" with
  | none =>
      apply (represented none decides filled).congr
      constructor
      · rintro ⟨name, content, tag, reads, admitted⟩
        exact ⟨none, name, content, tag, rfl, reads, admitted⟩
      · rintro ⟨extension, name, content, tag, rfl, reads, admitted⟩
        exact ⟨name, content, tag, reads, admitted⟩
  | some extension =>
      cases text : extension.text? with
      | none =>
          simp only [text]
          exact (refuse rfl).congr (by simp)
      | some t =>
          simp only [text]
          apply (represented (some t.content) decides filled).congr
          constructor
          · rintro ⟨name, content, tag, reads, admitted⟩
            exact ⟨_, name, content, tag, ⟨t, rfl, rfl⟩, reads, admitted⟩
          · rintro ⟨extension, name, content, tag, ⟨t', same, rfl⟩, reads, admitted⟩
            have same := Option.some.inj same
            subst same
            exact ⟨name, content, tag, reads, admitted⟩

end Decides

end DocSchema
