import DocSchema.Proofs.Records
import DocSchema.Proofs.UnionChecks

set_option autoImplicit false

namespace DocSchema

def Site.entries (s : Site) : List (Key × Site) :=
  s.entries?.getD []

/-- The name of the field that holds the tag, if there is such a field. -/
def Representation.tag? : Representation → Option Bytes
  | .internal tag => some tag
  | .adjacent tag _ => some tag
  | _ => none

namespace UnionType

variable (schema : Schema) (u : UnionType) (s : Site)

/-- Whether an entry stands beside the one that names the variant, or beside tag and content. -/
def isSibling (key : Key) : Bool :=
  match u.representation with
  | .external => !key.spelling?.any fun name => (u.find? name).isSome
  | .adjacent tag content => !key.spelling?.any fun name => name == tag || name == content
  | _ => false

def siblings : List Finding :=
  (s.entries.filter fun e => u.isSibling e.1).map fun e => ⟨e.2.path, .unknownField e.1.label⟩

/-- Whether the value itself, apart from its extension, gives a name: by a key that names a variant,
or by the text of its tag field. -/
inductive Tells : Bytes → Prop
  | key {e : Key × Site} {name : Bytes} (external : u.representation = .external)
      (inside : e ∈ s.entries) (spelled : e.1.spelling? = some name)
      (declared : (u.find? name).isSome = true) : Tells name
  | field {tag : Bytes} {part : Site} {t : Text} (tagged : u.representation.tag? = some tag)
      (found : s.field? tag = some part) (text : part.value.text? = some t) : Tells t.content

/-- Whether a value names a variant, and nothing in it another one. -/
structure Names (name : Bytes) : Prop where
  given : s.value.NamesVariant (some name) ∨ u.Tells s name
  /-- The extension is no text of another name. -/
  extension : ∃ extension, s.value.NamesVariant extension ∧ ∀ other ∈ extension, other = name
  said : ∀ other, u.Tells s other → other = name
  /-- The tag field is a text. -/
  field : ∀ tag ∈ u.representation.tag?, ∀ part ∈ s.field? tag, part.value.text?.isSome = true

/-- Where the content of a named variant lies, and which tag shares its map. -/
inductive Locates (name : Bytes) : Site → Option Bytes → Prop
  | whole (apart : ∀ tag content, u.representation ≠ .adjacent tag content)
      (silent : ∀ other, ¬ u.Tells s other) : Locates name s none
  | entry {e : Key × Site} (external : u.representation = .external) (inside : e ∈ s.entries)
      (spelled : e.1.spelling? = some name) : Locates name e.2 none
  | shared {tag : Bytes} (internal : u.representation = .internal tag)
      (found : (s.field? tag).isSome = true) : Locates name s (some tag)
  | content {tag content : Bytes} {part : Site}
      (adjacent : u.representation = .adjacent tag content)
      (found : s.field? content = some part) : Locates name part none

/-- Whether the content field is left out for a variant without content. -/
structure LacksContent (v : Variant SchemaId) : Prop where
  absent : ∃ tag content, u.representation = .adjacent tag content ∧ s.entries?.isSome = true ∧
    s.field? content = none
  declared : u.find? v.name = some v
  named : u.Names s v.name
  isNull : ∃ target node, schema.resolve v.schema = .found target node ∧ node.shape = .null

/-- The reasons for which a value is of no variant. -/
inductive Refuses : Finding → Prop
  | extension {extension : Value} (found : s.value.extension? "variant" = some extension)
      (noText : extension.text? = none) :
      Refuses ⟨Walk.extensionPath s, .variantExtensionNotText extension.content.kindName⟩
  | noMap {tag : Bytes} (tagged : u.representation.tag? = some tag) (other : s.entries? = none) :
      Refuses ⟨s.path, .wrongKind "map" s.kindName⟩
  | field {tag : Bytes} {part : Site} (tagged : u.representation.tag? = some tag)
      (found : s.field? tag = some part) (noText : part.value.text? = none) :
      Refuses ⟨part.path, .tagFieldNotText part.kindName⟩
  | conflict {extension name : Bytes} (named : s.value.NamesVariant (some extension))
      (said : u.Tells s name) (different : extension ≠ name) :
      Refuses ⟨s.path, .conflictingTags extension name⟩
  | noExtension (tagged : u.representation = .tagged) (unnamed : s.value.NamesVariant none) :
      Refuses ⟨s.path, .missingVariantExtension⟩
  | noKey (external : u.representation = .external) (unnamed : s.value.NamesVariant none)
      (silent : ∀ name, ¬ u.Tells s name) : Refuses ⟨s.path, .missingVariantKey⟩
  | noField {tag : Bytes} {path : Path} (tagged : u.representation.tag? = some tag)
      (absent : s.field? tag = none) (unnamed : s.value.NamesVariant none)
      (place : path = s.path ∨ ∃ content part, u.representation = .adjacent tag content ∧
        s.field? content = some part ∧ path = part.path) :
      Refuses ⟨path, .missingTagField tag⟩
  | unknownExtension {name : Bytes} (named : s.value.NamesVariant (some name))
      (undeclared : u.find? name = none) : Refuses ⟨Walk.extensionPath s, .unknownVariant name⟩
  | unknownField {tag : Bytes} {part : Site} {t : Text} (tagged : u.representation.tag? = some tag)
      (found : s.field? tag = some part) (text : part.value.text? = some t)
      (undeclared : u.find? t.content = none) : Refuses ⟨part.path, .unknownVariant t.content⟩
  | several {names : List Bytes} (external : u.representation = .external)
      (keys : names = s.entries.filterMap fun e => e.1.spelling?.filter fun name => (u.find? name).isSome)
      (several : 2 ≤ names.length) : Refuses ⟨s.path, .severalNamed names⟩
  | noContent {tag content : Bytes} {v : Variant SchemaId} {target : SchemaId} {node : SchemaNode}
      (adjacent : u.representation = .adjacent tag content) (absent : s.field? content = none)
      (named : u.Names s v.name) (declared : u.find? v.name = some v)
      (resolved : schema.resolve v.schema = .found target node) (filled : node.shape ≠ .null) :
      Refuses ⟨s.path ++ [.field content], .missingContent content⟩
  | dangling {tag content name : Bytes} {v : Variant SchemaId}
      (adjacent : u.representation = .adjacent tag content) (absent : s.field? content = none)
      (named : u.Names s v.name) (declared : u.find? v.name = some v)
      (resolved : schema.resolve v.schema = .dangling name) :
      Refuses ⟨s.path, .undefinedType name⟩

end UnionType

inductive Outcome where
  | selected (c : Choice)
  | contentless
  | refused (e : Finding)

namespace Outcome

def choice? : Outcome → Option Choice
  | .selected c => some c
  | _ => none

def errors : Outcome → List Finding
  | .refused e => [e]
  | _ => []

def IsDue (schema : Schema) (u : UnionType) (s : Site) : Outcome → Prop
  | .selected c => u.find? c.variant.name = some c.variant ∧ u.Names s c.variant.name ∧
      u.Locates s c.variant.name c.target c.tag
  | .contentless => ∃ v, u.LacksContent schema s v
  | .refused e => u.Refuses schema s e

end Outcome

/-- Whether the references from a type end, at a type or at a name that is not registered. -/
def Schema.IsResolvable (schema : Schema) (id : SchemaId) : Prop :=
  (∃ target node, schema.resolve id = .found target node) ∨
    ∃ name, schema.resolve id = .dangling name

theorem unknownFields_log (isKnown : Bytes → Bool) (entries : List (Key × Site)) :
    (unknownFields isKnown entries).log = .ok ((), { errors :=
      (entries.filter fun e => !e.1.spelling?.any isKnown).map fun e =>
        ⟨e.2.path, .unknownField e.1.label⟩ }) := by
  induction entries with
  | nil => rfl
  | cons e entries ih =>
      refine (Walker.log_bind_ok (Check.log_expect _ _ _) ih).trans ?_
      cases known : e.1.spelling?.any isKnown <;> simp [known, Findings.append_def]

namespace UnionType

variable {schema : Schema} {u : UnionType} {s : Site} {w : Walk} {extension : Option Bytes}

theorem Tells.of_field {tag name : Bytes} {part : Site} {t : Text} (told : u.Tells s name)
    (tagged : u.representation.tag? = some tag) (found : s.field? tag = some part)
    (text : part.value.text? = some t) : name = t.content := by
  cases told with
  | key external inside spelled declared =>
      rw [external] at tagged
      cases tagged
  | field tagged' found' text' =>
      rw [tagged] at tagged'
      cases tagged'
      rw [found] at found'
      cases found'
      rw [text] at text'
      cases text'
      rfl

/-- Where the tag field is missing, a value itself gives no name. -/
theorem not_tells {tag : Bytes} (tagged : u.representation.tag? = some tag)
    (absent : s.field? tag = none)
    (name : Bytes) : ¬ u.Tells s name := by
  rintro (⟨external, -, -, -⟩ | ⟨tagged', found, -⟩)
  · rw [external] at tagged
    cases tagged
  · rw [tagged] at tagged'
    cases tagged'
    rw [absent] at found
    cases found

/-- The extension names a variant if the value itself gives no name. -/
theorem Names.of_extension {name : Bytes} (named : s.value.NamesVariant (some name))
    (silent : ∀ other, ¬ u.Tells s other)
    (untagged : ∀ tag ∈ u.representation.tag?, s.field? tag = none) : u.Names s name where
  given := .inl named
  extension := ⟨some name, named, by simp⟩
  said := fun other told => absurd told (silent other)
  field := by
    intro tag tagged part found
    rw [untagged tag tagged] at found
    cases found

/-- The tag field names a variant if the extension agrees. -/
theorem Names.of_field {tag : Bytes} {part : Site} {t : Text}
    (named : s.value.NamesVariant extension)
    (agrees : ∀ other ∈ extension, other = t.content) (tagged : u.representation.tag? = some tag)
    (found : s.field? tag = some part) (text : part.value.text? = some t) :
    u.Names s t.content where
  given := .inr (.field tagged found text)
  extension := ⟨extension, named, agrees⟩
  said := fun _ told => told.of_field tagged found text
  field := by
    intro tag' tagged' part' found'
    rw [tagged] at tagged'
    cases tagged'
    rw [found] at found'
    cases found'
    rw [text]
    rfl

/-- A key names a variant if no other one does and the extension agrees. -/
theorem Names.of_key {e : Key × Site} {name : Bytes} (named : s.value.NamesVariant extension)
    (agrees : ∀ other ∈ extension, other = name) (external : u.representation = .external)
    (inside : e ∈ s.entries) (spelled : e.1.spelling? = some name)
    (declared : (u.find? name).isSome = true) (only : ∀ other, u.Tells s other → other = name) :
    u.Names s name where
  given := .inr (.key external inside spelled declared)
  extension := ⟨extension, named, agrees⟩
  said := only
  field := by
    intro tag tagged
    rw [external] at tagged
    cases tagged

/-- Whether a search ends, after these reports, with an outcome that is due. -/
def Ends (schema : Schema) (u : UnionType) (s : Site) (reports : List Finding)
    (x : Walker (Option Choice)) : Prop :=
  ∃ outcome : Outcome, outcome.IsDue schema u s ∧
    x.log = .ok (outcome.choice?, { errors := reports ++ outcome.errors })

theorem Ends.refuse {path : Path} {m : Mismatch} (due : u.Refuses schema s ⟨path, m⟩) :
    Ends schema u s [] (Walk.refuse path m) :=
  ⟨.refused ⟨path, m⟩, due, rfl⟩

theorem Ends.choose {name : Bytes} {target : Site} {path : Path} {tag : Option Bytes}
    (named : u.Names s name) (located : u.Locates s name target tag)
    (unknown : u.find? name = none → u.Refuses schema s ⟨path, .unknownVariant name⟩) :
    Ends schema u s [] (Walk.choose u name target path tag) := by
  unfold Walk.choose
  cases found : u.find? name with
  | none => exact .refuse (unknown found)
  | some v =>
      have same : v.name = name := by simpa using List.find?_some found
      subst same
      exact ⟨.selected ⟨v, target, tag⟩, ⟨found, named, located⟩, rfl⟩

theorem Ends.agreed {name : Bytes} {x : Walker (Option Choice)}
    (named : s.value.NamesVariant extension)
    (told : u.Tells s name) (agree : (∀ other ∈ extension, other = name) → Ends schema u s [] x) :
    Ends schema u s [] (Walk.agreed s extension name x) := by
  unfold Walk.agreed Walk.conflicts
  cases extension with
  | none => exact agree (by simp)
  | some other =>
      by_cases same : other = name
      · subst same
        simp only [Option.any_some, bne_self_eq_false, Bool.false_eq_true, ↓reduceIte]
        exact agree (by simp)
      · simp only [Option.any_some, bne_iff_ne, ne_eq, same, not_false_eq_true, ↓reduceIte]
        exact .refuse (.conflict named told same)

/-- Reports may come before a search. -/
theorem Ends.after {check : Check} {reports : List Finding} {x : Walker (Option Choice)}
    (ends : Ends schema u s [] x) (logged : check.log = .ok ((), { errors := reports })) :
    Ends schema u s reports (check >>= fun _ => x) := by
  obtain ⟨outcome, due, ended⟩ := ends
  exact ⟨outcome, due, (Walker.log_bind_ok logged ended).trans (by simp [Findings.append_def])⟩

theorem Ends.byExtension (explicit : w.isLenient = false) (named : s.value.NamesVariant extension)
    (apart : ∀ tag content, u.representation ≠ .adjacent tag content)
    (wrapped : u.representation = .external → extension.isSome = true)
    (silent : ∀ other, ¬ u.Tells s other)
    (untagged : ∀ tag ∈ u.representation.tag?, s.field? tag = none) :
    Ends schema u s [] (w.byExtension u s extension) := by
  cases extension with
  | some name =>
      exact .choose (.of_extension named silent untagged) (.whole apart silent) fun undeclared =>
        .unknownExtension named undeclared
  | none =>
      show Ends schema u s [] (w.untagged u s)
      unfold Walk.untagged
      rw [explicit]
      cases represented : u.representation with
      | tagged => exact .refuse (.noExtension represented named)
      | external => cases wrapped represented
      | internal tag =>
          have tagged : u.representation.tag? = some tag := by rw [represented]; rfl
          exact .refuse (.noField tagged (untagged tag tagged) named (.inl rfl))
      | adjacent tag content => exact absurd represented (apart tag content)

theorem Ends.internal {tag : Bytes} (explicit : w.isLenient = false)
    (named : s.value.NamesVariant extension) (represented : u.representation = .internal tag) :
    Ends schema u s [] (w.internal u tag s extension) := by
  have tagged : u.representation.tag? = some tag := by rw [represented]; rfl
  unfold Walk.internal
  cases isMap : s.entries? with
  | none => exact .refuse (.noMap tagged isMap)
  | some entries =>
      simp only [Option.isNone_some, Bool.false_eq_true, ↓reduceIte]
      cases found : s.field? tag with
      | none =>
          apply Ends.byExtension explicit named _ _ (not_tells tagged found)
          · intro other same
            rw [tagged] at same
            cases same
            exact found
          · simp [represented]
          · simp [represented]
      | some part =>
          unfold Walk.withTag
          dsimp only
          cases text : part.value.text? with
          | none => exact .refuse (.field tagged found text)
          | some t =>
              apply Ends.agreed named (.field tagged found text)
              intro agrees
              apply Ends.choose (.of_field named agrees tagged found text)
              · exact .shared represented (by rw [found]; rfl)
              · exact .unknownField tagged found text

theorem contentless_found {content : Bytes} (path : Path) {v : Variant SchemaId} {target : SchemaId}
    {node : SchemaNode} (same : w.schema = schema) (declared : u.find? v.name = some v)
    (resolved : schema.resolve v.schema = .found target node) :
    (w.contentless u content v.name s path).log = .ok ((), { errors :=
      if node.shape.isNull then [] else [⟨s.path ++ [.field content], .missingContent content⟩] }) := by
  subst same
  unfold Walk.contentless
  rw [declared]
  exact (Walker.log_bind_of_log (Schema.follow_log resolved) _).trans (Check.log_expect _ _ _)

theorem contentless_dangling {content name : Bytes} (path : Path) {v : Variant SchemaId}
    (same : w.schema = schema) (declared : u.find? v.name = some v)
    (dangling : schema.resolve v.schema = .dangling name) :
    (w.contentless u content v.name s path).log =
      .ok ((), { errors := [⟨s.path, .undefinedType name⟩] }) := by
  subst same
  unfold Walk.contentless Walker.follow Schema.target
  rw [declared]
  dsimp only
  rw [dangling]
  rfl

/-- Without the content field nothing is chosen. -/
theorem adjacentNamed_absent {content name : Bytes} {path : Path} {f : Findings}
    (absent : s.field? content = none)
    (checked : (w.contentless u content name s path).log = .ok ((), f)) :
    (w.adjacentNamed u content name s path).log = .ok (none, f) := by
  unfold Walk.adjacentNamed
  rw [absent]
  show (w.contentless u content name s path >>= fun _ => pure none).log = _
  rw [Walker.log_bind, checked]
  simp [Except.bind, Except.map, Prod.map]

theorem Ends.adjacentNamed {tag content name : Bytes} {path : Path} (same : w.schema = schema)
    (resolvable : ∀ v ∈ u.variants, schema.IsResolvable v.schema)
    (represented : u.representation = .adjacent tag content) (isMap : s.entries?.isSome = true)
    (named : u.Names s name)
    (unknown : u.find? name = none → u.Refuses schema s ⟨path, .unknownVariant name⟩) :
    Ends schema u s [] (w.adjacentNamed u content name s path) := by
  cases absent : s.field? content with
  | some part =>
      unfold Walk.adjacentNamed
      rw [absent]
      exact .choose named (.content represented absent) unknown
  | none =>
      cases declared : u.find? name with
      | none =>
          refine ⟨.refused ⟨path, .unknownVariant name⟩, unknown declared,
            adjacentNamed_absent absent ?_⟩
          unfold Walk.contentless
          rw [declared]
          rfl
      | some v =>
          have called : v.name = name := by simpa using List.find?_some declared
          subst called
          rcases resolvable v (List.mem_of_find?_eq_some declared) with
            ⟨target, node, resolved⟩ | ⟨name, dangling⟩
          · have ended := adjacentNamed_absent absent
              (contentless_found path same declared resolved)
            cases isNull : node.shape.isNull with
            | true =>
                rw [isNull] at ended
                have null : node.shape = .null := by
                  cases shape : node.shape <;> simp [shape, Shape.isNull] at isNull ⊢
                exact ⟨.contentless, ⟨v, ⟨tag, content, represented, isMap, absent⟩, declared, named,
                  target, node, resolved, null⟩, ended⟩
            | false =>
                rw [isNull] at ended
                refine ⟨.refused ⟨s.path ++ [Segment.field content], .missingContent content⟩, ?_,
                  ended⟩
                apply Refuses.noContent represented absent named declared resolved
                intro null
                rw [null] at isNull
                cases isNull
          · exact ⟨.refused ⟨s.path, .undefinedType name⟩,
              .dangling represented absent named declared dangling,
              adjacentNamed_absent absent (contentless_dangling path same declared dangling)⟩

theorem Ends.adjacent {tag content : Bytes} (same : w.schema = schema)
    (explicit : w.isLenient = false) (named : s.value.NamesVariant extension)
    (resolvable : ∀ v ∈ u.variants, schema.IsResolvable v.schema)
    (represented : u.representation = .adjacent tag content) :
    ∃ reports, (reports = [] ∨ reports = u.siblings s) ∧
      Ends schema u s reports (w.adjacent u tag content s extension) := by
  have tagged : u.representation.tag? = some tag := by rw [represented]; rfl
  unfold Walk.adjacent
  cases found : s.entries? with
  | none => exact ⟨[], .inl rfl, .refuse (.noMap tagged found)⟩
  | some entries =>
      have isMap : s.entries?.isSome = true := by rw [found]; rfl
      have reported : (unknownFields (fun name => name == tag || name == content) entries).log =
          .ok ((), { errors := u.siblings s }) := by
        rw [unknownFields_log, siblings, Site.entries, found]
        unfold isSibling
        rw [represented]
        rfl
      refine ⟨u.siblings s, .inr rfl, Ends.after ?_ reported⟩
      cases tagField : s.field? tag with
      | some part =>
          unfold Walk.withTag
          dsimp only
          cases text : part.value.text? with
          | none => exact .refuse (.field tagged tagField text)
          | some t =>
              apply Ends.agreed named (.field tagged tagField text)
              intro agrees
              apply Ends.adjacentNamed same resolvable represented isMap
              · exact .of_field named agrees tagged tagField text
              · exact .unknownField tagged tagField text
      | none =>
          have silent := not_tells tagged tagField
          have untagged : ∀ other ∈ u.representation.tag?, s.field? other = none := by
            intro other given
            rw [tagged] at given
            cases given
            exact tagField
          cases extension with
          | some name =>
              exact .adjacentNamed same resolvable represented isMap
                (.of_extension named silent untagged) (.unknownExtension named)
          | none =>
              dsimp only
              cases body : s.field? content with
              | none => exact .refuse (.noField tagged tagField named (.inl rfl))
              | some part =>
                  unfold Walk.untagged
                  rw [explicit, represented]
                  exact .refuse (.noField tagged tagField named
                    (.inr ⟨content, part, represented, body, rfl⟩))

section External

/-- The names in the list of the entries that name a variant. -/
theorem map_namedEntries (u : UnionType) (entries : List (Key × Site)) :
    (Walk.namedEntries u entries).map (·.2.1) =
      entries.filterMap fun e => e.1.spelling?.filter fun name => (u.find? name).isSome := by
  have unnumbered : (entries.mapIdx fun i e => (i, e)).map (·.2) = entries :=
    List.ext_getElem (by simp) (by simp)
  unfold Walk.namedEntries
  conv_rhs => rw [← unnumbered]
  rw [List.map_filterMap, List.filterMap_map]
  apply List.filterMap_congr
  rintro ⟨i, key, content⟩ -
  simp only [Function.comp_apply]
  cases key.spelling? with
  | none => rfl
  | some name => cases declared : (u.find? name).isSome <;> simp [Option.filter, declared]

variable (represented : u.representation = .external)

include represented

theorem Tells.key_of_external {name : Bytes} (told : u.Tells s name) :
    ∃ e ∈ s.entries, e.1.spelling? = some name ∧ (u.find? name).isSome = true := by
  cases told with
  | key external inside spelled declared => exact ⟨_, inside, spelled, declared⟩
  | field tagged found text =>
      rw [represented] at tagged
      cases tagged

/-- A name that the value gives is the one of an entry in the list. -/
theorem Tells.listed {name : Bytes} (told : u.Tells s name) :
    ∃ i content, (i, name, content) ∈ Walk.namedEntries u s.entries := by
  obtain ⟨e, inside, spelled, declared⟩ := told.key_of_external represented
  obtain ⟨i, below, rfl⟩ := List.getElem_of_mem inside
  exact ⟨i, _, mem_namedEntries.2 ⟨below, spelled, find?_isSome.1 declared, rfl⟩⟩

/-- If one entry alone names a variant, the others are its siblings. -/
theorem siblings_of_single {i : Nat} {name : Bytes} {content : Site}
    (single : Walk.namedEntries u s.entries = [(i, name, content)]) :
    (unknownFields (fun _ => false) (s.entries.eraseIdx i)).log =
      .ok ((), { errors := u.siblings s }) := by
  have listed : (i, name, content) ∈ Walk.namedEntries u s.entries := by rw [single]; simp
  obtain ⟨inside, spelled, declared, -⟩ := mem_namedEntries.1 listed
  have others : s.entries.eraseIdx i = s.entries.filter fun e => u.isSibling e.1 := by
    unfold isSibling
    rw [represented]
    apply eraseIdx_eq_filter inside
    · rw [spelled, Option.any_some, find?_isSome.2 declared]
      rfl
    · intro j below apart
      cases other : (s.entries[j].1.spelling?.any fun name => (u.find? name).isSome) with
      | false => rfl
      | true =>
          obtain ⟨name', spelled', declared'⟩ := (Option.any_eq_true _ _).1 other
          have again := mem_namedEntries.2 ⟨below, spelled', find?_isSome.1 declared', rfl⟩
          rw [single, List.mem_singleton] at again
          exact absurd (congrArg Prod.fst again) apart
  rw [unknownFields_log, others, siblings]
  simp

theorem Ends.external (explicit : w.isLenient = false) (named : s.value.NamesVariant extension) :
    ∃ reports, (reports = [] ∨ reports = u.siblings s) ∧
      Ends schema u s reports (w.external u s extension) := by
  have untagged : ∀ tag ∈ u.representation.tag?, s.field? tag = none := by
    rw [represented]
    intro tag given
    cases given
  unfold Walk.external
  rw [show s.entries?.getD [] = s.entries from rfl]
  dsimp only
  cases keys : Walk.namedEntries u s.entries with
  | nil =>
      have silent : ∀ name, ¬ u.Tells s name := by
        intro name told
        obtain ⟨i, content, listed⟩ := told.listed represented
        rw [keys] at listed
        cases listed
      refine ⟨[], .inl rfl, ?_⟩
      cases extension with
      | none => exact .refuse (.noKey represented named silent)
      | some name =>
          apply Ends.byExtension explicit named _ _ silent untagged
          · simp [represented]
          · simp
  | cons first rest =>
      obtain ⟨i, name, content⟩ := first
      have listed : (i, name, content) ∈ Walk.namedEntries u s.entries := by rw [keys]; simp
      obtain ⟨inside, spelled, declared, rfl⟩ := mem_namedEntries.1 listed
      have member := List.getElem_mem inside
      have declared := find?_isSome.2 declared
      have told : u.Tells s name := .key represented member spelled declared
      cases rest with
      | nil =>
          have only : ∀ other, u.Tells s other → other = name := by
            intro other told'
            obtain ⟨j, content, listed'⟩ := told'.listed represented
            rw [keys, List.mem_singleton] at listed'
            exact congrArg (fun item => item.2.1) listed'
          show ∃ reports, _ ∧ Ends schema u s reports (Walk.agreed s extension name _)
          unfold Walk.agreed
          cases conflict : Walk.conflicts extension name with
          | true =>
              obtain ⟨other, rfl, different⟩ := (Option.any_eq_true _ _).1 conflict
              exact ⟨[], .inl rfl, .refuse (.conflict named told (by simpa using different))⟩
          | false =>
              have agrees : ∀ other ∈ extension, other = name := by
                intro other given
                rw [Option.mem_def] at given
                subst given
                simpa [Walk.conflicts] using conflict
              refine ⟨u.siblings s, .inr rfl, ?_⟩
              apply Ends.after _ (siblings_of_single represented keys)
              apply Ends.choose (.of_key named agrees represented member spelled declared only)
              · exact .entry represented member spelled
              · intro undeclared
                rw [undeclared] at declared
                cases declared
      | cons second rest =>
          have several := map_namedEntries u s.entries
          rw [keys] at several
          refine ⟨[], .inl rfl, .refuse (.several represented several ?_)⟩
          simp only [List.map_cons, List.length_cons]
          omega

end External

/-- Given what the extension names, each representation ends the search as it should. -/
theorem Ends.represented (same : w.schema = schema) (explicit : w.isLenient = false)
    (resolvable : ∀ v ∈ u.variants, schema.IsResolvable v.schema)
    (named : s.value.NamesVariant extension) :
    ∃ reports, (reports = [] ∨ reports = u.siblings s) ∧ Ends schema u s reports
      (match u.representation with
      | .tagged => w.byExtension u s extension
      | .external => w.external u s extension
      | .internal tag => w.internal u tag s extension
      | .adjacent tag content => w.adjacent u tag content s extension) := by
  cases represented : u.representation with
  | tagged =>
      have silent : ∀ name, ¬ u.Tells s name := by
        rintro name (⟨external, -, -, -⟩ | ⟨tagged, -, -⟩)
        · cases represented.symm.trans external
        · rw [represented] at tagged
          cases tagged
      refine ⟨[], .inl rfl, .byExtension explicit named ?_ ?_ silent ?_⟩ <;>
        simp [represented, Representation.tag?]
  | external => exact Ends.external represented explicit named
  | internal tag => exact ⟨[], .inl rfl, .internal explicit named represented⟩
  | adjacent tag content => exact Ends.adjacent same explicit named resolvable represented

theorem Ends.dispatch (same : w.schema = schema) (explicit : w.isLenient = false)
    (resolvable : ∀ v ∈ u.variants, schema.IsResolvable v.schema) :
    ∃ reports, (reports = [] ∨ reports = u.siblings s) ∧
      Ends schema u s reports (w.dispatch u s) := by
  unfold Walk.dispatch
  cases found : s.value.extension? "variant" with
  | none =>
      apply Ends.represented same explicit resolvable
      unfold Value.NamesVariant
      rw [found]
  | some extension =>
      cases text : extension.text? with
      | none =>
          simp only [text]
          exact ⟨[], .inl rfl, .refuse (.extension found text)⟩
      | some t =>
          simp only [text]
          apply Ends.represented same explicit resolvable
          unfold Value.NamesVariant
          rw [found]
          exact ⟨t, text, rfl⟩

/-- A refusal is no report of a sibling. -/
theorem Refuses.ne_sibling {e : Finding} (refused : u.Refuses schema s e) : e ∉ u.siblings s := by
  have other : ∀ label, e.mismatch ≠ .unknownField label := by
    intro label
    cases refused <;> exact fun same => nomatch same
  intro listed
  obtain ⟨entry, -, rfl⟩ := List.mem_map.1 listed
  exact other _ rfl

end UnionType

/-- The log of a check of a union that ends with an outcome: what the search reports, then the
selection and the log of the content. -/
def Outcome.EndsIn (w : Walk) (u : UnionType) (s : Site) (reports : List Finding) : Outcome → Prop
  | .selected c =>
    (w.union u s).log = (w.variant c.variant.schema c.tag c.target).log.map (Prod.map id fun f =>
      { errors := reports, selections := [⟨s.position, u.id, c.variant.schema, c.target⟩] } ++ f)
  | outcome => (w.union u s).log = .ok ((), { errors := reports ++ outcome.errors })

/-- The log of a search tells its outcome. -/
theorem Outcome.unique {schema : Schema} {u : UnionType} {s : Site} {first second : Outcome}
    {reports reports' : List Finding} (due : first.IsDue schema u s)
    (beside : reports = [] ∨ reports = u.siblings s) (due' : second.IsDue schema u s)
    (beside' : reports' = [] ∨ reports' = u.siblings s)
    (logs : (Except.ok (first.choice?, { errors := reports ++ first.errors }) :
        Except Failure (Option Choice × Findings)) =
      .ok (second.choice?, { errors := reports' ++ second.errors })) : first = second := by
  have known {e : Finding} {list : List Finding} (either : list = [] ∨ list = u.siblings s)
      (refused : u.Refuses schema s e) : e ∉ list := by
    rcases either with rfl | rfl
    · exact List.not_mem_nil
    · exact refused.ne_sibling
  have logs := Except.ok.inj logs
  have choices := congrArg Prod.fst logs
  have errors : reports ++ first.errors = reports' ++ second.errors :=
    congrArg (fun found => found.2.errors) logs
  cases first with
  | selected c =>
      cases second with
      | selected c' =>
          cases choices
          rfl
      | contentless => cases choices
      | refused e => cases choices
  | contentless =>
      cases second with
      | selected c' => cases choices
      | contentless => rfl
      | refused e =>
          have listed : e ∈ reports ++ Outcome.contentless.errors := by
            rw [errors]
            exact List.mem_append_right _ List.mem_cons_self
          exact absurd (by simpa [Outcome.errors] using listed) (known beside due')
  | refused e =>
      cases second with
      | selected c' => cases choices
      | contentless =>
          have listed : e ∈ reports' ++ Outcome.contentless.errors := by
            rw [← errors]
            exact List.mem_append_right _ List.mem_cons_self
          exact absurd (by simpa [Outcome.errors] using listed) (known beside' due)
      | refused e' =>
          have last := congrArg List.getLast? errors
          simp only [Outcome.errors, List.getLast?_append, List.getLast?_singleton,
            Option.some_or] at last
          cases last
          rfl

namespace Schema

variable {schema : Schema} {settings : Settings} {level : Nat} {u : UnionType} {s : Site}
  {metadata : Metadata}

/-- All that a check of a union selects at the value for the union itself is the variant that the
search has chosen. -/
theorem selects_chosen {choice : Option Choice} {f g : Findings}
    (found : schema.node? u.id = some ⟨.union u.variants u.representation, metadata⟩)
    (explicit : settings.isLenient = false)
    (searched : ((schema.walk settings level).dispatch u s).log = .ok (choice, g))
    (checked : ((schema.walk settings level).union u s).log = .ok ((), f)) :
    ∀ d ∈ f.selections, d.position = s.position → d.union = u.id →
      ∃ c, choice = some c ∧ d.variant = c.variant.schema ∧ d.target = c.target := by
  intro d member here same
  have chooses : schema.Chooses s d := by
    rcases union_selects ⟨f, checked, rfl⟩ with ⟨_, -, none⟩ | ⟨c, h, ds, logged, rest, all⟩
    · rw [none] at member
      cases member
    rw [all] at member
    rcases List.mem_cons.1 member with rfl | later
    · refine ⟨u.variants, u.representation, metadata, c, h, found, ?_, rfl, rfl⟩
      rw [← logged, walk, explicit]
      rfl
    · have fits := (Walk.picks_dispatch _ u s _ h logged).1 c rfl
      have yields := variant_yields (fun id s cs => check_yields level id s cs) rest d later
      exact (Yields.of_variant .refl found fits yields).chosen here explicit
  have searched' : ((schema.walk settings level).dispatch ⟨d.union, u.variants, u.representation⟩ s).log =
      .ok (choice, g) := by
    rw [same]
    exact searched
  obtain ⟨c, chosen, variant, target⟩ := chooses.unique explicit (same ▸ found) searched'
  exact ⟨c, chosen, variant.symm, target.symm⟩

end Schema

/-- Quantities, wrapped by the unit in which they are given. -/
private def quantities : Schema where
  nodes := #[⟨.integer {} none, {}⟩, ⟨.union [⟨"m", 0⟩, ⟨"s", 0⟩] .external, {}⟩]

private def stray : Site where
  value := .of (.map [(.ident "x", .of .hole), (.ident "m", .of (.primitive (.int 5)))])

end DocSchema
