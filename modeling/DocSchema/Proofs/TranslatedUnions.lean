import Mathlib.Data.List.InsertIdx
import DocSchema.Proofs.TranslatedWalks

set_option autoImplicit false

namespace DocSchema

open Walker (Translated)

variable {τ : Translation}

namespace Translation

variable (τ)

def union (u : UnionType) : UnionType :=
  { u with variants := u.variants.map (Variant.mapType τ.type) }

/-- The choice of the translated variant. -/
def choice (c : Choice) : Choice :=
  ⟨c.variant.mapType τ.type, τ.site c.target, c.tag⟩

theorem union_find? (u : UnionType) (name : Bytes) :
    (τ.union u).find? name = (u.find? name).map (Variant.mapType τ.type) :=
  List.find?_map ..

theorem filterMap_spelling? (entries : List (Key × Site)) :
    (entries.map τ.entry).filterMap (fun e => e.1.spelling?) = entries.filterMap fun e =>
      e.1.spelling? := by
  rw [List.filterMap_map]
  rfl

theorem union_namedEntries (u : UnionType) (entries : List (Key × Site)) :
    Walk.namedEntries (τ.union u) (entries.map τ.entry) =
      (Walk.namedEntries u entries).map fun e => (e.1, e.2.1, τ.site e.2.2) := by
  have numbered : (entries.map τ.entry).mapIdx (fun i e => (i, e)) =
      (entries.mapIdx fun i e => (i, e)).map fun e => (e.1, τ.entry e.2) := by
    apply List.ext_getElem <;> simp
  unfold Walk.namedEntries
  rw [numbered, List.filterMap_map, List.map_filterMap]
  refine List.filterMap_congr fun e _ => ?_
  obtain ⟨i, key, content⟩ := e
  simp only [Function.comp_apply, entry, union_find?, Option.isSome_map]
  cases key.spelling? with
  | none => rfl
  | some name =>
      simp only [Option.bind_some]
      split <;> rfl

end Translation

namespace Walk

abbrev Chooses (τ : Translation) (x y : Walker (Option Choice)) : Prop :=
  Walker.Translated τ (Option.map τ.choice) x y

variable {w w' : Walk} {u : UnionType} {s : Site}

theorem refuse_translated (path : Path) (m : Mismatch) :
    Chooses τ (refuse path m) (refuse (τ.above ++ path) m) :=
  (Walker.Translated.report path m).bind fun _ => .pure rfl

theorem choose_translated (name : Bytes) (target : Site) (tagPath : Path) (tag : Option Bytes) :
    Chooses τ (choose u name target tagPath tag)
      (choose (τ.union u) name (τ.site target) (τ.above ++ tagPath) tag) := by
  unfold choose
  rw [τ.union_find?]
  cases u.find? name with
  | none => exact refuse_translated tagPath _
  | some v => exact .pure rfl

theorem hasRequired_translated (fields : List (Field SchemaId)) (present : List Bytes) :
    hasRequired (fields.map (Field.mapType τ.type)) present = hasRequired fields present :=
  List.all_map ..

theorem covers_translated (fields : List (Field SchemaId)) (present : List Bytes) :
    covers (fields.map (Field.mapType τ.type)) present = covers fields present := by
  unfold covers
  simp only [List.any_map]
  rfl

def translateCandidate (τ : Translation) (c : Variant SchemaId × Bool) : Variant SchemaId × Bool :=
  (c.1.mapType τ.type, c.2)

theorem choice?_translated (candidates : List (Variant SchemaId × Bool)) :
    choice? (candidates.map (translateCandidate τ)) =
      (choice? candidates).map (Variant.mapType τ.type) := by
  have covering : (candidates.map (translateCandidate τ)).filter (·.2) =
      (candidates.filter (·.2)).map (translateCandidate τ) := List.filter_map ..
  unfold choice?
  rw [covering]
  cases candidates with
  | nil => rfl
  | cons c cs =>
      cases cs with
      | nil => rfl
      | cons d cs =>
          dsimp only [List.map_cons]
          cases (c :: d :: cs).filter (·.2) with
          | nil => rfl
          | cons e es => cases es <;> rfl

theorem agreed_translated {x y : Walker (Option Choice)} (chosen : Chooses τ x y)
    (extension : Option Bytes)
    (name : Bytes) :
    Chooses τ (agreed s extension name x) (agreed (τ.site s) extension name y) := by
  unfold agreed
  split
  · exact refuse_translated s.path _
  · exact chosen

theorem extensionPath_translated : extensionPath (τ.site s) = τ.above ++ extensionPath s :=
  List.append_assoc ..

theorem withTag_translated {field : Site} {h k : Bytes → Walker (Option Choice)}
    (next : ∀ name, Chooses τ (h name) (k name)) :
    Chooses τ (withTag field h) (withTag (τ.site field) k) := by
  unfold withTag
  rw [τ.site_value]
  split
  · exact next _
  · exact refuse_translated field.path _

namespace Translated

variable (walks : w.Translated τ w')

include walks

theorem candidate? (s : Site) (v : Variant SchemaId) :
    Walker.Translated τ id (w.candidate? s v) (w'.candidate? (τ.site s) (v.mapType τ.type)) := by
  have tried : Walker.Translated τ id
      (do return if ← Walker.accepts (w.check v.schema s) then some false else none)
      (do return if ← Walker.accepts (w'.check (τ.type v.schema) (τ.site s)) then some false else none) :=
    (walks.check v.schema s).accepts.bind fun _ => .pure rfl
  unfold Walk.candidate?
  refine (walks.schema.target v.schema s.path).bind fun a => ?_
  cases a with
  | undefined name => exact .pure rfl
  | node target n =>
      obtain ⟨shape, metadata⟩ := n
      cases shape with
      | record fields allowsUnknown =>
          simp only [Target.mapTypes, SchemaNode.mapTypes, Shape.mapTypes, τ.site_entries?]
          cases s.entries? with
          | none => exact tried
          | some entries =>
              simp only [Option.map_some, τ.filterMap_spelling?, hasRequired_translated,
                covers_translated]
              exact .pure rfl
      | _ => exact tried

theorem candidates (s : Site) (vs : List (Variant SchemaId)) :
    Walker.Translated τ (List.map (translateCandidate τ)) (w.candidates s vs)
      (w'.candidates (τ.site s) (vs.map (Variant.mapType τ.type))) := by
  induction vs with
  | nil => exact .pure rfl
  | cons v vs ih =>
      refine (walks.candidate? s v).bind fun found => ih.bind fun rest => .pure ?_
      cases found <;> rfl

theorem infer (target : Site) :
    Chooses τ (w.infer u target) (w'.infer (τ.union u) (τ.site target)) := by
  unfold Walk.infer
  refine (walks.candidates target u.variants).bind fun found => ?_
  rw [choice?_translated]
  cases choice? found with
  | some v => exact choose_translated v.name target target.path none
  | none =>
      dsimp only [Option.map_none]
      rw [List.isEmpty_map, List.map_map]
      split
      · exact refuse_translated target.path _
      · exact refuse_translated target.path _

theorem untagged (target : Site) :
    Chooses τ (w.untagged u target) (w'.untagged (τ.union u) (τ.site target)) := by
  unfold Walk.untagged
  rw [walks.isLenient]
  split
  · exact walks.infer target
  · simp only [Translation.union]
    cases u.representation <;> exact refuse_translated target.path _

theorem byExtension (s : Site) (extension : Option Bytes) :
    Chooses τ (w.byExtension u s extension) (w'.byExtension (τ.union u) (τ.site s) extension) := by
  unfold Walk.byExtension
  rw [extensionPath_translated]
  cases extension with
  | some name => exact choose_translated name s _ none
  | none => exact walks.untagged s

theorem external (s : Site) (extension : Option Bytes) :
    Chooses τ (w.external u s extension) (w'.external (τ.union u) (τ.site s) extension) := by
  have entries : (τ.site s).entries?.getD [] = (s.entries?.getD []).map τ.entry := by
    rw [τ.site_entries?]
    cases s.entries? <;> rfl
  unfold Walk.external
  dsimp only
  rw [entries, τ.union_namedEntries]
  cases named : namedEntries u (s.entries?.getD []) with
  | nil =>
      dsimp only [List.map_nil]
      split
      · exact walks.byExtension s extension
      · exact refuse_translated s.path _
  | cons first others =>
      obtain ⟨i, name, content⟩ := first
      cases others with
      | nil =>
          refine agreed_translated ?_ extension name
          rw [List.eraseIdx_map]
          exact (unknownFields_translated _ _).bind
            fun _ => choose_translated name content content.path none
      | cons second others =>
          simp only [List.map_cons, List.map_map]
          exact refuse_translated s.path _

theorem internal (tag : Bytes) (s : Site) (extension : Option Bytes) :
    Chooses τ (w.internal u tag s extension)
      (w'.internal (τ.union u) tag (τ.site s) extension) := by
  unfold Walk.internal
  rw [τ.site_entries?, Option.isNone_map, τ.site_field?]
  split
  · exact refuse_translated s.path _
  · cases s.field? tag with
    | none => exact walks.byExtension s extension
    | some field =>
        refine withTag_translated fun name => agreed_translated ?_ extension name
        exact choose_translated name s field.path (some tag)

theorem contentless (content name : Bytes) (s : Site) (tagPath : Path) :
    Walker.Translated τ id (w.contentless u content name s tagPath)
      (w'.contentless (τ.union u) content name (τ.site s) (τ.above ++ tagPath)) := by
  unfold Walk.contentless
  rw [τ.union_find?]
  cases u.find? name with
  | none => exact .report tagPath _
  | some v =>
      refine (walks.schema.follow v.schema s.path).bind fun a => ?_
      cases a with
      | none => exact .pure rfl
      | some found =>
          simp only [Option.map_some, Prod.map, SchemaNode.mapTypes, Shape.isNull_mapTypes,
            τ.site_path, List.append_assoc]
          exact Check.expect_translated _ _ _

theorem adjacentNamed (content name : Bytes) (s : Site) (tagPath : Path) :
    Chooses τ (w.adjacentNamed u content name s tagPath)
      (w'.adjacentNamed (τ.union u) content name (τ.site s) (τ.above ++ tagPath)) := by
  unfold Walk.adjacentNamed
  rw [τ.site_field?]
  cases s.field? content with
  | some part => exact choose_translated name part tagPath none
  | none => exact (walks.contentless content name s tagPath).bind fun _ => .pure rfl

theorem adjacent (tag content : Bytes) (s : Site) (extension : Option Bytes) :
    Chooses τ (w.adjacent u tag content s extension)
      (w'.adjacent (τ.union u) tag content (τ.site s) extension) := by
  unfold Walk.adjacent
  rw [τ.site_entries?, τ.site_field?, τ.site_field?, extensionPath_translated]
  cases s.entries? with
  | none => exact refuse_translated s.path _
  | some entries =>
      refine (unknownFields_translated _ entries).bind fun _ => ?_
      cases s.field? tag with
      | some field =>
          refine withTag_translated fun name => agreed_translated ?_ extension name
          exact walks.adjacentNamed content name s field.path
      | none =>
          cases extension with
          | some name => exact walks.adjacentNamed content name s (extensionPath s)
          | none =>
              cases s.field? content with
              | some part => exact walks.untagged part
              | none => exact refuse_translated s.path _

/-- The same variant is chosen, whichever way it is named or inferred. -/
theorem dispatch (s : Site) : Chooses τ (w.dispatch u s) (w'.dispatch (τ.union u) (τ.site s)) := by
  unfold Walk.dispatch
  extract_lets named named'
  have chosen (extension : Option Bytes) : Chooses τ (named extension) (named' extension) := by
    have same : (τ.union u).representation = u.representation := rfl
    unfold named named'
    rw [same]
    cases u.representation with
    | tagged => exact walks.byExtension s extension
    | external => exact walks.external s extension
    | internal tag => exact walks.internal tag s extension
    | adjacent tag content => exact walks.adjacent tag content s extension
  rw [τ.site_value, extensionPath_translated]
  cases s.value.extension? "variant" with
  | none => exact chosen none
  | some extension =>
      dsimp only
      cases extension.text? with
      | some text => exact chosen _
      | none => exact refuse_translated _ _

theorem variant (x : SchemaId) (tag : Option Bytes) (s : Site) :
    Walker.Translated τ id (w.variant x tag s) (w'.variant (τ.type x) tag (τ.site s)) := by
  cases tag with
  | none => exact walks.check x s
  | some name =>
      refine (walks.schema.follow x s.path).bind fun a => ?_
      cases a with
      | none => exact .pure rfl
      | some found =>
          obtain ⟨target, shape, metadata⟩ := found
          cases shape with
          | record fields allowsUnknown => exact walks.record fields allowsUnknown (some name) s
          | null =>
              dsimp only [Option.map_some, Prod.map, SchemaNode.mapTypes, Shape.mapTypes]
              rw [τ.site_entries?]
              cases s.entries? with
              | none => exact .pure rfl
              | some entries => exact unknownFields_translated _ entries
          | _ => exact walks.check x s

theorem union (u : UnionType) (s : Site) :
    Walker.Translated τ id (w.union u s) (w'.union (τ.union u) (τ.site s)) := by
  refine (walks.dispatch s).bind fun a => ?_
  cases a with
  | none => exact .pure rfl
  | some c =>
      refine (Walker.Translated.select ⟨s.position, u.id, c.variant.schema, c.target⟩).bind
        fun _ => ?_
      exact walks.variant c.variant.schema c.tag c.target

/-- Values are checked against a shape alike. -/
theorem shape (x : SchemaId) (s : Site) (shape : Shape SchemaId) :
    Walker.Translated τ id (w.shape x s shape) (w'.shape x (τ.site s) (shape.mapTypes τ.type)) := by
  cases shape with
  | record fields allowsUnknown => exact walks.record fields allowsUnknown none s
  | array item length isUnique => exact walks.array item length isUnique s
  | map key value size => exact walks.map key value size s
  | tuple elements => exact walks.tuple elements s
  | union variants representation => exact walks.union ⟨x, variants, representation⟩ s
  | any => exact .pure rfl
  | reference name => exact .abort (.of_flaw s.path _)
  | literal expected => exact Check.expect_translated _ s.path _
  | text length pattern language =>
      unfold Walk.shape
      dsimp only [Shape.mapTypes]
      rw [τ.site_value]
      split
      · exact Check.text_translated length pattern language _ s.path
      · exact Check.wrongKind_translated _ s
  | integer range multipleOf =>
      unfold Walk.shape
      dsimp only [Shape.mapTypes]
      rw [τ.site_value]
      split
      · exact Check.integer_translated range multipleOf _ s.path
      · exact Check.wrongKind_translated _ s
  | float range multipleOf =>
      unfold Walk.shape
      dsimp only [Shape.mapTypes]
      rw [τ.site_value]
      split
      · exact Check.float_translated range multipleOf _ s.path
      · exact Check.wrongKind_translated _ s
  | boolean | null =>
      unfold Walk.shape
      dsimp only [Shape.mapTypes]
      rw [τ.site_value]
      split
      · exact .pure rfl
      · exact Check.wrongKind_translated _ s

end Translated

end Walk

namespace Translation

variable (τ)

def part (p : SchemaId × Site × Bool) : SchemaId × Site × Bool :=
  (τ.type p.1, τ.site p.2.1, p.2.2)

theorem last?_selections (selections : List Selection) (x : SchemaId) (s : Site) :
    Selection.last? (selections.map τ.selection) x (τ.site s) =
      (Selection.last? selections x s).map τ.selection := by
  have same (c : Selection) :
      (τ.base ++ c.position == τ.base ++ s.position) = (c.position == s.position) := by
    rw [Bool.eq_iff_iff, beq_iff_eq, beq_iff_eq, List.append_cancel_left_eq]
  unfold Selection.last?
  rw [← List.map_reverse, List.find?_map]
  refine congrArg (fun p => (selections.reverse.find? p).map τ.selection) (funext fun c => ?_)
  exact congrArg (c.union == x && ·) (same c)

theorem site_required (s : Site) (selections : List Selection) (x : SchemaId)
    (shape : Shape SchemaId) :
    (τ.site s).required (selections.map τ.selection) x (shape.mapTypes τ.type) =
      (s.required selections x shape).map τ.part := by
  cases shape with
  | record fields allowsUnknown =>
      simp only [Shape.mapTypes, Site.required, List.filterMap_map, List.map_filterMap]
      refine List.filterMap_congr fun f _ => ?_
      simp only [Function.comp_apply, Field.mapType, τ.site_field?, Option.map_map]
      rfl
  | array item length isUnique =>
      simp only [Shape.mapTypes, Site.required, τ.site_array?]
      cases s.array? <;> simp [part]
  | map key value size =>
      simp only [Shape.mapTypes, Site.required, τ.site_entries?]
      cases s.entries? <;> simp [part, entry]
  | tuple elements =>
      simp only [Shape.mapTypes, Site.required, τ.site_tuple?]
      cases s.tuple? <;> simp [part, List.zip_map]
  | union variants representation =>
      simp only [Shape.mapTypes, Site.required, last?_selections]
      cases Selection.last? selections x s <;> rfl
  | _ => rfl

end Translation

theorem Check.hole_translated (path : Path) (isOptional : Bool) (shape : Shape SchemaId) :
    Translated τ id (Check.hole path isOptional shape)
      (Check.hole (τ.above ++ path) isOptional (shape.mapTypes τ.type)) := by
  unfold Check.hole
  rw [Shape.isAny_mapTypes]
  split
  · exact .pure rfl
  · exact .reportMissing path

namespace Schema.Translated

variable {s s' : Schema} (schemas : s.Translated τ s')

include schemas

theorem deprecation {n : SchemaNode} (x : SchemaId) (path : Path) :
    Walker.Translated τ id (Check.deprecation (s.isDeprecated x || n.metadata.isDeprecated) path)
      (Check.deprecation (s'.isDeprecated (τ.type x) || n.metadata.isDeprecated) (τ.above ++ path)) := by
  have findings (isDeprecated : Bool) (path : Path) :
      (Check.deprecation isDeprecated path).log =
        .ok ((), { warnings := if isDeprecated then [(path, .deprecated)] else [] }) := by
    cases isDeprecated <;> rfl
  refine .found (findings _ _) (findings _ _) ⟨rfl, fun faithful => ?_, rfl, rfl⟩
  rw [schemas.isDeprecated faithful]
  split <;> rfl

/-- The check of the structure finds the same, translated. -/
theorem check (settings : Settings) (depth : Nat) (x : SchemaId) (site : Site) :
    Walker.Translated τ id (s.check settings depth x site)
      (s'.check settings depth (τ.type x) (τ.site site)) := by
  induction depth generalizing x site with
  | zero => exact .report site.path _
  | succ depth ih =>
      refine (schemas.follow x site.path).bind fun a => ?_
      cases a with
      | none => exact .pure rfl
      | some found =>
          dsimp only [Option.map_some, Prod.map]
          rw [τ.site_value]
          split
          · exact .pure rfl
          · refine (schemas.deprecation x site.path).bind fun _ => ?_
            have walks : Walk.Translated ⟨s, settings.isLenient, s.check settings depth⟩ τ
                ⟨s', settings.isLenient, s'.check settings depth⟩ := ⟨schemas, rfl, ih⟩
            exact walks.shape found.1 site found.2.shape

/-- The search for holes finds the same, translated. -/
theorem complete (selections : List Selection) (depth : Nat) (x : SchemaId) (site : Site)
    (isOptional : Bool) :
    Walker.Translated τ id (s.complete selections depth x site isOptional)
      (s'.complete (selections.map τ.selection) depth (τ.type x) (τ.site site) isOptional) := by
  induction depth generalizing x site isOptional with
  | zero => exact .pure rfl
  | succ depth ih =>
      refine (schemas.target x site.path).bind fun a => ?_
      cases a with
      | undefined name => exact .pure rfl
      | node target n =>
          dsimp only [Target.mapTypes, SchemaNode.mapTypes]
          rw [τ.site_value, τ.site_required]
          split
          · exact Check.hole_translated site.path isOptional n.shape
          · exact .forM _ fun p => ih p.1 p.2.1 p.2.2

end Schema.Translated

end DocSchema
